import Mathlib.Data.List.Infix
import ParamSchema.Payload.Merge
import ParamSchema.Proofs.Defaults.Evaluation
import ParamSchema.Proofs.Strings.Splitting

/-!
What string literals give. However a text is spelled, reading the literal gives the code points that
its characters and escapes stand for, one by one (`StringLiteral.Spells.exists_splits`); all that
can be lost is a separator behind a carriage return (`StringLiteral.LosesSeparator`). The value
stands between double quotes as a default value, and dropping these quotes gives it back
(`StringLiteral.withoutQuotes_quoted`). So a literal gives the text that it means unless it spells a
half of a surrogate pair or loses a separator (`StringLiteral.value_of_spelling_iff`).
-/

namespace ParamSchema

open Parse (Input Reader escapeLength)

/-! ### Nodes without their roles -/

theorem Node.kind_bare (n : Node) : n.bare.kind = n.kind := by cases n; rfl

theorem SourceFile.textOf_bare (file : SourceFile) (n : Node) :
    file.textOf n.bare = file.textOf n := by
  cases n; rfl

theorem SourceFile.stringValue_bare (file : SourceFile) (n : Node) :
    file.stringValue n.bare = file.stringValue n := by
  cases n; rfl

namespace StringLiteral

/-! ### Separators behind a carriage return -/

/-- A carriage return stands directly before a separator. Between quotes it ends a line behind a
backslash, and the grammar takes the separator for a part of that end. -/
def LosesSeparator (w : List Char) : Prop := ∃ c, isSeparator c = true ∧ ['\r', c] <:+: w

theorem not_losesSeparator_nil : ¬ LosesSeparator [] := by simp [LosesSeparator]

theorem losesSeparator_cons {c : Char} {w : List Char} : LosesSeparator (c :: w) ↔
    (c = '\r' ∧ ∃ d ∈ w.head?, isSeparator d = true) ∨ LosesSeparator w := by
  have starts {d : Char} : [d] <+: w ↔ w.head? = some d := by
    rw [List.head?_eq_some_iff]
    exact exists_congr fun rest => eq_comm
  simp only [LosesSeparator, List.infix_cons_iff, List.cons_prefix_cons, starts]
  constructor
  · rintro ⟨d, separator, ⟨rfl, head⟩ | inside⟩
    · exact .inl ⟨rfl, d, head, separator⟩
    · exact .inr ⟨d, separator, inside⟩
  · rintro (⟨rfl, d, head, separator⟩ | ⟨d, separator, inside⟩)
    · exact ⟨d, separator, .inl ⟨rfl, head⟩⟩
    · exact ⟨d, separator, .inr inside⟩

theorem losesSeparator_append {e w : List Char} (other : '\r' ∉ e) :
    LosesSeparator (e ++ w) ↔ LosesSeparator w := by
  induction e with
  | nil => rfl
  | cons c e ih =>
    rw [List.mem_cons, not_or] at other
    rw [List.cons_append, losesSeparator_cons, ih other.2]
    simp [Ne.symm other.1]

theorem Escapes.losesSeparator_iff {quote : Char} {e w : List Char} {x : Text}
    (h : Escapes (w.headD quote) e x)
    (separate : e = ['\\', '\r'] → isSeparator (w.headD quote) = false) :
    LosesSeparator (e ++ w) ↔ LosesSeparator w := by
  have digits {ds : List Char} {n : Nat} (h : Numeral.Digits 16 (Text.ofChars ds) n) :
      '\r' ∉ ds := by
    intro mem
    exact absurd (isHexDigit_of_digits h _ mem) (by decide)
  cases h with
  | control known _ =>
    have all : ∀ p ∈ controls, '\r' ∉ ['\\', p.1] := by decide
    exact losesSeparator_append (all _ known)
  | plain plain =>
    refine losesSeparator_append ?_
    rw [List.mem_pair]
    rintro (other | rfl)
    · cases other
    · cases plain
  | hexadecimal _ h => exact losesSeparator_append (by simpa using digits h)
  | unicode _ h => exact losesSeparator_append (by simpa using digits h)
  | braced _ h => exact losesSeparator_append (by simpa using digits h)
  | lineFeed => exact losesSeparator_append (by decide)
  | carriageReturn =>
    have apart := separate rfl
    simp only [List.cons_append, List.nil_append, losesSeparator_cons]
    cases w with
    | nil => simp
    | cons c w =>
      have apart' : isSeparator c = false := apart
      simp [apart']
  | both =>
    simp [losesSeparator_cons, (by decide : isSeparator '\n' = false)]

/-! ### From spellings to pieces -/

/-- What reading keeps of the code points of a spelling: all of them, unless a separator is lost;
halves of surrogate pairs stay in any case. -/
structure Kept (w : List Char) (t v : Text) : Prop where
  whole : ¬ LosesSeparator w → v = t
  shorter : LosesSeparator w → v.length < t.length
  halves : v.hasSurrogate = t.hasSurrogate

theorem kept_nil : Kept [] [] [] where
  whole _ := rfl
  shorter loses := absurd loses not_losesSeparator_nil
  halves := rfl

theorem Kept.append {e w : List Char} {x t v : Text} (h : Kept w t v)
    (same : LosesSeparator (e ++ w) ↔ LosesSeparator w) : Kept (e ++ w) (x ++ t) (x ++ v) where
  whole keeps := by rw [h.whole (mt same.mpr keeps)]
  shorter loses := by
    have := h.shorter (same.mp loses)
    rw [List.length_append, List.length_append]
    omega
  halves := by
    have := h.halves
    simp only [Text.hasSurrogate] at this
    simp only [Text.hasSurrogate, List.any_append, this]

theorem Kept.length_le {w : List Char} {t v : Text} (h : Kept w t v) : v.length ≤ t.length := by
  by_cases loses : LosesSeparator w
  · exact (h.shorter loses).le
  · rw [h.whole loses]

theorem hasSurrogate_cons (c : Char) (t : Text) :
    Text.hasSurrogate (chr c :: t) = t.hasSurrogate := by
  rw [Text.hasSurrogate, List.any_cons, Utf8.isSurrogate_ofChar, Bool.false_or, Text.hasSurrogate]

/-- A separator behind a carriage return is lost. -/
theorem Kept.lose {c : Char} {w : List Char} {t v : Text} (h : Kept w t v)
    (separator : isSeparator c = true) : Kept ('\\' :: '\r' :: c :: w) (chr c :: t) v where
  whole keeps := by
    refine absurd ?_ keeps
    rw [losesSeparator_cons, losesSeparator_cons]
    exact .inr (.inl ⟨rfl, c, rfl, separator⟩)
  shorter _ := Nat.lt_succ_of_le h.length_le
  halves := h.halves.trans (hasSurrogate_cons c t).symm

/-- What is kept behind a character that stands for itself. -/
theorem Kept.of_cons {c : Char} {w : List Char} {t v : Text}
    (h : Kept (c :: w) (chr c :: t) (chr c :: v)) (other : c ≠ '\r') : Kept w t v := by
  have same : LosesSeparator (c :: w) ↔ LosesSeparator w := by simp [losesSeparator_cons, other]
  exact {
    whole keeps := (List.cons.inj (h.whole (mt same.mp keeps))).2
    shorter loses := Nat.lt_of_succ_lt_succ (h.shorter (same.mpr loses))
    halves := by
      have halves := h.halves
      rwa [hasSurrogate_cons, hasSurrogate_cons] at halves }

/-- A character that stands for itself goes into the run that follows it. -/
theorem Splits.raw {quote c : Char} {w : List Char} {v : Text} (h : Splits quote w v)
    (raw : isRaw quote c = true) : Splits quote (c :: w) (chr c :: v) := by
  have single {w : List Char} {v : Text} (stops : ∀ d ∈ w.head?, isRaw quote d = false)
      (rest : Splits quote w v) : Splits quote ([c] ++ w) (Text.ofChars [c] ++ v) :=
    .fragment (List.cons_ne_nil _ _) (by simpa using raw) stops rest
  cases h with
  | nil => exact single (by simp) .nil
  | @fragment run w v _ raw' stops rest =>
    have longer : Splits quote ((c :: run) ++ w) (Text.ofChars (c :: run) ++ v) :=
      .fragment (List.cons_ne_nil _ _) (by simpa using ⟨raw, raw'⟩) stops rest
    exact longer
  | @escape e w x v starts length decoded rest =>
    refine single ?_ (.escape starts length decoded rest)
    obtain ⟨e, rfl⟩ := List.head?_eq_some_iff.mp starts
    intro d head
    cases head
    exact not_isRaw_backslash quote

/-- What is left of a run without its first character. -/
theorem Splits.of_raw {quote c : Char} {w : List Char} {v : Text} (h : Splits quote (c :: w) v)
    (raw : isRaw quote c = true) : ∃ v', v = chr c :: v' ∧ Splits quote w v' := by
  generalize form : c :: w = u at h
  cases h with
  | nil => cases form
  | @fragment run w' v filled raw' stops rest =>
    obtain ⟨d, run, rfl⟩ := List.exists_cons_of_ne_nil filled
    obtain ⟨rfl, rfl⟩ := List.cons.inj form
    by_cases none : run = []
    · subst none
      exact ⟨v, rfl, rest⟩
    · exact ⟨Text.ofChars run ++ v, rfl,
        .fragment none (fun d mem => raw' d (List.mem_cons_of_mem _ mem)) stops rest⟩
  | @escape e w' x v starts =>
    obtain ⟨e, rfl⟩ := List.head?_eq_some_iff.mp starts
    obtain ⟨rfl, -⟩ := List.cons.inj form
    rw [not_isRaw_backslash] at raw
    cases raw

theorem Escapes.exists_tail {next : Char} {e : List Char} {x : Text} (h : Escapes next e x) :
    ∃ e', e = '\\' :: e' := by
  cases h <;> exact ⟨_, rfl⟩

/-- A spelling that starts with a separator starts with a character that stands for itself. -/
theorem Spells.of_separator {quote c : Char} {w : List Char} {t : Text}
    (h : Spells quote (c :: w) t) (separator : isSeparator c = true) :
    isRaw quote c = true ∧ ∃ t', t = chr c :: t' := by
  generalize form : c :: w = u at h
  cases h with
  | nil => cases form
  | raw raw _ =>
    obtain ⟨rfl, rfl⟩ := List.cons.inj form
    exact ⟨raw, _, rfl⟩
  | escape escapes _ =>
    obtain ⟨e, rfl⟩ := escapes.exists_tail
    obtain ⟨rfl, -⟩ := List.cons.inj form
    cases separator

/-- The separator behind a carriage return goes into the escape of the carriage return. -/
theorem Splits.lose {quote c : Char} {w : List Char} {t v : Text} (h : Splits quote (c :: w) v)
    (raw : isRaw quote c = true) (kept : Kept (c :: w) (chr c :: t) v)
    (separator : isSeparator c = true) :
    ∃ v', Splits quote ('\\' :: '\r' :: c :: w) v' ∧
      Kept ('\\' :: '\r' :: c :: w) (chr c :: t) v' := by
  obtain ⟨v', rfl, rest⟩ := h.of_raw raw
  have other : c ≠ '\r' := by
    rintro rfl
    cases separator
  have splits : Splits quote (['\\', '\r', c] ++ w) ([] ++ v') :=
    .escape rfl (fun after => escapeLength_separator separator _) rfl rest
  exact ⟨v', splits, (kept.of_cons other).lose separator⟩

/-- The characters of a literal are split into pieces that give the code points they stand for, but
for separators behind a carriage return. -/
theorem Spells.exists_splits {quote : Char} (quotes : quote = '\x27' ∨ quote = '\x22')
    {w : List Char} {t : Text} (h : Spells quote w t) : ∃ v, Splits quote w v ∧ Kept w t v := by
  induction h with
  | nil => exact ⟨[], .nil, kept_nil⟩
  | @raw c w t raw _ ih =>
    obtain ⟨v, splits, kept⟩ := ih
    have other : '\r' ∉ [c] := by
      rw [List.mem_singleton]
      rintro rfl
      simp [isRaw] at raw
    exact ⟨chr c :: v, splits.raw raw, kept.append (x := [chr c]) (losesSeparator_append other)⟩
  | @escape e w x t escapes spelled ih =>
    obtain ⟨v, splits, kept⟩ := ih
    by_cases lost : e = ['\\', '\r'] ∧ isSeparator (w.headD quote) = true
    · obtain ⟨rfl, separator⟩ := lost
      have nothing : x = [] := (Except.ok.inj escapes.decode).symm
      subst nothing
      cases w with
      | nil =>
        rcases quotes with rfl | rfl <;> cases separator
      | cons c w =>
        obtain ⟨raw, t, rfl⟩ := spelled.of_separator separator
        exact splits.lose raw kept separator
    · have separate : e = ['\\', '\r'] → isSeparator (w.headD quote) = false := fun form =>
        Bool.eq_false_iff.mpr fun separator => lost ⟨form, separator⟩
      have length (after : List Char) : escapeLength (e ++ (w ++ quote :: after)) = e.length := by
        cases w with
        | nil => exact escapes.escapeLength_eq separate after
        | cons c w => exact escapes.escapeLength_eq separate (w ++ quote :: after)
      obtain ⟨e', form⟩ := escapes.exists_tail
      have starts : e.head? = some '\\' := by rw [form, List.head?_cons]
      exact ⟨x ++ v, .escape starts length escapes.decode splits,
        kept.append (escapes.losesSeparator_iff separate)⟩

/-! ### What a literal gives -/

/-- A text between double quotes. -/
def quoted (t : Text) : Text := [chr '\x22'] ++ t ++ [chr '\x22']

/-- Only the quotes around a text are dropped, whatever quotes and blanks the text has at its own
ends. -/
theorem withoutQuotes_quoted (t : Text) : Payload.withoutQuotes (quoted t) = t := by
  have first : (quoted t).head? = some (chr '\x22') := rfl
  have last : (quoted t).getLast? = some (chr '\x22') := List.getLast?_concat
  have visible : ∀ c ∈ some (chr '\x22'), c.isBlank = false := by
    rintro c ⟨⟩
    decide
  have trimmed : Text.trim (quoted t) = quoted t :=
    Numeral.trim_of_ends (by rwa [first]) (by rwa [last])
  have long : 2 ≤ (quoted t).length := by simp [quoted]
  simp only [Payload.withoutQuotes, trimmed, first, last]
  rw [if_pos (by simp [long])]
  exact List.dropLast_concat

/-- What a string literal gives: its value, the default value, where values are folded at all, and
what the payload records of that default value. -/
structure Gives (s : Site) (v : Text) : Prop where
  value : s.file.stringValue s.node = .ok v
  default (r : Resolver) {limit : Int} : 0 ≤ limit → Defaults.value r limit s = .ok (quoted v)
  recorded (defaults : Table Text Text) (row : Row) :
    defaults.get? row.name = some (quoted v) → (Payload.parameter defaults row).default = some v

theorem gives_of_value {s : Site} {v : Text} (kind : s.node.kind = .string)
    (value : s.file.stringValue s.node = .ok v) : Gives s v where
  value := value
  default r limit positive := by
    obtain ⟨depth, level⟩ := Defaults.exists_level positive
    rw [level, Defaults.evaluate_string r depth kind, value]
    rfl
  recorded defaults row known := by
    rw [Payload.parameter, known]
    exact congrArg some (withoutQuotes_quoted v)

/-- What is kept of a spelling is the text that it means just when no half of a surrogate pair is
spelled and no separator is lost. -/
theorem Kept.eq_iff {w : List Char} {t value u : Text} (h : Kept w t value)
    (proper : u.hasSurrogate = false) (same : codeUnits t = codeUnits u) :
    value = u ↔ t.hasSurrogate = false ∧ ¬ LosesSeparator w := by
  constructor
  · rintro rfl
    have whole : t.hasSurrogate = false := h.halves.symm.trans proper
    refine ⟨whole, fun loses => ?_⟩
    have shorter := h.shorter loses
    rw [eq_of_codeUnits whole proper same] at shorter
    exact lt_irrefl _ shorter
  · rintro ⟨whole, keeps⟩
    rw [h.whole keeps]
    exact eq_of_codeUnits whole proper same

theorem hasSurrogate_ofChars (v : List Char) : (Text.ofChars v).hasSurrogate = false := by
  induction v with
  | nil => rfl
  | cons c v ih => exact (hasSurrogate_cons c _).trans ih

/-- Wherever a literal is read, its node has the code points that its characters and escapes stand
for, one by one, as its value; only a separator behind a carriage return is lost. So a literal that
means the characters `v` gives them, as its value, as the default value and in the payload, exactly
when no half of a surrogate pair is spelled by an escape of its own and no separator is lost. -/
theorem value_of_spelling_iff {quote : Char} (quotes : quote = '\x27' ∨ quote = '\x22')
    {w : List Char} {t : Text} (spelled : Spells quote w t) {v : List Char}
    (same : codeUnits t = codeUnits (Text.ofChars v)) (path : Path) {text rest : List Char}
    {s : Input} (here : s.At text) (ahead : s.toToken.rest = quote :: (w ++ quote :: rest)) :
    ∃ n s' value, Reader.string s = (some n, s') ∧ s'.rest = rest ∧
      (∀ u : Input, u.At text → u.offset = n.start → (Parse.weave u n).1 = n) ∧
      (¬ LosesSeparator w → value = t) ∧
      (value = Text.ofChars v ↔ t.hasSurrogate = false ∧ ¬ LosesSeparator w) ∧
      ∀ site : Site, site.file = .ofChars path text → site.node.bare = n.bare →
        site.text = Text.ofChars (quote :: (w ++ [quote])) ∧ Gives site value := by
  obtain ⟨value, splits, kept⟩ := spelled.exists_splits quotes
  obtain ⟨n, s', read, behind, kind, woven, covered, result⟩ := splits.exists_string
    (show (SourceFile.ofChars path text).bytes = (String.ofList text).toUTF8 from rfl)
    quotes here ahead
  refine ⟨n, s', value, read, behind, woven, kept.whole,
    kept.eq_iff (hasSurrogate_ofChars v) same, fun site origin node => ?_⟩
  rw [← origin, ← SourceFile.textOf_bare, ← node, SourceFile.textOf_bare] at covered
  rw [← origin, ← SourceFile.stringValue_bare, ← node, SourceFile.stringValue_bare] at result
  rw [← Node.kind_bare, ← node, Node.kind_bare] at kind
  exact ⟨covered, gives_of_value kind result⟩

/-- A literal with a quote and a blank at its ends, escapes of all sorts and a line that goes on. -/
theorem value_of_spelling_iff_mixed :
    let w := ['\x22', '\\', 'u', '0', '0', 'E', '9', '\\', 'u', '\x7b', '1', 'f', '6', '0', '0',
      '\x7d', '\\', '\r', '\n', '\\', 'x', '4', '1', '\\', '0', '\\', '\x27', ' ']
    let v := ['\x22', 'é', '😀', 'A', '\x00', '\x27', ' ']
    let text := "const o = \x7b v:".toList ++ ' ' :: '\x27' :: (w ++ '\x27' :: " \x7d".toList)
    let s := (Input.ofChars .script text).advance 14
    Spells '\x27' w (Text.ofChars v) ∧ ¬ LosesSeparator w ∧
      ∃ site : Site, site.file = .ofChars ⟨false, [txt "a.ts"]⟩ text ∧
        (Reader.string s).1 = some site.node ∧ Gives site (Text.ofChars v) := by
  intro w v text s
  have spelled : Spells '\x27' w (Text.ofChars v) := by
    refine .raw rfl ?_
    refine .escape (e := ['\\', 'u', '0', '0', 'E', '9']) (v := [chr 'é'])
      (.unicode rfl (Numeral.digits_of_digits? (by decide) rfl)) ?_
    refine .escape (e := ['\\', 'u', '\x7b', '1', 'f', '6', '0', '0', '\x7d']) (v := [chr '😀'])
      (.braced (by decide : ['1', 'f', '6', '0', '0'] ≠ [])
        (Numeral.digits_of_digits? (by decide) rfl)) ?_
    refine .escape .both ?_
    refine .escape (e := ['\\', 'x', '4', '1']) (v := [chr 'A'])
      (.hexadecimal rfl (Numeral.digits_of_digits? (by decide) rfl)) ?_
    refine .escape (.control (by decide : ('0', chr '\x00') ∈ controls) fun _ => by decide) ?_
    refine .escape (.plain rfl) ?_
    exact .raw rfl .nil
  have keeps : ¬ LosesSeparator w := by
    simp [w, losesSeparator_cons, not_losesSeparator_nil, isSeparator]
  have ahead : s.toToken.rest = '\x27' :: (w ++ '\x27' :: " \x7d".toList) := by decide +kernel
  obtain ⟨n, s', value, read, -, -, -, whole, gives⟩ := value_of_spelling_iff (.inl rfl) spelled rfl
    ⟨false, [txt "a.ts"]⟩ ((Input.at_ofChars .script text).advance 14) ahead
  obtain ⟨-, given⟩ := gives ⟨.ofChars ⟨false, [txt "a.ts"]⟩ text, .root n⟩ rfl rfl
  have same := whole.mpr ⟨hasSurrogate_ofChars v, keeps⟩
  exact ⟨spelled, keeps, ⟨_, .root n⟩, rfl, by rw [read]; rfl, same ▸ given⟩

/-- The two halves of a surrogate pair stay two code points, though a literal with an escape for
each means the one character of the pair. -/
theorem value_of_surrogate_pair :
    let file := SourceFile.ofChars ⟨false, [txt "a.ts"]⟩
      "const o = \x7b v: '\\uD83D\\uDE00' \x7d;\n".toList
    let halves : Text := [⟨0xD83D, by decide⟩, ⟨0xDE00, by decide⟩]
    Spells '\x27' ['\\', 'u', 'D', '8', '3', 'D', '\\', 'u', 'D', 'E', '0', '0'] halves ∧
      codeUnits halves = codeUnits (txt "😀") ∧
      ∃ s : Site, s.file = file ∧ s.text = txt "'\\uD83D\\uDE00'" ∧
        s.file.stringValue s.node = .ok halves ∧ halves ≠ txt "😀" ∧
        Defaults.value .textual 5 s = .ok (quoted halves) := by
  intro file halves
  have run : (file.sites fun s => s.text == txt "'\\uD83D\\uDE00'" &&
      s.file.stringValue s.node == .ok halves &&
      Defaults.value .textual 5 s == .ok (quoted halves)).head?.isSome = true := by
    decide +kernel
  obtain ⟨s, head⟩ := Option.isSome_iff_exists.mp run
  obtain ⟨mem, known⟩ := List.mem_filter.mp (List.mem_of_head? head)
  obtain ⟨place, -, rfl⟩ := List.mem_map.mp mem
  simp only [Bool.and_eq_true] at known
  obtain ⟨⟨text, value⟩, default⟩ := known
  refine ⟨?_, by decide, _, rfl, eq_of_beq text, eq_of_beq value, by decide, eq_of_beq default⟩
  refine .escape (e := ['\\', 'u', 'D', '8', '3', 'D']) (v := [⟨0xD83D, by decide⟩])
    (.unicode rfl (Numeral.digits_of_digits? (by decide) rfl)) ?_
  exact .escape (e := ['\\', 'u', 'D', 'E', '0', '0']) (v := [⟨0xDE00, by decide⟩])
    (.unicode rfl (Numeral.digits_of_digits? (by decide) rfl)) .nil

end StringLiteral

end ParamSchema
