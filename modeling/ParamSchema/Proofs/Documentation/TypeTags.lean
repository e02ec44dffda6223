import Mathlib.Data.List.TakeWhile
import ParamSchema.Documentation.TypeTag
import ParamSchema.Proofs.Documentation.Cutting

/-!
Documentation blocks and the types that are found in them. A block goes from `/**` to the next `*/`,
and what it declares is its first tag `@type` with a type in braces. The scan for types looks for a
tag behind a star, and it does not stop at the end of a block: from the first block without such a
tag on, the next tag anywhere is taken for one of that block (`TypeTag.all_of_blocks`).
-/

namespace ParamSchema.TypeTag

/-! ### Tags behind a star -/

theorem closing_ne_nil : txt "\x7d" ≠ [] := by decide

theorem opening_ne_nil : txt "/**" ≠ [] := by decide

theorem end_ne_nil : txt "*/" ≠ [] := by decide

theorem dropWhile_append_of_mem {p : CodePoint → Bool} {c : CodePoint} {t : Text} (mem : c ∈ t)
    (h : p c = false) (z : Text) :
    (t ++ z).dropWhile p = t.dropWhile p ++ z ∧ c ∈ t.dropWhile p := by
  induction t with
  | nil => cases mem
  | cons d t ih =>
    by_cases drop : p d = true
    · have inside : c ∈ t := by
        refine (List.mem_cons.mp mem).resolve_left ?_
        rintro rfl
        rw [h] at drop
        cases drop
      simpa [drop] using ih inside
    · simpa [drop] using mem

/-- Whether a tag stands behind a star does not depend on what follows a closing brace. -/
theorem afterStar?_append {t : Text} (mem : chr '\x7d' ∈ t) (z : Text) :
    afterStar? (t ++ z) = (afterStar? t).map fun found => (found.1, found.2 ++ z) := by
  have blank : (chr '\x7d').isBlank = false := by decide
  have inside {w u v : Text} (other : chr '\x7d' ∉ w) (mem : chr '\x7d' ∈ u)
      (h : Text.after? w u = some v) : chr '\x7d' ∈ v := by
    rw [Text.after?_eq_some.mp h] at mem
    exact (List.mem_append.mp mem).resolve_left other
  obtain ⟨drop, mem⟩ := dropWhile_append_of_mem mem blank z
  rw [afterStar?, afterStar?, drop, Text.after?_append mem (by decide : chr '\x7d' ∉ txt "@type")]
  cases name : Text.after? (txt "@type") (t.dropWhile CodePoint.isBlank) with
  | none => rfl
  | some u =>
    obtain ⟨drop, mem⟩ := dropWhile_append_of_mem
      (inside (by decide : chr '\x7d' ∉ txt "@type") mem name) blank z
    simp only [Option.map_some, Option.bind_eq_bind, Option.bind_some, drop,
      Text.after?_append mem (by decide : chr '\x7d' ∉ txt "\x7b")]
    cases brace : Text.after? (txt "\x7b") (u.dropWhile CodePoint.isBlank) with
    | none => rfl
    | some v =>
      have mem := inside (by decide : chr '\x7d' ∉ txt "\x7b") mem brace
      cases cut : Text.cutFirst? (txt "\x7d") v with
      | none =>
        obtain ⟨before, behind, split⟩ := List.append_of_mem mem
        exact absurd ⟨before, behind, split ▸ List.append_assoc before [chr '\x7d'] behind⟩
          ((Text.cutFirst?_eq_none closing_ne_nil).mp cut)
      | some parts =>
        have longer := Text.cutFirst?_append closing_ne_nil cut z
        simp only [Option.map_some, Option.bind_some, longer, cut]
        split <;> rfl

theorem afterStar?_eq_some {t type rest : Text} (h : afterStar? t = some (type, rest)) :
    ∃ u v, Text.after? (txt "@type") (t.dropWhile CodePoint.isBlank) = some u ∧
      Text.after? (txt "\x7b") (u.dropWhile CodePoint.isBlank) = some v ∧
      Text.cutFirst? (txt "\x7d") v = some (type, rest) ∧ type.isEmpty = false := by
  obtain ⟨u, name, h⟩ := Option.bind_eq_some_iff.mp h
  obtain ⟨v, brace, h⟩ := Option.bind_eq_some_iff.mp h
  obtain ⟨parts, cut, h⟩ := Option.bind_eq_some_iff.mp h
  obtain ⟨filled, ⟨⟩⟩ := Option.ite_none_left_eq_some.mp h
  exact ⟨u, v, name, brace, cut, by simpa using filled⟩

theorem cutFirst?_front {front t : Text} (other : chr '\x7d' ∉ front) :
    Text.cutFirst? (txt "\x7d") (front ++ t) =
      (Text.cutFirst? (txt "\x7d") t).map fun cut => (front ++ cut.1, cut.2) := by
  induction front with
  | nil => simp
  | cons c front ih =>
    rw [List.mem_cons, not_or] at other
    have here : ¬ txt "\x7d" <+: c :: (front ++ t) := by
      intro starts
      exact other.1 (List.cons_prefix_cons.mp starts).1
    rw [List.cons_append, Text.cutFirst?_cons_of_not_starts here, ih other.2, Option.map_map]
    rfl

/-- A tag behind a star ends at the first closing brace. -/
theorem cutFirst?_of_afterStar? {t type rest : Text} (h : afterStar? t = some (type, rest)) :
    ∃ front, Text.cutFirst? (txt "\x7d") t = some (front, rest) := by
  obtain ⟨u, v, name, brace, cut, -⟩ := afterStar?_eq_some h
  have blanks (t : Text) : chr '\x7d' ∉ t.takeWhile CodePoint.isBlank := by
    intro mem
    exact absurd (List.mem_takeWhile_imp mem) (by decide)
  rw [← List.takeWhile_append_dropWhile (p := CodePoint.isBlank) (l := t),
    Text.after?_eq_some.mp name,
    ← List.takeWhile_append_dropWhile (p := CodePoint.isBlank) (l := u),
    Text.after?_eq_some.mp brace, cutFirst?_front (blanks t), cutFirst?_front (by decide),
    cutFirst?_front (blanks u), cutFirst?_front (by decide), cut]
  exact ⟨_, rfl⟩

theorem firstType?_cons_eq_some {c : CodePoint} {t type rest : Text} :
    firstType? (c :: t) = some (type, rest) ↔
      (c = chr '*' ∧ afterStar? t = some (type, rest)) ∨
        ((c = chr '*' → afterStar? t = none) ∧ firstType? t = some (type, rest)) := by
  rw [firstType?]
  by_cases star : c = chr '*'
  · cases afterStar? t <;> simp [star]
  · simp [star]

/-- The first tag behind a star ends at a closing brace, which need not be the first one. -/
theorem cutFirst?_of_firstType? {t type rest : Text} (h : firstType? t = some (type, rest)) :
    ∃ front behind, Text.cutFirst? (txt "\x7d") t = some (front, behind) ∧ rest <:+ behind := by
  induction t with
  | nil => cases h
  | cons c t ih =>
    rcases firstType?_cons_eq_some.mp h with ⟨rfl, found⟩ | ⟨-, found⟩
    · obtain ⟨front, cut⟩ := cutFirst?_of_afterStar? found
      refine ⟨chr '*' :: front, rest, ?_, List.suffix_refl rest⟩
      rw [show chr '*' :: t = [chr '*'] ++ t from rfl, cutFirst?_front (by decide), cut]
      rfl
    · obtain ⟨front, behind, cut, suffix⟩ := ih found
      by_cases here : txt "\x7d" <+: c :: t
      · refine ⟨[], t, Text.cutFirst?_cons_of_starts here, ?_⟩
        obtain ⟨split, -⟩ := (Text.cutFirst?_eq_some closing_ne_nil).mp cut
        exact suffix.trans ⟨front ++ txt "\x7d", by rw [split]; simp⟩
      · rw [Text.cutFirst?_cons_of_not_starts here, cut]
        exact ⟨c :: front, behind, rfl, suffix⟩

theorem mem_of_cutFirst? {t front behind : Text}
    (h : Text.cutFirst? (txt "\x7d") t = some (front, behind)) : chr '\x7d' ∈ t := by
  rw [((Text.cutFirst?_eq_some closing_ne_nil).mp h).1]
  exact List.mem_append_right _ List.mem_cons_self

theorem firstType?_append {t type rest : Text} (h : firstType? t = some (type, rest)) (z : Text) :
    firstType? (t ++ z) = some (type, rest ++ z) := by
  induction t with
  | nil => cases h
  | cons c t ih =>
    rw [List.cons_append, firstType?_cons_eq_some]
    rcases firstType?_cons_eq_some.mp h with ⟨star, found⟩ | ⟨other, found⟩
    · obtain ⟨front, cut⟩ := cutFirst?_of_afterStar? found
      refine .inl ⟨star, ?_⟩
      rw [afterStar?_append (mem_of_cutFirst? cut), found]
      rfl
    · obtain ⟨front, behind, cut, -⟩ := cutFirst?_of_firstType? found
      refine .inr ⟨fun star => ?_, ih found⟩
      rw [afterStar?_append (mem_of_cutFirst? cut), other star]
      rfl

/-- The first tag of a text does not end behind the first tag of what begins later. -/
theorem firstType?_of_suffix {s t type rest : Text} (suffix : s <:+ t)
    (h : firstType? s = some (type, rest)) :
    ∃ type' rest', firstType? t = some (type', rest') ∧ rest <:+ rest' := by
  induction t with
  | nil =>
    rw [List.suffix_nil.mp suffix] at h
    cases h
  | cons c t ih =>
    rcases List.suffix_cons_iff.mp suffix with rfl | suffix
    · exact ⟨type, rest, h, List.suffix_refl rest⟩
    · obtain ⟨type', rest', found, shorter⟩ := ih suffix
      by_cases star : ∃ first, c = chr '*' ∧ afterStar? t = some first
      · obtain ⟨⟨type'', rest''⟩, rfl, early⟩ := star
        refine ⟨type'', rest'', firstType?_cons_eq_some.mpr (.inl ⟨rfl, early⟩), ?_⟩
        -- both tags are closed, the early one by the first brace
        obtain ⟨front, cut⟩ := cutFirst?_of_afterStar? early
        obtain ⟨_, behind, cut', behindBrace⟩ := cutFirst?_of_firstType? found
        cases cut.symm.trans cut'
        exact shorter.trans behindBrace
      · refine ⟨type', rest', firstType?_cons_eq_some.mpr (.inr ⟨fun eq => ?_, found⟩), shorter⟩
        rw [Option.eq_none_iff_forall_ne_some]
        intro first early
        exact star ⟨first, eq, early⟩

/-! ### Scanning -/

/-- The number of lines that end in a text. -/
def feeds (t : Text) : Int := (t.count (chr '\n') : Nat)

theorem feeds_append (s t : Text) : feeds (s ++ t) = feeds s + feeds t := by
  simp [feeds]

/-- All that a reader finds in a text, each with its line, leaving out the first code points. What
is found is read no second time. -/
def scanFrom {α : Type} (read : Text → Option (α × Text)) : Nat → Int → Text → List (α × Int)
  | _, _, [] => []
  | skip + 1, line, c :: rest => scanFrom read skip (line + feeds [c]) rest
  | 0, line, c :: rest =>
    match read (c :: rest) with
    | none => scanFrom read 0 (line + feeds [c]) rest
    | some (found, behind) =>
      (found, line) :: scanFrom read (rest.length - behind.length) (line + feeds [c]) rest

theorem allFrom_eq (skip : Nat) (line : Int) (t : Text) :
    allFrom skip line t = (scanFrom block? skip line t).map fun found => ⟨found.1, found.2⟩ := by
  have below (line : Int) (c : CodePoint) :
      (if c == chr '\n' then line + 1 else line) = line + feeds [c] := by
    by_cases feed : c = chr '\n'
    · simp [feeds, feed]
    · simp [feeds, feed]
  induction t generalizing skip line with
  | nil =>
    rw [allFrom, scanFrom]
    rfl
  | cons c t ih =>
    cases skip with
    | succ skip =>
      rw [allFrom, scanFrom, ← ih, ← below]
    | zero =>
      rw [allFrom, scanFrom]
      cases block? (c :: t) with
      | none => simp only [below, ih]
      | some found => simp only [below, ih, List.map_cons]

section

variable {α : Type} {read : Text → Option (α × Text)} {line : Int}

theorem mem_scanFrom {skip : Nat} {t : Text} {found : α × Int}
    (h : found ∈ scanFrom read skip line t) :
    ∃ s rest, s <:+ t ∧ read s = some (found.1, rest) := by
  induction t generalizing skip line with
  | nil =>
    rw [scanFrom] at h
    cases h
  | cons c t ih =>
    have later {skip : Nat} {line : Int} (h : found ∈ scanFrom read skip line t) :
        ∃ s rest, s <:+ c :: t ∧ read s = some (found.1, rest) := by
      obtain ⟨s, rest, suffix, reads⟩ := ih h
      exact ⟨s, rest, suffix.trans (List.suffix_cons c t), reads⟩
    cases skip with
    | succ skip => exact later h
    | zero =>
      rw [scanFrom] at h
      split at h
      · exact later h
      · next first behind reads =>
        rcases List.mem_cons.mp h with rfl | h
        · exact ⟨_, behind, List.suffix_refl _, reads⟩
        · exact later h

theorem scanFrom_skip (s t : Text) :
    scanFrom read s.length line (s ++ t) = scanFrom read 0 (line + feeds s) t := by
  induction s generalizing line with
  | nil => simp [feeds]
  | cons c s ih =>
    rw [List.length_cons, List.cons_append, scanFrom, ih, show c :: s = [c] ++ s from rfl,
      feeds_append, Int.add_assoc]

theorem scanFrom_pass {s t : Text} (h : ∀ x y, s = x ++ y → y ≠ [] → read (y ++ t) = none) :
    scanFrom read 0 line (s ++ t) = scanFrom read 0 (line + feeds s) t := by
  induction s generalizing line with
  | nil => simp [feeds]
  | cons c s ih =>
    have here := h [] (c :: s) rfl (List.cons_ne_nil c s)
    rw [List.cons_append] at here
    rw [List.cons_append, scanFrom, here]
    have later : ∀ x y, s = x ++ y → y ≠ [] → read (y ++ t) = none := fun x y split =>
      h (c :: x) y (congrArg (c :: ·) split)
    rw [show c :: s = [c] ++ s from rfl, feeds_append, ← Int.add_assoc]
    exact ih later

theorem scanFrom_eq_nil {t : Text} (h : ∀ s, s <:+ t → read s = none) :
    scanFrom read 0 line t = [] := by
  rw [← List.append_nil t, scanFrom_pass, scanFrom]
  intro x y split _
  rw [List.append_nil]
  exact h y ⟨x, split.symm⟩

theorem scanFrom_found {used behind : Text} {found : α} (filled : used ≠ [])
    (h : read (used ++ behind) = some (found, behind)) :
    scanFrom read 0 line (used ++ behind) =
      (found, line) :: scanFrom read 0 (line + feeds used) behind := by
  obtain ⟨c, used, rfl⟩ := List.exists_cons_of_ne_nil filled
  rw [List.cons_append] at h
  rw [List.cons_append, scanFrom, h]
  have length : (used ++ behind).length - behind.length = used.length := by simp
  simp only [length]
  rw [scanFrom_skip, show c :: used = [c] ++ used from rfl, feeds_append, Int.add_assoc]

end

/-! ### Blocks -/

/-- A documentation block: the line on which it starts, and all of the text behind its opening. -/
structure Block where
  line : Int
  text : Text
  deriving DecidableEq, Repr

/-- The text behind an opening, and what stands behind the next end. -/
def opened? (t : Text) : Option (Text × Text) := do
  let inside ← Text.after? (txt "/**") t
  let (_, rest) ← Text.cutFirst? (txt "*/") inside
  some (inside, rest)

def blocksFrom (line : Int) (t : Text) : List Block :=
  (scanFrom opened? 0 line t).map fun found => ⟨found.2, found.1⟩

/-- The documentation blocks of a text, each from an opening to the next end. -/
def blocks (t : Text) : List Block := blocksFrom 1 t

/-- The type of a tag that a text begins with. -/
def tagAt? (t : Text) : Option Text := do
  let t ← Text.after? (txt "@type") t
  let t ← Text.after? (txt "\x7b") (t.dropWhile CodePoint.isBlank)
  let (type, _) ← Text.cutFirst? (txt "\x7d") t
  if type.isEmpty then none else some type

/-- The type of the first tag of a text. -/
def firstTag? : Text → Option Text
  | [] => none
  | c :: rest => tagAt? (c :: rest) <|> firstTag? rest

namespace Block

/-- What stands in a block. -/
def body (b : Block) : Text := ((Text.cutFirst? (txt "*/") b.text).map Prod.fst).getD []

/-- The type that a block declares by its first tag. -/
def declared? (b : Block) : Option TypeTag :=
  (firstTag? b.body).map fun type => ⟨Text.trim type, b.line⟩

/-- The type that a block declares by its first tag behind a star. -/
def starred? (b : Block) : Option TypeTag :=
  (firstType? b.body).map fun found => ⟨Text.trim found.1, b.line⟩

def isStarred (b : Block) : Bool := b.starred?.isSome

/-- The next tag behind a star that follows the opening of a block and has an end behind it, taken
for one of the block. With it comes the text behind that end, and the line of this text. -/
def next? (b : Block) : Option (TypeTag × Int × Text) := do
  let (type, rest) ← firstType? b.text
  let (_, behind) ← Text.cutFirst? (txt "*/") rest
  let line := b.line + feeds (b.text.take (b.text.length - behind.length))
  some (⟨Text.trim type, b.line⟩, line, behind)

end Block

/-! ### One step of the scans -/

theorem opened?_eq_some {t inside rest : Text} : opened? t = some (inside, rest) ↔
    t = txt "/**" ++ inside ∧ ∃ body, Text.cutFirst? (txt "*/") inside = some (body, rest) := by
  constructor
  · intro h
    obtain ⟨u, opening, h⟩ := Option.bind_eq_some_iff.mp h
    obtain ⟨⟨body, rest⟩, cut, ⟨⟩⟩ := Option.bind_eq_some_iff.mp h
    exact ⟨Text.after?_eq_some.mp opening, body, cut⟩
  · rintro ⟨opening, body, cut⟩
    rw [opened?, Text.after?_eq_some.mpr opening]
    simp [cut]

theorem block?_eq_some {t type behind : Text} : block? t = some (type, behind) ↔
    ∃ inside found rest gap, t = txt "/**" ++ inside ∧ firstType? inside = some (found, rest) ∧
      Text.cutFirst? (txt "*/") rest = some (gap, behind) ∧ type = Text.trim found := by
  constructor
  · intro h
    obtain ⟨inside, opening, h⟩ := Option.bind_eq_some_iff.mp h
    obtain ⟨⟨found, rest⟩, first, h⟩ := Option.bind_eq_some_iff.mp h
    obtain ⟨⟨gap, behind⟩, cut, ⟨⟩⟩ := Option.bind_eq_some_iff.mp h
    exact ⟨inside, found, rest, gap, Text.after?_eq_some.mp opening, first, cut, rfl⟩
  · rintro ⟨inside, found, rest, gap, opening, first, cut, rfl⟩
    rw [block?, Text.after?_eq_some.mpr opening]
    simp [first, cut]

/-- The text behind an opening that begins later is a part of the text behind the first one. -/
theorem suffix_of_opening {inside v : Text} (h : txt "/**" ++ v <:+ txt "/**" ++ inside) :
    v <:+ inside :=
  List.suffix_of_suffix_length_le ((List.suffix_append (txt "/**") v).trans h)
    (List.suffix_append (txt "/**") inside) (by have := h.length_le; simp at this; omega)

theorem suffix_of_firstType? {t type rest : Text} (h : firstType? t = some (type, rest)) :
    rest <:+ t := by
  obtain ⟨front, behind, cut, suffix⟩ := cutFirst?_of_firstType? h
  rw [((Text.cutFirst?_eq_some closing_ne_nil).mp cut).1]
  exact suffix.trans ⟨front ++ txt "\x7d", by simp⟩

theorem suffix_of_cutFirst? {w t a b : Text} (filled : w ≠ [])
    (h : Text.cutFirst? w t = some (a, b)) : b <:+ t :=
  ⟨a ++ w, by rw [((Text.cutFirst?_eq_some filled).mp h).1, List.append_assoc]⟩

namespace Block

theorem length_text_lt {b : Block} {line : Int} {t : Text} (h : b ∈ blocksFrom line t) :
    b.text.length < t.length := by
  obtain ⟨found, mem, rfl⟩ := List.mem_map.mp h
  obtain ⟨s, rest, suffix, opening⟩ := mem_scanFrom mem
  obtain ⟨rfl, -⟩ := opened?_eq_some.mp opening
  have le := suffix.length_le
  rw [List.length_append] at le
  exact Nat.lt_of_lt_of_le (Nat.lt_add_of_pos_left (by decide)) le

theorem next?_eq_some {b : Block} {tag : TypeTag} {line : Int} {behind : Text} :
    b.next? = some (tag, line, behind) ↔
      ∃ type rest gap, firstType? b.text = some (type, rest) ∧
        Text.cutFirst? (txt "*/") rest = some (gap, behind) ∧ tag = ⟨Text.trim type, b.line⟩ ∧
        line = b.line + feeds (b.text.take (b.text.length - behind.length)) := by
  constructor
  · intro h
    obtain ⟨⟨type, rest⟩, first, h⟩ := Option.bind_eq_some_iff.mp h
    obtain ⟨⟨gap, behind⟩, cut, ⟨⟩⟩ := Option.bind_eq_some_iff.mp h
    exact ⟨type, rest, gap, first, cut, rfl, rfl⟩
  · rintro ⟨type, rest, gap, first, cut, rfl, rfl⟩
    rw [next?, first]
    simp [cut]

theorem length_lt_of_next? {b : Block} {tag : TypeTag} {line : Int} {behind : Text}
    (h : b.next? = some (tag, line, behind)) : behind.length < b.text.length := by
  obtain ⟨type, rest, gap, first, cut, -⟩ := next?_eq_some.mp h
  have le := (suffix_of_firstType? first).length_le
  rw [((Text.cutFirst?_eq_some end_ne_nil).mp cut).1] at le
  have ending : (txt "*/").length = 2 := rfl
  simp only [List.length_append, ending] at le
  omega

/-- What is found from a block on that has no tag behind a star. The next such tag is taken for one
of the block. Behind the end of that tag, each block has its first tag behind a star, up to a block
that has none. -/
def strays (b : Block) : List TypeTag :=
  match taken : b.next? with
  | none => []
  | some (tag, line, behind) =>
    let blocks := blocksFrom line behind
    tag :: ((blocks.takeWhile isStarred).filterMap starred? ++
      match first : (blocks.dropWhile isStarred).head? with
      | none => []
      | some b' =>
        have inside := (List.dropWhile_suffix isStarred).subset (List.mem_of_mem_head? first)
        have : b'.text.length < b.text.length :=
          (length_text_lt inside).trans (length_lt_of_next? taken)
        strays b')
termination_by b.text.length

theorem strays_of_none {b : Block} (h : b.next? = none) : b.strays = [] := by
  rw [strays]
  split
  · rfl
  · next taken =>
    rw [h] at taken
    cases taken

theorem strays_of_some {b : Block} {tag : TypeTag} {line : Int} {behind : Text}
    (h : b.next? = some (tag, line, behind)) :
    b.strays = tag :: (((blocksFrom line behind).takeWhile isStarred).filterMap starred? ++
      ((blocksFrom line behind).dropWhile isStarred).head?.elim [] strays) := by
  rw [strays]
  split
  · next taken =>
    rw [h] at taken
    cases taken
  · next taken =>
    rw [h] at taken
    cases taken
    dsimp only
    split
    · next first => rw [first, Option.elim_none]
    · next first => rw [first, Option.elim_some]

end Block

section

variable {α : Type} {read : Text → Option (α × Text)} {line : Int} {t before inside : Text}
  (starts : ∀ s found, read s = some found → txt "/**" <+: s)

include starts

theorem scanFrom_unopened (h : Text.cutFirst? (txt "/**") t = none) :
    scanFrom read 0 line t = [] := by
  refine scanFrom_eq_nil fun s suffix => ?_
  rw [Option.eq_none_iff_forall_ne_some]
  intro found h'
  exact (Text.cutFirst?_eq_none opening_ne_nil).mp h
    ((starts s found h').isInfix.trans suffix.isInfix)

theorem scanFrom_opening (h : Text.cutFirst? (txt "/**") t = some (before, inside)) :
    scanFrom read 0 line t = scanFrom read 0 (line + feeds before) (txt "/**" ++ inside) := by
  obtain ⟨rfl, first⟩ := (Text.cutFirst?_eq_some opening_ne_nil).mp h
  refine scanFrom_pass fun x y split nonempty => ?_
  rw [Option.eq_none_iff_forall_ne_some]
  intro found h'
  exact first x y split nonempty (starts _ found h')

end

theorem starts_of_opened? (s : Text) (found : Text × Text) (h : opened? s = some found) :
    txt "/**" <+: s := by
  rw [(opened?_eq_some.mp h).1]
  exact List.prefix_append _ _

theorem starts_of_block? (s : Text) (found : Text × Text) (h : block? s = some found) :
    txt "/**" <+: s := by
  obtain ⟨inside, _, _, _, rfl, -⟩ := block?_eq_some.mp h
  exact List.prefix_append _ _

section

variable {line : Int} {t before inside : Text}

theorem blocksFrom_unopened (h : Text.cutFirst? (txt "/**") t = none) : blocksFrom line t = [] := by
  rw [blocksFrom, scanFrom_unopened starts_of_opened? h, List.map_nil]

theorem allFrom_unopened (h : Text.cutFirst? (txt "/**") t = none) : allFrom 0 line t = [] := by
  rw [allFrom_eq, scanFrom_unopened starts_of_block? h, List.map_nil]

variable (h : Text.cutFirst? (txt "/**") t = some (before, inside))

include h

theorem blocksFrom_unclosed (unclosed : Text.cutFirst? (txt "*/") inside = none) :
    blocksFrom line t = [] := by
  rw [blocksFrom, scanFrom_opening starts_of_opened? h, scanFrom_eq_nil, List.map_nil]
  intro s suffix
  rw [Option.eq_none_iff_forall_ne_some]
  rintro ⟨v, rest⟩ found
  obtain ⟨rfl, body, cut⟩ := opened?_eq_some.mp found
  exact (Text.cutFirst?_eq_none end_ne_nil).mp unclosed
    ((Text.infix_of_cutFirst? end_ne_nil cut).trans (suffix_of_opening suffix).isInfix)

theorem blocksFrom_closed {body rest : Text}
    (closed : Text.cutFirst? (txt "*/") inside = some (body, rest)) :
    blocksFrom line t = ⟨line + feeds before, inside⟩ ::
      blocksFrom (line + feeds before + feeds (txt "/**" ++ (body ++ txt "*/"))) rest := by
  obtain ⟨split, -⟩ := (Text.cutFirst?_eq_some end_ne_nil).mp closed
  have whole : txt "/**" ++ inside = (txt "/**" ++ (body ++ txt "*/")) ++ rest := by
    rw [split]
    simp
  have found : opened? ((txt "/**" ++ (body ++ txt "*/")) ++ rest) = some (inside, rest) :=
    opened?_eq_some.mpr ⟨whole.symm, body, closed⟩
  rw [blocksFrom, scanFrom_opening starts_of_opened? h, whole,
    scanFrom_found (by simp [opening_ne_nil]) found]
  rfl

/-- Where the first opening leads to no tag and end, no later one does. -/
theorem allFrom_stuck (stuck : block? (txt "/**" ++ inside) = none) : allFrom 0 line t = [] := by
  rw [allFrom_eq, scanFrom_opening starts_of_block? h, scanFrom_eq_nil, List.map_nil]
  intro s suffix
  rw [Option.eq_none_iff_forall_ne_some]
  rintro ⟨type, behind⟩ later
  obtain ⟨v, found, rest, gap, rfl, first, cut, -⟩ := block?_eq_some.mp later
  obtain ⟨found', rest', first', shorter⟩ := firstType?_of_suffix (suffix_of_opening suffix) first
  have closes := (Text.infix_of_cutFirst? end_ne_nil cut).trans shorter.isInfix
  cases cut' : Text.cutFirst? (txt "*/") rest' with
  | none => exact (Text.cutFirst?_eq_none end_ne_nil).mp cut' closes
  | some parts =>
    rw [block?_eq_some.mpr ⟨inside, found', rest', parts.1, rfl, first', cut', rfl⟩] at stuck
    cases stuck

theorem allFrom_found {type used behind : Text} (split : inside = used ++ behind)
    (found : block? (txt "/**" ++ inside) = some (type, behind)) :
    allFrom 0 line t = ⟨type, line + feeds before⟩ ::
      allFrom 0 (line + feeds before + feeds (txt "/**" ++ used)) behind := by
  rw [split, ← List.append_assoc] at found
  rw [allFrom_eq, scanFrom_opening starts_of_block? h, split, ← List.append_assoc,
    scanFrom_found (by simp [opening_ne_nil]) found, List.map_cons, ← allFrom_eq]

/-- A tag behind a star in the body of a block is found with its line, and the scan goes on behind
the block. -/
theorem allFrom_starred {body rest : Text}
    (closed : Text.cutFirst? (txt "*/") inside = some (body, rest)) {found behind : Text}
    (first : firstType? body = some (found, behind)) :
    allFrom 0 line t = ⟨Text.trim found, line + feeds before⟩ ::
      allFrom 0 (line + feeds before + feeds (txt "/**" ++ (body ++ txt "*/"))) rest := by
  obtain ⟨split, -⟩ := (Text.cutFirst?_eq_some end_ne_nil).mp closed
  have tag := firstType?_append first (txt "*/" ++ rest)
  obtain ⟨front, form⟩ := suffix_of_firstType? first
  have last : Text.cutFirst? (txt "*/") (behind ++ (txt "*/" ++ rest)) = some (behind, rest) := by
    rw [split, ← form, List.append_assoc] at closed
    exact Text.cutFirst?_behind end_ne_nil closed
  rw [← split] at tag
  exact allFrom_found h (by rw [split]; simp)
    (block?_eq_some.mpr ⟨inside, found, _, behind, rfl, tag, last, rfl⟩)

/-- All that is found from the first opening on. -/
theorem allFrom_eq_next? :
    allFrom 0 line t = (Block.next? ⟨line + feeds before, inside⟩).elim [] fun found =>
      found.1 :: allFrom 0 found.2.1 found.2.2 := by
  cases next : Block.next? ⟨line + feeds before, inside⟩ with
  | none =>
    refine allFrom_stuck h ?_
    rw [Option.eq_none_iff_forall_ne_some]
    rintro ⟨type, behind⟩ found
    obtain ⟨_, type, rest, gap, form, first, cut, -⟩ := block?_eq_some.mp found
    cases List.append_cancel_left form
    rw [Block.next?_eq_some.mpr ⟨type, rest, gap, first, cut, rfl, rfl⟩] at next
    cases next
  | some found =>
    obtain ⟨tag, line', behind⟩ := found
    obtain ⟨type, rest, gap, first, cut, rfl, rfl⟩ := Block.next?_eq_some.mp next
    have opening : feeds (txt "/**") = 0 := by decide
    obtain ⟨used, split⟩ := (suffix_of_cutFirst? end_ne_nil cut).trans (suffix_of_firstType? first)
    have found := block?_eq_some.mpr ⟨inside, type, rest, gap, rfl, first, cut, rfl⟩
    have taken : inside.take (inside.length - behind.length) = used := by
      rw [← show used ++ behind = inside from split]
      simp
    rw [allFrom_found h split.symm found, feeds_append, opening, Int.zero_add, Option.elim_some,
      taken]

end

/-- What is found follows the blocks as long as they have a tag behind a star. -/
theorem allFrom_of_blocks (line : Int) (t : Text) :
    allFrom 0 line t = ((blocksFrom line t).takeWhile Block.isStarred).filterMap Block.starred? ++
      ((blocksFrom line t).dropWhile Block.isStarred).head?.elim [] Block.strays := by
  -- The induction is on the length of the text: behind a block and behind a tag it is shorter.
  induction size : t.length using Nat.strongRecOn generalizing line t with
  | ind n ih =>
  cases h : Text.cutFirst? (txt "/**") t with
  | none => rw [allFrom_unopened h, blocksFrom_unopened h]; rfl
  | some parts =>
    obtain ⟨before, inside⟩ := parts
    cases closed : Text.cutFirst? (txt "*/") inside with
    | none =>
      have stuck : block? (txt "/**" ++ inside) = none := by
        rw [Option.eq_none_iff_forall_ne_some]
        rintro ⟨type, behind⟩ found
        obtain ⟨_, _, _, _, form, first, cut, -⟩ := block?_eq_some.mp found
        rw [← List.append_cancel_left form] at first
        exact (Text.cutFirst?_eq_none end_ne_nil).mp closed
          ((Text.infix_of_cutFirst? end_ne_nil cut).trans (suffix_of_firstType? first).isInfix)
      rw [allFrom_stuck h stuck, blocksFrom_unclosed h closed]
      rfl
    | some parts =>
      obtain ⟨body, rest⟩ := parts
      have inner : inside.length < n := by
        have whole := congrArg List.length ((Text.cutFirst?_eq_some opening_ne_nil).mp h).1
        have opening : (txt "/**").length = 3 := rfl
        simp only [List.length_append, opening] at whole
        omega
      have shorter : rest.length < n :=
        Nat.lt_of_le_of_lt (suffix_of_cutFirst? end_ne_nil closed).length_le inner
      have inBody : Block.body ⟨line + feeds before, inside⟩ = body := by
        simp [Block.body, closed]
      rw [blocksFrom_closed h closed]
      cases first : firstType? body with
      | none =>
        have bare : Block.isStarred ⟨line + feeds before, inside⟩ = false := by
          simp [Block.isStarred, Block.starred?, inBody, first]
        rw [List.takeWhile_cons_of_neg (by simp [bare]),
          List.dropWhile_cons_of_neg (by simp [bare]), allFrom_eq_next? h]
        show _ = Block.strays ⟨line + feeds before, inside⟩
        cases next : Block.next? ⟨line + feeds before, inside⟩ with
        | none => rw [Block.strays_of_none next, Option.elim_none]
        | some found =>
          obtain ⟨tag, line', behind⟩ := found
          rw [Block.strays_of_some next, Option.elim_some,
            ih _ ((Block.length_lt_of_next? next).trans inner) line' behind rfl]
      | some tag =>
        have starred : Block.starred? ⟨line + feeds before, inside⟩ =
            some ⟨Text.trim tag.1, line + feeds before⟩ := by
          simp [Block.starred?, inBody, first]
        have bound : Block.isStarred ⟨line + feeds before, inside⟩ = true := by
          simp [Block.isStarred, starred]
        rw [List.takeWhile_cons_of_pos bound, List.dropWhile_cons_of_pos bound,
          List.filterMap_cons_some starred, allFrom_starred h closed first,
          ih _ shorter _ rest rfl]
        rfl

/-! ### Blocks and what they declare -/

theorem firstTag?_isSome {s t type : Text} (suffix : s <:+ t) (h : tagAt? s = some type) :
    (firstTag? t).isSome = true := by
  induction t with
  | nil =>
    rw [List.suffix_nil.mp suffix] at h
    cases h
  | cons c t ih =>
    rw [firstTag?]
    rcases List.suffix_cons_iff.mp suffix with rfl | suffix
    · rw [h]
      rfl
    · cases tagAt? (c :: t) with
      | none => exact ih suffix
      | some found => rfl

/-- A tag behind a star is a tag. -/
theorem exists_tagAt? {t type rest : Text} (h : firstType? t = some (type, rest)) :
    ∃ s, s <:+ t ∧ tagAt? s = some type := by
  induction t with
  | nil => cases h
  | cons c t ih =>
    rcases firstType?_cons_eq_some.mp h with ⟨-, found⟩ | ⟨-, found⟩
    · obtain ⟨u, v, name, brace, cut, filled⟩ := afterStar?_eq_some found
      refine ⟨t.dropWhile CodePoint.isBlank,
        (List.dropWhile_suffix _).trans (List.suffix_cons c t), ?_⟩
      rw [tagAt?, name]
      simpa [brace, cut] using filled
    · obtain ⟨s, suffix, tag⟩ := ih found
      exact ⟨s, suffix.trans (List.suffix_cons c t), tag⟩

theorem Block.declared?_isSome {b : Block} (h : b.isStarred = true) :
    b.declared?.isSome = true := by
  rw [isStarred, starred?, Option.isSome_map] at h
  obtain ⟨⟨type, rest⟩, first⟩ := Option.isSome_iff_exists.mp h
  obtain ⟨s, suffix, tag⟩ := exists_tagAt? first
  rw [declared?, Option.isSome_map]
  exact firstTag?_isSome suffix tag

theorem filterMap_eq_iff {β γ : Type} {f g : β → Option γ} {l : List β}
    (hf : ∀ b ∈ l, (f b).isSome = true) (hg : ∀ b ∈ l, (g b).isSome = true) :
    l.filterMap f = l.filterMap g ↔ ∀ b ∈ l, f b = g b := by
  induction l with
  | nil => simp
  | cons b l ih =>
    obtain ⟨x, hx⟩ := Option.isSome_iff_exists.mp (hf b List.mem_cons_self)
    obtain ⟨y, hy⟩ := Option.isSome_iff_exists.mp (hg b List.mem_cons_self)
    have rest := ih (fun b mem => hf b (List.mem_cons_of_mem _ mem))
      fun b mem => hg b (List.mem_cons_of_mem _ mem)
    rw [List.filterMap_cons_some hx, List.filterMap_cons_some hy, List.cons.injEq, rest,
      List.forall_mem_cons, hx, hy, Option.some.injEq]

/-- The blocks in front of the first one without a tag behind a star. -/
def leading (t : Text) : List Block := (blocks t).takeWhile Block.isStarred

/-- The first block without a tag behind a star and all behind it. -/
def others (t : Text) : List Block := (blocks t).dropWhile Block.isStarred

/-- Where the first of the other blocks has no tag and stands alone on its line, nothing is found
from it on that is not declared just when it takes no tag and the blocks behind it declare none. -/
theorem strays_eq_declared_iff {b : Block} {rest : List Block} (bare : b.declared? = none)
    (alone : ∀ o ∈ rest, o.line ≠ b.line) :
    b.strays = (b :: rest).filterMap Block.declared? ↔
      b.next? = none ∧ ∀ o ∈ rest, o.declared? = none := by
  rw [List.filterMap_cons_none bare]
  cases next : b.next? with
  | none =>
    rw [Block.strays_of_none next, eq_comm, List.filterMap_eq_nil_iff]
    simp
  | some found =>
    obtain ⟨tag, line, behind⟩ := found
    refine iff_of_false ?_ (by simp)
    intro eq
    have mem : tag ∈ rest.filterMap Block.declared? := by
      rw [← eq, Block.strays_of_some next]
      exact List.mem_cons_self
    obtain ⟨o, ho, declared⟩ := List.mem_filterMap.mp mem
    obtain ⟨type, -, same⟩ := Option.map_eq_some_iff.mp declared
    obtain ⟨_, _, _, -, -, taken, -⟩ := Block.next?_eq_some.mp next
    exact alone o ho (congrArg TypeTag.line (same.trans taken))

/-- Blocks and tags. For the leading blocks their first tags behind stars are found, each with the
line of its block. The next block takes the next tag behind a star for its own, wherever that is. So
what is found is what the blocks declare just when the first tags of the leading blocks stand behind
stars and the other blocks declare what is found from the first of them on. Where that block has no
tag and stands alone on its line, this is when no tag follows for it to take and no block behind it
declares a type. -/
theorem all_of_blocks (t : Text) :
    all t = (leading t).filterMap Block.starred? ++ (others t).head?.elim [] Block.strays ∧
    (all t = (blocks t).filterMap Block.declared? ↔
      (∀ b ∈ leading t, b.starred? = b.declared?) ∧
        (others t).head?.elim [] Block.strays = (others t).filterMap Block.declared?) ∧
    ∀ b rest, others t = b :: rest → b.declared? = none → (∀ o ∈ rest, o.line ≠ b.line) →
      (all t = (blocks t).filterMap Block.declared? ↔
        (∀ o ∈ leading t, o.starred? = o.declared?) ∧
          b.next? = none ∧ ∀ o ∈ rest, o.declared? = none) := by
  have found : all t =
      (leading t).filterMap Block.starred? ++ (others t).head?.elim [] Block.strays :=
    allFrom_of_blocks 1 t
  have starred : ∀ b ∈ leading t, b.isStarred = true := fun b mem => List.mem_takeWhile_imp mem
  have declared : ∀ b ∈ leading t, b.declared?.isSome = true := fun b mem =>
    Block.declared?_isSome (starred b mem)
  have same := filterMap_eq_iff starred declared
  have length : ((leading t).filterMap Block.starred?).length =
      ((leading t).filterMap Block.declared?).length := by
    rw [List.filterMap_length_eq_length.mpr starred, List.filterMap_length_eq_length.mpr declared]
  have split : blocks t = leading t ++ others t := List.takeWhile_append_dropWhile.symm
  have agree : all t = (blocks t).filterMap Block.declared? ↔
      (∀ b ∈ leading t, b.starred? = b.declared?) ∧
        (others t).head?.elim [] Block.strays = (others t).filterMap Block.declared? := by
    rw [found, split, List.filterMap_append]
    constructor
    · intro eq
      obtain ⟨front, back⟩ := List.append_inj eq length
      exact ⟨same.mp front, back⟩
    · rintro ⟨front, back⟩
      rw [same.mpr front, back]
  refine ⟨found, agree, ?_⟩
  intro b rest behind bare alone
  rw [agree, behind, ← strays_eq_declared_iff bare alone]
  rfl

/-- A tag is found with the line of a block in front of its own that has none. -/
theorem all_of_bare_block :
    let t := txt "/** doc */\n/**\n * @type \x7bX\x7d\n */\n"
    all t = [⟨txt "X", 1⟩] ∧ (blocks t).filterMap Block.declared? = [⟨txt "X", 2⟩] := by
  decide

end ParamSchema.TypeTag
