import ParamSchema.Proofs.Layout.Weaving
import ParamSchema.Proofs.Layout.Segments
import ParamSchema.Proofs.Outcome
import ParamSchema.Proofs.Strings.Spelling

/-!
String literals as they are read. The characters between the quotes of a literal are split into
runs of characters that stand for themselves and into escapes (`StringLiteral.Splits`). The reader
of string literals makes one node of each of these pieces (`StringLiteral.Splits.exists_string`),
and no comment is ever found between them, so the pieces are what the tree of the file has.
-/

namespace ParamSchema

/-! ### Nodes without parts in a row -/

namespace Parse

/-- Nodes without parts that lie directly one behind the other, each up to a place of a text. -/
inductive Abut (text : List Char) : Nat → Nat → List Node → Prop where
  | nil (a : Nat) : Abut text a a []
  | cons {a b : Nat} {n : Node} {ns : List Node} : n.start = a → n.children = [] → a ≤ n.stop →
      Place text n.stop → Abut text n.stop b ns → Abut text a b (n :: ns)

theorem Abut.append {text : List Char} {a b c : Nat} {ns ms : List Node} (h : Abut text a b ns)
    (h' : Abut text b c ms) : Abut text a c (ns ++ ms) := by
  induction h with
  | nil => exact h'
  | cons start single covers place _ ih => exact .cons start single covers place (ih h')

theorem Abut.eq_of_nil {text : List Char} {a b : Nat} (h : Abut text a b []) : a = b := by
  cases h
  rfl

/-- A node made of nodes in a row covers what they cover. -/
theorem Abut.branch {text : List Char} {a b : Nat} {ns : List Node} (h : Abut text a b ns)
    (filled : ns ≠ []) (kind : Kind) :
    (Node.branch kind ns).start = a ∧ (Node.branch kind ns).stop = b := by
  induction h with
  | nil => exact absurd rfl filled
  | @cons a b n ns begins _ _ _ rest ih =>
    refine ⟨begins, ?_⟩
    cases ns with
    | nil => exact rest.eq_of_nil
    | cons m ns => exact (ih (List.cons_ne_nil _ _)).2

theorem commentsUpTo_here {limit : Nat} {s : Input} (reached : limit ≤ s.offset) (cs : List Char) :
    commentsUpTo limit .blank s cs = ([], s) := by
  cases cs with
  | nil => rfl
  | cons c cs =>
    rw [commentsUpTo, if_pos reached]
    intro _ line
    cases line

/-- No comment is found between nodes that lie directly one behind the other. -/
theorem Abut.weaveParts {text : List Char} {a b : Nat} {ns : List Node} (h : Abut text a b ns)
    {s : Input} (hs : s.At text) (here : s.offset = a) : (Parse.weaveParts s ns).1 = ns := by
  induction h generalizing s with
  | nil => rfl
  | @cons a b n ns begins single covers place _ ih =>
    cases n with
    | mk kind role start stop line children =>
      cases single
      have reached' : start ≤ s.offset := (begins.trans here.symm).le
      rw [Parse.weaveParts, Node.start, commentsUpTo_here reached']
      have reached := Input.offset_upTo hs rfl place (here.trans_le covers)
      exact congrArg _ (ih (hs.upTo rfl) reached)

theorem Abut.weave {text : List Char} {n : Node} {b : Nat} (h : Abut text n.start b n.children)
    {s : Input} (hs : s.At text) (here : s.offset = n.start) : (Parse.weave s n).1 = n := by
  cases n with
  | mk kind role start stop line children =>
    have same := h.weaveParts hs here
    exact congrArg (Node.mk kind role start stop line) same

/-! ### Moving on by a piece -/

theorem Input.behind_advance {text : List Char} {s : Input} (hs : s.At text) {piece : List Char}
    {rest : List Char} (ahead : s.rest = piece ++ rest) :
    s.Behind text piece (s.advance piece.length) := by
  induction piece generalizing s with
  | nil => exact Input.behind_nil hs
  | cons c piece ih =>
    rw [List.length_cons, Input.advance, ahead]
    exact Input.behind_pass (ih (hs.pass ahead) rfl)

theorem Input.Behind.rest {text : List Char} {s t : Input} {piece rest : List Char}
    (h : s.Behind text piece t) (hs : s.At text) (ahead : s.rest = piece ++ rest) :
    t.rest = rest := by
  obtain ⟨⟨front, split, offset⟩, -⟩ := hs
  have behind : text = (front ++ piece) ++ rest := by rw [split, ahead, List.append_assoc]
  exact h.here.rest_eq behind (by rw [h.offset, offset, Utf8.widths_append])

theorem Input.Behind.segment {text : List Char} {s t : Input} {piece rest : List Char}
    (h : s.Behind text piece t) (hs : s.At text) (ahead : s.rest = piece ++ rest) :
    Segment text s.offset t.offset piece := by
  obtain ⟨⟨front, split, offset⟩, -⟩ := hs
  rw [h.offset, offset]
  exact .some (split.trans (by rw [ahead]))

theorem Input.Behind.trans {text : List Char} {s t u : Input} {x y : List Char}
    (h : s.Behind text x t) (h' : t.Behind text y u) : s.Behind text (x ++ y) u :=
  ⟨h'.here, by rw [h'.offset, h.offset, Utf8.widths_append, Nat.add_assoc]⟩

theorem Input.Behind.eq_nil {text : List Char} {s t : Input} {piece : List Char}
    (h : s.Behind text piece t) (same : s.offset = t.offset) : piece = [] := by
  have width := h.offset
  cases piece with
  | nil => rfl
  | cons c piece =>
    have positive := Utf8.width_pos c
    rw [Utf8.widths_cons] at width
    omega

/-! ### Readers that succeed -/

namespace Reader

variable {α : Type} {p q : Reader α} {s s' : Input}

theorem orElse_of_some {x : α} (h : p s = (some x, s')) : (p <|> q) s = (some x, s') := by
  change Reader.orElse p (fun _ => q) s = _
  rw [Reader.orElse, h]

theorem orElse_of_none (h : p s = (none, s')) : (p <|> q) s = q { s with reach := s'.reach } := by
  change Reader.orElse p (fun _ => q) s = _
  rw [Reader.orElse, h]

theorem measured_of_pos (kind : Kind) (length : List Char → Nat) (h : length s.rest ≠ 0) :
    measured kind length s = leaf kind (length s.rest) s := by
  change (if length s.rest = 0 then miss else leaf kind (length s.rest)) s = _
  rw [if_neg h]

theorem measured_of_zero (kind : Kind) (length : List Char → Nat) (h : length s.rest = 0) :
    measured kind length s = miss s := by
  change (if length s.rest = 0 then miss else leaf kind (length s.rest)) s = _
  rw [if_pos h]

theorem repeated_cons {k : Nat} {a : α} {more : List α} {s'' : Input} (first : p s = (some a, s'))
    (rest : repeated k p s' = (some more, s'')) :
    repeated (k + 1) p s = (some (a :: more), s'') :=
  orElse_of_some (bind_eq_some.mpr ⟨a, s', first, bind_eq_some.mpr ⟨more, s'', rest, rfl⟩⟩)

theorem repeated_nil {k : Nat} (stop : p s = (none, s')) :
    repeated (k + 1) p s = (some [], { s with reach := s'.reach }) := by
  have stops : (do
      let a ← p
      let more ← repeated k p
      return a :: more : Reader (List α)) s = (none, s') := by
    simp only [Bind.bind, stop]
  exact orElse_of_none stops

/-- A piece of the text ahead becomes a node. -/
theorem exists_leaf {text x rest : List Char} (kind : Kind) (hs : s.At text)
    (ahead : s.rest = x ++ rest) :
    ∃ n t, leaf kind x.length s = (some n, t) ∧ s.Behind text x t ∧ n.kind = kind ∧
      Abut text s.offset t.offset [n] ∧ Segment text n.start n.stop x := by
  have behind := Input.behind_advance hs ahead
  refine ⟨_, _, rfl, behind, rfl, ?_, behind.segment hs ahead⟩
  exact .cons rfl rfl (Input.offset_le_advance _ s) behind.here.place (.nil _)

end Reader

end Parse

/-! ### Pieces of literals -/

namespace StringLiteral

open Parse (Abut Input Reader Segment escapeLength)

/-- How the characters between the quotes of a literal are split, with the text that the pieces
give: a run of characters that stand for themselves is as long as can be, and an escape has the
length that the grammar gives it. -/
inductive Splits (quote : Char) : List Char → Text → Prop where
  | nil : Splits quote [] []
  | fragment {run w : List Char} {v : Text} : run ≠ [] → (∀ c ∈ run, isRaw quote c = true) →
      (∀ c ∈ w.head?, isRaw quote c = false) → Splits quote w v →
        Splits quote (run ++ w) (Text.ofChars run ++ v)
  | escape {e w : List Char} {x v : Text} : e.head? = some '\\' →
      (∀ after, escapeLength (e ++ (w ++ quote :: after)) = e.length) →
      Escape.decode (Text.ofChars e) = .ok x → Splits quote w v → Splits quote (e ++ w) (x ++ v)

/-- Nodes of pieces in a row, from one offset of a text to another, and the text they give. -/
structure Pieces (file : SourceFile) (text : List Char) (a b : Nat) (ns : List Node) (v : Text) :
    Prop where
  abut : Abut text a b ns
  named : ∀ n ∈ ns, n.isNamed = true
  value : ∃ xs, ns.mapM file.pieceValue = .ok xs ∧ xs.flatten = v

theorem Pieces.cons {file : SourceFile} {text : List Char} {a b c : Nat} {n : Node} {ns : List Node}
    {x v : Text} (abut : Abut text a b [n]) (named : n.isNamed = true)
    (value : file.pieceValue n = .ok x) (h : Pieces file text b c ns v) :
    Pieces file text a c (n :: ns) (x ++ v) := by
  obtain ⟨xs, values, rfl⟩ := h.value
  refine ⟨abut.append h.abut, ?_, x :: xs, ?_, rfl⟩
  · intro m mem
    rcases List.mem_cons.mp mem with rfl | mem
    · exact named
    · exact h.named m mem
  · exact Outcome.mapM_eq_ok.mpr (.cons value (Outcome.mapM_eq_ok.mp values))

/-- The value of a literal is what the pieces between its quotes give. -/
theorem Pieces.stringValue {file : SourceFile} {text : List Char} {a b : Nat} {ns : List Node}
    {v : Text} (h : Pieces file text a b ns v) {n opening closing : Node}
    (children : n.children = opening :: (ns ++ [closing])) (opens : opening.isNamed = false)
    (closes : closing.isNamed = false) (empty : ns = [] → file.inner n = []) :
    file.stringValue n = .ok v := by
  have parts : n.children.filter Node.isNamed = ns := by
    simp [children, opens, closes, List.filter_eq_self.mpr h.named]
  obtain ⟨xs, values, rfl⟩ := h.value
  rw [SourceFile.stringValue, parts]
  by_cases none : ns = []
  · subst none
    cases values
    rw [empty rfl]
    rfl
  · rw [if_neg (by simpa using none), values]
    rfl

/-- The reader of one piece. -/
def piece (quote : Char) : Reader Node :=
  Reader.measured .stringFragment (fun cs => (cs.takeWhile (isRaw quote)).length) <|>
    Reader.measured .escapeSequence escapeLength

section

variable {quote : Char} {s : Input}

theorem piece_of_raw {run w : List Char} (filled : run ≠ []) (raw : ∀ c ∈ run, isRaw quote c = true)
    (stops : ∀ c ∈ w.head?, isRaw quote c = false) (ahead : s.rest = run ++ w) :
    piece quote s = Reader.leaf .stringFragment run.length s := by
  have behind : w.takeWhile (isRaw quote) = [] := by
    cases w with
    | nil => rfl
    | cons c w => exact List.takeWhile_cons_of_neg (by rw [stops c rfl]; decide)
  have taken : s.rest.takeWhile (isRaw quote) = run := by
    rw [ahead, List.takeWhile_append_of_pos raw, behind, List.append_nil]
  have positive : (s.rest.takeWhile (isRaw quote)).length ≠ 0 := by
    rw [taken]
    exact mt List.length_eq_zero_iff.mp filled
  have first := Reader.measured_of_pos .stringFragment
    (fun cs => (cs.takeWhile (isRaw quote)).length) positive
  rw [taken] at first
  exact Reader.orElse_of_some first

/-- In front of a backslash or of the closing quote only an escape can be read. -/
theorem piece_of_special {c : Char} {w : List Char} (special : isRaw quote c = false)
    (ahead : s.rest = c :: w) : ∃ reach,
      piece quote s = Reader.measured .escapeSequence escapeLength { s with reach := reach } := by
  have nothing : (s.rest.takeWhile (isRaw quote)).length = 0 := by
    rw [ahead, List.takeWhile_cons_of_neg (by rw [special]; decide)]
    rfl
  have first := Reader.measured_of_zero .stringFragment
    (fun cs => (cs.takeWhile (isRaw quote)).length) nothing
  exact ⟨_, Reader.orElse_of_none first⟩

theorem piece_of_escape (quote : Char) {e w : List Char} (starts : e.head? = some '\\')
    (ahead : s.rest = e ++ w) (length : escapeLength (e ++ w) = e.length) :
    ∃ reach, piece quote s = Reader.leaf .escapeSequence e.length { s with reach := reach } := by
  obtain ⟨e, rfl⟩ := List.head?_eq_some_iff.mp starts
  obtain ⟨reach, read⟩ := piece_of_special (not_isRaw_backslash quote) ahead
  have measure : escapeLength s.rest = ('\\' :: e).length := by rw [ahead, length]
  have taken := Reader.measured_of_pos (s := { s with reach := reach }) .escapeSequence escapeLength
    (measure ▸ Nat.succ_ne_zero _)
  refine ⟨reach, read.trans (taken.trans ?_)⟩
  rw [measure]

theorem piece_of_quote (proper : quote ≠ '\\') {rest : List Char} (ahead : s.rest = quote :: rest) :
    ∃ s', piece quote s = (none, s') := by
  obtain ⟨reach, read⟩ := piece_of_special (not_isRaw_quote quote) ahead
  have nothing : escapeLength s.rest = 0 := by
    rw [ahead, escapeLength]
    rintro c rest' eq
    exact proper (List.cons.inj eq).1
  exact ⟨_, read.trans (Reader.measured_of_zero _ _ nothing)⟩

end

section

variable {quote : Char} {text : List Char} {file : SourceFile}
  (bytes : file.bytes = (String.ofList text).toUTF8)

include bytes

/-- The reading of pieces from a place on, with what they give. -/
def Reads (quote : Char) (text : List Char) (file : SourceFile) (k : Nat) (s : Input)
    (w : List Char) (v : Text) : Prop :=
  ∃ ns s', Reader.repeated k (piece quote) s = (some ns, s') ∧ s.Behind text w s' ∧
    Pieces file text s.offset s'.offset ns v

/-- A piece is read in front of others. -/
theorem Reads.cons {k : Nat} {s s₀ : Input} {kind : Kind} {x w rest : List Char} {y v : Text}
    (read : piece quote s = Reader.leaf kind x.length s₀) (same : s₀.offset = s.offset)
    (hs : s₀.At text) (ahead : s₀.rest = x ++ rest) (named : kind.isNamed = true)
    (value : ∀ n : Node, n.kind = kind → file.textOf n = Text.ofChars x →
      file.pieceValue n = .ok y)
    (behind : ∀ t : Input, t.At text → t.rest = rest → Reads quote text file k t w v) :
    Reads quote text file (k + 1) s (x ++ w) (y ++ v) := by
  obtain ⟨n, t, taken, passed, rfl, abut, segment⟩ := Reader.exists_leaf kind hs ahead
  obtain ⟨ns, s', more, passed', pieces⟩ := behind t passed.here (passed.rest hs ahead)
  have text : file.textOf n = Text.ofChars x := by
    rw [SourceFile.textOf, bytes]
    exact segment.slice
  rw [same] at abut
  have passes : s.Behind _ x t := ⟨passed.here, same ▸ passed.offset⟩
  exact ⟨n :: ns, s', Reader.repeated_cons (read.trans taken) more, passes.trans passed',
    pieces.cons abut named (value n rfl text)⟩

/-- The pieces of a literal are read one after the other up to its closing quote. -/
theorem Splits.reads {w : List Char} {v : Text} (h : Splits quote w v) (proper : quote ≠ '\\')
    {k : Nat} (enough : w.length < k) {s : Input} (hs : s.At text) {rest : List Char}
    (ahead : s.rest = w ++ quote :: rest) : Reads quote text file k s w v := by
  induction h generalizing k s with
  | nil =>
    obtain ⟨k, rfl⟩ := Nat.exists_eq_succ_of_ne_zero (Nat.ne_zero_of_lt enough)
    obtain ⟨s', stop⟩ := piece_of_quote proper ahead
    exact ⟨[], _, Reader.repeated_nil stop, ⟨hs, by simp⟩, .nil _, by simp, [], rfl, rfl⟩
  | @fragment run w v filled raw stops _ ih =>
    obtain ⟨k, rfl⟩ := Nat.exists_eq_succ_of_ne_zero (Nat.ne_zero_of_lt enough)
    have long := List.length_pos_iff.mpr filled
    rw [List.length_append] at enough
    rw [List.append_assoc] at ahead
    have stops' : ∀ c ∈ (w ++ quote :: rest).head?, isRaw quote c = false := by
      cases w with
      | nil => simp [not_isRaw_quote]
      | cons c w => exact stops
    refine Reads.cons bytes (piece_of_raw filled raw stops' ahead) rfl hs ahead rfl ?_ ?_
    · intro n kind text
      rw [SourceFile.pieceValue, kind, text]
    · intro t ht ahead
      exact ih (by omega) ht ahead
  | @escape e w x v starts length decoded _ ih =>
    obtain ⟨k, rfl⟩ := Nat.exists_eq_succ_of_ne_zero (Nat.ne_zero_of_lt enough)
    obtain ⟨e', rfl⟩ := List.head?_eq_some_iff.mp starts
    rw [List.length_append, List.length_cons] at enough
    rw [List.append_assoc] at ahead
    obtain ⟨reach, read⟩ := piece_of_escape quote starts ahead (length rest)
    refine Reads.cons bytes read rfl hs ahead rfl ?_ ?_
    · intro n kind text
      rw [SourceFile.pieceValue, kind, text]
      exact decoded
    · intro t ht ahead
      exact ih (by omega) ht ahead

omit bytes in
/-- A literal is read as its quotes with the pieces between them. -/
theorem string_of_pieces {s t₀ t₁ t₂ : Input} {opening closing : Node} {ns : List Node}
    {w rest : List Char} (quotes : quote = '\x27' ∨ quote = '\x22')
    (ahead : s.toToken.rest = quote :: w) (ahead' : t₁.rest = quote :: rest)
    (opens : Reader.leaf (.token (String.singleton quote)) 1 s.toToken = (some opening, t₀))
    (inside : Reader.repeated t₀.bound (piece quote) t₀ = (some ns, t₁))
    (closes : Reader.leaf (.token (String.singleton quote)) 1 t₁ = (some closing, t₂)) :
    Reader.string s = (some (Node.branch .string (opening :: (ns ++ [closing]))), t₂) := by
  have close : Reader.immediate quote t₁ = (some closing, t₂) := by
    refine Reader.bind_eq_some.mpr ⟨t₁.rest, t₁, rfl, ?_⟩
    rw [ahead']
    simpa using closes
  have tail : Reader.stringTail quote t₀ = (some (ns ++ [closing]), t₂) :=
    Reader.bind_eq_some.mpr ⟨ns, t₁, inside, Reader.bind_eq_some.mpr ⟨closing, t₂, close, rfl⟩⟩
  refine Reader.bind_eq_some.mpr ⟨(), s.toToken, rfl,
    Reader.bind_eq_some.mpr ⟨s.toToken.rest, s.toToken, rfl, ?_⟩⟩
  rw [ahead]
  have known : (quote == '\x27' || quote == '\x22') = true := by simpa using quotes
  simp only [known, if_true]
  exact Reader.bind_eq_some.mpr ⟨opening, t₀, opens, Reader.bind_eq_some.mpr ⟨_, t₂, tail, rfl⟩⟩

/-- A literal is read as one node, which covers it, keeps its parts in the tree and has the text
that its pieces give. -/
theorem Splits.exists_string {w : List Char} {v : Text} (h : Splits quote w v)
    (quotes : quote = '\x27' ∨ quote = '\x22') {s : Input} (hs : s.At text) {rest : List Char}
    (ahead : s.toToken.rest = [quote] ++ (w ++ ([quote] ++ rest))) :
    ∃ n s', Reader.string s = (some n, s') ∧ s'.rest = rest ∧ n.kind = .string ∧
      (∀ u : Input, u.At text → u.offset = n.start → (Parse.weave u n).1 = n) ∧
      file.textOf n = Text.ofChars ([quote] ++ (w ++ [quote])) ∧ file.stringValue n = .ok v := by
  have proper : quote ≠ '\\' := by
    rcases quotes with rfl | rfl <;> decide
  have hs₁ := (Input.free_toToken hs).1
  obtain ⟨opening, t₀, taken₀, behind₀, kind₀, abut₀, -⟩ :=
    Reader.exists_leaf (.token (String.singleton quote)) hs₁ ahead
  have ahead₀ := behind₀.rest hs₁ ahead
  have enough : w.length < t₀.bound := by
    obtain ⟨⟨front, split, -⟩, bound⟩ := behind₀.here
    rw [bound, split, ahead₀, List.length_append, List.length_append]
    omega
  obtain ⟨ns, t₁, taken₁, behind₁, pieces⟩ := h.reads bytes proper enough behind₀.here ahead₀
  have ahead₁ := behind₁.rest behind₀.here ahead₀
  obtain ⟨closing, t₂, taken₂, behind₂, kind₂, abut₂, -⟩ :=
    Reader.exists_leaf (.token (String.singleton quote)) behind₁.here ahead₁
  have abut := abut₀.append (pieces.abut.append abut₂)
  obtain ⟨start, stop⟩ := abut.branch (List.cons_ne_nil _ _) .string
  have covered : file.textOf (.branch .string (opening :: (ns ++ [closing]))) =
      Text.ofChars ([quote] ++ (w ++ [quote])) := by
    have segment := (behind₀.trans (behind₁.trans behind₂)).segment hs₁
      (show s.toToken.rest = ([quote] ++ (w ++ [quote])) ++ rest by simp [ahead])
    rw [SourceFile.textOf, bytes]
    exact (start ▸ stop ▸ segment).slice
  refine ⟨.branch .string (opening :: (ns ++ [closing])), t₂,
    string_of_pieces quotes ahead ahead₁ taken₀ taken₁ taken₂, behind₂.rest behind₁.here ahead₁,
    rfl, ?_, covered, pieces.stringValue rfl (congrArg Kind.isNamed kind₀)
      (congrArg Kind.isNamed kind₂) ?_⟩
  · intro u hu here
    have abut' : Abut text _ t₂.offset (opening :: (ns ++ [closing])) := start.symm ▸ abut
    exact abut'.weave hu here
  · rintro rfl
    rw [SourceFile.inner, covered, behind₁.eq_nil pieces.abut.eq_of_nil]
    rfl

end

end StringLiteral

end ParamSchema
