import ParamSchema.Proofs.Layout.Covering

/-!
Comments in their places. What lies between two parts of a tree becomes a part of its own when it is
a comment, and the rest is white space (`spread_commentsUpTo`). So in the tree of a file nothing but
white space lies between the parts of any node, and the comments among them cover comments of the
text (`Parse.spread_file`, `Place.spread`).
-/

namespace ParamSchema

namespace Parse

open Utf8 (widths)

/-- Nodes lie one behind the other between two offsets of a text, with nothing but white space
between them, and so do the parts of each of them. A comment among them covers one of the text. -/
inductive Spread (text : List Char) : Nat → Nat → List Node → Prop where
  | nil {a b : Nat} : (blanks text).Free a b → Spread text a b []
  | cons {a b c : Nat} {n : Node} {ns : List Node} : (blanks text).Free a n.start →
      (n.isComment = true → Comment text n.start n.stop) → Spread text n.start c n.children →
      Spread text n.stop b ns → Spread text a b (n :: ns)

/-- An input that some characters of a text part from another. -/
structure Input.Behind (text : List Char) (s : Input) (piece : List Char) (t : Input) : Prop where
  here : t.At text
  offset : t.offset = s.offset + widths piece

section

variable {text : List Char} {s t : Input} {piece rest : List Char}

theorem Input.offset_pass (s : Input) (c : Char) (rest : List Char) :
    (s.pass c rest).offset = s.offset + Utf8.width c := rfl

theorem Input.behind_nil (hs : s.At text) : s.Behind text [] s := ⟨hs, by simp⟩

theorem Input.behind_pass {c : Char} (h : (s.pass c rest).Behind text piece t) :
    s.Behind text (c :: piece) t :=
  ⟨h.here, by rw [h.offset, offset_pass, Utf8.widths_cons, Nat.add_assoc]⟩

end

theorem Spread.front {text : List Char} {a a' b : Nat} {ns : List Node} (h : Spread text a b ns)
    (free : (blanks text).Free a' a) : Spread text a' b ns := by
  cases h with
  | nil free' => exact .nil ((blanks text).trans free free')
  | cons free' comment parts behind =>
    exact .cons ((blanks text).trans free free') comment parts behind

/-! ### The comments of a gap -/

/-- Inside of a block comment, behind a star or not. -/
def Between.within (start : Input) (starred : Bool) : Between :=
  if starred then .star start else .blockComment start

section

variable {text : List Char} {limit : Nat} {s start : Input} {c : Char} {rest : List Char}

theorem commentsUpTo_blank (inside : s.offset < limit) :
    commentsUpTo limit .blank s (c :: rest) =
      commentsUpTo limit (if c == '/' then .slash s else .blank) (s.pass c rest) rest := by
  rw [commentsUpTo, if_neg (by omega)]
  intro _ line
  cases line

theorem commentsUpTo_space (inside : s.offset < limit) (space : isSpace c = true) :
    commentsUpTo limit .blank s (c :: rest) = commentsUpTo limit .blank (s.pass c rest) rest := by
  have other : (c == '/') = false := by
    rw [beq_eq_false_iff_ne]
    rintro rfl
    cases space
  rw [commentsUpTo_blank inside, other]
  rfl

theorem commentsUpTo_opened (inside : s.offset < limit) :
    commentsUpTo limit (.slash start) s (c :: rest) =
      commentsUpTo limit
        (if c == '/' then .lineComment start else if c == '*' then .blockComment start else .blank)
        (s.pass c rest) rest := by
  rw [commentsUpTo, if_neg (by omega)]
  intro _ line
  cases line

/-- A comment that ends here, and what follows it. -/
def ended (limit : Nat) (start s : Input) : List Node × Input :=
  (commentNode start s :: (commentsUpTo limit .blank s s.rest).1,
    (commentsUpTo limit .blank s s.rest).2)

theorem commentsUpTo_within (inside : s.offset < limit) {starred : Bool}
    (goesOn : c = '/' → starred = false) :
    commentsUpTo limit (.within start starred) s (c :: rest) =
      commentsUpTo limit (.within start (c == '*')) (s.pass c rest) rest := by
  have goesDown : ¬ limit ≤ s.offset := by omega
  cases starred with
  | false =>
    rw [Between.within, if_neg (by decide), commentsUpTo, if_neg goesDown]
    · rfl
    · intro _ line
      cases line
  | true =>
    have other : (c == '/') = false := by
      rw [beq_eq_false_iff_ne]
      intro slash
      cases goesOn slash
    rw [Between.within, if_pos rfl, commentsUpTo, if_neg goesDown]
    · simp only [other]
      rfl
    · intro _ line
      cases line

theorem commentsUpTo_closed (inside : s.offset < limit) :
    commentsUpTo limit (.within start true) s ('/' :: rest) =
      ended limit start (s.pass '/' rest) := by
  rw [Between.within, if_pos rfl, commentsUpTo, if_neg (by omega)]
  · rfl
  · intro _ line
    cases line

/-- The rest of a block comment. -/
theorem commentsUpTo_block (limit : Nat) (start : Input) (starred : Bool) {body : List Char}
    (hs : s.At text)
    (unclosed : ¬ ['*', '/'] <:+: (if starred then ['*'] else []) ++ body)
    (ahead : s.rest = (body ++ ['*', '/']) ++ rest)
    (fits : s.offset + widths (body ++ ['*', '/']) ≤ limit) :
    ∃ t, s.Behind text (body ++ ['*', '/']) t ∧
      commentsUpTo limit (.within start starred) s s.rest = ended limit start t := by
  have star : Utf8.width '*' = 1 := rfl
  have slash : Utf8.width '/' = 1 := rfl
  induction body generalizing s starred with
  | nil =>
    have ahead' : s.rest = '*' :: '/' :: rest := ahead
    have passed := hs.pass ahead'
    simp only [List.nil_append, Utf8.widths_cons, Utf8.widths_nil] at fits
    refine ⟨(s.pass '*' ('/' :: rest)).pass '/' rest, Input.behind_pass (Input.behind_pass
      (Input.behind_nil (passed.pass rfl))), ?_⟩
    rw [ahead', commentsUpTo_within (by omega) (fun eq => absurd eq (by decide))]
    exact commentsUpTo_closed (by rw [Input.offset_pass]; omega)
  | cons c body ih =>
    have ahead' : s.rest = c :: ((body ++ ['*', '/']) ++ rest) := ahead
    have positive := Utf8.width_pos c
    rw [List.cons_append, Utf8.widths_cons] at fits
    have goesOn : c = '/' → starred = false := by
      rintro rfl
      cases starred with
      | false => rfl
      | true => exact absurd ⟨[], body, rfl⟩ unclosed
    -- Of what has been passed only a star right before can still take part in an end.
    have unclosed' : ¬ ['*', '/'] <:+: (if c == '*' then ['*'] else []) ++ body := by
      refine fun closed => unclosed (closed.trans ?_)
      by_cases again : c = '*'
      · simp [again, List.infix_append_of_infix_right]
      · have shorter : body <:+: (if starred then ['*'] else []) ++ c :: body :=
          ⟨(if starred then ['*'] else []) ++ [c], [], by simp⟩
        simpa [again] using shorter
    obtain ⟨t, behind, run⟩ := ih (c == '*') (hs.pass ahead') unclosed' rfl
      (by rw [Input.offset_pass]; omega)
    refine ⟨t, Input.behind_pass behind, ?_⟩
    rw [ahead', commentsUpTo_within (by omega) goesOn]
    exact run

/-- The rest of a line comment. -/
theorem commentsUpTo_line (limit : Nat) (start : Input) {body : List Char} (hs : s.At text)
    (inLine : ∀ c ∈ body, isLineEnd c = false) (ends : ∀ c ∈ rest.head?, isLineEnd c = true)
    (ahead : s.rest = body ++ rest) (fits : s.offset + widths body ≤ limit) :
    ∃ t, s.Behind text body t ∧
      commentsUpTo limit (.lineComment start) s s.rest = ended limit start t := by
  induction body generalizing s with
  | nil =>
    refine ⟨s, Input.behind_nil hs, ?_⟩
    rw [ended]
    cases last : s.rest with
    | nil => rfl
    | cons c rest' =>
      by_cases inside : s.offset < limit
      · have line : isLineEnd c = true := by
          rw [List.nil_append, last] at ahead
          exact ends c (by rw [← ahead]; rfl)
        rw [commentsUpTo_space inside (isSpace_of_isLineEnd line), commentsUpTo,
          if_neg (by omega)]
        simp only [line, if_true]
      · rw [commentsUpTo, if_pos (by omega), commentsUpTo, if_pos (by omega)]
        intro _ line
        cases line
  | cons c body ih =>
    have ahead' : s.rest = c :: (body ++ rest) := ahead
    have positive := Utf8.width_pos c
    obtain ⟨first, others⟩ := List.forall_mem_cons.mp inLine
    rw [Utf8.widths_cons] at fits
    obtain ⟨t, behind, run⟩ := ih (hs.pass ahead') others rfl
      (by rw [Input.offset_pass]; omega)
    refine ⟨t, Input.behind_pass behind, ?_⟩
    rw [ahead', commentsUpTo, if_neg (by omega)]
    simp only [first]
    exact run

/-- A comment in front of the input. -/
theorem commentsUpTo_comment (limit : Nat) {piece : List Char} (hs : s.At text)
    (comment : IsComment piece rest) (ahead : s.rest = piece ++ rest)
    (fits : s.offset + widths piece ≤ limit) :
    ∃ t, s.Behind text piece t ∧ commentsUpTo limit .blank s s.rest = ended limit s t := by
  have star : Utf8.width '*' = 1 := rfl
  have slash : Utf8.width '/' = 1 := rfl
  cases comment with
  | @line body _ inLine ends =>
    have ahead' : s.rest = '/' :: '/' :: (body ++ rest) := ahead
    have opened : ((s.pass '/' ('/' :: (body ++ rest))).pass '/' (body ++ rest)).At text :=
      (hs.pass ahead').pass rfl
    simp only [Utf8.widths_cons] at fits
    obtain ⟨t, behind, run⟩ := commentsUpTo_line limit s opened inLine ends rfl
      (by simp only [Input.offset_pass]; omega)
    refine ⟨t, Input.behind_pass (Input.behind_pass behind), ?_⟩
    rw [ahead', commentsUpTo_blank (by omega), ← run]
    exact commentsUpTo_opened (by rw [Input.offset_pass]; omega)
  | @block body _ unclosed =>
    have ahead' : s.rest = '/' :: '*' :: ((body ++ ['*', '/']) ++ rest) := ahead
    have opened : ((s.pass '/' ('*' :: ((body ++ ['*', '/']) ++ rest))).pass '*'
        ((body ++ ['*', '/']) ++ rest)).At text := (hs.pass ahead').pass rfl
    simp only [Utf8.widths_cons] at fits
    obtain ⟨t, behind, run⟩ := commentsUpTo_block limit s false opened unclosed rfl
      (by simp only [Input.offset_pass]; omega)
    refine ⟨t, Input.behind_pass (Input.behind_pass behind), ?_⟩
    rw [ahead', commentsUpTo_blank (by omega), ← run]
    exact commentsUpTo_opened (by rw [Input.offset_pass]; omega)

/-- The comments of a gap lie one behind the other with white space between them. The gap ends at
the offset up to which comments are looked for, or at the end of the text before that offset. -/
theorem spread_commentsUpTo (limit : Nat) {b : Nat} (hs : s.At text)
    (free : (gaps text).Free s.offset b) (last : b = limit ∨ b = widths text) (fits : b ≤ limit) :
    (commentsUpTo limit .blank s s.rest).2.At text ∧
      (commentsUpTo limit .blank s s.rest).2.offset = b ∧
      Spread text s.offset b (commentsUpTo limit .blank s s.rest).1 := by
  generalize begins : s.offset = a at free ⊢
  -- The gap is taken from its front, a space or a comment at a time, as the search meets them.
  induction free using Relation.ReflTransGen.head_induction_on generalizing s with
  | refl =>
    have run : commentsUpTo limit .blank s s.rest = ([], s) := by
      cases ahead : s.rest with
      | nil => rfl
      | cons c rest =>
        have inText := hs.offset_lt (by simp [ahead])
        rw [commentsUpTo, if_pos (by omega)]
        intro _ line
        cases line
    rw [run]
    exact ⟨hs, begins, .nil ((blanks text).refl b)⟩
  | @head a b' step free ih =>
    have behind := (gaps text).le free
    rcases step with blank | comment
    · have gap := blank
      cases blank with
      | @mk front rest c split space =>
        have ahead := hs.rest_eq split begins
        have positive := Utf8.width_pos c
        obtain ⟨here, reaches, spread⟩ := ih (hs.pass ahead) (by rw [Input.offset_pass, begins])
        rw [ahead, commentsUpTo_space (by omega) space]
        exact ⟨here, reaches, spread.front (.single gap)⟩
    · have covered := comment
      cases comment with
      | @mk front piece rest split comment =>
        have ahead := hs.rest_eq split begins
        obtain ⟨t, passed, run⟩ := commentsUpTo_comment limit hs comment ahead (by omega)
        obtain ⟨here, reaches, spread⟩ := ih passed.here (by rw [passed.offset, begins])
        have first : (commentNode s t).start = widths front := begins
        have next : (commentNode s t).stop = widths front + widths piece := by
          rw [← begins, ← passed.offset]
          rfl
        rw [run]
        refine ⟨here, reaches, .cons ?_ (fun _ => ?_) (.nil ((blanks text).refl _)) ?_⟩
        · rw [first]
          exact (blanks text).refl _
        · rw [first, next]
          exact covered
        · rw [next]
          exact spread

end

/-! ### Trees with their comments -/

namespace Spread

variable {text : List Char} {a b c : Nat} {n : Node} {ns ms : List Node}

theorem append (h : Spread text a b ns) (h' : Spread text b c ms) :
    Spread text a c (ns ++ ms) := by
  induction ns generalizing a with
  | nil =>
    cases h with
    | nil free => exact h'.front free
  | cons n ns ih =>
    cases h with
    | cons free comment parts behind => exact .cons free comment parts (ih behind)

/-- The nodes in front of a node. -/
theorem before (h : Spread text a b (ns ++ n :: ms)) : Spread text a n.start ns := by
  induction ns generalizing a with
  | nil =>
    cases h with
    | cons free => exact .nil free
  | cons n' ns ih =>
    cases h with
    | cons free comment parts behind => exact .cons free comment parts (ih behind)

/-- A node and the nodes behind it. -/
theorem rest (h : Spread text a b (ns ++ n :: ms)) : Spread text n.start b (n :: ms) := by
  induction ns generalizing a with
  | nil =>
    cases h with
    | cons _ comment parts behind =>
      exact .cons ((blanks text).refl _) comment parts behind
  | cons n' ns ih =>
    cases h with
    | cons _ _ _ behind => exact ih behind

end Spread

theorem Input.At.pass_le {text : List Char} {s : Input} {b : Nat} (hs : s.At text) {c : Char}
    {rest : List Char} (ahead : s.rest = c :: rest) (place : Place text b) (lt : s.offset < b) :
    (s.pass c rest).offset ≤ b := by
  obtain ⟨⟨front, split, offset⟩, -⟩ := hs
  obtain ⟨front', rest', split', rfl⟩ := place
  rw [offset] at lt
  rw [split, ahead] at split'
  rw [Input.offset_pass, offset]
  rcases List.append_eq_append_iff.mp split' with ⟨piece, rfl, behind⟩ | ⟨piece, rfl, -⟩
  · rw [Utf8.widths_append] at lt ⊢
    cases piece with
    | nil => simp at lt
    | cons d piece =>
      obtain ⟨rfl, -⟩ := List.cons.inj behind
      rw [Utf8.widths_cons]
      omega
  · rw [Utf8.widths_append] at lt
    omega

theorem Input.offset_upTo {text : List Char} {s : Input} {b : Nat} (hs : s.At text)
    {cs : List Char} (ahead : s.rest = cs) (place : Place text b) (le : s.offset ≤ b) :
    (s.upTo b cs).offset = b := by
  induction cs generalizing s with
  | nil =>
    obtain ⟨front, rest, split, rfl⟩ := place
    have finished := hs.offset_of_rest_nil ahead
    rw [split, Utf8.widths_append] at finished
    rw [Input.upTo]
    omega
  | cons c cs ih =>
    rw [Input.upTo]
    split
    · omega
    · exact ih (hs.pass ahead) rfl (hs.pass_le ahead place (by omega))

theorem bounds_weave (s : Input) (n : Node) : (weave s n).1.start = n.start ∧
    (weave s n).1.stop = n.stop ∧ (weave s n).1.isComment = n.isComment := by
  cases n
  exact ⟨rfl, rfl, rfl⟩

section

variable {text : List Char}

mutual

/-- Weaving comments into a node spreads its parts. -/
theorem spread_weave : (s : Input) → (n : Node) → s.At text → s.offset = n.start →
    n.Nested (gaps text) → (weave s n).2.At text ∧ (weave s n).2.offset = n.stop ∧
      ∃ c, Spread text n.start c (weave s n).1.children
  | s, .mk kind role start stop line children, hs, begins, h => by
    obtain ⟨⟨covers, place⟩, inside, proper⟩ := Node.nested_iff.mp h
    have reach {t : Input} (ht : t.At text) (le : t.offset ≤ stop) :
        (t.upTo stop t.rest).At text ∧ (t.upTo stop t.rest).offset = stop :=
      ⟨ht.upTo rfl, Input.offset_upTo ht rfl place le⟩
    rcases inside with none | inside
    · have none' : children = [] := none
      subst none'
      obtain ⟨here, reaches⟩ := reach hs (begins.trans_le covers.le)
      exact ⟨here, reaches, start, .nil ((blanks text).refl _)⟩
    · obtain ⟨ht, spread, free⟩ := spread_weaveParts s start stop children hs begins inside
      obtain ⟨here, reaches⟩ := reach ht ((gaps text).le free)
      exact ⟨here, reaches, _, spread⟩

theorem spread_weaveParts : (s : Input) → (a b : Nat) → (ns : List Node) → s.At text →
    s.offset = a → Node.Between (gaps text) a b ns → (weaveParts s ns).2.At text ∧
      Spread text a (weaveParts s ns).2.offset (weaveParts s ns).1 ∧
      (gaps text).Free (weaveParts s ns).2.offset b
  | s, a, b, [], hs, begins, h => by
    subst begins
    exact ⟨hs, .nil ((blanks text).refl _), Node.between_nil.mp h⟩
  | s, a, b, n :: ns, hs, begins, h => by
    subst begins
    obtain ⟨before, nested, behind⟩ := Node.between_cons.mp h
    obtain ⟨ht, reaches, comments⟩ := spread_commentsUpTo n.start hs before (.inl rfl) le_rfl
    obtain ⟨hu, reaches', c, parts⟩ :=
      spread_weave (commentsUpTo n.start .blank s s.rest).2 n ht reaches nested
    obtain ⟨hv, others, free⟩ := spread_weaveParts
      (weave (commentsUpTo n.start .blank s s.rest).2 n).2 n.stop b ns hu reaches' behind
    obtain ⟨same, same', proper⟩ :=
      bounds_weave (commentsUpTo n.start .blank s s.rest).2 n
    have plain := (Node.nested_iff.mp nested).2.2.1
    refine ⟨hv, comments.append (.cons (c := c) ?_ (fun comment => ?_) ?_ ?_), free⟩
    · rw [same]
      exact (blanks text).refl _
    · rw [proper, plain] at comment
      cases comment
    · rw [same]
      exact parts
    · rw [same']
      exact others

end

end

theorem spread_weaveFile {text : List Char} {s : Input} {ns : List Node} (hs : s.At text)
    (h : Node.Between (gaps text) s.offset (widths text) ns) :
    Spread text s.offset (widths text) (weaveFile s ns) := by
  obtain ⟨ht, parts, free⟩ := spread_weaveParts s _ _ ns hs rfl h
  have wide := Utf8.widths_le text
  have bound := ht.2
  obtain ⟨-, -, comments⟩ := spread_commentsUpTo
    ((weaveParts s ns).2.offset + 4 * (weaveParts s ns).2.bound) ht free (.inr rfl) (by omega)
  exact parts.append comments

/-! ### Files -/

namespace Reader

theorem exists_orElse_pure {α : Type} (p : Reader α) (x : α) (s : Input) :
    ∃ y s', (p <|> pure x) s = (some y, s') := by
  change ∃ y s', Reader.orElse p (fun _ => pure x) s = (some y, s')
  rw [Reader.orElse]
  rcases p s with ⟨_ | y, s'⟩
  · exact ⟨x, _, rfl⟩
  · exact ⟨y, s', rfl⟩

theorem exists_many {α : Type} (p : Reader α) (s : Input) : ∃ xs s', many p s = (some xs, s') := by
  rw [many]
  cases s.bound with
  | zero => exact ⟨[], s, rfl⟩
  | succ n => exact exists_orElse_pure _ [] s

/-- Every file is read into parts. -/
theorem exists_fileParts (r : Rules) (line : Nat) (s : Input) :
    ∃ ns s', fileParts r line s = (some ns, s') := by
  obtain ⟨first, t, readFirst⟩ := exists_orElse_pure (do return some (← hashBang)) none s
  obtain ⟨statements, t', readRest⟩ := exists_many (r .statement) t
  exact ⟨_, _, bind_eq_some.mpr ⟨first, t, readFirst, bind_eq_some.mpr
    ⟨statements, t', readRest, rfl⟩⟩⟩

end Reader

/-- In the tree of a text nothing but white space lies between the parts of the nodes. -/
theorem spread_file (dialect : Dialect) (chars : List Char) :
    (blanks chars).Free 0 (file dialect chars).start ∧
      Spread chars (file dialect chars).start (widths chars) (file dialect chars).children := by
  obtain ⟨ns, s', read⟩ := Reader.exists_fileParts (rules (depthFor chars.length))
    (lastLine chars) (Input.ofChars dialect chars)
  have here := Input.at_ofChars dialect chars
  have spread := spread_weaveFile here (Reader.between_fileParts (Reader.lays_rules _) here read)
  have parts : (file dialect chars).children = weaveFile (Input.ofChars dialect chars) ns := by
    rw [file, read]
    rfl
  have start : (file dialect chars).start =
      ((weaveFile (Input.ofChars dialect chars) ns).head?.map Node.start).getD 0 := by
    rw [file, read]
    rfl
  have zero : (Input.ofChars dialect chars).offset = 0 := rfl
  rw [parts, start]
  rw [zero] at spread
  cases all : weaveFile (Input.ofChars dialect chars) ns with
  | nil =>
    rw [all] at spread
    exact ⟨(blanks chars).refl 0, spread⟩
  | cons n ms =>
    rw [all] at spread
    cases spread with
    | cons free comment inside behind =>
      exact ⟨free, .cons ((blanks chars).refl _) comment inside behind⟩

end Parse

/-- What holds between the parts of the root of a tree holds between the parts of all its nodes. -/
theorem Place.spread {text : List Char} {root p : Place} (h : Within root p)
    (parts : ∃ b, Parse.Spread text root.node.start b root.node.children) :
    ∃ b, Parse.Spread text p.node.start b p.node.children := by
  induction h with
  | root => exact parts
  | part _ children ih =>
    obtain ⟨b, spread⟩ := ih
    rw [children] at spread
    cases spread.rest with
    | cons _ _ inside _ => exact ⟨_, inside⟩

end ParamSchema
