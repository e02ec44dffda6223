import ParamSchema.Proofs.Documentation.Leads

/-!
Finding documentation. It is looked for in the last comment before a declaration (`Lead.attached`)
and, where that says nothing, between the last mark `/**` before the declaration and the next `*/`
(`Lead.marked`). On a documentation comment the two agree (`Lead.attached_agrees_with_marked`). The
second way does not know where comments begin, so of other comments it takes a mark inside of one
for documentation (`DocComment.plain_comments_are_ignored_unless_marked`).
-/

namespace ParamSchema

namespace Lead

/-! ### The last comment -/

theorem withoutClosing_append (t : Text) : withoutClosing (t ++ txt "*/") = Text.trimEnd t := by
  have closed : Text.startsWith (t ++ txt "*/").reverse (txt "/*") = true := by
    rw [Text.startsWith, List.isPrefixOf_iff_prefix, List.reverse_append]
    exact List.prefix_append _ _
  have cut : (t ++ txt "*/").take ((t ++ txt "*/").length - 2) = t := by
    rw [List.length_append]
    exact List.take_left
  rw [withoutClosing, if_pos closed, cut]

variable {s : Site} {c : Node} {body : Text}

theorem attached_of_documentation (last : s.comments.getLast? = some c)
    (form : s.file.textOf c = txt "/**" ++ body ++ txt "*/")
    (blank : (ofSite s).isBlankBetween c.stop s.node.start = true) :
    (ofSite s).attached = undecorated (Text.trim body) := by
  have trimmed : Text.trim (s.file.textOf c) = txt "/**" ++ (body ++ txt "*/") := by
    have ends : ∀ d ∈ (s.file.textOf c).getLast?, d.isBlank = false := by
      rw [form, List.getLast?_append_of_ne_nil _ (by decide)]
      decide
    have starts : ∀ d ∈ (s.file.textOf c).head?, d.isBlank = false := by
      rw [form, List.append_assoc, List.head?_append_of_ne_nil _ (by decide)]
      decide
    have alone := Text.trim_blanks (a := []) (b := []) (by simp) (by simp) starts ends
    rw [List.nil_append, List.append_nil] at alone
    rw [alone, form, List.append_assoc]
  rw [attached_eq, last, Option.elim_some, if_pos blank, trimmed, Text.after?_eq_some.mpr rfl,
    Option.elim_some, Text.trimStart_append body (by decide), withoutClosing_append]
  rfl

/-! ### The text between marks -/

theorem cutFirst?_closing {behind : Text} (unclosed : ¬ txt "*/" <:+: body) :
    Text.cutFirst? (txt "*/") (body ++ (txt "*/" ++ behind)) = some (body, behind) := by
  refine (Text.cutFirst?_eq_some (by decide)).mpr ⟨rfl, fun x y split filled early => ?_⟩
  have closing : txt "*/" = [chr '*', chr '/'] := rfl
  rw [closing] at unclosed early
  -- The mark would end in the body, or its slash would be the star of the end.
  rcases y with _ | ⟨d, _ | ⟨e, y⟩⟩
  · exact filled rfl
  · obtain ⟨-, slash⟩ := List.cons_prefix_cons.mp early
    obtain ⟨slash, -⟩ := List.cons_prefix_cons.mp slash
    exact absurd slash (by decide)
  · obtain ⟨star, slash⟩ := List.cons_prefix_cons.mp early
    obtain ⟨slash, -⟩ := List.cons_prefix_cons.mp slash
    exact unclosed ⟨x, y, by rw [split, ← star, ← slash]; simp⟩

/-- On a documentation comment both ways to find documentation give its text, whatever comments
stand before it. -/
theorem attached_agrees_with_marked (parsed : s.Of SourceFile.IsParsed)
    (last : s.comments.getLast? = some c)
    (form : s.file.textOf c = txt "/**" ++ body ++ txt "*/") (unclosed : ¬ txt "*/" <:+: body)
    (once : ¬ txt "/**" <:+: (s.file.textOf c).tail)
    (blank : (ofSite s).isBlankBetween c.stop s.node.start = true) :
    (ofSite s).attached = (ofSite s).marked ∧
      (ofSite s).marked = undecorated (Text.trim body) := by
  obtain ⟨pre, split⟩ := List.getLast?_eq_some_iff.mp last
  have form' : s.file.textOf c = [] ++ (txt "/**" ++ (body ++ txt "*/")) := by
    rw [form, List.nil_append, List.append_assoc]
  have tail : (s.file.textOf c).tail = txt "**" ++ (body ++ txt "*/") := by
    rw [form', List.nil_append]
    rfl
  rw [tail] at once
  have marked := marked_of_last parsed split form' once (by simp)
  rw [List.append_assoc, cutFirst?_closing unclosed, Option.elim_some] at marked
  exact ⟨(attached_of_documentation last form blank).trans marked.symm, marked⟩

theorem attached_agrees_with_marked_decorated :
    let file := SourceFile.ofChars ⟨false, [txt "a.ts"]⟩
      "type A=\x7b/* /** @old */ /***\u3000a\n * b**/\t\na:0\x7d".toList
    ∃ s : Site, s.file = file ∧ s.node.kind = .propertySignature ∧
      (ofSite s).attached = txt "a\nb*" ∧ (ofSite s).marked = txt "a\nb*" := by
  intro file
  have run : (file.sites fun s => s.node.kind == .propertySignature &&
      s.comments.getLast?.any fun c => s.file.textOf c == txt "/***\u3000a\n * b**/" &&
        (ofSite s).isBlankBetween c.stop s.node.start).head?.isSome = true := by
    decide +kernel
  obtain ⟨s, found⟩ := Option.isSome_iff_exists.mp run
  obtain ⟨mem, known⟩ := List.mem_filter.mp (List.mem_of_head? found)
  obtain ⟨place, walked, rfl⟩ := List.mem_map.mp mem
  simp only [Bool.and_eq_true, Option.any_eq_true, beq_iff_eq] at known
  obtain ⟨kind, c, last, form, blank⟩ := known
  have parsed : Site.Of SourceFile.IsParsed ⟨file, place⟩ :=
    ⟨⟨_, rfl⟩, Place.mem_walk_iff.mp walked⟩
  have form' : file.textOf c = txt "/**" ++ txt "*\u3000a\n * b*" ++ txt "*/" := form
  have agrees := attached_agrees_with_marked parsed last form' (by decide)
    (by rw [form']; decide) blank
  have text : undecorated (Text.trim (txt "*\u3000a\n * b*")) = txt "a\nb*" := by decide
  exact ⟨_, rfl, kind, agrees.1.trans (agrees.2.trans text), agrees.2.trans text⟩

/-! ### Other comments -/

/-- A documentation comment. -/
def IsDocumentation (t : Text) : Prop := ∃ body, t = txt "/**" ++ body ++ txt "*/"

instance (t : Text) : Decidable (IsDocumentation t) :=
  decidable_of_iff (txt "/**" <+: t ∧ txt "*/" <:+ t.drop 3) <| by
    constructor
    · rintro ⟨⟨rest, rfl⟩, body, split⟩
      have behind : rest = body ++ txt "*/" := split.symm
      exact ⟨body, by rw [behind, List.append_assoc]⟩
    · rintro ⟨body, rfl⟩
      exact ⟨⟨body ++ txt "*/", by rw [List.append_assoc]⟩, body, by rw [List.append_assoc]; rfl⟩

/-- A comment that is no documentation begins as one only when it is the empty block. -/
theorem eq_of_opened {piece rest : List Char} (comment : Parse.IsComment piece rest)
    (plain : ¬ IsDocumentation (Text.ofChars piece)) {behind : Text}
    (opened : Text.ofChars piece = txt "/**" ++ behind) : Text.ofChars piece = txt "/**/" := by
  cases comment with
  | line =>
    have second : chr '/' = chr '*' := (List.cons.inj (List.cons.inj opened).2).1
    exact absurd second (by decide)
  | @block inside _ _ =>
    cases inside with
    | nil => rfl
    | cons d inside =>
      have third : chr d = chr '*' := (List.cons.inj (List.cons.inj (List.cons.inj opened).2).2).1
      have star : d = '*' := CodePoint.eq_of_ofChar third
      refine absurd ⟨Text.ofChars inside, ?_⟩ plain
      rw [star, Text.ofChars, List.map_cons, List.map_cons, List.cons_append, List.map_cons,
        List.map_append]
      rfl

theorem opened_of_trim {piece rest : List Char} (comment : Parse.IsComment piece rest)
    {behind : Text} (opened : Text.trim (Text.ofChars piece) = txt "/**" ++ behind) :
    ∃ more, Text.ofChars piece = txt "/**" ++ more := by
  obtain ⟨a, b, split, blank, -⟩ := Text.exists_blanks (Text.ofChars piece)
  have slash : (Text.ofChars piece).head? = some (chr '/') := by cases comment <;> rfl
  cases a with
  | nil => exact ⟨behind ++ b, by rw [split, opened, List.nil_append, List.append_assoc]⟩
  | cons d a =>
    rw [split, List.cons_append, List.head?_cons, Option.some.injEq] at slash
    have white := blank d List.mem_cons_self
    rw [slash] at white
    exact absurd white (by decide)

/-- Of comments that are no documentation, only the empty block says something by itself. -/
theorem attached_of_plain (parsed : s.Of SourceFile.IsParsed) (last : s.comments.getLast? = some c)
    (plain : ¬ IsDocumentation (s.file.textOf c)) :
    (ofSite s).attached = if s.file.textOf c = txt "/**/" ∧
      (ofSite s).isBlankBetween c.stop s.node.start = true then txt "/" else [] := by
  obtain ⟨piece, rest, text, comment⟩ := s.exists_piece parsed (List.mem_of_getLast? last)
  rw [attached_eq, last, Option.elim_some]
  by_cases blank : (ofSite s).isBlankBetween c.stop s.node.start = true
  · rw [if_pos blank]
    by_cases empty : s.file.textOf c = txt "/**/"
    · rw [if_pos ⟨empty, blank⟩, empty]
      decide
    · rw [if_neg fun h => empty h.1]
      cases found : Text.after? (txt "/**") (Text.trim (s.file.textOf c)) with
      | none => rfl
      | some behind =>
        rw [text] at plain empty found
        obtain ⟨more, opened⟩ := opened_of_trim comment (Text.after?_eq_some.mp found)
        exact absurd (eq_of_opened comment plain opened) empty
  · rw [if_neg blank, if_neg fun h => blank h.2]

end Lead

namespace DocComment

open Lead (IsDocumentation)

variable {s : Site}

theorem ofSite_eq (s : Site) : ofSite s = ofText (Lead.ofSite s).documentation := by
  rw [ofSite]
  cases (Lead.ofSite s).documentation <;> rfl

theorem ofSite_of_unattached (none : (Lead.ofSite s).attached = []) :
    ofSite s = ofText (Lead.ofSite s).marked := by
  rw [ofSite_eq, Lead.documentation, none]
  rfl

theorem ofSite_of_block (block : (Lead.ofSite s).attached = txt "/") :
    ofSite s = ⟨txt "/", [], false⟩ := by
  rw [ofSite_eq, Lead.documentation, block]
  rfl

/-- Comments that are no documentation are ignored when none of them has the mark `/**`. Else the
last such mark counts: the text from there to the next `*/`, be it in a comment behind, is read as
documentation. Only an empty block right before the declaration says that its text is a slash. -/
theorem plain_comments_are_ignored_unless_marked (parsed : s.Of SourceFile.IsParsed)
    (plain : ∀ c ∈ s.comments, ¬ IsDocumentation (s.file.textOf c)) :
    ((∀ c ∈ s.comments, ¬ txt "/**" <:+: s.file.textOf c) → ofSite s = empty) ∧
    ∀ pre c post x y, s.comments = pre ++ c :: post → s.file.textOf c = x ++ (txt "/**" ++ y) →
      ¬ txt "/**" <:+: txt "**" ++ y → (∀ d ∈ post, ¬ txt "/**" <:+: s.file.textOf d) →
      ofSite s =
        if post.isEmpty = true ∧ s.file.textOf c = txt "/**/" ∧
            (Lead.ofSite s).isBlankBetween c.stop s.node.start = true then ⟨txt "/", [], false⟩
        else (Text.cutFirst? (txt "*/")
          (y ++ SourceFile.sliceOf s.file.bytes c.stop s.node.start)).elim empty fun cut =>
            ofText (Lead.undecorated (Text.trim cut.1)) := by
  have unattached {c : Node} (last : s.comments.getLast? = some c)
      (unmarked : ¬ txt "/**" <:+: s.file.textOf c) : (Lead.ofSite s).attached = [] := by
    rw [Lead.attached_of_plain parsed last (plain c (List.mem_of_getLast? last)), if_neg]
    rintro ⟨empty, -⟩
    rw [empty] at unmarked
    exact absurd unmarked (by decide)
  constructor
  · intro unmarked
    have attached : (Lead.ofSite s).attached = [] := by
      cases last : s.comments.getLast? with
      | none => rw [Lead.attached_eq, last, Option.elim_none]
      | some c => exact unattached last (unmarked c (List.mem_of_getLast? last))
    rw [ofSite_of_unattached attached, Lead.marked_of_unmarked parsed unmarked]
    rfl
  · intro pre c post x y split form last unmarked
    have scanned (none : (Lead.ofSite s).attached = []) :
        ofSite s = (Text.cutFirst? (txt "*/")
          (y ++ SourceFile.sliceOf s.file.bytes c.stop s.node.start)).elim empty fun cut =>
            ofText (Lead.undecorated (Text.trim cut.1)) := by
      rw [ofSite_of_unattached none, Lead.marked_of_last parsed split form last unmarked]
      cases Text.cutFirst? (txt "*/") _ <;> rfl
    rcases post with _ | ⟨d, post⟩
    · have nearest : s.comments.getLast? = some c := by rw [split, List.getLast?_concat]
      have attached := Lead.attached_of_plain parsed nearest
        (plain c (List.mem_of_getLast? nearest))
      split_ifs with block
      · rw [if_pos block.2] at attached
        exact ofSite_of_block attached
      · rw [if_neg fun h => block ⟨rfl, h⟩] at attached
        exact scanned attached
    · have nearest := List.getLast?_eq_some_getLast (List.cons_ne_nil d post)
      have whole := nearest
      rw [← List.getLast?_cons_cons (a := c), ← List.getLast?_append_cons pre, ← split] at whole
      rw [if_neg (by simp)]
      exact scanned (unattached whole (unmarked _ (List.mem_of_getLast? nearest)))

theorem plain_comments_are_ignored_unless_marked_twice :
    let file := SourceFile.ofChars ⟨false, [txt "a.ts"]⟩
      "type A=\x7b/* x */// y\na:0;// /** @password */\nb:0\x7d".toList
    ∃ s s' : Site, s.file = file ∧ s.comments.map file.textOf = [txt "/* x */", txt "// y"] ∧
      ofSite s = empty ∧ s'.file = file ∧
      s'.comments.map file.textOf = [txt "// /** @password */"] ∧ ofSite s' = ⟨[], [], true⟩ := by
  intro file
  have run : ((file.sites fun s =>
        s.comments.map file.textOf == [txt "/* x */", txt "// y"]).head?.isSome &&
      (file.sites fun s => s.comments.map (fun c => (file.textOf c,
        SourceFile.sliceOf s.file.bytes c.stop s.node.start)) ==
          [(txt "// /** @password */", txt "\n")]).head?.isSome) = true := by
    decide +kernel
  rw [Bool.and_eq_true] at run
  obtain ⟨s, found⟩ := Option.isSome_iff_exists.mp run.1
  obtain ⟨s', found'⟩ := Option.isSome_iff_exists.mp run.2
  obtain ⟨mem, known⟩ := List.mem_filter.mp (List.mem_of_head? found)
  obtain ⟨mem', known'⟩ := List.mem_filter.mp (List.mem_of_head? found')
  obtain ⟨place, walked, rfl⟩ := List.mem_map.mp mem
  obtain ⟨place', walked', rfl⟩ := List.mem_map.mp mem'
  have texts := eq_of_beq known
  obtain ⟨c, comments, texts'⟩ := List.map_eq_singleton_iff.mp (eq_of_beq known')
  obtain ⟨text, behind⟩ := Prod.mk.inj texts'
  have parsed : Site.Of SourceFile.IsParsed ⟨file, place⟩ :=
    ⟨⟨_, rfl⟩, Place.mem_walk_iff.mp walked⟩
  have parsed' : Site.Of SourceFile.IsParsed ⟨file, place'⟩ :=
    ⟨⟨_, rfl⟩, Place.mem_walk_iff.mp walked'⟩
  have each {P : Text → Prop} (h : ∀ t ∈ [txt "/* x */", txt "// y"], P t) :
      ∀ c ∈ (Site.mk file place).comments, P (file.textOf c) :=
    fun c mem => h _ (texts ▸ List.mem_map_of_mem mem)
  have ignored := (plain_comments_are_ignored_unless_marked parsed
    (each (P := fun t => ¬ IsDocumentation t) (by decide))).1
    (each (P := fun t => ¬ txt "/**" <:+: t) (by decide))
  have plain : ∀ d ∈ (Site.mk file place').comments, ¬ IsDocumentation (file.textOf d) := by
    rw [comments, List.forall_mem_singleton, text]
    decide
  have taken := (plain_comments_are_ignored_unless_marked parsed' plain).2
    [] c [] (txt "// ") (txt " @password */") comments text (by decide) (by simp)
  have other : txt "// /** @password */" ≠ txt "/**/" := by decide
  have value : (Text.cutFirst? (txt "*/") (txt " @password */" ++ txt "\n")).elim empty
      (fun cut => ofText (Lead.undecorated (Text.trim cut.1))) = ⟨[], [], true⟩ := by decide
  rw [if_neg fun h => other (text.symm.trans h.2.1), behind, value] at taken
  exact ⟨_, _, rfl, texts, ignored, rfl, by rw [comments, List.map_singleton, text], taken⟩

/-- A line comment is taken for documentation. -/
theorem line_comment_is_taken_for_documentation :
    let file := SourceFile.ofChars ⟨false, [txt "a.ts"]⟩
      "type A=\x7b// /** @password */\na:0\x7d".toList
    ∃ s : Site, s.Of SourceFile.IsParsed ∧ s.file = file ∧ s.node.kind = .propertySignature ∧
      (∀ c ∈ s.comments, ¬ IsDocumentation (s.file.textOf c)) ∧ ofSite s = ⟨[], [], true⟩ := by
  intro file
  have run : (file.sites fun s => s.node.kind == .propertySignature &&
      decide (∀ c ∈ s.comments, ¬ IsDocumentation (s.file.textOf c)) &&
        decide (ofSite s = ⟨[], [], true⟩)).head?.isSome = true := by
    decide +kernel
  obtain ⟨s, found⟩ := Option.isSome_iff_exists.mp run
  obtain ⟨mem, known⟩ := List.mem_filter.mp (List.mem_of_head? found)
  obtain ⟨place, walked, rfl⟩ := List.mem_map.mp mem
  simp only [Bool.and_eq_true, beq_iff_eq, decide_eq_true_eq] at known
  obtain ⟨⟨kind, plain⟩, taken⟩ := known
  exact ⟨_, ⟨⟨_, rfl⟩, Place.mem_walk_iff.mp walked⟩, rfl, kind, plain, taken⟩

end DocComment

end ParamSchema
