import ParamSchema.Documentation.Comment
import ParamSchema.Proofs.Documentation.Cutting
import ParamSchema.Proofs.Layout.Segments
import ParamSchema.Proofs.Layout.Weaving
import ParamSchema.Proofs.Text.Pieces

/-!
What precedes a declaration. In a parsed file these are comments with white space between them
(`Site.spread_comments`). A comment begins with a slash and white space has neither slashes nor
stars, so the mark `/**` is found in the whole only where one of the comments has it
(`Parse.Spread.segment`). Hence what the scan for marks finds is known from the last comment with a
mark (`Lead.marked_of_last`).
-/

namespace ParamSchema

open Parse (Spread Segment IsComment isSpace)

/-- The comments directly before a site, in source order. -/
def Site.comments (s : Site) : List Node := (s.place.before.takeWhile Node.isComment).reverse

theorem Site.isComment_of_mem_comments {s : Site} {n : Node} (h : n ∈ s.comments) :
    n.isComment = true :=
  List.mem_takeWhile_imp (List.mem_reverse.mp h)

/-! ### The text before a declaration -/

/-- In a parsed file, only white space lies between the comments before a site, before the first of
them and behind the last. -/
theorem Site.spread_comments {s : Site} (h : s.Of SourceFile.IsParsed) :
    ∃ text, s.file.bytes = (String.ofList text).toUTF8 ∧
      Spread text (Lead.ofSite s).fullStart s.node.start s.comments := by
  obtain ⟨⟨chars, parsed⟩, within⟩ := h
  have bytes : s.file.bytes = (String.ofList chars).toUTF8 := by
    rw [parsed]
    rfl
  have tree : s.file.tree = Parse.file (SourceFile.dialectOf s.file.path) chars := by
    rw [parsed]
    rfl
  obtain ⟨free, all⟩ := Parse.spread_file (SourceFile.dialectOf s.file.path) chars
  rw [← tree] at free all
  refine ⟨chars, bytes, ?_⟩
  obtain ⟨file, place⟩ := s
  change file.root.Within place at within
  cases within with
  | root => exact .nil free
  | @part parent before n rest above children =>
    obtain ⟨b, parts⟩ := Place.spread above ⟨_, all⟩
    have split : before.reverse = (before.dropWhile Node.isComment).reverse ++
        (before.takeWhile Node.isComment).reverse := by
      rw [← List.reverse_append, List.takeWhile_append_dropWhile]
    rw [children, split] at parts
    show Spread chars _ n.start (before.takeWhile Node.isComment).reverse
    rw [Lead.ofSite]
    dsimp only [Place.before, Place.parent?]
    cases others : before.dropWhile Node.isComment with
    | nil =>
      rw [others] at parts
      exact parts.before
    | cons m more =>
      rw [others, List.reverse_cons, List.append_assoc, List.append_assoc] at parts
      cases parts.rest with
      | cons _ _ _ behind => exact behind.before

/-! ### Marks that open documentation -/

/-- The mark that opens documentation is found in a text of two parts only inside of one of them,
when the second does not begin with a star. -/
theorem not_opening_append {u v : Text} (hu : ¬ txt "/**" <:+: u) (hv : ¬ txt "/**" <:+: v)
    (head : v.head? ≠ some (chr '*')) : ¬ txt "/**" <:+: u ++ v := by
  have mark : txt "/**" = [chr '/', chr '*', chr '*'] := rfl
  rw [mark] at hu hv ⊢
  induction u with
  | nil => exact hv
  | cons c u ih =>
    rw [List.infix_cons_iff, not_or] at hu
    rw [List.cons_append, List.infix_cons_iff, not_or]
    refine ⟨fun starts => ?_, ih hu.2⟩
    obtain ⟨slash, stars⟩ := List.cons_prefix_cons.mp starts
    rcases u with _ | ⟨d, _ | ⟨e, u⟩⟩
    · obtain ⟨rest, rfl⟩ := stars
      exact head rfl
    · obtain ⟨-, rest, rfl⟩ := List.cons_prefix_cons.mp stars
      exact head rfl
    · obtain ⟨star, star'⟩ := List.cons_prefix_cons.mp stars
      obtain ⟨star', -⟩ := List.cons_prefix_cons.mp star'
      exact hu.1 (by rw [← slash, ← star, ← star']; exact ⟨u, rfl⟩)

theorem not_mem_of_spaces {c : Char} {x : List Char} (spaces : ∀ d ∈ x, isSpace d = true)
    (other : isSpace c = false) : chr c ∉ Text.ofChars x := by
  intro mem
  rw [spaces c (Text.mem_ofChars.mp mem)] at other
  cases other

/-- Comments with white space between them do not begin with a star, and they have the mark that
opens documentation only when one of them has it. -/
theorem Parse.Spread.segment {text : List Char} {a b : Nat} {ns : List Node}
    (h : Spread text a b ns) (comments : ∀ n ∈ ns, n.isComment = true) :
    ∃ x, Segment text a b x ∧ (Text.ofChars x).head? ≠ some (chr '*') ∧
      ((∀ n ∈ ns, ¬ txt "/**" <:+:
        SourceFile.sliceOf (String.ofList text).toUTF8 n.start n.stop) →
          ¬ txt "/**" <:+: Text.ofChars x) := by
  have gap {a b : Nat} (free : (Parse.blanks text).Free a b) :
      ∃ x, Segment text a b x ∧ (Text.ofChars x).head? ≠ some (chr '*') ∧
        ¬ txt "/**" <:+: Text.ofChars x := by
    obtain ⟨x, segment, spaces⟩ := Parse.exists_segment_of_blanks free
    refine ⟨x, segment, fun star => ?_, fun mark => ?_⟩
    · exact not_mem_of_spaces spaces rfl (List.mem_of_head? star)
    · have slash : chr '/' ∈ txt "/**" := List.mem_cons_self
      exact not_mem_of_spaces spaces rfl (mark.subset slash)
  induction ns generalizing a with
  | nil =>
    cases h with
    | nil free =>
      obtain ⟨x, segment, head, unmarked⟩ := gap free
      exact ⟨x, segment, head, fun _ => unmarked⟩
  | cons n ns ih =>
    cases h with
    | cons free comment _ behind =>
      obtain ⟨first, others⟩ := List.forall_mem_cons.mp comments
      obtain ⟨x, segment, head, unmarked⟩ := gap free
      obtain ⟨piece, rest, covered, form⟩ := (comment first).segment
      obtain ⟨y, segment', head', unmarked'⟩ := ih behind others
      have slash : (Text.ofChars (piece ++ y)).head? = some (chr '/') := by cases form <;> rfl
      refine ⟨x ++ (piece ++ y), segment.append (covered.append segment'), ?_, fun none => ?_⟩
      · cases x with
        | nil =>
          rw [List.nil_append, slash]
          decide
        | cons c x => exact head
      · obtain ⟨none, none'⟩ := List.forall_mem_cons.mp none
        rw [covered.slice] at none
        have inner : ¬ txt "/**" <:+: Text.ofChars (piece ++ y) := by
          rw [Text.ofChars, List.map_append]
          exact not_opening_append none (unmarked' none') head'
        have whole := not_opening_append unmarked inner (by rw [slash]; decide)
        rwa [Text.ofChars, Text.ofChars, ← List.map_append] at whole

namespace Site

variable {s : Site}

theorem exists_piece (parsed : s.Of SourceFile.IsParsed) {c : Node} (mem : c ∈ s.comments) :
    ∃ piece rest, s.file.textOf c = Text.ofChars piece ∧ IsComment piece rest := by
  obtain ⟨text, bytes, spread⟩ := spread_comments parsed
  obtain ⟨pre, post, split⟩ := List.append_of_mem mem
  rw [split] at spread
  cases spread.rest with
  | cons _ comment _ _ =>
    obtain ⟨piece, rest, covered, form⟩ := (comment (isComment_of_mem_comments mem)).segment
    exact ⟨piece, rest, by rw [SourceFile.textOf, bytes, covered.slice], form⟩

/-- What precedes a site, around one of the comments before it. -/
theorem leading_eq (parsed : s.Of SourceFile.IsParsed) {pre post : List Node} {c : Node}
    (split : s.comments = pre ++ c :: post)
    (unmarked : ∀ d ∈ post, ¬ txt "/**" <:+: s.file.textOf d) :
    ∃ front behind, SourceFile.sliceOf s.file.bytes c.stop s.node.start = behind ∧
      SourceFile.sliceOf s.file.bytes (Lead.ofSite s).fullStart s.node.start =
        front ++ (s.file.textOf c ++ behind) ∧
      behind.head? ≠ some (chr '*') ∧ ¬ txt "/**" <:+: behind := by
  obtain ⟨text, bytes, spread⟩ := spread_comments parsed
  have comments : ∀ n ∈ pre ++ c :: post, n.isComment = true :=
    fun n mem => isComment_of_mem_comments (split ▸ mem)
  rw [split] at spread
  obtain ⟨x, before, -⟩ := spread.before.segment fun n mem =>
    comments n (List.mem_append_left _ mem)
  cases spread.rest with
  | cons _ comment _ rest =>
    obtain ⟨piece, _, covered, -⟩ := (comment (comments c (by simp))).segment
    obtain ⟨y, behind, head, none⟩ := rest.segment fun n mem => comments n (by simp [mem])
    refine ⟨Text.ofChars x, Text.ofChars y, bytes ▸ behind.slice, ?_, head, none ?_⟩
    · rw [SourceFile.textOf, bytes, (before.append (covered.append behind)).slice, covered.slice,
        Text.ofChars, List.map_append, List.map_append]
      rfl
    · rw [← bytes]
      exact unmarked

end Site

/-! ### The two ways to find documentation -/

namespace Lead

variable {s : Site}

/-- The scan for marks finds what stands between the last opening mark and the next end. -/
theorem marked_of_last (parsed : s.Of SourceFile.IsParsed) {pre post : List Node} {c : Node}
    {x y : Text} (split : s.comments = pre ++ c :: post)
    (form : s.file.textOf c = x ++ (txt "/**" ++ y)) (last : ¬ txt "/**" <:+: txt "**" ++ y)
    (unmarked : ∀ d ∈ post, ¬ txt "/**" <:+: s.file.textOf d) :
    (ofSite s).marked =
      (Text.cutFirst? (txt "*/") (y ++ SourceFile.sliceOf s.file.bytes c.stop s.node.start)).elim []
        fun cut => undecorated (Text.trim cut.1) := by
  obtain ⟨front, behind, slice, leading, head, none⟩ := s.leading_eq parsed split unmarked
  have last' : ¬ txt "/**" <:+: (txt "/**" ++ (y ++ behind)).tail := by
    have tail : (txt "/**" ++ (y ++ behind)).tail = (txt "**" ++ y) ++ behind := by simp; rfl
    rw [tail]
    exact not_opening_append last none head
  have found := Text.afterLast?_append (a := front ++ x) (by decide : txt "/**" ≠ []) last'
  have whole : SourceFile.sliceOf (ofSite s).bytes (ofSite s).fullStart (ofSite s).start =
      (front ++ x) ++ (txt "/**" ++ (y ++ behind)) := by
    show SourceFile.sliceOf s.file.bytes (ofSite s).fullStart s.node.start = _
    rw [leading, form]
    simp only [List.append_assoc]
  rw [marked]
  simp only [whole, found, Option.bind_some, slice]
  cases Text.cutFirst? (txt "*/") (y ++ behind) <;> rfl

theorem marked_of_unmarked (parsed : s.Of SourceFile.IsParsed)
    (unmarked : ∀ c ∈ s.comments, ¬ txt "/**" <:+: s.file.textOf c) : (ofSite s).marked = [] := by
  obtain ⟨text, bytes, spread⟩ := Site.spread_comments parsed
  obtain ⟨x, all, -, none⟩ := spread.segment fun n mem => Site.isComment_of_mem_comments mem
  have none' : ¬ txt "/**" <:+: Text.ofChars x := none (by rw [← bytes]; exact unmarked)
  have whole : SourceFile.sliceOf (ofSite s).bytes (ofSite s).fullStart (ofSite s).start =
      Text.ofChars x := by
    show SourceFile.sliceOf s.file.bytes (ofSite s).fullStart s.node.start = _
    rw [bytes, all.slice]
  rw [marked]
  simp only [whole, (Text.afterLast?_eq_none (by decide : txt "/**" ≠ [])).mpr none']
  rfl

theorem attached_eq (s : Site) : (ofSite s).attached = s.comments.getLast?.elim [] fun c =>
    if (ofSite s).isBlankBetween c.stop s.node.start then
      (Text.after? (txt "/**") (Text.trim (s.file.textOf c))).elim [] fun body =>
        undecorated (withoutClosing (Text.trimStart body))
    else [] := by
  have comments : (ofSite s).comments = s.comments.map fun n => (n.start, n.stop) := by
    rw [ofSite, Site.comments, List.map_reverse]
  rw [attached, comments, List.getLast?_map]
  cases s.comments.getLast? with
  | none => rfl
  | some c =>
    have covered : SourceFile.sliceOf (ofSite s).bytes c.start c.stop = s.file.textOf c := rfl
    have start : (ofSite s).start = s.node.start := rfl
    simp only [Option.map_some, Option.elim_some, covered, start]
    cases (ofSite s).isBlankBetween c.stop s.node.start with
    | false => rfl
    | true => cases Text.after? (txt "/**") (Text.trim (s.file.textOf c)) <;> rfl

end Lead

end ParamSchema
