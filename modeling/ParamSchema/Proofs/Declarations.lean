import Mathlib.Data.List.Lex
import ParamSchema.Proofs.Extraction.Calls
import ParamSchema.Proofs.Layout.Order
import ParamSchema.Proofs.Textual

/-!
Declarations are well formed, whichever way they were found: by a program, by the members of a
written type, or by a type tag. A declaration has rows or a type text, not both; every row has one
of a few types and lists its values in order (`Row.WellFormed`); and no name has two default values
(`Declaration.WellFormed`). The declarations of a file follow its calls, so that their lines do not
decrease where the tree is in source order (`Declaration.scan_is_well_formed`).
-/

namespace ParamSchema

/-! ### Texts in order -/

namespace Text

/-- The order by code points, a text before its continuations. -/
def Before (s t : Text) : Prop := s.map CodePoint.val < t.map CodePoint.val

theorem map_val_injective : Function.Injective (List.map CodePoint.val) := by
  apply List.map_injective_iff.mpr
  rintro ⟨a, _⟩ ⟨b, _⟩ rfl
  rfl

theorem less_iff {s t : Text} : less s t = true ↔ s.Before t := by
  induction s generalizing t with
  | nil => cases t <;> simp [less, Before]
  | cons a s ih =>
    cases t with
    | nil => simp [less, Before]
    | cons b t =>
      have same : a = b ↔ a.val = b.val := by
        cases a; cases b; simp
      simp [less, Before, List.cons_lt_cons_iff, same, ih]

/-- A text stays in order with those of a list. -/
theorem pairwise_insertSorted {w : Text} {ts : List Text} (h : ts.Pairwise Before) :
    (insertSorted w ts).Pairwise Before := by
  induction ts with
  | nil => simp [insertSorted]
  | cons t ts ih =>
    obtain ⟨first, rest⟩ := List.pairwise_cons.mp h
    rw [insertSorted]
    split
    · exact h
    · next apart =>
      split
      · next before =>
        refine List.pairwise_cons.mpr ⟨?_, h⟩
        intro u hu
        rcases List.mem_cons.mp hu with rfl | hu
        · exact less_iff.mp before
        · exact lt_trans (less_iff.mp before) (first u hu)
      · next behind =>
        refine List.pairwise_cons.mpr ⟨?_, ih rest⟩
        intro u hu
        rcases mem_insertSorted.mp hu with rfl | hu
        · have different : u.map CodePoint.val ≠ t.map CodePoint.val := by
            intro same
            exact apart (beq_iff_eq.mpr (map_val_injective same))
          exact (lt_or_gt_of_ne different).resolve_left fun before => behind (less_iff.mpr before)
        · exact first u hu

theorem pairwise_sortedDistinct (ts : List Text) : (sortedDistinct ts).Pairwise Before := by
  induction ts with
  | nil => exact .nil
  | cons t ts ih => exact pairwise_insertSorted ih

end Text

/-! ### Rows -/

/-- The text of a type tells nothing, or joins some of the primitive kinds in their order. -/
def IsTypeText (t : Text) : Prop :=
  t = txt "unknown" ∨ ∃ kinds : List Text, kinds ≠ [] ∧
    (∀ kind ∈ kinds, kind ∈ [txt "boolean", txt "number", txt "string"]) ∧
    kinds.Pairwise Text.Before ∧ t = Text.joinWith (txt " | ") kinds

/-- What holds of every row: its type is a text for kinds or that of passwords, the values that it
lists are some and in strictly increasing order, and an example says something. -/
structure Row.WellFormed (row : Row) : Prop where
  type : IsTypeText row.type ∨ row.type = txt "password"
  values : ∀ values, row.values = some values → values ≠ [] ∧ values.Pairwise Text.Before
  example_ : ∀ text, row.example_ = some text → text ≠ []

theorem isTypeText_kindsText (kinds : List PrimitiveKind) :
    IsTypeText (Resolver.kindsText kinds) := by
  obtain ⟨names, ordered, mem, text⟩ := Resolver.kindsText_eq kinds
  rw [text]
  split
  · exact .inl rfl
  · next some =>
    refine .inr ⟨names, some, ?_, ordered.imp Text.less_iff.mp, rfl⟩
    intro name hname
    obtain ⟨kind, _, rfl⟩ := (mem name).mp hname
    cases kind <;> simp [PrimitiveKind.text]

theorem isTypeText_typeText {r : Resolver} {s : Shape} {t : Text} (h : r.typeText s = .ok t) :
    IsTypeText t := by
  obtain ⟨kinds?, _, h⟩ := Outcome.bind_eq_ok.mp h
  cases h
  exact isTypeText_kindsText _

namespace Row

variable {r : Resolver} {s : Shape}

theorem classify_cases (r : Resolver) (s : Shape) :
    IsTypeText (classify r s).1 ∧ (classify r s).2.Pairwise Text.Before := by
  rw [classify]
  split
  · next type values ht hv =>
    obtain ⟨leaves, _, hv⟩ := Outcome.bind_eq_ok.mp hv
    cases hv
    exact ⟨isTypeText_typeText ht, Text.pairwise_sortedDistinct _⟩
  · exact ⟨.inl rfl, .nil⟩

theorem ne_nil_of_nonempty {α : Type} {l l' : List α} (h : nonempty l = some l') : l' ≠ [] := by
  rw [nonempty] at h
  split at h
  · cases h
  · next some =>
    cases h
    simpa using some

theorem wellFormed_ofProperty (r : Resolver) (p : Property) : (ofProperty r p).WellFormed := by
  obtain ⟨type, values⟩ := classify_cases r p.shape
  rw [ofProperty]
  refine ⟨?_, ?_, ?_⟩
  · dsimp only
    split
    · exact .inr rfl
    · exact .inl type
  · intro vs hvs
    exact ⟨ne_nil_of_nonempty hvs, eq_of_nonempty hvs ▸ values⟩
  · intro text htext
    exact ne_nil_of_nonempty htext

theorem wellFormed_ofIndex? {key : IndexKey} {row : Row} (h : ofIndex? r s key = .ok (some row)) :
    row.WellFormed := by
  obtain ⟨value?, _, h⟩ := Outcome.bind_eq_ok.mp h
  cases value? with
  | none => cases h
  | some value =>
    obtain ⟨text, ht, h⟩ := Outcome.bind_eq_ok.mp h
    cases h
    refine ⟨.inl (isTypeText_typeText ht), ?_, ?_⟩
    · rintro _ ⟨⟩
    · rintro _ ⟨⟩

theorem wellFormed_ofProperties (r : Resolver) (ps : List Property) :
    ∀ row ∈ ofProperties r ps, row.WellFormed := by
  intro row hrow
  obtain ⟨p, _, rfl⟩ := List.mem_map.mp hrow
  exact wellFormed_ofProperty r p

theorem wellFormed_ofShape {rows : List Row} (h : ofShape r s = .ok rows) :
    ∀ row ∈ rows, row.WellFormed := by
  obtain ⟨ps, _, h⟩ := Outcome.bind_eq_ok.mp h
  obtain ⟨index, hindex, h⟩ := Outcome.bind_eq_ok.mp h
  cases h
  intro row hrow
  rcases List.mem_append.mp hrow with hrow | hrow
  · exact wellFormed_ofProperties r ps row hrow
  · obtain ⟨row?, mem, hrow⟩ := List.mem_filterMap.mp hrow
    obtain ⟨key, _, given⟩ := (Outcome.mem_of_mapM_eq_ok hindex row?).mp mem
    rw [show row? = some row from hrow] at given
    exact wellFormed_ofIndex? given

end Row

/-! ### Declarations -/

namespace Declaration

/-- What holds of every declaration: it has some rows and then no text of a type, or it has no rows;
the rows are well formed; and each name has one default value. -/
structure WellFormed (d : Declaration) : Prop where
  rows : ∀ rows, d.rows = some rows →
    rows ≠ [] ∧ d.typeText = [] ∧ ∀ row ∈ rows, row.WellFormed
  defaults : d.defaults.keys.Nodup

variable {r : Resolver}

theorem rowsOf_eq_some {type : Site} {rows : List Row} (h : rowsOf r type = .ok (some rows)) :
    rows ≠ [] ∧ ∀ row ∈ rows, row.WellFormed := by
  rw [rowsOf] at h
  split at h
  · have expanded : Row.expanded? r type = some rows := Outcome.pure_eq_ok.mp h
    rcases Row.expanded?_cases r type with
      ⟨_, _, none⟩ | ⟨_, _, _, _, none⟩ | ⟨s, all, _, found, some⟩
    · rw [none] at expanded
      cases expanded
    · rw [none] at expanded
      cases expanded
    · rw [some] at expanded
      exact ⟨Row.ne_nil_of_nonempty expanded,
        Row.eq_of_nonempty expanded ▸ Row.wellFormed_ofShape found⟩
  · split at h
    · obtain ⟨all, found, h⟩ := Outcome.bind_eq_ok.mp h
      have given : Row.nonempty all = some rows := Outcome.pure_eq_ok.mp h
      obtain ⟨ps, _, found⟩ := Outcome.bind_eq_ok.mp found
      cases found
      exact ⟨Row.ne_nil_of_nonempty given,
        Row.eq_of_nonempty given ▸ Row.wellFormed_ofProperties r ps⟩
    · cases h

theorem nodup_keys_defaultsOf {call : Site} {defaults : Table Text Text}
    (h : defaultsOf r call = .ok defaults) : defaults.keys.Nodup := by
  rw [defaultsOf] at h
  split at h
  · split at h
    · obtain ⟨entries, _, h⟩ := Outcome.bind_eq_ok.mp h
      cases h
      exact Table.nodup_keys_ofList _
    · cases h
      exact List.nodup_nil
  · cases h
    exact List.nodup_nil

theorem wellFormed_ofCall {tags : List TypeTag} {reach : Int} {call : Site} {d : Declaration}
    (h : ofCall r tags reach call = .ok d) : d.WellFormed := by
  unfold ofCall at h
  dsimp only at h
  split at h
  · obtain ⟨rows?, found, h⟩ := Outcome.bind_eq_ok.mp h
    obtain ⟨_, typed, h⟩ := Outcome.bind_eq_ok.mp h
    obtain ⟨defaults, given, h⟩ := Outcome.bind_eq_ok.mp h
    cases typed
    cases h
    refine ⟨?_, nodup_keys_defaultsOf given⟩
    rintro rows ⟨⟩
    obtain ⟨some, formed⟩ := rowsOf_eq_some found
    exact ⟨some, rfl, formed⟩
  · obtain ⟨_, typed, h⟩ := Outcome.bind_eq_ok.mp h
    obtain ⟨defaults, given, h⟩ := Outcome.bind_eq_ok.mp h
    cases typed
    cases h
    refine ⟨?_, nodup_keys_defaultsOf given⟩
    rintro rows ⟨⟩

/-- Whatever a file has declared is well formed, whichever function declares and however far its
tags reach. The declarations stand to the calls of the function in pre-order, one to one, and where
the tree of the file is in source order their lines do not decrease. -/
theorem scan_is_well_formed {function : Text} {reach : Int} {file : SourceFile}
    {ds : List Declaration} (h : scan r function reach file = .ok ds) :
    (∀ d ∈ ds, d.WellFormed) ∧
    List.Forall₂ (fun d n => d.path = file.path ∧ d.line = n.line) ds
      (file.tree.preorder.filter (isCallOf function file)) ∧
    (file.inSourceOrder = true → ds.Pairwise fun d d' => d.line ≤ d'.line) := by
  obtain ⟨_, told⟩ := scan_eq_ok_iff.mp h
  have placed : List.Forall₂ (fun d n => d.path = file.path ∧ d.line = n.line) ds
      (file.tree.preorder.filter (isCallOf function file)) := by
    rw [← map_node_callSites]
    have files : ∀ s ∈ callSites function file, s.file = file :=
      fun _ hs => (file_of_mem_callSites hs).1
    refine List.forall₂_map_right_iff.mpr (List.Forall₂.flip ?_)
    refine List.Forall₂.imp ?_ ((List.forall₂_and_left _ _).mpr ⟨files, told⟩)
    rintro s d ⟨rfl, hd⟩
    exact of_ofCall hd
  refine ⟨?_, placed, ?_⟩
  · intro d hd
    obtain ⟨s, _, hs⟩ := (Outcome.mem_of_mapM_eq_ok (Outcome.mapM_eq_ok.mpr told) d).mp hd
    exact wellFormed_ofCall hs
  · intro ordered
    have lines : ds.map line = (file.tree.preorder.filter (isCallOf function file)).map
        fun n => (n.line : Int) := by
      rw [← List.forall₂_eq_eq_eq, List.forall₂_map_left_iff, List.forall₂_map_right_iff]
      exact placed.imp fun _ _ same => same.2
    rw [← List.pairwise_map (f := line) (R := (· ≤ ·)), lines, List.pairwise_map]
    refine ((SourceFile.pairwise_line_preorder ordered).sublist List.filter_sublist).imp ?_
    intro m m' le
    exact Int.ofNat_le.mpr le

/-- A written type with a password, a call inside the default values of another, a name with two
values, and a tag. -/
theorem scan_is_well_formed_nested :
    let file := SourceFile.ofChars ⟨false, [txt "a.ts"]⟩
      ("parseParams<\x7b /** @password */ a: string;
  b: 'y' | 'x' | null; c: T \x7d>(\x7b b: parseParams(), b: 2 \x7d)
/** @type \x7bT\x7d */
parseParams()").toList
    ∃ ds, scan .textual (txt "parseParams") 5 file = .ok ds ∧ file.inSourceOrder = true ∧
      ds.map line = [1, 2, 4] ∧ (∀ d ∈ ds, d.WellFormed) ∧
      ds.Pairwise fun d d' => d.line ≤ d'.line := by
  intro file
  have run : (scan .textual (txt "parseParams") 5 file).map (List.map line) = .ok [1, 2, 4] := by
    decide +kernel
  have ordered : file.inSourceOrder = true := by decide +kernel
  obtain ⟨ds, scanned, lines⟩ := Outcome.map_eq_ok.mp run
  obtain ⟨formed, _, sorted⟩ := scan_is_well_formed scanned
  exact ⟨ds, scanned, ordered, lines, formed, sorted ordered⟩

end Declaration

end ParamSchema
