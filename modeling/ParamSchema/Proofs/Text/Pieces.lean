import Mathlib.Data.List.Basic
import Mathlib.Data.List.TakeWhile
import ParamSchema.Text.Search

/-!
Pieces of texts. Trimming takes white space from both ends and stops at what is none
(`Text.exists_blanks`, `Text.trim_blanks`), and a text is split at every separator
(`Text.splitOn_append`).
-/

namespace ParamSchema

theorem CodePoint.eq_of_ofChar {c d : Char} (h : chr c = chr d) : c = d :=
  Char.toNat_inj.mp (congrArg CodePoint.val h)

namespace Text

theorem mem_ofChars {c : Char} {x : List Char} : chr c ∈ ofChars x ↔ c ∈ x := by
  rw [ofChars, List.mem_map]
  constructor
  · rintro ⟨d, mem, eq⟩
    exact CodePoint.eq_of_ofChar eq ▸ mem
  · exact fun mem => ⟨c, mem, rfl⟩

/-! ### Trimming -/

theorem mem_takeWhile_blank {t : Text} : ∀ c ∈ t.takeWhile CodePoint.isBlank, c.isBlank = true :=
  fun _ mem => List.mem_takeWhile_imp mem

/-- A text is what is left when it is trimmed, with white space around it. -/
theorem exists_blanks (t : Text) : ∃ a b, t = a ++ (trim t ++ b) ∧
    (∀ c ∈ a, c.isBlank = true) ∧ ∀ c ∈ b, c.isBlank = true := by
  refine ⟨t.takeWhile CodePoint.isBlank,
    ((trimStart t).reverse.takeWhile CodePoint.isBlank).reverse, ?_, mem_takeWhile_blank, ?_⟩
  · rw [trim, trimEnd, dropEndWhile, ← List.reverse_append, List.takeWhile_append_dropWhile,
      List.reverse_reverse, trimStart, List.takeWhile_append_dropWhile]
  · intro c mem
    exact mem_takeWhile_blank c (List.mem_reverse.mp mem)

theorem trimStart_blanks {a t : Text} (blank : ∀ c ∈ a, c.isBlank = true)
    (first : ∀ c ∈ t.head?, c.isBlank = false) : trimStart (a ++ t) = t := by
  rw [trimStart, List.dropWhile_append_of_pos blank]
  cases t with
  | nil => rfl
  | cons c t => exact List.dropWhile_cons_of_neg (by rw [first c rfl]; decide)

theorem trimEnd_blanks {t b : Text} (blank : ∀ c ∈ b, c.isBlank = true)
    (last : ∀ c ∈ t.getLast?, c.isBlank = false) : trimEnd (t ++ b) = t := by
  have start := trimStart_blanks (a := b.reverse) (t := t.reverse)
    (fun c mem => blank c (List.mem_reverse.mp mem)) (by rwa [List.head?_reverse])
  rw [trimEnd, dropEndWhile, List.reverse_append]
  rw [trimStart] at start
  rw [start, List.reverse_reverse]

/-- White space around a text that neither begins nor ends with it is trimmed. -/
theorem trim_blanks {a t b : Text} (before : ∀ c ∈ a, c.isBlank = true)
    (behind : ∀ c ∈ b, c.isBlank = true) (first : ∀ c ∈ t.head?, c.isBlank = false)
    (last : ∀ c ∈ t.getLast?, c.isBlank = false) : trim (a ++ (t ++ b)) = t := by
  cases t with
  | nil =>
    have all : ∀ c ∈ a ++ ([] ++ b), c.isBlank = true := by
      intro c mem
      rcases List.mem_append.mp mem with mem | mem
      · exact before c mem
      · exact behind c mem
    rw [trim, trimStart, List.dropWhile_eq_nil_iff.mpr all]
    rfl
  | cons c t =>
    rw [trim, trimStart_blanks before (t := c :: t ++ b) first, trimEnd_blanks behind last]

theorem isBlank_head_trimStart {t : Text} : ∀ c ∈ (trimStart t).head?, c.isBlank = false := by
  intro c head
  rw [trimStart, ← List.find?_not_eq_head?_dropWhile] at head
  simpa using List.find?_some head

theorem trimStart_append (t : Text) {u : Text} (first : ∀ c ∈ u.head?, c.isBlank = false) :
    trimStart (t ++ u) = trimStart t ++ u := by
  have split : t ++ u = t.takeWhile CodePoint.isBlank ++ (trimStart t ++ u) := by
    rw [← List.append_assoc, trimStart, List.takeWhile_append_dropWhile]
  rw [split, trimStart_blanks mem_takeWhile_blank]
  intro c head
  cases left : trimStart t with
  | nil =>
    rw [left] at head
    exact first c head
  | cons d rest =>
    rw [left] at head
    exact isBlank_head_trimStart (t := t) c (by rw [left]; exact head)

/-- What is left of a trimmed text neither begins nor ends with white space. -/
theorem isBlank_ends_trim (t : Text) : (∀ c ∈ (trim t).head?, c.isBlank = false) ∧
    ∀ c ∈ (trim t).getLast?, c.isBlank = false := by
  constructor
  · intro c head
    obtain ⟨b, split⟩ : trim t <+: trimStart t := by
      rw [← List.reverse_suffix, trim, trimEnd, dropEndWhile, List.reverse_reverse]
      exact List.dropWhile_suffix _
    refine isBlank_head_trimStart (t := t) c ?_
    rw [← split, List.head?_append_of_ne_nil _ (List.ne_nil_of_mem (List.mem_of_head? head))]
    exact head
  · intro c last
    rw [trim, trimEnd, dropEndWhile, List.getLast?_reverse] at last
    exact isBlank_head_trimStart c last

/-! ### Splitting -/

theorem splitOn_of_not_mem {c : CodePoint} {t : Text} (h : c ∉ t) : splitOn c t = [t] := by
  induction t with
  | nil => rfl
  | cons d t ih =>
    rw [List.mem_cons, not_or] at h
    rw [splitOn, ih h.2]
    simp [Ne.symm h.1]

theorem splitOn_ne_nil (c : CodePoint) (t : Text) : splitOn c t ≠ [] := by
  cases t with
  | nil => exact List.cons_ne_nil _ _
  | cons d t =>
    rw [splitOn]
    split
    · exact List.cons_ne_nil _ _
    · split <;> exact List.cons_ne_nil _ _

/-- A separator ends the last part of what stands before it. -/
theorem splitOn_append (c : CodePoint) (s t : Text) :
    splitOn c (s ++ c :: t) = splitOn c s ++ splitOn c t := by
  induction s with
  | nil =>
    obtain ⟨part, parts, eq⟩ := List.exists_cons_of_ne_nil (splitOn_ne_nil c t)
    simp [splitOn, eq]
  | cons d s ih =>
    obtain ⟨part, parts, eq⟩ := List.exists_cons_of_ne_nil (splitOn_ne_nil c s)
    rw [List.cons_append, splitOn, ih, splitOn, eq]
    simp only [List.cons_append]
    split <;> rfl

/-- Lines without a separator are split as they were joined. -/
theorem splitOn_joinWith {c : CodePoint} {parts : List Text} (filled : parts ≠ [])
    (h : ∀ part ∈ parts, c ∉ part) : splitOn c (joinWith [c] parts) = parts := by
  induction parts with
  | nil => exact absurd rfl filled
  | cons part parts ih =>
    have first := splitOn_of_not_mem (h part List.mem_cons_self)
    cases parts with
    | nil => exact first
    | cons next parts =>
      have rest := ih (List.cons_ne_nil _ _) fun p mem => h p (List.mem_cons_of_mem _ mem)
      rw [joinWith, List.append_assoc, List.singleton_append, splitOn_append, first, rest]
      rfl
      exact List.cons_ne_nil _ _

end Text

end ParamSchema
