import Mathlib.Data.List.Infix
import ParamSchema.Text.Search

/-!
First and last places of words. Cutting a text at the first place of a word (`Text.cutFirst?`) is
determined by the text up to the end of that place, so it does not depend on what follows, and it
gives the same place when it begins later in front of it. What stands behind the last place
(`Text.afterLast?`) does not depend on what stands before it.
-/

namespace ParamSchema.Text

variable {α : Type} [BEq α] [LawfulBEq α] {w t a b z : List α}

theorem cutFirst?_cons_of_starts {c : α} (h : w <+: c :: t) :
    cutFirst? w (c :: t) = some ([], (c :: t).drop w.length) := by
  rw [cutFirst?, if_pos (List.isPrefixOf_iff_prefix.mpr h)]

theorem cutFirst?_cons_of_not_starts {c : α} (h : ¬ w <+: c :: t) :
    cutFirst? w (c :: t) = (cutFirst? w t).map fun cut => (c :: cut.1, cut.2) := by
  rw [cutFirst?, if_neg (mt List.isPrefixOf_iff_prefix.mp h)]

/-- A cut is at a place of the word, and the word does not begin before it. -/
theorem cutFirst?_eq_some (filled : w ≠ []) : cutFirst? w t = some (a, b) ↔
    t = a ++ (w ++ b) ∧ ∀ x y, a = x ++ y → y ≠ [] → ¬ w <+: y ++ (w ++ b) := by
  induction t generalizing a with
  | nil =>
    rw [cutFirst?, if_neg (by simpa using filled)]
    simp [filled]
  | cons c t ih =>
    by_cases here : w <+: c :: t
    · rw [cutFirst?_cons_of_starts here]
      obtain ⟨rest, form⟩ := here
      rw [← form, List.drop_left]
      constructor
      · rintro ⟨⟩
        refine ⟨rfl, fun x y split nonempty => ?_⟩
        simp at split
        exact absurd split.2 nonempty
      · rintro ⟨eq, first⟩
        cases a with
        | nil => simpa using eq
        | cons d a =>
          refine absurd ?_ (first [] (d :: a) rfl (List.cons_ne_nil d a))
          rw [← eq]
          exact List.prefix_append w rest
    · rw [cutFirst?_cons_of_not_starts here, Option.map_eq_some_iff]
      constructor
      · rintro ⟨⟨a, b⟩, cut, ⟨⟩⟩
        obtain ⟨rfl, first⟩ := ih.mp cut
        refine ⟨rfl, fun x y split nonempty => ?_⟩
        cases x with
        | nil =>
          rw [List.nil_append] at split
          rw [← split]
          exact here
        | cons d x => exact first x y (List.cons.inj split).2 nonempty
      · rintro ⟨eq, first⟩
        cases a with
        | nil =>
          rw [eq] at here
          exact absurd (List.prefix_append w b) here
        | cons d a =>
          obtain ⟨rfl, rfl⟩ := List.cons.inj eq
          refine ⟨(a, b), ih.mpr ⟨rfl, fun x y split nonempty => ?_⟩, rfl⟩
          exact first (c :: x) y (congrArg (c :: ·) split) nonempty

theorem cutFirst?_eq_none (filled : w ≠ []) : cutFirst? w t = none ↔ ¬ w <:+: t := by
  induction t with
  | nil =>
    rw [cutFirst?, if_neg (by simpa using filled)]
    simp [filled]
  | cons c t ih =>
    rw [List.infix_cons_iff, not_or]
    by_cases here : w <+: c :: t
    · rw [cutFirst?_cons_of_starts here]
      simp [here]
    · rw [cutFirst?_cons_of_not_starts here, Option.map_eq_none_iff, ih]
      simp [here]

theorem infix_of_cutFirst? (filled : w ≠ []) (h : cutFirst? w t = some (a, b)) : w <:+: t := by
  rw [((cutFirst?_eq_some filled).mp h).1]
  exact ⟨a, b, by simp⟩

/-- A cut does not depend on what follows. -/
theorem cutFirst?_append (filled : w ≠ []) (h : cutFirst? w t = some (a, b)) (z : List α) :
    cutFirst? w (t ++ z) = some (a, b ++ z) := by
  obtain ⟨rfl, first⟩ := (cutFirst?_eq_some filled).mp h
  refine (cutFirst?_eq_some filled).mpr ⟨by simp, fun x y split nonempty early => ?_⟩
  -- an earlier place ends before the found one
  refine first x y split nonempty ?_
  have whole : y ++ (w ++ (b ++ z)) = (y ++ (w ++ b)) ++ z := by simp
  rw [whole] at early
  exact List.prefix_of_prefix_length_le early (List.prefix_append _ z) (by simp; omega)

/-- A cut stays the first one for what begins before it. -/
theorem cutFirst?_behind (filled : w ≠ []) {x y : List α}
    (h : cutFirst? w (x ++ (y ++ (w ++ b))) = some (x ++ y, b)) :
    cutFirst? w (y ++ (w ++ b)) = some (y, b) := by
  obtain ⟨-, first⟩ := (cutFirst?_eq_some filled).mp h
  refine (cutFirst?_eq_some filled).mpr ⟨rfl, fun x' y' split nonempty => ?_⟩
  exact first (x ++ x') y' (by rw [split, List.append_assoc]) nonempty

theorem afterLast?_eq_none (filled : w ≠ []) : afterLast? w t = none ↔ ¬ w <:+: t := by
  induction t with
  | nil =>
    rw [afterLast?, if_neg (by simpa using filled)]
    simp [filled]
  | cons c t ih =>
    rw [List.infix_cons_iff, not_or, ← ih, afterLast?, ← List.isPrefixOf_iff_prefix]
    cases afterLast? w t with
    | none => simp
    | some rest => simp

/-- A place of a word is the last one when the word does not begin behind its beginning. -/
theorem afterLast?_append (filled : w ≠ []) (last : ¬ w <:+: (w ++ b).tail) :
    afterLast? w (a ++ (w ++ b)) = some b := by
  induction a with
  | nil =>
    obtain ⟨c, w', rfl⟩ := List.exists_cons_of_ne_nil filled
    have here : (c :: w').isPrefixOf (c :: (w' ++ b)) = true :=
      List.isPrefixOf_iff_prefix.mpr (List.prefix_append (c :: w') b)
    have none : afterLast? (c :: w') (w' ++ b) = none := (afterLast?_eq_none filled).mpr last
    rw [List.nil_append, List.cons_append, afterLast?, none]
    simp only [here, if_true, List.length_cons, List.drop_succ_cons, List.drop_left]
  | cons c a ih => rw [List.cons_append, afterLast?, ih]

theorem after?_eq_some : after? w t = some b ↔ t = w ++ b := by
  rw [after?]
  by_cases here : w <+: t
  · rw [if_pos (List.isPrefixOf_iff_prefix.mpr here)]
    obtain ⟨rest, rfl⟩ := here
    simp [eq_comm]
  · rw [if_neg (mt List.isPrefixOf_iff_prefix.mp here)]
    constructor
    · nofun
    · rintro rfl
      exact absurd (List.prefix_append w b) here

/-- Whether a text begins with a word does not depend on what follows an element that the word does
not have. -/
theorem after?_append {c : α} (mem : c ∈ t) (other : c ∉ w) (z : List α) :
    after? w (t ++ z) = (after? w t).map (· ++ z) := by
  cases h : after? w t with
  | some rest =>
    rw [after?_eq_some.mp h, List.append_assoc]
    exact after?_eq_some.mpr rfl
  | none =>
    rw [Option.map_none, Option.eq_none_iff_forall_ne_some]
    intro rest found
    have form := after?_eq_some.mp found
    rcases List.append_eq_append_iff.mp form with ⟨more, long, -⟩ | ⟨more, short, -⟩
    · exact other (long ▸ List.mem_append_left _ mem)
    · rw [after?_eq_some.mpr short] at h
      cases h

end ParamSchema.Text
