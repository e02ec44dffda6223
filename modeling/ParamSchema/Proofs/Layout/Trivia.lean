import Mathlib.Data.List.Infix
import Mathlib.Logic.Relation
import Mathlib.Tactic.SplitIfs
import ParamSchema.Parse.Reader
import ParamSchema.Proofs.Layout.Basic

/-!
What lies between tokens. An input stands at a place of its text (`Input.At`), and going to the next
token passes nothing but white space and comments (`Input.free_toToken`): line comments up to the
end of their line, and block comments up to the first mark that closes one (`Parse.IsComment`).
-/

namespace ParamSchema

/-- The number of bytes of characters. -/
def Utf8.widths : List Char → Nat
  | [] => 0
  | c :: cs => width c + widths cs

namespace Utf8

@[simp] theorem widths_nil : widths [] = 0 := rfl

@[simp] theorem widths_cons (c : Char) (cs : List Char) :
    widths (c :: cs) = width c + widths cs := rfl

@[simp] theorem widths_append (cs ds : List Char) : widths (cs ++ ds) = widths cs + widths ds := by
  induction cs with
  | nil => exact (Nat.zero_add _).symm
  | cons c cs ih => rw [List.cons_append, widths_cons, widths_cons, ih, Nat.add_assoc]

theorem width_pos (c : Char) : 0 < width c := by
  simp only [width]
  split_ifs <;> decide

theorem widths_le (cs : List Char) : widths cs ≤ 4 * cs.length := by
  induction cs with
  | nil => exact Nat.le_refl 0
  | cons c cs ih =>
    have narrow : width c ≤ 4 := by
      simp only [width]
      split_ifs <;> decide
    rw [widths_cons, List.length_cons]
    omega

/-- A place of a text is known by the number of bytes before it. -/
theorem eq_of_widths {front front' rest rest' : List Char}
    (same : front ++ rest = front' ++ rest') (h : widths front = widths front') :
    front = front' ∧ rest = rest' := by
  induction front generalizing front' with
  | nil =>
    cases front' with
    | nil => exact ⟨rfl, same⟩
    | cons c front' =>
      rw [widths_nil, widths_cons] at h
      have := width_pos c
      omega
  | cons c front ih =>
    cases front' with
    | nil =>
      rw [widths_nil, widths_cons] at h
      have := width_pos c
      omega
    | cons d front' =>
      obtain ⟨rfl, behind⟩ := List.cons.inj same
      rw [widths_cons, widths_cons, Nat.add_left_cancel_iff] at h
      obtain ⟨rfl, rest⟩ := ih behind h
      exact ⟨rfl, rest⟩

end Utf8

namespace Parse

open Utf8 (widths)

/-! ### Places of a text -/

/-- An offset in front of a character of a text, or behind the last one. -/
def Place (text : List Char) (a : Nat) : Prop :=
  ∃ front rest, text = front ++ rest ∧ a = widths front

/-- An input that stands at a place of a text, with a bound for lists of parts that suits it. -/
def Input.At (text : List Char) (s : Input) : Prop :=
  (∃ front, text = front ++ s.rest ∧ s.offset = widths front) ∧ s.bound = text.length + 1

namespace Input

variable {text : List Char} {s : Input}

theorem at_ofChars (dialect : Dialect) (text : List Char) : (ofChars dialect text).At text :=
  ⟨⟨[], rfl, rfl⟩, rfl⟩

theorem At.place (h : s.At text) : Place text s.offset := by
  obtain ⟨⟨front, split, offset⟩, -⟩ := h
  exact ⟨front, s.rest, split, offset⟩

theorem At.pass (h : s.At text) {c : Char} {rest : List Char} (ahead : s.rest = c :: rest) :
    (s.pass c rest).At text := by
  obtain ⟨⟨front, split, offset⟩, bound⟩ := h
  refine ⟨⟨front ++ [c], by rw [split, ahead]; simp [Input.pass], ?_⟩, bound⟩
  simp [Input.pass, offset]

theorem At.advance (h : s.At text) (n : Nat) : (s.advance n).At text := by
  induction n generalizing s with
  | zero => exact h
  | succ n ih =>
    cases ahead : s.rest with
    | nil =>
      rw [Input.advance, ahead]
      exact h
    | cons c rest =>
      rw [Input.advance, ahead]
      exact ih (h.pass ahead)

/-- What stands behind an offset of a text does not depend on how one came there. -/
theorem At.rest_eq (h : s.At text) {front rest : List Char} (split : text = front ++ rest)
    (offset : s.offset = widths front) : s.rest = rest := by
  obtain ⟨⟨front', split', offset'⟩, -⟩ := h
  exact (Utf8.eq_of_widths (split'.symm.trans split) (offset'.symm.trans offset)).2

end Input

/-! ### Comments and white space -/

/-- A comment in front of the rest of a text. A line comment goes up to the end of its line, a block
comment up to the first mark that closes it. -/
inductive IsComment : List Char → List Char → Prop where
  | line {body rest : List Char} : (∀ c ∈ body, isLineEnd c = false) →
      (∀ c ∈ rest.head?, isLineEnd c = true) → IsComment ('/' :: '/' :: body) rest
  | block {body rest : List Char} : ¬ ['*', '/'] <:+: body →
      IsComment ('/' :: '*' :: (body ++ ['*', '/'])) rest

/-- One character of white space of a text. -/
inductive Blank (text : List Char) : Nat → Nat → Prop where
  | mk {front rest : List Char} {c : Char} : text = front ++ c :: rest → isSpace c = true →
      Blank text (widths front) (widths front + Utf8.width c)

/-- One comment of a text. -/
inductive Comment (text : List Char) : Nat → Nat → Prop where
  | mk {front piece rest : List Char} : text = front ++ (piece ++ rest) → IsComment piece rest →
      Comment text (widths front) (widths front + widths piece)

theorem Blank.le {text : List Char} {a b : Nat} (h : Blank text a b) : a ≤ b := by
  cases h
  omega

theorem Comment.le {text : List Char} {a b : Nat} (h : Comment text a b) : a ≤ b := by
  cases h
  omega

theorem le_of_reflTransGen {r : Nat → Nat → Prop} (step : ∀ a b, r a b → a ≤ b) {a b : Nat}
    (h : Relation.ReflTransGen r a b) : a ≤ b := by
  induction h with
  | refl => exact Nat.le_refl a
  | tail _ last ih => exact Nat.le_trans ih (step _ _ last)

/-- Gaps of white space. -/
def blanks (text : List Char) : Gaps where
  Place := Place text
  Free := Relation.ReflTransGen (Blank text)
  refl _ := .refl
  trans := .trans
  le := le_of_reflTransGen fun _ _ => Blank.le

/-- Gaps of white space and comments. -/
def gaps (text : List Char) : Gaps where
  Place := Place text
  Free := Relation.ReflTransGen fun a b => Blank text a b ∨ Comment text a b
  refl _ := .refl
  trans := .trans
  le := le_of_reflTransGen fun _ _ step => step.elim Blank.le Comment.le

/-! ### Going to the next token -/

/-- What is known at a place of a gap that began at the offset `a`: there is a gap up to here, or up
to a comment that has been begun. -/
def Gap.Ahead (text : List Char) (a : Nat) (s : Input) : Gap → Prop
  | .blank => (gaps text).Free a s.offset
  | .slash start =>
    (gaps text).Free a start.offset ∧ start.At text ∧ start.rest = '/' :: s.rest
  | .lineComment => ∃ start : Input, ∃ body, (gaps text).Free a start.offset ∧ start.At text ∧
      start.rest = '/' :: '/' :: (body ++ s.rest) ∧ ∀ c ∈ body, isLineEnd c = false
  | .blockComment start => ∃ body, (gaps text).Free a start.offset ∧ start.At text ∧
      start.rest = '/' :: '*' :: (body ++ s.rest) ∧ ¬ ['*', '/'] <:+: body ∧
      body.getLast? ≠ some '*'
  | .star start => ∃ body, (gaps text).Free a start.offset ∧ start.At text ∧
      start.rest = '/' :: '*' :: (body ++ '*' :: s.rest) ∧ ¬ ['*', '/'] <:+: body

theorem not_closed_concat {body : List Char} {c : Char} (h : ¬ ['*', '/'] <:+: body)
    (last : c = '/' → body.getLast? ≠ some '*') : ¬ ['*', '/'] <:+: body ++ [c] := by
  rintro ⟨x, y, eq⟩
  rcases List.eq_nil_or_concat y with rfl | ⟨y, d, rfl⟩
  · have split : (x ++ ['*']) ++ ['/'] = body ++ [c] := by simpa using eq
    obtain ⟨rfl, slash⟩ := List.append_inj' split rfl
    exact last (List.cons.inj slash).1.symm (by simp)
  · have split : (x ++ ['*', '/'] ++ y) ++ [d] = body ++ [c] := by simpa using eq
    exact h ⟨x, y, (List.append_inj' split rfl).1⟩

theorem isSpace_of_isLineEnd {c : Char} (h : isLineEnd c = true) : isSpace c = true := by
  simp only [isLineEnd, Bool.or_eq_true, beq_iff_eq] at h
  rcases h with ((rfl | rfl) | code) | code
  · decide
  · decide
  · simp [isSpace, code]
  · simp [isSpace, code]

section

variable {text : List Char} {a : Nat} {s start : Input}

theorem free_blank (h : (gaps text).Free a s.offset) (hs : s.At text) {c : Char} {rest : List Char}
    (ahead : s.rest = c :: rest) (space : isSpace c = true) :
    (gaps text).Free a (s.pass c rest).offset := by
  obtain ⟨⟨front, split, offset⟩, -⟩ := hs
  refine h.tail (.inl ?_)
  rw [Input.pass, offset]
  exact .mk (split.trans (by rw [ahead])) space

theorem free_comment (h : (gaps text).Free a start.offset) (hstart : start.At text)
    (hs : s.At text) {piece : List Char} (ahead : start.rest = piece ++ s.rest)
    (comment : IsComment piece s.rest) : (gaps text).Free a s.offset := by
  obtain ⟨⟨front, split, offset⟩, -⟩ := hstart
  obtain ⟨⟨front', split', offset'⟩, -⟩ := hs
  have same : front' = front ++ piece := by
    rw [split, ahead, ← List.append_assoc] at split'
    exact (List.append_cancel_right split').symm
  refine h.tail (.inr ?_)
  rw [offset, offset', same, Utf8.widths_append]
  exact .mk (split.trans (by rw [ahead])) comment

/-- One more character inside of a gap. -/
theorem Gap.Ahead.next {gap gap' : Gap} (h : gap.Ahead text a s) (hs : s.At text) {c : Char}
    {rest : List Char} (ahead : s.rest = c :: rest) (step : gap.next s c = some gap') :
    gap'.Ahead text a (s.pass c rest) := by
  have passed := hs.pass ahead
  cases gap with
  | blank =>
    simp only [Gap.next] at step
    split_ifs at step with slash space
    · cases step
      exact ⟨h, hs, eq_of_beq slash ▸ ahead⟩
    · cases step
      exact free_blank h hs ahead space
  | slash start =>
    obtain ⟨free, hstart, form⟩ := h
    rw [ahead] at form
    simp only [Gap.next] at step
    split_ifs at step with slash star
    · cases step
      exact ⟨start, [], free, hstart, eq_of_beq slash ▸ form, by simp⟩
    · cases step
      exact ⟨[], free, hstart, eq_of_beq star ▸ form, by simp, by simp⟩
  | lineComment =>
    obtain ⟨start, body, free, hstart, form, inside⟩ := h
    simp only [Gap.next, Option.some.injEq] at step
    split_ifs at step with last
    · cases step
      have ends : ∀ c ∈ s.rest.head?, isLineEnd c = true := by simpa [ahead] using last
      have comment : IsComment ('/' :: '/' :: body) s.rest := .line inside ends
      exact free_blank (free_comment free hstart hs form comment) hs ahead
        (isSpace_of_isLineEnd last)
    · cases step
      refine ⟨start, body ++ [c], free, hstart, by simpa [ahead, Input.pass] using form, ?_⟩
      simpa [or_imp, forall_and, last] using inside
  | blockComment start =>
    obtain ⟨body, free, hstart, form, unclosed, last⟩ := h
    simp only [Gap.next, Option.some.injEq] at step
    split_ifs at step with star
    · cases step
      rw [ahead, eq_of_beq star] at form
      exact ⟨body, free, hstart, form, unclosed⟩
    · cases step
      refine ⟨body ++ [c], free, hstart, by simpa [ahead, Input.pass] using form,
        not_closed_concat unclosed fun _ => last, ?_⟩
      simpa using star
  | star start =>
    obtain ⟨body, free, hstart, form, unclosed⟩ := h
    have other : '*' = '/' → body.getLast? ≠ some '*' := fun eq => absurd eq (by decide)
    simp only [Gap.next, Option.some.injEq] at step
    split_ifs at step with slash star
    · cases step
      have whole : start.rest = ('/' :: '*' :: (body ++ ['*', '/'])) ++ (s.pass c rest).rest := by
        rw [form, ahead, eq_of_beq slash]
        simp [Input.pass]
      exact free_comment free hstart passed whole (.block unclosed)
    · cases step
      rw [ahead, eq_of_beq star] at form
      exact ⟨body ++ ['*'], free, hstart, by simpa [Input.pass] using form,
        not_closed_concat unclosed other⟩
    · cases step
      refine ⟨body ++ ['*'] ++ [c], free, hstart, by simpa [ahead, Input.pass] using form,
        not_closed_concat (not_closed_concat unclosed other) ?_, by simpa using star⟩
      intro eq
      exact absurd (beq_iff_eq.mpr eq) slash

/-- Where no more can be passed, one stands behind a gap. -/
theorem Gap.Ahead.back {gap : Gap} (h : gap.Ahead text a s) (hs : s.At text)
    (stop : s.rest = [] ∨ ∃ c rest, s.rest = c :: rest ∧ gap.next s c = none) :
    (gap.back s).At text ∧ (gaps text).Free a (gap.back s).offset := by
  cases gap with
  | blank => exact ⟨hs, h⟩
  | slash start => exact ⟨h.2.1, h.1⟩
  | lineComment =>
    obtain ⟨start, body, free, hstart, form, inside⟩ := h
    have finished : s.rest = [] := by
      refine stop.resolve_right ?_
      rintro ⟨c, rest, -, next⟩
      cases next
    have comment : IsComment ('/' :: '/' :: body) s.rest := .line inside (by simp [finished])
    exact ⟨hs, free_comment free hstart hs form comment⟩
  | blockComment start =>
    obtain ⟨body, free, hstart, -⟩ := h
    exact ⟨hstart, free⟩
  | star start =>
    obtain ⟨body, free, hstart, -⟩ := h
    exact ⟨hstart, free⟩

theorem Input.free_passGap {gap : Gap} {cs : List Char} (h : gap.Ahead text a s) (hs : s.At text)
    (ahead : s.rest = cs) :
    (s.passGap gap cs).At text ∧ (gaps text).Free a (s.passGap gap cs).offset := by
  induction cs generalizing gap s with
  | nil => exact h.back hs (.inl ahead)
  | cons c cs ih =>
    cases step : gap.next s c with
    | none =>
      rw [passGap, step]
      exact h.back hs (.inr ⟨c, cs, ahead, step⟩)
    | some gap' =>
      rw [passGap, step]
      exact ih (h.next hs ahead step) (hs.pass ahead) rfl

/-- Only white space and comments are passed on the way to the next token. -/
theorem Input.free_toToken (hs : s.At text) :
    s.toToken.At text ∧ (gaps text).Free s.offset s.toToken.offset := by
  have blank : Gap.blank.Ahead text s.offset s := (gaps text).refl _
  exact free_passGap blank hs rfl

end

end Parse

end ParamSchema
