import ParamSchema.Defaults

/-!
One level of evaluation, kind by kind: what the value at a site is, given the values of its parts
with one level less.
-/

namespace ParamSchema

namespace Defaults

variable (r : Resolver) (n : Nat) {s : Site}

theorem evaluate_number (kind : s.node.kind = .number) :
    evaluate r (n + 1) s =
      (fun x? => (x?.map Double.text).getD s.text) <$> s.file.numberOf? s.node := by
  rw [evaluate, kind]
  cases s.file.numberOf? s.node <;> rfl

theorem evaluate_string (kind : s.node.kind = .string) :
    evaluate r (n + 1) s =
      (fun value => [chr '\x22'] ++ value ++ [chr '\x22']) <$> s.file.stringValue s.node := by
  rw [evaluate, kind]
  cases s.file.stringValue s.node <;> rfl

theorem evaluate_group {inner : Site} (kind : s.node.kind = .parenthesizedExpression)
    (head : s.proper.head? = some inner) : evaluate r (n + 1) s = evaluate r n inner := by
  obtain ⟨rest, form⟩ := List.head?_eq_some_iff.mp head
  rw [evaluate, kind]
  simp only [form]

theorem evaluate_negated {operand : Site} (kind : s.node.kind = .unaryExpression)
    (operator : s.file.textOf? (s.node.child? .operator) = txt "-")
    (argument : s.child? .argument = some operand) :
    evaluate r (n + 1) s = evaluate r n operand >>= fun t =>
      (fun x? => (x?.map (Double.text ∘ Double.neg)).getD s.text) <$> Numeral.reduced? t := by
  rw [evaluate, kind]
  simp only [operator, argument]
  rfl

theorem evaluate_binary {left right : Site} (kind : s.node.kind = .binaryExpression)
    (hl : s.child? .left = some left) (hr : s.child? .right = some right) :
    evaluate r (n + 1) s = evaluate r n left >>= fun a => evaluate r n right >>= fun b =>
      (·.getD s.text) <$> foldedBinary (s.file.textOf? (s.node.child? .operator)) a b := by
  rw [evaluate, kind]
  simp only [hl, hr]
  rfl

/-- Under a limit that is not negative there is at least one level. -/
theorem exists_level {limit : Int} (positive : 0 ≤ limit) :
    ∃ depth, ∀ (r : Resolver) (s : Site), value r limit s = evaluate r (depth + 1) s := by
  obtain ⟨depth, rfl⟩ := Int.eq_ofNat_of_zero_le positive
  refine ⟨depth, fun r s => ?_⟩
  rw [value, show ((depth : Int) + 1).toNat = depth + 1 by omega]

end Defaults

end ParamSchema
