import Mathlib.Data.List.Basic
import Mathlib.Order.Basic
import ParamSchema.Source.File

/-!
Trees in source order. In such a tree the parts of every node lie inside it, one behind the other
(`Node.isOrdered`); they may be empty. Then nodes in pre-order begin one after the other
(`Node.pairwise_start_preorder`), and where every node has the line of its first byte, their lines
do not decrease either (`SourceFile.pairwise_line_preorder`).
-/

namespace ParamSchema

namespace Node

mutual

/-- Whether the parts of a node and of all nodes below it lie inside it one behind the other. -/
def isOrdered : Node → Bool
  | .mk _ _ start stop _ children => areOrdered start stop children

/-- Whether nodes lie one behind the other between two offsets, and so do the nodes below them. -/
def areOrdered (a b : Nat) : List Node → Bool
  | [] => decide (a ≤ b)
  | n :: ns => decide (a ≤ n.start) && n.isOrdered && areOrdered n.stop b ns

end

theorem areOrdered_cons {a b : Nat} {n : Node} {ns : List Node} :
    areOrdered a b (n :: ns) = true ↔
      a ≤ n.start ∧ n.isOrdered = true ∧ areOrdered n.stop b ns = true := by
  simp [areOrdered, and_assoc]

theorem isOrdered_iff {n : Node} :
    n.isOrdered = true ↔ areOrdered n.start n.stop n.children = true := by
  cases n
  rw [isOrdered]
  rfl

mutual

/-- Nodes below a node lie inside it and begin one after the other. -/
theorem bounds_of_isOrdered : (n : Node) → n.isOrdered = true →
    n.start ≤ n.stop ∧ n.preorder.Pairwise (fun m m' => m.start ≤ m'.start) ∧
      ∀ m ∈ n.preorder, n.start ≤ m.start ∧ m.start ≤ m.stop ∧ m.stop ≤ n.stop
  | .mk kind role start stop line children, h => by
    obtain ⟨covers, ordered, inside⟩ :=
      bounds_of_areOrdered start stop children (isOrdered_iff.mp h)
    rw [preorder]
    refine ⟨covers, List.pairwise_cons.mpr ⟨fun m hm => (inside m hm).1, ordered⟩, ?_⟩
    intro m hm
    rcases List.mem_cons.mp hm with rfl | hm
    · exact ⟨Nat.le_refl _, covers, Nat.le_refl _⟩
    · exact inside m hm

theorem bounds_of_areOrdered : (a b : Nat) → (ns : List Node) → areOrdered a b ns = true →
    a ≤ b ∧ (preorders ns).Pairwise (fun m m' => m.start ≤ m'.start) ∧
      ∀ m ∈ preorders ns, a ≤ m.start ∧ m.start ≤ m.stop ∧ m.stop ≤ b
  | a, b, [], h => by
    rw [areOrdered, decide_eq_true_eq] at h
    simp [preorders, h]
  | a, b, n :: ns, h => by
    obtain ⟨before, first, behind⟩ := areOrdered_cons.mp h
    obtain ⟨covers, ordered, inside⟩ := bounds_of_isOrdered n first
    obtain ⟨reaches, ordered', inside'⟩ := bounds_of_areOrdered n.stop b ns behind
    rw [preorders]
    refine ⟨by omega, List.pairwise_append.mpr ⟨ordered, ordered', ?_⟩, ?_⟩
    · intro m hm m' hm'
      have left := inside m hm
      have right := inside' m' hm'
      omega
    · intro m hm
      rcases List.mem_append.mp hm with hm | hm
      · have left := inside m hm
        omega
      · have right := inside' m hm
        omega

end

theorem pairwise_start_preorder {n : Node} (h : n.isOrdered = true) :
    n.preorder.Pairwise (fun m m' => m.start ≤ m'.start) :=
  (bounds_of_isOrdered n h).2.1

end Node

namespace SourceFile

/-- The line of a byte, from one: each line feed before it begins a line. -/
def lineAt (file : SourceFile) (offset : Nat) : Nat :=
  (file.bytes.data.toList.take offset).count 0x0A + 1

/-- Whether the tree of a file is in source order and every node has the line of its first byte. -/
def inSourceOrder (file : SourceFile) : Bool :=
  file.tree.isOrdered && file.tree.preorder.all fun n => n.line == file.lineAt n.start

theorem lineAt_mono (file : SourceFile) {a b : Nat} (h : a ≤ b) : file.lineAt a ≤ file.lineAt b :=
  Nat.succ_le_succ ((List.take_prefix_take_left h).sublist.count_le _)

theorem pairwise_line_preorder {file : SourceFile} (h : file.inSourceOrder = true) :
    file.tree.preorder.Pairwise (fun m m' => m.line ≤ m'.line) := by
  rw [inSourceOrder, Bool.and_eq_true, List.all_eq_true] at h
  obtain ⟨ordered, lines⟩ := h
  refine (Node.pairwise_start_preorder ordered).imp_of_mem ?_
  intro m m' hm hm' starts
  rw [eq_of_beq (lines m hm), eq_of_beq (lines m' hm')]
  exact file.lineAt_mono starts

end SourceFile

end ParamSchema
