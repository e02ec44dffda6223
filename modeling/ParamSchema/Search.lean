/-!
Depth-first searches in graphs given by a successor function. `once` enters every node once, in the
order in which a search from left to right meets them. `along` only refuses to enter a node below
itself, so that it can meet a node again on another way.
-/

namespace ParamSchema.Search

variable {α β κ : Type}

/-- The nodes that can be reached from a stack of nodes without those visited, each once, in the
order in which they are first met. A node that was visited is dropped when it is on top; to leave it
out already when the successors are put on the stack would not change what is met, because what was
visited stays visited. The number bounds the nodes to come. -/
def once [BEq α] (next : α → List α) : Nat → List α → List α → List α
  | 0, _, _ => []
  | n + 1, visited, stack =>
    match stack.dropWhile visited.contains with
    | [] => []
    | a :: rest => a :: once next n (a :: visited) (next a ++ rest)

/-- What is met on the ways from a node. A step leads to another node or to a result; a node whose
key is on the way already leads to nothing. The number bounds the length of ways. -/
def along [BEq κ] (key : α → Option κ) (next : α → List (α ⊕ β)) : Nat → List κ → α → List β
  | 0, _, _ => []
  | n + 1, way, a =>
    if (key a).any way.contains then []
    else (next a).flatMap fun
      | .inl b => along key next n ((key a).toList ++ way) b
      | .inr result => [result]

end ParamSchema.Search
