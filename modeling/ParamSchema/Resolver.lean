import ParamSchema.Program.Constants
import ParamSchema.Program.Resolve

/-!
What is known about names. With a program, names of types and of variables lead to their
declarations; without one, only what is written at a place is known.
-/

namespace ParamSchema

inductive Resolver where
  | textual
  | program (program : Program)

namespace Resolver

/-- Whether names can lead anywhere. -/
def resolvesNames : Resolver → Bool
  | .textual => false
  | .program _ => true

/-- What a reference stands for. -/
def target? : Resolver → Shape → Except Overflow (Option Shape)
  | .textual, _ => return none
  | .program p, s => p.target? s

/-- The number of nodes of all files that names can lead to. -/
def weight : Resolver → Nat
  | .textual => 0
  | .program p => p.weight

def initializer? : Resolver → Site → Option Site
  | .textual, _ => none
  | .program p, identifier => p.initializer? identifier

def identifierType? : Resolver → Site → Except Overflow (Option Text)
  | .textual, _ => return none
  | .program p, identifier => p.identifierType? identifier

/-- A bound for ways from a shape: no way enters a declaration twice, and between declarations a
way goes down in one shape. -/
def bound (r : Resolver) (s : Shape) : Nat :=
  let weight := s.weight + r.weight + 1
  (weight + 1) * (weight + 1)

end Resolver

end ParamSchema
