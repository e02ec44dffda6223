import ParamSchema.Tree.Kind

/-!
Nodes of a syntax tree. A node has a kind, the role that it plays in the node around it, the bytes
that it covers, the line on which it begins and its parts in source order; comments are parts like
all others.
-/

namespace ParamSchema

inductive Node where
  | mk (kind : Kind) (role : Option Role) (start stop line : Nat) (children : List Node)
  deriving Repr

instance : Inhabited Node := ⟨.mk .error none 0 0 1 []⟩

namespace Node

def kind : Node → Kind
  | .mk kind _ _ _ _ _ => kind

def role : Node → Option Role
  | .mk _ role _ _ _ _ => role

/-- The offset of the first byte. -/
def start : Node → Nat
  | .mk _ _ start _ _ _ => start

/-- The offset behind the last byte. -/
def stop : Node → Nat
  | .mk _ _ _ stop _ _ => stop

/-- The line of the first byte, from one. -/
def line : Node → Nat
  | .mk _ _ _ _ line _ => line

def children : Node → List Node
  | .mk _ _ _ _ _ children => children

def withRole : Node → Role → Node
  | .mk kind _ start stop line children, role => .mk kind (some role) start stop line children

def withKind : Node → Kind → Node
  | .mk _ role start stop line children, kind => .mk kind role start stop line children

/-- A node over its parts. -/
def branch (kind : Kind) (children : List Node) : Node :=
  .mk kind none ((children.head?.map Node.start).getD 0) ((children.getLast?.map Node.stop).getD 0)
    ((children.head?.map Node.line).getD 1) children

def isNamed (n : Node) : Bool := n.kind.isNamed

def isComment (n : Node) : Bool := n.kind == .comment

/-- The first part with a role. -/
def child? (n : Node) (role : Role) : Option Node := n.children.find? (·.role == some role)

/-- Whether a keyword or punctuation is among the parts. -/
def hasToken (n : Node) (text : String) : Bool := n.children.any (·.kind == .token text)

mutual

/-- The number of nodes of a tree. -/
def size : Node → Nat
  | .mk _ _ _ _ _ children => sizes children + 1

def sizes : List Node → Nat
  | [] => 0
  | n :: ns => n.size + sizes ns

end

mutual

/-- All nodes of a tree, each before its parts, in source order. -/
def preorder : Node → List Node
  | .mk kind role start stop line children =>
    .mk kind role start stop line children :: preorders children

def preorders : List Node → List Node
  | [] => []
  | n :: ns => n.preorder ++ preorders ns

end

end Node

end ParamSchema
