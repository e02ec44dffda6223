import ParamSchema.Tree.Node

/-!
Places in a syntax tree: a node together with the way to it from the root. A place knows what is
around its node and which siblings are before it.
-/

namespace ParamSchema

inductive Place where
  | root (node : Node)
  /-- A part of `parent`; the siblings before it stand nearest first. -/
  | part (parent : Place) (before : List Node) (node : Node)
  deriving Repr

namespace Place

def node : Place → Node
  | .root node => node
  | .part _ _ node => node

def parent? : Place → Option Place
  | .root _ => none
  | .part parent _ _ => some parent

/-- The siblings before a node, the nearest first. -/
def before : Place → List Node
  | .root _ => []
  | .part _ before _ => before

/-- The places around a place, the innermost first. -/
def around : Place → List Place
  | .root _ => []
  | .part parent _ _ => parent :: parent.around

def kind (p : Place) : Kind := p.node.kind

def isNamed (p : Place) : Bool := p.node.isNamed

def isComment (p : Place) : Bool := p.node.isComment

/-- The parts of `parent` behind the parts `before`. -/
def partsFrom (parent : Place) (before : List Node) : List Node → List Place
  | [] => []
  | n :: ns => .part parent before n :: partsFrom parent (n :: before) ns

/-- The parts of a place in source order. -/
def parts (p : Place) : List Place := partsFrom p [] p.node.children

/-- The parts that are not mere tokens. -/
def named (p : Place) : List Place := p.parts.filter isNamed

/-- The parts that are neither mere tokens nor comments. -/
def proper (p : Place) : List Place := p.named.filter (!·.isComment)

/-- The first part with a role. -/
def child? (p : Place) (role : Role) : Option Place := p.parts.find? (·.node.role == some role)

mutual

/-- The place `p` of a node and all places below it, each before its parts. -/
def walkFrom (p : Place) : Node → List Place
  | .mk _ _ _ _ _ children => p :: walkParts p [] children

def walkParts (parent : Place) (before : List Node) : List Node → List Place
  | [] => []
  | n :: ns => walkFrom (.part parent before n) n ++ walkParts parent (n :: before) ns

end

/-- A place and all places below it, in source order, each before its parts. -/
def walk (p : Place) : List Place := walkFrom p p.node

end Place

end ParamSchema
