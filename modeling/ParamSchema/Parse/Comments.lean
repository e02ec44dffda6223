import ParamSchema.Parse.Reader

/-!
Comments in their places. A tree is read without comments first; then each comment becomes a part
of the smallest node with tokens on both sides of it, between those tokens.
-/

namespace ParamSchema.Parse

/-- Where one is between two tokens. -/
inductive Between where
  | blank
  /-- Behind a slash that began at the input. -/
  | slash (start : Input)
  | lineComment (start : Input)
  | blockComment (start : Input)
  | star (start : Input)

/-- The comment from one input to another. -/
def commentNode (start stop : Input) : Node :=
  .mk .comment none start.offset stop.offset start.line []

/-- The comments up to the offset `limit`, and the input there. -/
def commentsUpTo (limit : Nat) (place : Between) (s : Input) : List Char → List Node × Input
  | [] => match place with
    | .lineComment start => ([commentNode start s], s)
    | _ => ([], s)
  | c :: rest =>
    if limit ≤ s.offset then
      match place with
      | .lineComment start => ([commentNode start s], s)
      | _ => ([], s)
    else
      let s' := s.pass c rest
      match place with
      | .blank => commentsUpTo limit (if c == '/' then .slash s else .blank) s' rest
      | .slash start =>
        commentsUpTo limit
          (if c == '/' then .lineComment start
            else if c == '*' then .blockComment start else .blank)
          s' rest
      | .lineComment start =>
        if isLineEnd c then
          let (comments, last) := commentsUpTo limit .blank s' rest
          (commentNode start s :: comments, last)
        else commentsUpTo limit (.lineComment start) s' rest
      | .blockComment start =>
        commentsUpTo limit (if c == '*' then .star start else .blockComment start) s' rest
      | .star start =>
        if c == '/' then
          let (comments, last) := commentsUpTo limit .blank s' rest
          (commentNode start s' :: comments, last)
        else commentsUpTo limit (if c == '*' then .star start else .blockComment start) s' rest

/-- The input at the offset `limit`. -/
def Input.upTo (limit : Nat) (s : Input) : List Char → Input
  | [] => s
  | c :: rest => if limit ≤ s.offset then s else (s.pass c rest).upTo limit rest

mutual

/-- A node with the comments between its parts; the input is at the node before and behind it
after. -/
def weave (s : Input) : Node → Node × Input
  | .mk kind role start stop line children =>
    let (children, s) := weaveParts s children
    (.mk kind role start stop line children, s.upTo stop s.rest)

/-- The parts of a node with the comments before each of them. -/
def weaveParts (s : Input) : List Node → List Node × Input
  | [] => ([], s)
  | n :: ns =>
    let (comments, s) := commentsUpTo n.start .blank s s.rest
    let (n, s) := weave s n
    let (ns, s) := weaveParts s ns
    (comments ++ n :: ns, s)

end

/-- The parts of a file with the comments before, between and behind them. -/
def weaveFile (s : Input) (parts : List Node) : List Node :=
  let (parts, s) := weaveParts s parts
  parts ++ (commentsUpTo (s.offset + 4 * s.bound) .blank s s.rest).1

end ParamSchema.Parse
