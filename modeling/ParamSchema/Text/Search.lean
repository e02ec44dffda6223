import ParamSchema.Text.Blank

/-!
Cutting and joining texts: parts between separators, the first and the last place of a word, and
the order by code points.
-/

namespace ParamSchema.Text

variable {α : Type}

/-- Whether `t` begins with `w`. -/
def startsWith [BEq α] (t w : List α) : Bool := w.isPrefixOf t

/-- The rest of `t` behind `w`, when `t` begins with `w`. -/
def after? [BEq α] (w t : List α) : Option (List α) :=
  if w.isPrefixOf t then some (t.drop w.length) else none

/-- The parts between the separators `sep`; there is one part more than separators. -/
def splitOn [BEq α] (sep : α) : List α → List (List α)
  | [] => [[]]
  | c :: t =>
    match splitOn sep t with
    | [] => [[c]]
    | part :: parts => if c == sep then [] :: part :: parts else (c :: part) :: parts

/-- The parts with `sep` between them. -/
def joinWith (sep : List α) : List (List α) → List α
  | [] => []
  | [part] => part
  | part :: parts => part ++ sep ++ joinWith sep parts

/-- What stands before the first `w` and what stands behind it. -/
def cutFirst? [BEq α] (w : List α) : List α → Option (List α × List α)
  | [] => if w.isEmpty then some ([], []) else none
  | c :: t =>
    if w.isPrefixOf (c :: t) then some ([], (c :: t).drop w.length)
    else (cutFirst? w t).map fun (before, rest) => (c :: before, rest)

/-- What stands behind the last `w`. -/
def afterLast? [BEq α] (w : List α) : List α → Option (List α)
  | [] => if w.isEmpty then some [] else none
  | c :: t =>
    match afterLast? w t with
    | some rest => some rest
    | none => if w.isPrefixOf (c :: t) then some ((c :: t).drop w.length) else none

/-- Replaces each code point `c` by the text `w`. -/
def replace (c : CodePoint) (w t : Text) : Text :=
  t.flatMap fun d => if d == c then w else [d]

/-- Strict order by code points, a text before its continuations. -/
def less : Text → Text → Bool
  | [], [] => false
  | [], _ :: _ => true
  | _ :: _, [] => false
  | a :: s, b :: t => a.val < b.val || (a == b && less s t)

/-- Adds a text to a strictly increasing list of texts. -/
def insertSorted (w : Text) : List Text → List Text
  | [] => [w]
  | t :: ts => if w == t then t :: ts else if less w t then w :: t :: ts else t :: insertSorted w ts

/-- The distinct texts of a list in increasing order. -/
def sortedDistinct (ts : List Text) : List Text := ts.foldr insertSorted []

end ParamSchema.Text
