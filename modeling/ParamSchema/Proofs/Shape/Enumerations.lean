import ParamSchema.Proofs.Numerals.Literals
import ParamSchema.Proofs.Shape.Values

/-!
The values of enumerations. The language gives a member the string or the number that is written for
it, and a bare member the number after the one before it, if that is known (`EnumMember.value`). The
shape of an enumeration is found by counting on (`EnumMember.shapes`): a member whose value is not
read leaves the counter as it is. So a bare member directly behind such a member is given a number,
mostly a wrong one; all other numbers are right where the values before them are read right
(`SourceFile.enumShape_gives_values_iff`).
-/

namespace ParamSchema

open Relation (ReflTransGen)

/-! ### Members and their values -/

/-- What the body of an enumeration says about a member. -/
inductive EnumMember where
  /-- A name alone. Only names that are words or strings are counted. -/
  | bare (counted : Bool)
  /-- A string. -/
  | text (value : Text)
  /-- Another value, with the number that its text is read as and the number that it writes. -/
  | assigned (read written : Option Double)
  deriving DecidableEq

namespace EnumMember

/-- The value of a member behind another one with the given value, which may not be known; the first
member has none before it. A computed value is not known. -/
def value (previous : Option (Option LiteralValue)) : EnumMember → Option LiteralValue
  | .text t => some (.text t)
  | .assigned _ written => written.map .number
  | .bare _ =>
    match previous with
    | none => some (.number (.zero false))
    | some (some (.number x)) => some (.number (x + Double.ofNat 1))
    | some _ => none

/-- The values of members one after the other. -/
def values : Option (Option LiteralValue) → List EnumMember → List (Option LiteralValue)
  | _, [] => []
  | previous, m :: ms => m.value previous :: values (some (m.value previous)) ms

/-- The value of the last member, if there is one. -/
def lastValue (previous : Option (Option LiteralValue)) (ms : List EnumMember) :
    Option (Option LiteralValue) :=
  ms.foldl (fun previous m => some (m.value previous)) previous

/-! ### Counting on -/

/-- Whether a member has a place in the shape of the enumeration. -/
def isListed : EnumMember → Bool
  | .bare counted => counted
  | _ => true

/-- The shape of a member when the counter is at a number. -/
def shape? (counter : Double) : EnumMember → Option Shape
  | .bare counted => if counted then some (.literal (.number counter)) else none
  | .text t => some (.literal (.text t))
  | .assigned (some x) _ => some (.literal (.number x))
  | .assigned none _ => some (.primitive (txt "number"))

/-- The counter behind a member. -/
def next (counter : Double) : EnumMember → Double
  | .bare true => counter + Double.ofNat 1
  | .assigned (some x) _ => x + Double.ofNat 1
  | _ => counter

/-- Whether a member leaves the counter as it is. -/
def stalls : EnumMember → Bool
  | .bare true => false
  | .assigned (some _) _ => false
  | _ => true

/-- The shapes of members one after the other. -/
def shapes : Double → List EnumMember → List Shape
  | _, [] => []
  | counter, m :: ms => (m.shape? counter).toList ++ shapes (m.next counter) ms

/-- The counter behind members. -/
def counter (start : Double) (ms : List EnumMember) : Double := ms.foldl next start

/-- Each literal among the shapes is the value of its member. -/
def GivesFrom (previous : Option (Option LiteralValue)) (ms : List EnumMember) (ss : List Shape) :
    Prop :=
  List.Forall₂ (fun m s => ∀ v, s = .literal v → m.2 = some v)
    ((ms.zip (values previous ms)).filter (·.1.isListed)) ss

/-- Each literal in the shape of an enumeration is the value of its member. -/
def Gives (ms : List EnumMember) (ss : List Shape) : Prop := GivesFrom none ms ss

/-- The counter is at the value of a bare member. -/
def Ready (counter : Double) (previous : Option (Option LiteralValue)) : Prop :=
  (bare true).value previous = some (.number counter)

/-- What a member is given whatever the counter: its own string or number, some number for a value
that is not read, and a number for a name alone. -/
def Given : EnumMember → Shape → Prop
  | .bare _, s => ∃ x, s = .literal (.number x)
  | .text t, s => s = .literal (.text t)
  | .assigned (some x) _, s => s = .literal (.number x)
  | .assigned none _, s => s = .primitive (txt "number")

variable {c : Double} {previous : Option (Option LiteralValue)} {m : EnumMember}
  {ms : List EnumMember}

theorem isSome_shape? (c : Double) (m : EnumMember) : (m.shape? c).isSome = m.isListed := by
  cases m with
  | bare counted => cases counted <;> rfl
  | text => rfl
  | assigned read => cases read <;> rfl

theorem given_of_shape? {s : Shape} (h : m.shape? c = some s) : m.Given s := by
  cases m with
  | bare counted =>
    cases counted with
    | false => cases h
    | true => exact ⟨c, (Option.some.inj h).symm⟩
  | text => exact (Option.some.inj h).symm
  | assigned read => cases read <;> exact (Option.some.inj h).symm

theorem given_shapes (c : Double) (ms : List EnumMember) :
    List.Forall₂ Given (ms.filter isListed) (shapes c ms) := by
  induction ms generalizing c with
  | nil => exact .nil
  | cons m ms ih =>
    have listed := isSome_shape? c m
    rw [shapes, List.filter_cons]
    cases shape : m.shape? c with
    | none =>
      rw [shape] at listed
      simpa [← listed] using ih (m.next c)
    | some s =>
      rw [shape] at listed
      simpa [← listed] using ⟨given_of_shape? shape, ih (m.next c)⟩

theorem givesFrom_cons :
    GivesFrom previous (m :: ms) (shapes c (m :: ms)) ↔
      (∀ v, m.shape? c = some (.literal v) → m.value previous = some v) ∧
        GivesFrom (some (m.value previous)) ms (shapes (m.next c) ms) := by
  have listed := isSome_shape? c m
  rw [GivesFrom, shapes, values, List.zip_cons_cons, List.filter_cons]
  cases shape : m.shape? c with
  | none =>
    rw [shape] at listed
    simp [← listed, GivesFrom]
  | some s =>
    rw [shape] at listed
    simp [← listed, GivesFrom]

/-- A member is given its value when the counter is right for it, or its number is read right. -/
theorem shape?_right_iff :
    (∀ v, m.shape? c = some (.literal v) → m.value previous = some v) ↔
      (m = .bare true → Ready c previous) ∧
        ∀ x written, m = .assigned (some x) written → written = some x := by
  cases m with
  | bare counted => cases counted <;> simp [shape?, Ready]
  | text t => simp [shape?, value]
  | assigned read written => cases read <;> simp [shape?, value]

/-- Behind a member that is counted or read right, the counter is right. -/
theorem Ready.next (moves : m.stalls = false) (ready : m = .bare true → Ready c previous)
    (right : ∀ x written, m = .assigned (some x) written → written = some x) :
    Ready (m.next c) (some (m.value previous)) := by
  cases m with
  | bare counted =>
    cases counted with
    | false => cases moves
    | true =>
      have value : (bare true).value previous = _ := ready rfl
      rw [value]
      rfl
  | text => cases moves
  | assigned read written =>
    cases read with
    | none => cases moves
    | some x =>
      rw [right x written rfl]
      rfl

/-- When members are given their values: only bare members directly behind one that leaves the
counter as it is are in doubt. -/
theorem givesFrom_iff (ready : ∀ rest, ms = .bare true :: rest → Ready c previous) :
    GivesFrom previous ms (shapes c ms) ↔
      (∀ x written, .assigned (some x) written ∈ ms → written = some x) ∧
      ∀ before m after, ms = before ++ m :: .bare true :: after → m.stalls = true →
        Ready (counter c (before ++ [m])) (lastValue previous (before ++ [m])) := by
  induction ms generalizing c previous with
  | nil =>
    refine iff_of_true .nil ⟨?_, ?_⟩
    · intro x written mem
      cases mem
    · intro before m after split
      simp at split
  | cons m ms ih =>
    have first : m = .bare true → Ready c previous := by
      rintro rfl
      exact ready ms rfl
    rw [givesFrom_cons, shape?_right_iff]
    constructor
    · rintro ⟨⟨_, right⟩, rest⟩
      -- The bare member behind this one, if there is one, is given its value.
      have ready' : ∀ after, ms = .bare true :: after →
          Ready (m.next c) (some (m.value previous)) := by
        rintro after rfl
        exact (shape?_right_iff.mp (givesFrom_cons.mp rest).1).1 rfl
      obtain ⟨rights, doubts⟩ := (ih ready').mp rest
      refine ⟨?_, ?_⟩
      · intro x written mem
        rcases List.mem_cons.mp mem with same | mem
        · exact right x written same.symm
        · exact rights x written mem
      · intro before m' after split stalls
        cases before with
        | nil =>
          obtain ⟨rfl, behind⟩ := List.cons.inj split
          exact ready' after behind
        | cons _ before =>
          obtain ⟨rfl, behind⟩ := List.cons.inj split
          exact doubts before m' after behind stalls
    · rintro ⟨rights, doubts⟩
      have right : ∀ x written, m = .assigned (some x) written → written = some x :=
        fun x written same => rights x written (same ▸ List.mem_cons_self)
      have ready' : ∀ after, ms = .bare true :: after →
          Ready (m.next c) (some (m.value previous)) := by
        rintro after rfl
        cases stalls : m.stalls with
        | true => exact doubts [] m after rfl stalls
        | false => exact .next stalls first right
      refine ⟨⟨first, right⟩, (ih ready').mpr ⟨?_, ?_⟩⟩
      · intro x written mem
        exact rights x written (List.mem_cons_of_mem m mem)
      · intro before m' after split stalls
        exact doubts (m :: before) m' after (congrArg (m :: ·) split) stalls

end EnumMember

/-! ### Members of a body -/

namespace SourceFile

open EnumMember

variable (file : SourceFile)

/-- The number that a literal writes, or the name of a number that has no literal. -/
def plainNumber? (n : Node) : Option Double :=
  match n.kind with
  | .number => (file.numberOf? n).toOption.join
  | .identifier =>
    if file.textOf n == txt "Infinity" then some (.infinity false)
    else if file.textOf n == txt "NaN" then some .nan
    else none
  | _ => none

/-- The number that a value writes, with a sign or without. -/
def writtenNumber? (n : Node) : Option Double :=
  if n.kind == .unaryExpression then
    let operator := file.textOf? (n.child? .operator)
    let operand := (n.child? .argument).bind file.plainNumber?
    if operator == txt "-" then operand.map Double.neg
    else if operator == txt "+" then operand
    else none
  else file.plainNumber? n

/-- The member that a part of the body of an enumeration is; tokens and comments are none. -/
def enumMember? (n : Node) : Except Overflow (Option EnumMember) :=
  if !n.isNamed || n.isComment then return none
  else if n.kind == .enumAssignment then
    let value := n.child? .value
    if value.any (·.kind == .string) then
      return some (.text (← file.stringValue (value.getD n)))
    else
      return some (.assigned (← Numeral.literal? (file.textOf? value))
        (value.bind file.writtenNumber?))
  else return some (.bare (n.kind == .propertyIdentifier || n.kind == .string))

/-- The members of an enumeration. -/
def enumMembers (declaration : Node) : Except Overflow (List EnumMember) :=
  return (← (((declaration.child? .body).map Node.children).getD []).mapM
    file.enumMember?).filterMap id

variable {file}

theorem enumMember?_of_assigned {n : Node} (kind : n.kind = .enumAssignment) :
    file.enumMember? n =
      if (n.child? .value).any (·.kind == .string) then do
        return some (.text (← file.stringValue ((n.child? .value).getD n)))
      else do
        return some (.assigned (← Numeral.literal? (file.textOf? (n.child? .value)))
          ((n.child? .value).bind file.writtenNumber?)) := by
  have named : (!n.isNamed || n.isComment) = false := by
    simp [Node.isNamed, Node.isComment, kind, Kind.isNamed]
  rw [enumMember?, named, if_neg Bool.false_ne_true, if_pos (beq_iff_eq.mpr kind)]

/-- A word or a string alone is counted. -/
theorem enumMember?_of_name {n : Node} (kind : n.kind = .propertyIdentifier ∨ n.kind = .string) :
    file.enumMember? n = .ok (some (.bare true)) := by
  rcases kind with kind | kind <;>
    simp [enumMember?, Node.isNamed, Node.isComment, kind, Kind.isNamed] <;> rfl

/-- What is neither assigned nor counted leaves the counter as it is. -/
theorem enumMember?_of_other {n : Node} (assigned : n.kind ≠ .enumAssignment)
    (word : n.kind ≠ .propertyIdentifier) (string : n.kind ≠ .string) :
    ∃ m?, file.enumMember? n = .ok m? ∧ (m? = none ∨ m? = some (.bare false)) := by
  rw [enumMember?]
  split
  · exact ⟨none, rfl, .inl rfl⟩
  · rw [if_neg fun same => assigned (eq_of_beq same)]
    refine ⟨some (.bare false), ?_, .inr rfl⟩
    rw [beq_eq_false_iff_ne.mpr word, beq_eq_false_iff_ne.mpr string]
    rfl

/-- One step of counting on. -/
theorem enumShapes_cons (c : Double) (n : Node) (rest : List Node) :
    file.enumShapes c (n :: rest) = (do
      let m? ← file.enumMember? n
      let ss ← file.enumShapes ((m?.map (EnumMember.next c)).getD c) rest
      return (m?.bind (EnumMember.shape? c)).toList ++ ss) := by
  rw [enumShapes]
  split
  · next kind =>
    rw [enumMember?_of_assigned kind]
    dsimp only
    split
    · simp [shape?, next]
    · cases Numeral.literal? (file.textOf? (n.child? .value)) with
      | error cause => rfl
      | ok read => cases read <;> rfl
  · next kind => rw [enumMember?_of_name (.inl kind)]; rfl
  · next kind => rw [enumMember?_of_name (.inr kind)]; rfl
  · next assigned word string =>
    obtain ⟨m?, found, still⟩ := enumMember?_of_other assigned word string
    rw [found]
    rcases still with rfl | rfl <;> exact (bind_pure _).symm

/-- The shapes of a body are those of its members, and there are none if a member cannot be
represented. -/
theorem enumShapes_eq (c : Double) (ns : List Node) :
    file.enumShapes c ns =
      (ns.mapM file.enumMember?).map fun ms => shapes c (ms.filterMap id) := by
  induction ns generalizing c with
  | nil => rfl
  | cons n rest ih =>
    rw [enumShapes_cons, List.mapM_cons]
    cases file.enumMember? n with
    | error cause => rfl
    | ok m? =>
      show (do
        let ss ← file.enumShapes ((m?.map (EnumMember.next c)).getD c) rest
        return (m?.bind (EnumMember.shape? c)).toList ++ ss) = _
      rw [ih]
      cases rest.mapM file.enumMember? with
      | error cause => rfl
      | ok ms => cases m? <;> rfl

theorem enumShape_of_members {declaration : Node} {ms : List EnumMember}
    (h : file.enumMembers declaration = .ok ms) :
    file.enumShape declaration = .ok (.union (shapes (.zero false) ms)) := by
  obtain ⟨ms?, found, h⟩ := Outcome.bind_eq_ok.mp h
  cases h
  rw [enumShape, enumShapes_eq, found]
  rfl

/-! ### Numbers that are read right -/

/-- A value that writes an integer: a literal, or a decimal literal directly behind a minus sign. -/
inductive WritesInteger (file : SourceFile) : Node → Int → Prop where
  | literal {v : Node} {k : Nat} : v.kind = .number →
      Numeral.Spells ((file.textOf v).filter (· != chr '_')) k → WritesInteger file v k
  | negative {v operand : Node} {k : Nat} : v.kind = .unaryExpression →
      file.textOf? (v.child? .operator) = txt "-" → v.child? .argument = some operand →
      operand.kind = .number → file.textOf v = chr '-' :: file.textOf operand →
      Numeral.Decimal ((file.textOf operand).filter (· != chr '_')) k →
      (∀ u m, u ≠ [] → Numeral.Digits 8 u m →
        (file.textOf operand).filter (· != chr '_') ≠ chr '0' :: u) →
      WritesInteger file v (-k)

theorem WritesInteger.read {v : Node} {k : Int} (h : file.WritesInteger v k)
    (small : k.natAbs ≤ Double.exactBound) :
    ∃ x, x.value? = some (k : ℚ) ∧ v.kind ≠ .string ∧
      Numeral.literal? (file.textOf v) = .ok (some x) ∧ file.writtenNumber? v = some x := by
  cases h with
  | @literal k kind spelled =>
    obtain ⟨x, read, value⟩ := spelled.literal? small
    refine ⟨x, value, by simp [kind], read, ?_⟩
    simp [writtenNumber?, plainNumber?, numberOf?, kind, read, Except.toOption]
  | @negative operand k kind minus argument number adjacent decimal other =>
    have small' : k ≤ Double.exactBound := by simpa using small
    have same : (k : ℚ) * 10 ^ (0 : Int) = k := by rw [zpow_zero, mul_one]
    have unsigned := Numeral.literal?_decimal rfl decimal other same
    have signed : Numeral.literal? (file.textOf v) = .ok (some (Double.ofDecimal true k 0)) := by
      refine Numeral.literal?_negative ?_ decimal same
      rw [adjacent]
      rfl
    refine ⟨Double.ofDecimal true k 0, ?_, by simp [kind], signed, ?_⟩
    · rw [Numeral.value?_ofDecimal true small']
      simp [Double.withSign]
    · simp [writtenNumber?, plainNumber?, numberOf?, kind, minus, argument, number, unsigned,
        Except.toOption, Double.neg_ofDecimal]

/-- A member with an exact integer as its value is read as that integer, which is what it writes. -/
theorem enumMember?_of_writesInteger {n v : Node} {k : Int} (assigned : n.kind = .enumAssignment)
    (value : n.child? .value = some v) (writes : file.WritesInteger v k)
    (small : k.natAbs ≤ Double.exactBound) :
    ∃ x, x.value? = some (k : ℚ) ∧
      file.enumMember? n = .ok (some (.assigned (some x) (some x))) := by
  obtain ⟨x, exact_, other, read, written⟩ := writes.read small
  refine ⟨x, exact_, ?_⟩
  rw [enumMember?_of_assigned assigned, value, Option.any_some,
    if_neg fun string => other (eq_of_beq string)]
  have text : file.textOf? (some v) = file.textOf v := rfl
  rw [text, read, Option.bind_some, written]
  rfl

end SourceFile

/-! ### Values that are listed -/

namespace EnumMember

theorem GivesFrom.mem {previous : Option (Option LiteralValue)} {ms : List EnumMember}
    {ss : List Shape} (h : GivesFrom previous ms ss) {value : LiteralValue}
    (mem : .literal value ∈ ss) : some value ∈ values previous ms := by
  obtain ⟨i, at_⟩ := List.mem_iff_get.mp mem
  obtain ⟨length, gives⟩ := List.forall₂_iff_get.mp h
  have inside := lt_of_lt_of_eq i.isLt length.symm
  have member := List.mem_of_mem_filter (List.get_mem _ ⟨i, inside⟩)
  rw [← gives i inside i.isLt value at_]
  exact (List.of_mem_zip member).2

end EnumMember

namespace Resolver

variable {r : Resolver} {s : Shape} {ss : List Shape}

theorem target?_union (members : List Shape) : r.target? (.union members) = .ok none :=
  target?_of_not_reference (by simp)

theorem spreads_of_target (found : r.target? s = .ok (some (.union ss)))
    (atoms : ∀ m ∈ ss, m.Atom) {u : Shape} (h : ReflTransGen r.Spreads s u) :
    u = s ∨ u = .union ss ∨ u ∈ ss := by
  induction h with
  | refl => exact .inl rfl
  | tail _ step ih =>
    rcases ih with rfl | rfl | mem
    · cases step with
      | member =>
        rw [target?_union] at found
        cases found
      | target found' =>
        cases found.symm.trans found'
        exact .inr (.inl rfl)
    · cases step with
      | member mem => exact .inr (.inr mem)
      | target found' =>
        rw [target?_union] at found'
        cases found'
    · have split := splits_of_spreads step
      cases atoms _ mem <;> cases split

/-- A reference that stands for atoms lists the literals among them. -/
theorem listedValues_of_atoms {fs : FileSystem} (hfs : r.Over fs) (described : s.Described fs)
    (found : r.target? s = .ok (some (.union ss))) (atoms : ∀ m ∈ ss, m.Atom) :
    ∃ listed, r.listedValues s = .ok listed ∧
      ∀ v, v ∈ listed ↔ ∃ value, .literal value ∈ ss ∧ value.listed? = some v := by
  have lib := library_readFrom fs
  have hr := hfs.readFrom
  have hs := described.genuine
  have sound : ∀ u cause, ReflTransGen r.Spreads s u → ¬ r.Fails u cause := by
    intro u cause path fails
    rw [Fails] at fails
    rcases spreads_of_target found atoms path with rfl | rfl | mem
    · cases found.symm.trans fails
    · rw [target?_union] at fails
      cases fails
    · rw [target?_of_not_splits (by cases atoms u mem <;> rfl)] at fails
      cases fails
  obtain ⟨listed, given⟩ := (exists_listedValues_iff lib hr hs).mpr sound
  refine ⟨listed, given, ?_⟩
  intro v
  rw [mem_listedValues_iff lib hr hs given]
  refine exists_congr fun value => and_congr_left fun _ => ⟨?_, ?_⟩
  · intro path
    rcases spreads_of_target found atoms path with rfl | same | mem
    · rw [target?_of_not_reference (by simp)] at found
      cases found
    · cases same
    · exact mem
  · intro mem
    exact .tail (.single (.target found)) (.member mem)

end Resolver

namespace SourceFile

open EnumMember

variable {file : SourceFile}

/-- The shape of an enumeration gives each member its own string or number. All the numbers are
those of the language exactly when what is read as a number is the number that is written, and each
bare member directly behind one that leaves the counter as it is happens to have the number of the
counter. It never has behind a string or a computed value. Integers are read as they are written, so
the rest is right, and where all is right only values of members are listed. -/
theorem enumShape_gives_values_iff {declaration : Node} {ms : List EnumMember}
    (members : file.enumMembers declaration = .ok ms) :
    ∃ ss, file.enumShape declaration = .ok (.union ss) ∧
      List.Forall₂ Given (ms.filter isListed) ss ∧
      (Gives ms ss ↔
        (∀ x written, .assigned (some x) written ∈ ms → written = some x) ∧
        ∀ before m after, ms = before ++ m :: .bare true :: after → m.stalls = true →
          Ready (counter (.zero false) (before ++ [m])) (lastValue none (before ++ [m]))) ∧
      (∀ before m after, ms = before ++ m :: .bare true :: after →
        m = .assigned none none ∨ (∃ t, m = .text t) → ¬ Gives ms ss) ∧
      (∀ n v k, n.kind = .enumAssignment → n.child? .value = some v → file.WritesInteger v k →
        k.natAbs ≤ Double.exactBound → ∃ x, x.value? = some (k : ℚ) ∧
          file.enumMember? n = .ok (some (.assigned (some x) (some x)))) ∧
      ∀ fs (r : Resolver) s, r.Over fs → s.Described fs → r.target? s = .ok (some (.union ss)) →
        ∃ listed, r.listedValues s = .ok listed ∧
          (∀ v, v ∈ listed ↔ ∃ value, .literal value ∈ ss ∧ value.listed? = some v) ∧
          (Gives ms ss → ∀ v ∈ listed, ∃ value, some value ∈ values none ms ∧
            value.listed? = some v) := by
  have shape := enumShape_of_members members
  have exactly : Gives ms (shapes (.zero false) ms) ↔ _ := givesFrom_iff fun _ _ => rfl
  refine ⟨_, shape, given_shapes _ ms, exactly, ?_, ?_, ?_⟩
  · intro before m after split unknown gives
    have stalls : m.stalls = true := by rcases unknown with rfl | ⟨_, rfl⟩ <;> rfl
    have ready := (exactly.mp gives).2 before m after split stalls
    rw [Ready, lastValue, List.foldl_append] at ready
    rcases unknown with rfl | ⟨_, rfl⟩ <;> cases ready
  · intro n v k assigned value writes small
    exact enumMember?_of_writesInteger assigned value writes small
  · intro fs r s hfs described found
    obtain ⟨_, same, atoms, _⟩ := enumShape_eq_ok shape
    cases same
    obtain ⟨listed, given, exact_⟩ := Resolver.listedValues_of_atoms hfs described found atoms
    refine ⟨listed, given, exact_, ?_⟩
    intro gives v mem
    obtain ⟨value, literal, text⟩ := (exact_ v).mp mem
    exact ⟨value, gives.mem literal, text⟩

/-- Bare members, a number in another radix, a string and a negative number. -/
theorem enumShape_mixed_members :
    let path : Path := ⟨false, [txt "a.ts"]⟩
    let fs := FileSystem.ofSource path
      "enum E \x7b A, B = 0x10, C, D = 'd', F = -1, G \x7d type T = E"
    let sixteen := Double.ofNat 16
    let minusOne := (Double.ofNat 1).neg
    let ms := [.bare true, .assigned sixteen sixteen, .bare true, .text (txt "d"),
      .assigned minusOne minusOne, .bare true]
    ∃ p s, ∃ d : Site, ∃ ss, Program.load fs [] [path] = .ok p ∧ s.Described fs ∧
      p.enumeration? s = some d ∧ d.file.enumMembers d.node = .ok ms ∧
      d.file.enumShape d.node = .ok (.union ss) ∧ Gives ms ss ∧
      (values none ms).map (·.bind LiteralValue.listed?) = [some (txt "0"), some (txt "16"),
        some (txt "17"), some (txt "d"), some (txt "-1"), some (txt "0")] ∧
      ∃ listed, (Resolver.program p).listedValues s = .ok listed ∧
        ∀ v ∈ listed, ∃ value, some value ∈ values none ms ∧ value.listed? = some v := by
  intro path fs sixteen minusOne ms
  have run : ((Program.withAlias? fs path (txt "T")).map fun found =>
      found.2.shape.map fun s => (found.1.enumeration? s).any fun d =>
        decide (d.file.enumMembers d.node = .ok ms)) = some (.ok true) := by
    decide +kernel
  obtain ⟨⟨p, value⟩, found, eq⟩ := Option.map_eq_some_iff.mp run
  obtain ⟨loaded, known⟩ := Program.withAlias?_eq_some found
  obtain ⟨s, shape, facts⟩ := Outcome.map_eq_ok.mp eq
  obtain ⟨d, enumeration, members⟩ := (Option.any_eq_true ..).mp facts
  have members := of_decide_eq_true members
  have described : s.Described fs := .written known shape
  obtain ⟨ss, shape, _, gives, _, _, listing⟩ := enumShape_gives_values_iff members
  have target : p.target? s = .ok (some (.union ss)) := by
    rw [Program.target?_of_enumeration? enumeration, shape]
    rfl
  have right : Gives ms ss := by
    refine gives.mpr ⟨?_, ?_⟩
    · intro x written mem
      have all : ∀ m ∈ ms, ∀ x written, m = .assigned (some x) written → written = some x := by
        simp [ms]
      exact all _ mem x written rfl
    · intro before m after split stalls
      have apart : ms.IsChain fun m m' => m' = .bare true → m.stalls = false := by decide
      rw [split, List.isChain_split, List.isChain_cons_cons] at apart
      cases stalls.symm.trans (apart.2.1 rfl)
  obtain ⟨listed, given, _, sound⟩ :=
    listing fs (.program p) s ⟨[], [path], loaded⟩ described target
  exact ⟨p, s, d, ss, loaded, described, enumeration, members, shape, right, by decide +kernel,
    listed, given, sound right⟩

/-- A computed value leaves the counter behind: the member after it is given zero, which is the
value of no member. -/
theorem enumShape_behind_computed :
    let path : Path := ⟨false, [txt "a.ts"]⟩
    let fs := FileSystem.ofSource path "enum E \x7b A = 1 << 2, B \x7d type T = E"
    let ms := [.assigned none none, .bare true]
    ∃ p s, ∃ d : Site, Program.load fs [] [path] = .ok p ∧ s.Described fs ∧
      p.enumeration? s = some d ∧ d.file.enumMembers d.node = .ok ms ∧
      values none ms = [none, none] ∧
      (Resolver.program p).listedValues s = .ok [txt "0"] := by
  intro path fs ms
  have run : ((Program.withAlias? fs path (txt "T")).map fun found =>
      found.2.shape.map fun s => (found.1.enumeration? s).any fun d =>
        decide (d.file.enumMembers d.node = .ok ms ∧
          (Resolver.program found.1).listedValues s = .ok [txt "0"])) = some (.ok true) := by
    decide +kernel
  obtain ⟨⟨p, value⟩, found, eq⟩ := Option.map_eq_some_iff.mp run
  obtain ⟨loaded, known⟩ := Program.withAlias?_eq_some found
  obtain ⟨s, shape, facts⟩ := Outcome.map_eq_ok.mp eq
  obtain ⟨d, enumeration, facts⟩ := (Option.any_eq_true ..).mp facts
  obtain ⟨members, listed⟩ := of_decide_eq_true facts
  exact ⟨p, s, d, loaded, .written known shape, enumeration, members, rfl, listed⟩

end SourceFile

end ParamSchema
