import ParamSchema.Parse.Literal
import ParamSchema.Proofs.Layout.Trivia

/-!
Readers lay out nodes. A reader that takes up nodes lying in front of it and hands out nodes that
lie between the beginning of those and the end of what it read is said to lay them (`Reader.Lays`).
The rules below follow the constructions of readers, so that a rule of the grammar is shown to lay
its nodes by going through its parts in their order.
-/

namespace ParamSchema.Parse

/-- Values that hold nodes, in source order. -/
class HasNodes (α : Type) where
  nodes : α → List Node

open HasNodes (nodes)

instance : HasNodes Node := ⟨fun n => [n]⟩

instance {α : Type} [HasNodes α] : HasNodes (List α) := ⟨List.flatMap nodes⟩

instance {α : Type} [HasNodes α] : HasNodes (Option α) := ⟨fun o => o.elim [] nodes⟩

instance {α : Type} [HasNodes α] : HasNodes (Kind × α) := ⟨fun x => nodes x.2⟩

@[simp] theorem nodes_node (n : Node) : nodes n = [n] := rfl

@[simp] theorem nodes_nodes (ns : List Node) : nodes ns = ns := List.flatMap_singleton' ns

@[simp] theorem nodes_nil {α : Type} [HasNodes α] : nodes ([] : List α) = [] := rfl

theorem nodes_cons {α : Type} [HasNodes α] (x : α) (xs : List α) :
    nodes (x :: xs) = nodes x ++ nodes xs := rfl

@[simp] theorem nodes_lists (ns : List (List Node)) : nodes ns = ns.flatten := by
  induction ns with
  | nil => rfl
  | cons n ns ih => rw [nodes_cons, nodes_nodes, ih, List.flatten_cons]

@[simp] theorem nodes_option (n : Option Node) : nodes n = n.toList := by cases n <;> rfl

@[simp] theorem nodes_none {α : Type} [HasNodes α] : nodes (none : Option α) = [] := rfl

@[simp] theorem nodes_some {α : Type} [HasNodes α] (x : α) : nodes (some x) = nodes x := rfl

@[simp] theorem nodes_pair {α : Type} [HasNodes α] (kind : Kind) (x : α) :
    nodes (kind, x) = nodes x := rfl

@[simp] theorem map_bare_withRole (n : Option Node) (role : Role) :
    (n.map (·.withRole role)).toList.map Node.bare = n.toList.map Node.bare := by
  cases n <;> simp

/-! ### Moving on -/

namespace Input

theorem offset_lt_pass (s : Input) (c : Char) (rest : List Char) :
    s.offset < (s.pass c rest).offset :=
  Nat.lt_add_of_pos_right (Utf8.width_pos c)

theorem offset_le_advance (n : Nat) (s : Input) : s.offset ≤ (s.advance n).offset := by
  induction n generalizing s with
  | zero => exact le_rfl
  | succ n ih =>
    rw [advance]
    split
    · exact le_rfl
    · exact (offset_lt_pass s _ _).le.trans (ih _)

theorem offset_lt_advance {n : Nat} {s : Input} (hn : 0 < n) (rest : s.rest ≠ []) :
    s.offset < (s.advance n).offset := by
  obtain ⟨c, cs, hrest⟩ := List.exists_cons_of_ne_nil rest
  obtain ⟨n, rfl⟩ := Nat.exists_eq_succ_of_ne_zero hn.ne'
  rw [advance, hrest]
  exact (offset_lt_pass s c cs).trans_le (offset_le_advance n _)

theorem toToken_of_rest_nil {s : Input} (h : s.rest = []) : s.toToken = s := by
  rw [toToken, h]
  rfl

end Input

/-! ### Rules for readers -/

namespace Reader

variable {α β : Type} [HasNodes α] [HasNodes β]

/-- From a place of a text on, a reader lays nodes behind those in front of it. -/
def LaysAt (text : List Char) (s : Input) (front : List Node) (p : Reader α) : Prop :=
  s.At text → ∀ ⦃a : Nat⦄ ⦃x : α⦄ ⦃s' : Input⦄, Node.Between (gaps text) a s.offset front →
    p s = (some x, s') → s'.At text ∧ Node.Between (gaps text) a s'.offset (nodes x)

/-- A reader lays nodes: those in front of it, of which its value is made, and those it reads. -/
def Lays (front : List Node) (p : Reader α) : Prop := ∀ text s, LaysAt text s front p

theorem bind_eq_some {γ δ : Type} {p : Reader γ} {f : γ → Reader δ} {s s'' : Input} {y : δ} :
    (p >>= f) s = (some y, s'') ↔ ∃ x s', p s = (some x, s') ∧ f x s' = (some y, s'') := by
  simp only [Bind.bind]
  rcases p s with ⟨_ | x, s'⟩
  · simp
  · simp

theorem orElse_eq_some {γ : Type} {p q : Reader γ} {s s' : Input} {x : γ}
    (h : (p <|> q) s = (some x, s')) :
    p s = (some x, s') ∨ ∃ reach, q { s with reach := reach } = (some x, s') := by
  change Reader.orElse p (fun _ => q) s = _ at h
  rw [Reader.orElse] at h
  rcases hp : p s with ⟨_ | y, t⟩
  · rw [hp] at h
    exact .inr ⟨_, h⟩
  · rw [hp] at h
    exact .inl h

variable {front mid : List Node} {text : List Char} {s : Input}

theorem LaysAt.pure {x : α} (h : Node.Fits front (nodes x)) :
    LaysAt text s front (Pure.pure x : Reader α) := by
  intro hs a y s' lies run
  cases run
  exact ⟨hs, h lies⟩

theorem LaysAt.seq {p : Reader α} {f : α → Reader β} (hp : LaysAt text s [] p)
    (hf : ∀ x, Lays (front ++ nodes x) (f x)) : LaysAt text s front (p >>= f) := by
  intro hs a y s'' lies run
  obtain ⟨x, s', first, second⟩ := bind_eq_some.mp run
  obtain ⟨hs', liesFirst⟩ := hp hs (Node.between_refl _) first
  exact hf x text s' hs' (lies.append liesFirst) second

theorem LaysAt.look {γ : Type} {g : Input → γ} {f : γ → Reader β}
    (h : LaysAt text s front (f (g s))) : LaysAt text s front (Reader.look g >>= f) :=
  fun hs _ _ _ lies run => h hs lies run

theorem LaysAt.toToken {f : Unit → Reader β} (h : LaysAt text s.toToken front (f ())) :
    LaysAt text s front (Reader.toToken >>= f) := by
  intro hs a x s' lies run
  obtain ⟨reached, free⟩ := Input.free_toToken hs
  exact h reached (lies.mono ((gaps text).refl a) free) run

theorem LaysAt.leaf {kind : Kind} {n : Nat} (proper : (kind == .comment) = false) (hn : 0 < n)
    (rest : s.rest ≠ []) : LaysAt text s [] (Reader.leaf kind n) := by
  intro hs a x s' lies run
  cases run
  refine ⟨hs.advance n, Node.Between.singleton_iff.mpr ⟨Node.between_nil.mp lies, ?_,
    (gaps text).refl _⟩⟩
  exact Node.nested_iff.mpr ⟨⟨Input.offset_lt_advance hn rest, (hs.advance n).place⟩, .inl rfl,
    proper, .inr (by simp [Node.children])⟩

theorem LaysAt.miss : LaysAt text s front (Reader.miss : Reader α) := by
  intro _ a x s' _ run
  cases run

theorem LaysAt.ite {c : Prop} [Decidable c] {p q : Reader α} (hp : c → LaysAt text s front p)
    (hq : ¬ c → LaysAt text s front q) : LaysAt text s front (if c then p else q) := by
  split
  · exact hp ‹_›
  · exact hq ‹_›

namespace Lays

/-- What is read without regard to what is in front of it. -/
theorem seq {p : Reader α} {f : α → Reader β} (hp : Lays [] p)
    (hf : ∀ x, Lays (front ++ nodes x) (f x)) : Lays front (p >>= f) :=
  fun text s => LaysAt.seq (hp text s) hf

/-- What takes up all nodes in front of it. -/
theorem bind {p : Reader α} {f : α → Reader β} (hp : Lays front p)
    (hf : ∀ x, Lays (nodes x) (f x)) : Lays front (p >>= f) := by
  intro text s hs a y s'' lies run
  obtain ⟨x, s', first, second⟩ := bind_eq_some.mp run
  obtain ⟨hs', liesFirst⟩ := hp text s hs lies first
  exact hf x text s' hs' liesFirst second

/-- What takes up the nodes in front of it but the first ones. -/
theorem carry {p : Reader α} {f : α → Reader β} (before : List Node)
    (same : front.map Node.bare = (before ++ mid).map Node.bare) (hp : Lays mid p)
    (hf : ∀ x, Lays (before ++ nodes x) (f x)) : Lays front (p >>= f) := by
  intro text s hs a y s'' lies run
  obtain ⟨x, s', first, second⟩ := bind_eq_some.mp run
  obtain ⟨b, liesBefore, liesMid⟩ := (lies.congr same).of_append
  obtain ⟨hs', liesFirst⟩ := hp text s hs liesMid first
  exact hf x text s' hs' (liesBefore.append liesFirst) second

/-- As `seq`, where more is known of what is read. -/
theorem seqOf {p : Reader α} {f : α → Reader β} (hp : Lays [] p)
    (hf : ∀ x s s', p s = (some x, s') → Lays (front ++ nodes x) (f x)) : Lays front (p >>= f) := by
  intro text s hs a y s'' lies run
  obtain ⟨x, s', first, second⟩ := bind_eq_some.mp run
  obtain ⟨hs', liesFirst⟩ := hp text s hs (Node.between_refl _) first
  exact hf x s s' first text s' hs' (lies.append liesFirst) second

theorem weaken {p : Reader α} (fits : Node.Fits front mid) (hp : Lays mid p) : Lays front p :=
  fun text s hs _ _ _ lies run => hp text s hs (fits lies) run

/-- The nodes right in front become one node. -/
theorem inner {p : Reader α} (kind : Kind) (before inside : List Node)
    (same : front.map Node.bare = (before ++ inside).map Node.bare ∧ kind.Joins inside)
    (h : Lays (before ++ [Node.branch kind inside]) p) : Lays front p := by
  have joined : Node.Fits (before ++ inside) (before ++ [Node.branch kind inside]) :=
    .append (.refl before) (.branch (.refl inside) same.2)
  exact weaken ((Node.Fits.of_bare same.1).trans joined) h

theorem look {γ : Type} {g : Input → γ} {f : γ → Reader β} (h : ∀ x, Lays front (f x)) :
    Lays front (Reader.look g >>= f) :=
  fun text s => LaysAt.look (h (g s) text s)

theorem toToken {f : Unit → Reader β} (h : Lays front (f ())) :
    Lays front (Reader.toToken >>= f) :=
  fun text s => LaysAt.toToken (h text s.toToken)

theorem pure {x : α} (h : Node.Fits front (nodes x)) : Lays front (Pure.pure x : Reader α) :=
  fun _ _ => LaysAt.pure h

theorem bare {x : α} (same : front.map Node.bare = (nodes x).map Node.bare) :
    Lays front (Pure.pure x : Reader α) :=
  pure (.of_bare same)

theorem branch {kind : Kind} {children : List Node}
    (same : front.map Node.bare = children.map Node.bare ∧ kind.Joins children) :
    Lays front (Pure.pure (Node.branch kind children)) :=
  pure (.branch (.of_bare same.1) same.2)

theorem role {n : Node} {role : Role} (h : Lays front (Pure.pure n)) :
    Lays front (Pure.pure (n.withRole role)) := by
  intro text s hs a x s' lies run
  cases run
  obtain ⟨hs', liesNode⟩ := h text s hs lies rfl
  exact ⟨hs', liesNode.congr (by simp)⟩

theorem miss : Lays front (Reader.miss : Reader α) := fun _ _ => LaysAt.miss

theorem missIf {c : Prop} [Decidable c] {f : Unit → Reader β} (h : Lays front (f ())) :
    Lays front (if c then Reader.miss >>= f else f ()) := by
  split
  · intro text s _ a x s' _ run
    obtain ⟨_, _, first, _⟩ := bind_eq_some.mp run
    cases first
  · exact h

theorem ite {c : Prop} [Decidable c] {p q : Reader α} (hp : c → Lays front p)
    (hq : ¬ c → Lays front q) : Lays front (if c then p else q) :=
  fun text s => LaysAt.ite (hp · text s) (hq · text s)

theorem either {c : Prop} [Decidable c] {p q : Reader α} (hp : Lays front p) (hq : Lays front q) :
    Lays front (if c then p else q) :=
  ite (fun _ => hp) fun _ => hq

theorem eitherSeq {c : Prop} [Decidable c] {p q : Reader α} {f : α → Reader β} (hp : Lays [] p)
    (hq : Lays [] q) (hf : ∀ x, Lays (front ++ nodes x) (f x)) :
    Lays front (if c then p >>= f else q >>= f) :=
  either (seq hp hf) (seq hq hf)

theorem orElse {p q : Reader α} (hp : Lays front p) (hq : Lays front q) :
    Lays front (p <|> q) := by
  intro text s hs a x s' lies run
  rcases orElse_eq_some run with first | ⟨reach, second⟩
  · exact hp text s hs lies first
  · exact hq text { s with reach := reach } hs lies second

theorem opt {p : Reader α} (hp : Lays [] p) : Lays [] (Reader.opt p) :=
  orElse (seq hp fun _ => bare (by simp)) (bare (by simp))

theorem optList {p : Reader (List α)} (hp : Lays [] p) : Lays [] (Reader.optList p) :=
  orElse hp (bare (by simp))

theorem repeated {p : Reader α} (n : Nat) (hp : Lays [] p) : Lays [] (Reader.repeated n p) := by
  induction n with
  | zero => exact bare (by simp)
  | succ n ih =>
    refine orElse (seq hp fun x => seq ih fun more => pure ?_) (bare (by simp))
    exact .refl (nodes x ++ nodes more)

theorem many {p : Reader α} (hp : Lays [] p) : Lays [] (Reader.many p) :=
  fun text s => repeated s.bound hp text s

theorem extended {f : α → Reader α} (n : Nat) (hf : ∀ x, Lays (nodes x) (f x)) (x : α) :
    Lays (nodes x) (Reader.extended n f x) := by
  induction n generalizing x with
  | zero => exact bare (by simp)
  | succ n ih => exact orElse (bind (hf x) ih) (bare rfl)

theorem extend {f : α → Reader α} (hf : ∀ x, Lays (nodes x) (f x)) (x : α) :
    Lays (nodes x) (Reader.extend f x) :=
  fun text s => extended s.bound hf x text s

end Lays

theorem repeated_yields {γ : Type} {p : Reader γ} {n : Nat} {s s' : Input} {xs : List γ} {x : γ}
    (h : Reader.repeated n p s = (some xs, s')) (hx : x ∈ xs) : ∃ t t', p t = (some x, t') := by
  induction n generalizing s s' xs with
  | zero =>
    cases h
    cases hx
  | succ n ih =>
    rcases orElse_eq_some h with more | ⟨_, none⟩
    · obtain ⟨y, t, first, more⟩ := bind_eq_some.mp more
      obtain ⟨ys, t', rest, whole⟩ := bind_eq_some.mp more
      cases whole
      rcases List.mem_cons.mp hx with rfl | hx
      · exact ⟨s, t, first⟩
      · exact ih rest hx
    · cases none
      cases hx

/-- Each part of what is read by repetition is read at some place. -/
theorem many_yields {γ : Type} {p : Reader γ} {s s' : Input} {xs : List γ} {x : γ}
    (h : many p s = (some xs, s')) (hx : x ∈ xs) : ∃ t t', p t = (some x, t') :=
  repeated_yields h hx

/-! ### Tokens -/

theorem rest_ne_nil_of_toToken {s : Input} (h : s.toToken.rest ≠ []) : s.rest ≠ [] := by
  intro nil
  rw [Input.toToken_of_rest_nil nil] at h
  exact h nil

theorem lays_symbol {w : String} (some : w.isEmpty = false) : Lays [] (symbol w) := by
  refine .toToken fun _ s => .look (.ite (fun found => ?_) fun _ => .miss)
  have rest : s.rest ≠ [] := by
    refine rest_ne_nil_of_toToken fun nil => ?_
    rw [nil] at found
    rw [← eq_of_beq found] at some
    exact absurd some (by decide)
  exact .leaf rfl (Nat.pos_of_ne_zero (by simpa using some)) rest

theorem lays_bracket {c : Char} : Lays [] (bracket c) := by
  refine .toToken fun _ s => .look ?_
  split
  case h_1 ahead =>
    exact .ite (fun _ => .leaf rfl Nat.one_pos (rest_ne_nil_of_toToken (by simp [ahead])))
      fun _ => .miss
  case h_2 => exact .miss

theorem rest_ne_nil_of_nameAt {s : Input} (h : nameAt s.toToken.rest ≠ []) : s.rest ≠ [] := by
  refine rest_ne_nil_of_toToken fun nil => h ?_
  rw [nil]
  rfl

theorem lays_keyword {w : String} (some : w.isEmpty = false) : Lays [] (keyword w) := by
  refine .toToken fun _ s => .look (.ite (fun found => ?_) fun _ => .miss)
  have word : w.toList ≠ [] := by simpa using some
  rw [← eq_of_beq found] at word
  exact .leaf rfl (Nat.pos_of_ne_zero (by simpa using some)) (rest_ne_nil_of_nameAt word)

theorem lays_anyKeyword {ws : List String} (some : ws.contains "" = false) :
    Lays [] (anyKeyword ws) := by
  refine .toToken fun _ s => .look (.ite (fun found => ?_) fun _ => .miss)
  have word : nameAt s.toToken.rest ≠ [] := by
    intro nil
    rw [nil] at found
    exact absurd found (by simpa using some)
  exact .leaf rfl (by simpa [List.length_pos_iff] using word) (rest_ne_nil_of_nameAt word)

theorem lays_name {kind : Kind} (proper : (kind == .comment) = false) : Lays [] (name kind) := by
  refine .toToken fun _ s => .look (.ite (fun _ => .miss) fun word => ?_)
  rw [List.isEmpty_iff] at word
  exact .leaf proper (List.length_pos_iff.mpr word) (rest_ne_nil_of_nameAt word)

theorem lays_nameBut {kind : Kind} {words : List String} (proper : (kind == .comment) = false) :
    Lays [] (nameBut kind words) := by
  refine .toToken fun _ s => .look (.ite (fun _ => .miss) fun word => ?_)
  simp only [Bool.or_eq_true, not_or, List.isEmpty_iff] at word
  exact .leaf proper (List.length_pos_iff.mpr word.1) (rest_ne_nil_of_nameAt word.1)

theorem lays_commaList1 {item : Reader Node} (h : Lays [] item) : Lays [] (commaList1 item) :=
  .seq h fun _ => .seq (.many (.seq (lays_symbol rfl) fun _ => .seq h fun _ =>
    .bare (by simp))) fun _ => .bare (by simp)

theorem ne_nil_of_commaList1 {item : Reader Node} {s s' : Input} {ns : List Node}
    (h : commaList1 item s = (some ns, s')) : ns ≠ [] := by
  obtain ⟨_, _, _, h⟩ := bind_eq_some.mp h
  obtain ⟨_, _, _, h⟩ := bind_eq_some.mp h
  cases h
  exact List.cons_ne_nil _ _

theorem lays_commaList {item : Reader Node} (h : Lays [] item) : Lays [] (commaList item) :=
  .optList (.seq h fun _ =>
    .seq (.many (.seq (lays_symbol rfl) fun _ => .seq h fun _ => .bare (by simp))) fun _ =>
    .seq (.opt (lays_symbol rfl)) fun _ => .bare (by simp))

/-! ### Literals -/

theorem lays_measured {kind : Kind} {length : List Char → Nat} (none : length [] = 0)
    (proper : (kind == .comment) = false) : Lays [] (measured kind length) := by
  refine fun _ s => .look (.ite (fun _ => .miss) fun some =>
    .leaf proper (Nat.pos_of_ne_zero some) ?_)
  intro nil
  exact some (nil ▸ none)

theorem lays_number : Lays [] number := .toToken (lays_measured rfl rfl)

theorem lays_immediate {c : Char} : Lays [] (immediate c) := by
  intro _ s
  refine .look ?_
  split
  case h_1 ahead =>
    exact .ite (fun _ => .leaf rfl Nat.one_pos (by simp [ahead])) fun _ => .miss
  case h_2 => exact .miss

theorem lays_stringTail {quote : Char} : Lays [] (stringTail quote) :=
  .seq (.many (.orElse (lays_measured rfl rfl) (lays_measured rfl rfl))) fun _ =>
    .seq lays_immediate fun _ => .bare (by simp)

theorem lays_string : Lays [] string := by
  refine .toToken fun _ s => .look ?_
  split
  case h_1 ahead =>
    exact .ite (fun _ => .seq (.leaf rfl Nat.one_pos (by simp [ahead])) fun _ =>
      .seq lays_stringTail fun _ => .branch (by simp)) fun _ => .miss
  case h_2 => exact .miss

theorem lays_substitution {inside : Reader Node} (h : Lays [] inside) :
    Lays [] (substitution inside) := by
  intro _ s
  refine .look ?_
  split
  case h_1 ahead =>
    exact .seq (.leaf rfl Nat.two_pos (by simp [ahead])) fun _ =>
      .seq h fun _ => .seq (lays_symbol rfl) fun _ => .branch (by simp)
  case h_2 => exact .miss

theorem lays_template {kind : Kind} {inside : Reader Node} (h : Lays [] inside)
    (proper : (kind == .comment) = false) : Lays [] (template kind inside) :=
  .toToken (.seq lays_immediate fun _ =>
    .seq (.many (.orElse (lays_measured rfl rfl) <| .orElse (lays_measured rfl rfl) <|
      lays_substitution h)) fun _ => .seq lays_immediate fun _ =>
    .branch ⟨by simp, by simp, proper, .inr (by simp)⟩)

theorem lays_regex : Lays [] regex := by
  refine .toToken fun _ s => .look ?_
  split
  case h_1 ahead =>
    split
    · exact .leaf rfl (by omega) (by simp [ahead])
    · exact .miss
  case h_2 => exact .miss

end Reader

end ParamSchema.Parse
