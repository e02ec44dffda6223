import Mathlib.Data.List.Basic
import ParamSchema.Json.Basic
import ParamSchema.Text.Digit

/-!
Reading JSON. The reader takes white space between all tokens, all escapes of strings, in which a
pair of surrogates is one code point, and integers of any size; numbers with a fraction or an
exponent it refuses. It reads the compact form of a value as the value
(`Json.read?_compact`) when no text of the value has a surrogate.
-/

namespace ParamSchema.Json

/-! ### The reader -/

def isSpace (c : CodePoint) : Bool :=
  c.val == 0x20 || c.val == 0x09 || c.val == 0x0A || c.val == 0x0D

/-- A text without the white space before it. -/
def skip (t : Text) : Text := t.dropWhile isSpace

/-- What stands behind a mark and the white space before it. -/
def mark? (c : CodePoint) (t : Text) : Option Text := Text.after? [c] (skip t)

/-- The code point of four hexadecimal digits, and what stands behind them. -/
def fourDigits? : Text → Option (CodePoint × Text)
  | a :: b :: c :: d :: rest => do
    let a ← a.digitValue? 16
    let b ← b.digitValue? 16
    let c ← c.digitValue? 16
    let d ← d.digitValue? 16
    let point ← CodePoint.ofNat? (((a * 16 + b) * 16 + c) * 16 + d)
    some (point, rest)
  | _ => none

/-- The code point of a short escape. -/
def shortEscape? (letter : CodePoint) : Option CodePoint :=
  if letter = chr '/' then some letter
  else (shortEscapes.find? (chr ·.2 = letter)).bind (CodePoint.ofNat? ·.1)

/-- The code point of an escape, from behind the backslash. -/
def escape? : Text → Option (CodePoint × Text)
  | [] => none
  | c :: rest =>
    if c = chr 'u' then fourDigits? rest else (shortEscape? c).map fun point => (point, rest)

/-- The code points up to the closing quote, and what stands behind it. -/
def characters? : Nat → Text → Option (Text × Text)
  | 0, _ => none
  | _ + 1, [] => none
  | n + 1, c :: rest =>
    if c = chr '\x22' then some ([], rest)
    else if c = chr '\\' then
      (escape? rest).bind fun escaped =>
        (characters? n escaped.2).map fun s => (escaped.1 :: s.1, s.2)
    else if c.val < 0x20 then none
    else (characters? n rest).map fun s => (c :: s.1, s.2)

/-- The code point of a pair of surrogates. -/
def pair? (high low : CodePoint) : Option CodePoint :=
  if 0xD800 ≤ high.val ∧ high.val < 0xDC00 ∧ 0xDC00 ≤ low.val ∧ low.val < 0xE000 then
    CodePoint.ofNat? (0x10000 + (high.val - 0xD800) * 0x400 + (low.val - 0xDC00))
  else none

/-- A text with its pairs of surrogates joined. -/
def joinPairs : Text → Text
  | [] => []
  | [c] => [c]
  | c :: d :: rest =>
    match pair? c d with
    | some point => point :: joinPairs rest
    | none => c :: joinPairs (d :: rest)

/-- A string, from behind its opening quote. -/
def string? (t : Text) : Option (Text × Text) :=
  (characters? t.length t).map fun s => (joinPairs s.1, s.2)

/-- The number that decimal digits spell. -/
def decimal (digits : Text) : Nat := digits.foldl (fun n c => 10 * n + (c.val - 0x30)) 0

/-- A number without a sign. No zero stands before other digits. -/
def natural? (t : Text) : Option (Nat × Text) :=
  let digits := t.takeWhile CodePoint.isAsciiDigit
  let rest := t.dropWhile CodePoint.isAsciiDigit
  if digits = [] ∨ (1 < digits.length ∧ digits.head? = some (chr '0')) ∨
      rest.head?.any (txt ".eE").contains then none
  else some (decimal digits, rest)

def integer? (t : Text) : Option (Int × Text) :=
  match Text.after? (txt "-") t with
  | some t => (natural? t).map fun n => (-n.1, n.2)
  | none => (natural? t).map fun n => (n.1, n.2)

section

variable {α : Type} (element : Text → Option (α × Text)) (close : CodePoint)

/-- One or more elements with commas between them, up to the closing mark. -/
def separated? : Nat → Text → Option (List α × Text)
  | 0, _ => none
  | n + 1, t =>
    (element t).bind fun a =>
      match mark? (chr ',') a.2 with
      | some rest => (separated? n rest).map fun as => (a.1 :: as.1, as.2)
      | none => (mark? close a.2).map fun rest => ([a.1], rest)

/-- Elements with commas between them, up to the closing mark. -/
def listed? (t : Text) : Option (List α × Text) :=
  match mark? close t with
  | some rest => some ([], rest)
  | none => separated? element close t.length t

end

/-- A member of an object. -/
def member? (value : Text → Option (Json × Text)) (t : Text) : Option ((Text × Json) × Text) := do
  let t ← mark? (chr '\x22') t
  let name ← string? t
  let t ← mark? (chr ':') name.2
  let json ← value t
  some ((name.1, json.1), json.2)

/-- A value, nested at most as deep as the bound, and what stands behind it. -/
def value? : Nat → Text → Option (Json × Text)
  | 0, _ => none
  | n + 1, t =>
    match skip t with
    | [] => none
    | c :: rest =>
      if c = chr '\x22' then (string? rest).map fun s => (.text s.1, s.2)
      else if c = chr '[' then
        (listed? (value? n) (chr ']') rest).map fun items => (.list items.1, items.2)
      else if c = chr '\x7b' then
        (listed? (member? (value? n)) (chr '\x7d') rest).map fun members =>
          (.object members.1, members.2)
      else if c = chr 'n' then (Text.after? (txt "ull") rest).map fun rest => (.null, rest)
      else if c = chr 't' then (Text.after? (txt "rue") rest).map fun rest => (.boolean true, rest)
      else if c = chr 'f' then
        (Text.after? (txt "alse") rest).map fun rest => (.boolean false, rest)
      else (integer? (c :: rest)).map fun n => (.integer n.1, n.2)

/-- The value that a text spells. -/
def read? (t : Text) : Option Json :=
  (value? t.length t).bind fun json => if skip json.2 = [] then some json.1 else none

/-! ### Marks -/

theorem after?_append (w t : Text) : Text.after? w (w ++ t) = some t := by
  simp [Text.after?]

theorem after?_cons_ne {c d : CodePoint} (h : c ≠ d) (t : Text) :
    Text.after? [c] (d :: t) = none := by
  simp [Text.after?, h]

theorem skip_cons {c : CodePoint} (h : isSpace c = false) (t : Text) : skip (c :: t) = c :: t := by
  simp [skip, h]

theorem mark?_cons {c : CodePoint} (h : isSpace c = false) (t : Text) :
    mark? c (c :: t) = some t := by
  rw [mark?, skip_cons h]
  exact after?_append [c] t

theorem mark?_cons_ne {c d : CodePoint} (h : isSpace d = false) (ne : c ≠ d) (t : Text) :
    mark? c (d :: t) = none := by
  rw [mark?, skip_cons h, after?_cons_ne ne]

/-! ### Strings -/

theorem digitValue?_hexDigit (n : Nat) : (hexDigit n).digitValue? 16 = some (n % 16) := by
  have all : ∀ k : Fin 16, (hexDigit k).digitValue? 16 = some k.val := by decide
  have := all ⟨n % 16, Nat.mod_lt n (by omega)⟩
  rwa [hexDigit, Nat.mod_mod, ← hexDigit] at this

theorem ofNat?_val (c : CodePoint) : CodePoint.ofNat? c.val = some c := by
  simp [CodePoint.ofNat?, c.isLt]

/-- An escape by number is read as the code point of the number. -/
theorem escape?_unicodeEscape {c : CodePoint} (h : c.val < 0x10000) (rest : Text) :
    escape? ((unicodeEscape c.val ++ rest).drop 1) = some (c, rest) := by
  have number : ((c.val / 4096 % 16 * 16 + c.val / 256 % 16) * 16 + c.val / 16 % 16) * 16 +
      c.val % 16 = c.val := by omega
  show fourDigits? (_ :: _ :: _ :: _ :: rest) = _
  simp only [fourDigits?, digitValue?_hexDigit, Option.bind_eq_bind, Option.bind_some, number,
    ofNat?_val]

/-- A short escape is read as the code point that it is written for. -/
theorem escape?_short {c : CodePoint} {letter : Char}
    (h : shortEscapes.lookup c.val = some letter) (rest : Text) :
    escape? (chr letter :: rest) = some (c, rest) := by
  have all : ∀ e ∈ shortEscapes,
      chr e.2 ≠ chr 'u' ∧ shortEscape? (chr e.2) = CodePoint.ofNat? e.1 := by decide
  obtain ⟨_, _, split, _⟩ := List.lookup_eq_some_iff.mp h
  obtain ⟨other, short⟩ := all (c.val, letter) (by simp [split])
  rw [escape?, if_neg other, short, ofNat?_val]
  rfl

/-- A code point that is written as it is. -/
theorem raw_of_lookup {c : CodePoint} (h : shortEscapes.lookup c.val = none) :
    c ≠ chr '\x22' ∧ c ≠ chr '\\' := by
  constructor
  · rintro rfl
    exact absurd h (by decide)
  · rintro rfl
    exact absurd h (by decide)

/-- A code point inside a string is read as itself. -/
theorem characters?_escaped (n : Nat) (c : CodePoint) (rest : Text) :
    characters? (n + 1) (escaped (fun c => [c]) c ++ rest) =
      (characters? n rest).map fun s => (c :: s.1, s.2) := by
  rw [escaped]
  split
  · next letter found =>
    show characters? (n + 1) (chr '\\' :: chr letter :: rest) = _
    rw [characters?, if_neg (by decide), if_pos rfl, escape?_short found]
    rfl
  · next raw =>
    obtain ⟨quote, backslash⟩ := raw_of_lookup raw
    split
    · next control =>
      show characters? (n + 1) (chr '\\' :: (unicodeEscape c.val ++ rest).drop 1) = _
      rw [characters?, if_neg (by decide), if_pos rfl, escape?_unicodeEscape (by omega)]
      rfl
    · next control =>
      rw [List.singleton_append, characters?, if_neg quote, if_neg backslash, if_neg control]

theorem characters?_quoted {n : Nat} {t : Text} (h : t.length < n) (rest : Text) :
    characters? n (t.flatMap (escaped fun c => [c]) ++ chr '\x22' :: rest) = some (t, rest) := by
  induction t generalizing n with
  | nil =>
    obtain ⟨m, rfl⟩ := Nat.exists_eq_add_of_lt h
    exact if_pos rfl
  | cons c t ih =>
    obtain ⟨m, rfl⟩ := Nat.exists_eq_add_one_of_ne_zero (Nat.ne_of_gt (Nat.zero_lt_of_lt h))
    have bound : t.length < m := Nat.lt_of_succ_lt_succ h
    rw [List.flatMap_cons, List.append_assoc, characters?_escaped, ih bound]
    rfl

theorem pair?_eq_none {c : CodePoint} (proper : c.isSurrogate = false) (d : CodePoint) :
    pair? c d = none := by
  rw [pair?, if_neg]
  intro h
  simp [CodePoint.isSurrogate] at proper
  omega

theorem joinPairs_of_proper {t : Text} (proper : t.hasSurrogate = false) : joinPairs t = t := by
  induction t using joinPairs.induct with
  | case1 => rfl
  | case2 c => rfl
  | case3 c d rest point found =>
    rw [Text.hasSurrogate, List.any_cons, Bool.or_eq_false_iff] at proper
    rw [pair?_eq_none proper.1] at found
    cases found
  | case4 c d rest none ih =>
    rw [Text.hasSurrogate, List.any_cons, Bool.or_eq_false_iff] at proper
    rw [joinPairs, none]
    exact congrArg (c :: ·) (ih proper.2)

theorem escaped_ne_nil (c : CodePoint) : escaped (fun c => [c]) c ≠ [] := by
  rw [escaped]
  split
  · simp
  · split <;> simp [unicodeEscape]

theorem length_le_escaped (t : Text) : t.length ≤ (t.flatMap (escaped fun c => [c])).length := by
  induction t with
  | nil => exact Nat.le_refl _
  | cons c t ih =>
    have one := List.length_pos_iff.mpr (escaped_ne_nil c)
    rw [List.flatMap_cons, List.length_append, List.length_cons]
    omega

/-- A text between quotes is read as the text. -/
theorem string?_quoted {t : Text} (proper : t.hasSurrogate = false) (rest : Text) :
    string? ((quotedRaw t).drop 1 ++ rest) = some (t, rest) := by
  have form : (quotedRaw t).drop 1 ++ rest =
      t.flatMap (escaped fun c => [c]) ++ chr '\x22' :: rest := by
    simp [quotedRaw, quoted]
  have bound : t.length < (t.flatMap (escaped fun c => [c]) ++ chr '\x22' :: rest).length := by
    have := length_le_escaped t
    rw [List.length_append, List.length_cons]
    omega
  rw [form, string?, characters?_quoted bound, Option.map_some, joinPairs_of_proper proper]

/-! ### Integers -/

/-- A text that can follow a value: nothing, or a mark between or behind values. -/
def Follows (rest : Text) : Prop := ∀ c ∈ rest.head?, c ∈ txt ",]\x7d"

theorem isAsciiDigit_of_mem {n : Nat} {c : CodePoint} (h : c ∈ Text.ofNat n) :
    c.isAsciiDigit = true := by
  obtain ⟨digit, mem, rfl⟩ := List.mem_map.mp h
  have := Nat.isDigit_of_mem_toDigits (by decide) (by decide) mem
  simp only [Char.isDigit, Bool.and_eq_true, decide_eq_true_eq, ge_iff_le,
    UInt32.le_iff_toNat_le] at this
  simp only [CodePoint.isAsciiDigit, Bool.and_eq_true, decide_eq_true_eq]
  exact this

theorem decimal_ofNat (n : Nat) : decimal (Text.ofNat n) = n := by
  have digits : decimal (Text.ofNat n) = Nat.ofDigitChars 10 (Nat.toDigits 10 n) 0 :=
    List.foldl_map
  rw [digits]
  exact Nat.ofDigitChars_toDigits (by decide) (by decide)

/-- No zero stands before the digits of a positive number. -/
theorem head?_toDigits_ne {n : Nat} (h : 0 < n) : (Nat.toDigits 10 n).head? ≠ some '0' := by
  induction n using Nat.strongRecOn with
  | ind n ih =>
    by_cases small : n < 10
    · have all : ∀ d : Fin 10, 0 < d.val → Nat.digitChar d ≠ '0' := by decide
      rw [Nat.toDigits_of_lt_base small, List.head?_cons]
      intro eq
      exact all ⟨n, small⟩ h (Option.some.inj eq)
    · rw [Nat.toDigits_of_base_le (by decide) (by omega),
        List.head?_append_of_ne_nil _ Nat.toDigits_ne_nil]
      exact ih (n / 10) (by omega) (by omega)

/-- What is taken and what is left when only the first part of a text goes on with digits. -/
theorem takeWhile_ofNat (n : Nat) {rest : Text} (stop : ∀ c ∈ rest.head?, c.isAsciiDigit = false) :
    (Text.ofNat n ++ rest).takeWhile CodePoint.isAsciiDigit = Text.ofNat n ∧
      (Text.ofNat n ++ rest).dropWhile CodePoint.isAsciiDigit = rest := by
  rw [List.takeWhile_append_of_pos fun c => isAsciiDigit_of_mem,
    List.dropWhile_append_of_pos fun c => isAsciiDigit_of_mem]
  cases rest with
  | nil => simp
  | cons c rest => simp [stop c rfl]

theorem leadingZero_ofNat (n : Nat) :
    ¬ (1 < (Text.ofNat n).length ∧ (Text.ofNat n).head? = some (chr '0')) := by
  rintro ⟨long, zero⟩
  rw [Text.ofNat, Text.ofChars, List.head?_map, Option.map_eq_some_iff] at zero
  obtain ⟨d, head, eq⟩ := zero
  have digit : d = '0' := by
    have val := congrArg CodePoint.val eq
    exact Char.toNat_inj.mp val
  cases n with
  | zero => exact absurd long (by decide)
  | succ n => exact head?_toDigits_ne (Nat.succ_pos n) (digit ▸ head)

theorem ofNat_ne_nil (n : Nat) : Text.ofNat n ≠ [] := by
  simp [Text.ofNat, Text.ofChars, Nat.toDigits_ne_nil]

theorem natural?_ofNat (n : Nat) {rest : Text} (follows : Follows rest) :
    natural? (Text.ofNat n ++ rest) = some (n, rest) := by
  have marks : ∀ c ∈ txt ",]\x7d", c.isAsciiDigit = false ∧ (txt ".eE").contains c = false := by
    decide
  obtain ⟨digits, behind⟩ := takeWhile_ofNat n fun c mem => (marks c (follows c mem)).1
  have whole : ¬ (rest.head?.any (txt ".eE").contains = true) := by
    intro fraction
    obtain ⟨c, mem, more⟩ := (Option.any_eq_true ..).mp fraction
    rw [(marks c (follows c mem)).2] at more
    cases more
  rw [natural?, digits, behind, decimal_ofNat, if_neg]
  rintro (empty | zero | fraction)
  · exact ofNat_ne_nil n empty
  · exact leadingZero_ofNat n zero
  · exact whole fraction

/-- An integer in decimal digits is read as the integer. -/
theorem integer?_ofInt (n : Int) {rest : Text} (follows : Follows rest) :
    integer? (Text.ofInt n ++ rest) = some (n, rest) := by
  cases n with
  | ofNat n =>
    have unsigned : Text.after? (txt "-") (Text.ofNat n ++ rest) = none := by
      obtain ⟨c, digits, form⟩ := List.exists_cons_of_ne_nil (ofNat_ne_nil n)
      have digit : c.isAsciiDigit = true := isAsciiDigit_of_mem (form ▸ List.mem_cons_self)
      rw [form]
      apply after?_cons_ne
      rintro rfl
      exact absurd digit (by decide)
    rw [Text.ofInt, integer?, unsigned]
    show (natural? (Text.ofNat n ++ rest)).map _ = _
    rw [natural?_ofNat n follows]
    rfl
  | negSucc n =>
    have signed : Text.after? (txt "-") (Text.ofInt (.negSucc n) ++ rest) =
        some (Text.ofNat (n + 1) ++ rest) := after?_append _ _
    rw [integer?, signed]
    show (natural? (Text.ofNat (n + 1) ++ rest)).map _ = _
    rw [natural?_ofNat (n + 1) follows]
    rfl

/-! ### Lists and objects -/

theorem follows_nil : Follows [] := nofun

theorem follows_cons {c : CodePoint} (h : c ∈ txt ",]\x7d") (rest : Text) :
    Follows (c :: rest) := by
  intro d mem
  rwa [← Option.some.inj mem]

/-- A text that begins as a value or as a name does. -/
def Begins (t : Text) : Prop :=
  ∃ c rest, t = c :: rest ∧ isSpace c = false ∧ c ≠ chr ']' ∧ c ≠ chr '\x7d'

theorem Begins.skip_append {t : Text} (h : Begins t) (rest : Text) :
    skip (t ++ rest) = t ++ rest := by
  obtain ⟨c, t, rfl, space, _⟩ := h
  exact skip_cons space _

theorem Begins.mark?_eq_none {t : Text} (h : Begins t) {close : CodePoint}
    (closes : close = chr ']' ∨ close = chr '\x7d') (rest : Text) :
    mark? close (t ++ rest) = none := by
  obtain ⟨c, t, rfl, space, bracket, brace⟩ := h
  apply mark?_cons_ne space
  rcases closes with rfl | rfl
  · exact bracket.symm
  · exact brace.symm

theorem joinWith_cons (part : Text) (parts : List Text) :
    ∃ rest, Text.joinWith (txt ",") (part :: parts) = part ++ rest := by
  cases parts with
  | nil => exact ⟨[], (List.append_nil part).symm⟩
  | cons next parts => exact ⟨_, List.append_assoc ..⟩

section

variable {α : Type} {element : Text → Option (α × Text)} {write : α → Text} {close : CodePoint}

/-- Elements with commas between them are read as the elements, if each is. -/
theorem separated?_joinWith (closes : close = chr ']' ∨ close = chr '\x7d') {items : List α}
    (reads : ∀ a ∈ items, ∀ rest, Follows rest → element (write a ++ rest) = some (a, rest))
    {n : Nat} (some_ : items ≠ []) (bound : items.length ≤ n) (rest : Text) :
    separated? element close n (Text.joinWith (txt ",") (items.map write) ++ close :: rest) =
      some (items, rest) := by
  have space : isSpace close = false := by rcases closes with rfl | rfl <;> decide
  have mark : close ∈ txt ",]\x7d" := by rcases closes with rfl | rfl <;> decide
  have comma : chr ',' ≠ close := by rcases closes with rfl | rfl <;> decide
  induction items generalizing n with
  | nil => exact absurd rfl some_
  | cons a items ih =>
    obtain ⟨m, rfl⟩ := Nat.exists_eq_add_one_of_ne_zero (Nat.ne_of_gt (Nat.zero_lt_of_lt bound))
    have first := reads a List.mem_cons_self
    cases items with
    | nil =>
      show separated? element close (m + 1) (write a ++ close :: rest) = some ([a], rest)
      rw [separated?, first _ (follows_cons mark rest), Option.bind_some,
        mark?_cons_ne space comma]
      show (mark? close (close :: rest)).map _ = _
      rw [mark?_cons space]
      rfl
    | cons b items =>
      have others := ih (fun c mem => reads c (List.mem_cons_of_mem _ mem)) (by simp)
        (Nat.le_of_succ_le_succ bound)
      have form : Text.joinWith (txt ",") ((a :: b :: items).map write) ++ close :: rest =
          write a ++ chr ',' ::
            (Text.joinWith (txt ",") ((b :: items).map write) ++ close :: rest) := by
        simp [Text.joinWith, txt, Text.ofString, Text.ofChars]
      rw [form, separated?, first _ (follows_cons (by decide) _), Option.bind_some,
        mark?_cons (by decide)]
      show (separated? element close m _).map _ = _
      rw [others]
      rfl

theorem length_le_joinWith (parts : List Text) :
    parts.length ≤ (Text.joinWith (txt ",") parts).length + 1 := by
  induction parts using Text.joinWith.induct with
  | case1 => exact Nat.zero_le _
  | case2 part => exact Nat.le_add_left 1 _
  | case3 part parts more ih =>
    have comma : (txt ",").length = 1 := rfl
    rw [Text.joinWith.eq_3 _ part parts more, List.length_append, List.length_append,
      List.length_cons, comma]
    omega

theorem listed?_joinWith (closes : close = chr ']' ∨ close = chr '\x7d') {items : List α}
    (begins : ∀ a ∈ items, Begins (write a))
    (reads : ∀ a ∈ items, ∀ rest, Follows rest → element (write a ++ rest) = some (a, rest))
    (rest : Text) :
    listed? element close (Text.joinWith (txt ",") (items.map write) ++ close :: rest) =
      some (items, rest) := by
  have space : isSpace close = false := by rcases closes with rfl | rfl <;> decide
  cases items with
  | nil =>
    show listed? element close (close :: rest) = _
    rw [listed?, mark?_cons space]
  | cons a items =>
    have open_ : mark? close (Text.joinWith (txt ",") ((a :: items).map write) ++ close :: rest) =
        none := by
      obtain ⟨behind, form⟩ := joinWith_cons (write a) (items.map write)
      rw [List.map_cons, form, List.append_assoc]
      exact (begins a List.mem_cons_self).mark?_eq_none closes _
    have bound : (a :: items).length ≤
        (Text.joinWith (txt ",") ((a :: items).map write) ++ close :: rest).length := by
      have := length_le_joinWith ((a :: items).map write)
      simp only [List.length_map, List.length_append, List.length_cons] at this ⊢
      omega
    rw [listed?, open_]
    exact separated?_joinWith closes reads (List.cons_ne_nil _ _) bound rest

end

/-! ### Values -/

theorem compactItems_eq (items : List Json) : compactItems items = items.map compact := by
  induction items with
  | nil => rfl
  | cons item items ih => rw [compactItems, ih, List.map_cons]

/-- The written form of a member. -/
def compactMember (m : Text × Json) : Text := quotedRaw m.1 ++ txt ":" ++ compact m.2

theorem compactMembers_eq (members : List (Text × Json)) :
    compactMembers members = members.map compactMember := by
  induction members with
  | nil => rfl
  | cons m members ih => rw [compactMembers, ih, List.map_cons, compactMember]

theorem sublist_joinWith {part : Text} {parts : List Text} (h : part ∈ parts) :
    part.Sublist (Text.joinWith (txt ",") parts) := by
  induction parts with
  | nil => cases h
  | cons first parts ih =>
    cases parts with
    | nil =>
      rw [List.mem_singleton.mp h]
      exact .refl _
    | cons next parts =>
      rw [Text.joinWith.eq_3 _ first (next :: parts) (by simp)]
      rcases List.mem_cons.mp h with rfl | h
      · rw [List.append_assoc]
        exact List.sublist_append_left ..
      · exact (ih h).trans (List.sublist_append_right ..)

theorem hasSurrogate_of_sublist {s t : Text} (h : s.Sublist t) (proper : t.hasSurrogate = false) :
    s.hasSurrogate = false := by
  rw [Text.hasSurrogate, List.any_eq_false] at proper ⊢
  intro c mem
  exact proper c (h.subset mem)

/-- The first code point of an integer. -/
def IntegerLead (c : CodePoint) : Prop := c.isAsciiDigit = true ∨ c = chr '-'

theorem IntegerLead.ne {c d : CodePoint} (lead : IntegerLead c) (digit : d.isAsciiDigit = false)
    (sign : d ≠ chr '-') : c ≠ d := by
  rintro rfl
  rcases lead with h | h
  · rw [digit] at h
    cases h
  · exact sign h

theorem exists_lead_ofInt (n : Int) : ∃ c rest, Text.ofInt n = c :: rest ∧ IntegerLead c := by
  cases n with
  | ofNat n =>
    obtain ⟨c, rest, form⟩ := List.exists_cons_of_ne_nil (ofNat_ne_nil n)
    exact ⟨c, rest, form, .inl (isAsciiDigit_of_mem (form ▸ List.mem_cons_self))⟩
  | negSucc n => exact ⟨_, _, rfl, .inr rfl⟩

theorem isSpace_of_lead {c : CodePoint} (lead : IntegerLead c) : isSpace c = false := by
  rcases lead with digit | rfl
  · simp only [CodePoint.isAsciiDigit, Bool.and_eq_true, decide_eq_true_eq] at digit
    simp only [isSpace, Bool.or_eq_false_iff, beq_eq_false_iff_ne]
    omega
  · decide

theorem begins_compact (j : Json) : Begins (compact j) := by
  cases j with
  | null => exact ⟨_, _, rfl, by decide⟩
  | boolean b => cases b <;> exact ⟨_, _, rfl, by decide⟩
  | integer n =>
    obtain ⟨c, rest, form, lead⟩ := exists_lead_ofInt n
    exact ⟨c, rest, form, isSpace_of_lead lead, lead.ne (by decide) (by decide),
      lead.ne (by decide) (by decide)⟩
  | text t => exact ⟨_, _, rfl, by decide⟩
  | list items => exact ⟨_, _, rfl, by decide⟩
  | object members => exact ⟨_, _, rfl, by decide⟩

theorem begins_compactMember (m : Text × Json) : Begins (compactMember m) :=
  ⟨_, _, rfl, by decide⟩

theorem compact_list (items : List Json) (rest : Text) :
    compact (.list items) ++ rest =
      chr '[' :: (Text.joinWith (txt ",") (items.map compact) ++ chr ']' :: rest) := by
  simp [compact, compactItems_eq, txt, Text.ofString, Text.ofChars]

theorem compact_object (members : List (Text × Json)) (rest : Text) :
    compact (.object members) ++ rest =
      chr '\x7b' ::
        (Text.joinWith (txt ",") (members.map compactMember) ++ chr '\x7d' :: rest) := by
  simp [compact, compactMembers_eq, txt, Text.ofString, Text.ofChars]

theorem cons_sublist_list {item : Json} {items : List Json} (mem : item ∈ items) :
    (chr '[' :: compact item).Sublist (compact (.list items)) := by
  rw [← List.append_nil (compact (.list items)), compact_list]
  apply List.Sublist.cons_cons
  exact (sublist_joinWith (List.mem_map_of_mem mem)).trans (List.sublist_append_left ..)

theorem cons_sublist_object {m : Text × Json} {members : List (Text × Json)} (mem : m ∈ members) :
    (chr '\x7b' :: compactMember m).Sublist (compact (.object members)) := by
  rw [← List.append_nil (compact (.object members)), compact_object]
  apply List.Sublist.cons_cons
  exact (sublist_joinWith (List.mem_map_of_mem mem)).trans (List.sublist_append_left ..)

/-- A member is read, if its value is. -/
theorem member?_compactMember {value : Text → Option (Json × Text)} {m : Text × Json} {rest : Text}
    (proper : m.1.hasSurrogate = false)
    (read : value (compact m.2 ++ rest) = some (m.2, rest)) :
    member? value (compactMember m ++ rest) = some (m, rest) := by
  have form : compactMember m ++ rest =
      chr '\x22' :: ((quotedRaw m.1).drop 1 ++ chr ':' :: (compact m.2 ++ rest)) := by
    simp [compactMember, quotedRaw, quoted, txt, Text.ofString, Text.ofChars]
  rw [form, member?, mark?_cons (by decide), Option.bind_eq_bind, Option.bind_some,
    string?_quoted proper, Option.bind_eq_bind, Option.bind_some, mark?_cons (by decide),
    Option.bind_eq_bind, Option.bind_some, read]
  rfl

/-- A surrogate is written as it is. -/
theorem hasSurrogate_of_quotedRaw {t : Text} (proper : (quotedRaw t).hasSurrogate = false) :
    t.hasSurrogate = false := by
  rw [Text.hasSurrogate, List.any_eq_false] at proper ⊢
  intro c mem surrogate
  have range : 0xD800 ≤ c.val := by
    simp only [CodePoint.isSurrogate, Bool.and_eq_true, decide_eq_true_eq] at surrogate
    exact surrogate.1
  have plain : shortEscapes.lookup c.val = none := by
    have all : ∀ e ∈ shortEscapes, e.1 < 0xD800 := by decide
    rw [List.lookup_eq_none_iff]
    intro e he
    exact bne_iff_ne.mpr (Nat.ne_of_gt (Nat.lt_of_lt_of_le (all e he) range))
  have written : c ∈ escaped (fun c => [c]) c := by
    rw [escaped, plain]
    show c ∈ if c.val < 0x20 then _ else [c]
    rw [if_neg (by omega)]
    exact List.mem_singleton_self c
  apply proper c _ surrogate
  simp only [quotedRaw, quoted, List.mem_append, List.mem_flatMap]
  exact .inl (.inr ⟨c, mem, written⟩)

/-- The compact form of a value is read as the value. -/
theorem value?_compact {n : Nat} {j : Json} {rest : Text} (bound : (compact j).length ≤ n)
    (proper : (compact j).hasSurrogate = false) (follows : Follows rest) :
    value? n (compact j ++ rest) = some (j, rest) := by
  induction n generalizing j rest with
  | zero =>
    obtain ⟨c, behind, form, _⟩ := begins_compact j
    rw [form] at bound
    cases bound
  | succ n ih =>
    rw [value?, (begins_compact j).skip_append]
    cases j with
    | null => rfl
    | boolean b => cases b <;> rfl
    | integer m =>
      obtain ⟨c, behind, form, lead⟩ := exists_lead_ofInt m
      have read := integer?_ofInt m follows
      rw [form] at read
      rw [compact, form]
      show ite _ _ _ = _
      rw [if_neg (lead.ne (by decide) (by decide)), if_neg (lead.ne (by decide) (by decide)),
        if_neg (lead.ne (by decide) (by decide)), if_neg (lead.ne (by decide) (by decide)),
        if_neg (lead.ne (by decide) (by decide)), if_neg (lead.ne (by decide) (by decide))]
      exact congrArg (Option.map _) read
    | text t =>
      rw [compact]
      show (string? ((quotedRaw t).drop 1 ++ rest)).map _ = _
      rw [string?_quoted (hasSurrogate_of_quotedRaw proper)]
      rfl
    | list items =>
      have reads : ∀ item ∈ items, ∀ rest, Follows rest →
          value? n (compact item ++ rest) = some (item, rest) := by
        intro item mem rest follows
        have part := cons_sublist_list mem
        have shorter : (compact item).length ≤ n :=
          Nat.le_of_succ_le_succ (Nat.le_trans part.length_le bound)
        exact ih shorter (hasSurrogate_of_sublist ((List.sublist_cons_self ..).trans part) proper)
          follows
      rw [compact_list]
      show (listed? (value? n) (chr ']') _).map _ = _
      rw [listed?_joinWith (.inl rfl) (fun item _ => begins_compact item) reads]
      rfl
    | object members =>
      have reads : ∀ m ∈ members, ∀ rest, Follows rest →
          member? (value? n) (compactMember m ++ rest) = some (m, rest) := by
        intro m mem rest follows
        have part := cons_sublist_object mem
        have written := hasSurrogate_of_sublist ((List.sublist_cons_self ..).trans part) proper
        have named : (quotedRaw m.1).Sublist (compactMember m) := by
          rw [compactMember, List.append_assoc]
          exact List.sublist_append_left ..
        have valued : (compact m.2).Sublist (compactMember m) := List.sublist_append_right ..
        have shorter : (compact m.2).length ≤ n :=
          Nat.le_trans valued.length_le (Nat.le_of_succ_le_succ (Nat.le_trans part.length_le bound))
        apply member?_compactMember
        · exact hasSurrogate_of_quotedRaw (hasSurrogate_of_sublist named written)
        · exact ih shorter (hasSurrogate_of_sublist valued written) follows
      rw [compact_object]
      show (listed? (member? (value? n)) (chr '\x7d') _).map _ = _
      rw [listed?_joinWith (.inr rfl) (fun m _ => begins_compactMember m) reads]
      rfl

/-- A value is read back from its compact form. -/
theorem read?_compact {j : Json} (proper : (compact j).hasSurrogate = false) :
    read? (compact j) = some j := by
  have read := value?_compact (Nat.le_refl _) proper follows_nil
  rw [List.append_nil] at read
  rw [read?, read]
  rfl

example : (read? (txt "[ \"\\/\\uD83D\\uDE00\" ,\t-12, \x7b\"a\" : true\x7d ]\n")).map compact =
    some (txt "[\"/😀\",-12,\x7b\"a\":true\x7d]") := by decide +kernel

end ParamSchema.Json
