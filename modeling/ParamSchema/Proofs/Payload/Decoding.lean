import ParamSchema.Payload.Written
import ParamSchema.Proofs.Json.Reading
import ParamSchema.Proofs.Payload.Bytes
import ParamSchema.Proofs.Table

/-!
Reading payloads back. The payload of any declarations without surrogates can be written, and what
is written is read as the payload itself, through base64, UTF-8 and JSON
(`Payload.decode_undoes_encode`). A member that is left out is read as no value.
-/

namespace ParamSchema

/-! ### Written texts without surrogates -/

namespace Text

@[simp] theorem hasSurrogate_append (s t : Text) :
    Text.hasSurrogate (s ++ t) = (s.hasSurrogate || t.hasSurrogate) := List.any_append

theorem hasSurrogate_joinWith {parts : List Text}
    (proper : ∀ part ∈ parts, part.hasSurrogate = false) :
    Text.hasSurrogate (joinWith (txt ",") parts) = false := by
  induction parts using joinWith.induct with
  | case1 => rfl
  | case2 part => exact proper part (List.mem_singleton_self part)
  | case3 part parts more ih =>
    rw [joinWith.eq_3 _ part parts more, hasSurrogate_append, hasSurrogate_append,
      proper part List.mem_cons_self, ih fun part mem => proper part (List.mem_cons_of_mem _ mem)]
    rfl

end Text

namespace Json

mutual

/-- The texts of a value, names included. -/
def texts : Json → List Text
  | .null => []
  | .boolean _ => []
  | .integer _ => []
  | .text t => [t]
  | .list items => textsOfItems items
  | .object members => textsOfMembers members

def textsOfItems : List Json → List Text
  | [] => []
  | item :: rest => texts item ++ textsOfItems rest

def textsOfMembers : List (Text × Json) → List Text
  | [] => []
  | (name, value) :: rest => name :: texts value ++ textsOfMembers rest

end

theorem isSurrogate_of_val_lt {c : CodePoint} (h : c.val < 0x80) : c.isSurrogate = false := by
  simp only [CodePoint.isSurrogate, Bool.and_eq_false_iff, decide_eq_false_iff_not]
  omega

theorem hasSurrogate_unicodeEscape (n : Nat) : (unicodeEscape n).hasSurrogate = false := by
  have digit : ∀ n, (hexDigit n).isSurrogate = false := by
    intro n
    have all : ∀ k : Fin 16, (hexDigit k).isSurrogate = false := by decide
    have := all ⟨n % 16, Nat.mod_lt n (by omega)⟩
    rwa [hexDigit, Nat.mod_mod, ← hexDigit] at this
  have front : (txt "\\u").hasSurrogate = false := by decide
  rw [unicodeEscape, Text.hasSurrogate_append, front]
  simp [Text.hasSurrogate, digit]

/-- A code point is written with itself or with ASCII. -/
theorem hasSurrogate_escaped {c : CodePoint} (proper : c.isSurrogate = false) :
    (escaped (fun c => [c]) c).hasSurrogate = false := by
  rw [escaped]
  split
  · next letter found =>
    have all : ∀ e ∈ shortEscapes, Text.hasSurrogate [chr '\\', chr e.2] = false := by decide
    obtain ⟨_, _, split, _⟩ := List.lookup_eq_some_iff.mp found
    exact all (c.val, letter) (by simp [split])
  · split
    · exact hasSurrogate_unicodeEscape c.val
    · simp [Text.hasSurrogate, proper]

theorem hasSurrogate_quotedRaw {t : Text} (proper : t.hasSurrogate = false) :
    (quotedRaw t).hasSurrogate = false := by
  have inner : Text.hasSurrogate (t.flatMap (escaped fun c => [c])) = false := by
    rw [Text.hasSurrogate, List.any_eq_false] at proper ⊢
    intro d mem
    obtain ⟨c, hc, hd⟩ := List.mem_flatMap.mp mem
    have written := hasSurrogate_escaped (Bool.eq_false_iff.mpr (proper c hc))
    rw [Text.hasSurrogate, List.any_eq_false] at written
    exact written d hd
  rw [quotedRaw, quoted, Text.hasSurrogate_append, Text.hasSurrogate_append, inner]
  rfl

theorem hasSurrogate_ofInt (n : Int) : (Text.ofInt n).hasSurrogate = false := by
  have digits : ∀ n, (Text.ofNat n).hasSurrogate = false := by
    intro n
    rw [Text.hasSurrogate, List.any_eq_false]
    intro c mem
    have digit := isAsciiDigit_of_mem mem
    simp only [CodePoint.isAsciiDigit, Bool.and_eq_true, decide_eq_true_eq] at digit
    rw [isSurrogate_of_val_lt (by omega)]
    exact Bool.false_ne_true
  cases n with
  | ofNat n => exact digits n
  | negSucc n => exact digits (n + 1)

mutual

/-- What is written has no surrogates beyond those of the texts. -/
theorem hasSurrogate_compact : (j : Json) → (∀ t ∈ texts j, t.hasSurrogate = false) →
    (compact j).hasSurrogate = false
  | .null, _ => by decide
  | .boolean b, _ => by cases b <;> decide
  | .integer n, _ => hasSurrogate_ofInt n
  | .text t, proper => hasSurrogate_quotedRaw (proper t (List.mem_singleton_self t))
  | .list items, proper => by
    have parts := Text.hasSurrogate_joinWith (hasSurrogate_compactItems items proper)
    rw [compact, Text.hasSurrogate_append, Text.hasSurrogate_append, parts]
    rfl
  | .object members, proper => by
    have parts := Text.hasSurrogate_joinWith (hasSurrogate_compactMembers members proper)
    rw [compact, Text.hasSurrogate_append, Text.hasSurrogate_append, parts]
    rfl

theorem hasSurrogate_compactItems : (items : List Json) →
    (∀ t ∈ textsOfItems items, t.hasSurrogate = false) →
    ∀ part ∈ compactItems items, part.hasSurrogate = false
  | [], _ => nofun
  | item :: rest, proper => by
    intro part mem
    rw [textsOfItems] at proper
    rcases List.mem_cons.mp mem with rfl | mem
    · exact hasSurrogate_compact item fun t ht => proper t (List.mem_append_left _ ht)
    · exact hasSurrogate_compactItems rest (fun t ht => proper t (List.mem_append_right _ ht))
        part mem

theorem hasSurrogate_compactMembers : (members : List (Text × Json)) →
    (∀ t ∈ textsOfMembers members, t.hasSurrogate = false) →
    ∀ part ∈ compactMembers members, part.hasSurrogate = false
  | [], _ => nofun
  | (name, value) :: rest, proper => by
    intro part mem
    rw [textsOfMembers] at proper
    rcases List.mem_cons.mp mem with rfl | mem
    · have written := hasSurrogate_compact value fun t ht =>
        proper t (List.mem_append_left _ (List.mem_cons_of_mem _ ht))
      have named := hasSurrogate_quotedRaw (proper name (by simp))
      rw [Text.hasSurrogate_append, Text.hasSurrogate_append, written, named]
      rfl
    · exact hasSurrogate_compactMembers rest (fun t ht => proper t (List.mem_append_right _ ht))
        part mem

end

/-- A value none of whose texts has a surrogate. -/
def Proper (j : Json) : Prop := ∀ t ∈ j.texts, t.hasSurrogate = false

theorem proper_text {t : Text} (h : t.hasSurrogate = false) : Proper (.text t) := by
  intro s mem
  rwa [List.mem_singleton.mp mem]

theorem proper_list {items : List Json} (h : ∀ item ∈ items, item.Proper) :
    Proper (.list items) := by
  have all : ∀ t ∈ textsOfItems items, t.hasSurrogate = false := by
    induction items with
    | nil => exact nofun
    | cons item items ih =>
      intro t mem
      rcases List.mem_append.mp mem with mem | mem
      · exact h item List.mem_cons_self t mem
      · exact ih (fun item hi => h item (List.mem_cons_of_mem _ hi)) t mem
  exact all

theorem proper_object {members : List (Text × Json)}
    (h : ∀ m ∈ members, m.1.hasSurrogate = false ∧ m.2.Proper) : Proper (.object members) := by
  have all : ∀ t ∈ textsOfMembers members, t.hasSurrogate = false := by
    induction members with
    | nil => exact nofun
    | cons m members ih =>
      obtain ⟨named, valued⟩ := h m List.mem_cons_self
      intro t mem
      rcases List.mem_append.mp mem with mem | mem
      · rcases List.mem_cons.mp mem with rfl | mem
        · exact named
        · exact valued t mem
      · exact ih (fun m hm => h m (List.mem_cons_of_mem _ hm)) t mem
  exact all

end Json

/-! ### Records from JSON -/

namespace Json

def text? : Json → Option Text
  | .text t => some t
  | _ => none

def boolean? : Json → Option Bool
  | .boolean b => some b
  | _ => none

def wholeNumber? : Json → Option Int
  | .integer n => some n
  | _ => none

/-- A list whose items can all be read. -/
def listOf? {α : Type} (item : Json → Option α) : Json → Option (List α)
  | .list items => items.mapM item
  | _ => none

def isNull : Json → Bool
  | .null => true
  | _ => false

/-- The members of an object. -/
def members? : Json → Option (List (Text × Json))
  | .object members => some members
  | _ => none

end Json

namespace Payload

section

variable {α : Type} (read : Json → Option α) (members : List (Text × Json)) (name : String)

/-- A member that has to be there. -/
def needed? : Option α := (members.lookup (txt name)).bind read

/-- A member that may be left out, or be null. -/
def optional? : Option (Option α) := ((members.lookup (txt name)).filter (!·.isNull)).mapM read

end

open Json in
def parameter? (json : Json) : Option Parameter := do
  let members ← json.members?
  let name ← needed? text? members "name"
  let type ← needed? text? members "type"
  let required ← needed? boolean? members "required"
  let default ← optional? text? members "default_value"
  let values ← optional? (listOf? text?) members "available_values"
  let description ← optional? text? members "description"
  some ⟨name, type, required, default, values, description⟩

open Json in
/-- The payload that a value stands for. -/
def ofJson? (json : Json) : Option Payload := do
  let members ← json.members?
  let isParametersRequired ← needed? boolean? members "isParametersRequired"
  let parameters ← needed? (listOf? parameter?) members "parameters"
  let hostname ← optional? text? members "hostname"
  let scriptId ← optional? wholeNumber? members "customScriptId"
  let scriptName ← optional? text? members "customScriptName"
  some ⟨isParametersRequired, parameters, hostname, scriptId, scriptName⟩

/-- The payload in base64, UTF-8 and JSON. -/
def decode? (t : Text) : Option Payload := do
  let digits ← t.toChars?
  let bytes ← Base64.decode? digits
  let text ← Utf8.decode? bytes
  let json ← Json.read? text
  ofJson? json

/-! ### Members -/

theorem txt_inj {a b : String} : txt a = txt b ↔ a = b := by
  constructor
  · intro h
    have injective : Function.Injective CodePoint.ofChar := by
      intro c d eq
      exact Char.toNat_inj.mp (congrArg CodePoint.val eq)
    exact String.toList_inj.mp (List.map_injective_iff.mpr injective h)
  · rintro rfl
    rfl

theorem lookup_txt_cons (name other : String) (json : Json) (rest : List (Text × Json)) :
    ((txt other, json) :: rest).lookup (txt name) =
      if name = other then some json else rest.lookup (txt name) := by
  rw [List.lookup_cons]
  by_cases same : name = other
  · simp [same]
  · rw [if_neg same, beq_false_of_ne (mt txt_inj.mp same)]

section

variable {α : Type} {json : α → Json} {read : Json → Option α} {value : Option α}

theorem lookup_member (name other : String) :
    (member other json value).lookup (txt name) =
      if name = other then value.map json else none := by
  cases value with
  | none => exact (ite_self _).symm
  | some v => exact lookup_txt_cons name other (json v) []

variable {members : List (Text × Json)} {name : String} (reads : ∀ a, read (json a) = some a)

include reads

theorem needed?_of_lookup {a : α} (found : members.lookup (txt name) = some (json a)) :
    needed? read members name = some a := by
  rw [needed?, found, Option.bind_some, reads]

/-- What is written for an optional member is read as its value. -/
theorem optional?_of_lookup (proper : ∀ a, (json a).isNull = false)
    (found : members.lookup (txt name) = value.map json) :
    optional? read members name = some value := by
  rw [optional?, found]
  cases value with
  | none => rfl
  | some a =>
    rw [Option.map_some, Option.filter_some, if_pos (by rw [proper]; rfl)]
    show some <$> read (json a) = some (some a)
    rw [reads]
    rfl

theorem listOf?_list (l : List α) : Json.listOf? read (.list (l.map json)) = some l := by
  rw [Json.listOf?]
  induction l with
  | nil => rfl
  | cons a l ih => simp [List.mapM_cons, reads, ih]

end

theorem text?_text (t : Text) : Json.text? (.text t) = some t := rfl

theorem boolean?_boolean (b : Bool) : Json.boolean? (.boolean b) = some b := rfl

theorem wholeNumber?_integer (n : Int) : Json.wholeNumber? (.integer n) = some n := rfl

theorem texts?_textList (ts : List Text) : Json.listOf? Json.text? (textList ts) = some ts :=
  listOf?_list text?_text ts

/-- A parameter is read from an object by the names of the members alone. -/
theorem parameter?_object {members : List (Text × Json)} {p : Parameter}
    (name : members.lookup (txt "name") = some (.text p.name))
    (type : members.lookup (txt "type") = some (.text p.type))
    (required : members.lookup (txt "required") = some (.boolean p.required))
    (default : members.lookup (txt "default_value") = p.default.map .text)
    (values : members.lookup (txt "available_values") = p.values.map textList)
    (description : members.lookup (txt "description") = p.description.map .text) :
    parameter? (.object members) = some p := by
  simp only [parameter?, Json.members?, Option.bind_eq_bind, Option.bind_some,
    needed?_of_lookup text?_text name, needed?_of_lookup text?_text type,
    needed?_of_lookup boolean?_boolean required,
    optional?_of_lookup text?_text (fun _ => rfl) default,
    optional?_of_lookup texts?_textList (fun _ => rfl) values,
    optional?_of_lookup text?_text (fun _ => rfl) description]

theorem parameter?_parameterJson (p : Parameter) : parameter? (parameterJson p) = some p := by
  apply parameter?_object <;> simp [List.lookup_append, lookup_txt_cons, lookup_member]

theorem ofJson?_object {members : List (Text × Json)} {p : Payload}
    (isParametersRequired :
      members.lookup (txt "isParametersRequired") = some (.boolean p.isParametersRequired))
    (parameters :
      members.lookup (txt "parameters") = some (.list (p.parameters.map parameterJson)))
    (hostname : members.lookup (txt "hostname") = p.hostname.map .text)
    (scriptId : members.lookup (txt "customScriptId") = p.scriptId.map .integer)
    (scriptName : members.lookup (txt "customScriptName") = p.scriptName.map .text) :
    ofJson? (.object members) = some p := by
  have list : ∀ ps, Json.listOf? parameter? (.list (ps.map parameterJson)) = some ps :=
    listOf?_list parameter?_parameterJson
  simp only [ofJson?, Json.members?, Option.bind_eq_bind, Option.bind_some,
    needed?_of_lookup boolean?_boolean isParametersRequired, needed?_of_lookup list parameters,
    optional?_of_lookup text?_text (fun _ => rfl) hostname,
    optional?_of_lookup wholeNumber?_integer (fun _ => rfl) scriptId,
    optional?_of_lookup text?_text (fun _ => rfl) scriptName]

theorem ofJson?_json (p : Payload) : ofJson? p.json = some p := by
  apply ofJson?_object <;> simp [List.lookup_append, lookup_txt_cons, lookup_member]

theorem toChars?_ofChars (cs : List Char) : Text.toChars? (Text.ofChars cs) = some cs := by
  have one : ∀ c : Char, (CodePoint.ofChar c).toChar? = some c := by
    intro c
    have valid : c.toNat.isValidChar := c.valid
    rw [CodePoint.toChar?, dif_pos (show (CodePoint.ofChar c).val.isValidChar from valid)]
    rfl
  rw [Text.toChars?, Text.ofChars]
  induction cs with
  | nil => rfl
  | cons c cs ih => simp [List.mapM_cons, one, ih]

/-- Whatever is written for a payload is read as this payload. -/
theorem decode?_of_encoded? {p : Payload} {t : Text} (h : p.encoded? = some t) :
    decode? t = some p := by
  rw [encoded?, written?] at h
  cases proper : p.json.compact.hasSurrogate with
  | true =>
    rw [proper] at h
    cases h
  | false =>
    rw [proper] at h
    cases h
    simp only [decode?, toChars?_ofChars, Base64.decode?_encode, Utf8.decode?_encode proper,
      Json.read?_compact proper, ofJson?_json, Option.bind_eq_bind, Option.bind_some]

/-! ### Payloads of declarations -/

end Payload

/-- The texts of a row that a payload records. -/
def Row.texts (row : Row) : List Text := [row.name, row.type, row.description] ++ row.values.getD []

/-- The texts of a declaration that a payload records. -/
def Declaration.texts (d : Declaration) : List Text :=
  (d.rows.getD []).flatMap Row.texts ++ d.defaults.values

namespace Payload

def Options.texts (options : Options) : List Text :=
  options.hostname.toList ++ options.scriptName.toList

/-- The texts of a parameter. -/
def parameterTexts (p : Parameter) : List Text :=
  [p.name, p.type] ++ p.default.toList ++ p.values.getD [] ++ p.description.toList

theorem proper_member {α : Type} {json : α → Json} {value : Option α} {name : String}
    (named : (txt name).hasSurrogate = false) (valued : ∀ a, value = some a → (json a).Proper) :
    ∀ m ∈ member name json value, m.1.hasSurrogate = false ∧ m.2.Proper := by
  intro m mem
  cases value with
  | none => cases mem
  | some a =>
    rw [List.mem_singleton.mp mem]
    exact ⟨named, valued a rfl⟩

theorem proper_textList {ts : List Text} (h : ∀ t ∈ ts, t.hasSurrogate = false) :
    (textList ts).Proper := by
  apply Json.proper_list
  intro item mem
  obtain ⟨t, ht, rfl⟩ := List.mem_map.mp mem
  exact Json.proper_text (h t ht)

theorem proper_parameterJson {p : Parameter}
    (h : ∀ t ∈ parameterTexts p, t.hasSurrogate = false) : (parameterJson p).Proper := by
  apply Json.proper_object
  intro m mem
  simp only [List.mem_append, List.mem_cons, List.not_mem_nil, or_false] at mem
  rcases mem with ((((rfl | rfl | rfl) | mem) | mem) | mem)
  · exact ⟨rfl, Json.proper_text (h _ (by simp [parameterTexts]))⟩
  · exact ⟨rfl, Json.proper_text (h _ (by simp [parameterTexts]))⟩
  · exact ⟨rfl, nofun⟩
  · apply proper_member rfl _ m mem
    intro t given
    exact Json.proper_text (h t (by simp [parameterTexts, given]))
  · apply proper_member rfl _ m mem
    intro ts given
    apply proper_textList
    intro t ht
    exact h t (by simp [parameterTexts, given, ht])
  · apply proper_member rfl _ m mem
    intro t given
    exact Json.proper_text (h t (by simp [parameterTexts, given]))

theorem proper_json {p : Payload}
    (parameters : ∀ q ∈ p.parameters, ∀ t ∈ parameterTexts q, t.hasSurrogate = false)
    (hostname : ∀ t ∈ p.hostname, t.hasSurrogate = false)
    (scriptName : ∀ t ∈ p.scriptName, t.hasSurrogate = false) : p.json.Proper := by
  apply Json.proper_object
  intro m mem
  simp only [List.mem_append, List.mem_cons, List.not_mem_nil, or_false] at mem
  rcases mem with ((((rfl | rfl) | mem) | mem) | mem)
  · exact ⟨rfl, nofun⟩
  · refine ⟨rfl, Json.proper_list ?_⟩
    intro item mem
    obtain ⟨q, hq, rfl⟩ := List.mem_map.mp mem
    exact proper_parameterJson (parameters q hq)
  · apply proper_member rfl _ m mem
    intro t given
    exact Json.proper_text (hostname t given)
  · apply proper_member rfl _ m mem
    intro n given
    exact nofun
  · apply proper_member rfl _ m mem
    intro t given
    exact Json.proper_text (scriptName t given)

theorem trim_sublist (t : Text) : (Text.trim t).Sublist t := by
  have start : (Text.trimStart t).Sublist t := List.dropWhile_sublist _
  have stop : (Text.trim t).Sublist (Text.trimStart t) := by
    have := (List.dropWhile_sublist CodePoint.isBlank (l := (Text.trimStart t).reverse)).reverse
    rwa [List.reverse_reverse] at this
  exact stop.trans start

theorem withoutQuotes_sublist (t : Text) : (withoutQuotes t).Sublist t := by
  have trimmed := trim_sublist t
  rw [withoutQuotes]
  split
  · exact trimmed
  · split
    · exact ((List.dropLast_sublist _).trans (List.drop_sublist ..)).trans trimmed
    · exact trimmed

theorem proper_nonempty? {t : Option Text} (h : ∀ s ∈ t, s.hasSurrogate = false) :
    ∀ s ∈ nonempty? t, s.hasSurrogate = false := by
  intro s mem
  exact h s (Option.filter_eq_some_iff.mp mem).1

/-- The texts of a parameter come from the row and from the default. -/
theorem proper_parameter {d : Declaration} (h : ∀ t ∈ d.texts, t.hasSurrogate = false) {row : Row}
    (kept : row ∈ keptRows d) :
    ∀ t ∈ parameterTexts (parameter d.defaults row), t.hasSurrogate = false := by
  have rows : ∀ t ∈ row.texts, t.hasSurrogate = false := by
    intro t ht
    apply h t
    exact List.mem_append_left _ (List.mem_flatMap.mpr ⟨row, List.mem_of_mem_filter kept, ht⟩)
  intro t mem
  simp only [parameterTexts, parameter, List.mem_append, List.mem_cons, List.not_mem_nil,
    or_false, Option.mem_toList] at mem
  rcases mem with ((((rfl | rfl) | default) | value) | description)
  · exact rows _ (by simp [Row.texts])
  · exact rows _ (by simp [Row.texts])
  · obtain ⟨written, given, rfl⟩ := Option.map_eq_some_iff.mp default
    have proper := h written (List.mem_append_right _ (Table.mem_values_of_get? given))
    exact Json.hasSurrogate_of_sublist (withoutQuotes_sublist written) proper
  · have listed : t ∈ row.values.getD [] := by
      cases given : row.values with
      | none => simp [given] at value
      | some ts =>
        rw [given, Option.bind_some, Row.nonempty] at value
        split at value
        · cases value
        · exact value
    exact rows t (List.mem_append_right _ listed)
  · apply proper_nonempty? _ t description
    intro s given
    rw [← Option.some.inj given]
    exact rows _ (by simp [Row.texts])

/-- The payload of declarations and options without surrogates can be written, and what is written
is read as this payload. -/
theorem decode_undoes_encode (declarations : List Declaration) (options : Options)
    (declared : ∀ d ∈ declarations, ∀ t ∈ d.texts, t.hasSurrogate = false)
    (given : ∀ t ∈ options.texts, t.hasSurrogate = false) :
    ∃ t, (ofDeclarations declarations options).encoded? = some t ∧
      decode? t = some (ofDeclarations declarations options) := by
  have proper : (ofDeclarations declarations options).json.Proper := by
    apply proper_json
    · intro q mem
      obtain ⟨entry, he, rfl⟩ := List.mem_map.mp (Table.mem_values_ofList mem)
      obtain ⟨d, hd, he⟩ := List.mem_flatMap.mp he
      obtain ⟨row, kept, rfl⟩ := List.mem_map.mp he
      exact proper_parameter (declared d hd) kept
    · apply proper_nonempty?
      intro t ht
      exact given t (List.mem_append_left _ (Option.mem_toList.mpr ht))
    · apply proper_nonempty?
      intro t ht
      exact given t (List.mem_append_right _ (Option.mem_toList.mpr ht))
  have written := Json.hasSurrogate_compact _ proper
  have encoded : ∃ t, (ofDeclarations declarations options).encoded? = some t := by
    rw [encoded?, written?, written]
    exact ⟨_, rfl⟩
  obtain ⟨t, ht⟩ := encoded
  exact ⟨t, ht, decode?_of_encoded? ht⟩

/-- Escapes, characters of all widths, a default with quotes, an identifier beyond 64 bits, members
left out, and a row for keys that are not named. -/
theorem decode_undoes_encode_mixed :
    let name := txt "a\"\\\n\x01é√😀"
    let rows : List Row := [⟨name, txt "string", false, [], none, some [txt "\t", txt "'"]⟩,
      ⟨txt "[key: string]", txt "unknown", false, [], none, none⟩,
      ⟨txt "b", txt "number", true, txt "B", none, some []⟩]
    let d : Declaration := ⟨⟨false, [txt "a.ts"]⟩, 1, some rows, [], [(name, txt " 'ü' ")]⟩
    let options : Options := ⟨some [], some (-1180591620717411303424), some (txt "s")⟩
    let p := ofDeclarations [d] options
    p.parameters = [⟨name, txt "string", true, some (txt "ü"), some [txt "\t", txt "'"], none⟩,
      ⟨txt "b", txt "number", false, none, none, some (txt "B")⟩] ∧
    ∃ t, p.encoded? = some t ∧ decode? t = some p := by
  intro name rows d options p
  refine ⟨by decide +kernel, decode_undoes_encode [d] options ?_ ?_⟩
  · decide +kernel
  · decide +kernel

end Payload

end ParamSchema
