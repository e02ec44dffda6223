import ParamSchema.Payload.Merge
import ParamSchema.Proofs.Table

/-!
Merging declarations into a payload. The rows that count are those whose name is not that of an
index signature (`Payload.IndexPattern`). A parameter stands where the first such row of its name
does and is made from the last one, with the defaults of the declaration of that row; parameters are
required as soon as one row is (`Payload.ofDeclarations_last_wins`). The payloads of two lists of
declarations merge into that of both (`Payload.merge`).
-/

namespace ParamSchema.Payload

/-! ### Names of index signatures -/

/-- A text in square brackets with a colon in it. On either side of the colon stands something
without a line feed, behind it after any white space. -/
def Bracketed (t : Text) : Prop :=
  ∃ left gap right : Text, left ≠ [] ∧ chr '\n' ∉ left ∧ (∀ c ∈ gap, c.isBlank = true) ∧
    right ≠ [] ∧ chr '\n' ∉ right ∧
    t = chr '[' :: (left ++ chr ':' :: (gap ++ right)) ++ [chr ']']

/-- The names of index signatures. One line feed may follow the brackets. -/
def IndexPattern (name : Text) : Prop :=
  Bracketed name ∨ ∃ t, Bracketed t ∧ name = t ++ [chr '\n']

theorem hasEnd_iff {t : Text} :
    hasEnd t = true ↔ ∃ gap right : Text, t = gap ++ right ∧ (∀ c ∈ gap, c.isBlank = true) ∧
      right ≠ [] ∧ chr '\n' ∉ right := by
  simp only [hasEnd, List.any_eq_true, List.mem_range, Bool.and_eq_true, List.all_eq_true,
    Bool.not_eq_true', List.contains_eq_mem, decide_eq_false_iff_not]
  constructor
  · rintro ⟨i, lt, blank, none⟩
    refine ⟨t.take i, t.drop i, (List.take_append_drop i t).symm, blank, ?_, none⟩
    intro empty
    exact absurd (List.drop_eq_nil_iff.mp empty) (Nat.not_le_of_lt lt)
  · rintro ⟨gap, right, rfl, blank, some, none⟩
    refine ⟨gap.length, ?_, ?_, ?_⟩
    · rw [List.length_append]
      exact Nat.lt_add_of_pos_right (List.length_pos_iff.mpr some)
    · rwa [List.take_left]
    · rwa [List.drop_left]

theorem hasColonInside_iff {t : Text} :
    hasColonInside t = true ↔ ∃ left rest : Text, t = left ++ chr ':' :: rest ∧ left ≠ [] ∧
      chr '\n' ∉ left ∧ hasEnd rest = true := by
  simp only [hasColonInside, List.any_eq_true, List.mem_range, Bool.and_eq_true, decide_eq_true_eq,
    beq_iff_eq, Bool.not_eq_true', List.contains_eq_mem, decide_eq_false_iff_not]
  constructor
  · rintro ⟨i, lt, ⟨⟨pos, colon⟩, none⟩, behind⟩
    obtain ⟨_, colon⟩ := List.getElem?_eq_some_iff.mp colon
    refine ⟨t.take i, t.drop (i + 1), ?_, ?_, none, behind⟩
    · rw [← colon, ← List.drop_eq_getElem_cons lt, List.take_append_drop]
    · intro empty
      have short := congrArg List.length empty
      rw [List.length_take, List.length_nil] at short
      omega
  · rintro ⟨left, rest, rfl, some, none, behind⟩
    have pos := List.length_pos_iff.mpr some
    refine ⟨left.length, by simp, ⟨⟨pos, by simp⟩, by simpa using none⟩, ?_⟩
    rwa [← List.drop_drop, List.drop_left, List.drop_one, List.tail_cons]

/-- A text between two code points. -/
theorem between_iff {first last : CodePoint} {t : Text} :
    (2 ≤ t.length ∧ t.head? = some first) ∧ t.getLast? = some last ↔
      ∃ inner : Text, t = first :: inner ++ [last] := by
  constructor
  · rintro ⟨⟨long, head⟩, closing⟩
    obtain ⟨rest, rfl⟩ := List.head?_eq_some_iff.mp head
    have some : rest ≠ [] := by
      rintro rfl
      simp at long
    rw [List.getLast?_cons_of_ne_nil some] at closing
    obtain ⟨inner, rfl⟩ := List.getLast?_eq_some_iff.mp closing
    exact ⟨inner, rfl⟩
  · rintro ⟨inner, rfl⟩
    exact ⟨⟨by simp, rfl⟩, List.getLast?_concat⟩

theorem bracketed_iff {t : Text} :
    (2 ≤ t.length && t.head? == some (chr '[') && t.getLast? == some (chr ']') &&
      hasColonInside ((t.drop 1).dropLast)) = true ↔ Bracketed t := by
  simp only [Bool.and_eq_true, decide_eq_true_eq, beq_iff_eq, between_iff]
  constructor
  · rintro ⟨⟨inner, rfl⟩, colon⟩
    rw [List.cons_append, List.drop_one, List.tail_cons, List.dropLast_concat] at colon
    obtain ⟨left, rest, rfl, some, none, behind⟩ := hasColonInside_iff.mp colon
    obtain ⟨gap, right, rfl, blank, some', none'⟩ := hasEnd_iff.mp behind
    exact ⟨left, gap, right, some, none, blank, some', none', rfl⟩
  · rintro ⟨left, gap, right, some, none, blank, some', none', rfl⟩
    refine ⟨⟨_, rfl⟩, ?_⟩
    rw [List.cons_append, List.drop_one, List.tail_cons, List.dropLast_concat]
    exact hasColonInside_iff.mpr
      ⟨left, _, rfl, some, none, hasEnd_iff.mpr ⟨gap, right, rfl, blank, some', none'⟩⟩

theorem Bracketed.getLast? {t : Text} (h : Bracketed t) : t.getLast? = some (chr ']') := by
  obtain ⟨left, gap, right, _, _, _, _, _, rfl⟩ := h
  exact List.getLast?_concat

theorem isIndexName_iff {name : Text} : isIndexName name = true ↔ IndexPattern name := by
  rw [isIndexName, IndexPattern]
  cases feed : name.getLast? == some (chr '\n') with
  | true =>
    obtain ⟨t, rfl⟩ := List.getLast?_eq_some_iff.mp (eq_of_beq feed)
    rw [if_pos rfl, List.dropLast_concat, bracketed_iff]
    constructor
    · intro h
      exact .inr ⟨t, h, rfl⟩
    · rintro (h | ⟨t', h, same⟩)
      · rw [h.getLast?] at feed
        cases feed
      · rwa [List.append_cancel_right same]
  | false =>
    rw [if_neg Bool.false_ne_true, bracketed_iff]
    constructor
    · exact .inl
    · rintro (h | ⟨t, _, rfl⟩)
      · exact h
      · rw [List.getLast?_concat] at feed
        cases feed

instance : DecidablePred IndexPattern := fun _ => decidable_of_iff _ isIndexName_iff

/-! ### Rows that count -/

/-- The rows of all declarations that are not those of index signatures, each with its declaration,
in their order. -/
def keptRowsOf (declarations : List Declaration) : List (Declaration × Row) :=
  declarations.flatMap fun d =>
    ((d.rows.getD []).filter fun row => ¬ IndexPattern row.name).map fun row => (d, row)

theorem keptRows_eq (d : Declaration) :
    keptRows d = (d.rows.getD []).filter fun row => ¬ IndexPattern row.name := by
  apply List.filter_congr
  intro row _
  rw [← Bool.coe_iff_coe]
  simp [← isIndexName_iff]

theorem entries_eq (declarations : List Declaration) :
    entries declarations = (keptRowsOf declarations).map fun kept =>
      (kept.2.name, parameter kept.1.defaults kept.2) := by
  rw [entries, keptRowsOf, List.map_flatMap]
  apply List.flatMap_congr
  intro d _
  rw [keptRows_eq, List.map_map]
  rfl

theorem isParametersRequired_iff (declarations : List Declaration) (options : Options) :
    (ofDeclarations declarations options).isParametersRequired = true ↔
      ∃ kept ∈ keptRowsOf declarations, kept.2.optional = false := by
  have rows : declarations.flatMap keptRows = (keptRowsOf declarations).map (·.2) := by
    rw [keptRowsOf, List.map_flatMap]
    apply List.flatMap_congr
    intro d _
    rw [keptRows_eq, List.map_map]
    exact (List.map_id _).symm
  rw [ofDeclarations, rows, List.any_map, List.any_eq_true]
  simp

/-! ### Parameters by name -/

/-- Parameters by their names. -/
def Named (t : Table Text Parameter) : Prop := ∀ entry ∈ t, entry.1 = entry.2.name

theorem named_ofList (declarations : List Declaration) :
    Named (Table.ofList (entries declarations)) := by
  intro entry mem
  obtain ⟨before, after, listed, _⟩ := Table.exists_last_of_mem_ofList mem
  rw [entries_eq] at listed
  have mem := listed ▸ List.mem_append_right before List.mem_cons_self
  obtain ⟨kept, _, rfl⟩ := List.mem_map.mp mem
  rfl

namespace Named

variable {t u : Table Text Parameter}

theorem tail {entry : Text × Parameter} (h : Named (entry :: t)) : Named t :=
  fun e mem => h e (List.mem_cons_of_mem _ mem)

theorem keys_eq (h : Named t) : t.keys = t.values.map Parameter.name := by
  rw [Table.keys, Table.values, List.map_map]
  exact List.map_congr_left h

theorem get?_eq (h : Named t) (name : Text) :
    t.get? name = t.values.find? (·.name == name) := by
  induction t with
  | nil => rfl
  | cons entry rest ih =>
    have here : entry.1 = entry.2.name := h entry List.mem_cons_self
    have later := ih h.tail
    rw [Table.get?] at later ⊢
    rw [List.lookup_cons, Table.values, List.map_cons, List.find?_cons, ← Table.values, ← later,
      here, Bool.beq_comm]

theorem has_eq (h : Named t) (name : Text) : t.has name = t.values.any (·.name == name) := by
  rw [Table.has, h.get?_eq, Bool.eq_iff_iff, List.find?_isSome, List.any_eq_true]

end Named

/-- One payload behind another: what is declared again takes the later declaration in its old place,
and what is new comes behind. -/
def merge (p q : Payload) : Payload :=
  { p with
    isParametersRequired := p.isParametersRequired || q.isParametersRequired
    parameters :=
      p.parameters.map (fun x => (q.parameters.find? (·.name == x.name)).getD x) ++
        q.parameters.filter fun y => !p.parameters.any (·.name == y.name) }

theorem values_overlay {t u : Table Text Parameter} (ht : Named t) (hu : Named u) :
    (Table.overlay t u).values =
      t.values.map (fun x => (u.values.find? (·.name == x.name)).getD x) ++
        u.values.filter fun y => !t.values.any (·.name == y.name) := by
  rw [Table.overlay, Table.values, Table.values, Table.values, List.map_append, List.map_map,
    List.map_map, List.filter_map]
  congr 1
  · apply List.map_congr_left
    intro entry mem
    simp only [Function.comp_apply, hu.get?_eq, ht entry mem, Table.values]
  · congr 1
    apply List.filter_congr
    intro entry mem
    simp only [Function.comp_apply, ht.has_eq, hu entry mem, Table.values]

/-- The payload of two lists of declarations is that of the second behind that of the first. -/
theorem ofDeclarations_append (first second : List Declaration) (options : Options) :
    ofDeclarations (first ++ second) options =
      (ofDeclarations first options).merge (ofDeclarations second options) := by
  have both : entries (first ++ second) = entries first ++ entries second := List.flatMap_append
  have required : (first ++ second).flatMap keptRows =
      first.flatMap keptRows ++ second.flatMap keptRows := List.flatMap_append
  simp only [ofDeclarations, merge, both, required, Table.ofList_append, List.any_append,
    values_overlay (named_ofList first) (named_ofList second)]

/-- A parameter is made from the last row of its name and the defaults of its declaration. -/
theorem exists_last_row {declarations : List Declaration} {options : Options} {x : Parameter}
    (mem : x ∈ (ofDeclarations declarations options).parameters) :
    ∃ before d row after, keptRowsOf declarations = before ++ (d, row) :: after ∧
      (∀ later ∈ after, later.2.name ≠ row.name) ∧ x = parameter d.defaults row := by
  obtain ⟨entry, listed, rfl⟩ := List.mem_map.mp mem
  obtain ⟨before, after, split, others⟩ := Table.exists_last_of_mem_ofList listed
  rw [entries_eq] at split
  obtain ⟨rowsBefore, rest, rows, rfl, same⟩ := List.map_eq_append_iff.mp split
  obtain ⟨⟨d, row⟩, rowsAfter, rfl, rfl, rfl⟩ := List.map_eq_cons_iff.mp same
  refine ⟨rowsBefore, d, row, rowsAfter, rows, ?_, rfl⟩
  intro later hlater
  exact others _ (List.mem_map_of_mem hlater)

/-- The parameters of a payload have different names, in the order in which the names first occur
among the rows that count. Each is made from the last row of its name and the defaults of the
declaration of that row. Parameters are required when a row is, even one that is declared again. And
where a list of declarations is cut in two, its payload is that of the second part behind that of
the first. -/
theorem ofDeclarations_last_wins (declarations : List Declaration) (options : Options) :
    let payload := ofDeclarations declarations options
    let kept := keptRowsOf declarations
    let names := kept.map fun k => k.2.name
    (payload.parameters.map Parameter.name).Nodup ∧
    (∀ name, name ∈ payload.parameters.map Parameter.name ↔ name ∈ names) ∧
    (payload.parameters.map Parameter.name).Pairwise
      (fun a b => names.idxOf a < names.idxOf b) ∧
    (∀ x ∈ payload.parameters, ∃ before d row after, kept = before ++ (d, row) :: after ∧
      (∀ later ∈ after, later.2.name ≠ row.name) ∧ x = parameter d.defaults row) ∧
    (payload.isParametersRequired = true ↔ ∃ k ∈ kept, k.2.optional = false) ∧
    ∀ first second, declarations = first ++ second →
      payload = (ofDeclarations first options).merge (ofDeclarations second options) := by
  intro payload kept names
  have keys : payload.parameters.map Parameter.name = (Table.ofList (entries declarations)).keys :=
    (named_ofList declarations).keys_eq.symm
  have listed : names = (entries declarations).map (·.1) := by
    rw [entries_eq, List.map_map]
    rfl
  rw [keys, listed]
  refine ⟨Table.nodup_keys_ofList _, fun name => Table.mem_keys_ofList,
    Table.pairwise_keys_ofList _, fun x => exists_last_row, isParametersRequired_iff _ _, ?_⟩
  rintro first second rfl
  exact ofDeclarations_append first second options

end ParamSchema.Payload
