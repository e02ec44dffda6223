import Mathlib.Data.List.Induction
import Mathlib.Data.List.Nodup
import ParamSchema.Table

/-!
Tables as partial functions: what putting and erasing do to the value of every key, and that no key
stands twice in a table. The table of a list has its keys in the order of their first entries, with
the values of their last ones, and the table of two lists is the second laid over the first
(`Table.ofList_append`).
-/

namespace ParamSchema.Table

variable {κ α : Type} [BEq κ] {key other : κ} {value : α} {t : Table κ α}

theorem has_iff : t.has key = true ↔ ∃ value, t.get? key = some value := by
  rw [has, Option.isSome_iff_exists]

theorem nodup_keys_erase (h : t.keys.Nodup) : (t.erase key).keys.Nodup :=
  h.sublist (List.Sublist.map _ List.filter_sublist)

variable [LawfulBEq κ]

theorem get?_put :
    (put key value t).get? other = if other == key then some value else t.get? other := by
  induction t with
  | nil => cases ho : other == key <;> simp [put, get?, List.lookup_cons, ho]
  | cons entry rest ih =>
    obtain ⟨k, v⟩ := entry
    simp only [get?] at ih ⊢
    by_cases hk : k = key
    · subst hk
      cases ho : other == k <;> simp [put, List.lookup_cons, ho]
    · have apart : (k == key) = false := beq_eq_false_iff_ne.mpr hk
      simp only [put, apart, Bool.false_eq_true, if_false, List.lookup_cons]
      cases ho : other == k with
      | true => simp [eq_of_beq ho, apart]
      | false => simpa using ih

theorem get?_erase :
    (t.erase key).get? other = if other == key then none else t.get? other := by
  induction t with
  | nil => simp [erase, get?]
  | cons entry rest ih =>
    obtain ⟨k, v⟩ := entry
    simp only [get?, erase, List.filter_cons, List.lookup_cons] at ih ⊢
    by_cases hk : k = key
    · subst hk
      cases ho : other == k <;> simp [ho, ih]
    · have keep : (k != key) = true := bne_iff_ne.mpr hk
      simp only [keep, if_true, List.lookup_cons, ih]
      cases ho : other == k with
      | true => simp [eq_of_beq ho, hk]
      | false => rfl

theorem mem_keys_iff : key ∈ t.keys ↔ ∃ value, t.get? key = some value := by
  induction t with
  | nil => simp [keys, get?]
  | cons entry rest ih =>
    obtain ⟨k, v⟩ := entry
    simp only [keys, get?, List.map_cons, List.mem_cons, List.lookup_cons] at ih ⊢
    cases hk : key == k with
    | true => simp [eq_of_beq hk]
    | false => simpa [ne_of_beq_false hk] using ih

theorem nodup_keys_put (h : t.keys.Nodup) : (put key value t).keys.Nodup := by
  induction t with
  | nil => simp [put, keys]
  | cons entry rest ih =>
    obtain ⟨k, v⟩ := entry
    obtain ⟨new, distinct⟩ := List.nodup_cons.mp h
    by_cases hk : k = key
    · simpa [put, keys, hk] using h
    · have apart : (k == key) = false := beq_eq_false_iff_ne.mpr hk
      have absent : k ∉ (put key value rest).keys := by
        intro mem
        obtain ⟨w, hw⟩ := mem_keys_iff.mp mem
        rw [get?_put, apart] at hw
        exact new (mem_keys_iff.mpr ⟨w, hw⟩)
      simpa [put, apart, keys] using List.nodup_cons.mpr ⟨absent, ih distinct⟩

/-- No key stands twice in the table of a list. -/
theorem nodup_keys_ofList (entries : List (κ × α)) : (ofList entries).keys.Nodup := by
  have kept (t : Table κ α) (h : t.keys.Nodup) :
      (entries.foldl (fun t entry => put entry.1 entry.2 t) t).keys.Nodup := by
    induction entries generalizing t with
    | nil => exact h
    | cons entry rest ih => exact ih _ (nodup_keys_put h)
  exact kept [] List.nodup_nil

/-- Behind the other entries, a new key is found where they have none. -/
theorem get?_snoc (new : t.has key = false) :
    (t ++ [(key, value)]).get? other = if other == key then some value else t.get? other := by
  simp only [get?, List.lookup_append, List.lookup_cons, List.lookup_nil]
  cases same : other == key with
  | true =>
    rw [has, Option.isSome_eq_false_iff, Option.isNone_iff_eq_none, get?] at new
    rw [eq_of_beq same, new]
    rfl
  | false => simp

theorem nodup_keys_snoc (new : t.has key = false) (h : t.keys.Nodup) :
    (t ++ [(key, value)]).keys.Nodup := by
  have absent : key ∉ t.keys := by
    intro mem
    rw [has_iff.mpr (mem_keys_iff.mp mem)] at new
    cases new
  rw [keys, List.map_append]
  refine List.nodup_append.mpr ⟨h, List.nodup_singleton _, ?_⟩
  intro k hk k' hk' same
  obtain rfl : k' = key := List.mem_singleton.mp hk'
  exact absent (same ▸ hk)

/-! ### Values -/

theorem mem_values_of_get? (h : t.get? key = some value) : value ∈ t.values := by
  obtain ⟨before, behind, entries, _⟩ := List.lookup_eq_some_iff.mp h
  simp [values, entries]

omit [LawfulBEq κ] in
theorem mem_values_put {v : α} (h : v ∈ (put key value t).values) : v = value ∨ v ∈ t.values := by
  induction t with
  | nil => exact .inl (List.mem_singleton.mp h)
  | cons entry rest ih =>
    obtain ⟨k, w⟩ := entry
    rw [put] at h
    split at h
    · rcases List.mem_cons.mp h with rfl | h
      · exact .inl rfl
      · exact .inr (List.mem_cons_of_mem _ h)
    · rcases List.mem_cons.mp h with rfl | h
      · exact .inr List.mem_cons_self
      · rcases ih h with rfl | h
        · exact .inl rfl
        · exact .inr (List.mem_cons_of_mem _ h)

omit [LawfulBEq κ] in
theorem mem_values_foldl_put {entries : List (κ × α)} {v : α}
    (h : v ∈ (entries.foldl (fun t e => put e.1 e.2 t) t).values) :
    v ∈ t.values ∨ v ∈ entries.map (·.2) := by
  induction entries generalizing t with
  | nil => exact .inl h
  | cons entry rest ih =>
    rw [List.map_cons, List.mem_cons]
    rcases ih h with h | h
    · rcases mem_values_put h with rfl | h
      · exact .inr (.inl rfl)
      · exact .inl h
    · exact .inr (.inr h)

omit [LawfulBEq κ] in
/-- A table has no values but those that were put in. -/
theorem mem_values_ofList {entries : List (κ × α)} {v : α} (h : v ∈ (ofList entries).values) :
    v ∈ entries.map (·.2) := by
  rcases mem_values_foldl_put h with h | h
  · cases h
  · exact h

/-! ### Tables of lists -/

omit [LawfulBEq κ] in
theorem ofList_snoc (entries : List (κ × α)) (entry : κ × α) :
    ofList (entries ++ [entry]) = put entry.1 entry.2 (ofList entries) := by
  rw [ofList, List.foldl_append]
  rfl

theorem mem_put {entry : κ × α} (distinct : t.keys.Nodup) (h : entry ∈ put key value t) :
    entry = (key, value) ∨ entry ∈ t ∧ entry.1 ≠ key := by
  induction t with
  | nil => exact .inl (List.mem_singleton.mp h)
  | cons first rest ih =>
    obtain ⟨k, v⟩ := first
    obtain ⟨new, distinct⟩ := List.nodup_cons.mp distinct
    rw [put] at h
    split at h
    · next same =>
      obtain rfl := eq_of_beq same
      rcases List.mem_cons.mp h with rfl | mem
      · exact .inl rfl
      · refine .inr ⟨List.mem_cons_of_mem _ mem, ?_⟩
        rintro rfl
        exact new (List.mem_map.mpr ⟨entry, mem, rfl⟩)
    · next apart =>
      rcases List.mem_cons.mp h with rfl | mem
      · exact .inr ⟨List.mem_cons_self, fun same => apart (beq_iff_eq.mpr same)⟩
      · exact (ih distinct mem).imp_right (And.imp_left (List.mem_cons_of_mem _))

/-- An entry of a table is the last one of its key that was put in. -/
theorem exists_last_of_mem_ofList {entries : List (κ × α)} {entry : κ × α}
    (h : entry ∈ ofList entries) :
    ∃ before after, entries = before ++ entry :: after ∧ ∀ later ∈ after, later.1 ≠ entry.1 := by
  induction entries using List.reverseRecOn with
  | nil => cases h
  | append_singleton entries last ih =>
    rw [ofList_snoc] at h
    rcases mem_put (nodup_keys_ofList entries) h with rfl | ⟨h, apart⟩
    · exact ⟨entries, [], rfl, by simp⟩
    · obtain ⟨before, after, rfl, others⟩ := ih h
      refine ⟨before, after ++ [last], by simp, ?_⟩
      intro later mem
      rcases List.mem_append.mp mem with mem | mem
      · exact others later mem
      · rw [List.mem_singleton.mp mem]
        exact apart.symm

theorem keys_put_of_mem (h : key ∈ t.keys) : (put key value t).keys = t.keys := by
  induction t with
  | nil => cases h
  | cons entry rest ih =>
    obtain ⟨k, v⟩ := entry
    rw [put]
    split
    · rfl
    · next apart =>
      have later : key ∈ keys rest :=
        (List.mem_cons.mp h).resolve_left fun same => apart (beq_iff_eq.mpr same.symm)
      exact congrArg (k :: ·) (ih later)

theorem keys_put_of_not_mem (h : key ∉ t.keys) : (put key value t).keys = t.keys ++ [key] := by
  induction t with
  | nil => rfl
  | cons entry rest ih =>
    obtain ⟨k, v⟩ := entry
    obtain ⟨apart, absent⟩ := not_or.mp (mt List.mem_cons.mpr h)
    rw [put, if_neg fun same => apart (eq_of_beq same).symm]
    exact congrArg (k :: ·) (ih absent)

theorem mem_keys_ofList {entries : List (κ × α)} :
    key ∈ (ofList entries).keys ↔ key ∈ entries.map (·.1) := by
  induction entries using List.reverseRecOn with
  | nil => exact Iff.rfl
  | append_singleton entries last ih =>
    rw [ofList_snoc, List.map_append, List.mem_append, ← ih]
    by_cases mem : last.1 ∈ (ofList entries).keys
    · rw [keys_put_of_mem mem, List.map_singleton, List.mem_singleton]
      exact ⟨.inl, fun h => h.elim id fun same => same ▸ mem⟩
    · rw [keys_put_of_not_mem mem, List.mem_append]
      rfl

/-- The keys of a table are in the order in which they were first put in. -/
theorem pairwise_keys_ofList (entries : List (κ × α)) :
    (ofList entries).keys.Pairwise fun a b =>
      (entries.map (·.1)).idxOf a < (entries.map (·.1)).idxOf b := by
  induction entries using List.reverseRecOn with
  | nil => exact .nil
  | append_singleton entries last ih =>
    -- What has been put in before keeps its place in the longer list.
    have kept (a : κ) (ha : a ∈ (ofList entries).keys) :
        ((entries ++ [last]).map (·.1)).idxOf a = (entries.map (·.1)).idxOf a := by
      rw [List.map_append, List.idxOf_append_of_mem (mem_keys_ofList.mp ha)]
    have before : (ofList entries).keys.Pairwise fun a b =>
        ((entries ++ [last]).map (·.1)).idxOf a < ((entries ++ [last]).map (·.1)).idxOf b := by
      refine ih.imp_of_mem ?_
      intro a b ha hb lt
      rwa [kept a ha, kept b hb]
    rw [ofList_snoc]
    by_cases mem : last.1 ∈ (ofList entries).keys
    · rwa [keys_put_of_mem mem]
    · rw [keys_put_of_not_mem mem]
      refine List.pairwise_append.mpr ⟨before, List.pairwise_singleton _ _, ?_⟩
      intro a ha b hb
      obtain rfl := List.mem_singleton.mp hb
      have new : last.1 ∉ entries.map (·.1) := fun h => mem (mem_keys_ofList.mpr h)
      have place : ((entries ++ [last]).map (·.1)).idxOf last.1 = (entries.map (·.1)).length := by
        rw [List.map_append, List.idxOf_append_of_notMem new]
        simp
      rw [kept a ha, place]
      exact List.idxOf_lt_length_iff.mpr (mem_keys_ofList.mp ha)

/-! ### One table over another -/

/-- The entries of a table with the values that another has for their keys, and behind them the
other entries of the other table. -/
def overlay (t u : Table κ α) : Table κ α :=
  t.map (fun entry => (entry.1, (u.get? entry.1).getD entry.2)) ++ u.filter (!t.has ·.1)

theorem has_eq_false_iff : t.has key = false ↔ key ∉ t.keys := by
  rw [← Bool.not_eq_true, has_iff, mem_keys_iff]

theorem put_append_of_mem {u : Table κ α} (h : key ∈ t.keys) :
    put key value (t ++ u) = put key value t ++ u := by
  induction t with
  | nil => cases h
  | cons entry rest ih =>
    obtain ⟨k, v⟩ := entry
    rw [List.cons_append, put, put]
    split
    · rfl
    · next apart =>
      have later : key ∈ keys rest :=
        (List.mem_cons.mp h).resolve_left fun same => apart (beq_iff_eq.mpr same.symm)
      rw [ih later, List.cons_append]

theorem put_append_of_not_mem {u : Table κ α} (h : key ∉ t.keys) :
    put key value (t ++ u) = t ++ put key value u := by
  induction t with
  | nil => rfl
  | cons entry rest ih =>
    obtain ⟨k, v⟩ := entry
    obtain ⟨apart, absent⟩ := not_or.mp (mt List.mem_cons.mpr h)
    rw [List.cons_append, put, if_neg fun same => apart (eq_of_beq same).symm, ih absent,
      List.cons_append]

theorem put_map {f : κ × α → α} (distinct : t.keys.Nodup) (h : key ∈ t.keys) :
    put key value (t.map fun entry => (entry.1, f entry)) =
      t.map fun entry => (entry.1, if entry.1 == key then value else f entry) := by
  induction t with
  | nil => cases h
  | cons entry rest ih =>
    obtain ⟨k, v⟩ := entry
    obtain ⟨new, distinct⟩ := List.nodup_cons.mp distinct
    rw [List.map_cons, List.map_cons, put]
    by_cases same : k = key
    · subst same
      have others : rest.map (fun entry => (entry.1, f entry)) =
          rest.map fun entry => (entry.1, if entry.1 == k then value else f entry) := by
        apply List.map_congr_left
        intro entry mem
        have apart : entry.1 ≠ k := by
          rintro rfl
          exact new (List.mem_map.mpr ⟨entry, mem, rfl⟩)
        rw [if_neg fun same => apart (eq_of_beq same)]
      rw [if_pos BEq.rfl, if_pos BEq.rfl, others]
    · have apart : ¬ (k == key) = true := fun eq => same (eq_of_beq eq)
      have later : key ∈ keys rest := (List.mem_cons.mp h).resolve_left fun eq => same eq.symm
      rw [if_neg apart, if_neg apart, ih distinct later]

theorem filter_put (keep : κ → Bool) :
    (put key value t).filter (keep ·.1) =
      if keep key then put key value (t.filter (keep ·.1)) else t.filter (keep ·.1) := by
  induction t with
  | nil => cases h : keep key <;> simp [put, h]
  | cons entry rest ih =>
    obtain ⟨k, v⟩ := entry
    rw [put]
    by_cases same : k = key
    · subst same
      cases h : keep k <;> simp [put, h]
    · have apart : (k == key) = false := beq_eq_false_iff_ne.mpr same
      rw [if_neg (by simp [apart]), List.filter_cons, ih, List.filter_cons]
      cases keep k <;> cases keep key <;> simp [put, apart]

theorem put_overlay {u : Table κ α} (distinct : t.keys.Nodup) :
    put key value (overlay t u) = overlay t (put key value u) := by
  have sameKeys : keys (t.map fun entry => (entry.1, (u.get? entry.1).getD entry.2)) = t.keys := by
    rw [keys, List.map_map]
    rfl
  rw [overlay, overlay, filter_put (fun k => !t.has k)]
  by_cases mem : key ∈ t.keys
  · have found : t.has key = true := has_iff.mpr (mem_keys_iff.mp mem)
    rw [put_append_of_mem (sameKeys ▸ mem), put_map distinct mem, found]
    congr 1
    apply List.map_congr_left
    intro entry _
    rw [get?_put]
    cases entry.1 == key <;> rfl
  · have missing : t.has key = false := has_eq_false_iff.mpr mem
    rw [put_append_of_not_mem (sameKeys ▸ mem), missing]
    congr 1
    apply List.map_congr_left
    intro entry hentry
    have apart : (entry.1 == key) = false :=
      beq_eq_false_iff_ne.mpr fun same => mem (same ▸ List.mem_map_of_mem hentry)
    rw [get?_put, apart]
    rfl

/-- Lists one behind the other give the table of the second over that of the first. -/
theorem ofList_append (first second : List (κ × α)) :
    ofList (first ++ second) = overlay (ofList first) (ofList second) := by
  induction second using List.reverseRecOn with
  | nil => simp [overlay, ofList, get?]
  | append_singleton second last ih =>
    rw [← List.append_assoc, ofList_snoc, ih, put_overlay (nodup_keys_ofList first), ofList_snoc]

end ParamSchema.Table
