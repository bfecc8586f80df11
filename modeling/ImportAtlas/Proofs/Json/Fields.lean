import Mathlib.Data.List.Nodup
import ImportAtlas.Json.Relaxed
import ImportAtlas.Proofs.Json.Written

/-!
# Fields of objects

A field that is set is found with its new value, and all others as before. An object that is read
from a text has each key once, at any depth, so that setting its fields one after the other puts them
before those that were there.
-/

namespace ImportAtlas.Json

section Setting

variable {α : Type} {fields own : List (String × α)} {key other : String} {value : α}

/-- A field that was set is found by its key. -/
theorem lookup_setField (fields : List (String × α)) (key : String) (value : α) (other : String) :
    (setField fields key value).lookup other =
      if other = key then some value else fields.lookup other := by
  induction fields with
  | nil =>
    rw [setField, List.lookup_cons, List.lookup_nil]
    by_cases heq : other = key
    · simp [heq]
    · simp [heq, beq_false_of_ne heq]
  | cons field fields ih =>
    obtain ⟨k, v⟩ := field
    rw [setField]
    by_cases hk : k = key
    · subst hk
      rw [if_pos rfl, List.lookup_cons, List.lookup_cons]
      by_cases heq : other = k
      · simp [heq]
      · simp [heq, beq_false_of_ne heq]
    · rw [if_neg hk, List.lookup_cons, List.lookup_cons, ih]
      by_cases heq : other = k
      · simp [heq, hk]
      · simp [beq_false_of_ne heq]

/-- Setting a field adds no field but this one. -/
theorem mem_setField {field : String × α} (h : field ∈ setField fields key value) :
    field = (key, value) ∨ field ∈ fields := by
  induction fields with
  | nil => exact .inl (List.mem_singleton.mp h)
  | cons first fields ih =>
    rw [setField] at h
    split at h
    · next hkey =>
      rcases List.mem_cons.mp h with rfl | h
      · exact .inl (by rw [hkey])
      · exact .inr (List.mem_cons_of_mem _ h)
    · rcases List.mem_cons.mp h with rfl | h
      · exact .inr List.mem_cons_self
      · exact (ih h).imp_right (List.mem_cons_of_mem _)

/-- Setting a field keeps the keys distinct. -/
theorem nodup_keys_setField (h : (fields.map Prod.fst).Nodup) :
    ((setField fields key value).map Prod.fst).Nodup := by
  induction fields with
  | nil => simp [setField]
  | cons first fields ih =>
    rw [List.map_cons, List.nodup_cons] at h
    rw [setField]
    split
    · next hkey =>
      rw [List.map_cons, List.nodup_cons]
      exact h
    · next hkey =>
      rw [List.map_cons, List.nodup_cons]
      refine ⟨fun hmem => ?_, ih h.2⟩
      obtain ⟨field, hfield, hfst⟩ := List.mem_map.mp hmem
      rcases mem_setField hfield with rfl | hfield
      · exact hkey hfst.symm
      · exact h.1 (List.mem_map.mpr ⟨field, hfield, hfst⟩)

/-- Fields that are set one after the other are found before those that were there. -/
theorem lookup_foldl_setField (h : (own.map Prod.fst).Nodup) (fields : List (String × α))
    (key : String) :
    (own.foldl (fun merged field => setField merged field.1 field.2) fields).lookup key =
      (own.lookup key).or (fields.lookup key) := by
  induction own generalizing fields with
  | nil => rfl
  | cons field own ih =>
    rw [List.map_cons, List.nodup_cons] at h
    rw [List.foldl_cons, ih h.2, lookup_setField, List.lookup_cons]
    by_cases heq : key = field.1
    · have hnone : own.lookup key = none := by
        rw [List.lookup_eq_none_iff]
        intro other hother
        simpa using fun hkey => h.1 (List.mem_map.mpr ⟨other, hother, (heq ▸ hkey).symm⟩)
      simp [heq, heq ▸ hnone]
    · simp [heq, beq_false_of_ne heq]

/-- Merging fields leaves each key once. -/
theorem nodup_keys_mergeFields (fields : List (String × α)) :
    ((mergeFields fields).map Prod.fst).Nodup := by
  rw [mergeFields]
  suffices h : ∀ merged : List (String × α), (merged.map Prod.fst).Nodup →
      ((fields.foldl (fun merged field => setField merged field.1 field.2) merged).map
        Prod.fst).Nodup from h [] List.nodup_nil
  induction fields with
  | nil => exact fun _ h => h
  | cons field fields ih => exact fun merged h => ih _ (nodup_keys_setField h)

/-- Merging fields adds none. -/
theorem mem_of_mem_mergeFields {field : String × α} (h : field ∈ mergeFields fields) :
    field ∈ fields := by
  rw [mergeFields] at h
  suffices hfold : ∀ merged : List (String × α),
      field ∈ fields.foldl (fun merged field => setField merged field.1 field.2) merged →
        field ∈ merged ∨ field ∈ fields from
    (hfold [] h).resolve_left List.not_mem_nil
  clear h
  induction fields with
  | nil => exact fun _ h => .inl h
  | cons first fields ih =>
    intro merged h
    rcases ih _ h with h | h
    · rcases mem_setField h with rfl | h
      · exact .inr List.mem_cons_self
      · exact .inl h
    · exact .inr (List.mem_cons_of_mem _ h)

/-- Setting a known field adds none, and setting a new one adds it at the end. -/
theorem setField_eq_append_or (fields : List (String × α)) (key : String) (value : α) :
    (key ∉ fields.map Prod.fst ∧ setField fields key value = fields ++ [(key, value)]) ∨
      (key ∈ fields.map Prod.fst ∧ (setField fields key value).length = fields.length) := by
  induction fields with
  | nil => exact .inl ⟨List.not_mem_nil, rfl⟩
  | cons field fields ih =>
    rw [setField, List.map_cons]
    split
    · next hkey => exact .inr ⟨hkey ▸ List.mem_cons_self, rfl⟩
    · next hkey =>
      rcases ih with ⟨hnew, hset⟩ | ⟨hknown, hlength⟩
      · refine .inl ⟨?_, by rw [hset]; rfl⟩
        exact fun hmem => (List.mem_cons.mp hmem).elim (Ne.symm hkey) hnew
      · exact .inr ⟨List.mem_cons_of_mem _ hknown, by rw [List.length_cons, hlength]; rfl⟩

/-- Fields that are set one after the other are no more than before and they together, and as many
only if each of them was added at the end. -/
theorem length_foldl_setField (own fields : List (String × α)) :
    let merged := own.foldl (fun merged field => setField merged field.1 field.2) fields
    merged.length ≤ fields.length + own.length ∧
      (merged.length = fields.length + own.length → merged = fields ++ own) := by
  induction own generalizing fields with
  | nil => simp
  | cons field own ih =>
    obtain ⟨hle, hsame⟩ := ih (setField fields field.1 field.2)
    rw [List.foldl_cons, List.length_cons]
    rcases setField_eq_append_or fields field.1 field.2 with ⟨-, hset⟩ | ⟨-, hlength⟩
    · rw [hset, List.length_append, List.length_singleton] at hle hsame
      rw [hset]
      refine ⟨by omega, fun heq => ?_⟩
      rw [hsame (by omega), List.append_assoc]
      rfl
    · rw [hlength] at hle
      exact ⟨by omega, fun heq => by omega⟩

/-- Fields that are merged are as many as before only if nothing is changed. -/
theorem mergeFields_eq_self_of_length (h : (mergeFields fields).length = fields.length) :
    mergeFields fields = fields := by
  have hmerged := (length_foldl_setField fields []).2
  rw [List.length_nil, Nat.zero_add, List.nil_append] at hmerged
  exact hmerged h

/-- Merging leaves fields with distinct keys as they are. -/
theorem mergeFields_eq_self (h : (fields.map Prod.fst).Nodup) : mergeFields fields = fields := by
  rw [mergeFields]
  suffices hfold : ∀ merged : List (String × α), ((merged ++ fields).map Prod.fst).Nodup →
      fields.foldl (fun merged field => setField merged field.1 field.2) merged = merged ++ fields from
    hfold [] h
  clear h
  induction fields with
  | nil => exact fun merged _ => (List.append_nil merged).symm
  | cons field fields ih =>
    intro merged hnodup
    have hnew : field.1 ∉ merged.map Prod.fst := by
      rw [List.map_append, List.nodup_append] at hnodup
      exact fun hmem => hnodup.2.2 field.1 hmem field.1 (by simp) rfl
    have hset : setField merged field.1 field.2 = merged ++ [field] :=
      (setField_eq_append_or merged field.1 field.2).elim And.right fun h => absurd h.1 hnew
    rw [List.foldl_cons, hset, ih _ (by simpa using hnodup), List.append_assoc]
    rfl

end Setting

mutual

/-- Whether all objects in a value have distinct keys. -/
def hasDistinctKeys : Json → Bool
  | .arr items => haveDistinctKeys items
  | .obj fields => decide (fields.map Prod.fst).Nodup && fieldsHaveDistinctKeys fields
  | _ => true
termination_by structural v => v

/-- Whether all objects in values have distinct keys. -/
def haveDistinctKeys : List Json → Bool
  | [] => true
  | item :: items => hasDistinctKeys item && haveDistinctKeys items
termination_by structural items => items

/-- Whether all objects in the value of a field have distinct keys. -/
def fieldHasDistinctKeys : String × Json → Bool
  | (_, v) => hasDistinctKeys v
termination_by structural field => field

/-- Whether all objects in the values of fields have distinct keys. -/
def fieldsHaveDistinctKeys : List (String × Json) → Bool
  | [] => true
  | field :: fields => fieldHasDistinctKeys field && fieldsHaveDistinctKeys fields
termination_by structural fields => fields

end

/-- Fields have distinct keys if each of their values has. -/
theorem fieldsHaveDistinctKeys_iff {fields : List (String × Json)} :
    fieldsHaveDistinctKeys fields ↔ ∀ field ∈ fields, hasDistinctKeys field.2 := by
  induction fields with
  | nil => simp [fieldsHaveDistinctKeys]
  | cons field fields ih =>
    have hfield : fieldHasDistinctKeys field = hasDistinctKeys field.2 := by
      rw [fieldHasDistinctKeys]
    rw [fieldsHaveDistinctKeys, Bool.and_eq_true, ih, hfield, List.forall_mem_cons]

/-- Merged fields make an object with distinct keys. -/
theorem hasDistinctKeys_mergeFields {fields : List (String × Json)}
    (h : fieldsHaveDistinctKeys fields) : hasDistinctKeys (.obj (mergeFields fields)) := by
  rw [hasDistinctKeys, Bool.and_eq_true, decide_eq_true_eq]
  rw [fieldsHaveDistinctKeys_iff] at h ⊢
  exact ⟨nodup_keys_mergeFields fields, fun field hfield => h field (mem_of_mem_mergeFields hfield)⟩

/-- An object in an object with distinct keys has distinct keys. -/
theorem nodup_keys_of_lookup {fields options : List (String × Json)} {key : String}
    (h : hasDistinctKeys (.obj fields)) (hoptions : fields.lookup key = some (.obj options)) :
    (options.map Prod.fst).Nodup := by
  rw [hasDistinctKeys, Bool.and_eq_true, fieldsHaveDistinctKeys_iff] at h
  obtain ⟨before, rest, hfields, -⟩ := List.lookup_eq_some_iff.mp hoptions
  have hvalue := h.2 (key, .obj options) (by simp [hfields])
  rw [hasDistinctKeys, Bool.and_eq_true, decide_eq_true_eq] at hvalue
  exact hvalue.1

/-- A literal or a number holds no object. -/
theorem hasDistinctKeys_of_takeScalar {s rest : List Char} {v : Json}
    (h : takeScalar s = some (v, rest)) : hasDistinctKeys v := by
  rcases takeScalar_eq_some h with ⟨literal, hmem, -, rfl⟩ | h
  · have hliterals : ∀ literal ∈ literals, hasDistinctKeys literal.2 := by
      simp [literals, hasDistinctKeys]
    exact hliterals literal hmem
  · unfold takeNumber at h
    repeat' split at h
    all_goals
      cases h
      try rfl

mutual

/-- A written value has distinct keys: the fields of an object are merged, at any depth. -/
theorem Written.hasDistinctKeys_value : ∀ w : Written, hasDistinctKeys w.value
  | .scalar scalar => hasDistinctKeys_of_takeScalar (scalar.takeScalar_append [] (by simp [Text.Stops]))
  | .quotation _ => rfl
  | .emptyArray _ => rfl
  | .array items => by
    rw [Written.value, hasDistinctKeys]
    exact items.haveDistinctKeys_values
  | .emptyObject _ => rfl
  | .object fields => by
    rw [Written.value]
    exact hasDistinctKeys_mergeFields fields.fieldsHaveDistinctKeys_fields

/-- Written items have distinct keys. -/
theorem WrittenItems.haveDistinctKeys_values : ∀ items : WrittenItems, haveDistinctKeys items.values
  | .last _ item _ => by
    rw [WrittenItems.values, haveDistinctKeys, item.hasDistinctKeys_value]
    rfl
  | .more _ item _ others => by
    rw [WrittenItems.values, haveDistinctKeys, item.hasDistinctKeys_value,
      others.haveDistinctKeys_values]
    rfl

/-- The values of written fields have distinct keys. -/
theorem WrittenFields.fieldsHaveDistinctKeys_fields :
    ∀ fields : WrittenFields, fieldsHaveDistinctKeys fields.fields
  | .last _ value _ => by
    rw [WrittenFields.fields, fieldsHaveDistinctKeys, fieldHasDistinctKeys,
      value.hasDistinctKeys_value]
    rfl
  | .more _ value _ others => by
    rw [WrittenFields.fields, fieldsHaveDistinctKeys, fieldHasDistinctKeys,
      value.hasDistinctKeys_value, others.fieldsHaveDistinctKeys_fields]
    rfl

end

/-- What is read from a configuration has distinct keys. -/
theorem hasDistinctKeys_of_readRelaxed? {s : List Char} {v : Json} (h : readRelaxed? s = some v) :
    hasDistinctKeys v := by
  rw [readRelaxed?] at h
  obtain ⟨t, -, rfl⟩ := read?_eq_some_iff.mp h
  exact t.value.hasDistinctKeys_value

end ImportAtlas.Json
