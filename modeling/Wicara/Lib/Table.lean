import Mathlib.Data.List.Nodup
import Mathlib.Data.Option.Basic
import Mathlib.Tactic.Common

universe u v w

namespace Wicara.Lib

/-- A table with a primary key, its rows in the order they were first inserted. -/
structure Table (κ : Type u) (ν : Type v) where
  rows : List (κ × ν)
  nodup : (rows.map Prod.fst).Nodup

namespace Table

variable {κ : Type u} {ν : Type v}

def empty : Table κ ν := ⟨[], List.nodup_nil⟩

def keys (t : Table κ ν) : List κ := t.rows.map Prod.fst

/-- `DELETE` of the rows that `p` holds of. -/
def deleteWhere (p : κ → ν → Bool) (t : Table κ ν) : Table κ ν where
  rows := t.rows.filter fun r => !p r.1 r.2
  nodup := t.nodup.sublist (List.filter_sublist.map _)

theorem nodup_append_row {rows : List (κ × ν)} (h : (rows.map Prod.fst).Nodup) {k : κ}
    (hk : k ∉ rows.map Prod.fst) (v : ν) : ((rows ++ [(k, v)]).map Prod.fst).Nodup := by
  rw [List.map_append, List.nodup_append]
  refine ⟨h, List.nodup_singleton k, ?_⟩
  intro a ha b hb hab
  obtain rfl := List.mem_singleton.mp hb
  exact hk (hab ▸ ha)

theorem mem_rows_append {rows : List (κ × ν)} {k k' : κ} {v v' : ν} :
    (k', v') ∈ rows ++ [(k, v)] ↔ (k', v') ∈ rows ∨ k' = k ∧ v' = v := by
  simp

theorem ext_rows {t t' : Table κ ν} (h : t.rows = t'.rows) : t = t' := by
  cases t
  cases t'
  cases h
  rfl

variable [DecidableEq κ]

def get (t : Table κ ν) (k : κ) : Option ν := t.rows.lookup k

def containsKey (t : Table κ ν) (k : κ) : Bool := (t.get k).isSome

def erase (k : κ) (t : Table κ ν) : Table κ ν := t.deleteWhere fun k' _ => k' = k

/-- `INSERT OR IGNORE`: a key that is there keeps its row. -/
def insertOrIgnore (k : κ) (v : ν) (t : Table κ ν) : Table κ ν :=
  if h : k ∈ t.keys then t else ⟨t.rows ++ [(k, v)], nodup_append_row t.nodup h v⟩

theorem keys_update (rows : List (κ × ν)) (k : κ) (v : ν) :
    (rows.map fun r => if r.1 = k then (k, v) else r).map Prod.fst = rows.map Prod.fst := by
  rw [List.map_map]
  refine List.map_congr_left fun r _ => ?_
  by_cases h : r.1 = k <;> simp [h]

/-- `INSERT … ON CONFLICT DO UPDATE`: a key that is there keeps its place. -/
def upsert (k : κ) (v : ν) (t : Table κ ν) : Table κ ν :=
  if h : k ∈ t.keys then
    ⟨t.rows.map fun r => if r.1 = k then (k, v) else r, by rw [keys_update]; exact t.nodup⟩
  else ⟨t.rows ++ [(k, v)], nodup_append_row t.nodup h v⟩

theorem rows_upsert_of_mem {t : Table κ ν} {k : κ} (h : k ∈ t.keys) (v : ν) :
    (t.upsert k v).rows = t.rows.map fun r => if r.1 = k then (k, v) else r := by
  rw [upsert, dif_pos h]

theorem rows_upsert_of_not_mem {t : Table κ ν} {k : κ} (h : k ∉ t.keys) (v : ν) :
    (t.upsert k v).rows = t.rows ++ [(k, v)] := by
  rw [upsert, dif_neg h]

theorem lookup_eq_some {rows : List (κ × ν)} (h : (rows.map Prod.fst).Nodup) {k : κ} {v : ν} :
    rows.lookup k = some v ↔ (k, v) ∈ rows := by
  induction rows with
  | nil => simp
  | cons r rows ih =>
    obtain ⟨k', v'⟩ := r
    simp only [List.map_cons, List.nodup_cons] at h
    rw [List.lookup_cons]
    by_cases hk : k = k'
    · subst hk
      have hne : (k, v) ∉ rows := fun hm => h.1 (List.mem_map_of_mem (f := Prod.fst) hm)
      simp [hne, eq_comm]
    · have hb : (k == k') = false := beq_eq_false_iff_ne.mpr hk
      simp [hb, hk, ih h.2]

theorem get_eq_some {t : Table κ ν} {k : κ} {v : ν} : t.get k = some v ↔ (k, v) ∈ t.rows :=
  lookup_eq_some t.nodup

theorem get_eq_none {t : Table κ ν} {k : κ} : t.get k = none ↔ k ∉ t.keys := by
  rw [Option.eq_none_iff_forall_ne_some]
  simp only [ne_eq, get_eq_some, keys, List.mem_map, Prod.exists, exists_and_right,
    exists_eq_right, not_exists]

theorem mem_keys {t : Table κ ν} {k : κ} : k ∈ t.keys ↔ ∃ v, t.get k = some v := by
  simp only [get_eq_some, keys, List.mem_map, Prod.exists, exists_and_right, exists_eq_right]

@[simp] theorem containsKey_iff {t : Table κ ν} {k : κ} : t.containsKey k = true ↔ k ∈ t.keys := by
  rw [containsKey, mem_keys, Option.isSome_iff_exists]

@[simp] theorem get_empty (k : κ) : (empty : Table κ ν).get k = none := rfl

theorem get_deleteWhere (p : κ → ν → Bool) (t : Table κ ν) (k : κ) :
    (t.deleteWhere p).get k = (t.get k).filter fun v => !p k v := by
  ext v
  rw [Option.filter_eq_some_iff, get_eq_some, get_eq_some]
  simp [deleteWhere]

@[simp] theorem get_erase (t : Table κ ν) (k k' : κ) :
    (t.erase k).get k' = if k' = k then none else t.get k' := by
  rw [erase, get_deleteWhere]
  cases t.get k' with
  | none => simp
  | some v => by_cases h : k' = k <;> simp [h]

@[simp] theorem get_upsert (t : Table κ ν) (k k' : κ) (v : ν) :
    (t.upsert k v).get k' = if k' = k then some v else t.get k' := by
  by_cases h : k ∈ t.keys
  · rw [upsert, dif_pos h]
    ext w
    rw [get_eq_some]
    simp only [List.mem_map, Prod.exists]
    by_cases hk : k' = k
    · subst hk
      rw [if_pos rfl, Option.some.injEq]
      obtain ⟨old, hold⟩ := mem_keys.mp h
      constructor
      · rintro ⟨a, b, hab, he⟩
        by_cases ha : a = k'
        · simp_all
        · simp_all
      · rintro rfl
        exact ⟨k', old, get_eq_some.mp hold, by simp⟩
    · rw [if_neg hk, get_eq_some]
      constructor
      · rintro ⟨a, b, hab, he⟩
        by_cases ha : a = k
        · simp_all
        · simp_all
      · intro hm
        exact ⟨k', w, hm, by simp [hk]⟩
  · have hn := get_eq_none.mpr h
    rw [upsert, dif_neg h]
    ext w
    rw [get_eq_some, mem_rows_append, ← get_eq_some]
    by_cases hk : k' = k <;> simp [hk, hn, eq_comm]

@[simp] theorem mem_keys_upsert {t : Table κ ν} {k k' : κ} {v : ν} :
    k' ∈ (t.upsert k v).keys ↔ k' = k ∨ k' ∈ t.keys := by
  rw [mem_keys, mem_keys]
  by_cases h : k' = k <;> simp [h]

@[simp] theorem mem_keys_erase {t : Table κ ν} {k k' : κ} :
    k' ∈ (t.erase k).keys ↔ k' ≠ k ∧ k' ∈ t.keys := by
  rw [mem_keys, mem_keys]
  by_cases h : k' = k <;> simp [h]

theorem insertOrIgnore_of_mem {t : Table κ ν} {k : κ} (h : k ∈ t.keys) (v : ν) :
    t.insertOrIgnore k v = t := by
  rw [insertOrIgnore, dif_pos h]

theorem rows_insertOrIgnore {t : Table κ ν} {k : κ} (h : k ∉ t.keys) (v : ν) :
    (t.insertOrIgnore k v).rows = t.rows ++ [(k, v)] := by
  rw [insertOrIgnore, dif_neg h]

theorem get_insertOrIgnore (t : Table κ ν) (k k' : κ) (v : ν) :
    (t.insertOrIgnore k v).get k' = (t.get k').or (if k' = k then some v else none) := by
  by_cases h : k ∈ t.keys
  · rw [insertOrIgnore, dif_pos h]
    split
    · rename_i hk
      obtain ⟨w, hw⟩ := mem_keys.mp h
      simp [hk, hw]
    · simp
  · have hnone := get_eq_none.mpr h
    ext w
    rw [get_eq_some, rows_insertOrIgnore h, mem_rows_append, ← get_eq_some]
    by_cases hk : k' = k
    · simp [hk, hnone, eq_comm]
    · simp [hk]

@[simp] theorem mem_keys_insertOrIgnore {t : Table κ ν} {k k' : κ} {v : ν} :
    k' ∈ (t.insertOrIgnore k v).keys ↔ k' = k ∨ k' ∈ t.keys := by
  rw [mem_keys, mem_keys, get_insertOrIgnore]
  cases t.get k' with
  | none => by_cases h : k' = k <;> simp [h]
  | some w => simp

theorem mem_insertOrIgnore {t : Table κ ν} {k : κ} {v : ν} {r : κ × ν}
    (h : r ∈ (t.insertOrIgnore k v).rows) : r ∈ t.rows ∨ k ∉ t.keys ∧ r = (k, v) := by
  by_cases hk : k ∈ t.keys
  · rw [insertOrIgnore_of_mem hk] at h
    exact .inl h
  · rw [rows_insertOrIgnore hk, List.mem_append, List.mem_singleton] at h
    exact h.imp_right fun hr => ⟨hk, hr⟩

/-- `collect` into a map: of two rows with one key the later is kept. -/
def collect (rows : List (κ × ν)) : Table κ ν := rows.foldl (fun t r => t.upsert r.1 r.2) empty

theorem foldl_upsert {t : Table κ ν} {rows : List (κ × ν)}
    (h : ((t.rows ++ rows).map Prod.fst).Nodup) :
    (rows.foldl (fun t r => t.upsert r.1 r.2) t).rows = t.rows ++ rows := by
  induction rows generalizing t with
  | nil => simp
  | cons r rows ih =>
    have hr : r.1 ∉ t.keys := by
      intro hmem
      rw [List.map_append, List.nodup_append] at h
      exact h.2.2 _ hmem _ List.mem_cons_self rfl
    have ht : (t.upsert r.1 r.2).rows = t.rows ++ [r] := by rw [upsert, dif_neg hr]
    rw [List.foldl_cons, ih (by rw [ht, List.append_assoc]; exact h), ht, List.append_assoc]
    rfl

theorem get_collect {rows : List (κ × ν)} (h : (rows.map Prod.fst).Nodup) {k : κ} {v : ν} :
    (collect rows).get k = some v ↔ (k, v) ∈ rows := by
  rw [get_eq_some, collect, foldl_upsert (by exact h)]
  rfl

section MapValues

variable {ν' : Type w} (f : ν → ν') (t : Table κ ν)

/-- The table whose columns are read through `f`. -/
def mapValues : Table κ ν' where
  rows := t.rows.map fun r => (r.1, f r.2)
  nodup := by
    rw [List.map_map]
    exact t.nodup

omit [DecidableEq κ] in
theorem rows_mapValues : (t.mapValues f).rows = t.rows.map fun r => (r.1, f r.2) := rfl

omit [DecidableEq κ] in
@[simp] theorem keys_mapValues : (t.mapValues f).keys = t.keys := by
  rw [keys, rows_mapValues, List.map_map]
  rfl

omit [DecidableEq κ] in
@[simp] theorem mapValues_empty : (empty : Table κ ν).mapValues f = empty := rfl

omit [DecidableEq κ] in
theorem mapValues_deleteWhere {p : κ → ν → Bool} {q : κ → ν' → Bool}
    (h : ∀ k v, q k (f v) = p k v) :
    (t.deleteWhere p).mapValues f = (t.mapValues f).deleteWhere q := by
  refine ext_rows ?_
  simp only [deleteWhere, rows_mapValues, List.filter_map, Function.comp_def, h]

@[simp] theorem get_mapValues (k : κ) : (t.mapValues f).get k = (t.get k).map f := by
  ext w
  simp only [get_eq_some, rows_mapValues, List.mem_map, Prod.mk.injEq, Prod.exists,
    Option.map_eq_some_iff]
  constructor
  · rintro ⟨k', v, hmem, rfl, hw⟩
    exact ⟨v, hmem, hw⟩
  · rintro ⟨v, hmem, hw⟩
    exact ⟨k, v, hmem, rfl, hw⟩

@[simp] theorem mapValues_erase (k : κ) : (t.erase k).mapValues f = (t.mapValues f).erase k :=
  mapValues_deleteWhere f t fun _ _ => rfl

@[simp] theorem mapValues_insertOrIgnore (k : κ) (v : ν) :
    (t.insertOrIgnore k v).mapValues f = (t.mapValues f).insertOrIgnore k (f v) := by
  by_cases h : k ∈ t.keys
  · rw [insertOrIgnore_of_mem h, insertOrIgnore_of_mem (by rwa [keys_mapValues])]
  · refine ext_rows ?_
    rw [rows_insertOrIgnore (by rwa [keys_mapValues]), rows_mapValues, rows_insertOrIgnore h,
      List.map_append]
    rfl

@[simp] theorem mapValues_upsert (k : κ) (v : ν) :
    (t.upsert k v).mapValues f = (t.mapValues f).upsert k (f v) := by
  refine ext_rows ?_
  by_cases h : k ∈ t.keys
  · rw [rows_upsert_of_mem (by rwa [keys_mapValues]), rows_mapValues, rows_upsert_of_mem h,
      rows_mapValues, List.map_map, List.map_map]
    refine List.map_congr_left fun r _ => ?_
    rw [Function.comp_apply, Function.comp_apply, apply_ite fun r : κ × ν => (r.1, f r.2)]
  · rw [rows_upsert_of_not_mem (by rwa [keys_mapValues]), rows_mapValues,
      rows_upsert_of_not_mem h, List.map_append]
    rfl

end MapValues

end Table

end Wicara.Lib
