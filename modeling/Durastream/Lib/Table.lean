import Mathlib.Data.List.Nodup
import Mathlib.Logic.Function.Basic

/-!
# Finite maps

A `Table` is a map with a list of its keys.  The field `mem_keys` says that the
list is exact, so the keys never have to be compared with the map again.

A list is a table of numbers as well, and the last section is about what is in it after
a change.
-/

/-- A finite map from `κ` to `ν`. -/
structure Table (κ ν : Type*) where
  get : κ → Option ν
  keys : List κ
  mem_keys : ∀ k, k ∈ keys ↔ (get k).isSome
  nodup : keys.Nodup

namespace Table

variable {κ ν μ : Type*}

def empty : Table κ ν := ⟨fun _ => none, [], by simp, List.nodup_nil⟩

/-- The values, in the order of the keys. -/
def values (t : Table κ ν) : List ν := t.keys.filterMap t.get

def map (f : ν → μ) (t : Table κ ν) : Table κ μ where
  get k := (t.get k).map f
  keys := t.keys
  mem_keys := by
    intro k
    rw [t.mem_keys k, Option.isSome_map]
  nodup := t.nodup

/-- The value may depend on the key. -/
def mapWithKey (f : κ → ν → μ) (t : Table κ ν) : Table κ μ where
  get k := (t.get k).map (f k)
  keys := t.keys
  mem_keys := by
    intro k
    rw [t.mem_keys k, Option.isSome_map]
  nodup := t.nodup

/-- Tables with the same values and keys are equal. -/
theorem ext {t t' : Table κ ν} (hget : ∀ k, t.get k = t'.get k) (hkeys : t.keys = t'.keys) :
    t = t' := by
  obtain ⟨get, keys, mem, nodup⟩ := t
  obtain ⟨get', keys', mem', nodup'⟩ := t'
  cases funext hget
  cases hkeys
  rfl

@[simp] theorem get_empty (k : κ) : (empty : Table κ ν).get k = none := rfl

@[simp] theorem get_map (f : ν → μ) (t : Table κ ν) (k : κ) :
    (t.map f).get k = (t.get k).map f := rfl

@[simp] theorem get_mapWithKey (f : κ → ν → μ) (t : Table κ ν) (k : κ) :
    (t.mapWithKey f).get k = (t.get k).map (f k) := rfl

/-- What a map undoes of another. -/
theorem map_mapWithKey {f : κ → ν → μ} {g : μ → ν} (h : ∀ k v, g (f k v) = v) (t : Table κ ν) :
    (t.mapWithKey f).map g = t := by
  refine ext (fun k => ?_) rfl
  rw [get_map, get_mapWithKey]
  cases t.get k with
  | none => rfl
  | some v => exact congrArg some (h k v)

theorem mem_values {t : Table κ ν} {k : κ} {v : ν} (h : t.get k = some v) : v ∈ t.values :=
  List.mem_filterMap.mpr ⟨k, (t.mem_keys k).mpr (by rw [h]; rfl), h⟩

theorem exists_of_mem_values {t : Table κ ν} {v : ν} (h : v ∈ t.values) :
    ∃ k, t.get k = some v := by
  obtain ⟨k, -, hk⟩ := List.mem_filterMap.mp h
  exact ⟨k, hk⟩

variable [DecidableEq κ]

def set (t : Table κ ν) (k : κ) (v : ν) : Table κ ν where
  get := Function.update t.get k (some v)
  keys := if (t.get k).isSome then t.keys else t.keys ++ [k]
  mem_keys := by
    intro j
    by_cases hj : j = k
    · subst hj
      by_cases hsome : (t.get j).isSome
      · simp [hsome, (t.mem_keys j).mpr hsome]
      · simp [hsome]
    · rw [Function.update_of_ne hj, ← t.mem_keys j]
      split <;> simp [hj]
  nodup := by
    split
    · exact t.nodup
    · next hnone =>
        refine List.nodup_append.mpr ⟨t.nodup, List.nodup_singleton k, ?_⟩
        intro a ha b hb hab
        rw [List.mem_singleton.mp hb] at hab
        exact hnone ((t.mem_keys k).mp (hab ▸ ha))

def erase (t : Table κ ν) (k : κ) : Table κ ν where
  get := Function.update t.get k none
  keys := t.keys.filter (· ≠ k)
  mem_keys := by
    intro j
    by_cases hj : j = k
    · subst hj
      simp
    · simp [hj, t.mem_keys j]
  nodup := t.nodup.filter _

@[simp] theorem get_set_self (t : Table κ ν) (k : κ) (v : ν) : (t.set k v).get k = some v :=
  Function.update_self _ _ _

theorem get_set_of_ne (t : Table κ ν) {j k : κ} (h : j ≠ k) (v : ν) :
    (t.set k v).get j = t.get j := Function.update_of_ne h _ _

@[simp] theorem get_erase_self (t : Table κ ν) (k : κ) : (t.erase k).get k = none :=
  Function.update_self _ _ _

theorem get_erase_of_ne (t : Table κ ν) {j k : κ} (h : j ≠ k) : (t.erase k).get j = t.get j :=
  Function.update_of_ne h _ _

theorem map_set (f : ν → μ) (t : Table κ ν) (k : κ) (v : ν) :
    (t.set k v).map f = (t.map f).set k (f v) := by
  refine ext (fun j => ?_) ?_
  · by_cases hj : j = k
    · subst hj
      rw [get_map, get_set_self, get_set_self, Option.map_some]
    · rw [get_map, get_set_of_ne t hj, get_set_of_ne _ hj, get_map]
  · show (if (t.get k).isSome then t.keys else t.keys ++ [k]) =
      if ((t.get k).map f).isSome then t.keys else t.keys ++ [k]
    rw [Option.isSome_map]

theorem map_erase (f : ν → μ) (t : Table κ ν) (k : κ) : (t.erase k).map f = (t.map f).erase k := by
  refine ext (fun j => ?_) rfl
  by_cases hj : j = k
  · subst hj
    rw [get_map, get_erase_self, get_erase_self, Option.map_none]
  · rw [get_map, get_erase_of_ne t hj, get_erase_of_ne _ hj, get_map]

/-- Setting a key to the value it has changes nothing. -/
theorem set_of_get_eq {t : Table κ ν} {k : κ} {v : ν} (h : t.get k = some v) : t.set k v = t := by
  refine ext (fun j => ?_) ?_
  · by_cases hj : j = k
    · subst hj
      rw [get_set_self, h]
    · exact get_set_of_ne t hj v
  · show (if (t.get k).isSome then t.keys else t.keys ++ [k]) = t.keys
    rw [h]
    rfl

end Table

/-! ## Lists as tables of numbers -/

namespace List

variable {α : Type*} {l : List α} {x y : α} {i j : Nat}

/-- An element of a list in which one has been replaced. -/
theorem getElem?_set_cases (h : (l.set i x)[j]? = some y) :
    (j = i ∧ y = x) ∨ (j ≠ i ∧ l[j]? = some y) := by
  by_cases hij : i = j
  · subst hij
    rw [getElem?_set_self'] at h
    obtain ⟨_, -, rfl⟩ := Option.map_eq_some_iff.mp h
    exact .inl ⟨rfl, rfl⟩
  · rw [getElem?_set_ne hij] at h
    exact .inr ⟨fun heq => hij heq.symm, h⟩

/-- An element of a list with one more at the end. -/
theorem getElem?_concat_cases (h : (l ++ [x])[i]? = some y) :
    l[i]? = some y ∨ (i = l.length ∧ y = x) := by
  by_cases hlt : i < l.length
  · exact .inl (by rwa [getElem?_append_left hlt] at h)
  · have hlen := (getElem?_eq_some_iff.mp h).1
    rw [length_append, length_singleton] at hlen
    obtain rfl : i = l.length := Nat.le_antisymm (Nat.le_of_lt_succ hlen) (Nat.le_of_not_lt hlt)
    rw [getElem?_concat_length] at h
    exact .inr ⟨rfl, (Option.some.inj h).symm⟩

/-- An element of a list with an image of each element at the end. -/
theorem getElem?_append_map_cases {f : α → α} (h : (l ++ l.map f)[i]? = some y) :
    l[i]? = some y ∨ ∃ k x, i = l.length + k ∧ l[k]? = some x ∧ y = f x := by
  by_cases hlt : i < l.length
  · exact .inl (by rwa [getElem?_append_left hlt] at h)
  · obtain ⟨k, rfl⟩ := Nat.exists_eq_add_of_le (Nat.le_of_not_lt hlt)
    rw [getElem?_append_right (Nat.le_add_right _ _), Nat.add_sub_cancel_left, getElem?_map] at h
    obtain ⟨x, hx, rfl⟩ := Option.map_eq_some_iff.mp h
    exact .inr ⟨k, x, rfl, hx, rfl⟩

theorem getElem?_append_map {f : α → α} (h : l[i]? = some x) :
    (l ++ l.map f)[l.length + i]? = some (f x) := by
  rw [getElem?_append_right (Nat.le_add_right _ _), Nat.add_sub_cancel_left, getElem?_map, h,
    Option.map_some]

end List
