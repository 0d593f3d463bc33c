import Mathlib.Tactic
import Mathlib.Data.List.Nodup

/-! Maps that keep the order in which their keys were added, as association
lists. A key occurs at most once; the order is part of the value. -/
namespace OrderedMap

open List Option

variable {κ α : Type*} [BEq κ] [LawfulBEq κ] [DecidableEq κ]

/-- Reading a map, one entry at a time. -/
theorem lookup_cons (entry : κ × α) (rest : List (κ × α)) (key : κ) :
    (entry :: rest).lookup key = if key = entry.1 then some entry.2 else rest.lookup key := by
  rw [List.lookup_cons]
  by_cases h : key = entry.1
  · simp [h]
  · rw [beq_eq_false_iff_ne.mpr h, if_neg h]

theorem lookup_eq_none_iff (entries : List (κ × α)) (key : κ) :
    entries.lookup key = none ↔ key ∉ entries.map Prod.fst := by
  induction entries with
  | nil => simp
  | cons entry rest ih =>
    rw [lookup_cons, map_cons, mem_cons]
    split_ifs with h <;> simp [h, ih]

theorem lookup_append (first second : List (κ × α)) (key : κ) :
    (first ++ second).lookup key = (first.lookup key).or (second.lookup key) := by
  induction first with
  | nil => simp
  | cons entry rest ih =>
    rw [cons_append, lookup_cons, lookup_cons, ih]
    split_ifs <;> simp

variable {entries : List (κ × α)}

variable {key : κ} {value : α}

theorem mem_of_lookup (h : entries.lookup key = some value) : (key, value) ∈ entries := by
  induction entries with
  | nil => simp at h
  | cons entry rest ih =>
    rw [lookup_cons] at h
    split_ifs at h with hKey
    · simp only [some.injEq] at h
      simp [hKey, ← h]
    · exact mem_cons_of_mem _ (ih h)

/-- With distinct keys, the entries are exactly what the map reads back. -/
theorem lookup_eq_some_iff (hNodup : (entries.map Prod.fst).Nodup)
    (key : κ) (value : α) : entries.lookup key = some value ↔ (key, value) ∈ entries := by
  refine ⟨mem_of_lookup, fun hMem => ?_⟩
  induction entries with
  | nil => simp at hMem
  | cons entry rest ih =>
    rw [map_cons, nodup_cons] at hNodup
    rw [lookup_cons]
    rcases mem_cons.mp hMem with rfl | hMem
    · simp
    · have hNe : key ≠ entry.1 := by
        rintro rfl
        exact hNodup.1 (mem_map.mpr ⟨_, hMem, rfl⟩)
      rw [if_neg hNe, ih hNodup.2 hMem]

/-- Overwrite the value of a key in place. -/
def replace (key : κ) (value : α) : List (κ × α) → List (κ × α)
  | [] => []
  | entry :: rest => if entry.1 = key then (key, value) :: rest else entry :: replace key value rest

/-- `Map.set`: an existing key keeps its place, a new one goes last. -/
def set (entries : List (κ × α)) (key : κ) (value : α) : List (κ × α) :=
  if (entries.lookup key).isSome then replace key value entries else entries ++ [(key, value)]

/-- `Map.delete`. -/
def erase (entries : List (κ × α)) (key : κ) : List (κ × α) :=
  entries.filter fun entry => entry.1 ≠ key

theorem lookup_replace (entries : List (κ × α)) (key : κ) (value : α) (other : κ) (hOld : entries.lookup key ≠ none) :
    (replace key value entries).lookup other =
      if other = key then some value else entries.lookup other := by
  induction entries with
  | nil => simp at hOld
  | cons entry rest ih =>
    rw [lookup_cons] at hOld
    rw [replace]
    by_cases hEntry : entry.1 = key
    · rw [if_pos hEntry, lookup_cons, lookup_cons, hEntry]
      split_ifs <;> rfl
    · rw [if_neg (Ne.symm hEntry)] at hOld
      rw [if_neg hEntry, lookup_cons, lookup_cons, ih hOld]
      by_cases hOther : other = key
      · simp [hOther, Ne.symm hEntry]
      · simp [hOther]

omit [BEq κ] [LawfulBEq κ] in
@[simp] theorem keys_replace (entries : List (κ × α)) (key : κ) (value : α) :
    (replace key value entries).map Prod.fst = entries.map Prod.fst := by
  induction entries with
  | nil => rfl
  | cons entry rest ih =>
    rw [replace]
    split_ifs with h
    · simp [h]
    · simp [ih]

omit [BEq κ] [LawfulBEq κ] in
theorem replace_replace (entries : List (κ × α)) (key : κ) (value new : α) :
    replace key new (replace key value entries) = replace key new entries := by
  induction entries with
  | nil => rfl
  | cons entry rest ih =>
    by_cases hKey : entry.1 = key <;> simp [replace, hKey, ih]

omit [BEq κ] [LawfulBEq κ] in
/-- Two keys may be overwritten in either order. -/
theorem replace_comm (entries : List (κ × α)) {other : κ} (hOther : other ≠ key) (value new : α) :
    replace other new (replace key value entries) = replace key value (replace other new entries) := by
  induction entries with
  | nil => rfl
  | cons entry rest ih =>
    by_cases hKey : entry.1 = key
    · simp [replace, hKey, hOther.symm]
    · by_cases hEntry : entry.1 = other
      · simp [replace, hEntry, hOther]
      · simp [replace, hKey, hEntry, ih]

/-- Setting a key changes that key and no other. -/
theorem lookup_set (entries : List (κ × α)) (key : κ) (value : α) (other : κ) :
    (set entries key value).lookup other =
      if other = key then some value else entries.lookup other := by
  rw [set]
  split_ifs with hOld hOther hOther
  · rw [lookup_replace _ _ _ _ (isSome_iff_ne_none.mp hOld), if_pos hOther]
  · rw [lookup_replace _ _ _ _ (isSome_iff_ne_none.mp hOld), if_neg hOther]
  · have hNone : entries.lookup key = none := not_isSome_iff_eq_none.mp hOld
    simp [lookup_append, hOther, hNone, lookup_cons]
  · simp [lookup_append, lookup_cons, hOther]

@[simp] theorem lookup_set_self (entries : List (κ × α)) (key : κ) (value : α) :
    (set entries key value).lookup key = some value := by
  rw [lookup_set, if_pos rfl]

theorem lookup_set_of_ne (entries : List (κ × α)) {other : κ} (value : α)
    (h : other ≠ key) : (set entries key value).lookup other = entries.lookup other := by
  rw [lookup_set, if_neg h]

/-- Deleting a key changes that key and no other. -/
theorem lookup_erase (entries : List (κ × α)) (key other : κ) :
    (erase entries key).lookup other = if other = key then none else entries.lookup other := by
  induction entries with
  | nil => simp [erase]
  | cons entry rest ih =>
    rw [erase] at ih ⊢
    by_cases hEntry : entry.1 = key
    · rw [filter_cons_of_neg (by simp [hEntry]), ih, lookup_cons, hEntry]
      split_ifs <;> rfl
    · rw [filter_cons_of_pos (by simp [hEntry]), lookup_cons, lookup_cons, ih]
      by_cases hOther : other = key
      · simp [hOther, Ne.symm hEntry]
      · simp [hOther]

/-- Deleting a key that is not there changes nothing. -/
theorem erase_of_lookup_eq_none (h : entries.lookup key = none) : erase entries key = entries := by
  rw [erase, filter_eq_self]
  intro entry hEntry
  rw [lookup_eq_none_iff] at h
  rw [decide_eq_true_iff]
  rintro rfl
  exact h (mem_map_of_mem hEntry)

theorem mem_keys_set (entries : List (κ × α)) (key : κ) (value : α) (other : κ) :
    other ∈ (set entries key value).map Prod.fst ↔ other = key ∨ other ∈ entries.map Prod.fst := by
  rw [← not_iff_not, ← lookup_eq_none_iff, lookup_set, not_or, ← lookup_eq_none_iff]
  split_ifs with h <;> simp [h]

omit [LawfulBEq κ] in
theorem mem_set {entry : κ × α} (h : entry ∈ set entries key value) :
    entry = (key, value) ∨ entry ∈ entries := by
  have hReplace : ∀ entries : List (κ × α), entry ∈ replace key value entries → entry = (key, value) ∨ entry ∈ entries := by
    intro entries hMem
    induction entries with
    | nil => exact absurd hMem not_mem_nil
    | cons first rest ih =>
      rw [replace] at hMem
      split_ifs at hMem
      · exact (mem_cons.mp hMem).imp_right (mem_cons_of_mem first)
      · rcases mem_cons.mp hMem with rfl | hRest
        · exact Or.inr mem_cons_self
        · exact (ih hRest).imp_right (mem_cons_of_mem first)
  rw [set] at h
  split_ifs at h
  · exact hReplace entries h
  · exact (mem_append.mp h).symm.imp_left mem_singleton.mp

theorem nodup_keys_set (entries : List (κ × α)) (key : κ) (value : α)
    (h : (entries.map Prod.fst).Nodup) : ((set entries key value).map Prod.fst).Nodup := by
  rw [set]
  split_ifs with hOld
  · rwa [keys_replace]
  · have hNone : entries.lookup key = none := not_isSome_iff_eq_none.mp hOld
    rw [map_append, nodup_append]
    refine ⟨h, by simp, ?_⟩
    rintro a ha b hb rfl
    simp only [map_cons, map_nil, mem_singleton] at hb
    exact (lookup_eq_none_iff entries key).mp hNone (hb ▸ ha)

omit [BEq κ] [LawfulBEq κ] in
theorem nodup_keys_erase (entries : List (κ × α)) (key : κ)
    (h : (entries.map Prod.fst).Nodup) : ((erase entries key).map Prod.fst).Nodup :=
  h.sublist (filter_sublist.map Prod.fst)

omit [BEq κ] [LawfulBEq κ] in
/-- With distinct keys, an entry and what its deletion leaves are the map. -/
theorem perm_erase (hNodup : (entries.map Prod.fst).Nodup)
    (h : (key, value) ∈ entries) : entries.Perm ((key, value) :: erase entries key) := by
  induction entries with
  | nil => exact absurd h not_mem_nil
  | cons entry rest ih =>
    rw [map_cons, nodup_cons] at hNodup
    rcases mem_cons.mp h with rfl | hRest
    · have hKept : erase ((key, value) :: rest) key = rest := by
        rw [erase, filter_cons_of_neg (by simp), filter_eq_self]
        intro other hOther
        refine decide_eq_true fun hKey => hNodup.1 ?_
        exact mem_map.mpr ⟨other, hOther, hKey⟩
      rw [hKept]
    · have hNe : entry.1 ≠ key := fun hKey => hNodup.1 (hKey ▸ mem_map_of_mem hRest)
      have hKept : erase (entry :: rest) key = entry :: erase rest key := by
        rw [erase, filter_cons_of_pos (by simpa using hNe), erase]
      rw [hKept]
      exact ((ih hNodup.2 hRest).cons entry).trans (Perm.swap _ _ _)

/-- Setting every entry of a map lays it over another. -/
theorem lookup_foldl_set {added : List (κ × α)} (hNodup : (added.map Prod.fst).Nodup) (entries : List (κ × α)) (key : κ) :
    (added.foldl (fun all entry => set all entry.1 entry.2) entries).lookup key = (added.lookup key).or (entries.lookup key) := by
  induction added generalizing entries with
  | nil => rfl
  | cons entry rest ih =>
    rw [map_cons, nodup_cons] at hNodup
    rw [foldl_cons, ih hNodup.2, lookup_set, lookup_cons]
    by_cases hKey : key = entry.1
    · have hNone : rest.lookup key = none := (lookup_eq_none_iff rest key).mpr (hKey ▸ hNodup.1)
      rw [if_pos hKey, if_pos hKey, hNone]
      rfl
    · rw [if_neg hKey, if_neg hKey]

theorem lookup_foldl_read (read : κ → α) (keys : List κ) (entries : List (κ × α)) (key : κ) :
    (keys.foldl (fun all key => set all key (read key)) entries).lookup key =
      if key ∈ keys then some (read key) else entries.lookup key := by
  induction keys generalizing entries with
  | nil => rfl
  | cons head rest ih =>
    rw [foldl_cons, ih, lookup_set]
    by_cases hRest : key ∈ rest
    · simp [hRest]
    · by_cases hHead : key = head
      · simp [hHead]
      · simp [hRest, hHead]

/-- A sum over the values of a map, by the value of one key. -/
theorem sum_erase (hNodup : (entries.map Prod.fst).Nodup) (weight : α → Nat) (key : κ) :
    ((erase entries key).map fun entry => weight entry.2).sum + ((entries.lookup key).map weight).getD 0 =
      (entries.map fun entry => weight entry.2).sum := by
  induction entries with
  | nil => rfl
  | cons entry rest ih =>
    rw [map_cons, nodup_cons] at hNodup
    have hRest := ih hNodup.2
    rw [erase] at hRest ⊢
    rw [lookup_cons, map_cons, sum_cons]
    by_cases hKey : entry.1 = key
    · have hNone : rest.lookup key = none := (lookup_eq_none_iff rest key).mpr (hKey ▸ hNodup.1)
      rw [filter_cons_of_neg (by simp [hKey]), if_pos hKey.symm]
      rw [hNone, map_none, getD_none] at hRest
      rw [map_some, getD_some]
      omega
    · rw [filter_cons_of_pos (by simp [hKey]), if_neg (Ne.symm hKey), map_cons, sum_cons]
      omega

theorem sum_set (entries : List (κ × α)) (weight : α → Nat) (key : κ) (value : α) :
    ((set entries key value).map fun entry => weight entry.2).sum + ((entries.lookup key).map weight).getD 0 =
      (entries.map fun entry => weight entry.2).sum + weight value := by
  have hReplace : ∀ entries : List (κ × α), entries.lookup key ≠ none →
      ((replace key value entries).map fun entry => weight entry.2).sum + ((entries.lookup key).map weight).getD 0 =
        (entries.map fun entry => weight entry.2).sum + weight value := by
    intro entries hOld
    induction entries with
    | nil => exact absurd rfl hOld
    | cons entry rest ih =>
      rw [replace, lookup_cons]
      rw [lookup_cons] at hOld
      by_cases hKey : entry.1 = key
      · rw [if_pos hKey, if_pos hKey.symm, map_cons, map_cons, sum_cons, sum_cons, map_some,
          getD_some]
        dsimp only
        omega
      · rw [if_neg (Ne.symm hKey)] at hOld ⊢
        have hRest := ih hOld
        rw [if_neg hKey, map_cons, map_cons, sum_cons, sum_cons]
        omega
  rw [set]
  split_ifs with hOld
  · exact hReplace entries (isSome_iff_ne_none.mp hOld)
  · rw [not_isSome_iff_eq_none.mp hOld, map_append, sum_append]
    rfl

section Map

variable {κ' β : Type*} [BEq κ'] [LawfulBEq κ'] [DecidableEq κ'] {key : κ → κ'} (value : α → β)

omit [DecidableEq κ] [DecidableEq κ'] in
/-- Renaming the keys one to one and mapping the values. -/
theorem lookup_map (hKey : Function.Injective key) (entries : List (κ × α)) (k : κ) :
    (entries.map (Prod.map key value)).lookup (key k) = (entries.lookup k).map value := by
  induction entries with
  | nil => rfl
  | cons entry rest ih =>
    rw [map_cons, List.lookup_cons, List.lookup_cons, Prod.map_fst, Prod.map_snd, ih]
    by_cases hSame : k = entry.1
    · simp [hSame]
    · have hNe : key k ≠ key entry.1 := fun h => hSame (hKey h)
      rw [beq_eq_false_iff_ne.mpr hSame, beq_eq_false_iff_ne.mpr hNe]

theorem set_map (hKey : Function.Injective key) (entries : List (κ × α)) (k : κ) (v : α) :
    set (entries.map (Prod.map key value)) (key k) (value v) = (set entries k v).map (Prod.map key value) := by
  have hReplace : ∀ entries : List (κ × α), replace (key k) (value v) (entries.map (Prod.map key value)) =
      (replace k v entries).map (Prod.map key value) := by
    intro entries
    induction entries with
    | nil => rfl
    | cons entry rest ih =>
      rw [map_cons, replace, replace, Prod.map_fst]
      by_cases hSame : entry.1 = k
      · rw [if_pos hSame, if_pos (congrArg key hSame)]
        rfl
      · rw [if_neg hSame, if_neg fun h => hSame (hKey h), ih]
        rfl
  rw [set, set, lookup_map value hKey, isSome_map, hReplace]
  split_ifs
  · rfl
  · rw [map_append]
    rfl

end Map

end OrderedMap
