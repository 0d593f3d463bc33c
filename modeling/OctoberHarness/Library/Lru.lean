import OctoberHarness.Library.OrderedMap

/-! Maps that hold a bounded number of entries and drop the least recently used one. -/

/-- The entries are in the order of their last use. -/
structure Lru (κ α : Type) [DecidableEq κ] where
  capacity : Nat
  entries : List (κ × α) := []
  nodup : (entries.map Prod.fst).Nodup := by exact List.nodup_nil

namespace Lru

open OrderedMap

variable {κ α : Type} [DecidableEq κ]

/-- What is held for a key, which is no use of it. -/
def held (lru : Lru κ α) (key : κ) : Option α :=
  lru.entries.lookup key

theorem nodup_last {entries : List (κ × α)} (hNodup : (entries.map Prod.fst).Nodup) (key : κ) (value : α) :
    ((erase entries key ++ [(key, value)]).map Prod.fst).Nodup := by
  have hGone : key ∉ (erase entries key).map Prod.fst := by
    rw [← lookup_eq_none_iff, lookup_erase, if_pos rfl]
  rw [List.map_append, List.nodup_append]
  refine ⟨nodup_keys_erase entries key hNodup, List.nodup_singleton _, fun first hFirst last hLast hSame => ?_⟩
  rw [hSame, List.mem_singleton.mp hLast] at hFirst
  exact hGone hFirst

def delete (lru : Lru κ α) (key : κ) : Lru κ α where
  capacity := lru.capacity
  entries := erase lru.entries key
  nodup := nodup_keys_erase lru.entries key lru.nodup

/-- A use of a key that is held. -/
def touch (lru : Lru κ α) (key : κ) : Lru κ α :=
  match lru.held key with
  | none => lru
  | some value =>
    { capacity := lru.capacity
      entries := erase lru.entries key ++ [(key, value)]
      nodup := nodup_last lru.nodup key value }

/-- A list of entries, without the first when they are too many. -/
def bound (capacity : Nat) (entries : List (κ × α)) : List (κ × α) :=
  if capacity < entries.length then entries.tail else entries

def set (lru : Lru κ α) (key : κ) (value : α) : Lru κ α where
  capacity := lru.capacity
  entries := bound lru.capacity (erase lru.entries key ++ [(key, value)])
  nodup := by
    rw [bound]
    split_ifs
    · exact (nodup_last lru.nodup key value).sublist ((List.tail_sublist _).map Prod.fst)
    · exact nodup_last lru.nodup key value

theorem lookup_last (entries : List (κ × α)) (key : κ) (value : α) (other : κ) :
    (erase entries key ++ [(key, value)]).lookup other =
      if other = key then some value else entries.lookup other := by
  rw [lookup_append, lookup_erase, lookup_cons]
  split_ifs <;> simp

theorem held_touch (lru : Lru κ α) (key other : κ) : (lru.touch key).held other = lru.held other := by
  rw [touch]
  cases hHeld : lru.held key with
  | none => rfl
  | some value =>
    show (erase lru.entries key ++ [(key, value)]).lookup other = _
    rw [lookup_last]
    split_ifs with hSame
    · rw [hSame, hHeld]
    · rfl

@[simp] theorem held_delete (lru : Lru κ α) (key other : κ) :
    (lru.delete key).held other = if other = key then none else lru.held other :=
  lookup_erase lru.entries key other

/-- After a key is set, what is held was there before, or is the new value. -/
theorem held_set {lru : Lru κ α} {key other : κ} {value found : α} (hFound : (lru.set key value).held other = some found) :
    (other = key ∧ found = value) ∨ (other ≠ key ∧ lru.held other = some found) := by
  have hLast : (erase lru.entries key ++ [(key, value)]).lookup other = some found := by
    rw [held, set] at hFound
    simp only [bound] at hFound
    split_ifs at hFound
    · have hMem := List.mem_of_mem_tail (mem_of_lookup hFound)
      exact (lookup_eq_some_iff (nodup_last lru.nodup key value) other found).mpr hMem
    · exact hFound
  rw [lookup_last] at hLast
  split_ifs at hLast with hSame
  · exact Or.inl ⟨hSame, (Option.some.inj hLast).symm⟩
  · exact Or.inr ⟨hSame, hLast⟩

/-- Several keys are set, in the order of the list. -/
def sets (lru : Lru κ α) (puts : List (κ × α)) : Lru κ α :=
  puts.foldl (fun lru entry => lru.set entry.1 entry.2) lru

/-- After several keys are set, what is held for a key is the last value set for it, or was
there before and no value is set for it. -/
theorem held_sets {lru : Lru κ α} {puts : List (κ × α)} {key : κ} {found : α} (hFound : (lru.sets puts).held key = some found) :
    puts.reverse.lookup key = some found ∨ puts.reverse.lookup key = none ∧ lru.held key = some found := by
  induction puts generalizing lru with
  | nil => exact .inr ⟨rfl, hFound⟩
  | cons entry rest ih =>
    rw [List.reverse_cons, lookup_append]
    obtain hLast | ⟨hNone, hHeld⟩ := ih (show ((lru.set entry.1 entry.2).sets rest).held key = some found from hFound)
    · exact .inl (by rw [hLast, Option.some_or])
    · rw [hNone, Option.none_or, lookup_cons]
      obtain ⟨rfl, rfl⟩ | ⟨hOther, hOld⟩ := held_set hHeld
      · exact .inl (by rw [if_pos rfl])
      · exact .inr ⟨by rw [if_neg hOther]; rfl, hOld⟩

end Lru
