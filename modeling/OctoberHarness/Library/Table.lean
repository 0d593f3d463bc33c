import OctoberHarness.Library.OrderedMap
import OctoberHarness.Library.SortedIds

/-! Tables with an integer primary key: rows in key order, at most one for a key.
A query filters the rows, and its order is the order of the keys. -/
namespace Table

open SortedIds List

variable {α : Type*}

/-- The keys of a table. -/
def ids (rows : List (Nat × α)) : List Nat :=
  rows.map Prod.fst

/-- `INSERT … ON CONFLICT DO UPDATE`. -/
def put (key : Nat) (value : α) : List (Nat × α) → List (Nat × α)
  | [] => [(key, value)]
  | row :: rest =>
    if key < row.1 then (key, value) :: row :: rest
    else if key = row.1 then (key, value) :: rest
    else row :: put key value rest

/-- The keys of the rows that a condition selects. -/
def select (condition : α → Bool) (rows : List (Nat × α)) : List Nat :=
  ids (rows.filter fun row => condition row.2)

/-- Rows in key order. -/
def Keyed (rows : List (Nat × α)) : Prop :=
  Increasing (ids rows)

theorem mem_ids_put (key : Nat) (value : α) (rows : List (Nat × α)) (x : Nat) :
    x ∈ ids (put key value rows) ↔ x = key ∨ x ∈ ids rows := by
  induction rows with
  | nil => simp [put, ids]
  | cons row rest ih =>
    simp only [ids] at ih
    rw [put]
    split_ifs with hLess hSame
    · simp [ids]
    · simp only [ids, map_cons, mem_cons, hSame]
      tauto
    · simp only [ids, map_cons, mem_cons, ih]
      tauto

variable {rows : List (Nat × α)}

theorem Keyed.put (h : Keyed rows) (key : Nat) (value : α) :
    Keyed (put key value rows) := by
  induction rows with
  | nil => simp [Table.put, Keyed, ids]
  | cons row rest ih =>
    simp only [Keyed, ids, map_cons, Increasing, pairwise_cons] at h
    obtain ⟨hHead, hTail⟩ := h
    rw [Table.put]
    split_ifs with hLess hSame
    · simp only [Keyed, ids, map_cons, Increasing, pairwise_cons, mem_cons]
      refine ⟨?_, hHead, hTail⟩
      rintro x (rfl | hx)
      · exact hLess
      · exact Nat.lt_trans hLess (hHead x hx)
    · simp only [Keyed, ids, map_cons, Increasing, pairwise_cons, hSame]
      exact ⟨hHead, hTail⟩
    · simp only [Keyed, ids, map_cons, Increasing, pairwise_cons]
      refine ⟨fun x hx => ?_, ih hTail⟩
      rcases (mem_ids_put key value rest x).mp hx with rfl | hx
      · omega
      · exact hHead x hx

variable {rows : List (Nat × α)} {key : Nat}

theorem lookup_eq_none_of_lt (h : ∀ x ∈ ids rows, key < x) : rows.lookup key = none := by
  rw [OrderedMap.lookup_eq_none_iff]
  exact fun hMem => Nat.lt_irrefl key (h key hMem)

/-- Putting a row changes that row and no other. -/
theorem lookup_put (h : Keyed rows) (key : Nat) (value : α) (other : Nat) :
    (put key value rows).lookup other = if other = key then some value else rows.lookup other := by
  induction rows with
  | nil => simp [put, OrderedMap.lookup_cons]
  | cons row rest ih =>
    simp only [Keyed, ids, map_cons, Increasing, pairwise_cons] at h
    rw [put]
    by_cases hLess : key < row.1
    · rw [if_pos hLess, OrderedMap.lookup_cons]
    rw [if_neg hLess]
    by_cases hSame : key = row.1
    · rw [if_pos hSame, OrderedMap.lookup_cons, OrderedMap.lookup_cons, hSame]
      split_ifs <;> rfl
    · rw [if_neg hSame, OrderedMap.lookup_cons, OrderedMap.lookup_cons, ih h.2]
      by_cases hOther : other = row.1
      · rw [if_pos hOther, if_pos hOther, if_neg (by omega)]
      · rw [if_neg hOther, if_neg hOther]

theorem mem_rows_iff (h : Keyed rows) (key : Nat) (value : α) :
    (key, value) ∈ rows ↔ rows.lookup key = some value :=
  (OrderedMap.lookup_eq_some_iff (h.imp Nat.ne_of_lt) key value).symm

theorem mem_select (h : Keyed rows) (condition : α → Bool) (x : Nat) :
    x ∈ select condition rows ↔ ∃ value, rows.lookup x = some value ∧ condition value = true := by
  simp only [select, ids, mem_map, mem_filter, Prod.exists]
  constructor
  · rintro ⟨key, value, ⟨hMem, hCondition⟩, rfl⟩
    exact ⟨value, (mem_rows_iff h key value).mp hMem, hCondition⟩
  · rintro ⟨value, hLookup, hCondition⟩
    exact ⟨x, value, ⟨(mem_rows_iff h x value).mpr hLookup, hCondition⟩, rfl⟩

theorem Keyed.increasing_select (h : Keyed rows) (condition : α → Bool) : Increasing (select condition rows) :=
  h.sublist (List.filter_sublist.map Prod.fst)

/-- Reading the keys of some of the rows gives the values of these rows. -/
theorem Keyed.filterMap_lookup (h : Keyed rows) {some : List (Nat × α)}
    (hSome : ∀ row ∈ some, row ∈ rows) : (ids some).filterMap (lookup · rows) = some.map Prod.snd := by
  induction some with
  | nil => rfl
  | cons row rest ih =>
    have hRow : rows.lookup row.1 = Option.some row.2 :=
      (mem_rows_iff h row.1 row.2).mp (hSome row mem_cons_self)
    have hRest := ih fun row hMem => hSome row (mem_cons_of_mem _ hMem)
    rw [ids, map_cons, filterMap_cons, hRow, map_cons, ← hRest]
    rfl

theorem Keyed.filter_key (h : Keyed rows) (key : Nat) :
    (rows.filter fun row => decide (row.1 = key)) = (rows.lookup key).toList.map (key, ·) := by
  induction rows with
  | nil => rfl
  | cons row rest ih =>
    simp only [Keyed, ids, map_cons, Increasing, pairwise_cons] at h
    have hRest := ih h.2
    rw [OrderedMap.lookup_cons]
    by_cases hKey : row.1 = key
    · have hNone : rest.lookup key = none :=
        lookup_eq_none_of_lt fun x hx => hKey ▸ h.1 x hx
      rw [hNone] at hRest
      rw [filter_cons_of_pos (by simp [hKey]), hRest, if_pos hKey.symm]
      simp [← hKey]
    · rw [filter_cons_of_neg (by simp [hKey]), hRest, if_neg (Ne.symm hKey)]

theorem mem_ids (x : Nat) : x ∈ ids rows ↔ rows.lookup x ≠ none := by
  rw [ne_eq, OrderedMap.lookup_eq_none_iff, not_not, ids]

section

variable (h : Keyed rows)

include h

theorem select_congr {rows' : List (Nat × α)} (h' : Keyed rows')
    (hLookup : ∀ key, rows.lookup key = rows'.lookup key) (condition : α → Bool) :
    select condition rows = select condition rows' := by
  refine Increasing.ext (h.increasing_select condition) (h'.increasing_select condition) fun x => ?_
  rw [mem_select h, mem_select h', hLookup]

theorem mem_select_put (key : Nat) (value : α) (condition : α → Bool) (x : Nat) : x ∈ select condition (put key value rows) ↔
      if x = key then condition value = true else x ∈ select condition rows := by
  rw [mem_select (h.put key value), mem_select h]
  simp only [lookup_put h]
  split_ifs <;> simp

theorem select_put_new (hNew : rows.lookup key = none)
    (value : α) (condition : α → Bool) : select condition (put key value rows) =
      if condition value then insertSorted (select condition rows) key else select condition rows := by
  have hNot : key ∉ select condition rows := by
    rw [mem_select h, hNew]
    simp
  have hIncreasing := h.increasing_select condition
  split_ifs with hCondition
  · refine Increasing.ext ((h.put key value).increasing_select condition) (increasing_insertSorted hIncreasing hNot)
      fun x => ?_
    rw [mem_select_put h, mem_insertSorted hIncreasing hNot]
    split_ifs with hKey <;> simp [hKey, hCondition]
  · refine Increasing.ext ((h.put key value).increasing_select condition) hIncreasing fun x => ?_
    rw [mem_select_put h]
    split_ifs with hKey
    · simp [hKey, hNot, hCondition]
    · rfl

/-- A row whose new value is selected as the old one was. -/
theorem select_put_same {old : α} (hOld : rows.lookup key = some old) (value : α) (condition : α → Bool)
    (hSame : condition value = condition old) : select condition (put key value rows) = select condition rows := by
  refine Increasing.ext ((h.put key value).increasing_select condition) (h.increasing_select condition) fun x => ?_
  rw [mem_select_put h]
  split_ifs with hKey
  · rw [hKey, mem_select h, hOld, hSame]
    simp
  · rfl

theorem select_put_enter {old : α} (hOld : rows.lookup key = some old) (value : α) (condition : α → Bool)
    (hAfter : condition value = true) (hBefore : condition old = false) :
    select condition (put key value rows) = insertSorted (select condition rows) key := by
  have hNot : key ∉ select condition rows := by
    rw [mem_select h, hOld]
    simp [hBefore]
  refine Increasing.ext ((h.put key value).increasing_select condition)
    (increasing_insertSorted (h.increasing_select condition) hNot) fun x => ?_
  rw [mem_select_put h, mem_insertSorted (h.increasing_select condition) hNot]
  split_ifs with hKey <;> simp [hKey, hAfter]

theorem select_put_leave (key : Nat) (value : α) (condition : α → Bool) (hAfter : condition value = false) :
    select condition (put key value rows) = removeSorted (select condition rows) key := by
  have hIncreasing := h.increasing_select condition
  rw [removeSorted_eq hIncreasing]
  refine Increasing.ext ((h.put key value).increasing_select condition) (hIncreasing.filter _) fun x => ?_
  rw [mem_select_put h, mem_filter]
  split_ifs with hKey <;> simp [hKey, hAfter]

theorem length_put_new (hNew : rows.lookup key = none) (value : α) : (put key value rows).length = rows.length + 1 := by
  induction rows with
  | nil => rfl
  | cons row rest ih =>
    simp only [Keyed, ids, map_cons, Increasing, pairwise_cons] at h
    rw [OrderedMap.lookup_cons] at hNew
    split_ifs at hNew with hKey
    rw [put, if_neg hKey]
    split_ifs
    · rfl
    · rw [length_cons, length_cons, ih h.2 hNew]

/-- The rows of a filter depend only on what the keys of its rows look up. -/
theorem filter_congr {rows' : List (Nat × α)} (h' : Keyed rows') {keep : Nat × α → Bool}
    (hSame : ∀ key value, keep (key, value) = true → (rows.lookup key = some value ↔ rows'.lookup key = some value)) :
    rows.filter keep = rows'.filter keep := by
  have hMem : ∀ row, row ∈ rows.filter keep ↔ row ∈ rows'.filter keep := by
    intro row
    rw [mem_filter, mem_filter, mem_rows_iff h row.1 row.2, mem_rows_iff h' row.1 row.2]
    exact and_congr_left fun hKeep => hSame row.1 row.2 hKeep
  have hSorted : ∀ {list : List (Nat × α)}, Keyed list → (list.filter keep).Pairwise fun a b => a.1 < b.1 :=
    fun hKeyed => (List.pairwise_map.mp hKeyed).sublist filter_sublist
  have hNodup : ∀ {list : List (Nat × α)}, Keyed list → (list.filter keep).Nodup :=
    fun hKeyed => (hSorted hKeyed).imp fun hLess hEq => Nat.ne_of_lt hLess (congrArg Prod.fst hEq)
  have hPerm := (perm_ext_iff_of_nodup (hNodup h) (hNodup h')).mpr hMem
  exact hPerm.eq_of_pairwise (fun a b _ _ hab hba => absurd hab (Nat.lt_asymm hba)) (hSorted h) (hSorted h')

end

end Table
