import Mathlib.Tactic
import Mathlib.Data.List.Sort

/-! Binary search, and lists of numbers kept in increasing order. -/
namespace SortedIds

open List

/-- The loop of a binary search for the first index at which `below` fails. -/
def search (below : Nat → Bool) : Nat → Nat → Nat → Nat
  | 0, low, _ => low
  | fuel + 1, low, high =>
    if low < high then
      let middle := (low + high) / 2
      if below middle then search below fuel (middle + 1) high else search below fuel low middle
    else low

/-- The search finds the border, when there is one and it lies between the
bounds. -/
theorem search_spec {below : Nat → Bool} (hMono : ∀ i j, i ≤ j → below j = true → below i = true)
    (fuel low high : Nat) (hFuel : high - low ≤ fuel) (hLe : low ≤ high)
    (hLow : ∀ i, i < low → below i = true) (hHigh : ∀ i, high ≤ i → below i = false) (i : Nat) :
    below i = true ↔ i < search below fuel low high := by
  induction fuel generalizing low high with
  | zero =>
    obtain rfl : low = high := by omega
    rw [search]
    exact ⟨fun h => by_contra fun hGe => by simp [hHigh i (by omega)] at h, hLow i⟩
  | succ fuel ih =>
    rw [search]
    by_cases hLess : low < high
    · rw [if_pos hLess]
      simp only
      by_cases hMiddle : below ((low + high) / 2) = true
      · rw [if_pos hMiddle]
        refine ih _ _ (by omega) (by omega) (fun j hj => ?_) hHigh
        exact hMono j _ (by omega) hMiddle
      · rw [if_neg hMiddle]
        refine ih _ _ (by omega) (by omega) hLow fun j hj => ?_
        by_contra hTrue
        exact hMiddle (hMono _ j hj (by simpa using hTrue))
    · rw [if_neg hLess]
      obtain rfl : low = high := by omega
      exact ⟨fun h => by_contra fun hGe => by simp [hHigh i (by omega)] at h, hLow i⟩

variable {α : Type*}

/-- The number of leading elements that are below. -/
def partitionPoint (below : α → Bool) (xs : List α) : Nat :=
  search (fun i => xs[i]?.any below) xs.length 0 xs.length

/-- A list whose elements that are below come first. -/
def Partitioned (below : α → Bool) (xs : List α) : Prop :=
  xs.Pairwise fun a b => below b = true → below a = true

variable {below : α → Bool} {ids : List Nat}

variable {xs : List α} {id : Nat}

theorem lt_partitionPoint (h : Partitioned below xs) (i : Nat) :
    xs[i]?.any below = true ↔ i < partitionPoint below xs := by
  refine @search_spec (fun i => xs[i]?.any below) (fun i j hij hj => ?_) _ _ _ (by omega) (by omega)
    (fun i hi => by omega) (fun i hi => ?_) i
  · rcases Nat.eq_or_lt_of_le hij with rfl | hLess
    · exact hj
    · simp only [Option.any_eq_true] at hj ⊢
      obtain ⟨b, hb, hBelow⟩ := hj
      obtain ⟨hBound, rfl⟩ := List.getElem?_eq_some_iff.mp hb
      refine ⟨xs[i], getElem?_eq_getElem (by omega), ?_⟩
      exact (pairwise_iff_getElem.mp h) i j (by omega) hBound hLess hBelow
  · rw [getElem?_eq_none hi]
    rfl

theorem take_partitionPoint (h : Partitioned below xs) :
    xs.take (partitionPoint below xs) = xs.filter below ∧
      xs.drop (partitionPoint below xs) = xs.filter fun x => !below x := by
  have hSplit : ∀ (xs : List α) count, (∀ i, xs[i]?.any below = true ↔ i < count) →
      xs.take count = xs.filter below ∧ xs.drop count = xs.filter fun x => !below x := by
    intro xs
    induction xs with
    | nil => simp
    | cons x rest ih =>
      intro count hCount
      have hZero := hCount 0
      simp only [getElem?_cons_zero, Option.any_some] at hZero
      cases count with
      | zero =>
        have hNone : ∀ y ∈ x :: rest, below y = false := by
          intro y hy
          obtain ⟨i, hi⟩ := mem_iff_getElem?.mp hy
          have hFalse := hCount i
          rw [hi] at hFalse
          simpa using hFalse
        refine ⟨?_, ?_⟩
        · rw [take_zero, eq_comm, filter_eq_nil_iff]
          exact fun y hy => by simp [hNone y hy]
        · rw [drop_zero, eq_comm, filter_eq_self]
          exact fun y hy => by simp [hNone y hy]
      | succ count =>
        have hx : below x = true := hZero.mpr (Nat.succ_pos count)
        obtain ⟨hTake, hDrop⟩ := ih count fun i => by
          have hNext := hCount (i + 1)
          rw [getElem?_cons_succ] at hNext
          rw [hNext]
          omega
        rw [take_succ_cons, drop_succ_cons, hTake, hDrop, filter_cons_of_pos hx,
          filter_cons_of_neg (by simp [hx])]
        exact ⟨rfl, rfl⟩
  exact hSplit xs _ (lt_partitionPoint h)

/-- The leading elements that are below are all of them. -/
theorem Partitioned.takeWhile_eq (h : Partitioned below xs) :
    xs.takeWhile below = xs.filter below := by
  induction xs with
  | nil => rfl
  | cons x rest ih =>
    obtain ⟨hFirst, hRest⟩ := pairwise_cons.mp h
    by_cases hx : below x = true
    · rw [takeWhile_cons_of_pos hx, filter_cons_of_pos hx, ih hRest]
    · rw [takeWhile_cons_of_neg hx, filter_cons_of_neg hx, eq_comm, filter_eq_nil_iff]
      exact fun y hy hBelow => hx (hFirst y hy hBelow)

/-! Sorted lists of ids. Bounds may be any integers. -/

/-- Ids less than a bound. -/
def before (target : Int) (id : Nat) : Bool :=
  decide ((id : Int) < target)

/-- Ids up to a bound. -/
def upTo (target : Int) (id : Nat) : Bool :=
  decide ((id : Int) ≤ target)

def lowerBound (ids : List Nat) (target : Int) : Nat :=
  partitionPoint (before target) ids

def upperBound (ids : List Nat) (target : Int) : Nat :=
  partitionPoint (upTo target) ids

/-- `insertSorted`: most ids go last. -/
def insertSorted (ids : List Nat) (id : Nat) : List Nat :=
  match ids.getLast? with
  | none => [id]
  | some last =>
    if last < id then ids ++ [id]
    else ids.take (lowerBound ids id) ++ id :: ids.drop (lowerBound ids id)

def removeSorted (ids : List Nat) (id : Nat) : List Nat :=
  if ids[lowerBound ids id]? = some id then ids.eraseIdx (lowerBound ids id) else ids

abbrev Increasing (ids : List Nat) : Prop :=
  ids.Pairwise (· < ·)

theorem Increasing.split_lowerBound (h : Increasing ids) (target : Int) :
    ids.take (lowerBound ids target) = ids.filter (before target) ∧
      ids.drop (lowerBound ids target) = ids.filter fun id => !before target id := by
  refine take_partitionPoint (Pairwise.imp (fun hLess hBelow => ?_) h)
  simp only [before, decide_eq_true_eq] at hBelow ⊢
  omega

theorem Increasing.split_upperBound (h : Increasing ids) (target : Int) :
    ids.take (upperBound ids target) = ids.filter (upTo target) ∧
      ids.drop (upperBound ids target) = ids.filter fun id => !upTo target id := by
  refine take_partitionPoint (Pairwise.imp (fun hLess hBelow => ?_) h)
  simp only [upTo, decide_eq_true_eq] at hBelow ⊢
  omega

/-- Inserting keeps the order whether or not the id goes last. -/
theorem insertSorted_eq (h : Increasing ids) (hNew : id ∉ ids) :
    insertSorted ids id = (ids.filter (· < id)) ++ id :: ids.filter (id < ·) := by
  have hLower : ids.filter (before id) = ids.filter (· < id) :=
    filter_congr fun x _ => by simp [before]
  have hUpper : ids.filter (fun x => !before id x) = ids.filter (id < ·) := by
    refine filter_congr fun x hx => ?_
    have hNe : x ≠ id := fun hEq => hNew (hEq ▸ hx)
    simp only [before, ← decide_not, decide_eq_decide]
    omega
  rw [insertSorted]
  cases hLast : ids.getLast? with
  | none =>
    obtain rfl := getLast?_eq_none_iff.mp hLast
    rfl
  | some last =>
    simp only
    split_ifs with hLess
    · have hAll : ∀ x ∈ ids, x < id := by
        intro x hx
        obtain ⟨init, rfl⟩ := getLast?_eq_some_iff.mp hLast
        rcases mem_append.mp hx with hInit | hLastMem
        · have hBefore := (pairwise_append.mp h).2.2 x hInit last (by simp)
          omega
        · obtain rfl := mem_singleton.mp hLastMem
          exact hLess
      rw [filter_eq_self.mpr fun x hx => by simp [hAll x hx],
        filter_eq_nil_iff.mpr fun x hx => by have := hAll x hx; simp; omega]
    · rw [(h.split_lowerBound id).1, (h.split_lowerBound id).2, hLower, hUpper]

theorem removeSorted_eq (h : Increasing ids) (id : Nat) : removeSorted ids id = ids.filter (· ≠ id) := by
  obtain ⟨hTake, hDrop⟩ := h.split_lowerBound id
  have hIds : ids = ids.take (lowerBound ids id) ++ ids.drop (lowerBound ids id) :=
    (take_append_drop _ ids).symm
  have hFirst : (ids.take (lowerBound ids id)).filter (· ≠ id) = ids.take (lowerBound ids id) := by
    rw [filter_eq_self]
    intro x hx
    rw [hTake, mem_filter, before, decide_eq_true_eq] at hx
    simp only [ne_eq, decide_eq_true_eq]
    omega
  have hRest : ∀ x ∈ ids.drop (lowerBound ids id), id ≤ x := by
    intro x hx
    rw [hDrop, mem_filter, before] at hx
    simp only [Bool.not_eq_eq_eq_not, Bool.not_true, decide_eq_false_iff_not] at hx
    omega
  have hSorted : Increasing (ids.drop (lowerBound ids id)) := h.sublist (drop_sublist _ _)
  rw [removeSorted, ← head?_drop, eraseIdx_eq_take_drop_succ, ← tail_drop]
  conv_rhs => rw [hIds, filter_append, hFirst]
  cases hCase : ids.drop (lowerBound ids id) with
  | nil =>
    rw [hCase, append_nil] at hIds
    simp [← hIds]
  | cons first rest =>
    rw [hCase] at hRest hSorted hIds
    have hLater := (pairwise_cons.mp hSorted).1
    have hTail : rest.filter (· ≠ id) = rest := by
      rw [filter_eq_self]
      intro x hx
      have hLess := hLater x hx
      have hLe := hRest first mem_cons_self
      simp only [ne_eq, decide_eq_true_eq]
      omega
    simp only [head?_cons, Option.some.injEq]
    split_ifs with hFound
    · rw [filter_cons_of_neg (by simp [hFound]), hTail, tail_cons]
    · rw [filter_cons_of_pos (by simp [hFound]), hTail, ← hIds]

theorem Increasing.ext {ids ids' : List Nat} (h : Increasing ids) (h' : Increasing ids')
    (hMem : ∀ x, x ∈ ids ↔ x ∈ ids') : ids = ids' := by
  have hNodup : ∀ {l : List Nat}, Increasing l → l.Nodup := fun hl => hl.imp Nat.ne_of_lt
  have hPerm : ids.Perm ids' := (perm_ext_iff_of_nodup (hNodup h) (hNodup h')).mpr hMem
  exact hPerm.eq_of_pairwise (fun a b _ _ hab hba => absurd hab (Nat.lt_asymm hba)) h h'

theorem mem_insertSorted (h : Increasing ids) (hNew : id ∉ ids) (x : Nat) :
    x ∈ insertSorted ids id ↔ x = id ∨ x ∈ ids := by
  rw [insertSorted_eq h hNew]
  simp only [mem_append, mem_filter, mem_cons, decide_eq_true_eq]
  constructor
  · rintro (⟨hx, -⟩ | hx | ⟨hx, -⟩)
    · exact Or.inr hx
    · exact Or.inl hx
    · exact Or.inr hx
  · rintro (rfl | hx)
    · exact Or.inr (Or.inl rfl)
    · rcases Nat.lt_trichotomy x id with hLess | rfl | hGreater
      · exact Or.inl ⟨hx, hLess⟩
      · exact absurd hx hNew
      · exact Or.inr (Or.inr ⟨hx, hGreater⟩)

theorem increasing_insertSorted (h : Increasing ids) (hNew : id ∉ ids) :
    Increasing (insertSorted ids id) := by
  rw [insertSorted_eq h hNew, Increasing, pairwise_append, pairwise_cons]
  refine ⟨h.filter _, ⟨fun x hx => by simpa using (mem_filter.mp hx).2, h.filter _⟩, ?_⟩
  intro a ha b hb
  have hLess : a < id := by simpa using (mem_filter.mp ha).2
  rcases mem_cons.mp hb with rfl | hb
  · exact hLess
  · have hMore : id < b := by simpa using (mem_filter.mp hb).2
    omega

theorem length_insertSorted (ids : List Nat) (id : Nat) : (insertSorted ids id).length = ids.length + 1 := by
  rw [insertSorted]
  split
  · rename_i hLast
    rw [getLast?_eq_none_iff.mp hLast]
    rfl
  · split_ifs
    · simp
    · rw [length_append, length_cons, ← Nat.add_assoc, ← length_append, take_append_drop]

theorem length_removeSorted (h : Increasing ids) (hMem : id ∈ ids) :
    (removeSorted ids id).length + 1 = ids.length := by
  have hNodup : ids.Nodup := h.imp Nat.ne_of_lt
  have hErase : ids.filter (· ≠ id) = ids.erase id := by
    rw [hNodup.erase_eq_filter]
    refine filter_congr fun x _ => ?_
    by_cases hx : x = id <;> simp [hx]
  rw [removeSorted_eq h, hErase, length_erase_of_mem hMem]
  have hPos := length_pos_of_mem hMem
  omega

theorem removeSorted_of_not_mem (h : Increasing ids) (hMem : id ∉ ids) :
    removeSorted ids id = ids := by
  rw [removeSorted_eq h, filter_eq_self]
  intro x hx
  have hNe : x ≠ id := fun hEq => hMem (hEq ▸ hx)
  simpa using hNe

end SortedIds
