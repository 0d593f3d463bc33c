import Mathlib.Tactic
import Mathlib.Data.List.Sort

/-! Elements of a list chosen and removed by their positions. -/
namespace Positions

open List

variable {α : Type*} {key : α → Nat}

variable {xs : List α}

/-- With distinct keys, removing a position removes the element that is there. -/
theorem eraseIdx_eq_filter (hKeys : xs.Pairwise fun a b => key a ≠ key b) {i : Nat} {x : α}
    (hAt : xs[i]? = some x) : xs.eraseIdx i = xs.filter fun y => decide (key y ≠ key x) := by
  induction xs generalizing i with
  | nil => simp at hAt
  | cons y ys ih =>
    rw [pairwise_cons] at hKeys
    cases i with
    | zero =>
      obtain rfl : y = x := by simpa using hAt
      rw [eraseIdx_cons_zero, filter_cons_of_neg (by simp)]
      refine (List.filter_eq_self.mpr fun z hz => ?_).symm
      exact decide_eq_true (hKeys.1 z hz).symm
    | succ i =>
      have hRest : ys[i]? = some x := by simpa using hAt
      rw [eraseIdx_cons_succ, filter_cons_of_pos (by simpa using hKeys.1 x (mem_of_getElem? hRest)),
        ih hKeys.2 hRest]

/-- Positions that are removed from the last to the first are those of the whole list. -/
theorem foldl_eraseIdx (hKeys : xs.Pairwise fun a b => key a ≠ key b) {indexes : List Nat}
    (hDown : indexes.Pairwise fun i j => j < i) (hIn : ∀ i ∈ indexes, i < xs.length) :
    indexes.foldl eraseIdx xs =
      xs.filter fun y => decide (key y ∉ (indexes.filterMap fun i => xs[i]?).map key) := by
  induction indexes generalizing xs with
  | nil => simp
  | cons i rest ih =>
    rw [pairwise_cons] at hDown
    have hBound : i < xs.length := hIn i mem_cons_self
    obtain ⟨x, hAt⟩ : ∃ x, xs[i]? = some x := ⟨xs[i], getElem?_eq_getElem hBound⟩
    have hSame : (rest.filterMap fun j => (xs.eraseIdx i)[j]?) = rest.filterMap fun j => xs[j]? :=
      filterMap_congr fun j hj => getElem?_eraseIdx_of_lt (hDown.1 j hj)
    have hErase := eraseIdx_eq_filter hKeys hAt
    have hLater : ∀ j ∈ rest, j < (xs.eraseIdx i).length := by
      intro j hj
      have hLess := hDown.1 j hj
      rw [length_eraseIdx_of_lt hBound]
      omega
    have hKeep : (xs.eraseIdx i).Pairwise fun a b => key a ≠ key b := hKeys.sublist (eraseIdx_sublist xs i)
    rw [foldl_cons, ih hKeep hDown.2 hLater, hSame, hErase, filter_filter,
      filterMap_cons_some hAt]
    refine filter_congr fun y _ => ?_
    rw [Bool.eq_iff_iff, Bool.and_eq_true, decide_eq_true_eq, decide_eq_true_eq, decide_eq_true_eq, map_cons,
      mem_cons, not_or]
    exact And.comm

/-- Positions that are removed from the last to the first are those of the whole list, whatever is there. -/
theorem foldl_eraseIdx_zipIdx {indexes : List Nat} (hDown : indexes.Pairwise fun i j => j < i)
    (hIn : ∀ i ∈ indexes, i < xs.length) :
    indexes.foldl eraseIdx xs = (xs.zipIdx.filter fun x => decide (x.2 ∉ indexes)).map Prod.fst := by
  have hKeys : xs.zipIdx.Pairwise fun a b => a.2 ≠ b.2 := by
    have hRange : (xs.zipIdx.map Prod.snd).Pairwise (· ≠ ·) := by
      rw [zipIdx_map_snd]
      exact nodup_range'
    exact List.pairwise_map.mp hRange
  have hIndexes : ((indexes.filterMap fun i => xs.zipIdx[i]?).map Prod.snd) = indexes := by
    induction indexes with
    | nil => rfl
    | cons i rest ih =>
      rw [pairwise_cons] at hDown
      have hBound : i < xs.length := hIn i mem_cons_self
      have hAt : xs.zipIdx[i]? = some (xs[i], i) := by
        rw [getElem?_zipIdx, getElem?_eq_getElem hBound, Nat.zero_add]
        rfl
      rw [filterMap_cons_some hAt, map_cons, ih hDown.2 fun j hj => hIn j (mem_cons_of_mem _ hj)]
  have hErase := foldl_eraseIdx hKeys hDown fun i hi => by
    rw [length_zipIdx]
    exact hIn i hi
  rw [hIndexes] at hErase
  -- removing commutes with forgetting the positions
  have hForget : ∀ (indexes : List Nat) (pairs : List (α × Nat)),
      (indexes.foldl eraseIdx pairs).map Prod.fst = indexes.foldl eraseIdx (pairs.map Prod.fst) := by
    intro indexes
    induction indexes with
    | nil => exact fun _ => rfl
    | cons i rest ih =>
      intro pairs
      rw [foldl_cons, foldl_cons, ih, eraseIdx_map]
  rw [← hErase, hForget, zipIdx_map_fst]

/-- The positions at which a property holds, in their order. -/
theorem mem_filter_zipIdx {p : α → Bool} {i : Nat} :
    i ∈ (xs.zipIdx.filter fun x => p x.1).map Prod.snd ↔ ∃ x, xs[i]? = some x ∧ p x = true := by
  rw [mem_map]
  constructor
  · rintro ⟨⟨x, j⟩, hIn, rfl⟩
    obtain ⟨hMem, hHolds⟩ := List.mem_filter.mp hIn
    exact ⟨x, List.mem_zipIdx_iff_getElem?.mp hMem, hHolds⟩
  · rintro ⟨x, hAt, hHolds⟩
    exact ⟨(x, i), List.mem_filter.mpr ⟨List.mem_zipIdx_iff_getElem?.mpr hAt, hHolds⟩, rfl⟩

theorem pairwise_filter_zipIdx (xs : List α) (p : α → Bool) :
    ((xs.zipIdx.filter fun x => p x.1).map Prod.snd).Pairwise (· < ·) := by
  have hAll : (xs.zipIdx.map Prod.snd).Pairwise (· < ·) := by
    rw [zipIdx_map_snd]
    exact pairwise_lt_range'
  exact hAll.sublist (List.filter_sublist.map Prod.snd)

end Positions
