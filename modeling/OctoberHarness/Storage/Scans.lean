import OctoberHarness.Library.Paging
import OctoberHarness.Storage.Indexes

/-! Scans of the in-memory storage, followed through their cursors. -/
namespace OctoberHarness.Storage

open View SortedIds Paging List

theorem safeInteger_ofNat {id : Nat} (h : id ≤ MAX_SAFE_INTEGER) : safeInteger (.num (.ofNat id)) = some (id : Int) := by
  have hNat : (JsNumber.ofNat id).toNat? = some id := by simp
  rw [JsNumber.toNat?] at hNat
  split_ifs at hNat with hSigns
  have hInt := congrArg (Nat.cast : Nat → Int) (Option.some.inj hNat)
  rw [Nat.cast_mul, Nat.cast_pow, Int.toNat_of_nonneg hSigns.1, Nat.cast_ofNat] at hInt
  rw [safeInteger, hInt, if_pos ⟨hSigns.2, by simpa using h⟩]

variable {requested : Option ScanOrder} {order : ScanOrder}

theorem scanStart_nextCursor {fallback : ScanOrder}
    (hOrder : requested.getD fallback = order) {id : Nat} (hId : id ≤ MAX_SAFE_INTEGER) :
    scanStart requested (some (nextCursor id order)) fallback = .ok { order, after := some (id : Int) } := by
  have hStored : storedOrder (nextCursor id order) = .ok (some order) := by
    cases order <;> simp [storedOrder, nextCursor, ScanOrder.text, js]
  have hAfter : (nextCursor id order).after.bind safeInteger = some (id : Int) := safeInteger_ofNat hId
  simp only [scanStart, hAfter, hStored, bind, Except.bind, Option.getD_some]
  cases requested with
  | none => rfl
  | some wanted =>
    obtain rfl : wanted = order := hOrder
    simp

variable {α : Type} {idOf : α → Nat} {rows : List (Nat × α)} {done : List α}

theorem scanStart_resume (idOf : α → Nat) {fallback : ScanOrder}
    (hOrder : requested.getD fallback = order) (hIds : ∀ value ∈ done, idOf value ≤ MAX_SAFE_INTEGER) :
    scanStart requested (done.getLast?.map fun value => nextCursor (idOf value) order) fallback =
      .ok { order, after := done.getLast?.map fun value => (idOf value : Int) } := by
  cases hLast : done.getLast? with
  | none => simp [scanStart, hOrder]
  | some last => exact scanStart_nextCursor hOrder (hIds last (mem_of_getLast? hLast))

theorem cursorId_resume (idOf : α → Nat) (hIds : ∀ value ∈ done, idOf value ≤ MAX_SAFE_INTEGER)
    (order : ScanOrder) : cursorId (done.getLast?.map fun value => nextCursor (idOf value) order) =
      .ok (done.getLast?.map fun value => (idOf value : Int)) := by
  cases hLast : done.getLast? with
  | none => rfl
  | some last =>
    have hSafe := safeInteger_ofNat (hIds last (mem_of_getLast? hLast))
    simp [cursorId, nextCursor, hSafe]

/-- A scan as its items and its next cursor. -/
def pages {α : Type} (scan : Option Cursor → Except ReadError (Page α)) (cursor : Option Cursor) :
    Except ReadError (List α × Option Cursor) :=
  (scan cursor).map fun page => (page.items, page.next)

theorem page_take (idOf : α → Nat) (rest : List α) {limit : Nat} (hLimit : 1 ≤ limit) (order : ScanOrder) :
    (page idOf (rest.take (limit + 1)) limit order).map (fun page => (page.items, page.next)) =
      .ok (rest.take limit,
        if rest.length ≤ limit then none
        else (rest.take limit).getLast?.map fun value => nextCursor (idOf value) order) := by
  have hItems : (rest.take (limit + 1)).take limit = rest.take limit := by
    rw [take_take, Nat.min_eq_left (Nat.le_succ limit)]
  rw [page]
  simp only [hItems, length_take]
  by_cases hLast : rest.length ≤ limit
  · rw [if_pos (by omega), if_pos hLast]
    rfl
  · rw [if_neg (by omega), if_neg hLast]
    cases hSome : (rest.take limit).getLast? with
    | some last => rfl
    | none =>
      have hEmpty := congrArg length (getLast?_eq_none_iff.mp hSome)
      rw [length_take, length_nil] at hEmpty
      omega

/-- Whether a value comes after another one in the order of a scan. -/
def comesAfter {α : Type} (idOf : α → Nat) : ScanOrder → α → α → Bool
  | .ascending, a, b => decide (idOf a < idOf b)
  | .descending, a, b => decide (idOf b < idOf a)

theorem filter_comesAfter {rest : List α} (hSorted : (done ++ rest).Pairwise fun a b => comesAfter idOf order a b = true)
    {last : α} (hLast : done.getLast? = some last) : (done ++ rest).filter (comesAfter idOf order last) = rest := by
  refine filter_after hSorted ?_ ?_ hLast
  · intro a b h
    cases order <;> simp only [comesAfter, decide_eq_true_eq, decide_eq_false_iff_not] at h ⊢ <;> omega
  · intro a
    cases order <;> simp [comesAfter]

theorem sorted_ordered {values : List α} (h : values.Pairwise fun a b => idOf a < idOf b)
    (order : ScanOrder) : (ordered order values).Pairwise fun a b => comesAfter idOf order a b = true := by
  cases order with
  | ascending => exact h.imp fun hLess => decide_eq_true hLess
  | descending => exact (pairwise_reverse.mpr h).imp fun hLess => decide_eq_true hLess

/-! Scans of one table. -/

/-- The rows of a scan, in ascending order. -/
def matching {α : Type} (rows : List (Nat × α)) (keep : α → Bool) : List α :=
  (rows.filter fun row => keep row.2).map Prod.snd

theorem sorted_matching (h : Named idOf rows) (keep : α → Bool) :
    (matching rows keep).Pairwise fun a b => idOf a < idOf b := by
  rw [matching, pairwise_map]
  have hRows : rows.Pairwise fun a b => a.1 < b.1 := pairwise_map.mp h.1
  refine Pairwise.imp_of_mem (fun {a b} ha hb hLess => ?_) (hRows.sublist filter_sublist)
  rw [h.of_mem (mem_filter.mp ha).1, h.of_mem (mem_filter.mp hb).1]
  exact hLess

theorem mem_matching (h : Named idOf rows) (keep : α → Bool) (value : α) :
    value ∈ matching rows keep ↔ rows.lookup (idOf value) = some value ∧ keep value = true := by
  rw [matching, mem_map]
  constructor
  · rintro ⟨row, hMem, rfl⟩
    obtain ⟨hRow, hKeep⟩ := mem_filter.mp hMem
    exact ⟨h.of_mem hRow ▸ (Table.mem_rows_iff h.1 row.1 row.2).mp hRow, hKeep⟩
  · rintro ⟨hLookup, hKeep⟩
    exact ⟨(idOf value, value), mem_filter.mpr ⟨(Table.mem_rows_iff h.1 _ _).mpr hLookup, hKeep⟩, rfl⟩

theorem scan_resume (h : Named idOf rows) (keep : α → Bool) {rest : List α}
    (hAll : ordered order (matching rows keep) = done ++ rest) (limit : Nat) :
    View.scan rows keep { order, after := done.getLast?.map fun value => (idOf value : Int) } limit =
      rest.take (limit + 1) := by
  rw [View.scan]
  refine congrArg (take (limit + 1)) ?_
  have hFilter : ∀ after : Option Int,
      ordered order ((rows.filter fun row => keep row.2 && passes { order, after } row.1).map Prod.snd) =
        (ordered order (matching rows keep)).filter fun value => passes { order, after } (idOf value) := by
    intro after
    have hRows : ((rows.filter fun row => keep row.2 && passes { order, after } row.1).map Prod.snd) =
        (matching rows keep).filter fun value => passes { order, after } (idOf value) := by
      rw [matching, filter_map, filter_filter]
      refine congrArg (map Prod.snd) (filter_congr fun row hMem => ?_)
      simp only [Function.comp_apply, h.of_mem hMem, Bool.and_comm]
    rw [hRows]
    cases order with
    | ascending => rfl
    | descending => rw [ordered, ordered, filter_reverse]
  rw [hFilter, hAll]
  cases hLast : done.getLast? with
  | none =>
    rw [getLast?_eq_none_iff.mp hLast]
    exact filter_eq_self.mpr fun value _ => by cases order <;> rfl
  | some last =>
    have hSorted := sorted_ordered (sorted_matching h keep) order
    rw [hAll] at hSorted
    refine Eq.trans (filter_congr fun value _ => ?_) (filter_comesAfter hSorted hLast)
    cases order <;> simp [passes, comesAfter]

/-- A scan followed through its cursors returns the rows that match. -/
theorem followed_scan (h : Named idOf rows)
    (hIds : ∀ id value, rows.lookup id = some value → id ≤ MAX_SAFE_INTEGER) (keep : α → Bool) (order : ScanOrder)
    {limit : Nat} (hLimit : 1 ≤ limit) {read : Option Cursor → Except ReadError (Page α)}
    (hRead : ∀ done : List α, (∀ value ∈ done, idOf value ≤ MAX_SAFE_INTEGER) →
      read (done.getLast?.map fun value => nextCursor (idOf value) order) =
        page idOf (View.scan rows keep { order, after := done.getLast?.map fun value => (idOf value : Int) } limit)
          limit order) :
    Followed (pages read) none (ordered order (matching rows keep)) := by
  refine followed_of_resumes (fun value => nextCursor (idOf value) order) hLimit fun done rest hAll => ?_
  have hDone : ∀ value ∈ done, idOf value ≤ MAX_SAFE_INTEGER := by
    intro value hMem
    have hValue : value ∈ ordered order (matching rows keep) := hAll ▸ mem_append_left rest hMem
    have hMatching : value ∈ matching rows keep := by
      cases order with
      | ascending => exact hValue
      | descending => exact mem_reverse.mp hValue
    exact hIds _ _ ((mem_matching h keep value).mp hMatching).1
  rw [pages, hRead done hDone, scan_resume h keep hAll, page_take idOf rest hLimit]

end OctoberHarness.Storage
