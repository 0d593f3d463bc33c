import Mathlib.Data.List.Sort
import OctoberHarness.Delta.Appliers

/-! The plans by which a changed array is emitted: runs of base elements to remove, a
permutation of those that stay, and runs of inserted pieces. Both plans are the same, and
their operations turn the base array into the elements that the pieces denote. -/
namespace OctoberHarness.Delta

open List

/-- `step: 1 | -1`. -/
inductive Step where
  | forward
  | backward
deriving DecidableEq

def Step.sign : Step → Int
  | .forward => 1
  | .backward => -1

/-- A run of elements of the base array, or of a source of inserted ones. -/
inductive Piece (Source : Type) where
  | base (start length : Nat) (step : Step)
  | insert (source : Source) (start length : Nat) (step : Step)

/-- The runs are pairs of start and length, and triples of logical index, first piece and
end piece. -/
structure ArrayPlan where
  removeRuns : List (Nat × Nat)
  permutation : Option (List Nat)
  insertRuns : List (Nat × Nat × Nat)

/-- `piece.start + piece.step * offset`. -/
def sourceIndex (start : Nat) (step : Step) (offset : Nat) : Int :=
  start + step.sign * offset

variable {Source : Type}

def Piece.length : Piece Source → Nat
  | .base _ length _ | .insert _ _ length _ => length

/-- The base elements of a piece, by their positions. -/
def Piece.baseIndices : Piece Source → List Int
  | .base start length step => (range length).map (sourceIndex start step)
  | .insert _ _ _ _ => []

def rangeLength (pieces : List (Piece Source)) (start stop : Nat) : Nat :=
  (((pieces.take stop).drop start).map Piece.length).sum

/-- The loop of `insertRunsOf` over the pieces from `index` on; the inserted pieces before
it begin at `start`. -/
def insertRunsOf.loop (pieces : List (Piece Source)) : List (Piece Source) → (logicalIndex start index : Nat) →
    List (Nat × Nat × Nat)
  | .insert _ _ length _ :: rest, logicalIndex, start, index =>
    loop pieces rest (logicalIndex + length) start (index + 1)
  | .base _ length _ :: rest, logicalIndex, start, index =>
    (if start < index then [(logicalIndex - rangeLength pieces start index, start, index)] else []) ++
      loop pieces rest (logicalIndex + length) (index + 1) (index + 1)
  | [], logicalIndex, start, index =>
    if start < index then [(logicalIndex - rangeLength pieces start index, start, index)] else []

def insertRunsOf (pieces : List (Piece Source)) : List (Nat × Nat × Nat) :=
  insertRunsOf.loop pieces pieces 0 0 0

/-- The retained base ranges in piece order, first and last; `none` where base elements
moved. -/
def orderedRanges : List (Piece Source) → (ranges : List (Nat × Nat)) → Option (List (Nat × Nat))
  | [], ranges => some ranges
  | .insert _ _ _ _ :: rest, ranges => orderedRanges rest ranges
  | .base start length step :: rest, ranges =>
    if length = 0 then orderedRanges rest ranges
    else if step ≠ .forward ∧ 1 < length then none
    else if ranges.getLast?.any fun range => start ≤ range.2 then none
    else orderedRanges rest (ranges ++ [(start, start + length - 1)])

/-- `if (end > start) removeRuns.push(start, end - start)`. -/
def runBetween (start stop : Nat) : List (Nat × Nat) :=
  if start < stop then [(start, stop - start)] else []

/-- The runs after, between and before the ranges, from the end backwards. -/
def orderedRuns : (reversed : List (Nat × Nat)) → (stop : Nat) → List (Nat × Nat)
  | [], stop => runBetween 0 stop
  | (first, last) :: rest, stop => runBetween (last + 1) stop ++ orderedRuns rest first

def orderedArrayPlan (baseLength : Nat) (pieces : List (Piece Source)) : Option ArrayPlan :=
  (orderedRanges pieces []).map fun ranges =>
    ⟨orderedRuns ranges.reverse baseLength, none, insertRunsOf pieces⟩

/-- The base elements in the order of the pieces, each of them `retained`. -/
def targetBase (pieces : List (Piece Source)) : List Nat :=
  (pieces.flatMap Piece.baseIndices).map Int.toNat

/-- The walk back over every base element: those from `start` to `stop` are not retained. -/
def removeRuns (target : List Nat) : (start stop : Nat) → List (Nat × Nat)
  | 0, stop => runBetween 0 stop
  | start + 1, stop =>
    if start ∈ target then runBetween (start + 1) stop ++ removeRuns target start start
    else removeRuns target start stop

def retainedBase (baseLength : Nat) (target : List Nat) : List Nat :=
  (range baseLength).filter fun index => index ∈ target

def elementArrayPlan (baseLength : Nat) (pieces : List (Piece Source)) : ArrayPlan :=
  let target := targetBase pieces
  let kept := retainedBase baseLength target
  { removeRuns := removeRuns target baseLength baseLength
    permutation := if ∃ index < target.length, target[index]? ≠ kept[index]? then some (target.map kept.idxOf) else none
    insertRuns := insertRunsOf pieces }

def MAX_DELTA_OPERATIONS : Nat :=
  4096

section

variable (base : List JsonValue) (entry : Source → Int → JsonValue)

/-- The elements of a piece as `cloneStored(entryValueAt(…))` gives them: those of the base
array as they are, those of a source as `entry` says. -/
def Piece.values : Piece Source → List JsonValue
  | .base start length step => (range length).map fun offset => base.getD (sourceIndex start step offset).toNat .null
  | .insert source start length step => (range length).map fun offset => entry source (sourceIndex start step offset)

/-- The element sequence that pieces denote, as `cloneNode` lists it. -/
def denoted (pieces : List (Piece Source)) : List JsonValue :=
  pieces.flatMap (Piece.values base entry)

/-- The items of a run of inserted pieces. -/
def runItems (pieces : List (Piece Source)) (run : Nat × Nat × Nat) : List JsonValue :=
  denoted base entry ((pieces.take run.2.2).drop run.2.1)

/-- A loop of `emitArrayOperations`: it stops behind too many operations. -/
def pushOperations (operations more : List Op) : List Op :=
  operations ++ more.take (MAX_DELTA_OPERATIONS + 1 - operations.length)

/-- The operations of a root array, with its path. -/
def emitArrayOperations (pieces : List (Piece Source)) (plan : ArrayPlan) : List Op :=
  pushOperations
    (pushOperations [] (plan.removeRuns.map fun run => .p [] run.1 run.2 []) ++ (plan.permutation.map (Op.m [])).toList)
    (plan.insertRuns.map fun run => .p [] run.1 0 (runItems base entry pieces run))

/-- What `emitOperations` makes of a root array: with too many operations the root is
replaced by its clone. -/
def emitOperations (pieces : List (Piece Source)) (plan : ArrayPlan) : List Op :=
  if MAX_DELTA_OPERATIONS < (emitArrayOperations base entry pieces plan).length then
    [.r (.arr (denoted base entry pieces))]
  else emitArrayOperations base entry pieces plan

end

/-- The base pieces cover positions of the base array, and none twice. -/
structure Covers (baseLength : Nat) (pieces : List (Piece Source)) : Prop where
  inRange : ∀ index ∈ pieces.flatMap Piece.baseIndices, 0 ≤ index ∧ index < baseLength
  disjoint : (pieces.flatMap Piece.baseIndices).Nodup

variable {pieces : List (Piece Source)} {baseLength : Nat} {target : List Nat}

namespace Covers

theorem nodup (h : Covers baseLength pieces) : (targetBase pieces).Nodup := by
  apply h.disjoint.map_on
  intro index hIndex other hOther hSame
  have hFirst := (h.inRange index hIndex).1
  have hSecond := (h.inRange other hOther).1
  omega

theorem lt_of_mem (h : Covers baseLength pieces) {index : Nat} (hIndex : index ∈ targetBase pieces) : index < baseLength := by
  obtain ⟨position, hPosition, rfl⟩ := mem_map.mp hIndex
  have hRange := h.inRange position hPosition
  omega

theorem perm (h : Covers baseLength pieces) : (targetBase pieces).Perm (retainedBase baseLength (targetBase pieces)) := by
  rw [retainedBase, perm_ext_iff_of_nodup h.nodup (nodup_range.filter _)]
  intro index
  simp only [mem_filter, mem_range, decide_eq_true_eq]
  exact ⟨fun hMem => ⟨h.lt_of_mem hMem, hMem⟩, And.right⟩

end Covers

/-! Ranges that keep their order. -/

/-- The ranges, from the last one on, ascend below a bound. -/
def Below : (stop : Nat) → (reversed : List (Nat × Nat)) → Prop
  | _, [] => True
  | stop, (first, last) :: rest => first ≤ last ∧ last < stop ∧ Below first rest

/-- The positions of a range. -/
def span (range : Nat × Nat) : List Nat :=
  range' range.1 (range.2 + 1 - range.1)

variable {first index stop start : Nat} {ranges : List (Nat × Nat)}

theorem mem_span {last : Nat} (h : first ≤ last) : index ∈ span (first, last) ↔ first ≤ index ∧ index ≤ last := by
  rw [span, mem_range'_1]
  omega

variable {reversed : List (Nat × Nat)}

theorem Below.lt (h : Below stop reversed) (hIndex : index ∈ reversed.flatMap span) : index < stop := by
  induction reversed generalizing stop with
  | nil => exact absurd hIndex not_mem_nil
  | cons range rest ih =>
    obtain ⟨hOrder, hLast, hRest⟩ := h
    rw [flatMap_cons, mem_append, mem_span hOrder] at hIndex
    rcases hIndex with hHere | hThere
    · omega
    · have hLess := ih hRest hThere
      omega

theorem removeRuns_gone (stop : Nat) (h : first ≤ start) (hGone : ∀ index, first ≤ index → index < start → index ∉ target) :
    removeRuns target start stop = removeRuns target first stop := by
  induction start, h using Nat.le_induction with
  | base => rfl
  | succ start hFirst ih =>
    rw [removeRuns, if_neg (hGone start hFirst (Nat.lt_succ_self _))]
    exact ih fun index hFrom hTo => hGone index hFrom (Nat.lt_succ_of_lt hTo)

theorem removeRuns_kept (stop : Nat) (h : first ≤ start) (hKept : ∀ index, first ≤ index → index ≤ start → index ∈ target) :
    removeRuns target (start + 1) stop = runBetween (start + 1) stop ++ removeRuns target first first := by
  induction start, h using Nat.le_induction generalizing stop with
  | base => rw [removeRuns, if_pos (hKept first (Nat.le_refl _) (Nat.le_refl _))]
  | succ start hFirst ih =>
    rw [removeRuns, if_pos (hKept _ (Nat.le_succ_of_le hFirst) (Nat.le_refl _)),
      ih _ fun index hFrom hTo => hKept index hFrom (Nat.le_succ_of_le hTo), runBetween, runBetween,
      if_neg (Nat.lt_irrefl _), nil_append]

theorem orderedRuns_eq (h : Below stop reversed) (hTarget : ∀ index < stop, index ∈ target ↔ index ∈ reversed.flatMap span) :
    orderedRuns reversed stop = removeRuns target stop stop := by
  induction reversed generalizing stop with
  | nil => rw [removeRuns_gone stop (Nat.zero_le _) fun index _ hTo hMem => not_mem_nil ((hTarget index hTo).mp hMem)]; rfl
  | cons range rest ih =>
    obtain ⟨first, last⟩ := range
    obtain ⟨hOrder, hLast, hRest⟩ := h
    have hMem : ∀ index < stop, index ∈ target ↔ (first ≤ index ∧ index ≤ last) ∨ index ∈ rest.flatMap span := by
      intro index hIndex
      rw [hTarget index hIndex, flatMap_cons, mem_append, mem_span hOrder]
    have hBefore : ∀ index < first, index ∈ target ↔ index ∈ rest.flatMap span := by
      intro index hIndex
      rw [hMem index (by omega)]
      exact or_iff_right (by omega)
    have hBehind : ∀ index, last + 1 ≤ index → index < stop → index ∉ target := by
      intro index hFrom hTo hIndex
      rcases (hMem index hTo).mp hIndex with hInside | hOther
      · omega
      · have hLess := hRest.lt hOther
        omega
    rw [orderedRuns, ih hRest hBefore, removeRuns_gone stop hLast hBehind,
      removeRuns_kept stop hOrder fun index hFrom hTo => (hMem index (by omega)).mpr (.inl ⟨hFrom, hTo⟩)]

theorem targetBase_cons (piece : Piece Source) (pieces : List (Piece Source)) :
    targetBase (piece :: pieces) = piece.baseIndices.map Int.toNat ++ targetBase pieces := by
  rw [targetBase, flatMap_cons, map_append]
  rfl

theorem baseIndices_range {length : Nat} {step : Step} (h : ¬(step ≠ .forward ∧ 1 < length)) :
    (Piece.base start length step : Piece Source).baseIndices.map Int.toNat = range' start length := by
  rw [Piece.baseIndices, map_map, range'_eq_map_range]
  apply map_congr_left
  intro offset hOffset
  have hLess := mem_range.mp hOffset
  cases step with
  | forward =>
    simp only [Function.comp_apply, sourceIndex, Step.sign]
    omega
  | backward =>
    have hOne : ¬1 < length := fun hLong => h ⟨by decide, hLong⟩
    simp only [Function.comp_apply, sourceIndex, Step.sign]
    omega

theorem orderedRanges_spec {result : List (Nat × Nat)} (h : orderedRanges pieces ranges = some result)
    (hBelow : Below baseLength ranges.reverse) (hRange : ∀ index ∈ targetBase pieces, index < baseLength) :
    Below baseLength result.reverse ∧ result.flatMap span = ranges.flatMap span ++ targetBase pieces := by
  induction pieces generalizing ranges with
  | nil =>
    obtain rfl := Option.some.inj h
    exact ⟨hBelow, (append_nil _).symm⟩
  | cons piece rest ih =>
    rw [targetBase_cons] at hRange ⊢
    have hRest : ∀ index ∈ targetBase rest, index < baseLength := fun index hIndex => hRange index (mem_append_right _ hIndex)
    cases piece with
    | insert source start length step => exact ih h hBelow hRest
    | base start length step =>
      rw [orderedRanges] at h
      split_ifs at h with hEmpty hStep hOrder
      · subst hEmpty
        exact ih h hBelow hRest
      · have hIndices : (Piece.base start length step : Piece Source).baseIndices.map Int.toNat =
            span (start, start + length - 1) := by
          rw [baseIndices_range hStep, span]
          congr 1
          omega
        have hFirst : start ≤ start + length - 1 := by omega
        have hLast : start + length - 1 < baseLength := by
          apply hRange
          rw [mem_append, hIndices, mem_span hFirst]
          exact .inl ⟨hFirst, Nat.le_refl _⟩
        have hBefore : Below start ranges.reverse := by
          cases hReversed : ranges.reverse with
          | nil => exact trivial
          | cons range others =>
            rw [hReversed] at hBelow
            rw [getLast?_eq_head?_reverse, hReversed] at hOrder
            exact ⟨hBelow.1, by simpa using hOrder, hBelow.2.2⟩
        obtain ⟨hDone, hSpan⟩ := ih h (by rw [reverse_append]; exact ⟨hFirst, hLast, hBefore⟩) hRest
        refine ⟨hDone, ?_⟩
        rw [hSpan, flatMap_append, append_assoc, flatMap_singleton, hIndices]

theorem mem_flatMap_reverse :
    index ∈ ranges.reverse.flatMap span ↔ index ∈ ranges.flatMap span := by
  simp [mem_flatMap]

theorem Below.ascending (h : Below stop ranges.reverse) :
    (ranges.flatMap span).Pairwise (· < ·) := by
  induction ranges using reverseRecOn generalizing stop with
  | nil => exact Pairwise.nil
  | append_singleton rest range ih =>
    rw [reverse_append] at h
    obtain ⟨hOrder, -, hRest⟩ := h
    rw [flatMap_append, flatMap_singleton, pairwise_append]
    refine ⟨ih hRest, pairwise_lt_range', ?_⟩
    intro before hBefore after hAfter
    exact Nat.lt_of_lt_of_le (hRest.lt (mem_flatMap_reverse.mpr hBefore)) ((mem_span hOrder).mp hAfter).1

theorem orderedArrayPlan_eq (h : Covers baseLength pieces) {plan : ArrayPlan}
    (hPlan : orderedArrayPlan baseLength pieces = some plan) : plan = elementArrayPlan baseLength pieces := by
  obtain ⟨ranges, hRanges, rfl⟩ := Option.map_eq_some_iff.mp hPlan
  obtain ⟨hBelow, hSpan⟩ := orderedRanges_spec hRanges trivial fun index => h.lt_of_mem
  rw [flatMap_nil, nil_append] at hSpan
  have hKept : targetBase pieces = retainedBase baseLength (targetBase pieces) :=
    (hSpan ▸ hBelow.ascending).eq_of_mem_iff (pairwise_lt_range.filter _) fun index => h.perm.mem_iff
  have hRuns : orderedRuns ranges.reverse baseLength = removeRuns (targetBase pieces) baseLength baseLength :=
    orderedRuns_eq hBelow fun index _ => by rw [mem_flatMap_reverse, hSpan]
  rw [elementArrayPlan, ← hKept, hRuns]
  simp

/-! What the operations do to the base array. -/

def applyRun (array : List JsonValue) (run : Nat × Nat) : List JsonValue :=
  splice array run.1 run.2 []

variable (base : List JsonValue)

theorem foldl_runBetween (rest : List JsonValue) (hStart : start ≤ stop) (hStop : stop ≤ base.length) :
    (runBetween start stop).foldl applyRun (base.take stop ++ rest) = base.take start ++ rest := by
  have hLength : (base.take stop).length = stop := length_take_of_le hStop
  rw [runBetween]
  split_ifs with hGap
  · rw [foldl_cons, foldl_nil, applyRun, splice, append_nil, take_append_of_le_length (by omega), take_take,
      Nat.min_eq_left hStart, Nat.add_sub_cancel' hStart, drop_left' hLength]
  · rw [foldl_nil, Nat.le_antisymm hStart (by omega)]

theorem foldl_removeRuns (target : List Nat) (rest : List JsonValue) (hStart : start ≤ stop) (hStop : stop ≤ base.length) :
    (removeRuns target start stop).foldl applyRun (base.take stop ++ rest) =
      (retainedBase start target).map (base.getD · .null) ++ rest := by
  induction start generalizing stop rest with
  | zero => exact foldl_runBetween base rest hStart hStop
  | succ start ih =>
    rw [removeRuns, retainedBase, range_succ, filter_append, map_append]
    by_cases hKept : start ∈ target
    · have hElement : base.take (start + 1) = base.take start ++ [base.getD start .null] := by
        rw [take_add_one, getD_eq_getElem?_getD, getElem?_eq_getElem (by omega)]
        rfl
      rw [if_pos hKept, foldl_append, foldl_runBetween base rest hStart hStop, hElement, append_assoc,
        ih _ (Nat.le_refl _) (by omega), filter_singleton]
      simp [hKept, retainedBase]
    · rw [if_neg hKept, ih rest (by omega) hStop, filter_singleton]
      simp [hKept, retainedBase]

def permute (array : List JsonValue) (permutation : List Nat) : List JsonValue :=
  permutation.filterMap fun index => array[index]?

theorem permute_positions {kept : List Nat} (h : target.Perm kept) :
    permute (kept.map (base.getD · .null)) (target.map kept.idxOf) = target.map (base.getD · .null) := by
  have hMap : target.map (base.getD · .null) = target.filterMap (some ∘ (base.getD · .null)) := by
    rw [filterMap_eq_map]
  rw [permute, filterMap_map, hMap]
  apply filterMap_congr
  intro value hValue
  have hLess := idxOf_lt_length_of_mem (h.mem_iff.mp hValue)
  rw [Function.comp_apply, getElem?_map, getElem?_eq_getElem hLess, getElem_idxOf hLess]
  rfl

theorem assertPermutation_loop {length : Nat} {permutation seen : List Nat} (hRange : ∀ index ∈ permutation, index < length)
    (hNodup : permutation.Nodup) (hSeen : ∀ index ∈ permutation, index ∉ seen) :
    assertPermutation.loop length permutation seen = .ok () := by
  induction permutation generalizing seen with
  | nil => rfl
  | cons index rest ih =>
    obtain ⟨hNew, hRest⟩ := nodup_cons.mp hNodup
    rw [forall_mem_cons] at hRange hSeen
    rw [assertPermutation.loop, if_neg (not_or.mpr ⟨Nat.not_le.mpr hRange.1, hSeen.1⟩)]
    apply ih hRange.2 hRest
    intro other hOther hMem
    rcases mem_cons.mp hMem with rfl | hMem
    · exact hNew hOther
    · exact hSeen.2 other hOther hMem

theorem assertPermutation_positions {kept : List Nat} (h : target.Perm kept) (hNodup : target.Nodup) :
    assertPermutation (target.map kept.idxOf) = .ok () := by
  apply assertPermutation_loop
  · intro index hIndex
    obtain ⟨value, hValue, rfl⟩ := mem_map.mp hIndex
    rw [length_map, h.length_eq]
    exact idxOf_lt_length_of_mem (h.mem_iff.mp hValue)
  · exact hNodup.map_on fun value hValue other _ hSame => (idxOf_inj (h.mem_iff.mp hValue)).mp hSame
  · exact fun _ _ => not_mem_nil

variable (entry : Source → Int → JsonValue)

theorem length_denoted (pieces : List (Piece Source)) :
    (denoted base entry pieces).length = (pieces.map Piece.length).sum := by
  rw [denoted, length_flatMap]
  congr 1
  apply map_congr_left
  rintro (_ | _) _ <;> exact (length_map _).trans length_range

/-- The base elements of pieces, in the order of the pieces. -/
def baseValues (pieces : List (Piece Source)) : List JsonValue :=
  (targetBase pieces).map (base.getD · .null)

theorem baseValues_base (start length : Nat) (step : Step) (rest : List (Piece Source)) :
    baseValues base (.base start length step :: rest) =
      denoted base entry [.base start length step] ++ baseValues base rest := by
  simp [baseValues, targetBase_cons, Piece.baseIndices, Piece.values, denoted]

def applyInsert (pieces : List (Piece Source)) (array : List JsonValue) (run : Nat × Nat × Nat) : List JsonValue :=
  splice array run.1 0 (runItems base entry pieces run)

theorem denoted_append (first second : List (Piece Source)) :
    denoted base entry (first ++ second) = denoted base entry first ++ denoted base entry second :=
  flatMap_append

variable {logicalIndex : Nat}

/-- A run, where there is one, fills in its elements behind those that are filled in already. -/
theorem applyInsert_run (before run rest : List (Piece Source)) (others : List JsonValue)
    (hLogical : logicalIndex = (denoted base entry (before ++ run)).length) :
    (if before.length < before.length + run.length then
        [(logicalIndex - rangeLength (before ++ run ++ rest) before.length (before.length + run.length), before.length,
          before.length + run.length)] else []).foldl (applyInsert base entry (before ++ run ++ rest))
        (denoted base entry before ++ others) =
      denoted base entry (before ++ run) ++ others := by
  have hSlice : ((before ++ run ++ rest).take (before.length + run.length)).drop before.length = run := by
    rw [append_assoc, take_length_add_append, take_left, drop_left]
  rw [denoted_append, length_append] at hLogical
  split_ifs with hRun
  · rw [foldl_cons, foldl_nil, applyInsert, runItems, hSlice, rangeLength, hSlice, ← length_denoted base entry, hLogical,
      Nat.add_sub_cancel, splice, Nat.add_zero, take_left, drop_left, denoted_append]
  · obtain rfl : run = [] := length_eq_zero_iff.mp (by omega)
    rw [append_nil]
    rfl

/-- The inserts fill in the elements of the pieces from the front: behind those filled in
stand the base elements of the others. -/
theorem foldl_insertRuns (before run rest : List (Piece Source))
    (hLogical : logicalIndex = (denoted base entry (before ++ run)).length) :
    (insertRunsOf.loop (before ++ run ++ rest) rest logicalIndex before.length (before.length + run.length)).foldl
        (applyInsert base entry (before ++ run ++ rest)) (denoted base entry before ++ baseValues base rest) =
      denoted base entry (before ++ run ++ rest) := by
  induction rest generalizing before run logicalIndex with
  | nil =>
    rw [insertRunsOf.loop, applyInsert_run base entry before run [] _ hLogical, append_nil]
    exact append_nil _
  | cons piece rest ih =>
    have hNext : logicalIndex + piece.length = (denoted base entry (before ++ run ++ [piece])).length := by
      rw [denoted_append, length_append, ← hLogical, length_denoted base entry [piece]]
      rfl
    cases piece with
    | insert source start length step =>
      have hDone := ih before (run ++ [.insert source start length step]) (hNext.trans (by rw [append_assoc]))
      rw [← append_assoc, append_assoc (before ++ run), singleton_append, length_append] at hDone
      exact hDone
    | base start length step =>
      have hDone := ih (before ++ run ++ [.base start length step]) [] (hNext.trans (by rw [append_nil]))
      rw [append_nil, append_assoc (before ++ run), singleton_append, length_append, length_append] at hDone
      rw [insertRunsOf.loop, foldl_append, applyInsert_run base entry before run _ _ hLogical, baseValues_base,
        ← append_assoc, ← denoted_append]
      exact hDone

theorem foldl_removeRuns_base : (elementArrayPlan base.length pieces).removeRuns.foldl applyRun base =
    (retainedBase base.length (targetBase pieces)).map (base.getD · .null) := by
  have hFold := foldl_removeRuns base (targetBase pieces) [] (Nat.le_refl _) (Nat.le_refl _)
  rw [take_length, append_nil, append_nil] at hFold
  exact hFold

theorem elementArrayPlan_effect (h : Covers base.length pieces) :
    (elementArrayPlan base.length pieces).insertRuns.foldl (applyInsert base entry pieces)
        ((elementArrayPlan base.length pieces).permutation.elim
          ((elementArrayPlan base.length pieces).removeRuns.foldl applyRun base)
          (permute ((elementArrayPlan base.length pieces).removeRuns.foldl applyRun base))) =
      denoted base entry pieces := by
  have hMoved : (elementArrayPlan base.length pieces).permutation.elim
      ((elementArrayPlan base.length pieces).removeRuns.foldl applyRun base)
      (permute ((elementArrayPlan base.length pieces).removeRuns.foldl applyRun base)) = baseValues base pieces := by
    rw [foldl_removeRuns_base]
    simp only [elementArrayPlan]
    split_ifs with hOrder
    · exact permute_positions base h.perm
    · rw [Option.elim_none, baseValues]
      congr 1
      apply (ext_getElem? fun index => ?_).symm
      rcases Nat.lt_or_ge index (targetBase pieces).length with hInside | hBehind
      · exact not_not.mp fun hOther => hOrder ⟨index, hInside, hOther⟩
      · rw [getElem?_eq_none hBehind, getElem?_eq_none (h.perm.length_eq ▸ hBehind)]
  rw [hMoved]
  exact foldl_insertRuns base entry [] [] pieces rfl

/-! What applying the operations does. -/

theorem applyOp_splice (array : List JsonValue) (index remove : Nat) (items : List JsonValue) :
    applyOp (.arr array) (.p [] index remove items) = .ok (.arr (splice array index remove items)) := by
  show Except.ok (JsonValue.arr (insertChunks 10000 items.length (splice array index remove []) index items)) = _
  rw [insertChunks_eq (by decide) _ _ _ _ (Nat.le_refl _), splice, splice, splice, append_nil, Nat.add_zero]
  rcases Nat.le_total index array.length with hInside | hBehind
  · have hLength : (array.take index).length = index := length_take_of_le hInside
    rw [take_left' hLength, drop_left' hLength]
  · have hAll : array.drop (index + remove) = [] := drop_eq_nil_of_le (by omega)
    rw [hAll, append_nil, append_nil, take_of_length_le hBehind, take_of_length_le hBehind, drop_eq_nil_of_le hBehind,
      append_nil]

theorem apply_runs {Run : Type} {op : Run → Op} {effect : List JsonValue → Run → List JsonValue}
    (hOp : ∀ array run, applyOp (.arr array) (op run) = .ok (.arr (effect array run))) (runs : List Run)
    (array : List JsonValue) (more : List Op) :
    apply (.arr array) (runs.map op ++ more) = apply (.arr (runs.foldl effect array)) more := by
  induction runs generalizing array with
  | nil => rfl
  | cons run rest ih =>
    rw [map_cons, cons_append, apply, foldlM_cons, hOp]
    exact ih _

theorem apply_permutation {permutation : Option (List Nat)} {array : List JsonValue} (more : List Op)
    (h : ∀ positions, permutation = some positions →
      assertPermutation positions = .ok () ∧ array.length = positions.length) :
    apply (.arr array) ((permutation.map (Op.m [])).toList ++ more) = apply (.arr (permutation.elim array (permute array))) more := by
  cases permutation with
  | none => rfl
  | some positions =>
    obtain ⟨hBijection, hLength⟩ := h positions rfl
    have hOp : applyOp (.arr array) (.m [] positions) =
        (assertPermutation positions >>= fun _ => permuteTarget [] positions (.arr array)) := rfl
    rw [Option.map_some, Option.toList_some, singleton_append, apply, foldlM_cons, hOp, hBijection]
    show (permuteTarget [] positions (.arr array) >>= _) = _
    rw [permuteTarget, if_neg (not_not.mpr hLength)]
    rfl

theorem pushOperations_eq {operations more : List Op} (h : ¬MAX_DELTA_OPERATIONS < (pushOperations operations more).length) :
    pushOperations operations more = operations ++ more := by
  rw [pushOperations, length_append, length_take] at h
  rw [pushOperations, take_of_length_le (by omega)]

theorem apply_emitOperations (h : Covers base.length pieces) :
    apply (.arr base) (emitOperations base entry pieces (elementArrayPlan base.length pieces)) =
      .ok (.arr (denoted base entry pieces)) := by
  have hRemove (array : List JsonValue) (run : Nat × Nat) :
      applyOp (.arr array) (.p [] run.1 run.2 []) = .ok (.arr (applyRun array run)) := applyOp_splice array run.1 run.2 []
  have hInsert (array : List JsonValue) (run : Nat × Nat × Nat) :
      applyOp (.arr array) (.p [] run.1 0 (runItems base entry pieces run)) = .ok (.arr (applyInsert base entry pieces array run)) :=
    applyOp_splice array run.1 0 _
  rw [emitOperations]
  split_ifs with hMany
  · rfl
  · rw [emitArrayOperations] at hMany ⊢
    have hFirst := hMany
    rw [pushOperations, length_append, length_append] at hFirst
    rw [pushOperations_eq hMany, pushOperations_eq (by omega), nil_append, append_assoc,
      apply_runs hRemove, apply_permutation, ← append_nil (map _ (elementArrayPlan base.length pieces).insertRuns),
      apply_runs hInsert]
    · exact congrArg (fun array => Except.ok (JsonValue.arr array)) (elementArrayPlan_effect base entry h)
    · intro permutation hPermutation
      rw [foldl_removeRuns_base]
      simp only [elementArrayPlan] at hPermutation
      split_ifs at hPermutation
      · obtain rfl := Option.some.inj hPermutation
        exact ⟨assertPermutation_positions h.perm h.nodup, by rw [length_map, length_map, h.perm.length_eq]⟩

/-- The fast plan is the slow one, and the operations of either turn the base array into
what the pieces denote. -/
theorem array_plans_agree (h : Covers baseLength pieces) :
    (∀ plan, orderedArrayPlan baseLength pieces = some plan → plan = elementArrayPlan baseLength pieces) ∧
      ∀ plan, orderedArrayPlan baseLength pieces = some plan ∨ elementArrayPlan baseLength pieces = plan →
        ∀ (base : List JsonValue) (entry : Source → Int → JsonValue), base.length = baseLength →
          apply (.arr base) (emitOperations base entry pieces plan) = .ok (.arr (denoted base entry pieces)) := by
  refine ⟨fun plan => orderedArrayPlan_eq h, ?_⟩
  rintro plan hPlan base entry rfl
  obtain rfl : plan = elementArrayPlan base.length pieces := hPlan.elim (orderedArrayPlan_eq h) Eq.symm
  exact apply_emitOperations base entry h

/-- The last two elements, an inserted one and the first. -/
theorem array_plans_moved :
    apply (.arr [.null, .bool true, .bool false, .str []])
        (emitOperations [.null, .bool true, .bool false, .str []] (fun (_ : Unit) _ => .obj [])
          [.base 3 2 .backward, .insert () 0 1 .forward, .base 0 1 .forward]
          (elementArrayPlan 4 [.base 3 2 .backward, .insert () 0 1 .forward, .base 0 1 .forward])) =
      .ok (.arr [.str [], .bool false, .obj [], .null]) :=
  (array_plans_agree ⟨by decide, by decide⟩).2 _ (.inr rfl) _ _ rfl

end OctoberHarness.Delta
