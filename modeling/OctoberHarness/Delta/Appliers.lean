import OctoberHarness.Delta.Codec
import OctoberHarness.Delta.Immutable

/-! The appliers on received batches: each operation is validated when its turn comes, and
the in-place applier and the copy-on-write one agree on all of them. -/
namespace OctoberHarness.Delta

open List

/-! Validation of a decoded operation. -/

/-- `assertPathArg`. -/
def readPathArg (cell : JsonValue) (nonEmpty : Bool) : Except DeltaError Path :=
  match cell with
  | .arr cells =>
    if nonEmpty ∧ cells = [] then .error (.type "path is empty") else cells.mapM readSeg
  | _ => .error (.type "path is not an array")

/-- The cells of a decoded operation after the verb: paths inline and no short forms. -/
def readOpCells (cells : List JsonValue) : Verb → Except DeltaError Op
  | .r =>
    match cells with
    | [value] => .ok (.r value)
    | _ => .error (.type "r arity")
  | .s =>
    match cells with
    | [path, value] => do .ok (.s (← readPathArg path true) value)
    | _ => .error (.type "s arity")
  | .d =>
    match cells with
    | [path] => do .ok (.d (← readPathArg path true))
    | _ => .error (.type "d arity")
  | .a =>
    match cells with
    | [path, .str text] => do .ok (.a (← readPathArg path true) text)
    | _ => .error (.type "a shape")
  | .t =>
    match cells with
    | [path, count] => do
      let count ← readNat "t shape" count
      .ok (.t (← readPathArg path true) count)
    | _ => .error (.type "t shape")
  | .p =>
    match cells with
    | [path, index, remove, items] => do
      .ok (.p (← readPathArg path false) (← readNat "p index" index) (← readNat "p remove" remove) (← readItems items))
    | _ => .error (.type "p arity")
  | .m =>
    match cells with
    | [path, permutation] => do .ok (.m (← readPathArg path false) (← readPermutation permutation))
    | _ => .error (.type "m arity")
  | .define => .error (.type "unknown op verb")

/-- `assertValidOp` on any received value. -/
def readOp : JsonValue → Except DeltaError Op
  | .arr (.str text :: cells) =>
    match Verb.ofText text with
    | some verb => readOpCells cells verb
    | none => .error (.type "unknown op verb")
  | .arr (_ :: _) => .error (.type "unknown op verb")
  | _ => .error (.type "op is not a tuple")

/-- One turn of the loop of `applyOps`. -/
def applyReceivedOp (root received : JsonValue) : Except DeltaError JsonValue := do
  let op ← readOp received
  applyOp root op

/-- `apply` on a received batch. -/
def applyReceived (root : JsonValue) (ops : List JsonValue) : Except DeltaError JsonValue :=
  ops.foldlM applyReceivedOp root

/-- The operations of a replay, each with the containers copied before it. -/
def applyImmutableReceivedOps (owned : Nat → Path → Bool) : Nat → JsonValue → List JsonValue → Except DeltaError JsonValue
  | _, root, [] => .ok root
  | position, root, received :: rest => do
    let op ← readOp received
    let root ← applyImmutableOp (owned position) root op
    applyImmutableReceivedOps owned (position + 1) root rest

/-- `applyImmutableBatches` on received batches, which are replayed as one. -/
def applyImmutableReceived (owned : Nat → Path → Bool) (root : JsonValue) (batches : List (List JsonValue)) :
    Except DeltaError JsonValue :=
  applyImmutableReceivedOps owned 0 root batches.flatten

variable {α : Type}

theorem splice_splice (target first second : List α) (index : Nat) :
    splice (splice target index 0 first) (index + first.length) 0 second = splice target index 0 (first ++ second) := by
  rw [splice, splice, splice, Nat.add_zero, Nat.add_zero]
  rcases Nat.le_total index target.length with hInside | hBehind
  · have hLength : (target.take index ++ first).length = index + first.length := by
      rw [length_append, length_take, Nat.min_eq_left hInside]
    rw [← hLength, take_left, drop_left, append_assoc (target.take index)]
  · have hAll : (target ++ first).length ≤ index + first.length := by
      rw [length_append]
      omega
    rw [take_of_length_le hBehind, drop_eq_nil_of_le hBehind, append_nil, take_of_length_le hAll,
      drop_eq_nil_of_le hAll, append_assoc target]

theorem splice_nil (target : List α) (index : Nat) : splice target index 0 [] = target := by
  rw [splice, Nat.add_zero, append_nil, take_append_drop]

theorem insertChunks_eq {chunkSize : Nat} (hChunk : 0 < chunkSize) (fuel : Nat) (target items : List α)
    (index : Nat) (hFuel : items.length ≤ fuel) : insertChunks chunkSize fuel target index items = splice target index 0 items := by
  induction fuel generalizing target index items with
  | zero =>
    obtain rfl := List.length_eq_zero_iff.mp (Nat.le_zero.mp hFuel)
    exact (splice_nil target index).symm
  | succ fuel ih =>
    rw [insertChunks]
    split_ifs with hItems
    · rw [hItems, splice_nil]
    · have hPositive : 0 < items.length := length_pos_of_ne_nil hItems
      rw [ih _ _ _ (by rw [length_drop]; omega)]
      rcases Nat.lt_or_ge chunkSize items.length with hLong | hLast
      · have hLength : (items.take chunkSize).length = chunkSize := by
          rw [length_take, Nat.min_eq_left (Nat.le_of_lt hLong)]
        calc splice (splice target index 0 (items.take chunkSize)) (index + chunkSize) 0 (items.drop chunkSize)
            = splice (splice target index 0 (items.take chunkSize)) (index + (items.take chunkSize).length) 0
                (items.drop chunkSize) := by rw [hLength]
          _ = splice target index 0 items := by rw [splice_splice, take_append_drop]
      · rw [drop_eq_nil_of_le hLast, splice_nil, take_of_length_le hLast]

theorem SameResult.bind {β : Type} {first second : Except DeltaError α} (h : SameResult first second)
    {next other : α → Except DeltaError β} (hNext : ∀ value, SameResult (next value) (other value)) :
    SameResult (first >>= next) (second >>= other) := by
  cases first with
  | error error =>
    cases second with
    | error other => rfl
    | ok value => exact nomatch h
  | ok value =>
    cases second with
    | error other => exact nomatch h
    | ok result =>
      obtain rfl := Option.some.inj h
      exact hNext value

theorem applyImmutableReceivedOps_same (owned : Nat → Path → Bool) (position : Nat) (root : JsonValue) (ops : List JsonValue) :
    SameResult (applyImmutableReceivedOps owned position root ops) (applyReceived root ops) := by
  induction ops generalizing position root with
  | nil => rfl
  | cons received rest ih =>
    rw [applyImmutableReceivedOps, applyReceived, foldlM_cons, applyReceivedOp]
    cases readOp received with
    | error error => rfl
    | ok op =>
      apply SameResult.bind (applyImmutableOp_same (owned position) root op)
      exact fun value => ih (position + 1) value

/-- What the append fast path gives is what copying and splicing gives. -/
theorem appendCopy_spliced (owned : Path → Bool) {root appended : JsonValue} {path : Path} {index remove : Nat}
    {items : List JsonValue} (hValid : assertValidOp (.p path index remove items) = .ok ())
    (h : appendCopy owned root path index remove items = .ok (some appended)) :
    (copyContainers owned root path >>= fun copied => applyOp copied (.p path index remove items)) = .ok appended := by
  have hCopied : SameResult (copyContainers owned root path >>= fun copied => applyOp copied (.p path index remove items))
      (applyOp root (.p path index remove items)) := by
    apply copyContainers_applyOp
    intro root hFails
    rw [applyOp, hValid]
    exact hFails _ _
  have hApplied : applyOp root (.p path index remove items) = .ok appended := by
    rcases appendCopy_applyOp owned root path index remove items hValid with hNone | hSame
    · rw [h] at hNone
      cases hNone
    · rw [h] at hSame
      cases hApply : applyOp root (.p path index remove items) with
      | error error =>
        rw [hApply] at hSame
        cases hSame
      | ok value =>
        rw [hApply] at hSame
        exact congrArg Except.ok (Option.some.inj (Option.some.inj hSame)).symm
  rw [hApplied] at hCopied
  cases hResult : copyContainers owned root path >>= fun copied => applyOp copied (.p path index remove items) with
  | error error =>
    rw [hResult] at hCopied
    cases hCopied
  | ok value =>
    rw [hResult] at hCopied
    exact congrArg Except.ok (Option.some.inj hCopied)

/-- The replay of received batches fails exactly where `apply` fails on their operations and
else gives the same value, properties in the same order; its append path gives the array of
the general path, and insertion by chunks is one splice. -/
theorem appliers_agree :
    (∀ owned root batches, SameResult (applyImmutableReceived owned root batches) (applyReceived root batches.flatten)) ∧
    (∀ owned root path index remove items appended, assertValidOp (.p path index remove items) = .ok () →
      appendCopy owned root path index remove items = .ok (some appended) →
        (copyContainers owned root path >>= fun copied => applyOp copied (.p path index remove items)) = .ok appended) ∧
    (∀ (target items : List JsonValue) index, insertChunks 10000 items.length target index items = splice target index 0 items) := by
  refine ⟨?_, ?_, ?_⟩
  · intro owned root batches
    exact applyImmutableReceivedOps_same owned 0 root batches.flatten
  · intro owned root path index remove items appended hValid h
    exact appendCopy_spliced owned hValid h
  · intro target items index
    exact insertChunks_eq (Nat.zero_lt_succ _) items.length target items index (Nat.le_refl _)

end OctoberHarness.Delta
