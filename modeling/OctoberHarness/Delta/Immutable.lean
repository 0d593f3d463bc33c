import OctoberHarness.Delta.Op

/-! The copy-on-write applier. Containers are values here, so a copy is the
container itself; what is left of the copying is which paths it accepts. The
containers copied earlier in a replay are given as a predicate on paths, and
nothing of the result depends on it. -/
namespace OctoberHarness.Delta

open List Option

/-- `copy` of `copyContainers`, unless the container was copied before. -/
def copyContainer (owned : Bool) (path : Path) (value : JsonValue) : Except DeltaError JsonValue :=
  if owned then .ok value else if value.isContainer then .ok value else .error (.path path)

/-- `Object.hasOwn(destination, segment)` and the property itself. -/
def ownChild (destination : JsonValue) (seg : Seg) : Option JsonValue :=
  match destination, seg with
  | .arr items, .index n => items[n]?
  | .arr items, .key name => if name = js "length" then some (.num (.ofNat items.length)) else none
  | .obj fields, seg => fields.lookup seg.name
  | _, _ => none

/-- The loop of `copyContainers` below a copied destination. -/
def copyContainers.loop (owned : Path → Bool) (path : Path) :
    Path → JsonValue → Path → Except DeltaError JsonValue
  | _, destination, [] => .ok destination
  | walked, destination, seg :: rest =>
    match ownChild destination seg with
    | none => .error (.path path)
    | some child =>
      match destination, seg with
      | .arr _, .key name => .error (.unsafePath (.key name))
      | _, _ =>
        if child.isContainer then do
          let walked := walked ++ [seg]
          let copied ← copyContainer (owned walked) path child
          let changed ← loop owned path walked copied rest
          .ok (setChild destination seg changed)
        else .error (.path path)

def copyContainers (owned : Path → Bool) (root : JsonValue) (path : Path) : Except DeltaError JsonValue :=
  if root.isContainer then do
    let copied ← copyContainer (owned []) path root
    copyContainers.loop owned path [] copied path
  else .error (.path path)

/-- The walk of `appendCopy`: text segments through objects, indices through
arrays, own properties only. -/
def plainWalk : JsonValue → Path → Option JsonValue
  | target, [] => some target
  | .obj fields, .key name :: rest =>
    if name ∈ RESERVED_SEGMENTS then none else (fields.lookup name).bind fun child => plainWalk child rest
  | .arr items, .index n :: rest => items[n]?.bind fun child => plainWalk child rest
  | _, _ :: _ => none

/-- `appendCopy`: an append to an array that this replay has not copied yet. -/
def appendCopy (owned : Path → Bool) (root : JsonValue) (path : Path) (index deleteCount : Nat)
    (items : List JsonValue) : Except DeltaError (Option JsonValue) :=
  if deleteCount ≠ 0 then .ok none
  else
    match plainWalk root path with
    | some (.arr target) =>
      if owned path ∨ index ≠ target.length then .ok none
      else
        let appended := .arr (target ++ items)
        match path.getLast? with
        | none => .ok (some appended)
        | some last => do
          let copied ← copyContainers owned root path.dropLast
          let changed ← modifyAt path.dropLast (fun parent => .ok (setChild parent last appended)) copied
            path.dropLast
          .ok (some changed)
    | _ => .ok none

/-- One turn of the inner loop of `applyImmutableBatches`. -/
def applyImmutableOp (owned : Path → Bool) (root : JsonValue) (op : Op) : Except DeltaError JsonValue := do
  assertValidOp op
  match op with
  | .r value => .ok value
  | .p path index remove items =>
    match ← appendCopy owned root path index remove items with
    | some appended => .ok appended
    | none =>
      let copied ← copyContainers owned root path
      applyOp copied op
  | .m path _ =>
    let copied ← copyContainers owned root path
    applyOp copied op
  | .s path _ | .d path | .a path _ | .t path _ =>
    let copied ← copyContainers owned root path.dropLast
    applyOp copied op

/-- The operations of a replay, each with the containers copied before it. -/
def applyImmutableOps (owned : Nat → Path → Bool) : Nat → JsonValue → List Op → Except DeltaError JsonValue
  | _, root, [] => .ok root
  | position, root, op :: rest => do
    let root ← applyImmutableOp (owned position) root op
    applyImmutableOps owned (position + 1) root rest

/-- `applyImmutableBatches`: the batches as one replay. -/
def applyImmutableBatches (owned : Nat → Path → Bool) (root : JsonValue) (batches : List (List Op)) :
    Except DeltaError JsonValue :=
  applyImmutableOps owned 0 root batches.flatten

def applyImmutable (owned : Nat → Path → Bool) (root : JsonValue) (ops : List Op) :
    Except DeltaError JsonValue :=
  applyImmutableBatches owned root [ops]

/-! Copying changes no value, so a replay has the result of `apply`. -/

variable {child node : JsonValue} {seg : Seg}

theorem resolveSeg_of_read (h : read node seg = some child) (path : Path) : resolveSeg path node seg = .ok child := by
  cases node with
  | arr items =>
    cases seg with
    | key name => simp [read] at h
    | index n =>
      simp only [read] at h
      simp [resolveSeg, h]
  | obj fields =>
    simp only [read] at h
    simp [resolveSeg, h]
  | _ => simp [read] at h

theorem resolveSeg_of_read_none (h : read node seg = none)
    (path : Path) : ∃ error, resolveSeg path node seg = .error error := by
  cases node with
  | arr items =>
    cases seg with
    | key name => exact ⟨_, rfl⟩
    | index n =>
      simp only [read] at h
      exact ⟨.path path, by simp [resolveSeg, h]⟩
  | obj fields =>
    simp only [read] at h
    exact ⟨.path path, by simp [resolveSeg, h]⟩
  | _ => exact ⟨_, rfl⟩

theorem modifyAt_cons (h : read node seg = some child)
    (path : Path) (change : JsonValue → Except DeltaError JsonValue) (rest : Path) :
    modifyAt path change node (seg :: rest) = (modifyAt path change child rest).map (setChild node seg) := by
  rw [modifyAt, resolveSeg_of_read h]
  cases hChanged : modifyAt path change child rest <;> simp [bind, Except.bind, Except.map, hChanged]

theorem modifyAt_cons_none (h : read node seg = none)
    (path : Path) (change : JsonValue → Except DeltaError JsonValue) (rest : Path) :
    ∃ error, modifyAt path change node (seg :: rest) = .error error := by
  obtain ⟨error, hError⟩ := resolveSeg_of_read_none h path
  exact ⟨error, by simp only [modifyAt, hError, bind, Except.bind]⟩

theorem setChild_read (h : read node seg = some child) :
    setChild node seg child = node := by
  cases node with
  | arr items =>
    cases seg with
    | key name => simp [read] at h
    | index n =>
      simp only [read] at h
      obtain ⟨hBound, rfl⟩ := List.getElem?_eq_some_iff.mp h
      rw [setChild, set_getElem_self]
  | obj fields =>
    simp only [read] at h
    rw [setChild, Fields.define_lookup_self h]
  | _ => simp [read] at h

theorem copyContainer_of_container (owned : Bool) (path : Path) {value : JsonValue}
    (h : value.isContainer = true) : copyContainer owned path value = .ok value := by
  cases owned <;> simp [copyContainer, h]

variable (owned : Path → Bool) (root : JsonValue) (path : Path)

/-- Copying along a path gives the value back, or nothing can be changed at the
end of that path. -/
theorem copyContainers.loop_spec (walked : Path) {destination : JsonValue}
    (hContainer : destination.isContainer = true) (rest : Path) :
    copyContainers.loop owned path walked destination rest = .ok destination ∨
      (∃ error, copyContainers.loop owned path walked destination rest = .error error) ∧
        ∀ path' change, ∃ error, modifyAt path' change destination rest = .error error := by
  induction rest generalizing walked destination with
  | nil => exact Or.inl rfl
  | cons seg rest ih =>
    rw [copyContainers.loop]
    cases hRead : read destination seg with
    | none =>
      refine Or.inr ⟨?_, fun path' change => modifyAt_cons_none hRead path' change rest⟩
      cases destination with
      | arr items =>
        cases seg with
        | key name =>
          cases hOwn : ownChild (.arr items) (.key name) with
          | none => exact ⟨_, rfl⟩
          | some child => exact ⟨_, rfl⟩
        | index n =>
          have hOwn : ownChild (.arr items) (.index n) = none := hRead
          exact ⟨_, by rw [hOwn]⟩
      | obj fields =>
        have hOwn : ownChild (.obj fields) seg = none := hRead
        exact ⟨_, by rw [hOwn]⟩
      | _ => exact ⟨_, rfl⟩
    | some child =>
      have hOwn : ownChild destination seg = some child := by
        cases destination with
        | arr items =>
          cases seg with
          | key name => simp [read] at hRead
          | index n => exact hRead
        | obj fields => exact hRead
        | _ => simp [read] at hRead
      have hSeg : ∀ items name, destination = .arr items → seg = .key name → False := by
        rintro items name rfl rfl
        simp [read] at hRead
      have hLoop : copyContainers.loop owned path walked destination (seg :: rest) =
          if child.isContainer then
            (copyContainers.loop owned path (walked ++ [seg]) child rest).map (setChild destination seg)
          else .error (.path path) := by
        rw [copyContainers.loop, hOwn]
        by_cases hChild : child.isContainer = true
        · simp only [hChild, if_true, copyContainer_of_container _ _ hChild, bind, Except.bind]
          cases copyContainers.loop owned path (walked ++ [seg]) child rest <;> rfl
        · simp only [hChild]
          rfl
      rw [copyContainers.loop] at hLoop
      rw [hLoop]
      by_cases hChild : child.isContainer = true
      · rw [if_pos hChild]
        rcases ih (walked ++ [seg]) hChild with hSame | ⟨⟨error, hError⟩, hFails⟩
        · left
          rw [hSame, Except.map, setChild_read hRead]
        · right
          refine ⟨⟨error, by rw [hError]; rfl⟩, fun path' change => ?_⟩
          obtain ⟨error', hError'⟩ := hFails path' change
          exact ⟨error', by rw [modifyAt_cons hRead, hError']; rfl⟩
      · rw [if_neg hChild]
        refine Or.inr ⟨⟨_, rfl⟩, fun path' change => ?_⟩
        rw [modifyAt_cons hRead]
        cases rest with
        | nil => exact ⟨.path path', by rw [modifyAt, if_neg hChild]; rfl⟩
        | cons next rest =>
          have hNone : read child next = none := by
            cases child <;> simp_all [read, JsonValue.isContainer]
          obtain ⟨error, hError⟩ := modifyAt_cons_none hNone path' change rest
          exact ⟨error, by rw [hError]; rfl⟩

theorem copyContainers_spec :
    copyContainers owned root path = .ok root ∨
      (∃ error, copyContainers owned root path = .error error) ∧
        ∀ path' change, ∃ error, modifyAt path' change root path = .error error := by
  rw [copyContainers]
  by_cases hRoot : root.isContainer = true
  · rw [if_pos hRoot, copyContainer_of_container _ _ hRoot]
    exact copyContainers.loop_spec owned path [] hRoot path
  · rw [if_neg hRoot]
    refine Or.inr ⟨⟨_, rfl⟩, fun path' change => ?_⟩
    cases path with
    | nil => exact ⟨.path path', by rw [modifyAt, if_neg hRoot]⟩
    | cons seg rest =>
      have hNone : read root seg = none := by
        cases root <;> simp_all [read, JsonValue.isContainer]
      exact modifyAt_cons_none hNone path' change rest

/-- A plain walk ends where `modifyAt` changes, and the last segment can be set
apart. -/
theorem modifyAt_plainWalk {root target : JsonValue} {init : Path} {last : Seg}
    (h : plainWalk root (init ++ [last]) = some target) (hTarget : target.isContainer = true) (path path' : Path)
    (change : JsonValue → Except DeltaError JsonValue) (changed : JsonValue) (hChange : change target = .ok changed) :
    modifyAt path change root (init ++ [last]) =
      modifyAt path' (fun parent => .ok (setChild parent last changed)) root init := by
  have hHead : ∀ (node : JsonValue) seg rest, plainWalk node (seg :: rest) = some target →
      ∃ child, read node seg = some child ∧ plainWalk child rest = some target ∧ node.isContainer = true := by
    intro node seg rest hWalk
    cases node with
    | arr items =>
      cases seg with
      | key name => simp [plainWalk] at hWalk
      | index n =>
        simp only [plainWalk, bind_eq_some_iff] at hWalk
        obtain ⟨child, hChild, hRest⟩ := hWalk
        exact ⟨child, hChild, hRest, rfl⟩
    | obj fields =>
      cases seg with
      | key name =>
        simp only [plainWalk] at hWalk
        split_ifs at hWalk
        obtain ⟨child, hChild, hRest⟩ := bind_eq_some_iff.mp hWalk
        exact ⟨child, hChild, hRest, rfl⟩
      | index n => simp [plainWalk] at hWalk
    | _ => simp [plainWalk] at hWalk
  induction init generalizing root with
  | nil =>
    obtain ⟨child, hChild, hRest, hRoot⟩ := hHead root last [] h
    obtain rfl := some.inj hRest
    rw [nil_append, modifyAt_cons hChild, modifyAt, modifyAt, if_pos hTarget, if_pos hRoot, hChange]
    rfl
  | cons seg rest ih =>
    obtain ⟨child, hChild, hRest, -⟩ := hHead root seg (rest ++ [last]) h
    rw [cons_append, modifyAt_cons hChild, modifyAt_cons hChild, ih hRest]

theorem insertChunks_append {α : Type} (fuel : Nat) (target items : List α) (hFuel : items.length ≤ fuel) :
    insertChunks 10000 fuel target target.length items = target ++ items := by
  induction fuel generalizing target items with
  | zero =>
    obtain rfl := List.length_eq_zero_iff.mp (Nat.le_zero.mp hFuel)
    simp [insertChunks]
  | succ fuel ih =>
    rw [insertChunks]
    split_ifs with hItems
    · simp [hItems]
    · have hPositive : 0 < items.length := length_pos_of_ne_nil hItems
      have hSplice : splice target target.length 0 (items.take 10000) = target ++ items.take 10000 := by
        simp [splice]
      rw [hSplice]
      by_cases hLong : 10000 ≤ items.length
      · have hLength : target.length + 10000 = (target ++ items.take 10000).length := by
          rw [length_append, length_take, Nat.min_eq_left hLong]
        rw [hLength, ih _ _ (by rw [length_drop]; omega), append_assoc, take_append_drop]
      · have hDrop : items.drop 10000 = [] := drop_eq_nil_of_le (by omega)
        rw [hDrop, take_of_length_le (by omega)]
        cases fuel <;> simp [insertChunks]

/-- Two results that are the same value, or both failures. -/
def SameResult {α : Type} (first second : Except DeltaError α) : Prop :=
  first.toOption = second.toOption

theorem SameResult.of_errors {α : Type} {first second : Except DeltaError α}
    (h : ∃ error, first = .error error) (h' : ∃ error, second = .error error) : SameResult first second := by
  obtain ⟨error, rfl⟩ := h
  obtain ⟨error', rfl⟩ := h'
  rfl

theorem copyContainers_applyOp (op : Op) (path : Path)
    (hOp : ∀ {root}, (∀ path' change, ∃ error, modifyAt path' change root path = .error error) →
      ∃ error, applyOp root op = .error error) :
    SameResult (copyContainers owned root path >>= fun copied => applyOp copied op) (applyOp root op) := by
  rcases copyContainers_spec owned root path with hSame | ⟨⟨error, hError⟩, hFails⟩
  · rw [hSame]
    rfl
  · exact SameResult.of_errors ⟨error, by rw [hError]; rfl⟩ (hOp hFails)

/-- An appended array is what the splice leaves; where the append fails, so does
the splice. -/
theorem appendCopy_applyOp (index remove : Nat)
    (items : List JsonValue) (hValid : assertValidOp (.p path index remove items) = .ok ()) :
    appendCopy owned root path index remove items = .ok none ∨
      SameResult (appendCopy owned root path index remove items)
        ((applyOp root (.p path index remove items)).map some) := by
  rw [appendCopy]
  split_ifs with hRemove
  · exact Or.inl rfl
  · rw [not_not] at hRemove
    subst hRemove
    split
    case h_1 target hWalk =>
        split_ifs with hOwned
        · exact Or.inl rfl
        · rw [not_or, not_not] at hOwned
          obtain ⟨-, rfl⟩ := hOwned
          right
          have hSplice : spliceTarget path target.length 0 items (.arr target) =
              .ok (.arr (target ++ items)) := by
            have hRemoved : splice target target.length 0 [] = target := by simp [splice]
            rw [spliceTarget, hRemoved, insertChunks_append _ _ _ (Nat.le_refl _)]
          have hApply : applyOp root (.p path target.length 0 items) =
              modifyAt path (spliceTarget path target.length 0 items) root path := by
            rw [applyOp, hValid]
            rfl
          rw [hApply]
          rcases eq_nil_or_concat path with rfl | ⟨init, last, rfl⟩
          · obtain rfl := some.inj hWalk
            have hRoot : modifyAt [] (spliceTarget [] target.length 0 items) (.arr target) [] =
                .ok (.arr (target ++ items)) := hSplice
            rw [hRoot]
            rfl
          · rw [concat_eq_append] at hWalk hSplice ⊢
            rw [modifyAt_plainWalk hWalk rfl _ init _ _ hSplice]
            simp only [getLast?_append, getLast?_singleton, dropLast_concat,
              some_or]
            rcases copyContainers_spec owned root init with hSame | ⟨⟨error, hError⟩, hFails⟩
            · rw [hSame]
              simp only [bind, Except.bind]
              cases modifyAt init (fun parent => .ok (setChild parent last (.arr (target ++ items)))) root
                init <;> rfl
            · obtain ⟨error', hError'⟩ := hFails init fun parent =>
                .ok (setChild parent last (.arr (target ++ items)))
              rw [hError, hError']
              rfl
    case h_2 => exact Or.inl rfl

theorem applyImmutableOp_same (op : Op) :
    SameResult (applyImmutableOp owned root op) (applyOp root op) := by
  cases hValid : assertValidOp op with
  | error error =>
    rw [applyImmutableOp.eq_def, applyOp.eq_def, hValid]
    rfl
  | ok valid =>
    cases op with
    | r value => rw [applyImmutableOp, applyOp, hValid]; rfl
    | p path index remove items =>
      have hGeneral := copyContainers_applyOp owned root (.p path index remove items) path
        fun hFails => by rw [applyOp, hValid]; exact hFails _ _
      rw [applyImmutableOp, hValid]
      rcases appendCopy_applyOp owned root path index remove items hValid with hNone | hSame
      · rw [hNone]
        exact hGeneral
      · cases hAppend : appendCopy owned root path index remove items with
        | error error =>
          rw [hAppend] at hSame
          cases hApply : applyOp root (.p path index remove items) with
          | error error' => rfl
          | ok value => rw [hApply] at hSame; simp [SameResult, Except.map, Except.toOption] at hSame
        | ok appended =>
          rw [hAppend] at hSame
          cases hApply : applyOp root (.p path index remove items) with
          | error error' => rw [hApply] at hSame; simp [SameResult, Except.map, Except.toOption] at hSame
          | ok value =>
            rw [hApply] at hSame
            simp only [SameResult, Except.map, Except.toOption, some.injEq] at hSame
            subst hSame
            rfl
    | m path permutation =>
      rw [applyImmutableOp, hValid]
      exact copyContainers_applyOp owned root (.m path permutation) path
        fun hFails => by rw [applyOp, hValid]; exact hFails _ _
    | s path value =>
      rw [applyImmutableOp, hValid]
      refine copyContainers_applyOp owned root (.s path value) path.dropLast fun hFails => ?_
      rw [applyOp, hValid]
      cases hLast : path.getLast? with
      | none => exact ⟨_, rfl⟩
      | some key => exact hFails _ _
    | d path =>
      rw [applyImmutableOp, hValid]
      refine copyContainers_applyOp owned root (.d path) path.dropLast fun hFails => ?_
      rw [applyOp, hValid]
      cases hLast : path.getLast? with
      | none => exact ⟨_, rfl⟩
      | some key => exact hFails _ _
    | a path text =>
      rw [applyImmutableOp, hValid]
      refine copyContainers_applyOp owned root (.a path text) path.dropLast fun hFails => ?_
      rw [applyOp, hValid]
      cases hLast : path.getLast? with
      | none => exact ⟨_, rfl⟩
      | some key => exact hFails _ _
    | t path count =>
      rw [applyImmutableOp, hValid]
      refine copyContainers_applyOp owned root (.t path count) path.dropLast fun hFails => ?_
      rw [applyOp, hValid]
      cases hLast : path.getLast? with
      | none => exact ⟨_, rfl⟩
      | some key => exact hFails _ _

theorem applyImmutableBatches_same (owned : Nat → Path → Bool) (root : JsonValue) (batches : List (List Op)) :
    SameResult (applyImmutableBatches owned root batches) (apply root batches.flatten) := by
  have hOps : ∀ (ops : List Op) position root,
      SameResult (applyImmutableOps owned position root ops) (apply root ops) := by
    intro ops
    induction ops with
    | nil => exact fun position root => rfl
    | cons op rest ih =>
      intro position root
      have hHead := applyImmutableOp_same (owned position) root op
      rw [applyImmutableOps, apply, foldlM_cons]
      cases hFirst : applyImmutableOp (owned position) root op with
      | error error =>
        rw [hFirst] at hHead
        cases hSecond : applyOp root op with
        | error error' => rfl
        | ok value => rw [hSecond] at hHead; simp [SameResult, Except.toOption] at hHead
      | ok value =>
        rw [hFirst] at hHead
        cases hSecond : applyOp root op with
        | error error' => rw [hSecond] at hHead; simp [SameResult, Except.toOption] at hHead
        | ok value' =>
          rw [hSecond] at hHead
          simp only [SameResult, Except.toOption, some.injEq] at hHead
          subst hHead
          exact ih (position + 1) value
  exact hOps batches.flatten 0 root

end OctoberHarness.Delta
