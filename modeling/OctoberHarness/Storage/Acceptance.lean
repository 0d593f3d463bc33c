import OctoberHarness.Storage.ActionChecks

/-! What both storages check of a batch before they apply it, in their own order:
they accept the same batches, and apply the same actions. -/
namespace OctoberHarness.Storage

open List View

/-! Document actions. -/

variable {m : Memory} {d : Sqlite} {writes : List Write}

theorem Sqlite.checkDocumentActions_ok (hMirror : Mirror m d) (hKept : d.Kept) {actions : Sqlite.DocumentActions}
    (hCollected : Collected writes actions) :
    d.checkDocumentActions actions = .ok () ↔ (∀ entry ∈ actions, d.checkAction actions entry.1 entry.2 = .ok ()) ∧
      ∀ address, aliveAfter d (actions.map (Prod.map id (resolveAction (copied d)))) address ≤ 1 := by
  have hLoop := fun {result} => @loop_ok Sqlite.DocumentAction Sqlite.addressKey (resolveAction (copied d))
    (fun entry => d.checkAction actions entry.1 entry.2) (fun counts entry => d.liveAfter counts entry.1 entry.2)
    (Sqlite.checkDocumentActions.loop d actions) d Sqlite.addressKey_inj (fun _ => rfl)
    (fun counts entry rest => by
      rw [Sqlite.checkDocumentActions.loop]
      cases d.liveAfter counts entry.1 entry.2 <;> rfl)
    actions (fun entry hMem hCheck counts => Sqlite.liveAfter_eq hMirror hKept _
      ((Sqlite.checkAction_ok hMirror hKept hCollected hMem _).mp hCheck).2 counts) [] result
  rw [Sqlite.checkDocumentActions, Outcome.bind_eq_ok, ← any_liveCounts hKept]
  simp only [map_nil] at hLoop
  constructor
  · rintro ⟨counts, hCounts, hAny⟩
    obtain ⟨hAll, rfl⟩ := hLoop.mp hCounts
    refine ⟨hAll, ?_⟩
    rw [any_map] at hAny
    split_ifs at hAny with hTwice
    exact Bool.eq_false_iff.mpr hTwice
  · rintro ⟨hAll, hAny⟩
    refine ⟨_, hLoop.mpr ⟨hAll, rfl⟩, ?_⟩
    rw [any_map]
    exact if_neg (Bool.eq_false_iff.mp hAny)

theorem Memory.checkDocumentActions_ok (hMirror : Mirror m d) (hCurrent : Current m d)
    (hKept : d.Kept) {actions : Memory.DocumentActions} : m.checkDocumentActions actions = .ok () ↔
      (∀ entry ∈ actions, Memory.checkAction (m.documents.lookup entry.1) entry.1 entry.2 = .ok ()) ∧
        ∀ address, aliveAfter d actions address ≤ 1 := by
  have hKey : Function.Injective addressKey := fun a b => (addressKey_inj a b).mp
  have hLoop := fun {result} => @loop_ok Memory.DocumentAction addressKey id
    (fun entry => Memory.checkAction (m.documents.lookup entry.1) entry.1 entry.2)
    (fun counts entry => m.liveAfter counts entry.1 entry.2)
    (Memory.checkDocumentActions.loop m) d hKey (fun _ => rfl)
    (fun counts entry rest => by
      rw [Memory.checkDocumentActions.loop]
      cases m.liveAfter counts entry.1 entry.2 <;> rfl)
    actions (fun entry hMem hCheck counts => Memory.liveAfter_eq hMirror hCurrent hKept hCheck counts) [] result
  rw [Memory.checkDocumentActions, Outcome.bind_eq_ok, ← any_liveCounts hKept]
  simp only [map_nil, Prod.map_id, map_id] at hLoop
  constructor
  · rintro ⟨counts, hCounts, hAny⟩
    obtain ⟨hAll, rfl⟩ := hLoop.mp hCounts
    refine ⟨hAll, ?_⟩
    rw [any_map] at hAny
    split_ifs at hAny with hTwice
    exact Bool.eq_false_iff.mpr hTwice
  · rintro ⟨hAll, hAny⟩
    refine ⟨_, hLoop.mpr ⟨hAll, rfl⟩, ?_⟩
    rw [any_map]
    exact if_neg (Bool.eq_false_iff.mp hAny)

theorem checkGlobalIds_congr {types types' : List (Nat × TableName)} (hSame : Copies types types')
    (claims : List (Nat × TableName)) (writes : List Write) :
    Memory.checkGlobalIds.loop types claims writes = Memory.checkGlobalIds.loop types' claims writes := by
  induction writes generalizing claims with
  | nil => rfl
  | cons write rest ih =>
    rw [Memory.checkGlobalIds.loop, Memory.checkGlobalIds.loop]
    cases Memory.claimOf write with
    | none => exact ih claims
    | some claim =>
      simp only [hSame claim.1]
      exact bind_congr fun _ => ih _

theorem checkGlobalIds_resolve (content : DocumentCopySource → Nat × JsonValue) (types claims : List (Nat × TableName))
    (writes : List Write) : Memory.checkGlobalIds.loop types claims (writes.map (resolveWrite content)) =
      Memory.checkGlobalIds.loop types claims writes := by
  have hClaim : ∀ write, Memory.claimOf (resolveWrite content write) = Memory.claimOf write := by
    intro write
    cases write <;> rfl
  induction writes generalizing claims with
  | nil => rfl
  | cons write rest ih =>
    rw [map_cons, Memory.checkGlobalIds.loop, Memory.checkGlobalIds.loop, hClaim]
    cases Memory.claimOf write with
    | none => exact ih claims
    | some claim => exact bind_congr fun _ => ih _

/-- What both storages check of a batch that they both accept. -/
structure Passes (m : Memory) (d : Sqlite) (writes : List Write) (actions : Sqlite.DocumentActions) : Prop where
  collected : Sqlite.prepareDocumentActions writes = .ok actions
  ids : d.checkGlobalIds writes = .ok ()
  copies : ∀ record source, Write.documentCopy record source ∈ writes →
    source.id ∉ writes.filterMap Memory.documentOf ∧ Copyable d record source
  each : ∀ entry ∈ actions,
    Memory.checkAction (m.documents.lookup entry.1) entry.1 (resolveAction (copied d) entry.2) = .ok ()
  live : ∀ address, aliveAfter d (actions.map (Prod.map id (resolveAction (copied d)))) address ≤ 1

/-- The actions of a batch, with the content of its copies. -/
def resolvedActions (d : Sqlite) (actions : Sqlite.DocumentActions) : Memory.DocumentActions :=
  actions.map (Prod.map id (resolveAction (copied d)))

variable {resolved : Memory.DocumentActions}

theorem Sqlite.checkBatch_ok (hMirror : Mirror m d) (hKept : d.Kept) : d.checkBatch writes = .ok resolved ↔
      ∃ actions, Passes m d writes actions ∧ resolved = resolvedActions d actions := by
  rw [Sqlite.checkBatch, Outcome.bind_eq_ok]
  refine exists_congr fun actions => ⟨?_, ?_⟩
  · rintro ⟨hPrepare, hRest⟩
    have hCollected := Collected.of_prepare hPrepare
    obtain ⟨⟨⟩, hIds, hRest⟩ := Outcome.bind_eq_ok.mp hRest
    obtain ⟨⟨⟩, hActions, hCopies⟩ := Outcome.bind_eq_ok.mp hRest
    obtain ⟨hEach, hLive⟩ := (Sqlite.checkDocumentActions_ok hMirror hKept hCollected).mp hActions
    obtain ⟨hCopyable, hResolved⟩ := (Sqlite.resolveCopies_ok hCollected).mp hCopies
    refine ⟨⟨hPrepare, hIds, fun record source hMem => ⟨fun hChanged => ?_, hCopyable record source hMem⟩,
      fun entry hMem => ((Sqlite.checkAction_ok hMirror hKept hCollected hMem _).mp (hEach entry hMem)).2, hLive⟩,
      hResolved⟩
    obtain ⟨action, hAction, -, hSource⟩ := hCollected.copies record source hMem
    have hEntry := OrderedMap.mem_of_lookup hAction
    have hFree := ((Sqlite.checkAction_ok hMirror hKept hCollected hEntry (copied d)).mp (hEach _ hEntry)).1 source hSource
    exact (hCollected.changed source.id).mpr hChanged hFree
  · rintro ⟨hPasses, hResolved⟩
    have hCollected := Collected.of_prepare hPasses.collected
    refine ⟨hPasses.collected, Outcome.bind_eq_ok.mpr ⟨(), hPasses.ids, Outcome.bind_eq_ok.mpr ⟨(), ?_, ?_⟩⟩⟩
    · refine (Sqlite.checkDocumentActions_ok hMirror hKept hCollected).mpr ⟨fun entry hMem => ?_, hPasses.live⟩
      refine (Sqlite.checkAction_ok hMirror hKept hCollected hMem (copied d)).mpr ⟨fun source hSource => ?_,
        hPasses.each entry hMem⟩
      obtain ⟨-, record, -, hWrite⟩ := hCollected.copied entry.1 entry.2 source (hCollected.lookup hMem) hSource
      exact not_not.mp fun hFound => (hPasses.copies record source hWrite).1 ((hCollected.changed source.id).mp hFound)
    · exact (Sqlite.resolveCopies_ok hCollected).mpr
        ⟨fun record source hMem => (hPasses.copies record source hMem).2, hResolved⟩

theorem Memory.prepareCommit_ok (hMirror : Mirror m d) (hCurrent : Current m d)
    (hKept : d.Kept) (hSeq : d.nextSeq ≤ MAX_SAFE_INTEGER) {prepared : List Write} :
    m.prepareCommit writes m.nextSeq = .ok (prepared, resolved) ↔
      ∃ actions, Passes m d writes actions ∧ prepared = writes.map (resolveWrite (copied d)) ∧
        resolved = resolvedActions d actions := by
  have hSame := hMirror.materialize hKept (Nat.le_succ_of_le hSeq)
  have hInRange : ¬(MAX_SAFE_INTEGER < m.nextSeq ∨ m.nextSeq < m.nextSeq) := by
    rw [hMirror.nextSeq]
    omega
  have hIds : ∀ writes, m.checkGlobalIds (writes.map (resolveWrite (copied d))) = d.checkGlobalIds writes := fun writes =>
    (checkGlobalIds_resolve _ _ _ _).trans (checkGlobalIds_congr hMirror.recordTypes _ _)
  rw [Memory.prepareCommit, if_neg hInRange, Outcome.bind_eq_ok]
  simp only [Memory.resolveDocumentCopies_ok hSame]
  constructor
  · rintro ⟨writes', ⟨hCopies, rfl⟩, hRest⟩
    obtain ⟨⟨⟩, hChecked, hRest⟩ := Outcome.bind_eq_ok.mp hRest
    obtain ⟨collected, hCollected, hRest⟩ := Outcome.bind_eq_ok.mp hRest
    obtain ⟨⟨⟩, hActions, hResult⟩ := Outcome.bind_eq_ok.mp hRest
    obtain ⟨rfl, rfl⟩ := Prod.mk.inj (Except.ok.inj hResult)
    rw [prepareDocumentActions_resolve] at hCollected
    cases hPrepare : Sqlite.prepareDocumentActions writes with
    | error error =>
      rw [hPrepare] at hCollected
      exact absurd hCollected (by simp [Except.map])
    | ok actions =>
      rw [hPrepare] at hCollected
      obtain rfl := Except.ok.inj hCollected
      obtain ⟨hEach, hLive⟩ := (Memory.checkDocumentActions_ok hMirror hCurrent hKept).mp hActions
      exact ⟨actions, ⟨hPrepare, hIds writes ▸ hChecked, hCopies,
        fun entry hMem => hEach _ (mem_map_of_mem hMem), hLive⟩, rfl, rfl⟩
  · rintro ⟨actions, hPasses, rfl, rfl⟩
    refine ⟨_, ⟨hPasses.copies, rfl⟩, Outcome.bind_eq_ok.mpr ⟨(), (hIds writes).trans hPasses.ids, ?_⟩⟩
    refine Outcome.bind_eq_ok.mpr ⟨resolvedActions d actions, ?_, Outcome.bind_eq_ok.mpr ⟨(), ?_, rfl⟩⟩
    · rw [prepareDocumentActions_resolve, hPasses.collected]
      rfl
    · refine (Memory.checkDocumentActions_ok hMirror hCurrent hKept).mpr ⟨fun entry hMem => ?_, hPasses.live⟩
      obtain ⟨before, hBefore, rfl⟩ := mem_map.mp hMem
      exact hPasses.each before hBefore

end OctoberHarness.Storage
