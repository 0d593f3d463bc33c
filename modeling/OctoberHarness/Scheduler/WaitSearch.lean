import OctoberHarness.Scheduler.WaitViews

/-! The search along the wait-for graph finds a path back exactly when there is one. -/
namespace OctoberHarness.Scheduler

open OrderedMap Relation Cycles

namespace Search

def keys (search : Search) : List Nat := search.reached.map Prod.fst

theorem mem_keys_iff {search : Search} {id : Nat} : (search.reached.lookup id).isSome = true ↔ id ∈ search.keys := by
  rw [keys, Option.isSome_iff_ne_none, ne_eq, lookup_eq_none_iff, not_not]

theorem reachAll_spec (search : Search) (via : Option Nat) (ids : List Nat) (hDistinct : search.keys.Nodup) :
    (∀ id, id ∈ (search.reachAll via ids).keys ↔ id ∈ search.keys ∨ id ∈ ids) ∧
    (∀ id, id ∈ (search.reachAll via ids).pending ↔ id ∈ search.pending ∨ id ∈ ids ∧ id ∉ search.keys) ∧
    (search.reachAll via ids).walked = search.walked ∧ (search.reachAll via ids).keys.Nodup ∧
    (search.reachAll via ids).reached.length + search.pending.length =
      search.reached.length + (search.reachAll via ids).pending.length := by
  induction ids generalizing search with
  | nil => simp [reachAll, hDistinct]
  | cons head rest ih =>
    rw [reachAll, List.foldl_cons]
    change _ ∧ _ ∧ (reachAll (search.reach via head) via rest).walked = _ ∧ _ ∧ _
    by_cases hKnown : head ∈ search.keys
    · have hSame : search.reach via head = search := if_pos (mem_keys_iff.mpr hKnown)
      rw [hSame]
      obtain ⟨hKeys, hPending, hRest⟩ := ih search hDistinct
      refine ⟨fun id => ?_, fun id => ?_, hRest⟩
      · rw [← reachAll, hKeys, List.mem_cons]
        constructor
        · exact Or.imp_right .inr
        · rintro (hOld | rfl | hIn)
          · exact .inl hOld
          · exact .inl hKnown
          · exact .inr hIn
      · rw [← reachAll, hPending, List.mem_cons]
        apply or_congr_right
        constructor
        · exact fun hIn => ⟨.inr hIn.1, hIn.2⟩
        · rintro ⟨rfl | hIn, hNew⟩
          · exact (hNew hKnown).elim
          · exact ⟨hIn, hNew⟩
    · have hNext : search.reach via head = { search with
          reached := search.reached ++ [(head, via)], pending := head :: search.pending } :=
        if_neg fun hSome => hKnown (mem_keys_iff.mp hSome)
      have hKeysNext : (search.reach via head).keys = search.keys ++ [head] := by
        rw [hNext]
        simp [keys]
      have hDistinctNext : (search.reach via head).keys.Nodup := by
        rw [hKeysNext, List.nodup_append]
        refine ⟨hDistinct, List.nodup_singleton head, ?_⟩
        rintro id hId other hOther rfl
        exact hKnown (List.mem_singleton.mp hOther ▸ hId)
      obtain ⟨hKeys, hPending, hWalked, hNodup, hLength⟩ := ih (search.reach via head) hDistinctNext
      refine ⟨fun id => ?_, fun id => ?_, ?_, hNodup, ?_⟩
      · rw [← reachAll, hKeys, hKeysNext, List.mem_append, List.mem_singleton, List.mem_cons, or_assoc]
      · rw [← reachAll, hPending, hKeysNext, hNext]
        simp only [List.mem_cons, List.mem_append, List.not_mem_nil, or_false]
        by_cases hHead : id = head
        · subst hHead
          simp [hKnown]
        · simp [hHead]
      · rw [hWalked, hNext]
      · rw [← reachAll]
        have hSizes : (search.reach via head).reached.length = search.reached.length + 1 ∧
            (search.reach via head).pending.length = search.pending.length + 1 := by
          rw [hNext]
          simp
        omega

theorem reachAll_append (search : Search) (via : Option Nat) (first second : List Nat) :
    (search.reachAll via first).reachAll via second = search.reachAll via (first ++ second) := by
  rw [reachAll, reachAll, reachAll, List.foldl_append]

theorem with_walked {search : Search} {walked : List Nat} (hWalked : search.walked = walked) :
    { search with walked } = search := by
  subst hWalked
  rfl

end Search

namespace Memory

variable {m : Memory} {overlay : Overlay} {s next : Store}

/-- Where a search stands. -/
structure Searched (m : Memory) (overlay : Overlay) (s next : Store) (task : Nat) (on : List Nat) (search : Search) : Prop where
  start : ∀ target ∈ on, target ∈ search.keys
  sound : ∀ id ∈ search.keys, (∃ record, next.Live id record) → ∃ target ∈ on, ReflTransGen next.WaitsFor target id
  walked : ∀ id ∈ search.walked, ∀ other, (∃ record, s.Live other record) → next.Owns id other → other ∈ search.keys
  closed : ∀ id ∈ search.keys, id ∉ search.pending → (∃ record, next.Live id record) →
    ∀ other, (∃ record, s.Live other record) → next.WaitsFor id other → other ∈ search.keys
  pending : ∀ id ∈ search.pending, id ∈ search.keys
  unseen : task ∈ search.keys → task ∈ search.pending
  distinct : search.keys.Nodup
  nodes : ∀ id ∈ search.keys, id ∈ m.searchNodes overlay on

namespace Covers

variable (h : Covers m overlay s next)

include h

theorem owned_reached {id : Nat} {walked keys : List Nat}
    (hWalked : ∀ task ∈ walked, ∀ other, (∃ record, s.Live other record) → next.Owns task other → other ∈ keys)
    {other : Nat} (hOther : ∃ record, s.Live other record) (hOwns : next.Owns id other) :
    other ∈ keys ∨ other ∈ m.ownedLive overlay id (walked ++ [id]) := by
  obtain ⟨record, hLive⟩ := hOther
  rcases h.owned_complete (walked ++ [id]) hLive hOwns with hFound | ⟨between, hDone, hUpper, hLower⟩
  · exact .inr hFound
  · rcases List.mem_append.mp hDone with hIn | hSame
    · exact .inl (hWalked between hIn other ⟨record, hLive⟩ hLower)
    · obtain rfl := List.mem_singleton.mp hSame
      have hCycle : TransGen (fun child above => next.parent child = some above) (.task between) (.task between) := by
        apply transGen_swap.mp
        exact TransGen.mono (fun _ _ hEnters => hEnters.1) _ _ hUpper
      exact (h.staged.sound.tree _ hCycle).elim

theorem key_of_live {id : Nat} {record : TaskRecord} (hLive : next.Live id record) :
    (id, record) ∈ overlay.tasks ++ m.live := by
  obtain ⟨hRecord, _⟩ := Option.filter_eq_some_iff.mp (h.record_iff.mpr hLive)
  rw [Memory.record, ← lookup_append] at hRecord
  exact mem_of_lookup hRecord

variable {task : Nat} {on : List Nat} {search : Search}

omit h in
/-- A step of the search that reaches `ids` from the task it looks at. -/
theorem searched_step {id : Nat} {rest ids walked : List Nat} (hSearched : Searched m overlay s next task on search)
    (hPending : search.pending = id :: rest) (hNe : id ≠ task)
    (hEdges : ∀ other ∈ ids, (∃ record, next.Live other record) → (∃ record, next.Live id record) ∧ next.WaitsFor id other)
    (hNodes : ∀ other ∈ ids, other ∈ m.searchNodes overlay on)
    (hWalked : ∀ other ∈ walked, other ∉ search.walked → other = id ∨ next.Owns id other)
    (hOwned : ∀ other, (id ∈ walked ∨ ∃ record, next.Live id record) → (∃ record, s.Live other record) → next.Owns id other →
      other ∈ search.keys ∨ other ∈ ids)
    (hWaits : ∀ record, next.Live id record → ∀ other ∈ Store.waitsOf record, other ∈ ids)
    (hId : ∀ other ∈ walked, other ∉ search.walked → id ∈ walked) :
    Searched m overlay s next task on
      { ({ search with pending := rest } : Search).reachAll (some id) ids with walked } := by
  obtain ⟨hKeys, hRest, _, hDistinct, _⟩ :=
    ({ search with pending := rest } : Search).reachAll_spec (some id) ids hSearched.distinct
  have hMore : ∀ other ∈ search.keys, other ∈ (({ search with pending := rest } : Search).reachAll (some id) ids).keys :=
    fun other hOther => (hKeys other).mpr (.inl hOther)
  have hOwnedKeys : ∀ other, (id ∈ walked ∨ ∃ record, next.Live id record) → (∃ record, s.Live other record) →
      next.Owns id other → other ∈ (({ search with pending := rest } : Search).reachAll (some id) ids).keys :=
    fun other hWhy hOther hOwns => (hKeys other).mpr (hOwned other hWhy hOther hOwns)
  refine { start := ?_, sound := ?_, walked := ?_, closed := ?_, pending := ?_, unseen := ?_, distinct := hDistinct, nodes := ?_ }
  · exact fun target hTarget => hMore target (hSearched.start target hTarget)
  · intro other hOther hLive
    rcases (hKeys other).mp hOther with hOld | hNew
    · exact hSearched.sound other hOld hLive
    · obtain ⟨hFrom, hEdge⟩ := hEdges other hNew hLive
      have hIn : id ∈ search.keys := hSearched.pending id (by rw [hPending]; exact List.mem_cons_self)
      obtain ⟨target, hTarget, hPath⟩ := hSearched.sound id hIn hFrom
      exact ⟨target, hTarget, hPath.tail hEdge⟩
  · intro other hOther below hBelow hOwns
    by_cases hOld : other ∈ search.walked
    · exact hMore below (hSearched.walked other hOld below hBelow hOwns)
    · apply hOwnedKeys below (.inl (hId other hOther hOld)) hBelow
      rcases hWalked other hOther hOld with rfl | hUpper
      · exact hOwns
      · exact hUpper.trans hOwns
  · intro other hOther hNot hLive below hBelow hEdge
    have hSeen : other ∉ rest ∧ ¬ (other ∈ ids ∧ other ∉ search.keys) := by
      rw [← not_or]
      exact fun hIn => hNot ((hRest other).mpr hIn)
    have hOld : other ∈ search.keys := by
      rcases (hKeys other).mp hOther with hOld | hNew
      · exact hOld
      · by_contra hMissing
        exact hSeen.2 ⟨hNew, hMissing⟩
    by_cases hSame : other = id
    · subst hSame
      rcases hEdge.2 with ⟨record, hRecord, hOn⟩ | hOwns
      · obtain ⟨live, hNow⟩ := hLive
        obtain rfl := Option.some.inj (hNow.1.symm.trans hRecord)
        exact (hKeys below).mpr (.inr (hWaits live hNow below hOn))
      · exact hOwnedKeys below (.inr hLive) hBelow hOwns
    · apply hMore
      apply hSearched.closed other hOld _ hLive below hBelow hEdge
      rw [hPending, List.mem_cons, not_or]
      exact ⟨hSame, hSeen.1⟩
  · intro other hOther
    rcases (hRest other).mp hOther with hIn | ⟨hNew, _⟩
    · exact hMore other (hSearched.pending other (by rw [hPending]; exact List.mem_cons_of_mem _ hIn))
    · exact (hKeys other).mpr (.inr hNew)
  · intro hTask
    apply (hRest task).mpr
    by_cases hOld : task ∈ search.keys
    · have hIn := hSearched.unseen hOld
      rw [hPending, List.mem_cons] at hIn
      exact .inl (hIn.resolve_left fun hEq => hNe hEq.symm)
    · exact .inr ⟨((hKeys task).mp hTask).resolve_left hOld, hOld⟩
  · intro other hOther
    rcases (hKeys other).mp hOther with hOld | hNew
    · exact hSearched.nodes other hOld
    · exact hNodes other hNew

omit h in
theorem waits_live {id : Nat} {record : TaskRecord} (hLive : next.Live id record) {other : Nat}
    (hOn : other ∈ Store.waitsOf record) (hOther : ∃ record, next.Live other record) : next.WaitsFor id other :=
  ⟨hOther, .inl ⟨record, hLive.1, hOn⟩⟩

section

variable (hSearched : Searched m overlay s next task on search)

include hSearched

theorem searched_next {id : Nat} {rest : List Nat} (hPending : search.pending = id :: rest) (hNe : id ≠ task) :
    Searched m overlay s next task on (m.searchStep overlay { search with pending := rest } id) ∧
      (m.searchStep overlay { search with pending := rest } id).pending.length + search.reached.length + 1 =
        (m.searchStep overlay { search with pending := rest } id).reached.length + search.pending.length := by
  have hLengths : ∀ ids, ((({ search with pending := rest } : Search).reachAll (some id) ids).pending.length +
      search.reached.length + 1 =
        (({ search with pending := rest } : Search).reachAll (some id) ids).reached.length + search.pending.length) := by
    intro ids
    have hSpec := (({ search with pending := rest } : Search).reachAll_spec (some id) ids hSearched.distinct).2.2.2.2
    rw [hPending, List.length_cons]
    simp only at hSpec
    omega
  unfold searchStep
  cases hRecord : (m.record overlay id).filter fun record => !record.isTerminal with
  | none =>
    have hDead : ¬ ∃ record, next.Live id record := by
      rintro ⟨record, hLive⟩
      rw [h.record_iff.mpr hLive] at hRecord
      cases hRecord
    refine ⟨?_, hLengths []⟩
    apply @searched_step _ _ _ _ _ _ _ id rest [] search.walked hSearched hPending hNe
    · simp
    · simp
    · exact fun other hIn hOut => (hOut hIn).elim
    · intro other hWhy hOther hOwns
      rcases hWhy with hIn | hLive
      · exact .inl (hSearched.walked id hIn other hOther hOwns)
      · exact (hDead hLive).elim
    · exact fun record hLive => (hDead ⟨record, hLive⟩).elim
    · exact fun other hIn hOut => (hOut hIn).elim
  | some record =>
    have hLive := h.record_iff.mp hRecord
    have hWaitNodes : ∀ other ∈ Store.waitsOf record, other ∈ m.searchNodes overlay on := by
      intro other hOther
      apply List.mem_append_right
      exact List.mem_flatMap.mpr ⟨(id, record), h.key_of_live hLive, List.mem_cons_of_mem _ hOther⟩
    have hSame : ∀ found, next.Live id found → Store.waitsOf found = Store.waitsOf record := by
      intro found hFound
      rw [Option.some.inj (hFound.1.symm.trans hLive.1)]
    dsimp only
    split_ifs with hWalked
    · refine ⟨?_, hLengths _⟩
      have hSpec := ({ search with pending := rest } : Search).reachAll_spec (some id) (Store.waitsOf record) hSearched.distinct
      rw [← Search.with_walked hSpec.2.2.1]
      apply @searched_step _ _ _ _ _ _ _ id rest (Store.waitsOf record) search.walked hSearched hPending hNe
      · exact fun other hOn hOther => ⟨⟨record, hLive⟩, waits_live hLive hOn hOther⟩
      · exact hWaitNodes
      · exact fun other hIn hOut => (hOut hIn).elim
      · exact fun other _ hOther hOwns => .inl (hSearched.walked id hWalked other hOther hOwns)
      · exact fun found hFound other hOn => hSame found hFound ▸ hOn
      · exact fun other hIn hOut => (hOut hIn).elim
    · rw [Search.reachAll_append]
      refine ⟨?_, hLengths _⟩
      apply @searched_step _ _ _ _ _ _ _ id rest _ _ hSearched hPending hNe
      · intro other hIn hOther
        rcases List.mem_append.mp hIn with hOn | hFound
        · exact ⟨⟨record, hLive⟩, waits_live hLive hOn hOther⟩
        · exact ⟨⟨record, hLive⟩, hOther, .inr (h.owned_sound hFound).2⟩
      · intro other hIn
        rcases List.mem_append.mp hIn with hOn | hFound
        · exact hWaitNodes other hOn
        · obtain ⟨⟨found, hNow⟩, _⟩ := h.owned_sound hFound
          apply List.mem_append_right
          exact List.mem_flatMap.mpr ⟨(other, found), h.key_of_live hNow, List.mem_cons_self⟩
      · intro other hIn hOut
        rcases List.mem_append.mp hIn with hEarlier | hFound
        · rcases List.mem_append.mp hEarlier with hOld | hId
          · exact (hOut hOld).elim
          · exact .inl (List.mem_singleton.mp hId)
        · exact .inr (h.owned_sound hFound).2
      · intro other _ hOther hOwns
        exact (h.owned_reached hSearched.walked hOther hOwns).imp_right (List.mem_append_right _)
      · exact fun found hFound other hOn => List.mem_append_left _ (hSame found hFound ▸ hOn)
      · exact fun other _ _ => List.mem_append_left _ (List.mem_append_right _ (List.mem_singleton.mpr rfl))

theorem no_path_of_done (hDone : search.pending = [])
    (hSound : s.Sound) (hTask : ∃ record, s.Live task record) (hOn : ∀ target ∈ on, ∃ record, next.Live target record) :
    ¬ ∃ target ∈ on, ReflTransGen next.WaitsFor target task := by
  rintro ⟨target, hTarget, hPath⟩
  obtain ⟨record, hLive⟩ := hTask
  have hOldTask : s.Has (.task task) := by
    rw [Store.Has, hLive.1]
    exact Option.some_ne_none _
  have hAlong : ∀ {id}, ReflTransGen next.WaitsFor target id → ReflTransGen next.WaitsFor id task →
      id ∈ search.keys ∧ ∃ record, next.Live id record := by
    intro id hUntil
    induction hUntil with
    | refl => exact fun _ => ⟨hSearched.start target hTarget, hOn target hTarget⟩
    | @tail middle last _ hStep ih =>
      intro hRest
      obtain ⟨hIn, hMiddle⟩ := ih (.head hStep hRest)
      have hOld := h.staged.old_of_path hSound hRest hOldTask
      have hLast : ∃ record, s.Live last record := by
        obtain ⟨found, hFound⟩ := hStep.1
        exact ⟨found, (h.staged.live_of_old hOld).mp hFound⟩
      refine ⟨hSearched.closed middle hIn ?_ hMiddle last hLast hStep, hStep.1⟩
      rw [hDone]
      exact List.not_mem_nil
  have hSeen := hSearched.unseen (hAlong hPath .refl).1
  rw [hDone] at hSeen
  cases hSeen

theorem searchLoop_iff {fuel : Nat} (hSound : s.Sound)
    (hTask : ∃ record, s.Live task record) (hOn : ∀ target ∈ on, ∃ record, next.Live target record)
    (hFuel : (m.searchNodes overlay on).length + search.pending.length < fuel + search.reached.length) :
    m.searchLoop overlay task fuel search ≠ none ↔ ∃ target ∈ on, ReflTransGen next.WaitsFor target task := by
  induction fuel generalizing search with
  | zero =>
    have hSize : search.keys.length ≤ (m.searchNodes overlay on).length :=
      (List.subperm_of_subset hSearched.distinct hSearched.nodes).length_le
    rw [Search.keys, List.length_map] at hSize
    omega
  | succ fuel ih =>
    unfold searchLoop
    cases hPending : search.pending with
    | nil =>
      have hNone := h.no_path_of_done hSearched hPending hSound hTask hOn
      simp [hNone]
    | cons id rest =>
      dsimp only
      split_ifs with hSame
      · subst hSame
        obtain ⟨record, hLive⟩ := hTask
        have hOld : s.Has (.task id) := by
          rw [Store.Has, hLive.1]
          exact Option.some_ne_none _
        have hIn : id ∈ search.keys := hSearched.pending id (by rw [hPending]; exact List.mem_cons_self)
        have hPath := hSearched.sound id hIn ⟨record, (h.staged.live_of_old hOld).mpr hLive⟩
        simp [hPath]
      · obtain ⟨hNext, hLength⟩ := h.searched_next hSearched hPending hSame
        apply ih hNext
        omega

end

theorem waitCycle_iff (hSound : s.Sound) (hTask : ∃ record, s.Live task record)
    (hOn : ∀ target ∈ on, ∃ record, next.Live target record) :
    m.waitCycle overlay task on ≠ none ↔ ∃ target ∈ on, ReflTransGen next.WaitsFor target task := by
  obtain ⟨hKeys, hPending, hWalked, hDistinct, hLength⟩ := ({} : Search).reachAll_spec none on List.nodup_nil
  have hKeys' : ∀ id, id ∈ (Search.reachAll {} none on).keys ↔ id ∈ on := by
    intro id
    rw [hKeys]
    simp [Search.keys]
  have hPending' : ∀ id, id ∈ (Search.reachAll {} none on).pending ↔ id ∈ on := by
    intro id
    rw [hPending]
    simp [Search.keys]
  have hSearched : Searched m overlay s next task on (Search.reachAll {} none on) := {
    start := fun target hTarget => (hKeys' target).mpr hTarget
    sound := fun id hIn _ => ⟨id, (hKeys' id).mp hIn, .refl⟩
    walked := by simp [hWalked]
    closed := fun id hIn hNot => (hNot ((hPending' id).mpr ((hKeys' id).mp hIn))).elim
    pending := fun id hIn => (hKeys' id).mpr ((hPending' id).mp hIn)
    unseen := fun hIn => (hPending' task).mpr ((hKeys' task).mp hIn)
    distinct := hDistinct
    nodes := fun id hIn => List.mem_append_left _ ((hKeys' id).mp hIn) }
  apply h.searchLoop_iff hSearched hSound hTask hOn
  simp only [List.length_nil] at hLength
  omega

end Covers
end Memory
end OctoberHarness.Scheduler
