import OctoberHarness.Session.CachedStorage

/-! What one write does to the tables of the cache. -/
namespace OctoberHarness.Cached

open List Option OrderedMap

/-! Task records in their three tables. -/

/-- Every task record that the cache shows has a property; a record that is only ended may
be shadowed by a live one. -/
structure Layered (P : Nat → TaskRecord → Prop) (cache : Cache) : Prop where
  live : ∀ id record, cache.liveTasks.lookup id = some record → P id record
  awaited : ∀ id entry record, cache.liveTasks.lookup id = none → cache.awaited.lookup id = some entry →
    entry.record = some record → P id record
  tasks : ∀ id record, cache.liveTasks.lookup id = none → cache.tasks.held id = some record → P id record
  apart : ∀ id, cache.awaited.lookup id ≠ none → cache.tasks.held id = none

section Layers

variable {P : Nat → TaskRecord → Prop} {cache next : Cache}

section

variable (hLayered : Layered P cache)

include hLayered

variable {record : TaskRecord} {id : Nat}

theorem Layered.cachedTask (hCached : cache.cachedTask id = some record) : P id record := by
  rw [Cache.cachedTask] at hCached
  cases hLive : cache.liveTasks.lookup id with
  | some live =>
    rw [hLive, some_or] at hCached
    exact some.inj hCached ▸ hLayered.live id live hLive
  | none =>
    rw [hLive, none_or] at hCached
    cases hAwaited : cache.awaited.lookup id with
    | none =>
      rw [hAwaited, bind_none, none_or] at hCached
      exact hLayered.tasks id record hLive hCached
    | some entry =>
      rw [hAwaited, bind_some] at hCached
      cases hRecord : entry.record with
      | some ended =>
        rw [hRecord, some_or] at hCached
        exact some.inj hCached ▸ hLayered.awaited id entry ended hLive hAwaited hRecord
      | none =>
        rw [hRecord, none_or] at hCached
        exact hLayered.tasks id record hLive hCached

theorem Layered.mono {Q : Nat → TaskRecord → Prop} (hMono : ∀ id record, P id record → Q id record) :
    Layered Q cache where
  live := fun id record hLive => hMono id record (hLayered.live id record hLive)
  awaited := fun id entry record hLive hEntry hRecord => hMono id record (hLayered.awaited id entry record hLive hEntry hRecord)
  tasks := fun id record hLive hHeld => hMono id record (hLayered.tasks id record hLive hHeld)
  apart := hLayered.apart

theorem Layered.setCount {entry : Awaited} (hEntry : cache.awaited.lookup id = some entry)
    (count : Nat) : Layered P { cache with awaited := OrderedMap.set cache.awaited id { entry with count } } where
  live := hLayered.live
  awaited := by
    intro other found record hLive hFound hRecord
    rw [lookup_set] at hFound
    split_ifs at hFound with hSame
    · obtain rfl := some.inj hFound
      exact hLayered.awaited other entry record hLive (hSame ▸ hEntry) hRecord
    · exact hLayered.awaited other found record hLive hFound hRecord
  tasks := hLayered.tasks
  apart := by
    intro other hOther
    rw [lookup_set] at hOther
    split_ifs at hOther with hSame
    · exact hLayered.apart other (by rw [hSame, hEntry]; simp)
    · exact hLayered.apart other hOther

theorem Layered.releaseOne (hRelease : cache.releaseOne id = some next) : Layered P next := by
  rw [Cache.releaseOne] at hRelease
  cases hEntry : cache.awaited.lookup id with
  | none =>
    rw [hEntry] at hRelease
    cases hRelease
  | some entry =>
    simp only [hEntry] at hRelease
    by_cases hMore : 0 < entry.count - 1
    · rw [if_pos hMore] at hRelease
      obtain rfl := some.inj hRelease
      exact hLayered.setCount hEntry _
    · rw [if_neg hMore] at hRelease
      have hGone : Layered P { cache with awaited := erase cache.awaited id } := {
        live := hLayered.live
        awaited := by
          intro other found record hLive hFound hRecord
          rw [lookup_erase] at hFound
          split_ifs at hFound
          exact hLayered.awaited other found record hLive hFound hRecord
        tasks := hLayered.tasks
        apart := by
          intro other hOther
          rw [lookup_erase] at hOther
          split_ifs at hOther with hSame
          · exact absurd rfl hOther
          · exact hLayered.apart other hOther }
      cases hRecord : entry.record with
      | none =>
        simp only [hRecord] at hRelease
        exact some.inj hRelease ▸ hGone
      | some record =>
        simp only [hRecord] at hRelease
        obtain rfl := some.inj hRelease
        exact {
          live := hGone.live
          awaited := hGone.awaited
          tasks := by
            intro other found hLive hFound
            rcases Lru.held_set hFound with ⟨hSame, rfl⟩ | ⟨-, hOld⟩
            · rw [hSame] at hLive ⊢
              exact hLayered.awaited id entry found hLive hEntry hRecord
            · exact hGone.tasks other found hLive hOld
          apart := by
            intro other hOther
            by_contra hHeld
            obtain ⟨found, hFound⟩ := Option.ne_none_iff_exists'.mp hHeld
            rcases Lru.held_set hFound with ⟨hSame, -⟩ | ⟨-, hOld⟩
            · rw [hSame] at hOther
              exact hOther (by rw [lookup_erase, if_pos rfl])
            · rw [hGone.apart other hOther] at hOld
              cases hOld }

theorem Layered.release {on : List Nat} (hRelease : cache.release on = some next) : Layered P next := by
  induction on generalizing cache with
  | nil => exact some.inj hRelease ▸ hLayered
  | cons id rest ih =>
    rw [Cache.release, foldlM_cons] at hRelease
    obtain ⟨middle, hFirst, hRest⟩ := Option.bind_eq_some_iff.mp hRelease
    exact ih (hLayered.releaseOne hFirst) hRest

theorem Layered.awaitOne (id : Nat) : Layered P (cache.awaitOne id) := by
  rw [Cache.awaitOne]
  cases hEntry : cache.awaited.lookup id with
  | some entry => exact hLayered.setCount hEntry _
  | none =>
    exact {
      live := hLayered.live
      awaited := by
        intro other found record hLive hFound hRecord
        rw [lookup_set] at hFound
        split_ifs at hFound with hSame
        · obtain rfl := some.inj hFound
          exact hLayered.tasks other record hLive (hSame ▸ hRecord)
        · exact hLayered.awaited other found record hLive hFound hRecord
      tasks := by
        intro other found hLive hFound
        rw [Lru.held_delete] at hFound
        split_ifs at hFound
        exact hLayered.tasks other found hLive hFound
      apart := by
        intro other hOther
        rw [lookup_set] at hOther
        rw [Lru.held_delete]
        split_ifs at hOther ⊢ with hSame
        · rfl
        · exact hLayered.apart other hOther }

theorem Layered.await (on : List Nat) : Layered P (cache.await on) := by
  induction on generalizing cache with
  | nil => exact hLayered
  | cons id rest ih => exact ih (hLayered.awaitOne id)

theorem Layered.setWait (id : Nat) (wait : Wait) : Layered P (cache.setWait id wait) :=
  ⟨hLayered.live, hLayered.awaited, hLayered.tasks, hLayered.apart⟩

theorem Layered.keepTask {Q : Nat → TaskRecord → Prop}
    (hOther : ∀ id other, id ≠ record.id → P id other → Q id other) (hRecord : Q record.id record) :
    Layered Q (cache.keepTask record) := by
  rw [Cache.keepTask]
  by_cases hEnded : record.state = .terminal
  · rw [if_pos hEnded]
    have hLive : ∀ id found, (erase cache.liveTasks record.id).lookup id = some found →
        id ≠ record.id ∧ cache.liveTasks.lookup id = some found := by
      intro id found hFound
      rw [lookup_erase] at hFound
      split_ifs at hFound with hSame
      exact ⟨hSame, hFound⟩
    have hNone : ∀ id, id ≠ record.id → (erase cache.liveTasks record.id).lookup id = none →
        cache.liveTasks.lookup id = none := by
      intro id hSame hErased
      rwa [lookup_erase, if_neg hSame] at hErased
    cases hEntry : cache.awaited.lookup record.id with
    | some entry =>
      exact {
        live := fun id found hFound => hOther id found (hLive id found hFound).1 (hLayered.live id found (hLive id found hFound).2)
        awaited := by
          intro id found other hErased hFound hShown
          rw [lookup_set] at hFound
          split_ifs at hFound with hSame
          · obtain rfl := some.inj hFound
            obtain rfl := some.inj hShown
            exact hSame ▸ hRecord
          · exact hOther id other hSame (hLayered.awaited id found other (hNone id hSame hErased) hFound hShown)
        tasks := by
          intro id found hErased hFound
          by_cases hSame : id = record.id
          · rw [hSame, hLayered.apart record.id (by rw [hEntry]; simp)] at hFound
            cases hFound
          · exact hOther id found hSame (hLayered.tasks id found (hNone id hSame hErased) hFound)
        apart := by
          intro id hIn
          rw [lookup_set] at hIn
          split_ifs at hIn with hSame
          · exact hLayered.apart id (by rw [hSame, hEntry]; simp)
          · exact hLayered.apart id hIn }
    | none =>
      exact {
        live := fun id found hFound => hOther id found (hLive id found hFound).1 (hLayered.live id found (hLive id found hFound).2)
        awaited := by
          intro id found other hErased hFound hShown
          have hSame : id ≠ record.id := by
            rintro rfl
            rw [hEntry] at hFound
            cases hFound
          exact hOther id other hSame (hLayered.awaited id found other (hNone id hSame hErased) hFound hShown)
        tasks := by
          intro id found hErased hFound
          rcases Lru.held_set hFound with ⟨hSame, rfl⟩ | ⟨hSame, hOld⟩
          · exact hSame ▸ hRecord
          · exact hOther id found hSame (hLayered.tasks id found (hNone id hSame hErased) hOld)
        apart := by
          intro id hIn
          have hSame : id ≠ record.id := fun hSame => hIn (hSame ▸ hEntry)
          by_contra hHeld
          obtain ⟨found, hFound⟩ := Option.ne_none_iff_exists'.mp hHeld
          rcases Lru.held_set hFound with ⟨hId, -⟩ | ⟨-, hOld⟩
          · exact hSame hId
          · rw [hLayered.apart id hIn] at hOld
            cases hOld }
  · rw [if_neg hEnded]
    have hNone : ∀ id, (OrderedMap.set cache.liveTasks record.id record).lookup id = none →
        id ≠ record.id ∧ cache.liveTasks.lookup id = none := by
      intro id hSet
      rw [lookup_set] at hSet
      split_ifs at hSet with hSame
      exact ⟨hSame, hSet⟩
    exact {
      live := by
        intro id found hFound
        rw [lookup_set] at hFound
        split_ifs at hFound with hSame
        · obtain rfl := some.inj hFound
          exact hSame ▸ hRecord
        · exact hOther id found hSame (hLayered.live id found hFound)
      awaited := by
        intro id found other hSet hFound hShown
        obtain ⟨hSame, hLive⟩ := hNone id hSet
        exact hOther id other hSame (hLayered.awaited id found other hLive hFound hShown)
      tasks := by
        intro id found hSet hFound
        obtain ⟨hSame, hLive⟩ := hNone id hSet
        rw [Lru.held_delete, if_neg hSame] at hFound
        exact hOther id found hSame (hLayered.tasks id found hLive hFound)
      apart := by
        intro id hIn
        rw [Lru.held_delete]
        split_ifs
        · rfl
        · exact hLayered.apart id hIn }

theorem Layered.followWait (hFollow : cache.followWait record = some next) :
    Layered P next := by
  rw [Cache.followWait.eq_def] at hFollow
  split at hFollow
  · obtain rfl := some.inj hFollow
    exact (hLayered.setWait record.id _).await _
  · obtain ⟨released, hRelease, rfl⟩ := Option.map_eq_some_iff.mp hFollow
    exact ((hLayered.release hRelease).setWait record.id _).await _
  · exact some.inj hFollow ▸ hLayered
  · split_ifs at hFollow
    · obtain rfl := some.inj hFollow
      exact hLayered.setWait record.id _
    · have hLeft : Layered P { cache with waits := erase cache.waits record.id } :=
        ⟨hLayered.live, hLayered.awaited, hLayered.tasks, hLayered.apart⟩
      exact hLeft.release hFollow

end

end Layers

/-! Waits and the counts of the awaited tasks. -/

namespace Cache

/-- The `awaited` counter of a task. -/
def counted (cache : Cache) (id : Nat) : Nat :=
  ((cache.awaited.lookup id).map Awaited.count).getD 0

/-- How often the outstanding waits name a task. -/
def named (cache : Cache) (id : Nat) : Nat :=
  (cache.waits.map fun wait => wait.2.on.count id).sum

end Cache

/-- The counters are some numbers, and no counter that is kept is zero. -/
structure Counts (cache : Cache) (number : Nat → Nat) : Prop where
  counted : ∀ id, cache.counted id = number id
  positive : ∀ id entry, cache.awaited.lookup id = some entry → 0 < entry.count

section Counters

variable {cache next : Cache} {number : Nat → Nat}

section

variable (hCounts : Counts cache number)

include hCounts

theorem Counts.same (hAwaited : next.awaited = cache.awaited) : Counts next number where
  counted := by
    intro id
    rw [Cache.counted, hAwaited]
    exact hCounts.counted id
  positive := by
    rw [hAwaited]
    exact hCounts.positive

theorem Counts.of_eq {other : Nat → Nat} (hSame : ∀ id, number id = other id) : Counts cache other :=
  funext hSame ▸ hCounts

variable {id : Nat}

theorem Counts.set {count : Nat} {record : Option TaskRecord} (hPositive : 0 < count)
    (hAwaited : next.awaited = OrderedMap.set cache.awaited id { count, record }) :
    Counts next (Function.update number id count) where
  counted := by
    intro other
    rw [Cache.counted, hAwaited, lookup_set, Function.update_apply]
    split_ifs
    · rfl
    · exact hCounts.counted other
  positive := by
    intro other found hFound
    rw [hAwaited, lookup_set] at hFound
    split_ifs at hFound
    · exact some.inj hFound ▸ hPositive
    · exact hCounts.positive other found hFound

theorem Counts.erase (hAwaited : next.awaited = erase cache.awaited id) :
    Counts next (Function.update number id 0) where
  counted := by
    intro other
    rw [Cache.counted, hAwaited, lookup_erase, Function.update_apply]
    split_ifs
    · rfl
    · exact hCounts.counted other
  positive := by
    intro other found hFound
    rw [hAwaited, lookup_erase] at hFound
    split_ifs at hFound
    exact hCounts.positive other found hFound

theorem Counts.releaseOne (hNamed : 0 < number id) :
    ∃ next, cache.releaseOne id = some next ∧ next.waits = cache.waits ∧
      Counts next (Function.update number id (number id - 1)) := by
  have hNumber := hCounts.counted id
  rw [Cache.counted] at hNumber
  rw [Cache.releaseOne]
  cases hEntry : cache.awaited.lookup id with
  | none =>
    rw [hEntry, map_none, getD_none] at hNumber
    omega
  | some entry =>
    rw [hEntry, map_some, getD_some] at hNumber
    simp only [← hNumber]
    by_cases hMore : 0 < entry.count - 1
    · rw [if_pos hMore]
      exact ⟨_, rfl, rfl, hCounts.set hMore rfl⟩
    · rw [if_neg hMore]
      have hZero : entry.count - 1 = 0 := by omega
      rw [hZero]
      cases entry.record with
      | none => exact ⟨_, rfl, rfl, hCounts.erase rfl⟩
      | some record => exact ⟨_, rfl, rfl, hCounts.erase rfl⟩

theorem Counts.release {on : List Nat} (hNamed : ∀ id, on.count id ≤ number id) :
    ∃ next, cache.release on = some next ∧ next.waits = cache.waits ∧ Counts next fun id => number id - on.count id := by
  induction on generalizing cache number with
  | nil => exact ⟨cache, rfl, rfl, hCounts⟩
  | cons first rest ih =>
    have hFirst : 0 < number first := by
      have hOne := hNamed first
      rw [count_cons_self] at hOne
      omega
    obtain ⟨middle, hRelease, hWaits, hMiddle⟩ := hCounts.releaseOne hFirst
    have hRest : ∀ id, rest.count id ≤ Function.update number first (number first - 1) id := by
      intro id
      have hOne := hNamed id
      rw [Function.update_apply]
      split_ifs with hSame
      · rw [hSame, count_cons_self] at hOne
        rw [hSame]
        omega
      · rwa [count_cons_of_ne (Ne.symm hSame)] at hOne
    obtain ⟨last, hLast, hSame, hDone⟩ := ih hMiddle hRest
    refine ⟨last, ?_, hSame.trans hWaits, ?_⟩
    · rw [Cache.release, foldlM_cons, hRelease]
      exact hLast
    · refine hDone.of_eq fun id => ?_
      rw [Function.update_apply]
      split_ifs with hId
      · rw [hId, count_cons_self]
        omega
      · rw [count_cons_of_ne (Ne.symm hId)]

theorem Counts.awaitOne (id : Nat) :
    (cache.awaitOne id).waits = cache.waits ∧ Counts (cache.awaitOne id) (Function.update number id (number id + 1)) := by
  have hNumber := hCounts.counted id
  rw [Cache.counted] at hNumber
  rw [Cache.awaitOne]
  cases hEntry : cache.awaited.lookup id with
  | none =>
    rw [hEntry, map_none, getD_none] at hNumber
    rw [← hNumber]
    exact ⟨rfl, hCounts.set Nat.one_pos rfl⟩
  | some entry =>
    rw [hEntry, map_some, getD_some] at hNumber
    rw [← hNumber]
    exact ⟨rfl, hCounts.set (Nat.succ_pos _) rfl⟩

theorem Counts.await (on : List Nat) :
    (cache.await on).waits = cache.waits ∧ Counts (cache.await on) fun id => number id + on.count id := by
  induction on generalizing cache number with
  | nil => exact ⟨rfl, hCounts⟩
  | cons first rest ih =>
    obtain ⟨hWaits, hFirst⟩ := hCounts.awaitOne first
    obtain ⟨hSame, hDone⟩ := ih hFirst
    refine ⟨hSame.trans hWaits, ?_⟩
    refine hDone.of_eq fun id => ?_
    rw [Function.update_apply]
    split_ifs with hId
    · rw [hId, count_cons_self]
      omega
    · rw [count_cons_of_ne (Ne.symm hId)]

end

/-- The counters are those of the outstanding waits. -/
structure Waiting (cache : Cache) : Prop where
  nodup : (cache.waits.map Prod.fst).Nodup
  counts : Counts cache cache.named

theorem Waiting.same (hWaiting : Waiting cache) (hWaits : next.waits = cache.waits) (hAwaited : next.awaited = cache.awaited) :
    Waiting next where
  nodup := hWaits ▸ hWaiting.nodup
  counts := by
    have hNamed : next.named = cache.named := funext fun id => by rw [Cache.named, Cache.named, hWaits]
    rw [hNamed]
    exact hWaiting.counts.same hAwaited

theorem named_setWait (cache : Cache) (task : Nat) (wait : Wait) (id : Nat) :
    (cache.setWait task wait).named id + ((cache.waits.lookup task).map fun old => old.on.count id).getD 0 =
      cache.named id + wait.on.count id :=
  sum_set cache.waits (fun wait => wait.on.count id) task wait

theorem Waiting.followWait (hWaiting : Waiting cache) (record : TaskRecord) :
    ∃ next, cache.followWait record = some next ∧ Waiting next := by
  -- what a wait names is counted
  have hNamed : ∀ wait, cache.waits.lookup record.id = some wait → ∀ id, wait.on.count id ≤ cache.named id := by
    intro wait hWait id
    have hSum := sum_erase hWaiting.nodup (fun wait => wait.on.count id) record.id
    simp only [hWait, map_some, getD_some] at hSum
    exact Nat.le.intro (by rw [Nat.add_comm]; exact hSum)
  have hNodup : ∀ wait, ((OrderedMap.set cache.waits record.id wait).map Prod.fst).Nodup := fun wait =>
    nodup_keys_set cache.waits record.id wait hWaiting.nodup
  rw [Cache.followWait.eq_def]
  split
  · rename_i on _ hNone
    have hSet : Counts (cache.setWait record.id { on }) cache.named := hWaiting.counts.same rfl
    obtain ⟨hWaits, hCounts⟩ := hSet.await on
    refine ⟨_, rfl, ⟨hWaits ▸ hNodup _, ?_⟩⟩
    refine hCounts.of_eq fun id => ?_
    have hSum := named_setWait cache record.id { on } id
    rw [hNone, map_none, getD_none, Nat.add_zero] at hSum
    rw [← hSum, Cache.named, Cache.named, hWaits]
  · rename_i on wait _ hWait
    obtain ⟨released, hRelease, hSame, hReleased⟩ := hWaiting.counts.release (hNamed wait hWait)
    have hSet : Counts (released.setWait record.id { on }) fun id => cache.named id - wait.on.count id := hReleased.same rfl
    obtain ⟨hWaits, hCounts⟩ := hSet.await on
    have hWaits' : ((released.setWait record.id { on }).await on).waits = OrderedMap.set cache.waits record.id { on } := by
      rw [hWaits, Cache.setWait, hSame]
    refine ⟨_, by rw [hRelease]; rfl, ⟨hWaits' ▸ hNodup _, ?_⟩⟩
    refine hCounts.of_eq fun id => ?_
    have hSum := named_setWait cache record.id { on } id
    simp only [hWait, map_some, getD_some] at hSum
    have hLe := hNamed wait hWait id
    have hLast : ((released.setWait record.id { on }).await on).named id = (cache.setWait record.id { on }).named id := by
      rw [Cache.named, hWaits']
      rfl
    rw [hLast]
    omega
  · exact ⟨cache, rfl, hWaiting⟩
  · rename_i wait hWait _
    split_ifs
    · refine ⟨_, rfl, ⟨hNodup _, ?_⟩⟩
      have hSame : Counts (cache.setWait record.id { wait with left := true }) cache.named := hWaiting.counts.same rfl
      refine hSame.of_eq fun id => ?_
      have hSum := named_setWait cache record.id { wait with left := true } id
      simp only [hWait, map_some, getD_some] at hSum
      exact (Nat.add_right_cancel hSum).symm
    · have hLeft : Counts { cache with waits := erase cache.waits record.id } cache.named :=
        hWaiting.counts.same rfl
      obtain ⟨released, hRelease, hSame, hReleased⟩ := hLeft.release (hNamed wait hWait)
      refine ⟨released, hRelease, ⟨?_, ?_⟩⟩
      · rw [hSame]
        exact nodup_keys_erase cache.waits record.id hWaiting.nodup
      · refine hReleased.of_eq fun id => ?_
        have hSum := sum_erase hWaiting.nodup (fun wait => wait.on.count id) record.id
        simp only [hWait, map_some, getD_some] at hSum
        have hTotal : (cache.waits.map fun wait => wait.2.on.count id).sum = cache.named id := rfl
        rw [hTotal] at hSum
        have hLast : released.named id = ((erase cache.waits record.id).map fun wait => wait.2.on.count id).sum := by
          rw [Cache.named, hSame]
        rw [hLast]
        omega

theorem Waiting.keepTask (hWaiting : Waiting cache) (record : TaskRecord) : Waiting (cache.keepTask record) := by
  rw [Cache.keepTask]
  split_ifs
  · cases hEntry : cache.awaited.lookup record.id with
    | none => exact hWaiting.same rfl rfl
    | some entry =>
      refine ⟨hWaiting.nodup, ?_⟩
      have hSet : Counts { cache with
          liveTasks := erase cache.liveTasks record.id
          awaited := OrderedMap.set cache.awaited record.id { entry with record := some record } }
          (Function.update cache.named record.id entry.count) :=
        hWaiting.counts.set (hWaiting.counts.positive record.id entry hEntry) rfl
      have hNumber := hWaiting.counts.counted record.id
      rw [Cache.counted, hEntry, map_some, getD_some] at hNumber
      have hSame : Function.update cache.named record.id entry.count = cache.named := by
        rw [hNumber, Function.update_eq_self]
      rw [hSame] at hSet
      exact hSet
  · exact hWaiting.same rfl rfl

end Counters

end OctoberHarness.Cached
