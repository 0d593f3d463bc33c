import OctoberHarness.Session.CachedTables

/-! The cache is never behind what is published, along every run of reads, stores and
publications. -/
namespace OctoberHarness.Cached

open List Option OrderedMap

/-! The newest write of a record. -/

/-- A table of records: its writes are of the record they name. -/
def Names {α : Type} (select : StorageWrite → Option (Nat × α)) : Prop :=
  ∀ write id value, select write = some (id, value) → write.id = some id

theorem names_ofConversation : Names ofConversation := by
  intro write id value hSelect
  cases write with
  | conversation record =>
    obtain ⟨rfl, -⟩ := Prod.mk.inj (some.inj hSelect)
    rfl
  | task record => cases hSelect
  | submission record => cases hSelect
  | other => cases hSelect

theorem names_ofTask : Names ofTask := by
  intro write id value hSelect
  cases write with
  | task record =>
    obtain ⟨rfl, -⟩ := Prod.mk.inj (some.inj hSelect)
    rfl
  | conversation record => cases hSelect
  | submission record => cases hSelect
  | other => cases hSelect

section Newest

variable {α : Type} {select : StorageWrite → Option (Nat × α)} {id : Nat}

theorem newest_snoc {done : List StorageWrite} {write : StorageWrite} {value : α} (hSelect : select write = some (id, value)) :
    newest select (done ++ [write]) id = some value := by
  rw [newest, filterMap_append, reverse_append, filterMap_cons_some hSelect]
  simp

theorem newest_append {done more : List StorageWrite} (hOther : ∀ write ∈ more, ∀ value, select write ≠ some (id, value)) :
    newest select (done ++ more) id = newest select done id := by
  rw [newest, filterMap_append, reverse_append, OrderedMap.lookup_append]
  have hNone : (more.filterMap select).reverse.lookup id = none := by
    rw [OrderedMap.lookup_eq_none_iff]
    intro hMem
    obtain ⟨⟨key, value⟩, hIn, rfl⟩ := mem_map.mp hMem
    obtain ⟨write, hWrite, hSelect⟩ := mem_filterMap.mp (mem_reverse.mp hIn)
    exact hOther write hWrite value hSelect
  rw [hNone]
  rfl

end Newest

/-- A record that is the newest of the published writes, or of these and some that are only
stored. When the cache is not ahead, the latter have no write of the record. -/
def Fresh {α : Type} (ahead : Bool) (done rest : List StorageWrite) (select : StorageWrite → Option (Nat × α)) (id : Nat)
    (record : α) : Prop :=
  ∃ more, more <+: rest ∧ (ahead = false → newest select (done ++ more) id = newest select done id) ∧
    newest select (done ++ more) id = some record

section Freshness

variable {α : Type} {select : StorageWrite → Option (Nat × α)} {ahead : Bool} {done rest : List StorageWrite} {id : Nat}
  {record : α} {write : StorageWrite}

theorem Fresh.of_newest (hNewest : newest select done id = some record) : Fresh ahead done rest select id record :=
  ⟨[], nil_prefix, fun _ => by rw [append_nil], by rw [append_nil]; exact hNewest⟩

theorem Fresh.exact (hFresh : Fresh false done rest select id record) : newest select done id = some record := by
  obtain ⟨more, -, hSame, hNewest⟩ := hFresh
  rw [← hSame rfl]
  exact hNewest

theorem Fresh.store (hFresh : Fresh ahead done rest select id record) (batch : List StorageWrite) :
    Fresh ahead done (rest ++ batch) select id record := by
  obtain ⟨more, hMore, hNewest⟩ := hFresh
  exact ⟨more, hMore.trans (prefix_append rest batch), hNewest⟩

theorem Fresh.publish (hOther : ∀ value, select write ≠ some (id, value))
    (hFresh : Fresh ahead done (write :: rest) select id record) : Fresh ahead (done ++ [write]) rest select id record := by
  have hSame : newest select (done ++ [write]) id = newest select done id :=
    newest_append fun last hLast => by rw [mem_singleton.mp hLast]; exact hOther
  obtain ⟨more, hMore, hAhead, hNewest⟩ := hFresh
  cases more with
  | nil =>
    rw [append_nil] at hNewest
    exact Fresh.of_newest (hSame.trans hNewest)
  | cons first more =>
    obtain ⟨rfl, hTail⟩ := cons_prefix_cons.mp hMore
    have hSplit : done ++ [first] ++ more = done ++ first :: more := by rw [append_assoc]; rfl
    refine ⟨more, hTail, fun hNot => ?_, by rw [hSplit]; exact hNewest⟩
    rw [hSplit, hSame]
    exact hAhead hNot

end Freshness

/-! One write of a batch. -/

/-- Two caches that differ in task records and waits only. -/
structure SameOthers (cache next : Cache) : Prop where
  conversations : next.conversations = cache.conversations
  submissions : next.submissions = cache.submissions
  reads : next.reads = cache.reads

theorem SameOthers.refl (cache : Cache) : SameOthers cache cache :=
  ⟨rfl, rfl, rfl⟩

theorem SameOthers.trans {first second third : Cache} (hFirst : SameOthers first second) (hSecond : SameOthers second third) :
    SameOthers first third :=
  ⟨hSecond.conversations.trans hFirst.conversations, hSecond.submissions.trans hFirst.submissions,
    hSecond.reads.trans hFirst.reads⟩

section Others

variable {cache next : Cache}

theorem SameOthers.releaseOne {id : Nat} (hRelease : cache.releaseOne id = some next) : SameOthers cache next := by
  rw [Cache.releaseOne] at hRelease
  cases hEntry : cache.awaited.lookup id with
  | none =>
    rw [hEntry] at hRelease
    cases hRelease
  | some entry =>
    simp only [hEntry] at hRelease
    by_cases hMore : 0 < entry.count - 1
    · rw [if_pos hMore] at hRelease
      exact some.inj hRelease ▸ ⟨rfl, rfl, rfl⟩
    · rw [if_neg hMore] at hRelease
      cases hRecord : entry.record with
      | none =>
        simp only [hRecord] at hRelease
        exact some.inj hRelease ▸ ⟨rfl, rfl, rfl⟩
      | some record =>
        simp only [hRecord] at hRelease
        exact some.inj hRelease ▸ ⟨rfl, rfl, rfl⟩

theorem SameOthers.release {on : List Nat} (hRelease : cache.release on = some next) : SameOthers cache next := by
  induction on generalizing cache with
  | nil => exact some.inj hRelease ▸ SameOthers.refl cache
  | cons id rest ih =>
    rw [Cache.release, foldlM_cons] at hRelease
    obtain ⟨middle, hFirst, hRest⟩ := bind_eq_some_iff.mp hRelease
    exact (SameOthers.releaseOne hFirst).trans (ih hRest)

theorem SameOthers.await (cache : Cache) (on : List Nat) : SameOthers cache (cache.await on) := by
  induction on generalizing cache with
  | nil => exact SameOthers.refl cache
  | cons id rest ih =>
    have hOne : SameOthers cache (cache.awaitOne id) := by
      rw [Cache.awaitOne]
      split
      · exact ⟨rfl, rfl, rfl⟩
      · exact ⟨rfl, rfl, rfl⟩
    exact hOne.trans (ih (cache.awaitOne id))

theorem SameOthers.followWait {record : TaskRecord} (hFollow : cache.followWait record = some next) : SameOthers cache next := by
  have hSet : ∀ (cache : Cache) id wait, SameOthers cache (cache.setWait id wait) := fun _ _ _ => ⟨rfl, rfl, rfl⟩
  rw [Cache.followWait.eq_def] at hFollow
  split at hFollow
  · obtain rfl := some.inj hFollow
    exact (hSet cache _ _).trans (SameOthers.await _ _)
  · obtain ⟨released, hRelease, rfl⟩ := map_eq_some_iff.mp hFollow
    exact (SameOthers.release hRelease).trans ((hSet released _ _).trans (SameOthers.await _ _))
  · exact some.inj hFollow ▸ SameOthers.refl cache
  · split_ifs at hFollow
    · exact some.inj hFollow ▸ hSet cache _ _
    · have hLeft : SameOthers cache { cache with waits := erase cache.waits record.id } := ⟨rfl, rfl, rfl⟩
      exact hLeft.trans (SameOthers.release hFollow)

theorem SameOthers.keepTask (cache : Cache) (record : TaskRecord) : SameOthers cache (cache.keepTask record) := by
  rw [Cache.keepTask]
  split_ifs
  · split
    · exact ⟨rfl, rfl, rfl⟩
    · exact ⟨rfl, rfl, rfl⟩
  · exact ⟨rfl, rfl, rfl⟩

end Others

/-- What the cache holds, when some writes are published and some only stored. -/
structure Holds (ahead : Bool) (done rest : List StorageWrite) (cache : Cache) : Prop where
  conversations : ∀ id record, cache.conversations.held id = some record → Fresh ahead done rest ofConversation id record
  tasks : Layered (Fresh ahead done rest ofTask) cache
  submissions : ∀ id record, cache.submissions.held id = some record → Fresh false done rest ofSubmission id record
  waiting : Waiting cache

/-- The reads of a record, once a write of it is published. -/
def Reads.wrote (reads : Reads) (written : Bool) : Reads :=
  if written then { reads with version := reads.version + 1 } else reads

section Publishing

variable {ahead : Bool} {done rest : List StorageWrite} {cache : Cache}

theorem Holds.frame {next : Cache} (hHolds : Holds ahead done rest cache) (hConversations : next.conversations = cache.conversations)
    (hLive : next.liveTasks = cache.liveTasks) (hAwaited : next.awaited = cache.awaited) (hWaits : next.waits = cache.waits)
    (hTasks : next.tasks = cache.tasks) (hSubmissions : next.submissions = cache.submissions) : Holds ahead done rest next where
  conversations := hConversations ▸ hHolds.conversations
  tasks := by
    constructor
    · rw [hLive]
      exact hHolds.tasks.live
    · rw [hLive, hAwaited]
      exact hHolds.tasks.awaited
    · rw [hLive, hTasks]
      exact hHolds.tasks.tasks
    · rw [hAwaited, hTasks]
      exact hHolds.tasks.apart
  submissions := hSubmissions ▸ hHolds.submissions
  waiting := hHolds.waiting.same hWaits hAwaited

theorem reads_wrote (cache : Cache) (id other : Nat) :
    (cache.wrote id).reads.lookup other = (cache.reads.lookup other).map (·.wrote (decide (some id = some other))) := by
  have hId : ∀ reads : Reads, reads.wrote false = reads := fun _ => rfl
  rw [Cache.wrote]
  cases hReads : cache.reads.lookup id with
  | none =>
    simp only
    by_cases hSame : id = other
    · rw [← hSame, hReads]
      rfl
    · simp [hSame, hId]
  | some reads =>
    simp only
    rw [lookup_set]
    by_cases hSame : other = id
    · rw [if_pos hSame, hSame, hReads]
      simp [Reads.wrote]
    · simp [Ne.symm hSame, hSame, hId]

theorem Holds.wrote (hHolds : Holds ahead done rest cache) (id : Nat) : Holds ahead done rest (cache.wrote id) := by
  rw [Cache.wrote]
  split
  · exact hHolds
  · exact hHolds.frame rfl rfl rfl rfl rfl rfl

/-- Each write of a batch is applied, and what the cache then shows is fresh again. -/
theorem Holds.publishedOne {write : StorageWrite} (hHolds : Holds ahead done (write :: rest) cache) :
    ∃ next, cache.publishedOne write = some next ∧ Holds ahead (done ++ [write]) rest next ∧
      ∀ id, next.reads.lookup id = (cache.reads.lookup id).map (·.wrote (decide (write.id = some id))) := by
  -- the records of the tables that the write is not of
  have hConversations : (∀ value, write ≠ .conversation value) → ∀ (conversations : Lru Nat ConversationRecord),
      conversations = cache.conversations → ∀ id record, conversations.held id = some record →
        Fresh ahead (done ++ [write]) rest ofConversation id record := by
    rintro hNot _ rfl id record hHeld
    refine (hHolds.conversations id record hHeld).publish fun value hSelect => ?_
    cases write <;> first | exact hNot _ rfl | cases hSelect
  have hTasks : (∀ value, write ≠ .task value) → ∀ id record, Fresh ahead done (write :: rest) ofTask id record →
      Fresh ahead (done ++ [write]) rest ofTask id record := by
    intro hNot id record hFresh
    refine hFresh.publish fun value hSelect => ?_
    cases write <;> first | exact hNot _ rfl | cases hSelect
  have hSubmissions : (∀ value, write ≠ .submission value) → ∀ (submissions : Lru Nat SubmissionRecord),
      submissions = cache.submissions → ∀ id record, submissions.held id = some record →
        Fresh false (done ++ [write]) rest ofSubmission id record := by
    rintro hNot _ rfl id record hHeld
    refine (hHolds.submissions id record hHeld).publish fun value hSelect => ?_
    cases write <;> first | exact hNot _ rfl | cases hSelect
  cases write with
  | conversation value =>
    have hWrote := hHolds.wrote value.id
    refine ⟨_, rfl, ⟨?_, ?_, ?_, ?_⟩, reads_wrote cache value.id⟩
    · intro id record hHeld
      rcases Lru.held_set hHeld with ⟨rfl, rfl⟩ | ⟨hNe, hOld⟩
      · exact Fresh.of_newest (newest_snoc rfl)
      · exact (hWrote.conversations id record hOld).publish fun other hSelect =>
          hNe (Prod.mk.inj (some.inj hSelect)).1.symm
    · exact ⟨(hWrote.tasks.mono (hTasks (by simp))).live, (hWrote.tasks.mono (hTasks (by simp))).awaited,
        (hWrote.tasks.mono (hTasks (by simp))).tasks, (hWrote.tasks.mono (hTasks (by simp))).apart⟩
    · exact hSubmissions (by simp) _ (by simp only [Cache.wrote]; split <;> rfl)
    · exact hWrote.waiting.same rfl rfl
  | task value =>
    have hWrote := hHolds.wrote value.id
    obtain ⟨followed, hFollow, hWaiting⟩ := hWrote.waiting.followWait value
    have hOthers := (SameOthers.followWait hFollow).trans (SameOthers.keepTask followed value)
    refine ⟨followed.keepTask value, by rw [Cache.publishedOne, hFollow]; rfl, ⟨?_, ?_, ?_, ?_⟩, ?_⟩
    · refine hConversations (by simp) _ ?_
      rw [hOthers.conversations, Cache.wrote]
      split <;> rfl
    · refine (hWrote.tasks.followWait hFollow).keepTask (fun id record hNe hFresh => ?_) (Fresh.of_newest (newest_snoc rfl))
      exact hFresh.publish fun other hSelect => hNe (Prod.mk.inj (some.inj hSelect)).1.symm
    · refine hSubmissions (by simp) _ ?_
      rw [hOthers.submissions, Cache.wrote]
      split <;> rfl
    · exact hWaiting.keepTask value
    · intro id
      rw [hOthers.reads]
      exact reads_wrote cache value.id id
  | submission value =>
    have hWrote := hHolds.wrote value.id
    refine ⟨_, rfl, ⟨?_, ?_, ?_, ?_⟩, reads_wrote cache value.id⟩
    · exact hConversations (by simp) _ (by simp only [Cache.wrote]; split <;> rfl)
    · exact ⟨(hWrote.tasks.mono (hTasks (by simp))).live, (hWrote.tasks.mono (hTasks (by simp))).awaited,
        (hWrote.tasks.mono (hTasks (by simp))).tasks, (hWrote.tasks.mono (hTasks (by simp))).apart⟩
    · intro id record hHeld
      rcases Lru.held_set hHeld with ⟨rfl, rfl⟩ | ⟨hNe, hOld⟩
      · exact Fresh.of_newest (newest_snoc rfl)
      · exact (hWrote.submissions id record hOld).publish fun other hSelect =>
          hNe (Prod.mk.inj (some.inj hSelect)).1.symm
    · exact hWrote.waiting.same rfl rfl
  | other =>
    refine ⟨cache, rfl, ⟨hConversations (by simp) _ rfl, hHolds.tasks.mono (hTasks (by simp)),
      hSubmissions (by simp) _ rfl, hHolds.waiting⟩, fun id => ?_⟩
    cases cache.reads.lookup id <;> simp [StorageWrite.id, Reads.wrote]

variable {batch : List StorageWrite} {flight : Flight}

/-- A batch is applied, and the reads of the records it writes are told so. -/
theorem Holds.published (hHolds : Holds ahead done (batch ++ rest) cache) :
    ∃ next, cache.published batch = some next ∧ Holds ahead (done ++ batch) rest next ∧
      ∀ id, ∃ bump, (next.reads.lookup id = (cache.reads.lookup id).map fun reads => { reads with version := reads.version + bump }) ∧
        (bump = 0 → ∀ write ∈ batch, write.id ≠ some id) := by
  induction batch generalizing done cache with
  | nil =>
    refine ⟨cache, rfl, by rw [append_nil]; exact hHolds, fun id => ⟨0, ?_, by simp⟩⟩
    cases cache.reads.lookup id <;> rfl
  | cons write batch ih =>
    obtain ⟨middle, hFirst, hMiddle, hReads⟩ := hHolds.publishedOne
    obtain ⟨next, hRest, hNext, hBumps⟩ := ih hMiddle
    refine ⟨next, ?_, by rw [append_assoc] at hNext; exact hNext, fun id => ?_⟩
    · rw [Cache.published, foldlM_cons, hFirst]
      exact hRest
    · obtain ⟨bump, hBump, hOther⟩ := hBumps id
      by_cases hWrite : write.id = some id
      · refine ⟨bump + 1, ?_, fun h => by omega⟩
        rw [hBump, hReads id]
        cases cache.reads.lookup id with
        | none => rfl
        | some reads => simp [Reads.wrote, hWrite, Nat.add_assoc, Nat.add_comm bump]
      · refine ⟨bump, ?_, fun h => forall_mem_cons.mpr ⟨hWrite, hOther h⟩⟩
        rw [hBump, hReads id]
        cases cache.reads.lookup id with
        | none => rfl
        | some reads => simp [Reads.wrote, hWrite]

end Publishing

/-- No batch from one to another writes the record. -/
def Untouched (batches : List (List StorageWrite)) (id first last : Nat) : Prop :=
  ∀ batch ∈ (batches.take last).drop first, ∀ write ∈ batch, write.id ≠ some id

theorem Untouched.extend {batches : List (List StorageWrite)} {id first last : Nat}
    (hUntouched : Untouched batches id first last) (hBatch : batches[last]? = some batch)
    (hOther : ∀ write ∈ batch, write.id ≠ some id) : Untouched batches id first (last + 1) := by
  intro other hIn
  rw [take_add_one, hBatch, toList_some, drop_append] at hIn
  rcases mem_append.mp hIn with hIn | hIn
  · exact hUntouched other hIn
  · rw [mem_singleton.mp (mem_of_mem_drop hIn)]
    exact hOther

theorem Untouched.store {batches : List (List StorageWrite)} {id first last : Nat}
    (hLast : last ≤ batches.length) : Untouched (batches ++ [batch]) id first last ↔ Untouched batches id first last := by
  rw [Untouched, Untouched, take_append_of_le_length hLast]

/-- A use of a cached record changes the order of use only. -/
theorem Holds.touch {ahead : Bool} {done rest : List StorageWrite} {cache : Cache} (hHolds : Holds ahead done rest cache)
    {conversations : Lru Nat ConversationRecord} {tasks : Lru Nat TaskRecord} {submissions : Lru Nat SubmissionRecord}
    (hConversations : ∀ id, conversations.held id = cache.conversations.held id)
    (hTasks : ∀ id, tasks.held id = cache.tasks.held id)
    (hSubmissions : ∀ id, submissions.held id = cache.submissions.held id) :
    Holds ahead done rest { cache with conversations, tasks, submissions } where
  conversations := by
    intro id record hHeld
    rw [hConversations] at hHeld
    exact hHolds.conversations id record hHeld
  tasks := by
    refine ⟨hHolds.tasks.live, hHolds.tasks.awaited, fun id record hLive hHeld => ?_, fun id hAwaited => ?_⟩
    · have hHeld : tasks.held id = some record := hHeld
      rw [hTasks] at hHeld
      exact hHolds.tasks.tasks id record hLive hHeld
    · show tasks.held id = none
      rw [hTasks]
      exact hHolds.tasks.apart id hAwaited
  submissions := by
    intro id record hHeld
    rw [hSubmissions] at hHeld
    exact hHolds.submissions id record hHeld
  waiting := hHolds.waiting.same rfl rfl

namespace World

/-- A read sees no stored write of its record that is not published when the read ends. -/
def Gated (world : World) : Event → Prop
  | .finish index seen => ∀ flight, world.flights[index]? = some flight →
      Untouched world.batches flight.id world.published seen
  | _ => True

/-- A read in flight knows whether a published commit has written its record. -/
structure Flying (world : World) (flight : Flight) : Prop where
  stored : flight.stored ≤ world.batches.length
  before : flight.published ≤ flight.stored
  published : flight.published ≤ world.published
  version : ∀ reads, world.cache.reads.lookup flight.id = some reads →
    flight.version ≤ reads.version ∧
      (flight.version = reads.version → Untouched world.batches flight.id flight.published world.published)

structure Inv (ahead : Bool) (world : World) : Prop where
  holds : Holds ahead (world.writes world.published) (world.batches.drop world.published).flatten world.cache
  published : world.published ≤ world.batches.length
  reads : ∀ id, ((world.cache.reads.lookup id).map Reads.count).getD 0 =
    world.flights.countP fun flight => decide (flight.id = id)
  flights : ∀ flight ∈ world.flights, world.Flying flight

section Writes

variable {world : World}

theorem writes_le {first last : Nat} (hLe : first ≤ last) :
    world.writes last = world.writes first ++ ((world.batches.take last).drop first).flatten := by
  have hSplit := take_append_drop first (world.batches.take last)
  rw [take_take, Nat.min_eq_left hLe] at hSplit
  rw [writes, writes, ← flatten_append, hSplit]

theorem newest_untouched {α : Type} {select : StorageWrite → Option (Nat × α)} (hNames : Names select) {id first last : Nat}
    (hLe : first ≤ last) (hUntouched : Untouched world.batches id first last) :
    newest select (world.writes last) id = newest select (world.writes first) id := by
  rw [writes_le hLe]
  apply newest_append
  intro write hWrite value hSelect
  obtain ⟨batch, hBatch, hIn⟩ := mem_flatten.mp hWrite
  exact hUntouched batch hBatch write hIn (hNames write id value hSelect)

/-- What a read sees is fresh, when no commit published since its start wrote its record. -/
theorem fresh_seen {α : Type} {select : StorageWrite → Option (Nat × α)} (hNames : Names select) {ahead : Bool}
    {id start seen : Nat} {record : α} (hStart : start ≤ seen) (hUntouched : Untouched world.batches id start world.published)
    (hGated : ahead = false → Untouched world.batches id world.published seen)
    (hSeen : newest select (world.writes seen) id = some record) :
    Fresh ahead (world.writes world.published) (world.batches.drop world.published).flatten select id record := by
  rcases Nat.le_total seen world.published with hLe | hLe
  · apply Fresh.of_newest
    have hRest : Untouched world.batches id seen world.published := fun batch hBatch =>
      hUntouched batch (drop_subset_drop_left _ hStart hBatch)
    rw [newest_untouched hNames hLe hRest]
    exact hSeen
  · refine ⟨((world.batches.take seen).drop world.published).flatten, ?_, fun hNot => ?_, ?_⟩
    · rw [drop_take]
      obtain ⟨last, hLast⟩ := take_prefix (seen - world.published) (world.batches.drop world.published)
      exact ⟨last.flatten, by rw [← flatten_append, hLast]⟩
    · rw [← writes_le hLe]
      exact newest_untouched hNames hLe (hGated hNot)
    · rw [← writes_le hLe]
      exact hSeen

end Writes

section Steps

variable {ahead : Bool} {world next : World}

section

variable (hInv : Inv ahead world)

include hInv

theorem Inv.store (batch : List StorageWrite) :
    Inv ahead { world with batches := world.batches ++ [batch] } := by
  have hDone : (world.batches ++ [batch]).take world.published = world.batches.take world.published :=
    take_append_of_le_length hInv.published
  have hRest : ((world.batches ++ [batch]).drop world.published).flatten =
      (world.batches.drop world.published).flatten ++ batch := by
    rw [drop_append_of_le_length hInv.published, flatten_append, flatten_singleton]
  have hHolds := hInv.holds
  rw [writes] at hHolds
  exact {
    holds := by
      show Holds ahead ((world.batches ++ [batch]).take world.published).flatten
        ((world.batches ++ [batch]).drop world.published).flatten world.cache
      rw [hDone, hRest]
      exact ⟨fun id record h => (hHolds.conversations id record h).store batch,
        hHolds.tasks.mono fun id record h => h.store batch,
        fun id record h => (hHolds.submissions id record h).store batch, hHolds.waiting⟩
    published := by
      show world.published ≤ (world.batches ++ [batch]).length
      rw [length_append]
      exact Nat.le_add_right_of_le hInv.published
    reads := hInv.reads
    flights := by
      intro flight hFlight
      have hFlying := hInv.flights flight hFlight
      refine ⟨?_, hFlying.before, hFlying.published, fun reads hReads => ?_⟩
      · show flight.stored ≤ (world.batches ++ [batch]).length
        rw [length_append]
        exact Nat.le_add_right_of_le hFlying.stored
      · obtain ⟨hLe, hSame⟩ := hFlying.version reads hReads
        exact ⟨hLe, fun hVersion => (Untouched.store hInv.published).mpr (hSame hVersion)⟩ }

theorem Inv.publish (hBatch : world.batches[world.published]? = some batch) :
    ∃ cache, world.cache.published batch = some cache ∧
      Inv ahead { world with cache, published := world.published + 1 } := by
  obtain ⟨hBound, hAt⟩ := List.getElem?_eq_some_iff.mp hBatch
  have hRest : (world.batches.drop world.published).flatten = batch ++ (world.batches.drop (world.published + 1)).flatten := by
    rw [drop_eq_getElem_cons hBound, flatten_cons, hAt]
  have hDone : world.writes (world.published + 1) = world.writes world.published ++ batch := by
    rw [writes, writes, take_add_one, hBatch, flatten_append, toList_some, flatten_singleton]
  have hHolds := hInv.holds
  rw [hRest] at hHolds
  obtain ⟨cache, hPublished, hNext, hReads⟩ := hHolds.published
  refine ⟨cache, hPublished, ⟨?_, hBound, ?_, ?_⟩⟩
  · show Holds ahead (world.writes (world.published + 1)) _ cache
    rw [hDone]
    exact hNext
  · intro id
    obtain ⟨bump, hBump, -⟩ := hReads id
    rw [← hInv.reads id]
    show ((cache.reads.lookup id).map Reads.count).getD 0 = _
    rw [hBump]
    cases world.cache.reads.lookup id <;> rfl
  · intro flight hFlight
    have hFlying := hInv.flights flight hFlight
    refine ⟨hFlying.stored, hFlying.before, Nat.le_succ_of_le hFlying.published, fun reads hFound => ?_⟩
    obtain ⟨bump, hBump, hOther⟩ := hReads flight.id
    have hFound : cache.reads.lookup flight.id = some reads := hFound
    rw [hBump] at hFound
    obtain ⟨old, hOld, rfl⟩ := map_eq_some_iff.mp hFound
    obtain ⟨hLe, hSame⟩ := hFlying.version old hOld
    refine ⟨Nat.le_add_right_of_le hLe, fun hVersion => ?_⟩
    have hVersion : flight.version = old.version + bump := hVersion
    exact (hSame (by omega)).extend hBatch (hOther (by omega))

theorem holds_touch (kind : ReadKind) (id : Nat) :
    Holds ahead (world.writes world.published) (world.batches.drop world.published).flatten (world.touch kind id) ∧
      (world.touch kind id).reads = world.cache.reads := by
  cases kind with
  | conversation =>
    exact ⟨hInv.holds.touch (fun _ => Lru.held_touch _ id _) (fun _ => rfl) (fun _ => rfl), rfl⟩
  | task =>
    rw [World.touch, Cache.touchTask]
    split_ifs
    · exact ⟨hInv.holds, rfl⟩
    · exact ⟨hInv.holds.touch (fun _ => rfl) (fun _ => Lru.held_touch _ id _) (fun _ => rfl), rfl⟩

theorem Inv.cache {cache : Cache}
    (hHolds : Holds ahead (world.writes world.published) (world.batches.drop world.published).flatten cache)
    (hReads : cache.reads = world.cache.reads) : Inv ahead { world with cache } where
  holds := hHolds
  published := hInv.published
  reads := by
    intro id
    show ((cache.reads.lookup id).map Reads.count).getD 0 = _
    rw [hReads]
    exact hInv.reads id
  flights := by
    intro flight hFlight
    have hFlying := hInv.flights flight hFlight
    refine ⟨hFlying.stored, hFlying.before, hFlying.published, fun reads hFound => hFlying.version reads ?_⟩
    have hFound : cache.reads.lookup flight.id = some reads := hFound
    rwa [hReads] at hFound

theorem Inv.startRead (kind : ReadKind) (id : Nat) :
    Inv ahead { world with
      cache := world.cache.startRead id
      flights := world.flights ++
        [{ kind, id, version := world.cache.version id, stored := world.batches.length, published := world.published }] } := by
  have hLookup : ∀ other, (world.cache.startRead id).reads.lookup other =
      if other = id then some { (world.cache.reads.lookup id).getD {} with
        count := ((world.cache.reads.lookup id).getD {}).count + 1 } else world.cache.reads.lookup other :=
    fun other => lookup_set _ _ _ _
  have hNumber := hInv.reads id
  refine ⟨hInv.holds.frame rfl rfl rfl rfl rfl rfl, hInv.published, fun other => ?_, fun flight hFlight => ?_⟩
  · show (((world.cache.startRead id).reads.lookup other).map Reads.count).getD 0 = _
    rw [hLookup, countP_append, countP_singleton]
    by_cases hSame : other = id
    · rw [if_pos hSame, hSame, ← hNumber, if_pos (decide_eq_true rfl), map_some, getD_some]
      cases world.cache.reads.lookup id <;> rfl
    · rw [if_neg hSame, if_neg (by simpa using Ne.symm hSame), Nat.add_zero]
      exact hInv.reads other
  · rcases mem_append.mp hFlight with hOld | hNew
    · have hFlying := hInv.flights flight hOld
      refine ⟨hFlying.stored, hFlying.before, hFlying.published, fun reads hFound => ?_⟩
      have hFound : (world.cache.startRead id).reads.lookup flight.id = some reads := hFound
      rw [hLookup] at hFound
      split_ifs at hFound with hSame
      · obtain rfl := some.inj hFound
        cases hReads : world.cache.reads.lookup id with
        | some old =>
          rw [← hSame] at hReads
          exact hFlying.version old hReads
        | none =>
          -- the flight is counted, so its record has reads
          rw [hReads, map_none, getD_none] at hNumber
          have hCounted := countP_eq_zero.mp hNumber.symm flight hOld
          exact absurd (decide_eq_true hSame) hCounted
      · exact hFlying.version reads hFound
    · obtain rfl := mem_singleton.mp hNew
      refine ⟨le_rfl, hInv.published, le_rfl, fun reads hFound => ?_⟩
      have hFound : (world.cache.startRead id).reads.lookup id = some reads := hFound
      rw [hLookup, if_pos rfl] at hFound
      obtain rfl := some.inj hFound
      refine ⟨le_rfl, fun _ batch hBatch => ?_⟩
      rw [drop_eq_nil_of_le (by rw [length_take]; exact Nat.min_le_left _ _)] at hBatch
      cases hBatch

theorem Inv.endRead {index : Nat} (hFlight : world.flights[index]? = some flight) :
    Inv ahead { world with cache := world.cache.endRead flight.id, flights := world.flights.eraseIdx index } := by
  obtain ⟨hBound, hAt⟩ := List.getElem?_eq_some_iff.mp hFlight
  have hNumber := hInv.reads flight.id
  have hCount : ∀ id, (world.flights.eraseIdx index).countP (fun other => decide (other.id = id)) +
      (if flight.id = id then 1 else 0) = world.flights.countP fun other => decide (other.id = id) := by
    intro id
    have hPerm := getElem_cons_eraseIdx_perm hBound
    rw [← hPerm.countP_eq, countP_cons, hAt]
    simp
  have hPositive : 0 < world.flights.countP fun other => decide (other.id = flight.id) :=
    countP_pos_iff.mpr ⟨flight, mem_of_getElem? hFlight, decide_eq_true rfl⟩
  cases hReads : world.cache.reads.lookup flight.id with
  | none =>
    rw [hReads, map_none, getD_none] at hNumber
    omega
  | some reads =>
    rw [hReads, map_some, getD_some] at hNumber
    have hEnd : world.cache.endRead flight.id = if reads.count - 1 = 0
        then { world.cache with reads := erase world.cache.reads flight.id }
        else { world.cache with reads := set world.cache.reads flight.id { reads with count := reads.count - 1 } } := by
      rw [Cache.endRead, hReads]
    -- the other reads are as they were, and this record's have one less
    have hLookup : ∀ id, (world.cache.endRead flight.id).reads.lookup id =
        if id = flight.id then (if reads.count - 1 = 0 then none else some { reads with count := reads.count - 1 })
        else world.cache.reads.lookup id := by
      intro id
      rw [hEnd]
      split_ifs with hZero hSame hSame
      · rw [lookup_erase, if_pos hSame]
      · rw [lookup_erase, if_neg hSame]
      · rw [lookup_set, if_pos hSame]
      · rw [lookup_set, if_neg hSame]
    refine ⟨?_, hInv.published, fun id => ?_, fun other hOther => ?_⟩
    · show Holds ahead _ _ (world.cache.endRead flight.id)
      rw [hEnd]
      split_ifs
      · exact hInv.holds.frame rfl rfl rfl rfl rfl rfl
      · exact hInv.holds.frame rfl rfl rfl rfl rfl rfl
    · show (((world.cache.endRead flight.id).reads.lookup id).map Reads.count).getD 0 =
        (world.flights.eraseIdx index).countP fun other => decide (other.id = id)
      have hRest := hCount id
      rw [hLookup]
      by_cases hSame : id = flight.id
      · rw [if_pos hSame.symm, hSame, ← hNumber] at hRest
        rw [if_pos hSame, hSame]
        split_ifs with hZero
        · rw [map_none, getD_none]
          omega
        · rw [map_some, getD_some]
          show reads.count - 1 = _
          omega
      · rw [if_neg (Ne.symm hSame), Nat.add_zero] at hRest
        rw [if_neg hSame, hRest]
        exact hInv.reads id
    · have hFlying := hInv.flights other (mem_of_mem_eraseIdx hOther)
      refine ⟨hFlying.stored, hFlying.before, hFlying.published, fun found hFound => ?_⟩
      have hFound : (world.cache.endRead flight.id).reads.lookup other.id = some found := hFound
      rw [hLookup] at hFound
      split_ifs at hFound with hSame hZero
      · obtain rfl := some.inj hFound
        exact hFlying.version reads (hSame ▸ hReads)
      · exact hFlying.version found hFound

theorem Inv.reads_some (hFlight : flight ∈ world.flights) :
    ∃ reads, world.cache.reads.lookup flight.id = some reads := by
  have hNumber := hInv.reads flight.id
  have hPositive : 0 < world.flights.countP fun other => decide (other.id = flight.id) :=
    countP_pos_iff.mpr ⟨flight, hFlight, decide_eq_true rfl⟩
  cases hReads : world.cache.reads.lookup flight.id with
  | some reads => exact ⟨reads, rfl⟩
  | none =>
    rw [hReads, map_none, getD_none] at hNumber
    omega

theorem Inv.untouched (hFlight : flight ∈ world.flights) (hVersion : world.cache.version flight.id = flight.version) :
    Untouched world.batches flight.id flight.published world.published := by
  obtain ⟨reads, hReads⟩ := hInv.reads_some hFlight
  rw [Cache.version, hReads, getD_some] at hVersion
  exact ((hInv.flights flight hFlight).version reads hReads).2 hVersion.symm

end

variable {seen : Nat}

theorem id_of_found {id : Nat} {record : TaskRecord} (hFound : newest ofTask (world.writes seen) id = some record) :
    record.id = id := by
  obtain ⟨write, -, hSelect⟩ := mem_filterMap.mp (mem_reverse.mp (mem_of_lookup hFound))
  cases write with
  | task value =>
    obtain ⟨rfl, rfl⟩ := Prod.mk.inj (some.inj hSelect)
    rfl
  | conversation value => cases hSelect
  | submission value => cases hSelect
  | other => cases hSelect

theorem Inv.keep (hInv : Inv ahead world) {kind : ReadKind} {id start : Nat} {value : ConversationRecord ⊕ TaskRecord}
    (hFound : world.found seen kind id = some value) (hStart : start ≤ seen)
    (hUntouched : Untouched world.batches id start world.published)
    (hGated : ahead = false → Untouched world.batches id world.published seen) :
    Inv ahead { world with cache := world.cache.keep id value } := by
  cases kind with
  | conversation =>
    obtain ⟨record, hRecord, rfl⟩ := map_eq_some_iff.mp hFound
    have hFresh := fresh_seen names_ofConversation hStart hUntouched hGated hRecord
    refine hInv.cache ⟨fun other found hHeld => ?_, ?_, hInv.holds.submissions, hInv.holds.waiting.same rfl rfl⟩ rfl
    · rcases Lru.held_set hHeld with ⟨rfl, rfl⟩ | ⟨-, hOld⟩
      · exact hFresh
      · exact hInv.holds.conversations other found hOld
    · exact ⟨hInv.holds.tasks.live, hInv.holds.tasks.awaited, hInv.holds.tasks.tasks, hInv.holds.tasks.apart⟩
  | task =>
    obtain ⟨record, hRecord, rfl⟩ := map_eq_some_iff.mp hFound
    have hFresh := fresh_seen names_ofTask hStart hUntouched hGated hRecord
    rw [← id_of_found hRecord] at hFresh
    have hOthers := SameOthers.keepTask world.cache record
    refine hInv.cache ⟨?_, hInv.holds.tasks.keepTask (fun _ _ _ h => h) hFresh, ?_, hInv.holds.waiting.keepTask record⟩
      hOthers.reads
    · show ∀ id found, (world.cache.keepTask record).conversations.held id = some found → _
      rw [hOthers.conversations]
      exact hInv.holds.conversations
    · show ∀ id found, (world.cache.keepTask record).submissions.held id = some found → _
      rw [hOthers.submissions]
      exact hInv.holds.submissions

theorem Inv.finish (hInv : Inv ahead world) {index : Nat} (hFlight : world.flights[index]? = some flight)
    (hSeen : flight.stored ≤ seen) (hGated : ahead = false → Untouched world.batches flight.id world.published seen) :
    Inv ahead { world with
      cache := world.cache.finishRead flight.id flight.version (world.found seen flight.kind flight.id)
      flights := world.flights.eraseIdx index } := by
  have hMem := mem_of_getElem? hFlight
  have hEnd := hInv.endRead hFlight
  rw [Cache.finishRead.eq_def]
  cases hFound : world.found seen flight.kind flight.id with
  | none => exact hEnd
  | some value =>
    simp only
    by_cases hVersion : world.cache.version flight.id = flight.version
    · rw [if_pos hVersion]
      have hStart : flight.published ≤ seen := (hInv.flights flight hMem).before.trans hSeen
      exact hEnd.keep hFound hStart (hInv.untouched hMem hVersion) hGated
    · rw [if_neg hVersion]
      exact hEnd

theorem Inv.opened (ahead : Bool) (batches : List (List StorageWrite)) : Inv ahead (opened batches) where
  holds := {
    conversations := by
      intro id record hHeld
      cases hHeld
    tasks := by
      constructor
      · intro id record hLive
        cases hLive
      · intro id entry record hLive hEntry
        cases hEntry
      · intro id record hLive hHeld
        cases hHeld
      · exact fun _ _ => rfl
    submissions := by
      intro id record hHeld
      cases hHeld
    waiting := by
      refine ⟨nodup_nil, ⟨fun _ => rfl, fun id entry hEntry => ?_⟩⟩
      cases hEntry }
  published := le_rfl
  reads := fun _ => rfl
  flights := by
    intro flight hFlight
    cases hFlight

theorem Inv.step (hInv : Inv ahead world) {event : Event} (hGated : ahead = false → world.Gated event)
    (hStep : world.step event = some next) : Inv ahead next := by
  cases event with
  | store batch => exact some.inj hStep ▸ hInv.store batch
  | publish =>
    obtain ⟨batch, hBatch, hStep⟩ := bind_eq_some_iff.mp hStep
    obtain ⟨cache, hCache, hNext⟩ := hInv.publish hBatch
    rw [hCache] at hStep
    exact some.inj hStep ▸ hNext
  | read kind id =>
    rw [World.step] at hStep
    obtain ⟨hHolds, hReads⟩ := holds_touch hInv kind id
    have hTouched := hInv.cache hHolds hReads
    by_cases hCached : world.cached kind id = true
    · rw [if_pos hCached] at hStep
      exact some.inj hStep ▸ hTouched
    · rw [if_neg hCached] at hStep
      obtain rfl := some.inj hStep
      have hVersion : world.cache.version id = (world.touch kind id).version id := by
        rw [Cache.version, Cache.version, hReads]
      rw [hVersion]
      exact hTouched.startRead kind id
  | readSubmission id =>
    obtain rfl := some.inj hStep
    exact hInv.cache (hInv.holds.touch (fun _ => rfl) (fun _ => rfl) fun _ => Lru.held_touch _ id _) rfl
  | finish index seen =>
    obtain ⟨flight, hFlight, hStep⟩ := bind_eq_some_iff.mp hStep
    by_cases hSeen : flight.stored ≤ seen ∧ seen ≤ world.batches.length
    · rw [if_pos hSeen] at hStep
      exact some.inj hStep ▸ hInv.finish hFlight hSeen.1 fun hNot => hGated hNot flight hFlight
    · rw [if_neg hSeen] at hStep
      cases hStep
  | fail index =>
    obtain ⟨flight, hFlight, hStep⟩ := bind_eq_some_iff.mp hStep
    exact some.inj hStep ▸ hInv.endRead hFlight

end Steps

/-- A run of which each read sees no stored write of its record that is not published. -/
def GatedRun : World → List Event → Prop
  | _, [] => True
  | world, event :: rest => world.Gated event ∧ ∀ next, world.step event = some next → GatedRun next rest

variable {world : World}

theorem Inv.run {ahead : Bool} {events : List Event} {last : World} (hInv : Inv ahead world)
    (hGated : ahead = false → world.GatedRun events) (hRun : Transition.run World.step world events = some last) : Inv ahead last := by
  induction events generalizing world with
  | nil => exact some.inj hRun ▸ hInv
  | cons event rest ih =>
    obtain ⟨next, hNext, hRest⟩ := Transition.run_cons_eq_some.mp hRun
    exact ih (hInv.step (fun hNot => (hGated hNot).1) hNext) (fun hNot => (hGated hNot).2 next hNext) hRest

/-- The published writes, and the ones that are only stored. -/
def done (world : World) : List StorageWrite := world.writes world.published

def rest (world : World) : List StorageWrite := (world.batches.drop world.published).flatten

/-- A record is the one of its newest published write, or of a stored write after it. -/
def NeverOlder {α : Type} (world : World) (select : StorageWrite → Option (Nat × α)) (id : Nat) (record : α) : Prop :=
  ∃ more, more <+: world.rest ∧ newest select (world.done ++ more) id = some record

/-- What holds of the cache, its reads in flight and its counters. -/
structure Current (world : World) : Prop where
  conversation : ∀ id record, world.cache.cachedConversation id = some record → world.NeverOlder ofConversation id record
  task : ∀ id record, world.cache.cachedTask id = some record → world.NeverOlder ofTask id record
  submission : ∀ id record, world.cache.cachedSubmission id = some record → newest ofSubmission world.done id = some record
  /-- A read whose record a commit wrote, published since the read started, keeps nothing. -/
  stale : ∀ index seen flight next, world.flights[index]? = some flight → world.step (.finish index seen) = some next →
    ¬ Untouched world.batches flight.id flight.published world.published →
      next.cache = { world.cache with reads := next.cache.reads }
  counter : ∀ id, world.cache.counted id = world.cache.named id
  /-- A stored batch is applied without an error. -/
  applied : world.published < world.batches.length → ∃ next, world.step .publish = some next

/-- What is cached is exactly what is published. -/
structure Exact (world : World) : Prop where
  conversation : ∀ id record, world.cache.cachedConversation id = some record →
    newest ofConversation world.done id = some record
  task : ∀ id record, world.cache.cachedTask id = some record → newest ofTask world.done id = some record
  submission : ∀ id record, world.cache.cachedSubmission id = some record → newest ofSubmission world.done id = some record

theorem Inv.current {ahead : Bool} (hInv : Inv ahead world) : world.Current where
  conversation := by
    intro id record hCached
    obtain ⟨more, hMore, -, hNewest⟩ := hInv.holds.conversations id record hCached
    exact ⟨more, hMore, hNewest⟩
  task := by
    intro id record hCached
    obtain ⟨more, hMore, -, hNewest⟩ := hInv.holds.tasks.cachedTask hCached
    exact ⟨more, hMore, hNewest⟩
  submission := by
    intro id record hCached
    exact (hInv.holds.submissions id record hCached).exact
  stale := by
    intro index seen flight next hFlight hStep hTouched
    have hVersion : world.cache.version flight.id ≠ flight.version := fun hSame =>
      hTouched (hInv.untouched (mem_of_getElem? hFlight) hSame)
    have hOnly : ∀ value, world.cache.finishRead flight.id flight.version value = world.cache.endRead flight.id := by
      intro value
      cases value with
      | none => rfl
      | some value => exact if_neg hVersion
    obtain ⟨found, hFound, hStep⟩ := bind_eq_some_iff.mp hStep
    rw [hFlight] at hFound
    obtain rfl := some.inj hFound
    split_ifs at hStep
    obtain rfl := some.inj hStep
    rw [hOnly, Cache.endRead]
    split
    · rfl
    · split_ifs <;> rfl
  counter := hInv.holds.waiting.counts.counted
  applied := by
    intro hLess
    have hBatch : world.batches[world.published]? = some world.batches[world.published] := getElem?_eq_getElem hLess
    obtain ⟨cache, hCache, -⟩ := hInv.publish hBatch
    refine ⟨{ world with cache, published := world.published + 1 }, ?_⟩
    rw [World.step, hBatch, bind_eq_bind, bind_some, hCache]
    rfl

theorem Inv.exact (hInv : Inv false world) : world.Exact where
  conversation := fun id record hCached => (hInv.holds.conversations id record hCached).exact
  task := fun _ _ hCached => (hInv.holds.tasks.cachedTask hCached).exact
  submission := fun id record hCached => (hInv.holds.submissions id record hCached).exact

/-- Along every run the cache is never behind what is published, and shows exactly that when
the reads see nothing more. -/
theorem cache_never_behind (batches : List (List StorageWrite)) (events : List Event) (world : World)
    (hRun : Transition.run step (opened batches) events = some world) :
    world.Current ∧ ((opened batches).GatedRun events → world.Exact) := by
  constructor
  · exact ((Inv.opened true batches).run (fun h => by cases h) hRun).current
  · intro hGated
    exact ((Inv.opened false batches).run (fun _ => hGated) hRun).exact

/-- A task that is read while a commit of it is published, and read again. -/
def racedRead : List Event :=
  [.read .task 7, .store [.task { id := 7, state := .waiting [8, 8] }], .publish, .read .task 7, .finish 0 1]

theorem cache_never_behind_raced : ∃ world,
    Transition.run step (opened [[.task { id := 7, state := .pending }]]) racedRead = some world ∧ world.Current ∧
      world.cache.cachedTask 7 = some { id := 7, state := .waiting [8, 8] } ∧ world.cache.counted 8 = 2 := by
  have hRun : ∃ world, Transition.run step (opened [[.task { id := 7, state := .pending }]]) racedRead = some world ∧
      world.cache.cachedTask 7 = some { id := 7, state := .waiting [8, 8] } ∧ world.cache.counted 8 = 2 :=
    ⟨_, rfl, by decide, by decide⟩
  obtain ⟨world, hWorld, hRest⟩ := hRun
  exact ⟨world, hWorld, (cache_never_behind _ racedRead world hWorld).1, hRest⟩

/-- A read that sees a stored commit before it is published keeps its record. -/
def earlyRead : List Event :=
  [.store [.conversation { id := 1 }], .read .conversation 1, .finish 0 1]

theorem earlyRead_ahead :
    ¬ ∀ batches events world, Transition.run step (opened batches) events = some world →
      ∀ id record, world.cache.cachedConversation id = some record → newest ofConversation world.done id = some record := by
  intro hAll
  have hNewest := hAll [] earlyRead _ rfl 1 { id := 1 } (by decide)
  revert hNewest
  decide

end World

end OctoberHarness.Cached
