import OctoberHarness.Session.ConversationTails
import OctoberHarness.Storage.History

/-! What the tails of conversations answer from memory is what the storage would: in every
run of commits, publications, reads and evictions. -/
namespace OctoberHarness.Tails

open Storage OrderedMap Option Bool

/-! What a batch stores. -/

/-- The records of conversations and entries behind a batch. -/
structure Stores (m next : Memory) (writes : List Write) : Prop where
  conversations : ∀ id, Grows (fun value => value.id = id ∧ Write.conversation value ∈ writes)
    (m.conversations.lookup id) (next.conversations.lookup id)
  entries : ∀ id, Grows (fun value => value.id = id ∧ Write.entry value ∈ writes)
    (m.entries.lookup id) (next.entries.lookup id)
  created : ∀ value, Write.conversation value ∈ writes →
    m.conversations.lookup value.id = none ∧ next.conversations.lookup value.id = some value
  appended : ∀ value, Write.entry value ∈ writes → next.entries.lookup value.id = some value

theorem grows_none {α : Type} {P : α → Prop} {old new : Option α} (h : Grows P old new) (hNew : new = none) : old = none := by
  rcases h with rfl | ⟨hOld, -⟩
  · exact hNew
  · exact hOld

theorem grows_some {α : Type} {P : α → Prop} {old new : Option α} (h : Grows P old new) {value : α}
    (hOld : old = some value) : new = some value := by
  rcases h with rfl | ⟨hNone, -⟩
  · exact hOld
  · rw [hOld] at hNone
    cases hNone

variable {P : EntryRecord → Bool} {d : Sqlite} {id : Nat} {entry : EntryRecord} {found : Option EntryRecord}
    {tails : ConversationTails} {batches : List (List Write)} {published : Memory}

variable {m : Memory} {writes : List Write} {bound next : Nat}

/-- Every record that a batch writes is new, and is what the batch leaves. -/
theorem allowedRun_puts (hMirror : Mirror m d) (hStored : Stored d) (seq : Nat) (hAllowed : AllowedRun seq d writes) :
    (∀ value, Write.conversation value ∈ writes → d.conversations.lookup value.id = none ∧
        (writes.foldl (fun d write => d.applyTableWrite seq write) d).conversations.lookup value.id = some value) ∧
      ∀ value, Write.entry value ∈ writes →
        (writes.foldl (fun d write => d.applyTableWrite seq write) d).entries.lookup value.id = some ⟨value, seq⟩ := by
  induction writes generalizing m d with
  | nil => simp
  | cons write rest ih =>
    obtain ⟨hFirst, hRest⟩ := hAllowed
    obtain ⟨hNextMirror, hNextStored⟩ := hMirror.write hStored seq hFirst
    have hWrite := hStored.written seq hFirst
    have hLater := Stored.writtenRun hNextMirror hNextStored seq hRest
    obtain ⟨hConversations, hEntries⟩ := ih hNextMirror hNextStored hRest
    rw [List.foldl_cons]
    refine ⟨fun value hValue => ?_, fun value hValue => ?_⟩
    · obtain rfl | hValue := List.mem_cons.mp hValue
      · refine ⟨lookup_none_of_free hStored.filed.conversations hFirst, grows_some (hLater.conversations value.id) ?_⟩
        simp only [Sqlite.applyTableWrite, Sqlite.claimId_eq]
        rw [Table.lookup_put hStored.kept.conversations.1, if_pos rfl]
      · exact ⟨grows_none (hWrite.conversations value.id) (hConversations value hValue).1, (hConversations value hValue).2⟩
    · obtain rfl | hValue := List.mem_cons.mp hValue
      · refine grows_some (hLater.entries value.id) ?_
        simp only [Sqlite.applyTableWrite, Sqlite.claimId_eq]
        rw [Table.lookup_put hStored.kept.entries.1, if_pos rfl]
      · exact hEntries value hValue

theorem applyBatch_records (h : Agree m d) {actions : Sqlite.DocumentActions} (hPasses : Passes m d writes actions) :
    (d.applyBatch writes (resolvedActions d actions)).conversations =
        (writes.foldl (fun d' write => d'.applyTableWrite d.nextSeq write) d).conversations ∧
      (d.applyBatch writes (resolvedActions d actions)).entries =
        (writes.foldl (fun d' write => d'.applyTableWrite d.nextSeq write) d).entries := by
  have hStart : ClaimedSoFar d.recordIds [] d.recordIds := fun _ => rfl
  obtain ⟨hAllowed, -⟩ := h.mirror.allowedRun h.stored hStart d.nextSeq hPasses.ids
  obtain ⟨-, hStored⟩ := h.mirror.writes h.stored d.nextSeq hAllowed
  have hFits := h.fits hPasses
  rw [Sqlite.applyBatch]
  generalize writes.foldl (fun d' write => d'.applyTableWrite d.nextSeq write) d = tables at hStored hFits
  obtain ⟨-, ids, rows, revisionRows, hSame⟩ := actions_same d.nextSeq (resolvedActions d actions)
    ⟨hStored.filed.ids, hStored.kept.documents, hStored.filed.documents, hStored.kept.owned⟩ hFits.1 hFits.2
  rw [hSame]
  exact ⟨rfl, rfl⟩

theorem Stores.commitBatch {next : Memory} (h : Agree m d)
    (hCommit : m.commitBatch writes = .ok next) : Stores m next writes ∧ ∃ d', Agree next d' := by
  obtain ⟨d', actions, -, hNext, hPasses, rfl⟩ := h.commitBatch hCommit
  have hEffect := h.effect hPasses
  have hStart : ClaimedSoFar d.recordIds [] d.recordIds := fun _ => rfl
  obtain ⟨hAllowed, -⟩ := h.mirror.allowedRun h.stored hStart d.nextSeq hPasses.ids
  obtain ⟨hConversations, hEntries⟩ := allowedRun_puts h.mirror h.stored d.nextSeq hAllowed
  obtain ⟨hSameConversations, hSameEntries⟩ := applyBatch_records h hPasses
  refine ⟨⟨fun id => ?_, fun id => ?_, fun value hValue => ?_, fun value hValue => ?_⟩, _, hNext⟩
  · rw [h.mirror.conversations, hNext.mirror.conversations]
    exact hEffect.conversations id
  · rw [h.mirror.entries, hNext.mirror.entries]
    rcases hEffect.entries id with hSame | ⟨hNone, row, hRow, hId, -, hWrite⟩
    · exact .inl (by rw [hSame])
    · exact .inr ⟨by rw [hNone]; rfl, row.entry, by rw [hRow]; rfl, hId, hWrite⟩
  · rw [h.mirror.conversations, hNext.mirror.conversations, hSameConversations]
    exact hConversations value hValue
  · rw [hNext.mirror.entries, hSameEntries, hEntries value hValue]
    rfl

/-! What a transaction makes sure of. -/

/-- `mints`, for each write of a batch. -/
structure Minted (m : Memory) (bound next : Nat) (writes : List Write) : Prop where
  entry : ∀ before value after, writes = before ++ .entry value :: after →
    bound ≤ value.id ∧ value.id < next ∧ (∀ earlier, Write.entry earlier ∈ before → earlier.id < value.id) ∧
      (m.conversations.lookup value.conversationId ≠ none ∨
        ∃ created, Write.conversation created ∈ before ∧ created.id = value.conversationId)
  conversation : ∀ before value after, writes = before ++ .conversation value :: after →
    (∀ earlier, Write.entry earlier ∈ before → earlier.conversationId ≠ value.id) ∧
      ∀ parent, value.parent = some parent → m.conversations.lookup parent.conversationId ≠ none ∧ parent.atEntry < bound

theorem mints_entry {before : List Write} (h : mints m bound next before writes)
    {first after : List Write} {value : EntryRecord} (hSplit : writes = first ++ .entry value :: after) :
    bound ≤ value.id ∧ value.id < next ∧ (∀ earlier, Write.entry earlier ∈ before ++ first → earlier.id < value.id) ∧
      (m.conversations.lookup value.conversationId ≠ none ∨
        ∃ created, Write.conversation created ∈ before ++ first ∧ created.id = value.conversationId) := by
  induction first generalizing writes before with
  | nil =>
    subst hSplit
    simp only [mints, mintsWrite, List.nil_append, and_eq_true, decide_eq_true_eq, or_eq_true, List.all_eq_true,
      List.any_eq_true] at h
    obtain ⟨⟨⟨⟨hBound, hNext⟩, hOrder⟩, hOwner⟩, -⟩ := h
    rw [List.append_nil]
    refine ⟨hBound, hNext, fun earlier hEarlier => by simpa using hOrder _ hEarlier, hOwner.imp ?_ ?_⟩
    · intro hSome hNone
      rw [hNone] at hSome
      cases hSome
    · rintro ⟨write, hWrite, hCreated⟩
      cases write with
      | conversation created => exact ⟨created, hWrite, by simpa using hCreated⟩
      | _ => cases hCreated
  | cons write first ih =>
    subst hSplit
    rw [List.cons_append, mints, and_eq_true] at h
    have hRest := ih h.2 rfl
    rwa [List.append_assoc, List.singleton_append] at hRest

theorem mints_conversation {before : List Write} (h : mints m bound next before writes) {first after : List Write}
    {value : ConversationRecord} (hSplit : writes = first ++ .conversation value :: after) :
    (∀ earlier, Write.entry earlier ∈ before ++ first → earlier.conversationId ≠ value.id) ∧
      ∀ parent, value.parent = some parent →
        m.conversations.lookup parent.conversationId ≠ none ∧ parent.atEntry < bound := by
  induction first generalizing writes before with
  | nil =>
    subst hSplit
    simp only [mints, mintsWrite, List.nil_append, and_eq_true, List.all_eq_true] at h
    obtain ⟨⟨hOrder, hParent⟩, -⟩ := h
    rw [List.append_nil]
    refine ⟨fun earlier hEarlier => by simpa using hOrder _ hEarlier, fun parent hFork => ?_⟩
    rw [hFork] at hParent
    simp only [all_some, and_eq_true, decide_eq_true_eq] at hParent
    exact ⟨isSome_iff_ne_none.mp hParent.1, hParent.2⟩
  | cons write first ih =>
    subst hSplit
    rw [List.cons_append, mints, and_eq_true] at h
    have hRest := ih h.2 rfl
    rwa [List.append_assoc, List.singleton_append] at hRest

theorem Minted.of_mints (h : mints m bound next [] writes) :
    Minted m bound next writes where
  entry _ _ _ hSplit := mints_entry h hSplit
  conversation _ _ _ hSplit := mints_conversation h hSplit

/-! What a conversation sees. -/

/-- An entry that a conversation sees. -/
def Visible (m : Memory) (conversationId : Nat) (entry : EntryRecord) : Prop :=
  m.entries.lookup entry.id = some entry ∧ Sees m.conversations conversationId entry.conversationId entry.id

/-- The newest entry of a kind that a conversation sees, or none. -/
def Newest (m : Memory) (conversationId : Nat) (P : EntryRecord → Bool) : Option EntryRecord → Prop
  | some entry => Visible m conversationId entry ∧ P entry ∧
      ∀ other, Visible m conversationId other → P other → other.id ≤ entry.id
  | none => ∀ other, Visible m conversationId other → P other = false

theorem Newest.unique {conversationId : Nat} {first second : Option EntryRecord}
    (h : Newest m conversationId P first) (h' : Newest m conversationId P second) : first = second := by
  cases first with
  | none =>
    cases second with
    | none => rfl
    | some entry =>
      have hNone := h entry h'.1
      rw [h'.2.1] at hNone
      cases hNone
  | some entry =>
    cases second with
    | none =>
      have hNone := h' entry h.1
      rw [h.2.1] at hNone
      cases hNone
    | some other =>
      have hSame : entry.id = other.id := Nat.le_antisymm (h'.2.2 entry h.1 h.2.1) (h.2.2 other h'.1 h'.2.1)
      have hStored := h.1.1
      rw [hSame, h'.1.1] at hStored
      exact hStored.symm

/-- A storage that sessions have written. -/
structure Good (m : Memory) (bound : Nat) : Prop where
  agree : ∃ d, Agree m d
  grounded : Grounded m.conversations
  entries : ∀ id entry, m.entries.lookup id = some entry →
    entry.id = id ∧ id < bound ∧ m.conversations.lookup entry.conversationId ≠ none
  forks : ∀ id record parent, m.conversations.lookup id = some record → record.parent = some parent → parent.atEntry < bound
  forked : ForkedBefore m.conversations m.entries

theorem good_empty (bound : Nat) : Good {} bound where
  agree := ⟨{}, .empty⟩
  grounded id hStored := absurd rfl hStored
  entries _ _ h := by cases h
  forks _ _ _ h := by cases h
  forked _ _ _ _ h := by cases h

theorem Good.parent (h : Good m bound) {record : ConversationRecord} {parent : Parent}
    (hRecord : m.conversations.lookup id = some record) (hParent : record.parent = some parent) :
    m.conversations.lookup parent.conversationId ≠ none := by
  obtain ⟨steps, hRooted⟩ := h.grounded id (by rw [hRecord]; exact some_ne_none _)
  obtain ⟨depth, -, hRest⟩ := Rooted.of_fork hRooted hRecord hParent
  obtain ⟨found, hFound⟩ := hRest.lookup
  rw [hFound]
  exact some_ne_none _

section Step

variable {m next : Memory} {bound later : Nat} {writes : List Write} (hGood : Good m bound) (hStores : Stores m next writes)
  (hMinted : Minted m bound later writes)

include hStores

variable {id entryId owner : Nat}

theorem stays_rooted {steps : Nat} (h : View.Rooted m.conversations steps id) : View.Rooted next.conversations steps id := by
  induction steps generalizing id with
  | zero =>
    obtain ⟨record, hRecord, hRoot⟩ := h
    exact ⟨record, grows_some (hStores.conversations id) hRecord, hRoot⟩
  | succ steps ih =>
    obtain ⟨record, parent, hRecord, hParent, hRest⟩ := h
    exact ⟨record, parent, grows_some (hStores.conversations id) hRecord, hParent, ih hRest⟩

theorem stays_seen (h : Sees m.conversations id owner entryId) :
    Sees next.conversations id owner entryId := by
  induction h with
  | own id entryId => exact .own id entryId
  | inherited hLookup hParent hPoint _ ih =>
    exact .inherited (grows_some (hStores.conversations _) hLookup) hParent hPoint ih

theorem stays_visible (h : Visible m id entry) : Visible next id entry :=
  ⟨grows_some (hStores.entries entry.id) h.1, stays_seen hStores h.2⟩

include hGood hMinted

theorem fork_below {record : ConversationRecord} {parent : Parent}
    (hRecord : next.conversations.lookup id = some record) (hParent : record.parent = some parent) :
    parent.atEntry < bound := by
  rcases hStores.conversations id with hSame | ⟨-, value, hValue, -, hWrite⟩
  · rw [hSame] at hRecord
    exact hGood.forks id record parent hRecord hParent
  · rw [hRecord] at hValue
    obtain rfl := some.inj hValue
    obtain ⟨before, after, hSplit⟩ := List.append_of_mem hWrite
    exact ((hMinted.conversation before record after hSplit).2 parent hParent).2

theorem owner_of_new (h : Sees next.conversations id owner entryId) (hNew : bound ≤ entryId) :
    owner = id := by
  cases h with
  | own => rfl
  | inherited hLookup hParent hPoint _ =>
    have hBelow := fork_below hGood hStores hMinted hLookup hParent
    omega

omit hMinted in
theorem seen_before (h : Sees next.conversations id owner entryId)
    (hStored : m.conversations.lookup id ≠ none) : Sees m.conversations id owner entryId := by
  induction h with
  | own id entryId => exact .own id entryId
  | @inherited id owner entryId record parent hLookup hParent hPoint _ ih =>
    obtain ⟨old, hOld⟩ := ne_none_iff_exists'.mp hStored
    have hSame := grows_some (hStores.conversations id) hOld
    rw [hLookup] at hSame
    obtain rfl := some.inj hSame
    exact .inherited hOld hParent hPoint (ih (hGood.parent hOld hParent))

theorem visible_cases (h : Visible next id entry) :
    m.entries.lookup entry.id = some entry ∧ entry.id < bound ∨
      Write.entry entry ∈ writes ∧ bound ≤ entry.id ∧ entry.conversationId = id := by
  rcases hStores.entries entry.id with hSame | ⟨-, value, hValue, -, hWrite⟩
  · have hOld := h.1
    rw [hSame] at hOld
    exact .inl ⟨hOld, (hGood.entries entry.id entry hOld).2.1⟩
  · have hFound := h.1
    rw [hValue] at hFound
    obtain rfl := some.inj hFound
    obtain ⟨before, after, hSplit⟩ := List.append_of_mem hWrite
    have hNew := (hMinted.entry before value after hSplit).1
    exact .inr ⟨hWrite, hNew, owner_of_new hGood hStores hMinted h.2 hNew⟩

theorem visible_untouched (hStored : m.conversations.lookup id ≠ none) (hOther : touches writes id = false)
    (entry : EntryRecord) : Visible next id entry ↔ Visible m id entry := by
  constructor
  · intro h
    rcases visible_cases hGood hStores hMinted h with ⟨hOld, -⟩ | ⟨hWrite, -, hOwn⟩
    · exact ⟨hOld, seen_before hGood hStores h.2 hStored⟩
    · have hNone := List.any_eq_false.mp hOther _ hWrite
      simp [hOwn] at hNone
  · exact stays_visible hStores

theorem newest_untouched (hStored : m.conversations.lookup id ≠ none) (hOther : touches writes id = false)
    (P : EntryRecord → Bool) (found : Option EntryRecord) : Newest next id P found ↔ Newest m id P found := by
  have hVisible := visible_untouched hGood hStores hMinted hStored hOther
  cases found with
  | none => simp only [Newest, hVisible]
  | some entry => simp only [Newest, hVisible]

theorem good_commit (hNext : ∃ d, Agree next d) (hBound : bound ≤ later) : Good next later where
  agree := hNext
  grounded id hStored := by
    obtain ⟨record, hRecord⟩ := ne_none_iff_exists'.mp hStored
    rcases hStores.conversations id with hSame | ⟨-, value, hValue, -, hWrite⟩
    · rw [hSame] at hStored
      obtain ⟨steps, hRooted⟩ := hGood.grounded id hStored
      exact ⟨steps, stays_rooted hStores hRooted⟩
    · cases hParent : value.parent with
      | none => exact ⟨0, value, hValue, hParent⟩
      | some parent =>
        obtain ⟨before, after, hSplit⟩ := List.append_of_mem hWrite
        obtain ⟨steps, hRooted⟩ :=
          hGood.grounded parent.conversationId ((hMinted.conversation before value after hSplit).2 parent hParent).1
        exact ⟨steps + 1, value, parent, hValue, hParent, stays_rooted hStores hRooted⟩
  entries id entry hEntry := by
    rcases hStores.entries id with hSame | ⟨-, value, hValue, hId, hWrite⟩
    · rw [hSame] at hEntry
      obtain ⟨hId, hLess, hOwner⟩ := hGood.entries id entry hEntry
      exact ⟨hId, by omega, Grows.kept (hStores.conversations entry.conversationId) hOwner⟩
    · rw [hEntry] at hValue
      obtain rfl := some.inj hValue
      obtain ⟨before, after, hSplit⟩ := List.append_of_mem hWrite
      obtain ⟨-, hLess, -, hOwner⟩ := hMinted.entry before entry after hSplit
      refine ⟨hId, hId ▸ hLess, ?_⟩
      rcases hOwner with hOwner | ⟨created, hCreated, hOwn⟩
      · exact Grows.kept (hStores.conversations entry.conversationId) hOwner
      · rw [← hOwn, (hStores.created created (hSplit ▸ List.mem_append_left _ hCreated)).2]
        exact some_ne_none _
  forks id record parent hRecord hParent := Nat.lt_of_lt_of_le (fork_below hGood hStores hMinted hRecord hParent) hBound
  forked id entry record parent hEntry hOwner hParent := by
    rcases hStores.entries id with hSame | ⟨-, value, hValue, hId, hWrite⟩
    · rw [hSame] at hEntry
      obtain ⟨old, hOld⟩ := ne_none_iff_exists'.mp (hGood.entries id entry hEntry).2.2
      have hKept := grows_some (hStores.conversations entry.conversationId) hOld
      rw [hOwner] at hKept
      obtain rfl := some.inj hKept
      exact hGood.forked id entry record parent hEntry hOld hParent
    · rw [hEntry] at hValue
      obtain rfl := some.inj hValue
      obtain ⟨before, after, hSplit⟩ := List.append_of_mem hWrite
      have hNew := (hMinted.entry before entry after hSplit).1
      have hBelow := fork_below hGood hStores hMinted hOwner hParent
      omega

/-! What a publication puts. -/

omit hGood hStores hMinted in
theorem last_put {α κ β : Type} [DecidableEq κ] (f : α → Option (κ × β)) {xs : List α} {key : κ} {value : β}
    (h : (xs.filterMap f).reverse.lookup key = some value) :
    ∃ before x after, xs = before ++ x :: after ∧ f x = some (key, value) ∧ ∀ y ∈ after, ∀ other, f y ≠ some (key, other) := by
  induction xs with
  | nil => cases h
  | cons x rest ih =>
    cases hRest : (rest.filterMap f).reverse.lookup key with
    | some found =>
      have hFound : (((x :: rest).filterMap f).reverse).lookup key = some found := by
        cases hPut : f x with
        | none => rw [List.filterMap_cons_none hPut, hRest]
        | some put => rw [List.filterMap_cons_some hPut, List.reverse_cons, lookup_append, hRest, some_or]
      rw [h] at hFound
      obtain ⟨before, y, after, hSplit, hPut, hLast⟩ := ih (hRest.trans hFound.symm)
      exact ⟨x :: before, y, after, by rw [hSplit, List.cons_append], hPut, hLast⟩
    | none =>
      refine ⟨[], x, rest, rfl, ?_, fun y hy other hOther => ?_⟩
      · cases hPut : f x with
        | none =>
          rw [List.filterMap_cons_none hPut, hRest] at h
          cases h
        | some put =>
          rw [List.filterMap_cons_some hPut, List.reverse_cons, lookup_append, hRest, none_or,
            lookup_cons] at h
          split_ifs at h with hKey
          · rw [← some.inj h, hKey]
          · cases h
      · rw [lookup_eq_none_iff] at hRest
        refine hRest (List.mem_map.mpr ⟨(key, other), ?_, rfl⟩)
        exact List.mem_reverse.mpr (List.mem_filterMap.mpr ⟨y, hy, hOther⟩)

omit hGood hStores hMinted in
theorem no_put {α κ β : Type} [DecidableEq κ] (f : α → Option (κ × β)) {xs : List α} {key : κ}
    (h : (xs.filterMap f).reverse.lookup key = none) : ∀ x ∈ xs, ∀ value, f x ≠ some (key, value) := by
  intro x hx value hPut
  rw [lookup_eq_none_iff] at h
  exact h (List.mem_map.mpr ⟨(key, value), List.mem_reverse.mpr (List.mem_filterMap.mpr ⟨x, hx, hPut⟩), rfl⟩)

/-- What a write puts in the map of the newest entries of a kind. -/
def put (P : EntryRecord → Bool) : Write → Option (Nat × Option EntryRecord)
  | .conversation value => if value.parent.isSome then none else some (value.id, none)
  | .entry value => if P value then some (value.conversationId, some value) else none
  | _ => none

omit hGood hStores hMinted in
theorem put_entry (hKind : P entry) : put P (.entry entry) = some (entry.conversationId, some entry) := by
  rw [put, if_pos hKind]

theorem newest_put (h : (writes.filterMap (put P)).reverse.lookup id = some found) :
    next.conversations.lookup id ≠ none ∧ Newest next id P found := by
  obtain ⟨before, write, after, hSplit, hPut, hLast⟩ := last_put (put P) h
  have hMem : write ∈ writes := hSplit ▸ List.mem_append_right _ List.mem_cons_self
  cases write with
  | entry value =>
    rw [put] at hPut
    split_ifs at hPut with hKind
    obtain ⟨rfl, rfl⟩ := Prod.mk.inj (some.inj hPut)
    obtain ⟨hNew, -, hOrder, hOwner⟩ := hMinted.entry before value after hSplit
    refine ⟨?_, ⟨hStores.appended value hMem, .own _ _⟩, hKind, fun other hOther hOtherKind => ?_⟩
    · rcases hOwner with hOwner | ⟨created, hCreated, hOwn⟩
      · exact Grows.kept (hStores.conversations value.conversationId) hOwner
      · rw [← hOwn, (hStores.created created (hSplit ▸ List.mem_append_left _ hCreated)).2]
        exact some_ne_none _
    · rcases visible_cases hGood hStores hMinted hOther with ⟨-, hOld⟩ | ⟨hWrite, -, hOwn⟩
      · omega
      · rw [hSplit] at hWrite
        rcases List.mem_append.mp hWrite with hBefore | hRest
        · exact Nat.le_of_lt (hOrder other hBefore)
        · obtain hSame | hAfter := List.mem_cons.mp hRest
          · rw [Write.entry.inj hSame]
          · exact absurd (hOwn ▸ put_entry hOtherKind) (hLast _ hAfter _)
  | conversation value =>
    rw [put] at hPut
    split_ifs at hPut with hFork
    obtain ⟨rfl, rfl⟩ := Prod.mk.inj (some.inj hPut)
    obtain ⟨hFresh, hStored⟩ := hStores.created value hMem
    have hRoot : value.parent = none := by simpa using hFork
    refine ⟨by rw [hStored]; exact some_ne_none _, fun other hOther => ?_⟩
    have hOwn := (sees_root hStored hRoot other.conversationId other.id).mp hOther.2
    rcases visible_cases hGood hStores hMinted hOther with ⟨hOld, -⟩ | ⟨hWrite, -, -⟩
    · -- nothing was appended to a conversation before it was created
      exact absurd (hOwn ▸ hFresh) (hGood.entries other.id other hOld).2.2
    · rw [hSplit] at hWrite
      rcases List.mem_append.mp hWrite with hBefore | hRest
      · exact absurd hOwn ((hMinted.conversation before value after hSplit).1 other hBefore)
      · obtain hSame | hAfter := List.mem_cons.mp hRest
        · cases hSame
        · by_contra hKind
          exact hLast _ hAfter _ (hOwn ▸ put_entry (by simpa using hKind))
  | _ => cases hPut

theorem newest_kept (h : (writes.filterMap (put P)).reverse.lookup id = none) (hStored : m.conversations.lookup id ≠ none)
    (hNewest : Newest m id P found) : Newest next id P found := by
  have hOld : ∀ other, Visible next id other → P other → Visible m id other := by
    intro other hOther hKind
    rcases visible_cases hGood hStores hMinted hOther with ⟨hOld, -⟩ | ⟨hWrite, -, hOwn⟩
    · exact ⟨hOld, seen_before hGood hStores hOther.2 hStored⟩
    · exact absurd (hOwn ▸ put_entry hKind) (no_put (put P) h _ hWrite _)
  cases found with
  | some entry =>
    exact ⟨stays_visible hStores hNewest.1, hNewest.2.1,
      fun other hOther hKind => hNewest.2.2 other (hOld other hOther hKind) hKind⟩
  | none =>
    intro other hOther
    by_contra hKind
    rw [not_eq_false] at hKind
    rw [hNewest other (hOld other hOther hKind)] at hKind
    cases hKind

end Step

def isEntry (_ : EntryRecord) : Bool :=
  true

def isMarker (entry : EntryRecord) : Bool :=
  entry.head.isSome

/-- What the tails hold is so in a storage. -/
structure Exact (m : Memory) (tails : ConversationTails) : Prop where
  latest : ∀ id latest, tails.latest.held id = some latest →
    m.conversations.lookup id ≠ none ∧ ∃ found, Newest m id isEntry found ∧ latest = found.map EntryRecord.id
  markers : ∀ id marker, tails.markers.held id = some marker →
    m.conversations.lookup id ≠ none ∧ Newest m id isMarker marker

theorem exact_empty (m : Memory) : Exact m {} where
  latest _ _ hHeld := by cases hHeld
  markers _ _ hHeld := by cases hHeld

theorem apply_markers (tails : ConversationTails) (writes : List Write) :
    (tails.apply writes).markers = tails.markers.sets (writes.filterMap (put isMarker)) := by
  induction writes generalizing tails with
  | nil => rfl
  | cons write rest ih =>
    have hRest := ih (tails.applyWrite write)
    cases write with
    | conversation value =>
      by_cases hFork : value.parent.isSome
      · simpa [ConversationTails.apply, ConversationTails.applyWrite, put, hFork] using hRest
      · simpa [ConversationTails.apply, ConversationTails.applyWrite, put, hFork, Lru.sets] using hRest
    | entry value =>
      by_cases hMarker : value.head.isSome
      · simpa [ConversationTails.apply, ConversationTails.applyWrite, put, isMarker, hMarker, Lru.sets] using hRest
      · simpa [ConversationTails.apply, ConversationTails.applyWrite, put, isMarker, hMarker] using hRest
    | _ => exact hRest

theorem apply_latest (tails : ConversationTails) (writes : List Write) :
    (tails.apply writes).latest =
      tails.latest.sets ((writes.filterMap (put isEntry)).map fun entry => (entry.1, entry.2.map EntryRecord.id)) := by
  induction writes generalizing tails with
  | nil => rfl
  | cons write rest ih =>
    have hRest := ih (tails.applyWrite write)
    cases write with
    | conversation value =>
      by_cases hFork : value.parent.isSome
      · simpa [ConversationTails.apply, ConversationTails.applyWrite, put, hFork] using hRest
      · simpa [ConversationTails.apply, ConversationTails.applyWrite, put, hFork, Lru.sets] using hRest
    | entry value => simpa [ConversationTails.apply, ConversationTails.applyWrite, put, isEntry, Lru.sets] using hRest
    | _ => exact hRest

theorem lookup_map_values {α β : Type} (f : α → β) (entries : List (Nat × α)) (key : Nat) :
    (entries.map fun entry => (entry.1, f entry.2)).lookup key = (entries.lookup key).map f := by
  induction entries with
  | nil => rfl
  | cons entry rest ih =>
    rw [List.map_cons, lookup_cons, lookup_cons, ih]
    split_ifs <;> rfl

variable {m final published : Memory} {bound later last : Nat} {writes : List Write} {s next : State}

theorem Exact.apply {next : Memory}
    (h : Exact m tails) (hGood : Good m bound) (hStores : Stores m next writes) (hMinted : Minted m bound later writes) :
    Exact next (tails.apply writes) where
  latest id latest hHeld := by
    rw [apply_latest] at hHeld
    rcases Lru.held_sets hHeld with hPut | ⟨hNone, hOld⟩
    · rw [← List.map_reverse, lookup_map_values] at hPut
      obtain ⟨found, hFound, rfl⟩ := map_eq_some_iff.mp hPut
      obtain ⟨hStored, hNewest⟩ := newest_put hGood hStores hMinted hFound
      exact ⟨hStored, found, hNewest, rfl⟩
    · rw [← List.map_reverse, lookup_map_values, map_eq_none_iff] at hNone
      obtain ⟨hStored, found, hNewest, hLatest⟩ := h.latest id latest hOld
      exact ⟨Grows.kept (hStores.conversations id) hStored, found,
        newest_kept hGood hStores hMinted hNone hStored hNewest, hLatest⟩
  markers id marker hHeld := by
    rw [apply_markers] at hHeld
    rcases Lru.held_sets hHeld with hPut | ⟨hNone, hOld⟩
    · exact newest_put hGood hStores hMinted hPut
    · obtain ⟨hStored, hNewest⟩ := h.markers id marker hOld
      exact ⟨Grows.kept (hStores.conversations id) hStored, newest_kept hGood hStores hMinted hNone hStored hNewest⟩

/-! Batches that are stored and not published. -/

/-- A storage that some batches lead to. -/
inductive Behind : Memory → Nat → List (List Write) → Memory → Nat → Prop where
  | nil (m : Memory) (bound : Nat) : Behind m bound [] m bound
  | cons {m next final : Memory} {bound later last : Nat} {writes : List Write} {rest : List (List Write)}
      (hBound : bound ≤ later) (hMinted : Minted m bound later writes) (hCommit : m.commitBatch writes = .ok next)
      (hRest : Behind next later rest final last) : Behind m bound (writes :: rest) final last

theorem Behind.snoc {next : Memory} (h : Behind m bound batches final last) (hBound : last ≤ later)
    (hMinted : Minted final last later writes) (hCommit : final.commitBatch writes = .ok next) :
    Behind m bound (batches ++ [writes]) next later := by
  induction h with
  | nil m bound => exact .cons hBound hMinted hCommit (.nil next later)
  | cons hFirst hBatch hOk _ ih => exact .cons hFirst hBatch hOk (ih hBound hMinted hCommit)

theorem Good.commit {next : Memory} (h : Good m bound) (hBound : bound ≤ later)
    (hMinted : Minted m bound later writes) (hCommit : m.commitBatch writes = .ok next) :
    Stores m next writes ∧ Good next later := by
  obtain ⟨d, hAgree⟩ := h.agree
  obtain ⟨hStores, hNext⟩ := Stores.commitBatch hAgree hCommit
  exact ⟨hStores, good_commit h hStores hMinted hNext hBound⟩

theorem Behind.good (h : Behind m bound batches final last) (hGood : Good m bound) : Good final last := by
  induction h with
  | nil => exact hGood
  | cons hBound hMinted hCommit _ ih => exact ih (hGood.commit hBound hMinted hCommit).2

theorem Behind.untouched (h : Behind m bound batches final last) (hGood : Good m bound)
    (hOther : ∀ writes ∈ batches, touches writes id = false) :
    (final.conversations.lookup id ≠ none ↔ m.conversations.lookup id ≠ none) ∧
      (m.conversations.lookup id ≠ none →
        ∀ P found, Newest final id P found ↔ Newest m id P found) := by
  induction h with
  | nil => exact ⟨Iff.rfl, fun _ _ _ => Iff.rfl⟩
  | @cons m next final bound later last writes rest hBound hMinted hCommit _ ih =>
    obtain ⟨hStores, hNext⟩ := hGood.commit hBound hMinted hCommit
    obtain ⟨hFirst, hRest⟩ := List.forall_mem_cons.mp hOther
    obtain ⟨hSame, hNewest⟩ := ih hNext hRest
    have hStored : next.conversations.lookup id ≠ none ↔ m.conversations.lookup id ≠ none := by
      rcases hStores.conversations id with hKept | ⟨-, value, -, rfl, hWrite⟩
      · rw [hKept]
      · have hNone := List.any_eq_false.mp hFirst _ hWrite
        simp at hNone
    refine ⟨hSame.trans hStored, fun hOld P found => ?_⟩
    rw [hNewest (hStored.mpr hOld)]
    exact newest_untouched hGood hStores hMinted hOld hFirst P found

/-! Reads of the storage. -/

theorem newest_find {id : Nat} {P Q : EntryRecord → Bool} {entries : List EntryRecord}
    (hSorted : entries.Pairwise fun a b => b.id < a.id) (hMem : ∀ entry, entry ∈ entries ↔ Visible m id entry ∧ Q entry) :
    Newest m id (fun entry => P entry && Q entry) (entries.find? P) := by
  cases hFind : entries.find? P with
  | none =>
    intro other hOther
    by_contra hKind
    rw [not_eq_false, and_eq_true] at hKind
    exact List.find?_eq_none.mp hFind other ((hMem other).mpr ⟨hOther, hKind.2⟩) hKind.1
  | some entry =>
    obtain ⟨hVisible, hQ⟩ := (hMem entry).mp (List.mem_of_find?_eq_some hFind)
    refine ⟨hVisible, Bool.and_eq_true_iff.mpr ⟨List.find?_some hFind, hQ⟩, fun other hOther hKind => ?_⟩
    rw [and_eq_true] at hKind
    obtain ⟨hFirst, before, after, hSplit, hNone⟩ := List.find?_eq_some_iff_append.mp hFind
    have hIn := (hMem other).mpr ⟨hOther, hKind.2⟩
    rw [hSplit] at hIn hSorted
    rcases List.mem_append.mp hIn with hBefore | hRest
    · have hNot := hNone other hBefore
      rw [hKind.1] at hNot
      cases hNot
    · obtain rfl | hAfter := List.mem_cons.mp hRest
      · exact Nat.le_refl _
      · exact Nat.le_of_lt ((List.pairwise_cons.mp (List.pairwise_append.mp hSorted).2.1).1 other hAfter)

/-- The visible entries of a stored conversation, in the rows of the storage. -/
theorem Good.rows (h : Good m bound) (hAgree : Agree m d) (hStored : m.conversations.lookup id ≠ none) (upper : Option Int) :
    (((View.visible d id none upper).map StoredEntry.entry).Pairwise fun a b => b.id < a.id) ∧
      ∀ entry, entry ∈ (View.visible d id none upper).map StoredEntry.entry ↔
        Visible m id entry ∧ (upper.all fun bound => (entry.id : Int) ≤ bound) := by
  have hNamed := hAgree.stored.kept.entries
  have hSame : ∀ id, m.conversations.lookup id = d.conversations.lookup id := hAgree.mirror.conversations
  have hRows : ∀ id row record parent, d.entries.lookup id = some row →
      d.conversations.lookup row.entry.conversationId = some record → record.parent = some parent →
      parent.atEntry < id := by
    intro id row record parent hRow hOwner hParent
    refine h.forked id row.entry record parent ?_ (hSame _ ▸ hOwner) hParent
    rw [hAgree.mirror.entries, hRow]
    rfl
  have hForest := h.grounded.forest hAgree.mirror.conversations
  rw [hSame] at hStored
  obtain ⟨record, hRecord⟩ := ne_none_iff_exists'.mp hStored
  obtain ⟨steps, hSteps, hRooted⟩ := hForest id hStored
  have hFuel : steps < d.chainFuel := Nat.lt_succ_of_lt hSteps
  constructor
  · rw [List.pairwise_map]
    exact descending_chain hNamed hRows none hRooted hFuel hRecord upper
  · intro entry
    have hRange : inRange none upper entry.id ↔ (upper.all fun bound => decide ((entry.id : Int) ≤ bound)) = true := by
      cases upper <;> simp [inRange]
    rw [← hRange, Visible, hAgree.mirror.entries, List.mem_map]
    have hSees : Sees m.conversations id entry.conversationId entry.id ↔
        Sees d.conversations id entry.conversationId entry.id :=
      ⟨fun hSees => hSees.of_same hSame, fun hSees => hSees.of_same fun id => (hSame id).symm⟩
    rw [hSees]
    constructor
    · rintro ⟨row, hRow, rfl⟩
      obtain ⟨hLookup, hSeen, hIn⟩ := (mem_chain hNamed none hRooted hFuel hRecord row upper).mp hRow
      exact ⟨⟨by rw [hLookup]; rfl, hSeen⟩, hIn⟩
    · rintro ⟨⟨hLookup, hSeen⟩, hIn⟩
      obtain ⟨row, hRow, rfl⟩ := map_eq_some_iff.mp hLookup
      exact ⟨row, (mem_chain hNamed none hRooted hFuel hRecord row upper).mpr ⟨hRow, hSeen, hIn⟩, rfl⟩

theorem Good.scan_rows (h : Good m bound) (hAgree : Agree m d) (id : Nat) :
    m.scanEntries { conversationId := id } 1 none =
      View.ofConversation d id
        (page EntryRecord.id (((View.visible d id none none).map StoredEntry.entry).take 2) 1 .descending) :=
  map_inj (fun _ _ => ReadResult.entries.inj) (Memory.read_eq_view hAgree.mirror hAgree.current hAgree.stored.kept
    (.scanEntries { conversationId := id } 1 none) (by simp [Read.namesRequest])
    fun _ => h.grounded.forest hAgree.mirror.conversations)

theorem Good.scan (h : Good m bound) (hStored : m.conversations.lookup id ≠ none) :
    ∃ page, m.scanEntries { conversationId := id } 1 none = .ok page ∧ Newest m id isEntry page.items.head? := by
  obtain ⟨d, hAgree⟩ := h.agree
  obtain ⟨hSorted, hMem⟩ := h.rows hAgree hStored none
  have hNewest := @newest_find m id (fun _ => true) (fun _ => true) _ hSorted fun entry => by simpa using hMem entry
  rw [h.scan_rows hAgree, View.ofConversation, ← hAgree.mirror.conversations,
    if_neg (by simpa [isNone_iff_eq_none] using hStored)]
  generalize (View.visible d id none none).map StoredEntry.entry = entries at hNewest
  cases entries with
  | nil => exact ⟨_, rfl, hNewest⟩
  | cons first rest =>
    cases rest with
    | nil => exact ⟨_, rfl, hNewest⟩
    | cons second rest => exact ⟨_, rfl, hNewest⟩

theorem Good.stored_of_scan (h : Good m bound) {page : Page EntryRecord}
    (hScan : m.scanEntries { conversationId := id } 1 none = .ok page) : m.conversations.lookup id ≠ none := by
  intro hNone
  obtain ⟨d, hAgree⟩ := h.agree
  rw [h.scan_rows hAgree, View.ofConversation, ← hAgree.mirror.conversations, hNone] at hScan
  cases hScan

/-- The kind of entry that a read looks for. -/
def Query.keeps : Query → EntryRecord → Bool
  | .latest => isEntry
  | .marker atOrBefore => fun entry => isMarker entry && atOrBefore.all fun bound => entry.id ≤ bound

theorem Good.findHead (h : Good m bound) (hStored : m.conversations.lookup id ≠ none) (atOrBefore : Option Nat) :
    ∃ found, m.findLatestHeadMarker id atOrBefore = .ok found ∧ Newest m id (Query.marker atOrBefore).keeps found := by
  obtain ⟨d, hAgree⟩ := h.agree
  have hForest := h.grounded.forest hAgree.mirror.conversations
  obtain ⟨hSorted, hMem⟩ := h.rows hAgree hStored (atOrBefore.map Int.ofNat)
  have hRead := map_inj (fun _ _ => ReadResult.head.inj) (Memory.read_eq_view hAgree.mirror hAgree.current
    hAgree.stored.kept (.findLatestHeadMarker id atOrBefore) (by simp [Read.namesRequest]) fun _ => hForest)
  refine ⟨((View.visible d id none (atOrBefore.map Int.ofNat)).map StoredEntry.entry).find? isMarker, ?_, ?_⟩
  · refine hRead.trans ?_
    rw [View.ofConversation, ← hAgree.mirror.conversations, if_neg (by simpa [isNone_iff_eq_none] using hStored)]
    rfl
  · refine newest_find hSorted fun entry => ?_
    rw [hMem]
    cases atOrBefore <;> simp

/-- A call that reads, in the storage of the published batches. -/
structure LoadFits (published : Memory) (unpublished : List (List Write)) (load : Load) : Prop where
  untouched : ∀ writes ∈ unpublished, touches writes load.conversationId = false
  latest : ∀ latest, load.latest = some latest → published.conversations.lookup load.conversationId ≠ none ∧
    ∃ found, Newest published load.conversationId isEntry found ∧ latest = found.map EntryRecord.id
  found : ∀ found, load.found = some found →
    published.conversations.lookup load.conversationId ≠ none ∧
      Newest published load.conversationId load.query.keeps found

/-- The tails are exact for the published batches, and every call reads a conversation
that no other batch touches. -/
structure Inv (s : State) (published : Memory) (bound : Nat) : Prop where
  good : Good published bound
  behind : Behind published bound s.unpublished s.storage s.bound
  exact : Exact published s.tails
  loads : ∀ load ∈ s.loads, LoadFits published s.unpublished load

theorem Exact.touchLatest (h : Exact m tails) (id : Nat) :
    Exact m { tails with latest := tails.latest.touch id } where
  latest other latest hHeld := h.latest other latest (by rwa [Lru.held_touch] at hHeld)
  markers := h.markers

theorem Exact.touchMarker (h : Exact m tails) (id : Nat) :
    Exact m { tails with markers := tails.markers.touch id } where
  latest := h.latest
  markers other marker hHeld := h.markers other marker (by rwa [Lru.held_touch] at hHeld)

theorem Exact.setLatest (h : Exact m tails) (hStored : m.conversations.lookup id ≠ none) (hNewest : Newest m id isEntry found) :
    Exact m { tails with latest := tails.latest.set id (found.map EntryRecord.id) } where
  latest other latest hHeld := by
    rcases Lru.held_set hHeld with ⟨rfl, rfl⟩ | ⟨-, hOld⟩
    · exact ⟨hStored, found, hNewest, rfl⟩
    · exact h.latest other latest hOld
  markers := h.markers

theorem Exact.setMarker (h : Exact m tails)
    (hStored : m.conversations.lookup id ≠ none) (hNewest : Newest m id isMarker found) :
    Exact m { tails with markers := tails.markers.set id found } where
  latest := h.latest
  markers other marker hHeld := by
    rcases Lru.held_set hHeld with ⟨rfl, rfl⟩ | ⟨-, hOld⟩
    · exact ⟨hStored, hNewest⟩
    · exact h.markers other marker hOld

theorem newest_uncut {id : Nat} {newest found : Option EntryRecord} (hNewest : Newest m id isEntry newest)
    (hCut : (newest.map EntryRecord.id).getD 0 ≤ bound) (hFound : Newest m id (Query.marker (some bound)).keeps found) :
    Newest m id isMarker found := by
  have hBelow : ∀ other, Visible m id other → other.id ≤ bound := by
    intro other hOther
    cases newest with
    | none =>
      have hNone := hNewest other hOther
      cases hNone
    | some entry => exact Nat.le_trans (hNewest.2.2 other hOther rfl) hCut
  have hKeeps : ∀ other, Visible m id other → (Query.marker (some bound)).keeps other = isMarker other := by
    intro other hOther
    simp [Query.keeps, hBelow other hOther]
  cases found with
  | none => exact fun other hOther => (hKeeps other hOther).symm.trans (hFound other hOther)
  | some entry =>
    refine ⟨hFound.1, (hKeeps entry hFound.1).symm.trans hFound.2.1, fun other hOther hKind => ?_⟩
    exact hFound.2.2 other hOther ((hKeeps other hOther).trans hKind)

theorem Exact.keep {tails : ConversationTails} (h : Exact m tails) {unpublished : List (List Write)} {load : Load}
    (hLoad : LoadFits m unpublished load) {found : Option EntryRecord} (hFound : load.found = some found) :
    Exact m (State.keptTails tails load found) := by
  obtain ⟨hStored, hNewest⟩ := hLoad.found found hFound
  unfold State.keptTails
  split
  next hQuery =>
    rw [hQuery] at hNewest
    exact h.setLatest hStored hNewest
  next hQuery =>
    rw [hQuery] at hNewest
    refine h.setMarker hStored ?_
    have hSame : (Query.marker none).keeps = isMarker := funext fun entry => by simp [Query.keeps]
    rwa [hSame] at hNewest
  next bound hQuery =>
    rw [hQuery] at hNewest
    split_ifs with hCut
    · obtain ⟨latest, hLatest, hBelow⟩ := (any_eq_true _ _).mp hCut
      obtain ⟨-, newest, hEntries, rfl⟩ := hLoad.latest latest hLatest
      exact h.setMarker hStored (newest_uncut hEntries (by simpa using hBelow) hNewest)
    · exact h

section

variable (h : Inv s published bound)

include h

theorem Inv.storage
    (hOther : ∀ writes ∈ s.unpublished, touches writes id = false) (P : EntryRecord → Bool) (found : Option EntryRecord) :
    (s.storage.conversations.lookup id ≠ none ↔ published.conversations.lookup id ≠ none) ∧
      (published.conversations.lookup id ≠ none → (Newest s.storage id P found ↔ Newest published id P found)) := by
  obtain ⟨hStored, hNewest⟩ := h.behind.untouched h.good hOther
  exact ⟨hStored, fun hOld => hNewest hOld P found⟩

theorem Inv.commit (hStep : s.commit writes later = some next) : Inv next published bound := by
  unfold State.commit at hStep
  split_ifs at hStep with hGuard
  simp only [and_eq_true, decide_eq_true_eq] at hGuard
  obtain ⟨⟨hBound, hMints⟩, hFree⟩ := hGuard
  split at hStep
  next storage hCommit =>
    obtain rfl := some.inj hStep
    refine { h with behind := h.behind.snoc hBound (.of_mints hMints) hCommit, loads := fun load hLoad => ?_ }
    have hFits := h.loads load hLoad
    refine { hFits with untouched := fun batch hBatch => ?_ }
    rcases List.mem_append.mp hBatch with hOld | hNew
    · exact hFits.untouched batch hOld
    · rw [List.mem_singleton.mp hNew]
      simpa using List.all_eq_true.mp hFree load hLoad
  next => cases hStep

theorem Inv.publish (hStep : s.publish = some next) : ∃ published bound, Inv next published bound := by
  unfold State.publish at hStep
  split at hStep
  next writes rest hBatches =>
    obtain rfl := some.inj hStep
    have hBehind := h.behind
    rw [hBatches] at hBehind
    cases hBehind with
    | cons hBound hMinted hCommit hRest =>
      obtain ⟨hStores, hGood⟩ := h.good.commit hBound hMinted hCommit
      refine ⟨_, _, hGood, hRest, h.exact.apply h.good hStores hMinted, fun load hLoad => ?_⟩
      have hFits := h.loads load hLoad
      have hOther : touches writes load.conversationId = false := hFits.untouched writes (by rw [hBatches]; exact List.mem_cons_self)
      refine ⟨fun batch hBatch => hFits.untouched batch (by rw [hBatches]; exact List.mem_cons_of_mem _ hBatch),
        fun latest hLatest => ?_, fun found hFound => ?_⟩
      · obtain ⟨hStored, found, hNewest, hSame⟩ := hFits.latest latest hLatest
        exact ⟨Grows.kept (hStores.conversations _) hStored, found,
          (newest_untouched h.good hStores hMinted hStored hOther _ _).mpr hNewest, hSame⟩
      · obtain ⟨hStored, hNewest⟩ := hFits.found found hFound
        exact ⟨Grows.kept (hStores.conversations _) hStored,
          (newest_untouched h.good hStores hMinted hStored hOther _ _).mpr hNewest⟩
  next => cases hStep

theorem Inv.load {query : Query} (hStep : s.load id query = some next) : Inv next published bound := by
  unfold State.load at hStep
  split_ifs at hStep with hTouched
  have hOther : ∀ writes ∈ s.unpublished, touches writes id = false := by
    intro writes hWrites
    by_contra hTouch
    exact hTouched (List.any_eq_true.mpr ⟨writes, hWrites, by simpa using hTouch⟩)
  have hLoads : ∀ load, LoadFits published s.unpublished load →
      ∀ other ∈ s.loads ++ [load], LoadFits published s.unpublished other := by
    intro load hLoad other hMem
    rcases List.mem_append.mp hMem with hOld | hNew
    · exact h.loads other hOld
    · rw [List.mem_singleton.mp hNew]
      exact hLoad
  cases query with
  | latest =>
    dsimp only at hStep
    split at hStep
    · obtain rfl := some.inj hStep
      exact { h with exact := h.exact.touchLatest id }
    · obtain rfl := some.inj hStep
      exact { h with loads := hLoads _ ⟨hOther, fun _ hNone => (by cases hNone), fun _ hNone => (by cases hNone)⟩ }
  | marker atOrBefore =>
    dsimp only at hStep
    split at hStep
    · obtain rfl := some.inj hStep
      exact { h with exact := h.exact.touchMarker id }
    · obtain rfl := some.inj hStep
      exact { h with
        exact := h.exact.touchMarker id
        loads := hLoads _ ⟨hOther, fun latest hLatest => h.exact.latest id latest hLatest,
          fun _ hNone => (by cases hNone)⟩ }

theorem Inv.read {index : Nat} (hStep : s.read index = some next) : Inv next published bound := by
  have hGood := h.behind.good h.good
  unfold State.read at hStep
  split at hStep
  next load hLoad =>
    have hFits := h.loads load (List.mem_of_getElem? hLoad)
    have hErased : ∀ other ∈ s.loads.eraseIdx index, LoadFits published s.unpublished other :=
      fun other hOther => h.loads other (List.mem_of_mem_eraseIdx hOther)
    have hSet : ∀ found, s.storage.conversations.lookup load.conversationId ≠ none →
        Newest s.storage load.conversationId load.query.keeps found →
        ∀ other ∈ s.loads.set index { load with found := some found }, LoadFits published s.unpublished other := by
      intro found hStored hNewest other hOther
      rcases List.mem_or_eq_of_mem_set hOther with hOld | rfl
      · exact h.loads other hOld
      · refine { hFits with found := fun value hValue => ?_ }
        obtain rfl := some.inj hValue
        have hOld := (h.storage hFits.untouched load.query.keeps found).1.mp hStored
        exact ⟨hOld, ((h.storage hFits.untouched load.query.keeps found).2 hOld).mp hNewest⟩
    split at hStep
    next hQuery =>
      split at hStep
      next page hScan =>
        obtain rfl := some.inj hStep
        have hStored := hGood.stored_of_scan hScan
        obtain ⟨read, hRead, hNewest⟩ := hGood.scan hStored
        rw [hScan] at hRead
        obtain rfl := Except.ok.inj hRead
        exact { h with loads := hSet _ hStored (by rw [hQuery]; exact hNewest) }
      next =>
        obtain rfl := some.inj hStep
        exact { h with loads := hErased }
    next atOrBefore hQuery =>
      split at hStep
      next found hFind =>
        obtain rfl := some.inj hStep
        by_cases hStored : s.storage.conversations.lookup load.conversationId = none
        · rw [Memory.findLatestHeadMarker, hStored] at hFind
          cases hFind
        · obtain ⟨read, hRead, hNewest⟩ := hGood.findHead hStored atOrBefore
          rw [hFind] at hRead
          obtain rfl := Except.ok.inj hRead
          exact { h with loads := hSet _ hStored (by rw [hQuery]; exact hNewest) }
      next =>
        obtain rfl := some.inj hStep
        exact { h with loads := hErased }
  next => cases hStep

theorem Inv.keep {index : Nat} (hStep : s.keep index = some next) : Inv next published bound := by
  unfold State.keep at hStep
  split at hStep
  next load hLoad =>
    split at hStep
    next found hFound =>
      obtain rfl := some.inj hStep
      exact { h with
        exact := h.exact.keep (h.loads load (List.mem_of_getElem? hLoad)) hFound
        loads := fun other hOther => h.loads other (List.mem_of_mem_eraseIdx hOther) }
    next => cases hStep
  next => cases hStep

theorem Inv.reopen :
    Inv { s with unpublished := [], tails := {}, loads := [] } s.storage s.bound where
  good := h.behind.good h.good
  behind := .nil _ _
  exact := exact_empty _
  loads _ hLoad := by cases hLoad

end

theorem Inv.step {event : Event} (h : ∃ published bound, Inv s published bound)
    (hStep : s.step event = some next) : ∃ published bound, Inv next published bound := by
  obtain ⟨published, bound, hInv⟩ := h
  cases event with
  | commit writes later => exact ⟨published, bound, hInv.commit hStep⟩
  | publish => exact hInv.publish hStep
  | load id query => exact ⟨published, bound, hInv.load hStep⟩
  | read index => exact ⟨published, bound, hInv.read hStep⟩
  | keep index => exact ⟨published, bound, hInv.keep hStep⟩
  | reopen =>
    obtain rfl := some.inj hStep
    exact ⟨_, _, hInv.reopen⟩

theorem inv_opened : Inv opened {} 0 where
  good := good_empty 0
  behind := .nil _ _
  exact := exact_empty _
  loads _ hLoad := by cases hLoad

theorem inv_run {events : List Event} (hRun : opened.run events = some s) :
    ∃ published bound, Inv s published bound :=
  @Transition.invariant _ _ _ _ (fun _ => True) (fun _ _ _ _ hStep h => Inv.step h hStep) _ _ _ (fun _ _ => trivial) hRun
    ⟨{}, 0, inv_opened⟩

/-- In every run, what the tails answer from memory for a conversation that no unpublished
batch touches is what the storage answers at that moment. -/
theorem tails_agree {events : List Event} {s : State} (hRun : opened.run events = some s) (conversationId : Nat)
    (hTouched : ∀ writes ∈ s.unpublished, touches writes conversationId = false) :
    (∀ latest, s.tails.latestKnown conversationId = some latest →
        ∃ page, s.storage.scanEntries { conversationId } 1 none = .ok page ∧
          page.items.head?.map EntryRecord.id = latest) ∧
      ∀ atOrBefore marker, s.tails.markerKnown conversationId atOrBefore = some marker →
        s.storage.findLatestHeadMarker conversationId atOrBefore = .ok marker := by
  obtain ⟨published, bound, hInv⟩ := inv_run hRun
  have hGood := hInv.behind.good hInv.good
  refine ⟨fun latest hKnown => ?_, fun atOrBefore marker hKnown => ?_⟩
  · obtain ⟨hOld, found, hNewest, rfl⟩ := hInv.exact.latest conversationId latest hKnown
    have hStored := (hInv.storage hTouched isEntry found).1.mpr hOld
    obtain ⟨page, hScan, hRead⟩ := hGood.scan hStored
    exact ⟨page, hScan, congrArg _ (hRead.unique (((hInv.storage hTouched isEntry found).2 hOld).mpr hNewest))⟩
  · have hMarker : ∃ held, s.tails.markers.held conversationId = some held ∧
        (held = none ∧ marker = none ∨ ∃ entry, held = some entry ∧ marker = some entry ∧
          atOrBefore.all fun bound => entry.id ≤ bound) := by
      unfold ConversationTails.markerKnown at hKnown
      split at hKnown
      next hHeld =>
        obtain rfl := some.inj hKnown
        exact ⟨none, hHeld, .inl ⟨rfl, rfl⟩⟩
      next entry hHeld =>
        split_ifs at hKnown with hCut
        obtain rfl := some.inj hKnown
        exact ⟨some entry, hHeld, .inr ⟨entry, rfl, rfl, hCut⟩⟩
      next => cases hKnown
    obtain ⟨held, hHeld, hAnswer⟩ := hMarker
    obtain ⟨hOld, hPublished⟩ := hInv.exact.markers conversationId held hHeld
    have hNewest := ((hInv.storage hTouched isMarker held).2 hOld).mpr hPublished
    have hStored := (hInv.storage hTouched isMarker held).1.mpr hOld
    obtain ⟨read, hFind, hRead⟩ := hGood.findHead hStored atOrBefore
    rw [hFind]
    refine congrArg _ (hRead.unique ?_)
    rcases hAnswer with ⟨rfl, rfl⟩ | ⟨entry, rfl, rfl, hCut⟩
    · intro other hOther
      simp [Query.keeps, hNewest other hOther]
    · refine ⟨hNewest.1, by simp only [Query.keeps, hNewest.2.1, Bool.true_and]; exact hCut, fun other hOther hKind => ?_⟩
      exact hNewest.2.2 other hOther (Bool.and_eq_true_iff.mp hKind).1

/-- The marker of a parent, read once for a fork and answered from memory then. -/
def forkEvents : List Event :=
  [.commit [.conversation { id := 1 }, .entry { id := 2, conversationId := 1, head := some 2 }] 3, .publish,
    .commit [.conversation { id := 3, parent := some ⟨1, 2⟩ }] 4, .publish, .load 3 (.marker none), .read 0, .keep 0]

theorem tails_agree_fork : ∃ s, opened.run forkEvents = some s ∧
    s.tails.markerKnown 3 none = some (some { id := 2, conversationId := 1, head := some 2 }) ∧
      s.storage.findLatestHeadMarker 3 none = .ok (some { id := 2, conversationId := 1, head := some 2 }) := by
  obtain ⟨s, hRun⟩ : ∃ s, opened.run forkEvents = some s := ⟨_, rfl⟩
  have hState : some s = opened.run forkEvents := hRun.symm
  have hUnpublished : s.unpublished = [] := by
    have hSame : (some s).map State.unpublished = some [] := by rw [hState]; rfl
    exact some.inj hSame
  have hKnown : s.tails.markerKnown 3 none = some (some { id := 2, conversationId := 1, head := some 2 }) := by
    have hSame : (some s).map (fun s => s.tails.markerKnown 3 none) =
        some (some (some { id := 2, conversationId := 1, head := some 2 })) := by rw [hState]; rfl
    exact some.inj hSame
  have hAgree := tails_agree hRun 3 (by rw [hUnpublished]; exact fun _ hNone => (by cases hNone))
  exact ⟨s, hRun, hKnown, hAgree.2 none _ hKnown⟩

end OctoberHarness.Tails
