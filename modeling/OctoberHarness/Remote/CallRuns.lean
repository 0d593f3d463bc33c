import OctoberHarness.Remote.CallTables

/-! The call window over whole runs. -/
namespace OctoberHarness.Remote

open List OrderedMap

variable {limit : Nat} {w next : World}

/-- Both sides between two steps. -/
structure Steady (limit : Nat) (w : World) : Prop where
  sound : Sound limit none w.consumer w.provider
  eager : Eager w.consumer

theorem Steady.start (limit : Nat) : Steady limit .start where
  sound :=
    { window :=
        { counted := fun _ => rfl
          bounded := fun _ => Nat.le_refl 0
          limited := Nat.zero_le limit
          shut := fun hShut => nomatch hShut
          ids := Pairwise.nil
          fresh := nofun
          keys := Perm.refl []
          submitted := ⟨nofun, nofun⟩
          order := ⟨Pairwise.nil, Pairwise.nil⟩
          behind := nofun
          sent := ⟨rfl, nofun⟩
          replies := nofun
          ends := fun _ _ hEnds => hEnds.elim nofun nofun
          waits := nofun
          held := nofun
          holds := nofun }
      joined :=
        { follows := Pairwise.nil
          freshCall := nofun
          freshHold := nofun
          released := nofun
          aborted := nofun
          ids := nofun
          known := nofun
          replied := nofun
          gone := nofun
          rooted := nofun
          shut := fun hShut => nomatch hShut
          fits := by
            intro requests hPrefix
            rw [List.prefix_nil.mp hPrefix]
            exact Nat.zero_le limit
          covered := fun _ => Sublist.refl []
          clean := ⟨nofun, nofun⟩
          heldThere := fun _ _ => nofun
          awaited := fun _ _ => nofun } }
  eager := fun _ hWaiting => absurd rfl hWaiting

variable {c : Consumer} {settlement : Settlement}

theorem Steady.consumer (h : Sound limit none c w.provider ∧ Eager c) : Steady limit { w with consumer := c } :=
  ⟨h.1, h.2⟩

theorem Steady.provider (h : Steady limit w) {p : Provider} (hLoses : Loses w.provider p) :
    Steady limit { w with provider := p } :=
  ⟨⟨h.sound.window, h.sound.joined.loses hLoses⟩, h.eager⟩

variable {hold key : Nat}

theorem isSome_mem_keys {α : Type} {entries : List (Nat × α)} (h : (entries.lookup hold).isSome = true) :
    hold ∈ entries.map Prod.fst := by
  obtain ⟨value, hLookup⟩ := Option.isSome_iff_exists.mp h
  exact mem_map_of_mem (mem_of_lookup hLookup)

theorem StartsOver.settles_nothing {notice : Notice} (h : StartsOver hold notice) :
    (∀ id, notice ≠ .reply id) ∧ ∀ other, notice ≠ .gone other := by
  cases h <;> exact ⟨nofun, nofun⟩

theorem Steady.step (h : Steady limit w) (hStep : Step limit w next) : Steady limit next := by
  cases hStep with
  | opened hLimit hOpen => exact Steady.consumer (h.sound.opened hLimit)
  | attach hOpen => exact Steady.consumer (h.sound.attach h.eager hOpen)
  | call hold name => exact Steady.consumer (h.sound.call h.eager hold name)
  | cancel key => exact Steady.consumer (h.sound.cancel h.eager key)
  | release hold hHeld => exact Steady.consumer (h.sound.release h.eager (isSome_mem_keys hHeld))
  | consumerCloses hOpen => exact Steady.consumer h.sound.closed
  | toProvider arguments hOpen hWire =>
    exact ⟨⟨{ h.sound.window with }, h.sound.joined.receives hWire hOpen arguments⟩, h.eager⟩
  | toConsumer hOpen hWire =>
    obtain ⟨hSound, hEager⟩ := h.sound.notice h.eager hWire
    exact ⟨hSound, hEager⟩
  | providerCloses => exact h.provider (Loses.closed _)
  | answers id => exact h.provider (Loses.reply _ id)
  | lives hold hState => exact h.provider (Loses.setState hState _)
  | binds names hState => exact h.provider ((Loses.setState hState _).trans (Loses.notify _ nofun nofun))
  | swaps hState => exact h.provider (Loses.setState hState _)
  | @unbinds hold notice state hNotice hState hServed =>
    obtain ⟨hReply, hGone⟩ := hNotice.settles_nothing
    have hSame : (w.provider.rejectCalls hold).entries.lookup hold = some state := by
      rw [Provider.rejectCalls, entries_replyAll]
      exact hState
    exact h.provider (((Loses.rejectCalls _ hold).trans (Loses.setState hSame _)).trans (Loses.notify _ hReply hGone))
  | relays hold hState => exact h.provider (Loses.setState hState _)
  | upstreamDrops hold hState => exact h.provider ((Loses.rejectCalls _ hold).trans (Loses.notify _ nofun nofun))
  | notifies hState hNotice => exact h.provider (Loses.notify _ hNotice.settles_nothing.1 hNotice.settles_nothing.2)
  | forwards hold names hState => exact h.provider (Loses.notify _ nofun nofun)
  | ends hold hHeld => exact h.provider (Loses.endHold (isSome_mem_keys hHeld))

theorem Reachable.steady (h : Reachable limit w) : Steady limit w := by
  induction h with
  | start => exact Steady.start limit
  | step _ hStep ih => exact ih.step hStep

/-! What settles a call. -/

/-- The step that settles the call submitted under `key`: its reply, its own
cancellation, the end or the rebinding of a hold, or the link's end. -/
inductive Causes (w next : World) (key : Nat) : Settlement → Prop where
  | replied {id : Nat} (hHead : w.provider.wire.head? = some (.reply id))
      (hNext : next.consumer = w.consumer.receive (.reply id)) : Causes w next key (.reply id)
  | cancelled (hNext : next.consumer = w.consumer.cancel key) : Causes w next key .cancelled
  | released {hold : Nat} (hNext : next.consumer = w.consumer.release hold) : Causes w next key (.ended hold)
  | gone {hold : Nat} (hHead : w.provider.wire.head? = some (.gone hold))
      (hNext : next.consumer = w.consumer.receive (.gone hold)) : Causes w next key (.ended hold)
  | rebinding {hold : Nat} {notice : Notice} (hHead : w.provider.wire.head? = some notice)
      (hNotice : StartsOver hold notice) (hNext : next.consumer = w.consumer.receive notice) :
      Causes w next key (.rebinding hold)
  | closed (hNext : next.consumer = w.consumer.closed) : Causes w next key .closed

theorem settled_send (c : Consumer) (request : Request) : (c.send request).settled = c.settled := by
  rw [Consumer.send]
  split_ifs <;> rfl

theorem settled_drain (c : Consumer) : c.drain.settled = c.settled :=
  (drained c.waiting c).settled

theorem settled_call (c : Consumer) (hold : Nat) (name : String) : (c.call hold name).settled = c.settled := by
  rw [Consumer.call]
  split
  case h_2 => rfl
  split_ifs
  case neg => rfl
  rw [Consumer.submit]
  split_ifs
  · exact (take_frame { c with submitted := c.submitted ++ [hold] } _).2.1
  · rfl

theorem mem_settle {calls : List Call} {settlement reason : Settlement}
    (h : (key, settlement) ∈ (c.settle calls reason).settled) :
    (key, settlement) ∈ c.settled ∨ settlement = reason ∧ ∃ call ∈ calls, call.key = key := by
  refine (List.mem_append.mp h).imp_right fun hNew => ?_
  obtain ⟨call, hCall, hEq⟩ := List.mem_map.mp hNew
  exact ⟨(Prod.mk.inj hEq).2.symm, call, hCall, (Prod.mk.inj hEq).1⟩

theorem settled_freed (c : Consumer) (id : Nat) (reason : Settlement) :
    (c.drop id reason).freed.settled = (c.drop id reason).settled :=
  (drained_freed c id reason).settled

theorem settled_cancel {other : Nat}
    (hNodup : (c.calls.map Prod.fst).Nodup) (h : (other, settlement) ∈ (c.cancel key).settled) :
    (other, settlement) ∈ c.settled ∨ settlement = .cancelled ∧ other = key := by
  rw [Consumer.cancel] at h
  split_ifs at h with hWaits
  · refine (mem_settle h).imp_right ?_
    rintro ⟨hReason, call, hCall, hKey⟩
    refine ⟨hReason, ?_⟩
    rw [← hKey]
    exact of_decide_eq_true (List.mem_filter.mp hCall).2
  cases hFound : c.calls.find? fun entry => entry.2.key = key with
  | none =>
    rw [hFound] at h
    exact .inl h
  | some entry =>
    obtain ⟨id, call⟩ := entry
    have hKey : call.key = key := of_decide_eq_true (@find?_some (Nat × Call) (fun entry => decide (entry.2.key = key)) _ _ hFound)
    have hLookup := (lookup_eq_some_iff hNodup id call).mpr (mem_of_find?_eq_some hFound)
    rw [hFound] at h
    have hDropped : (other, settlement) ∈ (c.drop id .cancelled).settled := by
      have hSent : (other, settlement) ∈ ((c.drop id .cancelled).send (.abort id)).freed.settled := h
      rwa [Consumer.freed, settled_drain, settled_send] at hSent
    rw [drop_eq hLookup] at hDropped
    refine (List.mem_append.mp hDropped).imp_right fun hNew => ?_
    obtain ⟨rfl, rfl⟩ := Prod.mk.inj (List.mem_singleton.mp hNew)
    exact ⟨rfl, hKey⟩

theorem mem_drop {id : Nat} {settlement reason : Settlement} (h : (key, settlement) ∈ (c.drop id reason).freed.settled) :
    (key, settlement) ∈ c.settled ∨ settlement = reason := by
  rw [settled_freed] at h
  exact (mem_settle h).imp_right And.left

theorem settled_failAll (ids : List Nat) (c : Consumer) (h : (key, settlement) ∈ (c.failAll hold ids).settled) :
    (key, settlement) ∈ c.settled ∨ settlement = .ended hold := by
  induction ids generalizing c with
  | nil => exact .inl h
  | cons id rest ih =>
    rcases ih _ h with hOld | hNew
    · exact mem_drop hOld
    · exact .inr hNew

theorem settled_forget
    (h : (key, settlement) ∈ (c.forget hold).settled) : (key, settlement) ∈ c.settled ∨ settlement = .ended hold := by
  rcases settled_failAll _ _ h with hOld | hNew
  · exact (mem_settle hOld).imp_right And.left
  · exact .inr hNew

theorem settled_release
    (h : (key, settlement) ∈ (c.release hold).settled) : (key, settlement) ∈ c.settled ∨ settlement = .ended hold := by
  rw [← settled_send c (.release hold)]
  exact settled_forget h

theorem settled_starts
    (h : (key, settlement) ∈ (c.starts hold).settled) : (key, settlement) ∈ c.settled ∨ settlement = .rebinding hold := by
  rw [Consumer.starts] at h
  cases hHeld : c.entries.lookup hold with
  | none =>
    rw [hHeld] at h
    exact .inl h
  | some held =>
    rw [hHeld] at h
    have hRemoved : (key, settlement) ∈ (c.removeHold hold (.rebinding hold)).settled := h
    exact (mem_settle hRemoved).imp_right And.left

theorem Step.causes (hStep : Step limit w next) (hNodup : (w.consumer.calls.map Prod.fst).Nodup)
    (h : (key, settlement) ∈ next.consumer.settled) :
    (key, settlement) ∈ w.consumer.settled ∨ Causes w next key settlement := by
  cases hStep with
  | opened hLimit hOpen => exact .inl (settled_drain { w.consumer with limit := limit } ▸ h)
  | attach hOpen => exact .inl (settled_send { w.consumer with
      nextHold := w.consumer.nextHold + 1
      entries := w.consumer.entries ++ [(w.consumer.nextHold, ⟨false, none⟩)] } (.hold w.consumer.nextHold) ▸ h)
  | call hold name => exact .inl (settled_call w.consumer hold name ▸ h)
  | cancel other =>
    refine (settled_cancel hNodup h).imp_right ?_
    rintro ⟨rfl, rfl⟩
    exact .cancelled rfl
  | release hold hHeld =>
    refine (settled_release h).imp_right ?_
    rintro rfl
    exact .released rfl
  | consumerCloses hOpen =>
    refine (mem_settle h).imp_right ?_
    rintro ⟨rfl, -⟩
    exact .closed rfl
  | @toConsumer notice rest hOpen hWire =>
    have hHead : w.provider.wire.head? = some notice := by rw [hWire]; rfl
    cases notice with
    | bound hold names =>
      refine .inl ?_
      have hSame : (w.consumer.receive (.bound hold names)).settled = w.consumer.settled := by
        rw [Consumer.receive]
        split_ifs <;> rfl
      exact hSame ▸ h
    | loading hold =>
      refine (settled_starts h).imp_right ?_
      rintro rfl
      exact .rebinding hHead (.loading) rfl
    | failed hold =>
      refine (settled_starts h).imp_right ?_
      rintro rfl
      exact .rebinding hHead (.failed) rfl
    | gone hold =>
      by_cases hHeld : (w.consumer.entries.lookup hold).isSome = true
      · rw [show w.consumer.receive (.gone hold) = w.consumer.forget hold from if_pos hHeld] at h
        refine (settled_forget h).imp_right ?_
        rintro rfl
        exact .gone hHead rfl
      · rw [show w.consumer.receive (.gone hold) = w.consumer from if_neg hHeld] at h
        exact .inl h
    | reply id =>
      by_cases hCall : (w.consumer.calls.lookup id).isSome = true
      · rw [show w.consumer.receive (.reply id) = (w.consumer.drop id (.reply id)).freed from if_pos hCall] at h
        refine (mem_drop h).imp_right ?_
        rintro rfl
        exact .replied hHead rfl
      · rw [show w.consumer.receive (.reply id) = w.consumer from if_neg hCall] at h
        exact .inl h
  | _ => exact .inl h

/-! The window is exact. -/

/-- What both ends of the window promise between two steps. -/
structure Exact (limit : Nat) (w : World) : Prop where
  counted : w.consumer.isOpen = true → w.consumer.inFlight = w.consumer.calls.length
  bounded : w.consumer.isOpen = true → w.consumer.calls.length ≤ w.consumer.limit ∧ w.consumer.limit ≤ limit
  /-- The provider sees at most N calls, and no id twice. -/
  admitted : w.provider.calls.length ≤ limit ∧ .tooMany ∉ w.provider.errors ∧ .idInUse ∉ w.provider.errors
  ordered : w.consumer.sent.Pairwise (· < ·)
  eager : w.consumer.isOpen = true → w.consumer.waiting ≠ [] → w.consumer.limit ≤ w.consumer.calls.length
  /-- Every call waits, is in flight or has settled, in one of these ways and once. -/
  once : (w.consumer.waiting.map Call.key ++ w.consumer.calls.map (fun entry => entry.2.key) ++
    w.consumer.settled.map Prod.fst).Perm (range w.consumer.submitted.length)
  settled : w.consumer.isOpen = false → (w.consumer.settled.map Prod.fst).Perm (range w.consumer.submitted.length)
  replies : ∀ key id, (key, .reply id) ∈ w.consumer.settled → w.consumer.sent[id]? = some key
  holds : ∀ key hold, (key, .ended hold) ∈ w.consumer.settled ∨ (key, .rebinding hold) ∈ w.consumer.settled →
    w.consumer.submitted[key]? = some hold
  causes : ∀ next, Step limit w next → ∀ key settlement, (key, settlement) ∈ next.consumer.settled →
    (key, settlement) ∈ w.consumer.settled ∨ Causes w next key settlement
  /-- A reply to a call that was given up changes nothing. -/
  stale : ∀ key id settlement, w.consumer.sent[id]? = some key → (key, settlement) ∈ w.consumer.settled →
    w.consumer.receive (.reply id) = w.consumer
  /-- With nothing on its way, the provider still runs every call in flight. -/
  awaited : w.consumer.isOpen = true → w.provider.isOpen = true → w.consumer.wire = [] → w.provider.wire = [] →
    w.provider.calls = w.consumer.calls

theorem Window.stale {ending : Option Nat} (h : Window limit ending c) {id : Nat}
    (hSent : c.sent[id]? = some key) (hSettled : (key, settlement) ∈ c.settled) :
    c.receive (.reply id) = c := by
  show c.reply id = c
  rw [Consumer.reply]
  refine if_neg fun hThere => ?_
  obtain ⟨call, hLookup⟩ := Option.isSome_iff_exists.mp hThere
  have hMem := mem_of_lookup hLookup
  have hKey : call.key = key := Option.some.inj ((h.sent.2 _ hMem).symm.trans hSent)
  have hNodup := h.keys.nodup_iff.mpr nodup_range
  have hApart := (List.nodup_append.mp hNodup).2.2
  refine hApart call.key (mem_append_right _ (mem_map_of_mem hMem)) key ?_ hKey
  exact mem_map_of_mem hSettled

theorem Sound.awaited {p : Provider} (h : Sound limit none c p) (hOpen : c.isOpen = true)
    (hProvider : p.isOpen = true) (hSent : c.wire = []) (hTold : p.wire = []) : p.calls = c.calls := by
  have hCovered : p.calls.Sublist c.calls := by
    have hAll := h.joined.covered hOpen
    rwa [hSent] at hAll
  refine hCovered.eq_of_length_le (Nodup.length_le_of_subset h.window.nodup.of_map ?_)
  intro entry hEntry
  have hHeld := (h.window.held entry hEntry).resolve_right (Option.some_ne_none _)
  rcases h.joined.awaited hOpen hProvider entry hEntry hHeld with hThere | hAsked | hReply | hGone
  · exact hThere
  · rw [hSent] at hAsked
    exact absurd hAsked not_mem_nil
  · rw [hTold] at hReply
    exact absurd hReply not_mem_nil
  · rw [hTold] at hGone
    exact absurd hGone not_mem_nil

/-- In every interleaving the call window is exact while the link is open, and
every call settles once; a call that waits may also fail with its hold's rebinding. -/
theorem call_window_exact (h : Reachable limit w) : Exact limit w := by
  obtain ⟨⟨hWindow, hJoined⟩, hEager⟩ := h.steady
  exact
    { counted := hWindow.counted
      bounded := fun hOpen => ⟨hWindow.bounded hOpen, hWindow.limited⟩
      admitted := ⟨hJoined.fits [] nil_prefix, hJoined.clean.2, hJoined.clean.1⟩
      ordered := hWindow.order.1
      eager := by
        intro hOpen hWaiting
        have hFull := hEager hOpen hWaiting
        rw [hWindow.counted hOpen] at hFull
        exact Int.ofNat_le.mp hFull
      once := hWindow.keys
      settled := by
        intro hShut
        have hKeys := hWindow.keys
        rw [(hWindow.shut hShut).1, (hWindow.shut hShut).2.1] at hKeys
        exact hKeys
      replies := hWindow.replies
      holds := hWindow.ends
      causes := fun next hStep key settlement hMem => hStep.causes hWindow.nodup hMem
      stale := fun key id settlement hSent hMem => hWindow.stale hSent hMem
      awaited := (h.steady.sound).awaited }

/-- A window of one: a hold is bound, one call is on its way and one waits. -/
def World.calling : World where
  consumer :=
    { limit := 1, inFlight := 1, waiting := [⟨1, 0, 0, "ping"⟩], calls := [(0, ⟨0, 0, 0, "ping"⟩)], nextCall := 1
      entries := [(0, ⟨true, some ["ping"]⟩)], nextHold := 1, isOpen := true, wire := [.call 0 ⟨0, 0, 0, "ping"⟩]
      submitted := [0, 0], settled := [], sent := [0] }
  provider := { entries := [(0, .bound ["ping"])], calls := [], isOpen := true, wire := [], runs := [], errors := [] }

theorem reachable_calling : Reachable 1 .calling := by
  have hAsked := (Reachable.start : Reachable 1 .start).step (Step.attach _ rfl)
  have hHeld := hAsked.step (Step.toProvider _ .fits rfl rfl)
  have hLives := hHeld.step (Step.lives _ 0 rfl)
  have hBinds := hLives.step (@Step.binds 1 _ 0 none ["ping"] rfl)
  have hBound := hBinds.step (Step.toConsumer _ rfl rfl)
  have hOpened := hBound.step (Step.opened _ rfl rfl)
  exact (hOpened.step (Step.call _ 0 "ping")).step (Step.call _ 0 "ping")

theorem call_window_exact_calling : Reachable 1 .calling ∧ Exact 1 .calling :=
  ⟨reachable_calling, call_window_exact reachable_calling⟩

/-- The link's end empties the table and leaves the count; and a waiting call fails
with its hold's rebinding, which ends neither the hold nor the link. -/
theorem call_window_counts_past_close :
    (∃ w, Reachable 1 w ∧ w.consumer.inFlight ≠ w.consumer.calls.length) ∧
      ∃ w, Reachable 1 w ∧ w.consumer.isOpen = true ∧ (w.consumer.entries.lookup 0).isSome = true ∧
        (1, .rebinding 0) ∈ w.consumer.settled := by
  refine ⟨⟨_, reachable_calling.step (Step.consumerCloses _ rfl), by decide⟩, ?_⟩
  have hUnbound := reachable_calling.step (@Step.unbinds 1 .calling 0 (.loading 0) (.bound ["ping"]) .loading rfl nofun)
  exact ⟨_, hUnbound.step (Step.toConsumer _ rfl rfl), by decide, by decide, by decide⟩

end OctoberHarness.Remote
