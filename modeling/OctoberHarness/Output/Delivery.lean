import OctoberHarness.Output.Tail
import OctoberHarness.Output.Window

/-! The window is invisible in the caller's tail wherever its bounds can be computed. -/
namespace OctoberHarness.Output

open Utf8 List Option Bool

variable {overflowChecks : Bool} {window : Window}

/-- A window with bounds that `push` and `trim` can compute. -/
def Window.Fits (overflowChecks : Bool) (window : Window) : Prop :=
  if overflowChecks then
    4 * (window.maxBytes.toNat + 1) < 2 ^ 64 ∧ 4 * (window.maxLines.toNat + 1) < 2 ^ 64
  else window.maxBytes.toNat + 1 < 2 ^ 64 ∧ window.maxLines.toNat + 1 < 2 ^ 64

theorem usize_of_lt {value : Nat} (h : value < 2 ^ 64) : usize overflowChecks value = some value := by
  rw [usize, if_neg fun hBoth => absurd hBoth.2 (Nat.not_le.mpr h), Nat.mod_eq_of_lt h]

theorem Window.Fits.bytes (h : window.Fits overflowChecks) :
    usize overflowChecks (window.maxBytes.toNat + 1) = some (window.maxBytes.toNat + 1) := by
  apply usize_of_lt
  rw [Window.Fits] at h
  split_ifs at h <;> omega

theorem Window.Fits.lines (h : window.Fits overflowChecks) :
    usize overflowChecks (window.maxLines.toNat + 1) = some (window.maxLines.toNat + 1) := by
  apply usize_of_lt
  rw [Window.Fits] at h
  split_ifs at h <;> omega

variable {bound : UInt64} {pending : Pending} {text : List Char}

theorem fewWindows_some (hSum : usize overflowChecks (bound.toNat + 1) = some (bound.toNat + 1))
    (hProduct : overflowChecks = true → 4 * (bound.toNat + 1) < 2 ^ 64) :
    ∃ few, Pending.fewWindows overflowChecks bound = some few := by
  rw [Pending.fewWindows, hSum, bind_some, usize]
  split_ifs with hBoth
  · exact absurd (hProduct hBoth.1) (Nat.not_lt.mpr hBoth.2)
  · exact ⟨_, rfl⟩

theorem accumulated_some (h : pending.window.Fits overflowChecks) :
    ∃ few, pending.accumulated overflowChecks = some few := by
  have hProducts : overflowChecks = true → 4 * (pending.window.maxBytes.toNat + 1) < 2 ^ 64 ∧
      4 * (pending.window.maxLines.toNat + 1) < 2 ^ 64 := by
    intro hChecks
    rw [Window.Fits, if_pos hChecks] at h
    exact h
  obtain ⟨bytes, hBytes⟩ := fewWindows_some h.bytes fun hChecks => (hProducts hChecks).1
  obtain ⟨lines, hLines⟩ := fewWindows_some h.lines fun hChecks => (hProducts hChecks).2
  rw [Pending.accumulated, hBytes, bind_some, hLines]
  split_ifs <;> exact ⟨_, rfl⟩

theorem sub_of_le {first second : Nat} (h : second ≤ first) : sub first second = some (first - second) :=
  if_pos h

variable (bytes : List UInt8) (start : Nat)

theorem boundaryBefore_le (index : Nat) : boundaryBefore bytes index ≤ index := by
  induction index with
  | zero => exact Nat.le_refl _
  | succ index ih =>
    rw [boundaryBefore]
    split_ifs
    · exact Nat.le_refl _
    · exact ih.trans (Nat.le_succ _)

theorem isCharBoundary_boundaryBefore (index : Nat) :
    isCharBoundary bytes (boundaryBefore bytes index) = true := by
  induction index with
  | zero => rfl
  | succ index ih =>
    rw [boundaryBefore]
    split_ifs with hHere
    · exact hHere
    · exact ih

theorem split_of_isCharBoundary {index : Nat} (h : isCharBoundary (encode text) index = true) :
    ∃ before after, text = before ++ after ∧ (encode before).length = index := by
  rw [isCharBoundary, or_eq_true, or_eq_true, decide_eq_true_eq, decide_eq_true_eq, Option.any_eq_true] at h
  rcases h with (hZero | hEnd) | ⟨byte, hByte, hStarts⟩
  · exact ⟨[], text, rfl, hZero.symm⟩
  · exact split_of_boundary (.inl hEnd)
  · exact split_of_boundary (.inr ⟨byte, hByte, not_eq_true' _ ▸ hStarts⟩)

theorem drain_spec {cut : Nat} (h : isCharBoundary (encode text) cut = true) :
    ∃ gone left, drain text cut = some (gone, left) ∧ text = gone ++ left ∧ (encode gone).length = cut := by
  obtain ⟨before, after, hSplit, hLength⟩ := split_of_isCharBoundary h
  refine ⟨before, after, ?_, hSplit, hLength⟩
  rw [drain, if_pos h, ← hLength, decode_drop hSplit, hSplit, encode_append, take_left, decode_encode]

theorem newlinePositions_cons (byte : UInt8) (rest : List UInt8) (start : Nat) :
    newlinePositions (byte :: rest) start =
      if byte = newline then start :: newlinePositions rest (start + 1) else newlinePositions rest (start + 1) := by
  rw [newlinePositions, zipIdx_cons, filter_cons]
  by_cases hByte : byte = newline
  · rw [if_pos hByte, if_pos (decide_eq_true hByte)]
    rfl
  · rw [if_neg hByte, if_neg (by simpa using hByte)]
    rfl

theorem length_newlinePositions :
    (newlinePositions bytes start).length = bytes.count newline := by
  induction bytes generalizing start with
  | nil => rfl
  | cons byte rest ih =>
    rw [newlinePositions_cons]
    by_cases hByte : byte = newline
    · rw [if_pos hByte, length_cons, ih, hByte, count_cons_self]
    · rw [if_neg hByte, ih, count_cons_of_ne hByte]

theorem newlinePositions_spec {wanted : Nat} (hPos : 0 < wanted) (hEnough : wanted ≤ (newlinePositions bytes start).length) :
    ∃ index, (newlinePositions bytes start)[(newlinePositions bytes start).length - wanted]? = some (start + index) ∧
      bytes[index]? = some newline ∧ (bytes.drop index).count newline = wanted := by
  induction bytes generalizing start with
  | nil => exact absurd hPos (Nat.not_lt.mpr hEnough)
  | cons byte rest ih =>
    have hLater : wanted ≤ (newlinePositions rest (start + 1)).length →
        ∃ index, (newlinePositions rest (start + 1))[(newlinePositions rest (start + 1)).length - wanted]? =
          some (start + (index + 1)) ∧ (byte :: rest)[index + 1]? = some newline ∧
            ((byte :: rest).drop (index + 1)).count newline = wanted := by
      intro hRest
      obtain ⟨index, hAt, hByte, hCount⟩ := ih (start + 1) hRest
      refine ⟨index, ?_, hByte, hCount⟩
      rw [hAt]
      congr 1
      omega
    rw [newlinePositions_cons] at hEnough ⊢
    split_ifs at hEnough ⊢ with hByte
    · rw [length_cons] at hEnough ⊢
      rcases Nat.lt_or_ge (newlinePositions rest (start + 1)).length wanted with hAll | hRest
      · have hWanted : wanted = (newlinePositions rest (start + 1)).length + 1 := by omega
        refine ⟨0, ?_, by rw [hByte]; rfl, ?_⟩
        · rw [← hWanted, Nat.sub_self]
          rfl
        · rw [drop_zero, hByte, count_cons_self, hWanted, length_newlinePositions]
      · obtain ⟨index, hAt, hFound⟩ := hLater hRest
        refine ⟨index + 1, ?_, hFound⟩
        rw [Nat.succ_sub hRest, getElem?_cons_succ]
        exact hAt
    · obtain ⟨index, hFound⟩ := hLater hEnough
      exact ⟨index + 1, hFound⟩

def joined (segments : List Segment) : List Char :=
  segments.flatMap Prod.snd

theorem joined_cons (first : Segment) (rest : List Segment) : joined (first :: rest) = first.2 ++ joined rest :=
  flatMap_cons

/-- A text in two parts: what is removed, and what is held, which exceeds the window when
something was removed. -/
structure Trimming.Splits (window : Window) (text : List Char) (trimming : Trimming) : Prop where
  text : text = trimming.removed ++ joined trimming.segments
  bytes : trimming.bytes = utf8ByteLength (joined trimming.segments)
  newlines : trimming.newlines = countNewlines (joined trimming.segments)
  nonempty : ∀ segment ∈ trimming.segments, segment.2 ≠ []
  exceeds : trimming.removed = [] ∨ Exceeds window.limits (encode (joined trimming.segments))

theorem exceeds_of_proves (h : Pending.proves window (utf8ByteLength text) (countNewlines text) = true) :
    Exceeds window.limits (encode text) := by
  rw [Pending.proves, or_eq_true, decide_eq_true_eq, decide_eq_true_eq] at h
  rw [Exceeds, count_newline]
  exact h

variable {text removed : List Char}

theorem Trimming.Splits.rest {first : Segment} {rest : List Segment} {bytes newlines : Nat}
    (h : Trimming.Splits window text ⟨first :: rest, bytes, newlines, removed⟩) :
    sub bytes (utf8ByteLength first.2) = some (utf8ByteLength (joined rest)) ∧
      sub newlines (countNewlines first.2) = some (countNewlines (joined rest)) := by
  have hBytes : bytes = utf8ByteLength first.2 + utf8ByteLength (joined rest) := by
    rw [← utf8ByteLength_append, ← joined_cons]
    exact h.bytes
  have hNewlines : newlines = countNewlines first.2 + countNewlines (joined rest) := by
    rw [← countNewlines_append, ← joined_cons]
    exact h.newlines
  rw [sub_of_le (by omega), sub_of_le (by omega), hBytes, hNewlines, Nat.add_sub_cancel_left, Nat.add_sub_cancel_left]
  exact ⟨rfl, rfl⟩

theorem trimSegments_spec {segments : List Segment} {bytes newlines : Nat}
    (h : Trimming.Splits window text ⟨segments, bytes, newlines, removed⟩) (hHeld : segments ≠ []) :
    ∃ trimming, Pending.trimSegments window segments bytes newlines removed = some trimming ∧
      trimming.Splits window text ∧ trimming.segments ≠ [] := by
  induction segments generalizing bytes newlines removed with
  | nil => exact absurd rfl hHeld
  | cons first rest ih =>
    cases rest with
    | nil => exact ⟨_, rfl, h, hHeld⟩
    | cons second rest =>
      obtain ⟨hBytes, hNewlines⟩ := h.rest
      rw [Pending.trimSegments, hBytes, bind_eq_bind, bind_some, hNewlines, bind_some]
      split_ifs with hProves
      · apply ih _ (cons_ne_nil _ _)
        exact {
          text := by
            show text = (removed ++ first.2) ++ joined (second :: rest)
            rw [append_assoc, ← joined_cons]
            exact h.text
          bytes := rfl
          newlines := rfl
          nonempty := fun segment hSegment => h.nonempty segment (mem_cons_of_mem _ hSegment)
          exceeds := .inr (exceeds_of_proves hProves) }
      · exact ⟨_, rfl, h, hHeld⟩

/-- A cut of the first segment: at a boundary, and with more than the window behind it. -/
structure Cuts (window : Window) (first rest : List Char) (cut : Nat) : Prop where
  boundary : isCharBoundary (encode first) cut = true
  exceeds : cut = 0 ∨ Exceeds window.limits ((encode first).drop cut ++ encode rest)

theorem cuts_zero (first rest : List Char) : Cuts window first rest 0 :=
  ⟨rfl, .inl rfl⟩

theorem byteCut_spec (hFits : window.Fits overflowChecks) (first rest : List Char) :
    ∃ cut, Pending.byteCut overflowChecks window (encode first) (utf8ByteLength rest) = some cut ∧
      Cuts window first rest cut := by
  rw [Pending.byteCut, hFits.bytes, bind_eq_bind, bind_some]
  dsimp only
  split_ifs with hLong
  · refine ⟨_, rfl, isCharBoundary_boundaryBefore _ _, .inr (.inl ?_)⟩
    have hLe := boundaryBefore_le (encode first) ((encode first).length - (window.maxBytes.toNat + 1 - utf8ByteLength rest))
    show window.maxBytes.toNat < _
    rw [length_append, length_drop]
    rw [utf8ByteLength] at *
    omega
  · exact ⟨0, rfl, cuts_zero first rest⟩

theorem lineCut_spec (hFits : window.Fits overflowChecks) {first rest : List Char} {cut : Nat} (hCut : Cuts window first rest cut) :
    ∃ both, Pending.lineCut overflowChecks window (encode first) (countNewlines rest) cut = some both ∧
      Cuts window first rest both := by
  rw [Pending.lineCut, hFits.lines, bind_eq_bind, bind_some]
  dsimp only
  split_ifs with hKeep hEnough
  · obtain ⟨index, hAt, hByte, hCount⟩ := newlinePositions_spec (encode first) 0 hKeep hEnough
    rw [hAt, Nat.zero_add]
    refine ⟨max cut index, rfl, ?_⟩
    rcases Nat.le_total cut index with hLines | hBytes
    · rw [Nat.max_eq_right hLines]
      refine ⟨?_, .inr (.inr ?_)⟩
      · rw [isCharBoundary, hByte]
        exact Bool.or_true _
      · show window.maxLines.toNat < _
        rw [count_append, hCount, count_newline]
        rw [countNewlines] at *
        omega
    · rw [Nat.max_eq_left hBytes]
      exact hCut
  · exact ⟨cut, rfl, hCut⟩
  · refine ⟨_, rfl, ?_, .inr (.inr ?_)⟩
    · rw [isCharBoundary, decide_eq_true rfl, Bool.or_true, Bool.true_or]
    · show window.maxLines.toNat < _
      rw [drop_length, nil_append, count_newline]
      rw [countNewlines] at hKeep
      omega

theorem trimFirst_spec (hFits : window.Fits overflowChecks) {trimming : Trimming}
    (h : trimming.Splits window text) (hHeld : trimming.segments ≠ []) :
    ∃ trimmed, Pending.trimFirst overflowChecks window trimming = some trimmed ∧ trimmed.Splits window text := by
  obtain ⟨segments, bytes, newlines, removed⟩ := trimming
  cases segments with
  | nil => exact absurd rfl hHeld
  | cons first rest =>
    obtain ⟨stream, first⟩ := first
    obtain ⟨hBytes, hNewlines⟩ := h.rest
    obtain ⟨bytesCut, hBytesCut, hCutsBytes⟩ := byteCut_spec hFits first (joined rest)
    obtain ⟨cut, hCut, hCuts⟩ := lineCut_spec hFits hCutsBytes
    simp only [Pending.trimFirst, hBytes, hNewlines, hBytesCut, hCut, bind_eq_bind, bind_some]
    split_ifs with hPos
    · obtain ⟨gone, left, hDrain, hSplit, hLength⟩ := drain_spec hCuts.boundary
      have hExceeds : Exceeds window.limits (encode (left ++ joined rest)) := by
        have hBehind := hCuts.exceeds.resolve_left (Nat.ne_of_gt hPos)
        rw [hSplit, encode_append, ← hLength, drop_left, ← encode_append] at hBehind
        exact hBehind
      have hAll : joined ((stream, first) :: rest) = gone ++ (left ++ joined rest) := by
        rw [joined_cons, hSplit, append_assoc]
      have hHeldBytes : bytes = utf8ByteLength gone + utf8ByteLength (left ++ joined rest) := by
        rw [← utf8ByteLength_append, ← hAll]
        exact h.bytes
      have hHeldNewlines : newlines = countNewlines gone + countNewlines (left ++ joined rest) := by
        rw [← countNewlines_append, ← hAll]
        exact h.newlines
      have hLeft : joined (if left = [] then rest else (stream, left) :: rest) = left ++ joined rest := by
        split_ifs with hNone
        · rw [hNone, nil_append]
        · exact joined_cons _ _
      rw [hDrain, bind_some]
      simp only [sub_of_le (show utf8ByteLength gone ≤ bytes by omega), sub_of_le (show countNewlines gone ≤ newlines by omega),
        bind_some]
      refine ⟨_, rfl, ?_⟩
      exact {
        text := by
          show text = (removed ++ gone) ++ joined _
          rw [hLeft, append_assoc, ← hAll]
          exact h.text
        bytes := by
          show bytes - utf8ByteLength gone = utf8ByteLength (joined _)
          rw [hLeft, hHeldBytes, Nat.add_sub_cancel_left]
        newlines := by
          show newlines - countNewlines gone = countNewlines (joined _)
          rw [hLeft, hHeldNewlines, Nat.add_sub_cancel_left]
        nonempty := by
          intro segment hSegment
          change segment ∈ (if left = [] then rest else (stream, left) :: rest) at hSegment
          split_ifs at hSegment with hNone
          · exact h.nonempty segment (mem_cons_of_mem _ hSegment)
          · rcases mem_cons.mp hSegment with rfl | hRest
            · exact hNone
            · exact h.nonempty segment (mem_cons_of_mem _ hRest)
        exceeds := .inr (by
          show Exceeds window.limits (encode (joined _))
          rw [hLeft]
          exact hExceeds) }
    · exact ⟨_, rfl, h⟩

/-- What is held after a text since the last delivery: a part that is counted, and the
rest of it, which then exceeds the window. -/
structure Pending.Keeps (pending : Pending) (text : List Char) : Prop where
  bytes : pending.bytes = utf8ByteLength (joined pending.segments)
  newlines : pending.newlines = countNewlines (joined pending.segments)
  nonempty : ∀ segment ∈ pending.segments, segment.2 ≠ []
  skipped : (pending.skipped = none ∧ text = joined pending.segments) ∨
    ∃ skipped left, pending.skipped = some skipped ∧ Skips skipped left ∧ text = left ++ joined pending.segments ∧
      Exceeds pending.window.limits (encode (joined pending.segments))

theorem keeps_new (window : Window) : (Pending.new window).Keeps [] :=
  ⟨rfl, rfl, fun _ hNone => absurd hNone not_mem_nil, .inl ⟨rfl, rfl⟩⟩

theorem keeps_take (pending : Pending) : pending.take.2.Keeps [] :=
  ⟨rfl, rfl, fun _ hNone => absurd hNone not_mem_nil, .inl ⟨rfl, rfl⟩⟩

theorem joined_hold (stream : Stream) (text : List Char) (segments : List Segment) :
    joined (Pending.hold stream text segments) = joined segments ++ text := by
  induction segments with
  | nil => exact append_nil _
  | cons first rest ih =>
    cases rest with
    | nil =>
      rw [Pending.hold]
      split_ifs <;> simp [joined]
    | cons second rest => rw [Pending.hold, joined_cons, ih, ← append_assoc, ← joined_cons]

theorem hold_nonempty {stream : Stream} {segments : List Segment} (hText : text ≠ [])
    (h : ∀ segment ∈ segments, segment.2 ≠ []) : ∀ segment ∈ Pending.hold stream text segments, segment.2 ≠ [] := by
  induction segments with
  | nil =>
    intro segment hSegment
    rw [mem_singleton.mp hSegment]
    exact hText
  | cons first rest ih =>
    cases rest with
    | nil =>
      intro segment hSegment
      rw [Pending.hold] at hSegment
      split_ifs at hSegment
      · rw [mem_singleton.mp hSegment]
        exact fun hNone => hText (append_eq_nil_iff.mp hNone).2
      · rcases mem_pair.mp hSegment with rfl | rfl
        · exact h _ mem_cons_self
        · exact hText
    | cons second rest =>
      intro segment hSegment
      rcases mem_cons.mp hSegment with rfl | hRest
      · exact h _ mem_cons_self
      · exact ih (fun other hOther => h other (mem_cons_of_mem _ hOther)) segment hRest

theorem hold_ne_nil (stream : Stream) (text : List Char) (segments : List Segment) : Pending.hold stream text segments ≠ [] := by
  cases segments with
  | nil => exact cons_ne_nil _ _
  | cons first rest =>
    cases rest with
    | nil =>
      rw [Pending.hold]
      split_ifs <;> exact cons_ne_nil _ _
    | cons second rest => exact cons_ne_nil _ _

theorem skip_spec {skipped : Option OutputSkip} {left : List Char} (hRemoved : removed ≠ [])
    (h : (skipped = none ∧ left = []) ∨ ∃ counted, skipped = some counted ∧ Skips counted left) :
    ∃ counted, Pending.skip skipped removed = some counted ∧ Skips counted (left ++ removed) := by
  have hNonempty : left ++ removed ≠ [] := fun hNone => hRemoved (append_eq_nil_iff.mp hNone).2
  rw [Pending.skip, if_neg hRemoved]
  refine ⟨_, rfl, hNonempty, ?_, ?_, (endsWithNewline_append left hRemoved).symm⟩
  · rw [utf8ByteLength_append]
    rcases h with ⟨rfl, rfl⟩ | ⟨counted, rfl, hCounted⟩
    · rfl
    · exact congrArg (· + _) hCounted.bytes
  · rw [countNewlines_append]
    rcases h with ⟨rfl, rfl⟩ | ⟨counted, rfl, hCounted⟩
    · rfl
    · exact congrArg (· + _) hCounted.newlines

theorem Pending.Keeps.trim (h : pending.Keeps text)
    (hFits : pending.window.Fits overflowChecks) (hHeld : pending.segments ≠ []) :
    ∃ trimmed, pending.trim overflowChecks = some trimmed ∧ trimmed.window = pending.window ∧ trimmed.Keeps text := by
  have hAll : Trimming.Splits pending.window (joined pending.segments)
      ⟨pending.segments, pending.bytes, pending.newlines, []⟩ := ⟨rfl, h.bytes, h.newlines, h.nonempty, .inl rfl⟩
  obtain ⟨whole, hWhole, hSplits, hRest⟩ := trimSegments_spec hAll hHeld
  obtain ⟨trimming, hFirst, hTrimmed⟩ := trimFirst_spec hFits hSplits hRest
  rw [Pending.trim, hWhole, bind_eq_bind, bind_some, hFirst, bind_some]
  refine ⟨_, rfl, rfl, hTrimmed.bytes, hTrimmed.newlines, hTrimmed.nonempty, ?_⟩
  show (skip pending.skipped trimming.removed = none ∧ text = joined trimming.segments) ∨ ∃ skipped left,
    skip pending.skipped trimming.removed = some skipped ∧ Skips skipped left ∧ text = left ++ joined trimming.segments ∧
      Exceeds pending.window.limits (encode (joined trimming.segments))
  by_cases hRemoved : trimming.removed = []
  · have hSame : joined trimming.segments = joined pending.segments := by
      rw [hTrimmed.text, hRemoved, nil_append]
    rw [hSame, skip, if_pos hRemoved]
    exact h.skipped
  · right
    have hExceeds := hTrimmed.exceeds.resolve_left hRemoved
    rcases h.skipped with ⟨hNone, hText⟩ | ⟨counted, left, hSome, hCounted, hText, -⟩
    · obtain ⟨skipped, hSkip, hSkips⟩ := skip_spec hRemoved (.inl ⟨hNone, rfl⟩)
      exact ⟨skipped, _, hSkip, hSkips, by rw [nil_append, hText]; exact hTrimmed.text, hExceeds⟩
    · obtain ⟨skipped, hSkip, hSkips⟩ := skip_spec hRemoved (.inr ⟨counted, hSome, hCounted⟩)
      exact ⟨skipped, _, hSkip, hSkips, by rw [hText, append_assoc, ← hTrimmed.text], hExceeds⟩

theorem Pending.Keeps.push (h : pending.Keeps text)
    (hFits : pending.window.Fits overflowChecks) (stream : Stream) (piece : List Char) :
    ∃ pushed, pending.push overflowChecks stream piece = some pushed ∧ pushed.window = pending.window ∧
      pushed.Keeps (text ++ piece) := by
  rw [Pending.push]
  split_ifs with hPiece
  · rw [hPiece, append_nil]
    exact ⟨pending, rfl, rfl, h⟩
  · dsimp only
    generalize hHeld : ({ pending with
      segments := hold stream piece pending.segments
      bytes := pending.bytes + utf8ByteLength piece
      newlines := pending.newlines + countNewlines piece } : Pending) = held
    have hKeeps : held.Keeps (text ++ piece) := by
      subst hHeld
      refine ⟨?_, ?_, hold_nonempty hPiece h.nonempty, ?_⟩
      · show pending.bytes + _ = utf8ByteLength (joined (hold _ _ _))
        rw [joined_hold, utf8ByteLength_append, h.bytes]
      · show pending.newlines + _ = countNewlines (joined (hold _ _ _))
        rw [joined_hold, countNewlines_append, h.newlines]
      · show (pending.skipped = none ∧ _ = joined (hold _ _ _)) ∨ ∃ skipped left, pending.skipped = some skipped ∧ Skips skipped left ∧
          _ = left ++ joined (hold _ _ _) ∧ Exceeds pending.window.limits (encode (joined (hold _ _ _)))
        rw [joined_hold]
        rcases h.skipped with ⟨hNone, hText⟩ | ⟨skipped, left, hSome, hSkips, hText, hExceeds⟩
        · exact .inl ⟨hNone, by rw [hText]⟩
        · refine .inr ⟨skipped, left, hSome, hSkips, by rw [hText, append_assoc], ?_⟩
          rw [encode_append]
          exact hExceeds.append _
    have hWindow : held.window = pending.window := by rw [← hHeld]
    have hSegments : held.segments ≠ [] := by
      rw [← hHeld]
      exact hold_ne_nil _ _ _
    rw [← hWindow] at hFits ⊢
    obtain ⟨few, hFew⟩ := accumulated_some hFits
    rw [hFew, bind_some]
    split_ifs
    · exact hKeeps.trim hFits hSegments
    · exact ⟨held, rfl, rfl, hKeeps⟩

/-! What the caller shows. -/

/-- Events that stand for a text. -/
structure Delivers (window : Window) (events : List Event) (text : List Char) : Prop where
  bytes : (events.map Event.bytes).sum = utf8ByteLength text
  newlines : (events.map Event.newlines).sum = countNewlines text
  exceeds : ∀ event ∈ events, ∀ skipped, event.skipped = some skipped → Exceeds window.limits (encode event.text)
  shown : ∀ (buffer : OutputBuffer) (before : List Char), Holds buffer before → buffer.limits = window.limits →
    Holds (buffer.feed events) (before ++ text) ∧ (buffer.feed events).limits = window.limits

theorem delivers_nil (window : Window) : Delivers window [] [] where
  bytes := rfl
  newlines := rfl
  exceeds _ hNone := absurd hNone not_mem_nil
  shown buffer before hHolds hLimits := by
    rw [append_nil]
    exact ⟨hHolds, hLimits⟩

theorem Delivers.append {first second : List Event} {later : List Char} (hFirst : Delivers window first text)
    (hSecond : Delivers window second later) : Delivers window (first ++ second) (text ++ later) where
  bytes := by rw [map_append, sum_append, hFirst.bytes, hSecond.bytes, utf8ByteLength_append]
  newlines := by rw [map_append, sum_append, hFirst.newlines, hSecond.newlines, countNewlines_append]
  exceeds event hEvent := by
    rcases mem_append.mp hEvent with hOld | hNew
    · exact hFirst.exceeds event hOld
    · exact hSecond.exceeds event hNew
  shown buffer before hHolds hLimits := by
    obtain ⟨hHolds, hLimits⟩ := hFirst.shown buffer before hHolds hLimits
    rw [OutputBuffer.feed, foldl_append, ← append_assoc]
    exact hSecond.shown _ _ hHolds hLimits

theorem delivers_text (window : Window) (stream : Stream) (text : List Char) : Delivers window [⟨stream, text, none⟩] text where
  bytes := rfl
  newlines := rfl
  exceeds event hEvent skipped hSkipped := by
    rw [mem_singleton.mp hEvent] at hSkipped
    exact nomatch hSkipped
  shown buffer before hHolds hLimits := by
    rw [← hLimits]
    exact hHolds.push text

theorem delivers_skip {skipped : OutputSkip} {left : List Char} (hSkips : Skips skipped left)
    (hExceeds : Exceeds window.limits (encode text)) (stream : Stream) :
    Delivers window [⟨stream, text, some skipped⟩] (left ++ text) where
  bytes := by
    rw [utf8ByteLength_append, ← hSkips.bytes, Nat.add_comm]
    rfl
  newlines := by
    rw [countNewlines_append, ← hSkips.newlines, Nat.add_comm]
    rfl
  exceeds event hEvent _ _ := by
    rw [mem_singleton.mp hEvent]
    exact hExceeds
  shown buffer before hHolds hLimits := by
    rw [← hLimits] at hExceeds ⊢
    exact hHolds.pushSkipped hSkips hExceeds

theorem delivers_segments (window : Window) (segments : List Segment) :
    Delivers window (segments.map fun (stream, text) => ⟨stream, text, none⟩) (joined segments) := by
  induction segments with
  | nil => exact delivers_nil window
  | cons first rest ih =>
    rw [joined_cons]
    exact (delivers_text window first.1 first.2).append ih

theorem Pending.Keeps.take (h : pending.Keeps text) : Delivers pending.window pending.take.1 text := by
  rcases h.skipped with ⟨hNone, hText⟩ | ⟨skipped, left, hSome, hSkips, hText, hExceeds⟩
  · rw [Pending.take, hNone, hText]
    exact delivers_segments pending.window pending.segments
  · rw [Pending.take, hSome, hText]
    exact delivers_skip hSkips hExceeds _

theorem Pending.Keeps.run {pending : Pending} (h : pending.Keeps text)
    (hFits : pending.window.Fits overflowChecks) (steps : List WindowStep) :
    ∃ events last, pending.run overflowChecks steps = some (events, last) ∧
      Delivers pending.window (events ++ last.take.1) (text ++ (pieces steps).flatten) := by
  induction steps generalizing pending text with
  | nil =>
    refine ⟨[], pending, rfl, ?_⟩
    rw [nil_append, pieces, filterMap_nil, flatten_nil, append_nil]
    exact h.take
  | cons step steps ih =>
    cases step with
    | push stream piece =>
      obtain ⟨pushed, hPush, hWindow, hKeeps⟩ := h.push hFits stream piece
      rw [← hWindow] at hFits ⊢
      obtain ⟨events, last, hRun, hDelivers⟩ := ih hKeeps hFits
      rw [Pending.run, hPush]
      refine ⟨events, last, hRun, ?_⟩
      rw [append_assoc] at hDelivers
      exact hDelivers
    | take =>
      obtain ⟨events, last, hRun, hDelivers⟩ := ih (keeps_take pending) hFits
      rw [Pending.run, hRun]
      refine ⟨_, last, rfl, ?_⟩
      rw [append_assoc]
      exact h.take.append hDelivers

/-- Delivered events that cannot be told from the pushed text in the caller's tail. -/
structure Shown (window : Window) (steps : List WindowStep) (events : List Event) : Prop where
  bytes : (events.map Event.bytes).sum = ((pieces steps).map utf8ByteLength).sum
  newlines : (events.map Event.newlines).sum = ((pieces steps).map countNewlines).sum
  exceeds : ∀ event ∈ events, ∀ skipped, event.skipped = some skipped → Exceeds window.limits (encode event.text)
  snapshot : ((OutputBuffer.new window.limits).feed events).snapshot.1 =
    ((OutputBuffer.new window.limits).feedText (pieces steps)).snapshot.1

/-- No run panics, and none shows in the caller's tail. -/
def Window.Invisible (overflowChecks : Bool) (window : Window) : Prop :=
  ∀ steps, ∃ events last, (Pending.new window).run overflowChecks steps = some (events, last) ∧
    Shown window steps (events ++ last.take.1)

theorem Holds.feedText {buffer : OutputBuffer} (h : Holds buffer text) (texts : List (List Char)) :
    Holds (buffer.feedText texts) (text ++ texts.flatten) ∧ (buffer.feedText texts).limits = buffer.limits := by
  induction texts generalizing buffer text with
  | nil =>
    rw [flatten_nil, append_nil]
    exact ⟨h, rfl⟩
  | cons first rest ih =>
    obtain ⟨hHolds, hLimits⟩ := h.push first
    rw [flatten_cons, ← append_assoc, ← hLimits]
    exact ih hHolds

theorem sum_utf8ByteLength (texts : List (List Char)) : (texts.map utf8ByteLength).sum = utf8ByteLength texts.flatten := by
  induction texts with
  | nil => rfl
  | cons first rest ih => rw [map_cons, sum_cons, ih, flatten_cons, utf8ByteLength_append]

theorem sum_countNewlines (texts : List (List Char)) : (texts.map countNewlines).sum = countNewlines texts.flatten := by
  induction texts with
  | nil => rfl
  | cons first rest ih => rw [map_cons, sum_cons, ih, flatten_cons, countNewlines_append]

theorem Delivers.shows {steps : List WindowStep} {events : List Event} (h : Delivers window events (pieces steps).flatten) :
    Shown window steps events where
  bytes := by rw [h.bytes, sum_utf8ByteLength]
  newlines := by rw [h.newlines, sum_countNewlines]
  exceeds := h.exceeds
  snapshot := by
    obtain ⟨hEvents, hEventLimits⟩ := h.shown _ _ (holds_new window.limits) rfl
    obtain ⟨hTexts, hTextLimits⟩ := (holds_new window.limits).feedText (pieces steps)
    rw [hEvents.snapshot, hTexts.snapshot, hEventLimits, hTextLimits]
    rfl

/-! Bounds that cannot be computed. -/

theorem usize_panics {value : Nat} (h : 2 ^ 64 ≤ value) : usize true value = none :=
  if_pos ⟨rfl, h⟩

theorem usize_wraps (value : Nat) : usize false value = some (value % 2 ^ 64) :=
  if_neg fun hBoth => nomatch hBoth.1

theorem not_invisible_of_panic (hText : text ≠ [])
    (h : Pending.accumulated overflowChecks ⟨window, [(.stdout, text)], utf8ByteLength text, countNewlines text, none⟩ = none) :
    ¬window.Invisible overflowChecks := by
  intro hInvisible
  obtain ⟨events, last, hRun, -⟩ := hInvisible [.push .stdout text]
  have hPush : (Pending.new window).push overflowChecks .stdout text = none := by
    rw [Pending.push, if_neg hText, Pending.new]
    dsimp only [Pending.hold]
    rw [Nat.zero_add, Nat.zero_add, h]
    rfl
  rw [Pending.run, hPush] at hRun
  exact nomatch hRun

theorem not_invisible_of_removed {counted : OutputSkip}
    (h : (Pending.new window).push overflowChecks .stdout text = some ⟨window, [], 0, 0, some counted⟩) :
    ¬window.Invisible overflowChecks := by
  intro hInvisible
  obtain ⟨events, last, hRun, hShown⟩ := hInvisible [.push .stdout text]
  rw [Pending.run, h] at hRun
  cases hRun
  exact (hShown.exceeds _ mem_cons_self counted rfl).ne_nil rfl

theorem fewWindows_panics (h : 2 ^ 64 ≤ 4 * (bound.toNat + 1)) : Pending.fewWindows true bound = none := by
  rw [Pending.fewWindows]
  by_cases hSum : bound.toNat + 1 < 2 ^ 64
  · rw [usize_of_lt hSum, bind_some, usize_panics h]
  · rw [usize_panics (Nat.not_lt.mp hSum)]
    rfl

theorem panics_bytes (h : 2 ^ 64 ≤ 4 * (window.maxBytes.toNat + 1)) : ¬window.Invisible true := by
  apply not_invisible_of_panic (cons_ne_nil 'a' [])
  rw [Pending.accumulated, fewWindows_panics h]
  rfl

theorem panics_lines (hBytes : 4 * (window.maxBytes.toNat + 1) < 2 ^ 64) (h : 2 ^ 64 ≤ 4 * (window.maxLines.toNat + 1)) :
    ¬window.Invisible true := by
  have hFew : Pending.fewWindows true window.maxBytes = some (4 * (window.maxBytes.toNat + 1)) := by
    rw [Pending.fewWindows, usize_of_lt (by omega), bind_some, usize_of_lt hBytes]
  apply not_invisible_of_panic (cons_ne_nil 'a' [])
  rw [Pending.accumulated, hFew, bind_some, fewWindows_panics h, if_neg]
  · rfl
  · show ¬1 > 4 * (window.maxBytes.toNat + 1)
    omega

theorem not_invisible_of_cuts {c : Char} {bytesCut : Nat} (hOne : (encode [c]).length = 1)
    (hFew : Pending.accumulated false ⟨window, [(.stdout, [c])], utf8ByteLength [c], countNewlines [c], none⟩ = some true)
    (hByteCut : Pending.byteCut false window (encode [c]) 0 = some bytesCut)
    (hLineCut : Pending.lineCut false window (encode [c]) 0 bytesCut = some 1) : ¬window.Invisible false := by
  have hDrain : drain [c] 1 = some ([c], []) := by
    rw [drain, if_pos (by rw [isCharBoundary, hOne]; rfl), take_of_length_le (Nat.le_of_eq hOne),
      drop_eq_nil_of_le (Nat.le_of_eq hOne), decode_encode]
    rfl
  have hFirst : Pending.trimFirst false window ⟨[(.stdout, [c])], utf8ByteLength [c], countNewlines [c], []⟩ =
      some ⟨[], 0, 0, [c]⟩ := by
    simp only [Pending.trimFirst, sub_of_le (Nat.le_refl _), Nat.sub_self, hByteCut, hLineCut, hDrain, bind_eq_bind,
      bind_some]
    rfl
  apply not_invisible_of_removed
  rw [Pending.push, if_neg (cons_ne_nil c []), Pending.new]
  dsimp only [Pending.hold]
  rw [Nat.zero_add, Nat.zero_add, hFew, bind_some, if_pos rfl, Pending.trim, Pending.trimSegments, bind_eq_bind,
    bind_some, hFirst]
  · rfl
  · exact fun first second rest hTwo => nomatch hTwo

theorem sum_wraps (h : 2 ^ 64 ≤ bound.toNat + 1) : usize false (bound.toNat + 1) = some 0 := by
  have hLt := bound.toNat_lt
  rw [usize_wraps]
  congr 1
  omega

theorem fewWindows_wraps (h : 2 ^ 64 ≤ bound.toNat + 1) : Pending.fewWindows false bound = some 0 := by
  rw [Pending.fewWindows, sum_wraps h]
  rfl

theorem wraps_bytes (h : 2 ^ 64 ≤ window.maxBytes.toNat + 1) : ¬window.Invisible false := by
  have hByteCut : Pending.byteCut false window (encode ['a']) 0 = some 1 := by
    rw [Pending.byteCut, sum_wraps h]
    decide
  apply not_invisible_of_cuts rfl _ hByteCut
  · rw [Pending.lineCut, usize_wraps, bind_eq_bind, bind_some]
    dsimp only
    split_ifs with hKeep hEnough
    · exact absurd (hKeep.trans_le hEnough) (Nat.lt_irrefl 0)
    · rfl
    · rfl
  · rw [Pending.accumulated, fewWindows_wraps h]
    rfl

theorem wraps_lines (hBytes : window.maxBytes.toNat + 1 < 2 ^ 64) (h : 2 ^ 64 ≤ window.maxLines.toNat + 1) :
    ¬window.Invisible false := by
  have hByteCut : Pending.byteCut false window (encode ['\n']) 0 = some 0 := by
    rw [Pending.byteCut, usize_of_lt hBytes, bind_eq_bind, bind_some]
    dsimp only
    apply if_neg
    show ¬1 > window.maxBytes.toNat + 1 - 0
    omega
  apply not_invisible_of_cuts rfl _ hByteCut
  · rw [Pending.lineCut, sum_wraps h]
    rfl
  · rw [Pending.accumulated, Pending.fewWindows, usize_wraps, bind_some, usize_wraps, bind_some, fewWindows_wraps h]
    dsimp only
    split_ifs <;> rfl

/-- The window stays invisible exactly where `4 * (bound + 1)` fits `usize`, or, without
overflow checks, where `bound + 1` does. -/
theorem invisible_iff_fits (overflowChecks : Bool) (window : Window) :
    window.Invisible overflowChecks ↔ window.Fits overflowChecks := by
  constructor
  · intro hInvisible
    cases overflowChecks with
    | true =>
      have hBytes : 4 * (window.maxBytes.toNat + 1) < 2 ^ 64 := Nat.not_le.mp fun h => panics_bytes h hInvisible
      exact ⟨hBytes, Nat.not_le.mp fun h => panics_lines hBytes h hInvisible⟩
    | false =>
      have hBytes : window.maxBytes.toNat + 1 < 2 ^ 64 := Nat.not_le.mp fun h => wraps_bytes h hInvisible
      exact ⟨hBytes, Nat.not_le.mp fun h => wraps_lines hBytes h hInvisible⟩
  · intro hFits steps
    obtain ⟨events, last, hRun, hDelivers⟩ := (keeps_new window).run hFits steps
    exact ⟨events, last, hRun, hDelivers.shows⟩

/-- The largest `maxBytes` of a request. -/
theorem largest_window_shows : ¬Window.Invisible true ⟨18446744073709551615, 10⟩ ∧
    ¬Window.Invisible false ⟨18446744073709551615, 10⟩ :=
  ⟨panics_bytes (by decide), wraps_bytes (by decide)⟩

end OctoberHarness.Output
