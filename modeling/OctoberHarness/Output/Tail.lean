import OctoberHarness.Output.Buffer

/-! The tail window of a text is that of any suffix longer than the window, and a buffer
that holds such a suffix shows the tail of the whole text. -/
namespace OctoberHarness.Output

open Utf8 List

variable {limits : OutputLimits}

/-- More than the window, by a byte or a newline. -/
def Exceeds (limits : OutputLimits) (bytes : List UInt8) : Prop :=
  limits.maxBytes < bytes.length ∨ limits.maxLines < bytes.count newline

variable {bytes : List UInt8} {buffer : OutputBuffer}

theorem Exceeds.ne_nil (h : Exceeds limits bytes) : bytes ≠ [] := by
  rintro rfl
  rcases h with h | h <;> exact absurd h (Nat.not_lt_zero _)

theorem Exceeds.append {first : List UInt8} (h : Exceeds limits first) (second : List UInt8) : Exceeds limits (first ++ second) := by
  rw [Exceeds, length_append, count_append]
  exact h.imp (fun hBytes => by omega) fun hLines => by omega

/-! Searches among the bytes of a suffix. -/

theorem lineStart_le (bytes : List UInt8) (maxLines index lines : Nat) : lineStart bytes maxLines index lines ≤ index := by
  induction index generalizing lines with
  | zero => exact Nat.le_refl _
  | succ index ih =>
    rw [lineStart]
    split_ifs
    · exact Nat.le_refl _
    · exact (ih _).trans (Nat.le_succ _)
    · exact (ih _).trans (Nat.le_succ _)

variable (before : List UInt8)

theorem getElem?_suffix (bytes : List UInt8) (index : Nat) : (before ++ bytes)[before.length + index]? = bytes[index]? := by
  rw [getElem?_append_right (Nat.le_add_right _ _), Nat.add_sub_cancel_left]

theorem lineStart_suffix (bytes : List UInt8) (maxLines index lines : Nat) :
    lineStart (before ++ bytes) maxLines (before.length + index) lines = before.length + lineStart bytes maxLines index lines ∨
      lineStart bytes maxLines index lines = 0 ∧
        lineStart (before ++ bytes) maxLines (before.length + index) lines ≤ before.length := by
  induction index generalizing lines with
  | zero => exact .inr ⟨rfl, lineStart_le _ _ _ _⟩
  | succ index ih =>
    rw [← Nat.add_assoc, lineStart, lineStart, getElem?_suffix]
    split_ifs
    · exact .inl (Nat.add_assoc _ _ _)
    · exact ih _
    · exact ih _

theorem take_succ_of {index : Nat} {byte : UInt8} (h : bytes[index]? = some byte) :
    bytes.take (index + 1) = bytes.take index ++ [byte] := by
  rw [take_add_one, h]
  rfl

theorem lineStart_pos {maxLines : Nat} {index lines : Nat} (hLines : lines ≤ maxLines)
    (h : maxLines < lines + (bytes.take index).count newline) : 0 < lineStart bytes maxLines index lines := by
  induction index generalizing lines with
  | zero =>
    rw [take_zero, count_nil] at h
    omega
  | succ index ih =>
    rw [lineStart]
    split_ifs with hByte hLast
    · exact Nat.succ_pos _
    · rw [take_succ_of hByte, count_append, count_singleton_self] at h
      exact ih (by omega) (by omega)
    · apply ih hLines
      rw [take_add_one, count_append] at h
      have hNone : (bytes[index]?.toList).count newline = 0 := by
        rw [count_eq_zero]
        intro hMem
        exact hByte (Option.mem_toList.mp hMem)
      omega

theorem searchEnd_suffix {before bytes : List UInt8} (h : bytes ≠ []) :
    searchEnd (before ++ bytes) = before.length + searchEnd bytes := by
  have hPos : 0 < bytes.length := length_pos_of_ne_nil h
  rw [searchEnd, searchEnd, getLast?_append_of_ne_nil _ h, length_append]
  split_ifs
  · omega
  · rfl

theorem count_searchEnd (bytes : List UInt8) : bytes.count newline ≤ (bytes.take (searchEnd bytes)).count newline + 1 := by
  rw [searchEnd]
  split_ifs with hLast
  · have hSplit := dropLast_append_getLast? newline hLast
    rw [← dropLast_eq_take]
    calc bytes.count newline = (bytes.dropLast ++ [newline]).count newline := by rw [hSplit]
      _ = bytes.dropLast.count newline + 1 := by rw [count_append, count_singleton_self]
      _ ≤ _ := Nat.le_refl _
  · rw [take_length]
    exact Nat.le_succ _

theorem indexOfNewline_suffix (bytes : List UInt8) (index : Nat) :
    indexOfNewline (before ++ bytes) (before.length + index) = (indexOfNewline bytes index).map (before.length + ·) := by
  rw [indexOfNewline, indexOfNewline, drop_length_add_append, Option.map_map]
  congr 1
  funext offset
  exact Nat.add_assoc _ _ _

theorem characterStart_suffix (bytes : List UInt8) (index : Nat) :
    characterStart (before ++ bytes) (before.length + index) = before.length + characterStart bytes index := by
  rw [characterStart, characterStart, drop_length_add_append, Nat.add_assoc]

/-! The tail of a suffix. -/

theorem byteStart_suffix {maxBytes : Nat} (h : maxBytes < bytes.length) :
    byteStart (before ++ bytes) maxBytes = before.length + byteStart bytes maxBytes := by
  have hFrom : (before ++ bytes).length - maxBytes = before.length + (bytes.length - maxBytes) := by
    rw [length_append]
    omega
  have hIndex : (before ++ bytes).length - maxBytes - 1 = before.length + (bytes.length - maxBytes - 1) := by
    rw [hFrom]
    omega
  rw [byteStart, byteStart, hIndex, indexOfNewline_suffix, hFrom, characterStart_suffix]
  cases indexOfNewline bytes (bytes.length - maxBytes - 1) with
  | none => rfl
  | some index =>
    show (if before.length + index + 1 < (before ++ bytes).length then _ else _) = _
    rw [length_append]
    by_cases hInside : index + 1 < bytes.length
    · rw [if_pos (by omega)]
      show _ = before.length + if index + 1 < bytes.length then _ else _
      rw [if_pos hInside]
      exact Nat.add_assoc _ _ _
    · rw [if_neg (by omega)]
      show _ = before.length + if index + 1 < bytes.length then _ else _
      rw [if_neg hInside]

theorem tailStart_suffix (h : Exceeds limits bytes) :
    tailStart (before ++ bytes) limits = before.length + tailStart bytes limits := by
  rw [tailStart, tailStart]
  by_cases hZero : limits.maxLines = 0 ∨ limits.maxBytes = 0
  · rw [if_pos hZero, if_pos hZero, length_append]
  · rw [if_neg hZero, if_neg hZero, searchEnd_suffix h.ne_nil, length_append]
    rcases lineStart_suffix before bytes limits.maxLines (searchEnd bytes) 1 with hSame | ⟨hNone, hBefore⟩
    · rw [hSame]
      by_cases hLong : bytes.length - lineStart bytes limits.maxLines (searchEnd bytes) 1 > limits.maxBytes
      · rw [if_pos hLong, if_pos (by omega)]
        exact byteStart_suffix before (by omega)
      · rw [if_neg hLong, if_neg (by omega)]
    · -- The suffix has too few lines for the window, so it has too many bytes.
      have hLong : limits.maxBytes < bytes.length := by
        apply h.resolve_right
        intro hLines
        have hCount := count_searchEnd bytes
        have hPos : 0 < lineStart bytes limits.maxLines (searchEnd bytes) 1 := lineStart_pos (by omega) (by omega)
        omega
      rw [hNone, if_pos (by omega), if_pos (by omega)]
      exact byteStart_suffix before hLong

def keptBytes (limits : OutputLimits) (text : List Char) : List UInt8 :=
  (encode text).drop (tailStart (encode text) limits)

theorem boundOutput_text (text : List Char) (limits : OutputLimits) :
    (boundOutput text limits).text = decode (keptBytes limits text) := by
  show (if (keptBytes limits text).length = (encode text).length then text else decode (keptBytes limits text)) = _
  split_ifs with hAll
  · have hSame : keptBytes limits text = encode text := (drop_suffix _ _).eq_of_length hAll
    rw [hSame, decode_encode]
  · rfl

variable {text : List Char}

theorem keptBytes_suffix (before : List Char) (h : Exceeds limits (encode text)) :
    keptBytes limits (before ++ text) = keptBytes limits text := by
  rw [keptBytes, keptBytes, encode_append, tailStart_suffix _ h, drop_length_add_append]

theorem endsWithNewline_eq (text : List Char) : endsWithNewline text = decide ((encode text).getLast? = some newline) := by
  rcases eq_nil_or_concat text with rfl | ⟨rest, c, rfl⟩
  · rfl
  · obtain ⟨first, later, hChar, -, -⟩ := encodeChar_cons c
    have hNe : String.utf8EncodeChar c ≠ [] := by
      rw [hChar]
      exact cons_ne_nil _ _
    have hEncode : encode (rest ++ [c]) = encode rest ++ String.utf8EncodeChar c := by
      rw [encode_append, encode_cons]
      exact congrArg (encode rest ++ ·) (append_nil _)
    rw [endsWithNewline, concat_eq_append, getLast?_concat, hEncode, getLast?_append_of_ne_nil _ hNe]
    by_cases hNewline : c = '\n'
    · subst hNewline
      rw [encodeChar_newline]
      rfl
    · have hByte : (String.utf8EncodeChar c).getLast? ≠ some newline := fun hLast =>
        newline_notMem_encodeChar hNewline (mem_of_getLast? hLast)
      rw [decide_eq_false hByte, decide_eq_false (fun hSame => hNewline (Option.some.inj hSame))]

theorem lineCount_encode (text : List Char) :
    lineCount (encode text) = lines (countNewlines text) (text = [] || endsWithNewline text) := by
  cases text with
  | nil => rfl
  | cons c rest =>
    obtain ⟨first, later, hChar, -, -⟩ := encodeChar_cons c
    have hNe : encode (c :: rest) ≠ [] := by
      rw [encode_cons, hChar]
      exact cons_ne_nil _ _
    rw [lineCount, if_neg hNe, count_newline, endsWithNewline_eq, lines, countNewlines]
    simp

theorem lineCount_suffix_le {bytes kept : List UInt8} (h : kept <:+ bytes) : lineCount kept ≤ lineCount bytes := by
  obtain ⟨before, rfl⟩ := h
  by_cases hNil : kept = []
  · rw [hNil]
    exact Nat.zero_le _
  · have hAll : before ++ kept ≠ [] := fun hNone => hNil (List.append_eq_nil_iff.mp hNone).2
    rw [lineCount, if_neg hNil, lineCount, if_neg hAll, getLast?_append_of_ne_nil _ hNil, count_append]
    omega

/-- Every chunk knows its sizes. -/
def Sized (chunks : List Chunk) : Prop :=
  ∀ chunk ∈ chunks, chunk.bytes = utf8ByteLength chunk.text ∧ chunk.newlines = countNewlines chunk.text

/-- A buffer counts a whole text and stores all of it or a suffix that exceeds the window. -/
structure Holds (buffer : OutputBuffer) (text : List Char) : Prop where
  totalBytes : buffer.totalBytes = utf8ByteLength text
  totalNewlines : buffer.totalNewlines = countNewlines text
  ends : buffer.endsWithNewline = (decide (text = []) || endsWithNewline text)
  sized : Sized buffer.chunks
  storedBytes : buffer.storedBytes = utf8ByteLength buffer.stored
  storedNewlines : buffer.storedNewlines = countNewlines buffer.stored
  suffix : ∃ before, text = before ++ buffer.stored ∧ (before = [] ∨ Exceeds buffer.limits (encode buffer.stored))

theorem holds_new (limits : OutputLimits) : Holds (.new limits) [] where
  totalBytes := rfl
  totalNewlines := rfl
  ends := rfl
  sized _ hChunk := absurd hChunk not_mem_nil
  storedBytes := rfl
  storedNewlines := rfl
  suffix := ⟨[], rfl, .inl rfl⟩

theorem utf8ByteLength_append (first second : List Char) :
    utf8ByteLength (first ++ second) = utf8ByteLength first + utf8ByteLength second := by
  rw [utf8ByteLength, encode_append, length_append]
  rfl

theorem countNewlines_append (first second : List Char) :
    countNewlines (first ++ second) = countNewlines first + countNewlines second :=
  count_append

theorem dropChunks_spec {chunks : List Chunk} (hSized : Sized chunks) :
    ∃ dropped kept, OutputBuffer.dropChunks limits chunks (utf8ByteLength (chunks.flatMap Chunk.text))
        (countNewlines (chunks.flatMap Chunk.text)) =
          (kept, utf8ByteLength (kept.flatMap Chunk.text), countNewlines (kept.flatMap Chunk.text)) ∧
      chunks = dropped ++ kept ∧ (dropped = [] ∨ Exceeds limits (encode (kept.flatMap Chunk.text))) := by
  induction chunks with
  | nil => exact ⟨[], [], rfl, rfl, .inl rfl⟩
  | cons first rest ih =>
    cases rest with
    | nil => exact ⟨[], [first], rfl, rfl, .inl rfl⟩
    | cons second rest =>
      obtain ⟨hBytes, hNewlines⟩ := hSized first mem_cons_self
      have hBytesAfter : utf8ByteLength ((first :: second :: rest).flatMap Chunk.text) - first.bytes =
          utf8ByteLength ((second :: rest).flatMap Chunk.text) := by
        rw [flatMap_cons, utf8ByteLength_append, hBytes]
        omega
      have hNewlinesAfter : countNewlines ((first :: second :: rest).flatMap Chunk.text) - first.newlines =
          countNewlines ((second :: rest).flatMap Chunk.text) := by
        rw [flatMap_cons, countNewlines_append, hNewlines]
        omega
      rw [OutputBuffer.dropChunks, hBytesAfter, hNewlinesAfter]
      split_ifs with hNeeded
      · exact ⟨[], _, rfl, rfl, .inl rfl⟩
      · obtain ⟨dropped, kept, hSame, hSplit, hKept⟩ := ih fun chunk hChunk => hSized chunk (mem_cons_of_mem _ hChunk)
        refine ⟨first :: dropped, kept, hSame, congrArg (first :: ·) hSplit, .inr ?_⟩
        rcases hKept with rfl | hExceeds
        · -- Nothing more was dropped, and this rest exceeds the window.
          rw [← nil_append kept, ← hSplit, Exceeds, count_newline]
          rw [utf8ByteLength, countNewlines] at hNeeded
          omega
        · exact hExceeds

theorem endsWithNewline_append (first : List Char) {second : List Char} (h : second ≠ []) :
    endsWithNewline (first ++ second) = endsWithNewline second := by
  rw [endsWithNewline, getLast?_append_of_ne_nil _ h]
  rfl

/-- What a buffer accepts that stores a suffix of a text or is about to. -/
theorem holds_accept {chunk : List Char} (hChunk : chunk ≠ [])
    (hBytes : buffer.totalBytes = utf8ByteLength text) (hNewlines : buffer.totalNewlines = countNewlines text)
    (hSized : Sized buffer.chunks) (hStoredBytes : buffer.storedBytes = utf8ByteLength buffer.stored)
    (hStoredNewlines : buffer.storedNewlines = countNewlines buffer.stored)
    (hSuffix : ∃ before, text = before ++ buffer.stored ∧
      (before = [] ∨ Exceeds buffer.limits (encode (buffer.stored ++ chunk)))) :
    Holds (buffer.accept chunk) (text ++ chunk) ∧ (buffer.accept chunk).limits = buffer.limits := by
  have hAll : (buffer.chunks ++ [Chunk.mk chunk (utf8ByteLength chunk) (countNewlines chunk)]).flatMap Chunk.text =
      buffer.stored ++ chunk := by
    rw [flatMap_append, flatMap_singleton]
    rfl
  have hSizedAll : Sized (buffer.chunks ++ [Chunk.mk chunk (utf8ByteLength chunk) (countNewlines chunk)]) := by
    intro other hOther
    rcases List.mem_append.mp hOther with hOld | hNew
    · exact hSized other hOld
    · rw [List.mem_singleton.mp hNew]
      exact ⟨rfl, rfl⟩
  obtain ⟨dropped, kept, hDrop, hSplit, hKept⟩ := @dropChunks_spec buffer.limits _ hSizedAll
  rw [hAll, utf8ByteLength_append, countNewlines_append, ← hStoredBytes, ← hStoredNewlines] at hDrop
  have hAccept : buffer.accept chunk =
      { buffer with
        totalBytes := buffer.totalBytes + utf8ByteLength chunk
        totalNewlines := buffer.totalNewlines + countNewlines chunk
        endsWithNewline := endsWithNewline chunk
        chunks := kept
        storedBytes := utf8ByteLength (kept.flatMap Chunk.text)
        storedNewlines := countNewlines (kept.flatMap Chunk.text) } := by
    rw [OutputBuffer.accept, if_neg hChunk]
    simp only [hDrop]
  rw [hAccept]
  refine ⟨⟨?_, ?_, ?_, ?_, rfl, rfl, ?_⟩, rfl⟩
  · rw [utf8ByteLength_append, ← hBytes]
  · rw [countNewlines_append, ← hNewlines]
  · have hNe : text ++ chunk ≠ [] := fun hNone => hChunk (List.append_eq_nil_iff.mp hNone).2
    rw [decide_eq_false hNe, Bool.false_or, endsWithNewline_append text hChunk]
  · exact fun other hOther => hSizedAll other (hSplit ▸ mem_append_right _ hOther)
  · obtain ⟨before, hText, hBefore⟩ := hSuffix
    have hStored : buffer.stored ++ chunk = dropped.flatMap Chunk.text ++ kept.flatMap Chunk.text := by
      rw [← hAll, hSplit, flatMap_append]
    refine ⟨before ++ dropped.flatMap Chunk.text, ?_, ?_⟩
    · rw [hText, append_assoc, hStored, append_assoc]
      rfl
    · rcases hKept with rfl | hExceeds
      · rw [flatMap_nil, append_nil]
        rw [flatMap_nil, nil_append] at hStored
        rw [hStored] at hBefore
        exact hBefore
      · exact .inr hExceeds

theorem Holds.push (h : Holds buffer text) (chunk : List Char) :
    Holds (buffer.push chunk none) (text ++ chunk) ∧ (buffer.push chunk none).limits = buffer.limits := by
  by_cases hChunk : chunk = []
  · subst hChunk
    rw [append_nil]
    show Holds (buffer.accept []) text ∧ (buffer.accept []).limits = _
    rw [OutputBuffer.accept, if_pos rfl]
    exact ⟨h, rfl⟩
  · apply holds_accept hChunk h.totalBytes h.totalNewlines h.sized h.storedBytes h.storedNewlines
    obtain ⟨before, hText, hBefore⟩ := h.suffix
    exact ⟨before, hText, hBefore.imp id fun hExceeds => by rw [encode_append]; exact hExceeds.append _⟩

/-- What a skip says of the text it stands for. -/
structure Skips (skipped : OutputSkip) (text : List Char) : Prop where
  nonempty : text ≠ []
  bytes : skipped.bytes = utf8ByteLength text
  newlines : skipped.newlines = countNewlines text
  ends : skipped.endsWithNewline = endsWithNewline text

theorem Holds.pushSkipped {left : List Char} (h : Holds buffer text) {skipped : OutputSkip}
    (hSkips : Skips skipped left) {chunk : List Char} (hChunk : Exceeds buffer.limits (encode chunk)) :
    Holds (buffer.push chunk (some skipped)) (text ++ (left ++ chunk)) ∧
      (buffer.push chunk (some skipped)).limits = buffer.limits := by
  have hBytes : skipped.bytes ≠ 0 := by
    rw [hSkips.bytes]
    obtain ⟨c, rest, hLeft⟩ := exists_cons_of_ne_nil hSkips.nonempty
    obtain ⟨first, later, hChar, -, -⟩ := encodeChar_cons c
    rw [utf8ByteLength, hLeft, encode_cons, hChar]
    exact Nat.succ_ne_zero _
  have hNe : chunk ≠ [] := by
    rintro rfl
    exact hChunk.ne_nil rfl
  rw [← append_assoc]
  show Holds ((buffer.skip skipped).accept chunk) _ ∧ ((buffer.skip skipped).accept chunk).limits = _
  rw [OutputBuffer.skip, if_neg hBytes]
  apply holds_accept hNe
  · show buffer.totalBytes + skipped.bytes = _
    rw [h.totalBytes, hSkips.bytes, utf8ByteLength_append]
  · show buffer.totalNewlines + skipped.newlines = _
    rw [h.totalNewlines, hSkips.newlines, countNewlines_append]
  · exact fun _ hMem => absurd hMem not_mem_nil
  · rfl
  · rfl
  · exact ⟨text ++ left, (append_nil _).symm, .inr hChunk⟩

/-- The tail of a text, as a snapshot shows it. -/
def summary (limits : OutputLimits) (text : List Char) : BoundedOutput where
  text := sanitizeOutput (decode (keptBytes limits text))
  droppedBytes := utf8ByteLength text - (keptBytes limits text).length
  droppedLines := lineCount (encode text) - lineCount (keptBytes limits text)

theorem Holds.snapshot (h : Holds buffer text) :
    buffer.snapshot.1 = summary buffer.limits text := by
  have hKept : keptBytes buffer.limits text = keptBytes buffer.limits buffer.stored := by
    obtain ⟨before, hText, rfl | hExceeds⟩ := h.suffix
    · rw [hText, nil_append]
    · rw [hText, keptBytes_suffix before hExceeds]
  have hLines : lines buffer.storedNewlines (decide (buffer.stored = []) || endsWithNewline buffer.stored) =
      lineCount (encode buffer.stored) := by
    rw [lineCount_encode, h.storedNewlines]
  have hAllLines : lines buffer.totalNewlines buffer.endsWithNewline = lineCount (encode text) := by
    rw [lineCount_encode, h.totalNewlines, h.ends]
  have hLe : lineCount (keptBytes buffer.limits buffer.stored) ≤ lineCount (encode buffer.stored) :=
    lineCount_suffix_le (drop_suffix _ _)
  show BoundedOutput.mk (sanitizeOutput (boundOutput buffer.stored buffer.limits).text)
    (buffer.totalBytes - (keptBytes buffer.limits buffer.stored).length)
    (lines buffer.totalNewlines buffer.endsWithNewline -
      (lines buffer.storedNewlines (decide (buffer.stored = []) || endsWithNewline buffer.stored) -
        (lineCount (encode buffer.stored) - lineCount (keptBytes buffer.limits buffer.stored)))) = _
  rw [boundOutput_text, hLines, hAllLines, summary, hKept, h.totalBytes, Nat.sub_sub_self hLe]

end OctoberHarness.Output
