import Mathlib.Data.List.TakeWhile
import OctoberHarness.Output.Buffer
import OctoberHarness.Truncate.Head

/-! The truncation of the coding agent's tools: like that of the durable package from the
head, and from the tail with a part of the last line when that line alone is too long. The
reason is wrong where every line is kept and only the trailing newline is too much, where
the only line is cut and one line is the limit, and a cut that keeps nothing counts as a
line. -/
namespace OctoberHarness.Truncate.Tool

open List

/-- The reason behind the loop: with `maxLines` lines it is always the line limit. -/
def reasonOf (options : TruncationOptions) (collected : Collected) : TruncatedBy :=
  if options.lineLimit ≤ collected.output.length ∧ collected.outputBytes ≤ options.byteLimit then .lines
  else collected.truncatedBy

def truncateHead (content : JsString) (options : TruncationOptions) : Option TruncationResult :=
  truncateHeadBy (reasonOf options) content (totalsOf content) options

def truncateStringToBytesFromEnd (str : JsString) (maxBytes : Nat) : JsString :=
  let buf := Utf8.encode (Utf16.decode str)
  if buf.length ≤ maxBytes then str
  else Utf16.encode (Utf8.decode (buf.drop (Output.characterStart buf (buf.length - maxBytes))))

/-- The lines of the loop from the end, each put in front. -/
def inOrder (collected : Collected) : Collected :=
  { collected with output := collected.output.reverse }

/-- What the loop from the end collects, and whether it is the cut of a
line that is too long alone. -/
def collectTail (lines : List JsString) (options : TruncationOptions) : Collected × Bool :=
  let collected := collect options.lineLimit options.byteLimit lines.reverse [] 0
  if collected.output = [] ∧ collected.truncatedBy = .bytes then
    let truncatedLine := truncateStringToBytesFromEnd (lines.getLast?.getD []) options.byteLimit
    (⟨[truncatedLine], utf8ByteLength truncatedLine, .bytes⟩, true)
  else (inOrder collected, false)

/-- The result for text beyond the limits. -/
def truncatedTail (content : JsString) (options : TruncationOptions) (collected : Collected) (lastLinePartial : Bool) :
    TruncationResult :=
  { untruncated (joinLines collected.output) (totalsOf content) options with
    truncated := true
    truncatedBy := some (reasonOf options collected)
    outputLines := collected.output.length
    outputBytes := utf8ByteLength (joinLines collected.output)
    lastLinePartial := lastLinePartial }

def truncateTail (content : JsString) (options : TruncationOptions) : TruncationResult :=
  if (splitLinesForCounting content).length ≤ options.lineLimit ∧ utf8ByteLength content ≤ options.byteLimit then
    untruncated content (totalsOf content) options
  else
    let (collected, lastLinePartial) := collectTail (splitLinesForCounting content) options
    truncatedTail content options collected lastLinePartial

variable {content : JsString} {options : TruncationOptions}

/-- Every line is within the limits, and the newline behind them is one byte too much. -/
def Trailing (content : JsString) (options : TruncationOptions) : Prop :=
  (splitLinesForCounting content).length ≤ options.lineLimit ∧ content.getLast? = some newline ∧
    utf8ByteLength content = options.byteLimit + 1

/-- The last line is too long by itself. -/
def LongLine (content : JsString) (options : TruncationOptions) (line : JsString) : Prop :=
  (splitLinesForCounting content).getLast? = some line ∧ options.byteLimit < utf8ByteLength line

/-- The only line is too long, and one line is the limit. -/
def OnlyLine (content : JsString) (options : TruncationOptions) : Prop :=
  options.lineLimit = 1 ∧ (splitLinesForCounting content).length = 1 ∧ ∃ line, LongLine content options line

/-- Not even the last character of a last line that is too long is within the limit. -/
def WideEnd (content : JsString) (options : TruncationOptions) : Prop :=
  ∃ line, LongLine content options line ∧ ∀ c ∈ (Utf16.decode line).getLast?, options.byteLimit < c.utf8Size

/-- A suffix of the line is kept. -/
def KeepsEnd (line : JsString) (options : TruncationOptions) (result : TruncationResult) : Prop :=
  result.outputLines = 1 ∧ ∃ kept, kept ≠ [] ∧ kept <:+ Utf16.decode line ∧ result.content = Utf16.encode kept ∧
    (Utf8.encode kept).length ≤ options.byteLimit

/-- Truncation from the head as its documentation has it. -/
structure HeadHolds (content : JsString) (options : TruncationOptions) (result : TruncationResult) : Prop where
  unchanged : result.content = content ↔ Within content options
  honest : Honest content options result
  shows : ¬Within content options → ShowsMost (splitLinesForCounting content) options
    (fun count => (splitLinesForCounting content).take count) result

/-- Truncation from the tail as its documentation has it. -/
structure TailHolds (content : JsString) (options : TruncationOptions) (result : TruncationResult) : Prop where
  unchanged : result.content = content ↔ Within content options
  honest : Honest content options result
  keeps : ∀ line, LongLine content options line → (∃ c ∈ Utf16.decode line, c.utf8Size ≤ options.byteLimit) →
    KeepsEnd line options result
  shows : ¬Within content options → (∀ line, LongLine content options line →
    ∀ c ∈ Utf16.decode line, options.byteLimit < c.utf8Size) → ShowsMost (splitLinesForCounting content) options
      (fun count => (splitLinesForCounting content).drop ((splitLinesForCounting content).length - count)) result

theorem Trailing.joinedBytes_eq (h : Trailing content options) :
    joinedBytes (splitLinesForCounting content) = options.byteLimit := by
  have hTotal := utf8ByteLength_lines content
  rw [if_pos h.2.1, h.2.2] at hTotal
  omega

theorem trailing_of_fits (hWithin : ¬Within content options)
    (hLines : (splitLinesForCounting content).length ≤ options.lineLimit)
    (hBytes : joinedBytes (splitLinesForCounting content) ≤ options.byteLimit) : Trailing content options := by
  have hTotal := utf8ByteLength_lines content
  have hMore : ¬utf8ByteLength content ≤ options.byteLimit := fun hAll => hWithin ⟨hLines, hAll⟩
  split_ifs at hTotal with hLast
  · exact ⟨hLines, hLast, by omega⟩
  · omega

/-- The reason for lines that the loop visits, in either order, is wrong only where all fit. -/
theorem reason_iff {lines : List JsString} (hWithin : ¬Within content options)
    (hPerm : lines.Perm (splitLinesForCounting content)) {collected : Collected}
    (hLongest : Longest options.lineLimit options.byteLimit lines collected) :
    ((reasonOf options collected = .lines →
        options.lineLimit < (splitLinesForCounting content).length) ∧
      (reasonOf options collected = .bytes →
        options.byteLimit < utf8ByteLength content)) ↔ ¬Trailing content options := by
  have hBytes : joinedBytes lines = joinedBytes (splitLinesForCounting content) := by
    rw [joinedBytes, joinedBytes, (hPerm.map _).sum_eq, hPerm.length_eq]
  have hLength := hPerm.length_eq
  have hFits : collected.outputBytes ≤ options.byteLimit := hLongest.bytes ▸ hLongest.fits
  constructor
  · rintro ⟨hLines, -⟩ hTrailing
    have hAll : collected.truncatedBy = .lines := by
      cases hReason : collected.truncatedBy with
      | lines => rfl
      | bytes =>
        have hMore := hLongest.bytes_lt hReason
        have hSame := hTrailing.joinedBytes_eq
        omega
    rw [reasonOf, hAll, ite_self] at hLines
    have hMany := hLines rfl
    have hFew := hTrailing.1
    omega
  · intro hTrailing
    refine ⟨fun hReason => ?_, fun hReason => ?_⟩
    · by_contra hFew
      refine hTrailing (trailing_of_fits hWithin (Nat.not_lt.mp hFew) ?_)
      have hAll : collected.output = lines := by
        apply hLongest.isPrefix.eq_of_length
        have hLe := hLongest.isPrefix.length_le
        rw [reasonOf] at hReason
        split_ifs at hReason with hFull
        · omega
        · rcases hLongest.all (by rw [hReason]; simp) with hCount | hAll
          · omega
          · rw [hAll]
      rw [← hBytes, ← hAll]
      exact hLongest.fits
    · rw [reasonOf] at hReason
      split_ifs at hReason
      have hMore := hLongest.bytes_lt hReason
      have hLe := joinedBytes_le content
      omega

/-! What is shown. -/

theorem changed {picked others : List JsString} (hWithin : ¬Within content options)
    (hPerm : (picked ++ others).Perm (splitLinesForCounting content)) (hCount : picked.length ≤ options.lineLimit)
    (hBytes : utf8ByteLength (joinLines picked) ≤ options.byteLimit) : joinLines picked ≠ content := by
  intro hSame
  have hLines : options.lineLimit < (splitLinesForCounting content).length := by
    by_contra hFew
    exact hWithin ⟨Nat.not_lt.mp hFew, hSame ▸ hBytes⟩
  have hLength := hPerm.length_eq
  rw [length_append] at hLength
  rcases eq_or_ne picked [] with rfl | hPicked
  · subst hSame
    exact hWithin ⟨Nat.zero_le _, Nat.zero_le _⟩
  · have hTotal := joinedBytes_le content
    rw [joinedBytes, ← (hPerm.map _).sum_eq, ← hPerm.length_eq, ← joinedBytes, joinedBytes_append _ _ hPicked, ← hSame,
      utf8ByteLength_join] at hTotal
    omega

variable {result : TruncationResult} {line : JsString}

theorem head_changed (hWithin : ¬Within content options)
    (h : ShowsMost (splitLinesForCounting content) options (fun count => (splitLinesForCounting content).take count) result) :
    result.content ≠ content := by
  obtain ⟨hLength, hCount, hBytes⟩ := h.most.1
  rw [h.content]
  apply changed hWithin (by rw [take_append_drop]) _ hBytes
  exact (length_take_le _ _).trans hCount

theorem honest_iff {reason : TruncatedBy} (hBytes : result.outputBytes = utf8ByteLength result.content)
    (hReason : result.truncatedBy = some reason) :
    Honest content options result ↔ (reason = .lines → options.lineLimit < (splitLinesForCounting content).length) ∧
      (reason = .bytes → options.byteLimit < utf8ByteLength content) := by
  refine ⟨fun h => ⟨fun hLines => h.lines (hReason.trans (congrArg some hLines)), fun hMore => h.bytes (hReason.trans (congrArg some hMore))⟩, fun h => ⟨hBytes, ?_, ?_⟩⟩
  · exact fun hLines => h.1 (Option.some.inj (hReason.symm.trans hLines))
  · exact fun hMore => h.2 (Option.some.inj (hReason.symm.trans hMore))

theorem not_trailing_of_within (hWithin : Within content options) : ¬Trailing content options := by
  rintro ⟨-, -, hMore⟩
  have hLess := hWithin.2
  omega

theorem truncateHead_holds (content : JsString) (options : TruncationOptions) :
    (∃ result, truncateHead content options = some result ∧ HeadHolds content options result) ↔ ¬Trailing content options := by
  by_cases hWithin : Within content options
  · exact iff_of_true ⟨_, if_pos hWithin, iff_of_true rfl hWithin, ⟨rfl, (fun h => by cases h), (fun h => by cases h)⟩, absurd hWithin⟩
      (not_trailing_of_within hWithin)
  · obtain ⟨first, rest, hLines⟩ := exists_line hWithin
    have hMost := @truncatedHead_most options (reasonOf options) first rest (totalsOf content)
    have hHonest : Honest content options (truncatedHead (reasonOf options) first rest (totalsOf content) options) ↔
        ¬Trailing content options := by
      rw [truncatedHead]
      split_ifs with hFirst
      · have hOne : joinedBytes [first] ≤ joinedBytes (splitLinesForCounting content) := joinedBytes_mono (hLines ▸ ⟨rest, rfl⟩)
        have hLess : options.byteLimit < joinedBytes [first] := hFirst
        have hTotal := joinedBytes_le content
        refine iff_of_true ⟨rfl, (fun h => by cases h), fun _ => by omega⟩ fun hTrailing => ?_
        have hSame := hTrailing.joinedBytes_eq
        omega
      · exact (honest_iff rfl rfl).trans (reason_iff hWithin (by rw [hLines]) (collect_all _ _ _))
    rw [truncateHead, truncateHeadBy_lines _ hWithin hLines, ← hHonest]
    rw [← hLines] at hMost
    constructor
    · rintro ⟨result, hResult, hHolds⟩
      exact Option.some.inj hResult ▸ hHolds.honest
    · exact fun h => ⟨_, rfl, iff_of_false (head_changed hWithin hMost) hWithin, h, fun _ => hMost⟩

open Output (characterStart)
open Utf8 (isContinuation)

theorem drop_characterStart (bytes : List UInt8) (index : Nat) :
    bytes.drop (characterStart bytes index) = (bytes.drop index).dropWhile isContinuation := by
  have hSplit := takeWhile_append_dropWhile (p := isContinuation) (l := bytes.drop index)
  calc bytes.drop (characterStart bytes index)
      = (bytes.drop index).drop ((bytes.drop index).takeWhile isContinuation).length := drop_drop.symm
    _ = (bytes.drop index).dropWhile isContinuation := (congrArg (drop _) hSplit.symm).trans drop_left

theorem boundary_characterStart (bytes : List UInt8) {index : Nat} (h : index ≤ bytes.length) :
    Utf8.IsBoundary bytes (characterStart bytes index) := by
  have hDrop := drop_characterStart bytes index
  cases hRest : (bytes.drop index).dropWhile isContinuation with
  | nil =>
    have hLe : ((bytes.drop index).takeWhile isContinuation).length ≤ (bytes.drop index).length :=
        ( takeWhile_prefix isContinuation).length_le
    rw [hRest, drop_eq_nil_iff] at hDrop
    rw [length_drop] at hLe
    left
    rw [characterStart] at hDrop ⊢
    omega
  | cons byte rest =>
    refine .inr ⟨byte, ?_, ?_⟩
    · rw [← head?_drop, hDrop, hRest, head?_cons]
    · have hHead := head?_dropWhile_not isContinuation (bytes.drop index)
      rw [hRest] at hHead
      exact hHead

theorem truncateString_spec {maxBytes : Nat} (h : maxBytes < utf8ByteLength line) :
    ∃ before kept, Utf16.decode line = before ++ kept ∧ truncateStringToBytesFromEnd line maxBytes = Utf16.encode kept ∧
      (Utf8.encode kept).length ≤ maxBytes ∧ (kept = [] → ∀ c ∈ (Utf16.decode line).getLast?, maxBytes < c.utf8Size) := by
  rw [utf8ByteLength] at h
  rw [truncateStringToBytesFromEnd, if_neg (Nat.not_le.mpr h)]
  generalize Utf16.decode line = text at h ⊢
  obtain ⟨before, kept, hText, hStart⟩ := Utf8.split_of_boundary
    (boundary_characterStart (Utf8.encode text) (Nat.sub_le (Utf8.encode text).length maxBytes))
  have hFrom : (Utf8.encode text).length - maxBytes ≤ (Utf8.encode before).length := by
    rw [hStart, characterStart]
    exact Nat.le_add_right _ _
  have hLength : (Utf8.encode text).length = (Utf8.encode before).length + (Utf8.encode kept).length := by
    rw [hText, Utf8.encode_append, length_append]
  refine ⟨before, kept, hText, ?_, by omega, ?_⟩
  · rw [← hStart, Utf8.decode_drop hText]
  · rintro rfl c hLast
    by_contra hFits
    obtain ⟨init, hInit⟩ := getLast?_eq_some_iff.mp hLast
    obtain ⟨first, later, hChar, hFirst, -⟩ := Utf8.encodeChar_cons c
    have hEnd : Utf8.encode text = Utf8.encode init ++ first :: later := by
      rw [hInit, Utf8.encode_append, ← hChar]
      exact congrArg _ (append_nil _)
    have hSize : (first :: later).length = c.utf8Size := hChar ▸ String.length_utf8EncodeChar c
    have hDrop := drop_characterStart (Utf8.encode text) ((Utf8.encode text).length - maxBytes)
    rw [← hStart, drop_eq_nil_iff.mpr (by rw [hLength]; exact Nat.le_refl _), eq_comm, dropWhile_eq_nil_iff] at hDrop
    have hMem : first ∈ (Utf8.encode text).drop ((Utf8.encode text).length - maxBytes) := by
      rw [hEnd, drop_append_of_le_length]
      · exact mem_append_right _ mem_cons_self
      · rw [length_append]
        omega
    rw [hDrop first hMem] at hFirst
    cases hFirst

theorem joinLines_singleton (line : JsString) : joinLines [line] = line :=
  intercalate_singleton

section

variable (h : LongLine content options line)

include h

theorem LongLine.lt_total :
    options.byteLimit < joinedBytes (splitLinesForCounting content) := by
  obtain ⟨init, hLines⟩ := getLast?_eq_some_iff.mp h.1
  rw [hLines, joinedBytes, map_append, sum_append]
  exact Nat.lt_of_lt_of_le h.2 (by simp; omega)

theorem LongLine.not_within : ¬Within content options := by
  rintro ⟨-, hFits⟩
  exact Nat.lt_irrefl _ (Nat.lt_of_lt_of_le h.lt_total ((joinedBytes_le content).trans hFits))

theorem LongLine.truncateTail_eq (hLimit : 1 ≤ options.lineLimit) :
    truncateTail content options = truncatedTail content options ⟨[truncateStringToBytesFromEnd line options.byteLimit],
      utf8ByteLength (truncateStringToBytesFromEnd line options.byteLimit), .bytes⟩ true := by
  obtain ⟨init, hLines⟩ := getLast?_eq_some_iff.mp h.1
  have hLoop : collect options.lineLimit options.byteLimit (splitLinesForCounting content).reverse [] 0 = ⟨[], 0, .bytes⟩ := by
    have hMore : options.byteLimit < 0 + (utf8ByteLength line + 0) := by
      have hLine := h.2
      omega
    rw [hLines, reverse_append, reverse_singleton, singleton_append, collect]
    exact (if_neg (Nat.not_le.mpr hLimit)).trans (if_pos hMore)
  refine (if_neg h.not_within).trans ?_
  rw [collectTail, hLoop, h.1]
  rfl

/-- A last line that is too long: the cut is as documented unless one line is the limit and
all there is, or the cut keeps nothing. -/
theorem LongLine.holds (hLimit : 1 ≤ options.lineLimit) :
    TailHolds content options (truncateTail content options) ↔
      ¬Trailing content options ∧ ¬OnlyLine content options ∧ ¬WideEnd content options := by
  obtain ⟨before, kept, hText, hCut, hKept, hEmpty⟩ := truncateString_spec h.2
  have hOne : ∀ other, LongLine content options other → other = line := fun other hOther =>
    Option.some.inj (hOther.1.symm.trans h.1)
  have hTrailing : ¬Trailing content options := fun hTrailing => Nat.lt_irrefl _ (hTrailing.joinedBytes_eq ▸ h.lt_total)
  have hBytes : utf8ByteLength (Utf16.encode kept) = (Utf8.encode kept).length := by
    rw [utf8ByteLength, Utf16.decode_encode]
  have hTotal := h.lt_total.trans_le (joinedBytes_le content)
  have hChar (hNe : kept ≠ []) : ∃ c, (Utf16.decode line).getLast? = some c ∧ c.utf8Size ≤ options.byteLimit := by
    obtain ⟨init, c, rfl⟩ := (eq_nil_or_concat' kept).resolve_left hNe
    refine ⟨c, by rw [hText, ← append_assoc, getLast?_concat], Nat.le_trans ?_ hKept⟩
    rw [Utf8.encode_append, length_append, Utf8.encode_cons, length_append, String.length_utf8EncodeChar]
    omega
  rw [h.truncateTail_eq hLimit, hCut]
  generalize hResult : truncatedTail content options ⟨[Utf16.encode kept], utf8ByteLength (Utf16.encode kept), .bytes⟩ true = result
  have hContent : result.content = Utf16.encode kept := by
    rw [← hResult]
    exact joinLines_singleton _
  have hCount : result.outputLines = 1 := hResult ▸ rfl
  have hHonest : Honest content options result ↔ ¬OnlyLine content options := by
    rw [← hResult, honest_iff rfl rfl]
    constructor
    · rintro ⟨hLines, -⟩ ⟨hLineLimit, hLength, -⟩
      have hMany := hLines (if_pos ⟨Nat.le_of_eq hLineLimit, hBytes ▸ hKept⟩)
      omega
    · intro hOnly
      refine ⟨fun hReason => ?_, fun _ => hTotal⟩
      by_contra hFew
      have hPositive : 0 < (splitLinesForCounting content).length := length_pos_of_mem (mem_of_getLast? h.1)
      rw [reasonOf] at hReason
      split_ifs at hReason with hFull
      have hSingle : options.lineLimit ≤ 1 := hFull.1
      exact hOnly ⟨by omega, by omega, line, h⟩
  constructor
  · intro hHolds
    refine ⟨hTrailing, hHonest.mp hHolds.honest, ?_⟩
    rintro ⟨other, hOther, hWide⟩
    obtain rfl := hOne other hOther
    have hNil : kept = [] := by
      by_contra hNe
      obtain ⟨c, hLast, hFits⟩ := hChar hNe
      exact Nat.lt_irrefl _ ((hWide c hLast).trans_le hFits)
    by_cases hAny : ∃ c ∈ Utf16.decode other, c.utf8Size ≤ options.byteLimit
    · obtain ⟨-, shown, hShown, -, hSame, -⟩ := hHolds.keeps other h hAny
      rw [← Utf16.decode_encode shown, ← hSame, hContent, hNil] at hShown
      exact hShown rfl
    · have hMost := (hHolds.shows h.not_within fun line hLine c hMem => Nat.not_le.mp fun hFits =>
        hAny ⟨c, hOne line hLine ▸ hMem, hFits⟩).most.1.2.2
      obtain ⟨init, hLines⟩ := getLast?_eq_some_iff.mp h.1
      rw [hCount, hLines, length_append, length_singleton, Nat.add_sub_cancel, drop_left, joinLines_singleton] at hMost
      exact Nat.lt_irrefl _ (h.2.trans_le hMost)
  · rintro ⟨-, hOnly, hWide⟩
    have hNe : kept ≠ [] := fun hNil => hWide ⟨line, h, hEmpty hNil⟩
    refine ⟨iff_of_false (fun hSame => ?_) h.not_within, hHonest.mpr hOnly, ?_, ?_⟩
    · rw [← hSame, hContent, hBytes] at hTotal
      exact Nat.lt_irrefl _ (hTotal.trans_le hKept)
    · intro other hOther _
      rw [hOne other hOther]
      exact ⟨hCount, kept, hNe, ⟨before, hText.symm⟩, hContent, hKept⟩
    · intro _ hAll
      obtain ⟨c, hLast, hFits⟩ := hChar hNe
      exact absurd hFits (Nat.not_le.mpr (hAll line h c (mem_of_getLast? hLast)))

end

theorem truncateTail_eq (hLast : ∀ line, ¬LongLine content options line) (hWithin : ¬Within content options) :
    truncateTail content options = truncatedTail content options
      (inOrder (collect options.lineLimit options.byteLimit (splitLinesForCounting content).reverse [] 0)) false := by
  refine (if_neg hWithin).trans ?_
  rw [collectTail, if_neg]
  intro hCut
  obtain ⟨-, line, hPrefix, hMore⟩ := (collect_all options.lineLimit options.byteLimit
    (splitLinesForCounting content).reverse).next hCut.2
  rw [hCut.1] at hPrefix hMore
  obtain ⟨others, hOthers⟩ := hPrefix
  refine hLast line ⟨?_, hMore⟩
  rw [getLast?_eq_head?_reverse, ← hOthers]
  rfl

theorem joinedBytes_reverse (lines : List JsString) : joinedBytes lines.reverse = joinedBytes lines := by
  rw [joinedBytes, joinedBytes, map_reverse, sum_reverse, length_reverse]

theorem reasonOf_inOrder (collected : Collected) : reasonOf options (inOrder collected) = reasonOf options collected := by
  rw [reasonOf, reasonOf, inOrder, length_reverse]

theorem tail_changed (hWithin : ¬Within content options)
    (h : ShowsMost (splitLinesForCounting content) options
      (fun count => (splitLinesForCounting content).drop ((splitLinesForCounting content).length - count)) result) :
    result.content ≠ content := by
  obtain ⟨hLength, hCount, hBytes⟩ := h.most.1
  rw [h.content]
  refine changed hWithin (perm_append_comm.trans (by rw [take_append_drop])) ?_ hBytes
  rw [length_drop]
  omega

theorem tail_most {collected : Collected}
    (h : Longest options.lineLimit options.byteLimit (splitLinesForCounting content).reverse collected) :
    ShowsMost (splitLinesForCounting content) options
      (fun count => (splitLinesForCounting content).drop ((splitLinesForCounting content).length - count))
      (truncatedTail content options (inOrder collected) false) := by
  have hCount : (truncatedTail content options (inOrder collected) false).outputLines = collected.output.length := length_reverse
  generalize hLines : splitLinesForCounting content = lines at h
  have hBytes (count : Nat) : utf8ByteLength (joinLines (lines.drop (lines.length - count))) =
      joinedBytes (lines.reverse.take count) := by
    rw [utf8ByteLength_join, take_reverse, joinedBytes_reverse]
  have hOutput := prefix_iff_eq_take.mp h.isPrefix
  have hLength := @length_reverse _ lines ▸ h.isPrefix.length_le
  refine ⟨?_, ⟨hCount ▸ hLength, hCount ▸ h.count, ?_⟩, ?_⟩
  · rw [hCount, ← reverse_reverse (lines.drop _), ← take_reverse, ← hOutput]
    rfl
  · rw [hBytes, hCount, ← hOutput]
    exact h.fits
  · rintro count ⟨hAll, hFew, hFits⟩
    rw [hBytes] at hFits
    rw [hCount]
    exact h.greatest (by rwa [length_reverse]) hFew hFits

theorem truncateTail_holds (content : JsString) (hLimit : 1 ≤ options.lineLimit) :
    TailHolds content options (truncateTail content options) ↔
      ¬Trailing content options ∧ ¬OnlyLine content options ∧ ¬WideEnd content options := by
  by_cases hLong : ∃ line, LongLine content options line
  · obtain ⟨line, hLine⟩ := hLong
    exact hLine.holds hLimit
  · have hNone : ∀ line, ¬LongLine content options line := fun line hLine => hLong ⟨line, hLine⟩
    have hOthers : ¬Trailing content options ↔
        ¬Trailing content options ∧ ¬OnlyLine content options ∧ ¬WideEnd content options :=
      (and_iff_left ⟨fun hOnly => hLong hOnly.2.2, fun ⟨line, hLine, _⟩ => hNone line hLine⟩).symm
    rw [← hOthers]
    by_cases hWithin : Within content options
    · refine iff_of_true ?_ (not_trailing_of_within hWithin)
      have hResult : truncateTail content options = untruncated content (totalsOf content) options := if_pos hWithin
      rw [hResult]
      exact ⟨iff_of_true rfl hWithin, ⟨rfl, nofun, nofun⟩, fun line hLine => absurd hLine (hNone line), absurd hWithin⟩
    · have hLongest := collect_all options.lineLimit options.byteLimit (splitLinesForCounting content).reverse
      have hPerm := reverse_perm (splitLinesForCounting content)
      rw [truncateTail_eq hNone hWithin]
      generalize collect options.lineLimit options.byteLimit (splitLinesForCounting content).reverse [] 0 = collected at hLongest ⊢
      have hMost := tail_most hLongest
      have hHonest : Honest content options (truncatedTail content options (inOrder collected) false) ↔ ¬Trailing content options :=
        (honest_iff rfl (congrArg some (reasonOf_inOrder collected))).trans (reason_iff hWithin hPerm hLongest)
      rw [← hHonest]
      exact ⟨TailHolds.honest, fun h => ⟨iff_of_false (tail_changed hWithin hMost) hWithin, h,
        fun line hLine => absurd hLine (hNone line), fun _ _ => hMost⟩⟩

end OctoberHarness.Truncate.Tool
