import Mathlib.Order.Bounds.Basic
import OctoberHarness.Json.Value
import OctoberHarness.Library.Utf16

/-! Truncation of text by two limits, on lines and on bytes. Head truncation needs only a
prefix of the text and its totals, and gives the longest prefix of whole lines. -/
namespace OctoberHarness.Truncate

open List

def DEFAULT_MAX_LINES : Nat :=
  2000

def DEFAULT_MAX_BYTES : Nat :=
  50 * 1024

inductive TruncatedBy where
  | lines
  | bytes
deriving DecidableEq

structure TruncationResult where
  content : JsString
  truncated : Bool
  truncatedBy : Option TruncatedBy
  totalLines : Nat
  totalBytes : Nat
  outputLines : Nat
  outputBytes : Nat
  lastLinePartial : Bool
  firstLineExceedsLimit : Bool
  maxLines : Nat
  maxBytes : Nat
deriving DecidableEq

structure TruncationOptions where
  maxLines : Option Nat
  maxBytes : Option Nat

namespace TruncationOptions

/-- `options.maxLines ?? DEFAULT_MAX_LINES`. -/
def lineLimit (options : TruncationOptions) : Nat :=
  options.maxLines.getD DEFAULT_MAX_LINES

def byteLimit (options : TruncationOptions) : Nat :=
  options.maxBytes.getD DEFAULT_MAX_BYTES

end TruncationOptions

structure Totals where
  lines : Nat
  bytes : Nat

def newline : UInt16 :=
  10

/-- `Buffer.byteLength(content, "utf8")`: a lone surrogate counts like U+FFFD. -/
def utf8ByteLength (content : JsString) : Nat :=
  (Utf8.encode (Utf16.decode content)).length

def splitLinesForCounting (content : JsString) : List JsString :=
  if content = [] then []
  else if content.getLast? = some newline then (content.splitOn newline).dropLast
  else content.splitOn newline

/-- `lines.join("\n")`. -/
def joinLines (lines : List JsString) : JsString :=
  [newline].intercalate lines

/-- What the collecting loop ends with. -/
structure Collected where
  output : List JsString
  outputBytes : Nat
  truncatedBy : TruncatedBy

/-- The collecting loop over the lines that are not visited yet. -/
def collect (maxLines maxBytes : Nat) : List JsString → (output : List JsString) → (outputBytes : Nat) → Collected
  | [], output, outputBytes => ⟨output, outputBytes, .lines⟩
  | line :: rest, output, outputBytes =>
    if maxLines ≤ output.length then ⟨output, outputBytes, .lines⟩
    else
      let lineBytes := utf8ByteLength line + if 0 < output.length then 1 else 0
      if maxBytes < outputBytes + lineBytes then ⟨output, outputBytes, .bytes⟩
      else collect maxLines maxBytes rest (output ++ [line]) (outputBytes + lineBytes)

/-- Text within both limits. -/
def untruncated (content : JsString) (totals : Totals) (options : TruncationOptions) : TruncationResult where
  content := content
  truncated := false
  truncatedBy := none
  totalLines := totals.lines
  totalBytes := totals.bytes
  outputLines := totals.lines
  outputBytes := totals.bytes
  lastLinePartial := false
  firstLineExceedsLimit := false
  maxLines := options.lineLimit
  maxBytes := options.byteLimit

/-- Head truncation of text beyond the limits, with the reason that a package derives from
the loop. -/
def truncatedHead (reason : Collected → TruncatedBy) (first : JsString) (rest : List JsString) (totals : Totals)
    (options : TruncationOptions) : TruncationResult :=
  if options.byteLimit < utf8ByteLength first then
    { untruncated [] totals options with
      truncated := true
      truncatedBy := some .bytes
      outputLines := 0
      outputBytes := 0
      firstLineExceedsLimit := true }
  else
    let collected := collect options.lineLimit options.byteLimit (first :: rest) [] 0
    { untruncated (joinLines collected.output) totals options with
      truncated := true
      truncatedBy := some (reason collected)
      outputLines := collected.output.length
      outputBytes := utf8ByteLength (joinLines collected.output) }

/-- Where there is no first line the byte length of `undefined` fails. -/
def truncateHeadBy (reason : Collected → TruncatedBy) (text : JsString) (totals : Totals) (options : TruncationOptions) :
    Option TruncationResult :=
  if totals.lines ≤ options.lineLimit ∧ totals.bytes ≤ options.byteLimit then some (untruncated text totals options)
  else
    match splitLinesForCounting text with
    | [] => none
    | first :: rest => some (truncatedHead reason first rest totals options)

/-- Without a byte break only omitted lines prove the line limit. -/
def truncateHeadOf (text : JsString) (totals : Totals) (options : TruncationOptions) : Option TruncationResult :=
  truncateHeadBy (fun collected =>
    if collected.truncatedBy ≠ .bytes then if collected.output.length < totals.lines then .lines else .bytes
    else .bytes) text totals options

def totalsOf (content : JsString) : Totals :=
  ⟨(splitLinesForCounting content).length, utf8ByteLength content⟩

def truncateHead (content : JsString) (options : TruncationOptions) : Option TruncationResult :=
  truncateHeadOf content (totalsOf content) options

open Utf16

theorem pairChar_size {high low : UInt16} (hHigh : isHigh high = true) (hLow : isLow low = true) :
    3 ≤ (pairChar high low).utf8Size := by
  simp only [isHigh, isLow, Bool.and_eq_true, decide_eq_true_eq, UInt16.le_iff_toNat_le, UInt16.reduceToNat] at hHigh hLow
  have hValid : (0x10000 + (high.toNat - 0xD800) * 0x400 + (low.toNat - 0xDC00)).isValidChar := by
    right
    omega
  have hValue : 0x7ff < (pairChar high low).val.toNat := by
    rw [pairChar, Char.ofNat, dif_pos hValid]
    show 0x7ff < 0x10000 + (high.toNat - 0xD800) * 0x400 + (low.toNat - 0xDC00)
    omega
  rw [Char.utf8Size]
  simp only [UInt32.le_iff_toNat_le]
  split_ifs with hOne hTwo
  · have hLess : (pairChar high low).val.toNat ≤ 0x7f := hOne
    omega
  · have hLess : (pairChar high low).val.toNat ≤ 0x7ff := hTwo
    omega
  · exact Nat.le_refl _
  · exact Nat.le_succ _

variable {second first content : JsString} {lines : List JsString}

theorem decode_append (h : ∀ high ∈ first.getLast?, ∀ low ∈ second.head?, (isHigh high && isLow low) = false) :
    decode (first ++ second) = decode first ++ decode second := by
  fun_induction decode first with
  | case1 => rfl
  | case2 unit =>
    cases second with
    | nil => rfl
    | cons next rest => rw [singleton_append, decode, h unit rfl next rfl, if_neg Bool.false_ne_true, singleton_append]
  | case3 unit next rest hPair ih =>
    rw [cons_append, cons_append, decode, if_pos hPair, cons_append, ih]
    cases rest with
    | nil => exact fun _ hNone => by cases hNone
    | cons other rest => exact h
  | case4 unit next rest hPair ih =>
    rw [cons_append, cons_append, decode, if_neg hPair, cons_append, ← ih h, cons_append]

theorem utf8ByteLength_newline (first second : JsString) :
    utf8ByteLength (first ++ newline :: second) = utf8ByteLength first + 1 + utf8ByteLength second := by
  have hNewline : ∀ unit, (isHigh unit && isLow newline) = false := fun unit => Bool.and_false _
  have hFirst : decode (first ++ newline :: second) = decode first ++ '\n' :: decode second := by
    rw [decode_append (by rintro high - low hLow; rw [← Option.some.inj hLow]; exact hNewline high)]
    congr 1
    cases second with
    | nil => rfl
    | cons next rest => rfl
  rw [utf8ByteLength, hFirst, Utf8.encode_append, Utf8.encode_cons, Utf8.encodeChar_newline, length_append, length_append,
    ← Nat.add_assoc]
  rfl

theorem utf8ByteLength_le (first second : JsString) : utf8ByteLength first ≤ utf8ByteLength (first ++ second) := by
  simp only [utf8ByteLength]
  fun_induction decode first with
  | case1 => exact Nat.zero_le _
  | case2 unit =>
    cases second with
    | nil => exact Nat.le_refl _
    | cons next rest =>
      rw [singleton_append, decode]
      split_ifs with hPair
      · obtain ⟨hHigh, hLow⟩ := Bool.and_eq_true_iff.mp hPair
        have hSize := pairChar_size hHigh hLow
        have hSmall : (Utf8.encode [Char.ofNat 0xFFFD]).length = 3 := rfl
        rw [unitChar, hHigh, Bool.true_or, if_pos rfl, hSmall, Utf8.encode_cons, length_append, String.length_utf8EncodeChar]
        exact Nat.le_add_right_of_le hSize
      · rw [Utf8.encode_cons, Utf8.encode_cons, length_append, length_append]
        exact Nat.add_le_add_left (Nat.zero_le _) _
  | case3 unit next rest hPair ih =>
    rw [cons_append, cons_append, decode, if_pos hPair, Utf8.encode_cons, Utf8.encode_cons, length_append, length_append]
    exact Nat.add_le_add_left ih _
  | case4 unit next rest hPair ih =>
    rw [cons_append, cons_append, decode, if_neg hPair, Utf8.encode_cons, Utf8.encode_cons, length_append, length_append]
    exact Nat.add_le_add_left ih _

/-- The bytes of lines and of the newlines between them. -/
def joinedBytes (lines : List JsString) : Nat :=
  (lines.map utf8ByteLength).sum + (lines.length - 1)

theorem utf8ByteLength_join (lines : List JsString) : utf8ByteLength (joinLines lines) = joinedBytes lines := by
  induction lines with
  | nil => rfl
  | cons line rest ih =>
    cases rest with
    | nil => rw [joinLines, intercalate_singleton]; exact (Nat.add_zero _).symm
    | cons next rest =>
      rw [joinLines, intercalate_cons_cons, append_assoc, singleton_append, utf8ByteLength_newline]
      rw [joinLines] at ih
      simp only [ih, joinedBytes, map_cons, sum_cons, length_cons]
      omega

theorem joinedBytes_append (first second : List JsString) (h : first ≠ []) :
    joinedBytes (first ++ second) = joinedBytes first + ((second.map utf8ByteLength).sum + second.length) := by
  have hLength := length_pos_iff.mpr h
  rw [joinedBytes, joinedBytes, map_append, sum_append, length_append]
  omega

theorem joinedBytes_snoc (output : List JsString) (line : JsString) :
    joinedBytes (output ++ [line]) = joinedBytes output + (utf8ByteLength line + if 0 < output.length then 1 else 0) := by
  cases output with
  | nil => simp [joinedBytes]
  | cons first rest => rw [joinedBytes_append _ _ (cons_ne_nil _ _), if_pos (length_pos_of_ne_nil (cons_ne_nil _ _))]; rfl

theorem joinedBytes_mono {first : List JsString} (h : first <+: lines) : joinedBytes first ≤ joinedBytes lines := by
  obtain ⟨second, rfl⟩ := h
  rcases eq_or_ne first [] with rfl | hFirst
  · exact Nat.zero_le _
  · rw [joinedBytes_append _ _ hFirst]
    exact Nat.le_add_right _ _

/-! The collecting loop. -/

/-- The collected lines are the longest prefix of `lines` within both limits. -/
structure Longest (maxLines maxBytes : Nat) (lines : List JsString) (collected : Collected) : Prop where
  isPrefix : collected.output <+: lines
  count : collected.output.length ≤ maxLines
  bytes : collected.outputBytes = joinedBytes collected.output
  fits : joinedBytes collected.output ≤ maxBytes
  next : collected.truncatedBy = .bytes → collected.output.length < maxLines ∧
    ∃ line, collected.output ++ [line] <+: lines ∧ maxBytes < joinedBytes (collected.output ++ [line])
  all : collected.truncatedBy ≠ .bytes → collected.output.length = maxLines ∨ collected.output = lines

variable {maxLines maxBytes : Nat}

theorem collect_longest (rest output : List JsString) (hCount : output.length ≤ maxLines) (hFits : joinedBytes output ≤ maxBytes) :
    Longest maxLines maxBytes (output ++ rest) (collect maxLines maxBytes rest output (joinedBytes output)) := by
  induction rest generalizing output with
  | nil =>
    rw [append_nil]
    exact ⟨prefix_rfl, hCount, rfl, hFits, nofun, fun _ => .inr rfl⟩
  | cons line rest ih =>
    simp only [collect, ← joinedBytes_snoc]
    have hNext : output ++ line :: rest = output ++ [line] ++ rest := (append_assoc output [line] rest).symm
    split_ifs with hFull hBytes
    · exact ⟨prefix_append _ _, hCount, rfl, hFits, nofun, fun _ => .inl (Nat.le_antisymm hCount hFull)⟩
    · exact ⟨prefix_append _ _, hCount, rfl, hFits, fun _ => ⟨Nat.not_le.mp hFull, line, ⟨rest, hNext.symm⟩, hBytes⟩,
        fun hNot => absurd rfl hNot⟩
    · rw [hNext]
      apply ih (output ++ [line]) _ (Nat.not_lt.mp hBytes)
      rw [length_append]
      exact Nat.not_le.mp hFull

theorem Longest.greatest {collected : Collected} (h : Longest maxLines maxBytes lines collected)
    {count : Nat} (hLength : count ≤ lines.length) (hCount : count ≤ maxLines) (hBytes : joinedBytes (lines.take count) ≤ maxBytes) :
    count ≤ collected.output.length := by
  by_cases hReason : collected.truncatedBy = .bytes
  · obtain ⟨-, line, hPrefix, hMore⟩ := h.next hReason
    by_contra hLess
    have hShorter : collected.output ++ [line] <+: lines.take count := by
      rw [prefix_take_iff, length_append]
      exact ⟨hPrefix, Nat.not_le.mp hLess⟩
    have hLe := joinedBytes_mono hShorter
    omega
  · rcases h.all hReason with hFull | hAll
    · omega
    · rw [hAll]
      exact hLength

/-! Lines of a text and of a prefix of it. -/

theorem splitLines_cons (first rest : JsString) :
    splitLinesForCounting (first ++ newline :: rest) = first.splitOn newline ++ splitLinesForCounting rest := by
  have hSplit := splitOn_append_cons_self (a := newline) first rest
  have hNe : first ++ newline :: rest ≠ [] := append_ne_nil_of_right_ne_nil _ (cons_ne_nil _ _)
  rw [splitLinesForCounting, if_neg hNe, hSplit, getLast?_append_of_ne_nil _ (cons_ne_nil _ _), splitLinesForCounting]
  cases rest with
  | nil => exact dropLast_concat.trans (append_nil _).symm
  | cons unit rest =>
    rw [getLast?_cons_cons, if_neg (cons_ne_nil _ _)]
    split_ifs
    · exact dropLast_append_of_ne_nil (splitOn_ne_nil _ _)
    · rfl

theorem splitLines_line {line : JsString} (h : newline ∉ line) :
    splitLinesForCounting line = if line = [] then [] else [line] := by
  rw [splitLinesForCounting]
  split_ifs with hNil hLast
  · rfl
  · exact absurd (mem_of_getLast? hLast) h
  · exact splitOn_eq_singleton h

theorem splitLines_cases (content : JsString) :
    (∃ body, content = body ++ [newline] ∧ splitLinesForCounting content = body.splitOn newline) ∨
      content = joinLines (splitLinesForCounting content) ∧ content.getLast? ≠ some newline := by
  by_cases hLast : content.getLast? = some newline
  · obtain ⟨body, rfl⟩ := getLast?_eq_some_iff.mp hLast
    exact .inl ⟨body, rfl, by rw [splitLines_cons]; exact append_nil _⟩
  · refine .inr ⟨?_, hLast⟩
    rw [splitLinesForCounting, if_neg hLast]
    split_ifs with hNil
    · exact hNil
    · exact (intercalate_splitOn newline).symm

theorem splitLines_eq_nil (h : splitLinesForCounting content = []) : content = [] := by
  rcases splitLines_cases content with ⟨body, -, hLines⟩ | ⟨hContent, -⟩
  · exact absurd (hLines.symm.trans h) (splitOn_ne_nil _ _)
  · rw [hContent, h]
    rfl

/-- A prefix has the complete lines of the text, and behind them perhaps the cut of one. -/
theorem splitLines_prefix (first second : JsString) :
    ∃ lines cut others, splitLinesForCounting first = lines ++ cut ∧ splitLinesForCounting (first ++ second) = lines ++ others ∧
      lines.length = first.count newline ∧
        (cut = [] ∧ others = splitLinesForCounting second ∨ ∃ line more rest, cut = [line] ∧ others = (line ++ more) :: rest) := by
  induction hLength : first.length using Nat.strong_induction_on generalizing first with
  | _ length ih =>
    by_cases hNewline : newline ∈ first
    · obtain ⟨head, tail, rfl, hHead⟩ := eq_append_cons_of_mem hNewline
      have hLess : tail.length < length := by
        rw [← hLength, length_append, length_cons]
        omega
      obtain ⟨lines, cut, others, hFirst, hWhole, hCount, hCut⟩ := ih _ hLess tail rfl
      refine ⟨head :: lines, cut, others, ?_, ?_, ?_, hCut⟩
      · rw [splitLines_cons, splitOn_eq_singleton hHead, hFirst]
        rfl
      · rw [append_assoc, cons_append, splitLines_cons, splitOn_eq_singleton hHead, hWhole]
        rfl
      · rw [length_cons, hCount, count_append, count_eq_zero.mpr hHead, count_cons_self, Nat.zero_add]
    · refine ⟨[], if first = [] then [] else [first], splitLinesForCounting (first ++ second), splitLines_line hNewline, rfl,
        (count_eq_zero.mpr hNewline).symm, ?_⟩
      by_cases hNil : first = []
      · exact .inl ⟨if_pos hNil, by rw [hNil]; rfl⟩
      · rw [if_neg hNil]
        right
        by_cases hSecond : newline ∈ second
        · obtain ⟨more, rest, rfl, hMore⟩ := eq_append_cons_of_mem hSecond
          have hLine : newline ∉ first ++ more := by
            rw [mem_append, not_or]
            exact ⟨hNewline, hMore⟩
          exact ⟨first, more, _, rfl, by rw [← append_assoc, splitLines_cons, splitOn_eq_singleton hLine]; rfl⟩
        · have hLine : newline ∉ first ++ second := by
            rw [mem_append, not_or]
            exact ⟨hNewline, hSecond⟩
          exact ⟨first, second, [], rfl, by rw [splitLines_line hLine, if_neg (append_ne_nil_of_left_ne_nil hNil _)]⟩

theorem utf8ByteLength_lines (content : JsString) :
    utf8ByteLength content = joinedBytes (splitLinesForCounting content) +
      if content.getLast? = some newline then 1 else 0 := by
  rcases splitLines_cases content with ⟨body, rfl, hLines⟩ | ⟨hContent, hLast⟩
  · have hBody : body = joinLines (body.splitOn newline) := (intercalate_splitOn newline).symm
    rw [utf8ByteLength_newline, hLines, getLast?_concat, if_pos rfl, ← utf8ByteLength_join, ← hBody]
    rfl
  · rw [if_neg hLast, ← utf8ByteLength_join, ← hContent]
    rfl

/-! Truncation by a prefix. -/

/-- What the loop collects does not depend on a cut behind lines that do not fit. -/
theorem collect_cut {cut others : List JsString}
    (hCut : cut = [] ∧ others = splitLinesForCounting second ∨ ∃ line more rest, cut = [line] ∧ others = (line ++ more) :: rest) (lines output : List JsString)
    (hFits : joinedBytes output ≤ maxBytes) (hMore : maxBytes < joinedBytes (output ++ lines ++ cut)) :
    collect maxLines maxBytes (lines ++ cut) output (joinedBytes output) =
      collect maxLines maxBytes (lines ++ others) output (joinedBytes output) := by
  induction lines generalizing output with
  | nil =>
    rw [append_nil] at hMore
    rcases hCut with ⟨rfl, -⟩ | ⟨line, more, rest, rfl, rfl⟩
    · rw [append_nil] at hMore
      omega
    · rw [joinedBytes_snoc] at hMore
      have hLonger := utf8ByteLength_le line more
      have hOther : maxBytes < joinedBytes output + (utf8ByteLength (line ++ more) + if 0 < output.length then 1 else 0) := by
        omega
      simp only [nil_append, collect, if_pos hMore, if_pos hOther]
  | cons line lines ih =>
    simp only [cons_append, collect, ← joinedBytes_snoc]
    split_ifs with hFull hBytes
    · rfl
    · rfl
    · apply ih _ (Nat.not_lt.mp hBytes)
      rw [append_assoc output, singleton_append]
      exact hMore

theorem collect_take (lines others output : List JsString) (outputBytes : Nat) (h : maxLines ≤ output.length + lines.length) :
    collect maxLines maxBytes (lines ++ others) output outputBytes = collect maxLines maxBytes lines output outputBytes := by
  induction lines generalizing output outputBytes with
  | nil =>
    cases others with
    | nil => rfl
    | cons other others =>
      simp only [nil_append, collect, if_pos (show maxLines ≤ output.length from h)]
  | cons line lines ih =>
    have hNext : maxLines ≤ (output ++ [line]).length + lines.length := by
      rw [length_append, Nat.add_right_comm, Nat.add_assoc output.length]
      exact h
    have hRest (bytes : Nat) := ih (output ++ [line]) bytes hNext
    simp only [cons_append, collect, hRest]

variable {options : TruncationOptions}

/-- The admitted prefixes of a text. -/
def Admitted (whole text : JsString) (options : TruncationOptions) : Prop :=
  text = whole ∨ options.byteLimit + 1 < utf8ByteLength text ∨ options.lineLimit ≤ text.count newline

/-- Lines and bytes are within both limits. -/
def Within (content : JsString) (options : TruncationOptions) : Prop :=
  (splitLinesForCounting content).length ≤ options.lineLimit ∧ utf8ByteLength content ≤ options.byteLimit

theorem Admitted.eq_of_within (h : Admitted (first ++ second) first options)
    (hWithin : Within (first ++ second) options) : first = first ++ second := by
  obtain ⟨hLines, hBytes⟩ := hWithin
  rcases h with hSame | hMore | hMore
  · exact hSame
  · have hLe := utf8ByteLength_le first second
    omega
  · obtain ⟨lines, cut, others, -, hWhole, hCount, hCut⟩ := splitLines_prefix first second
    rw [hWhole, length_append] at hLines
    obtain rfl : others = [] := length_eq_zero_iff.mp (by omega)
    rcases hCut with ⟨-, hNone⟩ | ⟨line, more, rest, -, hSome⟩
    · rw [splitLines_eq_nil hNone.symm, append_nil]
    · exact nomatch hSome

theorem truncateHeadBy_lines {text : JsString} {rest : List JsString} (reason : Collected → TruncatedBy)
    (h : ¬Within content options) (hLines : splitLinesForCounting text = first :: rest) :
    truncateHeadBy reason text (totalsOf content) options =
      some (truncatedHead reason first rest (totalsOf content) options) := by
  refine (if_neg h).trans ?_
  rw [hLines]

theorem exists_line (h : ¬Within content options) :
    ∃ line rest, splitLinesForCounting content = line :: rest := by
  apply exists_cons_of_ne_nil
  intro hNone
  obtain rfl := splitLines_eq_nil hNone
  exact h ⟨Nat.zero_le _, Nat.zero_le _⟩

/-- The loop and the check of the first line see the same of two lists of lines. -/
def SameHead (options : TruncationOptions) (lines others : List JsString) : Prop :=
  ∃ first rest more behind, lines = first :: rest ∧ others = (first ++ more) :: behind ∧
    (options.byteLimit < utf8ByteLength first ↔ options.byteLimit < utf8ByteLength (first ++ more)) ∧
      collect options.lineLimit options.byteLimit lines [] 0 = collect options.lineLimit options.byteLimit others [] 0

theorem SameHead.of_collect {cut others : List JsString} (h : lines ≠ [])
    (hCollect : collect options.lineLimit options.byteLimit (lines ++ cut) [] 0 =
      collect options.lineLimit options.byteLimit (lines ++ others) [] 0) : SameHead options (lines ++ cut) (lines ++ others) := by
  obtain ⟨first, rest, rfl⟩ := exists_cons_of_ne_nil h
  exact ⟨first, rest ++ cut, [], rest ++ others, rfl, by rw [append_nil]; rfl, by rw [append_nil], hCollect⟩

theorem Admitted.same (h : Admitted (first ++ second) first options) (hLimit : 1 ≤ options.lineLimit)
    (hWithin : ¬Within (first ++ second) options) :
    SameHead options (splitLinesForCounting first) (splitLinesForCounting (first ++ second)) := by
  obtain ⟨lines, cut, others, hFirst, hWhole, hCount, hCut⟩ := splitLines_prefix first second
  rcases h with hSame | hBytes | hLines
  · obtain ⟨line, rest, hLine⟩ := exists_line hWithin
    rw [← hSame] at hLine ⊢
    exact ⟨line, rest, [], rest, hLine, by rw [append_nil, hLine], by rw [append_nil], rfl⟩
  · rw [hFirst, hWhole]
    have hMore : options.byteLimit < joinedBytes (lines ++ cut) := by
      have hTotal := utf8ByteLength_lines first
      rw [hFirst] at hTotal
      split_ifs at hTotal <;> omega
    have hCollect : collect options.lineLimit options.byteLimit (lines ++ cut) [] 0 =
        collect options.lineLimit options.byteLimit (lines ++ others) [] 0 := collect_cut hCut lines [] (Nat.zero_le _) hMore
    cases lines with
    | cons line lines => exact .of_collect (cons_ne_nil _ _) hCollect
    | nil =>
      rcases hCut with ⟨rfl, -⟩ | ⟨line, more, rest, rfl, rfl⟩
      · exact absurd hMore (Nat.not_lt_zero _)
      · have hLine : options.byteLimit < utf8ByteLength line := hMore
        exact ⟨line, [], more, rest, rfl, rfl, iff_of_true hLine (Nat.lt_of_lt_of_le hLine (utf8ByteLength_le line more)), hCollect⟩
  · rw [hFirst, hWhole]
    have hPositive : 0 < lines.length := by omega
    apply SameHead.of_collect (length_pos_iff.mp hPositive)
    rw [collect_take lines cut, collect_take lines others] <;>
      · rw [length_nil, Nat.zero_add, hCount]
        exact hLines

theorem truncateHeadOf_prefix (h : Admitted (first ++ second) first options) (hLimit : 1 ≤ options.lineLimit) :
    truncateHeadOf first (totalsOf (first ++ second)) options = truncateHead (first ++ second) options := by
  rw [truncateHead, truncateHeadOf, truncateHeadOf]
  by_cases hWithin : Within (first ++ second) options
  · rw [← h.eq_of_within hWithin]
  · obtain ⟨line, others, more, rest, hFirst, hWhole, hLine, hCollect⟩ := h.same hLimit hWithin
    rw [hFirst, hWhole] at hCollect
    rw [truncateHeadBy_lines _ hWithin hFirst, truncateHeadBy_lines _ hWithin hWhole]
    simp only [truncatedHead, hLine, hCollect]

/-! The longest prefix of whole lines. -/

/-- What is shown of lines: of those that `pick` names by their number the most that are
within both limits. -/
structure ShowsMost (lines : List JsString) (options : TruncationOptions) (pick : Nat → List JsString)
    (result : TruncationResult) : Prop where
  content : result.content = joinLines (pick result.outputLines)
  most : IsGreatest {count | count ≤ lines.length ∧ count ≤ options.lineLimit ∧
    utf8ByteLength (joinLines (pick count)) ≤ options.byteLimit} result.outputLines

/-- The bytes are those of the content, and the reason names a limit that the text exceeds. -/
structure Honest (text : JsString) (options : TruncationOptions) (result : TruncationResult) : Prop where
  outputBytes : result.outputBytes = utf8ByteLength result.content
  lines : result.truncatedBy = some .lines → options.lineLimit < (splitLinesForCounting text).length
  bytes : result.truncatedBy = some .bytes → options.byteLimit < utf8ByteLength text

theorem joinedBytes_le (content : JsString) : joinedBytes (splitLinesForCounting content) ≤ utf8ByteLength content := by
  rw [utf8ByteLength_lines]
  exact Nat.le_add_right _ _

theorem Longest.bytes_lt {collected : Collected} (h : Longest maxLines maxBytes lines collected)
    (hReason : collected.truncatedBy = .bytes) : maxBytes < joinedBytes lines := by
  obtain ⟨-, line, hPrefix, hMore⟩ := h.next hReason
  exact Nat.lt_of_lt_of_le hMore (joinedBytes_mono hPrefix)

theorem collect_all (maxLines maxBytes : Nat) (lines : List JsString) : Longest maxLines maxBytes lines (collect maxLines maxBytes lines [] 0) :=
  collect_longest lines [] (Nat.zero_le _) (Nat.zero_le _)

theorem truncatedHead_most (reason : Collected → TruncatedBy) (first : JsString) (rest : List JsString) (totals : Totals) :
    ShowsMost (first :: rest) options (fun count => (first :: rest).take count) (truncatedHead reason first rest totals options) := by
  rw [truncatedHead]
  split_ifs with hFirst
  · refine ⟨rfl, ⟨Nat.zero_le _, Nat.zero_le _, Nat.zero_le _⟩, ?_⟩
    rintro (_ | count) ⟨-, -, hBytes⟩
    · exact Nat.le_refl _
    · rw [utf8ByteLength_join] at hBytes
      have hLe : joinedBytes [first] ≤ joinedBytes ((first :: rest).take (count + 1)) :=
        joinedBytes_mono ⟨rest.take count, rfl⟩
      exact absurd (Nat.lt_of_lt_of_le hFirst (Nat.le_trans hLe hBytes)) (Nat.lt_irrefl _)
  · have hLongest := collect_all options.lineLimit options.byteLimit (first :: rest)
    have hOutput := prefix_iff_eq_take.mp hLongest.isPrefix
    refine ⟨congrArg joinLines hOutput, ⟨hLongest.isPrefix.length_le, hLongest.count, ?_⟩, ?_⟩
    · rw [utf8ByteLength_join]
      exact hOutput ▸ hLongest.fits
    · rintro count ⟨hLength, hCount, hBytes⟩
      rw [utf8ByteLength_join] at hBytes
      exact hLongest.greatest hLength hCount hBytes

theorem truncateHead_honest (content : JsString) (options : TruncationOptions) :
    ∃ result, truncateHead content options = some result ∧ Honest content options result ∧
      (Within content options → result = untruncated content (totalsOf content) options) ∧
        (¬Within content options → ShowsMost (splitLinesForCounting content) options
          (fun count => (splitLinesForCounting content).take count) result) := by
  by_cases hWithin : Within content options
  · exact ⟨_, if_pos hWithin, ⟨rfl, nofun, nofun⟩, fun _ => rfl, fun hBeyond => absurd hWithin hBeyond⟩
  · obtain ⟨first, rest, hLines⟩ := exists_line hWithin
    refine ⟨_, truncateHeadBy_lines _ hWithin hLines, ?_, fun h => absurd h hWithin, fun _ => ?_⟩
    · have hBytes := joinedBytes_le content
      have hLongest := collect_all options.lineLimit options.byteLimit (first :: rest)
      rw [Within, hLines] at hWithin
      rw [hLines] at hBytes
      rw [truncatedHead]
      split_ifs with hFirst
      · have hOne : joinedBytes [first] ≤ joinedBytes (first :: rest) := joinedBytes_mono ⟨rest, rfl⟩
        exact ⟨rfl, nofun, fun _ => Nat.lt_of_lt_of_le hFirst (Nat.le_trans hOne hBytes)⟩
      · refine ⟨rfl, fun hReason => ?_, fun hReason => ?_⟩
        · have hLoop := Option.some.inj hReason
          split_ifs at hLoop with hBreak hOmitted
          rcases hLongest.all hBreak with hFull | hAll
          · exact hFull ▸ hOmitted
          · rw [hAll, ← hLines] at hOmitted
            exact absurd hOmitted (Nat.lt_irrefl _)
        · have hLoop := Option.some.inj hReason
          split_ifs at hLoop with hBreak hOmitted
          · have hAll := hLongest.isPrefix.length_le
            have hCount := hLongest.count
            have hMany : ¬(collect options.lineLimit options.byteLimit (first :: rest) [] 0).output.length <
                (splitLinesForCounting content).length := hOmitted
            rw [hLines] at hMany
            omega
          · exact Nat.lt_of_lt_of_le (hLongest.bytes_lt (not_not.mp hBreak)) hBytes
    · rw [hLines]
      exact truncatedHead_most _ first rest _

/-- Truncation by an admitted prefix is truncation of the text, to the longest prefix of
whole lines within both limits. -/
theorem truncate_prefix_same (whole text : JsString) (options : TruncationOptions) (hPrefix : text <+: whole)
    (hLimit : 1 ≤ options.lineLimit) :
    (Admitted whole text options → truncateHeadOf text (totalsOf whole) options = truncateHead whole options) ∧
      ∃ result, truncateHead whole options = some result ∧ Honest whole options result ∧
        (Within whole options → result = untruncated whole (totalsOf whole) options) ∧
          (¬Within whole options → ShowsMost (splitLinesForCounting whole) options
            (fun count => (splitLinesForCounting whole).take count) result) := by
  obtain ⟨second, rfl⟩ := hPrefix
  exact ⟨fun h => truncateHeadOf_prefix h hLimit, truncateHead_honest _ options⟩

/-- One of two lines is all that the limit lets through. -/
theorem truncate_by_first_line :
    truncateHeadOf (js "ab\nc") ⟨2, 5⟩ ⟨some 1, some 9⟩ = truncateHead (js "ab\ncd") ⟨some 1, some 9⟩ :=
  (truncate_prefix_same (js "ab\ncd") (js "ab\nc") ⟨some 1, some 9⟩ (by decide) (by decide)).1 (.inr (.inr (by decide)))

end OctoberHarness.Truncate
