import Mathlib.Data.List.Sort
import OctoberHarness.Json.Value
import OctoberHarness.Library.Outcome

/-! Text edits by search and replace: matching, exact or in normalized text, and the replacements. -/
namespace OctoberHarness.Edit

def normalizeToLF : JsString → JsString
  | [] => []
  | [unit] => if unit = 13 then [10] else [unit]
  | unit :: next :: rest =>
    if unit = 13 then if next = 10 then 10 :: normalizeToLF rest else 10 :: normalizeToLF (next :: rest)
    else unit :: normalizeToLF (next :: rest)

def indexOf (pattern : JsString) : JsString → Option Nat
  | [] => if pattern = [] then some 0 else none
  | unit :: rest => if pattern.isPrefixOf (unit :: rest) then some 0 else (indexOf pattern rest).map (· + 1)

/-- The parts of `split` by a separator that is not empty, with the units still to skip and the part so far. -/
def splitBy (separator : JsString) : Nat → JsString → JsString → List JsString
  | _, part, [] => [part]
  | skip + 1, part, _ :: rest => splitBy separator skip part rest
  | 0, part, unit :: rest =>
    if separator.isPrefixOf (unit :: rest) then part :: splitBy separator (separator.length - 1) [] rest
    else splitBy separator 0 (part ++ [unit]) rest

/-- `split`; the empty separator splits every unit. -/
def split (text separator : JsString) : List JsString :=
  if separator = [] then text.map fun unit => [unit] else splitBy separator 0 [] text

def trimEnd (line : JsString) : JsString :=
  (line.reverse.dropWhile isBlank).reverse

/-- The quotes, dashes and spaces that count as ASCII. -/
def toAscii (unit : UInt16) : UInt16 :=
  if 0x2018 ≤ unit ∧ unit ≤ 0x201B then 39
  else if 0x201C ≤ unit ∧ unit ≤ 0x201F then 34
  else if (0x2010 ≤ unit ∧ unit ≤ 0x2015) ∨ unit = 0x2212 then 45
  else if unit = 0xA0 ∨ (0x2002 ≤ unit ∧ unit ≤ 0x200A) ∨ unit = 0x202F ∨ unit = 0x205F ∨ unit = 0x3000 then 32
  else unit

/-- `normalizeForFuzzyMatch`; `nfkc` is Unicode's `normalize("NFKC")`. -/
def normalizeForFuzzyMatch (nfkc : JsString → JsString) (text : JsString) : JsString :=
  (List.intercalate [10] ((split (nfkc text) [10]).map trimEnd)).map toAscii

def splitLinesWithEndings : JsString → List JsString
  | [] => []
  | unit :: rest =>
    if unit = 10 then [10] :: splitLinesWithEndings rest
    else
      match splitLinesWithEndings rest with
      | [] => [[unit]]
      | line :: lines => (unit :: line) :: lines

structure TextEdit where
  oldText : JsString
  newText : JsString

structure TextReplacement where
  matchIndex : Nat
  matchLength : Nat
  newText : JsString

structure MatchedEdit extends TextReplacement where
  editIndex : Nat

inductive EditError where
  | emptyOldText (index : Nat)
  | notFound (index : Nat)
  | duplicate (index : Nat) (occurrences : Int)
  | overlap (previous current : Nat)
  | noChange
  | outside
  | lineCount

/-- The message of an error among `total` edits of a file. -/
def EditError.message (path : String) (total : Nat) : EditError → String
  | .emptyOldText index =>
    if total = 1 then "oldText must not be empty in " ++ path ++ "."
    else "edits[" ++ toString index ++ "].oldText must not be empty in " ++ path ++ "."
  | .notFound index =>
    if total = 1 then
      "Could not find the exact text in " ++ path ++
        ". The old text must match exactly including all whitespace and newlines."
    else
      "Could not find edits[" ++ toString index ++ "] in " ++ path ++
        ". The oldText must match exactly including all whitespace and newlines."
  | .duplicate index occurrences =>
    if total = 1 then
      "Found " ++ toString occurrences ++ " occurrences of the text in " ++ path ++
        ". The text must be unique. Please provide more context to make it unique."
    else
      "Found " ++ toString occurrences ++ " occurrences of edits[" ++ toString index ++ "] in " ++ path ++
        ". Each oldText must be unique. Please provide more context to make it unique."
  | .overlap previous current =>
    "edits[" ++ toString previous ++ "] and edits[" ++ toString current ++ "] overlap in " ++ path ++
      ". Merge them into one edit or target disjoint regions."
  | .noChange =>
    if total = 1 then
      "No changes made to " ++ path ++
        ". The replacement produced identical content. This might indicate an issue with special characters or the text not existing as expected."
    else "No changes made to " ++ path ++ ". The replacements produced identical content."
  | .outside => "Replacement range is outside the base content."
  | .lineCount => "Cannot preserve unchanged lines because the base content has a different line count."

/-- `fuzzyFindText`: where the text is found, its length there, and whether in normalized text. -/
def fuzzyFindText (nfkc : JsString → JsString) (content oldText : JsString) : Option (Nat × Nat × Bool) :=
  match indexOf oldText content with
  | some index => some (index, oldText.length, false)
  | none =>
    (indexOf (normalizeForFuzzyMatch nfkc oldText) (normalizeForFuzzyMatch nfkc content)).map fun index =>
      (index, (normalizeForFuzzyMatch nfkc oldText).length, true)

def countOccurrences (nfkc : JsString → JsString) (content oldText : JsString) : Int :=
  (split (normalizeForFuzzyMatch nfkc content) (normalizeForFuzzyMatch nfkc oldText)).length - 1

/-- `applyReplacements`: from the last one to the first. -/
def applyReplacements (content : JsString) (replacements : List TextReplacement) (offset : Nat) : JsString :=
  replacements.foldr (fun replacement result =>
    result.take (replacement.matchIndex - offset) ++ replacement.newText ++
      result.drop (replacement.matchIndex - offset + replacement.matchLength)) content

structure LineSpan where
  start : Nat
  stop : Nat

/-- `getLineSpans` from an offset. -/
def lineSpans (offset : Nat) : List JsString → List LineSpan
  | [] => []
  | line :: rest => ⟨offset, offset + line.length⟩ :: lineSpans (offset + line.length) rest

/-- `getReplacementLineRange`: the first line and the one after the last. -/
def replacementLineRange (lines : List LineSpan) (replacement : TextReplacement) : Except EditError (Nat × Nat) :=
  match lines.findIdx? fun line => line.start ≤ replacement.matchIndex && replacement.matchIndex < line.stop with
  | none => .error .outside
  | some startLine =>
    let endLine := startLine +
      ((lines.drop startLine).takeWhile fun line => line.stop < replacement.matchIndex + replacement.matchLength).length
    if lines.length ≤ endLine then .error .outside else .ok (startLine, endLine + 1)

/-- Lines that replacements touch together. -/
structure LineGroup where
  startLine : Nat
  endLine : Nat
  replacements : List TextReplacement

/-- A replacement joins the last group when it begins in its lines. -/
def addReplacement (lines : List LineSpan) (groups : List LineGroup) (replacement : TextReplacement) :
    Except EditError (List LineGroup) := do
  let range ← replacementLineRange lines replacement
  match groups.getLast? with
  | some current =>
    if range.1 < current.endLine then
      return groups.dropLast ++
        [⟨current.startLine, max current.endLine range.2, current.replacements ++ [replacement]⟩]
    else return groups ++ [⟨range.1, range.2, [replacement]⟩]
  | none => return [⟨range.1, range.2, [replacement]⟩]

/-- The original lines up to a group and the group's lines with its replacements. -/
def writeGroup (originalLines : List JsString) (base : JsString) (baseLines : List LineSpan)
    (state : Nat × JsString) (group : LineGroup) : Nat × JsString :=
  let first := (baseLines[group.startLine]?.map LineSpan.start).getD 0
  let last := (baseLines[group.endLine - 1]?.map LineSpan.stop).getD 0
  (group.endLine,
    state.2 ++ ((originalLines.take group.startLine).drop state.1).flatten ++
      applyReplacements ((base.take last).drop first) group.replacements first)

def applyReplacementsPreservingUnchangedLines (original base : JsString) (replacements : List TextReplacement) :
    Except EditError JsString := do
  let originalLines := splitLinesWithEndings original
  let baseLines := lineSpans 0 (splitLinesWithEndings base)
  if originalLines.length ≠ baseLines.length then throw .lineCount
  let groups ← (replacements.insertionSort (·.matchIndex ≤ ·.matchIndex)).foldlM (addReplacement baseLines) []
  let written := groups.foldl (writeGroup originalLines base baseLines) (0, [])
  return written.2 ++ (originalLines.drop written.1).flatten

/-! `applyEditsToNormalizedContent`. -/

def TextEdit.toLF (edit : TextEdit) : TextEdit :=
  ⟨normalizeToLF edit.oldText, normalizeToLF edit.newText⟩

/-- Whether an edit is found in normalized text only. -/
def usedFuzzyMatch (nfkc : JsString → JsString) (content : JsString) (edits : List TextEdit) : Bool :=
  edits.any fun edit => (fuzzyFindText nfkc content edit.toLF.oldText).any fun found => found.2.2

def replacementBaseContent (nfkc : JsString → JsString) (content : JsString) (edits : List TextEdit) : JsString :=
  if usedFuzzyMatch nfkc content edits then normalizeForFuzzyMatch nfkc content else content

def matchEdit (nfkc : JsString → JsString) (base : JsString) (edit : TextEdit × Nat) : Except EditError MatchedEdit :=
  match fuzzyFindText nfkc base edit.1.toLF.oldText with
  | none => .error (.notFound edit.2)
  | some (index, length, _) =>
    if 1 < countOccurrences nfkc base edit.1.toLF.oldText then
      .error (.duplicate edit.2 (countOccurrences nfkc base edit.1.toLF.oldText))
    else .ok ⟨⟨index, length, edit.1.toLF.newText⟩, edit.2⟩

/-- The first edit that begins before the previous one ends. -/
def checkOverlap : List MatchedEdit → Except EditError Unit
  | previous :: current :: rest =>
    if current.matchIndex < previous.matchIndex + previous.matchLength then
      .error (.overlap previous.editIndex current.editIndex)
    else checkOverlap (current :: rest)
  | _ => .ok ()

def sortMatches (matched : List MatchedEdit) : List MatchedEdit :=
  matched.insertionSort (·.matchIndex ≤ ·.matchIndex)

/-- The new content. -/
def applyEdits (nfkc : JsString → JsString) (content : JsString) (edits : List TextEdit) : Except EditError JsString := do
  match edits.findIdx? fun edit => edit.toLF.oldText = [] with
  | some index => throw (.emptyOldText index)
  | none =>
    let base := replacementBaseContent nfkc content edits
    let matched ← edits.zipIdx.mapM (matchEdit nfkc base)
    checkOverlap (sortMatches matched)
    let replacements := (sortMatches matched).map MatchedEdit.toTextReplacement
    let newContent ←
      if usedFuzzyMatch nfkc content edits then applyReplacementsPreservingUnchangedLines content base replacements
      else pure (applyReplacements base replacements 0)
    if content = newContent then throw .noChange else return newContent

end OctoberHarness.Edit
