import OctoberHarness.Output.Buffer

/-! The daemon's window of undelivered output: text is held and coalesced, and text that
is followed by more than the window is replaced by counts. A step that would panic or
underflow is `none`. -/
namespace OctoberHarness.Output

open Utf8

/-- The bounds of `Window`, of type `usize`. -/
structure Window where
  maxBytes : UInt64
  maxLines : UInt64

/-- The limits of the caller's tail. -/
def Window.limits (window : Window) : OutputLimits :=
  ⟨window.maxBytes.toNat, window.maxLines.toNat⟩

inductive Stream where
  | stdout
  | stderr
  deriving DecidableEq

structure Event where
  stream : Stream
  text : List Char
  skipped : Option OutputSkip

/-- A `usize` sum or product: a build with overflow checks panics, another one wraps. -/
def usize (overflowChecks : Bool) (value : Nat) : Option Nat :=
  if overflowChecks ∧ 2 ^ 64 ≤ value then none else some (value % 2 ^ 64)

/-- A `usize` difference. -/
def sub (first second : Nat) : Option Nat :=
  if second ≤ first then some (first - second) else none

/-- `is_char_boundary`. -/
def isCharBoundary (bytes : List UInt8) (index : Nat) : Bool :=
  index = 0 || index = bytes.length || bytes[index]?.any fun byte => !isContinuation byte

/-- `drain(..cut)`, which panics inside a character. -/
def drain (text : List Char) (cut : Nat) : Option (List Char × List Char) :=
  if isCharBoundary (encode text) cut then
    some (decode ((encode text).take cut), decode ((encode text).drop cut))
  else none

abbrev Segment := Stream × List Char

/-- The last boundary up to an index. -/
def boundaryBefore (bytes : List UInt8) : (index : Nat) → Nat
  | 0 => 0
  | index + 1 => if isCharBoundary bytes (index + 1) then index + 1 else boundaryBefore bytes index

/-- Where the newlines are, counted from `start`. -/
def newlinePositions (bytes : List UInt8) (start : Nat) : List Nat :=
  ((bytes.zipIdx start).filter fun (byte, _) => byte = newline).map Prod.snd

/-- What `trim` carries: the segments, their bytes and newlines, and the removed text. -/
structure Trimming where
  segments : List Segment
  bytes : Nat
  newlines : Nat
  removed : List Char

structure Pending where
  window : Window
  /-- Undelivered text in arrival order, by stream. -/
  segments : List Segment
  bytes : Nat
  newlines : Nat
  skipped : Option OutputSkip

namespace Pending

def new (window : Window) : Pending :=
  ⟨window, [], 0, 0, none⟩

/-- Text joins the last segment when it is of the same stream. -/
def hold (stream : Stream) (text : List Char) : List Segment → List Segment
  | [] => [(stream, text)]
  | [(last, existing)] =>
    if last = stream then [(last, existing ++ text)] else [(last, existing), (stream, text)]
  | first :: second :: rest => first :: hold stream text (second :: rest)

/-- Whether the text after a cut still proves the cut text is outside the window. -/
def proves (window : Window) (bytes newlines : Nat) : Bool :=
  bytes > window.maxBytes.toNat || newlines > window.maxLines.toNat

/-- Whole segments first. -/
def trimSegments (window : Window) : List Segment → (bytes newlines : Nat) → (removed : List Char) → Option Trimming
  | first :: second :: rest, bytes, newlines, removed => do
    let restBytes ← sub bytes (utf8ByteLength first.2)
    let restNewlines ← sub newlines (countNewlines first.2)
    if proves window restBytes restNewlines then
      trimSegments window (second :: rest) restBytes restNewlines (removed ++ first.2)
    else some ⟨first :: second :: rest, bytes, newlines, removed⟩
  | segments, bytes, newlines, removed => some ⟨segments, bytes, newlines, removed⟩

/-- The cut of the first segment by bytes: more than `maxBytes` stay in all. -/
def byteCut (overflowChecks : Bool) (window : Window) (first : List UInt8) (restBytes : Nat) : Option Nat := do
  let bound ← usize overflowChecks (window.maxBytes.toNat + 1)
  let keepBytes := bound - restBytes
  if first.length > keepBytes then some (boundaryBefore first (first.length - keepBytes)) else some 0

/-- The cut by lines, at a newline: more than `maxLines` newlines stay in all. -/
def lineCut (overflowChecks : Bool) (window : Window) (first : List UInt8) (restNewlines cut : Nat) : Option Nat := do
  let bound ← usize overflowChecks (window.maxLines.toNat + 1)
  let keepNewlines := bound - restNewlines
  if keepNewlines > 0 then
    let positions := newlinePositions first 0
    if positions.length ≥ keepNewlines then positions[positions.length - keepNewlines]?.map (max cut)
    else some cut
  else some first.length

/-- Then a part of the first segment that is left. -/
def trimFirst (overflowChecks : Bool) (window : Window) (trimming : Trimming) : Option Trimming :=
  match trimming.segments with
  | [] => none
  | (stream, first) :: rest => do
    let restBytes ← sub trimming.bytes (utf8ByteLength first)
    let restNewlines ← sub trimming.newlines (countNewlines first)
    let bytesCut ← byteCut overflowChecks window (encode first) restBytes
    let cut ← lineCut overflowChecks window (encode first) restNewlines bytesCut
    if cut > 0 then
      let (gone, left) ← drain first cut
      let bytes ← sub trimming.bytes (utf8ByteLength gone)
      let newlines ← sub trimming.newlines (countNewlines gone)
      some ⟨if left = [] then rest else (stream, left) :: rest, bytes, newlines, trimming.removed ++ gone⟩
    else some trimming

/-- Removed text is counted. -/
def skip (skipped : Option OutputSkip) (removed : List Char) : Option OutputSkip :=
  if removed = [] then skipped
  else
    let counted := skipped.getD ⟨0, 0, false⟩
    some ⟨counted.bytes + utf8ByteLength removed, counted.newlines + countNewlines removed, endsWithNewline removed⟩

def trim (overflowChecks : Bool) (pending : Pending) : Option Pending := do
  let whole ← trimSegments pending.window pending.segments pending.bytes pending.newlines []
  let trimming ← trimFirst overflowChecks pending.window whole
  some
    { pending with
      segments := trimming.segments
      bytes := trimming.bytes
      newlines := trimming.newlines
      skipped := skip pending.skipped trimming.removed }

/-- `4 * (bound + 1)`. -/
def fewWindows (overflowChecks : Bool) (bound : UInt64) : Option Nat :=
  (usize overflowChecks (bound.toNat + 1)).bind fun sum => usize overflowChecks (4 * sum)

/-- Whether a few windows have accumulated. -/
def accumulated (overflowChecks : Bool) (pending : Pending) : Option Bool :=
  (fewWindows overflowChecks pending.window.maxBytes).bind fun bytes =>
    if pending.bytes > bytes then some true
    else (fewWindows overflowChecks pending.window.maxLines).bind fun lines => some (pending.newlines > lines)

def push (overflowChecks : Bool) (pending : Pending) (stream : Stream) (text : List Char) : Option Pending :=
  if text = [] then some pending
  else
    let held : Pending :=
      { pending with
        segments := hold stream text pending.segments
        bytes := pending.bytes + utf8ByteLength text
        newlines := pending.newlines + countNewlines text }
    (accumulated overflowChecks held).bind fun few => if few then trim overflowChecks held else some held

/-- Delivers everything held: one event with the skip and all text after it, or one event
for each segment. -/
def take (pending : Pending) : List Event × Pending :=
  (match pending.skipped with
    | some skipped =>
      [⟨(pending.segments.getLast?.map Prod.fst).getD .stdout, pending.segments.flatMap Prod.snd, some skipped⟩]
    | none => pending.segments.map fun (stream, text) => ⟨stream, text, none⟩,
    { pending with segments := [], bytes := 0, newlines := 0, skipped := none })

end Pending

/-- What the daemon does with the window. -/
inductive WindowStep where
  | push (stream : Stream) (text : List Char)
  | take

/-- A run of the window with the events it delivers. -/
def Pending.run (overflowChecks : Bool) : Pending → List WindowStep → Option (List Event × Pending)
  | pending, [] => some ([], pending)
  | pending, .push stream text :: steps => do
    let pushed ← pending.push overflowChecks stream text
    Pending.run overflowChecks pushed steps
  | pending, .take :: steps => do
    let (later, last) ← Pending.run overflowChecks pending.take.2 steps
    some (pending.take.1 ++ later, last)

/-- The text of the steps, piece by piece. -/
def pieces (steps : List WindowStep) : List (List Char) :=
  steps.filterMap fun
    | .push _ text => some text
    | .take => none

/-- A buffer that is given events, each skip before its text. -/
def OutputBuffer.feed (buffer : OutputBuffer) (events : List Event) : OutputBuffer :=
  events.foldl (fun buffer event => buffer.push event.text event.skipped) buffer

def OutputBuffer.feedText (buffer : OutputBuffer) (texts : List (List Char)) : OutputBuffer :=
  texts.foldl (fun buffer text => buffer.push text none) buffer

def Event.bytes (event : Event) : Nat :=
  utf8ByteLength event.text + (event.skipped.map OutputSkip.bytes).getD 0

def Event.newlines (event : Event) : Nat :=
  countNewlines event.text + (event.skipped.map OutputSkip.newlines).getD 0

end OctoberHarness.Output
