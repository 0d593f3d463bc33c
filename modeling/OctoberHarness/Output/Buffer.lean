import OctoberHarness.Library.Utf8

/-! Bounded output of a stream: the last lines and bytes of it, and what the limits
dropped. Text is the text of string chunks; retention is that of the tail. -/
namespace OctoberHarness.Output

open Utf8

structure OutputLimits where
  maxBytes : Nat
  maxLines : Nat

structure BoundedOutput where
  text : List Char
  droppedBytes : Nat
  droppedLines : Nat

structure OutputSlice where
  text : List Char
  bytes : Nat
  droppedBytes : Nat
  droppedLines : Nat

structure OutputSkip where
  bytes : Nat
  newlines : Nat
  endsWithNewline : Bool

def inRange (c : Char) (first last : Nat) : Bool :=
  first ≤ c.toNat && c.toNat ≤ last

/-- `INVALID_OUTPUT`. -/
def isInvalidOutput (c : Char) : Bool :=
  inRange c 0x00 0x08 || inRange c 0x0b 0x1f || inRange c 0xfff9 0xfffb

/-- What is behind an escape string: it ends at BEL or ST. -/
def afterString : List Char → Option (List Char)
  | [] => none
  | c :: rest =>
    if c = '\x07' then some rest
    else if c = '\x1b' then
      match rest with
      | '\\' :: rest => some rest
      | _ => none
    else afterString rest

/-- What is behind a control sequence, from its parameters on. -/
def afterControl (text : List Char) : Option (List Char) :=
  match (text.dropWhile fun c => inRange c 0x30 0x3f).dropWhile fun c => inRange c 0x20 0x2f with
  | c :: rest => if inRange c 0x40 0x7e then some rest else none
  | [] => none

/-- What is behind a short escape. -/
def afterShort (text : List Char) : Option (List Char) :=
  match text.dropWhile fun c => inRange c 0x20 0x2f with
  | c :: rest => if inRange c 0x30 0x7e then some rest else none
  | [] => none

/-- `ESCAPE_SEQUENCE` behind its ESC: the first of its forms that matches. -/
def afterEscape (text : List Char) : Option (List Char) :=
  let string := match text with
    | c :: rest => if c = ']' ∨ c = 'P' ∨ c = 'X' ∨ c = '^' ∨ c = '_' then afterString rest else none
    | [] => none
  let control := match text with
    | '[' :: rest => afterControl rest
    | _ => none
  (string.or control).or (afterShort text)

/-- `text.replace(ESCAPE_SEQUENCE, "")`; the fuel is the length of the text. -/
def removeEscapes : Nat → List Char → List Char
  | 0, text => text
  | _ + 1, [] => []
  | fuel + 1, c :: rest =>
    match if c = '\x1b' then afterEscape rest else none with
    | some after => removeEscapes fuel after
    | none => c :: removeEscapes fuel rest

def sanitizeOutput (text : List Char) : List Char :=
  (removeEscapes text.length text).filter fun c => !isInvalidOutput c

/-! The tail window. -/

/-- The start of the last `maxLines` lines: `index` is where the search for a newline goes
on, `lines` how many lines were found. -/
def lineStart (bytes : List UInt8) (maxLines : Nat) : (index : Nat) → (lines : Nat) → Nat
  | 0, _ => 0
  | index + 1, lines =>
    if bytes[index]? = some newline then
      if lines = maxLines then index + 1 else lineStart bytes maxLines index (lines + 1)
    else lineStart bytes maxLines index lines

/-- `bytes.indexOf(NEWLINE, index)`. -/
def indexOfNewline (bytes : List UInt8) (index : Nat) : Option Nat :=
  ((bytes.drop index).findIdx? fun byte => byte = newline).map (index + ·)

def characterEnd (bytes : List UInt8) : (index : Nat) → Nat
  | 0 => 0
  | index + 1 =>
    if isContinuation (bytes[index + 1]?.getD 0) then characterEnd bytes index else index + 1

def characterStart (bytes : List UInt8) (index : Nat) : Nat :=
  index + ((bytes.drop index).takeWhile isContinuation).length

/-- Where the search for line starts begins: a trailing newline ends the last line. -/
def searchEnd (bytes : List UInt8) : Nat :=
  if bytes.getLast? = some newline then bytes.length - 1 else bytes.length

/-- The first line that starts inside the byte window, or a cut of the last line when it
alone is too long. -/
def byteStart (bytes : List UInt8) (maxBytes : Nat) : Nat :=
  match indexOfNewline bytes (bytes.length - maxBytes - 1) with
  | some newline =>
    if newline + 1 < bytes.length then newline + 1 else characterStart bytes (bytes.length - maxBytes)
  | none => characterStart bytes (bytes.length - maxBytes)

/-- `tailRange`: where the tail starts. -/
def tailStart (bytes : List UInt8) (limits : OutputLimits) : Nat :=
  if limits.maxLines = 0 ∨ limits.maxBytes = 0 then bytes.length
  else if bytes.length - lineStart bytes limits.maxLines (searchEnd bytes) 1 > limits.maxBytes then
    byteStart bytes limits.maxBytes
  else lineStart bytes limits.maxLines (searchEnd bytes) 1

def lineCount (bytes : List UInt8) : Nat :=
  if bytes = [] then 0
  else bytes.count newline + if bytes.getLast? = some newline then 0 else 1

def boundOutput (text : List Char) (limits : OutputLimits) : OutputSlice :=
  let bytes := encode text
  let kept := bytes.drop (tailStart bytes limits)
  { text := if kept.length = bytes.length then text else decode kept
    bytes := kept.length
    droppedBytes := bytes.length - kept.length
    droppedLines := lineCount bytes - lineCount kept }

/-- The newline with which more than `maxLines` newlines end the text. -/
def marginLineStart (bytes : List UInt8) (maxLines : Nat) : (index : Nat) → (newlines : Nat) → Nat
  | 0, _ => 0
  | index + 1, newlines =>
    if bytes[index]? = some newline then
      if newlines + 1 > maxLines then index else marginLineStart bytes maxLines index (newlines + 1)
    else marginLineStart bytes maxLines index newlines

/-- Where the shortest suffix starts with more than `maxBytes` bytes or more than
`maxLines` newlines. -/
def marginStart (bytes : List UInt8) (limits : OutputLimits) : Nat :=
  max (if bytes.length > limits.maxBytes then characterEnd bytes (bytes.length - limits.maxBytes - 1) else 0)
    (marginLineStart bytes limits.maxLines bytes.length 0)

def tailMargin (text : List Char) (limits : OutputLimits) : List Char :=
  if marginStart (encode text) limits = 0 then text
  else decode ((encode text).drop (marginStart (encode text) limits))

def utf8ByteLength (content : List Char) : Nat :=
  (encode content).length

def countNewlines (text : List Char) : Nat :=
  text.count '\n'

def endsWithNewline (text : List Char) : Bool :=
  text.getLast? = some '\n'

/-- Lines of text with `newlines` newlines. -/
def lines (newlines : Nat) (terminated : Bool) : Nat :=
  newlines + if terminated then 0 else 1

structure Chunk where
  text : List Char
  bytes : Nat
  newlines : Nat

structure OutputBuffer where
  limits : OutputLimits
  chunks : List Chunk
  storedBytes : Nat
  storedNewlines : Nat
  totalBytes : Nat
  totalNewlines : Nat
  endsWithNewline : Bool

namespace OutputBuffer

def new (limits : OutputLimits) : OutputBuffer :=
  ⟨limits, [], 0, 0, 0, 0, true⟩

def skip (buffer : OutputBuffer) (skipped : OutputSkip) : OutputBuffer :=
  if skipped.bytes = 0 then buffer
  else
    { buffer with
      totalBytes := buffer.totalBytes + skipped.bytes
      totalNewlines := buffer.totalNewlines + skipped.newlines
      endsWithNewline := skipped.endsWithNewline
      chunks := []
      storedBytes := 0
      storedNewlines := 0 }

/-- Drops leading chunks while the rest still holds more than a window. -/
def dropChunks (limits : OutputLimits) : List Chunk → Nat → Nat → List Chunk × Nat × Nat
  | first :: second :: rest, storedBytes, storedNewlines =>
    if storedBytes - first.bytes ≤ limits.maxBytes + 1 ∧ storedNewlines - first.newlines ≤ limits.maxLines + 1 then
      (first :: second :: rest, storedBytes, storedNewlines)
    else dropChunks limits (second :: rest) (storedBytes - first.bytes) (storedNewlines - first.newlines)
  | chunks, storedBytes, storedNewlines => (chunks, storedBytes, storedNewlines)

def accept (buffer : OutputBuffer) (text : List Char) : OutputBuffer :=
  if text = [] then buffer
  else
    let bytes := utf8ByteLength text
    let newlines := countNewlines text
    let (chunks, storedBytes, storedNewlines) := dropChunks buffer.limits (buffer.chunks ++ [⟨text, bytes, newlines⟩])
      (buffer.storedBytes + bytes) (buffer.storedNewlines + newlines)
    { buffer with
      totalBytes := buffer.totalBytes + bytes
      totalNewlines := buffer.totalNewlines + newlines
      endsWithNewline := Output.endsWithNewline text
      chunks, storedBytes, storedNewlines }

/-- `push` of a string chunk. -/
def push (buffer : OutputBuffer) (chunk : List Char) (skipped : Option OutputSkip) : OutputBuffer :=
  match skipped with
  | none => buffer.accept chunk
  | some skipped => (buffer.skip skipped).accept chunk

def stored (buffer : OutputBuffer) : List Char :=
  buffer.chunks.flatMap Chunk.text

/-- What a snapshot leaves: the shortest suffix longer than the window by a byte or a line. -/
def settle (buffer : OutputBuffer) : OutputBuffer :=
  let text := tailMargin buffer.stored buffer.limits
  { buffer with
    chunks := if text = [] then [] else [⟨text, utf8ByteLength text, countNewlines text⟩]
    storedBytes := utf8ByteLength text
    storedNewlines := if text = [] then 0 else countNewlines text }

def snapshot (buffer : OutputBuffer) : BoundedOutput × OutputBuffer :=
  let stored := buffer.stored
  let kept := boundOutput stored buffer.limits
  let storedLines := lines buffer.storedNewlines (stored = [] || Output.endsWithNewline stored)
  let keptLines := storedLines - kept.droppedLines
  (⟨sanitizeOutput kept.text, buffer.totalBytes - kept.bytes,
      lines buffer.totalNewlines buffer.endsWithNewline - keptLines⟩, buffer.settle)

end OutputBuffer

end OctoberHarness.Output
