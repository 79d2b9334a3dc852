import PiAgent.Env.Encoding

/-!
# Bounded running output

`boundOutput` and `OutputBuffer` of `output.ts`: the output of a tool call is retained within
limits, from its head or from its tail. Counts are natural numbers, and what is dropped is a
difference of them.
-/

namespace PiAgent.Harness.Output

open Env Durable Utf8

inductive Retain where
  | head
  | tail
  deriving DecidableEq

structure OutputLimits where
  maxBytes : ℕ
  maxLines : ℕ
  retain : Retain
  deriving DecidableEq

structure BoundedOutput where
  text : JsString
  droppedBytes : ℤ
  droppedLines : ℤ
  deriving DecidableEq

structure OutputSlice where
  text : JsString
  bytes : ℕ
  droppedBytes : ℤ
  droppedLines : ℤ
  deriving DecidableEq

/-- `/[\x00-\x08\x0b-\x1f\ufff9-\ufffb]/` -/
def invalidOutput (u : UInt16) : Bool := u ≤ 0x08 || (0x0b ≤ u && u ≤ 0x1f) || (0xfff9 ≤ u && u ≤ 0xfffb)

def sanitizeOutput (text : JsString) : JsString := text.filter (fun u => !invalidOutput u)

/-! ## Ranges of bytes -/

def characterEnd (bytes : List UInt8) (index : ℕ) : ℕ := boundaryBefore bytes index

def characterStart (bytes : List UInt8) (index : ℕ) : ℕ := boundaryAfter bytes index

/-- `bytes.indexOf(NEWLINE, start)` -/
def indexOfNewline (bytes : List UInt8) (start : ℕ) : Option ℕ := ((bytes.drop start).idxOf? NEWLINE).map (start + ·)

/-- `bytes.lastIndexOf(NEWLINE, index)` -/
def lastIndexOfNewline (bytes : List UInt8) : ℕ → Option ℕ
  | 0 => if bytes[0]? = some NEWLINE then some 0 else none
  | index + 1 => if bytes[index + 1]? = some NEWLINE then some (index + 1) else lastIndexOfNewline bytes index

/-- The loop of `headRange`: the end of line `maxLines`, or of the bytes. -/
def lineEnd (maxLines : ℕ) : List UInt8 → ℕ → ℕ → ℕ
  | [], index, _ => index
  | byte :: bytes, index, lines =>
    if byte = NEWLINE then if lines + 1 = maxLines then index + 1 else lineEnd maxLines bytes (index + 1) (lines + 1)
    else lineEnd maxLines bytes (index + 1) lines

/-- The end of `headRange`. -/
def headEnd (bytes : List UInt8) (limits : OutputLimits) : ℕ :=
  if limits.maxLines = 0 ∨ limits.maxBytes = 0 then 0
  else
    let stop := lineEnd limits.maxLines bytes 0 0
    if stop > limits.maxBytes then
      match lastIndexOfNewline bytes (limits.maxBytes - 1) with
      | none => characterEnd bytes limits.maxBytes
      | some newline => newline + 1
    else stop

/-- The loop of `tailRange`, which goes down over the newlines among so many first bytes. -/
def lineStart (bytes : List UInt8) (maxLines : ℕ) : ℕ → ℕ → ℕ
  | 0, _ => 0
  | index + 1, lines =>
    if bytes[index]? = some NEWLINE then
      if lines = maxLines then index + 1 else lineStart bytes maxLines index (lines + 1)
    else lineStart bytes maxLines index lines

/-- The start of `tailRange`. -/
def tailStart (bytes : List UInt8) (limits : OutputLimits) : ℕ :=
  if limits.maxLines = 0 ∨ limits.maxBytes = 0 then bytes.length
  else
    -- A trailing newline ends the last line rather than starting another.
    let last := if bytes.getLast? = some NEWLINE then bytes.length - 1 else bytes.length
    let start := lineStart bytes limits.maxLines last 1
    if bytes.length - start > limits.maxBytes then
      let first := bytes.length - limits.maxBytes
      match indexOfNewline bytes (first - 1) with
      | some newline => if newline + 1 < bytes.length then newline + 1 else characterStart bytes first
      | none => characterStart bytes first
    else start

def lineCount (bytes : List UInt8) : ℕ :=
  if bytes.isEmpty then 0 else bytes.count NEWLINE + (if bytes.getLast? = some NEWLINE then 0 else 1)

def boundOutput (text : JsString) (limits : OutputLimits) : OutputSlice :=
  let bytes := encodeText text
  let kept := match limits.retain with
    | .head => bytes.take (headEnd bytes limits)
    | .tail => bytes.drop (tailStart bytes limits)
  { text := if kept.length = bytes.length then text else decodeText kept
    bytes := kept.length
    droppedBytes := (bytes.length : ℤ) - kept.length
    droppedLines := (lineCount bytes : ℤ) - lineCount kept }

/-! ## The buffer -/

structure Chunk where
  text : JsString
  bytes : ℕ
  newlines : ℕ
  deriving DecidableEq

inductive Piece where
  | text (text : JsString)
  | bytes (bytes : List UInt8)

/-- Output omitted right before a chunk. -/
structure ShellOutputSkip where
  bytes : ℕ
  newlines : ℕ
  endsWithNewline : Bool
  deriving DecidableEq

structure OutputBuffer where
  limits : OutputLimits
  decoder : Decoder
  started : Bool
  chunks : List Chunk
  storedBytes : ℕ
  storedNewlines : ℕ
  full : Bool
  totalBytes : ℕ
  totalNewlines : ℕ
  endsWithNewline : Bool
  deriving DecidableEq

def OutputBuffer.new (limits : OutputLimits) : OutputBuffer :=
  { limits := limits, decoder := .new, started := false, chunks := [], storedBytes := 0, storedNewlines := 0, full := false
    totalBytes := 0, totalNewlines := 0, endsWithNewline := true }

def countNewlines (text : JsString) : ℕ := text.count newline

/-- Lines of text; a final unterminated line counts. -/
def lines (newlines : ℕ) (terminated : Bool) : ℕ := newlines + (if terminated then 0 else 1)

/-- The loop of `#accept` that drops leading chunks while the rest holds more than a window. -/
def dropChunks (limits : OutputLimits) : List Chunk → ℕ → ℕ → List Chunk × ℕ × ℕ
  | first :: second :: rest, storedBytes, storedNewlines =>
    let bytesAfter := storedBytes - first.bytes
    let newlinesAfter := storedNewlines - first.newlines
    if bytesAfter ≤ limits.maxBytes + 1 ∧ newlinesAfter ≤ limits.maxLines + 1 then
      (first :: second :: rest, storedBytes, storedNewlines)
    else dropChunks limits (second :: rest) bytesAfter newlinesAfter
  | chunks, storedBytes, storedNewlines => (chunks, storedBytes, storedNewlines)

/-- The buffer after `#accept`, and whether anything was accepted. -/
def OutputBuffer.accept (b : OutputBuffer) (text : JsString) : OutputBuffer × Bool :=
  if text.isEmpty then (b, false)
  else
    let bytes := utf8ByteLength text
    let newlines := countNewlines text
    let b := { b with totalBytes := b.totalBytes + bytes, totalNewlines := b.totalNewlines + newlines
                      endsWithNewline := Durable.endsWithNewline text }
    if b.full then (b, true)
    else
      let b := { b with chunks := b.chunks ++ [Chunk.mk text bytes newlines], storedBytes := b.storedBytes + bytes
                        storedNewlines := b.storedNewlines + newlines }
      match b.limits.retain with
      | .head => ({ b with full := b.storedBytes > b.limits.maxBytes || b.storedNewlines ≥ b.limits.maxLines }, true)
      | .tail =>
        let (chunks, storedBytes, storedNewlines) := dropChunks b.limits b.chunks b.storedBytes b.storedNewlines
        ({ b with chunks := chunks, storedBytes := storedBytes, storedNewlines := storedNewlines }, true)

/-- `#skip` -/
def OutputBuffer.skip (b : OutputBuffer) (skipped : ShellOutputSkip) : OutputBuffer :=
  if skipped.bytes = 0 then b
  else
    { b with totalBytes := b.totalBytes + skipped.bytes, totalNewlines := b.totalNewlines + skipped.newlines
             endsWithNewline := skipped.endsWithNewline, chunks := [], storedBytes := 0, storedNewlines := 0 }

/-- `push`; no value where it throws. -/
def OutputBuffer.push (b : OutputBuffer) (chunk : Piece) (skipped : Option ShellOutputSkip) : OutputBuffer × Option Bool :=
  let flushes := match chunk with
    | .text _ => true
    | .bytes _ => skipped.isSome
  -- Bytes of an incomplete character from an earlier byte chunk come first.
  let pending := if flushes then textOf (flush b.decoder) else []
  let decoder := if flushes then .new else b.decoder
  let (decoder, text) := match chunk with
    | .text text => (decoder, text)
    | .bytes bytes => ((feed decoder bytes).1, textOf (feed decoder bytes).2)
  let first := !b.started && pending.isEmpty && skipped.isNone
  let started := b.started || !pending.isEmpty || !text.isEmpty || skipped.isSome
  let text := match chunk with
    | .text text => text
    | .bytes _ => if first && text.head? = some 0xfeff then text.tail else text
  let b := { b with decoder := decoder, started := started }
  match skipped with
  | none => let (b, accepted) := b.accept (pending ++ text); (b, some accepted)
  | some skipped =>
    match b.limits.retain with
    | .head => (b, none)
    | .tail => ((((b.accept pending).1.skip skipped).accept text).1, some true)

/-- The loop of `tailMargin`: the newline before which so many others follow, or the start. -/
def marginStart (bytes : List UInt8) (maxLines : ℕ) : ℕ → ℕ → ℕ
  | 0, _ => 0
  | index + 1, newlines =>
    if bytes[index]? = some NEWLINE then
      if newlines + 1 > maxLines then index else marginStart bytes maxLines index (newlines + 1)
    else marginStart bytes maxLines index newlines

def tailMargin (text : JsString) (limits : OutputLimits) : JsString :=
  let bytes := encodeText text
  let byteStart :=
    if bytes.length > limits.maxBytes then characterEnd bytes (bytes.length - limits.maxBytes - 1) else 0
  let lineStart := marginStart bytes limits.maxLines bytes.length 0
  let start := max byteStart lineStart
  if start = 0 then text else decodeText (bytes.drop start)

/-- `this.#chunks.map((chunk) => chunk.text).join("")` -/
def OutputBuffer.stored (b : OutputBuffer) : JsString := b.chunks.flatMap Chunk.text

def OutputBuffer.snapshot (b : OutputBuffer) : BoundedOutput × OutputBuffer :=
  let stored := b.stored
  let kept := boundOutput stored b.limits
  let storedLines := lines b.storedNewlines (stored.isEmpty || Durable.endsWithNewline stored)
  let keptLines := (storedLines : ℤ) - kept.droppedLines
  let after :=
    if b.limits.retain = .tail ∨ b.chunks.length > 1 then
      let text := if b.limits.retain = .tail then tailMargin stored b.limits else stored
      let bytes := if b.limits.retain = .tail then utf8ByteLength text else b.storedBytes
      let chunks := if text.isEmpty then [] else [⟨text, bytes, countNewlines text⟩]
      { b with chunks := chunks, storedBytes := bytes, storedNewlines := (chunks.head?.map Chunk.newlines).getD 0 }
    else b
  ({ text := sanitizeOutput kept.text
     droppedBytes := (b.totalBytes : ℤ) - kept.bytes
     droppedLines := (lines b.totalNewlines b.endsWithNewline : ℤ) - keptLines }, after)

end PiAgent.Harness.Output
