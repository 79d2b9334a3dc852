import PiAgent.Lib.TextDecoder
import PiAgent.Tools.TruncateTail

/-!
# Accumulated command output

`output-accumulator.ts`: the output of a command is decoded as it comes, only the end of it is
kept, and all of its bytes go to a temp file once it is long. Where the file is, and that it is
closed after `finish`, is left out.
-/

namespace PiAgent.Tools

open Durable Env Utf8

structure OutputAccumulator where
  maxLines : ℕ
  maxBytes : ℕ
  maxRollingBytes : ℕ
  decoder : TextDecoder
  rawChunks : List (List UInt8)
  tailText : JsString
  tailBytes : ℕ
  tailStartsAtLineBoundary : Bool
  totalRawBytes : ℕ
  totalDecodedBytes : ℕ
  completedLines : ℕ
  totalLines : ℕ
  currentLineBytes : ℕ
  hasOpenLine : Bool
  finished : Bool
  /-- What was written to the temp file. -/
  tempFile : Option (List UInt8)

namespace OutputAccumulator

def new (maxLines maxBytes : ℕ) : OutputAccumulator :=
  { maxLines := maxLines, maxBytes := maxBytes, maxRollingBytes := max (maxBytes * 2) 1, decoder := .new, rawChunks := []
    tailText := [], tailBytes := 0, tailStartsAtLineBoundary := true, totalRawBytes := 0, totalDecodedBytes := 0
    completedLines := 0, totalLines := 0, currentLineBytes := 0, hasOpenLine := false, finished := false
    tempFile := none }

def trimTail (acc : OutputAccumulator) : OutputAccumulator :=
  let buffer := encodeText acc.tailText
  if buffer.length ≤ acc.maxRollingBytes then { acc with tailBytes := buffer.length }
  else
    let start := boundaryAfter buffer (buffer.length - acc.maxRollingBytes)
    let tailText := decodeText (buffer.drop start)
    { acc with
      tailStartsAtLineBoundary :=
        if start = 0 then acc.tailStartsAtLineBoundary else buffer[start - 1]? = some NEWLINE
      tailText := tailText, tailBytes := utf8ByteLength tailText }

/-- `text.slice(lastNewline + 1)` -/
def afterLastNewline (text : JsString) : JsString := (text.reverse.takeWhile (· ≠ newline)).reverse

def appendDecodedText (acc : OutputAccumulator) (text : JsString) : OutputAccumulator :=
  if text.isEmpty then acc
  else
    let bytes := utf8ByteLength text
    let acc := { acc with totalDecodedBytes := acc.totalDecodedBytes + bytes, tailText := acc.tailText ++ text
                          tailBytes := acc.tailBytes + bytes }
    let acc := if acc.tailBytes > acc.maxRollingBytes * 2 then acc.trimTail else acc
    let newlines := text.count newline
    let acc :=
      if newlines = 0 then { acc with currentLineBytes := acc.currentLineBytes + bytes, hasOpenLine := true }
      else
        let tail := afterLastNewline text
        { acc with completedLines := acc.completedLines + newlines, currentLineBytes := utf8ByteLength tail
                   hasOpenLine := !tail.isEmpty }
    { acc with totalLines := acc.completedLines + (if acc.hasOpenLine then 1 else 0) }

def getSnapshotText (acc : OutputAccumulator) : JsString :=
  if acc.tailStartsAtLineBoundary then acc.tailText
  else
    match acc.tailText.idxOf? newline with
    | none => acc.tailText
    | some firstNewline => acc.tailText.drop (firstNewline + 1)

def shouldUseTempFile (acc : OutputAccumulator) : Bool :=
  acc.totalRawBytes > acc.maxBytes || acc.totalDecodedBytes > acc.maxBytes || acc.totalLines > acc.maxLines

def ensureTempFile (acc : OutputAccumulator) : OutputAccumulator :=
  match acc.tempFile with
  | some _ => acc
  | none => { acc with tempFile := some acc.rawChunks.flatten, rawChunks := [] }

/-- What `append` does with the text of a chunk. -/
def received (acc : OutputAccumulator) (data : List UInt8) : OutputAccumulator :=
  { acc with totalRawBytes := acc.totalRawBytes + data.length, decoder := acc.decoder.next data }.appendDecodedText
    (textOf (acc.decoder.decode data))

/-- What `append` does with the bytes of a chunk. -/
def write (acc : OutputAccumulator) (data : List UInt8) : OutputAccumulator :=
  if acc.tempFile.isSome || acc.shouldUseTempFile then
    let acc := acc.ensureTempFile
    { acc with tempFile := acc.tempFile.map (· ++ data) }
  else if data.length > 0 then { acc with rawChunks := acc.rawChunks ++ [data] }
  else acc

/-- `append`; nothing where it throws. -/
def append (acc : OutputAccumulator) (data : List UInt8) : Option OutputAccumulator :=
  if acc.finished then none else some ((acc.received data).write data)

/-- What `finish` does with the text that is left. -/
def flushed (acc : OutputAccumulator) : OutputAccumulator :=
  { acc with finished := true, decoder := .new }.appendDecodedText (textOf acc.decoder.finish)

def finish (acc : OutputAccumulator) : OutputAccumulator :=
  if acc.finished then acc
  else if acc.flushed.shouldUseTempFile then acc.flushed.ensureTempFile
  else acc.flushed

def truncation (acc : OutputAccumulator) : TruncationResult :=
  let tailTruncation := truncateTail acc.getSnapshotText acc.maxLines acc.maxBytes
  let truncated := acc.totalLines > acc.maxLines || acc.totalDecodedBytes > acc.maxBytes
  { tailTruncation with
    truncated := truncated
    truncatedBy :=
      if truncated then
        some (tailTruncation.truncatedBy.getD (if acc.totalDecodedBytes > acc.maxBytes then .bytes else .lines))
      else none
    totalLines := acc.totalLines, totalBytes := acc.totalDecodedBytes, maxLines := acc.maxLines, maxBytes := acc.maxBytes }

/-- `snapshot`, whose content is that of the truncation. -/
def snapshot (acc : OutputAccumulator) (persistIfTruncated : Bool) : TruncationResult × OutputAccumulator :=
  (acc.truncation, if persistIfTruncated && acc.truncation.truncated then acc.ensureTempFile else acc)

/-! ## Runs -/

inductive Op where
  | append (data : List UInt8)
  | finish
  | snapshot (persistIfTruncated : Bool)

/-- An operation; one that throws changes nothing. -/
def step (acc : OutputAccumulator) : Op → OutputAccumulator
  | .append data => (acc.append data).getD acc
  | .finish => acc.finish
  | .snapshot persistIfTruncated => (acc.snapshot persistIfTruncated).2

def run (acc : OutputAccumulator) (ops : List Op) : OutputAccumulator := ops.foldl step acc

/-- The chunks that are appended, until the output is finished. -/
def appended : List Op → List (List UInt8)
  | [] => []
  | .append data :: ops => data :: appended ops
  | .finish :: _ => []
  | .snapshot _ :: ops => appended ops

def isFinish : Op → Bool
  | .finish => true
  | _ => false

def decodedChars (ops : List Op) : List Char :=
  TextDecoder.new.decode (appended ops).flatten ++
    (if ops.any isFinish then (TextDecoder.new.next (appended ops).flatten).finish else [])

def decodedText (ops : List Op) : JsString := textOf (decodedChars ops)

end OutputAccumulator

end PiAgent.Tools
