import PiAgent.Durable.Text
import PiAgent.Lib.Utf8

/-!
# Scanning the lines of a file

`line-scan.ts`, and its port to the daemon, `scan.rs`: a file's bytes come in chunks, and a
range of its lines is located and its decoded size measured in bounded memory.
-/

namespace PiAgent.Env

open Durable Utf8

/-- Streaming decoders: a new one, what one makes of some bytes, and what is left of a text at its end. -/
class Decoding (δ : Type) where
  new : δ
  feed : δ → List UInt8 → δ × List Char
  flush : δ → List Char

/-- What the encoding standard says of a decoder: its text does not depend on how the bytes come. -/
class LawfulDecoding (δ : Type) [Decoding δ] : Prop where
  feed_nil : ∀ d : δ, Decoding.feed d [] = (d, [])
  feed_append : ∀ (d : δ) a b, Decoding.feed d (a ++ b) =
    ((Decoding.feed (Decoding.feed d a).1 b).1, (Decoding.feed d a).2 ++ (Decoding.feed (Decoding.feed d a).1 b).2)
  decode : ∀ bytes, (Decoding.feed (Decoding.new : δ) bytes).2 ++
    Decoding.flush (Decoding.feed (Decoding.new : δ) bytes).1 = Utf8.decode bytes

instance : Decoding Decoder := ⟨.new, feed, flush⟩

instance : LawfulDecoding Decoder := ⟨fun _ => rfl, feed_append, fun _ => rfl⟩

def NEWLINE : UInt8 := 0x0a

/-- The text a decoder gives, in UTF-16. -/
def textOf (chars : List Char) : JsString := chars.flatMap utf16

def decodedBytes (text : JsString) : ℕ := if text = [] then 0 else utf8ByteLength text

def startsWithBom (firstBytes : List UInt8) : Bool :=
  firstBytes[0]? = some 0xef && firstBytes[1]? = some 0xbb && firstBytes[2]? = some 0xbf

/-- What a scan reports; `stop` is the source's `end`. -/
structure LineScan where
  newlines : ℕ
  start : ℕ
  stop : ℕ
  firstLineEnd : ℕ
  lastLineStart : ℕ
  selectedBytes : ℕ
  firstLineBytes : ℕ
  deriving DecidableEq

/-- A scanner; an absent `endLine` is infinity. -/
structure LineScanner (δ : Type) where
  startLine : ℕ
  endLine : Option ℕ
  position : ℕ
  newlines : ℕ
  lineStart : ℕ
  start : Option ℕ
  stop : Option ℕ
  firstLineEnd : Option ℕ
  lastLineStart : Option ℕ
  selectedBytes : ℕ
  firstLineBytes : ℕ
  selection : Option δ
  firstLine : Option δ
  head : Option (List UInt8)
  bom : Bool

/-- The first newline from an index on. -/
def indexOfNewline (chunk : List UInt8) (lo : ℕ) : Option ℕ :=
  ((chunk.drop lo).idxOf? NEWLINE).map (fun i => lo + i)

theorem indexOfNewline_lt (chunk : List UInt8) (lo index : ℕ) (h : indexOfNewline chunk lo = some index) :
    lo ≤ index ∧ index < chunk.length := by
  obtain ⟨i, hi, rfl⟩ := Option.map_eq_some_iff.mp h
  have hlt := (List.idxOf?_eq_some_iff.mp hi).1
  simp only [List.length_drop] at hlt
  omega

namespace LineScanner

variable {δ : Type}

/-- Whether a line is the last selected one. -/
def isLastLine (s : LineScanner δ) (line : ℕ) : Bool := s.endLine = some (line + 1)

variable [Decoding δ]

def begin (s : LineScanner δ) (start : ℕ) : LineScanner δ :=
  { s with
    start := some start
    lastLineStart := if s.isLastLine s.startLine then some start else s.lastLineStart
    selection := some Decoding.new
    firstLine := some Decoding.new }

section Measured

-- how many bytes some decoded text takes
variable (len : List Char → ℕ)

def endFirstLine (s : LineScanner δ) (position : ℕ) : LineScanner δ :=
  { s with
    firstLineEnd := some position
    firstLineBytes := s.firstLineBytes + s.firstLine.elim 0 (fun d => len (Decoding.flush d))
    firstLine := none }

def endSelection (s : LineScanner δ) (position : ℕ) : LineScanner δ :=
  { s with
    stop := some position
    selectedBytes := s.selectedBytes + s.selection.elim 0 (fun d => len (Decoding.flush d))
    selection := none }

/-- The decoders of the ranges that are open take some bytes. -/
def decode (s : LineScanner δ) (bytes : List UInt8) : LineScanner δ :=
  { s with
    selection := s.selection.map (fun d => (Decoding.feed d bytes).1)
    selectedBytes := s.selectedBytes + s.selection.elim 0 (fun d => len (Decoding.feed d bytes).2)
    firstLine := s.firstLine.map (fun d => (Decoding.feed d bytes).1)
    firstLineBytes := s.firstLineBytes + s.firstLine.elim 0 (fun d => len (Decoding.feed d bytes).2) }

/-- `#feed` -/
def feed (s : LineScanner δ) (chunk : List UInt8) (base lo hi : ℕ) : LineScanner δ :=
  let lo := if s.bom && base + lo < 3 then min hi (3 - base) else lo
  if hi ≤ lo then s else s.decode len ((chunk.take hi).drop lo)

/-- The body of the loop of `#process`, for the newline at an index. -/
def passNewline (s : LineScanner δ) (chunk : List UInt8) (base lo index : ℕ) : LineScanner δ :=
  let s := s.feed len chunk base lo index
  let line := s.newlines
  let position := base + index
  let s := if line = s.startLine then s.endFirstLine len position else s
  let s := if s.isLastLine line then s.endSelection len position else s
  let s := s.feed len chunk base index (index + 1)
  let s := { s with newlines := s.newlines + 1, lineStart := position + 1 }
  let s := if s.newlines = s.startLine then s.begin s.lineStart else s
  if s.isLastLine s.newlines then { s with lastLineStart := some s.lineStart } else s

/-- The loop of `#process`. -/
def processFrom (s : LineScanner δ) (chunk : List UInt8) (base lo : ℕ) : LineScanner δ :=
  match h : indexOfNewline chunk lo with
  | none => s.feed len chunk base lo chunk.length
  | some index => processFrom (s.passNewline len chunk base lo index) chunk base (index + 1)
termination_by chunk.length - lo
decreasing_by
  have := indexOfNewline_lt chunk lo index h
  omega

/-- `#process` -/
def process (s : LineScanner δ) (chunk : List UInt8) : LineScanner δ :=
  let s' := s.processFrom len chunk s.position 0
  { s' with position := s'.position + chunk.length }

/-- `#releaseHead` -/
def releaseHead (s : LineScanner δ) : LineScanner δ :=
  let head := s.head.getD []
  { s with head := none, bom := startsWithBom head }.process len head

def push (s : LineScanner δ) (chunk : List UInt8) : LineScanner δ :=
  match s.head with
  | none => s.process len chunk
  | some head =>
    let take := min (3 - head.length) chunk.length
    let head := head ++ chunk.take take
    if head.length < 3 then { s with head := some head }
    else { s with head := some head }.releaseHead len |>.process len (chunk.drop take)

/-- What `finish` reports once nothing is held back. -/
def report (s : LineScanner δ) : LineScan :=
  let size := s.position
  match s.start with
  | none => ⟨s.newlines, size, size, size, size, 0, 0⟩
  | some start =>
    let s := if s.firstLineEnd.isNone then s.endFirstLine len size else s
    let s := if s.stop.isNone then s.endSelection len size else s
    ⟨s.newlines, start, s.stop.getD size, s.firstLineEnd.getD size, s.lastLineStart.getD s.lineStart,
      s.selectedBytes, s.firstLineBytes⟩

def finish (s : LineScanner δ) : LineScan := if s.head.isSome then (s.releaseHead len).report len else s.report len

end Measured

def initial (startLine : ℕ) (endLine : Option ℕ) : LineScanner δ where
  startLine := startLine
  endLine := endLine
  position := 0
  newlines := 0
  lineStart := 0
  start := none
  stop := none
  firstLineEnd := none
  lastLineStart := none
  selectedBytes := 0
  firstLineBytes := 0
  selection := none
  firstLine := none
  head := some []
  bom := false

def started (startLine : ℕ) (endLine : Option ℕ) : LineScanner δ :=
  if startLine = 0 then (initial startLine endLine).begin 0 else initial startLine endLine

/-- The constructor; a range that is empty is refused. -/
def new (startLine : ℕ) (endLine : Option ℕ) : Except String (LineScanner δ) :=
  if endLine.any (fun endLine => endLine ≤ startLine) then .error "Invalid line range"
  else .ok (started startLine endLine)

end LineScanner

/-- The scanner of `line-scan.ts`, over chunks. -/
def scan (startLine : ℕ) (endLine : Option ℕ) (chunks : List (List UInt8)) : Except String LineScan :=
  let length := fun chars => decodedBytes (textOf chars)
  (LineScanner.new startLine endLine).map
    (fun s : LineScanner Decoder => (chunks.foldl (LineScanner.push length) s).finish length)

namespace Daemon

/-- The scanner of `scan.rs`, over chunks: its texts are UTF-8, and its range is not checked. The decoder is a crate's. -/
def scan (δ : Type) [Decoding δ] (startLine : ℕ) (endLine : Option ℕ) (chunks : List (List UInt8)) : LineScan :=
  (chunks.foldl (LineScanner.push Utf8.size) (LineScanner.started startLine endLine : LineScanner δ)).finish Utf8.size

end Daemon

/-! ## Sizes of decoded text -/

theorem utf8Size_cases (c : Char) :
    c.utf8Size = if c.toNat ≤ 0x7F then 1 else if c.toNat ≤ 0x7FF then 2 else if c.toNat ≤ 0xFFFF then 3 else 4 := by
  simp only [Char.utf8Size, UInt32.le_iff_toNat_le]
  rfl

theorem utf8ByteLength_char (c : Char) (rest : JsString) :
    utf8ByteLength (utf16 c ++ rest) = c.utf8Size + utf8ByteLength rest := by
  have hvalid : c.toNat < 0xD800 ∨ 0xDFFF < c.toNat ∧ c.toNat < 0x110000 := c.valid
  unfold utf16
  by_cases hsmall : c.toNat < 0x10000
  · rw [if_pos hsmall, List.singleton_append]
    have hunit : c.toNat.toUInt16.toNat = c.toNat := by simp; omega
    have hhigh : isHigh c.toNat.toUInt16 = false := by
      rw [← Bool.not_eq_true, isHigh_iff, hunit]
      omega
    rw [utf8ByteLength_cons _ _ hhigh, utf8Size_cases, unitBytes_eq, hunit]
    split_ifs <;> omega
  · rw [if_neg hsmall]
    have hhigh : isHigh (0xD800 + (c.toNat - 0x10000) / 0x400).toUInt16 = true := by
      rw [isHigh_iff]
      simp
      omega
    have hlow : isLow (0xDC00 + (c.toNat - 0x10000) % 0x400).toUInt16 = true := by
      rw [isLow_iff]
      simp
      omega
    rw [List.cons_append, List.singleton_append, utf8ByteLength, hhigh, hlow, Bool.and_self, if_pos rfl, utf8Size_cases]
    split_ifs <;> omega

theorem utf8ByteLength_textOf (chars : List Char) : utf8ByteLength (textOf chars) = Utf8.size chars := by
  induction chars with
  | nil => rfl
  | cons c chars ih =>
    unfold textOf at ih ⊢
    rw [List.flatMap_cons, utf8ByteLength_char, ih]
    simp [Utf8.size]

theorem decodedBytes_textOf (chars : List Char) : decodedBytes (textOf chars) = Utf8.size chars := by
  rw [← utf8ByteLength_textOf]
  unfold decodedBytes
  split
  · rename_i hempty
    rw [hempty]
    rfl
  · rfl

end PiAgent.Env
