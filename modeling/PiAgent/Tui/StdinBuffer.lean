import PiAgent.Durable.Text
import PiAgent.Lib.Occurrence

/-!
# Splitting terminal input

`StdinBuffer` of `stdin-buffer.ts`, fed with strings while no timeout fires.
-/

namespace PiAgent.Tui

open Durable

def ESC : UInt16 := 0x1b

def BEL : UInt16 := 0x07

def CAN : UInt16 := 0x18

def SUB : UInt16 := 0x1a

/-- `\` -/
def BACKSLASH : UInt16 := 92

/-- `ESC [200~` -/
def BRACKETED_PASTE_START : JsString := [ESC, 91, 50, 48, 48, 126]

/-- `ESC [201~` -/
def BRACKETED_PASTE_END : JsString := [ESC, 91, 50, 48, 49, 126]

namespace Stdin

def isLower (c : UInt16) : Bool := 97 ≤ c && c ≤ 122

/-- `(?:[a-z]=\d+,)*[a-z]=\d+;`; inside of the digits of a pair or at the beginning of one. -/
def graphicsPairs : Bool → JsString → Bool
  | true, [] => false
  | true, c :: rest =>
    if isDigit c then graphicsPairs true rest
    else if c = 59 then true
    else if c = 44 then graphicsPairs false rest
    else false
  | false, letter :: 61 :: digit :: rest => isLower letter && isDigit digit && graphicsPairs true rest
  | false, _ => false

/-- `\d{1,3};` -/
def colorIndex (text : JsString) : Bool :=
  let digits := text.takeWhile isDigit
  1 ≤ digits.length && digits.length ≤ 3 && (text.drop digits.length).head? == some 59

/-- `TERMINAL_REPLY_HEADER_PATTERN` -/
def isReplyHeader : JsString → Bool
  | 0x1b :: 93 :: rest =>
    [49, 48, 59].isPrefixOf rest || [49, 49, 59].isPrefixOf rest || (rest.head? == some 52 && rest.tail.head? == some 59 &&
      colorIndex (rest.drop 2)) || [55, 53, 48, 49, 59, 63].isPrefixOf rest
  | 0x1b :: 80 :: rest => [62, 124].isPrefixOf rest
  | 0x1b :: 95 :: 71 :: rest => graphicsPairs false rest
  | _ => false

def isControlString (data : JsString) : Bool :=
  [ESC, 93].isPrefixOf data || [ESC, 80].isPrefixOf data || [ESC, 95].isPrefixOf data

/-! ## Complete sequences -/

inductive SequenceStatus where
  | complete
  | incomplete
  | notEscape
  deriving DecidableEq

def endsWithST (data : JsString) : Bool := [ESC, BACKSLASH].isSuffixOf data

/-- `<digits;digits;digits` and `M` or `m`; the source tests this twice. -/
def isSgrMouse (payload : JsString) : Bool :=
  (payload.getLast? == some 77 || payload.getLast? == some 109) &&
    (let parts := (payload.tail.dropLast).splitOn 59
     parts.length = 3 && parts.all (fun part => !part.isEmpty && part.all isDigit))

def isCompleteCsiSequence (data : JsString) : SequenceStatus :=
  if data.length < 3 then .incomplete
  else
    let payload := data.drop 2
    match payload.getLast? with
    | none => .incomplete
    | some lastChar =>
      if 0x40 ≤ lastChar && lastChar ≤ 0x7e then
        if payload.head? = some 60 then (if isSgrMouse payload then .complete else .incomplete) else .complete
      else .incomplete

def isCompleteOscSequence (data : JsString) : SequenceStatus :=
  if endsWithST data || data.getLast? = some BEL then .complete else .incomplete

/-- `isCompleteDcsSequence` and `isCompleteApcSequence` -/
def isCompleteString (data : JsString) : SequenceStatus := if endsWithST data then .complete else .incomplete

def isCompleteSequence : JsString → SequenceStatus
  | [] => .notEscape
  | c :: afterEsc =>
    if c ≠ ESC then .notEscape
    else
      match afterEsc with
      | [] => .incomplete
      | 91 :: rest =>
        if rest.head? = some 77 then (if rest.length ≥ 4 then .complete else .incomplete)
        else isCompleteCsiSequence (c :: afterEsc)
      | 93 :: _ => isCompleteOscSequence (c :: afterEsc)
      | 80 :: _ => isCompleteString (c :: afterEsc)
      | 95 :: _ => isCompleteString (c :: afterEsc)
      | 79 :: rest => if rest.length ≥ 1 then .complete else .incomplete
      | _ => .complete

/-! ## The next sequence -/

/-- What an escape at the front turns out to be: not yet complete, cancelled, a sequence, or the first of two escapes. -/
inductive Scanned where
  | incomplete
  | cancelled (length : ℕ)
  | sequence (length : ℕ)
  | escape
  deriving DecidableEq

/-- What begins a new escape sequence after an escape: `[`, `]`, `O`, `P`, `_`. -/
def opensSequence (c : UInt16) : Bool := c = 91 || c = 93 || c = 79 || c = 80 || c = 95

/-- The loop over `seqEnd`. -/
def scan (remaining : JsString) (terminalReply : Bool) : ℕ → ℕ → Scanned
  | 0, _ => .incomplete
  | fuel + 1, seqEnd =>
    if terminalReply && seqEnd > 2 && (remaining[seqEnd - 1]? = some CAN || remaining[seqEnd - 1]? = some SUB) then
      .cancelled seqEnd
    else if terminalReply && seqEnd > 2 && remaining[seqEnd - 1]? = some ESC && seqEnd < remaining.length &&
        remaining[seqEnd]? ≠ some BACKSLASH then
      .cancelled (seqEnd - 1)
    else
      match isCompleteSequence (remaining.take seqEnd) with
      | .complete =>
        if remaining.take seqEnd = [ESC, ESC] ∧ remaining[seqEnd]?.any opensSequence = true then .escape else .sequence seqEnd
      | .incomplete => scan remaining terminalReply fuel (seqEnd + 1)
      | .notEscape => .sequence seqEnd

def scanEscape (remaining : JsString) : Scanned :=
  scan remaining (isControlString remaining && isReplyHeader remaining) remaining.length 1

/-- The loop over the buffer: the sequences and the remainder. -/
def extractFrom : ℕ → JsString → List JsString × JsString
  | 0, remaining => ([], remaining)
  | _ + 1, [] => ([], [])
  | fuel + 1, c :: rest =>
    if c = ESC then
      match scanEscape (c :: rest) with
      | .incomplete => ([], c :: rest)
      | .cancelled length => extractFrom fuel ((c :: rest).drop length)
      | .sequence length =>
        let after := extractFrom fuel ((c :: rest).drop length)
        ((c :: rest).take length :: after.1, after.2)
      | .escape =>
        let after := extractFrom fuel rest
        ([ESC] :: after.1, after.2)
    else
      let after := extractFrom fuel rest
      ([c] :: after.1, after.2)

def extractCompleteSequences (buffer : JsString) : List JsString × JsString := extractFrom buffer.length buffer

/-! ## Events -/

inductive StdinEvent where
  | data (sequence : JsString)
  | paste (content : JsString)
  deriving DecidableEq

def digitsValue (digits : JsString) : ℕ := digits.foldl (fun n c => 10 * n + (c.toNat - 48)) 0

/-- `(?::\d*)?(?::\d+)?u` -/
def isKittySuffix : JsString → Bool
  | [117] => true
  | 58 :: rest =>
    let after := rest.dropWhile isDigit
    after == [117] ||
      (after.head? == some 58 && !(after.tail.takeWhile isDigit).isEmpty && after.tail.dropWhile isDigit == [117])
  | _ => false

def parseUnmodifiedKittyPrintableCodepoint : JsString → Option ℕ
  | 0x1b :: 91 :: rest =>
    let digits := rest.takeWhile isDigit
    if !digits.isEmpty && isKittySuffix (rest.dropWhile isDigit) && digitsValue digits ≥ 32 then some (digitsValue digits)
    else none
  | _ => none

/-- A single character that repeats the Kitty key event before it is dropped. -/
def emitDataSequence (pending : Option ℕ) (sequence : JsString) : List StdinEvent × Option ℕ :=
  match sequence, pending with
  | [c], some codepoint =>
    if c.toNat = codepoint then ([], none)
    else ([.data sequence], parseUnmodifiedKittyPrintableCodepoint sequence)
  | _, _ => ([.data sequence], parseUnmodifiedKittyPrintableCodepoint sequence)

def emitSequences : Option ℕ → List JsString → List StdinEvent × Option ℕ
  | pending, [] => ([], pending)
  | pending, sequence :: rest =>
    let first := emitDataSequence pending sequence
    let after := emitSequences first.2 rest
    (first.1 ++ after.1, after.2)

end Stdin

open Stdin

/-! ## The buffer -/

structure StdinBuffer where
  buffer : JsString
  pasteMode : Bool
  pasteBuffer : JsString
  pendingKittyPrintableCodepoint : Option ℕ
  deriving DecidableEq

namespace StdinBuffer

def init : StdinBuffer := ⟨[], false, [], none⟩

/-- Text in paste mode or not, with the pending key; the fuel bounds the calls for what comes after a paste. -/
def processText : ℕ → Bool → Option ℕ → JsString → List StdinEvent × StdinBuffer
  | 0, true, pending, text => ([], ⟨[], true, text, pending⟩)
  | 0, false, pending, text => ([], ⟨text, false, [], pending⟩)
  | fuel + 1, true, pending, text =>
    match firstIndex BRACKETED_PASTE_END text with
    | none => ([], ⟨[], true, text, pending⟩)
    | some endIndex =>
      let remaining := text.drop (endIndex + BRACKETED_PASTE_END.length)
      let after := if remaining.length > 0 then processText fuel false none remaining else ([], init)
      (.paste (text.take endIndex) :: after.1, after.2)
  | fuel + 1, false, pending, text =>
    match firstIndex BRACKETED_PASTE_START text with
    | some startIndex =>
      let emitted := emitSequences pending (extractCompleteSequences (text.take startIndex)).1
      let after := processText fuel true none (text.drop (startIndex + BRACKETED_PASTE_START.length))
      (emitted.1 ++ after.1, after.2)
    | none =>
      let result := extractCompleteSequences text
      let emitted := emitSequences pending result.1
      (emitted.1, ⟨result.2, false, [], emitted.2⟩)

/-- The text a chunk is processed with. -/
def textWith (st : StdinBuffer) (chunk : JsString) : JsString :=
  if st.pasteMode then st.pasteBuffer ++ (st.buffer ++ chunk) else st.buffer ++ chunk

def process (st : StdinBuffer) (chunk : JsString) : List StdinEvent × StdinBuffer :=
  if chunk.isEmpty && st.buffer.isEmpty then
    let emitted := emitDataSequence st.pendingKittyPrintableCodepoint []
    (emitted.1, { st with pendingKittyPrintableCodepoint := emitted.2 })
  else
    processText ((st.textWith chunk).length + 1) st.pasteMode st.pendingKittyPrintableCodepoint (st.textWith chunk)

def run : StdinBuffer → List JsString → List StdinEvent × StdinBuffer
  | st, [] => ([], st)
  | st, chunk :: rest =>
    let first := st.process chunk
    let after := run first.2 rest
    (first.1 ++ after.1, after.2)

end StdinBuffer

end PiAgent.Tui
