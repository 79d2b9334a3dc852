import PiAgent.Ai.StreamingJson
import PiAgent.Lib.Drain
import PiAgent.Lib.Occurrence
import PiAgent.Lib.TextDecoder

/-!
# Server-sent events

The readers of event streams in `anthropic-messages.ts`, `pi-messages.ts` and
`openai-codex-responses.ts`. Each keeps the decoded text it has not read yet in a buffer, and
reads what looks complete whenever a chunk has come. What `JSON.parse` makes of a text is a
parameter; streams that are aborted are left out.
-/

namespace PiAgent.Ai.Sse

open Utf8 (TextDecoder)

abbrev Bytes := List UInt8

def CR : UInt16 := 13

def LF : UInt16 := 10

def COLON : UInt16 := 58

def SPACE : UInt16 := 32

def units (text : List Char) : JsString := text.flatMap utf16

def trim (s : JsString) : JsString := ((s.dropWhile isWhitespace).reverse.dropWhile isWhitespace).reverse

def chunkTexts (chunks : List Bytes) : List JsString := (TextDecoder.new.decodeChunks chunks).map units

/-- The text of the last `decode()`. -/
def lastText (chunks : List Bytes) : JsString := units (TextDecoder.new.next chunks.flatten).finish

/-- The texts a reader adds to its buffer, read by read. -/
def texts (chunks : List Bytes) : List JsString := chunkTexts chunks ++ [lastText chunks]

/-! ## Anthropic -/

structure ServerSentEvent where
  event : Option JsString
  data : JsString
  raw : List JsString
  deriving DecidableEq

structure SseDecoderState where
  event : Option JsString
  data : List JsString
  raw : List JsString
  deriving DecidableEq

def SseDecoderState.new : SseDecoderState := ⟨none, [], []⟩

def SseDecoderState.Open (state : SseDecoderState) : Prop := ¬ (state.event.getD [] = [] ∧ state.data = [])

instance (state : SseDecoderState) : Decidable state.Open := inferInstanceAs (Decidable (¬ (_ ∧ _)))

def flushSseEvent (state : SseDecoderState) : SseDecoderState × Option ServerSentEvent :=
  if state.Open then (.new, some ⟨state.event, [LF].intercalate state.data, state.raw⟩) else (state, none)

def decodeSseLine (line : JsString) (state : SseDecoderState) : SseDecoderState × Option ServerSentEvent :=
  if line = [] then flushSseEvent state
  else
    let state := { state with raw := state.raw ++ [line] }
    if line.head? = some COLON then (state, none)
    else
      let delimiterIndex := firstIndex [COLON] line
      let fieldName := delimiterIndex.elim line (fun i => line.take i)
      let value := delimiterIndex.elim [] (fun i => line.drop (i + 1))
      let value := if value.head? = some SPACE then value.drop 1 else value
      if fieldName = js "event" then ({ state with event := some value }, none)
      else if fieldName = js "data" then ({ state with data := state.data ++ [value] }, none)
      else (state, none)

def nextLineBreakIndex (text : JsString) : Option ℕ :=
  match firstIndex [CR] text, firstIndex [LF] text with
  | none, newlineIndex => newlineIndex
  | some carriageReturnIndex, none => some carriageReturnIndex
  | some carriageReturnIndex, some newlineIndex => some (min carriageReturnIndex newlineIndex)

/-- A line, and the text after its line end. -/
def consumeLine (text : JsString) : Option (JsString × JsString) :=
  (nextLineBreakIndex text).map fun lineBreakIndex =>
    let nextIndex :=
      if text[lineBreakIndex]? = some CR ∧ text[lineBreakIndex + 1]? = some LF then lineBreakIndex + 2
      else lineBreakIndex + 1
    (text.take lineBreakIndex, text.drop nextIndex)

structure Consumed where
  buffer : JsString
  state : SseDecoderState
  events : List ServerSentEvent

/-- The `while (consumed)` loop. -/
def consumeLines : ℕ → JsString → SseDecoderState → Consumed
  | 0, buffer, state => ⟨buffer, state, []⟩
  | fuel + 1, buffer, state =>
    match consumeLine buffer with
    | none => ⟨buffer, state, []⟩
    | some (line, rest) =>
      let (state, event) := decodeSseLine line state
      let later := consumeLines fuel rest state
      { later with events := event.toList ++ later.events }

/-- The reads of `iterateSseMessages`, and what it does with the rest. Each line takes a unit of the buffer at least,
so there is fuel for all of them. -/
def iterateTexts : JsString → SseDecoderState → List JsString → List ServerSentEvent
  | buffer, state, [] =>
    let (state, event) := if buffer = [] then (state, none) else decodeSseLine buffer state
    event.toList ++ (flushSseEvent state).2.toList
  | buffer, state, text :: texts =>
    let consumed := consumeLines ((buffer ++ text).length + 1) (buffer ++ text) state
    consumed.events ++ iterateTexts consumed.buffer consumed.state texts

def iterateSseMessages (chunks : List Bytes) : List ServerSentEvent := iterateTexts [] .new (texts chunks)

/-! ## Blocks -/

/-- The events that were yielded, and what was thrown. -/
structure Reading (ε : Type) where
  events : List JsonValue
  failure : Option ε

section Blocks

variable {ε : Type} (parse : JsString → Except ε (Option JsonValue))

/-- The block before the first `"\n\n"`, if it can be parsed. -/
def nextBlock (buffer : JsString) : Next UInt16 (Option JsonValue) ε :=
  match firstIndex [LF, LF] buffer with
  | none => .more
  | some split =>
    match parse (buffer.take split) with
    | .error error => .stop error
    | .ok event => .item event (buffer.drop (split + 2))

theorem nextBlock_append (x y : JsString) :
    match nextBlock parse x with
    | .more => True
    | .stop error => nextBlock parse (x ++ y) = .stop error
    | .item event rest => nextBlock parse (x ++ y) = .item event (rest ++ y) := by
  unfold nextBlock
  cases hfirst : firstIndex [LF, LF] x with
  | none => exact trivial
  | some split =>
    have hle := ((firstIndex_eq_some _ _ _).mp hfirst).1.le
    simp only [List.length_cons, List.length_nil] at hle
    rw [firstIndex_append _ _ y _ hfirst]
    dsimp only
    rw [List.take_append_of_le_length (by omega), List.drop_append_of_le_length (by omega)]
    cases parse (x.take split) <;> rfl

/-- The blocks of a buffer, each parsed. -/
def blocks : Reader UInt16 (Option JsonValue) ε where
  next := nextBlock parse
  shrinks := by
    intro x event rest h
    unfold nextBlock at h
    cases hfirst : firstIndex [LF, LF] x with
    | none =>
      rw [hfirst] at h
      cases h
    | some split =>
      have hle := ((firstIndex_eq_some _ _ _).mp hfirst).1.le
      simp only [List.length_cons, List.length_nil] at hle
      rw [hfirst] at h
      dsimp only at h
      split at h
      · cases h
      · obtain ⟨-, rfl⟩ := Next.item.inj h
        rw [List.length_drop]
        omega
  item_append := by
    intro x y event rest h
    have happend := nextBlock_append parse x y
    rw [h] at happend
    exact happend
  stop_append := by
    intro x y error h
    have happend := nextBlock_append parse x y
    rw [h] at happend
    exact happend

def fresh : Drained UInt16 (Option JsonValue) ε := ⟨[], .ok []⟩

/-- The blocks of a buffer come after those that were read. -/
def proceed (read : Drained UInt16 (Option JsonValue) ε) (grow : JsString → JsString) :
    Drained UInt16 (Option JsonValue) ε :=
  match read.rest with
  | .error _ => read
  | .ok buffer => ⟨read.items ++ ((blocks parse).drain (grow buffer)).items, ((blocks parse).drain (grow buffer)).rest⟩

end Blocks

/-! ## pi-messages -/

/-- `buffer.replace(/\r\n/g, "\n")` -/
def replaceCrlf : JsString → JsString
  | [] => []
  | [u] => [u]
  | u :: v :: rest => if u = CR ∧ v = LF then LF :: replaceCrlf rest else u :: replaceCrlf (v :: rest)

def truthy : JsonValue → Bool
  | .prim .null => false
  | .prim (.bool b) => b
  | .prim (.num n) => n ≠ 0
  | .prim (.str s) => s ≠ []
  | _ => true

section Pi

variable {ε : Type} (jsonParse : JsString → Except ε JsonValue)

def parsePiMessagesEvent (raw : JsString) : Except ε (Option JsonValue) :=
  match (raw.splitOn LF).find? (fun line => (js "data:").isPrefixOf line) with
  | none => .ok none
  | some line =>
    let data := trim (line.drop 5)
    if data = [] ∨ data = js "[DONE]" then .ok none else (jsonParse data).map some

/-- What is yielded of a block: an event that counts as true. -/
def piEvent (raw : JsString) : Except ε (Option JsonValue) :=
  (parsePiMessagesEvent jsonParse raw).map (fun event => event.filter truthy)

/-- One read: the whole buffer is searched for CR LF, every time. -/
def piRead (read : Drained UInt16 (Option JsonValue) ε) (text : JsString) : Drained UInt16 (Option JsonValue) ε :=
  proceed (piEvent jsonParse) read (fun buffer => replaceCrlf (buffer ++ text))

def piFinish (read : Drained UInt16 (Option JsonValue) ε) : Reading ε :=
  match read.rest with
  | .error error => ⟨read.items.reduceOption, some error⟩
  | .ok buffer =>
    if trim buffer = [] then ⟨read.items.reduceOption, none⟩
    else
      match piEvent jsonParse buffer with
      | .error error => ⟨read.items.reduceOption, some error⟩
      | .ok event => ⟨read.items.reduceOption ++ event.toList, none⟩

def readPiMessagesEvents (chunks : List Bytes) : Reading ε :=
  piFinish jsonParse ((texts chunks).foldl (piRead jsonParse) fresh)

end Pi

/-! ## Codex -/

structure CodexProtocolError (ε : Type) where
  message : JsString
  cause : ε
  payload : JsString

section Codex

variable {ε : Type} (jsonParse : JsString → Except ε JsonValue) (formatThrownValue : ε → JsString)

def codexEvent (chunk : JsString) : Except (CodexProtocolError ε) (Option JsonValue) :=
  let dataLines :=
    ((chunk.splitOn LF).filter (fun line => (js "data:").isPrefixOf line)).map (fun line => trim (line.drop 5))
  if dataLines = [] then .ok none
  else
    let data := trim ([LF].intercalate dataLines)
    if data = [] ∨ data = js "[DONE]" then .ok none
    else
      match jsonParse data with
      | .ok event => .ok (some event)
      | .error cause => .error ⟨js "Invalid Codex SSE JSON: " ++ formatThrownValue cause, cause, data⟩

def codexRead (read : Drained UInt16 (Option JsonValue) (CodexProtocolError ε)) (text : JsString) :
    Drained UInt16 (Option JsonValue) (CodexProtocolError ε) :=
  proceed (codexEvent jsonParse formatThrownValue) read (fun buffer => buffer ++ text)

/-- The last read: the end of the stream ends the block that is left. -/
def codexLast (read : Drained UInt16 (Option JsonValue) (CodexProtocolError ε)) (text : JsString) :
    Drained UInt16 (Option JsonValue) (CodexProtocolError ε) :=
  proceed (codexEvent jsonParse formatThrownValue) read fun buffer =>
    if trim (buffer ++ text) = [] then buffer ++ text else buffer ++ text ++ [LF, LF]

def parseSSE (chunks : List Bytes) : Reading (CodexProtocolError ε) :=
  let read := codexLast jsonParse formatThrownValue
    ((chunkTexts chunks).foldl (codexRead jsonParse formatThrownValue) fresh) (lastText chunks)
  ⟨read.items.reduceOption, match read.rest with | .error error => some error | .ok _ => none⟩

end Codex

end PiAgent.Ai.Sse
