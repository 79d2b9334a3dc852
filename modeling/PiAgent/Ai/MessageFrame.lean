import PiAgent.Ai.StreamingJson

/-!
# Assistant message frames

`assistant-message-frame.ts`: an encoder turns the events of one assistant stream into
compact frames, and a reducer replays them. All events share one live message, which
may be ahead of the event that is encoded. `none` stands for a thrown error.
-/

namespace PiAgent.Ai

open Assoc

/-! ## Messages and events -/

/-- The kind of a block of text: what the model says, or what it thinks. -/
inductive TextKind where
  | text
  | thinking
deriving DecidableEq

/-- `TextContent` or `ThinkingContent`; only the latter may be `redacted`. -/
structure Prose where
  kind : TextKind
  text : JsString
  signature : Option JsString
  redacted : Option Bool

structure ToolCall where
  id : JsString
  name : JsString
  arguments : JsonValue
  thoughtSignature : Option JsString
  namespace_ : Option JsString

inductive Block where
  | prose (content : Prose)
  | toolCall (call : ToolCall)

inductive StopReason where
  | pending
  | other (reason : JsString)

structure AssistantMessage where
  content : List Block
  api : JsString
  provider : JsString
  model : JsString
  responseModel : Option JsString
  responseId : Option JsString
  providerThinkingLevel : Option JsString
  diagnostics : Option JsonValue
  usage : JsonValue
  stopReason : StopReason
  timestamp : ℚ

/-- The events of a stream. The partial message they all share is given apart. -/
inductive Event where
  | start
  /-- `text_start` or `thinking_start` -/
  | textStart (kind : TextKind) (contentIndex : ℕ)
  | textDelta (kind : TextKind) (contentIndex : ℕ) (delta : JsString)
  | textEnd (kind : TextKind) (contentIndex : ℕ) (content : JsString)
  | toolcallStart (contentIndex : ℕ)
  | toolcallDelta (contentIndex : ℕ) (delta : JsString)
  | toolcallEnd (contentIndex : ℕ) (toolCall : ToolCall)
  | done
  | error

inductive Frame where
  | start (message : AssistantMessage)
  | textStart (contentIndex : ℕ) (content : Prose)
  | textDelta (kind : TextKind) (contentIndex : ℕ) (delta : JsString)
  | textEnd (kind : TextKind) (contentIndex : ℕ) (content : JsString) (signature : Option JsString)
      (redacted : Option Bool)
  | toolcallStart (contentIndex : ℕ) (toolCall : ToolCall)
  | toolcallCheckpoint (contentIndex : ℕ) (json : JsString)
  | toolcallDelta (contentIndex : ℕ) (delta : JsString)
  | toolcallEnd (contentIndex : ℕ) (toolCall : ToolCall)

/-! ## Prefixes of JSON values -/

mutual

def isJsonPrefix : JsonValue → JsonValue → Bool
  | .prim (.str s), .prim (.str t) => s.isPrefixOf t
  | .prim p, .prim q => p == q
  | .arr xs, .arr ys => isJsonPrefixItems xs ys
  | .obj fields, .obj current => isJsonPrefixFields fields current
  | _, _ => false

/-- Items one by one, and no fewer of them. -/
def isJsonPrefixItems : List JsonValue → List JsonValue → Bool
  | [], _ => true
  | _ :: _, [] => false
  | x :: xs, y :: ys => isJsonPrefix x y && isJsonPrefixItems xs ys

def isJsonPrefixFields : List (JsString × JsonValue) → List (JsString × JsonValue) → Bool
  | [], _ => true
  | field :: fields, current => isJsonPrefixField field current && isJsonPrefixFields fields current

def isJsonPrefixField : JsString × JsonValue → List (JsString × JsonValue) → Bool
  | (key, value), current =>
    match get? current key with
    | some other => isJsonPrefix value other
    | none => false

end

/-! ## The encoder -/

inductive EncoderBlockState where
  | text (kind : TextKind) (coveredChars deltaChars : ℕ)
  | toolCall (caughtUp : Bool) (catchupJson snapshotArguments : JsString)

structure Encoder where
  started : Bool
  terminal : Bool
  blocks : List (ℕ × EncoderBlockState)

def Encoder.new : Encoder := { started := false, terminal := false, blocks := [] }

/-- `cloneStartMessage`: the blocks come with frames of their own. -/
def cloneStartMessage (message : AssistantMessage) : AssistantMessage :=
  { message with content := [], stopReason := .pending }

/-- `cloneTextContent` and `cloneThinkingContent` -/
def cloneProse (content : Prose) : Prose :=
  { content with redacted := if content.kind = .thinking then content.redacted else none }

namespace Encoder

variable (P : JsonTexts) (e : Encoder)

def startBlock (contentIndex : ℕ) (state : EncoderBlockState) : Option Encoder :=
  if has e.blocks contentIndex then none else some { e with blocks := set e.blocks contentIndex state }

/-- The state of an open text block of the kind. -/
def textBlock (kind : TextKind) (contentIndex : ℕ) : Option (ℕ × ℕ) :=
  match get? e.blocks contentIndex with
  | some (.text k coveredChars deltaChars) => if k = kind then some (coveredChars, deltaChars) else none
  | _ => none

def toolBlock (contentIndex : ℕ) : Option (Bool × JsString × JsString) :=
  match get? e.blocks contentIndex with
  | some (.toolCall caughtUp catchupJson snapshotArguments) => some (caughtUp, catchupJson, snapshotArguments)
  | _ => none

def setBlock (contentIndex : ℕ) (state : EncoderBlockState) : Encoder :=
  { e with blocks := set e.blocks contentIndex state }

def deleteBlock (contentIndex : ℕ) : Encoder := { e with blocks := del e.blocks contentIndex }

def encodeTextDelta (kind : TextKind) (contentIndex : ℕ) (delta : JsString) : Option (Encoder × Option Frame) :=
  (e.textBlock kind contentIndex).map (fun (coveredChars, deltaChars) =>
    let e := e.setBlock contentIndex (.text kind coveredChars (deltaChars + delta.length))
    let covered := coveredChars - deltaChars
    if delta.length ≤ covered then (e, none) else (e, some (.textDelta kind contentIndex (delta.drop covered))))

def encodeToolcallDelta (contentIndex : ℕ) (delta : JsString) : Option (Encoder × Option Frame) :=
  (e.toolBlock contentIndex).map (fun (caughtUp, catchupJson, snapshotArguments) =>
    if caughtUp then (e, if delta.isEmpty then none else some (.toolcallDelta contentIndex delta))
    else
      let json := catchupJson ++ delta
      let argumentsValue := P.parseStreamingJson json
      -- the parsed arguments reproduce the snapshot, or extend it
      if P.stringify argumentsValue = snapshotArguments ||
          isJsonPrefix (P.parseStreamingJson snapshotArguments) argumentsValue then
        (e.setBlock contentIndex (.toolCall true [] []),
          if json.isEmpty then none else some (.toolcallCheckpoint contentIndex json))
      else (e.setBlock contentIndex (.toolCall false json snapshotArguments), none))

/-- `encode`, with the shared message as it is when the event is consumed. -/
def encode (event : Event) (live : AssistantMessage) : Option (Encoder × Option Frame) :=
  if e.terminal then none
  else
    match event with
    | .start => if e.started then none else some ({ e with started := true }, some (.start (cloneStartMessage live)))
    | .done => if e.started then some ({ e with terminal := true }, none) else none
    | .error => some ({ e with terminal := true }, none)
    | .textStart kind contentIndex =>
      if !e.started then none
      else
        match live.content[contentIndex]? with
        | some (.prose content) =>
          if content.kind = kind then
            (e.startBlock contentIndex (.text kind content.text.length 0)).map
              (fun e => (e, some (.textStart contentIndex (cloneProse content))))
          else none
        | _ => none
    | .textDelta kind contentIndex delta => if e.started then e.encodeTextDelta kind contentIndex delta else none
    | .textEnd kind contentIndex text =>
      if !e.started then none
      else
        match live.content[contentIndex]? with
        | some (.prose content) =>
          if content.kind = kind then
            (e.textBlock kind contentIndex).map (fun _ => (e.deleteBlock contentIndex,
              some (.textEnd kind contentIndex text content.signature (cloneProse content).redacted)))
          else none
        | _ => none
    | .toolcallStart contentIndex =>
      if !e.started then none
      else
        match live.content[contentIndex]? with
        | some (.toolCall call) =>
          let snapshotArguments := P.stringify call.arguments
          let caughtUp := decide (snapshotArguments = P.stringify (P.parseStreamingJson []))
          (e.startBlock contentIndex (.toolCall caughtUp [] (if caughtUp then [] else snapshotArguments))).map
            (fun e => (e, some (.toolcallStart contentIndex call)))
        | _ => none
    | .toolcallDelta contentIndex delta => if e.started then e.encodeToolcallDelta P contentIndex delta else none
    | .toolcallEnd contentIndex toolCall =>
      if !e.started then none
      else
        match live.content[contentIndex]? with
        | some (.toolCall _) =>
          (e.toolBlock contentIndex).map
            (fun _ => (e.deleteBlock contentIndex, some (.toolcallEnd contentIndex toolCall)))
        | _ => none

/-- Events fed in order, each with the shared message as it then is. -/
def encodeAll : Encoder → List (Event × AssistantMessage) → Option (Encoder × List Frame)
  | e, [] => some (e, [])
  | e, (event, live) :: rest =>
    match e.encode P event live with
    | none => none
    | some (e, frame) => (encodeAll e rest).map (fun (e, frames) => (e, frame.toList ++ frames))

end Encoder

/-! ## The reducer -/

inductive ReducerBlockState where
  | text (kind : TextKind) (ended : Bool)
  | toolCall (ended : Bool) (json : JsString)

structure Reducer where
  message : Option AssistantMessage
  frameBeforeStart : Bool
  states : List (ℕ × ReducerBlockState)

def Reducer.new : Reducer := { message := none, frameBeforeStart := false, states := [] }

def AssistantMessage.setBlock (message : AssistantMessage) (contentIndex : ℕ) (block : Block) : AssistantMessage :=
  { message with content := message.content.set contentIndex block }

namespace Reducer

variable (P : JsonTexts) (r : Reducer)

def appendBlock (message : AssistantMessage) (contentIndex : ℕ) (block : Block) (state : ReducerBlockState) :
    Option Reducer :=
  if contentIndex ≠ message.content.length then none
  else some { r with message := some { message with content := message.content ++ [block] }
                     states := set r.states contentIndex state }

/-- `activeBlock` for a text block of the kind. -/
def activeText (message : AssistantMessage) (kind : TextKind) (contentIndex : ℕ) : Option Prose :=
  match get? r.states contentIndex, message.content[contentIndex]? with
  | some (.text k ended), some (.prose content) =>
    if k = kind && content.kind = kind && !ended then some content else none
  | _, _ => none

def activeTool (message : AssistantMessage) (contentIndex : ℕ) : Option (ToolCall × JsString) :=
  match get? r.states contentIndex, message.content[contentIndex]? with
  | some (.toolCall ended json), some (.toolCall call) => if ended then none else some (call, json)
  | _, _ => none

def setBlock (message : AssistantMessage) (contentIndex : ℕ) (block : Block) (state : ReducerBlockState) : Reducer :=
  { r with message := some (message.setBlock contentIndex block), states := set r.states contentIndex state }

def reduceFrame : Frame → Option Reducer
  | .start message =>
    if r.message.isSome || r.frameBeforeStart then none else some { r with message := some message }
  | frame =>
    match r.message with
    | none => some { r with frameBeforeStart := true }
    | some message =>
      match frame with
      | .start _ => none
      | .textStart contentIndex content =>
        r.appendBlock message contentIndex (.prose content) (.text content.kind false)
      | .textDelta kind contentIndex delta =>
        (r.activeText message kind contentIndex).map (fun content =>
          r.setBlock message contentIndex (.prose { content with text := content.text ++ delta }) (.text kind false))
      | .textEnd kind contentIndex text signature redacted =>
        (r.activeText message kind contentIndex).map (fun content =>
          r.setBlock message contentIndex
            (.prose { content with text := text, signature := signature, redacted := redacted }) (.text kind true))
      | .toolcallStart contentIndex toolCall =>
        r.appendBlock message contentIndex (.toolCall toolCall) (.toolCall false [])
      | .toolcallCheckpoint contentIndex json =>
        (r.activeTool message contentIndex).map (fun (call, _) =>
          r.setBlock message contentIndex (.toolCall { call with arguments := P.parseStreamingJson json })
            (.toolCall false json))
      | .toolcallDelta contentIndex delta =>
        (r.activeTool message contentIndex).map (fun (call, json) =>
          r.setBlock message contentIndex (.toolCall call) (.toolCall false (json ++ delta)))
      | .toolcallEnd contentIndex toolCall =>
        (r.activeTool message contentIndex).map (fun (_, json) =>
          r.setBlock message contentIndex (.toolCall toolCall) (.toolCall true json))

def reduceFrom : Reducer → List Frame → Option Reducer
  | r, [] => some r
  | r, frame :: frames => (r.reduceFrame P frame).bind (fun r => reduceFrom r frames)

/-- The arguments of the tool calls that are still open. -/
def openArguments : List (ℕ × ReducerBlockState) → AssistantMessage → Option AssistantMessage
  | [], message => some message
  | (contentIndex, .toolCall false json) :: states, message =>
    if json.isEmpty then openArguments states message
    else
      match message.content[contentIndex]? with
      | some (.toolCall call) =>
        openArguments states
          (message.setBlock contentIndex (.toolCall { call with arguments := P.parseStreamingJson json }))
      | _ => none
  | _ :: states, message => openArguments states message

end Reducer

/-- The message the frames replay, if there is a start frame. -/
def reduceAssistantMessageFrames (P : JsonTexts) (frames : List Frame) : Option (Option AssistantMessage) :=
  (Reducer.new.reduceFrom P frames).bind (fun r =>
    match r.message with
    | none => some none
    | some message => (Reducer.openArguments P r.states message).map some)

end PiAgent.Ai
