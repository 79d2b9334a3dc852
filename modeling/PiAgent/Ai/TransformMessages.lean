import PiAgent.Ai.StreamingJson

/-!
# Transcripts for a provider

`transformMessages` of `transform-messages.ts`. A first pass rewrites the content of
assistant messages for the target model, with the IDs of their tool calls, and the IDs of
tool results after them; a second pass drops failed turns, and gives a result to every
call that has none.
-/

namespace PiAgent.Ai.Transform

/-! ## Messages -/

inductive ContentBlock where
  | text (text : JsString) (rest : JsonValue)
  | image (rest : JsonValue)

inductive Content where
  | text (text : JsString)
  | blocks (blocks : List ContentBlock)

structure ToolCall where
  id : JsString
  name : JsString
  arguments : JsonValue
  thoughtSignature : Option JsString
  rest : JsonValue

inductive Block where
  | text (text : JsString) (rest : JsonValue)
  | thinking (thinking : JsString) (thinkingSignature : Option JsString) (redacted : Bool) (rest : JsonValue)
  | toolCall (call : ToolCall)

inductive StopReason where
  | pending | stop | length | toolUse | error | aborted | deferred
  deriving DecidableEq

/-- Content may be missing in hand-built histories and old session files. -/
structure SystemMessage where
  content : Option Content
  rest : JsonValue

structure UserMessage where
  content : Option Content
  rest : JsonValue

structure AssistantMessage where
  content : Option (List Block)
  api : JsString
  provider : JsString
  model : JsString
  stopReason : StopReason
  rest : JsonValue

structure ToolResultMessage where
  toolCallId : JsString
  toolName : JsString
  content : Option (List ContentBlock)
  isError : Bool
  timestamp : ℤ
  rest : JsonValue

inductive Message where
  | system (message : SystemMessage)
  | user (message : UserMessage)
  | assistant (message : AssistantMessage)
  | toolResult (message : ToolResultMessage)

def Message.system? : Message → Option SystemMessage
  | .system message => some message
  | _ => none

def Message.assistant? : Message → Option AssistantMessage
  | .assistant message => some message
  | _ => none

def Message.toolResult? : Message → Option ToolResultMessage
  | .toolResult message => some message
  | _ => none

def Block.call? : Block → Option ToolCall
  | .toolCall call => some call
  | _ => none

def callsOf (content : List Block) : List ToolCall := content.filterMap Block.call?

def AssistantMessage.toolCalls (message : AssistantMessage) : List ToolCall := callsOf (message.content.getD [])

def AssistantMessage.failed (message : AssistantMessage) : Bool :=
  message.stopReason = .error || message.stopReason = .aborted

/-- The model the messages are sent to. -/
structure Model where
  api : JsString
  provider : JsString
  id : JsString
  acceptsImages : Bool

/-! ## Content -/

/-- `msg.content == null ? { ...msg, content: [] } : msg` -/
def normalizeContent : Message → Message
  | .system message => .system { message with content := some (message.content.getD (.blocks [])) }
  | .user message => .user { message with content := some (message.content.getD (.blocks [])) }
  | .assistant message => .assistant { message with content := some (message.content.getD []) }
  | .toolResult message => .toolResult { message with content := some (message.content.getD []) }

def nonVisionUserImagePlaceholder : JsString := js "(image omitted: model does not support images)"

def nonVisionToolImagePlaceholder : JsString := js "(tool image omitted: model does not support images)"

def replaceImagesFrom (placeholder : JsString) : Bool → List ContentBlock → List ContentBlock
  | _, [] => []
  | previousWasPlaceholder, .image _ :: rest =>
    (if previousWasPlaceholder then [] else [.text placeholder (.obj [])]) ++ replaceImagesFrom placeholder true rest
  | _, .text text other :: rest => .text text other :: replaceImagesFrom placeholder (text = placeholder) rest

def replaceImagesWithPlaceholder (content : List ContentBlock) (placeholder : JsString) : List ContentBlock :=
  replaceImagesFrom placeholder false content

def downgradeMessage : Message → Message
  | .user { content := some (.blocks blocks), rest } =>
    .user { content := some (.blocks (replaceImagesWithPlaceholder blocks nonVisionUserImagePlaceholder)), rest }
  | .toolResult message =>
    .toolResult { message with
      content := message.content.map (fun blocks => replaceImagesWithPlaceholder blocks nonVisionToolImagePlaceholder) }
  | message => message

def downgradeUnsupportedImages (target : Model) (messages : List Message) : List Message :=
  if target.acceptsImages then messages else messages.map downgradeMessage

/-! ## The first pass -/

/-- The IDs of tool calls that were rewritten, under the IDs they had. -/
abbrev IdMap := List (JsString × JsString)

section FirstPass

variable (target : Model) (normalizeToolCallId : Option (JsString → AssistantMessage → JsString))

def isSameModel (message : AssistantMessage) : Bool :=
  message.provider = target.provider && message.api = target.api && message.model = target.id

/-- `if (value)` of an optional string -/
def truthy (value : Option JsString) : Bool := value.any (fun text => !text.isEmpty)

/-- The ID a tool call of a message is sent with. -/
def outputId (source : AssistantMessage) (id : JsString) : JsString :=
  if isSameModel target source then id
  else
    match normalizeToolCallId with
    | some normalize => normalize id source
    | none => id

def transformToolCall (source : AssistantMessage) (call : ToolCall) : ToolCall :=
  { call with
    thoughtSignature :=
      if !isSameModel target source && truthy call.thoughtSignature then none else call.thoughtSignature
    id := outputId target normalizeToolCallId source call.id }

def transformBlock (source : AssistantMessage) : Block → List Block
  | .thinking thinking thinkingSignature redacted rest =>
    -- opaque reasoning is for the model it came from only
    if redacted then (if isSameModel target source then [.thinking thinking thinkingSignature redacted rest] else [])
    else if isSameModel target source && truthy thinkingSignature then
      [.thinking thinking thinkingSignature redacted rest]
    else if thinking.all isWhitespace then []
    else if isSameModel target source then [.thinking thinking thinkingSignature redacted rest]
    else [.text thinking (.obj [])]
  | .text text rest => if isSameModel target source then [.text text rest] else [.text text (.obj [])]
  | .toolCall call => [.toolCall (transformToolCall target normalizeToolCallId source call)]

def transformAssistant (source : AssistantMessage) : AssistantMessage :=
  { source with content := some ((source.content.getD []).flatMap (transformBlock target normalizeToolCallId source)) }

/-- `toolCallIdMap.set(…)` for each call that is renamed. -/
def addRenamings (toolCallIdMap : IdMap) (source : AssistantMessage) : IdMap :=
  source.toolCalls.foldl (fun map call =>
    let normalizedId := outputId target normalizeToolCallId source call.id
    if normalizedId = call.id then map else Assoc.set map call.id normalizedId) toolCallIdMap

/-- The ID the map gives a tool result. An empty one counts as none. -/
def mappedId (toolCallIdMap : IdMap) (id : JsString) : JsString :=
  match Assoc.get? toolCallIdMap id with
  | some normalizedId => if normalizedId.isEmpty then id else normalizedId
  | none => id

def firstPass : IdMap → List Message → List Message
  | _, [] => []
  | map, .assistant source :: rest =>
    .assistant (transformAssistant target normalizeToolCallId source) ::
      firstPass (addRenamings target normalizeToolCallId map source) rest
  | map, .toolResult message :: rest =>
    .toolResult { message with toolCallId := mappedId map message.toolCallId } :: firstPass map rest
  | map, .system message :: rest => .system message :: firstPass map rest
  | map, .user message :: rest => .user message :: firstPass map rest

end FirstPass

/-! ## The second pass -/

structure Pass where
  result : List Message
  pendingToolCalls : List ToolCall
  existingToolResultIds : List JsString
  heldSystemMessages : List SystemMessage

section SecondPass

-- `Date.now()` when the n-th message of the result is added
variable (clock : ℕ → ℤ)

def noResult (call : ToolCall) (timestamp : ℤ) : ToolResultMessage :=
  { toolCallId := call.id, toolName := call.name, content := some [.text (js "No result provided") (.obj [])]
    isError := true, timestamp := timestamp, rest := .obj [] }

def addMissing (existing : List JsString) (calls : List ToolCall) (result : List Message) : List Message :=
  calls.foldl (fun result call =>
    if call.id ∈ existing then result else result ++ [.toolResult (noResult call (clock result.length))]) result

def closePendingToolCalls (pass : Pass) : Pass :=
  let closed :=
    if pass.pendingToolCalls.isEmpty then pass
    else
      { pass with
        result := addMissing clock pass.existingToolResultIds pass.pendingToolCalls pass.result
        pendingToolCalls := [], existingToolResultIds := [] }
  { closed with result := closed.result ++ closed.heldSystemMessages.map .system, heldSystemMessages := [] }

def passMessage (pass : Pass) : Message → Pass
  | .assistant message =>
    let pass := closePendingToolCalls clock pass
    if message.failed then pass
    else
      let pass :=
        if message.toolCalls.isEmpty then pass
        else { pass with pendingToolCalls := message.toolCalls, existingToolResultIds := [] }
      { pass with result := pass.result ++ [.assistant message] }
  | .toolResult message =>
    { pass with
      existingToolResultIds := message.toolCallId :: pass.existingToolResultIds
      result := pass.result ++ [.toolResult message] }
  | .system message =>
    if pass.pendingToolCalls.isEmpty then { pass with result := pass.result ++ [.system message] }
    else { pass with heldSystemMessages := pass.heldSystemMessages ++ [message] }
  | .user message =>
    let pass := closePendingToolCalls clock pass
    { pass with result := pass.result ++ [.user message] }

def secondPass (transformed : List Message) : List Message :=
  (closePendingToolCalls clock (transformed.foldl (passMessage clock) ⟨[], [], [], []⟩)).result

end SecondPass

section

variable (target : Model) (normalizeToolCallId : Option (JsString → AssistantMessage → JsString)) (clock : ℕ → ℤ)

def firstPassOf (messages : List Message) : List Message :=
  firstPass target normalizeToolCallId [] (downgradeUnsupportedImages target (messages.map normalizeContent))

def transformMessages (messages : List Message) : List Message :=
  secondPass clock (firstPassOf target normalizeToolCallId messages)

end

/-! ## What providers ask for, and what the transcript gives -/

/-- Every assistant message is directly followed by one result for each of its calls and no others, and no result
stands elsewhere. -/
inductive WellPaired : List Message → Prop
  | nil : WellPaired []
  | system (message : SystemMessage) {rest : List Message} (h : WellPaired rest) : WellPaired (.system message :: rest)
  | user (message : UserMessage) {rest : List Message} (h : WellPaired rest) : WellPaired (.user message :: rest)
  | assistant (message : AssistantMessage) (results : List ToolResultMessage) {rest : List Message}
      (answered : ∀ call ∈ message.toolCalls, (results.map ToolResultMessage.toolCallId).count call.id = 1)
      (called : ∀ result ∈ results, result.toolCallId ∈ message.toolCalls.map ToolCall.id)
      (h : WellPaired rest) : WellPaired (.assistant message :: (results.map .toolResult ++ rest))

def AssistantMessage.callIds (message : AssistantMessage) : List JsString := message.toolCalls.map ToolCall.id

/-- The IDs of the calls that await results after a message. -/
def awaited (message : AssistantMessage) : List JsString := if message.failed then [] else message.callIds

/-- Each result answers a call of the nearest assistant message before it, with no user message between them; no
call has two results, and a failed message has none. `calls` and `answered` are those of the open turn. -/
def Paired : List JsString → List JsString → List Message → Prop
  | _, _, [] => True
  | calls, answered, .system _ :: rest => Paired calls answered rest
  | _, _, .user _ :: rest => Paired [] [] rest
  | _, _, .assistant message :: rest => Paired (awaited message) [] rest
  | calls, answered, .toolResult message :: rest =>
    message.toolCallId ∈ calls ∧ message.toolCallId ∉ answered ∧ Paired calls (message.toolCallId :: answered) rest

/-- The calls of a turn that get no result have different IDs. -/
def Distinct : List JsString → List JsString → List Message → Prop
  | calls, answered, [] => (calls.filter (fun id => id ∉ answered)).Nodup
  | calls, answered, .system _ :: rest => Distinct calls answered rest
  | calls, answered, .user _ :: rest => (calls.filter (fun id => id ∉ answered)).Nodup ∧ Distinct [] [] rest
  | calls, answered, .assistant message :: rest =>
    (calls.filter (fun id => id ∉ answered)).Nodup ∧ Distinct (awaited message) [] rest
  | calls, answered, .toolResult message :: rest => Distinct calls (message.toolCallId :: answered) rest

instance decidablePaired : ∀ calls answered messages, Decidable (Paired calls answered messages)
  | _, _, [] => .isTrue trivial
  | calls, answered, .system _ :: rest => decidablePaired calls answered rest
  | _, _, .user _ :: rest => decidablePaired [] [] rest
  | _, _, .assistant message :: rest => decidablePaired (awaited message) [] rest
  | calls, answered, .toolResult message :: rest =>
    have := decidablePaired calls (message.toolCallId :: answered) rest
    inferInstanceAs (Decidable (_ ∧ _ ∧ Paired calls (message.toolCallId :: answered) rest))

instance decidableDistinct : ∀ calls answered messages, Decidable (Distinct calls answered messages)
  | calls, answered, [] => inferInstanceAs (Decidable (calls.filter (fun id => id ∉ answered)).Nodup)
  | calls, answered, .system _ :: rest => decidableDistinct calls answered rest
  | calls, answered, .user _ :: rest =>
    have := decidableDistinct [] [] rest
    inferInstanceAs (Decidable ((calls.filter (fun id => id ∉ answered)).Nodup ∧ Distinct [] [] rest))
  | calls, answered, .assistant message :: rest =>
    have := decidableDistinct (awaited message) [] rest
    inferInstanceAs (Decidable ((calls.filter (fun id => id ∉ answered)).Nodup ∧ Distinct (awaited message) [] rest))
  | calls, answered, .toolResult message :: rest => decidableDistinct calls (message.toolCallId :: answered) rest

section Condition

variable (target : Model) (normalizeToolCallId : Option (JsString → AssistantMessage → JsString))

/-- No two calls of a message are sent with one ID. -/
def Injective (messages : List Message) : Prop :=
  ∀ source ∈ messages.filterMap Message.assistant?, ∀ a ∈ source.callIds, ∀ b ∈ source.callIds,
    outputId target normalizeToolCallId source a = outputId target normalizeToolCallId source b → a = b

instance (messages : List Message) : Decidable (Injective target normalizeToolCallId messages) :=
  inferInstanceAs (Decidable (∀ source ∈ messages.filterMap Message.assistant?, ∀ a ∈ source.callIds, ∀ b ∈ source.callIds,
    outputId target normalizeToolCallId source a = outputId target normalizeToolCallId source b → a = b))

/-- A call that keeps its ID does so in all earlier messages too, and one that is renamed gets an ID that is not empty. -/
def SentAlike (earlier : List AssistantMessage) (source : AssistantMessage) (id : JsString) : Prop :=
  if outputId target normalizeToolCallId source id = id then
    ∀ other ∈ earlier, id ∈ other.callIds → outputId target normalizeToolCallId other id = id
  else outputId target normalizeToolCallId source id ≠ []

instance (earlier : List AssistantMessage) (source : AssistantMessage) (id : JsString) :
    Decidable (SentAlike target normalizeToolCallId earlier source id) :=
  inferInstanceAs (Decidable (if outputId target normalizeToolCallId source id = id then
    ∀ other ∈ earlier, id ∈ other.callIds → outputId target normalizeToolCallId other id = id
  else outputId target normalizeToolCallId source id ≠ []))

/-- The calls that have results are sent alike. `source` is the last assistant message, and `earlier` are those before. -/
def NamedAlike : List AssistantMessage → Option AssistantMessage → List Message → Prop
  | _, _, [] => True
  | earlier, source, .assistant next :: rest => NamedAlike (source.toList ++ earlier) (some next) rest
  | earlier, source, .toolResult message :: rest =>
    (∀ caller ∈ source.toList, SentAlike target normalizeToolCallId earlier caller message.toolCallId) ∧
      NamedAlike earlier source rest
  | earlier, source, .system _ :: rest => NamedAlike earlier source rest
  | earlier, source, .user _ :: rest => NamedAlike earlier source rest

instance decidableNamedAlike : ∀ earlier source messages,
    Decidable (NamedAlike target normalizeToolCallId earlier source messages)
  | _, _, [] => .isTrue trivial
  | earlier, source, .assistant next :: rest => decidableNamedAlike (source.toList ++ earlier) (some next) rest
  | earlier, source, .toolResult message :: rest =>
    have := decidableNamedAlike earlier source rest
    inferInstanceAs (Decidable ((∀ caller ∈ source.toList, SentAlike target normalizeToolCallId earlier caller
      message.toolCallId) ∧ NamedAlike target normalizeToolCallId earlier source rest))
  | earlier, source, .system _ :: rest => decidableNamedAlike earlier source rest
  | earlier, source, .user _ :: rest => decidableNamedAlike earlier source rest

end Condition

section Sends

variable (target : Model) (normalizeToolCallId : Option (JsString → AssistantMessage → JsString))

def ContentBlock.isImage : ContentBlock → Bool
  | .image _ => true
  | .text .. => false

def ContentBlock.saysOther (placeholder : JsString) : ContentBlock → Bool
  | .image _ => false
  | .text other _ => other ≠ placeholder

/-- Content without its images: the other blocks are as they were, and a placeholder tells of the images. -/
structure WithoutImages (placeholder : JsString) (content shown : List ContentBlock) : Prop where
  imageless : ∀ block ∈ shown, block.isImage = false
  kept : shown.filter (ContentBlock.saysOther placeholder) = content.filter (ContentBlock.saysOther placeholder)
  told : ∀ block ∈ content, block.isImage = true → ∃ rest, .text placeholder rest ∈ shown
  same : (∀ block ∈ content, block.isImage = false) → shown = content

def Shows (placeholder : JsString) (content shown : List ContentBlock) : Prop :=
  if target.acceptsImages then shown = content else WithoutImages placeholder content shown

def SystemMessage.sent (message : SystemMessage) : SystemMessage :=
  { message with content := some (message.content.getD (.blocks [])) }

/-- A user message is sent with its text, or with its blocks. -/
inductive SentUser : UserMessage → UserMessage → Prop
  | missing (rest : JsonValue) : SentUser ⟨none, rest⟩ ⟨some (.blocks []), rest⟩
  | text (text : JsString) (rest : JsonValue) : SentUser ⟨some (.text text), rest⟩ ⟨some (.text text), rest⟩
  | blocks (blocks shown : List ContentBlock) (rest : JsonValue)
      (h : Shows target nonVisionUserImagePlaceholder blocks shown) :
      SentUser ⟨some (.blocks blocks), rest⟩ ⟨some (.blocks shown), rest⟩

/-- A result is sent under the ID that the call it answers is sent with. -/
def SentResult (source : AssistantMessage) (message sent : ToolResultMessage) : Prop :=
  ∃ shown, Shows target nonVisionToolImagePlaceholder (message.content.getD []) shown ∧
    sent = { message with
      toolCallId := outputId target normalizeToolCallId source message.toolCallId, content := some shown }

/-- What a message says: its texts, and its thoughts that can be read. -/
def said (content : List Block) : List JsString :=
  content.flatMap fun
    | .text text _ => [text]
    | .thinking thinking _ redacted _ => if redacted || thinking.all isWhitespace then [] else [thinking]
    | .toolCall _ => []

structure SentAssistant (message sent : AssistantMessage) : Prop where
  rest : sent = { message with content := sent.content }
  speech : said (sent.content.getD []) = said (message.content.getD [])
  calls : sent.toolCalls = message.toolCalls.map (transformToolCall target normalizeToolCallId message)

/-- What can stand between the calls of a message and the next turn. -/
inductive Aside where
  | system (message : SystemMessage)
  | toolResult (message : ToolResultMessage)

def Aside.message : Aside → Message
  | .system message => .system message
  | .toolResult message => .toolResult message

def resultsOf (between : List Aside) : List ToolResultMessage := (between.map Aside.message).filterMap Message.toolResult?

def systemsOf (between : List Aside) : List SystemMessage := (between.map Aside.message).filterMap Message.system?

/-- The messages and what is sent of them. After a message that did not fail come the results of its calls, each under
the ID of the call it answers, then those that are made up, and the system messages from between. -/
inductive Sends : List Message → List Message → Prop
  | nil : Sends [] []
  | system (message : SystemMessage) {rest out : List Message} (h : Sends rest out) :
      Sends (.system message :: rest) (.system message.sent :: out)
  | user (message sent : UserMessage) {rest out : List Message} (hsent : SentUser target message sent)
      (h : Sends rest out) : Sends (.user message :: rest) (.user sent :: out)
  | failed (message : AssistantMessage) {rest out : List Message} (hfailed : message.failed = true) (h : Sends rest out) :
      Sends (.assistant message :: rest) out
  | turn (message sent : AssistantMessage) (between : List Aside) (results invented : List ToolResultMessage)
      {rest out : List Message} (hlive : message.failed = false) (hsent : SentAssistant target normalizeToolCallId message sent)
      (hresults : List.Forall₂ (SentResult target normalizeToolCallId message) (resultsOf between) results)
      (hinvented : ∀ result ∈ invented, ∃ call ∈ sent.toolCalls, ∃ timestamp, result = noResult call timestamp)
      (h : Sends rest out) :
      Sends (.assistant message :: (between.map Aside.message ++ rest)) (.assistant sent ::
        ((results ++ invented).map .toolResult ++ ((systemsOf between).map (.system ∘ SystemMessage.sent) ++ out)))

end Sends

end PiAgent.Ai.Transform
