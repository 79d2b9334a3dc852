import PiAgent.Session.Transcript

/-!
# Tool changes

The messages and the tools of an agent context, and how the difference between the tools
a transcript declares and the tools that can be executed becomes a system message:
`declareToolChanges` of `agent-loop.ts`.
-/

namespace PiAgent.Agent

open Session (Time Tool SystemMessage)

/-! ## Messages -/

inductive StopReason where
  | pending
  | stop
  | length
  | toolUse
  | error
  | aborted
  | deferred
  deriving DecidableEq

structure ToolCall where
  id : JsString
  name : JsString
  arguments : JsonValue

/-- `AssistantMessage`; `rest` is what the agent does not read. -/
structure AssistantMessage where
  content : List Session.ContentBlock
  stopReason : StopReason
  errorMessage : Option JsString
  rest : JsonValue

/-- `message.content.filter((c) => c.type === "toolCall")` -/
def AssistantMessage.toolCalls (m : AssistantMessage) : List ToolCall :=
  m.content.filterMap (fun block =>
    match block with
    | .toolCall id name arguments _ => some ⟨id, name, arguments⟩
    | _ => none)

/-- `AgentToolResult` -/
structure ToolResult where
  content : Option Session.Content
  details : Option JsonValue
  usage : Option JsonValue
  structuredContent : Option JsonValue
  terminate : Option Bool

/-- `ToolResultMessage`, without its times. -/
structure ToolResultMessage where
  toolCallId : JsString
  toolName : JsString
  content : Session.Content
  details : Option JsonValue
  usage : Option JsonValue
  isError : Bool

inductive Body where
  | system (message : SystemMessage)
  | assistant (message : AssistantMessage)
  | toolResult (message : ToolResultMessage)
  /-- A user message, or a custom one. -/
  | other (message : JsonValue)

inductive QueueName where
  | steering
  | followUp
  deriving DecidableEq

/-- Which message of a queue a message is. No code reads it; it says which object a message is. -/
structure Ticket where
  queue : QueueName
  number : ℕ
  deriving DecidableEq

structure AgentMessage where
  body : Body
  ticket : Option Ticket

namespace AgentMessage

def system? (m : AgentMessage) : Option SystemMessage :=
  match m.body with
  | .system message => some message
  | _ => none

def isSystem (m : AgentMessage) : Bool := m.system?.isSome

def isAssistant (m : AgentMessage) : Bool :=
  match m.body with
  | .assistant _ => true
  | _ => false

end AgentMessage

/-! ## Contexts -/

inductive ExecutionMode where
  | sequential
  | parallel
  deriving DecidableEq

structure AgentTool where
  declaration : Tool
  executionMode : Option ExecutionMode

structure AgentContext where
  messages : List AgentMessage
  tools : List AgentTool

/-! ## Changes -/

def getCurrentTools (messages : List AgentMessage) : List Tool :=
  ((messages.filterMap AgentMessage.system?).foldl Session.applyTools []).map Prod.snd

structure ToolStateChanges where
  toolsAdded : List Tool
  toolsRemoved : List JsString

/-- `JSON.stringify(toToolDeclaration(tool))` -/
def declarationText (P : Ai.JsonTexts) (tool : Tool) : JsString := P.stringify (Session.toolJson tool)

def declarationsEqual (P : Ai.JsonTexts) (left right : Tool) : Bool := declarationText P left = declarationText P right

/-- `new Map(tools.map((tool) => [tool.name, tool]))` -/
def toolMap (tools : List Tool) : List (JsString × Tool) := tools.foldl (fun map tool => Assoc.set map tool.name tool) []

/-- Whether a tool is missing on the other side, or declared in another way there. -/
def differs (P : Ai.JsonTexts) (others : List (JsString × Tool)) (tool : Tool) : Bool :=
  match Assoc.get? others tool.name with
  | none => true
  | some other => !declarationsEqual P other tool

def getToolStateChanges (P : Ai.JsonTexts) (previous current : List Tool) : ToolStateChanges :=
  { toolsAdded := current.filter (differs P (toolMap previous))
    toolsRemoved := (previous.filter (differs P (toolMap current))).map Tool.name }

def noChanges : ToolStateChanges := { toolsAdded := [], toolsRemoved := [] }

def ToolStateChanges.isEmpty (changes : ToolStateChanges) : Bool := changes.toolsAdded.isEmpty && changes.toolsRemoved.isEmpty

def withToolChanges (message : SystemMessage) (changes : ToolStateChanges) : SystemMessage :=
  { message with toolsAdded := changes.toolsAdded, toolsRemoved := changes.toolsRemoved }

/-- The last system message, with what comes before and after it. -/
def splitLastSystem : List AgentMessage → Option (List AgentMessage × AgentMessage × SystemMessage × List AgentMessage)
  | [] => none
  | m :: rest =>
    match splitLastSystem rest with
    | some (before, pending, message, after) => some (m :: before, pending, message, after)
    | none => m.system?.map (fun message => ([], m, message, rest))

def declareToolChanges (P : Ai.JsonTexts) (now : Time) (context : AgentContext) (pendingMessages : List AgentMessage) :
    List AgentMessage :=
  let tools := context.tools.map AgentTool.declaration
  match splitLastSystem pendingMessages with
  | some (before, pending, message, after) =>
    let replaced (changes : ToolStateChanges) : List AgentMessage :=
      before ++ { pending with body := .system (withToolChanges message changes) } :: after
    let changes := getToolStateChanges P (getCurrentTools (context.messages ++ replaced noChanges)) tools
    if changes.isEmpty && message.toolsAdded.isEmpty && message.toolsRemoved.isEmpty then pendingMessages
    else replaced changes
  | none =>
    let changes := getToolStateChanges P (getCurrentTools (context.messages ++ pendingMessages)) tools
    if changes.isEmpty then pendingMessages
    else
      let update : SystemMessage :=
        withToolChanges
          { content := some (.text []), sections := [], toolsAdded := [], toolsRemoved := [], timestamp := now } changes
      let index := pendingMessages.findIdx (fun m => !m.isSystem)
      pendingMessages.take index ++ { body := .system update, ticket := none } :: pendingMessages.drop index

end PiAgent.Agent
