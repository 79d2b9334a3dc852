import PiAgent.Agent.ToolChanges
import PiAgent.Session.Manager
import PiAgent.Lib.Script

/-!
# The agent loop

`agent-loop.ts`, and `agent.ts` around it. A run is a program over the state of its agent. Wherever
the source awaits, the environment has a moment: it may act on the agent, and it answers
for the hook, the listener, the tool or the stream that is awaited, or throws. Model,
reasoning level, times and API keys are left out.
-/

namespace PiAgent.Agent

open Script Script.Prog
open Session (Time)

/-! ## Events -/

structure AgentToolCallOutcome where
  toolCall : ToolCall
  result : ToolResult
  isError : Bool

inductive AgentEvent where
  | agentStart
  | agentEnd (messages : List AgentMessage)
  | turnStart
  | turnEnd (message : AssistantMessage) (toolResults : List ToolResultMessage)
  | messageStart (message : AgentMessage)
  | messageUpdate (message : AgentMessage)
  | messageEnd (message : AgentMessage)
  | toolExecutionStart (toolCall : ToolCall)
  | toolExecutionUpdate (toolCall : ToolCall) (partialResult : JsonValue)
  | toolExecutionEnd (finalized : AgentToolCallOutcome)

/-! ## Queues -/

inductive QueueMode where
  | all
  | oneAtATime
  deriving DecidableEq

structure PendingMessageQueue where
  messages : List AgentMessage
  mode : QueueMode

namespace PendingMessageQueue

variable (q : PendingMessageQueue)

def enqueue (message : AgentMessage) : PendingMessageQueue := { q with messages := q.messages ++ [message] }

def peek : List AgentMessage :=
  match q.mode with
  | .all => q.messages
  | .oneAtATime => q.messages.take 1

def rest : PendingMessageQueue := { q with messages := q.messages.drop q.peek.length }

def clear : PendingMessageQueue := { q with messages := [] }

end PendingMessageQueue

/-! ## The state -/

/-- A call of the stream function: the transcript it gets, the context whose tools are executed, and the context
`prepareRequest` has put in place for it. -/
structure Request where
  transcript : List AgentMessage
  context : AgentContext
  replaced : Option AgentContext

/-- The agent, the run it is in, and what is noted of them: `events`, `requests` and `lookups` are what has happened, and
`owed`, `undelivered`, `dropped` and `drainedAll` are the tickets of queued messages. -/
structure World where
  clock : ℕ
  messages : List AgentMessage
  tools : List AgentTool
  streamingMessage : Option AgentMessage
  pendingToolCalls : List JsString
  errorMessage : Option JsString
  queue : QueueName → PendingMessageQueue
  active : Bool
  aborted : Bool
  skipInitialSteeringPoll : Bool
  context : AgentContext
  newMessages : List AgentMessage
  events : List AgentEvent
  requests : List Request
  /-- The tools in which the tool of a call was looked up, after how many requests. -/
  lookups : List (ℕ × List AgentTool)
  nextTicket : ℕ
  /-- What was given to a queue and not removed by a clear. -/
  owed : List Ticket
  /-- What was drained, and has no `message_end` yet. -/
  undelivered : List Ticket
  /-- What was drained and not delivered when a run failed. -/
  dropped : List Ticket
  /-- What was drained in mode `all`. -/
  drainedAll : List Ticket
  /-- Whether the report of a failed run was itself interrupted. -/
  unreported : Bool

/-- What the surroundings of an agent may do at any moment. -/
inductive Action where
  | enqueue (name : QueueName) (body : Body)
  | setMode (name : QueueName) (mode : QueueMode)
  | clear (name : QueueName)
  | abort

def tickets (messages : List AgentMessage) : List Ticket := messages.filterMap AgentMessage.ticket

namespace World

variable (s : World)

def act : Action → World
  | .enqueue name body =>
    { s with queue := Function.update s.queue name ((s.queue name).enqueue ⟨body, some ⟨name, s.nextTicket⟩⟩)
             nextTicket := s.nextTicket + 1
             owed := s.owed ++ [⟨name, s.nextTicket⟩] }
  | .setMode name mode => { s with queue := Function.update s.queue name { s.queue name with mode := mode } }
  | .clear name =>
    { s with queue := Function.update s.queue name (s.queue name).clear
             owed := s.owed.filter (fun t => t ∉ tickets (s.queue name).messages) }
  | .abort => { s with aborted := s.aborted || s.active }

/-- The state change of `processEvents`. -/
def reduce (event : AgentEvent) : World :=
  let s := { s with events := s.events ++ [event] }
  match event with
  | .messageStart message => { s with streamingMessage := some message }
  | .messageUpdate message => { s with streamingMessage := some message }
  | .messageEnd message =>
    { s with streamingMessage := none
             messages := s.messages ++ [message]
             undelivered := s.undelivered.filter (fun t => some t ≠ message.ticket) }
  | .toolExecutionStart toolCall => { s with pendingToolCalls := toolCall.id :: s.pendingToolCalls.filter (· ≠ toolCall.id) }
  | .toolExecutionEnd finalized => { s with pendingToolCalls := s.pendingToolCalls.filter (· ≠ finalized.toolCall.id) }
  | .turnEnd message _ => { s with errorMessage := (Session.Manager.truthy message.errorMessage).or s.errorMessage }
  | .agentEnd _ => { s with streamingMessage := none }
  | _ => s

end World

abbrev Run (α : Type) := Prog World α

/-! ## The environment -/

/-- What happens while something is awaited, and what it gives; `none` where it throws. -/
structure Moment (α : Type) where
  actions : List Action
  answer : Option α

def unqueued (body : Body) : AgentMessage := ⟨body, none⟩

structure TurnUpdate where
  context : Option AgentContext
  messages : List Body

inductive TurnDecision where
  | stop
  | proceed
  deriving DecidableEq

/-- An event of the stream: `done` stands for `error`, too. -/
inductive StreamEvent where
  | start (partialMessage : AssistantMessage)
  | update (partialMessage : AssistantMessage)
  | done

structure Response where
  events : List StreamEvent
  result : AssistantMessage

/-- What argument preparation, validation and `beforeToolCall` come to. -/
inductive Preflight where
  | failed (text : JsString)
  | noHook
  | allowed
  | blocked (reason : Option JsString) (terminate : Bool)

/-- What a tool that executes does next. -/
inductive Progress where
  | update (partialResult : JsonValue)
  | returned (result : ToolResult) (isError : Bool)
  | failed (text : JsString)

structure AfterToolCallResult where
  content : Option Session.Content
  details : Option JsonValue
  usage : Option JsonValue
  structuredContent : Option JsonValue
  terminate : Option Bool
  isError : Option Bool

inductive AfterToolCall where
  | failed (text : JsString)
  | override (result : Option AfterToolCallResult)

structure Environment where
  texts : Ai.JsonTexts
  now : ℕ → Time
  toolExecution : ExecutionMode
  failure : ℕ → Bool → AssistantMessage
  listeners : ℕ → Moment Unit
  prepareNextTurn : ℕ → Moment (Option TurnUpdate)
  prepareRequest : ℕ → Moment (Option AgentContext)
  /-- `transformContext` and `convertToLlm` -/
  toLlm : ℕ → Moment (List AgentMessage → List AgentMessage)
  streamFunction : ℕ → Moment Response
  /-- The next event of a response is awaited. -/
  next : ℕ → Moment Unit
  beforeToolCall : ℕ → Moment Preflight
  /-- Which of the tools that execute goes on. -/
  schedule : ℕ → Moment ℕ
  progress : ℕ → Moment Progress
  afterToolCall : ℕ → Moment AfterToolCall
  finishTurn : ℕ → Moment (Option TurnDecision)

variable (env : Environment)

def settle {α : Type} : Option α → Run α
  | some answer => pure answer
  | none => throwing

def await {α : Type} (moment : ℕ → Moment α) : Run α := do
  let s ← get
  modify (fun s => (moment s.clock).actions.foldl World.act { s with clock := s.clock + 1 })
  settle (moment s.clock).answer

def emit (event : AgentEvent) : Run Unit := do
  modify (fun s => s.reduce event)
  await env.listeners

/-! ## Messages -/

/-- `message_start` and `message_end` of messages that are whole. -/
def announce : List AgentMessage → Run Unit
  | [] => pure ()
  | message :: rest => do
    emit env (.messageStart message)
    emit env (.messageEnd message)
    announce rest

def deliver : List AgentMessage → Run Unit
  | [] => pure ()
  | message :: rest => do
    emit env (.messageStart message)
    emit env (.messageEnd message)
    modify (fun s => { s with context := { s.context with messages := s.context.messages ++ [message] }
                              newMessages := s.newMessages ++ [message] })
    deliver rest

def drain (name : QueueName) : Run (List AgentMessage) := do
  let s ← get
  let drained := (s.queue name).peek
  modify (fun s => { s with
    queue := Function.update s.queue name (s.queue name).rest
    undelivered := s.undelivered ++ tickets drained
    drainedAll := s.drainedAll ++ (if (s.queue name).mode = .all then tickets drained else []) })
  pure drained

def getSteeringMessages : Run (List AgentMessage) := do
  let s ← get
  if s.skipInitialSteeringPoll then
    modify (fun s => { s with skipInitialSteeringPoll := false })
    pure []
  else drain .steering

/-! ## Responses -/

def ofAssistant (message : AssistantMessage) : AgentMessage := ⟨.assistant message, none⟩

def pushMessage (message : AgentMessage) : Run Unit :=
  modify (fun s => { s with context := { s.context with messages := s.context.messages ++ [message] } })

/-- `context.messages[context.messages.length - 1] = message` -/
def replaceLast (message : AgentMessage) : Run Unit :=
  modify (fun s => { s with context := { s.context with messages := s.context.messages.dropLast ++ [message] } })

/-- The loop over the events of a response; whether a partial message was added. -/
def readEvents : Bool → List StreamEvent → Run Bool
  | addedPartial, [] => do
    await env.next
    pure addedPartial
  | addedPartial, event :: rest => do
    await env.next
    match event with
    | .start partialMessage => do
      pushMessage (ofAssistant partialMessage)
      emit env (.messageStart (ofAssistant partialMessage))
      readEvents true rest
    | .update partialMessage => do
      if addedPartial then
        replaceLast (ofAssistant partialMessage)
        emit env (.messageUpdate (ofAssistant partialMessage))
      readEvents addedPartial rest
    | .done => pure addedPartial

/-- The final message takes the place of the partial one, or is added. -/
def settleResponse (addedPartial : Bool) (finalMessage : AssistantMessage) : Run AssistantMessage := do
  if addedPartial then replaceLast (ofAssistant finalMessage)
  else
    pushMessage (ofAssistant finalMessage)
    emit env (.messageStart (ofAssistant finalMessage))
  emit env (.messageEnd (ofAssistant finalMessage))
  pure finalMessage

def streamAssistantResponse (replaced : Option AgentContext) : Run AssistantMessage := do
  let toLlm ← await env.toLlm
  modify (fun s => { s with requests := s.requests ++ [⟨toLlm s.context.messages, s.context, replaced⟩] })
  let response ← await env.streamFunction
  let addedPartial ← readEvents env false response.events
  settleResponse env addedPartial response.result

/-! ## Tools -/

def createErrorToolResult (message : JsString) : ToolResult :=
  { content := some (.blocks [.text message (.obj [])]), details := some (.obj []), usage := none
    structuredContent := none, terminate := none }

def createToolResultMessage (finalized : AgentToolCallOutcome) : ToolResultMessage :=
  { toolCallId := finalized.toolCall.id, toolName := finalized.toolCall.name
    content := finalized.result.content.getD (.blocks []), details := finalized.result.details
    usage := finalized.result.usage, isError := finalized.isError }

def ofToolResult (message : ToolResultMessage) : AgentMessage := ⟨.toolResult message, none⟩

def shouldTerminateToolBatch (finalizedCalls : List AgentToolCallOutcome) : Bool :=
  !finalizedCalls.isEmpty && finalizedCalls.all (fun finalized => finalized.result.terminate = some true)

def failToolCallsFromTruncatedMessage : List ToolCall → Run (List AgentToolCallOutcome)
  | [] => pure []
  | toolCall :: rest => do
    emit env (.toolExecutionStart toolCall)
    let finalized : AgentToolCallOutcome := ⟨toolCall, createErrorToolResult (js "Tool call \"" ++ toolCall.name ++
      js ("\" was not executed: the response hit the output token limit, so its arguments may be truncated. " ++
        "Re-issue the tool call with complete arguments.")), true⟩
    emit env (.toolExecutionEnd finalized)
    announce env [ofToolResult (createToolResultMessage finalized)]
    let others ← failToolCallsFromTruncatedMessage rest
    pure (finalized :: others)

/-- `prepareToolCall`: what a call comes to at once, or nothing where its tool is to be executed. -/
def prepareToolCall (toolCall : ToolCall) : Run (Option AgentToolCallOutcome) := do
  modify (fun s => { s with lookups := s.lookups ++ [(s.requests.length, s.context.tools)] })
  let s ← get
  match s.context.tools.find? (fun tool => tool.declaration.name = toolCall.name) with
  | none => pure (some ⟨toolCall, createErrorToolResult (js "Tool " ++ toolCall.name ++ js " not found"), true⟩)
  | some _ => do
    let preflight ← await env.beforeToolCall
    let s ← get
    match preflight with
    | .failed text => pure (some ⟨toolCall, createErrorToolResult text, true⟩)
    | .blocked reason terminate =>
      if s.aborted then pure (some ⟨toolCall, createErrorToolResult (js "Operation aborted"), true⟩)
      else
        let result := createErrorToolResult ((Session.Manager.truthy reason).getD (js "Tool execution was blocked"))
        pure (some ⟨toolCall, { result with terminate := if terminate then some true else none }, true⟩)
    | _ =>
      if s.aborted then pure (some ⟨toolCall, createErrorToolResult (js "Operation aborted"), true⟩) else pure none

/-- The result of a tool, as `afterToolCall` leaves it. -/
def finalizeExecutedToolCall (toolCall : ToolCall) (result : ToolResult) (isError : Bool) : Run AgentToolCallOutcome := do
  match ← await env.afterToolCall with
  | .failed text => pure ⟨toolCall, createErrorToolResult text, true⟩
  | .override none => pure ⟨toolCall, result, isError⟩
  | .override (some after) =>
    pure ⟨toolCall,
      { content := after.content.or result.content, details := after.details.or result.details
        usage := after.usage.or result.usage, terminate := after.terminate.or result.terminate
        structuredContent :=
          after.structuredContent.or (if after.content.isSome then none else result.structuredContent) },
      after.isError.getD isError⟩

/-- One step of a tool that executes: an update, or its end. -/
def proceed (toolCall : ToolCall) : Run (Option AgentToolCallOutcome) := do
  match ← await env.progress with
  | .update partialResult =>
    emit env (.toolExecutionUpdate toolCall partialResult)
    pure none
  | .returned result isError => some <$> finalizeExecutedToolCall env toolCall result isError
  | .failed text => some <$> finalizeExecutedToolCall env toolCall (createErrorToolResult text) true

def executePreparedToolCall (toolCall : ToolCall) : ℕ → Run AgentToolCallOutcome
  | 0 => waiting
  | fuel + 1 => do
    match ← proceed env toolCall with
    | some finalized => pure finalized
    | none => executePreparedToolCall toolCall fuel

def executeToolCallsSequential (fuel : ℕ) : List ToolCall → Run (List AgentToolCallOutcome)
  | [] => pure []
  | toolCall :: rest => do
    emit env (.toolExecutionStart toolCall)
    let finalized ←
      match ← prepareToolCall env toolCall with
      | some finalized => pure finalized
      | none => executePreparedToolCall env toolCall fuel
    emit env (.toolExecutionEnd finalized)
    announce env [ofToolResult (createToolResultMessage finalized)]
    let s ← get
    if s.aborted then pure [finalized]
    else
      let others ← executeToolCallsSequential fuel rest
      pure (finalized :: others)

/-- `FinalizedToolCallEntry`: a call that is finalized, or one that is prepared or executes. -/
inductive Entry where
  | finalized (outcome : AgentToolCallOutcome)
  | running (toolCall : ToolCall)

namespace Entry

def toolCall : Entry → ToolCall
  | .finalized outcome => outcome.toolCall
  | .running toolCall => toolCall

def outcome? : Entry → Option AgentToolCallOutcome
  | .finalized outcome => some outcome
  | .running _ => none

end Entry

/-- The first loop of `executeToolCallsParallel`. -/
def prepareToolCalls : List ToolCall → Run (List Entry)
  | [] => pure []
  | toolCall :: rest => do
    emit env (.toolExecutionStart toolCall)
    let entry ←
      match ← prepareToolCall env toolCall with
      | some finalized => do
        emit env (.toolExecutionEnd finalized)
        pure (Entry.finalized finalized)
      | none => pure (Entry.running toolCall)
    let s ← get
    if s.aborted then pure [entry]
    else
      let others ← prepareToolCalls rest
      pure (entry :: others)

/-- The prepared calls start, in order. -/
def startEntries : List Entry → Run (List Entry)
  | [] => pure []
  | entry :: rest => do
    let s ← get
    let entry ←
      match entry with
      | .finalized outcome => pure (Entry.finalized outcome)
      | .running toolCall =>
        if s.aborted then do
          let finalized : AgentToolCallOutcome := ⟨toolCall, createErrorToolResult (js "Operation aborted"), true⟩
          emit env (.toolExecutionEnd finalized)
          pure (Entry.finalized finalized)
        else pure (Entry.running toolCall)
    let others ← startEntries rest
    pure (entry :: others)

/-- `Promise.all`: the calls go on in any order until all are finalized. -/
def settleEntries : ℕ → List Entry → Run (List AgentToolCallOutcome)
  | 0, _ => waiting
  | fuel + 1, entries => do
    if entries.all (fun entry => entry.outcome?.isSome) then pure (entries.filterMap Entry.outcome?)
    else
      let i ← await env.schedule
      match entries[i]? with
      | some (.running toolCall) => do
        match ← proceed env toolCall with
        | some finalized => do
          emit env (.toolExecutionEnd finalized)
          settleEntries fuel (entries.set i (.finalized finalized))
        | none => settleEntries fuel entries
      | _ => settleEntries fuel entries

def executeToolCallsParallel (fuel : ℕ) (toolCalls : List ToolCall) : Run (List AgentToolCallOutcome) := do
  let prepared ← prepareToolCalls env toolCalls
  let started ← startEntries env prepared
  let finalizedCalls ← settleEntries env fuel started
  announce env (finalizedCalls.map (fun finalized => ofToolResult (createToolResultMessage finalized)))
  pure finalizedCalls

def executeToolCalls (fuel : ℕ) (toolCalls : List ToolCall) : Run (List AgentToolCallOutcome) := do
  let s ← get
  let hasSequentialToolCall := toolCalls.any (fun toolCall =>
    (s.context.tools.find? (fun tool => tool.declaration.name = toolCall.name)).any
      (fun tool => tool.executionMode = some .sequential))
  if env.toolExecution = .sequential || hasSequentialToolCall then executeToolCallsSequential env fuel toolCalls
  else executeToolCallsParallel env fuel toolCalls

/-! ## Turns -/

/-- The variables of `runLoop`. -/
structure LoopState where
  lastCompletedTurn : Bool
  explicitContinuation : Bool
  hasMoreToolCalls : Bool
  pendingMessages : List AgentMessage

def installContext (context : Option AgentContext) : Run Unit :=
  modify (fun s => { s with context := context.getD s.context })

/-- The preparation of a turn after the first: the messages to process. -/
def prepareTurn (l : LoopState) : Run (List AgentMessage) :=
  if l.lastCompletedTurn then do
    let nextTurnSnapshot ← await env.prepareNextTurn
    installContext (nextTurnSnapshot.bind TurnUpdate.context)
    let pendingMessages ← if l.pendingMessages.isEmpty then getSteeringMessages else pure l.pendingMessages
    emit env .turnStart
    pure (((nextTurnSnapshot.map TurnUpdate.messages).getD []).map unqueued ++ pendingMessages)
  else pure l.pendingMessages

/-- The tool calls of a message: what they come to, and whether the batch ends the loop. -/
def runTools (fuel : ℕ) (message : AssistantMessage) : Run (List AgentToolCallOutcome × Bool) :=
  if message.toolCalls.isEmpty then pure ([], true)
  else if message.stopReason = .length then do
    let finalizedCalls ← failToolCallsFromTruncatedMessage env message.toolCalls
    pure (finalizedCalls, false)
  else do
    let finalizedCalls ← executeToolCalls env fuel message.toolCalls
    pure (finalizedCalls, shouldTerminateToolBatch finalizedCalls)

def endRun : Run Unit := do
  let s ← get
  emit env (.agentEnd s.newMessages)

/-- One turn of the inner loop of `runLoop`; nothing where the run is over. -/
def turn (fuel : ℕ) (l : LoopState) : Run (Option LoopState) := do
  let messages ← prepareTurn env l
  let s ← get
  deliver env (declareToolChanges env.texts (env.now s.clock) s.context messages)
  let requestUpdate ← await env.prepareRequest
  installContext requestUpdate
  let message ← streamAssistantResponse env requestUpdate
  modify (fun s => { s with newMessages := s.newMessages ++ [ofAssistant message] })
  if message.stopReason = .error || message.stopReason = .aborted then
    let _ ← await env.finishTurn
    emit env (.turnEnd message [])
    endRun env
    pure none
  else
    let (finalizedCalls, terminate) ← runTools env fuel message
    let toolResults := finalizedCalls.map createToolResultMessage
    modify (fun s => { s with
      context := { s.context with messages := s.context.messages ++ toolResults.map ofToolResult }
      newMessages := s.newMessages ++ toolResults.map ofToolResult })
    let decision ← await env.finishTurn
    emit env (.turnEnd message toolResults)
    if decision = some .stop then
      endRun env
      pure none
    else
      let pendingMessages ← getSteeringMessages
      let more := !terminate || !pendingMessages.isEmpty
      pure (some { lastCompletedTurn := true, explicitContinuation := decision = some .proceed && !more
                   hasMoreToolCalls := !terminate, pendingMessages := pendingMessages })

/-- The loops of `runLoop`; the inner one first. -/
def loop : ℕ → LoopState → Run Unit
  | 0, _ => waiting
  | fuel + 1, l => do
    if l.hasMoreToolCalls || !l.pendingMessages.isEmpty then
      match ← turn env fuel l with
      | none => pure ()
      | some l => loop fuel l
    else
      let followUpMessages ← drain .followUp
      if !followUpMessages.isEmpty then
        loop fuel { l with explicitContinuation := false, hasMoreToolCalls := true, pendingMessages := followUpMessages }
      else if l.explicitContinuation then loop fuel { l with explicitContinuation := false, hasMoreToolCalls := true }
      else endRun env

def runLoop (fuel : ℕ) : Run Unit := do
  let pendingMessages ← getSteeringMessages
  loop env fuel { lastCompletedTurn := false, explicitContinuation := false, hasMoreToolCalls := true
                  pendingMessages := pendingMessages }

def runAgentLoop (fuel : ℕ) (prompts : List AgentMessage) : Run Unit := do
  let s ← get
  let initialMessages := declareToolChanges env.texts (env.now s.clock) s.context prompts
  modify (fun s => { s with context := { s.context with messages := s.context.messages ++ initialMessages }
                            newMessages := initialMessages })
  emit env .agentStart
  emit env .turnStart
  announce env initialMessages
  runLoop env fuel

def runAgentLoopContinue (fuel : ℕ) : Run Unit := do
  let s ← get
  if s.context.messages.isEmpty || s.context.messages.getLast?.any AgentMessage.isAssistant then throwing
  else
    modify (fun s => { s with newMessages := [] })
    emit env .agentStart
    emit env .turnStart
    runLoop env fuel

/-! ## The agent -/

def handleRunFailure : Run Unit := do
  let s ← get
  let failureMessage := env.failure s.clock s.aborted
  modify (fun s => { s with dropped := s.dropped ++ s.undelivered, undelivered := [] })
  announce env [ofAssistant failureMessage]
  emit env (.turnEnd failureMessage [])
  emit env (.agentEnd [ofAssistant failureMessage])

def finishRun (s : World) : World :=
  { s with streamingMessage := none, pendingToolCalls := [], active := false }

/-- `runWithLifecycle`, with the snapshot its executors begin with. -/
def runWithLifecycle (skipInitialSteeringPoll : Bool) (executor : Run Unit) : Run Unit := do
  modify (fun s => { s with active := true, aborted := false, streamingMessage := none, errorMessage := none
                            skipInitialSteeringPoll := skipInitialSteeringPoll, events := []
                            context := { messages := s.messages, tools := s.tools } })
  finishing (catching executor (catching (handleRunFailure env) (do
    modify (fun s => { s with unreported := true })
    throwing))) finishRun

def runPromptMessages (fuel : ℕ) (messages : List AgentMessage) (skipInitialSteeringPoll : Bool) : Run Unit :=
  runWithLifecycle env skipInitialSteeringPoll (runAgentLoop env fuel messages)

def continueRun (fuel : ℕ) : Run Unit := do
  let s ← get
  match s.messages.getLast? with
  | none => throwing
  | some lastMessage =>
    if s.messages.all AgentMessage.isSystem then throwing
    else if lastMessage.isAssistant then do
      let queuedSteering ← drain .steering
      if !queuedSteering.isEmpty then runPromptMessages env fuel queuedSteering true
      else
        let queuedFollowUps ← drain .followUp
        if !queuedFollowUps.isEmpty then runPromptMessages env fuel queuedFollowUps false
        else throwing
    else runWithLifecycle env false (runAgentLoopContinue env fuel)

/-- What is done with an agent that is in no run. -/
inductive Command where
  | act (action : Action)
  | prompt (messages : List Body)
  | continue

def perform (fuel : ℕ) : Command → Run Unit
  | .act action => modify (fun s => s.act action)
  | .prompt bodies => runPromptMessages env fuel (bodies.map unqueued) false
  | .continue => continueRun env fuel

/-- The commands one after the other; one that throws is over. -/
def performAll (fuel : ℕ) : List Command → Run Unit
  | [] => pure ()
  | command :: rest => do
    catching (perform env fuel command) (pure ())
    performAll fuel rest

def newAgent (messages : List AgentMessage) (tools : List AgentTool) (mode : QueueName → QueueMode) : World :=
  { clock := 0, messages := messages, tools := tools, streamingMessage := none, pendingToolCalls := []
    errorMessage := none, queue := fun name => ⟨[], mode name⟩, active := false, aborted := false
    skipInitialSteeringPoll := false, context := ⟨messages, tools⟩, newMessages := [], events := [], requests := [], lookups := []
    nextTicket := 0, owed := [], undelivered := [], dropped := [], drainedAll := [], unreported := false }

end PiAgent.Agent
