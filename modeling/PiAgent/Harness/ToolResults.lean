import PiAgent.Agent.ToolChanges

/-!
# Ordered tool results

The model messages of `context.ts`, and how `orderToolResults` places the results of each
assistant message directly after it.
-/

namespace PiAgent.Harness

open List

open Session (Time SystemMessage)

/-! ## Messages -/

structure AssistantMessage extends Agent.AssistantMessage where
  timestamp : Time

structure ToolResultMessage extends Agent.ToolResultMessage where
  timestamp : Time

inductive Message where
  | system (message : SystemMessage)
  | user (message : JsonValue)
  | assistant (message : AssistantMessage)
  | toolResult (message : ToolResultMessage)

namespace Message

def isAssistant : Message → Bool
  | .assistant _ => true
  | _ => false

def isToolResult : Message → Bool
  | .toolResult _ => true
  | _ => false

def assistant? : Message → Option AssistantMessage
  | .assistant message => some message
  | _ => none

end Message

def MISSING_RESULT_TEXT : JsString := js "Tool result unavailable: history ends before this call completed."

def missingResult (call : Agent.ToolCall) (timestamp : Time) : ToolResultMessage where
  toolCallId := call.id
  toolName := call.name
  content := .blocks [.text MISSING_RESULT_TEXT (.obj [])]
  details := some (.obj [(js "reason", .str (js "missing_result"))])
  usage := none
  isError := true
  timestamp := timestamp

/-- What `results.get(id)` gives: the first result for the call before the next assistant. -/
def resultFor (id : JsString) : List Message → Option ToolResultMessage
  | [] => none
  | .assistant _ :: _ => none
  | .toolResult m :: rest => if m.toolCallId = id then some m else resultFor id rest
  | _ :: rest => resultFor id rest

/-- The results of one assistant message, in call order. -/
def placedResults (message : AssistantMessage) (rest : List Message) : List ToolResultMessage :=
  message.toolCalls.map (fun call => (resultFor call.id rest).getD (missingResult call message.timestamp))

def orderToolResults : List Message → List Message
  | [] => []
  | .toolResult _ :: rest => orderToolResults rest
  | .assistant m :: rest => .assistant m :: ((placedResults m rest).map .toolResult ++ orderToolResults rest)
  | .system m :: rest => .system m :: orderToolResults rest
  | .user m :: rest => .user m :: orderToolResults rest

/-! ## The shape of ordered messages -/

/-- Each assistant message is followed by one result per call, in call order, and there are no other results. -/
inductive Paired : List Message → Prop where
  | nil : Paired []
  | plain (message : Message) (rest : List Message) (ha : message.isAssistant = false)
      (hr : message.isToolResult = false) (hrest : Paired rest) : Paired (message :: rest)
  | assistant (message : AssistantMessage) (results : List ToolResultMessage) (rest : List Message)
      (hids : results.map (fun result => result.toolCallId) = message.toolCalls.map Agent.ToolCall.id)
      (hrest : Paired rest) : Paired (.assistant message :: (results.map .toolResult ++ rest))

variable (id : JsString) (rest : List Message)

theorem resultFor_id (m : ToolResultMessage) (h : resultFor id rest = some m) : m.toolCallId = id := by
  induction rest with
  | nil => cases h
  | cons message rest ih =>
    cases message with
    | assistant a => cases h
    | system m => exact ih h
    | user m => exact ih h
    | toolResult other =>
      unfold resultFor at h
      split at h
      · rename_i heq
        obtain rfl := Option.some.inj h
        exact heq
      · exact ih h

theorem placedResults_ids (message : AssistantMessage) (rest : List Message) :
    (placedResults message rest).map (fun result => result.toolCallId) = message.toolCalls.map Agent.ToolCall.id := by
  unfold placedResults
  rw [map_map]
  refine map_congr_left (fun call _ => ?_)
  rcases hfound : resultFor call.id rest with _ | result
  · simp [Function.comp, hfound, missingResult]
  · simpa [Function.comp, hfound] using resultFor_id call.id rest result hfound

variable (messages : List Message)

theorem paired_orderToolResults : Paired (orderToolResults messages) := by
  induction messages with
  | nil => exact .nil
  | cons message rest ih =>
    cases message with
    | toolResult m => exact ih
    | system m => exact .plain _ _ rfl rfl ih
    | user m => exact .plain _ _ rfl rfl ih
    | assistant m => exact .assistant m _ _ (placedResults_ids m rest) ih

/-- The messages other than tool results. -/
def others (messages : List Message) : List Message := messages.filter (fun message => !message.isToolResult)

variable (results : List ToolResultMessage)

theorem others_results : others (results.map .toolResult) = [] := by
  unfold others
  rw [filter_eq_nil_iff]
  intro message hmem
  obtain ⟨result, -, rfl⟩ := mem_map.mp hmem
  simp [Message.isToolResult]

theorem others_orderToolResults : others (orderToolResults messages) = others messages := by
  induction messages with
  | nil => rfl
  | cons message rest ih =>
    cases message with
    | toolResult m => exact ih
    | system m => exact congrArg (Message.system m :: ·) ih
    | user m => exact congrArg (Message.user m :: ·) ih
    | assistant m =>
      refine congrArg (Message.assistant m :: ·) ?_
      rw [show List.filter _ _ = others _ from rfl]
      unfold others at ih ⊢
      rw [filter_append, ih]
      exact congrArg (· ++ _) (others_results _)

/-! ## Ordering again -/

/-- The calls of a message that share an id and have no result have the same name. -/
def SameNames : List Message → Prop
  | [] => True
  | .assistant m :: rest =>
    (∀ call ∈ m.toolCalls, ∀ other ∈ m.toolCalls, call.id = other.id → resultFor call.id rest = none →
      call.name = other.name) ∧ SameNames rest
  | _ :: rest => SameNames rest

theorem resultFor_placed (rest : List Message) (id : JsString)
    (result : ToolResultMessage) (hmem : result ∈ results) (hid : result.toolCallId = id)
    (hsame : ∀ other ∈ results, other.toolCallId = id → other = result) :
    resultFor id (results.map .toolResult ++ rest) = some result := by
  induction results with
  | nil => exact absurd hmem not_mem_nil
  | cons first results ih =>
    rw [map_cons, cons_append]
    unfold resultFor
    split
    · rename_i heq
      rw [hsame first mem_cons_self heq]
    · rename_i hne
      rcases mem_cons.mp hmem with rfl | hmem
      · exact absurd hid hne
      · exact ih hmem (fun other ho => hsame other (mem_cons_of_mem _ ho))

theorem placedResults_placed (message : AssistantMessage) (rest after : List Message)
    (h : ∀ call ∈ message.toolCalls, ∀ other ∈ message.toolCalls, call.id = other.id →
      resultFor call.id rest = none → call.name = other.name) :
    placedResults message ((placedResults message rest).map .toolResult ++ after) = placedResults message rest := by
  unfold placedResults
  refine map_congr_left (fun call hcall => ?_)
  have hplaced : resultFor call.id ((placedResults message rest).map .toolResult ++ after) =
      some ((resultFor call.id rest).getD (missingResult call message.timestamp)) := by
    refine resultFor_placed _ _ _ _ (mem_map_of_mem hcall) ?_ ?_
    · rcases hfound : resultFor call.id rest with _ | result
      · rfl
      · exact resultFor_id _ _ _ hfound
    · intro other hother hid
      obtain ⟨twin, htwin, rfl⟩ := mem_map.mp hother
      have heq : call.id = twin.id := by
        rcases hfound : resultFor twin.id rest with _ | result
        · simpa [hfound, missingResult] using hid.symm
        · rw [hfound] at hid
          exact hid.symm.trans (resultFor_id _ _ _ hfound)
      rw [← heq]
      rcases hfound : resultFor call.id rest with _ | result
      · simp only [Option.getD_none, missingResult, heq, h call hcall twin htwin heq hfound]
      · rfl
  unfold placedResults at hplaced
  rw [hplaced, Option.getD_some]

theorem orderToolResults_results (rest : List Message) :
    orderToolResults (results.map .toolResult ++ rest) = orderToolResults rest := by
  induction results with
  | nil => rfl
  | cons result results ih => exact ih

theorem orderToolResults_twice (h : SameNames messages) :
    orderToolResults (orderToolResults messages) = orderToolResults messages := by
  induction messages with
  | nil => rfl
  | cons message rest ih =>
    cases message with
    | toolResult m => exact ih h
    | system m => exact congrArg (Message.system m :: ·) (ih h)
    | user m => exact congrArg (Message.user m :: ·) (ih h)
    | assistant m =>
      change Message.assistant m :: ((placedResults m ((placedResults m rest).map .toolResult ++ orderToolResults rest)).map
        .toolResult ++ orderToolResults ((placedResults m rest).map .toolResult ++ orderToolResults rest)) = _
      rw [placedResults_placed m rest _ h.1, orderToolResults_results, ih h.2]
      rfl

/-! ## Ordering in parts -/

def lastAssistant (messages : List Message) : Option AssistantMessage :=
  messages.reverse.findSome? Message.assistant?

theorem lastAssistant_cons (message : Message) (rest : List Message) :
    lastAssistant (message :: rest) = (lastAssistant rest).or message.assistant? := by
  unfold lastAssistant
  rw [reverse_cons, findSome?_append]
  cases message <;> rfl

variable (a b : List Message)

theorem resultFor_append (h : lastAssistant a = none → resultFor id b = none) :
    resultFor id (a ++ b) = resultFor id a := by
  induction a with
  | nil => exact h rfl
  | cons message a ih =>
    rw [lastAssistant_cons] at h
    cases message with
    | assistant m => rfl
    | system m => exact ih (fun hnone => h (by rw [hnone]; rfl))
    | user m => exact ih (fun hnone => h (by rw [hnone]; rfl))
    | toolResult m =>
      rw [cons_append]
      unfold resultFor
      rw [ih (fun hnone => h (by rw [hnone]; rfl))]

theorem orderToolResults_append (h : ∀ m ∈ lastAssistant a, ∀ call ∈ m.toolCalls, resultFor call.id b = none) :
    orderToolResults (a ++ b) = orderToolResults a ++ orderToolResults b := by
  induction a with
  | nil => rfl
  | cons message a ih =>
    rw [lastAssistant_cons] at h
    have hrest : ∀ m ∈ lastAssistant a, ∀ call ∈ m.toolCalls, resultFor call.id b = none := by
      intro m hm
      refine h m ?_
      rw [Option.mem_def.mp hm]
      rfl
    cases message with
    | toolResult m => exact ih hrest
    | system m => exact congrArg (Message.system m :: ·) (ih hrest)
    | user m => exact congrArg (Message.user m :: ·) (ih hrest)
    | assistant m =>
      have hplaced : placedResults m (a ++ b) = placedResults m a := by
        unfold placedResults
        refine map_congr_left (fun call hcall => ?_)
        rw [resultFor_append call.id a b]
        intro hnone
        refine h m ?_ call hcall
        rw [hnone]
        rfl
      change Message.assistant m :: ((placedResults m (a ++ b)).map .toolResult ++ orderToolResults (a ++ b)) = _
      rw [hplaced, ih hrest, ← append_assoc]
      rfl

theorem orderToolResults_assistant (h : b.head?.any Message.isAssistant) :
    orderToolResults (a ++ b) = orderToolResults a ++ orderToolResults b := by
  refine orderToolResults_append a b (fun m _ call _ => ?_)
  cases b with
  | nil => rfl
  | cons message b =>
    cases message with
    | assistant m => rfl
    | system m => cases h
    | user m => cases h
    | toolResult m => cases h

end PiAgent.Harness
