import PiAgent.Durable.Memory
import PiAgent.Lib.Paging

/-!
# The task graph

`task-graph.ts`: the live tasks of a Session, built from storage by the first observer, and
advanced by every publication.
-/

namespace PiAgent.Harness.TaskGraph

open Assoc Durable Delta Sorted

/-! ## Nodes -/

/-- A live task's status, without its checkpoint and outcome. -/
inductive TaskGraphState where
  | pending (phase : Option JsString)
  | running (phase : Option JsString)
  | waiting (phase : Option JsString) (members : List Id) (policy : JoinPolicy)
  | completing (outcome : OutcomeStatus)
deriving DecidableEq

structure TaskGraphNode where
  id : Id
  kind : JsString
  conversationId : Id
  owner : Option Id
  background : Bool
  abortRequested : Bool
  state : TaskGraphState
  /-- Conversations this task owns, in ID order. -/
  conversations : List Id
deriving DecidableEq

/-- `checkpoint.phase`, which is a text. -/
def phaseOf : JsonValue → Option JsString
  | .obj fields =>
    match get? fields (js "phase") with
    | some (.prim (.str phase)) => some phase
    | _ => none
  | _ => none

def stateOf (record : TaskRecord) : TaskGraphState :=
  match record.state with
  | .pending checkpoint => .pending (phaseOf checkpoint)
  | .running checkpoint => .running (phaseOf checkpoint)
  | .waiting checkpoint members policy => .waiting (phaseOf checkpoint) members policy
  -- terminal records never reach here: they leave the graph
  | .completing outcome => .completing outcome.status
  | .terminal outcome => .completing outcome.status

def nodeOf (record : TaskRecord) (conversations : List Id) : TaskGraphNode :=
  { id := record.id, kind := record.kind, conversationId := record.conversationId, owner := record.owner
    background := record.background, abortRequested := record.abortRequested, state := stateOf record
    conversations := conversations }

abbrev Graph := List (JsString × TaskGraphNode)

/-- `String(id)` -/
def keyOf (id : Id) : JsString := (if id < 0 then [45] else []) ++ decimal id.natAbs

def isTerminal (record : TaskRecord) : Bool := record.state.status = .terminal

/-- `sort((a, b) => a - b)` -/
def sortIds (ids : List Id) : List Id := ids.mergeSort (fun a b => a ≤ b)

/-! ## Building -/

def LIVE_STATUSES : List TaskStatus := [.pending, .running, .waiting, .completing]

def SCAN_PAGE_SIZE : ℕ := 256

def scanAll (ids : List Id) : List Id := scanPages ids SCAN_PAGE_SIZE (ids.length + 1) none

def liveRecords (s : State) : List TaskRecord :=
  (LIVE_STATUSES.flatMap (fun status => (scanAll (s.taskIdsByStatus status)).filterMap s.tasks)).mergeSort
    (fun a b => a.id ≤ b.id)

/-- The IDs of the conversations a task owns. -/
def ownedIds (s : State) (taskId : Id) : List Id :=
  sortIds (((scanAll (s.conversationIdsByOwnerTask taskId)).filterMap s.conversations).map ConversationRecord.id)

/-- `#build` -/
def build (s : State) : Graph :=
  (liveRecords s).foldl (fun tasks record => set tasks (keyOf record.id) (nodeOf record (ownedIds s record.id))) []

/-! ## Advancing -/

inductive Change where
  | conversation (value : ConversationRecord)
  | task (value : TaskRecord)
  /-- Entries, submissions and documents. -/
  | other

inductive GraphOp where
  | delete (key : JsString)
  | set (key : JsString) (node : TaskGraphNode)
  | setConversations (key : JsString) (conversations : List Id)

/-- The operations, and the nodes this publication set or deleted, over the mount's value. -/
structure Progress where
  ops : List GraphOp
  changed : List (JsString × Option TaskGraphNode)

def nodeAt (graph : Graph) (changed : List (JsString × Option TaskGraphNode)) (key : JsString) : Option TaskGraphNode :=
  match get? changed key with
  | some entry => entry
  | none => get? graph key

def advanceTask (graph : Graph) (progress : Progress) (record : TaskRecord) : Progress :=
  let key := keyOf record.id
  let previous := nodeAt graph progress.changed key
  if isTerminal record then
    if previous = none then progress
    else ⟨progress.ops ++ [.delete key], set progress.changed key none⟩
  else
    let next := nodeOf record ((previous.map TaskGraphNode.conversations).getD [])
    -- the texts of two nodes are equal exactly when the nodes are
    if previous = some next then progress
    else ⟨progress.ops ++ [.set key next], set progress.changed key (some next)⟩

def advanceChange (graph : Graph) (progress : Progress) : Change → Progress
  | .task record => advanceTask graph progress record
  | _ => progress

/-- The new conversations of each owner that has a node. -/
def addCreated (graph : Graph) (changed : List (JsString × Option TaskGraphNode)) (created : List (JsString × List Id)) :
    Change → List (JsString × List Id)
  | .conversation record =>
    match record.owner with
    | none => created
    | some owner =>
      let key := keyOf owner.taskId
      if nodeAt graph changed key = none then created
      else set created key ((get? created key).getD [] ++ [record.id])
  | _ => created

def conversationsOp (graph : Graph) (changed : List (JsString × Option TaskGraphNode)) (owned : JsString × List Id) :
    GraphOp :=
  let conversations := ((nodeAt graph changed owned.1).map TaskGraphNode.conversations).getD []
  .setConversations owned.1 (sortIds (conversations ++ owned.2))

def applyGraphOp (graph : Graph) : GraphOp → Graph
  | .delete key => del graph key
  | .set key node => set graph key node
  | .setConversations key conversations =>
    match get? graph key with
    | none => graph
    | some node => set graph key { node with conversations := conversations }

def applyGraphOps (graph : Graph) (ops : List GraphOp) : Graph := ops.foldl applyGraphOp graph

/-- The next value of the mount, and the operations that observers get. -/
def advance (graph : Graph) (changes : List Change) : Graph × List GraphOp :=
  let progress := changes.foldl (advanceChange graph) ⟨[], []⟩
  let created := changes.foldl (addCreated graph progress.changed) []
  let ops := progress.ops ++ created.map (conversationsOp graph progress.changed)
  (applyGraphOps graph ops, ops)

/-! ## The graph as JSON -/

def idJson (id : Id) : JsonValue := .num id

def idsJson (ids : List Id) : JsonValue := .arr (ids.map idJson)

def policyJson : JoinPolicy → JsonValue
  | .failFast => .str (js "failFast")
  | .allSettled => .str (js "allSettled")

def outcomeJson : OutcomeStatus → JsonValue
  | .completed => .str (js "completed")
  | .failed => .str (js "failed")
  | .aborted => .str (js "aborted")
  | .orphaned => .str (js "orphaned")
  | .faulted => .str (js "faulted")

def phaseFields (phase : Option JsString) : List (JsString × JsonValue) :=
  phase.toList.map (fun phase => (js "phase", .str phase))

def stateJson : TaskGraphState → JsonValue
  | .pending phase => .obj ((js "status", .str (js "pending")) :: phaseFields phase)
  | .running phase => .obj ((js "status", .str (js "running")) :: phaseFields phase)
  | .waiting phase members policy =>
    .obj ((js "status", .str (js "waiting")) :: phaseFields phase ++
      [(js "on", idsJson members), (js "policy", policyJson policy)])
  | .completing outcome => .obj [(js "status", .str (js "completing")), (js "outcome", outcomeJson outcome)]

/-- The fields of a node before its conversations. -/
def nodeFields (node : TaskGraphNode) : List (JsString × JsonValue) :=
  [(js "id", idJson node.id), (js "kind", .str node.kind), (js "conversationId", idJson node.conversationId)] ++
    node.owner.toList.map (fun owner => (js "owner", idJson owner)) ++
    [(js "background", .prim (.bool node.background)), (js "abortRequested", .prim (.bool node.abortRequested)),
      (js "state", stateJson node.state)]

def nodeJson (node : TaskGraphNode) : JsonValue :=
  .obj (nodeFields node ++ [(js "conversations", idsJson node.conversations)])

def nodesJson (graph : Graph) : List (JsString × JsonValue) := graph.map (fun entry => (entry.1, nodeJson entry.2))

def graphJson (graph : Graph) : JsonValue := .obj [(js "tasks", .obj (nodesJson graph))]

/-- The operation on the JSON of the graph. -/
def GraphOp.op : GraphOp → Op
  | .delete key => .edit [.key (js "tasks"), .key key] .d
  | .set key node => .edit [.key (js "tasks"), .key key] (.s (nodeJson node))
  | .setConversations key conversations =>
    .edit [.key (js "tasks"), .key key, .key (js "conversations")] (.s (idsJson conversations))

end PiAgent.Harness.TaskGraph
