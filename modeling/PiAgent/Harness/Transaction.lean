import PiAgent.Harness.Ownership

/-!
# What a commit stages

The part of `transaction.ts` that creates conversations and tasks and replaces task
records, and the checks of its assembly. An operation that throws gives `none`.
-/

namespace PiAgent.Harness

open Durable

inductive WriteKind where
  | create
  | replace
deriving DecidableEq

structure TaskWrite where
  kind : WriteKind
  record : TaskRecord

/-- A transaction: the committed store, the conversations it creates, and one entry for each task
it touched, with its write if there is one. -/
structure Tx where
  store : Store
  conversations : List (Id × ConversationRecord)
  tasksById : List (Id × Option TaskWrite)

namespace Tx

def start (store : Store) : Tx := { store := store, conversations := [], tasksById := [] }

variable (tx : Tx)

def write (id : Id) : Option TaskWrite := (Assoc.get? tx.tasksById id).join

def writes : List TaskWrite := tx.tasksById.filterMap Prod.snd

/-- Candidate records of the tasks this transaction created or replaced so far. -/
def stagedTasks : List TaskRecord := tx.writes.map TaskWrite.record

def setWrite (id : Id) (write : TaskWrite) : Tx := { tx with tasksById := Assoc.set tx.tasksById id (some write) }

/-- `#taskEntry` -/
def taskEntry (id : Id) : Tx :=
  if Assoc.has tx.tasksById id then tx else { tx with tasksById := Assoc.set tx.tasksById id none }

/-- Latest candidate task record, falling back to committed state. -/
def currentTask (id : Id) : Option TaskRecord := ((tx.write id).map TaskWrite.record).or (tx.store.tasks id)

def currentConversation (id : Id) : Option ConversationRecord :=
  (Assoc.get? tx.conversations id).or (tx.store.conversations id)

/-- What storage holds once the commit has landed. -/
def candidate : Store :=
  { conversations := tx.currentConversation
    tasks := tx.currentTask
    taskIds := tx.store.taskIds ++
      (tx.writes.filter (fun write => write.kind = .create)).map (fun write => write.record.id)
    count := tx.store.count + tx.conversations.length + tx.writes.length }

/-- `createConversation` and `forkConversation`. The storage gave a fresh `id`. -/
def createConversation (id : Id) (parent : Option Parent) (owner : Option Id) : Option Tx :=
  if (tx.currentConversation id).isSome then none
  else
    match owner with
    | none => some { tx with conversations := tx.conversations ++ [(id, { id := id, parent := parent, owner := none })] }
    | some taskId =>
      (tx.currentTask taskId).map (fun task =>
        let record : ConversationRecord :=
          { id := id, parent := parent, owner := some { conversationId := task.conversationId, taskId := taskId } }
        { tx with conversations := tx.conversations ++ [(id, record)] })

structure TaskOptions where
  /-- The fresh ID storage gave. -/
  id : Id
  kind : JsString
  version : ℤ
  /-- The owner task, for `ownership.kind === "task"`. -/
  owner : Option Id
  conversationId : Option Id
  background : Bool
  abandonOnRestart : Bool
  checkpoint : JsonValue
  body : JsonValue

/-- The record `createTask` stages in a conversation. -/
def newTask (options : TaskOptions) (conversationId : Id) : TaskRecord :=
  { id := options.id, conversationId := conversationId, kind := options.kind, version := options.version
    owner := options.owner, background := options.background, abortRequested := false, restart := false
    abandonOnRestart := options.abandonOnRestart, state := .pending options.checkpoint, body := options.body }

def stageTask (options : TaskOptions) (conversationId : Id) : Option Tx :=
  if (tx.currentConversation conversationId).isNone || (tx.currentTask options.id).isSome then none
  else some (tx.setWrite options.id { kind := .create, record := newTask options conversationId })

def createTask (options : TaskOptions) : Option Tx :=
  match options.owner with
  | none => options.conversationId.bind (tx.stageTask options)
  | some taskId =>
    match tx.currentTask taskId with
    | none => none
    | some owner =>
      -- a child task cannot be background, and lives in its owner's conversation
      if options.background then none
      else if options.conversationId.any (fun id => id ≠ owner.conversationId) then none
      else tx.stageTask options owner.conversationId

/-- Replace one task record completely. -/
def setTask (value : TaskRecord) : Option Tx :=
  match tx.write value.id with
  | none => some (tx.setWrite value.id { kind := .replace, record := value })
  | some candidate =>
    if isTerminal candidate.record || candidate.record.conversationId != value.conversationId then none
    else some (tx.setWrite value.id { candidate with record := value })

/-! ## Assembly -/

/-- New owned work needs a live owner, judged on the owner's final candidate. -/
def ownerOk (taskId : Id) : Bool :=
  match tx.currentTask taskId with
  | none => false
  | some task => !isTerminal task && task.state.status != .completing && !task.abortRequested

def validateOwners : Bool :=
  tx.conversations.all (fun c => (ownerTask c.2).all tx.ownerOk) &&
    tx.writes.all (fun write => write.kind != .create || write.record.owner.all tx.ownerOk)

/-- A replaced task is committed and not terminal, and stays in its conversation. -/
def validateReplaced : Bool :=
  tx.writes.all (fun write => write.kind != .replace ||
    (tx.store.tasks write.record.id).any (fun committed =>
      !isTerminal committed && committed.conversationId == write.record.conversationId))

/-- What the commit publishes of conversations and tasks, or that it is rejected. -/
def assemble : Option (List Ownership.Change) :=
  if tx.validateOwners && tx.validateReplaced then
    some (tx.conversations.map (fun c => .conversation c.2) ++ tx.stagedTasks.map .task)
  else none

end Tx

/-- Candidate records of a transaction so far. -/
def overlayOf (tx : Tx) : Overlay :=
  { tasks := tx.stagedTasks.map (fun record => (record.id, record))
    edges := tx.conversations.map (fun c => (c.1, ownerTask c.2)) }

/-! ## The operations of a callback -/

inductive TxOp where
  | readTask (id : Id)
  | createConversation (id : Id) (parent : Option Parent) (owner : Option Id)
  | createTask (options : Tx.TaskOptions)

/-- An operation that throws stages nothing; the callback may catch it. -/
def TxOp.run (tx : Tx) : TxOp → Tx
  | .readTask id => tx.taskEntry id
  | .createConversation id parent owner =>
    let tx := owner.elim tx tx.taskEntry
    (tx.createConversation id parent owner).getD tx
  | .createTask options =>
    let tx := options.owner.elim tx tx.taskEntry
    (tx.createTask options).getD tx

def Tx.runAll (tx : Tx) (ops : List TxOp) : Tx := ops.foldl TxOp.run tx

end PiAgent.Harness
