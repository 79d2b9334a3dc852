import PiAgent.Chord.Delta.Apply

/-!
# The records of the durable store

The record types of `types.ts`. Fields that no modelled function reads are kept
together in `body`.
-/

namespace PiAgent.Durable

abbrev Id := ℤ

abbrev Seq := ℕ

inductive TableName where
  | conversation
  | entry
  | task
  | submission
  | document
deriving DecidableEq

/-- The fork source, and the last entry that is inherited. -/
structure Parent where
  conversationId : Id
  atEntry : Id
deriving DecidableEq

structure Owner where
  conversationId : Id
  taskId : Id
deriving DecidableEq

structure ConversationRecord where
  id : Id
  parent : Option Parent
  owner : Option Owner
deriving DecidableEq

structure EntryRecord where
  id : Id
  conversationId : Id
  /-- First entry in the active context selected by this entry. -/
  head : Option Id
  body : JsonValue

inductive OutcomeStatus where
  | completed
  | failed
  | aborted
  | orphaned
  | faulted
deriving DecidableEq

structure TaskOutcome where
  status : OutcomeStatus
  body : JsonValue

inductive JoinPolicy where
  | failFast
  | allSettled
deriving DecidableEq

inductive TaskState where
  | pending (checkpoint : JsonValue)
  | running (checkpoint : JsonValue)
  | waiting (checkpoint : JsonValue) (members : List Id) (policy : JoinPolicy)
  | completing (outcome : TaskOutcome)
  | terminal (outcome : TaskOutcome)

inductive TaskStatus where
  | pending
  | running
  | waiting
  | completing
  | terminal
deriving DecidableEq

def TaskState.status : TaskState → TaskStatus
  | .pending _ => .pending
  | .running _ => .running
  | .waiting .. => .waiting
  | .completing _ => .completing
  | .terminal _ => .terminal

structure TaskRecord where
  id : Id
  conversationId : Id
  kind : JsString
  version : ℤ
  /-- Owning task of a child task; absent for a task its conversation owns. -/
  owner : Option Id
  background : Bool
  abortRequested : Bool
  /-- `abortReason === "restart"` -/
  restart : Bool
  abandonOnRestart : Bool
  state : TaskState
  body : JsonValue

inductive SubmissionStatus where
  | queued
  | placed
  | done
  | unanswered
deriving DecidableEq

structure SubmissionRecord where
  id : Id
  conversationId : Id
  requestId : Option JsString
  status : SubmissionStatus
  body : JsonValue

inductive DocumentScope where
  | session
  | conversation (conversationId : Id)
  | task (taskId : Id)
deriving DecidableEq

inductive History where
  | latest
  | rewindable
deriving DecidableEq

inductive ForkMode where
  | asOf
  | current
  | initial
deriving DecidableEq

structure DocumentCreate where
  id : Id
  kind : JsString
  key : Option JsString
  scope : DocumentScope
  history : Option History
  fork : Option ForkMode
deriving DecidableEq

structure DocumentRecord extends DocumentCreate where
  createdAt : Seq
  retiredAt : Option Seq
deriving DecidableEq

/-- `kind`, `scope` and `key`: what `addressKey` writes as text. -/
structure DocumentAddress where
  kind : JsString
  scope : DocumentScope
  key : Option JsString
deriving DecidableEq

def DocumentCreate.address (record : DocumentCreate) : DocumentAddress :=
  { kind := record.kind, scope := record.scope, key := record.key }

inductive DocumentPoint where
  | current
  | at (seq : Seq)
deriving DecidableEq

inductive DocumentContent where
  | base (version : ℤ) (value : JsonValue)
  | delta (version : ℤ) (ops : List Delta.Op)

def DocumentContent.version : DocumentContent → ℤ
  | .base version _ => version
  | .delta version _ => version

def DocumentContent.isBase : DocumentContent → Bool
  | .base .. => true
  | .delta .. => false

structure DocumentRevision where
  content : DocumentContent
  seq : Seq

structure StoredDocument where
  record : DocumentRecord
  version : ℤ
  value : JsonValue
  deltasSinceBase : ℕ

inductive StorageWrite where
  | conversation (value : ConversationRecord)
  | entry (value : EntryRecord)
  | task (value : TaskRecord)
  | submission (value : SubmissionRecord)
  | documentCreate (record : DocumentCreate) (version : ℤ) (value : JsonValue)
  | documentCopy (record : DocumentCreate) (source : Id) (point : DocumentPoint)
  | documentChange (id : Id) (content : DocumentContent)
  | documentRetire (id : Id)

def isAliveAt (record : DocumentRecord) : DocumentPoint → Bool
  | .current => record.retiredAt.isNone
  | .at seq => decide (record.createdAt ≤ seq) && record.retiredAt.all (fun retired => seq < retired)

/-- `record.scope.kind === "conversation"` -/
def DocumentScope.isConversation : DocumentScope → Bool
  | .conversation _ => true
  | _ => false

def isCurrentOnly (record : DocumentCreate) : Bool :=
  !record.scope.isConversation || record.history == some .latest

end PiAgent.Durable
