import PiAgent.Durable.Fork

/-!
# The inbox of a conversation

`applyBoundary` of `inbox.ts` places the queued submissions that a boundary selects, in the
transaction of the boundary. The changes of the submissions are applied when the
transaction is assembled.
-/

namespace PiAgent.Harness.Inbox

open Durable

/-! ## Items -/

/-- `EntryDraft.head` -/
inductive DraftHead where
  | self
  | entry (id : Id)
  deriving DecidableEq

/-- An entry before it has an id; `body` has its other fields. -/
structure EntryDraft where
  head : Option DraftHead
  body : List (JsString × JsonValue)

structure InputEntry where
  kind : JsString
  data : Option JsonValue

inductive Mode where
  | steer
  | followUp
  deriving DecidableEq

inductive ItemValue where
  | input (mode : Mode) (content : JsonValue) (entry : Option InputEntry)
  | write (entry : EntryDraft)

structure InboxItem where
  id : Id
  value : ItemValue

def InboxItem.isWrite (item : InboxItem) : Bool :=
  match item.value with
  | .write _ => true
  | .input .. => false

def InboxItem.hasMode (mode : Mode) (item : InboxItem) : Bool :=
  match item.value with
  | .write _ => false
  | .input m _ _ => m = mode

inductive QueueMode where
  | all
  | one
  deriving DecidableEq

structure Boundary where
  conversationId : Id
  items : List InboxItem
  steeringMode : QueueMode
  followUpMode : QueueMode
  head : Option Id

inductive At where
  | postTools
  | final
  deriving DecidableEq

/-! ## Submissions -/

inductive SubmissionType where
  | input
  | write
  deriving DecidableEq

structure SubmissionRecord where
  id : Id
  type : SubmissionType
  status : SubmissionStatus
  entry : Option Id
  answer : Option Id
  reason : Option JsString
  detail : Option JsonValue

inductive SubmissionChange where
  | placed (entry : Id)
  | done (answer : Id)
  | unanswered (reason : JsString) (detail : Option JsonValue)

inductive ChangeError where
  /-- `Submission … is not queued` -/
  | notQueued (id : Id)
  /-- `Submission … is not a placed input` -/
  | notPlaced (id : Id)
  /-- `Submission … does not exist` -/
  | missing (id : Id)

def applySubmissionChange (current : SubmissionRecord) (change : SubmissionChange) : Except ChangeError SubmissionRecord :=
  if current.status = .done ∨ current.status = .unanswered then .ok current
  else
    match change with
    | .placed entry =>
      if current.status ≠ .queued then .error (.notQueued current.id)
      else .ok { current with status := if current.type = .input then .placed else .done, entry := some entry }
    | .done answer =>
      if current.status ≠ .placed then .error (.notPlaced current.id)
      else .ok { current with status := .done, answer := some answer }
    | .unanswered reason detail => .ok { current with status := .unanswered, reason := some reason, detail := detail }

/-- The submissions that a transaction has changed or the storage has. -/
abbrev Submissions := Id → Option SubmissionRecord

/-- The loop over the changes when a transaction is assembled. -/
def assemble : Submissions → List (Id × SubmissionChange) → Except ChangeError Submissions
  | submissions, [] => .ok submissions
  | submissions, (id, change) :: changes =>
    match submissions id with
    | none => .error (.missing id)
    | some current =>
      match applySubmissionChange current change with
      | .error e => .error e
      | .ok next => assemble (Function.update submissions id (some next)) changes

/-! ## The transaction -/

/-- `mintId` is the supply of new ids, of which `minted` were taken. -/
structure Tx where
  taskId : Option Id
  mintId : ℕ → Id
  minted : ℕ
  writes : List EntryRecord
  changes : List (Id × SubmissionChange)

def headOf (id : Id) : Option DraftHead → Option Id
  | none => none
  | some .self => some id
  | some (.entry head) => some head

/-- The record of a draft: its own fields, and the task that appends it. -/
def recordOf (taskId : Option Id) (conversationId : Id) (draft : EntryDraft) (id : Id) : EntryRecord where
  id := id
  conversationId := conversationId
  head := headOf id draft.head
  body := .obj (draft.body ++ taskId.toList.map (fun task => (js "byTaskId", .num task)))

/-- `appendEntry` in a conversation that exists. -/
def Tx.appendEntry (tx : Tx) (conversationId : Id) (draft : EntryDraft) : EntryRecord × Tx :=
  let record := recordOf tx.taskId conversationId draft (tx.mintId tx.minted)
  (record, { tx with minted := tx.minted + 1, writes := tx.writes ++ [record] })

def Tx.settleSubmission (tx : Tx) (id : Id) (reason : JsString) : Tx :=
  { tx with changes := tx.changes ++ [(id, .unanswered reason none)] }

def Tx.placeSubmission (tx : Tx) (id entry : Id) : Tx := { tx with changes := tx.changes ++ [(id, .placed entry)] }

/-! ## Placing -/

def isReset (item : InboxItem) : Bool :=
  match item.value with
  | .write entry => entry.head = some .self
  | .input .. => false

def hasQueuedReset (items : List InboxItem) : Bool := items.any isReset

def isStale (head : Option Id) (entry : EntryDraft) : Bool :=
  match entry.head with
  | some (.entry target) => head.any (fun head => target < head)
  | _ => false

/-- `pickInputEntry`: the kind and the data. -/
def pickInputEntry (entry : InputEntry) : List (JsString × JsonValue) :=
  (js "kind", .str entry.kind) :: entry.data.toList.map (fun data => (js "data", data))

def userMessage (content : JsonValue) (now : ℚ) : JsonValue :=
  .obj [(js "role", .str (js "user")), (js "content", content), (js "timestamp", .num now)]

/-- The draft of the entry that an input is placed as. -/
def inputDraft (content : JsonValue) (entry : Option InputEntry) (now : ℚ) : EntryDraft where
  head := none
  body :=
    match entry with
    | none => [(js "model", .arr [userMessage content now]), (js "kind", .str (js "pi.user"))]
    | some entry => pickInputEntry entry ++ [(js "model", .arr [userMessage content now])]

/-- `items.flatMap((item, index) => (… ? [index] : []))` -/
def indexesOf (p : InboxItem → Bool) (items : List InboxItem) : List ℕ :=
  (List.range items.length).filter (fun index => items[index]?.any p)

def pick (items : List InboxItem) (mode : Mode) (queueMode : QueueMode) : List ℕ :=
  let indexes := indexesOf (InboxItem.hasMode mode) items
  if queueMode = .all then indexes else indexes.take 1

/-- One turn of the loop over the writes, with the newest head so far. -/
def placeWrite (conversationId : Id) (state : Tx × Option Id) (item : InboxItem) : Tx × Option Id :=
  match item.value with
  | .write draft =>
    if isStale state.2 draft then (state.1.settleSubmission item.id (js "stale"), state.2)
    else
      let (entry, tx) := state.1.appendEntry conversationId draft
      (tx.placeSubmission item.id entry.id, if draft.head.isSome then entry.head else state.2)
  | .input .. => state

/-- One turn of the loop over the user items, with the submissions placed so far. -/
def placeUser (conversationId : Id) (now : ℚ) (state : Tx × List Id) (item : InboxItem) : Tx × List Id :=
  match item.value with
  | .input _ content entry =>
    let (record, tx) := state.1.appendEntry conversationId (inputDraft content entry now)
    (tx.placeSubmission item.id record.id, state.2 ++ [item.id])
  | .write _ => state

structure BoundaryResult where
  users : List Id
  reset : Bool

/-- `items[index]` for each of the indexes. -/
def itemsAt (items : List InboxItem) (indexes : List ℕ) : List InboxItem := indexes.filterMap (fun index => items[index]?)

def selectUsers (boundary : Boundary) (final : Bool) : List ℕ :=
  (pick boundary.items .steer boundary.steeringMode ++
    if final then pick boundary.items .followUp boundary.followUpMode else []).mergeSort (fun a b => a ≤ b)

def applyBoundary (tx : Tx) (boundary : Boundary) (at' : At) (now : ℚ) : BoundaryResult × Boundary × Tx :=
  let items := boundary.items
  let reset := hasQueuedReset items
  let final := at' = .final || reset
  let writes := indexesOf InboxItem.isWrite items
  let users := selectUsers boundary final
  let written := (itemsAt items writes).foldl (placeWrite boundary.conversationId) (tx, boundary.head)
  let placed := (itemsAt items users).foldl (placeUser boundary.conversationId now) (written.1, [])
  let removed := (writes ++ users).mergeSort (fun a b => b ≤ a)
  (⟨placed.2, reset⟩, { boundary with items := removed.foldl List.eraseIdx items, head := written.2 }, placed.1)

end PiAgent.Harness.Inbox
