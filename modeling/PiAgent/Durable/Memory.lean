import Mathlib.Logic.Function.Basic
import PiAgent.Durable.Records
import PiAgent.Lib.Sorted

/-!
# The memory store

`prepareCommit` and `apply` of `MemoryStorage`. A `Map` is a function from its keys,
with the value of an absent key where the code supplies one.
-/

namespace PiAgent.Durable

open Sorted

structure StoredDocumentState where
  record : DocumentRecord
  revisions : List DocumentRevision

structure DocumentAction where
  create : Option DocumentCreate := none
  content : Option DocumentContent := none
  retire : Bool := false

structure DocumentAddressIndex where
  ids : List Id := []
  currentId : Option Id := none

structure State where
  recordTypes : Id → Option TableName
  conversations : Id → Option ConversationRecord
  conversationIds : List Id
  conversationIdsByOwnerConversation : Id → List Id
  conversationIdsByOwnerTask : Id → List Id
  entries : Id → Option EntryRecord
  entryIds : Id → List Id
  headEntryIds : Id → List Id
  entryCommitSeqs : Id → Option Seq
  tasks : Id → Option TaskRecord
  taskIds : List Id
  taskIdsByStatus : TaskStatus → List Id
  submissions : Id → Option SubmissionRecord
  submissionIds : List Id
  submissionIdsByStatus : SubmissionStatus → List Id
  submissionIdsByRequest : Id → JsString → Option Id
  documents : Id → Option StoredDocumentState
  documentAddresses : DocumentAddress → DocumentAddressIndex
  documentIdsByScope : DocumentScope → List Id
  nextId : ℤ
  nextSeq : Seq

def State.empty : State where
  recordTypes := fun _ => none
  conversations := fun _ => none
  conversationIds := []
  conversationIdsByOwnerConversation := fun _ => []
  conversationIdsByOwnerTask := fun _ => []
  entries := fun _ => none
  entryIds := fun _ => []
  headEntryIds := fun _ => []
  entryCommitSeqs := fun _ => none
  tasks := fun _ => none
  taskIds := []
  taskIdsByStatus := fun _ => []
  submissions := fun _ => none
  submissionIds := []
  submissionIdsByStatus := fun _ => []
  submissionIdsByRequest := fun _ _ => none
  documents := fun _ => none
  documentAddresses := fun _ => {}
  documentIdsByScope := fun _ => []
  nextId := 2
  nextSeq := 1

inductive StorageError where
  /-- `Commit sequence … does not strictly increase` -/
  | sequence (seq : Seq)
  /-- `ID … already belongs to …` -/
  | belongs (id : Id) (table : TableName)
  /-- `ID … is written more than once` -/
  | writtenTwice (id : Id)
  /-- `ID … is written as two record types` -/
  | twoTypes (id : Id)
  /-- `Document … has more than one content command` -/
  | contentTwice (id : Id)
  /-- `Document … is retired more than once` -/
  | retiredTwice (id : Id)
  /-- `Unknown document: …` -/
  | unknown (id : Id)
  /-- `Document … already exists` -/
  | exists (id : Id)
  /-- `Document … is retired` -/
  | retired (id : Id)
  /-- `Document … delta has no base` -/
  | noBase (id : Id)
  /-- `Document … version transition requires a base` -/
  | transition (id : Id)
  /-- `Document address already has a current incarnation` -/
  | address
  /-- `Document … does not retain historical content` -/
  | history (id : Id)
  /-- `Document … is missing a required base` -/
  | missingBase (id : Id)
  /-- `Document … crosses a stored version boundary without a base` -/
  | boundary (id : Id)
  /-- An operation of a stored delta failed. -/
  | delta (error : Delta.DeltaError)
  /-- `Document copy … was rejected` -/
  | copy (id : Id)

/-! ## Reading a document -/

/-- The revisions from the newest base on: its version and value, and what follows it. -/
def splitBase : List DocumentRevision → Option (ℤ × JsonValue × List DocumentRevision)
  | [] => none
  | revision :: rest =>
    match splitBase rest with
    | some found => some found
    | none =>
      match revision.content with
      | .base version value => some (version, value, rest)
      | .delta .. => none

/-- `applyImmutableBatches` over `documentDeltaBatches`. -/
def applyDeltas (id : Id) (version : ℤ) (value : JsonValue) : List DocumentRevision → Except StorageError JsonValue
  | [] => .ok value
  | revision :: rest =>
    match revision.content with
    | .base .. => .error (.boundary id)
    | .delta v ops =>
      if v ≠ version then .error (.boundary id)
      else
        match Delta.apply value ops with
        | .error e => .error (.delta e)
        | .ok value => applyDeltas id version value rest

def revisionsUpTo (revisions : List DocumentRevision) : DocumentPoint → List DocumentRevision
  | .current => revisions
  | .at seq => revisions.filter (fun revision => revision.seq ≤ seq)

def materializeDocument (s : State) (id : Id) (point : DocumentPoint) :
    Except StorageError (Option StoredDocument) :=
  match s.documents id with
  | none => .ok none
  | some stored =>
    if point ≠ .current ∧ isCurrentOnly stored.record.toDocumentCreate = true then .error (.history id)
    else if isAliveAt stored.record point = false then .ok none
    else
      match splitBase (revisionsUpTo stored.revisions point) with
      | none => .error (.missingBase id)
      | some (version, value, deltas) =>
        match applyDeltas id version value deltas with
        | .error e => .error e
        | .ok value =>
          .ok (some { record := stored.record, version, value, deltasSinceBase := deltas.length })

/-! ## Preparing a commit -/

/-- The documents a batch creates, copies, changes or retires. -/
def changedDocumentIds (writes : List StorageWrite) : List Id :=
  writes.filterMap fun
    | .documentCreate record _ _ => some record.id
    | .documentCopy record _ _ => some record.id
    | .documentChange id _ => some id
    | .documentRetire id => some id
    | _ => none

def resolveDocumentCopy (s : State) (changed : List Id) : StorageWrite → Except StorageError StorageWrite
  | .documentCopy record source point =>
    if source ∈ changed then .error (.copy record.id)
    else
      match materializeDocument s source point with
      | .ok (some stored) =>
        if stored.record.scope.isConversation ∧ record.scope.isConversation ∧ stored.record.kind = record.kind ∧
            stored.record.key = record.key ∧ stored.record.history = record.history ∧
            stored.record.fork = record.fork then
          .ok (.documentCreate record stored.version stored.value)
        else .error (.copy record.id)
      | _ => .error (.copy record.id)
  | write => .ok write

def resolveDocumentCopies (s : State) (writes : List StorageWrite) : Except StorageError (List StorageWrite) :=
  writes.mapM (resolveDocumentCopy s (changedDocumentIds writes))

/-- The ID a write claims, and the table it claims it for. -/
def StorageWrite.claim : StorageWrite → Option (Id × TableName)
  | .conversation value => some (value.id, .conversation)
  | .entry value => some (value.id, .entry)
  | .task value => some (value.id, .task)
  | .submission value => some (value.id, .submission)
  | .documentCreate record _ _ => some (record.id, .document)
  | .documentCopy record _ _ => some (record.id, .document)
  | .documentChange .. => none
  | .documentRetire _ => none

/-- Tasks and submissions may be written again; everything else is written once. -/
def TableName.rewritable : TableName → Bool
  | .task => true
  | .submission => true
  | _ => false

def checkGlobalId (s : State) (claimed : Id → Option TableName) (id : Id) (table : TableName) :
    Except StorageError (Id → Option TableName) :=
  let existing := s.recordTypes id
  let earlier := claimed id
  if table.rewritable = false then
    match existing, earlier with
    | some owner, _ => .error (.belongs id owner)
    | none, some _ => .error (.writtenTwice id)
    | none, none => .ok (Function.update claimed id (some table))
  else
    match existing.filter (· ≠ table), earlier.filter (· ≠ table) with
    | some owner, _ => .error (.belongs id owner)
    | none, some _ => .error (.twoTypes id)
    | none, none => .ok (Function.update claimed id (some table))

def checkGlobalIdsFrom (s : State) (claimed : Id → Option TableName) : List StorageWrite → Except StorageError Unit
  | [] => .ok ()
  | write :: writes =>
    match write.claim with
    | none => checkGlobalIdsFrom s claimed writes
    | some (id, table) =>
      match checkGlobalId s claimed id table with
      | .error e => .error e
      | .ok claimed => checkGlobalIdsFrom s claimed writes

def checkGlobalIds (s : State) (writes : List StorageWrite) : Except StorageError Unit :=
  checkGlobalIdsFrom s (fun _ => none) writes

/-- The actions of a batch, in the order in which their documents come up. -/
abbrev Actions := List (Id × DocumentAction)

def addAction (actions : Actions) : StorageWrite → Except StorageError Actions
  | .documentCreate record version value =>
    let action := (Assoc.get? actions record.id).getD {}
    if action.create.isSome ∨ action.content.isSome then .error (.contentTwice record.id)
    else
      .ok (Assoc.set actions record.id { action with create := some record, content := some (.base version value) })
  | .documentChange id content =>
    let action := (Assoc.get? actions id).getD {}
    if action.content.isSome then .error (.contentTwice id)
    else .ok (Assoc.set actions id { action with content := some content })
  | .documentRetire id =>
    let action := (Assoc.get? actions id).getD {}
    if action.retire = true then .error (.retiredTwice id)
    else .ok (Assoc.set actions id { action with retire := true })
  | _ => .ok actions

def prepareDocumentActions (writes : List StorageWrite) : Except StorageError Actions := writes.foldlM addAction []

/-- What one action needs of the document it is about. -/
def checkDocumentAction (s : State) (id : Id) (action : DocumentAction) : Except StorageError Unit :=
  let existing := s.documents id
  if action.create.isNone ∧ existing.isNone then .error (.unknown id)
  else if action.create.isSome ∧ existing.isSome then .error (.exists id)
  else if (existing.bind (fun stored => stored.record.retiredAt)).isSome then .error (.retired id)
  else
    match action.content, existing.bind (fun stored => stored.revisions.getLast?) with
    | some (.delta _ _), none => .error (.noBase id)
    | some (.delta version _), some previous =>
      if previous.content.version ≠ version then .error (.transition id) else .ok ()
    | _, _ => .ok ()

def actionAddress (s : State) (id : Id) (action : DocumentAction) : Option DocumentAddress :=
  match action.create with
  | some record => some record.address
  | none => (s.documents id).map (fun stored => stored.record.address)

/-- The live incarnations of an address after the action. -/
def liveAfter (s : State) (address : DocumentAddress) (id : Id) (action : DocumentAction) (live : ℤ) : ℤ :=
  let live := if action.retire = true ∧ (s.documentAddresses address).currentId = some id then live - 1 else live
  if action.create.isSome ∧ action.retire = false then live + 1 else live

def initialLive (s : State) (address : DocumentAddress) : ℤ :=
  if (s.documentAddresses address).currentId.isNone then 0 else 1

def countAction (s : State) (counts : List (DocumentAddress × ℤ)) (id : Id) (action : DocumentAction) :
    Except StorageError (List (DocumentAddress × ℤ)) :=
  match checkDocumentAction s id action with
  | .error e => .error e
  | .ok () =>
    match actionAddress s id action with
    | none => .error (.unknown id)
    | some address =>
      .ok (Assoc.set counts address
        (liveAfter s address id action ((Assoc.get? counts address).getD (initialLive s address))))

def checkDocumentActions (s : State) (actions : Actions) : Except StorageError Unit :=
  match actions.foldlM (fun counts p => countAction s counts p.1 p.2) [] with
  | .error e => .error e
  | .ok counts => if counts.any (fun p => 1 < p.2) then .error .address else .ok ()

structure PreparedCommit where
  seq : Seq
  writes : List StorageWrite
  actions : Actions

/-- `Number.MAX_SAFE_INTEGER` -/
def maxSafeInteger : ℕ := 2 ^ 53 - 1

def prepareCommit (s : State) (writes : List StorageWrite) (seq : Seq := s.nextSeq) :
    Except StorageError PreparedCommit :=
  if maxSafeInteger < seq ∨ seq < s.nextSeq then .error (.sequence seq)
  else
    match resolveDocumentCopies s writes with
    | .error e => .error e
    | .ok detached =>
      match checkGlobalIds s detached with
      | .error e => .error e
      | .ok () =>
        match prepareDocumentActions detached with
        | .error e => .error e
        | .ok actions =>
          match checkDocumentActions s actions with
          | .error e => .error e
          | .ok () => .ok { seq, writes := detached, actions }

/-! ## Applying a prepared commit -/

section Apply

variable {κ : Type} [DecidableEq κ]

/-- `insertMapId` -/
def insertMapId (index : κ → List Id) (key : κ) (id : Id) : κ → List Id :=
  Function.update index key (insertSorted (index key) id)

def insertOwner (index : Id → List Id) (owner : Option Id) (id : Id) : Id → List Id :=
  match owner with
  | none => index
  | some key => insertMapId index key id

/-- The list of one status loses the ID, and that of another gains it. -/
def moveStatus (index : κ → List Id) (previous : Option κ) (status : κ) (id : Id) : κ → List Id :=
  match previous with
  | none => insertMapId index status id
  | some old =>
    if old = status then index
    else insertMapId (Function.update index old (removeSorted (index old) id)) status id

end Apply

def State.applyConversation (s : State) (value : ConversationRecord) : State :=
  { s with
    recordTypes := Function.update s.recordTypes value.id (some .conversation)
    conversations := Function.update s.conversations value.id (some value)
    conversationIds := insertSorted s.conversationIds value.id
    conversationIdsByOwnerConversation :=
      insertOwner s.conversationIdsByOwnerConversation (value.owner.map Owner.conversationId) value.id
    conversationIdsByOwnerTask := insertOwner s.conversationIdsByOwnerTask (value.owner.map Owner.taskId) value.id
    nextId := max s.nextId (value.id + 1) }

def State.applyEntry (s : State) (seq : Seq) (value : EntryRecord) : State :=
  { s with
    recordTypes := Function.update s.recordTypes value.id (some .entry)
    entries := Function.update s.entries value.id (some value)
    entryCommitSeqs := Function.update s.entryCommitSeqs value.id (some seq)
    entryIds := insertMapId s.entryIds value.conversationId value.id
    headEntryIds :=
      if value.head.isSome then insertMapId s.headEntryIds value.conversationId value.id else s.headEntryIds
    nextId := max s.nextId (value.id + 1) }

def State.applyTask (s : State) (value : TaskRecord) : State :=
  let previous := s.tasks value.id
  { s with
    recordTypes := Function.update s.recordTypes value.id (some .task)
    taskIds := if previous.isNone then insertSorted s.taskIds value.id else s.taskIds
    taskIdsByStatus :=
      moveStatus s.taskIdsByStatus (previous.map (fun task => task.state.status)) value.state.status value.id
    tasks := Function.update s.tasks value.id (some value)
    nextId := max s.nextId (value.id + 1) }

/-- The request of the previous record is forgotten, when it still names this submission. -/
def forgetRequest (index : Id → JsString → Option Id) (previous : Option SubmissionRecord) (id : Id) :
    Id → JsString → Option Id :=
  match previous with
  | none => index
  | some record =>
    match record.requestId with
    | none => index
    | some requestId =>
      if index record.conversationId requestId = some id then
        Function.update index record.conversationId (Function.update (index record.conversationId) requestId none)
      else index

def rememberRequest (index : Id → JsString → Option Id) (value : SubmissionRecord) : Id → JsString → Option Id :=
  match value.requestId with
  | none => index
  | some requestId =>
    Function.update index value.conversationId
      (Function.update (index value.conversationId) requestId (some value.id))

def State.applySubmission (s : State) (value : SubmissionRecord) : State :=
  let previous := s.submissions value.id
  { s with
    recordTypes := Function.update s.recordTypes value.id (some .submission)
    submissionIds := if previous.isNone then insertSorted s.submissionIds value.id else s.submissionIds
    submissionIdsByStatus :=
      moveStatus s.submissionIdsByStatus (previous.map SubmissionRecord.status) value.status value.id
    submissionIdsByRequest := rememberRequest (forgetRequest s.submissionIdsByRequest previous value.id) value
    submissions := Function.update s.submissions value.id (some value)
    nextId := max s.nextId (value.id + 1) }

def State.applyWrite (s : State) (seq : Seq) : StorageWrite → State
  | .conversation value => s.applyConversation value
  | .entry value => s.applyEntry seq value
  | .task value => s.applyTask value
  | .submission value => s.applySubmission value
  | _ => s

def createdRecord (record : DocumentCreate) (retire : Bool) (seq : Seq) : DocumentRecord :=
  { record with createdAt := seq, retiredAt := if retire then some seq else none }

/-- What is stored of a document after the content command of its action. -/
def contentStored (stored : Option StoredDocumentState) (action : DocumentAction) (seq : Seq) :
    Option StoredDocumentState :=
  match action.create, action.content with
  | some record, content =>
    some ⟨createdRecord record action.retire seq, (content.map (fun c => DocumentRevision.mk c seq)).toList⟩
  | none, some content =>
    stored.map fun d =>
      if content.isBase ∧ isCurrentOnly d.record.toDocumentCreate = true then ⟨d.record, [⟨content, seq⟩]⟩
      else ⟨d.record, d.revisions ++ [⟨content, seq⟩]⟩
  | none, none => stored

def retireStored (d : StoredDocumentState) (action : DocumentAction) (seq : Seq) : StoredDocumentState where
  record := if action.retire = true ∧ action.create.isNone then { d.record with retiredAt := some seq } else d.record
  revisions := if action.retire = true ∧ isCurrentOnly d.record.toDocumentCreate = true then [] else d.revisions

/-- What is stored of a document after the action. -/
def actionStored (stored : Option StoredDocumentState) (action : DocumentAction) (seq : Seq) :
    Option StoredDocumentState :=
  (contentStored stored action seq).map (fun d => retireStored d action seq)

def actionIndex (index : DocumentAddressIndex) (id : Id) (action : DocumentAction) : DocumentAddressIndex :=
  { ids := if action.create.isSome then insertSorted index.ids id else index.ids
    currentId :=
      if action.create.isSome ∧ action.retire = false then some id
      else if action.retire = true ∧ index.currentId = some id then none
      else index.currentId }

def State.applyDocumentAction (s : State) (seq : Seq) (id : Id) (action : DocumentAction) : State :=
  match actionStored (s.documents id) action seq with
  | none => s
  | some stored =>
    let address := stored.record.address
    { s with
      recordTypes :=
        if action.create.isSome then Function.update s.recordTypes id (some .document) else s.recordTypes
      documents := Function.update s.documents id (some stored)
      documentAddresses :=
        Function.update s.documentAddresses address (actionIndex (s.documentAddresses address) id action)
      documentIdsByScope :=
        if action.create.isSome then insertMapId s.documentIdsByScope stored.record.scope id
        else s.documentIdsByScope
      nextId := if action.create.isSome then max s.nextId (id + 1) else s.nextId }

def State.applyPreparedCommit (s : State) (commit : PreparedCommit) : State :=
  let written := commit.writes.foldl (fun s write => s.applyWrite commit.seq write) s
  let changed := commit.actions.foldl (fun s p => s.applyDocumentAction commit.seq p.1 p.2) written
  { changed with nextSeq := commit.seq + 1 }

end PiAgent.Durable
