import PiAgent.Durable.Fork

/-!
# The documents of a fork

`forks.ts` and the staging of its copies in `transaction.ts`: which documents a fork copies
into the new conversation, what the callback of the commit may do with the copies, and what
they come to write. The IDs that are minted are inputs.
-/

namespace PiAgent.Durable

open Sorted

def SCAN_PAGE_SIZE : ℕ := 256

/-! ## Scanning documents -/

/-- `page`: at most `limit` records, and the last ID when there are more. -/
def pageDocuments (values : List DocumentRecord) (limit : ℕ) : List DocumentRecord × Option Id :=
  (values.take limit, if values.length ≤ limit then none else (values.take limit).getLast?.map (fun last => last.id))

/-- `scanDocuments` for a query that names no kind. -/
def scanDocuments (s : State) (scope : DocumentScope) (point : DocumentPoint) (limit : ℕ) (after : Option Id) :
    List DocumentRecord × Option Id :=
  let ids := s.documentIdsByScope scope
  let start := after.elim 0 (fun after => upperBound ids after)
  let records := (ids.drop start).filterMap (fun id => (s.documents id).map (fun d => d.record))
  pageDocuments ((records.filter (fun record => isAliveAt record point)).take (limit + 1)) limit

/-- The records of all pages, each page from where the one before ended. -/
def scanAll (s : State) (scope : DocumentScope) (point : DocumentPoint) : ℕ → Option Id → List DocumentRecord
  | 0, _ => []
  | fuel + 1, after =>
    let page := scanDocuments s scope point SCAN_PAGE_SIZE after
    page.1 ++ page.2.elim [] (fun next => scanAll s scope point fuel (some next))

/-! ## The copies of a fork -/

structure ForkDocumentCopy where
  record : DocumentCreate
  source : Id
  point : DocumentPoint

inductive ForkError where
  /-- `Unknown conversation: …` -/
  | unknownConversation (id : Id)
  /-- `Entry … is not visible from conversation …` -/
  | notVisible (entry conversation : Id)
  /-- `Fork selects multiple source documents for …` -/
  | multiple (kind : JsString) (key : Option JsString)
  deriving DecidableEq

/-- The copy of a document in the child. -/
def copyRecord (child id : Id) (source : DocumentRecord) : DocumentCreate where
  id := id
  kind := source.kind
  key := source.key
  scope := .conversation child
  history := if source.history = some .latest then some .latest else some .rewindable
  fork := source.fork

/-- The body of the loop of `collectCopies`. -/
def collectCopy (mint : ℕ → Id) (child : Id) (policy : ForkMode) (point : DocumentPoint)
    (copies : List ForkDocumentCopy) (source : DocumentRecord) : Except ForkError (List ForkDocumentCopy) :=
  if source.scope.isConversation = false ∨ source.fork ≠ some policy then .ok copies
  else
    let record := copyRecord child (mint copies.length) source
    if record.address ∈ copies.map (fun copy => copy.record.address) then .error (.multiple record.kind record.key)
    else .ok (copies ++ [⟨record, source.id, point⟩])

def collectCopies (s : State) (mint : ℕ → Id) (conversationId : Id) (point : DocumentPoint) (policy : ForkMode)
    (child : Id) (copies : List ForkDocumentCopy) : Except ForkError (List ForkDocumentCopy) :=
  let fuel := (s.documentIdsByScope (.conversation conversationId)).length + 1
  (scanAll s (.conversation conversationId) point fuel none).foldlM (collectCopy mint child policy point) copies

/-- The entry of a fork and the sequence of the commit that wrote it: `storage.entry(conversationId, at)`. -/
def forkEntry (s : State) (parent entryId : Id) : Except ForkError (EntryRecord × Seq) :=
  match visibleEntries s parent (some entryId) (some entryId) with
  | .error _ => .error (.unknownConversation parent)
  | .ok entries =>
    match entries.head?, s.entryCommitSeqs entryId with
    | some entry, some seq => .ok (entry, seq)
    | _, _ => .error (.notVisible entryId parent)

def prepareForkDocumentCopies (s : State) (mint : ℕ → Id) (parent entryId child : Id) :
    Except ForkError (List ForkDocumentCopy) :=
  match forkEntry s parent entryId with
  | .error e => .error e
  | .ok (entry, seq) =>
    match collectCopies s mint entry.conversationId (.at seq) .asOf child [] with
    | .error e => .error e
    | .ok copies => collectCopies s mint parent .current .current child copies

/-! ## The transaction of a fork -/

/-- A staged copy; once it is acquired, its version and its value so far. -/
structure CopyEntry where
  copy : ForkDocumentCopy
  acquired : Option (ℤ × JsonValue)
  retireOnCommit : Bool

/-- `#stageConversation` stages a copy. -/
def stageCopy (copy : ForkDocumentCopy) : CopyEntry := ⟨copy, none, false⟩

/-- A definition: its version, and the value of an older version migrated. -/
structure Definition where
  version : ℤ
  migrate : ℤ → JsonValue → JsonValue

/-- `materializeDocumentValue`, once the version was checked. -/
def Definition.materialize (definition : Definition) (version : ℤ) (value : JsonValue) : JsonValue :=
  if version = definition.version then value else definition.migrate version value

/-- `#acquireForkCopy`, as `doc` calls it once; a copy that cannot be read is an error. -/
def acquireForkCopy (s : State) (definition : Definition) (entry : CopyEntry) : Option CopyEntry :=
  if entry.acquired.isSome then some entry
  else
    match materializeDocument s entry.copy.source entry.copy.point with
    | .ok (some stored) =>
      if stored.record.scope.isConversation = true ∧ stored.record.kind = entry.copy.record.kind ∧
          stored.record.key = entry.copy.record.key ∧ stored.record.history = entry.copy.record.history ∧
          stored.record.fork = entry.copy.record.fork then
        some { entry with
          acquired := some (definition.version, definition.materialize stored.version stored.value) }
      else none
    | _ => none

/-- What the callback does with one copy. -/
inductive CopyOp where
  | acquire (definition : Definition)
  | edit (value : JsonValue)
  | retire

def CopyEntry.perform (s : State) (entry : CopyEntry) : CopyOp → Option CopyEntry
  | .acquire definition => if entry.retireOnCommit then none else acquireForkCopy s definition entry
  | .edit value => entry.acquired.map (fun acquired => { entry with acquired := some (acquired.1, value) })
  | .retire => some { entry with retireOnCommit := true }

def CopyEntry.performAll (s : State) (entry : CopyEntry) (ops : List CopyOp) : Option CopyEntry :=
  ops.foldlM (fun entry op => entry.perform s op) entry

/-- `planDocument` of a copy, as writes. -/
def CopyEntry.writes (entry : CopyEntry) : List StorageWrite :=
  (match entry.acquired with
    | some (version, value) => .documentCreate entry.copy.record version value
    | none => .documentCopy entry.copy.record entry.copy.source entry.copy.point) ::
    if entry.retireOnCommit then [.documentRetire entry.copy.record.id] else []

/-- What a plan of another document writes. -/
inductive PlanContent where
  | create (version : ℤ) (value : JsonValue)
  | copy (source : Id) (point : DocumentPoint)
  | change (content : DocumentContent)

/-- A `DocumentPlan` of a document that is no copy of this fork; it may be one of another fork. -/
structure DocumentPlan where
  record : DocumentCreate
  content : Option PlanContent
  retire : Bool

def DocumentPlan.writes (plan : DocumentPlan) : List StorageWrite :=
  (match plan.content with
    | some (.create version value) => [.documentCreate plan.record version value]
    | some (.copy source point) => [.documentCopy plan.record source point]
    | some (.change content) => [.documentChange plan.record.id content]
    | none => []) ++
    if plan.retire then [.documentRetire plan.record.id] else []

/-- A document of the transaction, in staging order; a copy with what the callback does with it. -/
inductive Staged where
  | copy (copy : ForkDocumentCopy) (ops : List CopyOp)
  | other (plan : DocumentPlan)

def Staged.writes (s : State) : Staged → List StorageWrite
  | .copy target ops => ((stageCopy target).performAll s ops).elim [] CopyEntry.writes
  | .other plan => plan.writes

def Staged.copy? : Staged → Option ForkDocumentCopy
  | .copy target _ => some target
  | .other _ => none

/-- `#rejectForkSourceWrites` lets a plan through. -/
def DocumentPlan.passes (parent : Id) (copies : List ForkDocumentCopy) (plan : DocumentPlan) : Bool :=
  plan.content.isNone && !plan.retire ||
    !decide (plan.record.id ∈ copies.map (fun copy => copy.source)) &&
      !decide (plan.record.scope = .conversation parent ∧ plan.record.fork = some .current)

def StorageWrite.isTable : StorageWrite → Bool
  | .conversation _ => true
  | .entry _ => true
  | .task _ => true
  | .submission _ => true
  | _ => false

/-- The transaction of a fork, with the writes of its records. -/
structure ForkTx where
  parent : Id
  entryId : Id
  child : Id
  mint : ℕ → Id
  tables : List StorageWrite
  staged : List Staged

def ForkTx.copies (tx : ForkTx) : List ForkDocumentCopy := tx.staged.filterMap Staged.copy?

/-- What `#assemble` hands to the storage. -/
def ForkTx.writes (tx : ForkTx) (s : State) : List StorageWrite := tx.tables ++ tx.staged.flatMap (Staged.writes s)

/-- The transaction is one that settles with success in a state. -/
structure ForkTx.Settles (tx : ForkTx) (s : State) : Prop where
  copies : prepareForkDocumentCopies s tx.mint tx.parent tx.entryId tx.child = .ok tx.copies
  performed : ∀ copy ops, .copy copy ops ∈ tx.staged → ((stageCopy copy).performAll s ops).isSome = true
  passes : ∀ plan, .other plan ∈ tx.staged → plan.passes tx.parent tx.copies = true
  /-- No other document has an ID that was minted for a copy. -/
  minted : ∀ plan, .other plan ∈ tx.staged → plan.record.id ∉ tx.copies.map (fun copy => copy.record.id)
  /-- The copies of another fork are for another child. -/
  apart : ∀ plan source point, .other plan ∈ tx.staged → plan.content = some (.copy source point) →
    plan.record.scope ≠ .conversation tx.child
  tables : ∀ write ∈ tx.tables, write.isTable = true

end PiAgent.Durable
