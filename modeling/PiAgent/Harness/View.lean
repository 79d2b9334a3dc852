import PiAgent.Durable.Fork

/-!
# The view of a conversation

The mount of `view.ts`: the active transcript and the built-in documents, built from
storage once and then advanced by what commits publish.
-/

namespace PiAgent.Harness

open Durable Delta JsonValue

/-! ## The active transcript -/

structure ContextBounds where
  head : Option EntryRecord
  tail : Id

def captureContextBounds (s : State) (id : Id) : Except ScanError (Option ContextBounds) :=
  match scanEntries s ⟨id, none, none, none⟩ 1 none with
  | .error e => .error e
  | .ok page =>
    match page.items.head? with
    | none => .ok none
    | some newest =>
      match findLatestHeadMarker s id (some newest.id) with
      | .error e => .error e
      | .ok head => .ok (some ⟨head, newest.id⟩)

/-- From the head marker's head, or the start of the transcript, through the tail. -/
def rangeQuery (id : Id) (bounds : ContextBounds) : EntryQuery where
  conversationId := id
  order := none
  minEntryId := bounds.head.bind EntryRecord.head
  maxEntryId := some bounds.tail

def SCAN_PAGE_SIZE : ℕ := 256

/-- The head marker followed by the range's entries without a head, or the whole range without a marker. -/
def selectActive (head : Option EntryRecord) (range : List EntryRecord) : List EntryRecord :=
  match head with
  | none => range
  | some marker => marker :: range.filter (fun entry => entry.head.isNone)

/-- `activeEntries`, with fuel for the pages. -/
def activeEntries (fuel : ℕ) (s : State) (id : Id) (bounds : Option ContextBounds) :
    Option (Except ScanError (List EntryRecord)) :=
  match bounds with
  | none => some (.ok [])
  | some bounds =>
    (scanPages s (rangeQuery id bounds) SCAN_PAGE_SIZE fuel none).map
      (fun scanned => scanned.map (fun entries => selectActive bounds.head entries.reverse))

/-! ## The mount -/

structure ConversationView where
  conversation : ConversationRecord
  entries : List EntryRecord
  docs : List (JsString × JsonValue)

structure Incarnation where
  id : Id
  version : ℤ
deriving DecidableEq

structure Mount where
  value : ConversationView
  docs : List (JsString × Incarnation)

def MOUNTED_KINDS : List JsString :=
  [js "pi.agent", js "pi.live", js "pi.inbox", js "pi.provider", js "pi.usage"]

/-- What `conversationDocumentOnLine` gives of the committed document of a kind. -/
structure Loaded where
  id : Id
  version : ℤ
  value : JsonValue

/-- The committed documents of one conversation, by kind. -/
abbrev Documents := JsString → Option Loaded

def mountDocument (documents : Documents) (mount : Mount) (kind : JsString) : Mount :=
  match documents kind with
  | none => mount
  | some loaded =>
    { value := { mount.value with docs := Assoc.set mount.value.docs kind loaded.value }
      docs := Assoc.set mount.docs kind ⟨loaded.id, loaded.version⟩ }

inductive BuildError where
  /-- `Conversation … does not exist` -/
  | missing (id : Id)
  | scan (error : ScanError)

/-- `ConversationViews.#build`; `none` when the fuel does not suffice for the pages. -/
def build (fuel : ℕ) (s : State) (documents : Documents) (id : Id) : Option (Except BuildError Mount) :=
  match s.conversations id with
  | none => some (.error (.missing id))
  | some conversation =>
    match captureContextBounds s id with
    | .error e => some (.error (.scan e))
    | .ok bounds =>
      (activeEntries fuel s id bounds).map fun
        | .error e => .error (.scan e)
        | .ok entries => .ok (MOUNTED_KINDS.foldl (mountDocument documents) ⟨⟨conversation, entries, []⟩, []⟩)

/-! ## Publications -/

structure DocumentChange where
  conversationId : Option Id
  id : Id
  kind : JsString
  key : Option JsString
  /-- Definition version of the value; absent when the commit retired the incarnation. -/
  version : Option ℤ
  /-- The committed value; absent when the commit retired the incarnation. -/
  value : Option JsonValue
  ops : List Op

inductive Change where
  | entry (value : EntryRecord)
  | document (change : DocumentChange)
  /-- Conversations, tasks, submissions and document copies. -/
  | other

/-- `op` moved under `prefix`; a root replacement becomes a set of the prefix. -/
def prefixed (op : Op) (path : Path) : Op :=
  match op with
  | .r value => .edit path (.s value)
  | .edit at' e => .edit (path ++ at') e

/-- What `advance` collects while it goes through the changes. -/
structure Progress where
  docs : List (JsString × Incarnation)
  docOps : List Op
  entryOps : List Op
  entries : List EntryRecord

section Advance

variable (entryJson : EntryRecord → JsonValue) (conversationJson : ConversationRecord → JsonValue)

def entriesPath : Path := [.key (js "entries")]

def docPath (kind : JsString) : Path := [.key (js "docs"), .key kind]

/-- The first place of the entries that a marker keeps. -/
def keptFrom (entries : List EntryRecord) (target : Id) : ℕ :=
  entries.findIdx (fun candidate => candidate.head.isNone && decide (target ≤ candidate.id))

def advanceEntry (progress : Progress) (entry : EntryRecord) : Progress :=
  match entry.head with
  | none =>
    { progress with
      entryOps := progress.entryOps ++ [.edit entriesPath (.p progress.entries.length 0 [entryJson entry])]
      entries := progress.entries ++ [entry] }
  | some target =>
    let kept := keptFrom progress.entries target
    { progress with
      entryOps := progress.entryOps ++ [.edit entriesPath (.p 0 kept [entryJson entry])]
      entries := entry :: progress.entries.drop kept }

def advanceDocument (progress : Progress) (change : DocumentChange) : Progress :=
  let mounted := Assoc.get? progress.docs change.kind
  match change.value with
  | none =>
    if mounted.any (fun incarnation => incarnation.id = change.id) then
      { progress with
        docs := Assoc.del progress.docs change.kind
        docOps := progress.docOps ++ [.edit (docPath change.kind) .d] }
    else progress
  | some value =>
    if mounted.any (fun incarnation => incarnation.id = change.id ∧ some incarnation.version = change.version) then
      { progress with
        docOps := progress.docOps ++ change.ops.map (fun op => prefixed op (docPath change.kind)) }
    else
      { progress with
        docs := Assoc.set progress.docs change.kind ⟨change.id, change.version.getD 0⟩
        docOps := progress.docOps ++ [.edit (docPath change.kind) (.s value)] }

def advanceChange (id : Id) (progress : Progress) : Change → Progress
  | .entry entry => if entry.conversationId = id then advanceEntry entryJson progress entry else progress
  | .document change =>
    if change.conversationId ≠ some id then progress
    else if change.kind ∉ MOUNTED_KINDS ∨ change.key ≠ none then progress
    else advanceDocument progress change
  | .other => progress

/-- The value as the JSON that operations apply to. -/
def ConversationView.json (view : ConversationView) : JsonValue :=
  .obj [(js "conversation", conversationJson view.conversation),
    (js "entries", .arr (view.entries.map entryJson)), (js "docs", .obj view.docs)]

/-- `applyImmutable` with operations on documents. -/
def applyDocOps (view : ConversationView) (ops : List Op) : Except DeltaError ConversationView :=
  match Delta.apply (view.json entryJson conversationJson) ops with
  | .error e => .error e
  | .ok (.obj fields) =>
    match Assoc.get? fields (js "docs") with
    | some (.obj docs) => .ok { view with docs }
    | _ => .error (.path [.key (js "docs")])
  | .ok _ => .error (.path [])

/-- The next mount, and the operations that observers get. -/
def advance (id : Id) (mount : Mount) (changes : List Change) : Except DeltaError (Mount × List Op) :=
  let progress := changes.foldl (advanceChange entryJson id) ⟨mount.docs, [], [], mount.value.entries⟩
  let ops := progress.docOps ++ progress.entryOps
  if ops = [] then .ok (⟨mount.value, progress.docs⟩, ops)
  else
    match applyDocOps entryJson conversationJson mount.value progress.docOps with
    | .error e => .error e
    | .ok value => .ok (⟨{ value with entries := progress.entries }, progress.docs⟩, ops)

end Advance

end PiAgent.Harness
