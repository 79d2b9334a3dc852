import PiAgent.Session.Projection

/-!
# The session manager

The entries of a session in memory, the labels of them, the leaf, and the bytes of the
session file. Every operation of `SessionManager` that adds an entry is an `AppendOp`.
A generated ID and the current time are inputs; how entries are written as lines of
JSON is a codec.
-/

namespace PiAgent.Session

open Assoc

/-! ## Files -/

structure Header where
  id : JsString
  timestamp : Time
  cwd : JsString
  parentSession : Option JsString

inductive FileEntry where
  | session (header : Header)
  | entry (entry : Entry)

abbrev Bytes := List UInt8

/-- `JSON.stringify` of an entry, in UTF-8, and `parseSessionEntryLine` of what stands before a newline. -/
structure Codec where
  stringify : FileEntry → Bytes
  parseSessionEntryLine : Bytes → Option FileEntry

/-- The codec writes an entry as one line, and reads the line, and no part of it, back. -/
structure Codec.Reads (codec : Codec) (e : FileEntry) : Prop where
  back : codec.parseSessionEntryLine (codec.stringify e) = some e
  filled : codec.stringify e ≠ []
  line : (10 : UInt8) ∉ codec.stringify e
  torn : ∀ n, n < (codec.stringify e).length → codec.parseSessionEntryLine ((codec.stringify e).take n) = none

def newline : UInt8 := 10

def Codec.line (codec : Codec) (e : FileEntry) : Bytes := codec.stringify e ++ [newline]

/-- What comes before each newline, and what follows the last one. -/
def splitLines : Bytes → List Bytes × Bytes
  | [] => ([], [])
  | b :: rest =>
    if b = newline then ([] :: (splitLines rest).1, (splitLines rest).2)
    else
      match splitLines rest with
      | ([], pending) => ([], b :: pending)
      | (first :: lines, pending) => ((b :: first) :: lines, pending)

/-- `loadEntriesFromFile`: the entries, and the file once a last line without its newline has got one. -/
def loadEntriesFromFile (codec : Codec) (file : Bytes) : List FileEntry × Bytes :=
  let (lines, pending) := splitLines file
  let entries := (lines ++ [pending]).filterMap codec.parseSessionEntryLine
  match entries with
  | .session _ :: _ => (entries, if pending.isEmpty then file else file ++ [newline])
  | _ => ([], file)

/-! ## The manager -/

structure Manager where
  persist : Bool
  flushed : Bool
  header : Header
  entries : List Entry
  byId : Index
  labelsById : List (EntryId × JsString)
  labelTimestampsById : List (EntryId × Time)
  leafId : Option EntryId
  /-- The bytes of the session file, if there is one. -/
  file : Option Bytes

namespace Manager

variable (m : Manager)

def newSession (persist : Bool) (header : Header) : Manager :=
  { persist := persist, flushed := false, header := header, entries := [], byId := [], labelsById := []
    labelTimestampsById := [], leafId := none, file := none }

def fileEntries : List FileEntry := .session m.header :: m.entries.map .entry

/-- `if (label)`: an empty label is none. -/
def truthy : Option JsString → Option JsString
  | some label => if label.isEmpty then none else some label
  | none => none

def setLabel (targetId : EntryId) (label : Option JsString) (timestamp : Time) : Manager :=
  match truthy label with
  | some label =>
    { m with labelsById := Assoc.set m.labelsById targetId label
             labelTimestampsById := Assoc.set m.labelTimestampsById targetId timestamp }
  | none =>
    { m with labelsById := Assoc.del m.labelsById targetId
             labelTimestampsById := Assoc.del m.labelTimestampsById targetId }

def indexEntry (entry : Entry) : Manager :=
  let m := { m with byId := Assoc.set m.byId entry.id entry, leafId := some entry.id }
  match entry.body with
  | .label targetId label => m.setLabel targetId label entry.timestamp
  | _ => m

/-- `_buildIndex` -/
def buildIndex : Manager :=
  m.entries.foldl indexEntry { m with byId := [], labelsById := [], labelTimestampsById := [], leafId := none }

/-- `_hasConversation` -/
def hasConversation : Bool :=
  m.entries.any (fun e =>
    match e.body with
    | .message (.user ..) => true
    | .message (.assistant ..) => true
    | _ => false)

def fileText (codec : Codec) : Bytes := m.fileEntries.flatMap codec.line

/-- What a write to the file does: all of it, or it throws, before or after some bytes are written. -/
inductive Write where
  | succeeds
  | openFails
  | stopsAfter (written : ℕ)

/-- `_persist`, and whether it threw. -/
def persistEntry (codec : Codec) (entry : Entry) (write : Write) : Manager × Bool :=
  if !m.persist then (m, false)
  else if !m.flushed then
    if !m.hasConversation then (m, false)
    -- the flag "wx" refuses a file that exists
    else if m.file.isSome then (m, true)
    else
      match write with
      | .succeeds => ({ m with file := some (m.fileText codec), flushed := true }, false)
      | .openFails => (m, true)
      | .stopsAfter written => ({ m with file := some ((m.fileText codec).take written) }, true)
  else
    match write with
    | .succeeds => ({ m with file := some (m.file.getD [] ++ codec.line (.entry entry)) }, false)
    | .openFails => (m, true)
    | .stopsAfter written =>
      ({ m with file := some (m.file.getD [] ++ (codec.line (.entry entry)).take written) }, true)

/-- `_appendEntry`, and whether it threw. -/
def appendEntry (codec : Codec) (entry : Entry) (write : Write) : Manager × Bool :=
  persistEntry { m with entries := m.entries ++ [entry], byId := Assoc.set m.byId entry.id entry
                        leafId := some entry.id } codec entry write

def buildSessionProjection : SessionProjection :=
  Session.buildSessionProjection m.entries (.ofOption m.leafId) m.byId

def buildSessionContext : SessionContext := Session.buildSessionContext m.entries (.ofOption m.leafId) m.byId

/-! ## Appending -/

/-- `name.replace(/[\r\n]+/g, " ")` -/
def collapseLines : Bool → JsString → JsString
  | _, [] => []
  | inRun, c :: rest =>
    if c = 10 || c = 13 then (if inRun then [] else [32]) ++ collapseLines true rest else c :: collapseLines false rest

def trim (s : JsString) : JsString := ((s.dropWhile Ai.isWhitespace).reverse.dropWhile Ai.isWhitespace).reverse

/-- The `append*` operations, and `branchWithSummary`. -/
inductive AppendOp where
  | message (message : Message)
  | thinkingLevelChange (thinkingLevel : JsString)
  | modelChange (provider modelId : JsString)
  | usage (rest : JsonValue)
  | compaction (summary : JsString) (firstKeptEntryId : Option EntryId) (tokensBefore : ℤ) (rest : JsonValue)
  | customEntry (customType : JsString) (data : Option JsonValue)
  | sessionInfo (name : JsString)
  | customMessageEntry (customType : JsString) (content : Content) (display : Bool) (details : Option JsonValue)
  | contextEdit (targetId : EntryId) (replacement : Option Content)
  | labelChange (targetId : EntryId) (label : Option JsString)
  | branchWithSummary (branchFromId : Option EntryId) (summary : JsString) (rest : JsonValue)

/-- An entry whose content a context edit may replace. -/
def editable (target : Entry) : Bool :=
  match target.body with
  | .customMessage .. => true
  | .message (.user ..) => true
  | .message (.assistant ..) => true
  | .message (.toolResult ..) => true
  | _ => false

def normalizedReplacement (target : Entry) (replacement : Option Content) : Option Content :=
  match target.body with
  | .message (.assistant ..) => replacement.map asBlocks
  | .message (.toolResult ..) => replacement.map asBlocks
  | _ => replacement

def contextEditBody (targetId : EntryId) (replacement : Option Content) : Option EntryBody :=
  match get? m.byId targetId with
  | none => none
  | some target =>
    if (getBranch m.byId m.leafId).any (fun entry => entry.id = targetId) && editable target then
      some (.contextEdit targetId (normalizedReplacement target replacement))
    else none

/-- The body of the new entry, or `none` where the operation throws before it makes one. -/
def bodyOf (op : AppendOp) (id : EntryId) (timestamp : Time) : Option EntryBody :=
  match op with
  | .message message => some (.message message)
  | .thinkingLevelChange thinkingLevel => some (.thinkingLevelChange thinkingLevel)
  | .modelChange provider modelId => some (.modelChange provider modelId)
  | .usage rest => some (.usage rest)
  | .compaction summary firstKeptEntryId tokensBefore rest => some (.compaction
      { summary := summary, firstKeptEntryId := firstKeptEntryId.getD id, tokensBefore := tokensBefore
        systemMessage := (getCurrentSystemMessage m.buildSessionProjection.messages).map
          (fun message => { message with timestamp := timestamp })
        rest := rest })
  | .customEntry customType data => some (.custom customType data)
  | .sessionInfo name => some (.sessionInfo (trim (collapseLines false name)))
  | .customMessageEntry customType content display details => some (.customMessage customType content display details)
  | .contextEdit targetId replacement => m.contextEditBody targetId replacement
  | .labelChange targetId label => if has m.byId targetId then some (.label targetId label) else none
  | .branchWithSummary branchFromId summary rest =>
    if branchFromId.all (has m.byId) then some (.branchSummary (m.leafId.getD (js "root")) summary rest) else none

def parentOf (op : AppendOp) : Option EntryId :=
  match op with
  | .branchWithSummary branchFromId _ _ => branchFromId
  | _ => m.leafId

/-- What an operation does once its entry is in: labels are set after the write. -/
def afterAppend (entry : Entry) : Manager :=
  match entry.body with
  | .label targetId label => m.setLabel targetId label entry.timestamp
  | _ => m

inductive Outcome where
  /-- It throws before it changes anything. -/
  | refused
  /-- The write to the file throws. -/
  | threw (after : Manager)
  | done (after : Manager)

def append (codec : Codec) (op : AppendOp) (id : EntryId) (timestamp : Time) (write : Write) : Outcome :=
  match m.bodyOf op id timestamp with
  | none => .refused
  | some body =>
    let entry : Entry := { id := id, parentId := m.parentOf op, timestamp := timestamp, body := body }
    let (after, threw) := m.appendEntry codec entry write
    if threw then .threw after else .done (after.afterAppend entry)

/-! ## The leaf -/

def branch (branchFromId : EntryId) : Option Manager :=
  if has m.byId branchFromId then some { m with leafId := some branchFromId } else none

def resetLeaf : Manager := { m with leafId := none }

/-! ## Reopening -/

def entriesOf (fileEntries : List FileEntry) : List Entry :=
  fileEntries.filterMap (fun e =>
    match e with
    | .entry entry => some entry
    | .session _ => none)

/-- A new manager for the file of this one: `_setSessionFile`. `none` where it throws; `fresh` is the header of
a new session, for a file that is not there or is empty. -/
def reopen (codec : Codec) (fresh : Header) (file : Option Bytes) : Option Manager :=
  match file with
  | none => some (newSession true fresh)
  | some bytes =>
    match loadEntriesFromFile codec bytes with
    | (.session header :: rest, bytes) =>
      some (buildIndex { newSession true header with entries := entriesOf rest, flushed := true, file := some bytes })
    | _ =>
      if bytes.isEmpty then
        some { newSession true fresh with flushed := true, file := some (codec.line (.session fresh)) }
      else none

/-! ## Branched sessions -/

/-- What a compaction keeps from, once labels are gone. -/
def retarget (replacementByLabelId : List (EntryId × EntryId)) (entry : Entry) : EntryBody :=
  match entry.body with
  | .compaction c =>
    .compaction { c with
      firstKeptEntryId := if c.firstKeptEntryId = entry.id then entry.id
        else (get? replacementByLabelId c.firstKeptEntryId).getD c.firstKeptEntryId }
  | body => body

/-- The path without its labels, each entry a child of the one before. -/
def withoutLabels : Option EntryId → List EntryId → List (EntryId × EntryId) → List Entry → List Entry
  | _, _, _, [] => []
  | pathParentId, pendingLabelIds, replacementByLabelId, entry :: rest =>
    if entry.isLabel then withoutLabels pathParentId (pendingLabelIds ++ [entry.id]) replacementByLabelId rest
    else
      let replacementByLabelId :=
        pendingLabelIds.foldl (fun replaced labelId => Assoc.set replaced labelId entry.id) replacementByLabelId
      { entry with parentId := pathParentId, body := retarget replacementByLabelId entry } ::
        withoutLabels (some entry.id) [] replacementByLabelId rest

/-- The labels to write, one after the other. -/
def labelEntries : Option EntryId → List ((EntryId × JsString) × Time) → List EntryId → List Entry
  | parentId, ((targetId, label), timestamp) :: labels, id :: ids =>
    { id := id, parentId := parentId, timestamp := timestamp, body := .label targetId (some label) } ::
      labelEntries (some id) labels ids
  | _, _, _ => []

/-- `labelsToWrite` for the entries `ids` -/
def labelsToWrite (ids : List EntryId) : List ((EntryId × JsString) × Time) :=
  (m.labelsById.filter (fun label => label.1 ∈ ids)).map
    (fun label => (label, (get? m.labelTimestampsById label.1).getD 0))

/-- `createBranchedSession`; `labelIds` are the IDs generated for labels. `none` where it throws. -/
def createBranchedSession (codec : Codec) (leafId : EntryId) (header : Header) (labelIds : List EntryId) :
    Option Manager :=
  let path := getBranch m.byId (some leafId)
  if path.isEmpty then none
  else
    let pathWithoutLabels := withoutLabels none [] [] path
    let labels := labelEntries (pathWithoutLabels.getLast?.map Entry.id)
      (m.labelsToWrite (pathWithoutLabels.map Entry.id)) labelIds
    let branched := buildIndex { m with header := header, entries := pathWithoutLabels ++ labels }
    if !m.persist then some branched
    else if branched.hasConversation then some { branched with file := some (branched.fileText codec), flushed := true }
    else some { branched with file := none, flushed := false }

end Manager

end PiAgent.Session
