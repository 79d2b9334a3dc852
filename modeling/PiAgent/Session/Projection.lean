import PiAgent.Session.Transcript

/-!
# Session entries and their projection

The tree of a session, and the context of one of its leaves: `buildSessionPath`,
`buildContextEntries`, and `buildSessionProjection` of `session-manager.ts`.
-/

namespace PiAgent.Session

/-! ## Entries -/

abbrev EntryId := JsString

/-- `CompactionEntry`; `rest` holds its details and usage. -/
structure Compaction where
  summary : JsString
  firstKeptEntryId : EntryId
  tokensBefore : ℤ
  systemMessage : Option SystemMessage
  rest : JsonValue

/-- What an entry of each type holds besides its place in the tree. -/
inductive EntryBody where
  | message (message : Message)
  | thinkingLevelChange (thinkingLevel : JsString)
  | modelChange (provider modelId : JsString)
  | usage (rest : JsonValue)
  | compaction (compaction : Compaction)
  | branchSummary (fromId summary : JsString) (rest : JsonValue)
  | custom (customType : JsString) (data : Option JsonValue)
  | customMessage (customType : JsString) (content : Content) (display : Bool) (details : Option JsonValue)
  | contextEdit (targetId : EntryId) (replacement : Option Content)
  | label (targetId : EntryId) (label : Option JsString)
  | sessionInfo (name : JsString)

structure Entry where
  id : EntryId
  parentId : Option EntryId
  timestamp : Time
  body : EntryBody

namespace Entry

def compaction? (e : Entry) : Option Compaction :=
  match e.body with
  | .compaction c => some c
  | _ => none

def isCompaction (e : Entry) : Bool := e.compaction?.isSome

def isLabel (e : Entry) : Bool :=
  match e.body with
  | .label .. => true
  | _ => false

/-- `entry.type === "message" && entry.message.role === "system"` -/
def isSystem (e : Entry) : Bool :=
  match e.body with
  | .message m => m.isSystem
  | _ => false

end Entry

/-! ## Paths -/

abbrev Index := List (EntryId × Entry)

def buildEntryIndex (entries : List Entry) : Index :=
  entries.foldl (fun index entry => Assoc.set index entry.id entry) []

/-- From an entry to the root, at most `fuel` of them. -/
def ancestors (index : Index) : ℕ → Option Entry → List Entry
  | 0, _ => []
  | _, none => []
  | fuel + 1, some entry => entry :: ancestors index fuel (entry.parentId.bind (Assoc.get? index))

/-- The walk of `getBranch`. Parents come before their children, so no path is longer than the index. -/
def getBranch (index : Index) (startId : Option EntryId) : List Entry :=
  (ancestors index index.length (startId.bind (Assoc.get? index))).reverse

/-- The `leafId` of `buildSessionPath`: left out, `null`, or an ID. -/
inductive Leaf where
  | omitted
  | root
  | at (leafId : EntryId)

def Leaf.ofOption : Option EntryId → Leaf
  | none => .root
  | some leafId => .at leafId

def buildSessionPath (entries : List Entry) (leaf : Leaf) (index : Index) : List Entry :=
  match leaf with
  | .root => []
  | .omitted => (ancestors index index.length entries.getLast?).reverse
  | .at leafId => (ancestors index index.length ((Assoc.get? index leafId).or entries.getLast?)).reverse

/-! ## Settings -/

structure ModelRef where
  provider : JsString
  modelId : JsString

structure Settings where
  thinkingLevel : JsString
  model : Option ModelRef

def applySettings (settings : Settings) (entry : Entry) : Settings :=
  match entry.body with
  | .thinkingLevelChange thinkingLevel => { settings with thinkingLevel := thinkingLevel }
  | .modelChange provider modelId => { settings with model := some ⟨provider, modelId⟩ }
  | .message (.assistant _ provider model _) => { settings with model := some ⟨provider, model⟩ }
  | _ => settings

def getSessionContextSettings (path : List Entry) : Settings := path.foldl applySettings ⟨js "off", none⟩

/-! ## Context -/

def sessionEntryToContextMessages (entry : Entry) : List Message :=
  match entry.body with
  | .message (.system m) => [.system { m with content := some (m.content.getD (.text [])) }]
  | .message (.user content timestamp) => [.user (some (content.getD (.blocks []))) timestamp]
  | .message (.assistant content provider model rest) =>
    [.assistant (some (content.getD (.blocks []))) provider model rest]
  | .message (.toolResult content toolCallId rest) => [.toolResult (some (content.getD (.blocks []))) toolCallId rest]
  | .message m => [m]
  | .customMessage customType content display details => [.custom customType content display details entry.timestamp]
  | .branchSummary fromId summary _ => if summary.isEmpty then [] else [.branchSummary summary fromId entry.timestamp]
  | .compaction c =>
    (c.systemMessage.map Message.system).toList ++ [.compactionSummary c.summary c.tokensBefore entry.timestamp]
  | _ => []

def latestCompaction (path : List Entry) : Option (Entry × Compaction) :=
  path.foldl (fun latest entry =>
    match entry.compaction? with
    | some c => some (entry, c)
    | none => latest) none

/-- The loop with `foundFirstKept`. -/
def keptEntries (firstKeptEntryId : EntryId) (before : List Entry) : List Entry :=
  (before.dropWhile (fun entry => entry.id ≠ firstKeptEntryId)).filter (fun entry => !entry.isSystem)

def contextOfPath (path : List Entry) : List Entry :=
  match latestCompaction path with
  | none => path
  | some (entry, c) =>
    let compactionIdx := path.findIdx (fun other => other.id = entry.id)
    entry :: keptEntries c.firstKeptEntryId (path.take compactionIdx) ++ path.drop (compactionIdx + 1)

/-- A string takes the place of the content as a block, where content has to be blocks. -/
def asBlocks : Content → Content
  | .text text => .blocks [.text text (.obj [])]
  | content => content

def replaceContent (replacement : Content) : Message → Message
  | .user _ timestamp => .user (some replacement) timestamp
  | .assistant _ provider model rest => .assistant (some (asBlocks replacement)) provider model rest
  | .toolResult _ toolCallId rest => .toolResult (some (asBlocks replacement)) toolCallId rest
  | .custom customType _ display details timestamp => .custom customType replacement display details timestamp
  | message => message

/-- `edit` is the replacement of the edit, if there is one. -/
def projectContextEntry (entry : Entry) (edit : Option (Option Content)) : List Message :=
  match edit with
  | none => sessionEntryToContextMessages entry
  | some none => []
  | some (some replacement) => (sessionEntryToContextMessages entry).map (replaceContent replacement)

structure ProjectedSessionEntry where
  sourceEntry : Entry
  messages : List Message

def addEdit (edits : List (EntryId × Option Content)) (entry : Entry) : List (EntryId × Option Content) :=
  match entry.body with
  | .contextEdit targetId replacement => Assoc.set edits targetId replacement
  | _ => edits

def editsOf (contextEntries : List Entry) : List (EntryId × Option Content) := contextEntries.foldl addEdit []

/-- Only the newest compaction, at index zero, contributes a checkpoint and a summary. -/
def projectEntry (edits : List (EntryId × Option Content)) (index : ℕ) (entry : Entry) : ProjectedSessionEntry :=
  { sourceEntry := entry
    messages :=
      if entry.isCompaction && 0 < index then [] else projectContextEntry entry (Assoc.get? edits entry.id) }

structure SessionProjection where
  entries : List ProjectedSessionEntry
  messages : List Message
  thinkingLevel : JsString
  model : Option ModelRef

def projectPath (path : List Entry) : SessionProjection :=
  let contextEntries := contextOfPath path
  let projectedEntries := contextEntries.mapIdx (projectEntry (editsOf contextEntries))
  { entries := projectedEntries
    messages := projectedEntries.flatMap ProjectedSessionEntry.messages
    thinkingLevel := (getSessionContextSettings path).thinkingLevel
    model := (getSessionContextSettings path).model }

def buildSessionProjection (entries : List Entry) (leaf : Leaf) (index : Index) : SessionProjection :=
  projectPath (buildSessionPath entries leaf index)

structure SessionContext where
  messages : List Message
  thinkingLevel : JsString
  model : Option ModelRef

def contextOf (path : List Entry) : SessionContext :=
  ⟨(projectPath path).messages, (projectPath path).thinkingLevel, (projectPath path).model⟩

def buildSessionContext (entries : List Entry) (leaf : Leaf) (index : Index) : SessionContext :=
  contextOf (buildSessionPath entries leaf index)

end PiAgent.Session
