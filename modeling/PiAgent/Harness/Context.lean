import PiAgent.Harness.ToolResults
import PiAgent.Harness.View

/-!
# The context of a conversation

The model context of `context.ts`. It is derived from the entries within captured bounds,
or extended from what an earlier read of the conversation derived.
-/

namespace PiAgent.Harness

open Durable

/-! ## Entries -/

inductive ContextEdit where
  | omit (target : Id)
  | replace (target : Id) (messages : List Message)

def ContextEdit.target : ContextEdit → Id
  | .omit target => target
  | .replace target _ => target

/-- The fields that a context reads of an entry's body. -/
structure EntryFields where
  model : EntryRecord → Option (List Message)
  edits : EntryRecord → Option (List ContextEdit)

structure ContextView where
  head : Option EntryRecord
  entries : List EntryRecord
  contributions : List (List Message)
  messages : List Message

structure ContextRange where
  bounds : ContextBounds
  entries : List EntryRecord
  view : ContextView
  edited : List Id
  settled : List Message
  /-- `open` -/
  unsettled : List Message

def emptyView : ContextView where
  head := none
  entries := []
  contributions := []
  messages := []

/-! ## Bounds -/

inductive ContextError where
  /-- `Entry … is not visible from conversation …` -/
  | notVisible (at' : Id)
  | scan (error : ScanError)

/-- `storage.entry(conversationId, id)` -/
def visibleEntry (s : State) (conversationId id : Id) : Except ScanError (Option EntryRecord) :=
  (visibleEntries s conversationId (some id) (some id)).map List.head?

/-- `captureContextBounds`, of the current context or of the one cut off at an entry. -/
def captureContextBoundsAt (s : State) (id : Id) (at' : Option Id) : Except ContextError (Option ContextBounds) :=
  match at' with
  | none => (captureContextBounds s id).mapError .scan
  | some tail =>
    match visibleEntry s id tail with
    | .error e => .error (.scan e)
    | .ok none => .error (.notVisible tail)
    | .ok (some _) =>
      match findLatestHeadMarker s id (some tail) with
      | .error e => .error (.scan e)
      | .ok head => .ok (some ⟨head, tail⟩)

/-! ## Deriving -/

def EXCLUDED_STOP_REASONS : List Agent.StopReason := [.aborted, .error, .deferred]

/-- Whether a message is contributed: no assistant message with an excluded stop reason. -/
def included : Message → Bool
  | .assistant m => !EXCLUDED_STOP_REASONS.contains m.stopReason
  | _ => true

def contribute (F : EntryFields) (entry : EntryRecord) (edit : Option ContextEdit) : List Message :=
  match edit with
  | some (.omit _) => []
  | some (.replace _ messages) => messages.filter included
  | none => ((F.model entry).getD []).filter included

def editsOf (F : EntryFields) (entries : List EntryRecord) : List ContextEdit :=
  entries.flatMap (fun entry => (F.edits entry).getD [])

/-- What the map of edits holds for an entry: the newest one. -/
def editFor (edits : List ContextEdit) (id : Id) : Option ContextEdit :=
  edits.reverse.find? (fun edit => edit.target = id)

/-- `findLastIndex((message) => message.role === "assistant")` -/
def lastAssistantIndex : List Message → Option ℕ
  | [] => none
  | message :: rest =>
    match lastAssistantIndex rest with
    | some index => some (index + 1)
    | none => if message.isAssistant then some 0 else none

def settle (settled unsettled : List Message) : List Message × List Message :=
  match lastAssistantIndex unsettled with
  | none => (settled, unsettled)
  | some 0 => (settled, unsettled)
  | some (last + 1) => (settled ++ orderToolResults (unsettled.take (last + 1)), unsettled.drop (last + 1))

def isUser : Message → Bool
  | .user _ => true
  | _ => false

def leadWithSystem (messages : List Message) : List Message :=
  let index := messages.findIdx (fun message => !isUser message)
  if index = 0 then messages
  else
    match messages[index]? with
    | some (.system m) => .system m :: (messages.take index ++ messages.drop (index + 1))
    | _ => messages

def deriveRange (F : EntryFields) (bounds : ContextBounds) (entries : List EntryRecord) : ContextRange :=
  let edits := editsOf F entries
  let active := selectActive bounds.head entries
  let contributions := active.map (fun entry => contribute F entry (editFor edits entry.id))
  let (settled, unsettled) := settle [] contributions.flatten
  { bounds := bounds
    entries := entries
    view :=
      { head := bounds.head
        entries := active
        contributions := contributions
        messages := leadWithSystem (settled ++ orderToolResults unsettled) }
    edited := edits.map ContextEdit.target
    settled := settled
    unsettled := unsettled }

/-- Whether an added entry can change what was derived before, or is itself edited. -/
def derivesAgain (F : EntryFields) (edited : List Id) (entry : EntryRecord) : Bool :=
  (F.edits entry).isSome || entry.head.isSome || edited.contains entry.id

def extendRange (F : EntryFields) (previous : ContextRange) (bounds : ContextBounds) (added : List EntryRecord) :
    ContextRange :=
  let entries := previous.entries ++ added
  if added.any (derivesAgain F previous.edited) then deriveRange F bounds entries
  else
    let contributions := added.map (fun entry => contribute F entry none)
    let (settled, unsettled) := settle previous.settled (previous.unsettled ++ contributions.flatten)
    { bounds := bounds
      entries := entries
      view :=
        { head := bounds.head
          entries := previous.view.entries ++ added
          contributions := previous.view.contributions ++ contributions
          messages := leadWithSystem (settled ++ orderToolResults unsettled) }
      edited := previous.edited
      settled := settled
      unsettled := unsettled }

/-! ## Reading -/

/-- `scanRange` of one conversation: the visible entries of a query, oldest first. -/
abbrev ScanRange := EntryQuery → List EntryRecord

/-- The entries after the tail of an earlier range. -/
def addedQuery (id : Id) (previous bounds : ContextBounds) : EntryQuery where
  conversationId := id
  order := none
  minEntryId := some (previous.tail + 1)
  maxEntryId := some bounds.tail

/-- The range of a read, from one that an earlier read gave. -/
def rangeFrom (F : EntryFields) (scanRange : ScanRange) (id : Id) (bounds : ContextBounds)
    (previous : Option ContextRange) : ContextRange :=
  match previous with
  | none => deriveRange F bounds (scanRange (rangeQuery id bounds))
  | some previous =>
    if previous.bounds.head.map EntryRecord.id ≠ bounds.head.map EntryRecord.id then
      deriveRange F bounds (scanRange (rangeQuery id bounds))
    else if bounds.tail = previous.bounds.tail then previous
    else if bounds.tail < previous.bounds.tail then
      deriveRange F bounds (previous.entries.filter (fun entry => entry.id ≤ bounds.tail))
    else extendRange F previous bounds (scanRange (addedQuery id previous.bounds bounds))

/-- `readContextFrom`: the bounds are captured in a state, and the entries are scanned off the line. -/
def readContextFrom (F : EntryFields) (scanRange : ScanRange) (s : State) (id : Id) (at' : Option Id)
    (previous : Option ContextRange) : Except ContextError (ContextView × Option ContextRange) :=
  (captureContextBoundsAt s id at').map fun
    | none => (emptyView, none)
    | some bounds =>
      let range := rangeFrom F scanRange id bounds previous
      (range.view, some range)

def deriveContext (F : EntryFields) (scanRange : ScanRange) (id : Id) (bounds : Option ContextBounds) : ContextView :=
  match bounds with
  | none => emptyView
  | some bounds => (deriveRange F bounds (scanRange (rangeQuery id bounds))).view

end PiAgent.Harness
