import PiAgent.Durable.Memory

/-!
# Reading the entries of a forked conversation

`findLatestHeadMarker` and `scanEntries` of `MemoryStorage`. A conversation sees its own
entries, and those of its ancestors up to the fork points on the way. A loop up the
ancestors takes at most one turn for each conversation of the store.
-/

namespace PiAgent.Durable

open Sorted

/-! ## Bounds -/

/-- `id <= maxEntryId`, where an absent bound is positive infinity. -/
def atMost (upper : Option Id) (id : Id) : Bool := upper.all (fun bound => id ≤ bound)

/-- `id >= minEntryId`, where an absent bound is negative infinity. -/
def atLeast (lower : Option Id) (id : Id) : Bool := lower.all (fun bound => bound ≤ id)

/-- `Math.min(upperEntryId, at)` -/
def narrow (upper : Option Id) (at' : Id) : Id :=
  match upper with
  | none => at'
  | some bound => min bound at'

/-- `upperBound(ids, upperEntryId)` -/
def upperBoundOf (ids : List Id) (upper : Option Id) : ℕ := bisect (atMost upper) ids ids.length 0 ids.length

/-- `lowerBound(ids, minEntryId)` -/
def lowerBoundOf (ids : List Id) (lower : Option Id) : ℕ :=
  bisect (fun id => !atLeast lower id) ids ids.length 0 ids.length

/-! ## Up the ancestors -/

def State.parent (s : State) (id : Id) : Option Parent := (s.conversations id).bind (fun record => record.parent)

/-- The entries of one conversation, newest first. -/
def descendingSegment (s : State) (lower upper : Option Id) (id : Id) : List EntryRecord :=
  (((s.entryIds id).take (upperBoundOf (s.entryIds id) upper)).reverse.takeWhile (atLeast lower)).filterMap s.entries

/-- The entries of one conversation, oldest first. -/
def ascendingSegment (s : State) (lower upper : Option Id) (id : Id) : List EntryRecord :=
  (((s.entryIds id).drop (lowerBoundOf (s.entryIds id) lower)).takeWhile (atMost upper)).filterMap s.entries

/-- The loop of `visibleEntries`. -/
def visibleFrom (s : State) (lower : Option Id) : ℕ → Id → Option Id → List EntryRecord
  | 0, _, _ => []
  | fuel + 1, currentId, upper =>
    descendingSegment s lower upper currentId ++
      match s.parent currentId with
      | none => []
      | some parent =>
        if atLeast lower (narrow upper parent.atEntry) = false then []
        else visibleFrom s lower fuel parent.conversationId (some (narrow upper parent.atEntry))

/-- The loop of `visibleEntriesAscending` that collects the segments. -/
def segmentsFrom (s : State) (lower : Option Id) : ℕ → Id → Option Id → List (Id × Option Id)
  | 0, _, _ => []
  | fuel + 1, currentId, upper =>
    (currentId, upper) ::
      match s.parent currentId with
      | none => []
      | some parent =>
        if atLeast lower (narrow upper parent.atEntry) = false then []
        else segmentsFrom s lower fuel parent.conversationId (some (narrow upper parent.atEntry))

inductive ScanError where
  /-- `Unknown conversation: …` -/
  | unknownConversation (id : Id)
  /-- `The cursor continues a … scan; the query asks for …` -/
  | order
deriving DecidableEq

def visibleEntries (s : State) (conversationId : Id) (lower upper : Option Id) :
    Except ScanError (List EntryRecord) :=
  if (s.conversations conversationId).isNone then .error (.unknownConversation conversationId)
  else .ok (visibleFrom s lower s.conversationIds.length conversationId upper)

def visibleEntriesAscending (s : State) (conversationId : Id) (lower upper : Option Id) :
    Except ScanError (List EntryRecord) :=
  if (s.conversations conversationId).isNone then .error (.unknownConversation conversationId)
  else
    .ok ((segmentsFrom s lower s.conversationIds.length conversationId upper).reverse.flatMap
      (fun segment => ascendingSegment s lower segment.2 segment.1))

/-- The loop of `findLatestHeadMarker`. -/
def headFrom (s : State) : ℕ → Id → Option Id → Option EntryRecord
  | 0, _, _ => none
  | fuel + 1, currentId, upper =>
    let ids := s.headEntryIds currentId
    if 0 < upperBoundOf ids upper then (ids[upperBoundOf ids upper - 1]?).bind s.entries
    else
      match s.parent currentId with
      | none => none
      | some parent => headFrom s fuel parent.conversationId (some (narrow upper parent.atEntry))

def findLatestHeadMarker (s : State) (conversationId : Id) (atOrBefore : Option Id) :
    Except ScanError (Option EntryRecord) :=
  if (s.conversations conversationId).isNone then .error (.unknownConversation conversationId)
  else .ok (headFrom s s.conversationIds.length conversationId atOrBefore)

/-! ## Pages -/

inductive ScanOrder where
  | ascending
  | descending
deriving DecidableEq

/-- The last ID a page returned, and the order of the scan. -/
structure Cursor where
  after : Id
  order : Option ScanOrder
deriving DecidableEq

def scanStart (requested : Option ScanOrder) (cursor : Option Cursor) (fallback : ScanOrder) :
    Except ScanError (ScanOrder × Option Id) :=
  match cursor with
  | none => .ok (requested.getD fallback, none)
  | some cursor =>
    let order := cursor.order.getD fallback
    if requested.any (fun requested => requested ≠ order) then .error .order else .ok (order, some cursor.after)

structure Page (α : Type) where
  items : List α
  next : Option Cursor

/-- `page`: at most `limit` values, and a cursor when there are more. -/
def page (values : List EntryRecord) (limit : ℕ) (order : ScanOrder) : Page EntryRecord where
  items := values.take limit
  next :=
    if values.length ≤ limit then none
    else (values.take limit).getLast?.map (fun last => { after := last.id, order := some order })

structure EntryQuery where
  conversationId : Id
  order : Option ScanOrder
  minEntryId : Option Id
  maxEntryId : Option Id

/-- The cursor narrows the bound on the side the scan moves away from. -/
def scanEntries (s : State) (query : EntryQuery) (limit : ℕ) (cursor : Option Cursor) :
    Except ScanError (Page EntryRecord) :=
  match scanStart query.order cursor .descending with
  | .error e => .error e
  | .ok (order, after) =>
    let entries :=
      match order with
      | .descending =>
        let maxEntryId :=
          match after with
          | none => query.maxEntryId
          | some after => some (min (query.maxEntryId.getD after) (after - 1))
        visibleEntries s query.conversationId query.minEntryId maxEntryId
      | .ascending =>
        let minEntryId :=
          match after with
          | none => query.minEntryId
          | some after => some (max (query.minEntryId.getD after) (after + 1))
        visibleEntriesAscending s query.conversationId minEntryId query.maxEntryId
    match entries with
    | .error e => .error e
    | .ok entries => .ok (page (entries.take (limit + 1)) limit order)

/-- All pages of a scan, each from the `next` of the one before; `none` when the fuel does not suffice. -/
def scanPages (s : State) (query : EntryQuery) (limit : ℕ) : ℕ → Option Cursor →
    Option (Except ScanError (List EntryRecord))
  | 0, _ => none
  | fuel + 1, cursor =>
    match scanEntries s query limit cursor with
    | .error e => some (.error e)
    | .ok page =>
      match page.next with
      | none => some (.ok page.items)
      | some next => (scanPages s query limit fuel (some next)).map (fun rest => rest.map (page.items ++ ·))

end PiAgent.Durable
