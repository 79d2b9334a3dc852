import PiAgent.Durable.Records
import PiAgent.Lib.Forest

/-!
# The ownership tree and its index

Tasks and conversations form one tree: a task hangs from its owner task, or from its
conversation; a conversation hangs from its owner task, if any. The scheduler keeps
the part of that tree that lies above live work. The definitions follow
`scheduler.ts`. A walk takes a number of steps it may not exceed; it never needs more
than there are records.
-/

namespace PiAgent.Harness

open Durable

/-! ## Sets and maps -/

/-- `Set.add` -/
def add {α : Type} [DecidableEq α] (l : List α) (a : α) : List α := if a ∈ l then l else l ++ [a]

/-- `Set.delete` -/
def discard {α : Type} [DecidableEq α] (l : List α) (a : α) : List α := l.filter (fun b => b ≠ a)

/-- A map of sets. The empty set stands for no entry: `deleteFrom` leaves none. -/
def addTo {κ α : Type} [DecidableEq κ] [DecidableEq α] (map : κ → List α) (key : κ) (a : α) : κ → List α :=
  Function.update map key (add (map key) a)

def deleteFrom {κ α : Type} [DecidableEq κ] [DecidableEq α] (map : κ → List α) (key : κ) (a : α) : κ → List α :=
  Function.update map key (discard (map key) a)

/-! ## The tree -/

inductive Node where
  | task (id : Id)
  | conversation (id : Id)
deriving DecidableEq

/-- The immutable ownership fields of a task. -/
structure TaskNode where
  conversationId : Id
  owner : Option Id
  background : Bool
deriving DecidableEq

/-- `parentOf` and `parentNode`: the node a task hangs from, its owner task or its conversation. -/
def TaskNode.parent (node : TaskNode) : Node :=
  match node.owner with
  | some owner => .task owner
  | none => .conversation node.conversationId

def nodeOf (record : TaskRecord) : TaskNode :=
  { conversationId := record.conversationId, owner := record.owner, background := record.background }

def parentOf (record : TaskRecord) : Node := (nodeOf record).parent

/-- `record.state.status === "terminal"` -/
def isTerminal (record : TaskRecord) : Bool := record.state.status == .terminal

/-- `record.owner?.taskId ?? null` -/
def ownerTask (record : ConversationRecord) : Option Id := record.owner.map Owner.taskId

/-- What storage holds of conversations and tasks: no more than `count` records. -/
structure Store where
  conversations : Id → Option ConversationRecord
  tasks : Id → Option TaskRecord
  taskIds : List Id
  count : ℕ

def Store.empty : Store := { conversations := fun _ => none, tasks := fun _ => none, taskIds := [], count := 0 }

/-- The parent of a stored node; `some none` is a conversation without an owner. -/
def Store.up (store : Store) : Node → Option (Option Node)
  | .task id => (store.tasks id).map (fun record => some (parentOf record))
  | .conversation id => (store.conversations id).map (fun record => (ownerTask record).map Node.task)

def Store.has (store : Store) (node : Node) : Bool := (store.up node).isSome

def liveStatuses : List TaskStatus := [.pending, .running, .waiting, .completing]

/-- What the scans of the live statuses give. -/
def Store.liveTasks (store : Store) : List TaskRecord :=
  liveStatuses.flatMap (fun status =>
    store.taskIds.filterMap (fun id => (store.tasks id).filter (fun record => record.state.status = status)))

/-! ## The index -/

structure Ownership where
  /-- Every committed task that is not terminal. -/
  live : Id → Option TaskRecord
  /-- Owner task of each known conversation, `none` when ownerless. -/
  edges : Id → Option (Option Id)
  /-- Ownership fields of the known terminal tasks, which walks pass through. -/
  settled : Id → Option TaskNode
  /-- Ended tasks and conversations found unneeded. -/
  dropQueue : List Node
  /-- The tree downward around live work. -/
  below : Node → List Node
  /-- The ownerless conversations with work. -/
  roots : List Id
  /-- Known tasks whose chain may not be loaded. -/
  unloaded : List Id
  sweepScheduled : Bool

def Ownership.empty : Ownership :=
  { live := fun _ => none, edges := fun _ => none, settled := fun _ => none, dropQueue := [], below := fun _ => [],
    roots := [], unloaded := [], sweepScheduled := false }

namespace Ownership

variable (x : Ownership)

def isLive : Node → Bool
  | .task id => (x.live id).isSome
  | .conversation _ => false

/-- A live task, or a node with something listed below it. -/
def needed (node : Node) : Bool := x.isLive node || !(x.below node).isEmpty

/-- `#live.get(id) ?? #settled.get(id)` -/
def node (id : Id) : Option TaskNode := ((x.live id).map nodeOf).or (x.settled id)

/-- The known parent of a node: `none` while it is not known, `some none` for a root. -/
def up : Node → Option (Option Node)
  | .task id => (x.node id).map (fun node => some node.parent)
  | .conversation id => (x.edges id).map (Option.map Node.task)

/-- Queue an ended task or a conversation for the sweep when nothing is listed below it. -/
def dropIfUnneeded (node : Node) : Ownership :=
  if x.needed node then x else { x with dropQueue := add x.dropQueue node, sweepScheduled := true }

def link (parent node : Node) : Ownership := { x with below := addTo x.below parent node }

def unlink (parent node : Node) : Ownership := { x with below := deleteFrom x.below parent node }

/-- An ownerless conversation is a root while it is needed. -/
def reroot (root : Id) : Ownership :=
  { x with roots := if x.needed (.conversation root) then add x.roots root else discard x.roots root }

/-- List a node under its parent while it is needed, and unlist it otherwise; then its parent, as far
up as that changes. -/
def relist : ℕ → Ownership → Node → Ownership
  | 0, x, _ => x
  | fuel + 1, x, node =>
    match x.up node with
    | none => x
    | some none =>
      match node with
      | .conversation root => x.reroot root
      | .task _ => x
    | some (some parent) =>
      if decide (node ∈ x.below parent) = x.needed node then x
      else if x.needed node then
        if (x.below parent).isEmpty then relist fuel (x.link parent node) parent else x.link parent node
      else
        let next := x.unlink parent node
        if (next.below parent).isEmpty then relist fuel (next.dropIfUnneeded parent) parent else next

def setEdge (count : ℕ) (conversationId : Id) (owner : Option Id) : Ownership :=
  let x := { x with edges := Function.update x.edges conversationId (some owner) }
  (x.relist count (.conversation conversationId)).dropIfUnneeded (.conversation conversationId)

/-- Know a terminal task a chain load read; its own chain is not loaded yet. -/
def settle (count : ℕ) (id : Id) (node : TaskNode) : Ownership :=
  let x := { x with settled := Function.update x.settled id (some node), unloaded := add x.unloaded id }
  (x.relist count (.task id)).dropIfUnneeded (.task id)

/-- Drop one queued node, unless something is listed below it or it is live. -/
def sweepNode (node : Node) : Ownership :=
  if (x.below node).isEmpty then
    match node with
    | .conversation id => { x with edges := Function.update x.edges id none, roots := discard x.roots id }
    | .task id =>
      if (x.live id).isSome then x
      else { x with settled := Function.update x.settled id none, unloaded := discard x.unloaded id }
  else x

def sweep : Ownership := { x.dropQueue.foldl sweepNode x with dropQueue := [] }

/-- The queued job of its own: it clears the flag first. -/
def sweepJob : Ownership := { x with sweepScheduled := false }.sweep

def knownTask (id : Id) : Bool := (x.node id).isSome && !decide (id ∈ x.unloaded)

/-- Whether the chain above `node` is loaded, without walking. -/
def known : Node → Bool
  | .task id => x.knownTask id
  | .conversation id =>
    match x.edges id with
    | none => false
    | some none => true
    | some (some owner) => x.knownTask owner

/-! ## Tracking a committed record -/

/-- A task that ended is known by its ownership fields only. -/
def retire (record : TaskRecord) : Ownership :=
  { x with live := Function.update x.live record.id none
           settled := Function.update x.settled record.id (some (nodeOf record)) }

/-- What `#track` does to the index. -/
def track (count : ℕ) (record : TaskRecord) : Ownership :=
  if isTerminal record then
    ((x.retire record).relist count (.task record.id)).dropIfUnneeded (.task record.id)
  else
    let next := { x with live := Function.update x.live record.id (some record) }
    match x.live record.id with
    | some _ => next
    | none =>
      let next := if next.known (parentOf record) then next
        else { next with unloaded := add next.unloaded record.id }
      next.relist count (.task record.id)

/-- What a commit publishes about conversations and tasks. -/
inductive Change where
  | conversation (value : ConversationRecord)
  | task (value : TaskRecord)

def trackEdge (count : ℕ) : Change → Ownership
  | .conversation value => if (x.edges value.id).isSome then x else x.setEdge count value.id (ownerTask value)
  | .task _ => x

def trackTask (count : ℕ) : Change → Ownership
  | .conversation _ => x
  | .task value => x.track count value

/-- What `#observe` does to the index: edges first, then the tasks, then the sweep. -/
def observe (count : ℕ) (changes : List Change) : Ownership :=
  (changes.foldl (fun x change => x.trackTask count change)
    (changes.foldl (fun x change => x.trackEdge count change) x)).sweep

end Ownership

/-! ## The candidates of a commit -/

/-- Candidate records a commit staged; they override committed records in ownership walks. -/
structure Overlay where
  tasks : List (Id × TaskRecord)
  edges : List (Id × Option Id)

def Overlay.empty : Overlay := { tasks := [], edges := [] }

namespace Ownership

variable (x : Ownership)

/-- Owner task of a conversation; `none` while not loaded. -/
def edge (overlay : Overlay) (id : Id) : Option (Option Id) := (Assoc.get? overlay.edges id).or (x.edges id)

/-- The candidate of a task, or its live record. -/
def record (overlay : Overlay) (id : Id) : Option TaskRecord := (Assoc.get? overlay.tasks id).or (x.live id)

/-- `#node` -/
def nodeIn (overlay : Overlay) (id : Id) : Option TaskNode := ((x.record overlay id).map nodeOf).or (x.settled id)

/-! ## Loading chains -/

/-- Load the owner edges and task nodes from `start` up to its ownerless root. A known task outside
`unloaded` ends the walk, as its chain is loaded. The second part tells whether anything was loaded. -/
def loadChainFrom (store : Store) (overlay : Overlay) :
    ℕ → Ownership → Bool → Option Node → List Id → Ownership × Bool
  | 0, x, loaded, _, _ => (x, loaded)
  | _ + 1, x, loaded, none, passed => ({ x with unloaded := x.unloaded.filter (fun id => id ∉ passed) }, loaded)
  | fuel + 1, x, loaded, some (.task id), passed =>
    match x.node id with
    | some node =>
      if id ∈ x.unloaded then loadChainFrom store overlay fuel x loaded (some node.parent) (passed ++ [id])
      else ({ x with unloaded := x.unloaded.filter (fun id => id ∉ passed) }, loaded)
    | none =>
      -- created in this commit: the load from its own record covers what is above it
      if Assoc.has overlay.tasks id then ({ x with unloaded := x.unloaded.filter (fun id => id ∉ passed) }, loaded)
      else
        match store.tasks id with
        | none => (x, loaded)
        | some record =>
          let next := if isTerminal record then x.settle store.count id (nodeOf record) else x
          loadChainFrom store overlay fuel next true (some (parentOf record)) (passed ++ [id])
  | fuel + 1, x, loaded, some (.conversation id), passed =>
    match x.edge overlay id with
    | some owner => loadChainFrom store overlay fuel x loaded (owner.map Node.task) passed
    | none =>
      let owner := (store.conversations id).bind ownerTask
      loadChainFrom store overlay fuel (x.setEdge store.count id owner) true (owner.map Node.task) passed

def loadChain (store : Store) (overlay : Overlay) (start : Node) : Ownership × Bool :=
  loadChainFrom store overlay (store.count + overlay.tasks.length + overlay.edges.length + 1) x false (some start) []

/-- Load the chains of the tasks in `unloaded`; an earlier load may have passed one. -/
def loadUnloaded (store : Store) : Ownership × Bool :=
  x.unloaded.foldl (fun s id =>
    if id ∈ s.1.unloaded then
      let next := s.1.loadChain store Overlay.empty (.task id)
      (next.1, s.2 || next.2)
    else s) (x, false)

def loadChains (store : Store) (overlay : Overlay) (starts : List Node) : Ownership × Bool :=
  starts.foldl (fun s start =>
    let next := s.1.loadChain store overlay start
    (next.1, s.2 || next.2)) (x, false)

/-! ## Walks up -/

/-- The nearest live task above ended ordinary work, in the overlay's view. Work at or below a
background task holds nothing above it. -/
def nearestLiveAbove (overlay : Overlay) : ℕ → TaskNode → Option TaskRecord
  | 0, _ => none
  | fuel + 1, current =>
    if current.background then none
    else
      match current.owner.or (x.edge overlay current.conversationId).join with
      | none => none
      | some owner =>
        match x.record overlay owner with
        | some record =>
          if isTerminal record then nearestLiveAbove overlay fuel (nodeOf record) else some record
        | none =>
          match x.settled owner with
          | none => none
          | some above => nearestLiveAbove overlay fuel above

/-- One step of a walk up: an owner task, a conversation, or an edge that is not loaded yet. -/
inductive Step where
  | task (id : Id) (node : TaskNode)
  | conversation (id : Id)
  | unknown

/-- Walk up from `start`, ending at an ownerless root or an edge not loaded yet. -/
def above : ℕ → Node → List Step
  | 0, _ => []
  | fuel + 1, .task id =>
    match x.node id with
    | none => [.unknown]
    | some node => .task id node :: above fuel node.parent
  | fuel + 1, .conversation id =>
    .conversation id ::
      match x.edges id with
      | none => [.unknown]
      | some none => []
      | some (some owner) => above fuel (.task owner)

/-- Where ordinary traversal starts: one conversation, or every ownerless conversation. -/
inductive Scope where
  | conversation (id : Id)
  | roots
deriving DecidableEq

/-- The loop of `#inScope` over the steps of a walk up. -/
def inScopeOf (scope : Scope) (crossBackground : Bool) : List Step → Option Bool
  | [] => some (decide (scope = .roots))
  | .unknown :: _ => none
  | .conversation id :: steps =>
    if scope = .conversation id then some true else inScopeOf scope crossBackground steps
  | .task _ node :: steps =>
    if node.background && !crossBackground then some false else inScopeOf scope crossBackground steps

/-- Whether ordinary traversal from `scope` reaches `start`; `none` while an edge is not loaded. -/
def inScope (count : ℕ) (start : Node) (scope : Scope) (crossBackground : Bool) : Option Bool :=
  inScopeOf scope crossBackground (x.above (count + 1) start)

/-! ## Walks down -/

/-- One new task's links, up to a node that is listed already. -/
def linkUp (overlay : Overlay) : ℕ → (Node → List Node) → Node → Option Node → Node → List Node
  | 0, links, _, _ => links
  | _ + 1, links, _, none => links
  | fuel + 1, links, child, some parent =>
    if child ∈ links parent then links
    else
      let next := addTo links parent child
      match parent with
      | .task id =>
        if (x.live id).isSome || Assoc.has overlay.tasks id then next
        else
          match (x.settled id).map TaskNode.parent with
          | none => next
          | some above => if parent ∈ x.below above then next else linkUp overlay fuel next parent (some above)
      | .conversation id =>
        match (x.edge overlay id).join with
        | none => next
        | some owner =>
          if parent ∈ x.below (.task owner) then next else linkUp overlay fuel next parent (some (.task owner))

/-- The links walks down need for the commit's new tasks. -/
def links (count : ℕ) (overlay : Overlay) : Node → List Node :=
  overlay.tasks.foldl
    (fun links task =>
      if (x.live task.1).isSome || (x.settled task.1).isSome then links
      else x.linkUp overlay count links (.task task.1) (some (parentOf task.2)))
    (fun _ => [])

/-- A task a walk down reaches, with its record when it is live. -/
structure Reached where
  id : Id
  node : TaskNode
  live : Option TaskRecord

def reached (overlay : Overlay) : Node → Option Reached
  | .conversation _ => none
  | .task id =>
    (x.nodeIn overlay id).map (fun node =>
      { id := id, node := node, live := (x.record overlay id).filter (fun record => !isTerminal record) })

/-- Background tasks are reached but not entered, and neither are the tasks `enter` rejects. -/
def enters (overlay : Overlay) (crossBackground : Bool) (enter : Id → Bool) : Node → Bool
  | .conversation _ => true
  | .task id => (x.nodeIn overlay id).any (fun node => (crossBackground || !node.background) && enter id)

/-- The tasks below `start` that a walk down reaches. -/
def walkDown (count : ℕ) (overlay : Overlay) (crossBackground : Bool) (enter : Id → Bool) (start : Node) :
    List Reached :=
  let links := x.links count overlay
  (Forest.walk (fun node => x.below node ++ links node) (x.enters overlay crossBackground enter) count
    [start]).filterMap (x.reached overlay)

/-- The live ordinary owned work of `owner`; the walk does not enter tasks in `done`. -/
def ownedLive (count : ℕ) (overlay : Overlay) (done : List Id) (owner : Id) : List Id :=
  (x.walkDown count overlay false (fun id => id ∉ done) (.task owner)).filterMap (fun reached =>
    if reached.live.isNone || reached.node.background then none else some reached.id)

def hasOwnedLive (count : ℕ) (overlay : Overlay) (done : List Id) (owner : Id) : Bool :=
  !(x.ownedLive count overlay done owner).isEmpty

/-- No live non-background task in the scope; one whose edges are not loaded yet counts as inside. -/
def idle (count : ℕ) (scope : Scope) : Bool :=
  let inside := x.unloaded.any (fun id =>
    (x.live id).any (fun record => !record.background && x.inScope count (parentOf record) scope false != some false))
  let starts := match scope with
    | .roots => x.roots
    | .conversation id => [id]
  !inside && !starts.any (fun start =>
    (x.walkDown count Overlay.empty false (fun _ => true) (.conversation start)).any (fun reached =>
      reached.live.isSome && !reached.node.background))

end Ownership

end PiAgent.Harness
