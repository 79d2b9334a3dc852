import PiAgent.Harness.Transaction
import PiAgent.Lib.Run

/-!
# The task scheduler

Every task transition is decided and written by one callback on the Session line; the
committed records then update the scheduler's sets. One event of the machine is one
such callback with its publication, or one step of code that runs off the line.
-/

namespace PiAgent.Harness

open Durable

/-! ## Records -/

def withState (record : TaskRecord) (state : TaskState) : TaskRecord := { record with state := state }

/-- The record with an abort mark: `restart` for an abandonment; otherwise a request, which replaces `restart`. -/
def withAbortMark (record : TaskRecord) (restart : Bool) : TaskRecord :=
  { record with abortRequested := true, restart := restart }

def isWaiting (record : TaskRecord) : Bool := record.state.status == .waiting

def isCompleting (record : TaskRecord) : Bool := record.state.status == .completing

/-- Whether the record holds or ends with an outcome other than `completed`. -/
def failedOutcome (record : TaskRecord) : Bool :=
  match record.state with
  | .completing outcome => outcome.status != .completed
  | .terminal outcome => outcome.status != .completed
  | _ => false

/-- A live owner's durable cancellation intent: its abort mark, or a held outcome other than `completed`. -/
def cancellationIntent (record : TaskRecord) : Bool :=
  !isTerminal record && (record.abortRequested || failedOutcome record)

/-- The tasks a waiting record waits for. -/
def waitsFor (record : TaskRecord) : List Id :=
  match record.state with
  | .waiting _ members _ => members
  | _ => []

def isFailFast (record : TaskRecord) : Bool :=
  match record.state with
  | .waiting _ _ policy => policy == .failFast
  | _ => false

def checkpointOf (record : TaskRecord) : JsonValue :=
  match record.state with
  | .pending checkpoint => checkpoint
  | .running checkpoint => checkpoint
  | .waiting checkpoint _ _ => checkpoint
  | _ => .null

/-! ## Definitions and invocations -/

/-- A registered definition: which object it is, its version, and its migration, which may throw. -/
structure TaskDefinition where
  identity : ℕ
  version : ℤ
  migrate : Option (JsonValue → JsonValue → ℤ → Option (JsonValue × JsonValue))

inductive Mode where
  | run
  | abort
deriving DecidableEq

structure Invocation where
  taskId : Id
  mode : Mode
  definition : TaskDefinition
  ended : Bool
  /-- Its handlers have returned, and it was joined. -/
  finished : Bool

/-- A reconcile pass that has started and waits for the line. -/
structure Pass where
  cascade : Bool
  checks : List Id

structure Scheduler where
  store : Store
  own : Ownership
  /-- Live tasks with cancellation intent, the sources of abort cascades. -/
  intent : List Id
  /-- Live tasks that are not `completing`, the candidates of a reservation pass; ones found waiting leave it. -/
  runnable : List Id
  /-- `completing` tasks the next finalize pass checks. -/
  finalizeChecks : List Id
  /-- Live waiting tasks by each task in their `on`. -/
  waiters : Id → List Id
  failFastChecks : List Id
  /-- Live tasks with `abandonOnRestart` found at open. -/
  abandoned : List Id
  reconcileScheduled : Bool
  cascadePending : Bool
  passes : List Pass
  registry : JsString → Option TaskDefinition
  /-- The definition whose migration failed, by task. -/
  failedMigrations : Id → Option ℕ
  enabled : Bool
  dirty : Bool
  draining : Bool
  /-- A reservation commit of the drain waits for the line. -/
  reserving : Bool
  /-- The invocation of a task, by its place in `runs`. -/
  invocations : Id → Option ℕ
  runs : List Invocation
  /-- A commit of the scheduler's own was rejected, and the Session with it. -/
  failed : Bool

namespace Scheduler

variable (s : Scheduler)

/-- No walk takes more steps than there are records. -/
def fuel (overlay : Overlay) : ℕ := s.store.count + overlay.tasks.length + overlay.edges.length

def scheduleReconcile : Scheduler := { s with reconcileScheduled := true }

def kick : Scheduler :=
  let s := { s with dirty := true }
  if s.draining || !s.enabled then s else { s with draining := true }

/-! ## Loading -/

/-- Load the owner chains of the tasks in `unloaded` and of the conversations with queued inputs. -/
def loadScopes (queued : List Id) : Scheduler :=
  let tasks := s.own.loadUnloaded s.store
  let conversations := tasks.1.loadChains s.store Overlay.empty (queued.map Node.conversation)
  { s with own := conversations.1, reconcileScheduled := s.reconcileScheduled || tasks.2 || conversations.2 }

/-- Load the chains above the tasks a transaction staged. -/
def loadStaged (overlay : Overlay) : Scheduler :=
  let loaded := s.own.loadChains s.store overlay (overlay.tasks.map (fun task => parentOf task.2))
  { s with own := loaded.1, reconcileScheduled := s.reconcileScheduled || loaded.2 }

/-! ## Tracking -/

/-- The nearest live task above ended ordinary work may be free now. -/
def release (record : TaskRecord) : Scheduler :=
  match s.own.nearestLiveAbove Overlay.empty s.store.count (nodeOf record) with
  | none => s
  | some above =>
    if isCompleting above then { s with finalizeChecks := add s.finalizeChecks above.id }
    else if above.abortRequested then { s with runnable := add s.runnable above.id }
    else s

/-- Bring the scheduler's sets in line with a task's committed record. -/
def track (record : TaskRecord) : Scheduler :=
  let id := record.id
  let previous := s.own.live id
  let s := { s with waiters := (previous.elim [] waitsFor).foldl (fun waiters on => deleteFrom waiters on id) s.waiters }
  if isTerminal record then
    let s := { s with intent := discard s.intent id, runnable := discard s.runnable id
                      finalizeChecks := discard s.finalizeChecks id }
    -- the walk up to the task it held passes the ended tasks between them
    let released := { s with own := s.own.retire record }.release record
    { released with runnable := (s.waiters id).foldl add released.runnable
                    own := s.own.track s.store.count record }
  else
    let s := { s with own := s.own.track s.store.count record
                      intent := if cancellationIntent record then add s.intent id else discard s.intent id }
    let s := if isCompleting record then
        { s with runnable := discard s.runnable id, finalizeChecks := add s.finalizeChecks id }
      else { s with runnable := add s.runnable id }
    { s with waiters := (waitsFor record).foldl (fun waiters on => addTo waiters on id) s.waiters }

/-- Whether a live owner's cancellation intent reaches a walk up: it finds an owner with intent before a
background owner without it. -/
def cancellingOwnerOf (x : Ownership) : List Ownership.Step → Option TaskRecord
  | [] => none
  | .unknown :: _ => none
  | .conversation _ :: steps => cancellingOwnerOf x steps
  | .task id node :: steps =>
    match (x.live id).filter cancellationIntent with
    | some live => some live
    | none => if node.background then none else cancellingOwnerOf x steps

def cancellingOwner (start : Node) : Option TaskRecord :=
  if s.intent.isEmpty then none else cancellingOwnerOf s.own (s.own.above (s.store.count + 1) start)

def belowCancelled (start : Node) : Bool := (s.cancellingOwner start).isSome

/-- One published task in `#observe`: the tasks that failed, and the new ones. -/
def observeTask (p : Scheduler × List Id × List TaskRecord) (record : TaskRecord) :
    Scheduler × List Id × List TaskRecord :=
  let (s, failed, updated) := p
  let previous := s.own.live record.id
  let failed := if failedOutcome record && !previous.any failedOutcome then failed ++ [record.id] else failed
  let s := s.track record
  if isTerminal record then
    ({ s with failedMigrations := Function.update s.failedMigrations record.id none
              failFastChecks := discard s.failFastChecks record.id }.scheduleReconcile, failed, updated)
  else
    let marked := record.abortRequested && !previous.any TaskRecord.abortRequested
    -- a request replacing a `restart` mark upgrades the marks of the work below
    let upgraded := previous.any TaskRecord.restart && !record.restart
    let held := isCompleting record && !previous.any isCompleting
    let s := { s with cascadePending := s.cascadePending || marked || upgraded || (held && cancellationIntent record) }
    let s := if held then s.scheduleReconcile else s
    let s := if isFailFast record && !previous.any isWaiting then
        { s with failFastChecks := add s.failFastChecks record.id }.scheduleReconcile else s
    (s, failed, if previous.isNone then updated ++ [record] else updated)

/-- The `failFast` waiters of a task that failed. -/
def observeFailed (id : Id) : Scheduler :=
  (s.waiters id).foldl (fun s waiter =>
    if (s.own.live waiter).any isFailFast then
      { s with failFastChecks := add s.failFastChecks waiter }.scheduleReconcile
    else s) s

/-- A queued input below a cancelled owner is withdrawn. -/
def observeInput (conversationId : Id) : Scheduler :=
  if s.intent.isEmpty then s
  else if !s.own.known (.conversation conversationId) || s.belowCancelled (.conversation conversationId) then
    { s with cascadePending := true }
  else s

/-- Work created below a cancelled owner is aborted too. -/
def observeNew (record : TaskRecord) : Scheduler :=
  if record.id ∈ s.own.unloaded then s.scheduleReconcile
  else if !record.background && !record.abortRequested && s.belowCancelled (parentOf record) then
    { s with cascadePending := true }
  else s

def changedTask : Ownership.Change → Option TaskRecord
  | .conversation _ => none
  | .task value => some value

/-- The commit listener. `inputs` are the conversations of the queued inputs the commit published. -/
def observe (changes : List Ownership.Change) (inputs : List Id) : Scheduler :=
  let s := { s with own := changes.foldl (fun x change => x.trackEdge s.store.count change) s.own }
  let tasks := changes.filterMap changedTask
  let (s, failed, updated) := tasks.foldl observeTask (s, [], [])
  let s := failed.foldl observeFailed s
  let s := inputs.foldl observeInput s
  let s := updated.foldl observeNew s
  let s := if s.cascadePending then s.scheduleReconcile else s
  let s := { s with own := s.own.sweep }
  if tasks.isEmpty then s else s.kick

/-- The end of a commit: nothing at all was written, or storage took the candidates and the commit is published.
`others` tells whether the commit wrote anything else. -/
def land (tx : Tx) (inputs : List Id) (others : Bool) : Option Scheduler :=
  tx.assemble.map (fun changes =>
    if changes.isEmpty && inputs.isEmpty && !others then s
    else { s with store := tx.candidate }.observe changes inputs)

/-- A commit of the scheduler's own: a rejection fails the Session. -/
def landOwn (tx : Option Tx) (others : Bool) : Scheduler :=
  match tx.bind (fun tx => s.land tx [] others) with
  | none => { s with failed := true }
  | some s => s

/-- A commit of a caller's: a rejection is the caller's to see. -/
def landOther (tx : Option Tx) (inputs : List Id) (others : Bool) : Scheduler :=
  (tx.bind (fun tx => s.land tx inputs others)).getD s

/-! ## Outcomes -/

/-- Write an outcome the scheduler decided: held while the task's ordinary owned work is live. -/
def terminate (tx : Tx) (record : TaskRecord) (outcome : TaskOutcome) : Scheduler × Option Tx :=
  let s := s.loadScopes []
  let overlay := overlayOf tx
  let state := if s.own.hasOwnedLive (s.fuel overlay) overlay [] record.id then TaskState.completing outcome
    else .terminal outcome
  (s, tx.setTask (withState record state))

/-! ## Waits -/

/-- The path a search recorded, from a member of the wait to `id`. -/
def pathTo (via : List (Id × Option Id)) : ℕ → Id → List Id
  | 0, id => [id]
  | fuel + 1, id =>
    match (Assoc.get? via id).join with
    | none => [id]
    | some before => pathTo via fuel before ++ [id]

/-- What a search has reached, and from where; and what it still has to look at. -/
structure Search where
  via : List (Id × Option Id)
  walked : List Id
  pending : List Id

def Search.reach (search : Search) (via : Option Id) (id : Id) : Search :=
  if Assoc.has search.via id then search
  else { search with via := search.via ++ [(id, via)], pending := id :: search.pending }

/-- The live ordinary work a walk down from `id` finds; it does not go below a walked task. -/
def foundBelow (overlay : Overlay) (walked : List Id) (id : Id) : List Id :=
  (s.own.walkDown (s.fuel overlay) overlay false (fun below => below ∉ walked) (.task id)).filterMap (fun reached =>
    if reached.live.isNone || reached.node.background then none else some reached.id)

/-- One task of the search that is not the one searched for. -/
def searchTask (overlay : Overlay) (search : Search) (id : Id) : Search :=
  match (s.own.record overlay id).filter (fun record => !isTerminal record) with
  | none => search
  | some record =>
    -- an abort-marked task waits only for its owned work
    let search := if isWaiting record && !record.abortRequested then
        (waitsFor record).foldl (fun search member => search.reach (some id) member) search else search
    if id ∈ search.walked then search
    else
      let search := { search with walked := search.walked ++ [id] }
      let found := s.foundBelow overlay search.walked id
      let search := found.foldl (fun search below => search.reach (some id) below) search
      { search with walked := search.walked ++ found }

def searchFrom (overlay : Overlay) (task : Id) : ℕ → Search → Option (List Id)
  | 0, _ => none
  | fuel + 1, search =>
    match search.pending with
    | [] => none
    | id :: pending =>
      if id = task then some (pathTo search.via fuel id)
      else searchFrom overlay task fuel (s.searchTask overlay { search with pending := pending } id)

/-- The path from a member of `on` back to `task` in the wait-for graph, if the wait would close a cycle. -/
def waitCycle (overlay : Overlay) (task : Id) (on : List Id) : Option (List Id) :=
  let start := on.foldl (fun search id => search.reach none id) { via := [], walked := [], pending := [] }
  s.searchFrom overlay task (s.fuel overlay + 1) start

/-- The members of a wait that may add an edge, or that the wait is rejected. -/
def waitTargets (overlay : Overlay) (current : Id) (policy : JoinPolicy) : List Id → Option (List Id)
  | [] => some []
  | id :: on =>
    match (s.own.record overlay id).or (s.store.tasks id) with
    | none => none
    | some member =>
      if policy = .failFast && member.owner ≠ some current then none
      else
        -- a live child already holds the waiter, and a terminal task has no edges
        let adds := !isTerminal member && member.owner != some current
        (waitTargets overlay current policy on).map (fun targets => if adds then id :: targets else targets)

/-- Whether a wait is accepted. An abort handler cannot wait. -/
def validateWait (overlay : Overlay) (mode : Mode) (current : Id) (on : List Id) (policy : JoinPolicy) :
    Scheduler × Bool :=
  if mode = .abort then (s, false)
  else
    match s.waitTargets overlay current policy on with
    | none => (s, false)
    | some [] => (s, true)
    | some targets =>
      let s := s.loadScopes []
      (s, (s.waitCycle overlay current targets).isNone)

/-- The state a task commits for itself. -/
inductive NextState where
  | running (checkpoint : JsonValue)
  | waiting (checkpoint : JsonValue) (on : List Id) (policy : JoinPolicy)
  | terminal (outcome : TaskOutcome)

/-- Replace a running task's state with what it committed. A terminal state holds as `completing` while
ordinary owned work is live, judged on the commit's candidates. -/
def commitState (tx : Tx) (mode : Mode) (current : TaskRecord) : NextState → Scheduler × Option Tx
  | .running checkpoint => (s, tx.setTask (withState current (.running checkpoint)))
  | .waiting checkpoint on policy =>
    let (s, accepted) := s.validateWait (overlayOf tx) mode current.id on policy
    (s, if accepted then tx.setTask (withState current (.waiting checkpoint on policy)) else none)
  | .terminal outcome =>
    let overlay := overlayOf tx
    let s := (s.loadScopes []).loadStaged overlay
    let state := if s.own.hasOwnedLive (s.fuel overlay) overlay [] current.id then TaskState.completing outcome
      else .terminal outcome
    (s, tx.setTask (withState current state))

/-! ## Reconciliation -/

/-- The marks a pass collects: a request wins over `restart`. -/
def mark (marks : List (Id × TaskRecord × Bool)) (record : TaskRecord) (restart : Bool) :
    List (Id × TaskRecord × Bool) :=
  if (Assoc.get? marks record.id).any (fun staged => !staged.2) then marks
  else if record.abortRequested && (!record.restart || restart) then marks
  else Assoc.set marks record.id (record, restart)

/-- Every live foreground task below an owner with intent; the walk does not enter another such owner. -/
def cascadeOf (owner : Id) : List TaskRecord :=
  (s.own.walkDown s.store.count Overlay.empty false (fun below => below ∉ s.intent) (.task owner)).filterMap
    (fun reached => if reached.node.background then none else reached.live)

/-- Only an owner abandoned after a restart, and nothing else, passes its reason on. -/
def passesRestart (owner : TaskRecord) : Bool := owner.restart && !failedOutcome owner

def cascadeMarks : List (Id × TaskRecord × Bool) :=
  s.intent.foldl (fun marks id =>
    match s.own.live id with
    | none => marks
    | some owner => (s.cascadeOf id).foldl (fun marks record => mark marks record (passesRestart owner)) marks) []

/-- Whether any of the tasks holds or ended with an outcome other than `completed`. -/
def anyFailed (ids : List Id) : Bool :=
  ids.any (fun id => ((s.own.live id).or (s.store.tasks id)).any failedOutcome)

def failFastMarks (checks : List Id) (marks : List (Id × TaskRecord × Bool)) : List (Id × TaskRecord × Bool) :=
  checks.foldl (fun marks id =>
    match (s.own.live id).filter isWaiting with
    | none => marks
    | some waiter =>
      if s.anyFailed (waitsFor waiter) then
        (waitsFor waiter).foldl (fun marks member =>
          match (s.own.live member).filter (fun record => !failedOutcome record) with
          | none => marks
          | some record => mark marks record false) marks
      else marks) marks

structure Finalizing where
  tx : Tx
  overlay : Overlay
  done : List Id
  next : List Id

def finalizeOne (f : Finalizing) (id : Id) : Option Finalizing :=
  match s.own.record f.overlay id with
  | none => some f
  | some record =>
    match record.state with
    | .completing outcome =>
      if id ∈ f.done then some f
      else if s.own.hasOwnedLive (s.fuel f.overlay) f.overlay f.done id then some f
      else
        let terminal := withState record (.terminal outcome)
        (f.tx.setTask terminal).map (fun tx =>
          let overlay := { f.overlay with tasks := Assoc.set f.overlay.tasks id terminal }
          let above := s.own.nearestLiveAbove overlay (s.fuel overlay) (nodeOf record)
          { tx := tx, overlay := overlay, done := f.done ++ [id]
            next := if above.any isCompleting then above.elim f.next (fun above => add f.next above.id) else f.next })
    | _ => some f

/-- In rounds: the holders the tasks of one round free are checked in the next. -/
def finalizeRounds : ℕ → Finalizing → List Id → Option Finalizing
  | 0, f, _ => some f
  | fuel + 1, f, round =>
    match round with
    | [] => some f
    | round =>
      match round.foldlM s.finalizeOne { f with next := [] } with
      | none => none
      | some f => finalizeRounds fuel f f.next

def finalize (tx : Tx) : Scheduler × Option Tx :=
  let round := s.finalizeChecks
  let s := { s with finalizeChecks := [] }
  let f := s.finalizeRounds (s.store.count + 1) { tx := tx, overlay := overlayOf tx, done := [], next := [] } round
  (s, f.map Finalizing.tx)

/-- The callback of a reconcile pass. `queued` are the conversations storage has queued inputs for. -/
def reconcile (pass : Pass) (queued : List Id) : Scheduler × Option Tx :=
  let s := s.loadScopes (if pass.cascade then queued else [])
  let marks := s.failFastMarks pass.checks s.cascadeMarks
  match marks.foldlM (fun (tx : Tx) m => tx.setTask (withAbortMark m.2.1 m.2.2)) (Tx.start s.store) with
  | none => (s, none)
  | some tx => s.finalize tx

/-! ## Reservation -/

/-- Whether a definition fits a record: `none` when it is missing, too old, or its migration failed before. -/
def fit (record : TaskRecord) : Option (TaskDefinition × Bool) :=
  match s.registry record.kind with
  | none => none
  | some task =>
    if task.version = record.version then some (task, false)
    else if task.version < record.version then none
    else if s.failedMigrations record.id = some task.identity then none
    else some (task, true)

def setCheckpoint (state : TaskState) (checkpoint : JsonValue) : TaskState :=
  match state with
  | .pending _ => .pending checkpoint
  | .running _ => .running checkpoint
  | .waiting _ members policy => .waiting checkpoint members policy
  | state => state

/-- Resolve the record's definition by kind, migrating an older stored version. -/
def resolve (record : TaskRecord) : Scheduler × Option (TaskDefinition × TaskRecord × Bool) :=
  match s.fit record with
  | none => (s, none)
  | some (task, false) => (s, some (task, record, false))
  | some (task, true) =>
    match task.migrate.bind (fun migrate => migrate record.body (checkpointOf record) record.version) with
    | none => ({ s with failedMigrations := Function.update s.failedMigrations record.id (some task.identity) }, none)
    | some (body, checkpoint) =>
      (s, some (task, { record with version := task.version, body := body
                                    state := setCheckpoint record.state checkpoint }, true))

/-- Live tasks a task waits for before its next invocation. -/
def waitingOn (record : TaskRecord) : List Id :=
  if record.abortRequested then s.own.ownedLive s.store.count Overlay.empty [] record.id
  else (waitsFor record).filter (fun id => (s.own.live id).isSome)

def createInvocation (id : Id) (mode : Mode) (definition : TaskDefinition) : Scheduler :=
  { s with invocations := Function.update s.invocations id (some s.runs.length)
           runs := s.runs ++ [{ taskId := id, mode := mode, definition := definition, ended := false
                                finished := false }] }

/-- One candidate of a reservation pass. -/
def reserveOne (p : Scheduler × Option Tx) (id : Id) : Scheduler × Option Tx :=
  let (s, tx) := p
  match tx, s.own.live id with
  | none, _ => (s, none)
  | some tx, none => ({ s with runnable := discard s.runnable id }, some tx)
  | some tx, some record =>
    if isCompleting record || (s.invocations id).isSome then ({ s with runnable := discard s.runnable id }, some tx)
    else if !(s.waitingOn record).isEmpty then ({ s with runnable := discard s.runnable id }, some tx)
    else
      let mode := if record.abortRequested then Mode.abort else .run
      -- work below an owner with cancellation intent waits for its cascade mark
      if mode = .run && !record.background && s.belowCancelled (parentOf record) then
        ({ s with cascadePending := true }.scheduleReconcile, some tx)
      else
        match s.resolve record with
        | (s, none) =>
          if mode = .abort && !record.restart then s.terminate tx record ⟨.orphaned, .null⟩ else (s, some tx)
        | (s, some (task, resolved, migrated)) =>
          let write := migrated || record.state.status != .running
          let tx := if write then tx.setTask (withState resolved (.running (checkpointOf resolved))) else some tx
          ({ s with runnable := discard s.runnable id }.createInvocation id mode task, tx)

/-- The callback of a reservation pass. The first pass after open only marks the abandoned tasks. -/
def reserve : Scheduler × Option Tx :=
  if !s.enabled then (s, some (Tx.start s.store))
  else if !s.abandoned.isEmpty then
    let tx := s.abandoned.foldlM (fun (tx : Tx) id =>
      match (s.own.live id).filter (fun record => !record.abortRequested) with
      | none => some tx
      | some record => tx.setTask (withAbortMark record true)) (Tx.start s.store)
    (s, tx)
  else
    let s := s.loadScopes []
    s.runnable.foldl reserveOne (s, some (Tx.start s.store))

/-! ## Invocations -/

/-- End an invocation: its runtime operations reject from now on, and its task is free. -/
def endInvocation (number : ℕ) : Scheduler :=
  match s.runs[number]? with
  | none => s
  | some invocation =>
    if invocation.ended then s
    else
      let s := { s with runs := s.runs.set number { invocation with ended := true } }
      if s.invocations invocation.taskId = some number then
        { s with invocations := Function.update s.invocations invocation.taskId none
                 runnable := if (s.own.live invocation.taskId).isSome then add s.runnable invocation.taskId
                   else s.runnable }
      else s

/-- The current record of a running task. -/
def runningRecord (id : Id) : Option TaskRecord := (s.own.live id).filter (fun record => record.state.status == .running)

/-- How the phase that just returned ended. -/
structure PhaseResult where
  checkpoint : JsonValue
  failure : Option JsString

/-- What the step before a phase decides. -/
inductive Decision where
  | proceed
  | stop
  | fault

/-- Whether a definition can take the task at reservation. -/
def canReserve (task : TaskDefinition) (record : TaskRecord) : Bool :=
  task.version == record.version || (decide (record.version < task.version) && task.migrate.isSome)

/-- Precedence rules for a run invocation, on the line. -/
def decideRun (tx : Tx) (current : TaskRecord) (definition : TaskDefinition) (previous : Option PhaseResult) :
    Scheduler × Option Tx × Decision :=
  if current.abortRequested then (s, some tx, .stop)
  else if !current.background && s.belowCancelled (parentOf current) then
    ({ s with cascadePending := true }.scheduleReconcile, some tx, .stop)
  else
    match previous with
    | none => (s, some tx, .proceed)
    | some previous =>
      if previous.failure.isSome then (s, some tx, .fault)
      else if JsonValue.equalJson (checkpointOf current) previous.checkpoint then (s, some tx, .fault)
      else
        match s.registry current.kind with
        | some next =>
          if next.identity ≠ definition.identity && canReserve next current then
            (s, tx.setTask (withState current (.pending (checkpointOf current))), .stop)
          else (s, some tx, .proceed)
        | none => (s, some tx, .proceed)

/-- One synchronous decision on the Session line. -/
def stepWith (number : ℕ) (invocation : Invocation)
    (decide : Scheduler → Tx → TaskRecord → Scheduler × Option Tx × Decision) : Scheduler :=
  match s.runningRecord invocation.taskId with
  | none => s.endInvocation number
  | some current =>
    match decide s (Tx.start s.store) current with
    | (s, tx, .proceed) => s.landOwn tx false
    | (s, tx, .stop) => (s.endInvocation number).landOwn tx false
    | (s, tx, .fault) =>
      let s := s.endInvocation number
      match tx with
      | none => { s with failed := true }
      | some tx =>
        let (s, tx) := s.terminate tx current ⟨.faulted, .null⟩
        s.landOwn tx false

/-- A step of a run invocation, or the end of an abort handler, which faults unless the task is done. -/
def step (number : ℕ) (previous : Option PhaseResult) : Scheduler :=
  match s.runs[number]? with
  | none => s
  | some invocation =>
    match invocation.mode with
    | .run => s.stepWith number invocation (fun s tx current => s.decideRun tx current invocation.definition previous)
    | .abort => s.stepWith number invocation (fun s tx _ => (s, some tx, .fault))

/-- Commit after rereading the task on the line and gating the invocation. -/
def gate (number : ℕ) : Option (Invocation × TaskRecord) :=
  match s.runs[number]? with
  | none => none
  | some invocation =>
    if invocation.ended then none
    else
      match s.runningRecord invocation.taskId with
      | none => none
      | some current => if invocation.mode = .run && current.abortRequested then none else some (invocation, current)

/-- `runtime.commit`: the callback's operations, and the state it returns, if any. -/
def runtimeCommit (number : ℕ) (ops : List TxOp) (next : Option NextState) (inputs : List Id) (others : Bool) :
    Scheduler :=
  match s.gate number with
  | none => s
  | some (invocation, current) =>
    let tx := (Tx.start s.store).runAll ops
    match next with
    | none => s.landOther (some tx) inputs others
    | some next =>
      let (s, tx) := s.commitState tx invocation.mode current next
      s.landOther tx inputs others

/-- `runtime.memo`: the record is written again. -/
def runtimeMemo (number : ℕ) : Scheduler :=
  match s.gate number with
  | none => s
  | some (_, current) => s.landOther ((Tx.start s.store).setTask current) [] false

/-! ## Requests -/

/-- `abort`: mark the task, or settle one no registered definition can take as `orphaned`. -/
def abort (id : Id) (keepRestart : Bool) : Scheduler :=
  match s.store.tasks id with
  | none => s
  | some current =>
    if isTerminal current || (keepRestart && current.restart) then s
    else
      let tx := (Tx.start s.store).taskEntry id
      let mark := fun (s : Scheduler) =>
        s.landOther (if !current.abortRequested || current.restart then tx.setTask (withAbortMark current false)
          else some tx) [] false
      if (s.invocations id).isSome || isCompleting current then mark s
      else
        let s := s.loadScopes []
        if s.own.hasOwnedLive s.store.count Overlay.empty [] id then mark s
        else
          match s.resolve current with
          | (s, some _) => mark s
          | (s, none) =>
            let (s, tx) := s.terminate tx current ⟨.orphaned, .null⟩
            s.landOther tx [] false

/-- `abortConversation`: mark every live task that traversal from the conversation reaches. -/
def abortConversation (conversationId : Id) (background : Bool) (queued : List Id) (others : Bool) : Scheduler :=
  let s := s.loadScopes queued
  let reached := (s.own.walkDown s.store.count Overlay.empty background (fun _ => true)
    (.conversation conversationId)).filterMap (fun reached =>
      if reached.node.background && !background then none else reached.live)
  let tx := reached.foldlM (fun (tx : Tx) live =>
    if !live.abortRequested || live.restart then tx.setTask (withAbortMark live false) else some tx) (Tx.start s.store)
  s.landOther tx [] others

/-! ## Opening -/

/-- A scheduler that opens on a store, with a registry: it tracks the live tasks, and changes the running
ones back to pending. -/
def opened (store : Store) (registry : JsString → Option TaskDefinition) : Scheduler :=
  let s : Scheduler :=
    { store := store, own := Ownership.empty, intent := [], runnable := [], finalizeChecks := [], waiters := fun _ => []
      failFastChecks := [], abandoned := [], reconcileScheduled := false, cascadePending := false, passes := []
      registry := registry, failedMigrations := fun _ => none, enabled := false, dirty := false, draining := false
      reserving := false, invocations := fun _ => none, runs := [], failed := false }
  let records := store.liveTasks
  let s := records.foldl track s
  let s := { s with abandoned := (records.filter TaskRecord.abandonOnRestart).map TaskRecord.id
                    failFastChecks := (records.filter isFailFast).map TaskRecord.id }
  let running := records.filter (fun record => record.state.status == .running)
  let tx := running.foldlM (fun (tx : Tx) record =>
    tx.setTask (withState record (.pending (checkpointOf record)))) (Tx.start store)
  ({ s.landOwn tx false with cascadePending := true }).scheduleReconcile

/-! ## Events -/

/-- One callback on the line with its publication, or one step of code that runs off the line. -/
inductive Event where
  /-- A commit of a caller's: what it creates, the conversations of the queued inputs it publishes, and
  whether it writes anything else. -/
  | hostCommit (ops : List TxOp) (inputs : List Id) (others : Bool)
  | runtimeCommit (number : ℕ) (ops : List TxOp) (next : Option NextState) (inputs : List Id) (others : Bool)
  | runtimeMemo (number : ℕ)
  | step (number : ℕ) (previous : Option PhaseResult)
  /-- An invocation's handlers have returned. -/
  | finish (number : ℕ)
  | abort (id : Id) (keepRestart : Bool)
  | abortConversation (conversationId : Id) (background : Bool) (queued : List Id) (others : Bool)
  /-- A reconcile pass starts, off the line. -/
  | startReconcile
  | runReconcile (queued : List Id) (others : Bool)
  /-- One turn of the drain's loop, off the line. -/
  | drain
  | runReserve
  | sweep
  | inspect
  | waitForIdle (scope : Ownership.Scope)
  /-- The registry changed. -/
  | register (registry : JsString → Option TaskDefinition)
  | resume
  /-- A crash, and the scheduler that opens next. -/
  | reopen (registry : JsString → Option TaskDefinition)

/-- Conversations with queued inputs are stored. -/
def storedOnly (queued : List Id) : List Id := queued.filter (fun c => (s.store.conversations c).isSome)

/-- The run loop of an invocation that has not ended goes on. -/
def stepOf (number : ℕ) (previous : Option PhaseResult) : Scheduler :=
  if s.runs[number]?.any (fun invocation => !invocation.ended && !invocation.finished) then s.step number previous else s

def finish (number : ℕ) : Scheduler :=
  match s.runs[number]? with
  | none => s
  | some invocation =>
    if invocation.finished then s
    else
      let ended := s.endInvocation number
      { ended with runs := ended.runs.set number { invocation with ended := true, finished := true } }.kick

def startReconcile : Scheduler :=
  if s.reconcileScheduled then
    { s with reconcileScheduled := false, cascadePending := false, failFastChecks := []
             passes := s.passes ++ [{ cascade := s.cascadePending, checks := s.failFastChecks }] }
  else s

def runReconcile (queued : List Id) (others : Bool) : Scheduler :=
  match s.passes with
  | [] => s
  | pass :: passes =>
    let (s, tx) := { s with passes := passes }.reconcile pass (s.storedOnly queued)
    s.landOwn tx others

def drain : Scheduler :=
  if !s.draining || s.reserving then s
  else if s.dirty && s.enabled then { s with dirty := false, reserving := true }
  else
    let stopped := { s with draining := false }
    if s.dirty then stopped.kick else stopped

def runReserve : Scheduler :=
  if !s.reserving then s
  else
    let abandoned := !s.abandoned.isEmpty && s.enabled
    let (s, tx) := { s with reserving := false }.reserve
    let s := s.landOwn tx false
    -- marked, or already marked or gone: reserve again, now seeing the marks
    if abandoned then { s with abandoned := [], dirty := true } else s

def waitForIdle (scope : Ownership.Scope) : Scheduler :=
  if s.own.idle s.store.count scope then s else s.scheduleReconcile

def next (s : Scheduler) : Event → Scheduler
  | .hostCommit ops inputs others => s.landOther (some ((Tx.start s.store).runAll ops)) inputs others
  | .runtimeCommit number ops state inputs others => s.runtimeCommit number ops state inputs others
  | .runtimeMemo number => s.runtimeMemo number
  | .step number previous => s.stepOf number previous
  | .finish number => s.finish number
  | .abort id keepRestart => s.abort id keepRestart
  | .abortConversation c background queued others => s.abortConversation c background (s.storedOnly queued) others
  | .startReconcile => s.startReconcile
  | .runReconcile queued others => s.runReconcile queued others
  | .drain => s.drain
  | .runReserve => s.runReserve
  | .sweep => { s with own := s.own.sweepJob }
  | .inspect => s.loadScopes []
  | .waitForIdle scope => s.waitForIdle scope
  | .register registry => { s with registry := registry }.kick
  | .resume => { s with enabled := true }.kick
  | .reopen registry => opened s.store registry

/-- A failed Session does nothing any more, until it is opened again. -/
def advance (s : Scheduler) : Event → Scheduler
  | .reopen registry => opened s.store registry
  | event => if s.failed then s else s.next event

/-- The machine starts on an empty store. -/
def machine (registry : JsString → Option TaskDefinition) : Machine Scheduler Event Unit :=
  { start := opened Store.empty registry, step := fun s event => (s.advance event, ()) }

end Scheduler

end PiAgent.Harness
