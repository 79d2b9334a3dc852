import Mathlib.Data.Fintype.Basic
import PiAgent.Chord.Delta.Diff
import PiAgent.Lib.Gather
import PiAgent.Lib.Run

/-!
# Cells and derivations

`cell.ts`: the writes `change` and `replace` of a record's cells, and the derivations
that follow them. A record's cells are named by `C`, its derivations by `D`, and the
readables of other records that its derivations use by `X`.
-/

namespace PiAgent.Cells

open Function Delta

variable {C D X : Type}

inductive Ref (C D X : Type) where
  | cell (c : C)
  | derived (d : D)
  | external (x : X)
deriving DecidableEq

/-- A derivation may also give `undefined`. -/
abbrev Value := Option Shared

/-- `Value.Check`: nothing, or the summary of the errors. -/
abbrev Schema := Value → Option String

inductive Outcome where
  | value (v : Value)
  | promise
  | threw (message : String)

structure CellDecl where
  key : String
  schema : Schema
  schemas : List Schema

structure Derivation (C D X : Type) where
  key : String
  seq : ℕ
  sources : List (Ref C D X)
  fn : List Value → Outcome
  schemas : List Schema

/-- Every derivation is attached, in the order of `order`. -/
structure Record (C D X : Type) where
  dev : Bool
  diffRevisions : Shared → Shared → List Op
  cells : C → CellDecl
  derives : D → Derivation C D X
  order : List D
  complete : ∀ d, d ∈ order
  distinct : ∀ d e, (derives d).seq = (derives e).seq → d = e
  ordered : ∀ d e, .derived e ∈ (derives d).sources → (derives e).seq < (derives d).seq

/-- What is queued for the listeners of a source. -/
structure Notification (C D X : Type) where
  source : Ref C D X
  ops : List Op
  value : Value

/-- `calls` is not in the code: each call of a derivation's function, with its arguments. -/
structure State (C D X : Type) where
  cells : C → Shared
  revisions : C → ℕ
  derives : D → Value
  externals : X → Value
  queue : List (Notification C D X)
  calls : List (D × List Value)

def State.get (w : State C D X) : Ref C D X → Value
  | .cell c => some (w.cells c)
  | .derived d => w.derives d
  | .external x => w.externals x

/-! ## Checks -/

def assertValid (what : String) (schema : Schema) (value : Value) : Except String Unit :=
  match schema value with
  | none => .ok ()
  | some summary => .error s!"{what}: {summary}"

/-- `validate`, for a source with these schemas, its own first. -/
def validate (dev : Bool) (key : String) (schemas : List Schema) (value : Value) : Except String Unit :=
  if dev then schemas.forM (fun schema => assertValid s!"state {key}" schema value) else .ok ()

/-! ## Dependents -/

section Dependents

variable [DecidableEq C] [DecidableEq D] [DecidableEq X]

def Record.dependents (r : Record C D X) (source : Ref C D X) : List D :=
  r.order.filter (fun d => source ∈ (r.derives d).sources)

/-- The derivations that follow the source, through any number of others, in the order of the walk. -/
def Record.visit (r : Record C D X) (source : Ref C D X) : List D :=
  gather (fun d => r.dependents (.derived d)) (r.order.length + 1) [] (r.dependents source)

def Derivation.compute (derived : Derivation C D X) (args : List Value) : Except String Value :=
  match derived.fn args with
  | .value v => .ok v
  | .promise => .error s!"derive {derived.key}: fn must be synchronous"
  | .threw message => .error message

/-- The loop of `computeDependents`: the calls it makes, and the new values or the failure. -/
def Record.evaluate (r : Record C D X) (w : State C D X) :
    List D → List (Ref C D X × Value) → List (D × List Value) × Except String (List (D × Value))
  | [], _ => ([], .ok [])
  | d :: ds, values =>
    let derived := r.derives d
    let args := derived.sources.map (fun source => (Assoc.get? values source).getD (w.get source))
    match derived.compute args with
    | .error e => ([(d, args)], .error e)
    | .ok next =>
      match validate r.dev derived.key derived.schemas next with
      | .error e => ([(d, args)], .error e)
      | .ok () =>
        let rest := r.evaluate w ds (Assoc.set values (.derived d) next)
        ((d, args) :: rest.1, rest.2.map (fun result => (d, next) :: result))

def Record.computeDependents (r : Record C D X) (w : State C D X) (changed : Ref C D X) (value : Value) :
    List (D × List Value) × Except String (List (D × Value)) :=
  let pending := (r.visit changed).mergeSort (fun a b => (r.derives a).seq ≤ (r.derives b).seq)
  r.evaluate w pending [(changed, value)]

def Record.install (r : Record C D X) (w : State C D X) (d : D) (next : Value) : State C D X :=
  let ops := match w.derives d, next with
    | some before, some next => r.diffRevisions before next
    | none, some next => [.r next.value]
    | _, none => [.r (.prim .null)]
  { w with derives := update w.derives d next,
           queue := if ops.isEmpty then w.queue else w.queue ++ [⟨.derived d, ops, next⟩] }

end Dependents

/-! ## Writes -/

/-- One operation on the box of a value, without the box. Nothing if it replaces the value. -/
def unboxOp : Op → Option Op
  | .r _ => none
  | .edit [] _ => none
  | .edit (_ :: path) e => if e.onSlot && path.isEmpty then none else some (.edit path e)

def unbox (ops : List Op) (value : JsonValue) : List Op := (ops.mapM unboxOp).getD [.r value]

def sharesStructure : Shared → Shared → Bool
  | .arr i xs, .arr j ys => i ≠ j && (xs.zip ys).any (fun p => p.2.isContainer && p.1.same p.2)
  | .obj i fs, .obj j gs =>
    i ≠ j && gs.any (fun p => p.2.isContainer && (Assoc.get? fs p.1).any (fun child => child.same p.2))
  | _, _ => false

/-- What the callback of `change` comes to, with what the tracker prepares from it: a value and a batch for its box. -/
inductive Callback where
  | threw (message : String)
  | promise
  | mutated (value : Shared) (ops : List Op)
  | returned (value : Shared) (ops : List Op)

section Writes

variable [DecidableEq C] [DecidableEq D] [DecidableEq X]

/-- `#publish` of what was prepared at the cell's revision `base`. The listeners are called later, from the queue. -/
def Record.publish (r : Record C D X) (w : State C D X) (c : C) (base : ℕ) (value : Shared) (prepared : List Op)
    (ops : List Op) : State C D X × Except String Unit :=
  if prepared.isEmpty then
    if base ≠ w.revisions c then (w, .error "Prepared change is stale")
    else ({ w with revisions := update w.revisions c (base + 1) }, .ok ())
  else
    match validate r.dev (r.cells c).key ((r.cells c).schema :: (r.cells c).schemas) value with
    | .error e => (w, .error e)
    | .ok () =>
      let (calls, candidates) := r.computeDependents w (.cell c) value
      let w := { w with calls := w.calls ++ calls }
      match candidates with
      | .error e => (w, .error e)
      | .ok candidates =>
        if base ≠ w.revisions c then (w, .error "Prepared change is stale")
        else
          let published := if ops.isEmpty then unbox prepared value.value else ops
          let w :=
            { w with cells := update w.cells c value, revisions := update w.revisions c (base + 1),
                     queue := w.queue ++ [⟨.cell c, published, value⟩] }
          (candidates.foldl (fun w p => r.install w p.1 p.2) w, .ok ())

/-- `guard` is what the record's guard says to the caller, and `base` the revision at which the callback began. -/
def Record.change (r : Record C D X) (w : State C D X) (c : C) (guard : Except String Unit) (base : ℕ)
    (callback : Callback) : State C D X × Except String Unit :=
  match guard with
  | .error e => (w, .error e)
  | .ok () =>
    match callback with
    | .threw message => (w, .error message)
    | .promise => (w, .error "cell.change callbacks must be synchronous")
    | .mutated value ops => r.publish w c base value ops []
    | .returned value ops =>
      match assertValid s!"state {(r.cells c).key}" (r.cells c).schema value with
      | .error e => (w, .error e)
      | .ok () => r.publish w c base value ops []

/-- `prepareReplace`: no batch if the values are equal as JSON. -/
def replacementOps (before value : Shared) : List Op :=
  if before.equalJson value then [] else [.r (.obj [(js "v", value.value)])]

def Record.replace (r : Record C D X) (w : State C D X) (c : C) (guard : Except String Unit) (value : Shared)
    (diff : Option Bool) : State C D X × Except String Unit :=
  match guard with
  | .error e => (w, .error e)
  | .ok () =>
    let before := w.cells c
    let ops := if diff.getD (sharesStructure before value) then r.diffRevisions before value else []
    r.publish w c (w.revisions c) value (replacementOps before value) ops

inductive Step (C : Type) where
  | change (c : C) (guard : Except String Unit) (base : ℕ) (callback : Callback)
  | replace (c : C) (guard : Except String Unit) (value : Shared) (diff : Option Bool)
  | deliver

def Record.step (r : Record C D X) (w : State C D X) : Step C → State C D X × Except String Unit
  | .change c guard base callback => r.change w c guard base callback
  | .replace c guard value diff => r.replace w c guard value diff
  | .deliver => ({ w with queue := w.queue.tail }, .ok ())

/-- Writes and deliveries in any order, from a state in which every derivation has its first value. -/
def Record.machine (r : Record C D X) (w : State C D X) : Machine (State C D X) (Step C) (Except String Unit) :=
  { start := w, step := r.step }

end Writes

end PiAgent.Cells
