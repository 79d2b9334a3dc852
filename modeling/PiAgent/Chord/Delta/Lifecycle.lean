import PiAgent.Lib.Run

/-!
# The life of a change

Changes, preparations and adoption of `delta/tracker.ts`. What a change does to its
draft is left out: a preparation either throws or yields some value. A context stands
in the table with the change and the preparation that refer to it, one of each at most.
-/

namespace PiAgent.Delta.Lifecycle

variable {V : Type}

inductive Status where
  | opened
  | prepared
  | consumed
  | aborted
  | stale
deriving DecidableEq

/-- `ChangeImpl`: whether `#context` and `#preparedStatus` are set. `held` is false once the program has lost it. -/
structure Change where
  attached : Bool
  watching : Bool
  settled : Bool
  held : Bool

/-- `PreparedImpl`. `preparedAt` is not in the code: the revision of the tracker at that moment. -/
structure Prepared (V : Type) where
  value : V
  base : V
  preparedAt : ℕ

/-- `OverlayContext`. Once `collected`, a weak reference to it is empty. -/
structure Context (V : Type) where
  owner : ℕ
  baseRevision : ℕ
  baseValue : V
  status : Status
  overlayReleased : Bool
  collected : Bool
  change : Option Change
  prepared : Option (Prepared V)

structure Tracker (V : Type) where
  value : V
  revision : ℕ
  contexts : List ℕ
  pruneBudget : ℕ

structure World (V : Type) where
  trackers : List (Tracker V)
  table : List (Context V)

inductive Step (V : Type) where
  | track (initial : V)
  | beginChange (t : ℕ)
  | prepare (x : ℕ) (result : Option V)
  | abortChange (x : ℕ)
  | prepareReplace (t : ℕ) (result : Option V)
  | abortPrepared (x : ℕ)
  | adopt (t x : ℕ)
  | lose (x : ℕ)
  | collect (x : ℕ)

/-- `noObject`: the program does not hold the object that the call is made on. -/
inductive Answer where
  | ok
  | error (message : String)
  | noObject
deriving DecidableEq

/-! ## Contexts -/

def Context.settled (c : Context V) : Bool :=
  c.overlayReleased || c.status = .consumed || c.status = .aborted || c.status = .stale

/-- `assertWritable`: the message of the error, if any. -/
def Context.assertWritable (c : Context V) : Option String :=
  if c.settled then some "Cannot use a settled overlay"
  else if c.status ≠ .opened then some "Prepared overlays are read-only"
  else none

def Tracker.release (tr : Tracker V) (x : ℕ) : Tracker V := { tr with contexts := tr.contexts.filter (· ≠ x) }

/-- `abortContext`, on the context alone. -/
def Context.abort (c : Context V) : Context V :=
  if c.status = .aborted ∨ c.status = .consumed ∨ c.status = .stale then c
  else { c with status := .aborted, overlayReleased := true }

/-- Replaces a context, and takes it out of its tracker's set if it was released. -/
def World.put (w : World V) (x : ℕ) (c : Context V) : World V :=
  { trackers := if c.overlayReleased then w.trackers.modify c.owner (fun tr => tr.release x) else w.trackers,
    table := w.table.set x c }

def prunePeriod : ℕ := 256

/-- `#register`, for a context that stands at `x` in the table. -/
def Tracker.register (tr : Tracker V) (table : List (Context V)) (x : ℕ) : Tracker V :=
  let tr := { tr with contexts := tr.contexts ++ [x], pruneBudget := tr.pruneBudget - 1 }
  if tr.pruneBudget = 0 then
    let live := tr.contexts.filter (fun y => table[y]?.any (fun c => !c.collected))
    { tr with contexts := live, pruneBudget := max prunePeriod live.length }
  else tr

/-- `createContext`, for a tracker at its current revision. -/
def createContext (t : ℕ) (tr : Tracker V) (status : Status) (change : Option Change) : Context V :=
  { owner := t, baseRevision := tr.revision, baseValue := tr.value, status := status, overlayReleased := false,
    collected := false, prepared := none, change := change }

/-- A new context, at the end of the table. -/
def World.create (w : World V) (t : ℕ) (c : Context V) : World V :=
  let table := w.table ++ [c]
  { trackers := w.trackers.modify t (fun tr => tr.register table w.table.length), table := table }

/-- `#invalidate`, for one context of the set. -/
def Context.invalidate (c : Context V) : Context V :=
  { c with status := if c.status = .opened ∨ c.status = .prepared then .stale else c.status, overlayReleased := true }

def World.invalidate (w : World V) (contexts : List ℕ) (winner : ℕ) : List (Context V) :=
  w.table.mapIdx (fun y c => if y ∈ contexts ∧ y ≠ winner ∧ c.collected = false then c.invalidate else c)

/-! ## Calls -/

def beginChange (w : World V) (t : ℕ) : World V × Answer :=
  match w.trackers[t]? with
  | none => (w, .noObject)
  | some tr =>
    let change := { attached := true, watching := false, settled := false, held := true }
    (w.create t (createContext t tr .opened (some change)), .ok)

/-- `result` is the new value, or nothing if emitting or materializing throws. -/
def prepare (w : World V) (x : ℕ) (result : Option V) : World V × Answer :=
  match w.table[x]? with
  | none => (w, .noObject)
  | some c =>
    match c.change with
    | none => (w, .noObject)
    | some change =>
      if !change.held then (w, .noObject)
      else if change.settled then (w, .error "Change has already been settled")
      else match c.assertWritable with
        | some message => (w, .error message)
        | none =>
          match result with
          | none =>
            let c :=
              { c with status := .aborted, overlayReleased := true,
                       change := some { change with settled := true, attached := false } }
            (w.put x c, .error "thrown")
          | some value =>
            let revision := (w.trackers[c.owner]?.map Tracker.revision).getD 0
            let c :=
              { c with status := .prepared, overlayReleased := true,
                       prepared := some { value := value, base := c.baseValue, preparedAt := revision },
                       change := some { change with settled := true, attached := false, watching := true } }
            (w.put x c, .ok)

def abortChange (w : World V) (x : ℕ) : World V × Answer :=
  match w.table[x]? with
  | none => (w, .noObject)
  | some c =>
    match c.change with
    | none => (w, .noObject)
    | some change =>
      if !change.held then (w, .noObject)
      else if change.settled then
        let status := if change.watching ∧ c.status = .prepared then .aborted else c.status
        (w.put x { c with status := status, change := some { change with watching := false } }, .ok)
      else (w.put x { c.abort with change := some { change with settled := true, attached := false } }, .ok)

def prepareReplace (w : World V) (t : ℕ) (result : Option V) : World V × Answer :=
  match w.trackers[t]? with
  | none => (w, .noObject)
  | some tr =>
    let c := createContext t tr .prepared none
    let x := w.table.length
    let w := w.create t c
    match result with
    | none => (w.put x { c with status := .aborted, overlayReleased := true }, .error "thrown")
    | some value =>
      let prepared := { value := value, base := c.baseValue, preparedAt := tr.revision }
      (w.put x { c with overlayReleased := true, prepared := some prepared }, .ok)

def abortPrepared (w : World V) (x : ℕ) : World V × Answer :=
  match w.table[x]? with
  | none => (w, .noObject)
  | some c => if c.prepared.isNone then (w, .noObject) else (w.put x c.abort, .ok)

/-- Values are references, which `===` compares. A preparation that is not in the table is one that no tracker made. -/
def adopt [DecidableEq V] (w : World V) (t x : ℕ) : World V × Answer :=
  match w.trackers[t]? with
  | none => (w, .noObject)
  | some tr =>
    match w.table[x]? with
    | none => (w, .error "Prepared change belongs to a different tracker")
    | some c =>
      match c.prepared with
      | none => (w, .error "Prepared change belongs to a different tracker")
      | some prepared =>
        if c.owner ≠ t then (w, .error "Prepared change belongs to a different tracker")
        else if c.status = .consumed then (w, .error "Prepared change has already been used")
        else if c.status = .aborted then (w, .error "Prepared change has been aborted")
        else if c.status = .stale then (w, .error "Prepared change is stale")
        else if c.status ≠ .prepared then (w, .error "Prepared change is not ready")
        else if c.baseRevision ≠ tr.revision then
          (w.put x { c with status := .stale, overlayReleased := true }, .error "Prepared change is stale")
        else if tr.value ≠ prepared.base then
          (w.put x { c with status := .stale }, .error "Prepared change is stale")
        else
          let w := w.put x { c with status := .consumed }
          let tr' := { value := prepared.value, revision := tr.revision + 1, contexts := [], pruneBudget := prunePeriod }
          ({ trackers := w.trackers.set t tr', table := w.invalidate tr.contexts x }, .ok)

/-- The program drops its last reference to a change. -/
def lose (w : World V) (x : ℕ) : World V × Answer :=
  match w.table[x]? with
  | none => (w, .noObject)
  | some c =>
    let c := { c with change := c.change.map (fun change => { change with held := false }) }
    ({ w with table := w.table.set x c }, .ok)

/-- The garbage collector takes a context that no object of the program leads to. -/
def collect (w : World V) (x : ℕ) : World V × Answer :=
  match w.table[x]? with
  | none => (w, .noObject)
  | some c =>
    if c.prepared.isSome || c.change.any (fun change => change.held) then (w, .noObject)
    else ({ w with table := w.table.set x { c with collected := true } }, .ok)

def step [DecidableEq V] (w : World V) : Step V → World V × Answer
  | .track initial =>
    let tr := { value := initial, revision := 0, contexts := [], pruneBudget := prunePeriod }
    ({ w with trackers := w.trackers ++ [tr] }, .ok)
  | .beginChange t => beginChange w t
  | .prepare x result => prepare w x result
  | .abortChange x => abortChange w x
  | .prepareReplace t result => prepareReplace w t result
  | .abortPrepared x => abortPrepared w x
  | .adopt t x => adopt w t x
  | .lose x => lose w x
  | .collect x => collect w x

def machine [DecidableEq V] : Machine (World V) (Step V) Answer := { start := { trackers := [], table := [] }, step := step }

/-! ## What has happened to a preparation -/

/-- The preparation was aborted, or the change it came from was. -/
def Withdrawn (past : List (Step V × Answer)) (x : ℕ) : Prop :=
  (.abortPrepared x, .ok) ∈ past ∨ (.abortChange x, .ok) ∈ past

def Adopted (past : List (Step V × Answer)) (x : ℕ) : Prop := ∃ t, (.adopt t x, .ok) ∈ past

def isAdopt (t : ℕ) : Step V × Answer → Bool
  | (.adopt t' _, .ok) => t' = t
  | _ => false

/-- The number of successful adoptions on a tracker. -/
def adoptions (past : List (Step V × Answer)) (t : ℕ) : ℕ := past.countP (isAdopt t)

/-- The call, if it succeeds, adopts or aborts what stands at `x`. -/
def Step.about (x : ℕ) : Step V → Prop
  | .adopt _ y => y = x
  | .abortPrepared y => y = x
  | .abortChange y => y = x
  | _ => False

section History

variable {past : List (Step V × Answer)} {s : Step V} {a : Answer} {x : ℕ}

theorem withdrawn_snoc :
    Withdrawn (past ++ [(s, a)]) x ↔ Withdrawn past x ∨ ((s = .abortPrepared x ∨ s = .abortChange x) ∧ a = .ok) := by
  simp only [Withdrawn, List.mem_append, List.mem_singleton, Prod.mk.injEq, eq_comm (a := s), eq_comm (a := a)]
  tauto

theorem adopted_snoc : Adopted (past ++ [(s, a)]) x ↔ Adopted past x ∨ ((∃ t, s = .adopt t x) ∧ a = .ok) := by
  simp only [Adopted, List.mem_append, List.mem_singleton, Prod.mk.injEq, eq_comm (a := s), eq_comm (a := a)]
  constructor
  · rintro ⟨t, h | ⟨h, ha⟩⟩
    · exact Or.inl ⟨t, h⟩
    · exact Or.inr ⟨⟨t, h⟩, ha⟩
  · rintro (⟨t, h⟩ | ⟨⟨t, h⟩, ha⟩)
    · exact ⟨t, Or.inl h⟩
    · exact ⟨t, Or.inr ⟨h, ha⟩⟩

theorem withdrawn_other (h : s.about x → a ≠ .ok) : Withdrawn (past ++ [(s, a)]) x ↔ Withdrawn past x := by
  rw [withdrawn_snoc, or_iff_left]
  rintro ⟨rfl | rfl, ha⟩ <;> exact h rfl ha

theorem adopted_other (h : s.about x → a ≠ .ok) : Adopted (past ++ [(s, a)]) x ↔ Adopted past x := by
  rw [adopted_snoc, or_iff_left]
  rintro ⟨⟨t, rfl⟩, ha⟩
  exact h rfl ha

end History

end PiAgent.Delta.Lifecycle
