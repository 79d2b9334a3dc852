import PiAgent.Chord.Delta.Containers

/-!
# Replay on a heap

`apply`, `applyImmutable` and `applyImmutableBatches` of `delta/index.ts` as the code
runs them: containers have addresses, are changed in place and are shared.
-/

namespace PiAgent.Delta

namespace Heap

inductive Ref where
  | prim (p : Primitive)
  | addr (a : ℕ)

instance : HasText Ref where
  text? := fun r =>
    match r with
    | .prim (.str c) => some c
    | _ => none
  ofText := fun text => .prim (.str text)

end Heap

/-- The container at each address. New ones go to the end. -/
abbrev Heap := List (Container Heap.Ref)

namespace Heap

def deref (h : Heap) : Ref → Option (Container Ref)
  | .prim _ => none
  | .addr a => h[a]?

/-! ## Changes in place -/

def resolveValue (h : Heap) (full : Path) : Path → Ref → Except DeltaError Ref
  | [], node => .ok node
  | seg :: rest, node =>
    match deref h node with
    | none => .error (.path full)
    | some c =>
      match c.child full seg with
      | .error e => .error e
      | .ok x => resolveValue h full rest x

/-- The address of the container at the end of a path. -/
def resolve (h : Heap) (path : Path) (root : Ref) : Except DeltaError ℕ :=
  match resolveValue h path path root with
  | .error e => .error e
  | .ok (.prim _) => .error (.path path)
  | .ok (.addr a) => .ok a

def applyEdit (h : Heap) (root : Ref) (path : Path) (e : EditOf Ref) : Except DeltaError (Heap × Ref) :=
  match resolve h (e.target path) root with
  | .error err => .error err
  | .ok a =>
    match h[a]? with
    | none => .error (.path path)
    | some c => (e.change path c).map (fun c => (h.set a c, root))

/-- One operation of `applyOps`. -/
def applyOp (h : Heap) (root : Ref) (op : OpOf Ref) : Except DeltaError (Heap × Ref) :=
  match op.assertValid with
  | .error e => .error e
  | .ok () =>
    match op with
    | .r value => .ok (h, value)
    | .edit path e => applyEdit h root path e

/-- Operations one after the other, each on what the ones before left behind. -/
def runOps {σ : Type} (step : σ → Ref → OpOf Ref → Except DeltaError (σ × Ref)) (st : σ) (root : Ref) :
    List (OpOf Ref) → Except DeltaError (σ × Ref)
  | [] => .ok (st, root)
  | op :: ops =>
    match step st root op with
    | .error e => .error e
    | .ok (st, root) => runOps step st root ops

def applyOps (h : Heap) (root : Ref) (ops : List (OpOf Ref)) : Except DeltaError (Heap × Ref) :=
    runOps applyOp h root ops

/-! ## Copies -/

/-- `owned` are the containers that this replay made. -/
structure Replay where
  heap : Heap
  owned : List ℕ

def Replay.alloc (st : Replay) (c : Container Ref) : Replay × ℕ :=
  ({ heap := st.heap ++ [c], owned := st.heap.length :: st.owned }, st.heap.length)

/-- The loop of `copyContainers`, at an owned container. -/
def copyWalk (full : Path) : Path → Replay → ℕ → Except DeltaError Replay
  | [], st, _ => .ok st
  | seg :: rest, st, destination =>
    match st.heap[destination]? with
    | none => .error (.path full)
    | some c =>
      if !c.hasOwn seg then .error (.path full)
      else
        match c.child full seg with
        | .error e => .error e
        | .ok (.prim _) => .error (.path full)
        | .ok (.addr child) =>
          if child ∈ st.owned then copyWalk full rest st child
          else
            match st.heap[child]? with
            | none => .error (.path full)
            | some copied =>
              let (st, fresh) := st.alloc copied
              copyWalk full rest { st with heap := st.heap.set destination (c.put seg (.addr fresh)) } fresh

def copyContainers (st : Replay) (root : Ref) (path : Path) : Except DeltaError (Replay × Ref) :=
  match root with
  | .prim _ => .error (.path path)
  | .addr a =>
    if a ∈ st.owned then (copyWalk path path st a).map (fun st => (st, .addr a))
    else
      match st.heap[a]? with
      | none => .error (.path path)
      | some copied =>
        let (st, fresh) := st.alloc copied
        (copyWalk path path st fresh).map (fun st => (st, .addr fresh))

/-- The loop of `appendCopy`: strings into objects, numbers into arrays, and nothing else. -/
def plainWalk (h : Heap) : Path → Ref → Option Ref
  | [], target => some target
  | .key k :: rest, target =>
    match deref h target with
    | some (.obj fs) => if k ∈ reservedSegments then none else (Assoc.get? fs k).bind (plainWalk h rest)
    | _ => none
  | .index i :: rest, target =>
    match deref h target with
    | some (.arr xs) => xs[i]?.bind (plainWalk h rest)
    | _ => none

/-- The array that a splice appends to by the shortcut. -/
def appendTarget (st : Replay) (root : Ref) (path : Path) (index deleteCount : ℕ) : Option (List Ref) :=
  if deleteCount ≠ 0 then none
  else
    match plainWalk st.heap path root with
    | some (.addr a) =>
      match st.heap[a]? with
      | some (.arr xs) => if a ∈ st.owned ∨ index ≠ xs.length then none else some xs
      | _ => none
    | _ => none

/-- `appendCopy`, for an array that `appendTarget` found. -/
def appendCopy (st : Replay) (root : Ref) (path : Path) (xs items : List Ref) : Except DeltaError (Replay × Ref) :=
  let (st, appended) := st.alloc (.arr (xs ++ items))
  match path.getLast? with
  | none => .ok (st, .addr appended)
  | some key =>
    match copyContainers st root path.dropLast with
    | .error e => .error e
    | .ok (st, copiedRoot) =>
      match resolve st.heap path.dropLast copiedRoot with
      | .error e => .error e
      | .ok parent =>
        match st.heap[parent]? with
        | none => .error (.path path)
        | some c => .ok ({ st with heap := st.heap.set parent (c.put key (.addr appended)) }, copiedRoot)

/-! ## Immutable replay -/

def copyAndApply (st : Replay) (root : Ref) (op : OpOf Ref) (target : Path) : Except DeltaError (Replay × Ref) :=
  match copyContainers st root target with
  | .error e => .error e
  | .ok (st, root) => (applyOp st.heap root op).map (fun p => ({ st with heap := p.1 }, p.2))

/-- One operation of `applyImmutableBatches`. -/
def replayOp (st : Replay) (root : Ref) (op : OpOf Ref) : Except DeltaError (Replay × Ref) :=
  match op.assertValid with
  | .error e => .error e
  | .ok () =>
    match op with
    | .r value => .ok (st, value)
    | .edit path (.p index remove items) =>
      match appendTarget st root path index remove with
      | some xs => appendCopy st root path xs items
      | none => copyAndApply st root (.edit path (.p index remove items)) path
    | .edit path e => copyAndApply st root (.edit path e) (e.target path)

def replayBatches (st : Replay) (root : Ref) : List (List (OpOf Ref)) → Except DeltaError (Replay × Ref)
  | [] => .ok (st, root)
  | ops :: batches =>
    match runOps replayOp st root ops with
    | .error e => .error e
    | .ok (st, root) => replayBatches st root batches

def applyImmutableBatches (h : Heap) (root : Ref) (batches : List (List (OpOf Ref))) : Except DeltaError
    (Heap × Ref) :=
  (replayBatches { heap := h, owned := [] } root batches).map (fun p => (p.1.heap, p.2))

def applyImmutable (h : Heap) (root : Ref) (ops : List (OpOf Ref)) : Except DeltaError (Heap × Ref) :=
  applyImmutableBatches h root [ops]

/-- Each batch by an `applyImmutable` of its own. -/
def applyEach (h : Heap) (root : Ref) : List (List (OpOf Ref)) → Except DeltaError (Heap × Ref)
  | [] => .ok (h, root)
  | ops :: batches =>
    match applyImmutable h root ops with
    | .error e => .error e
    | .ok (h, root) => applyEach h root batches

end Heap

end PiAgent.Delta
