import PiAgent.Chord.Delta.Apply

/-!
# Plans of array overlays

`tracker.ts`: a draft of an array is a list of pieces, which are runs of base elements
and of inserted ones, forwards or backwards. A plan says how to get from the base to
the pieces: `orderedArrayPlan` and `elementArrayPlan`.
-/

namespace PiAgent.Delta

/-! ## Pieces -/

inductive Kind (σ : Type) where
  | base
  | insert (source : σ)

/-- `1 | -1` -/
inductive Step where
  | up
  | down
deriving DecidableEq

def Step.value : Step → ℤ
  | .up => 1
  | .down => -1

/-- `σ` names the sources of inserted elements. -/
structure Piece (σ : Type) where
  kind : Kind σ
  start : ℕ
  length : ℕ
  step : Step

section

variable {σ : Type}

def Piece.isBase (piece : Piece σ) : Bool :=
  match piece.kind with
  | .base => true
  | .insert _ => false

/-- `piece.start + piece.step * offset` -/
def Piece.sourceIndex (piece : Piece σ) (offset : ℕ) : ℕ := (piece.start + piece.step.value * offset).toNat

def Piece.indices (piece : Piece σ) : List ℕ := (List.range piece.length).map piece.sourceIndex

def Piece.entries {α : Type} (base : List α) (values : σ → ℕ → α) (piece : Piece σ) : List α :=
  match piece.kind with
  | .base => piece.indices.filterMap (fun i => base[i]?)
  | .insert source => piece.indices.map (values source)

/-! ## Plans -/

/-- The code keeps the pairs and the triples in flat arrays. -/
structure ArrayPlan where
  removeRuns : List (ℕ × ℕ)
  permutation : Option (List ℕ)
  insertRuns : List (ℕ × ℕ × ℕ)

/-- The run from `start` to `stop`, as its start and its length, if there is one. -/
def run (start stop : ℕ) : List (ℕ × ℕ) := if start < stop then [(start, stop - start)] else []

/-- `insertRunsOf`, from a piece on. `opened` is the logical index and the piece at which the current run began. -/
def insertRunsFrom (logicalIndex pieceIndex : ℕ) (opened : Option (ℕ × ℕ)) : List (Piece σ) → List (ℕ × ℕ × ℕ)
  | [] => opened.toList.map (fun o => (o.1, o.2, pieceIndex))
  | piece :: rest =>
    if piece.isBase then
      opened.toList.map (fun o => (o.1, o.2, pieceIndex))
        ++ insertRunsFrom (logicalIndex + piece.length) (pieceIndex + 1) none rest
    else
      insertRunsFrom (logicalIndex + piece.length) (pieceIndex + 1)
          (opened.or (some (logicalIndex, pieceIndex))) rest

def insertRunsOf (pieces : List (Piece σ)) : List (ℕ × ℕ × ℕ) := insertRunsFrom 0 0 none pieces

/-- The retained base ranges, `[first, last]` each. `last` is the end of the range before. -/
def orderedRanges (last : Option ℕ) : List (Piece σ) → Option (List (ℕ × ℕ))
  | [] => some []
  | piece :: rest =>
    if !piece.isBase || piece.length = 0 then orderedRanges last rest
    else if piece.step ≠ .up ∧ 1 < piece.length then none
    else if last.any (fun last => piece.start ≤ last) then none
    else
      let last := piece.start + piece.length - 1
      (orderedRanges (some last) rest).map (fun ranges => (piece.start, last) :: ranges)

/-- The runs between ranges, from the end backwards. The ranges come last first. -/
def unretainedRuns (stop : ℕ) : List (ℕ × ℕ) → List (ℕ × ℕ)
  | [] => run 0 stop
  | (first, last) :: ranges => run (last + 1) stop ++ unretainedRuns first ranges

/-- The plan when the retained base elements keep their order. -/
def orderedArrayPlan (baseLength : ℕ) (pieces : List (Piece σ)) : Option ArrayPlan :=
  match orderedRanges none pieces with
  | none => none
  | some ranges =>
    some { removeRuns := unretainedRuns baseLength ranges.reverse
           permutation := none
           insertRuns := insertRunsOf pieces }

def targetBase (pieces : List (Piece σ)) : List ℕ := (pieces.filter Piece.isBase).flatMap Piece.indices

/-- The walk from the end backwards: `stop` is the end of the run that the walk is in. -/
def removeRunsFrom (retained : ℕ → Bool) : ℕ → ℕ → List (ℕ × ℕ)
  | 0, stop => run 0 stop
  | n + 1, stop =>
    if retained n then run (n + 1) stop ++ removeRunsFrom retained n n else removeRunsFrom retained n stop

def retainedBase (baseLength : ℕ) (pieces : List (Piece σ)) : List ℕ :=
  (List.range baseLength).filter (fun i => i ∈ targetBase pieces)

/-- The plan from a walk over every base element. -/
def elementArrayPlan (baseLength : ℕ) (pieces : List (Piece σ)) : ArrayPlan :=
  let targetBase := targetBase pieces
  let retainedBase := retainedBase baseLength pieces
  { removeRuns := removeRunsFrom (fun i => i ∈ targetBase) baseLength baseLength
    permutation :=
      if targetBase.zipIdx.any (fun p => retainedBase[p.2]? ≠ some p.1) then
        some (targetBase.map (fun i => retainedBase.idxOf i))
      else none
    insertRuns := insertRunsOf pieces }

/-! ## Operations -/

/-- The items of the pieces from `start` to `stop`. -/
def runItems {α : Type} (base : List α) (values : σ → ℕ → α) (pieces : List (Piece σ)) (start stop : ℕ) : List α :=
  ((pieces.drop start).take (stop - start)).flatMap (Piece.entries base values)

/-- What `emitArrayOperations` writes for a plan, up to its limit on the number of operations. -/
def ArrayPlan.operations (plan : ArrayPlan) (path : Path) (base : List JsonValue) (values : σ → ℕ → JsonValue)
    (pieces : List (Piece σ)) : List Op :=
  plan.removeRuns.map (fun r => .edit path (.p r.1 r.2 []))
    ++ plan.permutation.toList.map (fun permutation => .edit path (.m permutation))
    ++ plan.insertRuns.map (fun r => .edit path (.p r.1 0 (runItems base values pieces r.2.1 r.2.2)))

end

end PiAgent.Delta
