import PiAgent.Chord.Delta.Apply
import PiAgent.Chord.Delta.Matches
import PiAgent.Chord.Delta.Shared

/-!
# Computing a batch from two revisions

`delta/diff.ts`, with `overlap` of `delta/index.ts`. The functions that call each other
take a number of steps they may still make; `none` means it ran out.
-/

namespace PiAgent.Delta

open Shared

/-! ## Overlap -/

/-- The places where `head` stands in `tail`, as repeated `indexOf` finds them. -/
def occurrences (head tail : JsString) : List ℕ :=
  (List.range (tail.length + 1)).filter (fun k => head.isPrefixOf (tail.drop k))

/-- Tries the first candidates of one probe length. -/
def probeOverlap (tail b : JsString) (probe maxCandidates : ℕ) : Option ℕ :=
  let candidates := (occurrences (b.take probe) tail).take maxCandidates
  (candidates.find? (fun k => tail.length - k ≤ b.length && tail.drop k == b.take (tail.length - k))).map
    (fun k => tail.length - k)

/-- The longest suffix of `a` found that is a prefix of `b`; 0 for none. -/
def overlap (a b : JsString) (scan : ℕ) (probe maxCandidates : ℕ) : ℕ :=
  if a.isEmpty || b.isEmpty || scan == 0 then 0
  else
    let tail := if a.length > scan then a.drop (a.length - scan) else a
    let long := min probe b.length
    match probeOverlap tail b long maxCandidates with
    | some n => n
    | none => if long = 1 then 0 else (probeOverlap tail b 1 maxCandidates).getD 0

def defaultOverlapScan : ℕ := 65536

def defaultProbe : ℕ := 64

def defaultMaxCandidates : ℕ := 8

/-! ## Emitting -/

def maxDeltaOperations : ℕ := 4096

/-- The operations so far, and whether one did not fit. -/
structure Batch where
  operations : List Op
  overflowed : Bool

def Batch.emit (b : Batch) (op : Op) : Batch :=
  if b.overflowed then b
  else if b.operations.length ≥ maxDeltaOperations then { b with overflowed := true }
  else { b with operations := b.operations ++ [op] }

def emitSet (path : Path) (value : Shared) (b : Batch) : Batch :=
  if path.isEmpty then b.emit (.r value.value) else b.emit (.edit path (.s value.value))

def emitString (before after : JsString) (path : Path) (b : Batch) : Batch :=
  if before = after then b
  else if after.length > before.length ∧ after.take before.length = before then
    b.emit (.edit path (.a (after.drop before.length)))
  else
    let shared := overlap before after defaultOverlapScan defaultProbe defaultMaxCandidates
    if shared = 0 then b.emit (.edit path (.s (.str after)))
    else
      let b := b.emit (.edit path (.t (before.length - shared)))
      if after.length > shared then b.emit (.edit path (.a (after.drop shared))) else b

/-! ## The difference of two values -/

/-- A container of one side stands, unchanged, in the same slot on the other. -/
def semanticallyAligned (left right : Shared) : Bool :=
  sameValue left right ||
    match left, right with
    | .arr _ xs, .arr _ ys =>
      xs.length == ys.length && (xs.zip ys).any (fun p => p.1.isContainer && p.1.same p.2)
    | .obj _ fs, .obj _ gs =>
      fs.any (fun p => p.2.isContainer && (match Assoc.get? gs p.1 with
        | some w => p.2.same w
        | none => false))
    | _, _ => false

/-- Skips the items that are equal on both sides, and says how many. -/
def skipCommon : List Shared → List Shared → ℕ × List Shared × List Shared
  | x :: before, y :: after =>
    if sameValue x y then
      let (count, before, after) := skipCommon before after
      (count + 1, before, after)
    else (0, x :: before, y :: after)
  | before, after => (0, before, after)

def skipCommonSuffix (before after : List Shared) : List Shared × List Shared :=
  let (_, before, after) := skipCommon before.reverse after.reverse
  (before.reverse, after.reverse)

def positionalMatches (before after : List Shared) : List ArrayMatch :=
  ((List.range before.length).filter (fun i => (before.zip after)[i]?.any (fun p => sameValue p.1 p.2))).map
    (fun i => (i, i))

/-- The first kind of match that finds something in a region. -/
def regionMatches (before after : List Shared) : List ArrayMatch :=
  let positional := if before.length = after.length then positionalMatches before after else []
  if !positional.isEmpty then positional
  else
    let subsequence := (identitySubsequence (before.map identity) (after.map identity)).getD []
    if !subsequence.isEmpty then subsequence
    else
      let anchors := identityAnchors (before.map identity) (after.map identity)
      if !anchors.isEmpty then anchors
      else (lcsMatches semanticallyAligned before after maxSemanticCells).getD []

/-- The loop of `diffObject` over the keys of `before`. -/
def deleteFields (fs gs : List (JsString × Shared)) (path : Path) (b : Batch) : Batch :=
  (Assoc.keys fs).foldl
    (fun b key => if b.overflowed || Assoc.has gs key then b else b.emit (.edit (path ++ [.key key]) .d)) b

mutual

def diffValue (before after : Shared) (path : Path) (b : Batch) : ℕ → Option Batch
  | 0 => none
  | steps + 1 =>
    if before.same after || b.overflowed then some b
    else match before, after with
      | .prim (.str s), .prim (.str t) =>
        if path.isEmpty then some (emitSet path after b) else some (emitString s t path b)
      | .arr _ xs, .arr _ ys => diffArray before after xs ys path b steps
      | .obj _ fs, .obj _ gs => diffObject before after fs gs path b steps
      | _, _ => some (emitSet path after b)

def diffArray (before after : Shared) (xs ys : List Shared) (path : Path) (b : Batch) : ℕ → Option Batch
  | 0 => none
  | steps + 1 =>
    if before.same after || equalJson before after then some b
    else
      let ends := match xs.head?, ys.head?, xs.getLast?, ys.getLast? with
        | some x, some y, some x', some y' => !sameValue x y && !sameValue x' y'
        | _, _, _, _ => false
      let order := if xs.length = ys.length ∧ xs.length > 1 ∧ ends = true then
        permutation (xs.map identity) (ys.map identity) else none
      match order with
      | some order => some (b.emit (.edit path (.m order)))
      | none => diffArrayRegion xs ys path 0 b steps

def diffArrayRegion (before after : List Shared) (path : Path) (outputStart : ℕ) (b : Batch) : ℕ → Option Batch
  | 0 => none
  | steps + 1 =>
    if b.overflowed then some b
    else
      let (skipped, before, after) := skipCommon before after
      let outputStart := outputStart + skipped
      let (before, after) := skipCommonSuffix before after
      if before.isEmpty && after.isEmpty then some b
      else if before.isEmpty || after.isEmpty then
        some (b.emit (.edit path (.p outputStart before.length (values after))))
      else
        let found := regionMatches before after
        if !found.isEmpty then processArrayMatches before after path 0 0 outputStart b found steps
        else match before, after with
          | [x], [y] => diffValue x y (path ++ [.index outputStart]) b steps
          | _, _ => some (b.emit (.edit path (.p outputStart before.length (values after))))

/-- `before` and `after` are what is left of the region behind `beforeAt` and `afterAt`. -/
def processArrayMatches (before after : List Shared) (path : Path) (beforeAt afterAt outputAt : ℕ) (b : Batch)
    (found : List ArrayMatch) : ℕ → Option Batch
  | 0 => none
  | steps + 1 =>
    if b.overflowed then some b
    else match found with
      | [] => diffArrayRegion before after path outputAt b steps
      | (beforeMatch, afterMatch) :: found => do
        let b ← diffArrayRegion (before.take (beforeMatch - beforeAt)) (after.take (afterMatch - afterAt)) path
          outputAt b steps
        let outputAt := outputAt + (afterMatch - afterAt)
        let x := before.getD (beforeMatch - beforeAt) default
        let y := after.getD (afterMatch - afterAt) default
        let b ← if sameValue x y then some b else diffValue x y (path ++ [.index outputAt]) b steps
        processArrayMatches (before.drop (beforeMatch - beforeAt + 1)) (after.drop (afterMatch - afterAt + 1)) path
          (beforeMatch + 1) (afterMatch + 1) (outputAt + 1) b found steps

def diffObject (before after : Shared) (fs gs : List (JsString × Shared)) (path : Path) (b : Batch) :
    ℕ → Option Batch
  | 0 => none
  | steps + 1 =>
    if (Assoc.keys fs ++ Assoc.keys gs).any (· ∈ reservedSegments) then
      if equalJson before after then some b else some (emitSet path after b)
    else do
      let b ← diffFields fs gs path b steps
      return deleteFields fs gs path b

/-- The loop over the keys of `after`. -/
def diffFields (fs gs : List (JsString × Shared)) (path : Path) (b : Batch) : ℕ → Option Batch
  | 0 => none
  | steps + 1 =>
    if b.overflowed then some b
    else match gs with
      | [] => some b
      | (key, y) :: gs => do
        let b ← match Assoc.get? fs key with
          | some x => diffValue x y (path ++ [.key key]) b steps
          | none => some (emitSet (path ++ [.key key]) y b)
        diffFields fs gs path b steps

end

theorem diffArray_order (before after : Shared) (xs ys : List Shared) (path : Path)
    (h : ¬ (before.same after || equalJson before after) = true) :
    ∃ order : Option (List ℕ), (∀ o, order = some o → permutation (xs.map identity) (ys.map identity) = some o) ∧
      ∀ b steps, diffArray before after xs ys path b (steps + 1) = match order with
        | some order => some (b.emit (.edit path (.m order)))
        | none => diffArrayRegion xs ys path 0 b steps := by
  refine ⟨_, ?_, fun b steps => by unfold diffArray; exact if_neg h⟩
  intro o ho
  split_ifs at ho
  · exact ho

/-! ## Cost -/

section Cost

-- `String(n)`
variable (numberText : ℚ → JsString)

mutual

def jsonCost : JsonValue → ℕ
  | .prim .null => 4
  | .prim (.str s) => s.length + 2
  | .prim (.num n) => (numberText n).length
  | .prim (.bool b) => if b then 4 else 5
  | .arr items => 2 + itemsCost items
  | .obj fields => 2 + fieldsCost fields

/-- The items, with a comma before each but the first. -/
def itemsCost : List JsonValue → ℕ
  | [] => 0
  | x :: xs => jsonCost x + (if xs.isEmpty then 0 else 1) + itemsCost xs

def fieldsCost : List (JsString × JsonValue) → ℕ
  | [] => 0
  | (k, v) :: fs => k.length + 3 + jsonCost v + (if fs.isEmpty then 0 else 1) + fieldsCost fs

end

def segCost : Seg → ℕ
  | .key k => k.length + 2
  | .index i => (decimal i).length

def pathCost (path : Path) : ℕ := 2 + (path.map segCost).sum + (path.length - 1)

def operationCost : Op → ℕ
  | .r value => 6 + jsonCost numberText value
  | .edit path (.s value) => 7 + pathCost path + jsonCost numberText value
  | .edit path .d => 6 + pathCost path
  | .edit path (.a text) => 7 + pathCost path + text.length + 2
  | .edit path (.t count) => 7 + pathCost path + (decimal count).length
  | .edit path (.p index remove items) =>
    10 + pathCost path + (decimal index).length + (decimal remove).length + jsonCost numberText (.arr items)
  | .edit path (.m permutation) =>
    7 + pathCost path + jsonCost numberText (.arr (permutation.map (fun i => .num i)))

def deltaCost (operations : List Op) : ℕ := 2 + (operations.map (fun op => operationCost numberText op + 1)).sum

/-- The batch, or one replacement when the batch is too long or costs more. -/
def diffRevisions (before after : Shared) (steps : ℕ) : Option (List Op) := do
  let b ← diffValue before after [] { operations := [], overflowed := false } steps
  if b.overflowed then return [.r after.value]
  if b.operations.isEmpty || isBase b.operations then return b.operations
  if deltaCost numberText b.operations < 65536 then return b.operations
  if deltaCost numberText b.operations ≥ jsonCost numberText after.value + 6 then return [.r after.value]
  return b.operations

end Cost

end PiAgent.Delta
