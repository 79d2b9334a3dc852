import PiAgent.Chord.Delta.PieceTree
import PiAgent.Lib.Run

/-!
# Array overlays

`tracker.ts`: a draft of an array keeps its base, a tree of pieces, and the values that
were written over single elements. Every operation on the draft is an operation on a list.
-/

namespace PiAgent.Delta

open Option List

/-- An element of the base, or of a source of inserted elements, by its index there. -/
abbrev Site := Kind ℕ × ℕ

/-- The code keeps the overrides of the base in one map, and those of every source in another. -/
structure ArrayOverlay (α : Type) where
  root : PieceTree ℕ
  pieces : Option (List (Piece ℕ))
  overrides : List (Site × α)
  sources : List (List α)
  structural : Bool
  generation : ℕ
  seed : UInt32

/-- What sorting does for any comparator: it moves the elements, by comparisons alone. -/
structure SortEngine where
  sort : ∀ {β : Type}, (β → β → Ordering) → List β → List β
  perm : ∀ {β : Type} (compare : β → β → Ordering) (items : List β), (sort compare items).Perm items
  natural : ∀ {β γ : Type} (f : β → γ) (compare : γ → γ → Ordering) (items : List β),
    (sort (fun a b => compare (f a) (f b)) items).map f = sort compare (items.map f)

/-- `toIntegerOrInfinity` -/
inductive Position where
  | negInfinity
  | int (value : ℤ)
  | infinity

structure ArrayContext (α : Type) where
  base : List α
  null : α
  isContainer : α → Bool
  position : α → Position
  engine : SortEngine

section

variable {α : Type}

def arrayLength (overlay : ArrayOverlay α) : ℕ := treeElements overlay.root

def ArrayOverlay.refs (overlay : ArrayOverlay α) (source : ℕ) : List α := overlay.sources[source]?.getD []

def piecesOf (overlay : ArrayOverlay α) : List (Piece ℕ) := overlay.pieces.getD overlay.root.pieces

/-! ## Replacing pieces -/

/-- The last piece goes to the end of its source, and one inserted piece comes after it: the source of the last
piece grows. -/
def growing (overlay : ArrayOverlay α) (index remove : ℕ) : List (Piece ℕ) → Option (Piece ℕ × ℕ × ℕ)
  | [addition] =>
    if remove = 0 ∧ index = arrayLength overlay then
      match rightmostPiece overlay.root with
      | some tail =>
        match addition.kind, tail.kind with
        | .insert source, .insert target =>
          if tail.step = .up ∧ tail.start + tail.length = (overlay.refs target).length then
            some (addition, source, target)
          else none
        | _, _ => none
      | none => none
    else none
  | _ => none

def ArrayOverlay.restructured (overlay : ArrayOverlay α) (root : PieceTree ℕ) (seed : UInt32) : ArrayOverlay α :=
  { overlay with root := root, seed := seed, pieces := none, structural := true
                 generation := overlay.generation + 1 }

def replacePieceRange (overlay : ArrayOverlay α) (index remove : ℕ) (inserted : List (Piece ℕ)) : ArrayOverlay α :=
  if remove = 0 ∧ inserted = [] then overlay
  else match growing overlay index remove inserted with
    | some (addition, source, target) =>
      let added := ((overlay.refs source).drop addition.start).take addition.length
      let grown := { overlay with sources := overlay.sources.set target (overlay.refs target ++ added) }
      grown.restructured (extendRightmostPiece addition.length overlay.root) overlay.seed
    | none =>
      let ((left, rest), seed) := splitPieceTree overlay.seed overlay.root index
      let ((_, right), seed) := splitPieceTree seed rest remove
      let (middle, seed) := treeFromPieces seed inserted
      let (joined, seed) := joinPieceTrees seed left middle
      let (root, seed) := joinPieceTrees seed joined right
      overlay.restructured root seed

/-- `insertPlacementPiece`, and `insertPiece` with `start` zero. -/
def insertPlacementPiece (overlay : ArrayOverlay α) (values : List α) (start : ℕ) :
    ArrayOverlay α × List (Piece ℕ) :=
  if values.length = start then (overlay, [])
  else ({ overlay with sources := overlay.sources ++ [values] },
    [⟨.insert overlay.sources.length, start, values.length - start, .up⟩])

def replaceWith (overlay : ArrayOverlay α) (index remove : ℕ) (values : List α) (start : ℕ) : ArrayOverlay α :=
  replacePieceRange (insertPlacementPiece overlay values start).1 index remove
      (insertPlacementPiece overlay values start).2

/-! ## Reading -/

variable (c : ArrayContext α)

def original (overlay : ArrayOverlay α) : Site → Option α
  | (.base, index) => c.base[index]?
  | (.insert source, index) => (overlay.refs source)[index]?

def entryValueAt (overlay : ArrayOverlay α) (site : Site) : Option α :=
  (Assoc.get? overlay.overrides site).or (original c overlay site)

def getArrayIndex (overlay : ArrayOverlay α) (index : ℕ) : Option α :=
  (locatePiece overlay.root index).bind (fun p => entryValueAt c overlay (p.1.kind, p.1.sourceIndex p.2))

/-- The overlay of an array that was not written to. -/
def arrayOverlay : ArrayOverlay α :=
  { root := if c.base = [] then .nil else createPieceNode 0x9e3779b9 ⟨.base, 0, c.base.length, .up⟩
    pieces := none
    overrides := []
    sources := []
    structural := false
    generation := 0
    seed := if c.base = [] then 0x9e3779b9 else nextPiecePriority 0x9e3779b9 }

/-! ## Operations -/

section

variable [DecidableEq α]

def setArrayIndex (overlay : ArrayOverlay α) (index : ℕ) (stored : α) : ArrayOverlay α :=
  if index = arrayLength overlay then replaceWith overlay index 0 [stored] 0
  else match locatePiece overlay.root index with
    | none => overlay
    | some (piece, offset) =>
      let site := (piece.kind, piece.sourceIndex offset)
      if !c.isContainer stored && entryValueAt c overlay site = some stored then overlay
      else if !c.isContainer stored && original c overlay site = some stored then
        { overlay with overrides := Assoc.del overlay.overrides site }
      else { overlay with overrides := Assoc.set overlay.overrides site stored }

end

def setArrayLength (overlay : ArrayOverlay α) (next : ℕ) : ArrayOverlay α :=
  let current := arrayLength overlay
  if next = current then overlay
  else if next < current then replacePieceRange overlay next (current - next) []
  else replaceWith overlay current 0 (List.replicate (next - current) c.null) 0

def clampIndex : Position → ℕ → ℕ
  | .negInfinity, _ => 0
  | .int value, length => if value < 0 then (length + value).toNat else min value.toNat length
  | .infinity, length => length

/-- `Math.min(Math.max(count, 0), limit)` -/
def clampCount : Position → ℕ → ℕ
  | .negInfinity, _ => 0
  | .int value, limit => min value.toNat limit
  | .infinity, limit => limit

/-- Where `splice` begins, and how many elements it removes. -/
def spliceRange (args : List α) (length : ℕ) : ℕ × ℕ :=
  match args with
  | [] => (0, 0)
  | [start] => (clampIndex (c.position start) length, length - clampIndex (c.position start) length)
  | start :: count :: _ => (clampIndex (c.position start) length,
      clampCount (c.position count) (length - clampIndex (c.position start) length))

def spliceArray (overlay : ArrayOverlay α) (args : List α) : ArrayOverlay α :=
  let length := arrayLength overlay
  let (start, remove) := spliceRange c args length
  setArrayLength c (replaceWith overlay start remove args (min 2 args.length)) (length - remove + (args.length - 2))

def reverseArray (overlay : ArrayOverlay α) : ArrayOverlay α :=
  if arrayLength overlay < 2 then overlay
  else
    let (root, seed) := treeFromPieces overlay.seed ((piecesOf overlay).reverse.map Piece.reversed)
    overlay.restructured root seed

/-- A piece that takes in the next element, if it continues there. -/
def Piece.taking (piece : Piece ℕ) (site : Site) : Option (Piece ℕ) :=
  if piece.kind ≠ site.1 then none
  else if piece.length = 1 then
    (neighbours piece ⟨site.1, site.2, 1, .up⟩).map (fun step => { piece with step := step, length := 2 })
  else if (piece.start : ℤ) + piece.step.value * piece.length = site.2 then
    some { piece with length := piece.length + 1 }
  else none

/-- `piecesFromSortOrder`, after the pieces before the previous one. -/
def piecesFromSortOrder : Option (Piece ℕ) → List Site → List (Piece ℕ)
  | previous, [] => previous.toList
  | previous, site :: order =>
    match previous.bind (Piece.taking · site) with
    | some piece => piecesFromSortOrder (some piece) order
    | none => previous.toList ++ piecesFromSortOrder (some ⟨site.1, site.2, 1, .up⟩) order

/-- The comparator leaves the array alone. -/
def sortArray (overlay : ArrayOverlay α) (compare : Option α → Option α → Ordering) : ArrayOverlay α :=
  let order := c.engine.sort (fun a b => compare (entryValueAt c overlay a) (entryValueAt c overlay b))
    (sites (piecesOf overlay))
  let samePrefix := order.zipIdx.all (fun token =>
    (locatePiece overlay.root token.2).map (fun p => (p.1.kind, p.1.sourceIndex p.2)) = some token.1)
  if samePrefix then overlay
  else replacePieceRange overlay 0 (min order.length (arrayLength overlay)) (piecesFromSortOrder none order)

def fillArray (overlay : ArrayOverlay α) (supplied : α) (startArg endArg : Option Position) : ArrayOverlay α :=
  let length := arrayLength overlay
  let start := startArg.elim 0 (clampIndex · length)
  let stop := endArg.elim length (clampIndex · length)
  if stop ≤ start then overlay
  else replaceWith overlay start (stop - start) (List.replicate (stop - start) supplied) 0

/-- How many elements `copyWithin` copies. -/
def copyCount (targetArg startArg : Position) (endArg : Option Position) (length : ℕ) : ℕ :=
  min (endArg.elim length (clampIndex · length) - clampIndex startArg length) (length - clampIndex targetArg length)

def copyWithinArray (overlay : ArrayOverlay α) (targetArg startArg : Position) (endArg : Option Position) :
    ArrayOverlay α :=
  let length := arrayLength overlay
  let count := copyCount targetArg startArg endArg length
  let values := (List.range count).filterMap
      (fun offset => getArrayIndex c overlay (clampIndex startArg length + offset))
  replaceWith overlay (clampIndex targetArg length) count values 0

inductive ArrayOp (α : Type) where
  | replacePieceRange (index remove : ℕ) (inserted : List (Piece ℕ))
  | replaceWith (index remove : ℕ) (values : List α) (start : ℕ)
  | setIndex (index : ℕ) (stored : α)
  | setLength (next : ℕ)
  | push (items : List α)
  | pop
  | shift
  | unshift (items : List α)
  | splice (args : List α)
  | reverse
  | sort (compare : Option α → Option α → Ordering)
  | fill (supplied : α) (startArg endArg : Option Position)
  | copyWithin (targetArg startArg : Position) (endArg : Option Position)

def ArrayOp.apply [DecidableEq α] (overlay : ArrayOverlay α) : ArrayOp α → ArrayOverlay α
  | .replacePieceRange index remove inserted => Delta.replacePieceRange overlay index remove inserted
  | .replaceWith index remove values start => Delta.replaceWith overlay index remove values start
  | .setIndex index stored => setArrayIndex c overlay index stored
  | .setLength next => setArrayLength c overlay next
  | .push items => Delta.replaceWith overlay (arrayLength overlay) 0 items 0
  | .pop =>
    if arrayLength overlay = 0 then overlay else Delta.replacePieceRange overlay (arrayLength overlay - 1) 1 []
  | .shift => if arrayLength overlay = 0 then overlay else Delta.replacePieceRange overlay 0 1 []
  | .unshift items => Delta.replaceWith overlay 0 0 items 0
  | .splice args => spliceArray c overlay args
  | .reverse => reverseArray overlay
  | .sort compare => sortArray c overlay compare
  | .fill supplied startArg endArg => fillArray overlay supplied startArg endArg
  | .copyWithin targetArg startArg endArg => copyWithinArray c overlay targetArg startArg endArg

/-! ## The same on a list -/

def ArrayOp.onList (read : Site → Option α) (l : List α) : ArrayOp α → List α
  | .replacePieceRange index remove inserted =>
    l.take index ++ (sites inserted).filterMap read ++ l.drop (index + remove)
  | .replaceWith index remove values start => l.take index ++ values.drop start ++ l.drop (index + remove)
  | .setIndex index stored => if index = l.length then l ++ [stored] else l.set index stored
  | .setLength next => l.take next ++ List.replicate (next - l.length) c.null
  | .push items => l ++ items
  | .pop => l.dropLast
  | .shift => l.tail
  | .unshift items => items ++ l
  | .splice args =>
    let (start, remove) := spliceRange c args l.length
    l.take start ++ args.drop 2 ++ l.drop (start + remove)
  | .reverse => l.reverse
  | .sort compare => c.engine.sort (fun a b => compare (some a) (some b)) l
  | .fill supplied startArg endArg =>
    let start := startArg.elim 0 (clampIndex · l.length)
    let stop := endArg.elim l.length (clampIndex · l.length)
    if stop ≤ start then l else l.take start ++ List.replicate (stop - start) supplied ++ l.drop stop
  | .copyWithin targetArg startArg endArg =>
    let target := clampIndex targetArg l.length
    let count := copyCount targetArg startArg endArg l.length
    l.take target ++ (l.drop (clampIndex startArg l.length)).take count ++ l.drop (target + count)

/-- Pieces that were put together for a range: they lead to elements that the other pieces do not lead to. A piece
that the last one can take in is new. -/
structure Insertable (overlay : ArrayOverlay α) (index remove : ℕ) (inserted : List (Piece ℕ)) : Prop where
  range : index + remove ≤ arrayLength overlay
  valid : ∀ piece ∈ inserted, piece.Valid
  there : ∀ site ∈ sites inserted, (original c overlay site).isSome = true
  nodup : ((sites overlay.root.pieces).take index ++ sites inserted ++
    (sites overlay.root.pieces).drop (index + remove)).Nodup
  fresh : growing overlay index remove inserted = none ∨ ∀ piece ∈ inserted, piece.step = .up ∧
    ∀ site ∈ piece.sites, Assoc.get? overlay.overrides site = none

def ArrayOp.Fits (overlay : ArrayOverlay α) : ArrayOp α → Prop
  | .replacePieceRange index remove inserted => Insertable c overlay index remove inserted
  | .replaceWith index remove values start => index + remove ≤ arrayLength overlay ∧ start ≤ values.length
  | .setIndex index _ => index ≤ arrayLength overlay
  | _ => True

def overlayMachine [DecidableEq α] : Machine (ArrayOverlay α × List α) (ArrayOp α) Unit where
  start := (arrayOverlay c, c.base)
  step := fun s op => ((op.apply c s.1, op.onList c (entryValueAt c s.1) s.2), ())

/-- What is read of an overlay is the list. -/
structure Refines (overlay : ArrayOverlay α) (l : List α) : Prop where
  read : (List.range (arrayLength overlay)).map (getArrayIndex c overlay) = l.map some
  length : arrayLength overlay = l.length
  sized : overlay.root.Sized
  distinct : (targetBase overlay.root.pieces).Nodup

/-! ## What every operation keeps -/

structure Represents (overlay : ArrayOverlay α) (l : List α) : Prop where
  root : overlay.root.Denotes (sites overlay.root.pieces)
  nodup : (sites overlay.root.pieces).Nodup
  values : (sites overlay.root.pieces).map (entryValueAt c overlay) = l.map some
  known : ∀ site ∈ Assoc.keys overlay.overrides, (original c overlay site).isSome = true
  cache : ∀ pieces, overlay.pieces = some pieces → pieces = overlay.root.pieces

variable {c} {overlay : ArrayOverlay α} {l : List α}

section

variable (h : Represents c overlay l)
include h

theorem Represents.length : arrayLength overlay = l.length := by
  unfold arrayLength
  rw [h.root.length, ← length_map (f := entryValueAt c overlay), h.values, length_map]

theorem Represents.sites_length : (sites overlay.root.pieces).length = l.length := by
  rw [← h.length, arrayLength, h.root.length]

theorem Represents.piecesOf : piecesOf overlay = overlay.root.pieces := by
  unfold Delta.piecesOf
  cases hp : overlay.pieces with
  | none => rfl
  | some pieces => exact h.cache pieces hp

/-- Every element is in the base or in a source. -/
theorem Represents.there (site : Site) (hs : site ∈ sites overlay.root.pieces) :
    (original c overlay site).isSome = true := by
  have hmem : entryValueAt c overlay site ∈ l.map some := h.values ▸ mem_map_of_mem hs
  obtain ⟨value, -, hvalue⟩ := mem_map.mp hmem
  unfold entryValueAt at hvalue
  cases hover : Assoc.get? overlay.overrides site with
  | none =>
    rw [hover, none_or] at hvalue
    simp [← hvalue]
  | some other => exact h.known site ((Assoc.has_iff _ _).mp (by simp [Assoc.has, hover]))

theorem Represents.at (index : ℕ) (hi : index < l.length) :
    ∃ piece offset, locatePiece overlay.root index = some (piece, offset) ∧
      (sites overlay.root.pieces)[index]? = some (piece.kind, piece.sourceIndex offset) ∧
      entryValueAt c overlay (piece.kind, piece.sourceIndex offset) = l[index]? := by
  obtain ⟨piece, offset, hlocate, -, -, hat⟩ := locatePiece_denotes index h.root (by rwa [h.sites_length])
  refine ⟨piece, offset, hlocate, hat, ?_⟩
  have := congrArg (fun values => values[index]?) h.values
  simpa [hat, getElem?_eq_getElem hi] using this

theorem Represents.getArrayIndex (index : ℕ) (hi : index < l.length) :
    getArrayIndex c overlay index = l[index]? := by
  obtain ⟨piece, offset, hlocate, -, hvalue⟩ := h.at index hi
  rw [Delta.getArrayIndex, hlocate]
  exact hvalue

end

theorem targetBase_sites (pieces : List (Piece ℕ)) :
    (targetBase pieces).map (fun i => ((.base : Kind ℕ), i)) =
      (sites pieces).filter (fun site => site.1 = .base) := by
  induction pieces with
  | nil => rfl
  | cons piece rest ih =>
    rw [sites_cons, filter_append, ← ih]
    cases hk : piece.kind with
    | base =>
      have hsites : piece.sites.filter (fun site => site.1 = .base) = piece.sites := by
        simp [Piece.sites, hk]
      rw [hsites]
      simp [targetBase, Piece.isBase, hk, Piece.sites]
    | insert source =>
      have hsites : piece.sites.filter (fun site => site.1 = .base) = [] := by
        simp [Piece.sites, hk]
      simp [targetBase, Piece.isBase, hk, hsites]

theorem Represents.refines (h : Represents c overlay l) : Refines c overlay l := by
  refine ⟨ext_getElem? (fun i => ?_), h.length, h.root.sized, ?_⟩
  · rw [getElem?_map, getElem?_map, h.length]
    by_cases hi : i < l.length
    · rw [getElem?_range hi, map_some, h.getArrayIndex i hi, getElem?_eq_getElem hi, map_some]
    · rw [getElem?_eq_none (by simpa using hi), getElem?_eq_none (Nat.le_of_not_lt hi)]
      rfl
  · have := (List.Nodup.filter (fun site : Site => site.1 = .base) h.nodup)
    rw [← targetBase_sites] at this
    exact this.of_map _

/-! ## New trees and new sources -/

theorem Represents.restructured (h : Represents c overlay l) (root : PieceTree ℕ) (seed : UInt32)
    (elements : List Site)
    (l' : List α) (hroot : root.Denotes elements) (hnodup : elements.Nodup)
    (hvalues : elements.map (entryValueAt c overlay) = l'.map some) :
    Represents c (overlay.restructured root seed) l' := by
  obtain rfl := hroot.sites
  exact ⟨hroot, hnodup, hvalues, h.known, fun _ hp => by cases hp⟩

theorem Represents.free (h : Represents c overlay l) (site : Site) (hnone : original c overlay site = none) :
    Assoc.get? overlay.overrides site = none := by
  rw [Assoc.get?_eq_none_iff]
  intro hkey
  have := h.known site hkey
  rw [hnone] at this
  cases this

theorem Piece.sites_nodup (piece : Piece ℕ) (hup : piece.step = .up) : piece.sites.Nodup := by
  refine List.Nodup.map_on ?_ nodup_range |>.map (fun a b hab => (Prod.mk.inj hab).2)
  intro i _ j _ hij
  rw [Piece.sourceIndex_up _ hup, Piece.sourceIndex_up _ hup] at hij
  omega

/-- A piece of elements that were not there before has the values at its place in its source. -/
theorem Represents.reads_new (h : Represents c overlay l) (new : Piece ℕ) (source : ℕ) (values : List α)
    (sources : List (List α)) (hkind : new.kind = .insert source) (hup : new.step = .up)
    (hnone : ∀ site ∈ new.sites, original c overlay site = none) (hlength : new.length = values.length)
    (hvalues : (({ overlay with sources := sources } : ArrayOverlay α).refs source).drop new.start = values) :
    new.sites.map (entryValueAt c { overlay with sources := sources }) = values.map some ∧
      ∀ site ∈ new.sites, (original c { overlay with sources := sources } site).isSome = true := by
  have hat : ∀ i, original c { overlay with sources := sources } (new.kind, new.sourceIndex i) = values[i]? := by
    intro i
    rw [hkind, Piece.sourceIndex_up _ hup, ← hvalues, getElem?_drop]
    rfl
  refine ⟨ext_getElem? (fun i => ?_), fun site hs => ?_⟩
  · rw [getElem?_map, getElem?_map, Piece.getElem?_sites]
    split
    · rename_i hi
      have hfree := h.free (new.kind, new.sourceIndex i)
        (hnone _ (mem_of_getElem? (by rw [Piece.getElem?_sites, if_pos hi])))
      rw [map_some, entryValueAt, hfree, none_or, hat, getElem?_eq_getElem (hlength ▸ hi)]
      rfl
    · rename_i hi
      rw [getElem?_eq_none (hlength ▸ Nat.le_of_not_lt hi)]
      rfl
  · obtain ⟨index, hindex, rfl⟩ := mem_map.mp hs
    obtain ⟨i, hi, rfl⟩ := mem_map.mp hindex
    rw [hat, getElem?_eq_getElem (hlength ▸ mem_range.mp hi)]
    rfl

/-- More elements in the sources change nothing. -/
theorem Represents.more (h : Represents c overlay l) (sources : List (List α))
    (hmore : ∀ site, (original c overlay site).isSome = true →
      original c { overlay with sources := sources } site = original c overlay site) :
    Represents c { overlay with sources := sources } l := by
  refine ⟨h.root, h.nodup, ?_, fun site hs => ?_, h.cache⟩
  · rw [← h.values]
    refine map_congr_left (fun site hs => ?_)
    unfold entryValueAt
    rw [hmore site (h.there site hs)]
  · rw [hmore site (h.known site hs)]
    exact h.known site hs

theorem growing_eq (index remove : ℕ) (inserted : List (Piece ℕ)) (addition : Piece ℕ) (source target : ℕ)
    (h : growing overlay index remove inserted = some (addition, source, target)) :
    inserted = [addition] ∧ remove = 0 ∧ index = arrayLength overlay ∧ addition.kind = .insert source ∧
      ∃ tail, rightmostPiece overlay.root = some tail ∧ tail.kind = .insert target ∧ tail.step = .up ∧
        tail.start + tail.length = (overlay.refs target).length := by
  unfold growing at h
  split at h
  · split at h
    · rename_i hplace
      split at h
      · rename_i tail htail
        split at h
        · rename_i hsource htarget
          split at h
          · rename_i hend
            obtain ⟨rfl, rfl, rfl⟩ := some.inj h
            exact ⟨rfl, hplace.1, hplace.2, hsource, tail, htail, htarget, hend.1, hend.2⟩
          · cases h
        · cases h
      · cases h
    · cases h
  · cases h

theorem refs_set (source target : ℕ) (values : List α) (h : target < overlay.sources.length) :
    ({ overlay with sources := overlay.sources.set target values } : ArrayOverlay α).refs source =
      if source = target then values else overlay.refs source := by
  unfold ArrayOverlay.refs
  split
  · rename_i heq
    simp [heq, h]
  · rename_i hne
    simp [Ne.symm hne]

theorem lt_sources (source index : ℕ) (h : ((overlay.refs source)[index]?).isSome = true) :
    source < overlay.sources.length := by
  by_contra hle
  simp [ArrayOverlay.refs, getElem?_eq_none (Nat.le_of_not_lt hle)] at h

/-- The elements of a new piece, read from its source. -/
theorem added_values (source : ℕ) (addition : Piece ℕ) (values : List α) (hkind : addition.kind = .insert source)
    (hup : addition.step = .up) (hfree : ∀ site ∈ addition.sites, Assoc.get? overlay.overrides site = none)
    (hvalues : addition.sites.map (entryValueAt c overlay) = values.map some) :
    ((overlay.refs source).drop addition.start).take addition.length = values := by
  refine ext_getElem? (fun i => ?_)
  have hat := congrArg (fun values => values[i]?) hvalues
  simp only [getElem?_map, Piece.getElem?_sites] at hat
  rw [getElem?_take, getElem?_drop]
  split at hat
  · rename_i hi
    have hfree' := hfree (addition.kind, addition.sourceIndex i)
      (mem_of_getElem? (by rw [Piece.getElem?_sites, if_pos hi]))
    rw [map_some, entryValueAt, hfree', none_or, hkind, Piece.sourceIndex_up _ hup] at hat
    rw [if_pos hi]
    cases hv : values[i]? with
    | none => simp [hv] at hat
    | some value => simpa [hv, original] using hat
  · rename_i hi
    rw [if_neg hi]
    cases hv : values[i]? with
    | none => rfl
    | some value => simp [hv] at hat

/-- Elements that are appended to the source of the last piece. -/
theorem Represents.grow (h : Represents c overlay l) (addition : Piece ℕ) (source target : ℕ) (values : List α)
    (hgrow : growing overlay l.length 0 [addition] = some (addition, source, target)) (hup : addition.step = .up)
    (hfree : ∀ site ∈ addition.sites, Assoc.get? overlay.overrides site = none)
    (hvalues : addition.sites.map (entryValueAt c overlay) = values.map some) :
    Represents c (({ overlay with sources := overlay.sources.set target (overlay.refs target ++
      ((overlay.refs source).drop addition.start).take addition.length) } : ArrayOverlay α).restructured
        (extendRightmostPiece addition.length overlay.root) overlay.seed) (l ++ values) := by
  obtain ⟨-, -, -, hkind, tail, htail, hkind', hup', hend⟩ := growing_eq _ _ _ _ _ _ hgrow
  rw [added_values source addition values hkind hup hfree hvalues]
  obtain ⟨before, hbefore, hafter⟩ := extendRightmostPiece_pieces addition.length tail htail
  have hlength : addition.length = values.length := by
    rw [← Piece.length_sites, ← length_map (f := entryValueAt c overlay), hvalues, length_map]
  have hvalid := h.root.valid tail (by simp [hbefore])
  -- the last element of the last piece is the last one of its source
  have htarget : target < overlay.sources.length := by
    have hlast := h.there (.insert target, tail.start + (tail.length - 1)) (by
      rw [hbefore, sites_append, sites_cons]
      refine mem_append_right _ (mem_append_left _ (mem_of_getElem? (i := tail.length - 1) ?_))
      have := hvalid.1
      rw [Piece.getElem?_sites, if_pos (by omega), hkind', Piece.sourceIndex_up _ hup'])
    exact lt_sources target _ hlast
  have hrefs := fun source => refs_set source target (overlay.refs target ++ values) htarget
  have hmore := h.more (overlay.sources.set target (overlay.refs target ++ values)) (fun site hs => by
    obtain ⟨kind, index⟩ := site
    cases kind with
    | base => rfl
    | insert s =>
      simp only [original, hrefs] at hs ⊢
      split
      · rename_i heq
        subst heq
        rw [getElem?_append_left (by simpa using hs)]
      · rfl)
  let new : Piece ℕ := ⟨.insert target, (overlay.refs target).length, addition.length, .up⟩
  have hsites :
      ({ tail with length := tail.length + addition.length } : Piece ℕ).sites = tail.sites ++ new.sites := by
    refine Piece.sites_append _ _ _ rfl hkind' rfl (fun k _ => rfl) (fun k hk => ?_)
    simp only [new, Piece.sourceIndex, hup', Step.value]
    omega
  have hnone : ∀ site ∈ new.sites, original c overlay site = none := by
    intro site hs
    obtain ⟨i, hi⟩ := mem_iff_getElem?.mp hs
    rw [Piece.getElem?_sites] at hi
    split at hi
    · obtain rfl := some.inj hi
      rw [Piece.sourceIndex_up _ rfl]
      exact getElem?_eq_none (Nat.le_add_right _ _)
    · cases hi
  refine hmore.restructured _ _ (sites overlay.root.pieces ++ new.sites) _
      ⟨extendRightmostPiece_sized _ h.root.sized, ?_, ?_⟩ ?_ ?_
  · intro p hp
    rw [hafter, mem_append, mem_singleton] at hp
    rcases hp with hp | rfl
    · exact h.root.valid p (by simp [hbefore, hp])
    · exact ⟨Nat.lt_of_lt_of_le hvalid.1 (Nat.le_add_right _ _), fun hs => absurd (hup'.symm.trans hs) (by decide)⟩
  · rw [hafter, hbefore, sites_append, sites_append, sites_cons, sites_cons, sites_nil, hsites]
    simp
  · refine List.Nodup.append h.nodup (Piece.sites_nodup new rfl) (fun site hs hs' => ?_)
    have := h.there site hs
    rw [hnone site hs'] at this
    cases this
  · rw [map_append, map_append, hmore.values]
    congr 1
    exact (h.reads_new new target values _ rfl rfl hnone hlength (by rw [hrefs, if_pos rfl, drop_left])).1

theorem replacePieceRange_represents (h : Represents c overlay l) (index remove : ℕ) (inserted : List (Piece ℕ))
    (hfits : Insertable c overlay index remove inserted) (values : List α)
    (hvalues : (sites inserted).map (entryValueAt c overlay) = values.map some) :
    Represents c (replacePieceRange overlay index remove inserted)
      (l.take index ++ values ++ l.drop (index + remove)) := by
  have hrange := hfits.range
  rw [h.length] at hrange
  unfold replacePieceRange
  split
  · rename_i hnothing
    obtain ⟨rfl, rfl⟩ := hnothing
    have hnil : values = [] := map_eq_nil_iff.mp hvalues.symm
    rw [hnil, append_nil, Nat.add_zero, List.take_append_drop]
    exact h
  · split
    · rename_i addition source target hgrow
      obtain ⟨rfl, rfl, hindex, -⟩ := growing_eq _ _ _ _ _ _ hgrow
      rw [h.length] at hindex
      subst hindex
      obtain ⟨hup, hfree⟩ := hfits.fresh.elim (fun hnone => by rw [hgrow] at hnone; cases hnone)
        (fun hfresh => hfresh addition mem_cons_self)
      rw [Nat.add_zero, take_length, drop_length, append_nil]
      exact h.grow addition source target values hgrow hup hfree (by simpa [sites] using hvalues)
    · obtain ⟨hleft, hrest⟩ := splitPieceTree_denotes overlay.seed index h.root
      obtain ⟨-, hright⟩ := splitPieceTree_denotes (splitPieceTree overlay.seed overlay.root index).2 remove hrest
      rw [drop_drop] at hright
      have hmiddle := treeFromPieces_denotes (splitPieceTree (splitPieceTree overlay.seed overlay.root index).2
        (splitPieceTree overlay.seed overlay.root index).1.2 remove).2 inserted hfits.valid
      refine h.restructured _ _ _ _
          (joinPieceTrees_denotes _ (joinPieceTrees_denotes _ hleft hmiddle) hright) hfits.nodup ?_
      simp only [map_append, map_take, map_drop, h.values, hvalues]

/-- Values that come with a source of their own. -/
theorem replaceWith_represents (h : Represents c overlay l) (index remove : ℕ) (values : List α) (start : ℕ)
    (hrange : index + remove ≤ l.length) (hstart : start ≤ values.length) :
    Represents c (replaceWith overlay index remove values start)
      (l.take index ++ values.drop start ++ l.drop (index + remove)) := by
  have hkept :
      ((sites overlay.root.pieces).take index ++ (sites overlay.root.pieces).drop (index + remove)).Nodup := by
    refine h.nodup.sublist ?_
    conv_rhs => rw [← List.take_append_drop index (sites overlay.root.pieces)]
    refine List.Sublist.append_left ?_ _
    rw [← drop_drop]
    exact drop_sublist _ _
  unfold replaceWith insertPlacementPiece
  split
  · rename_i heq
    rw [← heq, drop_length]
    exact replacePieceRange_represents h index remove []
      ⟨by rwa [h.length], by simp, by simp, by simpa using hkept, .inr (by simp)⟩ [] rfl
  · rename_i hne
    let new : Piece ℕ := ⟨.insert overlay.sources.length, start, values.length - start, .up⟩
    have hrefs : ∀ s, ({ overlay with sources := overlay.sources ++ [values] } : ArrayOverlay α).refs s =
        if s = overlay.sources.length then values else overlay.refs s := by
      intro s
      unfold ArrayOverlay.refs
      split
      · rename_i heq
        simp [heq]
      · rename_i hother
        rcases Nat.lt_or_gt_of_ne hother with hlt | hgt
        · simp [getElem?_append_left hlt]
        · rw [getElem?_eq_none (by simpa using Nat.succ_le_of_lt hgt), getElem?_eq_none hgt.le]
    have hmore := h.more (overlay.sources ++ [values]) (fun site hs => by
      obtain ⟨kind, i⟩ := site
      cases kind with
      | base => rfl
      | insert s =>
        have := lt_sources s i hs
        simp only [original, hrefs, if_neg this.ne])
    -- no element of the new source was there before
    have hnew : ∀ site ∈ new.sites, original c overlay site = none := by
      intro site hs
      obtain ⟨i, -, rfl⟩ := mem_map.mp hs
      simp [new, original, ArrayOverlay.refs]
    obtain ⟨hread, hthere⟩ := h.reads_new new _ (values.drop start) (overlay.sources ++ [values]) rfl rfl hnew
      (length_drop ..).symm (by rw [hrefs, if_pos rfl])
    refine replacePieceRange_represents hmore index remove [new] ⟨?_, ?_, ?_, ?_, .inr ?_⟩ (values.drop start)
      (by simpa [sites] using hread)
    · rw [hmore.length]
      exact hrange
    · rintro p hp
      rw [mem_singleton.mp hp]
      exact ⟨by simp only [new]; omega, fun hs => by cases hs⟩
    · simpa [sites] using hthere
    · have hsites : sites [new] = new.sites := by simp [sites]
      have hperm : ∀ a b : List Site, (a ++ new.sites ++ b).Perm (a ++ b ++ new.sites) := by
        intro a b
        rw [append_assoc, append_assoc]
        exact List.Perm.append_left a perm_append_comm
      rw [hsites, (hperm _ _).nodup_iff]
      refine List.Nodup.append hkept (Piece.sites_nodup new rfl) (fun site hs hs' => ?_)
      have hold : site ∈ sites overlay.root.pieces := by
        rcases mem_append.mp hs with hs | hs
        · exact mem_of_mem_take hs
        · exact mem_of_mem_drop hs
      have := h.there site hold
      rw [hnew site hs'] at this
      cases this
    · rintro p hp
      rw [mem_singleton.mp hp]
      exact ⟨rfl, fun site hs => h.free site (hnew site hs)⟩

/-! ## Operations -/

theorem Represents.write (h : Represents c overlay l) (index : ℕ) (site : Site) (stored : α)
    (overrides : List (Site × α)) (hat : (sites overlay.root.pieces)[index]? = some site)
    (hentry : ∀ other, entryValueAt c { overlay with overrides := overrides } other =
      if other = site then some stored else entryValueAt c overlay other)
    (hkeys : ∀ other ∈ Assoc.keys overrides, other = site ∨ other ∈ Assoc.keys overlay.overrides) :
    Represents c { overlay with overrides := overrides } (l.set index stored) := by
  have hsite := h.there site (mem_of_getElem? hat)
  refine ⟨h.root, h.nodup, ext_getElem? (fun i => ?_), fun other hother => ?_, h.cache⟩
  · have hold := congrArg (fun values => values[i]?) h.values
    simp only [getElem?_map] at hold
    rw [getElem?_map, getElem?_map, getElem?_set]
    cases hi : (sites overlay.root.pieces)[i]? with
    | none =>
      rw [hi] at hold
      have hne : index ≠ i := fun heq => by rw [heq, hi] at hat; cases hat
      rw [if_neg hne]
      simpa using hold
    | some other =>
      rw [hi] at hold
      rw [map_some, hentry other]
      by_cases heq : index = i
      · subst heq
        obtain rfl := some.inj (hi.symm.trans hat)
        have hlt : index < l.length := by
          rw [← h.sites_length]
          exact (List.getElem?_eq_some_iff.mp hi).1
        rw [if_pos rfl, if_pos rfl, if_pos hlt, map_some]
      · have hne : other ≠ site := by
          rintro rfl
          exact heq ((getElem?_inj (List.getElem?_eq_some_iff.mp hat).1 h.nodup).mp (hat.trans hi.symm))
        rw [if_neg hne, if_neg heq]
        exact hold
  · rcases hkeys other hother with rfl | hkey
    · exact hsite
    · exact h.known other hkey

theorem setArrayIndex_represents [DecidableEq α] (h : Represents c overlay l) (index : ℕ) (stored : α)
    (hindex : index ≤ l.length) : Represents c (setArrayIndex c overlay index stored)
      (if index = l.length then l ++ [stored] else l.set index stored) := by
  unfold setArrayIndex
  rw [h.length]
  split
  · rename_i heq
    have := replaceWith_represents h index 0 [stored] 0 (by omega) (Nat.zero_le _)
    rwa [drop_zero, Nat.add_zero, heq, take_length, drop_length, append_nil, ← heq] at this
  · rename_i hne
    obtain ⟨piece, offset, hlocate, hat, hvalue⟩ := h.at index (by omega)
    rw [hlocate]
    dsimp only
    split
    · rename_i hsame
      rw [Bool.and_eq_true, decide_eq_true_eq, hvalue] at hsame
      have : l.set index stored = l := by
        refine ext_getElem? (fun i => ?_)
        rw [getElem?_set]
        split
        · rename_i heq
          rw [← heq, hsame.2, if_pos (by omega)]
        · rfl
      rwa [this]
    · split
      · rename_i horiginal
        rw [Bool.and_eq_true, decide_eq_true_eq] at horiginal
        refine h.write index _ stored _ hat (fun other => ?_)
            (fun other hkey => .inr ((Assoc.mem_keys_del _ _ _).mp hkey).2)
        unfold entryValueAt
        rw [Assoc.get?_del]
        split
        · rename_i heq
          rw [← heq, if_pos rfl, none_or]
          exact horiginal.2
        · rename_i hother
          rw [if_neg (Ne.symm hother)]
          rfl
      · refine h.write index _ stored _ hat (fun other => ?_)
            (fun other hkey => (Assoc.mem_keys_set _ _ _ _).mp hkey)
        unfold entryValueAt
        rw [Assoc.get?_set]
        split
        · rename_i heq
          rw [← heq, if_pos rfl, some_or]
        · rename_i hother
          rw [if_neg (Ne.symm hother)]
          rfl

theorem remove_represents (h : Represents c overlay l) (index remove : ℕ) (hrange : index + remove ≤ l.length) :
    Represents c (replacePieceRange overlay index remove []) (l.take index ++ l.drop (index + remove)) := by
  have := replaceWith_represents h index remove [] 0 hrange (Nat.le_refl _)
  simpa [replaceWith, insertPlacementPiece] using this

theorem setArrayLength_represents (h : Represents c overlay l) (next : ℕ) :
    Represents c (setArrayLength c overlay next) (l.take next ++ List.replicate (next - l.length) c.null) := by
  unfold setArrayLength
  rw [h.length]
  dsimp only
  split
  · rename_i heq
    simpa [heq] using h
  · split
    · rename_i hlt
      have := remove_represents h next (l.length - next) (by omega)
      rw [Nat.add_sub_cancel' hlt.le, drop_length] at this
      simpa [Nat.sub_eq_zero_of_le hlt.le] using this
    · have := replaceWith_represents h l.length 0 (List.replicate (next - l.length) c.null) 0 (Nat.le_refl _)
          (Nat.zero_le _)
      rw [Nat.add_zero, drop_length, drop_zero, append_nil, take_length] at this
      rwa [take_of_length_le (by omega)]

theorem clampIndex_le (position : Position) (length : ℕ) : clampIndex position length ≤ length := by
  cases position with
  | negInfinity => exact Nat.zero_le _
  | int value =>
    simp only [clampIndex]
    split <;> omega
  | infinity => exact Nat.le_refl _

theorem clampCount_le (position : Position) (limit : ℕ) : clampCount position limit ≤ limit := by
  cases position with
  | negInfinity => exact Nat.zero_le _
  | int value => exact Nat.min_le_right _ _
  | infinity => exact Nat.le_refl _

theorem spliceRange_le (args : List α) (length : ℕ) :
    (spliceRange c args length).1 + (spliceRange c args length).2 ≤ length := by
  unfold spliceRange
  split
  · exact Nat.zero_le _
  · rename_i start
    have := clampIndex_le (c.position start) length
    simp only
    omega
  · rename_i start count rest
    have := clampIndex_le (c.position start) length
    have := clampCount_le (c.position count) (length - clampIndex (c.position start) length)
    simp only
    omega

theorem spliceArray_represents (h : Represents c overlay l) (args : List α) :
    Represents c (spliceArray c overlay args) (l.take (spliceRange c args l.length).1 ++ args.drop 2 ++
      l.drop ((spliceRange c args l.length).1 + (spliceRange c args l.length).2)) := by
  have hrange := spliceRange_le (c := c) args l.length
  unfold spliceArray
  rw [h.length]
  dsimp only
  have hreplaced := replaceWith_represents h _ _ args (min 2 args.length) hrange (Nat.min_le_right _ _)
  have hdrop : args.drop (min 2 args.length) = args.drop 2 := by
    rcases Nat.le_total 2 args.length with hle | hle
    · rw [Nat.min_eq_left hle]
    · rw [Nat.min_eq_right hle, drop_length, drop_eq_nil_of_le hle]
  rw [hdrop] at hreplaced
  -- the length is already the one that is set
  have hlength : arrayLength
      (replaceWith overlay (spliceRange c args l.length).1 (spliceRange c args l.length).2 args
      (min 2 args.length)) = l.length - (spliceRange c args l.length).2 + (args.length - 2) := by
    rw [hreplaced.length]
    simp only [length_append, length_take, length_drop]
    omega
  unfold setArrayLength
  rw [if_pos hlength.symm]
  exact hreplaced

theorem reverseArray_represents (h : Represents c overlay l) : Represents c (reverseArray overlay) l.reverse := by
  unfold reverseArray
  split
  · rename_i hshort
    rw [h.length] at hshort
    have : l.reverse = l := by
      cases l with
      | nil => rfl
      | cons a rest =>
        obtain rfl : rest = [] := length_eq_zero_iff.mp (by rw [length_cons] at hshort; omega)
        rfl
    rwa [this]
  · rw [h.piecesOf]
    have hsites := reversed_sites overlay.root.pieces h.root.valid
    have hdenotes := treeFromPieces_denotes overlay.seed (overlay.root.pieces.reverse.map Piece.reversed)
        (fun p hp => by
      obtain ⟨q, hq, rfl⟩ := mem_map.mp hp
      exact (Piece.reversed_sites q (h.root.valid q (mem_reverse.mp hq))).2)
    rw [hsites] at hdenotes
    refine h.restructured _ _ _ _ hdenotes (nodup_reverse.mpr h.nodup) ?_
    rw [map_reverse, h.values, map_reverse]

/-! ## Sorting -/

theorem Piece.single_sites (kind : Kind ℕ) (index : ℕ) (step : Step) :
    (⟨kind, index, 1, step⟩ : Piece ℕ).sites = [(kind, index)] := by
  simp [Piece.sites, Piece.indices, Piece.sourceIndex]

theorem Piece.taking_sites (piece taken : Piece ℕ) (site : Site) (hv : piece.Valid)
    (h : piece.taking site = some taken) : taken.sites = piece.sites ++ [site] ∧ taken.Valid := by
  unfold Piece.taking at h
  split at h
  · cases h
  rename_i hkind
  rw [not_not] at hkind
  split at h
  · rename_i hone
    obtain ⟨step, hstep, rfl⟩ := map_eq_some_iff.mp h
    have := neighbours_sites piece ⟨site.1, site.2, 1, .up⟩ hkind hone rfl step hstep _ rfl
    rwa [Piece.single_sites] at this
  · split at h
    · rename_i hnext
      obtain rfl := some.inj h
      have hvalid : (⟨site.1, site.2, 1, piece.step⟩ : Piece ℕ).Valid := ⟨Nat.one_pos, fun _ => Nat.le_add_left _ _⟩
      have := continues_sites piece ⟨site.1, site.2, 1, piece.step⟩ hv hvalid hkind
          (by simpa [continues] using hnext) _ rfl
      rwa [Piece.single_sites] at this
    · cases h

theorem piecesFromSortOrder_sites (previous : Option (Piece ℕ)) (order : List Site) (hv : ∀ p ∈ previous, p.Valid) :
    sites (piecesFromSortOrder previous order) = sites previous.toList ++ order ∧
      ∀ p ∈ piecesFromSortOrder previous order, p.Valid := by
  fun_induction piecesFromSortOrder previous order with
  | case1 previous => exact ⟨by simp, fun p hp => hv p (by simpa using hp)⟩
  | case2 previous site order piece htaking ih =>
    obtain ⟨p, rfl, htaken⟩ := bind_eq_some_iff.mp htaking
    obtain ⟨hsites, hvalid⟩ := Piece.taking_sites p piece site (hv p rfl) htaken
    obtain ⟨hrest, hall⟩ := ih (fun q hq => by rw [mem_some_iff] at hq; exact hq ▸ hvalid)
    refine ⟨?_, hall⟩
    rw [hrest]
    simp [sites, hsites]
  | case3 previous site order _ ih =>
    have hone : (⟨site.1, site.2, 1, .up⟩ : Piece ℕ).Valid := ⟨Nat.one_pos, fun hs => by cases hs⟩
    obtain ⟨hrest, hall⟩ := ih (fun q hq => by rw [mem_some_iff] at hq; exact hq ▸ hone)
    refine ⟨?_, fun p hp => ?_⟩
    · rw [sites_append, hrest, toList_some, sites_cons, Piece.single_sites]
      rfl
    · rcases mem_append.mp hp with hp | hp
      · exact hv p (by simpa using hp)
      · exact hall p hp

theorem sortArray_represents (h : Represents c overlay l) (compare : Option α → Option α → Ordering) :
    Represents c (sortArray c overlay compare) (c.engine.sort (fun a b => compare (some a) (some b)) l) := by
  unfold sortArray
  rw [h.piecesOf]
  have hperm := c.engine.perm (fun a b => compare (entryValueAt c overlay a) (entryValueAt c overlay b))
    (sites overlay.root.pieces)
  have hvalues := c.engine.natural (entryValueAt c overlay) compare (sites overlay.root.pieces)
  rw [h.values, ← c.engine.natural some compare l] at hvalues
  generalize c.engine.sort (fun a b => compare (entryValueAt c overlay a) (entryValueAt c overlay b))
    (sites overlay.root.pieces) = order at hperm hvalues ⊢
  have hlength : order.length = l.length := by rw [hperm.length_eq, h.sites_length]
  dsimp only
  split
  · rename_i hsame
    -- every element is where it was
    have horder : order = sites overlay.root.pieces := by
      refine ext_getElem? (fun i => ?_)
      by_cases hi : i < l.length
      · obtain ⟨piece, offset, hlocate, hat, -⟩ := h.at i hi
        have hlt : i < order.length := hlength ▸ hi
        have htoken := all_eq_true.mp hsame (order[i], i) (by
          rw [mem_zipIdx_iff_getElem?, getElem?_eq_getElem])
        rw [decide_eq_true_eq, hlocate, map_some] at htoken
        rw [hat, getElem?_eq_getElem (by omega), htoken]
      · rw [getElem?_eq_none (by omega), getElem?_eq_none (by rw [h.sites_length]; omega)]
    rw [horder, h.values] at hvalues
    have := map_injective_iff.mpr (some_injective α) hvalues
    rwa [← this]
  · rename_i hmoved
    have hne : l.length ≠ 0 := by
      intro hzero
      have : order = [] := length_eq_zero_iff.mp (by omega)
      rw [this] at hmoved
      exact hmoved rfl
    obtain ⟨hsites, hvalid⟩ := piecesFromSortOrder_sites none order (fun p hp => by cases hp)
    rw [toList_none, sites_nil, nil_append] at hsites
    have hmin : min order.length (arrayLength overlay) = l.length := by rw [h.length, hlength, Nat.min_self]
    rw [hmin]
    have := replacePieceRange_represents h 0 l.length (piecesFromSortOrder none order) ⟨?_, hvalid, ?_, ?_, .inl ?_⟩
      (c.engine.sort (fun a b => compare (some a) (some b)) l) (by rw [hsites]; exact hvalues)
    · rwa [take_zero, nil_append, Nat.zero_add, drop_length, append_nil] at this
    · rw [h.length, Nat.zero_add]
    · intro site hs
      rw [hsites] at hs
      exact h.there site (hperm.mem_iff.mp hs)
    · rw [hsites, take_zero, nil_append, Nat.zero_add, drop_of_length_le (by rw [h.sites_length]),
        append_nil]
      exact hperm.nodup_iff.mpr h.nodup
    · unfold growing
      split
      · rw [if_neg (fun hzero => hne hzero.1)]
      · rfl

/-! ## Runs -/

theorem fillArray_represents (h : Represents c overlay l) (supplied : α) (startArg endArg : Option Position) :
    Represents c (fillArray overlay supplied startArg endArg)
      (ArrayOp.onList c (entryValueAt c overlay) l (.fill supplied startArg endArg)) := by
  unfold fillArray ArrayOp.onList
  rw [h.length]
  dsimp only
  split
  · exact h
  · rename_i hlt
    have hstop : endArg.elim l.length (clampIndex · l.length) ≤ l.length := by
      cases endArg with
      | none => exact Nat.le_refl _
      | some position => exact clampIndex_le position l.length
    have := replaceWith_represents h (startArg.elim 0 (clampIndex · l.length))
      (endArg.elim l.length (clampIndex · l.length) - startArg.elim 0 (clampIndex · l.length))
      (List.replicate
        (endArg.elim l.length (clampIndex · l.length) - startArg.elim 0 (clampIndex · l.length)) supplied) 0
      (by omega) (Nat.zero_le _)
    rwa [drop_zero, Nat.add_sub_cancel' (by omega)] at this

theorem copyWithinArray_represents (h : Represents c overlay l) (targetArg startArg : Position)
    (endArg : Option Position) : Represents c (copyWithinArray c overlay targetArg startArg endArg)
      (ArrayOp.onList c (entryValueAt c overlay) l (.copyWithin targetArg startArg endArg)) := by
  unfold copyWithinArray ArrayOp.onList
  rw [h.length]
  dsimp only
  have htarget := clampIndex_le targetArg l.length
  have hstop : endArg.elim l.length (clampIndex · l.length) ≤ l.length := by
    cases endArg with
    | none => exact Nat.le_refl _
    | some position => exact clampIndex_le position l.length
  have hcount : copyCount targetArg startArg endArg l.length ≤ l.length - clampIndex targetArg l.length ∧
      copyCount targetArg startArg endArg l.length ≤ l.length - clampIndex startArg l.length := by
    unfold copyCount
    omega
  -- what is read is copied before anything is written
  have hread : (List.range (copyCount targetArg startArg endArg l.length)).filterMap
        (fun offset => getArrayIndex c overlay (clampIndex startArg l.length + offset))
      = (l.drop (clampIndex startArg l.length)).take (copyCount targetArg startArg endArg l.length) := by
    generalize copyCount targetArg startArg endArg l.length = count at hcount ⊢
    induction count with
    | zero => simp
    | succ count ih =>
      have hlt : clampIndex startArg l.length + count < l.length := by omega
      rw [range_succ, filterMap_append, ih (by omega), take_add_one, getElem?_drop,
        filterMap_cons, h.getArrayIndex _ hlt, getElem?_eq_getElem hlt]
      rfl
  rw [hread]
  exact replaceWith_represents h _ _ _ 0 (by omega) (Nat.zero_le _)

theorem ArrayOp.apply_represents [DecidableEq α] (h : Represents c overlay l) (op : ArrayOp α)
    (hfits : op.Fits c overlay) :
    Represents c (op.apply c overlay) (op.onList c (entryValueAt c overlay) l) := by
  cases op with
  | replacePieceRange index remove inserted =>
    refine replacePieceRange_represents h index remove inserted hfits _ ?_
    have hthere := hfits.there
    generalize sites inserted = elements at hthere ⊢
    induction elements with
    | nil => rfl
    | cons site rest ih =>
      have hsome : (entryValueAt c overlay site).isSome = true := by
        unfold entryValueAt
        cases Assoc.get? overlay.overrides site with
        | none => exact hthere site mem_cons_self
        | some _ => rfl
      obtain ⟨value, hvalue⟩ := isSome_iff_exists.mp hsome
      rw [map_cons, filterMap_cons, hvalue, ih (fun s hs => hthere s (mem_cons_of_mem _ hs)), map_cons]
  | replaceWith index remove values start =>
    exact replaceWith_represents h index remove values start (h.length ▸ hfits.1) hfits.2
  | setIndex index stored => exact setArrayIndex_represents h index stored (h.length ▸ hfits)
  | setLength next => exact setArrayLength_represents h next
  | push items =>
    have := replaceWith_represents h l.length 0 items 0 (Nat.le_refl _) (Nat.zero_le _)
    simpa [ArrayOp.apply, ArrayOp.onList, h.length] using this
  | pop =>
    unfold ArrayOp.apply ArrayOp.onList
    rw [h.length]
    dsimp only
    split
    · rename_i hnil
      rwa [length_eq_zero_iff.mp hnil, dropLast_nil, ← length_eq_zero_iff.mp hnil]
    · have := remove_represents h (l.length - 1) 1 (by omega)
      rwa [Nat.sub_add_cancel (by omega), drop_length, append_nil, ← dropLast_eq_take] at this
  | shift =>
    unfold ArrayOp.apply ArrayOp.onList
    rw [h.length]
    dsimp only
    split
    · rename_i hnil
      rwa [length_eq_zero_iff.mp hnil, tail_nil, ← length_eq_zero_iff.mp hnil]
    · have := remove_represents h 0 1 (by omega)
      rwa [take_zero, nil_append, Nat.zero_add, drop_one] at this
  | unshift items =>
    have := replaceWith_represents h 0 0 items 0 (Nat.zero_le _) (Nat.zero_le _)
    simpa [ArrayOp.apply, ArrayOp.onList] using this
  | splice args => exact spliceArray_represents h args
  | reverse => exact reverseArray_represents h
  | sort compare => exact sortArray_represents h compare
  | fill supplied startArg endArg => exact fillArray_represents h supplied startArg endArg
  | copyWithin targetArg startArg endArg => exact copyWithinArray_represents h targetArg startArg endArg

theorem arrayOverlay_represents (c : ArrayContext α) : Represents c (arrayOverlay c) c.base := by
  by_cases hbase : c.base = []
  · have hroot : (arrayOverlay c).root = .nil := by simp [arrayOverlay, hbase]
    refine ⟨?_, ?_, ?_, forall_mem_nil _, fun _ hp => by cases hp⟩
    · rw [hroot]
      exact ⟨trivial, by simp [PieceTree.pieces], rfl⟩
    · rw [hroot]
      exact nodup_nil
    · rw [hroot, hbase]
      rfl
  · let piece : Piece ℕ := ⟨.base, 0, c.base.length, .up⟩
    have hroot : (arrayOverlay c).root = createPieceNode 0x9e3779b9 piece := by simp [arrayOverlay, hbase, piece]
    have hvalid : piece.Valid := ⟨length_pos_iff.mpr hbase, fun hs => by cases hs⟩
    have hsites : sites (arrayOverlay c).root.pieces = piece.sites := by
      rw [hroot, createPieceNode_pieces, sites_cons, sites_nil, append_nil]
    refine ⟨?_, ?_, ?_, forall_mem_nil _, fun _ hp => by cases hp⟩
    · rw [hsites, hroot]
      exact createPieceNode_denotes _ piece hvalid
    · rw [hsites]
      exact Piece.sites_nodup piece rfl
    · rw [hsites]
      refine ext_getElem? (fun i => ?_)
      rw [getElem?_map, getElem?_map, Piece.getElem?_sites]
      split
      · rename_i hi
        rw [Piece.sourceIndex_up _ rfl, Nat.zero_add, getElem?_eq_getElem hi, map_some, map_some]
        simp only [entryValueAt, arrayOverlay, Assoc.get?_nil, none_or, original, piece]
        rw [getElem?_eq_getElem hi]
      · rename_i hi
        rw [getElem?_eq_none (Nat.le_of_not_lt hi)]
        rfl

/-- Whatever operations a draft of an array takes, it is the list that the same operations make. -/
theorem overlay_run_refines [DecidableEq α] (c : ArrayContext α) (ops : List (ArrayOp α))
    (h : (overlayMachine c).Allowed (fun s op => op.Fits c s.1) (overlayMachine c).start ops) :
    (overlayMachine c).Always (fun s => Refines c s.1 s.2) (overlayMachine c).start ops :=
  (Machine.always_of_allowed (P := fun s : ArrayOverlay α × List α => Represents c s.1 s.2)
    (fun _ op hs hfits => op.apply_represents hs hfits) (arrayOverlay_represents c) h).mono (fun _ hs => hs.refines)

/-- A stable sort by the comparator. -/
def stableSort : SortEngine where
  sort compare items := items.mergeSort (fun a b => compare a b ≠ .gt)
  perm _ items := mergeSort_perm items _
  natural _ _ _ := map_mergeSort (fun _ _ _ _ => rfl)

def sampleContext : ArrayContext ℕ :=
  { base := [3, 1, 2], null := 0, isContainer := fun _ => false, position := fun value => .int value, engine := stableSort }

def sampleOps : List (ArrayOp ℕ) := [.setIndex 1 9, .reverse, .push [7, 8], .splice [1, 2, 5], .pop]

theorem overlay_run_refines_sample : (overlayMachine sampleContext).Always (fun s => Refines sampleContext s.1 s.2)
      (overlayMachine sampleContext).start sampleOps ∧
    ((overlayMachine sampleContext).run sampleOps).2 = [2, 5, 7] :=
  ⟨overlay_run_refines sampleContext sampleOps
    ⟨(by decide : 1 ≤ arrayLength (arrayOverlay sampleContext)), trivial, trivial, trivial, trivial, trivial⟩, rfl⟩

end

end PiAgent.Delta
