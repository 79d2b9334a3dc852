import Mathlib.Data.List.Basic
import PiAgent.Chord.Delta.ArrayPlan

/-!
# Trees of pieces

`tracker.ts`: the pieces of an array overlay are the nodes of a treap, in order. Every
node knows the number of elements below it. Random priorities come from a seed.
-/

namespace PiAgent.Delta

open Option List

deriving instance DecidableEq for Kind

inductive PieceTree (σ : Type) where
  | nil
  | node (left : PieceTree σ) (piece : Piece σ) (priority : UInt32) (elements : ℕ) (right : PieceTree σ)

section

variable {σ : Type}

def nextPiecePriority (seed : UInt32) : UInt32 :=
  let value := seed ^^^ (seed <<< 13)
  let value := value ^^^ (value >>> 17)
  value ^^^ (value <<< 5)

def treeElements : PieceTree σ → ℕ
  | .nil => 0
  | .node _ _ _ elements _ => elements

/-- A node whose children were replaced. -/
def updatePieceNode (left : PieceTree σ) (piece : Piece σ) (priority : UInt32) (right : PieceTree σ) :
    PieceTree σ :=
  .node left piece priority (treeElements left + piece.length + treeElements right) right

/-- The new node, whose priority is the next seed. -/
def createPieceNode (seed : UInt32) (piece : Piece σ) : PieceTree σ :=
  .node .nil piece (nextPiecePriority seed) piece.length .nil

def mergePieceTrees : PieceTree σ → PieceTree σ → PieceTree σ
  | .nil, right => right
  | .node l p priority n r, .nil => .node l p priority n r
  | .node l p priority n r, .node l' p' priority' n' r' =>
    if priority ≥ priority' then updatePieceNode l p priority (mergePieceTrees r (.node l' p' priority' n' r'))
    else updatePieceNode (mergePieceTrees (.node l p priority n r) l') p' priority' r'
termination_by l r => sizeOf l + sizeOf r

/-- The two parts of a piece that is cut inside. -/
def Piece.cut (piece : Piece σ) (offset : ℕ) : Piece σ × Piece σ :=
  ({ piece with length := offset },
      { piece with start := piece.sourceIndex offset, length := piece.length - offset })

def splitPieceTree (seed : UInt32) : PieceTree σ → ℕ → (PieceTree σ × PieceTree σ) × UInt32
  | .nil, _ => ((.nil, .nil), seed)
  | .node left piece priority _ right, index =>
    let leftLength := treeElements left
    let pieceEnd := leftLength + piece.length
    if index < leftLength then
      let ((outer, inner), seed) := splitPieceTree seed left index
      ((outer, updatePieceNode inner piece priority right), seed)
    else if pieceEnd < index then
      let ((inner, outer), seed) := splitPieceTree seed right (index - pieceEnd)
      ((updatePieceNode left piece priority inner, outer), seed)
    else if index = leftLength then ((left, updatePieceNode .nil piece priority right), seed)
    else if index = pieceEnd then ((updatePieceNode left piece priority .nil, right), seed)
    else
      let (first, second) := piece.cut (index - leftLength)
      let next := nextPiecePriority seed
      ((mergePieceTrees left (createPieceNode seed first), mergePieceTrees (createPieceNode next second) right),
        nextPiecePriority next)

def leftmostPiece : PieceTree σ → Option (Piece σ)
  | .nil => none
  | .node left piece _ _ _ => (leftmostPiece left).or (some piece)

def rightmostPiece : PieceTree σ → Option (Piece σ)
  | .nil => none
  | .node _ piece _ _ right => (rightmostPiece right).or (some piece)

/-- `flattenPieceTree` -/
def PieceTree.pieces : PieceTree σ → List (Piece σ)
  | .nil => []
  | .node left piece _ _ right => left.pieces ++ piece :: right.pieces

/-- The piece at an index, and the offset in it. -/
def locatePiece : PieceTree σ → ℕ → Option (Piece σ × ℕ)
  | .nil, _ => none
  | .node left piece _ _ right, index =>
    let leftLength := treeElements left
    if index < leftLength then locatePiece left index
    else if leftLength + piece.length ≤ index then locatePiece right (index - (leftLength + piece.length))
    else some (piece, index - leftLength)

def extendRightmostPiece (amount : ℕ) : PieceTree σ → PieceTree σ
  | .nil => .nil
  | .node left piece priority _ .nil => updatePieceNode left
      { piece with length := piece.length + amount } priority .nil
  | .node left piece priority _ (.node l p q n r) =>
    updatePieceNode left piece priority (extendRightmostPiece amount (.node l p q n r))

/-- The step between the single elements of two pieces, if they are neighbours. -/
def neighbours (left right : Piece σ) : Option Step :=
  if right.start = left.start + 1 then some .up else if left.start = right.start + 1 then some .down else none

/-- `left.step === right.step && left.start + left.step * left.length === right.start` -/
def continues (left right : Piece σ) : Bool :=
  left.step = right.step && (left.start : ℤ) + left.step.value * left.length = right.start

variable [DecidableEq σ]

def mergeablePieces (left right : Piece σ) : Bool :=
  if left.kind ≠ right.kind then false
  else if left.length = 1 ∧ right.length = 1 then (neighbours left right).isSome
  else continues left right

def combinedPiece (left right : Piece σ) : Piece σ :=
  { kind := left.kind, start := left.start, length := left.length + right.length
    step := if left.length = 1 then (neighbours left right).getD left.step else left.step }

/-- Each join leaves fewer pieces: their number is fuel enough. -/
def joinNormalized : ℕ → UInt32 → PieceTree σ → PieceTree σ → PieceTree σ × UInt32
  | 0, seed, left, right => (mergePieceTrees left right, seed)
  | fuel + 1, seed, left, right =>
    match rightmostPiece left, leftmostPiece right with
    | some leftPiece, some rightPiece =>
      if mergeablePieces leftPiece rightPiece then
        let ((leftRest, _), seed) := splitPieceTree seed left (treeElements left - leftPiece.length)
        let ((_, rightRest), seed) := splitPieceTree seed right rightPiece.length
        let combined := createPieceNode seed (combinedPiece leftPiece rightPiece)
        let (joined, seed) := joinNormalized fuel (nextPiecePriority seed) leftRest combined
        joinNormalized fuel seed joined rightRest
      else (mergePieceTrees left right, seed)
    | _, _ => (mergePieceTrees left right, seed)

def joinPieceTrees (seed : UInt32) (left right : PieceTree σ) : PieceTree σ × UInt32 :=
  joinNormalized (left.pieces.length + right.pieces.length) seed left right

def mergePieces : List (Piece σ) → List (Piece σ)
  | [] => []
  | [piece] => [piece]
  | left :: right :: rest =>
    if left.kind = right.kind ∧ left.length = 1 ∧ right.length = 1 ∧ (neighbours left right).isSome = true then
      mergePieces ({ left with step := (neighbours left right).getD left.step, length := 2 } :: rest)
    else if left.kind = right.kind ∧ continues left right = true then
      mergePieces ({ left with length := left.length + right.length } :: rest)
    else left :: mergePieces (right :: rest)
termination_by pieces => pieces.length

omit [DecidableEq σ] in
/-- The nodes of the pieces, one after another. -/
def appendNodes (seed : UInt32) (root : PieceTree σ) : List (Piece σ) → PieceTree σ × UInt32
  | [] => (root, seed)
  | piece :: rest => appendNodes (nextPiecePriority seed) (mergePieceTrees root (createPieceNode seed piece)) rest

def treeFromPieces (seed : UInt32) (pieces : List (Piece σ)) : PieceTree σ × UInt32 :=
  appendNodes seed .nil (mergePieces pieces)

end

/-! ## Elements of pieces -/

section

variable {σ : Type}

/-- The elements of a piece: base elements and inserted ones, by index. -/
def Piece.sites (piece : Piece σ) : List (Kind σ × ℕ) := piece.indices.map (fun i => (piece.kind, i))

/-- It is not empty, and does not begin before the first element. -/
def Piece.Valid (piece : Piece σ) : Prop := 0 < piece.length ∧ (piece.step = .down → piece.length ≤ piece.start + 1)

@[simp] theorem Piece.length_sites (piece : Piece σ) : piece.sites.length = piece.length := by
  simp [Piece.sites, Piece.indices]

theorem Piece.getElem?_sites (piece : Piece σ) (i : ℕ) :
    piece.sites[i]? = if i < piece.length then some (piece.kind, piece.sourceIndex i) else none := by
  simp only [Piece.sites, Piece.indices, getElem?_map]
  split <;> rename_i h
  · simp [getElem?_range h]
  · simp [Nat.le_of_not_lt h]

theorem Piece.sourceIndex_up (piece : Piece σ) (h : piece.step = .up) (i : ℕ) :
    piece.sourceIndex i = piece.start + i := by
  simp only [Piece.sourceIndex, h, Step.value]
  omega

theorem Piece.sourceIndex_down (piece : Piece σ) (h : piece.step = .down) (i : ℕ) :
    piece.sourceIndex i = piece.start - i := by
  simp only [Piece.sourceIndex, h, Step.value]
  omega

/-- A piece that goes through one piece and then through another. -/
theorem Piece.sites_append (a b c : Piece σ) (ha : c.kind = a.kind) (hb : c.kind = b.kind)
    (hl : c.length = a.length + b.length) (h : ∀ k < a.length, c.sourceIndex k = a.sourceIndex k)
    (h' : ∀ k < b.length, c.sourceIndex (a.length + k) = b.sourceIndex k) : c.sites = a.sites ++ b.sites := by
  refine ext_getElem? (fun i => ?_)
  rw [getElem?_append, Piece.getElem?_sites, Piece.getElem?_sites, Piece.getElem?_sites, Piece.length_sites]
  by_cases hi : i < a.length
  · rw [if_pos hi, if_pos hi, if_pos (by omega), h i hi, ha]
  · rw [if_neg hi]
    by_cases hj : i < c.length
    · have := h' (i - a.length) (by omega)
      rw [Nat.add_sub_cancel' (Nat.le_of_not_lt hi)] at this
      rw [if_pos hj, if_pos (by omega), this, hb]
    · rw [if_neg hj, if_neg (by omega)]

theorem Piece.cut_sites (piece : Piece σ) (offset : ℕ) (h : piece.Valid) (h₁ : offset ≤ piece.length) :
    piece.sites = (piece.cut offset).1.sites ++ (piece.cut offset).2.sites := by
  refine Piece.sites_append _ _ _ rfl rfl (by simp only [Piece.cut]; omega) (fun k _ => rfl) (fun k hk => ?_)
  obtain ⟨-, hdown⟩ := h
  simp only [Piece.cut] at hk ⊢
  cases hs : piece.step with
  | up =>
    simp only [Piece.sourceIndex, hs, Step.value]
    omega
  | down =>
    have := hdown hs
    simp only [Piece.sourceIndex, hs, Step.value]
    omega

theorem Piece.cut_valid (piece : Piece σ) (offset : ℕ) (h : piece.Valid) (h₀ : 0 < offset)
    (h₁ : offset < piece.length) :
    (piece.cut offset).1.Valid ∧ (piece.cut offset).2.Valid := by
  obtain ⟨-, hdown⟩ := h
  refine ⟨⟨h₀, fun hs => ?_⟩, ⟨?_, fun hs => ?_⟩⟩
  · have := hdown hs
    simp only [Piece.cut]
    omega
  · simp only [Piece.cut]
    omega
  · have := hdown hs
    simp only [Piece.cut] at hs ⊢
    rw [Piece.sourceIndex_down _ hs]
    omega

theorem continues_sites (a b : Piece σ) (ha : a.Valid) (hb : b.Valid) (hkind : a.kind = b.kind)
    (h : continues a b = true) (c : Piece σ) (hc : c = { a with length := a.length + b.length }) :
    c.sites = a.sites ++ b.sites ∧ c.Valid := by
  subst hc
  simp only [continues, Bool.and_eq_true, decide_eq_true_eq] at h
  obtain ⟨hstep, hstart⟩ := h
  obtain ⟨ha0, hadown⟩ := ha
  obtain ⟨hb0, hbdown⟩ := hb
  refine ⟨Piece.sites_append _ _ _ rfl hkind rfl (fun k _ => rfl) (fun k hk => ?_), by simp only; omega,
      fun hs => ?_⟩
  · cases hs : a.step with
    | up =>
      rw [hs, Step.value] at hstart
      simp only [Piece.sourceIndex, ← hstep, hs, Step.value]
      omega
    | down =>
      have := hbdown (hstep ▸ hs)
      rw [hs, Step.value] at hstart
      simp only [Piece.sourceIndex, ← hstep, hs, Step.value]
      omega
  · have := hbdown (hstep ▸ hs)
    simp only at hs ⊢
    rw [hs, Step.value] at hstart
    omega

theorem neighbours_sites (a b : Piece σ) (hkind : a.kind = b.kind) (ha : a.length = 1) (hb : b.length = 1)
    (s : Step) (h : neighbours a b = some s) (c : Piece σ) (hc : c = { a with length := 2, step := s }) :
    c.sites = a.sites ++ b.sites ∧ c.Valid := by
  subst hc
  have hzero : ∀ p : Piece σ, p.sourceIndex 0 = p.start := fun p => by simp [Piece.sourceIndex]
  unfold neighbours at h
  refine ⟨Piece.sites_append _ _ _ rfl hkind (by simp only; omega) (fun k hk => ?_) (fun k hk => ?_), by simp,
      fun hs => ?_⟩
  · obtain rfl : k = 0 := by omega
    rw [hzero, hzero]
  · obtain rfl : k = 0 := by omega
    rw [hzero, ha]
    split at h
    · obtain rfl := some.inj h
      rw [Piece.sourceIndex_up _ rfl]
      simp only
      omega
    · split at h
      · obtain rfl := some.inj h
        rw [Piece.sourceIndex_down _ rfl]
        simp only
        omega
      · cases h
  · simp only at hs ⊢
    subst hs
    split at h
    · cases h
    · split at h
      · omega
      · cases h

theorem combined_sites [DecidableEq σ] (a b : Piece σ) (ha : a.Valid) (hb : b.Valid)
    (h : mergeablePieces a b = true) :
    (combinedPiece a b).sites = a.sites ++ b.sites ∧ (combinedPiece a b).Valid := by
  unfold mergeablePieces at h
  split at h
  · cases h
  rename_i hkind
  rw [not_not] at hkind
  split at h
  · rename_i hone
    obtain ⟨s, hs⟩ := isSome_iff_exists.mp h
    refine neighbours_sites a b hkind hone.1 hone.2 s hs _ ?_
    simp [combinedPiece, hone.1, hone.2, hs]
  · have hstep : combinedPiece a b = { a with length := a.length + b.length } := by
      unfold combinedPiece
      split
      · rename_i hone
        have hcont := h
        simp only [continues, Bool.and_eq_true, decide_eq_true_eq, hone] at hcont
        have hn : (neighbours a b).getD a.step = a.step := by
          unfold neighbours
          obtain ⟨-, hstart⟩ := hcont
          cases hs : a.step with
          | up =>
            rw [hs, Step.value] at hstart
            rw [if_pos (by omega)]
            rfl
          | down =>
            rw [hs, Step.value] at hstart
            rw [if_neg (by omega), if_pos (by omega)]
            rfl
        rw [hn]
      · rfl
    exact continues_sites a b ha hb hkind h _ hstep

/-! ## What a tree stands for -/

def sites (pieces : List (Piece σ)) : List (Kind σ × ℕ) := pieces.flatMap Piece.sites

/-- Every node knows the number of elements below it. -/
def PieceTree.Sized : PieceTree σ → Prop
  | .nil => True
  | .node left piece _ elements right =>
    elements = treeElements left + piece.length + treeElements right ∧ left.Sized ∧ right.Sized

/-- A tree stands for a list of elements. -/
structure PieceTree.Denotes (tree : PieceTree σ) (elements : List (Kind σ × ℕ)) : Prop where
  sized : tree.Sized
  valid : ∀ piece ∈ tree.pieces, piece.Valid
  sites : sites tree.pieces = elements

@[simp] theorem sites_nil : sites ([] : List (Piece σ)) = [] := rfl

theorem sites_append (a b : List (Piece σ)) : sites (a ++ b) = sites a ++ sites b := flatMap_append

theorem sites_cons (piece : Piece σ) (rest : List (Piece σ)) : sites (piece :: rest) = piece.sites ++ sites rest :=
  flatMap_cons

theorem treeElements_sites (tree : PieceTree σ) (h : tree.Sized) : treeElements tree =
    (sites tree.pieces).length := by
  induction tree with
  | nil => rfl
  | node left piece priority elements right ihl ihr =>
    obtain ⟨hn, hl, hr⟩ := h
    simp only [treeElements, PieceTree.pieces, sites_append, sites_cons, length_append, Piece.length_sites]
    rw [hn, ihl hl, ihr hr]
    omega

theorem updatePieceNode_sized (left : PieceTree σ) (piece : Piece σ) (priority : UInt32) (right : PieceTree σ)
    (hl : left.Sized) (hr : right.Sized) : (updatePieceNode left piece priority right).Sized := ⟨rfl, hl, hr⟩

theorem createPieceNode_sized (seed : UInt32) (piece : Piece σ) : (createPieceNode seed piece).Sized := by
  simp [createPieceNode, PieceTree.Sized, treeElements]

@[simp] theorem createPieceNode_pieces (seed : UInt32) (piece : Piece σ) :
    (createPieceNode seed piece).pieces = [piece] := rfl

@[simp] theorem updatePieceNode_pieces (left : PieceTree σ) (piece : Piece σ) (priority : UInt32)
    (right : PieceTree σ) :
        (updatePieceNode left piece priority right).pieces = left.pieces ++ piece :: right.pieces := rfl

/-! ## Merging and splitting -/

@[simp] theorem mergePieceTrees_pieces (left right : PieceTree σ) :
    (mergePieceTrees left right).pieces = left.pieces ++ right.pieces := by
  fun_induction mergePieceTrees left right with
  | case1 => rfl
  | case2 => simp [PieceTree.pieces]
  | case3 l p priority n r l' p' priority' n' r' _ ih => simp [PieceTree.pieces, ih]
  | case4 l p priority n r l' p' priority' n' r' _ ih => simp [PieceTree.pieces, ih]

theorem mergePieceTrees_sized (left right : PieceTree σ) (hl : left.Sized) (hr : right.Sized) :
    (mergePieceTrees left right).Sized := by
  fun_induction mergePieceTrees left right with
  | case1 => exact hr
  | case2 => exact hl
  | case3 l p priority n r l' p' priority' n' r' _ ih => exact updatePieceNode_sized _ _ _ _ hl.2.1 (ih hl.2.2 hr)
  | case4 l p priority n r l' p' priority' n' r' _ ih => exact updatePieceNode_sized _ _ _ _ (ih hl hr.2.1) hr.2.2

/-- The pieces on both sides of a place. -/
def cutPieces : List (Piece σ) → ℕ → List (Piece σ) × List (Piece σ)
  | [], _ => ([], [])
  | piece :: rest, index =>
    if index = 0 then ([], piece :: rest)
    else if index < piece.length then ([(piece.cut index).1], (piece.cut index).2 :: rest)
    else
      let (before, after) := cutPieces rest (index - piece.length)
      (piece :: before, after)

@[simp] theorem cutPieces_zero (pieces : List (Piece σ)) : cutPieces pieces 0 = ([], pieces) := by
  cases pieces <;> simp [cutPieces]

theorem cutPieces_append (before after : List (Piece σ)) (index : ℕ) (hv : ∀ piece ∈ before, piece.Valid) :
    cutPieces (before ++ after) index =
      if index < (sites before).length then ((cutPieces before index).1, (cutPieces before index).2 ++ after)
      else (before ++ (cutPieces after (index - (sites before).length)).1,
        (cutPieces after (index - (sites before).length)).2) := by
  induction before generalizing index with
  | nil => simp
  | cons piece rest ih =>
    have hpiece := (hv piece mem_cons_self).1
    simp only [cons_append, cutPieces, sites_cons, length_append, Piece.length_sites]
    by_cases h0 : index = 0
    · simp [h0, hpiece]
    · by_cases hlt : index < piece.length
      · simp [h0, hlt, Nat.lt_add_right]
      · rw [if_neg h0, if_neg hlt, if_neg h0, if_neg hlt, ih _ (fun p hp => hv p (mem_cons_of_mem _ hp))]
        by_cases hin : index - piece.length < (sites rest).length
        · rw [if_pos hin, if_pos (by omega)]
        · rw [if_neg hin, if_neg (by omega), Nat.sub_sub]

theorem splitPieceTree_pieces (seed : UInt32) (tree : PieceTree σ) (index : ℕ) (hs : tree.Sized)
    (hv : ∀ piece ∈ tree.pieces, piece.Valid) :
    (splitPieceTree seed tree index).1.1.Sized ∧ (splitPieceTree seed tree index).1.2.Sized ∧
      ((splitPieceTree seed tree index).1.1.pieces, (splitPieceTree seed tree index).1.2.pieces) =
        cutPieces tree.pieces index := by
  fun_induction splitPieceTree seed tree index with
  | case1 => exact ⟨trivial, trivial, rfl⟩
  | case2 left piece priority n right index leftLength hlt outer inner seed' heq ih =>
    obtain ⟨-, hl, hr⟩ := hs
    have hvl := fun p hp => hv p (mem_append_left _ hp)
    obtain ⟨h₁, h₂, hpieces⟩ := ih hl hvl
    rw [heq] at h₁ h₂ hpieces
    refine ⟨h₁, updatePieceNode_sized _ _ _ _ h₂ hr, ?_⟩
    rw [PieceTree.pieces, cutPieces_append _ _ _ hvl, if_pos (treeElements_sites left hl ▸ hlt), ← hpieces]
    rfl
  | case3 left piece priority n right index leftLength pieceEnd hge hgt inner outer seed' heq ih =>
    obtain ⟨-, hl, hr⟩ := hs
    have hleft := treeElements_sites left hl
    obtain ⟨h₁, h₂, hpieces⟩ := ih hr (fun p hp => hv p (mem_append_right _ (mem_cons_of_mem _ hp)))
    rw [heq] at h₁ h₂ hpieces
    refine ⟨updatePieceNode_sized _ _ _ _ hl h₁, h₂, ?_⟩
    rw [PieceTree.pieces, cutPieces_append _ _ _ (fun p hp => hv p (mem_append_left _ hp)), if_neg (by omega),
      cutPieces, if_neg (by omega), if_neg (by omega), ← hleft, Nat.sub_sub, ← hpieces]
    rfl
  | case4 left piece priority n right leftLength pieceEnd hge hle =>
    obtain ⟨-, hl, hr⟩ := hs
    refine ⟨hl, updatePieceNode_sized _ _ _ _ trivial hr, ?_⟩
    rw [PieceTree.pieces, cutPieces_append _ _ _ (fun p hp => hv p (mem_append_left _ hp)),
      ← treeElements_sites left hl]
    simp [leftLength, PieceTree.pieces]
  | case5 left piece priority n right leftLength pieceEnd hge hle hne =>
    obtain ⟨-, hl, hr⟩ := hs
    have hleft := treeElements_sites left hl
    refine ⟨updatePieceNode_sized _ _ _ _ hl trivial, hr, ?_⟩
    rw [PieceTree.pieces, cutPieces_append _ _ _ (fun p hp => hv p (mem_append_left _ hp)), if_neg (by omega),
      cutPieces, if_neg (by omega), if_neg (by omega), ← hleft, Nat.sub_sub, Nat.sub_self, cutPieces_zero]
    rfl
  | case6 left piece priority n right index leftLength pieceEnd hge hle hne hne' first second hcut next =>
    obtain ⟨-, hl, hr⟩ := hs
    have hleft := treeElements_sites left hl
    refine ⟨mergePieceTrees_sized _ _ hl (createPieceNode_sized _ _), mergePieceTrees_sized _ _
        (createPieceNode_sized _ _) hr, ?_⟩
    rw [PieceTree.pieces, cutPieces_append _ _ _ (fun p hp => hv p (mem_append_left _ hp)), if_neg (by omega),
      cutPieces, if_neg (by omega), if_pos (by omega), ← hleft, hcut]
    simp

theorem cutPieces_sites (pieces : List (Piece σ)) (index : ℕ) (hv : ∀ piece ∈ pieces, piece.Valid) :
    sites (cutPieces pieces index).1 = (sites pieces).take index ∧
      sites (cutPieces pieces index).2 = (sites pieces).drop index ∧
      (∀ piece ∈ (cutPieces pieces index).1, piece.Valid) ∧ ∀ piece ∈ (cutPieces pieces index).2, piece.Valid := by
  induction pieces generalizing index with
  | nil => simp [cutPieces]
  | cons piece rest ih =>
    obtain ⟨hpiece, hrest⟩ := forall_mem_cons.mp hv
    simp only [cutPieces]
    split
    · rename_i h0
      simpa [h0] using hv
    · rename_i h0
      split
      · rename_i hlt
        obtain ⟨hfirst, hsecond⟩ := Piece.cut_valid piece index hpiece (Nat.pos_of_ne_zero h0) hlt
        have hlength : (piece.cut index).1.sites.length = index := Piece.length_sites _
        simp only [sites_cons, Piece.cut_sites piece index hpiece hlt.le, append_assoc, sites_nil, append_nil]
        rw [take_left' hlength, drop_left' hlength]
        exact ⟨rfl, rfl, by simpa using hfirst, forall_mem_cons.mpr ⟨hsecond, hrest⟩⟩
      · rename_i hge
        obtain ⟨htake, hdrop, hbefore, hafter⟩ := ih (index - piece.length) hrest
        have hle : piece.sites.length ≤ index := by rw [Piece.length_sites]; omega
        rw [sites_cons, sites_cons, htake, hdrop, take_append, drop_append, Piece.length_sites,
          take_of_length_le hle, drop_of_length_le hle]
        exact ⟨rfl, rfl, forall_mem_cons.mpr ⟨hpiece, hbefore⟩, hafter⟩

variable {tree left right : PieceTree σ} {elements more : List (Kind σ × ℕ)}

theorem PieceTree.Denotes.length (h : tree.Denotes elements) : treeElements tree = elements.length := by
  rw [treeElements_sites tree h.sized, h.sites]

theorem mergePieceTrees_denotes (hl : left.Denotes elements) (hr : right.Denotes more) :
    (mergePieceTrees left right).Denotes (elements ++ more) := by
  refine ⟨mergePieceTrees_sized left right hl.sized hr.sized, fun piece hpiece => ?_, ?_⟩
  · rw [mergePieceTrees_pieces, mem_append] at hpiece
    exact hpiece.elim (hl.valid piece) (hr.valid piece)
  · rw [mergePieceTrees_pieces, sites_append, hl.sites, hr.sites]

theorem createPieceNode_denotes (seed : UInt32) (piece : Piece σ) (h : piece.Valid) :
    (createPieceNode seed piece).Denotes piece.sites := by
  refine ⟨createPieceNode_sized seed piece, fun p hp => ?_, by simp [sites]⟩
  rw [createPieceNode_pieces, mem_singleton] at hp
  exact hp ▸ h

theorem splitPieceTree_denotes (seed : UInt32) (index : ℕ) (h : tree.Denotes elements) :
    (splitPieceTree seed tree index).1.1.Denotes (elements.take index) ∧
      (splitPieceTree seed tree index).1.2.Denotes (elements.drop index) := by
  obtain ⟨hs, hv, rfl⟩ := h
  obtain ⟨h₁, h₂, hpieces⟩ := splitPieceTree_pieces seed tree index hs hv
  obtain ⟨htake, hdrop, hbefore, hafter⟩ := cutPieces_sites tree.pieces index hv
  rw [← hpieces] at htake hdrop hbefore hafter
  exact ⟨⟨h₁, hbefore, htake⟩, ⟨h₂, hafter, hdrop⟩⟩

/-! ## Joins -/

theorem rightmostPiece_eq (tree : PieceTree σ) : rightmostPiece tree = tree.pieces.getLast? := by
  induction tree with
  | nil => rfl
  | node l piece priority n r ihl ihr =>
    rw [rightmostPiece, PieceTree.pieces, ihr, getLast?_append, getLast?_cons]
    cases r.pieces.getLast? <;> rfl

theorem leftmostPiece_eq (tree : PieceTree σ) : leftmostPiece tree = tree.pieces.head? := by
  induction tree with
  | nil => rfl
  | node l piece priority n r ihl ihr =>
    rw [leftmostPiece, PieceTree.pieces, ihl, head?_append, head?_cons]

theorem splitPieceTree_between (seed : UInt32) (before after : List (Piece σ)) (h : tree.Denotes elements)
    (hp : tree.pieces = before ++ after) :
    (splitPieceTree seed tree (sites before).length).1.1.pieces = before ∧
      (splitPieceTree seed tree (sites before).length).1.2.pieces = after := by
  obtain ⟨-, -, hpieces⟩ := splitPieceTree_pieces seed tree (sites before).length h.sized h.valid
  have hv := h.valid
  rw [hp] at hpieces hv
  rw [cutPieces_append _ _ _ (fun p hp => hv p (mem_append_left _ hp))] at hpieces
  simpa using hpieces

theorem rightmostPiece_denotes (seed : UInt32) (piece : Piece σ) (h : tree.Denotes elements)
    (hlast : rightmostPiece tree = some piece) : piece.Valid ∧
      ∃ before, elements = before ++ piece.sites ∧
        (splitPieceTree seed tree (treeElements tree - piece.length)).1.1.Denotes before ∧
        (splitPieceTree seed tree
            (treeElements tree - piece.length)).1.1.pieces.length + 1 = tree.pieces.length := by
  rw [rightmostPiece_eq, getLast?_eq_some_iff] at hlast
  obtain ⟨init, hinit⟩ := hlast
  have helements : elements = sites init ++ piece.sites := by
    rw [← h.sites, hinit, sites_append, sites_cons, sites_nil, append_nil]
  have hlength : treeElements tree - piece.length = (sites init).length := by
    rw [h.length, helements, length_append, Piece.length_sites, Nat.add_sub_cancel]
  rw [hlength]
  have hsplit := (splitPieceTree_denotes seed (sites init).length h).1
  rw [helements, take_left] at hsplit
  refine ⟨h.valid piece (by simp [hinit]), sites init, helements, hsplit, ?_⟩
  rw [(splitPieceTree_between seed init [piece] h hinit).1, hinit, length_append, length_singleton]

theorem leftmostPiece_denotes (seed : UInt32) (piece : Piece σ) (h : tree.Denotes elements)
    (hfirst : leftmostPiece tree = some piece) : piece.Valid ∧
      ∃ after, elements = piece.sites ++ after ∧ (splitPieceTree seed tree piece.length).1.2.Denotes after ∧
        (splitPieceTree seed tree piece.length).1.2.pieces.length + 1 = tree.pieces.length := by
  rw [leftmostPiece_eq, head?_eq_some_iff] at hfirst
  obtain ⟨rest, hrest⟩ := hfirst
  have helements : elements = piece.sites ++ sites rest := by rw [← h.sites, hrest, sites_cons]
  have hlength : piece.length = (sites [piece]).length := by simp [sites]
  have hsplit := (splitPieceTree_denotes seed piece.length h).2
  rw [helements, drop_left' (Piece.length_sites piece)] at hsplit
  refine ⟨h.valid piece (by simp [hrest]), sites rest, helements, hsplit, ?_⟩
  rw [hlength, (splitPieceTree_between seed [piece] rest h hrest).2, hrest, length_cons]

variable [DecidableEq σ]

/-- More fuel than the number of pieces makes no difference. -/
theorem joinNormalized_spec (fuel : ℕ) (seed : UInt32) (hl : left.Denotes elements) (hr : right.Denotes more) :
    (joinNormalized fuel seed left right).1.Denotes (elements ++ more) ∧
      (joinNormalized fuel seed left right).1.pieces.length ≤ left.pieces.length + right.pieces.length ∧
      (left.pieces.length + right.pieces.length ≤ fuel →
        joinNormalized (fuel + 1) seed left right = joinNormalized fuel seed left right) := by
  induction fuel generalizing seed left right elements more with
  | zero =>
    refine ⟨mergePieceTrees_denotes hl hr, by simp [joinNormalized], fun hfuel => ?_⟩
    have hnil : left.pieces = [] := length_eq_zero_iff.mp (by omega)
    simp [joinNormalized, rightmostPiece_eq, hnil]
  | succ fuel ih =>
    rw [joinNormalized, joinNormalized]
    cases hlast : rightmostPiece left with
    | none => exact ⟨mergePieceTrees_denotes hl hr, by simp, fun _ => rfl⟩
    | some leftPiece =>
      cases hfirst : leftmostPiece right with
      | none => exact ⟨mergePieceTrees_denotes hl hr, by simp, fun _ => rfl⟩
      | some rightPiece =>
        by_cases hmergeable : mergeablePieces leftPiece rightPiece = true
        · obtain ⟨hleftPiece, before, rfl, hbefore, hcount⟩ := rightmostPiece_denotes seed leftPiece hl hlast
          obtain ⟨hrightPiece, after, rfl, hafter, hcount'⟩ := leftmostPiece_denotes
            (splitPieceTree seed left (treeElements left - leftPiece.length)).2 rightPiece hr hfirst
          obtain ⟨hsites, hcombined⟩ := combined_sites leftPiece rightPiece hleftPiece hrightPiece hmergeable
          obtain ⟨hinner, hinnerCount, hinnerFuel⟩ := ih _ hbefore (createPieceNode_denotes _ _ hcombined)
          obtain ⟨houter, houterCount, houterFuel⟩ := ih _ hinner hafter
          rw [hsites, ← append_assoc, append_assoc] at houter
          simp only [createPieceNode_pieces, length_singleton] at hinnerCount hinnerFuel
          simp only [if_pos hmergeable]
          refine ⟨houter, le_trans houterCount (by omega), fun hfuel => ?_⟩
          rw [hinnerFuel (by omega), houterFuel (by omega)]
        · simp only [if_neg hmergeable]
          exact ⟨mergePieceTrees_denotes hl hr, by simp, fun _ => trivial⟩

theorem joinPieceTrees_denotes (seed : UInt32) (hl : left.Denotes elements) (hr : right.Denotes more) :
    (joinPieceTrees seed left right).1.Denotes (elements ++ more) :=
  (joinNormalized_spec _ seed hl hr).1

/-! ## Trees of a list of pieces -/

omit [DecidableEq σ] in
theorem appendNodes_denotes (seed : UInt32) (pieces : List (Piece σ)) (h : tree.Denotes elements)
    (hv : ∀ piece ∈ pieces, piece.Valid) : (appendNodes seed tree pieces).1.Denotes (elements ++ sites pieces) := by
  induction pieces generalizing seed tree elements with
  | nil => simpa [appendNodes] using h
  | cons piece rest ih =>
    have hnode := createPieceNode_denotes seed piece (hv piece mem_cons_self)
    have := ih (nextPiecePriority seed) (mergePieceTrees_denotes h hnode)
        (fun p hp => hv p (mem_cons_of_mem _ hp))
    rwa [append_assoc, ← sites_cons] at this

theorem mergePieces_sites (pieces : List (Piece σ)) (hv : ∀ piece ∈ pieces, piece.Valid) :
    sites (mergePieces pieces) = sites pieces ∧ ∀ piece ∈ mergePieces pieces, piece.Valid := by
  fun_induction mergePieces pieces with
  | case1 => exact ⟨rfl, hv⟩
  | case2 => exact ⟨rfl, hv⟩
  | case3 left right rest h ih =>
    obtain ⟨hkind, hleft, hright, hnear⟩ := h
    obtain ⟨s, hs⟩ := isSome_iff_exists.mp hnear
    obtain ⟨hsites, hvalid⟩ := neighbours_sites left right hkind hleft hright s hs _ rfl
    rw [hs, getD_some] at ih ⊢
    have := ih (by
      intro p hp
      rcases mem_cons.mp hp with rfl | hp
      · exact hvalid
      · exact hv p (by simp [hp]))
    rwa [sites_cons, hsites, append_assoc, ← sites_cons, ← sites_cons] at this
  | case4 left right rest _ h ih =>
    obtain ⟨hsites, hvalid⟩ := continues_sites left right (hv left (by simp)) (hv right (by simp)) h.1 h.2 _ rfl
    have := ih (by
      intro p hp
      rcases mem_cons.mp hp with rfl | hp
      · exact hvalid
      · exact hv p (by simp [hp]))
    rwa [sites_cons, hsites, append_assoc, ← sites_cons, ← sites_cons] at this
  | case5 left right rest _ _ ih =>
    obtain ⟨hsites, hvalid⟩ := ih (fun p hp => hv p (mem_cons_of_mem _ hp))
    refine ⟨by rw [sites_cons, hsites, ← sites_cons], fun p hp => ?_⟩
    rcases mem_cons.mp hp with rfl | hp
    · exact hv p mem_cons_self
    · exact hvalid p hp

theorem treeFromPieces_denotes (seed : UInt32) (pieces : List (Piece σ)) (hv : ∀ piece ∈ pieces, piece.Valid) :
    (treeFromPieces seed pieces).1.Denotes (sites pieces) := by
  obtain ⟨hsites, hvalid⟩ := mergePieces_sites pieces hv
  have hnil : (PieceTree.nil : PieceTree σ).Denotes [] := ⟨trivial, by simp [PieceTree.pieces], rfl⟩
  have := appendNodes_denotes seed (mergePieces pieces) hnil hvalid
  rwa [hsites, nil_append] at this

/-! ## The last piece, and the piece at an index -/

omit [DecidableEq σ]

theorem extendRightmostPiece_sized (amount : ℕ) (h : tree.Sized) : (extendRightmostPiece amount tree).Sized := by
  fun_induction extendRightmostPiece amount tree with
  | case1 => exact h
  | case2 => exact ⟨rfl, h.2.1, h.2.2⟩
  | case3 left piece priority n l p q m r ih => exact ⟨rfl, h.2.1, ih h.2.2⟩

theorem extendRightmostPiece_pieces (amount : ℕ) (piece : Piece σ) (h : rightmostPiece tree = some piece) :
    ∃ before, tree.pieces = before ++ [piece] ∧
      (extendRightmostPiece amount tree).pieces = before ++ [{ piece with length := piece.length + amount }] := by
  fun_induction extendRightmostPiece amount tree with
  | case1 => cases h
  | case2 left p priority n =>
    obtain rfl := some.inj h
    exact ⟨left.pieces, rfl, rfl⟩
  | case3 left p priority n l p' q m r ih =>
    have hright : rightmostPiece (.node l p' q m r) = some piece := by
      simp only [rightmostPiece] at h ⊢
      cases hr : rightmostPiece r <;> simpa [hr] using h
    obtain ⟨before, hbefore, hafter⟩ := ih hright
    refine ⟨left.pieces ++ p :: before, ?_, ?_⟩
    · rw [PieceTree.pieces, hbefore, append_assoc, cons_append]
    · rw [updatePieceNode_pieces, hafter, append_assoc, cons_append]

theorem locatePiece_denotes (index : ℕ) (h : tree.Denotes elements) (hi : index < elements.length) :
    ∃ piece offset, locatePiece tree index = some (piece, offset) ∧ piece ∈ tree.pieces ∧ offset < piece.length ∧
      elements[index]? = some (piece.kind, piece.sourceIndex offset) := by
  obtain ⟨hs, -, rfl⟩ := h
  fun_induction locatePiece tree index with
  | case1 => simp [PieceTree.pieces] at hi
  | case2 left piece priority n right index leftLength hlt ih =>
    have hleft := treeElements_sites left hs.2.1
    obtain ⟨p, offset, hlocate, hmem, hoffset, hat⟩ := ih hs.2.1 (by omega)
    refine ⟨p, offset, hlocate, by simp [PieceTree.pieces, hmem], hoffset, ?_⟩
    rw [PieceTree.pieces, sites_append, getElem?_append_left (by omega), hat]
  | case3 left piece priority n right index leftLength hge hge' ih =>
    have hleft := treeElements_sites left hs.2.1
    simp only [PieceTree.pieces, sites_append, sites_cons, length_append, Piece.length_sites] at hi
    obtain ⟨p, offset, hlocate, hmem, hoffset, hat⟩ := ih hs.2.2 (by omega)
    refine ⟨p, offset, hlocate, by simp [PieceTree.pieces, hmem], hoffset, ?_⟩
    rw [PieceTree.pieces, sites_append, getElem?_append_right (by omega), sites_cons,
      getElem?_append_right (by rw [Piece.length_sites]; omega), Piece.length_sites, ← hleft, Nat.sub_sub, hat]
  | case4 left piece priority n right index leftLength hge hge' =>
    have hleft := treeElements_sites left hs.2.1
    refine ⟨piece, index - leftLength, rfl, by simp [PieceTree.pieces], by omega, ?_⟩
    rw [PieceTree.pieces, sites_append, getElem?_append_right (by omega), sites_cons,
      getElem?_append_left (by rw [Piece.length_sites]; omega), Piece.getElem?_sites, ← hleft, if_pos
          (by omega)]

/-! ## Pieces the other way round -/

def Step.flip : Step → Step
  | .up => .down
  | .down => .up

/-- What `reverse` makes of a piece. -/
def Piece.reversed (piece : Piece σ) : Piece σ :=
  { piece with start := piece.sourceIndex (piece.length - 1), step := piece.step.flip }

theorem Piece.reversed_sites (piece : Piece σ) (h : piece.Valid) :
    piece.reversed.sites = piece.sites.reverse ∧ piece.reversed.Valid := by
  obtain ⟨hlength, hdown⟩ := h
  refine ⟨ext_getElem? (fun i => ?_), hlength, fun hs => ?_⟩
  · by_cases hi : i < piece.length
    · rw [getElem?_reverse (by rwa [Piece.length_sites]), Piece.getElem?_sites, Piece.getElem?_sites,
        Piece.length_sites, if_pos (show i < piece.reversed.length from hi), if_pos (by omega)]
      cases hs : piece.step with
      | up =>
        simp only [Piece.reversed, Piece.sourceIndex, hs, Step.flip, Step.value, Option.some.injEq, Prod.mk.injEq,
            true_and]
        omega
      | down =>
        have := hdown hs
        simp only [Piece.reversed, Piece.sourceIndex, hs, Step.flip, Step.value, Option.some.injEq, Prod.mk.injEq,
            true_and]
        omega
    · rw [getElem?_eq_none (by rw [Piece.length_sites]; exact Nat.le_of_not_lt hi),
        getElem?_eq_none (by rw [length_reverse, Piece.length_sites]; exact Nat.le_of_not_lt hi)]
  · simp only [Piece.reversed] at hs ⊢
    cases hp : piece.step with
    | down => rw [hp] at hs; cases hs
    | up =>
      rw [Piece.sourceIndex_up _ hp]
      omega

theorem reversed_sites (pieces : List (Piece σ)) (hv : ∀ piece ∈ pieces, piece.Valid) :
    sites (pieces.reverse.map Piece.reversed) = (sites pieces).reverse := by
  induction pieces with
  | nil => rfl
  | cons piece rest ih =>
    rw [reverse_cons, map_append, sites_append, ih (fun p hp => hv p (mem_cons_of_mem _ hp)), sites_cons,
      reverse_append, map_cons, map_nil, sites_cons, sites_nil, append_nil,
      (Piece.reversed_sites piece (hv piece mem_cons_self)).1]

end

end PiAgent.Delta
