import Mathlib.Data.List.Sort
import PiAgent.Chord.Delta.ArrayPlan

/-! # What a plan does -/

namespace PiAgent.Delta

open List

variable {α σ : Type}

theorem permute_append (xs : List α) (is js : List ℕ) : permute xs (is ++ js) = permute xs is ++ permute xs js :=
  filterMap_append

theorem permute_of_lt (xs : List α) (is : List ℕ) (h : ∀ i ∈ is, i < xs.length) :
    (permute xs is).length = is.length ∧ ∀ p : ℕ, (permute xs is)[p]? = is[p]?.bind (fun i => xs[i]?) := by
  induction is with
  | nil => simp [permute]
  | cons i is ih =>
    obtain ⟨hlen, hget⟩ := ih (fun j hj => h j (by simp [hj]))
    have hlt : i < xs.length := h i (by simp)
    have hi : xs[i]? = some xs[i] := getElem?_eq_getElem hlt
    have hcons : permute xs (i :: is) = xs[i] :: permute xs is := by
      unfold permute
      rw [filterMap_cons_some hi]
    rw [hcons]
    refine ⟨by simp [hlen], ?_⟩
    rintro (- | p)
    · simp
    · simpa using hget p

/-! ## Removals -/

def removeRun (xs : List α) (r : ℕ × ℕ) : List α := splice xs r.1 r.2 []

theorem removeRun_run (pre mid post : List α) :
    (run pre.length (pre.length + mid.length)).foldl removeRun (pre ++ mid ++ post) = pre ++ post := by
  unfold run
  split
  · rw [Nat.add_sub_cancel_left]
    simpa [removeRun] using splice_middle pre mid post []
  · have hmid : mid = [] := eq_nil_of_length_eq_zero (by omega)
    simp [hmid]

variable (retained : ℕ → Bool) (base : List α)

theorem foldl_removeRunsFrom (n stop : ℕ) (mid post : List α)
    (hn : n ≤ base.length) (hstop : stop = n + mid.length) :
    (removeRunsFrom retained n stop).foldl removeRun (base.take n ++ mid ++ post)
      = permute base ((List.range n).filter retained) ++ post := by
  induction n generalizing stop mid post with
  | zero =>
    subst hstop
    simpa [removeRunsFrom, permute] using removeRun_run [] mid post
  | succ n ih =>
    have htake : base.take (n + 1) = base.take n ++ [base[n]] := take_succ_eq_append_getElem (by omega)
    have hget : base[n]? = some base[n] := getElem?_eq_getElem _
    rw [removeRunsFrom, range_succ, filter_append, permute_append]
    split
    · rename_i hretained
      have hlen : (base.take (n + 1)).length = n + 1 := by
        rw [length_take]
        omega
      have hrun := removeRun_run (base.take (n + 1)) mid post
      rw [hlen, ← hstop] at hrun
      have hkeep : permute base ([n].filter retained) = [base[n]] := by simp [permute, hretained, hget]
      have hrest := ih n [] (base[n] :: post) (by omega) (by simp)
      rw [append_nil] at hrest
      rw [foldl_append, hrun, htake, append_assoc, singleton_append, hrest, hkeep]
      simp
    · rename_i hretained
      have hkeep : permute base ([n].filter retained) = [] := by simp [permute, hretained]
      have hrest := ih stop (base[n] :: mid) post (by omega) (by rw [length_cons]; omega)
      rw [hkeep, append_nil, ← hrest, htake]
      simp only [append_assoc, cons_append, nil_append]

/-! ## The ordered plan -/

def Descending (stop : ℕ) : List (ℕ × ℕ) → Prop
  | [] => True
  | r :: ranges => r.1 ≤ r.2 ∧ r.2 < stop ∧ Descending r.1 ranges

def inRanges (ranges : List (ℕ × ℕ)) (i : ℕ) : Bool := ranges.any (fun r => r.1 ≤ i && i ≤ r.2)

variable (stop : ℕ) (ranges : List (ℕ × ℕ))

theorem inRanges_lt (h : Descending stop ranges) (i : ℕ) (hi : inRanges ranges i = true) : i < stop := by
  induction ranges generalizing stop with
  | nil => simp [inRanges] at hi
  | cons r ranges ih =>
    obtain ⟨hle, hr, hrest⟩ := h
    simp only [inRanges, any_cons, Bool.or_eq_true, Bool.and_eq_true, decide_eq_true_eq] at hi
    rcases hi with hi | hi
    · omega
    · have := ih r.1 hrest hi
      omega

theorem removeRunsFrom_unretained (low n stop : ℕ) (hlow : low ≤ n)
    (h : ∀ i, low ≤ i → i < n → retained i = false) :
    removeRunsFrom retained n stop = removeRunsFrom retained low stop := by
  induction n, hlow using Nat.le_induction with
  | base => rfl
  | succ n hn ih =>
    rw [removeRunsFrom, h n hn (by omega)]
    exact ih (fun i hi hin => h i hi (by omega))

theorem run_self (n : ℕ) : run n n = [] := by
  simp [run]

theorem removeRunsFrom_retained (low n : ℕ) (hlow : low ≤ n) (h : ∀ i, low ≤ i → i < n → retained i = true) :
    removeRunsFrom retained n n = removeRunsFrom retained low low := by
  induction n, hlow using Nat.le_induction with
  | base => rfl
  | succ n hn ih =>
    rw [removeRunsFrom, h n hn (by omega), if_pos rfl, run_self, nil_append]
    exact ih (fun i hi hin => h i hi (by omega))

theorem unretainedRuns_eq (hdesc : Descending stop ranges) (h : ∀ i, i < stop → retained i = inRanges ranges i) :
    unretainedRuns stop ranges = removeRunsFrom retained stop stop := by
  induction ranges generalizing stop with
  | nil =>
    rw [removeRunsFrom_unretained retained 0 stop stop (by omega) (fun i _ hi => by simpa [inRanges] using h i hi)]
    rfl
  | cons r ranges ih =>
    obtain ⟨hr, hstop, hrest⟩ := hdesc
    have hmem : ∀ i, i < stop → retained i = ((r.1 ≤ i && i ≤ r.2) || inRanges ranges i) := by
      intro i hi
      rw [h i hi, inRanges, any_cons]
      rfl
    have hbelow : ∀ i, r.1 ≤ i → inRanges ranges i = false := by
      intro i hi
      by_contra hc
      have := inRanges_lt r.1 ranges hrest i (by simpa using hc)
      omega
    have hgap : ∀ i, r.2 + 1 ≤ i → i < stop → retained i = false := by
      intro i hi histop
      rw [hmem i histop, hbelow i (by omega)]
      simp
      omega
    have hrange : ∀ i, r.1 ≤ i → i < r.2 → retained i = true := by
      intro i hi hir
      rw [hmem i (by omega)]
      simp
      omega
    have hrec := ih r.1 hrest (fun i hi => by
      rw [hmem i (by omega)]
      simp
      omega)
    have hlast : retained r.2 = true := by
      rw [hmem r.2 hstop]
      simp [hr]
    rw [unretainedRuns, hrec, removeRunsFrom_unretained retained (r.2 + 1) stop stop (by omega) hgap,
        removeRunsFrom, hlast,
      if_pos rfl, removeRunsFrom_retained retained r.1 r.2 hr hrange]

def Ascending (low : ℕ) : List (ℕ × ℕ) → Prop
  | [] => True
  | r :: ranges => low ≤ r.1 ∧ r.1 ≤ r.2 ∧ Ascending (r.2 + 1) ranges

theorem descending_append (r : ℕ × ℕ) (hr : r.1 ≤ r.2) (hstop : r.2 < stop)
    (h : Descending stop ranges) (hlow : ∀ q ∈ ranges, r.2 < q.1) : Descending stop (ranges ++ [r]) := by
  induction ranges generalizing stop with
  | nil => exact ⟨hr, hstop, trivial⟩
  | cons q ranges ih =>
    obtain ⟨hq, hqstop, hrest⟩ := h
    exact ⟨hq, hqstop, ih q.1 (hlow q (by simp)) hrest (fun p hp => hlow p (by simp [hp]))⟩

theorem Ascending.low {low : ℕ} {ranges : List (ℕ × ℕ)} (h : Ascending low ranges) :
    ∀ r ∈ ranges, low ≤ r.1 ∧ r.1 ≤ r.2 := by
  induction ranges generalizing low with
  | nil => simp
  | cons r ranges ih =>
    obtain ⟨hlow, hr, hrest⟩ := h
    intro q hq
    rcases mem_cons.mp hq with rfl | hq
    · exact ⟨hlow, hr⟩
    · have := ih hrest q hq
      omega

theorem Ascending.reverse {low stop : ℕ} {ranges : List (ℕ × ℕ)} (h : Ascending low ranges)
    (hstop : ∀ r ∈ ranges, r.2 < stop) : Descending stop ranges.reverse := by
  induction ranges generalizing low with
  | nil => exact trivial
  | cons r ranges ih =>
    obtain ⟨-, hr, hrest⟩ := h
    rw [reverse_cons]
    refine descending_append stop _ r hr (hstop r (by simp)) (ih hrest (fun q hq => hstop q (by simp [hq]))) ?_
    intro q hq
    have := hrest.low q (mem_reverse.mp hq)
    omega

def rangeIndices (ranges : List (ℕ × ℕ)) : List ℕ := ranges.flatMap (fun r => List.range' r.1 (r.2 + 1 - r.1))

theorem mem_rangeIndices (i : ℕ) : i ∈ rangeIndices ranges ↔ ∃ r ∈ ranges, r.1 ≤ i ∧ i ≤ r.2 := by
  simp only [rangeIndices, mem_flatMap, mem_range'_1]
  refine exists_congr (fun r => and_congr_right (fun _ => ?_))
  omega

theorem Ascending.sorted {low : ℕ} {ranges : List (ℕ × ℕ)} (h : Ascending low ranges) :
    (rangeIndices ranges).Pairwise (· < ·) := by
  induction ranges generalizing low with
  | nil => simp [rangeIndices]
  | cons r ranges ih =>
    obtain ⟨-, -, hrest⟩ := h
    rw [rangeIndices, flatMap_cons, pairwise_append]
    refine ⟨pairwise_lt_range', ih hrest, ?_⟩
    intro i hi j hj
    rw [mem_range'_1] at hi
    obtain ⟨q, hq, hj, -⟩ := (mem_rangeIndices ranges j).mp hj
    have := hrest.low q hq
    omega

theorem indices_up (piece : Piece σ) (h : piece.step = .up) :
    piece.indices = List.range' piece.start piece.length := by
  rw [Piece.indices, range'_eq_map_range]
  refine map_congr_left (fun offset _ => ?_)
  rw [Piece.sourceIndex, h, Step.value]
  omega

theorem indices_single (piece : Piece σ) (h : piece.length = 1) : piece.indices = [piece.start] := by
  simp [Piece.indices, Piece.sourceIndex, h]

theorem orderedRanges_spec (pieces : List (Piece σ)) (last : Option ℕ) (ranges : List (ℕ × ℕ))
    (h : orderedRanges last pieces = some ranges) :
    Ascending ((last.map (· + 1)).getD 0) ranges ∧ targetBase pieces = rangeIndices ranges := by
  induction pieces generalizing last ranges with
  | nil =>
    obtain rfl := Option.some.inj h
    exact ⟨trivial, rfl⟩
  | cons piece pieces ih =>
    unfold orderedRanges at h
    split at h
    · rename_i hskip
      obtain ⟨hasc, htarget⟩ := ih last ranges h
      refine ⟨hasc, ?_⟩
      rw [← htarget, targetBase, targetBase, filter_cons]
      split
      · rename_i hbase
        have hlen : piece.length = 0 := by simpa [hbase] using hskip
        simp [Piece.indices, hlen]
      · rfl
    · rename_i hkeep
      split at h
      · cases h
      · rename_i hstep
        split at h
        · cases h
        · rename_i hlast
          obtain ⟨rest, hrest, rfl⟩ := Option.map_eq_some_iff.mp h
          obtain ⟨hasc, htarget⟩ := ih _ rest hrest
          simp only [Bool.or_eq_true, Bool.not_eq_true', decide_eq_true_eq, not_or, Bool.not_eq_false] at hkeep
          refine ⟨⟨?_, by simp only; omega, by simpa using hasc⟩, ?_⟩
          · cases last with
            | none => simp
            | some last => simpa [Nat.succ_le_iff] using hlast
          · have hindices : piece.indices = List.range' piece.start piece.length := by
              by_cases hup : piece.step = .up
              · exact indices_up piece hup
              · have hone : piece.length = 1 := by
                  have := not_and.mp hstep hup
                  omega
                rw [indices_single piece hone, hone]
                rfl
            have hlen : piece.start + piece.length - 1 + 1 - piece.start = piece.length := by omega
            rw [targetBase, filter_cons, if_pos hkeep.1, flatMap_cons, ← targetBase, htarget, hindices]
            rw [rangeIndices, rangeIndices, flatMap_cons, hlen]

/-! ## Retained elements -/

structure Distinct (baseLength : ℕ) (pieces : List (Piece σ)) : Prop where
  nodup : (targetBase pieces).Nodup
  inBase : ∀ i ∈ targetBase pieces, i < baseLength

variable {baseLength : ℕ} {pieces : List (Piece σ)}

theorem Distinct.perm (h : Distinct baseLength pieces) : (targetBase pieces).Perm
    (retainedBase baseLength pieces) := by
  refine (perm_ext_iff_of_nodup h.nodup (nodup_range.filter _)).mpr (fun i => ?_)
  simp only [mem_filter, mem_range, decide_eq_true_eq]
  exact ⟨fun hi => ⟨h.inBase i hi, hi⟩, fun hi => hi.2⟩

theorem retainedBase_sorted (baseLength : ℕ) (pieces : List (Piece σ)) :
    (retainedBase baseLength pieces).Pairwise (· < ·) :=
  pairwise_lt_range.filter _

theorem moved_eq_false (xs ys : List ℕ) (hlen : xs.length = ys.length) :
    xs.zipIdx.any (fun p => ys[p.2]? ≠ some p.1) = false ↔ xs = ys := by
  simp only [any_eq_false, decide_eq_true_eq, not_not, Prod.forall, mem_zipIdx_iff_getElem?]
  constructor
  · intro h
    refine ext_getElem? (fun i => ?_)
    rcases Nat.lt_or_ge i xs.length with hi | hi
    · rw [h _ i (getElem?_eq_getElem hi), getElem?_eq_getElem hi]
    · rw [getElem?_eq_none hi, getElem?_eq_none (hlen ▸ hi)]
  · rintro rfl x i h
    exact h

theorem orderedArrayPlan_eq (h : Distinct baseLength pieces) (plan : ArrayPlan)
    (hplan : orderedArrayPlan baseLength pieces = some plan) : plan = elementArrayPlan baseLength pieces := by
  unfold orderedArrayPlan at hplan
  cases hranges : orderedRanges none pieces with
  | none =>
    rw [hranges] at hplan
    cases hplan
  | some ranges =>
    rw [hranges] at hplan
    obtain rfl := Option.some.inj hplan
    obtain ⟨hasc, htarget⟩ := orderedRanges_spec pieces none ranges hranges
    have hstop : ∀ r ∈ ranges, r.2 < baseLength := by
      intro r hr
      have hr12 := (hasc.low r hr).2
      exact h.inBase r.2 (htarget ▸ (mem_rangeIndices ranges r.2).mpr ⟨r, hr, hr12, Nat.le_refl _⟩)
    have hsame : targetBase pieces = retainedBase baseLength pieces := by
      refine h.perm.eq_of_pairwise ?_ (htarget ▸ hasc.sorted) (retainedBase_sorted baseLength pieces)
      intro i j _ _ hij hji
      omega
    have hruns := unretainedRuns_eq (fun i => i ∈ targetBase pieces) baseLength ranges.reverse (hasc.reverse hstop)
        (by
      intro i hi
      rw [htarget, Bool.eq_iff_iff]
      simp [mem_rangeIndices, inRanges])
    simp only [elementArrayPlan, hruns, (moved_eq_false _ _ h.perm.length_eq).mpr hsame, Bool.false_eq_true,
        if_false]

/-! ## The permutation -/

def keptEntries (base : List α) (pieces : List (Piece σ)) : List α := permute base (targetBase pieces)

def permutationOf (baseLength : ℕ) (pieces : List (Piece σ)) : List ℕ :=
  (targetBase pieces).map (fun i => (retainedBase baseLength pieces).idxOf i)

theorem permutationOf_isPermutation (h : Distinct baseLength pieces) : IsPermutation
    (permutationOf baseLength pieces) := by
  rw [← assertPermutation_iff, assertPermutation, checkPermutation_iff]
  constructor
  · refine h.nodup.map_on ?_
    intro i hi j _ hij
    exact (idxOf_inj (h.perm.mem_iff.mp hi)).mp hij
  · intro p hp
    obtain ⟨i, hi, rfl⟩ := mem_map.mp hp
    refine ⟨?_, by simp⟩
    rw [permutationOf, length_map, h.perm.length_eq]
    exact idxOf_lt_length_of_mem (h.perm.mem_iff.mp hi)

theorem retained_lt (h : Distinct base.length pieces) : ∀ i ∈ retainedBase base.length pieces, i < base.length :=
  fun i hi => h.inBase i (h.perm.mem_iff.mpr hi)

theorem permute_permutationOf (h : Distinct base.length pieces) :
    permute (permute base (retainedBase base.length pieces))
        (permutationOf base.length pieces) = keptEntries base pieces := by
  unfold keptEntries
  conv_lhs => unfold permute permutationOf
  conv_rhs => unfold permute
  rw [filterMap_map]
  refine filterMap_congr (fun i hi => ?_)
  have hmem := h.perm.mem_iff.mp hi
  have hget : (retainedBase base.length pieces)[(retainedBase base.length pieces).idxOf i]? = some i := by
    rw [getElem?_eq_getElem (idxOf_lt_length_of_mem hmem), getElem_idxOf]
  have := (permute_of_lt base _ (retained_lt base h)).2 ((retainedBase base.length pieces).idxOf i)
  rw [hget] at this
  exact this

/-! ## Insertions -/

section Insertions

variable (base : List α) (values : σ → ℕ → α)

def allEntries (pieces : List (Piece σ)) : List α := pieces.flatMap (Piece.entries base values)

def insertRun (pieces : List (Piece σ)) (xs : List α) (r : ℕ × ℕ × ℕ) : List α :=
  splice xs r.1 0 (runItems base values pieces r.2.1 r.2.2)

theorem allEntries_append (pieces pieces' : List (Piece σ)) :
    allEntries base values (pieces ++ pieces') = allEntries base values pieces ++ allEntries base values pieces' :=
  flatMap_append

theorem keptEntries_cons (piece : Piece σ) (pieces : List (Piece σ)) : keptEntries base (piece :: pieces)
      = (if piece.isBase then piece.entries base values else []) ++ keptEntries base pieces := by
  unfold keptEntries targetBase
  rw [filter_cons]
  split
  · rename_i hbase
    rw [flatMap_cons, permute_append]
    congr 1
    unfold Piece.isBase at hbase
    unfold Piece.entries
    split at hbase
    · rfl
    · cases hbase
  · rfl

theorem entries_length (piece : Piece σ) (h : piece.isBase = true → ∀ i ∈ piece.indices, i < base.length) :
    (piece.entries base values).length = piece.length := by
  have hlen : piece.indices.length = piece.length := by simp [Piece.indices]
  unfold Piece.entries
  split
  · rename_i hkind
    rw [← hlen]
    exact (permute_of_lt base _ (h (by rw [Piece.isBase, hkind]))).1
  · rw [length_map, hlen]

theorem insertRun_close (closed opened rest : List (Piece σ)) (start : Option (ℕ × ℕ)) (tail : List α)
    (hstart : start = none ∧ opened = [] ∨ start = some ((allEntries base values closed).length, closed.length)) :
    (start.toList.map (fun o => (o.1, o.2, (closed ++ opened).length))).foldl
        (insertRun base values (closed ++ opened ++ rest)) (allEntries base values closed ++ tail)
      = allEntries base values (closed ++ opened) ++ tail := by
  rcases hstart with ⟨rfl, rfl⟩ | rfl
  · simp
  · have hitems : runItems base values (closed ++ opened ++ rest) closed.length (closed ++ opened).length
        = allEntries base values opened := by
      unfold runItems allEntries
      rw [append_assoc, drop_left, length_append, Nat.add_sub_cancel_left, take_left]
    have := splice_middle (allEntries base values closed) [] tail (allEntries base values opened)
    rw [append_nil, length_nil] at this
    simp only [Option.toList_some, map_cons, map_nil, foldl_cons, foldl_nil, insertRun, hitems, this,
      allEntries_append]

theorem foldl_insertRunsFrom (closed opened rest : List (Piece σ)) (start : Option (ℕ × ℕ))
    (hlen : ∀ piece ∈ rest, (piece.entries base values).length = piece.length)
    (hstart : start = none ∧ opened = [] ∨ start = some ((allEntries base values closed).length, closed.length)) :
    (insertRunsFrom (allEntries base values (closed ++ opened)).length (closed ++ opened).length start rest).foldl
        (insertRun base values (closed ++ opened ++ rest)) (allEntries base values closed ++ keptEntries base rest)
      = allEntries base values (closed ++ opened ++ rest) := by
  induction rest generalizing closed opened start with
  | nil =>
    have := insertRun_close base values closed opened [] start [] hstart
    simpa [insertRunsFrom, keptEntries, targetBase, permute] using this
  | cons piece rest ih =>
    have hpiece : ∀ pieces, (allEntries base values pieces).length + piece.length
        = (allEntries base values (pieces ++ [piece])).length := by
      intro pieces
      simp [allEntries, hlen piece (by simp)]
    have hrest : ∀ p ∈ rest, (p.entries base values).length = p.length := fun p hp => hlen p (by simp [hp])
    unfold insertRunsFrom
    rw [keptEntries_cons base values]
    split
    · have hclose := insertRun_close base values closed opened (piece :: rest) start
        (piece.entries base values ++ keptEntries base rest) hstart
      have hih := ih (closed ++ opened ++ [piece]) [] none hrest (.inl ⟨rfl, rfl⟩)
      rw [foldl_append, hclose, hpiece]
      simpa [allEntries, append_assoc, Nat.add_assoc] using hih
    · have hih := ih closed (opened ++ [piece]) (start.or (some ((allEntries base values (closed ++ opened)).length,
        (closed ++ opened).length))) hrest (by
          rcases hstart with ⟨rfl, rfl⟩ | rfl
          · simp
          · simp)
      rw [hpiece]
      simpa [append_assoc, Nat.add_assoc] using hih

end Insertions

/-! ## The operations -/

theorem applyOp_splice_root (xs : List JsonValue) (index remove : ℕ) (items : List JsonValue) :
    applyOp (.arr xs) (.edit [] (.p index remove items)) = .ok (.arr (splice xs index remove items)) := by
  have := applyOp_onArray [] Place.ok_nil (.p index remove items) (.arr xs) rfl trivial
  rwa [Edit.onArray, insertChunks_splice] at this

theorem apply_splices {β : Type} (runs : List β) (index remove : β → ℕ) (items : β → List JsonValue)
    (xs : List JsonValue) :
    apply (.arr xs) (runs.map (fun r => .edit [] (.p (index r) (remove r) (items r))))
      = .ok (.arr (runs.foldl (fun xs r => splice xs (index r) (remove r) (items r)) xs)) := by
  induction runs generalizing xs with
  | nil => rfl
  | cons r runs ih =>
    rw [map_cons, apply_cons _ _ _ _ (applyOp_splice_root xs _ _ _), ih]
    rfl

theorem apply_permutation (base : List JsonValue) (h : Distinct base.length pieces) :
    apply (.arr (permute base (retainedBase base.length pieces)))
        ((elementArrayPlan base.length pieces).permutation.toList.map
            (fun permutation => .edit [] (.m permutation)))
      = .ok (.arr (keptEntries base pieces)) := by
  cases hmoved : (targetBase pieces).zipIdx.any (fun p => (retainedBase base.length pieces)[p.2]? ≠ some p.1) with
  | false =>
    have hsame := (moved_eq_false _ _ h.perm.length_eq).mp hmoved
    simp only [elementArrayPlan, hmoved, Bool.false_eq_true, if_false, Option.toList_none, map_nil, apply_nil]
    rw [keptEntries, hsame]
  | true =>
    have hlen : (permute base (retainedBase base.length pieces)).length =
        (permutationOf base.length pieces).length := by
      rw [(permute_of_lt base _ (retained_lt base h)).1, permutationOf, length_map, h.perm.length_eq]
    have happ := applyOp_permute [] Place.ok_nil _ _ (permutationOf_isPermutation h) hlen
    rw [permute_permutationOf base h] at happ
    simp only [elementArrayPlan, hmoved, if_true, Option.toList_some, map_cons, map_nil]
    exact apply_singleton _ _ _ happ

/-- Whichever walk makes the plan, its operations turn the base into the entries of the pieces. -/
theorem arrayPlan_correct (base : List JsonValue) (values : σ → ℕ → JsonValue) (pieces : List (Piece σ))
    (h : Distinct base.length pieces) :
    (∀ plan, orderedArrayPlan base.length pieces = some plan → plan = elementArrayPlan base.length pieces) ∧
      ∀ plan, plan = elementArrayPlan base.length pieces ∨ orderedArrayPlan base.length pieces = some plan →
        apply (.arr base) (plan.operations [] base values pieces)
          = .ok (.arr (pieces.flatMap (Piece.entries base values))) := by
  refine ⟨orderedArrayPlan_eq h, ?_⟩
  intro plan hplan
  obtain rfl : plan = elementArrayPlan base.length pieces := hplan.elim id (orderedArrayPlan_eq h plan)
  have hremove := apply_splices (elementArrayPlan base.length pieces).removeRuns Prod.fst Prod.snd
      (fun _ => []) base
  have hkept := foldl_removeRunsFrom (fun i => i ∈ targetBase pieces) base base.length base.length [] []
      (Nat.le_refl _) rfl
  simp only [take_length, append_nil] at hkept
  have hremoved : apply (.arr base)
      ((elementArrayPlan base.length pieces).removeRuns.map (fun r => .edit [] (.p r.1 r.2 [])))
      = .ok (.arr (permute base (retainedBase base.length pieces))) :=
    hremove.trans (congrArg (fun xs => Except.ok (JsonValue.arr xs)) hkept)
  have hlen : ∀ piece ∈ pieces, (piece.entries base values).length = piece.length := by
    intro piece hpiece
    refine entries_length base values piece (fun hbase i hi => h.inBase i ?_)
    exact mem_flatMap.mpr ⟨piece, mem_filter.mpr ⟨hpiece, hbase⟩, hi⟩
  have hinserted := foldl_insertRunsFrom base values [] [] pieces none hlen (.inl ⟨rfl, rfl⟩)
  have hinsert := apply_splices (insertRunsOf pieces) Prod.fst (fun _ => 0)
    (fun r => runItems base values pieces r.2.1 r.2.2) (keptEntries base pieces)
  rw [ArrayPlan.operations, append_assoc, apply_append _ _ _ _ hremoved, apply_append _ _ _ _
      (apply_permutation base h)]
  exact hinsert.trans (congrArg (fun xs => Except.ok (JsonValue.arr xs)) hinserted)

def samplePieces : List (Piece Unit) :=
  [⟨.base, 3, 1, .up⟩, ⟨.insert (), 0, 1, .up⟩, ⟨.base, 1, 1, .down⟩]

def sampleBase : List JsonValue := [.num 0, .num 1, .num 2, .num 3]

theorem distinct_sample : Distinct sampleBase.length samplePieces := ⟨by decide, by decide⟩

theorem arrayPlan_correct_sample : apply (.arr sampleBase)
        ((elementArrayPlan 4 samplePieces).operations [] sampleBase (fun _ _ => .null) samplePieces)
      = .ok (.arr [.num 3, .null, .num 1]) :=
  (arrayPlan_correct sampleBase (fun _ _ => .null) samplePieces distinct_sample).2 _ (.inl rfl)

end PiAgent.Delta
