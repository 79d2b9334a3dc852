import Mathlib.Data.List.Perm.Subperm
import PiAgent.Chord.Delta.Op

/-!
# Matching two arrays

The match finders of `delta/diff.ts`. A region of an array is the list of its items;
the code keeps the whole array and two bounds, so its indices are these plus the start.
What the later proofs need is one fact: the matches go up on both sides.
-/

namespace PiAgent.Delta

open Option List Assoc

abbrev ArrayMatch := ℕ × ℕ

def maxIdentityCandidates : ℕ := 200000

def maxSemanticCells : ℕ := 65536

/-! ## Definitions -/

/-- The loop of `lowerBound`. -/
def lowerBoundIn (values : List ℕ) (value low high : ℕ) : ℕ :=
  if low < high then
    let middle := (low + high) / 2
    if values.getD middle 0 < value then lowerBoundIn values value (middle + 1) high
    else lowerBoundIn values value low middle
  else low
termination_by high - low

def lowerBound (values : List ℕ) (value : ℕ) : ℕ := lowerBoundIn values value 0 values.length

section Lcs

variable {α : Type} (equal : α → α → Bool)

/-- One row of the length table, from the row below it. -/
def lcsRow (x : α) : List α → List ℕ → List ℕ
  | y :: after, down :: below =>
    let row := lcsRow x after below
    (if equal x y then below.headD 0 + 1 else max down (row.headD 0)) :: row
  | _, _ => [0]

def lcsLengths (before after : List α) : List (List ℕ) :=
  before.foldr (fun x rows => lcsRow equal x after (rows.headD []) :: rows) [List.replicate (after.length + 1) 0]

/-- The walk through the table. Both lists begin at the given indices. -/
def lcsWalk (lengths : ℕ → ℕ → ℕ) : List α → List α → ℕ → ℕ → List ArrayMatch
  | x :: before, y :: after, left, right =>
    if equal x y && lengths left right == lengths (left + 1) (right + 1) + 1 then
      (left, right) :: lcsWalk lengths before after (left + 1) (right + 1)
    else if lengths (left + 1) right ≥ lengths left (right + 1) then
      lcsWalk lengths before (y :: after) (left + 1) right
    else lcsWalk lengths (x :: before) after left (right + 1)
  | _, _, _, _ => []
termination_by before after => before.length + after.length

def lcsMatches (before after : List α) (maxCells : ℕ) : Option (List ArrayMatch) :=
  if before.isEmpty || after.isEmpty then some []
  else if before.length * after.length > maxCells then none
  else
    let rows := lcsLengths equal before after
    some (lcsWalk equal (fun left right => (rows.getD left []).getD right 0) before after 0 0)

end Lcs

section Identity

variable {κ : Type} [DecidableEq κ]

/-- Finds the items of `short` one after the other in `long`; `none` when one is missing. -/
def subsequence : List κ → List κ → ℕ → ℕ → Option (List ArrayMatch)
  | _, [], _, _ => some []
  | [], _ :: _, _, _ => none
  | x :: long, y :: short, i, j =>
    if x = y then (subsequence long short (i + 1) (j + 1)).map ((i, j) :: ·)
    else subsequence long (y :: short) (i + 1) j

def identitySubsequence (before after : List κ) : Option (List ArrayMatch) :=
  if after.length < before.length then subsequence before after 0 0
  else if before.length < after.length then
    (subsequence after before 0 0).map (fun ms => ms.map (fun m => (m.2, m.1)))
  else none

/-- The indices at which each item stands, in order. -/
def addPositions (index : ℕ) : List κ → List (κ × List ℕ) → List (κ × List ℕ)
  | [], positions => positions
  | k :: ks, positions =>
    addPositions (index + 1) ks (set positions k ((get? positions k).getD [] ++ [index]))

def positionsOf (before : List κ) : List (κ × List ℕ) := addPositions 0 before []

/-- `next` is the code's `previous + 1`. -/
def greedyIdentityAnchors (positions : List (κ × List ℕ)) : List κ → ℕ → ℕ → List ArrayMatch
  | [], _, _ => []
  | k :: after, afterIndex, next =>
    match get? positions k with
    | none => greedyIdentityAnchors positions after (afterIndex + 1) next
    | some candidates =>
      match candidates[lowerBound candidates next]? with
      | none => greedyIdentityAnchors positions after (afterIndex + 1) next
      | some beforeIndex =>
        (beforeIndex, afterIndex) :: greedyIdentityAnchors positions after (afterIndex + 1) (beforeIndex + 1)

structure MatchCandidate where
  before : ℕ
  after : ℕ
  previous : Option ℕ

/-- The longest increasing runs found so far. -/
structure Tails where
  candidates : List MatchCandidate
  tails : List ℕ
  tailValues : List ℕ

/-- `values[at] = value`, where `at` is at most the length. -/
def putAt (values : List ℕ) (index value : ℕ) : List ℕ :=
  if index < values.length then values.set index value else values ++ [value]

def Tails.add (st : Tails) (afterIndex beforeIndex : ℕ) : Tails :=
  let index := lowerBound st.tailValues beforeIndex
  { candidates := st.candidates ++
      [{ before := beforeIndex, after := afterIndex, previous := if index = 0 then none else st.tails[index - 1]? }],
    tails := putAt st.tails index st.candidates.length,
    tailValues := putAt st.tailValues index beforeIndex }

def Tails.addAll (positions : List (κ × List ℕ)) : List κ → ℕ → Tails → Tails
  | [], _, st => st
  | k :: after, afterIndex, st =>
    let beforePositions := (get? positions k).getD []
    addAll positions after (afterIndex + 1)
      (beforePositions.reverse.foldl (fun st beforeIndex => st.add afterIndex beforeIndex) st)

/-- Follows `previous` from the end of a run. Each step goes to an earlier candidate, so the number of candidates
bounds the steps. -/
def walkBack (candidates : List MatchCandidate) : ℕ → Option ℕ → List ArrayMatch → List ArrayMatch
  | steps + 1, some index, later =>
    match candidates[index]? with
    | none => later
    | some candidate => walkBack candidates steps candidate.previous ((candidate.before, candidate.after) :: later)
  | _, _, later => later

def identityAnchors (before after : List κ) : List ArrayMatch :=
  let positions := positionsOf before
  let candidateCount := (after.map (fun k => ((get? positions k).getD []).length)).sum
  if candidateCount > maxIdentityCandidates then greedyIdentityAnchors positions after 0 0
  else if candidateCount = 0 then []
  else
    let st := Tails.addAll positions after 0 { candidates := [], tails := [], tailValues := [] }
    walkBack st.candidates st.candidates.length st.tails.getLast? []

/-- Takes for every item of `after` the next unused index of the same item in `before`. -/
def takePositions : List κ → List (κ × List ℕ) → Option (List ℕ)
  | [], _ => some []
  | k :: after, positions =>
    match get? positions k with
    | some (index :: indices) => (takePositions after (set positions k indices)).map (index :: ·)
    | _ => none

def permutation (before after : List κ) : Option (List ℕ) :=
  if before.length ≠ after.length then none else takePositions after (positionsOf before)

end Identity

/-! ## Matches that go up -/

/-- The matches lie between two corners, and each lies behind the one before it on both sides. -/
def Increasing (low high : ℕ × ℕ) : List ArrayMatch → Prop
  | [] => True
  | m :: ms =>
    (low.1 ≤ m.1 ∧ low.2 ≤ m.2) ∧ (m.1 < high.1 ∧ m.2 < high.2) ∧ Increasing (m.1 + 1, m.2 + 1) high ms

theorem Increasing.from_below {low low' high : ℕ × ℕ} {ms : List ArrayMatch} (h : Increasing low high ms)
    (h₁ : low'.1 ≤ low.1) (h₂ : low'.2 ≤ low.2) : Increasing low' high ms := by
  cases ms with
  | nil => trivial
  | cons m ms =>
    obtain ⟨⟨hl₁, hl₂⟩, hrest⟩ := h
    exact ⟨⟨h₁.trans hl₁, h₂.trans hl₂⟩, hrest⟩

theorem Increasing.of_succ_left {i j : ℕ} {high : ℕ × ℕ} {ms : List ArrayMatch} (h : Increasing (i + 1, j) high ms) :
    Increasing (i, j) high ms :=
  h.from_below (Nat.le_succ _) le_rfl

theorem Increasing.of_succ_right {i j : ℕ} {high : ℕ × ℕ} {ms : List ArrayMatch} (h : Increasing (i, j + 1) high ms) :
    Increasing (i, j) high ms :=
  h.from_below le_rfl (Nat.le_succ _)

theorem Increasing.swap {low high : ℕ × ℕ} {ms : List ArrayMatch} (h : Increasing low high ms) :
    Increasing low.swap high.swap (ms.map (fun m => (m.2, m.1))) := by
  induction ms generalizing low with
  | nil => trivial
  | cons m ms ih =>
    obtain ⟨⟨hl₁, hl₂⟩, ⟨hh₁, hh₂⟩, hrest⟩ := h
    exact ⟨⟨hl₂, hl₁⟩, ⟨hh₂, hh₁⟩, ih hrest⟩

theorem increasing_lcsWalk {α : Type} (equal : α → α → Bool) (lengths : ℕ → ℕ → ℕ) (before after : List α)
    (left right : ℕ) :
    Increasing (left, right) (left + before.length, right + after.length)
      (lcsWalk equal lengths before after left right) := by
  fun_induction lcsWalk equal lengths before after left right with
  | case1 x before y after left right _ ih =>
    refine ⟨⟨le_rfl, le_rfl⟩, ⟨by simp, by simp⟩, ?_⟩
    convert ih using 2 <;> simp <;> omega
  | case2 x before y after left right _ _ ih =>
    refine Increasing.of_succ_left ?_
    convert ih using 2; simp; omega
  | case3 x before y after left right _ _ ih =>
    refine Increasing.of_succ_right ?_
    convert ih using 2; simp; omega
  | case4 => trivial

theorem increasing_lcsMatches {α : Type} (equal : α → α → Bool) (before after : List α) (maxCells : ℕ)
    (ms : List ArrayMatch) (h : lcsMatches equal before after maxCells = some ms) :
    Increasing (0, 0) (before.length, after.length) ms := by
  unfold lcsMatches at h
  split_ifs at h
  · cases h; trivial
  · cases h
    have := increasing_lcsWalk equal (fun l r => ((lcsLengths equal before after).getD l []).getD r 0) before after 0 0
    simpa using this

section Identity

variable {κ : Type} [DecidableEq κ]

theorem increasing_subsequence (long short : List κ) (i j : ℕ) (ms : List ArrayMatch)
    (h : subsequence long short i j = some ms) :
    Increasing (i, j) (i + long.length, j + short.length) ms := by
  fun_induction subsequence long short i j generalizing ms with
  | case1 => cases h; trivial
  | case2 => cases h
  | case3 x long short i j ih =>
    obtain ⟨ms', hms, rfl⟩ := map_eq_some_iff.mp h
    refine ⟨⟨le_rfl, le_rfl⟩, ⟨by simp, by simp⟩, ?_⟩
    convert ih ms' hms using 2 <;> simp <;> omega
  | case4 x long y short i j _ ih =>
    refine Increasing.of_succ_left ?_
    convert ih ms h using 2; simp; omega

variable (before after : List κ)

theorem increasing_identitySubsequence (ms : List ArrayMatch)
    (h : identitySubsequence before after = some ms) : Increasing (0, 0) (before.length, after.length) ms := by
  unfold identitySubsequence at h
  split_ifs at h
  · have := increasing_subsequence before after 0 0 ms h
    simpa using this
  · obtain ⟨ms', hms, rfl⟩ := map_eq_some_iff.mp h
    have := (increasing_subsequence after before 0 0 ms' hms).swap
    simpa using this

/-! ## Positions -/

/-- Each list holds, in order, indices at which its item stands. -/
def PositionsOk (before : List κ) (positions : List (κ × List ℕ)) : Prop :=
  ∀ k is, get? positions k = some is → is.Pairwise (· < ·) ∧ ∀ i ∈ is, before[i]? = some k

theorem positionsOk_add (before ks : List κ) (index : ℕ) (positions : List (κ × List ℕ))
    (hks : before.drop index = ks) (hp : PositionsOk before positions)
    (hlt : ∀ k is, get? positions k = some is → ∀ i ∈ is, i < index) :
    PositionsOk before (addPositions index ks positions) := by
  induction ks generalizing index positions with
  | nil => exact hp
  | cons k ks ih =>
    have hk : before[index]? = some k := by
      rw [← head?_drop, hks, head?_cons]
    have hsplit : ∀ k' is, get? (set positions k ((get? positions k).getD [] ++ [index])) k' = some is →
        get? positions k' = some is ∨
          k' = k ∧ ∃ old, is = old ++ [index] ∧ (old = [] ∨ get? positions k = some old) := by
      intro k' is his
      rw [get?_set] at his
      split at his
      · next hkk =>
        refine Or.inr ⟨hkk.symm, (get? positions k).getD [], (some.inj his).symm, ?_⟩
        cases get? positions k <;> simp
      · exact Or.inl his
    refine ih (index + 1) _ (by rw [← drop_drop, hks]; rfl) (fun k' is his => ?_) (fun k' is his i hi => ?_)
    · rcases hsplit k' is his with h | ⟨rfl, old, rfl, rfl | h⟩
      · exact hp k' is h
      · simpa using hk
      · obtain ⟨hsorted, hat⟩ := hp _ _ h
        refine ⟨?_, fun i hi => ?_⟩
        · rw [pairwise_append]
          exact ⟨hsorted, by simp, fun a ha b hb => by rw [mem_singleton.mp hb]; exact hlt _ _ h a ha⟩
        · rcases mem_append.mp hi with hi | hi
          · exact hat i hi
          · rw [mem_singleton.mp hi]; exact hk
    · rcases hsplit k' is his with h | ⟨rfl, old, rfl, rfl | h⟩
      · exact Nat.lt_succ_of_lt (hlt _ _ h i hi)
      · obtain rfl : i = index := by simpa using hi
        exact Nat.lt_succ_self _
      · rcases mem_append.mp hi with hi | hi
        · exact Nat.lt_succ_of_lt (hlt _ _ h i hi)
        · rw [mem_singleton.mp hi]; exact Nat.lt_succ_self _

theorem positionsOk_positionsOf (before : List κ) : PositionsOk before (positionsOf before) :=
  positionsOk_add before before 0 [] rfl (by simp [PositionsOk]) (by simp)

theorem PositionsOk.lt_length {before : List κ} {positions : List (κ × List ℕ)} (h : PositionsOk before positions)
    {k : κ} {is : List ℕ} (his : get? positions k = some is) (i : ℕ) (hi : i ∈ is) : i < before.length :=
  (List.getElem?_eq_some_iff.mp ((h k is his).2 i hi)).1

/-! ## `lowerBound` -/

variable (values : List ℕ)

theorem lowerBoundIn_spec (value low high : ℕ) (h : low ≤ high) :
    low ≤ lowerBoundIn values value low high ∧ lowerBoundIn values value low high ≤ high ∧
      (lowerBoundIn values value low high = low ∨ values.getD (lowerBoundIn values value low high - 1) 0 < value) ∧
      (lowerBoundIn values value low high = high ∨ value ≤ values.getD (lowerBoundIn values value low high) 0) := by
  fun_induction lowerBoundIn values value low high with
  | case1 low high hlt middle hv ih =>
    have hm : low ≤ middle ∧ middle < high := ⟨by omega, by omega⟩
    obtain ⟨h1, h2, h3, h4⟩ := ih (by omega)
    refine ⟨by omega, h2, Or.inr ?_, h4⟩
    rcases h3 with h3 | h3
    · rw [h3]; exact hv
    · exact h3
  | case2 low high hlt middle hv ih =>
    have hm : low ≤ middle ∧ middle < high := ⟨by omega, by omega⟩
    obtain ⟨h1, h2, h3, h4⟩ := ih (by omega)
    refine ⟨h1, by omega, h3, Or.inr ?_⟩
    rcases h4 with h4 | h4
    · rw [h4]; exact Nat.le_of_not_lt hv
    · exact h4
  | case3 low high hlt => exact ⟨le_rfl, h, Or.inl rfl, Or.inl (by omega)⟩

theorem lowerBound_spec (value : ℕ) : lowerBound values value ≤ values.length ∧
      (∀ v, 0 < lowerBound values value → values[lowerBound values value - 1]? = some v → v < value) ∧
      (∀ v, values[lowerBound values value]? = some v → value ≤ v) := by
  obtain ⟨-, h2, h3, h4⟩ := lowerBoundIn_spec values value 0 values.length (Nat.zero_le _)
  refine ⟨h2, fun v hpos hv => ?_, fun v hv => ?_⟩
  · rcases h3 with h3 | h3
    · unfold lowerBound at hpos; omega
    · rw [← lowerBound, getD_eq_getElem?_getD, hv] at h3
      simpa using h3
  · rcases h4 with h4 | h4
    · rw [← lowerBound] at h4
      rw [h4] at hv
      simp at hv
    · rw [← lowerBound, getD_eq_getElem?_getD, hv] at h4
      simpa using h4

/-! ## Anchors -/

theorem increasing_greedy (before : List κ) (positions : List (κ × List ℕ)) (hp : PositionsOk before positions)
    (after : List κ) (afterIndex next : ℕ) :
    Increasing (next, afterIndex) (before.length, afterIndex + after.length)
      (greedyIdentityAnchors positions after afterIndex next) := by
  fun_induction greedyIdentityAnchors positions after afterIndex next with
  | case1 => trivial
  | case2 k after afterIndex next _ ih =>
    refine Increasing.of_succ_right ?_
    convert ih using 2; simp; omega
  | case3 k after afterIndex next candidates _ _ ih =>
    refine Increasing.of_succ_right ?_
    convert ih using 2; simp; omega
  | case4 k after afterIndex next candidates hc beforeIndex hb ih =>
    have hmem : beforeIndex ∈ candidates := mem_of_getElem? hb
    refine ⟨⟨(lowerBound_spec candidates next).2.2 _ hb, le_rfl⟩, ⟨hp.lt_length hc _ hmem, by simp⟩, ?_⟩
    convert ih using 2; simp; omega

/-! ## The longest increasing run -/

/-- `previous` goes to an earlier candidate, smaller on both sides, and `tailValues` are the `before` of the tails. -/
structure Tails.Ok (rows cols : ℕ) (st : Tails) : Prop where
  bounds : ∀ c ∈ st.candidates, c.before < rows ∧ c.after < cols
  linked : ∀ c ∈ st.candidates, ∀ i, c.previous = some i →
    ∃ p, st.candidates[i]? = some p ∧ p.before < c.before ∧ p.after < c.after
  lengths : st.tails.length = st.tailValues.length
  values : ∀ i t : ℕ, st.tails[i]? = some t → ∃ c, st.candidates[t]? = some c ∧ st.tailValues[i]? = some c.before

theorem length_putAt (index value : ℕ) :
    (putAt values index value).length = if index < values.length then values.length else values.length + 1 := by
  unfold putAt
  split <;> simp

theorem getElem?_putAt (index value i : ℕ) (h : index ≤ values.length) :
    (putAt values index value)[i]? = if i = index then some value else values[i]? := by
  unfold putAt
  split
  · next hlt =>
    rw [getElem?_set]
    by_cases hi : index = i
    · subst hi; simp [hlt]
    · simp [hi, Ne.symm hi]
  · next hge =>
    obtain rfl : index = values.length := by omega
    rcases Nat.lt_trichotomy i values.length with hi | rfl | hi
    · rw [getElem?_append_left hi, if_neg (by omega)]
    · simp
    · rw [if_neg (by omega), getElem?_eq_none (by simp; omega), getElem?_eq_none (by omega)]

variable {rows cols : ℕ}

theorem Tails.Ok.add {st : Tails} (h : st.Ok rows cols) (afterIndex beforeIndex : ℕ)
    (hrow : beforeIndex < rows) (hcol : afterIndex < cols)
    (hafter : ∀ c ∈ st.candidates, c.after ≤ afterIndex ∧ (c.after = afterIndex → beforeIndex < c.before)) :
    (st.add afterIndex beforeIndex).Ok rows cols := by
  obtain ⟨hle, hbelow, -⟩ := lowerBound_spec st.tailValues beforeIndex
  have hgrow : ∀ (i : ℕ) (c : MatchCandidate), st.candidates[i]? = some c →
      ∀ x, (st.candidates ++ [x])[i]? = some c := by
    intro i c hc x
    rw [getElem?_append_left (List.getElem?_eq_some_iff.mp hc).1, hc]
  refine ⟨fun c hc => ?_, fun c hc i hi => ?_, ?_, fun i t ht => ?_⟩
  · rcases mem_append.mp hc with hc | hc
    · exact h.bounds c hc
    · obtain rfl := mem_singleton.mp hc
      exact ⟨hrow, hcol⟩
  · rcases mem_append.mp hc with hc | hc
    · obtain ⟨p, hp, hlt⟩ := h.linked c hc i hi
      exact ⟨p, hgrow i p hp _, hlt⟩
    · obtain rfl := mem_singleton.mp hc
      dsimp only at hi
      split at hi
      · cases hi
      · next hpos =>
        obtain ⟨p, hp, hvalue⟩ := h.values _ i hi
        have hlt : p.before < beforeIndex := hbelow _ (by omega) hvalue
        obtain ⟨hpa, hsame⟩ := hafter p (mem_of_getElem? hp)
        refine ⟨p, hgrow i p hp _, hlt, ?_⟩
        rcases Nat.lt_or_eq_of_le hpa with hpa | hpa
        · exact hpa
        · have := hsame hpa
          omega
  · simp only [Tails.add, length_putAt, h.lengths]
  · simp only [Tails.add] at ht ⊢
    rw [getElem?_putAt _ _ _ _ (by rw [h.lengths]; exact hle)] at ht
    rw [getElem?_putAt _ _ _ _ hle]
    split at ht
    · next hi =>
      obtain rfl := some.inj ht
      exact ⟨⟨beforeIndex, afterIndex, _⟩, by rw [getElem?_append_right le_rfl]; simp; rfl, by rw [if_pos hi]⟩
    · next hi =>
      obtain ⟨c, hc, hvalue⟩ := h.values i t ht
      exact ⟨c, hgrow t c hc _, by rw [if_neg hi, hvalue]⟩

theorem Tails.Ok.addPositions (afterIndex : ℕ) (hcol : afterIndex < cols) (descending : List ℕ)
    (hrows : ∀ b ∈ descending, b < rows) (hsorted : descending.Pairwise (fun a b => b < a)) {st : Tails}
    (h : st.Ok rows cols)
    (hafter : ∀ c ∈ st.candidates, c.after ≤ afterIndex ∧ (c.after = afterIndex → ∀ b ∈ descending, b < c.before)) :
    (descending.foldl (fun st b => st.add afterIndex b) st).Ok rows cols ∧
      ∀ c ∈ (descending.foldl (fun st b => st.add afterIndex b) st).candidates, c.after ≤ afterIndex := by
  induction descending generalizing st with
  | nil => exact ⟨h, fun c hc => (hafter c hc).1⟩
  | cons b descending ih =>
    rw [pairwise_cons] at hsorted
    refine ih (fun b' hb' => hrows b' (by simp [hb'])) hsorted.2 (h.add afterIndex b (hrows b (by simp)) hcol
      (fun c hc => ⟨(hafter c hc).1, fun he => (hafter c hc).2 he b (by simp)⟩)) (fun c hc => ?_)
    rcases mem_append.mp hc with hc | hc
    · exact ⟨(hafter c hc).1, fun he b' hb' => (hafter c hc).2 he b' (by simp [hb'])⟩
    · obtain rfl := mem_singleton.mp hc
      exact ⟨le_rfl, fun _ b' hb' => hsorted.1 b' hb'⟩

theorem Tails.Ok.addAll {before : List κ} {positions : List (κ × List ℕ)} (hp : PositionsOk before positions)
    (after : List κ) (afterIndex cols : ℕ) (hcols : afterIndex + after.length = cols) {st : Tails}
    (h : st.Ok before.length cols) (hafter : ∀ c ∈ st.candidates, c.after < afterIndex) :
    (Tails.addAll positions after afterIndex st).Ok before.length cols := by
  induction after generalizing afterIndex st with
  | nil => exact h
  | cons k after ih =>
    have hpos : ∃ is, (get? positions k).getD [] = is ∧ is.Pairwise (· < ·) ∧ ∀ i ∈ is, i < before.length := by
      cases hk : get? positions k with
      | none => exact ⟨[], rfl, by simp, by simp⟩
      | some is => exact ⟨is, rfl, (hp k is hk).1, hp.lt_length hk⟩
    obtain ⟨is, his, hsorted, hrows⟩ := hpos
    rw [Tails.addAll, his]
    have hstep := h.addPositions afterIndex (by simp at hcols; omega) is.reverse
      (fun b hb => hrows b (mem_reverse.mp hb)) (pairwise_reverse.mpr hsorted)
      (fun c hc => ⟨Nat.le_of_lt (hafter c hc), fun he => absurd he (Nat.ne_of_lt (hafter c hc))⟩)
    refine ih (afterIndex + 1) (by simp at hcols; omega) hstep.1 (fun c hc => ?_)
    have := hstep.2 c hc
    omega

theorem increasing_walkBack {st : Tails} (h : st.Ok rows cols) (steps : ℕ) (start : Option ℕ)
    (later : List ArrayMatch) (low : ℕ × ℕ) (hlater : Increasing low (rows, cols) later)
    (hlow : ∀ i, start = some i → ∃ c, st.candidates[i]? = some c ∧ c.before < low.1 ∧ c.after < low.2) :
    Increasing (0, 0) (rows, cols) (walkBack st.candidates steps start later) := by
  induction steps generalizing start later low with
  | zero => exact hlater.from_below (Nat.zero_le _) (Nat.zero_le _)
  | succ steps ih =>
    cases start with
    | none => exact hlater.from_below (Nat.zero_le _) (Nat.zero_le _)
    | some i =>
      obtain ⟨c, hc, hb, ha⟩ := hlow i rfl
      have hmem := mem_of_getElem? hc
      rw [walkBack, hc]
      refine ih c.previous _ (c.before, c.after) ?_ (h.linked c hmem)
      exact ⟨⟨le_rfl, le_rfl⟩, h.bounds c hmem, hlater.from_below hb ha⟩

theorem increasing_identityAnchors :
    Increasing (0, 0) (before.length, after.length) (identityAnchors before after) := by
  have hp := positionsOk_positionsOf before
  unfold identityAnchors
  dsimp only
  split_ifs
  · simpa using increasing_greedy before _ hp after 0 0
  · trivial
  · have h : (Tails.addAll (positionsOf before) after 0 ⟨[], [], []⟩).Ok before.length after.length :=
      Tails.Ok.addAll hp after 0 after.length (by simp) ⟨by simp, by simp, rfl, by simp⟩ (by simp)
    refine increasing_walkBack h _ _ [] (before.length, after.length) trivial (fun i hi => ?_)
    obtain ⟨j, hj⟩ := mem_iff_getElem?.mp (mem_of_getLast? hi)
    obtain ⟨c, hc, -⟩ := h.values j i hj
    exact ⟨c, hc, h.bounds c (mem_of_getElem? hc)⟩

/-! ## Whole permutations -/

theorem takePositions_spec (positions : List (κ × List ℕ)) (used order : List ℕ) (hp : PositionsOk before positions)
    (hfree : ∀ k is, get? positions k = some is → ∀ i ∈ is, i ∉ used)
    (h : takePositions after positions = some order) :
    order.Nodup ∧ (∀ i ∈ order, i ∉ used) ∧ List.Forall₂ (fun i k => before[i]? = some k) order after := by
  induction after generalizing positions used order with
  | nil => cases h; exact ⟨nodup_nil, by simp, .nil⟩
  | cons k after ih =>
    rw [takePositions] at h
    split at h
    · next index indices hk =>
      obtain ⟨order', horder, rfl⟩ := map_eq_some_iff.mp h
      obtain ⟨hsorted, hat⟩ := hp k _ hk
      rw [pairwise_cons] at hsorted
      -- The index that is taken stands in no other list: each index has one item.
      have hp' : PositionsOk before (set positions k indices) := by
        intro k' is his
        rw [get?_set] at his
        split at his
        · next hkk =>
          obtain rfl := some.inj his
          exact ⟨hsorted.2, fun i hi => hkk ▸ hat i (by simp [hi])⟩
        · exact hp k' is his
      have hfree' : ∀ k' is, get? (set positions k indices) k' = some is → ∀ i ∈ is, i ∉ index :: used := by
        intro k' is his i hi
        rw [get?_set] at his
        split at his
        · next hkk =>
          obtain rfl := some.inj his
          rw [mem_cons, not_or]
          exact ⟨Nat.ne_of_gt (hsorted.1 i hi), hfree k _ hk i (by simp [hi])⟩
        · next hkk =>
          rw [mem_cons, not_or]
          refine ⟨?_, hfree k' is his i hi⟩
          rintro rfl
          have h1 := (hp k' is his).2 i hi
          rw [hat i (by simp)] at h1
          exact hkk (some.inj h1)
      obtain ⟨hnodup, hused, hfor⟩ := ih _ (index :: used) order' hp' hfree' horder
      refine ⟨nodup_cons.mpr ⟨fun hi => hused index hi (by simp), hnodup⟩, fun i hi => ?_, ?_⟩
      · rcases mem_cons.mp hi with rfl | hi
        · exact hfree k _ hk _ (by simp)
        · exact fun hu => hused i hi (by simp [hu])
      · exact .cons (hat index (by simp)) hfor
    · cases h

theorem permutation_spec (order : List ℕ) (h : permutation before after = some order) :
    IsPermutation order ∧ order.length = before.length ∧
      List.Forall₂ (fun i k => before[i]? = some k) order after := by
  unfold permutation at h
  split_ifs at h with hl
  rw [ne_eq, not_not] at hl
  obtain ⟨hnodup, -, hfor⟩ := takePositions_spec before after _ [] order (positionsOk_positionsOf before) (by simp) h
  have hlen : order.length = before.length := hfor.length_eq.trans hl.symm
  refine ⟨?_, hlen, hfor⟩
  have hsub : order ⊆ List.range order.length := by
    intro i hi
    obtain ⟨j, hj, rfl⟩ := mem_iff_getElem.mp hi
    have := (List.forall₂_iff_get.mp hfor).2 j hj (hfor.length_eq ▸ hj)
    rw [mem_range, hlen]
    exact (List.getElem?_eq_some_iff.mp this).1
  exact (hnodup.subperm hsub).perm_of_length_le (by simp)

end Identity

end PiAgent.Delta
