import PiAgent.Tui.Stack

/-! # The sizes of a stack add up -/

namespace PiAgent.Tui

open List

/-! ## One entry -/

def Moved (mode : DistributeMode) (s t : StackLayoutEntry × ℕ) : Prop :=
  t.1 = s.1 ∧
    match mode with
    | .grow => s.2 ≤ t.2 ∧ t.2 ≤ max s.2 s.1.rawMax
    | .shrink => t.2 ≤ s.2 ∧ min s.2 s.1.min ≤ t.2

variable (mode : DistributeMode)

variable (s : StackLayoutEntry × ℕ)

theorem moved_refl : Moved mode s s := by
  refine ⟨rfl, ?_⟩
  cases mode
  · exact ⟨Nat.le_refl _, Nat.le_max_left _ _⟩
  · exact ⟨Nat.le_refl _, Nat.min_le_left _ _⟩

theorem moved_trans (s t u : StackLayoutEntry × ℕ) (h1 : Moved mode s t) (h2 : Moved mode t u) :
    Moved mode s u := by
  obtain ⟨he1, h1⟩ := h1
  obtain ⟨he2, h2⟩ := h2
  refine ⟨he2.trans he1, ?_⟩
  cases mode
  · dsimp only at h1 h2 ⊢
    rw [he1] at h2
    omega
  · dsimp only at h1 h2 ⊢
    rw [he1] at h2
    omega

/-! ## Exact numbers -/

theorem double_of_le {n : ℕ} (h : n ≤ 2 ^ 53) : double n = n := by
  rcases Nat.eq_or_lt_of_le h with rfl | hlt
  · decide
  have hlog : n.log2 - 52 = 0 := by
    by_cases hn : n = 0
    · subst hn
      decide
    · have := (Nat.log2_lt hn).mpr hlt
      omega
  unfold double roundEven
  rw [hlog]
  simp [Nat.mod_one]

theorem le_double {n : ℕ} (h : 2 ^ 53 ≤ n) : 2 ^ 53 ≤ double n := by
  have hn : n ≠ 0 := by omega
  have hlog : 53 ≤ n.log2 := (Nat.le_log2 hn).mpr h
  obtain ⟨s, hs⟩ : ∃ s, n.log2 = 52 + s := ⟨n.log2 - 52, by omega⟩
  have hdiv : 2 ^ 52 ≤ n / 2 ^ s := by
    rw [Nat.le_div_iff_mul_le (by positivity), ← Nat.pow_add, ← hs]
    exact Nat.log2_self_le hn
  have hround : 2 ^ 52 ≤ roundEven n (2 ^ s) := by
    unfold roundEven
    split <;> omega
  have hpow : 2 ^ 1 ≤ 2 ^ s := Nat.pow_le_pow_right (by omega) (by omega)
  unfold double
  rw [hs, Nat.add_sub_cancel_left]
  calc 2 ^ 53 = 2 ^ 52 * 2 ^ 1 := rfl
    _ ≤ roundEven n (2 ^ s) * 2 ^ s := Nat.mul_le_mul hround hpow

theorem min_double (r n : ℕ) (h : r ≤ 2 ^ 53) : min r (double n) = min r n := by
  by_cases hn : n ≤ 2 ^ 53
  · rw [double_of_le hn]
  · have := le_double (n := n) (by omega)
    omega

theorem doubleInt_of_le {z : ℤ} (h : z.natAbs ≤ 2 ^ 53) : doubleInt z = z := by
  unfold doubleInt
  rw [double_of_le h, Int.sign_mul_natAbs]

theorem sumDouble_of_le (ns : List ℕ) (h : ns.sum ≤ 2 ^ 53) : sumDouble ns = ns.sum := by
  have hall : ∀ (ns : List ℕ) (sum : ℕ), sum + ns.sum ≤ 2 ^ 53 →
      ns.foldl (fun sum n => double (sum + n)) sum = sum + ns.sum := by
    intro ns
    induction ns with
    | nil => exact fun sum _ => rfl
    | cons n ns ih =>
      intro sum hsum
      rw [sum_cons] at hsum ⊢
      rw [foldl_cons, double_of_le (by omega), ih _ (by omega), Nat.add_assoc]
  exact (hall ns 0 (by omega)).trans (Nat.zero_add _)

/-! ## The step of one entry -/

/-- How far an entry can be resized. -/
def room : DistributeMode → StackLayoutEntry → ℕ → ℕ
  | .grow, entry, size => entry.rawMax - size
  | .shrink, entry, size => size - entry.min

variable (total : ℕ) {remaining : ℕ} (entry : StackLayoutEntry) (size : ℕ)

theorem delta_eq (h : remaining ≤ 2 ^ 53) :
    ∃ proposed, 1 ≤ proposed ∧
      delta mode total remaining entry size = min remaining (min proposed (room mode entry size)) := by
  refine ⟨max 1 (floorQuotient (double (remaining * weight mode entry size)) total), Nat.le_max_left _ _, ?_⟩
  have hroom : min remaining (capacity mode entry size) = min remaining (room mode entry size) := by
    cases mode <;> exact min_double remaining _ h
  unfold delta
  dsimp only
  omega

theorem delta_le (h : remaining ≤ 2 ^ 53) :
    delta mode total remaining entry size ≤ remaining ∧ delta mode total remaining entry size ≤ room mode entry size := by
  obtain ⟨proposed, -, heq⟩ := delta_eq mode total entry size h
  omega

theorem delta_pos (h : remaining ≤ 2 ^ 53)
    (hpos : 0 < remaining) (hcandidate : isCandidate mode entry size = true) :
    0 < delta mode total remaining entry size := by
  have hroom : 0 < room mode entry size := by
    unfold isCandidate at hcandidate
    unfold room
    cases mode
    · simp only [Bool.and_eq_true, decide_eq_true_eq] at hcandidate ⊢
      omega
    · simp only [Bool.and_eq_true, decide_eq_true_eq] at hcandidate ⊢
      omega
  obtain ⟨proposed, hproposed, heq⟩ := delta_eq mode total entry size h
  omega

/-! ## One round -/

def sizesSum (sizes : List (StackLayoutEntry × ℕ)) : ℕ := (sizes.map Prod.snd).sum

theorem sizesSum_cons (sizes : List (StackLayoutEntry × ℕ)) :
    sizesSum (s :: sizes) = s.2 + sizesSum sizes := by
  unfold sizesSum
  rw [map_cons, sum_cons]

def Balanced (mode : DistributeMode) (sizes : List (StackLayoutEntry × ℕ)) (remaining : ℕ)
    (sizes' : List (StackLayoutEntry × ℕ)) (remaining' : ℕ) : Prop :=
  match mode with
  | .grow => sizesSum sizes' + remaining' = sizesSum sizes + remaining
  | .shrink => sizesSum sizes' + remaining = sizesSum sizes + remaining'

theorem balanced_trans (s1 s2 s3 : List (StackLayoutEntry × ℕ)) (r1 r2 r3 : ℕ)
    (h1 : Balanced mode s1 r1 s2 r2) (h2 : Balanced mode s2 r2 s3 r3) : Balanced mode s1 r1 s3 r3 := by
  unfold Balanced at h1 h2 ⊢
  cases mode
  · dsimp only at h1 h2 ⊢
    omega
  · dsimp only at h1 h2 ⊢
    omega

/-- What the sums of a round come to is exact. -/
def SumsFit (mode : DistributeMode) (sizes : List (StackLayoutEntry × ℕ)) (remaining : ℕ) : Prop :=
  match mode with
  | .grow => sizesSum sizes + remaining ≤ 2 ^ 53
  | .shrink => sizesSum sizes ≤ 2 ^ 53 ∧ remaining ≤ 2 ^ 53

theorem SumsFit.remaining_le {sizes : List (StackLayoutEntry × ℕ)} {remaining : ℕ} (h : SumsFit mode sizes remaining) :
    remaining ≤ 2 ^ 53 := by
  unfold SumsFit at h
  cases mode
  · dsimp only at h
    omega
  · exact h.2

theorem SumsFit.balanced {sizes sizes' : List (StackLayoutEntry × ℕ)} {remaining remaining' : ℕ}
    (h : SumsFit mode sizes remaining) (hb : Balanced mode sizes remaining sizes' remaining') (hle : remaining' ≤ remaining) :
    SumsFit mode sizes' remaining' := by
  unfold SumsFit at h ⊢
  unfold Balanced at hb
  cases mode
  · dsimp only at h hb ⊢
    omega
  · dsimp only at h hb ⊢
    omega

/-- What resizing by `d` comes to where nothing is rounded. -/
def shift : DistributeMode → ℕ → ℕ → ℕ
  | .grow, size, d => size + d
  | .shrink, size, d => size - d

section

variable (size d : ℕ) (rest : List (StackLayoutEntry × ℕ)) {remaining : ℕ}
    (h : SumsFit mode ((entry, size) :: rest) remaining) (hd : d ≤ remaining)
include h hd

theorem resize_eq : resize mode size d = shift mode size d := by
  unfold SumsFit at h
  rw [sizesSum_cons] at h
  cases mode
  · dsimp only at h
    exact double_of_le (by omega)
  · dsimp only at h
    exact double_of_le (by omega)

/-- One entry of a round: its size moves by `d`, and so does what remains. -/
theorem moved_resize (hroom : d ≤ room mode entry size) :
    Moved mode (entry, size) (entry, resize mode size d) ∧ double (remaining - d) = remaining - d ∧
      Balanced mode ((entry, size) :: rest) remaining ((entry, resize mode size d) :: rest) (remaining - d) := by
  have hremaining := double_of_le (show remaining - d ≤ 2 ^ 53 from (Nat.sub_le _ _).trans h.remaining_le)
  rw [resize_eq mode entry size d rest h hd]
  unfold room at hroom
  unfold Balanced Moved shift
  rw [sizesSum_cons, sizesSum_cons]
  cases mode
  · dsimp only at hroom ⊢
    exact ⟨⟨rfl, by omega, by omega⟩, hremaining, by omega⟩
  · dsimp only at hroom ⊢
    exact ⟨⟨rfl, by omega, by omega⟩, hremaining, by omega⟩

end

theorem balanced_cons {sizes sizes' : List (StackLayoutEntry × ℕ)} {remaining remaining' : ℕ}
    (h : Balanced mode sizes remaining sizes' remaining') :
    Balanced mode (s :: sizes) remaining (s :: sizes') remaining' := by
  unfold Balanced at h ⊢
  cases mode
  · dsimp only at h ⊢
    rw [sizesSum_cons, sizesSum_cons]
    omega
  · dsimp only at h ⊢
    rw [sizesSum_cons, sizesSum_cons]
    omega

theorem fits_tail {s : StackLayoutEntry × ℕ} {sizes : List (StackLayoutEntry × ℕ)} {remaining : ℕ}
    (h : SumsFit mode (s :: sizes) remaining) : SumsFit mode sizes remaining := by
  unfold SumsFit at h ⊢
  cases mode
  · dsimp only at h ⊢
    rw [sizesSum_cons] at h
    omega
  · dsimp only at h ⊢
    rw [sizesSum_cons] at h
    omega

theorem distributeRound_spec (sizes : List (StackLayoutEntry × ℕ)) (remaining : ℕ)
    (h : SumsFit mode sizes remaining) :
    let after := distributeRound mode total sizes remaining
    List.Forall₂ (Moved mode) sizes after.sizes ∧ Balanced mode sizes remaining after.sizes after.remaining ∧
      after.remaining ≤ remaining ∧ ((∃ s ∈ sizes, isCandidate mode s.1 s.2 = true) → 0 < remaining →
        after.remaining < remaining ∧ after.distributed = true) := by
  induction sizes generalizing remaining with
  | nil =>
    refine ⟨.nil, by cases mode <;> rfl, Nat.le_refl _, fun hsome => ?_⟩
    obtain ⟨s, hs, -⟩ := hsome
    cases hs
  | cons s rest ih =>
    obtain ⟨entry, size⟩ := s
    unfold distributeRound
    split
    · rename_i hcandidate
      obtain ⟨hd, hroom⟩ := delta_le mode total entry size h.remaining_le
      obtain ⟨hmoved, hexact, hbalanced⟩ := moved_resize mode entry size _ rest h hd hroom
      dsimp only
      rw [hexact]
      obtain ⟨h1, h2, h3, -⟩ := ih (remaining - delta mode total remaining entry size)
        (fits_tail mode (h.balanced mode hbalanced (Nat.sub_le _ _)))
      refine ⟨.cons hmoved h1, balanced_trans mode _ _ _ _ _ _ hbalanced (balanced_cons mode _ h2), by omega,
        fun _ hpos => ?_⟩
      have hdelta := delta_pos mode total entry size h.remaining_le hpos hcandidate
      exact ⟨by omega, by simp [hdelta]⟩
    · rename_i hno
      obtain ⟨h1, h2, h3, h4⟩ := ih remaining (fits_tail mode h)
      refine ⟨.cons (moved_refl mode _) h1, balanced_cons mode _ h2, h3, fun hsome => h4 ?_⟩
      obtain ⟨t, hmem, ht⟩ := hsome
      rcases mem_cons.mp hmem with rfl | hmem
      · exact absurd ht hno
      · exact ⟨t, hmem, ht⟩

/-! ## All rounds -/

theorem forall₂_moved_trans (as bs cs : List (StackLayoutEntry × ℕ))
    (h1 : List.Forall₂ (Moved mode) as bs) (h2 : List.Forall₂ (Moved mode) bs cs) : List.Forall₂ (Moved mode) as cs := by
  induction h1 generalizing cs with
  | nil => exact h2
  | cons hab _ ih =>
    cases h2 with
    | cons hbc hrest => exact .cons (moved_trans mode _ _ _ hab hbc) (ih _ hrest)

/-- The rounds end, since each takes something off what remains. -/
theorem distribute_spec (mode : DistributeMode) (sizes : List (StackLayoutEntry × ℕ)) (remaining : ℕ)
    (h : SumsFit mode sizes remaining) :
    ∃ after, (∀ fuel, remaining < fuel → distribute mode fuel sizes remaining = some after) ∧
      List.Forall₂ (Moved mode) sizes after ∧ ∃ remaining', Balanced mode sizes remaining after remaining' ∧
        (remaining' = 0 ∨ ∀ s ∈ after, isCandidate mode s.1 s.2 = false) := by
  have hself : List.Forall₂ (Moved mode) sizes sizes := List.forall₂_same.mpr (fun s _ => moved_refl mode s)
  have hbalanced : Balanced mode sizes remaining sizes remaining := by
    unfold Balanced
    cases mode <;> rfl
  have hfuel : ∀ fuel, remaining < fuel → ∃ n, fuel = n + 1 ∧ remaining ≤ n :=
    fun fuel hlt => ⟨fuel - 1, by omega, by omega⟩
  by_cases hzero : remaining = 0
  · refine ⟨sizes, fun fuel hlt => ?_, hself, remaining, hbalanced, .inl hzero⟩
    obtain ⟨n, rfl, -⟩ := hfuel fuel hlt
    rw [distribute, if_pos hzero]
  by_cases hnone : sizes.all (fun s => !isCandidate mode s.1 s.2) = true
  · refine ⟨sizes, fun fuel hlt => ?_, hself, remaining, hbalanced, .inr (fun s hmem => ?_)⟩
    · obtain ⟨n, rfl, -⟩ := hfuel fuel hlt
      rw [distribute, if_neg hzero, if_pos hnone]
    · simpa using all_eq_true.mp hnone s hmem
  have hcandidate : ∃ s ∈ sizes, isCandidate mode s.1 s.2 = true := by
    simpa using hnone
  obtain ⟨hmoved, hround, -, hless⟩ := distributeRound_spec mode (totalWeight mode sizes) sizes remaining h
  obtain ⟨hlt, hdistributed⟩ := hless hcandidate (by omega)
  obtain ⟨after, hafter, hmoved', remaining', hrest, hend⟩ :=
    distribute_spec mode _ _ (h.balanced mode hround (Nat.le_of_lt hlt))
  refine ⟨after, fun fuel hlt' => ?_, forall₂_moved_trans mode _ _ _ hmoved hmoved', remaining',
    balanced_trans mode _ _ _ _ _ _ hround hrest, hend⟩
  obtain ⟨n, rfl, hn⟩ := hfuel fuel hlt'
  rw [distribute, if_neg hzero, if_neg hnone]
  dsimp only
  rw [if_pos hdistributed]
  exact hafter n (by omega)
termination_by remaining

/-! ## The sizes -/

def InBounds (entries : List StackLayoutEntry) (sizes : List ℕ) : Prop :=
  List.Forall₂ (fun entry size => entry.min ≤ size ∧ size ≤ entry.max) entries sizes

theorem clampSize_bounds (size : ℚ) (entry : StackLayoutEntry) :
    entry.min ≤ clampSize size entry ∧ clampSize size entry ≤ entry.max := by
  unfold clampSize
  refine ⟨Nat.le_max_left _ _, Nat.max_le.mpr ⟨?_, Nat.min_le_left _ _⟩⟩
  exact Nat.le_max_left _ _

theorem clampedSizes_bounds (entries : List StackLayoutEntry) (intrinsicSizes : List ℚ) :
    InBounds entries (clampedSizes entries intrinsicSizes) := by
  unfold clampedSizes
  refine List.forall₂_iff_get.mpr ⟨by simp, fun i h1 h2 => ?_⟩
  simp only [get_eq_getElem, getElem_map, getElem_zipIdx]
  exact clampSize_bounds _ _

theorem sizesSum_zip (entries : List StackLayoutEntry) (sizes : List ℕ) (h : entries.length = sizes.length) :
    sizesSum (entries.zip sizes) = sizes.sum := by
  unfold sizesSum
  rw [map_snd_zip (by omega)]

theorem moved_inBounds (size size' : ℕ)
    (hmoved : Moved mode (entry, size) (entry, size')) (h : entry.min ≤ size ∧ size ≤ entry.max) :
    entry.min ≤ size' ∧ size' ≤ entry.max := by
  obtain ⟨-, hmoved⟩ := hmoved
  unfold StackLayoutEntry.max at h ⊢
  cases mode
  · dsimp only at hmoved
    omega
  · dsimp only at hmoved
    omega

/-- What holds of an entry, its size before and its size after, read off all of them. -/
theorem moved_entries {entries : List StackLayoutEntry} {sizes : List ℕ} {after : List (StackLayoutEntry × ℕ)}
    (hbounds : InBounds entries sizes) (hmoved : List.Forall₂ (Moved mode) (entries.zip sizes) after) :
    after.map Prod.fst = entries ∧ InBounds entries (after.map Prod.snd) ∧
      List.Forall₂ (fun before size => ∃ entry, Moved mode (entry, before) (entry, size)) sizes (after.map Prod.snd) := by
  induction hbounds generalizing after with
  | nil =>
    cases hmoved
    exact ⟨rfl, .nil, .nil⟩
  | @cons entry size entries sizes hsize _ ih =>
    rw [zip_cons_cons] at hmoved
    cases hmoved with
    | @cons _ t _ rest ht hrest =>
      obtain ⟨entry', size'⟩ := t
      obtain ⟨rfl, -⟩ := id ht
      obtain ⟨hentries, hin, hall⟩ := ih hrest
      exact ⟨congrArg (entry' :: ·) hentries, .cons (moved_inBounds mode entry' size size' ht hsize) hin,
        .cons ⟨entry', ht⟩ hall⟩

theorem settled_entries {entries : List StackLayoutEntry} {after : List (StackLayoutEntry × ℕ)}
    (hentries : after.map Prod.fst = entries) (hbounds : InBounds entries (after.map Prod.snd))
    (hnone : ∀ s ∈ after, isCandidate mode s.1 s.2 = false) :
    List.Forall₂ (fun entry size => (entry.min ≤ size ∧ size ≤ entry.max) ∧ isCandidate mode entry size = false) entries
      (after.map Prod.snd) := by
  induction after generalizing entries with
  | nil =>
    subst hentries
    exact .nil
  | cons s after ih =>
    subst hentries
    cases hbounds with
    | cons hs hrest =>
      exact .cons ⟨hs, hnone s mem_cons_self⟩ (ih rfl hrest (fun t ht => hnone t (mem_cons_of_mem _ ht)))

/-! ## The sizes add up -/

theorem eq_max_of_not_lt (h : entry.min ≤ size ∧ size ≤ entry.max)
    (hno : ¬ size < entry.rawMax) : size = entry.max := by
  unfold StackLayoutEntry.max at h ⊢
  omega

variable (entries : List StackLayoutEntry) (sizes : List ℕ)

theorem grow_exact (content : ℕ) (hbounds : InBounds entries sizes) (hless : sizes.sum < content)
    (hsafe : content ≤ 2 ^ 53) :
    ∃ grown, (∀ fuel, content - sizes.sum < fuel →
        (distribute .grow fuel (entries.zip sizes) (content - sizes.sum)).map (map Prod.snd) = some grown) ∧
      InBounds entries grown ∧ List.Forall₂ (· ≤ ·) sizes grown ∧ grown.sum ≤ content ∧
      (grown.sum = content ∨ List.Forall₂ (fun entry size => 0 < entry.growWeight → size = entry.max) entries grown) := by
  have hbefore := sizesSum_zip entries sizes hbounds.length_eq
  have hfits : SumsFit .grow (entries.zip sizes) (content - sizes.sum) := by
    unfold SumsFit
    dsimp only
    omega
  obtain ⟨after, hafter, hmoved, remaining', hbalanced, hend⟩ :=
    distribute_spec .grow (entries.zip sizes) (content - sizes.sum) hfits
  have hsum : sizesSum after + remaining' = sizesSum (entries.zip sizes) + (content - sizes.sum) := hbalanced
  obtain ⟨hentries, hin, hall⟩ := moved_entries .grow hbounds hmoved
  refine ⟨after.map Prod.snd, fun fuel hfuel => by rw [hafter fuel hfuel, Option.map_some], hin,
    hall.imp fun _ _ ⟨_, hup⟩ => hup.2.1, ?_, ?_⟩
  · change sizesSum after ≤ content
    omega
  rcases hend with hzero | hnone
  · left
    change sizesSum after = content
    omega
  · refine .inr ((settled_entries .grow hentries hin hnone).imp fun entry size hsettled hgrow => ?_)
    obtain ⟨hentry, hno⟩ := hsettled
    -- an entry that could grow is at its maximum
    unfold isCandidate at hno
    simp only [Bool.and_eq_false_iff, decide_eq_false_iff_not, gt_iff_lt] at hno
    exact eq_max_of_not_lt entry size hentry (by tauto)

theorem shrink_exact (content : ℕ) (hbounds : InBounds entries sizes) (hmore : content < sizes.sum)
    (hsafe : sizes.sum ≤ 2 ^ 53) :
    ∃ shrunk, (∀ fuel, sizes.sum - content < fuel →
        (distribute .shrink fuel (entries.zip sizes) (sizes.sum - content)).map (map Prod.snd) = some shrunk) ∧
      InBounds entries shrunk ∧ List.Forall₂ (· ≥ ·) sizes shrunk ∧ content ≤ shrunk.sum ∧
      (shrunk.sum = content ∨ List.Forall₂ (fun entry size => 0 < entry.shrinkWeight → size = entry.min) entries shrunk) := by
  have hbefore := sizesSum_zip entries sizes hbounds.length_eq
  have hfits : SumsFit .shrink (entries.zip sizes) (sizes.sum - content) := by
    unfold SumsFit
    dsimp only
    omega
  obtain ⟨after, hafter, hmoved, remaining', hbalanced, hend⟩ :=
    distribute_spec .shrink (entries.zip sizes) (sizes.sum - content) hfits
  have hsum : sizesSum after + (sizes.sum - content) = sizesSum (entries.zip sizes) + remaining' := hbalanced
  obtain ⟨hentries, hin, hall⟩ := moved_entries .shrink hbounds hmoved
  refine ⟨after.map Prod.snd, fun fuel hfuel => by rw [hafter fuel hfuel, Option.map_some], hin,
    hall.imp fun _ _ ⟨_, hdown⟩ => hdown.2.1, ?_, ?_⟩
  · change content ≤ sizesSum after
    omega
  rcases hend with hzero | hnone
  · left
    change sizesSum after = content
    omega
  · refine .inr ((settled_entries .shrink hentries hin hnone).imp fun entry size hsettled hshrink => ?_)
    obtain ⟨hentry, hno⟩ := hsettled
    -- an entry that could shrink is at its minimum
    unfold isCandidate at hno
    simp only [Bool.and_eq_false_iff, decide_eq_false_iff_not, gt_iff_lt] at hno
    exact Nat.le_antisymm (Nat.not_lt.mp (by tauto)) hentry.1

/-- What the sizes are added up from stays in the range where doubles are exact. -/
structure SafeSums (entries : List StackLayoutEntry) (intrinsicSizes : List ℚ) (availableSize : Option ℚ) (gap : ℤ) :
    Prop where
  clamped : (clampedSizes entries intrinsicSizes).sum ≤ 2 ^ 53
  gaps : (((entries.length - 1 : ℕ) : ℤ) * gap).natAbs ≤ 2 ^ 53
  content : ∀ available, availableSize = some available →
    (⌊available⌋ - ((entries.length - 1 : ℕ) : ℤ) * gap).natAbs ≤ 2 ^ 53
  /-- No product of a weight overflows. -/
  weights : ∀ entry ∈ entries, entry.growWeight ≤ MAX_SAFE_INTEGER ∧ entry.shrinkWeight ≤ MAX_SAFE_INTEGER

theorem contentSize_eq {intrinsicSizes : List ℚ} {available : ℚ} {gap : ℤ}
    (h : SafeSums entries intrinsicSizes (some available) gap) :
    contentSize entries available gap = (⌊available⌋ - ((entries.length - 1 : ℕ) : ℤ) * gap).toNat ∧
      contentSize entries available gap ≤ 2 ^ 53 := by
  have hcontent := h.content available rfl
  have heq : contentSize entries available gap = (⌊available⌋ - ((entries.length - 1 : ℕ) : ℤ) * gap).toNat := by
    unfold contentSize
    rw [doubleInt_of_le h.gaps, doubleInt_of_le hcontent]
  exact ⟨heq, by omega⟩

/-- The sizes of a stack: in bounds, and their sum is the content size unless every entry that could give or take is at its
limit. -/
theorem allocateStackSizes_exact (entries : List StackLayoutEntry) (intrinsicSizes : List ℚ) (availableSize : Option ℚ)
    (gap : ℤ) (h : SafeSums entries intrinsicSizes availableSize gap) :
    let clamped := clampedSizes entries intrinsicSizes
    ∃ sizes, (∀ fuel, 2 ^ 53 < fuel → allocateStackSizes fuel entries intrinsicSizes availableSize gap = some sizes) ∧
      InBounds entries sizes ∧
      (availableSize = none → sizes = clamped) ∧
      ∀ available, availableSize = some available →
        let content := (⌊available⌋ - ((entries.length - 1 : ℕ) : ℤ) * gap).toNat
        (clamped.sum = content → sizes = clamped) ∧
        (clamped.sum < content → List.Forall₂ (· ≤ ·) clamped sizes ∧ sizes.sum ≤ content ∧
          (sizes.sum = content ∨
            List.Forall₂ (fun entry size => 0 < entry.growWeight → size = entry.max) entries sizes)) ∧
        (content < clamped.sum → List.Forall₂ (· ≥ ·) clamped sizes ∧ content ≤ sizes.sum ∧
          (sizes.sum = content ∨
            List.Forall₂ (fun entry size => 0 < entry.shrinkWeight → size = entry.min) entries sizes)) := by
  intro clamped
  have hclamped : InBounds entries clamped := clampedSizes_bounds entries intrinsicSizes
  cases availableSize with
  | none => exact ⟨clamped, fun _ _ => rfl, hclamped, fun _ => rfl, fun _ h => by cases h⟩
  | some available =>
    obtain ⟨hcontent, hle⟩ := contentSize_eq entries h
    rw [hcontent] at hle
    have hsafe : clamped.sum ≤ 2 ^ 53 := h.clamped
    have htotal : sumDouble clamped = clamped.sum := sumDouble_of_le clamped hsafe
    generalize hc : (⌊available⌋ - ((entries.length - 1 : ℕ) : ℤ) * gap).toNat = content at hcontent hle
    have hsizes : ∀ fuel, allocateStackSizes fuel entries intrinsicSizes (some available) gap =
        if clamped.sum < content then (distribute .grow fuel (entries.zip clamped) (content - clamped.sum)).map (map Prod.snd)
        else if clamped.sum > content then
          (distribute .shrink fuel (entries.zip clamped) (clamped.sum - content)).map (map Prod.snd)
        else some clamped := by
      intro fuel
      unfold allocateStackSizes
      dsimp only
      rw [hcontent, htotal, double_of_le (show content - clamped.sum ≤ 2 ^ 53 by omega),
        double_of_le (show clamped.sum - content ≤ 2 ^ 53 by omega)]
    rcases Nat.lt_trichotomy clamped.sum content with hless | heq | hmore
    · obtain ⟨sizes, hresult, hin, hup⟩ := grow_exact entries clamped content hclamped hless hle
      refine ⟨sizes, fun fuel hfuel => ?_, hin, fun h => (by cases h), ?_⟩
      · rw [hsizes, if_pos hless]
        exact hresult fuel (by omega)
      · rintro _ ⟨rfl⟩
        rw [hc]
        exact ⟨fun h => absurd h (by omega), fun _ => hup, fun h => absurd h (by omega)⟩
    · refine ⟨clamped, fun fuel _ => ?_, hclamped, fun h => (by cases h), ?_⟩
      · rw [hsizes, if_neg (by omega), if_neg (by omega)]
      · rintro _ ⟨rfl⟩
        rw [hc]
        exact ⟨fun _ => rfl, fun h => absurd h (by omega), fun h => absurd h (by omega)⟩
    · obtain ⟨sizes, hresult, hin, hdown⟩ := shrink_exact entries clamped content hclamped hmore hsafe
      refine ⟨sizes, fun fuel hfuel => ?_, hin, fun h => (by cases h), ?_⟩
      · rw [hsizes, if_neg (by omega), if_pos hmore]
        exact hresult fuel (by omega)
      · rintro _ ⟨rfl⟩
        rw [hc]
        exact ⟨fun h => absurd h (by omega), fun h => absurd h (by omega), fun _ => hdown⟩

theorem allocateStackSizes_exact_sample :
    let first : StackLayoutEntry := ⟨some 10, some 1, none, none, some 12⟩
    let second : StackLayoutEntry := ⟨none, some 2, none, none, none⟩
    -- the minimum is above the maximum
    let third : StackLayoutEntry := ⟨some 1, none, some 0, some 8, some 4⟩
    let entries := [first, second, third]
    let intrinsicSizes : List ℚ := [0, 11 / 2]
    SafeSums entries intrinsicSizes (some (83 / 2)) 1 ∧ clampedSizes entries intrinsicSizes = [10, 5, 8] ∧
    (∃ sizes, (∀ fuel, 2 ^ 53 < fuel → allocateStackSizes fuel entries intrinsicSizes (some (83 / 2)) 1 = some sizes) ∧
      InBounds entries sizes ∧ List.Forall₂ (· ≤ ·) [10, 5, 8] sizes ∧
      (sizes.sum = 39 ∨ List.Forall₂ (fun entry size => 0 < entry.growWeight → size = entry.max) entries sizes)) ∧
    allocateStackSizes 3 entries intrinsicSizes (some (83 / 2)) 1 = some [12, 19, 8] := by
  intro first second third entries intrinsicSizes
  have hclamped : clampedSizes entries intrinsicSizes = [10, 5, 8] := by decide +kernel
  have hsafe : SafeSums entries intrinsicSizes (some (83 / 2)) 1 := by
    refine ⟨by rw [hclamped]; decide, by decide, ?_, by decide⟩
    rintro _ ⟨rfl⟩
    decide +kernel
  obtain ⟨sizes, hresult, hin, -, hcontent⟩ := allocateStackSizes_exact entries intrinsicSizes (some (83 / 2)) 1 hsafe
  rw [hclamped] at hcontent
  have hfloor : (⌊(83 / 2 : ℚ)⌋ - ((entries.length - 1 : ℕ) : ℤ) * 1).toNat = 39 := by decide +kernel
  obtain ⟨hup, -, hsum⟩ := (hcontent _ rfl).2.1 (by rw [hfloor]; decide)
  rw [hfloor] at hsum
  exact ⟨hsafe, hclamped, ⟨sizes, hresult, hin, hup, hsum⟩, by decide +kernel⟩

theorem distribute_mono (fuel : ℕ) (sizes after : List (StackLayoutEntry × ℕ)) (remaining : ℕ)
    (h : distribute mode fuel sizes remaining = some after) :
    distribute mode (fuel + 1) sizes remaining = some after := by
  induction fuel generalizing sizes remaining with
  | zero => cases h
  | succ fuel ih =>
    rw [distribute] at h ⊢
    by_cases hzero : remaining = 0
    · rwa [if_pos hzero] at h ⊢
    rw [if_neg hzero] at h ⊢
    by_cases hnone : sizes.all (fun s => !isCandidate mode s.1 s.2) = true
    · rwa [if_pos hnone] at h ⊢
    rw [if_neg hnone] at h ⊢
    dsimp only at h ⊢
    split at h
    · rename_i hdistributed
      rw [if_pos hdistributed]
      exact ih _ _ h
    · rename_i hover
      rwa [if_neg hover]

/-- Rounds that are over stay over. -/
theorem allocateStackSizes_mono (fuel : ℕ) (intrinsicSizes : List ℚ) (availableSize : Option ℚ) (gap : ℤ) (sizes : List ℕ)
    (h : allocateStackSizes fuel entries intrinsicSizes availableSize gap = some sizes) :
    allocateStackSizes (fuel + 1) entries intrinsicSizes availableSize gap = some sizes := by
  unfold allocateStackSizes at h ⊢
  cases availableSize with
  | none => exact h
  | some available =>
    dsimp only at h ⊢
    split at h
    · rename_i hless
      obtain ⟨after, hafter, hsizes⟩ := Option.map_eq_some_iff.mp h
      rw [if_pos hless, distribute_mono .grow fuel _ after _ hafter, Option.map_some, hsizes]
    · rename_i hless
      rw [if_neg hless]
      split at h
      · rename_i hmore
        obtain ⟨after, hafter, hsizes⟩ := Option.map_eq_some_iff.mp h
        rw [if_pos hmore, distribute_mono .shrink fuel _ after _ hafter, Option.map_some, hsizes]
      · rename_i hmore
        rwa [if_neg hmore]

/-- Two entries of 2^53 - 1 each shrink to 81 columns: what is taken off the second is rounded, and a column too many stays. -/
theorem allocateStackSizes_rounded :
    let entry : StackLayoutEntry := ⟨some MAX_SAFE_INTEGER, none, none, none, none⟩
    (∀ fuel, 5 ≤ fuel → allocateStackSizes fuel [entry, entry] [] (some 81) 0 = some [0, 82]) ∧
    contentSize [entry, entry] 81 0 = 81 ∧ 81 < (clampedSizes [entry, entry] []).sum ∧ [0, 82].sum ≠ 81 ∧
    ¬ List.Forall₂ (fun entry size => 0 < entry.shrinkWeight → size = entry.min) [entry, entry] [0, 82] := by
  intro entry
  refine ⟨fun fuel hfuel => ?_, by decide +kernel, by decide +kernel, by decide, by decide⟩
  induction fuel, hfuel using Nat.le_induction with
  | base => decide +kernel
  | succ fuel _ ih => exact allocateStackSizes_mono [entry, entry] fuel [] (some 81) 0 _ ih

end PiAgent.Tui
