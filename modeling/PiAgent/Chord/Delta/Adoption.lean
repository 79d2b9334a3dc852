import PiAgent.Chord.Delta.LifecycleProofs

/-! # Adoption is exact -/

namespace PiAgent.Delta.Lifecycle

open Option List

variable {V : Type}

/-! ## Every run -/

variable {past : List (Step V × Answer)}

theorem inv_track {w : World V} (h : Inv past w) (initial : V) (tr : Tracker V) (hrevision : tr.revision = 0)
    (hcontexts : tr.contexts = []) :
    Inv (past ++ [(.track initial, .ok)]) { w with trackers := w.trackers ++ [tr] } := by
  refine ⟨fun x c hc => ?_, ?_, fun t old x ht hx => ?_, fun t => ?_⟩
  · obtain ⟨old, hold, hsound⟩ := h.contexts x c hc
    refine ⟨old, ?_, hsound.frame (agrees_refl x c old) _ _ (by simp [Step.about])⟩
    rw [getElem?_append_left (List.getElem?_eq_some_iff.mp hold).1, hold]
  · exact unborn_snoc h.unborn _ _ _ (Nat.le_refl _) (by simp [Step.about])
  · rcases mem_append.mp (mem_of_getElem? ht) with _ | hnew
    · by_cases hlt : t < w.trackers.length
      · exact h.own t old x (by simpa [getElem?_append_left hlt] using ht) hx
      · have := (List.getElem?_eq_some_iff.mp ht).1
        simp only [length_append, length_singleton] at this
        obtain rfl : t = w.trackers.length := by omega
        simp at ht
        rw [← ht, hcontexts] at hx
        cases hx
    · by_cases hlt : t < w.trackers.length
      · exact h.own t old x (by simpa [getElem?_append_left hlt] using ht) hx
      · rw [mem_singleton.mp hnew, hcontexts] at hx
        cases hx
  · rw [adoptions_snoc _ _ _ _ (by simp), ← h.adopts t]
    by_cases hlt : t < w.trackers.length
    · rw [getElem?_append_left hlt]
    · rw [getElem?_eq_none (Nat.le_of_not_lt hlt)]
      by_cases ht : t = w.trackers.length
      · simp [ht, hrevision]
      · rw [getElem?_eq_none]
        simp
        omega

theorem inv_step [DecidableEq V] {w : World V} (h : Inv past w) (s : Step V) :
    Inv (past ++ [(s, (step w s).2)]) (step w s).1 := by
  cases s with
  | track initial => exact inv_track h initial _ rfl rfl
  | beginChange t => exact inv_beginChange h t
  | prepare x result => exact inv_prepare h x result
  | abortChange x => exact inv_abortChange h x
  | prepareReplace t result => exact inv_prepareReplace h t result
  | abortPrepared x => exact inv_abortPrepared h x
  | adopt t x => exact inv_adopt h t x
  | lose x => exact inv_lose h x
  | collect x => exact inv_collect h x

theorem inv_run [DecidableEq V] (steps : List (Step V)) : Inv (machine.trace steps) (machine.run steps) :=
  machine.invariant inv_start (fun _ _ s h => inv_step h s) steps

/-! ## Values and revisions -/

def Tracker.seen (tr : Tracker V) : V × ℕ := (tr.value, tr.revision)

def SameTrackers (w w' : World V) : Prop :=
  ∀ t : ℕ, (w'.trackers[t]?).map Tracker.seen = (w.trackers[t]?).map Tracker.seen

variable (w : World V)

theorem sameTrackers_refl : SameTrackers w w := fun _ => rfl

theorem SameTrackers.trans {w w' w'' : World V} (h : SameTrackers w w') (h' : SameTrackers w' w'') :
    SameTrackers w w'' :=
  fun t => (h' t).trans (h t)

variable (x : ℕ) (c : Context V)

theorem sameTrackers_put : SameTrackers w (w.put x c) := by
  intro t
  rw [trackers_put, Option.map_map]
  refine congrArg (fun f => (w.trackers[t]?).map f) (funext fun tr => ?_)
  simp only [Function.comp_apply, releasedIf]
  split
  · split <;> rfl
  · rfl

theorem sameTrackers_create (t : ℕ) (c : Context V) : SameTrackers w (w.create t c) := by
  intro t'
  simp only [World.create, getElem?_modify]
  split
  · cases w.trackers[t']? with
    | none => rfl
    | some tr => simp [Tracker.seen, register_same]
  · cases w.trackers[t']? <;> rfl

theorem sameTrackers_step [DecidableEq V] (w : World V) (s : Step V) (hnot : ∀ initial, s ≠ .track initial)
    (h : (step w s).2 ≠ .ok ∨ ∀ t x, s ≠ .adopt t x) : SameTrackers w (step w s).1 := by
  cases s with
  | track initial => exact absurd rfl (hnot initial)
  | beginChange t =>
    simp only [step, beginChange]
    split
    · exact sameTrackers_refl w
    · exact sameTrackers_create w _ _
  | prepare x result =>
    simp only [step, prepare]
    repeat' split
    all_goals first | exact sameTrackers_refl w | exact sameTrackers_put w _ _
  | abortChange x =>
    simp only [step, abortChange]
    repeat' split
    all_goals first | exact sameTrackers_refl w | exact sameTrackers_put w _ _
  | prepareReplace t result =>
    simp only [step, prepareReplace]
    repeat' split
    all_goals first | exact sameTrackers_refl w | exact (sameTrackers_create w _ _).trans (sameTrackers_put _ _ _)
  | abortPrepared x =>
    simp only [step, abortPrepared]
    repeat' split
    all_goals first | exact sameTrackers_refl w | exact sameTrackers_put w _ _
  | adopt t x =>
    simp only [step] at h ⊢
    rcases adopt_cases w t x with ⟨a, -, heq⟩ | ⟨tr, c, pr, -, -, -, -, -, ⟨-, heq⟩ | ⟨-, -, heq⟩ | ⟨-, -, heq⟩⟩
    · rw [heq]; exact sameTrackers_refl w
    · rw [heq]; exact sameTrackers_put w _ _
    · rw [heq]; exact sameTrackers_put w _ _
    · rw [heq] at h
      rcases h with h | h
      · exact absurd rfl h
      · exact absurd rfl (h t x)
  | lose x =>
    simp only [step, lose]
    split <;> exact sameTrackers_refl w
  | collect x =>
    simp only [step, collect]
    repeat' split
    all_goals exact sameTrackers_refl w

/-! ## What an adoption shuts out -/

def KeepsContexts (w w' : World V) : Prop :=
  ∀ (y : ℕ) (c : Context V), w.table[y]? = some c →
    ∃ c', w'.table[y]? = some c' ∧ c'.owner = c.owner ∧ c'.baseRevision = c.baseRevision

theorem keepsContexts_refl : KeepsContexts w w := fun _ c hc => ⟨c, hc, rfl, rfl⟩

theorem KeepsContexts.trans {w w' w'' : World V} (h : KeepsContexts w w') (h' : KeepsContexts w' w'') :
    KeepsContexts w w'' := by
  intro y c hc
  obtain ⟨c₁, hc₁, howner₁, hbase₁⟩ := h y c hc
  obtain ⟨c₂, hc₂, howner₂, hbase₂⟩ := h' y c₁ hc₁
  exact ⟨c₂, hc₂, howner₂.trans howner₁, hbase₂.trans hbase₁⟩

theorem keepsContexts_set {w w' : World V} (x : ℕ) (c c' : Context V) (hc : w.table[x]? = some c)
    (htable : w'.table = w.table.set x c') (howner : c'.owner = c.owner) (hbase : c'.baseRevision = c.baseRevision) :
    KeepsContexts w w' := by
  intro y d hd
  rw [htable, getElem?_set]
  split
  · next hxy =>
    subst hxy
    rw [hc] at hd
    obtain rfl := some.inj hd
    exact ⟨c', by simp [(List.getElem?_eq_some_iff.mp hc).1], howner, hbase⟩
  · exact ⟨d, hd, rfl, rfl⟩

theorem keepsContexts_put (c c' : Context V) (hc : w.table[x]? = some c)
    (howner : c'.owner = c.owner) (hbase : c'.baseRevision = c.baseRevision) : KeepsContexts w (w.put x c') :=
  keepsContexts_set x c c' hc rfl howner hbase

theorem keepsContexts_create (t : ℕ) (c : Context V) : KeepsContexts w (w.create t c) := by
  intro y d hd
  refine ⟨d, ?_, rfl, rfl⟩
  rw [World.create, getElem?_append_left (List.getElem?_eq_some_iff.mp hd).1, hd]

theorem keepsContexts_step [DecidableEq V] (w : World V) (s : Step V) : KeepsContexts w (step w s).1 := by
  cases s with
  | track initial => exact keepsContexts_refl w
  | beginChange t =>
    simp only [step, beginChange]
    split
    · exact keepsContexts_refl w
    · exact keepsContexts_create w _ _
  | prepare x result =>
    simp only [step, prepare]
    repeat' split
    all_goals first
      | exact keepsContexts_refl w
      | exact keepsContexts_put w x _ _ (by assumption) (by rfl) (by rfl)
  | abortChange x =>
    simp only [step, abortChange]
    repeat' split
    all_goals first
      | exact keepsContexts_refl w
      | exact keepsContexts_put w x _ _ (by assumption) (by exact (abort_same _).1) (by exact (abort_same _).2.1)
      | exact keepsContexts_put w x _ _ (by assumption) (by rfl) (by rfl)
  | prepareReplace t result =>
    simp only [step, prepareReplace]
    repeat' split
    all_goals first
      | exact keepsContexts_refl w
      | exact (keepsContexts_create w _ _).trans (keepsContexts_put _ _ (createContext t _ .prepared none) _
          (by simp [World.create]) rfl rfl)
  | abortPrepared x =>
    simp only [step, abortPrepared]
    repeat' split
    all_goals first
      | exact keepsContexts_refl w
      | exact keepsContexts_put w x _ _ (by assumption) (by exact (abort_same _).1) (by exact (abort_same _).2.1)
  | adopt t x =>
    simp only [step]
    rcases adopt_cases w t x with ⟨a, -, heq⟩ | ⟨tr, c, pr, -, hc, -, -, -, ⟨-, heq⟩ | ⟨-, -, heq⟩ | ⟨-, -, heq⟩⟩
    · rw [heq]; exact keepsContexts_refl w
    · rw [heq]; exact keepsContexts_put w x c _ hc rfl rfl
    · rw [heq]; exact keepsContexts_put w x c _ hc rfl rfl
    · rw [heq]
      refine (keepsContexts_put w x c { c with status := .consumed } hc rfl rfl).trans (fun y d hd => ?_)
      dsimp only
      rw [getElem?_invalidate, hd]
      refine ⟨if y ∈ tr.contexts ∧ y ≠ x ∧ d.collected = false then d.invalidate else d, rfl, ?_, ?_⟩ <;> split <;> rfl
  | lose x =>
    simp only [step, lose]
    split
    · exact keepsContexts_refl w
    · exact keepsContexts_set x _ _ (by assumption) rfl (by rfl) (by rfl)
  | collect x =>
    simp only [step, collect]
    repeat' split
    all_goals first
      | exact keepsContexts_refl w
      | exact keepsContexts_set x _ _ (by assumption) rfl (by rfl) (by rfl)

theorem revision_step [DecidableEq V] (w : World V) (s : Step V) (t : ℕ) (tr : Tracker V)
    (htr : w.trackers[t]? = some tr) :
    ∃ tr', (step w s).1.trackers[t]? = some tr' ∧ tr.revision ≤ tr'.revision := by
  have hsame : ∀ w' : World V, SameTrackers w w' → ∃ tr', w'.trackers[t]? = some tr' ∧ tr.revision ≤ tr'.revision := by
    intro w' h
    have := h t
    rw [htr] at this
    obtain ⟨tr', htr', heq⟩ := map_eq_some_iff.mp this
    exact ⟨tr', htr', Nat.le_of_eq (congrArg Prod.snd heq).symm⟩
  cases s with
  | track initial =>
    exact ⟨tr, by simp only [step]; rw [getElem?_append_left (List.getElem?_eq_some_iff.mp htr).1, htr], Nat.le_refl _⟩
  | adopt t' x =>
    by_cases hok : (adopt w t' x).2 = .ok
    · rcases adopt_cases w t' x with ⟨a, ha, heq⟩ | ⟨tr₀, c, pr, htr₀, -, -, howner, -, ⟨-, heq⟩ | ⟨-, -, heq⟩ | ⟨-, -, heq⟩⟩
      · rw [heq] at hok
        exact absurd hok ha
      · rw [heq] at hok
        cases hok
      · rw [heq] at hok
        cases hok
      · simp only [step, heq]
        obtain ⟨tr₁, htr₁, hle⟩ := hsame _ (sameTrackers_put w x { c with status := .consumed })
        rw [getElem?_set]
        split
        · next ht =>
          rw [ht, htr] at htr₀
          obtain rfl := some.inj htr₀
          rw [if_pos (ht ▸ (List.getElem?_eq_some_iff.mp htr₁).1)]
          exact ⟨_, rfl, Nat.le_succ _⟩
        · exact ⟨tr₁, htr₁, hle⟩
    · exact hsame _ (sameTrackers_step w _ (by simp) (Or.inl hok))
  | _ => exact hsame _ (sameTrackers_step w _ (by simp) (Or.inr (by simp)))

def Passed (t y : ℕ) (w : World V) : Prop :=
  ∃ tr c, w.trackers[t]? = some tr ∧ w.table[y]? = some c ∧ (c.owner = t → c.baseRevision < tr.revision)

theorem passed_step [DecidableEq V] (t y : ℕ) (w : World V) (s : Step V) (h : Passed t y w) :
    Passed t y (step w s).1 := by
  obtain ⟨tr, c, htr, hc, hlt⟩ := h
  obtain ⟨tr', htr', hle⟩ := revision_step w s t tr htr
  obtain ⟨c', hc', howner, hbase⟩ := keepsContexts_step w s y c hc
  exact ⟨tr', c', htr', hc', fun ho => hbase ▸ Nat.lt_of_lt_of_le (hlt (howner ▸ ho)) hle⟩

theorem not_adopt_passed [DecidableEq V] (t y : ℕ) (w : World V) (h : Passed t y w) : (adopt w t y).2 ≠ .ok := by
  obtain ⟨tr, c, htr, hc, hlt⟩ := h
  rcases adopt_cases w t y with ⟨a, ha, heq⟩ | ⟨tr', c', pr, htr', hc', -, howner, -, hcase⟩
  · rw [heq]; exact ha
  · rw [htr] at htr'
    rw [hc] at hc'
    obtain rfl := some.inj htr'
    obtain rfl := some.inj hc'
    have := hlt howner
    rcases hcase with ⟨-, heq⟩ | ⟨he, -, -⟩ | ⟨he, -, -⟩
    · rw [heq]; simp
    · omega
    · omega

/-! ## The calls of every run -/

structure Current (past : List (Step V × Answer)) (w : World V) (t x : ℕ) (tr : Tracker V) (pr : Prepared V) : Prop where
  tracker : w.trackers[t]? = some tr
  made : ∃ c, w.table[x]? = some c ∧ c.owner = t ∧ c.prepared = some pr
  revision : pr.preparedAt = tr.revision
  standing : ¬ Withdrawn past x
  unused : ¬ Adopted past x

theorem seen_of_adopt [DecidableEq V] (w : World V) (t x : ℕ) (tr : Tracker V) (c : Context V) (pr : Prepared V)
    (htr : w.trackers[t]? = some tr) (hc : w.table[x]? = some c) (hpr : c.prepared = some pr)
    (hok : (adopt w t x).2 = .ok) :
    (adopt w t x).1.trackers[t]?.map Tracker.seen = some (pr.value, tr.revision + 1) := by
  have hlen : t < (w.put x { c with status := .consumed }).trackers.length := by
    have hmap := sameTrackers_put w x { c with status := .consumed } t
    rw [htr] at hmap
    obtain ⟨tr', htr', -⟩ := map_eq_some_iff.mp hmap
    exact (List.getElem?_eq_some_iff.mp htr').1
  rcases adopt_cases w t x with ⟨a, ha, heq⟩ | ⟨tr', c', pr', htr', hc', hpr', -, -, hcase⟩
  · rw [heq] at hok
    exact absurd hok ha
  · rw [htr] at htr'
    rw [hc] at hc'
    obtain rfl := some.inj htr'
    obtain rfl := some.inj hc'
    rw [hpr] at hpr'
    obtain rfl := some.inj hpr'
    rcases hcase with ⟨-, heq⟩ | ⟨-, -, heq⟩ | ⟨-, -, heq⟩
    · rw [heq] at hok
      cases hok
    · rw [heq] at hok
      cases hok
    · rw [heq]
      dsimp only
      rw [getElem?_set, if_pos rfl, if_pos hlen]
      rfl

theorem adopt_current [DecidableEq V] {w : World V} (h : Inv past w) (t x : ℕ) (tr : Tracker V) (pr : Prepared V)
    (hcur : Current past w t x tr pr) :
    (adopt w t x).2 = .ok ∧
      (adopt w t x).1.trackers[t]?.map Tracker.seen = some (pr.value, tr.revision + 1) := by
  obtain ⟨htr, ⟨c, hc, howner, hpr⟩, hrevision, hstanding, hunused⟩ := hcur
  obtain ⟨tr', htr', hsound⟩ := h.contexts x c hc
  rw [howner, htr] at htr'
  obtain rfl := some.inj htr'
  obtain ⟨hbase, hat, hopen⟩ := hsound.prepared pr hpr
  have hsome : c.prepared.isSome = true := by rw [hpr]; rfl
  have hst : c.status = .prepared := by
    cases hs : c.status with
    | opened => exact absurd hs hopen
    | prepared => rfl
    | consumed => exact absurd (hsound.consumed hs) hunused
    | aborted => exact absurd (hsound.aborted hsome hs) hstanding
    | stale =>
      have := hsound.stale hsome hs
      omega
  have he : c.baseRevision = tr.revision := hat.symm.trans hrevision
  have heq : tr.value = pr.base := (hbase.trans (hsound.base he)).symm
  have hok : (adopt w t x).2 = .ok := by
    unfold adopt
    simp [htr, hc, hpr, howner, hst, he, heq]
  exact ⟨hok, seen_of_adopt w t x tr c pr htr hc hpr hok⟩

theorem current_of_adopt [DecidableEq V] {w : World V} (h : Inv past w) (t x : ℕ) (hok : (adopt w t x).2 = .ok) :
    ∃ tr pr, Current past w t x tr pr := by
  rcases adopt_cases w t x with ⟨a, ha, heq⟩ | ⟨tr, c, pr, htr, hc, hpr, howner, hst, hcase⟩
  · rw [heq] at hok
    exact absurd hok ha
  · obtain ⟨tr', htr', hsound⟩ := h.contexts x c hc
    rw [howner, htr] at htr'
    obtain rfl := some.inj htr'
    have hsome : c.prepared.isSome = true := by rw [hpr]; rfl
    obtain ⟨hw, ha⟩ := hsound.standing hsome hst
    refine ⟨tr, pr, htr, ⟨c, hc, howner, hpr⟩, (hsound.prepared pr hpr).2.1.trans ?_, hw, ha⟩
    rcases hcase with ⟨-, heq⟩ | ⟨he, -, -⟩ | ⟨he, -, -⟩
    · rw [heq] at hok
      cases hok
    · exact he
    · exact he

theorem passed_adopt [DecidableEq V] {w : World V} (h : Inv past w) (t x : ℕ) (hok : (adopt w t x).2 = .ok) (y : ℕ)
    (hy : y < w.table.length) : Passed t y (adopt w t x).1 := by
  obtain ⟨tr, pr, hcur⟩ := current_of_adopt h t x hok
  obtain ⟨-, hseen⟩ := adopt_current h t x tr pr hcur
  obtain ⟨tr', htr', heq⟩ := map_eq_some_iff.mp hseen
  obtain ⟨c, hc⟩ : ∃ c, w.table[y]? = some c := ⟨_, getElem?_eq_getElem hy⟩
  obtain ⟨c', hc', howner, hbase⟩ := keepsContexts_step w (.adopt t x) y c hc
  refine ⟨tr', c', htr', hc', fun ho => ?_⟩
  obtain ⟨tr₀, htr₀, hsound⟩ := h.contexts y c hc
  rw [← howner, ho, hcur.tracker] at htr₀
  obtain rfl := some.inj htr₀
  have hrev : tr'.revision = tr.revision + 1 := congrArg Prod.snd heq
  have := hsound.revision_le
  omega

/-- At every moment of every run, for any number of trackers and of changes open at once. -/
theorem lifecycle [DecidableEq V] (steps : List (Step V)) :
    (∀ (t : ℕ) (tr : Tracker V), (machine.run steps).trackers[t]? = some tr →
      tr.revision = adoptions (machine.trace steps) t) ∧
    (∀ t x, (adopt (machine.run steps) t x).2 = .ok ↔
      ∃ tr pr, Current (machine.trace steps) (machine.run steps) t x tr pr) ∧
    (∀ s, (∀ initial, s ≠ .track initial) → (step (machine.run steps) s).2 ≠ .ok →
      SameTrackers (machine.run steps) (step (machine.run steps) s).1) ∧
    (∀ t x tr pr, Current (machine.trace steps) (machine.run steps) t x tr pr →
      (adopt (machine.run steps) t x).1.trackers[t]?.map Tracker.seen = some (pr.value, tr.revision + 1) ∧
      ∀ y later, y < (machine.run steps).table.length →
        (adopt (machine.runFrom (adopt (machine.run steps) t x).1 later) t y).2 ≠ .ok) := by
  have h := inv_run steps
  refine ⟨fun t tr htr => ?_, fun t x => ⟨current_of_adopt h t x, ?_⟩,
    fun s hnot hfail => sameTrackers_step _ s hnot (Or.inl hfail), fun t x tr pr hcur => ?_⟩
  · have := h.adopts t
    rw [htr] at this
    exact this
  · rintro ⟨tr, pr, hcur⟩
    exact (adopt_current h t x tr pr hcur).1
  · obtain ⟨hok, hseen⟩ := adopt_current h t x tr pr hcur
    refine ⟨hseen, fun y later hy => not_adopt_passed t y _ ?_⟩
    exact machine.runFrom_induction (passed_step t y) _ (passed_adopt h t x hok y hy) later

end PiAgent.Delta.Lifecycle
