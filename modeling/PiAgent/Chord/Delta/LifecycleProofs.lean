import PiAgent.Chord.Delta.Lifecycle

/-! # What a tracker knows about its changes -/

namespace PiAgent.Delta.Lifecycle

open Option List

variable {V : Type}

structure Sound (past : List (Step V × Answer)) (tr : Tracker V) (x : ℕ) (c : Context V) : Prop where
  revision_le : c.baseRevision ≤ tr.revision
  base : c.baseRevision = tr.revision → c.baseValue = tr.value
  /-- An open context of the tracker's set began at the current revision. -/
  current : x ∈ tr.contexts → c.status = .opened → c.baseRevision = tr.revision
  /-- A change that can still be prepared has its context in the set. -/
  registered : ∀ ch, c.change = some ch → ch.settled = false → ch.held = true → c.status = .opened →
    x ∈ tr.contexts ∧ c.collected = false
  unprepared : ∀ ch, c.change = some ch → ch.settled = false → c.prepared = none
  closed : ∀ ch, c.change = some ch → ch.settled = true → c.status ≠ .opened
  ready : c.status = .prepared → c.prepared.isSome = true
  prepared : ∀ pr, c.prepared = some pr → pr.base = c.baseValue ∧ pr.preparedAt = c.baseRevision ∧ c.status ≠ .opened
  watching : c.prepared.isSome = true → c.status = .prepared → ∀ ch, c.change = some ch → ch.watching = true
  untouched : c.prepared = none → ¬ Adopted past x ∧ (.abortPrepared x, .ok) ∉ past
  settled : (.abortChange x, .ok) ∈ past → ∃ ch, c.change = some ch ∧ ch.settled = true
  standing : c.prepared.isSome = true → c.status = .prepared → ¬ Withdrawn past x ∧ ¬ Adopted past x
  consumed : c.status = .consumed → Adopted past x
  aborted : c.prepared.isSome = true → c.status = .aborted → Withdrawn past x
  stale : c.prepared.isSome = true → c.status = .stale → c.baseRevision < tr.revision

structure Inv (past : List (Step V × Answer)) (w : World V) : Prop where
  contexts : ∀ x c, w.table[x]? = some c → ∃ tr, w.trackers[c.owner]? = some tr ∧ Sound past tr x c
  unborn : ∀ x, w.table.length ≤ x → ¬ Withdrawn past x ∧ ¬ Adopted past x
  own : ∀ (t : ℕ) (tr : Tracker V) (x : ℕ), w.trackers[t]? = some tr → x ∈ tr.contexts →
    ∃ c, w.table[x]? = some c ∧ c.owner = t
  adopts : ∀ t, ((w.trackers[t]?.map Tracker.revision).getD 0) = adoptions past t

theorem inv_start : Inv ([] : List (Step V × Answer)) { trackers := [], table := [] } :=
  ⟨by simp, by simp [Withdrawn, Adopted], by simp, by simp [adoptions]⟩

/-! ## Steps that are not about a context -/

/-- The tracker is as it was for the context: its set may have lost a context only if that was collected. -/
structure Agrees (x : ℕ) (c : Context V) (tr tr' : Tracker V) : Prop where
  revision : tr'.revision = tr.revision
  value : tr'.value = tr.value
  keeps : c.collected = false → x ∈ tr.contexts → x ∈ tr'.contexts
  adds : x ∈ tr'.contexts → x ∈ tr.contexts

variable {past : List (Step V × Answer)}

theorem Sound.frame {tr tr' : Tracker V} {x : ℕ} {c : Context V}
    (h : Sound past tr x c) (hag : Agrees x c tr tr') (s : Step V) (a : Answer) (hs : s.about x → a ≠ .ok) :
    Sound (past ++ [(s, a)]) tr' x c := by
  have hw : Withdrawn (past ++ [(s, a)]) x ↔ Withdrawn past x := withdrawn_other hs
  have ha : Adopted (past ++ [(s, a)]) x ↔ Adopted past x := adopted_other hs
  have hap : (.abortPrepared x, .ok) ∉ past → (.abortPrepared x, .ok) ∉ past ++ [(s, a)] := by
    intro hn hmem
    rcases mem_append.mp hmem with hmem | hmem
    · exact hn hmem
    · cases mem_singleton.mp hmem
      exact hs rfl rfl
  have hac : (.abortChange x, .ok) ∈ past ++ [(s, a)] → (.abortChange x, .ok) ∈ past := by
    intro hmem
    rcases mem_append.mp hmem with hmem | hmem
    · exact hmem
    · cases mem_singleton.mp hmem
      exact absurd rfl (hs rfl)
  refine ⟨?_, ?_, ?_, ?_, h.unprepared, h.closed, h.ready, h.prepared, h.watching, ?_, fun hm => h.settled (hac hm), ?_,
    ?_, ?_, ?_⟩
  · rw [hag.revision]; exact h.revision_le
  · rw [hag.revision, hag.value]; exact h.base
  · rw [hag.revision]; exact fun hx ho => h.current (hag.adds hx) ho
  · intro ch hch hset hheld ho
    obtain ⟨hmem, hcol⟩ := h.registered ch hch hset hheld ho
    exact ⟨hag.keeps hcol hmem, hcol⟩
  · intro hp
    rw [ha]
    exact ⟨(h.untouched hp).1, hap (h.untouched hp).2⟩
  · rw [hw, ha]; exact h.standing
  · rw [ha]; exact h.consumed
  · rw [hw]; exact h.aborted
  · rw [hag.revision]; exact h.stale

variable (x : ℕ) (c : Context V) (tr : Tracker V)

theorem agrees_refl : Agrees x c tr tr := ⟨rfl, rfl, fun _ h => h, id⟩

variable (x y : ℕ)

theorem agrees_release (hxy : x ≠ y) (c : Context V) (tr : Tracker V) : Agrees x c tr (tr.release y) :=
  ⟨rfl, rfl, fun _ h => by simp [Tracker.release, h, hxy], fun h => (mem_filter.mp h).1⟩

theorem unborn_snoc {n : ℕ} (h : ∀ x, n ≤ x → ¬ Withdrawn past x ∧ ¬ Adopted past x)
    (s : Step V) (a : Answer) (m : ℕ) (hnm : n ≤ m) (hs : ∀ x, m ≤ x → s.about x → a ≠ .ok) :
    ∀ x, m ≤ x → ¬ Withdrawn (past ++ [(s, a)]) x ∧ ¬ Adopted (past ++ [(s, a)]) x := by
  intro x hx
  rw [withdrawn_other (hs x hx), adopted_other (hs x hx)]
  exact h x (Nat.le_trans hnm hx)

theorem adoptions_snoc (past : List (Step V × Answer)) (s : Step V) (a : Answer) (t : ℕ)
    (h : ∀ x, s = .adopt t x → a ≠ .ok) : adoptions (past ++ [(s, a)]) t = adoptions past t := by
  have hfalse : isAdopt t (s, a) = false := by
    cases s <;> cases a <;> simp [isAdopt]
    rintro rfl
    exact h _ rfl rfl
  simp [adoptions, countP_append, hfalse]

variable {w : World V}

theorem Inv.fail (h : Inv past w) (s : Step V) (a : Answer) (ha : a ≠ .ok) : Inv (past ++ [(s, a)]) w := by
  refine ⟨fun x c hc => ?_, unborn_snoc h.unborn s a _ (Nat.le_refl _) (fun _ _ _ => ha), h.own, fun t => ?_⟩
  · obtain ⟨tr, htr, hsound⟩ := h.contexts x c hc
    exact ⟨tr, htr, hsound.frame (agrees_refl x c tr) s a (fun _ => ha)⟩
  · rw [adoptions_snoc _ _ _ _ (fun _ _ => ha)]
    exact h.adopts t

def releasedIf (c : Context V) (x : ℕ) (tr : Tracker V) : Tracker V :=
  if c.overlayReleased then tr.release x else tr

theorem trackers_put (w : World V) (x : ℕ) (c : Context V) (t : ℕ) :
    (w.put x c).trackers[t]? = (w.trackers[t]?).map (fun tr => if t = c.owner then releasedIf c x tr else tr) := by
  unfold World.put releasedIf
  dsimp only
  split
  · rw [getElem?_modify]
    by_cases h : c.owner = t
    · simp [h]
    · simp [h, Ne.symm h]
  · simp

theorem agrees_releasedIf (hxy : x ≠ y) (c d : Context V) (tr : Tracker V) : Agrees x c tr (releasedIf d y tr) := by
  unfold releasedIf
  split
  · exact agrees_release x y hxy c tr
  · exact agrees_refl x c tr

variable {w w' : World V}

theorem Inv.change (h : Inv past w) (x : ℕ) (c c' : Context V)
    (f : Tracker V → Tracker V) (hc : w.table[x]? = some c) (howner : c'.owner = c.owner)
    (htable : w'.table = w.table.set x c')
    (htrackers : ∀ t, w'.trackers[t]? = (w.trackers[t]?).map (fun tr => if t = c.owner then f tr else tr))
    (hf : ∀ y d tr, y ≠ x → Agrees y d tr (f tr)) (hrevision : ∀ tr, (f tr).revision = tr.revision)
    (hsub : ∀ tr, (f tr).contexts ⊆ tr.contexts)
    (s : Step V) (a : Answer) (hs : ∀ y, y ≠ x → ¬ s.about y) (hadopt : ∀ t y, s = .adopt t y → a ≠ .ok)
    (hsound : ∀ tr, w.trackers[c.owner]? = some tr → Sound past tr x c → Sound (past ++ [(s, a)]) (f tr) x c') :
    Inv (past ++ [(s, a)]) w' := by
  have hx : x < w.table.length := (List.getElem?_eq_some_iff.mp hc).1
  refine ⟨fun y d hd => ?_, ?_, fun t tr y htr hy => ?_, fun t => ?_⟩
  · rw [htable, getElem?_set] at hd
    split at hd
    · next hxy =>
      subst hxy
      obtain rfl : c' = d := by simpa [hx] using hd
      obtain ⟨tr, htr, hold⟩ := h.contexts x c hc
      exact ⟨f tr, by rw [htrackers, howner, htr]; simp, hsound tr htr hold⟩
    · next hxy =>
      obtain ⟨tr, htr, hold⟩ := h.contexts y d hd
      refine ⟨_, by rw [htrackers, htr]; rfl, hold.frame ?_ s a (fun hab => absurd hab (hs y (Ne.symm hxy)))⟩
      split
      · exact hf y d tr (Ne.symm hxy)
      · exact agrees_refl y d tr
  · refine unborn_snoc h.unborn s a _ (by simp [htable]) (fun y hy hab => ?_)
    rw [htable, length_set] at hy
    exact absurd hab (hs y (by omega))
  · rw [htrackers] at htr
    obtain ⟨old, hold, rfl⟩ := map_eq_some_iff.mp htr
    have hy' : y ∈ old.contexts := by
      split at hy
      · exact hsub old hy
      · exact hy
    obtain ⟨d, hd, hdt⟩ := h.own t old y hold hy'
    rw [htable, getElem?_set]
    split
    · next hxy =>
      subst hxy
      rw [hc] at hd
      obtain rfl := some.inj hd
      exact ⟨c', by simp, howner.trans hdt⟩
    · exact ⟨d, hd, hdt⟩
  · rw [adoptions_snoc _ _ _ _ (fun y hy => hadopt t y hy), ← h.adopts t, htrackers]
    cases w.trackers[t]? with
    | none => rfl
    | some tr =>
      simp only [map_some, getD_some]
      split
      · exact hrevision tr
      · rfl

variable {w : World V}

section

variable (h : Inv past w) (x : ℕ) (c c' : Context V) (hc : w.table[x]? = some c) (howner : c'.owner = c.owner)
    (s : Step V) (a : Answer)
include h hc howner

theorem Inv.put (hs : ∀ y, y ≠ x → ¬ s.about y) (hadopt : ∀ t y, s = .adopt t y → a ≠ .ok)
    (hsound : ∀ tr, w.trackers[c.owner]? = some tr → Sound past tr x c →
      Sound (past ++ [(s, a)]) (releasedIf c' x tr) x c') : Inv (past ++ [(s, a)]) (w.put x c') := by
  refine h.change x c c' (releasedIf c' x) hc howner rfl (fun t => ?_) (fun y d tr hy => agrees_releasedIf y x hy d c' tr)
    (fun tr => ?_) (fun tr => ?_) s a hs hadopt hsound
  · rw [trackers_put, howner]
  · unfold releasedIf
    split <;> rfl
  · unfold releasedIf
    split
    · exact fun y hy => (mem_filter.mp hy).1
    · exact List.Subset.refl _

theorem Inv.retable (hs : ∀ y, ¬ s.about y)
    (hsound : ∀ tr, Sound (past ++ [(s, a)]) tr x c → Sound (past ++ [(s, a)]) tr x c') :
    Inv (past ++ [(s, a)]) { w with table := w.table.set x c' } := by
  refine h.change x c c' id hc howner rfl (fun t => by simp) (fun y d tr _ => agrees_refl y d tr) (fun _ => rfl)
    (fun _ => List.Subset.refl _) s a
    (fun y _ => hs y) (fun t y hy => absurd rfl (hy ▸ hs y)) (fun tr _ hold => ?_)
  exact hsound tr (hold.frame (agrees_refl x c tr) s a (fun hab => absurd hab (hs x)))

end

/-! ## What a step does to its context -/

section Changes

variable {past : List (Step V × Answer)} {tr : Tracker V} {x : ℕ} {c : Context V}

section

variable (h : Sound past tr x c)
include h

theorem Sound.thrown (ch : Change) (hch : c.change = some ch) (hset : ch.settled = false) :
    Sound past (tr.release x) x
      { c with status := .aborted, overlayReleased := true,
               change := some { ch with settled := true, attached := false } } := by
  have hp := h.unprepared ch hch hset
  refine ⟨h.revision_le, h.base, ?_, ?_, ?_, ?_, ?_, ?_, ?_, h.untouched, ?_, ?_, ?_, ?_, ?_⟩ <;> simp [hp]

theorem Sound.prepares (ch : Change) (hch : c.change = some ch) (hset : ch.settled = false)
    (hheld : ch.held = true) (hopen : c.status = .opened) (value : V) :
    Sound past (tr.release x) x
      { c with status := .prepared, overlayReleased := true,
               prepared := some { value := value, base := c.baseValue, preparedAt := tr.revision },
               change := some { ch with settled := true, attached := false, watching := true } } := by
  have hp := h.unprepared ch hch hset
  have hcurrent := h.current (h.registered ch hch hset hheld hopen).1 hopen
  have hnot : ¬ Withdrawn past x ∧ ¬ Adopted past x := by
    refine ⟨?_, (h.untouched hp).1⟩
    rintro (hw | hw)
    · exact (h.untouched hp).2 hw
    · obtain ⟨ch', hch', hset'⟩ := h.settled hw
      rw [hch] at hch'
      obtain rfl := some.inj hch'
      rw [hset] at hset'
      cases hset'
  refine ⟨h.revision_le, h.base, ?_, ?_, ?_, ?_, ?_, ?_, ?_, ?_, ?_, ?_, ?_, ?_, ?_⟩ <;> simp [hcurrent, hnot]

theorem Sound.forget (ch' : Option Change)
    (hch : ∀ d, ch' = some d → ∃ ch, c.change = some ch ∧ d.settled = ch.settled ∧ d.watching = ch.watching ∧
      (d.held = true → ch.held = true)) (hsettled : ∀ ch, c.change = some ch → ∃ d, ch' = some d) :
    Sound past tr x { c with change := ch' } := by
  refine ⟨h.revision_le, h.base, h.current, ?_, ?_, ?_, h.ready, h.prepared, ?_, h.untouched, ?_, h.standing, h.consumed,
    h.aborted, h.stale⟩
  · intro d hd hset hheld ho
    obtain ⟨ch, hc, hs, -, hh⟩ := hch d hd
    exact h.registered ch hc (hs ▸ hset) (hh hheld) ho
  · intro d hd hset
    obtain ⟨ch, hc, hs, -, -⟩ := hch d hd
    exact h.unprepared ch hc (hs ▸ hset)
  · intro d hd hset
    obtain ⟨ch, hc, hs, -, -⟩ := hch d hd
    exact h.closed ch hc (hs ▸ hset)
  · intro hp hst d hd
    obtain ⟨ch, hc, -, hw, -⟩ := hch d hd
    rw [hw]
    exact h.watching hp hst ch hc
  · intro hm
    obtain ⟨ch, hc, hset⟩ := h.settled hm
    obtain ⟨d, hd⟩ := hsettled ch hc
    obtain ⟨ch₂, hc₂, hs, -, -⟩ := hch d hd
    rw [hc] at hc₂
    obtain rfl := some.inj hc₂
    exact ⟨d, hd, hs.trans hset⟩

theorem Sound.collect (hheld : ∀ ch, c.change = some ch → ch.held = false) :
    Sound past tr x { c with collected := true } := by
  refine ⟨h.revision_le, h.base, h.current, ?_, h.unprepared, h.closed, h.ready, h.prepared, h.watching, h.untouched,
    h.settled, h.standing, h.consumed, h.aborted, h.stale⟩
  intro ch hch _ hh
  rw [hheld ch hch] at hh
  cases hh

theorem Sound.goesStale (hne : c.baseRevision ≠ tr.revision) :
    Sound past (tr.release x) x { c with status := .stale, overlayReleased := true } := by
  refine ⟨h.revision_le, h.base, by simp, by simp, h.unprepared, by simp, by simp, ?_, by simp, h.untouched,
    h.settled, by simp, by simp, by simp, fun _ _ => ?_⟩
  · intro pr hpr
    exact ⟨(h.prepared pr hpr).1, (h.prepared pr hpr).2.1, by simp⟩
  · exact Nat.lt_of_le_of_ne h.revision_le hne

theorem Sound.releasedIf (hopen : c.status ≠ .opened) (d : Context V) : Sound past (releasedIf d x tr) x c := by
  unfold Lifecycle.releasedIf
  split
  · exact ⟨h.revision_le, h.base, fun _ ho => absurd ho hopen, fun _ _ _ _ ho => absurd ho hopen, h.unprepared,
      h.closed, h.ready, h.prepared, h.watching, h.untouched, h.settled, h.standing, h.consumed, h.aborted, h.stale⟩
  · exact h

theorem Sound.aborts (s : Step V) (hs : s = .abortPrepared x ∨ s = .abortChange x) (c' : Context V)
    (hrevision : c'.baseRevision = c.baseRevision) (hvalue : c'.baseValue = c.baseValue)
    (hprepared : c'.prepared = c.prepared) (hopen : c'.status ≠ .opened) (hready : c'.status ≠ .prepared)
    (hconsumed : c'.status = .consumed → c.status = .consumed) (hstale : c'.status = .stale → c.status = .stale)
    (hchange : ∀ ch', c'.change = some ch' → ch'.settled = false → ∃ ch, c.change = some ch ∧ ch.settled = false)
    (hsettled : (.abortChange x, .ok) ∈ past ++ [(s, Answer.ok)] → ∃ ch', c'.change = some ch' ∧ ch'.settled = true)
    (huntouched : s = .abortPrepared x → c.prepared.isSome = true) :
    Sound (past ++ [(s, .ok)]) (Lifecycle.releasedIf c' x tr) x c' := by
  have hadopted : ∀ y, Adopted (past ++ [(s, .ok)]) y ↔ Adopted past y := by
    intro y
    rw [adopted_snoc, or_iff_left]
    rintro ⟨⟨t, rfl⟩, -⟩
    rcases hs with hs | hs <;> cases hs
  refine Sound.releasedIf ⟨?_, ?_, ?_, ?_, ?_, ?_, ?_, ?_, ?_, ?_, hsettled, ?_, ?_, ?_, ?_⟩ hopen c'
  · rw [hrevision]; exact h.revision_le
  · rw [hrevision, hvalue]; exact h.base
  · exact fun _ ho => absurd ho hopen
  · exact fun _ _ _ _ ho => absurd ho hopen
  · intro ch' hch' hset
    obtain ⟨ch, hch, hset'⟩ := hchange ch' hch' hset
    rw [hprepared]
    exact h.unprepared ch hch hset'
  · exact fun _ _ _ => hopen
  · exact fun hst => absurd hst hready
  · intro pr hpr
    rw [hprepared] at hpr
    rw [hvalue, hrevision]
    exact ⟨(h.prepared pr hpr).1, (h.prepared pr hpr).2.1, hopen⟩
  · exact fun _ hst => absurd hst hready
  · intro hn
    rw [hprepared] at hn
    rw [hadopted]
    refine ⟨(h.untouched hn).1, fun hm => ?_⟩
    rcases mem_append.mp hm with hm | hm
    · exact (h.untouched hn).2 hm
    · have hs' : s = .abortPrepared x := by simpa [eq_comm] using hm
      rw [hn] at huntouched
      cases huntouched hs'
  · exact fun _ hst => absurd hst hready
  · exact fun hst => (hadopted x).mpr (h.consumed (hconsumed hst))
  · exact fun _ _ => withdrawn_snoc.mpr (Or.inr ⟨hs, rfl⟩)
  · intro hp hst
    rw [hprepared] at hp
    rw [hrevision]
    exact h.stale hp (hstale hst)

end

theorem abort_status (c : Context V) :
    c.abort.status ≠ .opened ∧ c.abort.status ≠ .prepared ∧ (c.abort.status = .consumed → c.status = .consumed) ∧
      (c.abort.status = .stale → c.status = .stale) := by
  unfold Context.abort
  split
  · next hs => rcases hs with hs | hs | hs <;> simp [hs]
  · simp

theorem abort_same (c : Context V) :
    c.abort.owner = c.owner ∧ c.abort.baseRevision = c.baseRevision ∧ c.abort.baseValue = c.baseValue ∧
      c.abort.change = c.change ∧ c.abort.prepared = c.prepared := by
  unfold Context.abort
  split <;> simp

theorem Sound.abortPrepared (h : Sound past tr x c) (hp : c.prepared.isSome = true) :
    Sound (past ++ [(.abortPrepared x, .ok)]) (Lifecycle.releasedIf c.abort x tr) x c.abort := by
  obtain ⟨hopen, hready, hconsumed, hstale⟩ := abort_status c
  obtain ⟨-, h₁, h₂, h₃, h₄⟩ := abort_same c
  refine h.aborts _ (Or.inl rfl) _ h₁ h₂ h₄ hopen hready hconsumed hstale ?_ ?_ (fun _ => hp)
  · rw [h₃]; exact fun ch hch hset => ⟨ch, hch, hset⟩
  · rw [h₃]; exact fun hm => h.settled (by simpa using hm)

theorem Sound.abortOpen (h : Sound past tr x c) (ch : Change) : Sound (past ++ [(.abortChange x, .ok)])
      (Lifecycle.releasedIf { c.abort with change := some { ch with settled := true, attached := false } } x tr) x
      { c.abort with change := some { ch with settled := true, attached := false } } := by
  obtain ⟨hopen, hready, hconsumed, hstale⟩ := abort_status c
  obtain ⟨-, h₁, h₂, -, h₄⟩ := abort_same c
  refine h.aborts _ (Or.inr rfl) _ h₁ h₂ h₄ hopen hready hconsumed hstale ?_ (fun _ => ⟨_, rfl, rfl⟩) (by simp)
  rintro ch' hch' hset
  obtain rfl := some.inj hch'
  cases hset

theorem Sound.abortSettled (h : Sound past tr x c) (ch : Change) (hch : c.change = some ch) (hset : ch.settled = true)
    (c' : Context V)
    (hc' : c' = { c with status := if ch.watching ∧ c.status = .prepared then .aborted else c.status,
                         change := some { ch with watching := false } }) :
    Sound (past ++ [(.abortChange x, .ok)]) (Lifecycle.releasedIf c' x tr) x c' := by
  have hopen := h.closed ch hch hset
  have hwatch : c.status = .prepared → ch.watching = true := fun hst => h.watching (h.ready hst) hst ch hch
  have hstatus : c'.status = if c.status = .prepared then .aborted else c.status := by
    subst hc'
    by_cases hst : c.status = .prepared
    · simp [hst, hwatch hst]
    · simp [hst]
  refine h.aborts _ (Or.inr rfl) c' (by rw [hc']) (by rw [hc']) (by rw [hc']) ?_ ?_ ?_ ?_ ?_ ?_ (by simp)
  · rw [hstatus]; split <;> simp_all
  · rw [hstatus]; split <;> simp_all
  · rw [hstatus]; split <;> simp_all
  · rw [hstatus]; split <;> simp_all
  · rintro ch' hch' hset'
    rw [hc'] at hch'
    obtain rfl := some.inj hch'
    exact ⟨ch, hch, hset'⟩
  · exact fun _ => ⟨{ ch with watching := false }, by rw [hc'], hset⟩

end Changes

/-! ## Every step -/

variable (table : List (Context V))

theorem mem_register (x y : ℕ) : (y ∈ (tr.register table x).contexts → y ∈ tr.contexts ∨ y = x) ∧
      ((∃ c, table[y]? = some c ∧ c.collected = false) → y ∈ tr.contexts ∨ y = x →
        y ∈ (tr.register table x).contexts) := by
  unfold Tracker.register
  dsimp only
  split
  · dsimp only
    constructor
    · intro hy
      simpa using (mem_filter.mp hy).1
    · rintro ⟨c, hc, hcol⟩ hy
      exact mem_filter.mpr ⟨by simpa using hy, by simp [hc, hcol]⟩
  · constructor
    · intro hy
      simpa using hy
    · rintro - hy
      simpa using hy

theorem register_same (x : ℕ) :
    (tr.register table x).revision = tr.revision ∧ (tr.register table x).value = tr.value := by
  unfold Tracker.register
  dsimp only
  split <;> simp

theorem agrees_register (x y : ℕ) (hxy : y ≠ x) (d : Context V)
    (hd : table[y]? = some d) : Agrees y d tr (tr.register table x) := by
  obtain ⟨hrevision, hvalue⟩ := register_same tr table x
  obtain ⟨hadds, hkeeps⟩ := mem_register tr table x y
  exact ⟨hrevision, hvalue, fun hcol hy => hkeeps ⟨d, hd, hcol⟩ (Or.inl hy), fun hy => (hadds hy).resolve_right hxy⟩

theorem Agrees.trans {x : ℕ} {c : Context V} {tr₁ tr₂ tr₃ : Tracker V} (h : Agrees x c tr₁ tr₂)
    (h' : Agrees x c tr₂ tr₃) : Agrees x c tr₁ tr₃ :=
  ⟨h'.revision.trans h.revision, h'.value.trans h.value, fun hcol hx => h'.keeps hcol (h.keeps hcol hx),
    fun hx => h.adds (h'.adds hx)⟩

theorem Inv.create {w w' : World V} (h : Inv past w) (t : ℕ) (tr tr' : Tracker V)
    (c : Context V) (htr : w.trackers[t]? = some tr) (htable : w'.table = w.table ++ [c])
    (htrackers : ∀ t', w'.trackers[t']? = if t' = t then some tr' else w.trackers[t']?) (howner : c.owner = t)
    (s : Step V) (a : Answer) (hs : ∀ y, ¬ s.about y)
    (hag : ∀ y d, w.table[y]? = some d → Agrees y d tr tr') (hrevision : tr'.revision = tr.revision)
    (hsub : ∀ y, y ∈ tr'.contexts → y ∈ tr.contexts ∨ y = w.table.length)
    (hsound : Sound (past ++ [(s, a)]) tr' w.table.length c) : Inv (past ++ [(s, a)]) w' := by
  refine ⟨fun y d hd => ?_, ?_, fun t' tr₁ y htr₁ hy => ?_, fun t' => ?_⟩
  · rw [htable] at hd
    rcases Nat.lt_or_ge y w.table.length with hy | hy
    · rw [getElem?_append_left hy] at hd
      obtain ⟨old, hold, hsound'⟩ := h.contexts y d hd
      rw [htrackers]
      by_cases hd' : d.owner = t
      · rw [hd', htr] at hold
        obtain rfl := some.inj hold
        exact ⟨tr', by rw [if_pos hd'], hsound'.frame (hag y d hd) s a (fun hab => absurd hab (hs y))⟩
      · exact ⟨old, by rw [if_neg hd', hold], hsound'.frame (agrees_refl y d old) s a (fun hab => absurd hab (hs y))⟩
    · obtain rfl : y = w.table.length := by
        have := (List.getElem?_eq_some_iff.mp hd).1
        simp at this
        omega
      obtain rfl : c = d := by simpa using hd
      exact ⟨tr', by rw [htrackers, if_pos howner], hsound⟩
  · exact unborn_snoc h.unborn s a _ (by simp [htable]) (fun y _ hab => absurd hab (hs y))
  · have hold : ∀ old, w.trackers[t']? = some old → y ∈ old.contexts → ∃ d, w'.table[y]? = some d ∧ d.owner = t' := by
      intro old hold hyold
      obtain ⟨d, hd, hdt⟩ := h.own t' old y hold hyold
      exact ⟨d, by rw [htable, getElem?_append_left (List.getElem?_eq_some_iff.mp hd).1, hd], hdt⟩
    rw [htrackers] at htr₁
    split at htr₁
    · next ht =>
      obtain rfl := some.inj htr₁
      rcases hsub y hy with hy | rfl
      · exact hold tr (by rw [ht, htr]) hy
      · exact ⟨c, by simp [htable], by rw [howner, ht]⟩
    · exact hold tr₁ htr₁ hy
  · rw [adoptions_snoc _ _ _ _ (fun y hy => absurd rfl (hy ▸ hs y)), ← h.adopts t', htrackers]
    split
    · next ht => rw [ht, htr]; simp [hrevision]
    · rfl

theorem not_mem_unborn (h : Inv past w) (s : Step V) (a : Answer) (hs : ∀ y, ¬ s.about y) :
    ¬ Withdrawn (past ++ [(s, a)]) w.table.length ∧ ¬ Adopted (past ++ [(s, a)]) w.table.length := by
  rw [withdrawn_other (fun hab => absurd hab (hs _)), adopted_other (fun hab => absurd hab (hs _))]
  exact h.unborn _ (Nat.le_refl _)

theorem sound_opened (x t : ℕ) (tr tr' : Tracker V) (ch : Change)
    (hset : ch.settled = false) (hrevision : tr'.revision = tr.revision) (hvalue : tr'.value = tr.value)
    (hx : x ∈ tr'.contexts) (hw : ¬ Withdrawn past x) (ha : ¬ Adopted past x) :
    Sound past tr' x (createContext t tr .opened (some ch)) := by
  refine ⟨?_, ?_, ?_, fun _ _ _ _ _ => ⟨hx, rfl⟩, ?_, ?_, ?_, ?_, ?_, fun _ => ⟨ha, fun hm => hw (Or.inl hm)⟩,
    fun hm => absurd (Or.inr hm) hw, ?_, ?_, ?_, ?_⟩ <;> simp [createContext, hrevision, hvalue, hset]

theorem inv_beginChange (h : Inv past w) (t : ℕ) :
    Inv (past ++ [(.beginChange t, (beginChange w t).2)]) (beginChange w t).1 := by
  unfold beginChange
  cases htr : w.trackers[t]? with
  | none => exact h.fail _ _ (by simp)
  | some tr =>
    dsimp only
    obtain ⟨hw, ha⟩ := not_mem_unborn h (.beginChange t) .ok (by simp [Step.about])
    generalize hch : Change.mk true false false true = ch
    generalize hc : createContext t tr .opened (some ch) = c
    obtain ⟨hrevision, hvalue⟩ := register_same tr (w.table ++ [c]) w.table.length
    refine h.create t tr (tr.register (w.table ++ [c]) w.table.length) c htr rfl (fun t' => ?_) (by rw [← hc]; rfl) _ _
      (by simp [Step.about]) (fun y d hd => ?_) hrevision (fun y => (mem_register tr _ _ y).1) ?_
    · rw [World.create, getElem?_modify]
      by_cases ht : t = t'
      · subst ht; simp [htr]
      · simp [ht, Ne.symm ht]
    · have hy := (List.getElem?_eq_some_iff.mp hd).1
      exact agrees_register tr _ _ y (by omega) d (by rw [getElem?_append_left hy, hd])
    · have hmem := (mem_register tr (w.table ++ [c]) w.table.length w.table.length).2
        ⟨c, by simp, by rw [← hc]; rfl⟩ (Or.inr rfl)
      rw [← hc] at hmem hrevision hvalue ⊢
      exact sound_opened _ t tr _ ch (by rw [← hch]) hrevision hvalue hmem hw ha

theorem inv_prepareReplace (h : Inv past w) (t : ℕ) (result : Option V) :
    Inv (past ++ [(.prepareReplace t result, (prepareReplace w t result).2)]) (prepareReplace w t result).1 := by
  unfold prepareReplace
  cases htr : w.trackers[t]? with
  | none => exact h.fail _ _ (by simp)
  | some tr =>
    dsimp only
    -- Registered and released again: for the other contexts only a pruning may have happened.
    have hnew : ∀ (c c' : Context V) (a : Answer), c.owner = t → c'.owner = t → c'.overlayReleased = true →
        (∀ tr', tr'.revision = tr.revision → tr'.value = tr.value →
          Sound (past ++ [(.prepareReplace t result, a)]) tr' w.table.length c') →
        Inv (past ++ [(.prepareReplace t result, a)]) ((w.create t c).put w.table.length c') := by
      intro c c' a hc hc' hrel hsound
      obtain ⟨hrevision, hvalue⟩ := register_same tr (w.table ++ [c]) w.table.length
      refine h.create t tr ((tr.register (w.table ++ [c]) w.table.length).release w.table.length) c' htr ?_
        (fun t' => ?_) hc' _ _ (by simp [Step.about]) (fun y d hd => ?_) hrevision
        (fun y hy => (mem_register tr _ _ y).1 (mem_filter.mp hy).1) (hsound _ hrevision hvalue)
      · simp [World.put, World.create]
      · rw [trackers_put, World.create, getElem?_modify, hc']
        by_cases ht : t = t'
        · subst ht; simp [htr, releasedIf, hrel]
        · simp [ht, Ne.symm ht]
      · have hy := (List.getElem?_eq_some_iff.mp hd).1
        exact (agrees_register tr _ _ y (by omega) d (by rw [getElem?_append_left hy, hd])).trans
          (agrees_release y _ (by omega) d _)
    cases result with
    | none =>
      obtain ⟨hw, ha⟩ := not_mem_unborn h (.prepareReplace t none) (.error "thrown") (by simp [Step.about])
      refine hnew _ _ _ rfl rfl rfl (fun tr' hr hv => ?_)
      refine ⟨?_, ?_, ?_, ?_, ?_, ?_, ?_, ?_, ?_, fun _ => ⟨ha, fun hm => hw (Or.inl hm)⟩,
        fun hm => absurd (Or.inr hm) hw, ?_, ?_, ?_, ?_⟩ <;> simp [createContext, hr, hv]
    | some value =>
      obtain ⟨hw, ha⟩ := not_mem_unborn h (.prepareReplace t (some value)) .ok (by simp [Step.about])
      refine hnew _ _ _ rfl rfl rfl (fun tr' hr hv => ?_)
      refine ⟨?_, ?_, ?_, ?_, ?_, ?_, ?_, ?_, ?_, ?_, fun hm => absurd (Or.inr hm) hw, fun _ _ => ⟨hw, ha⟩, ?_, ?_, ?_⟩ <;>
        simp [createContext, hr, hv]

theorem assertWritable_none (h : c.assertWritable = none) : c.status = .opened := by
  unfold Context.assertWritable at h
  split_ifs at h with h₁ h₂
  exact not_not.mp h₂

section

variable (h : Inv past w) (x : ℕ)
include h

theorem inv_prepare (result : Option V) :
    Inv (past ++ [(.prepare x result, (prepare w x result).2)]) (prepare w x result).1 := by
  unfold prepare
  cases hc : w.table[x]? with
  | none => exact h.fail _ _ (by simp)
  | some c =>
    dsimp only
    cases hch : c.change with
    | none => exact h.fail _ _ (by simp)
    | some ch =>
      dsimp only
      by_cases hheld : ch.held = true
      swap
      · rw [if_pos (by simp [hheld])]
        exact h.fail _ _ (by simp)
      rw [if_neg (by simp [hheld])]
      by_cases hset : ch.settled = true
      · rw [if_pos hset]
        exact h.fail _ _ (by simp)
      rw [if_neg hset]
      rw [Bool.not_eq_true] at hset
      cases hw : c.assertWritable with
      | some message => exact h.fail _ _ (by simp)
      | none =>
        dsimp only
        have hopen := assertWritable_none c hw
        obtain ⟨tr, htr, -⟩ := h.contexts x c hc
        cases result with
        | none =>
          dsimp only
          refine h.put x c _ hc (by rfl) (.prepare x none) (.error "thrown") (by simp [Step.about]) (by simp)
            (fun tr' _ hold => ?_)
          have hframe := hold.frame (agrees_refl x c tr') (.prepare x none) (.error "thrown") (by simp [Step.about])
          exact hframe.thrown ch hch hset
        | some value =>
          dsimp only
          refine h.put x c _ hc (by rfl) (.prepare x (some value)) .ok (by simp [Step.about]) (by simp)
            (fun tr' htr' hold => ?_)
          have hframe := hold.frame (agrees_refl x c tr') (.prepare x (some value)) .ok (by simp [Step.about])
          have hp := hframe.prepares ch hch hset hheld hopen value
          simpa [htr', releasedIf] using hp

theorem inv_abortChange : Inv (past ++ [(.abortChange x, (abortChange w x).2)]) (abortChange w x).1 := by
  unfold abortChange
  cases hc : w.table[x]? with
  | none => exact h.fail _ _ (by simp)
  | some c =>
    dsimp only
    cases hch : c.change with
    | none => exact h.fail _ _ (by simp)
    | some ch =>
      dsimp only
      by_cases hheld : ch.held = true
      swap
      · rw [if_pos (by simp [hheld])]
        exact h.fail _ _ (by simp)
      rw [if_neg (by simp [hheld])]
      by_cases hset : ch.settled = true
      · rw [if_pos hset]
        exact h.put x c _ hc (by rfl) (.abortChange x) .ok (fun y hy => Ne.symm hy) (by simp)
          (fun tr _ hold => hold.abortSettled ch hch hset _ rfl)
      · rw [if_neg hset]
        exact h.put x c _ hc (by exact (abort_same c).1) (.abortChange x) .ok (fun y hy => Ne.symm hy) (by simp)
          (fun tr _ hold => hold.abortOpen ch)

theorem inv_abortPrepared :
    Inv (past ++ [(.abortPrepared x, (abortPrepared w x).2)]) (abortPrepared w x).1 := by
  unfold abortPrepared
  cases hc : w.table[x]? with
  | none => exact h.fail _ _ (by simp)
  | some c =>
    dsimp only
    split
    · exact h.fail _ _ (by simp)
    · next hp =>
      exact h.put x c _ hc (abort_same c).1 (.abortPrepared x) .ok (fun y hy => Ne.symm hy) (by simp)
        (fun tr _ hold => hold.abortPrepared (by simpa [isSome_iff_ne_none] using hp))

theorem inv_lose : Inv (past ++ [(.lose x, (lose w x).2)]) (lose w x).1 := by
  unfold lose
  cases hc : w.table[x]? with
  | none => exact h.fail _ _ (by simp)
  | some c =>
    refine h.retable x c _ hc (by rfl) (.lose x) .ok (by simp [Step.about]) (fun tr hold => hold.forget _ ?_ ?_)
    · intro d hd
      obtain ⟨ch, hch, rfl⟩ := map_eq_some_iff.mp hd
      exact ⟨ch, hch, rfl, rfl, by simp⟩
    · intro ch hch
      simp [hch]

theorem inv_collect : Inv (past ++ [(.collect x, (collect w x).2)]) (collect w x).1 := by
  unfold collect
  cases hc : w.table[x]? with
  | none => exact h.fail _ _ (by simp)
  | some c =>
    dsimp only
    split
    · exact h.fail _ _ (by simp)
    · next hp =>
      refine h.retable x c _ hc (by rfl) (.collect x) .ok (by simp [Step.about]) (fun tr hold => hold.collect ?_)
      intro ch hch
      simp [hch] at hp
      exact hp.2

end

/-! ## Adoption -/

theorem adopt_cases [DecidableEq V] (w : World V) (t x : ℕ) : (∃ a, a ≠ .ok ∧ adopt w t x = (w, a)) ∨
      ∃ tr c pr, w.trackers[t]? = some tr ∧ w.table[x]? = some c ∧ c.prepared = some pr ∧ c.owner = t ∧
        c.status = .prepared ∧
        ((c.baseRevision ≠ tr.revision ∧
            adopt w t x = (w.put x { c with status := .stale, overlayReleased := true },
              .error "Prepared change is stale")) ∨
          (c.baseRevision = tr.revision ∧ tr.value ≠ pr.base ∧
            adopt w t x = (w.put x { c with status := .stale }, .error "Prepared change is stale")) ∨
          (c.baseRevision = tr.revision ∧ tr.value = pr.base ∧ adopt w t x =
              ({ trackers := (w.put x { c with status := .consumed }).trackers.set t
                   { value := pr.value, revision := tr.revision + 1, contexts := [], pruneBudget := prunePeriod },
                 table := (w.put x { c with status := .consumed }).invalidate tr.contexts x }, .ok))) := by
  unfold adopt
  cases htr : w.trackers[t]? with
  | none => exact Or.inl ⟨_, by simp, rfl⟩
  | some tr =>
    dsimp only
    cases hc : w.table[x]? with
    | none => exact Or.inl ⟨_, by simp, rfl⟩
    | some c =>
      dsimp only
      cases hp : c.prepared with
      | none => exact Or.inl ⟨_, by simp, rfl⟩
      | some pr =>
        dsimp only
        split_ifs with h₁ h₂ h₃ h₄ h₅ h₆ h₇
        · exact Or.inl ⟨_, by simp, rfl⟩
        · exact Or.inl ⟨_, by simp, rfl⟩
        · exact Or.inl ⟨_, by simp, rfl⟩
        · exact Or.inl ⟨_, by simp, rfl⟩
        · exact Or.inl ⟨_, by simp, rfl⟩
        · exact Or.inr ⟨tr, c, pr, rfl, rfl, hp, not_not.mp h₁, not_not.mp h₅, Or.inl ⟨h₆, by rw [hp]⟩⟩
        · exact Or.inr ⟨tr, c, pr, rfl, rfl, hp, not_not.mp h₁, not_not.mp h₅,
            Or.inr (Or.inl ⟨not_not.mp h₆, h₇, by rw [hp]⟩)⟩
        · exact Or.inr ⟨tr, c, pr, rfl, rfl, hp, not_not.mp h₁, not_not.mp h₅,
            Or.inr (Or.inr ⟨not_not.mp h₆, not_not.mp h₇, by rw [hp]⟩)⟩

section Adoption

variable {past : List (Step V × Answer)} {tr : Tracker V} {x : ℕ} {c : Context V}

theorem Sound.wins (h : Sound past tr x c) (hst : c.status = .prepared) (tr' : Tracker V)
    (hrevision : tr'.revision = tr.revision + 1) (t : ℕ) :
    Sound (past ++ [(.adopt t x, .ok)]) tr' x { c with status := .consumed } := by
  obtain ⟨pr, hpr⟩ := isSome_iff_exists.mp (h.ready hst)
  have hle := h.revision_le
  refine ⟨by simp [hrevision]; omega, fun he => ?_, by simp, by simp, h.unprepared, by simp, by simp, ?_, by simp, ?_,
    fun hm => h.settled (by simpa using hm), by simp, fun _ => adopted_snoc.mpr (Or.inr ⟨⟨t, rfl⟩, rfl⟩), by simp,
    by simp⟩
  · simp only [hrevision] at he
    omega
  · intro pr hpr
    exact ⟨(h.prepared pr hpr).1, (h.prepared pr hpr).2.1, by simp⟩
  · intro hn
    rw [hpr] at hn
    cases hn

theorem invalidate_status (c : Context V) : c.invalidate.status ≠ .opened ∧ c.invalidate.status ≠ .prepared ∧
      (c.invalidate.status = .consumed → c.status = .consumed) ∧
      (c.invalidate.status = .aborted → c.status = .aborted) := by
  unfold Context.invalidate
  dsimp only
  split
  · simp
  · next hs =>
    rw [not_or] at hs
    exact ⟨hs.1, hs.2, id, id⟩

section

variable (h : Sound past tr x c) (tr' : Tracker V) (hrevision : tr'.revision = tr.revision + 1)
include h hrevision

theorem Sound.passed (hcontexts : tr'.contexts = []) (s : Step V) (hs : ¬ s.about x)
    (hopen : ∀ ch, c.change = some ch → ch.settled = false → ch.held = true → c.status ≠ .opened) :
    Sound (past ++ [(s, .ok)]) tr' x c := by
  have hle := h.revision_le
  have hf := h.frame (agrees_refl x c tr) s .ok (fun hab => absurd hab hs)
  refine ⟨by omega, fun he => by omega, by simp [hcontexts], fun ch hch hset hheld ho => ?_, hf.unprepared, hf.closed,
    hf.ready, hf.prepared, hf.watching, hf.untouched, hf.settled, hf.standing, hf.consumed, hf.aborted,
    fun _ _ => by omega⟩
  exact absurd ho (hopen ch hch hset hheld)

theorem Sound.invalidated (s : Step V) (hs : ¬ s.about x) : Sound (past ++ [(s, .ok)]) tr' x c.invalidate := by
  have hle := h.revision_le
  have hf := h.frame (agrees_refl x c tr) s .ok (fun hab => absurd hab hs)
  obtain ⟨hopen, hready, hconsumed, haborted⟩ := invalidate_status c
  have hrev : c.invalidate.baseRevision = c.baseRevision := rfl
  refine ⟨by omega, fun he => by omega, fun _ ho => absurd ho hopen, fun _ _ _ _ ho => absurd ho hopen, hf.unprepared,
    fun _ _ _ => hopen, fun hst => absurd hst hready, fun pr hpr => ?_, fun _ hst => absurd hst hready, hf.untouched,
    hf.settled, fun _ hst => absurd hst hready, fun hst => hf.consumed (hconsumed hst),
    fun hp hst => hf.aborted hp (haborted hst), fun _ _ => by omega⟩
  exact ⟨(hf.prepared pr hpr).1, (hf.prepared pr hpr).2.1, hopen⟩

end

end Adoption

theorem getElem?_invalidate (w : World V) (contexts : List ℕ) (winner y : ℕ) : (w.invalidate contexts winner)[y]? =
      (w.table[y]?).map (fun c => if y ∈ contexts ∧ y ≠ winner ∧ c.collected = false then c.invalidate else c) := by
  rw [World.invalidate, getElem?_mapIdx]

theorem inv_adopted {w w' : World V} (h : Inv past w) (t x : ℕ) (tr tr' : Tracker V)
    (c : Context V) (htr : w.trackers[t]? = some tr) (hc : w.table[x]? = some c) (howner : c.owner = t)
    (hst : c.status = .prepared) (hrevision : tr'.revision = tr.revision + 1) (hcontexts : tr'.contexts = [])
    (htrackers : ∀ t', w'.trackers[t']? =
      if t' = t then some tr' else (w.trackers[t']?).map (fun old => if t' = c.owner then old.release x else old))
    (htable : ∀ y, w'.table[y]? = if y = x then some { c with status := .consumed } else
      (w.table[y]?).map (fun d => if y ∈ tr.contexts ∧ d.collected = false then d.invalidate else d)) :
    Inv (past ++ [(.adopt t x, .ok)]) w' := by
  have htrackers' : ∀ t', t' ≠ t → w'.trackers[t']? = w.trackers[t']? := by
    intro t' ht
    rw [htrackers, if_neg ht]
    simp [howner, ht]
  refine ⟨fun y d hd => ?_, fun y hy => ?_, fun t' tr₁ y htr₁ hy => ?_, fun t' => ?_⟩
  · rw [htable] at hd
    split at hd
    · next hy =>
      subst hy
      obtain rfl := some.inj hd
      obtain ⟨old, hold, hsound⟩ := h.contexts y c hc
      rw [howner, htr] at hold
      obtain rfl := some.inj hold
      exact ⟨tr', by rw [htrackers, if_pos howner], hsound.wins hst tr' hrevision t⟩
    · next hy =>
      obtain ⟨c₀, hc₀, rfl⟩ := map_eq_some_iff.mp hd
      obtain ⟨old, hold, hsound⟩ := h.contexts y c₀ hc₀
      have hab : ¬ (Step.adopt t x : Step V).about y := fun hab => hy hab.symm
      by_cases howner' : c₀.owner = t
      · rw [howner', htr] at hold
        obtain rfl := some.inj hold
        split
        · exact ⟨tr', by rw [htrackers, if_pos (by exact howner')], hsound.invalidated tr' hrevision _ hab⟩
        · next hcond =>
          refine ⟨tr', by rw [htrackers, if_pos howner'], ?_⟩
          exact hsound.passed tr' hrevision hcontexts _ hab
            (fun ch hch hset hheld ho => hcond (hsound.registered ch hch hset hheld ho))
      · have hcond : ¬ (y ∈ tr.contexts ∧ c₀.collected = false) := by
          rintro ⟨hmem, -⟩
          obtain ⟨d, hd, hdt⟩ := h.own t tr y htr hmem
          rw [hc₀] at hd
          obtain rfl := some.inj hd
          exact howner' hdt
        rw [if_neg hcond]
        refine ⟨old, by rw [htrackers' _ howner', hold], ?_⟩
        exact hsound.frame (agrees_refl y c₀ old) _ _ (fun h' => absurd h' hab)
  · have hx := (List.getElem?_eq_some_iff.mp hc).1
    have hyx : y ≠ x ∧ w.table.length ≤ y := by
      have hnone : w'.table[y]? = none := getElem?_eq_none hy
      rw [htable] at hnone
      split at hnone
      · cases hnone
      · next hyx => exact ⟨hyx, by simpa using hnone⟩
    have hab : (Step.adopt t x : Step V).about y → Answer.ok ≠ .ok := fun hab => absurd hab.symm hyx.1
    rw [withdrawn_other hab, adopted_other hab]
    exact h.unborn y hyx.2
  · by_cases ht : t' = t
    · rw [htrackers, if_pos ht] at htr₁
      obtain rfl := some.inj htr₁
      rw [hcontexts] at hy
      cases hy
    · rw [htrackers' t' ht] at htr₁
      obtain ⟨d, hd, hdt⟩ := h.own t' tr₁ y htr₁ hy
      rw [htable]
      split
      · next hyx =>
        rw [hyx, hc] at hd
        obtain rfl := some.inj hd
        exact ⟨_, rfl, hdt⟩
      · refine ⟨if y ∈ tr.contexts ∧ d.collected = false then d.invalidate else d, by rw [hd]; rfl, ?_⟩
        split <;> exact hdt
  · have hcount : adoptions (past ++ [(.adopt t x, .ok)]) t' = adoptions past t' + if t = t' then 1 else 0 := by
      simp [adoptions, countP_append, countP_cons, isAdopt]
    rw [hcount, ← h.adopts t']
    by_cases ht : t' = t
    · rw [htrackers, if_pos ht, ht, htr]
      simp [hrevision]
    · rw [htrackers' t' ht, if_neg (Ne.symm ht)]
      rfl

theorem inv_adopt [DecidableEq V] {past : List (Step V × Answer)} {w : World V} (h : Inv past w) (t x : ℕ) :
    Inv (past ++ [(.adopt t x, (adopt w t x).2)]) (adopt w t x).1 := by
  rcases adopt_cases w t x with ⟨a, ha, heq⟩ | ⟨tr, c, pr, htr, hc, hpr, howner, hst, hcase⟩
  · rw [heq]
    exact h.fail _ a ha
  rcases hcase with ⟨hne, heq⟩ | ⟨he, hbase, heq⟩ | ⟨he, hbase, heq⟩
  · rw [heq]
    refine h.put x c _ hc (by rfl) _ _ (fun y hy => Ne.symm hy) (by simp) (fun tr' htr' hold => ?_)
    rw [howner, htr] at htr'
    obtain rfl := some.inj htr'
    exact (hold.frame (agrees_refl x c tr) _ _ (by simp)).goesStale hne
  · -- The second check never fails: at one revision there is one value.
    obtain ⟨tr', htr', hsound⟩ := h.contexts x c hc
    rw [howner, htr] at htr'
    obtain rfl := some.inj htr'
    exact absurd (((hsound.prepared pr hpr).1.trans (hsound.base he)).symm) hbase
  · rw [heq]
    have hlen : t < (w.put x { c with status := .consumed }).trackers.length := by
      have ht := (List.getElem?_eq_some_iff.mp htr).1
      unfold World.put
      dsimp only
      split <;> simpa using ht
    refine inv_adopted h t x tr
      { value := pr.value, revision := tr.revision + 1, contexts := [], pruneBudget := prunePeriod } c htr hc howner hst
      rfl rfl (fun t' => ?_) (fun y => ?_)
    · dsimp only
      rw [getElem?_set]
      by_cases ht : t = t'
      · rw [if_pos ht, if_pos hlen, if_pos ht.symm]
      · rw [if_neg ht, if_neg (Ne.symm ht), trackers_put]
        refine congrArg (fun f => (w.trackers[t']?).map f) (funext fun old => ?_)
        rw [if_neg (by rw [howner]; exact Ne.symm ht), if_neg (by rw [howner]; exact Ne.symm ht)]
    · dsimp only
      rw [getElem?_invalidate, World.put, getElem?_set]
      by_cases hy : y = x
      · subst hy
        simp [(List.getElem?_eq_some_iff.mp hc).1]
      · simp [hy, Ne.symm hy]

end PiAgent.Delta.Lifecycle
