import PiAgent.Harness.SchedulerTracks

/-! # What a commit does to the scheduler -/

namespace PiAgent.Harness

open Option List Durable

namespace Scheduler

/-! ## One published task -/

structure Tracks (s : Scheduler) (r : TaskRecord) (s' : Scheduler) : Prop where
  rest : s' = { s with own := s.own.track s.store.count r, intent := s'.intent, runnable := s'.runnable
                       finalizeChecks := s'.finalizeChecks, waiters := s'.waiters
                       failedMigrations := s'.failedMigrations, failFastChecks := s'.failFastChecks
                       reconcileScheduled := s'.reconcileScheduled, cascadePending := s'.cascadePending }
  intent : ∀ j, j ∈ s'.intent ↔ (j = r.id ∧ cancellationIntent r = true) ∨ (j ≠ r.id ∧ j ∈ s.intent)
  waiters : ∀ m j, j ∈ s'.waiters m ↔ (j = r.id ∧ isTerminal r = false ∧ m ∈ waitsFor r) ∨
    (j ∈ s.waiters m ∧ ¬(j = r.id ∧ m ∈ (s.own.live r.id).elim [] waitsFor))
  nodup : s.runnable.Nodup → s'.runnable.Nodup
  runnable : ∀ j ∈ s.runnable, j ≠ r.id → j ∈ s'.runnable
  self : isTerminal r = false → isCompleting r = false → r.id ∈ s'.runnable
  checks : ∀ j ∈ s.finalizeChecks, (j = r.id → isTerminal r = false) → j ∈ s'.finalizeChecks
  held : isCompleting r = true → r.id ∈ s'.finalizeChecks
  freed : isTerminal r = true → ∀ above,
    (s.own.retire r).nearestLiveAbove Overlay.empty s.store.count (nodeOf r) = some above →
      (isCompleting above = true → above.id ∈ s'.finalizeChecks) ∧
      (isCompleting above = false → above.abortRequested = true → above.id ∈ s'.runnable)
  woken : isTerminal r = true → ∀ j ∈ s.waiters r.id, j ≠ r.id → j ∈ s'.runnable

variable {r : TaskRecord}

theorem cancellationIntent_terminal (h : isTerminal r = true) : cancellationIntent r = false := by
  simp [cancellationIntent, h]

theorem not_completing_of_terminal (h : isTerminal r = true) : isCompleting r = false := by
  unfold isTerminal at h
  unfold isCompleting
  cases hs : r.state.status <;> simp [hs] at h ⊢

variable (s : Scheduler) (r : TaskRecord)

theorem release_sets : ∃ runnable checks, s.release r = { s with runnable := runnable, finalizeChecks := checks } ∧
      (∀ j ∈ s.runnable, j ∈ runnable) ∧ (s.runnable.Nodup → runnable.Nodup) ∧ (∀ j ∈ s.finalizeChecks, j ∈ checks) ∧
      ∀ above, s.own.nearestLiveAbove Overlay.empty s.store.count (nodeOf r) = some above →
        (isCompleting above = true → above.id ∈ checks) ∧
        (isCompleting above = false → above.abortRequested = true → above.id ∈ runnable) := by
  unfold release
  split
  · rename_i hnone
    exact ⟨_, _, rfl, fun _ h => h, fun h => h, fun _ h => h, by simp [hnone]⟩
  · rename_i above habove
    have hsame : ∀ a, s.own.nearestLiveAbove Overlay.empty s.store.count (nodeOf r) = some a → above = a := by
      intro a ha
      rw [habove] at ha
      exact some.inj ha
    split
    · rename_i hc
      refine ⟨s.runnable, add s.finalizeChecks above.id, rfl, fun _ h => h, fun h => h,
        fun j hj => (mem_add _ _ _).mpr (Or.inr hj), ?_⟩
      intro a ha
      obtain rfl := hsame a ha
      exact ⟨fun _ => (mem_add _ _ _).mpr (Or.inl rfl), by simp [hc]⟩
    · rename_i hc
      split
      · refine ⟨add s.runnable above.id, s.finalizeChecks, rfl, fun j hj => (mem_add _ _ _).mpr (Or.inr hj),
          nodup_add _ _, fun _ h => h, ?_⟩
        intro a ha
        obtain rfl := hsame a ha
        exact ⟨by simp [hc], fun _ _ => (mem_add _ _ _).mpr (Or.inl rfl)⟩
      · rename_i hm
        refine ⟨_, _, rfl, fun _ h => h, fun h => h, fun _ h => h, ?_⟩
        intro a ha
        obtain rfl := hsame a ha
        exact ⟨by simp [hc], fun _ hm' => absurd hm' hm⟩

theorem track_tracks : Tracks s r (s.track r) := by
  have hwaiters : ∀ m j, j ∈ ((s.own.live r.id).elim [] waitsFor).foldl (fun waiters on => deleteFrom waiters on r.id)
      s.waiters m ↔ j ∈ s.waiters m ∧ ¬(j = r.id ∧ m ∈ (s.own.live r.id).elim [] waitsFor) := by
    intro m j
    rw [mem_foldl_deleteFrom]
    tauto
  unfold track
  dsimp only
  split
  · rename_i ht
    obtain ⟨runnable, checks, hrelease, hrun, hnodup, hchecks, habove⟩ := release_sets
      { s with waiters := ((s.own.live r.id).elim [] waitsFor).foldl (fun waiters on => deleteFrom waiters on r.id) s.waiters
               intent := discard s.intent r.id, runnable := discard s.runnable r.id
               finalizeChecks := discard s.finalizeChecks r.id, own := s.own.retire r } r
    rw [hrelease]
    refine ⟨rfl, ?_, ?_, ?_, ?_, by simp [ht], ?_, by simp [not_completing_of_terminal ht], ?_, ?_⟩
    · intro j
      simp only [mem_discard, cancellationIntent_terminal ht]
      tauto
    · intro m j
      dsimp only
      rw [hwaiters]
      simp [ht]
    · intro hn
      exact nodup_foldl_add _ _ (hnodup (nodup_discard _ _ hn))
    · intro j hj hne
      exact (mem_foldl_add _ _ _).mpr (Or.inr (hrun j ((mem_discard _ _ _).mpr ⟨hj, hne⟩)))
    · intro j hj hself
      refine hchecks j ((mem_discard _ _ _).mpr ⟨hj, ?_⟩)
      rintro rfl
      simp [hself rfl] at ht
    · intro _ above ha
      obtain ⟨hc, hm⟩ := habove above ha
      exact ⟨hc, fun h1 h2 => (mem_foldl_add _ _ _).mpr (Or.inr (hm h1 h2))⟩
    · intro _ j hj hne
      refine (mem_foldl_add _ _ _).mpr (Or.inl ?_)
      rw [hwaiters]
      exact ⟨hj, fun h => hne h.1⟩
  · rename_i ht
    rw [Bool.not_eq_true] at ht
    have hintent : ∀ j, j ∈ (if cancellationIntent r then add s.intent r.id else discard s.intent r.id) ↔
        (j = r.id ∧ cancellationIntent r = true) ∨ (j ≠ r.id ∧ j ∈ s.intent) := by
      intro j
      split
      · rename_i hi
        rw [mem_add]
        by_cases hj : j = r.id <;> simp [hj, hi]
      · rename_i hi
        rw [mem_discard]
        tauto
    have hadd : ∀ m j, j ∈ (waitsFor r).foldl (fun waiters on => addTo waiters on r.id)
        (((s.own.live r.id).elim [] waitsFor).foldl (fun waiters on => deleteFrom waiters on r.id) s.waiters) m ↔
          (j = r.id ∧ isTerminal r = false ∧ m ∈ waitsFor r) ∨
            (j ∈ s.waiters m ∧ ¬(j = r.id ∧ m ∈ (s.own.live r.id).elim [] waitsFor)) := by
      intro m j
      rw [mem_foldl_addTo, hwaiters]
      tauto
    split
    · rename_i hc
      refine ⟨rfl, hintent, hadd, nodup_discard _ _, ?_, by simp [hc], ?_, fun _ => (mem_add _ _ _).mpr (Or.inl rfl),
        by simp [ht], by simp [ht]⟩
      · exact fun j hj hne => (mem_discard _ _ _).mpr ⟨hj, hne⟩
      · exact fun j hj _ => (mem_add _ _ _).mpr (Or.inr hj)
    · rename_i hc
      refine ⟨rfl, hintent, hadd, nodup_add _ _, ?_, fun _ _ => (mem_add _ _ _).mpr (Or.inl rfl), fun j hj _ => hj, ?_,
        by simp [ht], by simp [ht]⟩
      · exact fun j hj _ => (mem_add _ _ _).mpr (Or.inr hj)
      · intro h
        exact absurd h hc

variable {s s' : Scheduler}

theorem Tracks.flagged {r : TaskRecord} (h : Tracks s r s') (migrations : Id → Option ℕ)
    (failFast : List Id) (scheduled cascade : Bool) :
    Tracks s r { s' with failedMigrations := migrations, failFastChecks := failFast, reconcileScheduled := scheduled
                         cascadePending := cascade } :=
  ⟨congrArg (fun t : Scheduler => { t with failedMigrations := migrations, failFastChecks := failFast
                                           reconcileScheduled := scheduled, cascadePending := cascade }) h.rest,
    h.intent, h.waiters, h.nodup, h.runnable, h.self, h.checks, h.held, h.freed, h.woken⟩

variable (s : Scheduler)

theorem track_flags (r : TaskRecord) :
    (s.track r).reconcileScheduled = s.reconcileScheduled ∧ (s.track r).cascadePending = s.cascadePending ∧
      (s.track r).failedMigrations = s.failedMigrations := by
  unfold track
  dsimp only
  split
  · obtain ⟨runnable, checks, hrelease, -⟩ := release_sets
      { s with waiters := ((s.own.live r.id).elim [] waitsFor).foldl (fun waiters on => deleteFrom waiters on r.id)
                 s.waiters
               intent := discard s.intent r.id, runnable := discard s.runnable r.id
               finalizeChecks := discard s.finalizeChecks r.id, own := s.own.retire r } r
    rw [hrelease]
    exact ⟨rfl, rfl, rfl⟩
  · split <;> exact ⟨rfl, rfl, rfl⟩

structure Flags (s : Scheduler) (r : TaskRecord) (s' : Scheduler) : Prop where
  scheduled : s.reconcileScheduled = true → s'.reconcileScheduled = true
  cascade : s.cascadePending = true → s'.cascadePending = true
  ended : isTerminal r = true → s'.reconcileScheduled = true
  held : isCompleting r = true → (s.own.live r.id).any isCompleting = false → s'.reconcileScheduled = true
  marked : isTerminal r = false → r.abortRequested = true → (s.own.live r.id).any TaskRecord.abortRequested = false →
    s'.cascadePending = true
  upgraded : isTerminal r = false → (s.own.live r.id).any TaskRecord.restart = true → r.restart = false →
    s'.cascadePending = true
  intent : isCompleting r = true → (s.own.live r.id).any isCompleting = false → cancellationIntent r = true →
    s'.cascadePending = true

theorem observeTask_spec (failed : List Id) (updated : List TaskRecord) (r : TaskRecord) :
    Tracks s r (observeTask (s, failed, updated) r).1 ∧ Flags s r (observeTask (s, failed, updated) r).1 ∧
      (isTerminal r = false → s.own.live r.id = none → r ∈ (observeTask (s, failed, updated) r).2.2) ∧
      ∀ u ∈ updated, u ∈ (observeTask (s, failed, updated) r).2.2 := by
  have ht := track_tracks s r
  obtain ⟨hscheduled, hcascade, -⟩ := track_flags s r
  unfold observeTask
  dsimp only
  split
  · rename_i hterminal
    refine ⟨ht.flagged _ _ true _, ⟨fun _ => rfl, ?_, fun _ => rfl, fun _ _ => rfl, ?_, ?_, ?_⟩, ?_, fun _ hu => hu⟩
    · intro hc
      exact hcascade.trans hc
    · simp [hterminal]
    · simp [hterminal]
    · simp [not_completing_of_terminal hterminal]
    · simp [hterminal]
  · rename_i hterminal
    have hnone : isTerminal r = false → s.own.live r.id = none →
        r ∈ (if (s.own.live r.id).isNone then updated ++ [r] else updated) := by
      intro _ hl
      simp [hl]
    have hsub : ∀ u ∈ updated, u ∈ (if (s.own.live r.id).isNone then updated ++ [r] else updated) := by
      intro u hu
      split
      · exact mem_append_left _ hu
      · exact hu
    -- the two flags, whatever the record asks for besides
    have hflags : ∀ (scheduled : Bool) (failFast : List Id), (s.reconcileScheduled = true → scheduled = true) →
        ((isCompleting r && !(s.own.live r.id).any isCompleting) = true → scheduled = true) →
        let s' := { s.track r with
          failFastChecks := failFast, reconcileScheduled := scheduled
          cascadePending := (s.track r).cascadePending ||
            (r.abortRequested && !(s.own.live r.id).any TaskRecord.abortRequested) ||
            ((s.own.live r.id).any TaskRecord.restart && !r.restart) ||
            ((isCompleting r && !(s.own.live r.id).any isCompleting) && cancellationIntent r) }
        Tracks s r s' ∧ Flags s r s' := by
      intro scheduled failFast hs hh
      refine ⟨ht.flagged _ failFast scheduled _, ⟨hs, ?_, by simp [hterminal], ?_, ?_, ?_, ?_⟩⟩
      · intro hc
        simp [hcascade, hc]
      · intro hc hl
        exact hh (by simp [hc, hl])
      · intro _ hm hl
        simp [hm, hl]
      · intro _ hl hr
        simp [hl, hr]
      · intro hc hl hi
        simp [hc, hl, hi]
    by_cases hff : (isFailFast r && !(s.own.live r.id).any isWaiting) = true
    · obtain ⟨h1, h2⟩ := hflags true (add (s.track r).failFastChecks r.id) (fun _ => rfl) (fun _ => rfl)
      by_cases hheld : (isCompleting r && !(s.own.live r.id).any isCompleting) = true
      · rw [if_pos hff, if_pos hheld]
        exact ⟨h1, h2, hnone, hsub⟩
      · rw [if_pos hff, if_neg hheld]
        exact ⟨h1, h2, hnone, hsub⟩
    · by_cases hheld : (isCompleting r && !(s.own.live r.id).any isCompleting) = true
      · obtain ⟨h1, h2⟩ := hflags true (s.track r).failFastChecks (fun _ => rfl) (fun _ => rfl)
        rw [if_neg hff, if_pos hheld]
        exact ⟨h1, h2, hnone, hsub⟩
      · obtain ⟨h1, h2⟩ := hflags (s.track r).reconcileScheduled (s.track r).failFastChecks
          (fun h => hscheduled.trans h) (fun h => absurd h hheld)
        rw [if_neg hff, if_neg hheld]
        exact ⟨h1, h2, hnone, hsub⟩

/-! ## The rest of the listener -/

structure Later (s s' : Scheduler) : Prop where
  rest : s' = { s with failFastChecks := s'.failFastChecks, reconcileScheduled := s'.reconcileScheduled
                       cascadePending := s'.cascadePending }
  scheduled : s.reconcileScheduled = true → s'.reconcileScheduled = true
  cascade : s.cascadePending = true → s'.cascadePending = true

theorem Later.refl : Later s s := ⟨rfl, fun h => h, fun h => h⟩

theorem Later.trans {s s' s'' : Scheduler} (h : Later s s') (h' : Later s' s'') : Later s s'' := by
  refine ⟨?_, fun hs => h'.scheduled (h.scheduled hs), fun hc => h'.cascade (h.cascade hc)⟩
  have h2 := h'.rest
  rw [h.rest] at h2
  exact h2

theorem Later.foldl {α : Type} (f : Scheduler → α → Scheduler) (hf : ∀ s a, Later s (f s a)) (l : List α) (s : Scheduler) :
    Later s (l.foldl f s) := by
  induction l generalizing s with
  | nil => exact Later.refl s
  | cons a l ih => exact (hf s a).trans (ih _)

theorem observeFailed_later (id : Id) : Later s (s.observeFailed id) := by
  unfold observeFailed
  refine Later.foldl _ ?_ _ s
  intro t a
  split
  · exact ⟨rfl, fun _ => rfl, fun h => h⟩
  · exact Later.refl t

theorem observeInput_later (c : Id) : Later s (s.observeInput c) := by
  unfold observeInput
  split
  · exact Later.refl s
  · split
    · exact ⟨rfl, fun h => h, fun _ => rfl⟩
    · exact Later.refl s

theorem observeNew_later (r : TaskRecord) : Later s (s.observeNew r) := by
  unfold observeNew
  split
  · exact ⟨rfl, fun _ => rfl, fun h => h⟩
  · split
    · exact ⟨rfl, fun h => h, fun _ => rfl⟩
    · exact Later.refl s

variable {s s' : Scheduler}

theorem Later.own (h : Later s s') : s'.own = s.own := by rw [h.rest]

theorem Later.below (h : Later s s') (n : Node) : s'.belowCancelled n = s.belowCancelled n := by
  have hintent : s'.intent = s.intent := by rw [h.rest]
  have hstore : s'.store = s.store := by rw [h.rest]
  simp only [belowCancelled, cancellingOwner, hintent, hstore, h.own]

theorem observeNew_flag (updated : List TaskRecord) (h : Later s s') (r : TaskRecord) (hr : r ∈ updated) :
    (r.id ∈ s.own.unloaded → (updated.foldl observeNew s').reconcileScheduled = true) ∧
      (r.id ∉ s.own.unloaded → r.background = false → r.abortRequested = false → s.belowCancelled (parentOf r) = true →
        (updated.foldl observeNew s').cascadePending = true) := by
  induction updated generalizing s' with
  | nil => simp at hr
  | cons u updated ih =>
    rw [foldl_cons]
    rcases mem_cons.mp hr with rfl | hr
    · have hlater := Later.foldl observeNew observeNew_later updated (s'.observeNew r)
      refine ⟨fun hu => hlater.scheduled ?_, fun hu hb hm hc => hlater.cascade ?_⟩
      · unfold observeNew
        rw [h.own, if_pos hu]
        rfl
      · unfold observeNew
        rw [h.own, if_neg hu, h.below, hb, hm, hc]
        rfl
    · exact ih (h.trans (observeNew_later s' u)) hr

/-! ## A whole publication -/

theorem Planned.tracking {s : Scheduler} {tx : Tx} (hp : Planned s tx) (h : Tracked s.store s.own)
    {changes : List Ownership.Change} (hc : tx.assemble = some changes) :
    let own := changes.foldl (fun x change => x.trackEdge tx.candidate.count change) s.own
    Ownership.Tracking tx.candidate own tx.stagedTasks ∧ own.live = s.own.live ∧
      changes.filterMap changedTask = tx.stagedTasks ∧ (s.own.unloaded = [] → own.unloaded = []) := by
  have hst := hp.staged
  obtain ⟨huntracked, hl, hu, hgrows, hchanges⟩ :=
    Ownership.trackEdges_untracked hst (hp.store.symm ▸ h.sound) (hp.store.symm ▸ h.mirrors) hc
  refine ⟨⟨huntracked, ?_, ?_⟩, hl, ?_, fun he => hu.trans he⟩
  · obtain ⟨rank, hg⟩ := h.grounded
    intro id r hr
    rw [hl] at hr
    exact (h.mirrors.liveOnly hg) id r hr
  · intro value hvalue hterm
    obtain ⟨w, hw, rfl⟩ := mem_map.mp hvalue
    have hwrite := Tx.mem_writes hst w hw
    obtain ⟨hu, -⟩ := hp.ended _ w hwrite hterm
    cases hk : w.kind with
    | create => simp [isTerminal, (hst.created _ w hwrite hk).2.1] at hterm
    | replace =>
      obtain ⟨old, hold, -⟩ := hp.replaced _ w hwrite hk
      refine Ownership.Loaded.mono hgrows (h.sound.chains _ ?_)
      simp [Ownership.knownTask, Ownership.node, hold, hu]
  · rw [hchanges, filterMap_append]
    simp [filterMap_map, Function.comp_def, changedTask]

structure Published (s : Scheduler) (tx : Tx) (mid s' : Scheduler) : Prop where
  tracking : Ownership.Tracking tx.candidate mid.own []
  store : mid.store = tx.candidate
  rest : s' = { mid with own := mid.own.sweep, failFastChecks := s'.failFastChecks
                         reconcileScheduled := s'.reconcileScheduled, cascadePending := s'.cascadePending
                         dirty := s'.dirty, draining := s'.draining }
  scheduled : mid.reconcileScheduled = true → s'.reconcileScheduled = true
  cascade : mid.cascadePending = true → s'.reconcileScheduled = true
  flagged : s'.cascadePending = true → s'.reconcileScheduled = true
  created : ∀ r ∈ tx.stagedTasks, isTerminal r = false → s.own.live r.id = none →
    (r.id ∈ mid.own.unloaded → s'.reconcileScheduled = true) ∧
    (r.id ∉ mid.own.unloaded → r.background = false → r.abortRequested = false →
      mid.belowCancelled (parentOf r) = true → s'.reconcileScheduled = true)
  kicked : tx.writes ≠ [] → s'.dirty = true ∧ (s'.enabled = true → s'.draining = true)
  still : tx.writes = [] → s'.dirty = mid.dirty ∧ s'.draining = mid.draining

theorem observeTasks_induction {store : Store} {rank : Node → ℕ} (hg : store.Grounded rank)
    {P : Scheduler → List TaskRecord → Prop}
    (step : ∀ t r rest, Ownership.Tracking t.store t.own (r :: rest) → t.store = store → P t (r :: rest) →
      ∀ t', Tracks t r t' → Flags t r t' → P t' rest)
    (rest : List TaskRecord) (s : Scheduler) (failed : List Id) (updated : List TaskRecord)
    (ht : Ownership.Tracking s.store s.own rest) (hs : s.store = store) (hp : P s rest) :
    let mid := rest.foldl observeTask (s, failed, updated)
    P mid.1 [] ∧ Ownership.Tracking mid.1.store mid.1.own [] ∧ mid.1.store = store ∧
      mid.1.dirty = s.dirty ∧ mid.1.draining = s.draining ∧
      (∀ r ∈ rest, isTerminal r = false → s.own.live r.id = none → r ∈ mid.2.2) ∧ ∀ u ∈ updated, u ∈ mid.2.2 := by
  induction rest generalizing s failed updated with
  | nil => exact ⟨hp, ht, hs, rfl, rfl, by simp, fun _ hu => hu⟩
  | cons r rest ih =>
    obtain ⟨h1, h2, h3, h4⟩ := observeTask_spec s failed updated r
    have hown : (observeTask (s, failed, updated) r).1.own = s.own.track s.store.count r := by rw [h1.rest]
    have hst : (observeTask (s, failed, updated) r).1.store = s.store := by rw [h1.rest]
    have hdirty : (observeTask (s, failed, updated) r).1.dirty = s.dirty := by rw [h1.rest]
    have hdraining : (observeTask (s, failed, updated) r).1.draining = s.draining := by rw [h1.rest]
    have hg' : s.store.Grounded rank := hs ▸ hg
    have htrack := ht.step hg'
    obtain ⟨g1, g2, g3, g4, g5, g6, g7⟩ := ih _ (observeTask (s, failed, updated) r).2.1
      (observeTask (s, failed, updated) r).2.2 (by rw [hst, hown]; exact htrack) (hst.trans hs)
      (step s r rest ht hs hp _ h1 h2)
    rw [foldl_cons]
    refine ⟨g1, g2, g3, g4.trans hdirty, g5.trans hdraining, ?_, fun u hu => g7 u (h4 u hu)⟩
    intro v hv hvt hvl
    rcases mem_cons.mp hv with rfl | hv
    · exact g7 v (h3 hvt hvl)
    · refine g6 v hv hvt ?_
      have hne : v.id ≠ r.id := by
        have := ht.nodup
        rw [map_cons, nodup_cons] at this
        intro he
        exact this.1 (he ▸ mem_map_of_mem hv)
      rw [hown, Ownership.track_live, Function.update_of_ne hne]
      exact hvl

theorem kick_spec (s : Scheduler) : s.kick = { s with dirty := true, draining := s.kick.draining } ∧
    (s.enabled = true → s.kick.draining = true) := by
  unfold kick
  dsimp only
  split
  · rename_i h
    refine ⟨rfl, fun he => ?_⟩
    simpa [he] using h
  · exact ⟨rfl, fun _ => rfl⟩

theorem land_cases {tx : Tx} {inputs : List Id} {others : Bool} (hp : Planned s tx)
    (h : Tracked s.store s.own) (hl : s.land tx inputs others = some s') {P : Scheduler → List TaskRecord → Prop}
    (start : ∀ own : Ownership, own.live = s.own.live → P { s with store := tx.candidate, own := own } tx.stagedTasks)
    (step : ∀ t r rest, Ownership.Tracking t.store t.own (r :: rest) → t.store = tx.candidate → P t (r :: rest) →
      ∀ t', Tracks t r t' → Flags t r t' → P t' rest) :
    (s' = s ∧ tx.writes = [] ∧ tx.conversations = []) ∨ ∃ mid, P mid [] ∧ Published s tx mid s' := by
  obtain ⟨rank, hg⟩ := hp.staged.grounded
  unfold land at hl
  obtain ⟨changes, hc, hs'⟩ := map_eq_some_iff.mp hl
  obtain ⟨htracking, hlive, htasks, -⟩ := hp.tracking h hc
  split at hs'
  · rename_i hnothing
    simp only [Bool.and_eq_true, List.isEmpty_iff] at hnothing
    have hchanges := hnothing.1.1
    subst hchanges
    refine Or.inl ⟨hs'.symm, ?_, ?_⟩
    · have : tx.stagedTasks = [] := by simpa using htasks.symm
      simpa [Tx.stagedTasks] using this
    · unfold Tx.assemble at hc
      split at hc
      · have := some.inj hc
        simpa using (append_eq_nil_iff.mp this).1
      · simp at hc
  · refine Or.inr ?_
    subst hs'
    unfold observe
    rw [htasks]
    dsimp only
    generalize hown : changes.foldl (fun x change => x.trackEdge tx.candidate.count change) s.own = own at htracking hlive
    have hfold := observeTasks_induction hg step tx.stagedTasks { s with store := tx.candidate, own := own } [] []
      htracking rfl (start own hlive)
    obtain ⟨hP, hmt, hms, hmd, hmdr, hupd, -⟩ := hfold
    generalize hmid : tx.stagedTasks.foldl observeTask ({ s with store := tx.candidate, own := own }, [], []) = mid at *
    obtain ⟨mid, failed, updated⟩ := mid
    dsimp only at hP hmt hms hmd hmdr hupd ⊢
    have hl1 := Later.foldl observeFailed observeFailed_later failed mid
    have hl2 := Later.foldl observeInput observeInput_later inputs (failed.foldl observeFailed mid)
    have hl12 := hl1.trans hl2
    have hl3 := Later.foldl observeNew observeNew_later updated (inputs.foldl observeInput (failed.foldl observeFailed mid))
    have hflag := observeNew_flag updated hl12
    have hlater := hl12.trans hl3
    generalize hlast : updated.foldl observeNew (inputs.foldl observeInput (failed.foldl observeFailed mid)) = last at *
    -- the flag of a pending cascade schedules a pass
    obtain ⟨fin, hfin, hfl, hfc, hff⟩ : ∃ fin : Scheduler,
        (if last.cascadePending then last.scheduleReconcile else last) = fin ∧ Later last fin ∧
          (last.cascadePending = true → fin.reconcileScheduled = true) ∧
          (fin.cascadePending = true → fin.reconcileScheduled = true) := by
      refine ⟨_, rfl, ?_⟩
      split
      · exact ⟨⟨rfl, fun _ => rfl, fun h => h⟩, fun _ => rfl, fun _ => rfl⟩
      · rename_i hnot
        exact ⟨Later.refl last, fun h => absurd h hnot, fun h => absurd h hnot⟩
    rw [hfin]
    have hall := hlater.trans hfl
    have hcreated : ∀ r ∈ tx.stagedTasks, isTerminal r = false → s.own.live r.id = none →
        (r.id ∈ mid.own.unloaded → fin.reconcileScheduled = true) ∧
        (r.id ∉ mid.own.unloaded → r.background = false → r.abortRequested = false →
          mid.belowCancelled (parentOf r) = true → fin.reconcileScheduled = true) := by
      intro r hr hrt hrl
      obtain ⟨hu, hb⟩ := hflag r (hupd r hr hrt (by rw [← hrl]; exact congrFun hlive r.id))
      exact ⟨fun h1 => hfl.scheduled (hu h1), fun h1 h2 h3 h4 => hfc (hb h1 h2 h3 h4)⟩
    have hempty : tx.stagedTasks.isEmpty = true ↔ tx.writes = [] := by simp [Tx.stagedTasks]
    have hcascade : mid.cascadePending = true → fin.reconcileScheduled = true := fun h => hfc (hlater.cascade h)
    obtain ⟨ff, rs, cp, rfl⟩ : ∃ ff rs cp, fin = { mid with failFastChecks := ff, reconcileScheduled := rs
                                                            cascadePending := cp } := ⟨_, _, _, hall.rest⟩
    refine ⟨mid, hP, ?_⟩
    split
    · rename_i hnone
      have hw := hempty.mp hnone
      exact ⟨hms ▸ hmt, hms, rfl, hall.scheduled, hcascade, hff, hcreated, fun h => absurd hw h, fun _ => ⟨rfl, rfl⟩⟩
    · rename_i hsome
      have hw : tx.writes ≠ [] := fun h => hsome (hempty.mpr h)
      obtain ⟨hk, hkd⟩ := kick_spec { mid with failFastChecks := ff, reconcileScheduled := rs, cascadePending := cp
                                               own := mid.own.sweep }
      refine ⟨hms ▸ hmt, hms, ?_, ?_, ?_, ?_, ?_, ?_, fun h => absurd h hw⟩
      · rw [hk]
      · rw [hk]
        exact hall.scheduled
      · rw [hk]
        exact hcascade
      · rw [hk]
        exact hff
      · rw [hk]
        exact hcreated
      · intro _
        rw [hk]
        exact ⟨rfl, hkd⟩

/-! ## What every commit keeps -/

theorem Published.tracked {s mid s' : Scheduler} {tx : Tx} (h : Published s tx mid s') (hp : Planned s tx)
    (ht : Tracked s.store s.own) : Tracked s'.store s'.own := by
  have hstore : s'.store = tx.candidate := by rw [h.rest]; exact h.store
  have hown : s'.own = mid.own.sweep := by rw [h.rest]
  rw [hstore, hown]
  refine ⟨hp.staged.grounded, Tx.candidate_listed hp.staged (hp.store.symm ▸ ht.listed),
    Ownership.sweep_sound h.tracking.sound, ?_⟩
  intro id r
  rw [Ownership.sweep_live]
  exact h.tracking.mirrors id r

end Scheduler

end PiAgent.Harness
