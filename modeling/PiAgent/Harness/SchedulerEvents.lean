import PiAgent.Harness.SchedulerBase

/-! # The events of the scheduler, one by one -/

namespace PiAgent.Harness

open List Durable

namespace Scheduler

/-! ## The end of an invocation -/

variable (s : Scheduler)

theorem endInvocation_ended (number : ℕ) (invocation : Invocation) (h : s.runs[number]? = some invocation) :
    (s.endInvocation number).runs[number]? = some { invocation with ended := true } := by
  have hlt := (List.getElem?_eq_some_iff.mp h).1
  unfold endInvocation
  rw [h]
  dsimp only
  split
  · rename_i he
    rw [h]
    cases invocation
    simp_all
  · split <;> exact getElem?_set_self hlt

theorem finish_base (h : Base s) (number : ℕ) : Base (s.finish number) := by
  unfold finish
  split
  · exact h
  · rename_i invocation hinv
    split
    · exact h
    · have hb := h.plans (endInvocation_plans s number)
      have hended := endInvocation_ended s number invocation hinv
      have hlt := (List.getElem?_eq_some_iff.mp hended).1
      obtain ⟨hk, -⟩ := kick_spec { s.endInvocation number with
        runs := (s.endInvocation number).runs.set number { invocation with ended := true, finished := true } }
      dsimp only
      rw [hk]
      refine ⟨hb.tracked, hb.alive, hb.nodup, hb.flagged, hb.intent, hb.waiters, ?_⟩
      intro id n
      refine (hb.invoked id n).trans ?_
      show (∃ run, (s.endInvocation number).runs[n]? = some run ∧ _) ↔
        ∃ run, ((s.endInvocation number).runs.set number _)[n]? = some run ∧ _
      by_cases hn : number = n
      · subst hn
        rw [getElem?_set_self hlt, hended]
        simp
      · rw [getElem?_set_ne hn]

/-! ## Reconcile passes -/

structure Reconciles (s : Scheduler) (pass : Pass) (rest : List Pass) (s' : Scheduler) (mid : Scheduler) (marked tx : Tx) :
    Prop where
  plans : Plans { s with passes := rest } mid
  unloaded : mid.own.unloaded = []
  marks : ∀ id, (Assoc.get? (mid.failFastMarks pass.checks mid.cascadeMarks) id = none → marked.write id = none) ∧
    ∀ m, Assoc.get? (mid.failFastMarks pass.checks mid.cascadeMarks) id = some m →
      ∃ w, marked.write id = some w ∧ w.record = withAbortMark m.1 m.2
  planned : Planned { mid with finalizeChecks := [] } tx
  internal : Internal tx
  writes : ∀ id w, tx.write id = some w → isTerminal w.record = true ∨ marked.write id = some w
  kept : ∀ id, (marked.write id).isSome = true → (tx.write id).isSome = true
  same : ∀ id r', tx.currentTask id = some r' → ∃ r, marked.currentTask id = some r ∧
    r'.abortRequested = r.abortRequested ∧ r'.restart = r.restart
  stored : marked.store = mid.store
  ends : ∀ id ∈ mid.finalizeChecks, ∀ r, mid.own.live id = some r → isCompleting r = true →
    (∀ t, ¬mid.store.Owned id t) → Ends tx id
  lands : ∃ others, Scheduler.land { mid with finalizeChecks := [] } tx [] others = some s'

variable {s} in
theorem Reconciles.base {pass : Pass} {rest : List Pass} {s' mid : Scheduler} {marked tx : Tx}
    (hr : Reconciles s pass rest s' mid marked tx) (h : Base s) : Base { mid with finalizeChecks := [] } := by
  have h0 : Base { s with passes := rest } :=
    ⟨h.tracked, h.alive, h.nodup, h.flagged, h.intent, h.waiters, h.invoked⟩
  have h1 := h0.plans hr.plans
  exact ⟨h1.tracked, h1.alive, h1.nodup, h1.flagged, h1.intent, h1.waiters, h1.invoked⟩

theorem storedOnly_stored (queued : List Id) : ∀ c ∈ s.storedOnly queued, (s.store.conversations c).isSome = true :=
  fun _ hc => (mem_filter.mp hc).2

theorem runReconcile_spec (h : Tracked s.store s.own) (pass : Pass) (rest : List Pass)
    (hpass : s.passes = pass :: rest) (queued : List Id) (others : Bool) :
    ∃ mid marked tx, Reconciles s pass rest (s.runReconcile queued others) mid marked tx := by
  have hstored : ∀ c ∈ (if pass.cascade then s.storedOnly queued else []), (s.store.conversations c).isSome = true := by
    intro c hc
    split at hc
    · exact storedOnly_stored s queued c hc
    · simp at hc
  have hplans := loadScopes_plans { s with passes := rest } _ hstored h
  obtain ⟨-, -, hu⟩ := loadScopes_sound { s with passes := rest } _ hstored h
  have ht := hplans.trackedAfter h
  generalize hmid : Scheduler.loadScopes { s with passes := rest } (if pass.cascade then s.storedOnly queued else []) = mid
    at hplans hu ht
  have hmarks := failFastMarks_marks ht pass.checks (cascadeMarks_marks ht)
  obtain ⟨marked, hfold, hp, hi, hw⟩ := stageMarks_planned ht hmarks
  obtain ⟨hfirst, tx, hsecond, hp', hi', hwrites, hkept, hsame, hends⟩ := finalize_spec ht hu hp hi
  have hp'' : Planned { mid with finalizeChecks := [] } tx := ⟨hp'.store, hp'.staged, hp'.replaced, hp'.ended⟩
  obtain ⟨s', hl⟩ := land_some hp'' ht.mirrors hi' [] others
  have hrun : s.runReconcile queued others = s' := by
    have hrec : Scheduler.reconcile { s with passes := rest } pass (s.storedOnly queued) =
        ({ mid with finalizeChecks := [] }, some tx) := by
      unfold reconcile
      dsimp only
      rw [hmid]
      rw [hfold]
      exact Prod.ext hfirst hsecond
    unfold runReconcile
    rw [hpass]
    dsimp only
    rw [hrec]
    simp [landOwn, hl]
  exact ⟨mid, marked, tx, hplans, hu, hw, hp'', hi', hwrites, hkept, hsame, hp.store, hends, others, hrun ▸ hl⟩

theorem runReconcile_base (h : Base s) (queued : List Id) (others : Bool) :
    Base (s.runReconcile queued others) := by
  cases hpass : s.passes with
  | nil =>
    unfold runReconcile
    rw [hpass]
    exact h
  | cons pass rest =>
    obtain ⟨mid, marked, tx, hr⟩ := runReconcile_spec s h.tracked pass rest hpass queued others
    obtain ⟨others', hl⟩ := hr.lands
    have h2 := hr.base h
    exact h2.land hr.planned hl

/-! ## Reservation passes -/

structure Reserves (s s' : Scheduler) (mid : Scheduler) (tx : Tx) : Prop where
  plans : Plans { s with reserving := false } mid
  planned : Planned mid tx
  internal : Internal tx
  examined : s.enabled = true → s.abandoned = [] → ∀ id ∈ s.runnable, Examined mid tx id
  shrinks : ∀ id ∈ mid.runnable, id ∈ s.runnable
  lands : ∃ landed, mid.land tx [] false = some landed ∧
    s' = if !s.abandoned.isEmpty && s.enabled then { landed with abandoned := [], dirty := true } else landed

variable {s} in
theorem Reserves.base {s' mid : Scheduler} {tx : Tx} (hr : Reserves s s' mid tx) (h : Base s) : Base mid :=
  Base.plans (s := { s with reserving := false })
    ⟨h.tracked, h.alive, h.nodup, h.flagged, h.intent, h.waiters, h.invoked⟩ hr.plans

theorem reserve_abandoned (h : Tracked s.store s.own) (he : s.enabled = true) (ha : s.abandoned ≠ []) :
    ∃ tx, s.reserve = (s, some tx) ∧ Marking s true tx := by
  unfold reserve
  rw [if_neg (by simp [he]), if_pos (by simp [ha])]
  refine (foldlM_option (P := Marking s true) _ s.abandoned ?_ _ (start_marking s true h)).imp
    (fun tx htx => ⟨congrArg (Prod.mk s) htx.1, htx.2⟩)
  intro tx id _ hmk
  split
  · exact ⟨tx, rfl, hmk⟩
  · rename_i record hrecord
    obtain ⟨hl, hnot⟩ := Option.filter_eq_some_iff.mp hrecord
    obtain ⟨rank, hg⟩ := h.grounded
    have hid := hg.taskId _ _ ((h.mirrors _ _).mp hl).1
    refine mark_marking h hmk (by rw [hid]; exact hl) ?_
    intro hm
    simp [hm] at hnot

theorem runReserve_spec (h : Base s) (hres : s.reserving = true) : ∃ mid tx, Reserves s s.runReserve mid tx := by
  have h0 : Base { s with reserving := false } :=
    ⟨h.tracked, h.alive, h.nodup, h.flagged, h.intent, h.waiters, h.invoked⟩
  -- what the pass decides
  obtain ⟨mid, tx, hreserve, hplans, hp, hi, hex, hsub⟩ : ∃ mid tx,
      Scheduler.reserve { s with reserving := false } = (mid, some tx) ∧ Plans { s with reserving := false } mid ∧
        Planned mid tx ∧ Internal tx ∧
        (s.enabled = true → s.abandoned = [] → ∀ id ∈ s.runnable, Examined mid tx id) ∧
        ∀ id ∈ mid.runnable, id ∈ s.runnable := by
    unfold reserve
    split
    · rename_i hdisabled
      refine ⟨_, _, rfl, Plans.refl _, start_planned _ h0.tracked, start_internal _, ?_, fun _ hid => hid⟩
      intro he
      simp [he] at hdisabled
    · split
      · rename_i hdisabled habandoned
        obtain ⟨tx, htx, hm⟩ := reserve_abandoned { s with reserving := false } h0.tracked (by simpa using hdisabled)
          (by simpa using habandoned)
        unfold reserve at htx
        rw [if_neg hdisabled, if_pos habandoned] at htx
        refine ⟨_, tx, htx, Plans.refl _, hm.planned, hm.internal, ?_, fun _ hid => hid⟩
        intro _ hnone
        simp [hnone] at habandoned
      · have hload := loadScopes_plans { s with reserving := false } [] (by simp) h.tracked
        obtain ⟨-, -, hu⟩ := loadScopes_sound { s with reserving := false } [] (by simp) h.tracked
        have hrun : (Scheduler.loadScopes { s with reserving := false } []).runnable = s.runnable := rfl
        have hstart : Reserving (Scheduler.loadScopes { s with reserving := false } []) s.runnable
            (Scheduler.loadScopes { s with reserving := false } []) (Tx.start s.store) :=
          ⟨Plans.refl _, hload.trackedAfter h.tracked, (start_planned _ h0.tracked).plans hload, start_internal _, hu,
            fun _ _ => by simp [Tx.start, Tx.write]⟩
        obtain ⟨mid, tx, hfold, hr, hmid, hsub, -, hexam⟩ := reserveAll_spec s.runnable h.nodup hstart
        exact ⟨mid, tx, hfold, hload.trans hmid, hr.planned, hr.internal, fun _ _ => hexam, hsub⟩
  obtain ⟨landed, hl⟩ := land_some hp (hplans.trackedAfter h0.tracked).mirrors hi [] false
  refine ⟨mid, tx, hplans, hp, hi, hex, hsub, landed, hl, ?_⟩
  unfold runReserve
  rw [hres]
  dsimp only
  rw [hreserve]
  simp [landOwn, hl]

/-! ## Opening -/

def blank (store : Store) (registry : JsString → Option TaskDefinition) : Scheduler :=
  { store := store, own := Ownership.empty, intent := [], runnable := [], finalizeChecks := [], waiters := fun _ => []
    failFastChecks := [], abandoned := [], reconcileScheduled := false, cascadePending := false, passes := []
    registry := registry, failedMigrations := fun _ => none, enabled := false, dirty := false, draining := false
    reserving := false, invocations := fun _ => none, runs := [], failed := false }

def found (store : Store) (registry : JsString → Option TaskDefinition) : Scheduler :=
  store.liveTasks.foldl track (blank store registry)

theorem foldl_track {store : Store} {rank : Node → ℕ} (hg : store.Grounded rank) {P : Scheduler → Prop}
    (step : ∀ t r rest, Ownership.Tracking t.store t.own (r :: rest) → t.store = store → P t →
      ∀ t', Tracks t r t' → P t')
    (rest : List TaskRecord) (s : Scheduler) (ht : Ownership.Tracking s.store s.own rest) (hs : s.store = store)
    (hp : P s) :
    P (rest.foldl track s) ∧ Ownership.Tracking (rest.foldl track s).store (rest.foldl track s).own [] ∧
      (rest.foldl track s).store = store ∧ Static s (rest.foldl track s) ∧
      (rest.foldl track s).reconcileScheduled = s.reconcileScheduled ∧
      (rest.foldl track s).cascadePending = s.cascadePending ∧ (rest.foldl track s).dirty = s.dirty ∧
      (rest.foldl track s).draining = s.draining := by
  induction rest generalizing s with
  | nil => exact ⟨hp, ht, hs, Static.refl s, rfl, rfl, rfl, rfl⟩
  | cons r rest ih =>
    have htr := track_tracks s r
    obtain ⟨hf1, hf2, -⟩ := track_flags s r
    have hown : (s.track r).own = s.own.track s.store.count r := by rw [htr.rest]
    have hst : (s.track r).store = s.store := by rw [htr.rest]
    have hd : (s.track r).dirty = s.dirty ∧ (s.track r).draining = s.draining := by
      rw [htr.rest]
      exact ⟨rfl, rfl⟩
    obtain ⟨g1, g2, g3, g4, g5, g6, g7, g8⟩ := ih (s.track r) (by rw [hst, hown]; exact ht.step (hs ▸ hg)) (hst.trans hs)
      (step s r rest ht hs hp _ htr)
    rw [foldl_cons]
    exact ⟨g1, g2, g3, htr.static.trans g4, g5.trans hf1, g6.trans hf2, g7.trans hd.1, g8.trans hd.2⟩

theorem opening_tracking {store : Store} {rank : Node → ℕ} (hg : store.Grounded rank) (hl : store.Listed) :
    Ownership.Tracking store Ownership.empty store.liveTasks := by
  have h := Ownership.opening_untracked hg hl
  refine ⟨h, fun id r hr => by simp [Ownership.empty] at hr, fun r hr ht => ?_⟩
  rcases h.trackable r hr with hlive | ⟨-, hnot⟩
  · simp [Ownership.empty] at hlive
  · simp [hnot] at ht

/-- What opening does: it tracks the live tasks, commits the running ones as pending, and schedules a pass. -/
structure Opens (store : Store) (registry : JsString → Option TaskDefinition) (s' : Scheduler) (mid : Scheduler)
    (tx : Tx) : Prop where
  base : Base mid
  opens : mid.store = store
  sets : mid.runnable = (found store registry).runnable ∧ mid.own = (found store registry).own ∧
    mid.finalizeChecks = (found store registry).finalizeChecks
  static : mid.invocations = (fun _ => none) ∧ mid.runs = [] ∧ mid.passes = [] ∧ mid.enabled = false ∧
    mid.reserving = false ∧ mid.draining = false
  planned : Planned mid tx
  internal : Internal tx
  pending : ∀ id w, tx.write id = some w → ∃ old, mid.own.live id = some old ∧ old.state.status = .running ∧
    w.record = withState old (.pending (checkpointOf old))
  lands : ∃ landed, mid.land tx [] false = some landed ∧ s' = { landed with cascadePending := true }.scheduleReconcile

section

variable (store : Store) (hg : ∃ rank, store.Grounded rank) (hl : store.Listed)
    (registry : JsString → Option TaskDefinition)
include hg hl

/-- What tracking a live task shows of it, and tracking another keeps, holds of every task that is found live. -/
theorem found_tracked {f : TaskRecord → Bool} {Q : Scheduler → Id → Prop}
    (hself : ∀ t v t', Tracks t v t' → isTerminal v = false → f v = true → Q t' v.id)
    (hother : ∀ t v t' id, Tracks t v t' → Q t id → id ≠ v.id → Q t' id) (id : Id) (r : TaskRecord)
    (hr : (found store registry).own.live id = some r) (hc : f r = true) : Q (found store registry) id := by
  obtain ⟨rank, hg⟩ := hg
  have hfold := foldl_track (P := fun t => ∀ id r, t.own.live id = some r → f r = true → Q t id) hg ?_
    store.liveTasks (blank store registry) (opening_tracking hg hl) rfl
    (fun id r hr => by simp [blank, Ownership.empty] at hr)
  · exact hfold.1 id r hr hc
  · intro t v rest _ _ hp t' ht id r hr hc
    rcases ht.live_cases hr with ⟨rfl, rfl, hterm⟩ | ⟨hid, hr⟩
    · exact hself t r t' ht hterm hc
    · exact hother t v t' id ht (hp id r hr hc) hid

theorem opened_spec : ∃ mid tx, Opens store registry (opened store registry) mid tx := by
  obtain ⟨rank, hg⟩ := hg
  obtain ⟨hf, ht, hs, hstatic, hsched, hcasc, hdirty, hdraining⟩ := foldl_track hg (P := Follows)
    (fun t r rest _ _ h t' htr => h.step htr) store.liveTasks (blank store registry) (opening_tracking hg hl) rfl
    (by
      refine ⟨nodup_nil, ?_, ?_⟩
      · intro id
        simp [blank, Ownership.empty]
      · intro m j
        simp [blank, Ownership.empty])
  rw [← found] at hf ht hs hstatic hsched hcasc hdirty hdraining
  have htracked : Tracked (found store registry).store (found store registry).own := by
    rw [hs] at ht ⊢
    exact ⟨⟨rank, hg⟩, hl, ht.sound, ht.mirrors⟩
  let mid : Scheduler := { found store registry with
    abandoned := (store.liveTasks.filter TaskRecord.abandonOnRestart).map TaskRecord.id
    failFastChecks := (store.liveTasks.filter isFailFast).map TaskRecord.id }
  have hbase : Base mid := by
    refine ⟨htracked, hstatic.failed, hf.nodup, ?_, hf.intent, hf.waiters, ?_⟩
    · intro hc
      have : (found store registry).cascadePending = true := hc
      rw [hcasc] at this
      simp [blank] at this
    · intro id n
      show (found store registry).invocations id = some n ↔ ∃ run, (found store registry).runs[n]? = some run ∧ _
      rw [hstatic.invocations, hstatic.runs]
      simp [blank]
  have hmem : ∀ r ∈ store.liveTasks, mid.own.live r.id = some r := by
    intro r hr
    obtain ⟨id, hid, hterm⟩ := (Store.mem_liveTasks hl r).mp hr
    have hrid := hg.taskId id r hid
    rw [hrid]
    refine (hbase.tracked.mirrors id r).mpr ⟨?_, hterm⟩
    show (found store registry).store.tasks id = some r
    rw [hs]
    exact hid
  -- the running tasks, once each
  obtain ⟨tx, htx, hp, hi, hw⟩ := foldlM_option (P := fun tx => Planned mid tx ∧ Internal tx ∧
      ∀ id w, tx.write id = some w → ∃ old, mid.own.live id = some old ∧ old.state.status = .running ∧
        w.record = withState old (.pending (checkpointOf old)))
    (fun (tx : Tx) record => tx.setTask (withState record (.pending (checkpointOf record))))
    (store.liveTasks.filter (fun record => record.state.status == .running)) (by
      rintro tx r hr ⟨hp, hi, hw⟩
      rw [mem_filter] at hr
      have hlive := hmem r hr.1
      have hst : r.state.status = .running := by simpa using hr.2
      have hstored := (hbase.tracked.mirrors _ _).mp hlive
      have hc : isCompleting r = false := by simp [isCompleting, hst]
      obtain ⟨prev, hcur, hterm, hrw⟩ : ∃ prev, tx.currentTask r.id = some prev ∧ isTerminal prev = false ∧
          Rewrites prev (withState r (.pending (checkpointOf r))) := by
        cases hwr : tx.write r.id with
        | none =>
          exact ⟨r, by simp [Tx.currentTask, hwr, hp.store, hstored.1], hstored.2, rewrites_withState hc _⟩
        | some w =>
          obtain ⟨old, hold, -, hwo⟩ := hw _ w hwr
          obtain rfl : r = old := by simpa [hlive] using hold
          exact ⟨w.record, by simp [Tx.currentTask, hwr], by simp [hwo, withState, isTerminal, TaskState.status],
            hwo ▸ Rewrites.refl _⟩
      obtain ⟨tx', htx', hp'⟩ := hp.setTask hbase.tracked.mirrors (withState r (.pending (checkpointOf r))) hlive hcur hterm
        hrw (by simp [withState, isTerminal, TaskState.status])
      refine ⟨tx', htx', hp', hi.setTask _ htx', ?_⟩
      intro id w hwid
      rcases Tx.setTask_write htx' id w hwid with ⟨rfl, hwr⟩ | hold
      · exact ⟨r, hlive, hst, hwr⟩
      · exact hw id w hold)
    (Tx.start store) (by
      have hstart := start_planned mid hbase.tracked
      have : mid.store = store := hs
      rw [this] at hstart
      exact ⟨hstart, start_internal store, by intro id w hw; simp [Tx.start, Tx.write] at hw⟩)
  obtain ⟨landed, hland⟩ := land_some hp hbase.tracked.mirrors hi [] false
  refine ⟨mid, tx, hbase, hs, ⟨rfl, rfl, rfl⟩, ⟨hstatic.invocations, hstatic.runs, hstatic.passes, hstatic.enabled,
    hstatic.reserving, hdraining⟩, hp, hi, hw, landed, hland, ?_⟩
  unfold opened
  dsimp only
  rw [htx]
  show { mid.landOwn (some tx) false with cascadePending := true }.scheduleReconcile = _
  simp [landOwn, hland]

theorem opened_base : Base (opened store registry) := by
  obtain ⟨mid, tx, h⟩ := opened_spec store hg hl registry
  obtain ⟨landed, hland, hs'⟩ := h.lands
  have hb := h.base.land h.planned hland
  rw [hs']
  exact ⟨hb.tracked, hb.alive, hb.nodup, fun _ => rfl, hb.intent, hb.waiters, hb.invoked⟩

end

/-! ## All events -/

variable {s : Scheduler}

theorem sweep_tracked (h : Tracked s.store s.own) : Tracked s.store s.own.sweepJob := by
  refine ⟨h.grounded, h.listed, Ownership.sweepJob_sound h.sound, ?_⟩
  intro id r
  have hlive : s.own.sweepJob.live = s.own.live := Ownership.sweep_live _
  rw [hlive]
  exact h.mirrors id r

variable (s : Scheduler)

theorem drain_cases : ∃ dirty draining reserving,
    s.drain = { s with dirty := dirty, draining := draining, reserving := reserving } := by
  unfold drain
  split
  · exact ⟨_, _, _, rfl⟩
  · split
    · exact ⟨_, _, _, rfl⟩
    · dsimp only
      split
      · unfold kick
        dsimp only
        split
        · exact ⟨_, _, _, rfl⟩
        · exact ⟨_, _, _, rfl⟩
      · exact ⟨_, _, _, rfl⟩

theorem next_moves (h : Tracked s.store s.own) (event : Event) :
    Moves s (s.next event) ∨ (∃ n, event = .finish n) ∨ event = .startReconcile ∨
      (∃ q o, event = .runReconcile q o) ∨ event = .drain ∨ event = .runReserve ∨ event = .sweep ∨
      (∃ r, event = .register r) ∨ event = .resume ∨ ∃ r, event = .reopen r := by
  cases event with
  | hostCommit ops inputs others => exact Or.inl (hostCommit_moves s h ops inputs others)
  | runtimeCommit number ops next inputs others =>
    exact Or.inl (runtimeCommit_moves s h number ops next inputs others)
  | runtimeMemo number => exact Or.inl (runtimeMemo_moves s h number)
  | step number previous => exact Or.inl (stepOf_moves s h number previous)
  | abort id keepRestart => exact Or.inl (abort_moves s h id keepRestart)
  | abortConversation c background queued others =>
    exact Or.inl (abortConversation_moves s h c background _ (storedOnly_stored s queued) others)
  | inspect => exact Or.inl (.plan (loadScopes_plans s [] (by simp) h))
  | waitForIdle scope =>
    refine Or.inl (.plan ?_)
    show Plans s (s.waitForIdle scope)
    unfold waitForIdle
    split
    · exact Plans.refl s
    · exact scheduleReconcile_plans s
  | _ => simp

/-- Every event that is not named here keeps what planning, landing and the flags keep. -/
theorem next_kept {P : Scheduler → Prop} (h : Base s) (hplans : ∀ t t', Plans t t' → P t → P t')
    (hland : ∀ t tx inputs others t', Base t → Planned t tx → t.land tx inputs others = some t' → P t → P t')
    (hflags : ∀ t abandoned dirty draining reserving registry enabled, P t →
      P { t with abandoned := abandoned, dirty := dirty, draining := draining, reserving := reserving,
                 registry := registry, enabled := enabled }) (hs : P s) (event : Event) :
    P (s.next event) ∨ (∃ n, event = .finish n) ∨ event = .startReconcile ∨ (∃ q o, event = .runReconcile q o) ∨
      event = .sweep ∨ ∃ r, event = .reopen r := by
  rcases next_moves s h.tracked event with hm | hfinish | hstart | hrun | rfl | rfl | hsweep | ⟨r, rfl⟩ | rfl | hopen
  · left
    cases hm with
    | plan hp => exact hplans _ _ hp hs
    | commit hp htx hl => exact hland _ _ _ _ _ (h.plans hp) htx hl (hplans _ _ hp hs)
  · exact .inr (.inl hfinish)
  · exact .inr (.inr (.inl hstart))
  · exact .inr (.inr (.inr (.inl hrun)))
  · left
    obtain ⟨dirty, draining, reserving, hd⟩ := drain_cases s
    show P s.drain
    rw [hd]
    exact hflags s _ _ _ _ _ _ hs
  · left
    show P s.runReserve
    cases hres : s.reserving with
    | false =>
      unfold runReserve
      rw [hres]
      exact hs
    | true =>
      obtain ⟨mid, tx, hr⟩ := runReserve_spec s h hres
      obtain ⟨landed, hl, hs'⟩ := hr.lands
      have hmid := hplans _ _ hr.plans (hflags s _ _ _ false _ _ hs)
      have hlanded := hland _ _ _ _ _ (hr.base h) hr.planned hl hmid
      rw [hs']
      split
      · exact hflags landed [] true _ _ _ _ hlanded
      · exact hlanded
  · exact .inr (.inr (.inr (.inr (.inl hsweep))))
  · left
    show P (Scheduler.kick { s with registry := r })
    rw [(kick_spec _).1]
    exact hflags s _ true _ _ r _ hs
  · left
    show P (Scheduler.kick { s with enabled := true })
    rw [(kick_spec _).1]
    exact hflags s _ true _ _ _ true hs
  · exact .inr (.inr (.inr (.inr (.inr hopen))))

theorem next_base (h : Base s) (event : Event) : Base (s.next event) := by
  rcases next_kept s h (fun _ _ hp ht => ht.plans hp) (fun _ _ _ _ _ _ hp hl ht => ht.land hp hl)
    (fun _ _ _ _ _ _ _ ht => ⟨ht.tracked, ht.alive, ht.nodup, ht.flagged, ht.intent, ht.waiters, ht.invoked⟩) h event
    with hk | ⟨n, rfl⟩ | rfl | ⟨q, o, rfl⟩ | rfl | ⟨r, rfl⟩
  · exact hk
  · exact finish_base s h n
  · show Base s.startReconcile
    unfold startReconcile
    split
    · exact ⟨h.tracked, h.alive, h.nodup, by simp, h.intent, h.waiters, h.invoked⟩
    · exact h
  · exact runReconcile_base s h q o
  · refine ⟨sweep_tracked h.tracked, h.alive, h.nodup, h.flagged, ?_, ?_, h.invoked⟩
    · intro id
      have hlive : s.own.sweepJob.live = s.own.live := Ownership.sweep_live _
      show id ∈ s.intent ↔ (s.own.sweepJob.live id).any cancellationIntent = true
      rw [hlive]
      exact h.intent id
    · intro m j
      have hlive : s.own.sweepJob.live = s.own.live := Ownership.sweep_live _
      show j ∈ s.waiters m ↔ m ∈ (s.own.sweepJob.live j).elim [] waitsFor
      rw [hlive]
      exact h.waiters m j
  · exact opened_base s.store h.tracked.grounded h.tracked.listed r

theorem finish_fields (number : ℕ) : ∃ runs dirty draining, s.finish number =
        { s.endInvocation number with runs := runs, dirty := dirty, draining := draining } ∨ s.finish number = s := by
  unfold finish
  split
  · exact ⟨[], false, false, Or.inr rfl⟩
  · rename_i invocation hinv
    split
    · exact ⟨[], false, false, Or.inr rfl⟩
    · obtain ⟨hk, -⟩ := kick_spec { s.endInvocation number with
        runs := (s.endInvocation number).runs.set number { invocation with ended := true, finished := true } }
      dsimp only
      rw [hk]
      exact ⟨_, _, _, Or.inl rfl⟩

theorem next_store (h : Base s) (event : Event) :
    (s.next event).store = s.store ∨ ∃ mid tx inputs others landed, Base mid ∧ mid.store = s.store ∧ Planned mid tx ∧
      mid.land tx inputs others = some landed ∧ (s.next event).store = landed.store := by
  rcases next_moves s h.tracked event with hm | ⟨n, rfl⟩ | rfl | ⟨q, o, rfl⟩ | rfl | rfl | rfl | ⟨r, rfl⟩ | rfl | ⟨r, rfl⟩
  · rcases hm with hp | ⟨hp, htx, hl⟩
    · exact Or.inl hp.store
    · exact Or.inr ⟨_, _, _, _, _, h.plans hp, hp.store, htx, hl, rfl⟩
  · refine Or.inl ?_
    show (s.finish n).store = s.store
    obtain ⟨runs, dirty, draining, hf | hf⟩ := finish_fields s n
    · rw [hf]
      exact (endInvocation_plans s n).store
    · rw [hf]
  · refine Or.inl ?_
    show s.startReconcile.store = s.store
    unfold startReconcile
    split <;> rfl
  · show (s.runReconcile q o).store = s.store ∨ _
    cases hpass : s.passes with
    | nil =>
      unfold runReconcile
      rw [hpass]
      exact Or.inl rfl
    | cons pass rest =>
      obtain ⟨mid, marked, tx, hr⟩ := runReconcile_spec s h.tracked pass rest hpass q o
      obtain ⟨others', hl⟩ := hr.lands
      have h2 := hr.base h
      exact Or.inr ⟨_, _, _, _, _, h2, hr.plans.store, hr.planned, hl, rfl⟩
  · obtain ⟨dirty, draining, reserving, hd⟩ := drain_cases s
    refine Or.inl ?_
    show s.drain.store = s.store
    rw [hd]
  · show s.runReserve.store = s.store ∨ _
    cases hres : s.reserving with
    | false =>
      unfold runReserve
      rw [hres]
      exact Or.inl rfl
    | true =>
      obtain ⟨mid, tx, hr⟩ := runReserve_spec s h hres
      obtain ⟨landed, hl, hs'⟩ := hr.lands
      refine Or.inr ⟨_, _, _, _, _, hr.base h, hr.plans.store, hr.planned, hl, ?_⟩
      show s.runReserve.store = landed.store
      rw [hs']
      split <;> rfl
  · exact Or.inl rfl
  · obtain ⟨hk, -⟩ := kick_spec { s with registry := r }
    refine Or.inl ?_
    show (Scheduler.kick { s with registry := r }).store = s.store
    rw [hk]
  · obtain ⟨hk, -⟩ := kick_spec { s with enabled := true }
    refine Or.inl ?_
    show (Scheduler.kick { s with enabled := true }).store = s.store
    rw [hk]
  · obtain ⟨mid, tx, ho⟩ := opened_spec s.store h.tracked.grounded h.tracked.listed r
    obtain ⟨landed, hl, hs'⟩ := ho.lands
    refine Or.inr ⟨_, _, _, _, _, ho.base, ho.opens, ho.planned, hl, ?_⟩
    show (opened s.store r).store = landed.store
    rw [hs']
    rfl

theorem advance_eq {s : Scheduler} (h : Base s) (event : Event) : s.advance event = s.next event := by
  cases event <;> simp [advance, next, h.alive]

theorem start_base (registry : JsString → Option TaskDefinition) : Base (opened Store.empty registry) :=
  opened_base _ empty_tracked.grounded empty_tracked.listed registry

theorem run_base (registry : JsString → Option TaskDefinition) (events : List Event) :
    Base ((machine registry).run events) :=
  (machine registry).runFrom_induction (P := Base) (fun s event h => by
    show Base (s.advance event)
    rw [advance_eq h event]
    exact next_base s h event) _ (start_base registry) events

end Scheduler

end PiAgent.Harness
