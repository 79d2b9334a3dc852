import PiAgent.Harness.SchedulerLands

/-! # The callbacks on the line -/

namespace PiAgent.Harness

open Option Durable

namespace Scheduler

inductive Moves (s : Scheduler) : Scheduler → Prop
  | plan {s' : Scheduler} (h : Plans s s') : Moves s s'
  | commit {s₁ s' : Scheduler} {tx : Tx} {inputs : List Id} {others : Bool} (hs : Plans s s₁) (hp : Planned s₁ tx)
      (hl : s₁.land tx inputs others = some s') : Moves s s'

theorem Plans.trackedAfter {s s' : Scheduler} (hs : Plans s s') (h : Tracked s.store s.own) :
    Tracked s'.store s'.own := by
  rw [hs.store]
  exact hs.tracked h

variable {s : Scheduler}

theorem land_some {tx : Tx} (hp : Planned s tx) (hm : Ownership.Mirrors s.store s.own)
    (hi : Internal tx) (inputs : List Id) (others : Bool) : ∃ s', s.land tx inputs others = some s' := by
  have howners : tx.validateOwners = true := by
    unfold Tx.validateOwners
    rw [Bool.and_eq_true, List.all_eq_true, List.all_eq_true]
    refine ⟨by simp [hi.conversations], ?_⟩
    intro w hw
    simp [hi.replaces _ w (Tx.mem_writes hp.staged w hw)]
  have hreplaced : tx.validateReplaced = true := by
    unfold Tx.validateReplaced
    rw [List.all_eq_true]
    intro w hw
    have hwrite := Tx.mem_writes hp.staged w hw
    obtain ⟨old, hold, hr⟩ := hp.replaced _ w hwrite (hi.replaces _ w hwrite)
    obtain ⟨hstored, hterm⟩ := (hm _ old).mp hold
    have hc : old.conversationId = w.record.conversationId := (congrArg TaskNode.conversationId hr.node).symm
    rw [hp.store, hstored]
    simp [hterm, hc]
  unfold land Tx.assemble
  rw [howners, hreplaced]
  exact ⟨_, rfl⟩

variable {s s₁ : Scheduler}

theorem landOwn_moves (hs : Plans s s₁) (h : Tracked s.store s.own) {tx : Tx} (hp : Planned s₁ tx)
    (hi : Internal tx) (others : Bool) : Moves s (s₁.landOwn (some tx) others) := by
  obtain ⟨s', hl⟩ := land_some hp (hs.trackedAfter h).mirrors hi [] others
  have : s₁.landOwn (some tx) others = s' := by simp [landOwn, hl]
  rw [this]
  exact .commit hs hp hl

theorem landOther_moves (hs : Plans s s₁) {tx : Option Tx} (hp : ∀ t, tx = some t → Planned s₁ t)
    (inputs : List Id) (others : Bool) : Moves s (s₁.landOther tx inputs others) := by
  unfold landOther
  cases tx with
  | none => exact .plan hs
  | some t =>
    rw [bind_some]
    cases hl : s₁.land t inputs others with
    | none => exact .plan hs
    | some s' => exact .commit hs (hp t rfl) hl

/-! ## Callers' commits -/

variable (s : Scheduler)

theorem hostCommit_moves (h : Tracked s.store s.own) (ops : List TxOp) (inputs : List Id) (others : Bool) :
    Moves s (s.landOther (some ((Tx.start s.store).runAll ops)) inputs others) := by
  refine landOther_moves (Plans.refl s) ?_ inputs others
  intro t ht
  obtain rfl := some.inj ht
  exact runAll_planned h ops

variable {s : Scheduler}

theorem gate_spec (h : Tracked s.store s.own) {number : ℕ} {invocation : Invocation}
    {current : TaskRecord} (hg : s.gate number = some (invocation, current)) :
    s.runs[number]? = some invocation ∧ invocation.ended = false ∧ current.id = invocation.taskId ∧
      s.own.live current.id = some current ∧ current.state.status = .running ∧
      ¬(invocation.mode = .run ∧ current.abortRequested = true) := by
  obtain ⟨rank, hgr⟩ := h.grounded
  unfold gate at hg
  split at hg
  · simp at hg
  · rename_i inv hinv
    split at hg
    · simp at hg
    · rename_i hended
      split at hg
      · simp at hg
      · rename_i cur hcur
        split at hg
        · simp at hg
        · rename_i hmode
          simp only [Option.some.injEq, Prod.mk.injEq] at hg
          obtain ⟨rfl, rfl⟩ := hg
          obtain ⟨hl, hst⟩ := filter_eq_some_iff.mp hcur
          have hid := hgr.taskId _ _ ((h.mirrors _ _).mp hl).1
          refine ⟨hinv, by simpa using hended, hid, by rw [hid]; exact hl, by simpa using hst, ?_⟩
          simpa using hmode

variable (s : Scheduler)

theorem runtimeCommit_moves (h : Tracked s.store s.own) (number : ℕ) (ops : List TxOp)
    (next : Option NextState) (inputs : List Id) (others : Bool) :
    Moves s (s.runtimeCommit number ops next inputs others) := by
  unfold runtimeCommit
  split
  · exact .plan (Plans.refl s)
  · rename_i invocation current hg
    obtain ⟨-, -, -, hl, hst, -⟩ := gate_spec h hg
    have hp := runAll_planned h ops
    have hcreates := Tx.runAll_creates _ (Tx.start_creates s.store) ops
    cases next with
    | none =>
      refine landOther_moves (Plans.refl s) ?_ inputs others
      intro t ht
      obtain rfl := some.inj ht
      exact hp
    | some next =>
      obtain ⟨hplans, hplanned⟩ := commitState_planned s h hp hcreates invocation.mode hl hst next
      exact landOther_moves hplans hplanned inputs others

theorem runtimeMemo_moves (h : Tracked s.store s.own) (number : ℕ) : Moves s (s.runtimeMemo number) := by
  unfold runtimeMemo
  split
  · exact .plan (Plans.refl s)
  · rename_i invocation current hg
    obtain ⟨-, -, -, hl, hst, -⟩ := gate_spec h hg
    have hstored := (h.mirrors _ _).mp hl
    refine landOther_moves (Plans.refl s) ?_ [] false
    intro t ht
    have hcur : (Tx.start s.store).currentTask current.id = some current := by
      simp [Tx.currentTask, Tx.start, Tx.write, hstored.1]
    obtain ⟨t', ht', hp⟩ := (start_planned s h).setTask h.mirrors current hl hcur hstored.2 (Rewrites.refl current)
      (by simp [hstored.2])
    obtain rfl : t = t' := some.inj (ht.symm.trans ht')
    exact hp

/-! ## Steps of an invocation -/

theorem runningRecord_spec {s : Scheduler} (h : Tracked s.store s.own) {id : Id} {current : TaskRecord}
    (hr : s.runningRecord id = some current) :
    current.id = id ∧ s.own.live current.id = some current ∧ current.state.status = .running := by
  obtain ⟨rank, hg⟩ := h.grounded
  obtain ⟨hl, hst⟩ := filter_eq_some_iff.mp hr
  have hid := hg.taskId _ _ ((h.mirrors _ _).mp hl).1
  exact ⟨hid, by rw [hid]; exact hl, by simpa using hst⟩

structure Decides (s : Scheduler) (current : TaskRecord) (p : Scheduler × Option Tx × Decision) : Prop where
  plans : Plans s p.1
  planned : ∃ tx, p.2.1 = some tx ∧ Planned s tx ∧ Internal tx ∧ (p.2.2 = .fault → tx.currentTask current.id = some current)

theorem stepWith_moves (h : Tracked s.store s.own) (number : ℕ) (invocation : Invocation)
    (decide : Scheduler → Tx → TaskRecord → Scheduler × Option Tx × Decision)
    (hd : ∀ current, s.own.live current.id = some current → current.state.status = .running →
      Decides s current (decide s (Tx.start s.store) current)) :
    Moves s (s.stepWith number invocation decide) := by
  unfold stepWith
  split
  · exact .plan (endInvocation_plans s number)
  · rename_i current hcurrent
    obtain ⟨hid, hl, hst⟩ := runningRecord_spec h hcurrent
    obtain ⟨hplans, tx, htx, hp, hi, hcur⟩ := hd current hl hst
    generalize decide s (Tx.start s.store) current = p at *
    obtain ⟨s₁, tx₁, decision⟩ := p
    dsimp only at hplans htx hcur ⊢
    subst htx
    cases decision with
    | proceed => exact landOwn_moves hplans h (hp.plans hplans) hi false
    | stop =>
      have hall := hplans.trans (endInvocation_plans s₁ number)
      exact landOwn_moves hall h (hp.plans hall) hi false
    | fault =>
      have hall := hplans.trans (endInvocation_plans s₁ number)
      have hl' : (s₁.endInvocation number).own.live current.id = some current := by rw [hall.live, hl]
      have ht := hall.trackedAfter h
      obtain ⟨hterm, tx', htx', hp', hi'⟩ := terminate_decided (s₁.endInvocation number) ht (hp.plans hall) hi hl'
        (hcur rfl) (by simp [isTerminal, hst]) (by simp [isCompleting, hst]) ⟨.faulted, .null⟩
      dsimp only
      rw [htx']
      exact landOwn_moves (hall.trans hterm) h hp' hi' false

theorem start_current {s : Scheduler} (h : Tracked s.store s.own) {current : TaskRecord}
    (hl : s.own.live current.id = some current) : (Tx.start s.store).currentTask current.id = some current := by
  simp [Tx.currentTask, Tx.start, Tx.write, ((h.mirrors _ _).mp hl).1]

theorem decideRun_decides (h : Tracked s.store s.own) (definition : TaskDefinition)
    (previous : Option PhaseResult) (current : TaskRecord) (hl : s.own.live current.id = some current)
    (hst : current.state.status = .running) :
    Decides s current (s.decideRun (Tx.start s.store) current definition previous) := by
  have hstart := start_planned s h
  have hi := start_internal s.store
  have hcur := start_current h hl
  -- the transaction as it started, with any decision
  have hkeep : ∀ s₁ decision, Plans s s₁ → Decides s current (s₁, some (Tx.start s.store), decision) :=
    fun s₁ decision hplans => ⟨hplans, _, rfl, hstart, hi, fun _ => hcur⟩
  unfold decideRun
  split
  · exact hkeep s .stop (Plans.refl s)
  · split
    · exact hkeep _ .stop (cascade_plans s)
    · split
      · exact hkeep s .proceed (Plans.refl s)
      · split
        · exact hkeep s .fault (Plans.refl s)
        · split
          · exact hkeep s .fault (Plans.refl s)
          · split
            · split
              · obtain ⟨tx', htx', hp'⟩ := hstart.setTask h.mirrors (withState current (.pending (checkpointOf current)))
                  hl hcur (by simp [isTerminal, hst]) (rewrites_withState (by simp [isCompleting, hst]) _)
                  (by simp [withState, isTerminal, TaskState.status])
                exact ⟨Plans.refl s, tx', htx', hp', hi.setTask _ htx', fun hf => by simp at hf⟩
              · exact hkeep s .proceed (Plans.refl s)
            · exact hkeep s .proceed (Plans.refl s)

theorem step_moves (h : Tracked s.store s.own) (number : ℕ) (previous : Option PhaseResult) :
    Moves s (s.step number previous) := by
  unfold step
  split
  · exact .plan (Plans.refl s)
  · rename_i invocation hinv
    split
    · exact stepWith_moves s h number invocation _
        (fun current hl hst => decideRun_decides s h invocation.definition previous current hl hst)
    · refine stepWith_moves s h number invocation _ (fun current hl hst => ?_)
      exact ⟨Plans.refl s, _, rfl, start_planned s h, start_internal s.store, fun _ => start_current h hl⟩

theorem stepOf_moves (h : Tracked s.store s.own) (number : ℕ) (previous : Option PhaseResult) :
    Moves s (s.stepOf number previous) := by
  unfold stepOf
  split
  · exact step_moves s h number previous
  · exact .plan (Plans.refl s)

/-! ## Requests -/

theorem mark_moves {s s₁ : Scheduler} (hs : Plans s s₁) (h : Tracked s.store s.own) {current : TaskRecord}
    (hl : s₁.own.live current.id = some current) (id : Id) (cond : Bool) :
    Moves s (s₁.landOther (if cond then ((Tx.start s₁.store).taskEntry id).setTask (withAbortMark current false)
      else some ((Tx.start s₁.store).taskEntry id)) [] false) := by
  have h₁ := hs.trackedAfter h
  have hm := taskEntry_marking (start_marking s₁ false h₁) id
  refine landOther_moves hs ?_ [] false
  intro t ht
  split at ht
  · obtain ⟨t', ht', hm'⟩ := mark_marking h₁ hm hl (by simp)
    obtain rfl : t = t' := some.inj (ht.symm.trans ht')
    exact hm'.planned
  · obtain rfl := some.inj ht
    exact hm.planned

theorem abort_moves (h : Tracked s.store s.own) (id : Id) (keepRestart : Bool) :
    Moves s (s.abort id keepRestart) := by
  obtain ⟨rank, hg⟩ := h.grounded
  unfold abort
  split
  · exact .plan (Plans.refl s)
  · rename_i current hstored
    split
    · exact .plan (Plans.refl s)
    · rename_i hskip
      have hlive : isTerminal current = false := by
        rw [Bool.or_eq_true, not_or, Bool.not_eq_true] at hskip
        exact hskip.1
      have hid : current.id = id := hg.taskId _ _ hstored
      have hl : s.own.live current.id = some current := by
        rw [hid]
        exact (h.mirrors _ _).mpr ⟨hstored, hlive⟩
      dsimp only
      split
      · exact mark_moves (Plans.refl s) h hl id _
      · rename_i hbusy
        have hload := loadScopes_plans s [] (by simp) h
        have hstore : (s.loadScopes []).store = s.store := hload.store
        have hl₁ : (s.loadScopes []).own.live current.id = some current := by rw [hload.live, hl]
        split
        · have := mark_moves hload h hl₁ id (!current.abortRequested || current.restart)
          rwa [hstore] at this
        · have hres := resolve_plans (s.loadScopes []) current hl₁
          have hall := hload.trans hres
          cases hr : (s.loadScopes []).resolve current with
          | mk s₂ found =>
            rw [hr] at hres hall
            have hstore₂ : s₂.store = s.store := hall.store
            have hl₂ : s₂.own.live current.id = some current := by rw [hall.live, hl]
            cases found with
            | some found =>
              have := mark_moves hall h hl₂ id (!current.abortRequested || current.restart)
              rwa [hstore₂] at this
            | none =>
              have ht₂ := hall.trackedAfter h
              have hentry := taskEntry_planned (start_planned s h) id
              have hcur : ((Tx.start s.store).taskEntry id).currentTask current.id = some current := by
                have := start_current h hl
                simpa [Tx.currentTask, Tx.taskEntry_write, (Tx.taskEntry_fields (Tx.start s.store) id).1] using this
              have hc : isCompleting current = false := by
                rw [Bool.or_eq_true, not_or, Bool.not_eq_true, Bool.not_eq_true] at hbusy
                exact hbusy.2
              obtain ⟨hterm, tx', htx', hp', -⟩ := terminate_decided s₂ ht₂ (hentry.plans hall)
                ((start_internal s.store).taskEntry id) hl₂ hcur hlive hc ⟨.orphaned, .null⟩
              dsimp only
              refine landOther_moves (hall.trans hterm) ?_ [] false
              intro t ht
              obtain rfl : t = tx' := some.inj (ht.symm.trans htx')
              exact hp'

theorem abortConversation_moves (h : Tracked s.store s.own) (c : Id) (background : Bool)
    (queued : List Id) (hq : ∀ c ∈ queued, (s.store.conversations c).isSome = true) (others : Bool) :
    Moves s (s.abortConversation c background queued others) := by
  have hload := loadScopes_plans s queued hq h
  have h₁ := hload.trackedAfter h
  unfold abortConversation
  dsimp only
  generalize hs₁ : s.loadScopes queued = s₁ at *
  generalize hreached : (s₁.own.walkDown s₁.store.count Overlay.empty background (fun _ => true)
    (.conversation c)).filterMap (fun reached =>
      if reached.node.background && !background then none else reached.live) = reached
  have hlive : ∀ r ∈ reached, s₁.own.live r.id = some r := by
    intro r hr
    rw [← hreached] at hr
    obtain ⟨t, ht, htr⟩ := List.mem_filterMap.mp hr
    split at htr
    · simp at htr
    · exact (live_of_walkDown h₁ _ _ _ t ht r htr).2
  obtain ⟨tx, htx, hm⟩ := foldlM_option (P := Marking s₁ false)
    (fun (tx : Tx) live => if !live.abortRequested || live.restart then tx.setTask (withAbortMark live false) else some tx)
    reached (by
      intro tx live hmem hmk
      split
      · exact mark_marking h₁ hmk (hlive live hmem) (by simp)
      · exact ⟨tx, rfl, hmk⟩) (Tx.start s₁.store) (start_marking s₁ false h₁)
  rw [htx]
  refine landOther_moves hload ?_ [] others
  intro t ht
  obtain rfl := some.inj ht
  exact hm.planned

end Scheduler

end PiAgent.Harness
