import PiAgent.Harness.SchedulerEvents

/-! # Tasks end after their owned work -/

namespace PiAgent.Harness

open Option Function Durable

namespace Scheduler

/-! ## No task ends too early -/

def EndsFree (store store' : Store) : Prop :=
  ∀ id r', (∀ r, store.tasks id = some r → isTerminal r = false) → store'.tasks id = some r' → isTerminal r' = true →
    ∀ t, ¬store'.Owned id t

variable (store : Store)

theorem EndsFree.refl : EndsFree store store := by
  intro id r hlive hr hterm
  simp [hlive r hr] at hterm

variable {s s' : Scheduler}

theorem land_endsFree (h : Tracked s.store s.own) {tx : Tx} {inputs : List Id} {others : Bool}
    (hp : Planned s tx) (hl : s.land tx inputs others = some s') : EndsFree s.store s'.store := by
  rcases land_store hp h hl with hstore | ⟨rfl, -⟩
  · rw [hstore]
    intro id r' hlive hr' hterm
    cases hw : tx.write id with
    | none =>
      rw [Tx.candidate_of_noWrite hw, hp.store] at hr'
      simp [hlive r' hr'] at hterm
    | some w =>
      rw [Tx.candidate_of_write hw] at hr'
      obtain rfl := some.inj hr'
      exact (hp.ended id w hw hterm).2
  · exact EndsFree.refl _

variable (s : Scheduler)

theorem next_endsFree (h : Base s) (event : Event) : EndsFree s.store (s.next event).store := by
  rcases next_store s h event with hsame | ⟨mid, tx, inputs, others, landed, hmid, hstore, hp, hl, hnext⟩
  · rw [hsame]
    exact EndsFree.refl _
  · rw [hnext, ← hstore]
    exact land_endsFree hmid.tracked hp hl

/-! ## No task holds its outcome too long -/

def Pending (s : Scheduler) : Prop := s.reconcileScheduled = true ∨ s.passes ≠ []

/-- A task that holds an outcome has live owned work, or is checked by the next finalize pass, which is pending
unless `q` says so otherwise. -/
def Checked (q : Prop) (s : Scheduler) : Prop :=
  ∀ id r, s.own.live id = some r → isCompleting r = true →
    (∃ t, s.store.Owned id t) ∨ (id ∈ s.finalizeChecks ∧ (q ∨ Pending s))

def Holding (q : Prop) (t : Scheduler) (rest : List TaskRecord) : Prop :=
  ∀ id r, t.own.live id = some r → isCompleting r = true →
    t.own.Holds t.store id ∨ (id ∈ t.finalizeChecks ∧ (q ∨ Pending t)) ∨ ∃ v ∈ rest, v.id = id ∧ isTerminal v = true

variable {s s' : Scheduler}

theorem Tracks.pending {r : TaskRecord} (h : Tracks s r s') (hf : Flags s r s') (hs : Pending s) : Pending s' := by
  rcases hs with hs | hs
  · exact Or.inl (hf.scheduled hs)
  · refine Or.inr ?_
    rw [h.static.passes]
    exact hs

variable {q : Prop}

theorem Holding.step {t t' : Scheduler} {r : TaskRecord} {rest : List TaskRecord} {rank : Node → ℕ}
    (hg : t.store.Grounded rank) (h : Holding q t (r :: rest)) (htr : Ownership.Tracking t.store t.own (r :: rest))
    (ht : Tracks t r t') (hf : Flags t r t') : Holding q t' rest := by
  have hown : t'.own = t.own.track t.store.count r := by rw [ht.rest]
  have hstore : t'.store = t.store := by rw [ht.rest]
  intro id x hx hc
  rw [hown, hstore]
  rcases ht.live_cases hx with ⟨rfl, rfl, hterm⟩ | ⟨hid, hx⟩
  · have hmem := ht.held hc
    cases hbefore : (t.own.live x.id).any isCompleting with
    | false => exact Or.inr (Or.inl ⟨hmem, Or.inr (Or.inl (hf.held hc hbefore))⟩)
    | true =>
      obtain ⟨old, hold, holdc⟩ := (Option.any_eq_true _ _).mp hbefore
      rcases h x.id old hold holdc with hholds | ⟨-, hq⟩ | ⟨v, hv, hvid, hvt⟩
      · exact Or.inl (htr.holds_mono hterm hholds)
      · exact Or.inr (Or.inl ⟨hmem, hq.imp_right (ht.pending hf)⟩)
      · -- the task is published once
        rcases List.mem_cons.mp hv with rfl | hrest
        · simp [hterm] at hvt
        · have hn := htr.nodup
          rw [List.map_cons, List.nodup_cons] at hn
          exact absurd (hvid ▸ List.mem_map_of_mem hrest) hn.1
  · rcases h id x hx hc with hholds | ⟨hmem, hq⟩ | ⟨v, hv, hvid, hvt⟩
    · cases hterm : isTerminal r with
      | false => exact Or.inl (htr.holds_mono hterm hholds)
      | true =>
        rcases htr.freed hg hterm hx hid hholds with hstill | habove
        · exact Or.inl hstill
        · have hxid := (htr.live id x hx).1
          have hmem := (ht.freed hterm x habove).1 hc
          rw [hxid] at hmem
          exact Or.inr (Or.inl ⟨hmem, Or.inr (Or.inl (hf.ended hterm))⟩)
    · exact Or.inr (Or.inl ⟨ht.checks id hmem (fun he => absurd he hid), hq.imp_right (ht.pending hf)⟩)
    · rcases List.mem_cons.mp hv with rfl | hrest
      · exact absurd hvid.symm hid
      · exact Or.inr (Or.inr ⟨v, hrest, hvid, hvt⟩)

theorem under_candidate {s : Scheduler} {tx : Tx} (hp : Planned s tx) {pass : Id → TaskNode → Bool} {n m : Node}
    (h : Harness.Under s.store.node s.store.edge pass n m) :
    Harness.Under tx.candidate.node tx.candidate.edge pass n m := by
  refine h.mono ?_ ?_ (fun _ _ _ hpass => hpass)
  · intro id nd hn
    obtain ⟨old, hold, rfl⟩ := map_eq_some_iff.mp hn
    obtain ⟨new, hnew, hnode⟩ := Tx.candidate_node hp.staged id old (by rw [hp.store]; exact hold)
    rw [Store.node, hnew, map_some, hnode]
  · intro c v hc
    obtain ⟨old, hold, rfl⟩ := map_eq_some_iff.mp hc
    rw [Store.edge, Tx.candidate_conversation hp.staged c old (by rw [hp.store]; exact hold), map_some]

theorem holds_of_owned {s : Scheduler} {tx : Tx} (hp : Planned s tx) (h : Tracked s.store s.own) {own : Ownership}
    (hlive : own.live = s.own.live) {o t : Id} (ho : s.store.Owned o t) : own.Holds tx.candidate o := by
  obtain ⟨r, hr, ht, hb, hu⟩ := ho
  refine ⟨t, r, ?_, hb, under_candidate hp hu⟩
  rw [hlive]
  exact (h.mirrors t r).mpr ⟨hr, ht⟩

theorem land_checked {s s' : Scheduler} (h : Base s) {tx : Tx} {inputs : List Id} {others : Bool}
    (hp : Planned s tx) (hl : s.land tx inputs others = some s')
    (hc : ∀ id r, s.own.live id = some r → isCompleting r = true →
      (∃ t, s.store.Owned id t) ∨ (id ∈ s.finalizeChecks ∧ (q ∨ Pending s)) ∨ Ends tx id) : Checked q s' := by
  have hstart : ∀ own : Ownership, own.live = s.own.live →
      Holding q { s with store := tx.candidate, own := own } tx.stagedTasks := by
    intro own hlive id r hr hcompleting
    have hr' : s.own.live id = some r := hlive ▸ hr
    rcases hc id r hr' hcompleting with ⟨t, ht⟩ | hcheck | ⟨w, hw, hterm⟩
    · exact Or.inl (holds_of_owned hp h.tracked hlive ht)
    · exact Or.inr (Or.inl hcheck)
    · exact Or.inr (Or.inr ⟨w.record, List.mem_map_of_mem (Tx.write_mem hw), hp.staged.id _ _ hw, hterm⟩)
  obtain ⟨rank, hg⟩ := hp.staged.grounded
  rcases land_cases (P := Holding q) hp h.tracked hl hstart
    (fun t r rest htr hst hh t' ht hf => hh.step (hst ▸ hg) htr ht hf) with ⟨rfl, hw, -⟩ | ⟨mid, hh, hpub⟩
  · intro id r hr hcompleting
    rcases hc id r hr hcompleting with ht | hcheck | ⟨w, hwr, -⟩
    · exact Or.inl ht
    · exact Or.inr hcheck
    · have hmem := Tx.write_mem hwr
      simp [hw] at hmem
  · intro id r hr hcompleting
    have hlive : s'.own.live = mid.own.live := by
      rw [hpub.rest]
      exact Ownership.sweep_live _
    have hstore : s'.store = tx.candidate := by rw [hpub.rest]; exact hpub.store
    rw [hlive] at hr
    rcases hh id r hr hcompleting with hholds | ⟨hmem, hq⟩ | ⟨v, hv, -⟩
    · refine Or.inl ?_
      rw [hstore]
      rw [hpub.store] at hholds
      exact (hpub.tracking.mirrors.holds_iff id).mp hholds
    · refine Or.inr ⟨?_, hq.imp_right ?_⟩
      · rw [hpub.rest]
        exact hmem
      · rintro (hsched | hpasses)
        · exact Or.inl (hpub.scheduled hsched)
        · refine Or.inr ?_
          rw [hpub.static.passes]
          exact hpasses
    · simp at hv

/-! ## Every event -/

theorem plans_checked {s s' : Scheduler} (h : Plans s s') (hc : Checked q s) : Checked q s' := by
  intro id r hr hcompleting
  rw [h.live] at hr
  have hchecks : s'.finalizeChecks = s.finalizeChecks := by rw [h.rest]
  have hpasses : s'.passes = s.passes := by rw [h.rest]
  rcases hc id r hr hcompleting with ht | ⟨hmem, hq⟩
  · rw [h.store]
    exact Or.inl ht
  · rw [hchecks]
    refine Or.inr ⟨hmem, hq.imp_right ?_⟩
    rintro (hs | hs)
    · exact Or.inl (h.scheduled hs)
    · exact Or.inr (hpasses ▸ hs)

theorem land_kept {s s' : Scheduler} (h : Base s) {tx : Tx} {inputs : List Id} {others : Bool}
    (hp : Planned s tx) (hl : s.land tx inputs others = some s') (hc : Checked q s) : Checked q s' :=
  land_checked h hp hl fun id r hr hcompleting => (hc id r hr hcompleting).imp_right Or.inl

theorem runReconcile_checked (s : Scheduler) (h : Base s) (queued : List Id) (others : Bool) (hc : Checked False s) :
    Checked False (s.runReconcile queued others) := by
  cases hpass : s.passes with
  | nil =>
    unfold runReconcile
    rw [hpass]
    exact hc
  | cons pass rest =>
    obtain ⟨mid, marked, tx, hr⟩ := runReconcile_spec s h.tracked pass rest hpass queued others
    obtain ⟨others', hl⟩ := hr.lands
    have h2 := hr.base h
    have hchecks : mid.finalizeChecks = s.finalizeChecks := by rw [hr.plans.rest]
    refine land_checked h2 hr.planned hl ?_
    intro id r hlr hcompleting
    have hls : s.own.live id = some r := by
      have := hr.plans.live
      rw [← this]
      exact hlr
    by_cases howned : ∃ t, mid.store.Owned id t
    · exact Or.inl howned
    · have hnone : ∀ t, ¬mid.store.Owned id t := fun t ht => howned ⟨t, ht⟩
      rcases hc id r hls hcompleting with ht | ⟨hmem, -⟩
      · rw [hr.plans.store] at howned
        exact absurd ht howned
      · exact Or.inr (Or.inr (hr.ends id (hchecks ▸ hmem) r hlr hcompleting hnone))

section

variable (hg : ∃ rank, store.Grounded rank) (hl : store.Listed) (registry : JsString → Option TaskDefinition)
include hg hl

theorem found_checks (id : Id) (r : TaskRecord) (hr : (found store registry).own.live id = some r)
    (hc : isCompleting r = true) : id ∈ (found store registry).finalizeChecks :=
  found_tracked store hg hl registry (fun _ _ _ ht _ hc => ht.held hc)
    (fun _ _ _ id ht hmem hid => ht.checks id hmem (fun he => absurd he hid)) id r hr hc

theorem opened_checked : Checked False (opened store registry) := by
  obtain ⟨mid, tx, ho⟩ := opened_spec store hg hl registry
  obtain ⟨landed, hland, hs'⟩ := ho.lands
  have hchecked : Checked True landed := by
    refine land_kept ho.base ho.planned hland ?_
    intro id r hr hc
    rw [ho.sets.2.1] at hr
    rw [ho.sets.2.2]
    exact Or.inr ⟨found_checks store hg hl registry id r hr hc, Or.inl trivial⟩
  rw [hs']
  intro id r hr hc
  rcases hchecked id r hr hc with ht | ⟨hmem, -⟩
  · exact Or.inl ht
  · exact Or.inr ⟨hmem, Or.inr (Or.inl rfl)⟩

end

theorem next_checked (s : Scheduler) (h : Base s) (event : Event) (hc : Checked False s) :
    Checked False (s.next event) := by
  rcases next_kept s h (P := Checked False) (fun _ _ hp ht => plans_checked hp ht)
    (fun _ _ _ _ _ hb hp hl ht => land_kept hb hp hl ht) (fun _ _ _ _ _ _ _ ht => ht) hc event
    with hk | ⟨n, rfl⟩ | rfl | ⟨q, o, rfl⟩ | rfl | ⟨r, rfl⟩
  · exact hk
  · obtain ⟨runs, dirty, draining, hf | hf⟩ := finish_fields s n
    · show Checked False (s.finish n)
      rw [hf]
      have hended := plans_checked (endInvocation_plans s n) hc
      exact hended
    · show Checked False (s.finish n)
      rw [hf]
      exact hc
  · show Checked False s.startReconcile
    unfold startReconcile
    split
    · intro id r hr hcompleting
      exact (hc id r hr hcompleting).imp_right fun hcheck => ⟨hcheck.1, Or.inr (Or.inr (by simp))⟩
    · exact hc
  · exact runReconcile_checked s h q o hc
  · intro id r hr hcompleting
    have hlive : s.own.sweepJob.live = s.own.live := Ownership.sweep_live _
    have hr' : s.own.live id = some r := by
      rw [← hlive]
      exact hr
    exact hc id r hr' hcompleting
  · exact opened_checked s.store h.tracked.grounded h.tracked.listed r

/-! ## The result -/

/-- In every reachable state: no event ends a task with live owned work, and once no pass is pending each task
that holds an outcome has such work. -/
theorem ends_after_owned (registry : JsString → Option TaskDefinition) (events : List Event) :
    let s := (machine registry).run events
    (∀ event, EndsFree s.store (s.advance event).store) ∧
      (s.reconcileScheduled = false → s.passes = [] → ∀ id r, s.store.tasks id = some r → isCompleting r = true →
        ∃ t, s.store.Owned id t) := by
  intro s
  have hbase : Base s := run_base registry events
  refine ⟨?_, ?_⟩
  · intro event
    rw [advance_eq hbase]
    exact next_endsFree s hbase event
  · intro hsched hpasses id r hr hc
    have hchecked : Checked False s :=
      ((machine registry).runFrom_induction (P := fun s => Base s ∧ Checked False s) (fun s event h => by
        show Base (s.advance event) ∧ Checked False (s.advance event)
        rw [advance_eq h.1 event]
        exact ⟨next_base s h.1 event, next_checked s h.1 event h.2⟩) _
        ⟨start_base registry, opened_checked _ empty_tracked.grounded empty_tracked.listed registry⟩ events).2
    have hlive : isTerminal r = false := by
      cases hterm : isTerminal r with
      | false => rfl
      | true => simp [not_completing_of_terminal hterm] at hc
    rcases hchecked id r ((hbase.tracked.mirrors id r).mpr ⟨hr, hlive⟩) hc with ht | ⟨-, hfalse | hs | hs⟩
    · exact ht
    · exact hfalse.elim
    · simp [hsched] at hs
    · exact absurd hpasses hs

def heldOutcome : List Event :=
  let options (id : Id) (owner conversation : Option Id) : Tx.TaskOptions :=
    { id := id, kind := [], version := 1, owner := owner, conversationId := conversation, background := false,
      abandonOnRestart := false, checkpoint := .null, body := .null }
  [.startReconcile, .runReconcile [] false,
    .hostCommit [.createConversation 1 none none, .createTask (options 2 none (some 1))] [] false,
    .register (fun _ => some ⟨0, 1, none⟩), .resume, .drain, .runReserve,
    .runtimeCommit 0 [.createTask (options 3 (some 2) none)] none [] false,
    .runtimeCommit 0 [] (some (.terminal ⟨.completed, .null⟩)) [] false, .startReconcile, .runReconcile [] false,
    .startReconcile, .runReconcile [] false]

theorem ends_after_owned_held : let s := (machine (fun _ => none)).run heldOutcome
    s.reconcileScheduled = false ∧ s.passes = [] ∧ (s.store.tasks 2).any isCompleting = true ∧ ∃ t, s.store.Owned 2 t := by
  have hcompleting : (((machine (fun _ => none)).run heldOutcome).store.tasks 2).any isCompleting = true := by decide
  obtain ⟨r, hr, hc⟩ := (Option.any_eq_true _ _).mp hcompleting
  exact ⟨by decide, by decide, hcompleting, (ends_after_owned (fun _ => none) heldOutcome).2 (by decide) (by decide) 2 r hr hc⟩

end Scheduler

end PiAgent.Harness
