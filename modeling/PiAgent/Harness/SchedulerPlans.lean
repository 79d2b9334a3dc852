import PiAgent.Harness.Scheduler
import PiAgent.Harness.OwnershipStaged

/-!
# The parts of a scheduler step before its commit

A step first loads chains and takes decisions, and stages what it will write. That
leaves what is stored and published as it is. `Plans` says what it may change, and
`Planned` what a transaction of the scheduler may hold.
-/

namespace PiAgent.Harness

open Option Durable

namespace Scheduler

/-! ## Blocked tasks -/

def Blocked (store : Store) (id : Id) (record : TaskRecord) : Prop :=
  (record.abortRequested = false ∧ ∃ m ∈ waitsFor record, store.Live m) ∨
    (record.abortRequested = true ∧ ∃ t, store.Owned id t)

def Unfit (s : Scheduler) (record : TaskRecord) : Prop :=
  ∀ task, s.registry record.kind = some task → task.version < record.version ∨
    (record.version < task.version ∧ (s.failedMigrations record.id = some task.identity ∨
      task.migrate.bind (fun migrate => migrate record.body (checkpointOf record) record.version) = none))

variable (s : Scheduler)

theorem resolve_none_iff (record : TaskRecord) : (s.resolve record).2 = none ↔ s.Unfit record := by
  unfold resolve fit Unfit
  cases hreg : s.registry record.kind with
  | none => simp
  | some task =>
    simp only [Option.some.injEq, forall_eq']
    by_cases heq : task.version = record.version
    · simp [heq]
    · by_cases hlt : task.version < record.version
      · simp [heq, hlt]
      · have hgt : record.version < task.version := by omega
        by_cases hfailed : s.failedMigrations record.id = some task.identity
        · simp [heq, hlt, hgt, hfailed]
        · simp only [heq, hlt, hgt, hfailed, if_false, false_or, true_and]
          cases task.migrate.bind (fun migrate => migrate record.body (checkpointOf record) record.version) with
          | none => simp
          | some result => simp

def Invoked (s : Scheduler) : Prop :=
  ∀ id n, s.invocations id = some n ↔ ∃ run, s.runs[n]? = some run ∧ run.taskId = id ∧ run.ended = false

def Joined (s : Scheduler) : Prop :=
  ∀ (n : ℕ) (run : Invocation), s.runs[n]? = some run → run.finished = true → run.ended = true

/-! ## What comes before a commit -/

structure Plans (s s' : Scheduler) : Prop where
  rest : s' = { s with own := s'.own, reconcileScheduled := s'.reconcileScheduled, cascadePending := s'.cascadePending
                       failedMigrations := s'.failedMigrations, runnable := s'.runnable
                       invocations := s'.invocations, runs := s'.runs }
  tracked : Tracked s.store s.own → Tracked s.store s'.own
  live : s'.own.live = s.own.live
  unloaded : s.own.unloaded = [] → s'.own.unloaded = []
  scheduled : s.reconcileScheduled = true → s'.reconcileScheduled = true
  flagged : (s.cascadePending = true → s.reconcileScheduled = true) →
    s'.cascadePending = true → s'.reconcileScheduled = true
  nodup : s.runnable.Nodup → s'.runnable.Nodup
  unfit : ∀ id r, s.own.live id = some r → r.id = id → s.Unfit r → s'.Unfit r
  runs : ∀ (n : ℕ) (run : Invocation), s.runs[n]? = some run → ∃ run', s'.runs[n]? = some run' ∧
    run'.taskId = run.taskId ∧ run'.mode = run.mode ∧ run'.finished = run.finished ∧
    (run.ended = true → run'.ended = true)
  invoked : s.Invoked → s'.Invoked
  joined : s.Joined → s'.Joined
  /-- A task leaves `runnable` only for an invocation, or while it is blocked. -/
  free : ∀ id r, s.own.live id = some r → isCompleting r = false → s'.invocations id = none →
    id ∈ s'.runnable ∨ Blocked s.store id r ∨ (s.invocations id = none ∧ id ∉ s.runnable)

namespace Plans

variable {s s' s'' : Scheduler}

theorem store (h : Plans s s') : s'.store = s.store := by rw [h.rest]

theorem refl (s : Scheduler) : Plans s s := by
  refine ⟨rfl, id, rfl, id, id, id, id, fun _ _ _ _ => id, ?_, id, id, ?_⟩
  · exact fun n run hrun => ⟨run, hrun, rfl, rfl, rfl, id⟩
  · intro id r _ _ hinv
    by_cases hmem : id ∈ s.runnable
    · exact Or.inl hmem
    · exact Or.inr (Or.inr ⟨hinv, hmem⟩)

theorem trans (h : Plans s s') (h' : Plans s' s'') : Plans s s'' := by
  refine ⟨?_, ?_, h'.live.trans h.live, fun hu => h'.unloaded (h.unloaded hu),
    fun hs => h'.scheduled (h.scheduled hs), fun hf => h'.flagged (h.flagged hf), fun hn => h'.nodup (h.nodup hn),
    fun id r hr hid hu => h'.unfit id r (h.live ▸ hr) hid (h.unfit id r hr hid hu), ?_, fun hi => h'.invoked (h.invoked hi),
    fun hj => h'.joined (h.joined hj), ?_⟩
  · have h2 := h'.rest
    rw [h.rest] at h2
    exact h2
  · intro ht
    have := h'.tracked (h.store.symm ▸ h.tracked ht)
    rwa [h.store] at this
  · intro n run hrun
    obtain ⟨run', hrun', hid, hmode, hfin, hended⟩ := h.runs n run hrun
    obtain ⟨run'', hrun'', hid', hmode', hfin', hended'⟩ := h'.runs n run' hrun'
    exact ⟨run'', hrun'', hid'.trans hid, hmode'.trans hmode, hfin'.trans hfin, fun he => hended' (hended he)⟩
  · intro id r hr hc hinv
    rcases h'.free id r (h.live ▸ hr) hc hinv with hmem | hb | ⟨hinv', hnot⟩
    · exact Or.inl hmem
    · exact Or.inr (Or.inl (h.store ▸ hb))
    · rcases h.free id r hr hc hinv' with hmem | hb | hold
      · exact absurd hmem hnot
      · exact Or.inr (Or.inl hb)
      · exact Or.inr (Or.inr hold)

theorem of_index (own : Ownership) (scheduled cascade : Bool)
    (htracked : Tracked s.store s.own → Tracked s.store own) (hlive : own.live = s.own.live)
    (hunloaded : s.own.unloaded = [] → own.unloaded = [])
    (hscheduled : s.reconcileScheduled = true → scheduled = true)
    (hflagged : (s.cascadePending = true → s.reconcileScheduled = true) → cascade = true → scheduled = true) :
    Plans s { s with own := own, reconcileScheduled := scheduled, cascadePending := cascade } := by
  refine ⟨rfl, htracked, hlive, hunloaded, hscheduled, hflagged, id, fun _ _ _ _ hu => hu, ?_, id, id, ?_⟩
  · exact (refl s).runs
  · exact (refl s).free

end Plans

theorem scheduleReconcile_plans : Plans s s.scheduleReconcile :=
  Plans.of_index s.own true s.cascadePending id rfl id (fun _ => rfl) (fun _ _ => rfl)

theorem cascade_plans : Plans s { s with cascadePending := true }.scheduleReconcile :=
  Plans.of_index s.own true true id rfl id (fun _ => rfl) (fun _ _ => rfl)

/-! ## Loads -/

section

variable (queued : List Id) (hqueued : ∀ c ∈ queued, (s.store.conversations c).isSome = true)
    (h : Tracked s.store s.own)
include hqueued h

theorem loadScopes_sound :
    Tracked s.store (s.loadScopes queued).own ∧ (s.loadScopes queued).own.live = s.own.live ∧
      (s.loadScopes queued).own.unloaded = [] := by
  obtain ⟨rank, hg⟩ := h.grounded
  obtain ⟨hs, hm, hnil⟩ := Ownership.loadUnloaded_sound hg h.sound h.mirrors
  have hhas : ∀ n ∈ queued.map Node.conversation, s.store.has n = true := by
    intro n hn
    obtain ⟨c, hc, rfl⟩ := List.mem_map.mp hn
    simpa [Store.has, Store.up] using hqueued c hc
  obtain ⟨hs', hm'⟩ := Ownership.loadChains_sound hg (Ownership.fits_empty s.store) (queued.map Node.conversation)
    (fun n hn => Or.inl (hhas n hn)) hs hm
  have hnil' := Ownership.loadChains_unloaded hg hg.deep (Ownership.fits_empty s.store) (queued.map Node.conversation)
    (fun n hn => ⟨Or.inl (hhas n hn), lt_of_lt_of_le (hg.bound n (hhas n hn)) (by simp [Overlay.empty])⟩) hs hm hnil
  refine ⟨⟨⟨rank, hg⟩, h.listed, hs', hm'⟩, ?_, hnil'⟩
  -- both indexes mirror the store
  funext id
  refine Option.ext (fun r => ?_)
  rw [h.mirrors id r]
  exact hm' id r

theorem loadScopes_plans : Plans s (s.loadScopes queued) := by
  obtain ⟨ht, hl, hu⟩ := loadScopes_sound s queued hqueued h
  refine Plans.of_index _ _ s.cascadePending (fun _ => ht) hl (fun _ => hu) ?_ ?_
  · intro hs
    simp [hs]
  · intro hf hc
    simp [hf hc]

end

/-! ## Rewritten records -/

/-- What the scheduler may make of a live task's record: it stays in its place, its mark is not taken back
or weakened, and a held outcome is not replaced. -/
structure Rewrites (old new : TaskRecord) : Prop where
  id : new.id = old.id
  node : nodeOf new = nodeOf old
  marked : old.abortRequested = true → new.abortRequested = true
  request : old.abortRequested = true → new.restart = true → old.restart = true
  held : ∀ outcome, old.state = .completing outcome → new.state = .completing outcome ∨ new.state = .terminal outcome

theorem Rewrites.refl (r : TaskRecord) : Rewrites r r := ⟨rfl, rfl, fun h => h, fun _ h => h, fun _ h => Or.inl h⟩

theorem Rewrites.trans {a b c : TaskRecord} (h : Rewrites a b) (hb : isTerminal b = false) (h' : Rewrites b c) :
    Rewrites a c := by
  refine ⟨h'.id.trans h.id, h'.node.trans h.node, fun hm => h'.marked (h.marked hm),
    fun hm hr => h.request hm (h'.request (h.marked hm) hr), ?_⟩
  intro outcome ho
  rcases h.held outcome ho with hb' | hb'
  · exact h'.held outcome hb'
  · simp [isTerminal, hb', TaskState.status] at hb

structure Planned (s : Scheduler) (tx : Tx) : Prop where
  store : tx.store = s.store
  staged : tx.Staged
  replaced : ∀ id w, tx.write id = some w → w.kind = .replace → ∃ old, s.own.live id = some old ∧ Rewrites old w.record
  /-- A task that ends has no live owned work left, and all chains were loaded. -/
  ended : ∀ id w, tx.write id = some w → isTerminal w.record = true →
    s.own.unloaded = [] ∧ ∀ t, ¬tx.candidate.Owned id t

theorem Planned.plans {s s' : Scheduler} {tx : Tx} (h : Planned s tx) (hs : Plans s s') : Planned s' tx := by
  refine ⟨h.store.trans hs.store.symm, h.staged, ?_, ?_⟩
  · intro id w hw hk
    rw [hs.live]
    exact h.replaced id w hw hk
  · intro id w hw ht
    obtain ⟨hu, ho⟩ := h.ended id w hw ht
    exact ⟨hs.unloaded hu, ho⟩

theorem start_planned (h : Tracked s.store s.own) : Planned s (Tx.start s.store) := by
  refine ⟨rfl, Tx.start_staged h.grounded, ?_, ?_⟩ <;> intro id w hw <;> simp [Tx.start, Tx.write] at hw

variable {s : Scheduler}

theorem runAll_planned (h : Tracked s.store s.own) (ops : List TxOp) :
    Planned s ((Tx.start s.store).runAll ops) := by
  have hstaged := Tx.runAll_staged (Tx.start_staged h.grounded) ops
  have hcreates := Tx.runAll_creates _ (Tx.start_creates s.store) ops
  refine ⟨Tx.runAll_store _ ops, hstaged, ?_, ?_⟩
  · intro id w hw hk
    simp [hcreates id w hw] at hk
  · intro id w hw ht
    simp [isTerminal, (hstaged.created id w hw (hcreates id w hw)).2.1] at ht

variable {tx : Tx}

theorem taskEntry_planned (h : Planned s tx) (id : Id) : Planned s (tx.taskEntry id) := by
  refine ⟨(tx.taskEntry_fields id).1.trans h.store, Tx.taskEntry_staged h.staged id, ?_, ?_⟩
  · intro j w hw hk
    rw [Tx.taskEntry_write] at hw
    exact h.replaced j w hw hk
  · intro j w hw ht
    rw [Tx.taskEntry_write] at hw
    rw [Tx.taskEntry_candidate]
    exact h.ended j w hw ht

theorem Planned.live (h : Planned s tx) (hm : Ownership.Mirrors s.store s.own) :
    ∀ w ∈ tx.writes, w.kind = .replace → ∃ r, tx.store.tasks w.record.id = some r ∧ isTerminal r = false := by
  intro w hw hk
  obtain ⟨old, hold, -⟩ := h.replaced _ w (Tx.mem_writes h.staged w hw) hk
  rw [h.store]
  exact ⟨old, (hm _ old).mp hold⟩

theorem Planned.current (h : Planned s tx) (hm : Ownership.Mirrors s.store s.own) {id : Id}
    {old prev : TaskRecord} (hold : s.own.live id = some old) (hp : tx.currentTask id = some prev) : Rewrites old prev := by
  have hstored := ((hm id old).mp hold).1
  unfold Tx.currentTask at hp
  cases hw : tx.write id with
  | none =>
    obtain rfl : old = prev := by simpa [hw, h.store, hstored] using hp
    exact Rewrites.refl old
  | some w =>
    obtain rfl : w.record = prev := by simpa [hw] using hp
    cases hk : w.kind with
    | create =>
      have := (h.staged.created id w hw hk).1
      rw [h.store, hstored] at this
      simp at this
    | replace =>
      obtain ⟨old', hold', hr⟩ := h.replaced id w hw hk
      obtain rfl : old = old' := by simpa [hold] using hold'
      exact hr

theorem owned_of_setTask {tx tx' : Tx} {value prev : TaskRecord} (hp : tx.currentTask value.id = some prev)
    (hlive : isTerminal prev = false) (hnode : nodeOf value = nodeOf prev) (hs : tx.setTask value = some tx') (o t : Id)
    (h : tx'.candidate.Owned o t) : tx.candidate.Owned o t := by
  obtain ⟨w, rfl, hw, -⟩ := Tx.setTask_eq hs
  have htask : ∀ j, (tx.setWrite value.id w).candidate.tasks j =
      if value.id = j then some value else tx.candidate.tasks j := by
    intro j
    show ((tx.setWrite value.id w).write j |>.map TaskWrite.record).or (tx.store.tasks j) = _
    rw [Tx.setWrite_write]
    split
    · simp [hw]
    · rfl
  have hsame : ∀ j, (tx.setWrite value.id w).candidate.node j = tx.candidate.node j := by
    intro j
    rw [Store.node, htask, Store.node]
    split
    · rename_i hj
      rw [← hj]
      show some (nodeOf value) = (tx.currentTask value.id).map nodeOf
      simp [hp, hnode]
    · rfl
  obtain ⟨r, hr, ht, hb, hu⟩ := h
  have hu' : tx.candidate.Under (.task o) (parentOf r) := by
    have hnodes : (tx.setWrite value.id w).candidate.node = tx.candidate.node := funext hsame
    rw [Store.Under, hnodes] at hu
    exact hu
  rw [htask] at hr
  split at hr
  · rename_i hj
    obtain rfl := some.inj hr
    refine ⟨prev, by rw [← hj]; exact hp, hlive, ?_, ?_⟩
    · have := congrArg TaskNode.background hnode
      exact this.symm.trans hb
    · have : parentOf value = parentOf prev := by rw [parentOf, hnode, parentOf]
      exact this ▸ hu'
  · exact ⟨r, hr, ht, hb, hu'⟩

theorem setTask_some (value prev : TaskRecord) (hp : tx.currentTask value.id = some prev)
    (hlive : isTerminal prev = false) (hnode : nodeOf value = nodeOf prev) : ∃ tx', tx.setTask value = some tx' := by
  unfold Tx.setTask
  split
  · exact ⟨_, rfl⟩
  · rename_i w hw
    obtain rfl : w.record = prev := by simpa [Tx.currentTask, hw] using hp
    have hc := congrArg TaskNode.conversationId hnode
    simp only [nodeOf] at hc
    simp [hlive, hc]

/-- Replacing a live candidate keeps a transaction planned. An outcome is final when no owned work is left. -/
theorem Planned.setTask (h : Planned s tx) (hm : Ownership.Mirrors s.store s.own)
    (value : TaskRecord) {old prev : TaskRecord} (hold : s.own.live value.id = some old) (hp : tx.currentTask value.id = some prev)
    (hlive : isTerminal prev = false) (hr : Rewrites prev value)
    (hended : isTerminal value = true → s.own.unloaded = [] ∧ ∀ t, ¬tx.candidate.Owned value.id t) :
    ∃ tx', tx.setTask value = some tx' ∧ Planned s tx' := by
  obtain ⟨tx', hs⟩ := setTask_some value prev hp hlive hr.node
  have hstored := ((hm _ old).mp hold).1
  have hrw := (h.current hm hold hp).trans hlive hr
  have hwrite := Tx.setTask_write hs
  refine ⟨tx', hs, (tx.setTask_store tx' value hs).trans h.store,
    Tx.setTask_staged h.staged value old tx' hs (by rw [h.store]; exact hstored) hrw.node, ?_, ?_⟩
  · intro j w hw hk
    rcases hwrite j w hw with ⟨rfl, hv⟩ | hw'
    · exact ⟨old, hold, hv ▸ hrw⟩
    · exact h.replaced j w hw' hk
  · intro j w hw ht
    have hmono := owned_of_setTask hp hlive hr.node hs
    rcases hwrite j w hw with ⟨rfl, hv⟩ | hw'
    · obtain ⟨hu, hnone⟩ := hended (hv ▸ ht)
      exact ⟨hu, fun t ho => hnone t (hmono _ t ho)⟩
    · obtain ⟨hu, hnone⟩ := h.ended j w hw' ht
      exact ⟨hu, fun t ho => hnone t (hmono _ t ho)⟩

end Scheduler

end PiAgent.Harness
