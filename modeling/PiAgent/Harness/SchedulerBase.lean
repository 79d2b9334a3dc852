import PiAgent.Harness.SchedulerMoves

/-! # The sets of the scheduler -/

namespace PiAgent.Harness

open Function Durable

namespace Scheduler

/-! ## What a commit leaves alone -/

structure Static (s s' : Scheduler) : Prop where
  abandoned : s'.abandoned = s.abandoned
  passes : s'.passes = s.passes
  registry : s'.registry = s.registry
  enabled : s'.enabled = s.enabled
  reserving : s'.reserving = s.reserving
  invocations : s'.invocations = s.invocations
  runs : s'.runs = s.runs
  failed : s'.failed = s.failed

theorem Static.refl (s : Scheduler) : Static s s := ⟨rfl, rfl, rfl, rfl, rfl, rfl, rfl, rfl⟩

theorem Static.trans {s s' s'' : Scheduler} (h : Static s s') (h' : Static s' s'') : Static s s'' :=
  ⟨h'.abandoned.trans h.abandoned, h'.passes.trans h.passes, h'.registry.trans h.registry, h'.enabled.trans h.enabled,
    h'.reserving.trans h.reserving, h'.invocations.trans h.invocations, h'.runs.trans h.runs, h'.failed.trans h.failed⟩

variable {s s' : Scheduler}

theorem Tracks.static {r : TaskRecord} (h : Tracks s r s') : Static s s' := by
  rw [h.rest]
  exact ⟨rfl, rfl, rfl, rfl, rfl, rfl, rfl, rfl⟩

theorem Published.static {s mid s' : Scheduler} {tx : Tx} (h : Published s tx mid s') : Static mid s' := by
  rw [h.rest]
  exact ⟨rfl, rfl, rfl, rfl, rfl, rfl, rfl, rfl⟩

section

variable {tx : Tx} {inputs : List Id} {others : Bool} (hp : Planned s tx) (h : Tracked s.store s.own)
    (hl : s.land tx inputs others = some s')
include hp h hl

theorem land_static : Static s s' := by
  rcases land_cases (P := fun t _ => Static s t) hp h hl (fun own _ => ⟨rfl, rfl, rfl, rfl, rfl, rfl, rfl, rfl⟩)
    (fun t r rest _ _ hs t' ht _ => hs.trans ht.static) with ⟨rfl, -, -⟩ | ⟨mid, hs, hpub⟩
  · exact Static.refl _
  · exact hs.trans hpub.static

theorem land_store : s'.store = tx.candidate ∨ (s' = s ∧ tx.writes = [] ∧ tx.conversations = []) := by
  rcases land_cases (P := fun _ _ => True) hp h hl (fun _ _ => trivial) (fun _ _ _ _ _ _ _ _ _ => trivial) with
    hnone | ⟨mid, -, hpub⟩
  · exact Or.inr hnone
  · refine Or.inl ?_
    rw [hpub.rest]
    exact hpub.store

theorem land_woken (hw : tx.writes ≠ []) : s'.dirty = true ∧ (s'.enabled = true → s'.draining = true) := by
  rcases land_cases (P := fun _ _ => True) hp h hl (fun _ _ => trivial) (fun _ _ _ _ _ _ _ _ _ => trivial) with
    ⟨-, hnone, -⟩ | ⟨mid, -, hpub⟩
  · exact absurd hnone hw
  · exact hpub.kicked hw

end

/-! ## The invariant -/

structure Base (s : Scheduler) : Prop where
  tracked : Tracked s.store s.own
  alive : s.failed = false
  nodup : s.runnable.Nodup
  flagged : s.cascadePending = true → s.reconcileScheduled = true
  intent : ∀ id, id ∈ s.intent ↔ (s.own.live id).any cancellationIntent = true
  waiters : ∀ m j, j ∈ s.waiters m ↔ m ∈ (s.own.live j).elim [] waitsFor
  invoked : s.Invoked

theorem Base.plans (h : Base s) (hs : Plans s s') : Base s' := by
  have hrest := hs.rest
  refine ⟨hs.trackedAfter h.tracked, ?_, hs.nodup h.nodup, hs.flagged h.flagged, ?_, ?_, hs.invoked h.invoked⟩
  · rw [hrest]
    exact h.alive
  · intro id
    have : s'.intent = s.intent := by rw [hrest]
    rw [this, hs.live]
    exact h.intent id
  · intro m j
    have : s'.waiters = s.waiters := by rw [hrest]
    rw [this, hs.live]
    exact h.waiters m j

structure Follows (s : Scheduler) : Prop where
  nodup : s.runnable.Nodup
  intent : ∀ id, id ∈ s.intent ↔ (s.own.live id).any cancellationIntent = true
  waiters : ∀ m j, j ∈ s.waiters m ↔ m ∈ (s.own.live j).elim [] waitsFor

theorem Tracks.own_live {r : TaskRecord} (ht : Tracks s r s') :
    s'.own.live = update s.own.live r.id (if isTerminal r then none else some r) := by
  rw [ht.rest]
  exact Ownership.track_live _ _ _

theorem Tracks.live_cases {r x : TaskRecord} {id : Id} (ht : Tracks s r s') (hx : s'.own.live id = some x) :
    (id = r.id ∧ x = r ∧ isTerminal r = false) ∨ (id ≠ r.id ∧ s.own.live id = some x) := by
  rw [ht.own_live] at hx
  by_cases hid : id = r.id
  · subst hid
    rw [update_self] at hx
    cases hterm : isTerminal r with
    | true => simp [hterm] at hx
    | false => exact .inl ⟨rfl, by simpa [hterm] using hx.symm, rfl⟩
  · rw [update_of_ne hid] at hx
    exact .inr ⟨hid, hx⟩

theorem Follows.step {r : TaskRecord} (h : Follows s) (ht : Tracks s r s') : Follows s' := by
  have hlive := ht.own_live
  refine ⟨ht.nodup h.nodup, ?_, ?_⟩
  · intro id
    rw [ht.intent, hlive]
    by_cases hid : id = r.id
    · subst hid
      rw [update_self]
      cases hterm : isTerminal r with
      | true => simp [cancellationIntent_terminal hterm]
      | false => simp
    · rw [update_of_ne hid, ← h.intent]
      simp [hid]
  · intro m j
    rw [ht.waiters, hlive, h.waiters]
    by_cases hj : j = r.id
    · subst hj
      rw [update_self]
      cases hterm : isTerminal r with
      | true => simp
      | false => simp
    · rw [update_of_ne hj]
      simp [hj]

theorem Base.land (h : Base s) {tx : Tx} {inputs : List Id} {others : Bool} (hp : Planned s tx)
    (hl : s.land tx inputs others = some s') : Base s' := by
  have hstatic := land_static hp h.tracked hl
  have hinv : s'.Invoked := by
    intro id n
    rw [hstatic.invocations, hstatic.runs]
    exact h.invoked id n
  have hstart : ∀ own : Ownership, own.live = s.own.live → Follows { s with store := tx.candidate, own := own } := by
    intro own hlive
    refine ⟨h.nodup, ?_, ?_⟩
    · intro id
      show id ∈ s.intent ↔ (own.live id).any cancellationIntent = true
      rw [hlive]
      exact h.intent id
    · intro m j
      show j ∈ s.waiters m ↔ m ∈ (own.live j).elim [] waitsFor
      rw [hlive]
      exact h.waiters m j
  rcases land_cases (P := fun t _ => Follows t) hp h.tracked hl hstart (fun t r rest _ _ hf t' ht _ => hf.step ht) with
    ⟨rfl, -, -⟩ | ⟨mid, hf, hpub⟩
  · exact h
  · have hlive : s'.own.live = mid.own.live := by
      rw [hpub.rest]
      exact Ownership.sweep_live _
    refine ⟨hpub.tracked hp h.tracked, hstatic.failed.trans h.alive, ?_, hpub.flagged, ?_, ?_, hinv⟩
    · rw [hpub.rest]
      exact hf.nodup
    · intro id
      have : s'.intent = mid.intent := by rw [hpub.rest]
      rw [this, hlive]
      exact hf.intent id
    · intro m j
      have : s'.waiters = mid.waiters := by rw [hpub.rest]
      rw [this, hlive]
      exact hf.waiters m j

theorem Base.moves (h : Base s) (hm : Moves s s') : Base s' := by
  cases hm with
  | plan hs => exact h.plans hs
  | commit hs hp hl => exact (h.plans hs).land hp hl

end Scheduler

end PiAgent.Harness
