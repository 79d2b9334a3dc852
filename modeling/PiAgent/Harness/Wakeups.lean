import PiAgent.Harness.Cascade
import PiAgent.Harness.Endings

/-! # No task is left asleep -/

namespace PiAgent.Harness

open Option Function Durable

namespace Scheduler

/-! ## Runnable or blocked -/

def Awake (s : Scheduler) : Prop :=
  ∀ id r, s.own.live id = some r → isCompleting r = false → s.invocations id = none →
    id ∈ s.runnable ∨ Blocked s.store id r

def Waits (x : Ownership) (store : Store) (id : Id) (r : TaskRecord) : Prop :=
  (r.abortRequested = false ∧ ∃ m ∈ waitsFor r, (x.live m).isSome = true) ∨
    (r.abortRequested = true ∧ x.Holds store id)

structure Waking (t : Scheduler) : Prop where
  follows : Follows t
  awake : ∀ id r, t.own.live id = some r → isCompleting r = false → t.invocations id = none →
    id ∈ t.runnable ∨ Waits t.own t.store id r

theorem Waking.step {t t' : Scheduler} {r : TaskRecord} {rest : List TaskRecord} {rank : Node → ℕ}
    (hg : t.store.Grounded rank) (h : Waking t) (htr : Ownership.Tracking t.store t.own (r :: rest))
    (ht : Tracks t r t') : Waking t' := by
  have hown : t'.own = t.own.track t.store.count r := by rw [ht.rest]
  have hstore : t'.store = t.store := by rw [ht.rest]
  refine ⟨h.follows.step ht, ?_⟩
  intro id x hx hc hinv
  rw [ht.static.invocations] at hinv
  rcases ht.live_cases hx with ⟨rfl, rfl, hterm⟩ | ⟨hid, hx⟩
  · exact Or.inl (ht.self hterm hc)
  · rcases h.awake id x hx hc hinv with hmem | ⟨hmark, m, hm, hml⟩ | ⟨hmark, hholds⟩
    · exact Or.inl (ht.runnable id hmem hid)
    · -- the end of a member wakes its waiters
      by_cases hmr : m = r.id ∧ isTerminal r = true
      · obtain ⟨rfl, hterm⟩ := hmr
        refine Or.inl (ht.woken hterm id ?_ hid)
        refine (h.follows.waiters _ _).mpr ?_
        rw [hx]
        exact hm
      · refine Or.inr (Or.inl ⟨hmark, m, hm, ?_⟩)
        rw [ht.own_live]
        by_cases hmid : m = r.id
        · subst hmid
          have hterm : isTerminal r = false := by
            by_contra hn
            exact hmr ⟨rfl, by simpa using hn⟩
          simp [hterm]
        · rw [update_of_ne hmid]
          exact hml
    · -- the end of owned work wakes the task it is found to hold
      cases hterm : isTerminal r with
      | false =>
        refine Or.inr (Or.inr ⟨hmark, ?_⟩)
        rw [hown, hstore]
        exact htr.holds_mono hterm hholds
      | true =>
        rcases htr.freed hg hterm hx hid hholds with hstill | habove
        · refine Or.inr (Or.inr ⟨hmark, ?_⟩)
          rw [hown, hstore]
          exact hstill
        · have hmem := (ht.freed hterm x habove).2 hc hmark
          rw [(htr.live id x hx).1] at hmem
          exact Or.inl hmem

theorem isSome_iff_live {store : Store} {x : Ownership} (hm : Ownership.Mirrors store x) (id : Id) :
    (x.live id).isSome = true ↔ store.Live id := by
  rw [isSome_iff_exists]
  exact exists_congr fun r => hm id r

variable {s s' : Scheduler}

variable {others : Bool} {inputs : List Id} {tx : Tx}

theorem land_awake (h : Base s) (hp : Planned s tx) (hl : s.land tx inputs others = some s') (ha : Awake s) :
    Awake s' := by
  have hstart : ∀ own : Ownership, own.live = s.own.live → Waking { s with store := tx.candidate, own := own } := by
    intro own hlive
    refine ⟨⟨h.nodup, ?_, ?_⟩, ?_⟩
    · intro id
      show id ∈ s.intent ↔ (own.live id).any cancellationIntent = true
      rw [hlive]
      exact h.intent id
    · intro m j
      show j ∈ s.waiters m ↔ m ∈ (own.live j).elim [] waitsFor
      rw [hlive]
      exact h.waiters m j
    · intro id r hr hc hinv
      have hr' : s.own.live id = some r := hlive ▸ hr
      rcases ha id r hr' hc hinv with hmem | ⟨hmark, m, hm, hml⟩ | ⟨hmark, t, ht⟩
      · exact Or.inl hmem
      · refine Or.inr (Or.inl ⟨hmark, m, hm, ?_⟩)
        show (own.live m).isSome = true
        rw [hlive]
        exact (isSome_iff_live h.tracked.mirrors m).mpr hml
      · exact Or.inr (Or.inr ⟨hmark, holds_of_owned hp h.tracked hlive ht⟩)
  obtain ⟨rank, hg⟩ := hp.staged.grounded
  rcases land_cases (P := fun t _ => Waking t) hp h.tracked hl hstart
    (fun t r rest htr hst hw t' ht _ => hw.step (hst ▸ hg) htr ht) with ⟨rfl, -, -⟩ | ⟨mid, hw, hpub⟩
  · exact ha
  · intro id r hr hc hinv
    have hlive : s'.own.live = mid.own.live := by
      rw [hpub.rest]
      exact Ownership.sweep_live _
    have hstore : s'.store = tx.candidate := by rw [hpub.rest]; exact hpub.store
    have hrunnable : s'.runnable = mid.runnable := by rw [hpub.rest]
    rw [hlive] at hr
    rw [hpub.static.invocations] at hinv
    rw [hrunnable, hstore]
    rcases hw.awake id r hr hc hinv with hmem | ⟨hmark, m, hm, hml⟩ | ⟨hmark, hholds⟩
    · exact Or.inl hmem
    · exact Or.inr (Or.inl ⟨hmark, m, hm, (isSome_iff_live hpub.tracking.mirrors m).mp hml⟩)
    · rw [hpub.store] at hholds
      exact Or.inr (Or.inr ⟨hmark, (hpub.tracking.mirrors.holds_iff id).mp hholds⟩)

theorem plans_awake (h : Plans s s') (ha : Awake s) : Awake s' := by
  intro id r hr hc hinv
  rw [h.live] at hr
  rw [h.store]
  rcases h.free id r hr hc hinv with hmem | hb | ⟨hinv', hnot⟩
  · exact Or.inl hmem
  · exact Or.inr hb
  · exact Or.inr ((ha id r hr hc hinv').resolve_left hnot)

/-! ## Every task is accounted for -/

def Running (s : Scheduler) (id : Id) : Prop :=
  ∃ (n : ℕ) (run : Invocation), s.runs[n]? = some run ∧ run.taskId = id ∧ run.finished = false

def Unmarked (store : Store) (r : TaskRecord) : Prop :=
  r.abortRequested = false ∧ r.background = false ∧ ∃ o, Cancels store o (parentOf r)

def Settled (s : Scheduler) (id : Id) (r : TaskRecord) : Prop :=
  Running s id ∨ Blocked s.store id r ∨ s.Unfit r ∨ Unmarked s.store r

def Accounted (s : Scheduler) : Prop :=
  s.dirty = false → s.enabled = true → s.reserving = false → ∀ id r, s.own.live id = some r → isCompleting r = false →
    Settled s id r

theorem plans_settled (h : Plans s s') {id : Id} {r : TaskRecord} (hr : s.own.live id = some r)
    (hid : r.id = id) (hs : Settled s id r) : Settled s' id r := by
  unfold Settled at hs ⊢
  rw [h.store]
  rcases hs with ⟨n, run, hrun, htask, hfinished⟩ | hb | hu | hm
  · obtain ⟨run', hrun', htask', -, hfinished', -⟩ := h.runs n run hrun
    exact Or.inl ⟨n, run', hrun', htask'.trans htask, hfinished'.trans hfinished⟩
  · exact Or.inr (Or.inl hb)
  · exact Or.inr (Or.inr (Or.inl (h.unfit id r hr hid hu)))
  · exact Or.inr (Or.inr (Or.inr hm))

theorem plans_accounted (hb : Base s) (h : Plans s s') (ha : Accounted s) : Accounted s' := by
  obtain ⟨rank, hg⟩ := hb.tracked.grounded
  intro hdirty henabled hreserving id r hr hc
  have hfields : s'.dirty = s.dirty ∧ s'.enabled = s.enabled ∧ s'.reserving = s.reserving := by
    rw [h.rest]
    exact ⟨rfl, rfl, rfl⟩
  rw [hfields.1] at hdirty
  rw [hfields.2.1] at henabled
  rw [hfields.2.2] at hreserving
  rw [h.live] at hr
  have hid := (hb.tracked.mirrors.liveOnly hg id r hr).1
  exact plans_settled h hr hid (ha hdirty henabled hreserving id r hr hc)

theorem land_still (h : Tracked s.store s.own) (hp : Planned s tx) (hl : s.land tx inputs others = some s')
    (hw : tx.writes = []) :
    s'.own.live = s.own.live ∧ s'.dirty = s.dirty ∧ s'.draining = s.draining ∧
      s'.failedMigrations = s.failedMigrations := by
  have hnone : tx.stagedTasks = [] := by simp [Tx.stagedTasks, hw]
  rcases land_cases (P := fun t rest => rest = [] ∧ t.own.live = s.own.live ∧ t.dirty = s.dirty ∧
      t.draining = s.draining ∧ t.failedMigrations = s.failedMigrations) hp h hl
    (fun own hlive => ⟨hnone, hlive, rfl, rfl, rfl⟩) (fun t r rest _ _ hrest => by simp at hrest) with
    ⟨rfl, -, -⟩ | ⟨mid, ⟨-, hlive, hdirty, hdraining, hmigrations⟩, hpub⟩
  · exact ⟨rfl, rfl, rfl, rfl⟩
  · obtain ⟨hd, hdr⟩ := hpub.still hw
    refine ⟨?_, hd.trans hdirty, hdr.trans hdraining, ?_⟩
    · rw [hpub.rest]
      exact (Ownership.sweep_live _).trans hlive
    · rw [hpub.rest]
      exact hmigrations

variable {s : Scheduler}

variable {s s' : Scheduler}

theorem settled_of_still (h : Tracked s.store s.own) (hp : Planned s tx) (hl : s.land tx inputs others = some s')
    (hw : tx.writes = []) {id : Id} {r : TaskRecord} (hs : Settled s id r) : Settled s' id r := by
  obtain ⟨-, -, -, hmigrations⟩ := land_still h hp hl hw
  have hstatic := land_static hp h hl
  have htasks : ∀ j, tx.candidate.tasks j = s.store.tasks j := by
    intro j
    have hnone : tx.write j = none := by
      cases hj : tx.write j with
      | none => rfl
      | some w => simpa [hw] using Tx.write_mem hj
    rw [Tx.candidate_of_noWrite hnone, hp.store]
  rcases land_store hp h hl with hstore | ⟨rfl, -⟩
  · unfold Settled
    rw [hstore]
    rcases hs with ⟨n, run, hrun, hrest⟩ | ⟨hmark, m, hm, x, hx⟩ | hu | ⟨hmark, hb, o, hi, hunder⟩
    · exact Or.inl ⟨n, run, hstatic.runs.symm ▸ hrun, hrest⟩
    · exact Or.inr (Or.inl (Or.inl ⟨hmark, m, hm, x, (htasks m).trans hx.1, hx.2⟩))
    · rename_i howned
      obtain ⟨hmark, t, x, hx, ht, hb, hunder⟩ := howned
      exact Or.inr (Or.inl (Or.inr ⟨hmark, t, x, (htasks t).trans hx, ht, hb, under_candidate hp hunder⟩))
    · refine Or.inr (Or.inr (Or.inl ?_))
      unfold Unfit
      rw [hstatic.registry, hmigrations]
      exact hu
    · have hpass : uncancelled tx.candidate = uncancelled s.store := by
        funext j node
        unfold uncancelled intends
        rw [htasks j]
      refine Or.inr (Or.inr (Or.inr ⟨hmark, hb, o, ?_, ?_⟩))
      · unfold intends
        rw [htasks o]
        exact hi
      · rw [hpass]
        exact under_candidate hp hunder
  · exact hs

theorem land_accounted (h : Base s) (hp : Planned s tx) (hl : s.land tx inputs others = some s') (ha : Accounted s) :
    Accounted s' := by
  intro hdirty henabled hreserving id r hr hc
  have hstatic := land_static hp h.tracked hl
  by_cases hw : tx.writes = []
  · obtain ⟨hlive, hd, -, -⟩ := land_still h.tracked hp hl hw
    rw [hd] at hdirty
    rw [hstatic.enabled] at henabled
    rw [hstatic.reserving] at hreserving
    rw [hlive] at hr
    exact settled_of_still h.tracked hp hl hw (ha hdirty henabled hreserving id r hr hc)
  · -- a published task starts the drain
    simp [(land_woken hp h.tracked hl hw).1] at hdirty

/-! ## A drain is under way while one is asked for -/

def Driven (s : Scheduler) : Prop := s.enabled = true → s.dirty = true ∨ s.reserving = true → s.draining = true

theorem plans_driven (h : Plans s s') (hd : Driven s) : Driven s' := by
  have hfields : s'.dirty = s.dirty ∧ s'.enabled = s.enabled ∧ s'.reserving = s.reserving ∧ s'.draining = s.draining := by
    rw [h.rest]
    exact ⟨rfl, rfl, rfl, rfl⟩
  unfold Driven
  rw [hfields.1, hfields.2.1, hfields.2.2.1, hfields.2.2.2]
  exact hd

theorem land_driven (h : Base s) (hp : Planned s tx) (hl : s.land tx inputs others = some s') (hd : Driven s) :
    Driven s' := by
  intro henabled hor
  have hstatic := land_static hp h.tracked hl
  by_cases hw : tx.writes = []
  · obtain ⟨-, hdirty, hdraining, -⟩ := land_still h.tracked hp hl hw
    rw [hdraining]
    rw [hdirty, hstatic.reserving] at hor
    exact hd (hstatic.enabled ▸ henabled) hor
  · exact (land_woken hp h.tracked hl hw).2 henabled

variable (s : Scheduler)

theorem kick_driven : Driven s.kick := by
  intro henabled _
  obtain ⟨hk, hdraining⟩ := kick_spec s
  refine hdraining ?_
  rw [hk] at henabled
  exact henabled

theorem kick_dirty : s.kick.dirty = true := by
  obtain ⟨hk, -⟩ := kick_spec s
  rw [hk]

/-! ## Every event -/

structure Wakes (s : Scheduler) : Prop where
  awake : Awake s
  accounted : Accounted s
  driven : Driven s
  joined : s.Joined

variable {s s' : Scheduler}

theorem Wakes.plans (h : Wakes s) (hb : Base s) (hs : Plans s s') : Wakes s' :=
  ⟨plans_awake hs h.awake, plans_accounted hb hs h.accounted, plans_driven hs h.driven, hs.joined h.joined⟩

theorem Wakes.land (h : Wakes s) (hb : Base s) (hp : Planned s tx) (hl : s.land tx inputs others = some s') :
    Wakes s' := by
  refine ⟨land_awake hb hp hl h.awake, land_accounted hb hp hl h.accounted, land_driven hb hp hl h.driven, ?_⟩
  unfold Joined
  rw [(land_static hp hb.tracked hl).runs]
  exact h.joined

variable {s : Scheduler}

theorem kick_wakes (ha : Awake s) (hj : s.Joined) : Wakes s.kick := by
  obtain ⟨hk, -⟩ := kick_spec s
  refine ⟨?_, ?_, kick_driven s, ?_⟩
  · rw [hk]
    exact ha
  · intro hdirty
    simp [kick_dirty s] at hdirty
  · rw [hk]
    exact hj

variable (s : Scheduler)

theorem finish_wakes (hb : Base s) (h : Wakes s) (number : ℕ) : Wakes (s.finish number) := by
  unfold finish
  split
  · exact h
  · split
    · exact h
    · rename_i invocation hinv _
      have hended := h.plans hb (endInvocation_plans s number)
      have hlt := (List.getElem?_eq_some_iff.mp (endInvocation_ended s number invocation hinv)).1
      refine kick_wakes hended.awake ?_
      intro n run hrun hfinished
      by_cases hn : number = n
      · subst hn
        rw [List.getElem?_set_self hlt] at hrun
        rw [← some.inj hrun]
      · rw [List.getElem?_set_ne hn] at hrun
        exact hended.joined n run hrun hfinished

theorem drain_wakes (h : Wakes s) : Wakes s.drain := by
  unfold drain
  split
  · exact h
  · rename_i hrunning
    simp only [Bool.or_eq_true, Bool.not_eq_true', not_or, Bool.not_eq_false, Bool.not_eq_true] at hrunning
    split
    · refine ⟨h.awake, ?_, fun _ _ => hrunning.1, h.joined⟩
      intro _ _ hreserving
      simp at hreserving
    · dsimp only
      split
      · exact kick_wakes (s := { s with draining := false }) h.awake h.joined
      · rename_i hclean
        refine ⟨h.awake, h.accounted, ?_, h.joined⟩
        rintro - (hdirty | hreserving)
        · exact absurd hdirty hclean
        · simp [hrunning.2] at hreserving

theorem runReconcile_wakes (hb : Base s) (h : Wakes s) (queued : List Id) (others : Bool) :
    Wakes (s.runReconcile queued others) := by
  cases hpass : s.passes with
  | nil =>
    unfold runReconcile
    rw [hpass]
    exact h
  | cons pass rest =>
    obtain ⟨mid, marked, tx, hr⟩ := runReconcile_spec s hb.tracked pass rest hpass queued others
    obtain ⟨others', hl⟩ := hr.lands
    have hb0 : Base { s with passes := rest } :=
      ⟨hb.tracked, hb.alive, hb.nodup, hb.flagged, hb.intent, hb.waiters, hb.invoked⟩
    have h0 : Wakes { s with passes := rest } := ⟨h.awake, h.accounted, h.driven, h.joined⟩
    have hb1 := hb0.plans hr.plans
    have h1 := h0.plans hb0 hr.plans
    have hb2 : Base { mid with finalizeChecks := [] } :=
      ⟨hb1.tracked, hb1.alive, hb1.nodup, hb1.flagged, hb1.intent, hb1.waiters, hb1.invoked⟩
    have h2 : Wakes { mid with finalizeChecks := [] } := ⟨h1.awake, h1.accounted, h1.driven, h1.joined⟩
    exact h2.land hb2 hr.planned hl

theorem settled_of_reserves {s s' mid : Scheduler} (hr : Reserves s s' mid tx) (hb : Base mid) (ha : Awake mid)
    (hj : mid.Joined) (henabled : s.enabled = true) (habandoned : s.abandoned = []) (hw : tx.writes = []) (id : Id)
    (r : TaskRecord) (hl : mid.own.live id = some r) (hc : isCompleting r = false) : Settled mid id r := by
  cases hinv : mid.invocations id with
  | some n =>
    obtain ⟨run, hrun, htask, hopen⟩ := (hb.invoked id n).mp hinv
    refine Or.inl ⟨n, run, hrun, htask, ?_⟩
    cases hfinished : run.finished with
    | false => rfl
    | true => simp [hj n run hrun hfinished] at hopen
  | none =>
    rcases ha id r hl hc hinv with hmem | hblocked
    · rcases hr.examined henabled habandoned id (hr.shrinks id hmem) with hnot | hwritten | ⟨x, hx, hwhy⟩
      · exact absurd hmem hnot
      · obtain ⟨w, hwr⟩ := ne_none_iff_exists'.mp hwritten
        have hmemw := Tx.write_mem hwr
        simp [hw] at hmemw
      · rw [hl] at hx
        obtain rfl := some.inj hx
        rcases hwhy with hu | hm
        · exact Or.inr (Or.inr (Or.inl hu))
        · exact Or.inr (Or.inr (Or.inr hm))
    · exact Or.inr (Or.inl hblocked)

variable {s s' : Scheduler}

theorem land_draining (h : Base s) (hp : Planned s tx) (hl : s.land tx inputs others = some s')
    (hd : s.enabled = true → s.draining = true) : s'.enabled = true → s'.draining = true := by
  intro henabled
  by_cases hw : tx.writes = []
  · obtain ⟨-, -, hdraining, -⟩ := land_still h.tracked hp hl hw
    rw [hdraining]
    exact hd ((land_static hp h.tracked hl).enabled ▸ henabled)
  · exact (land_woken hp h.tracked hl hw).2 henabled

variable (s : Scheduler)

theorem runReserve_wakes (hb : Base s) (h : Wakes s) : Wakes s.runReserve := by
  cases hres : s.reserving with
  | false =>
    unfold runReserve
    rw [hres]
    exact h
  | true =>
    obtain ⟨mid, tx, hr⟩ := runReserve_spec s hb hres
    obtain ⟨landed, hl, hs'⟩ := hr.lands
    have hb0 : Base { s with reserving := false } :=
      ⟨hb.tracked, hb.alive, hb.nodup, hb.flagged, hb.intent, hb.waiters, hb.invoked⟩
    have hb1 := hb0.plans hr.plans
    have ha : Awake mid := plans_awake hr.plans h.awake
    have hj : mid.Joined := hr.plans.joined h.joined
    have hfields : mid.enabled = s.enabled ∧ mid.draining = s.draining := by
      rw [hr.plans.rest]
      exact ⟨rfl, rfl⟩
    have hlanded := land_awake hb1 hr.planned hl ha
    have hstatic := land_static hr.planned hb1.tracked hl
    have hjoined : landed.Joined := by
      unfold Joined
      rw [hstatic.runs]
      exact hj
    have hdraining : landed.enabled = true → landed.draining = true := by
      refine land_draining hb1 hr.planned hl ?_
      rw [hfields.1, hfields.2]
      exact fun henabled => h.driven henabled (Or.inr hres)
    rw [hs']
    split
    · refine ⟨hlanded, ?_, fun henabled _ => hdraining henabled, hjoined⟩
      intro hdirty
      simp at hdirty
    · rename_i hplain
      refine ⟨hlanded, ?_, fun henabled _ => hdraining henabled, hjoined⟩
      intro hdirty henabled _ id r hlive hc
      have hon : s.enabled = true := by rw [← hfields.1, ← hstatic.enabled, henabled]
      have habandoned : s.abandoned = [] := by simpa [hon] using hplain
      by_cases hw : tx.writes = []
      · obtain ⟨hsame, -⟩ := land_still hb1.tracked hr.planned hl hw
        rw [hsame] at hlive
        exact settled_of_still hb1.tracked hr.planned hl hw
          (settled_of_reserves hr hb1 ha hj hon habandoned hw id r hlive hc)
      · simp [(land_woken hr.planned hb1.tracked hl hw).1] at hdirty

section

variable (store : Store) (hg : ∃ rank, store.Grounded rank) (hl : store.Listed)
    (registry : JsString → Option TaskDefinition)
include hg hl

theorem found_runnable (id : Id) (r : TaskRecord) (hr : (found store registry).own.live id = some r)
    (hc : isCompleting r = false) : id ∈ (found store registry).runnable :=
  found_tracked store hg hl (f := fun r => !isCompleting r) registry
    (fun _ _ _ ht hterm hc => ht.self hterm (by simpa using hc))
    (fun _ _ _ id ht hmem hid => ht.runnable id hmem hid) id r hr (by simp [hc])

theorem opened_wakes : Wakes (opened store registry) := by
  obtain ⟨mid, tx, ho⟩ := opened_spec store hg hl registry
  obtain ⟨landed, hland, hs'⟩ := ho.lands
  have hstatic := land_static ho.planned ho.base.tracked hland
  have hdisabled : landed.enabled = false := hstatic.enabled.trans ho.static.2.2.2.1
  have hawake : Awake mid := by
    intro id r hr hc _
    rw [ho.sets.2.1] at hr
    rw [ho.sets.1]
    exact Or.inl (found_runnable store hg hl registry id r hr hc)
  have hlanded := land_awake ho.base ho.planned hland hawake
  rw [hs']
  refine ⟨hlanded, ?_, ?_, ?_⟩
  · intro _ henabled
    have henabled' : landed.enabled = true := henabled
    simp [hdisabled] at henabled'
  · intro henabled
    have henabled' : landed.enabled = true := henabled
    simp [hdisabled] at henabled'
  · intro n run hrun
    have hrun' : landed.runs[n]? = some run := hrun
    rw [hstatic.runs, ho.static.2.1] at hrun'
    simp at hrun'

end

theorem next_wakes (hb : Base s) (event : Event) (h : Wakes s) : Wakes (s.next event) := by
  rcases next_moves s hb.tracked event with hm | ⟨n, rfl⟩ | rfl | ⟨q, o, rfl⟩ | rfl | rfl | rfl | ⟨r, rfl⟩ | rfl | ⟨r, rfl⟩
  · rcases hm with hp | ⟨hp, htx, hl⟩
    · exact h.plans hb hp
    · exact (h.plans hb hp).land (hb.plans hp) htx hl
  · exact finish_wakes s hb h n
  · show Wakes s.startReconcile
    unfold startReconcile
    split
    · exact ⟨h.awake, h.accounted, h.driven, h.joined⟩
    · exact h
  · exact runReconcile_wakes s hb h q o
  · exact drain_wakes s h
  · exact runReserve_wakes s hb h
  · have hlive : s.own.sweepJob.live = s.own.live := Ownership.sweep_live _
    refine ⟨?_, ?_, h.driven, h.joined⟩
    · intro id r hr
      exact h.awake id r (hlive ▸ hr)
    · intro hdirty henabled hreserving id r hr
      exact h.accounted hdirty henabled hreserving id r (hlive ▸ hr)
  · exact kick_wakes (s := { s with registry := r }) h.awake h.joined
  · exact kick_wakes (s := { s with enabled := true }) h.awake h.joined
  · exact opened_wakes s.store hb.tracked.grounded hb.tracked.listed r

theorem run_wakes (registry : JsString → Option TaskDefinition) (events : List Event) :
    Wakes ((machine registry).run events) :=
  ((machine registry).runFrom_induction (P := fun s => Base s ∧ Wakes s) (fun s event h => by
    show Base (s.advance event) ∧ Wakes (s.advance event)
    rw [advance_eq h.1 event]
    exact ⟨next_base s h.1 event, next_wakes s h.1 event h.2⟩) _
    ⟨start_base registry, opened_wakes _ empty_tracked.grounded empty_tracked.listed registry⟩ events).2

/-! ## Invocations that are over -/

def Over (s : Scheduler) (n : ℕ) : Prop :=
  ∃ run, s.runs[n]? = some run ∧
    (run.ended = true ∨ (run.mode = .run ∧ (s.store.tasks run.taskId).any TaskRecord.abortRequested = true))

def Continues (s s' : Scheduler) : Prop :=
  ∀ (n : ℕ) (run : Invocation), s.runs[n]? = some run → ∃ run', s'.runs[n]? = some run' ∧ run'.taskId = run.taskId ∧
    run'.mode = run.mode ∧ (run.ended = true → run'.ended = true)

variable {s s' : Scheduler}

theorem continues_of_runs (h : s'.runs = s.runs) : Continues s s' := by
  intro n run hrun
  rw [h]
  exact ⟨run, hrun, rfl, rfl, fun he => he⟩

theorem plans_continues (h : Plans s s') : Continues s s' := by
  intro n run hrun
  obtain ⟨run', hrun', htask, hmode, -, hended⟩ := h.runs n run hrun
  exact ⟨run', hrun', htask, hmode, hended⟩

theorem Continues.trans {a b c : Scheduler} (h : Continues a b) (h' : Continues b c) : Continues a c := by
  intro n run hrun
  obtain ⟨run1, hrun1, htask1, hmode1, hended1⟩ := h n run hrun
  obtain ⟨run2, hrun2, htask2, hmode2, hended2⟩ := h' n run1 hrun1
  exact ⟨run2, hrun2, htask2.trans htask1, hmode2.trans hmode1, fun he => hended2 (hended1 he)⟩

theorem land_continues (h : Tracked s.store s.own) (hp : Planned s tx) (hl : s.land tx inputs others = some s') :
    Continues s s' :=
  continues_of_runs (land_static hp h hl).runs

variable (s : Scheduler)

theorem finish_continues (number : ℕ) : Continues s (s.finish number) := by
  unfold finish
  split
  · exact continues_of_runs rfl
  · rename_i invocation hinv
    split
    · exact continues_of_runs rfl
    · have hlt := (List.getElem?_eq_some_iff.mp (endInvocation_ended s number invocation hinv)).1
      refine (plans_continues (endInvocation_plans s number)).trans ?_
      obtain ⟨hk, -⟩ := kick_spec { s.endInvocation number with
        runs := (s.endInvocation number).runs.set number { invocation with ended := true, finished := true } }
      dsimp only
      rw [hk]
      intro n run hrun
      show ∃ run', ((s.endInvocation number).runs.set number _)[n]? = some run' ∧ _
      by_cases hn : number = n
      · subst hn
        rw [endInvocation_ended s number invocation hinv] at hrun
        obtain rfl := some.inj hrun
        exact ⟨_, List.getElem?_set_self hlt, rfl, rfl, fun _ => rfl⟩
      · exact ⟨run, (List.getElem?_set_ne hn).trans hrun, rfl, rfl, fun he => he⟩

theorem next_continues (hb : Base s) (event : Event) (hopen : ∀ r, event ≠ .reopen r) :
    Continues s (s.next event) := by
  rcases next_kept s hb (P := Continues s) (fun _ _ hp ht => ht.trans (plans_continues hp))
    (fun _ _ _ _ _ hb hp hl ht => ht.trans (land_continues hb.tracked hp hl)) (fun _ _ _ _ _ _ _ ht => ht)
    (continues_of_runs rfl) event with hk | ⟨n, rfl⟩ | rfl | ⟨q, o, rfl⟩ | rfl | ⟨r, rfl⟩
  · exact hk
  · exact finish_continues s n
  · refine continues_of_runs ?_
    show s.startReconcile.runs = s.runs
    unfold startReconcile
    split <;> rfl
  · show Continues s (s.runReconcile q o)
    cases hpass : s.passes with
    | nil =>
      unfold runReconcile
      rw [hpass]
      exact continues_of_runs rfl
    | cons pass rest =>
      obtain ⟨mid, marked, tx, hr⟩ := runReconcile_spec s hb.tracked pass rest hpass q o
      obtain ⟨others', hl⟩ := hr.lands
      have hplanned := plans_continues hr.plans
      have hplans : Continues s { mid with finalizeChecks := [] } := hplanned
      exact hplans.trans (land_continues (s := { mid with finalizeChecks := [] }) (hr.plans.trackedAfter hb.tracked) hr.planned hl)
  · exact continues_of_runs rfl
  · exact absurd rfl (hopen r)

variable {s : Scheduler}

theorem Over.next (hb : Base s) {n : ℕ} (h : Over s n) (event : Event) (hopen : ∀ r, event ≠ .reopen r) :
    Over (s.next event) n := by
  obtain ⟨run, hrun, hover⟩ := h
  obtain ⟨run', hrun', htask, hmode, hended⟩ := next_continues s hb event hopen n run hrun
  refine ⟨run', hrun', ?_⟩
  rcases hover with he | ⟨hm, hmark⟩
  · exact Or.inl (hended he)
  · obtain ⟨r, hr, hrm⟩ := (Option.any_eq_true _ _).mp hmark
    obtain ⟨r', hr', hkeeps⟩ := next_keepsMarks s hb event run.taskId r hr
    refine Or.inr ⟨hmode.trans hm, ?_⟩
    rw [htask, hr']
    simpa using (hkeeps hrm).1

theorem Over.run (registry : JsString → Option TaskDefinition) {n : ℕ} (later : List Event)
    (hopen : ∀ event ∈ later, ∀ r, event ≠ .reopen r) (s : Scheduler) (hb : Base s) (h : Over s n) :
    Base ((machine registry).runFrom s later) ∧ Over ((machine registry).runFrom s later) n := by
  induction later generalizing s with
  | nil => exact ⟨hb, h⟩
  | cons event later ih =>
    have hstep : ((machine registry).step s event).1 = s.next event := advance_eq hb event
    show Base ((machine registry).runFrom ((machine registry).step s event).1 later) ∧ _
    rw [Machine.runFrom, hstep]
    exact ih (fun e he => hopen e (List.mem_cons_of_mem _ he)) _ (next_base s hb event)
      (h.next hb event (hopen event (List.mem_cons_self)))

theorem Over.gate (hb : Base s) {n : ℕ} (h : Over s n) : s.gate n = none := by
  obtain ⟨run, hrun, hover⟩ := h
  unfold Scheduler.gate
  rw [hrun]
  dsimp only
  cases hended : run.ended with
  | true => simp
  | false =>
    obtain ⟨hmode, hmark⟩ := hover.resolve_left (by simp [hended])
    cases hr : s.runningRecord run.taskId with
    | none => simp
    | some current =>
      obtain ⟨hid, hl, -⟩ := runningRecord_spec hb.tracked hr
      have hstored := ((hb.tracked.mirrors _ _).mp hl).1
      rw [hid] at hstored
      rw [hstored] at hmark
      have hmark' : current.abortRequested = true := by simpa using hmark
      simp [hmode, hmark']

theorem landOwn_start (s : Scheduler) : s.landOwn (some (Tx.start s.store)) false = s := by
  simp [landOwn, land, Tx.assemble, Tx.start, Tx.validateOwners, Tx.validateReplaced, Tx.writes, Tx.stagedTasks]

theorem Over.step_store (hb : Base s) {n : ℕ} (h : Over s n) (previous : Option PhaseResult) :
    (s.stepOf n previous).store = s.store := by
  obtain ⟨run, hrun, hover⟩ := h
  unfold stepOf
  split
  · rename_i hgoes
    rw [hrun, any_some, Bool.and_eq_true] at hgoes
    obtain ⟨hmode, hmark⟩ := hover.resolve_left (by simpa using hgoes.1)
    unfold step
    rw [hrun]
    simp only [hmode]
    unfold stepWith
    cases hr : s.runningRecord run.taskId with
    | none => exact (endInvocation_plans s n).store
    | some current =>
      obtain ⟨hid, hl, -⟩ := runningRecord_spec hb.tracked hr
      have hstored := ((hb.tracked.mirrors _ _).mp hl).1
      rw [hid] at hstored
      rw [hstored] at hmark
      have hmark' : current.abortRequested = true := by simpa using hmark
      simp only [decideRun, hmark', if_true]
      have hstore := (endInvocation_plans s n).store
      rw [← hstore, landOwn_start]
  · rfl

/-! ## The result -/

/-- In every reachable state: no task waits for a wake-up that does not come, a task has one invocation at most,
and nothing more is accepted from an invocation that is over, for as long as the scheduler lives. -/
theorem no_lost_wakeup (registry : JsString → Option TaskDefinition) (events : List Event) :
    let s := (machine registry).run events
    (s.enabled = true → s.draining = false → ∀ id r, s.store.tasks id = some r → isTerminal r = false →
      isCompleting r = false →
      Running s id ∨ Blocked s.store id r ∨ s.Unfit r ∨ (Unmarked s.store r ∧ Pending s)) ∧
    (∀ (n m : ℕ) (run run' : Invocation), s.runs[n]? = some run → s.runs[m]? = some run' → run.taskId = run'.taskId →
      run.ended = false → run'.ended = false → n = m) ∧
    ∀ n, Over s n → ∀ later, (∀ event ∈ later, ∀ r, event ≠ .reopen r) →
      let s' := (machine registry).run (events ++ later)
      (∀ ops next inputs others, s'.advance (.runtimeCommit n ops next inputs others) = s') ∧
        s'.advance (.runtimeMemo n) = s' ∧ ∀ previous, (s'.advance (.step n previous)).store = s'.store := by
  intro s
  have hb : Base s := run_base registry events
  have hw : Wakes s := run_wakes registry events
  refine ⟨?_, ?_, ?_⟩
  · intro henabled hdraining id r hr hlive hc
    have hdirty : s.dirty = false := by
      by_contra hn
      rw [hw.driven henabled (Or.inl (by simpa using hn))] at hdraining
      simp at hdraining
    have hreserving : s.reserving = false := by
      by_contra hn
      rw [hw.driven henabled (Or.inr (by simpa using hn))] at hdraining
      simp at hdraining
    have hl := (hb.tracked.mirrors id r).mpr ⟨hr, hlive⟩
    rcases hw.accounted hdirty henabled hreserving id r hl hc with hrun | hblocked | hunfit | hunmarked
    · exact Or.inl hrun
    · exact Or.inr (Or.inl hblocked)
    · exact Or.inr (Or.inr (Or.inl hunfit))
    · refine Or.inr (Or.inr (Or.inr ⟨hunmarked, ?_⟩))
      obtain ⟨hmark, hbackground, o, hcancels⟩ := hunmarked
      rcases run_settling registry events with hs | hs | hs
      · exact Or.inl hs
      · exact Or.inr hs
      · -- with no pass pending the task would have its mark
        obtain ⟨owner, howner, -⟩ := (intends_iff _ _).mp hcancels.1
        have := (hs id r o owner hr hlive hbackground howner hcancels).1
        simp [hmark] at this
  · intro n m run run' hrun hrun' htask hopen hopen'
    have h1 := (hb.invoked run.taskId n).mpr ⟨run, hrun, rfl, hopen⟩
    have h2 := (hb.invoked run.taskId m).mpr ⟨run', hrun', htask.symm, hopen'⟩
    rw [h1] at h2
    exact some.inj h2
  · intro n hover later hopen
    rw [Machine.run_append]
    obtain ⟨hb', hover'⟩ := Over.run registry later hopen s hb hover
    intro s'
    refine ⟨?_, ?_, ?_⟩
    · intro ops next inputs others
      rw [advance_eq hb']
      show s'.runtimeCommit n ops next inputs others = s'
      unfold runtimeCommit
      rw [hover'.gate hb']
    · rw [advance_eq hb']
      show s'.runtimeMemo n = s'
      unfold runtimeMemo
      rw [hover'.gate hb']
    · intro previous
      rw [advance_eq hb']
      exact hover'.step_store hb' previous

def waitingEvents : List Event :=
  let options (id : Id) (owner conversation : Option Id) : Tx.TaskOptions :=
    { id := id, kind := [], version := 1, owner := owner, conversationId := conversation, background := false,
      abandonOnRestart := false, checkpoint := .null, body := .null }
  [.startReconcile, .runReconcile [] false,
    .hostCommit [.createConversation 1 none none, .createTask (options 2 none (some 1))] [] false,
    .register (fun _ => some ⟨0, 1, none⟩), .resume, .drain, .runReserve,
    .runtimeCommit 0 [.createTask (options 3 (some 2) none)] (some (.waiting .null [3] .allSettled)) [] false,
    .step 0 none, .finish 0, .drain, .runReserve, .drain, .runReserve, .drain]

theorem no_lost_wakeup_waiting : let s := (machine (fun _ => none)).run waitingEvents
    s.enabled = true ∧ s.draining = false ∧ (s.store.tasks 2).any isWaiting = true ∧
      (∃ r, s.store.tasks 2 = some r ∧
        (Running s 2 ∨ Blocked s.store 2 r ∨ s.Unfit r ∨ (Unmarked s.store r ∧ Pending s))) ∧
      s.advance (.runtimeMemo 0) = s := by
  have hlive : (((machine (fun _ => none)).run waitingEvents).store.tasks 2).any
      (fun r => !isTerminal r && !isCompleting r) = true := by decide
  obtain ⟨r, hr, hrl⟩ := (Option.any_eq_true _ _).mp hlive
  simp only [Bool.and_eq_true, Bool.not_eq_true'] at hrl
  have hended : (((machine (fun _ => none)).run waitingEvents).runs[0]?).any (fun run => run.ended) = true := by decide
  obtain ⟨run, hrun, hrunEnded⟩ := (Option.any_eq_true _ _).mp hended
  have hall := no_lost_wakeup (fun _ => none) waitingEvents
  refine ⟨by decide, by decide, by decide, ⟨r, hr, hall.1 (by decide) (by decide) 2 r hr hrl.1 hrl.2⟩, ?_⟩
  exact (hall.2.2 0 ⟨run, hrun, Or.inl hrunEnded⟩ [] (by simp)).2.1

end Scheduler

end PiAgent.Harness
