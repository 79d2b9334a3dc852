import PiAgent.Harness.SchedulerPasses

/-! # Reservations -/

namespace PiAgent.Harness

open Option Function List Durable

namespace Scheduler

/-! ## Cancelled owners -/

def intends (store : Store) (id : Id) : Bool := (store.tasks id).any cancellationIntent

/-- What a walk up to the nearest owner with intent passes: no background task, and no other such owner. -/
def uncancelled (store : Store) (id : Id) (node : TaskNode) : Bool := !node.background && !intends store id

def Cancels (store : Store) (o : Id) (n : Node) : Prop :=
  intends store o = true ∧ Harness.Under store.node store.edge (uncancelled store) (.task o) n

theorem cancellationIntent_live {r : TaskRecord} (h : cancellationIntent r = true) : isTerminal r = false := by
  simp only [cancellationIntent, Bool.and_eq_true, Bool.not_eq_true'] at h
  exact h.1

variable {store : Store}

theorem intends_iff_live {x : Ownership} (hm : Ownership.Mirrors store x) (id : Id) :
    intends store id = (x.live id).any cancellationIntent := by
  rw [Bool.eq_iff_iff, intends, Option.any_eq_true, Option.any_eq_true]
  constructor
  · rintro ⟨r, hr, hi⟩
    exact ⟨r, (hm id r).mpr ⟨hr, cancellationIntent_live hi⟩, hi⟩
  · rintro ⟨r, hr, hi⟩
    exact ⟨r, ((hm id r).mp hr).1, hi⟩

theorem cancellingOwnerOf_isSome {rank : Node → ℕ} (hg : store.Grounded rank) {x : Ownership}
    (h : Ownership.Core store x) (hm : Ownership.Mirrors store x) (fuel : ℕ) (m : Node) (hfuel : rank m < fuel) :
    (cancellingOwnerOf x (x.above fuel m)).isSome = true ↔
      ∃ o, intends store o = true ∧ Harness.Under x.node x.edges (uncancelled store) (.task o) m := by
  induction fuel generalizing m with
  | zero => omega
  | succ fuel ih =>
    cases m with
    | task id =>
      cases hn : x.node id with
      | none =>
        simp only [Ownership.above, hn, cancellingOwnerOf, isSome_none, Bool.false_eq_true, false_iff,
          not_exists, not_and]
        intro o hi hu
        cases hu with
        | here =>
          rw [intends_iff_live hm] at hi
          obtain ⟨r, hr, -⟩ := (Option.any_eq_true _ _).mp hi
          simp [Ownership.node, hr] at hn
        | task hn' _ _ => simp [hn] at hn'
      | some node =>
        have hdeep := Ownership.up_deeper_task hg h hn
        simp only [Ownership.above, hn, cancellingOwnerOf]
        cases hi : intends store id with
        | true =>
          have hl := hi
          rw [intends_iff_live hm] at hl
          obtain ⟨r, hr, hri⟩ := (Option.any_eq_true _ _).mp hl
          simp only [hr, filter_some, hri, if_true, isSome_some, true_iff]
          exact ⟨id, hi, .here⟩
        | false =>
          have hfilter : (x.live id).filter cancellationIntent = none := by
            rw [intends_iff_live hm] at hi
            cases hr : x.live id with
            | none => rfl
            | some r =>
              rw [hr, any_some] at hi
              simp [hi]
          simp only [hfilter]
          cases hb : node.background with
          | true =>
            simp only [if_true, isSome_none, Bool.false_eq_true, false_iff, not_exists, not_and]
            intro o hio hu
            cases hu with
            | here => simp [hi] at hio
            | task hn' hpass _ =>
              obtain rfl := some.inj (hn.symm.trans hn')
              simp [uncancelled, hb] at hpass
          | false =>
            simp only [Bool.false_eq_true, if_false]
            rw [ih node.parent (by omega)]
            constructor
            · rintro ⟨o, hio, hu⟩
              exact ⟨o, hio, .task hn (by simp [uncancelled, hb, hi]) hu⟩
            · rintro ⟨o, hio, hu⟩
              cases hu with
              | here => simp [hi] at hio
              | task hn' _ hu =>
                obtain rfl := some.inj (hn.symm.trans hn')
                exact ⟨o, hio, hu⟩
    | conversation c =>
      simp only [Ownership.above, cancellingOwnerOf]
      cases hc : x.edges c with
      | none =>
        simp only [cancellingOwnerOf, isSome_none, Bool.false_eq_true, false_iff, not_exists, not_and]
        intro o _ hu
        cases hu with
        | conversation hc' _ => simp [hc] at hc'
      | some o =>
        cases o with
        | none =>
          simp only [cancellingOwnerOf, isSome_none, Bool.false_eq_true, false_iff, not_exists, not_and]
          intro o _ hu
          cases hu with
          | conversation hc' _ => simp [hc] at hc'
        | some o =>
          have hdeep := Ownership.up_deeper_conversation hg h hc
          simp only
          rw [ih (.task o) (by omega)]
          constructor
          · rintro ⟨o', hio, hu⟩
            exact ⟨o', hio, .conversation hc hu⟩
          · rintro ⟨o', hio, hu⟩
            cases hu with
            | conversation hc' hu =>
              obtain rfl : o = _ := by simpa [hc] using hc'
              exact ⟨o', hio, hu⟩

theorem stored_of_known {x : Ownership} (h : Ownership.Core store x) {pass : Id → TaskNode → Bool}
    {n m : Node} (hu : Harness.Under x.node x.edges pass n m) : Harness.Under store.node store.edge pass n m := by
  refine hu.mono ?_ ?_ (fun _ _ _ hp => hp)
  · intro id nd hnd
    obtain ⟨r, hr, rfl⟩ := h.node id nd hnd
    simp [Store.node, hr]
  · intro c o ho
    obtain ⟨r, hr, rfl⟩ := h.edge c o ho
    simp [Store.edge, hr]

variable {s : Scheduler}

theorem cancels_of_belowCancelled (h : Tracked s.store s.own) {m : Node} (hm : s.store.has m = true)
    (hb : s.belowCancelled m = true) : ∃ o, Cancels s.store o m := by
  obtain ⟨rank, hg⟩ := h.grounded
  unfold belowCancelled cancellingOwner at hb
  split at hb
  · simp at hb
  · obtain ⟨o, hi, hu⟩ := (cancellingOwnerOf_isSome hg h.sound.toCore h.mirrors _ m
      (Nat.lt_succ_of_lt (hg.bound m hm))).mp hb
    exact ⟨o, hi, stored_of_known h.sound.toCore hu⟩

theorem belowCancelled_of_cancels (h : Tracked s.store s.own)
    (hintent : ∀ id, intends s.store id = true → id ∈ s.intent) {m : Node} (hl : s.own.Loaded m) {o : Id}
    (hc : Cancels s.store o m) : s.belowCancelled m = true := by
  obtain ⟨rank, hg⟩ := h.grounded
  have hne : s.intent.isEmpty = false := by
    rw [isEmpty_eq_false_iff]
    exact ne_nil_of_mem (hintent o hc.1)
  have hm : s.store.has m = true := by
    cases hl with
    | root hr => exact (s.store.has_iff m).mpr ⟨_, h.sound.up _ _ hr⟩
    | step hr _ => exact (s.store.has_iff m).mpr ⟨_, h.sound.up _ _ hr⟩
  unfold belowCancelled cancellingOwner
  rw [hne, if_neg (by simp)]
  refine (cancellingOwnerOf_isSome hg h.sound.toCore h.mirrors _ m (Nat.lt_succ_of_lt (hg.bound m hm))).mpr ?_
  exact ⟨o, hc.1, (Ownership.under_iff_of_loaded h.sound.toCore hl).mpr hc.2⟩

/-! ## Leaving the runnable set -/

theorem discard_plans (s : Scheduler) (id : Id)
    (h : ∀ r, s.own.live id = some r → isCompleting r = false → s.invocations id = none → Blocked s.store id r) :
    Plans s { s with runnable := discard s.runnable id } := by
  refine ⟨rfl, fun h => h, rfl, fun h => h, fun h => h, fun h => h, nodup_discard _ _, fun _ _ _ _ hu => hu,
    (Plans.refl s).runs, fun h => h, fun h => h, ?_⟩
  intro j r hr hc hinv
  by_cases hj : j = id
  · subst hj
    exact Or.inr (Or.inl (h r hr hc hinv))
  · rcases (Plans.refl s).free j r hr hc hinv with hmem | hb | hold
    · exact Or.inl ((mem_discard _ _ _).mpr ⟨hmem, hj⟩)
    · exact Or.inr (Or.inl hb)
    · exact Or.inr (Or.inr hold)

theorem blocked_of_waitingOn (h : Tracked s.store s.own) (r : TaskRecord) (id : Id) (hid : r.id = id)
    (hw : (s.waitingOn r).isEmpty = false) : Blocked s.store id r := by
  rw [isEmpty_eq_false_iff] at hw
  obtain ⟨t, ht⟩ := exists_mem_of_ne_nil _ hw
  unfold waitingOn at ht
  split at ht
  · rename_i hmarked
    subst hid
    exact Or.inr ⟨hmarked, t, (views_empty h).ownedLive_sound s.store.count le_rfl [] r.id t ht⟩
  · rename_i hmarked
    obtain ⟨hmem, hlive⟩ := mem_filter.mp ht
    obtain ⟨m, hm⟩ := isSome_iff_exists.mp hlive
    exact Or.inl ⟨by simpa using hmarked, t, hmem, m, (h.mirrors t m).mp hm⟩

theorem getElem?_snoc {α : Type} (l : List α) (a b : α) (n : ℕ) (h : (l ++ [a])[n]? = some b) :
    l[n]? = some b ∨ n = l.length ∧ a = b := by
  have hlt := (List.getElem?_eq_some_iff.mp h).1
  rw [length_append, length_singleton] at hlt
  rcases Nat.lt_succ_iff_lt_or_eq.mp hlt with hn | rfl
  · exact .inl ((getElem?_append_left hn).symm.trans h)
  · exact .inr ⟨rfl, some.inj (getElem?_concat_length.symm.trans h)⟩

theorem createInvocation_plans (s : Scheduler) (id : Id) (mode : Mode) (definition : TaskDefinition)
    (hfree : s.invocations id = none) :
    Plans s ({ s with runnable := discard s.runnable id }.createInvocation id mode definition) := by
  unfold createInvocation
  refine ⟨rfl, fun h => h, rfl, fun h => h, fun h => h, fun h => h, nodup_discard _ _, fun _ _ _ _ hu => hu, ?_, ?_, ?_, ?_⟩
  · intro n run hrun
    refine ⟨run, ?_, rfl, rfl, rfl, fun h => h⟩
    have hlt := (List.getElem?_eq_some_iff.mp hrun).1
    exact (getElem?_append_left hlt).trans hrun
  · intro hi j n
    dsimp only
    by_cases hj : j = id
    · subst hj
      rw [update_self]
      constructor
      · intro hn
        obtain rfl := some.inj hn
        exact ⟨_, getElem?_concat_length, rfl, rfl⟩
      · rintro ⟨run, hrun, hid, hopen⟩
        rcases getElem?_snoc _ _ _ n hrun with hrun | ⟨rfl, -⟩
        · have := (hi j n).mpr ⟨run, hrun, hid, hopen⟩
          simp [hfree] at this
        · rfl
    · rw [update_of_ne hj, hi j n]
      constructor
      · rintro ⟨run, hrun, hid, hopen⟩
        exact ⟨run, (getElem?_append_left (List.getElem?_eq_some_iff.mp hrun).1).trans hrun, hid, hopen⟩
      · rintro ⟨run, hrun, hid, hopen⟩
        rcases getElem?_snoc _ _ _ n hrun with hrun | ⟨-, rfl⟩
        · exact ⟨run, hrun, hid, hopen⟩
        · exact absurd hid.symm hj
  · intro hjoined n run hrun hfinished
    rcases getElem?_snoc _ _ _ n hrun with hrun | ⟨-, rfl⟩
    · exact hjoined n run hrun hfinished
    · cases hfinished
  · intro j r hr hc hinv
    dsimp only at hinv ⊢
    by_cases hj : j = id
    · subst hj
      simp at hinv
    · rw [update_of_ne hj] at hinv
      rcases (Plans.refl s).free j r hr hc hinv with hmem | hb | hold
      · exact Or.inl ((mem_discard _ _ _).mpr ⟨hmem, hj⟩)
      · exact Or.inr (Or.inl hb)
      · exact Or.inr (Or.inr hold)

/-! ## One candidate -/

structure Reserving (s₀ : Scheduler) (rest : List Id) (s : Scheduler) (tx : Tx) : Prop where
  plans : Plans s₀ s
  tracked : Tracked s.store s.own
  planned : Planned s tx
  internal : Internal tx
  unloaded : s.own.unloaded = []
  untouched : ∀ id ∈ rest, tx.write id = none

theorem resolve_rewrites {record : TaskRecord} {task : TaskDefinition} {resolved : TaskRecord}
    {migrated : Bool} (h : (s.resolve record).2 = some (task, resolved, migrated)) (hc : isCompleting record = false)
    (state : TaskState) : Rewrites record (withState resolved state) := by
  have hkeep : resolved.id = record.id ∧ nodeOf resolved = nodeOf record ∧
      resolved.abortRequested = record.abortRequested ∧ resolved.restart = record.restart := by
    unfold resolve at h
    split at h
    · simp at h
    · simp only [Option.some.injEq, Prod.mk.injEq] at h
      obtain ⟨-, rfl, -⟩ := h
      exact ⟨rfl, rfl, rfl, rfl⟩
    · split at h
      · simp at h
      · simp only [Option.some.injEq, Prod.mk.injEq] at h
        obtain ⟨-, rfl, -⟩ := h
        exact ⟨rfl, rfl, rfl, rfl⟩
  obtain ⟨hid, hnode, hmarked, hrestart⟩ := hkeep
  refine ⟨hid, hnode, fun hm => hmarked.trans hm, fun _ hr => hrestart.symm.trans hr, ?_⟩
  intro outcome ho
  simp [isCompleting, ho, TaskState.status] at hc

def Examined (s : Scheduler) (tx : Tx) (id : Id) : Prop :=
  id ∉ s.runnable ∨ tx.write id ≠ none ∨ ∃ r, s.own.live id = some r ∧
    (s.Unfit r ∨ (r.abortRequested = false ∧ r.background = false ∧ ∃ o, Cancels s.store o (parentOf r)))

theorem Examined.later {s s' : Scheduler} {tx tx' : Tx} {id : Id} (h : Examined s tx id) (hs : Plans s s')
    (hids : ∀ r, s.own.live id = some r → r.id = id) (hrun : ∀ j ∈ s'.runnable, j ∈ s.runnable)
    (hw : tx.write id ≠ none → tx'.write id ≠ none) : Examined s' tx' id := by
  rcases h with h | h | ⟨r, hr, hor⟩
  · exact Or.inl (fun hmem => h (hrun id hmem))
  · exact Or.inr (Or.inl (hw h))
  · refine Or.inr (Or.inr ⟨r, by rw [hs.live, hr], ?_⟩)
    rw [hs.store]
    exact hor.imp_left (hs.unfit id r hr (hids r hr))

structure Reserved (s₀ : Scheduler) (rest : List Id) (s : Scheduler) (tx : Tx) (id : Id) (s' : Scheduler) (tx' : Tx) :
    Prop where
  reserving : Reserving s₀ rest s' tx'
  plans : Plans s s'
  runnable : ∀ j ∈ s'.runnable, j ∈ s.runnable
  kept : ∀ j, tx.write j ≠ none → tx'.write j ≠ none
  examined : Examined s' tx' id

variable {tx tx' : Tx} {value : TaskRecord}

theorem Reserving.step {s₀ s s' : Scheduler} {tx tx' : Tx} {id : Id} {rest : List Id}
    (h : Reserving s₀ (id :: rest) s tx) (hs : Plans s s') (hp : Planned s' tx') (hi : Internal tx')
    (hw : ∀ j, j ≠ id → tx'.write j = tx.write j) (hid : id ∉ rest) : Reserving s₀ rest s' tx' := by
  refine ⟨h.plans.trans hs, ?_, hp, hi, hs.unloaded h.unloaded, ?_⟩
  · rw [hs.store]
    exact hs.tracked h.tracked
  · intro j hj
    rw [hw j (by rintro rfl; exact hid hj)]
    exact h.untouched j (mem_cons_of_mem _ hj)

theorem terminate_write {record : TaskRecord} {outcome : TaskOutcome}
    (h : (s.terminate tx record outcome).2 = some tx') :
    (∀ j, j ≠ record.id → tx'.write j = tx.write j) ∧ tx'.write record.id ≠ none := by
  obtain ⟨state, hs⟩ : ∃ state, tx.setTask (withState record state) = some tx' := ⟨_, h⟩
  obtain ⟨w, hw, -⟩ := Tx.setTask_self hs
  exact ⟨fun j hj => Tx.setTask_other hs j hj, ne_none_iff_exists'.mpr ⟨w, hw⟩⟩

theorem reserveOne_spec {s₀ s : Scheduler} {tx : Tx} {id : Id} {rest : List Id}
    (h : Reserving s₀ (id :: rest) s tx) (hid : id ∉ rest) :
    ∃ s' tx', reserveOne (s, some tx) id = (s', some tx') ∧ Reserved s₀ rest s tx id s' tx' := by
  obtain ⟨rank, hg⟩ := h.tracked.grounded
  have hsub : ∀ j ∈ discard s.runnable id, j ∈ s.runnable := fun j hj => ((mem_discard _ _ _).mp hj).1
  have hout : id ∉ discard s.runnable id := fun hmem => ((mem_discard _ _ _).mp hmem).2 rfl
  -- a task that leaves the runnable set, and nothing else
  have hleave : Plans s { s with runnable := discard s.runnable id } →
      Reserved s₀ rest s tx id { s with runnable := discard s.runnable id } tx := by
    intro hs
    exact ⟨h.step hs (h.planned.plans hs) h.internal (fun _ _ => rfl) hid, hs, hsub, fun _ hw => hw, Or.inl hout⟩
  unfold reserveOne
  dsimp only
  cases hl : s.own.live id with
  | none => exact ⟨_, _, rfl, hleave (discard_plans s id (by simp [hl]))⟩
  | some record =>
    dsimp only
    obtain ⟨hstored, hlive⟩ := (h.tracked.mirrors id record).mp hl
    have hrid : record.id = id := hg.taskId _ _ hstored
    have hl' : s.own.live record.id = some record := by rw [hrid, hl]
    split
    · rename_i hbusy
      refine ⟨_, _, rfl, hleave (discard_plans s id ?_)⟩
      intro r hr hc hinv
      obtain rfl : record = r := by simpa [hl] using hr
      simp [hc, hinv] at hbusy
    · rename_i hbusy
      rw [Bool.or_eq_true, not_or, Bool.not_eq_true, Bool.not_eq_true, isSome_eq_false_iff,
        isNone_iff_eq_none] at hbusy
      obtain ⟨hc, hinv⟩ := hbusy
      split
      · rename_i hwaiting
        refine ⟨_, _, rfl, hleave (discard_plans s id ?_)⟩
        intro r hr _ _
        obtain rfl : record = r := by simpa [hl] using hr
        exact blocked_of_waitingOn h.tracked record id hrid (by simpa using hwaiting)
      · generalize hmode : (if record.abortRequested then Mode.abort else Mode.run) = mode
        split
        · rename_i hbelow
          simp only [Bool.and_eq_true, Bool.not_eq_true', decide_eq_true_eq] at hbelow
          obtain ⟨⟨rfl, hb⟩, hcancelled⟩ := hbelow
          have hmarked : record.abortRequested = false := by
            by_contra hm
            rw [Bool.not_eq_false] at hm
            simp [hm] at hmode
          have hs := cascade_plans s
          refine ⟨_, _, rfl, h.step hs (h.planned.plans hs) h.internal (fun _ _ => rfl) hid, hs, fun _ hj => hj,
            fun _ hw => hw, Or.inr (Or.inr ⟨record, hl, Or.inr ⟨hmarked, hb, ?_⟩⟩)⟩
          have hhas : s.store.has (parentOf record) = true :=
            hg.parent (.task id) _ (by simp [Store.up, hstored])
          exact cancels_of_belowCancelled h.tracked hhas hcancelled
        · have hs := resolve_plans s record hl'
          have ht' : Tracked (s.resolve record).1.store (s.resolve record).1.own := by
            rw [hs.store]
            exact hs.tracked h.tracked
          have hrest := (Plans.rest hs)
          have hrun : (s.resolve record).1.runnable = s.runnable ∧ (s.resolve record).1.invocations = s.invocations := by
            unfold resolve
            split
            · exact ⟨rfl, rfl⟩
            · exact ⟨rfl, rfl⟩
            · split <;> exact ⟨rfl, rfl⟩
          have hcur : tx.currentTask record.id = some record := by
            have hn := h.untouched id mem_cons_self
            rw [hrid]
            simp [Tx.currentTask, hn, h.planned.store, hstored]
          have hlive1 : (s.resolve record).1.own.live record.id = some record := by rw [hs.live, hl']
          have hunfit := s.resolve_none_iff record
          cases hr : s.resolve record with
          | mk s1 found =>
            rw [hr] at hs ht' hrun hlive1 hunfit
            cases found with
            | none =>
              have hu : s1.Unfit record := hs.unfit id record hl hrid (hunfit.mp rfl)
              have hsub1 : ∀ j ∈ s1.runnable, j ∈ s.runnable := by
                rw [hrun.1]
                exact fun j hj => hj
              dsimp only
              split
              · obtain ⟨hplans, tx', htx, hp', hi'⟩ := terminate_decided s1 ht' (h.planned.plans hs) h.internal hlive1 hcur
                  hlive hc ⟨.orphaned, .null⟩
                obtain ⟨hother, hself⟩ := terminate_write htx
                rw [hrid] at hother hself
                have hall := hs.trans hplans
                refine ⟨(s1.terminate tx record ⟨.orphaned, .null⟩).1, tx', Prod.ext rfl htx,
                  h.step hall hp' hi' hother hid, hall, hsub1, ?_, Or.inr (Or.inl hself)⟩
                intro j hw
                by_cases hj : j = id
                · exact hj ▸ hself
                · rwa [hother j hj]
              · refine ⟨_, _, rfl, h.step hs (h.planned.plans hs) h.internal (fun _ _ => rfl) hid, hs, hsub1,
                  fun _ hw => hw, Or.inr (Or.inr ⟨record, by rw [hs.live, hl], Or.inl hu⟩)⟩
            | some found =>
              obtain ⟨task, resolved, migrated⟩ := found
              dsimp only
              have hresolved : (s.resolve record).2 = some (task, resolved, migrated) := by rw [hr]
              have hcreate := createInvocation_plans s1 id mode task (hrun.2.symm ▸ hinv)
              have hall := hs.trans hcreate
              have hout1 : ∀ j ∈ discard s1.runnable id, j ∈ s.runnable := by
                rw [hrun.1]
                exact hsub
              split
              · have hrw := resolve_rewrites hresolved hc (.running (checkpointOf resolved))
                have hvid : (withState resolved (.running (checkpointOf resolved))).id = record.id := hrw.id
                obtain ⟨tx', htx, hp'⟩ := h.planned.setTask h.tracked.mirrors
                  (withState resolved (.running (checkpointOf resolved))) (by rw [hvid]; exact hl')
                  (by rw [hvid]; exact hcur) hlive hrw (by simp [withState, isTerminal, TaskState.status])
                have hother : ∀ j, j ≠ id → tx'.write j = tx.write j :=
                  fun j hj => Tx.setTask_other htx j (by rwa [hvid, hrid])
                refine ⟨_, tx', by rw [htx], h.step hall (hp'.plans hall) (h.internal.setTask _ htx) hother hid, hall, hout1,
                  Tx.setTask_kept htx, Or.inl (fun hmem => ((mem_discard _ _ _).mp hmem).2 rfl)⟩
              · exact ⟨_, tx, rfl, h.step hall (h.planned.plans hall) h.internal (fun _ _ => rfl) hid, hall, hout1,
                  fun _ hw => hw, Or.inl (fun hmem => ((mem_discard _ _ _).mp hmem).2 rfl)⟩

theorem reserveAll_spec {s₀ : Scheduler} (ids : List Id) (hnodup : ids.Nodup) {s : Scheduler} {tx : Tx}
    (h : Reserving s₀ ids s tx) :
    ∃ s' tx', ids.foldl reserveOne (s, some tx) = (s', some tx') ∧ Reserving s₀ [] s' tx' ∧ Plans s s' ∧
      (∀ j ∈ s'.runnable, j ∈ s.runnable) ∧ (∀ j, tx.write j ≠ none → tx'.write j ≠ none) ∧
      ∀ id ∈ ids, Examined s' tx' id := by
  induction ids generalizing s tx with
  | nil => exact ⟨s, tx, rfl, h, Plans.refl s, fun _ hj => hj, fun _ hw => hw, by simp⟩
  | cons id ids ih =>
    rw [nodup_cons] at hnodup
    obtain ⟨s1, tx1, h1, hr⟩ := reserveOne_spec h hnodup.1
    obtain ⟨s2, tx2, h2, hres, hplans, hsub, hkept, hex⟩ := ih hnodup.2 hr.reserving
    refine ⟨s2, tx2, by rw [foldl_cons, h1, h2], hres, hr.plans.trans hplans,
      fun j hj => hr.runnable j (hsub j hj), fun j hw => hkept j (hr.kept j hw), ?_⟩
    intro j hj
    rcases mem_cons.mp hj with rfl | hj
    · obtain ⟨rank, hg⟩ := hr.reserving.tracked.grounded
      refine hr.examined.later hplans ?_ hsub (hkept j)
      exact fun r hl => hg.taskId _ _ ((hr.reserving.tracked.mirrors _ r).mp hl).1
    · exact hex j hj

end Scheduler

end PiAgent.Harness
