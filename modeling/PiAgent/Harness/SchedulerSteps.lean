import PiAgent.Harness.SchedulerPlans

/-! # The steps before a commit, one by one -/

namespace PiAgent.Harness

open List Durable

namespace Scheduler

/-! ## Definitions and invocations -/

variable (s : Scheduler)

theorem resolve_plans (record : TaskRecord) (hlive : s.own.live record.id = some record) :
    Plans s (s.resolve record).1 := by
  unfold resolve
  split
  · exact Plans.refl s
  · exact Plans.refl s
  · rename_i task hfit
    split
    · rename_i hmigrate
      refine ⟨rfl, id, rfl, id, id, id, id, ?_, (Plans.refl s).runs, id, id, (Plans.refl s).free⟩
      intro id r hr hid hu
      by_cases hsame : id = record.id
      · -- the definition found for the record is the one that fails
        subst hsame
        obtain rfl : r = record := by simpa [hlive] using hr.symm
        have hreg : s.registry r.kind = some task := by
          unfold fit at hfit
          split at hfit
          · simp at hfit
          · rename_i task' hreg
            split at hfit
            · simp at hfit
            · split at hfit
              · simp at hfit
              · split at hfit
                · simp at hfit
                · simp only [Option.some.injEq, Prod.mk.injEq, and_true] at hfit
                  rw [← hfit]
                  exact hreg
        intro task' htask'
        obtain rfl : task = task' := by simpa [hreg] using htask'
        exact (hu task hreg).imp_right (fun ⟨hlt, _⟩ => ⟨hlt, Or.inl (by simp)⟩)
      · intro task' htask'
        refine (hu task' htask').imp_right (fun ⟨hlt, hor⟩ => ⟨hlt, hor.imp_left (fun hf => ?_)⟩)
        rw [← hf]
        exact Function.update_of_ne (hid ▸ hsame) _ _
    · exact Plans.refl s

theorem endInvocation_plans (number : ℕ) : Plans s (s.endInvocation number) := by
  unfold endInvocation
  split
  · exact Plans.refl s
  · rename_i invocation hinvocation
    split
    · exact Plans.refl s
    · rename_i hended
      have hlt : number < s.runs.length := (List.getElem?_eq_some_iff.mp hinvocation).1
      have hruns : ∀ (n : ℕ) (run : Invocation), s.runs[n]? = some run →
          ∃ run', (s.runs.set number { invocation with ended := true })[n]? = some run' ∧ run'.taskId = run.taskId ∧
            run'.mode = run.mode ∧ run'.finished = run.finished ∧ (run.ended = true → run'.ended = true) := by
        intro n run hrun
        by_cases hn : number = n
        · subst hn
          obtain rfl : run = invocation := by simpa [hinvocation] using hrun.symm
          exact ⟨_, getElem?_set_self hlt, rfl, rfl, rfl, fun _ => rfl⟩
        · exact ⟨run, (getElem?_set_ne hn).trans hrun, rfl, rfl, rfl, id⟩
      have hjoined : s.Joined → ∀ (n : ℕ) (run : Invocation),
          (s.runs.set number { invocation with ended := true })[n]? = some run → run.finished = true → run.ended = true := by
        intro hj n run hrun hfinished
        by_cases hn : number = n
        · subst hn
          rw [getElem?_set_self hlt] at hrun
          rw [← Option.some.inj hrun]
        · rw [getElem?_set_ne hn] at hrun
          exact hj n run hrun hfinished
      dsimp only
      split
      · rename_i hmap
        refine ⟨rfl, id, rfl, id, id, id, ?_, fun _ _ _ _ hu => hu, hruns, ?_, hjoined, ?_⟩
        · intro hn
          dsimp only
          split
          · exact nodup_add _ _ hn
          · exact hn
        · intro hi id n
          dsimp only
          by_cases hid : id = invocation.taskId
          · subst hid
            rw [Function.update_self]
            simp only [reduceCtorEq, false_iff, not_exists, not_and]
            intro run hrun hrt
            by_cases hn : number = n
            · subst hn
              rw [getElem?_set_self hlt] at hrun
              rw [← Option.some.inj hrun]
              simp
            · rw [getElem?_set_ne hn] at hrun
              intro hopen
              have := (hi invocation.taskId n).mpr ⟨run, hrun, hrt, hopen⟩
              simp only [hmap, Option.some.injEq] at this
              exact hn this
          · rw [Function.update_of_ne hid, hi id n]
            constructor
            · rintro ⟨run, hrun, hrt, hopen⟩
              have hn : number ≠ n := by
                rintro rfl
                obtain rfl : run = invocation := by simpa [hinvocation] using hrun.symm
                exact hid hrt.symm
              exact ⟨run, (getElem?_set_ne hn).trans hrun, hrt, hopen⟩
            · rintro ⟨run, hrun, hrt, hopen⟩
              have hn : number ≠ n := by
                rintro rfl
                rw [getElem?_set_self hlt] at hrun
                rw [← Option.some.inj hrun] at hopen
                simp at hopen
              rw [getElem?_set_ne hn] at hrun
              exact ⟨run, hrun, hrt, hopen⟩
        · intro id r hr hc hinv
          dsimp only at hinv ⊢
          by_cases hid : id = invocation.taskId
          · subst hid
            exact Or.inl (by simp [hr])
          · rw [Function.update_of_ne hid] at hinv
            rcases (Plans.refl s).free id r hr hc hinv with hmem | hb | hold
            · refine Or.inl ?_
              split
              · exact (mem_add _ _ _).mpr (Or.inr hmem)
              · exact hmem
            · exact Or.inr (Or.inl hb)
            · exact Or.inr (Or.inr hold)
      · rename_i hmap
        refine ⟨rfl, id, rfl, id, id, id, id, fun _ _ _ _ hu => hu, hruns, ?_, hjoined, (Plans.refl s).free⟩
        intro hi
        exact absurd ((hi invocation.taskId number).mpr ⟨invocation, hinvocation, rfl, by simpa using hended⟩) hmap

/-! ## Owned work, judged for a transaction -/

variable {s : Scheduler} {tx : Tx}

theorem Planned.views (hp : Planned s tx) (h : Tracked s.store s.own) :
    s.own.Views s.store tx.candidate (overlayOf tx) := by
  have hover := overlayOf_over hp.staged (hp.live h.mirrors)
  rw [hp.store] at hover
  exact ⟨h.grounded, hp.staged.grounded, hover, h.sound.toCore, h.mirrors⟩

variable (s : Scheduler)

theorem fuel_eq {tx : Tx} (h : tx.store = s.store) : s.fuel (overlayOf tx) = tx.candidate.count := by
  simp only [fuel, overlayOf, Tx.stagedTasks, length_map, Tx.candidate, h]
  omega

structure Internal (tx : Tx) : Prop where
  conversations : tx.conversations = []
  replaces : ∀ id w, tx.write id = some w → w.kind = .replace

theorem start_internal (store : Store) : Internal (Tx.start store) :=
  ⟨rfl, by intro id w hw; simp [Tx.start, Tx.write] at hw⟩

theorem Internal.setTask {tx tx' : Tx} (h : Internal tx) (value : TaskRecord) (hs : tx.setTask value = some tx') :
    Internal tx' := by
  obtain ⟨w', rfl, -, hk⟩ := Tx.setTask_eq hs
  refine ⟨h.conversations, ?_⟩
  intro id w hw
  rw [Tx.setWrite_write] at hw
  split at hw
  · rw [← Option.some.inj hw, hk]
    cases hc : tx.write value.id with
    | none => rfl
    | some c => exact h.replaces _ c hc
  · exact h.replaces id w hw

theorem Internal.taskEntry (h : Internal tx) (id : Id) : Internal (tx.taskEntry id) := by
  refine ⟨(tx.taskEntry_fields id).2.symm ▸ h.conversations, ?_⟩
  intro j w hw
  rw [Tx.taskEntry_write] at hw
  exact h.replaces j w hw

variable {s : Scheduler}

section

variable {tx : Tx} (hp : Planned s tx) (h : Tracked s.store s.own) (hu : s.own.unloaded = [])
include hp h hu

/-- The candidates of a transaction that creates nothing were live, and their chains are loaded with all others. -/
theorem Planned.leads (hi : Internal tx) :
    ∀ id r, Assoc.get? (overlayOf tx).tasks id = some r → s.own.Leads (overlayOf tx) (parentOf r) := by
  intro id r hr
  have hviews := hp.views h
  have hcand := hviews.overlaid.task id r hr
  obtain ⟨w, hw, rfl⟩ : ∃ w, tx.write id = some w ∧ w.record = r := by
    have hmem := Assoc.mem_of_get? _ _ _ hr
    simp only [overlayOf, Tx.stagedTasks, map_map, mem_map, Function.comp_apply, Prod.mk.injEq] at hmem
    obtain ⟨w, hw, rfl, rfl⟩ := hmem
    exact ⟨w, Tx.mem_writes hp.staged w hw, rfl⟩
  obtain ⟨old, hold, hrw⟩ := hp.replaced id w hw (hi.replaces id w hw)
  have hparent : parentOf w.record = parentOf old := by rw [parentOf, hrw.node, parentOf]
  rw [hparent]
  exact (h.sound.loaded_parent hold (by simp [hu])).leads hviews.overlaid hviews.core

theorem Planned.not_owned
    (hl : ∀ id r, Assoc.get? (overlayOf tx).tasks id = some r → s.own.Leads (overlayOf tx) (parentOf r))
    (id : Id) (hnone : s.own.hasOwnedLive (s.fuel (overlayOf tx)) (overlayOf tx) [] id = false) (t : Id) :
    ¬tx.candidate.Owned id t :=
  (hp.views h).owned_of_empty h.sound hu hl _ (s.fuel_eq hp.store).ge [] (by simp) id hnone t

end

/-! ## Outcomes -/

theorem rewrites_withState {record : TaskRecord} (hc : isCompleting record = false) (state : TaskState) :
    Rewrites record (withState record state) := by
  refine ⟨rfl, rfl, fun h => h, fun _ h => h, ?_⟩
  intro outcome ho
  simp [isCompleting, ho, TaskState.status] at hc

variable (s : Scheduler)

theorem terminate_decided {tx : Tx} (h : Tracked s.store s.own) (hp : Planned s tx) (hi : Internal tx)
    {record old : TaskRecord} (hold : s.own.live record.id = some old) (hcur : tx.currentTask record.id = some record)
    (hlive : isTerminal record = false) (hc : isCompleting record = false) (outcome : TaskOutcome) :
    Plans s (s.terminate tx record outcome).1 ∧
      ∃ tx', (s.terminate tx record outcome).2 = some tx' ∧ Planned (s.terminate tx record outcome).1 tx' ∧ Internal tx' := by
  have hplans := loadScopes_plans s [] (by simp) h
  obtain ⟨ht, hl, hu⟩ := loadScopes_sound s [] (by simp) h
  have hp' := hp.plans hplans
  have ht' : Tracked (s.loadScopes []).store (s.loadScopes []).own := by
    rw [hplans.store]
    exact ht
  have hold' : (s.loadScopes []).own.live record.id = some old := by rw [hl, hold]
  unfold terminate
  dsimp only
  refine ⟨hplans, ?_⟩
  cases howned : (s.loadScopes []).own.hasOwnedLive ((s.loadScopes []).fuel (overlayOf tx)) (overlayOf tx) []
      record.id with
  | true =>
    obtain ⟨tx', hs, hp''⟩ := hp'.setTask ht'.mirrors (withState record (.completing outcome)) hold' hcur hlive
      (rewrites_withState hc _) (by simp [withState, isTerminal, TaskState.status])
    exact ⟨tx', hs, hp'', hi.setTask _ hs⟩
  | false =>
    obtain ⟨tx', hs, hp''⟩ := hp'.setTask ht'.mirrors (withState record (.terminal outcome)) hold' hcur hlive
      (rewrites_withState hc _) (fun _ => ⟨hu, hp'.not_owned ht' hu (hp'.leads ht' hu hi) record.id howned⟩)
    exact ⟨tx', hs, hp'', hi.setTask _ hs⟩

/-! ## Loads for a transaction's own tasks -/

theorem overlayOf_deep (h : tx.Staged) {rank : Node → ℕ} (hg : tx.candidate.Grounded rank) :
    (overlayOf tx).Deep tx.store rank := by
  refine ⟨?_, ?_⟩
  · intro n p hup
    refine hg.deeper n p ?_
    cases n with
    | task id =>
      obtain ⟨r, hr, hp⟩ := Option.map_eq_some_iff.mp hup
      obtain ⟨r', hr', hn⟩ := Tx.candidate_node h id r hr
      have : parentOf r' = parentOf r := by rw [parentOf, hn, parentOf]
      simp only [Store.up, hr', Option.map_some, this]
      exact congrArg some hp
    | conversation c =>
      obtain ⟨r, hr, hp⟩ := Option.map_eq_some_iff.mp hup
      simp only [Store.up, Tx.candidate_conversation h c r hr, Option.map_some]
      exact congrArg some hp
  · intro c o ho
    simp only [overlayOf] at ho
    rw [Assoc.get?_map] at ho
    obtain ⟨r, hr, hor⟩ := Option.map_eq_some_iff.mp ho
    exact hg.deeper _ _ (by simp [Store.up, Tx.candidate, Tx.currentConversation, hr, hor])

section

variable {tx : Tx} (h : Tracked s.store s.own) (hp : Planned s tx) (hu : s.own.unloaded = [])
include h hp hu

theorem loadStaged_sound :
    Tracked s.store (s.loadStaged (overlayOf tx)).own ∧ (s.loadStaged (overlayOf tx)).own.live = s.own.live ∧
      (s.loadStaged (overlayOf tx)).own.unloaded = [] ∧
      ∀ id r, Assoc.get? (overlayOf tx).tasks id = some r →
        (s.loadStaged (overlayOf tx)).own.Leads (overlayOf tx) (parentOf r) := by
  obtain ⟨rank, hg⟩ := h.grounded
  obtain ⟨depth, hc⟩ := hp.staged.grounded
  have hlive := hp.live h.mirrors
  have hd := overlayOf_deep hp.staged hc
  have hf := Ownership.fits_overlayOf hp.staged hlive
  have hcount := s.fuel_eq hp.store
  rw [hp.store] at hd hf
  have hstarts : ∀ n ∈ (overlayOf tx).tasks.map (fun task => parentOf task.2),
      (s.store.has n = true ∨ Ownership.Overlay.has (overlayOf tx) n = true) ∧
        depth n < s.store.count + (overlayOf tx).tasks.length + (overlayOf tx).edges.length := by
    intro n hn
    simp only [overlayOf, Tx.stagedTasks, map_map, mem_map, Function.comp_apply] at hn
    obtain ⟨w, hw, rfl⟩ := hn
    have hor := Ownership.parent_stored_or_staged hp.staged w hw
    rw [hp.store] at hor
    have hup : tx.candidate.up (.task w.record.id) = some (some (parentOf w.record)) := by
      simp [Store.up, Tx.candidate_of_write (Tx.mem_writes hp.staged w hw)]
    refine ⟨hor, ?_⟩
    have := hc.bound _ (hc.parent _ _ hup)
    rwa [← hcount] at this
  obtain ⟨hs, hm⟩ := Ownership.loadChains_sound hg hf _ (fun n hn => (hstarts n hn).1) h.sound h.mirrors
  refine ⟨⟨⟨rank, hg⟩, h.listed, hs, hm⟩, ?_, ?_, ?_⟩
  · funext id
    refine Option.ext (fun r => ?_)
    rw [h.mirrors id r]
    exact hm id r
  · exact Ownership.loadChains_unloaded hg hd hf _ hstarts h.sound h.mirrors hu
  · intro id r hr
    refine Ownership.loadChains_leads hg hd hf (hp.views h).overlaid _ hstarts h.sound h.mirrors _ ?_
    exact mem_map_of_mem (f := fun task => parentOf task.2) (Assoc.mem_of_get? _ _ _ hr)

theorem loadStaged_plans : Plans s (s.loadStaged (overlayOf tx)) := by
  obtain ⟨ht, hl, hu', -⟩ := loadStaged_sound s h hp hu
  refine Plans.of_index _ _ s.cascadePending (fun _ => ht) hl (fun _ => hu') ?_ ?_
  · intro hs
    simp [hs]
  · intro hf hc
    simp [hf hc]

end

/-! ## The state a task commits -/

theorem validateWait_plans (h : Tracked s.store s.own) (overlay : Overlay) (mode : Mode) (current : Id)
    (on : List Id) (policy : JoinPolicy) : Plans s (s.validateWait overlay mode current on policy).1 := by
  unfold validateWait
  split
  · exact Plans.refl s
  · split
    · exact Plans.refl s
    · exact Plans.refl s
    · exact loadScopes_plans s [] (by simp) h

theorem current_of_creates {s : Scheduler} {tx : Tx} (hp : Planned s tx) (hm : Ownership.Mirrors s.store s.own)
    (hcreates : tx.Creates) {id : Id} {r : TaskRecord} (hr : s.own.live id = some r) : tx.currentTask id = some r := by
  have hstored := ((hm id r).mp hr).1
  have hnone : tx.write id = none := by
    cases hw : tx.write id with
    | none => rfl
    | some w =>
      have := (hp.staged.created id w hw (hcreates id w hw)).1
      rw [hp.store, hstored] at this
      simp at this
  simp [Tx.currentTask, hnone, hp.store, hstored]

theorem commitState_planned {tx : Tx} (h : Tracked s.store s.own) (hp : Planned s tx)
    (hcreates : tx.Creates) (mode : Mode) {current : TaskRecord} (hcur : s.own.live current.id = some current)
    (hrunning : current.state.status = .running) (next : NextState) :
    Plans s (s.commitState tx mode current next).1 ∧
      ∀ tx', (s.commitState tx mode current next).2 = some tx' → Planned (s.commitState tx mode current next).1 tx' := by
  have hlive : isTerminal current = false := by simp [isTerminal, hrunning]
  have hc : isCompleting current = false := by simp [isCompleting, hrunning]
  have hnow := current_of_creates hp h.mirrors hcreates hcur
  -- a state that ends nothing
  have hplain : ∀ (s' : Scheduler), Plans s s' → ∀ state : TaskState, state.status ≠ .terminal → ∀ tx',
      tx.setTask (withState current state) = some tx' → Planned s' tx' := by
    intro s' hplans state hstate tx' hs
    obtain ⟨tx'', hs', hp'⟩ := hp.setTask h.mirrors (withState current state) hcur hnow hlive (rewrites_withState hc state)
      (by simp [withState, isTerminal, hstate])
    obtain rfl : tx' = tx'' := Option.some.inj (hs.symm.trans hs')
    exact hp'.plans hplans
  cases next with
  | running checkpoint =>
    exact ⟨Plans.refl s, fun tx' hs => hplain s (Plans.refl s) _ (by simp [TaskState.status]) tx' hs⟩
  | waiting checkpoint on policy =>
    have hplans := validateWait_plans s h (overlayOf tx) mode current.id on policy
    refine ⟨hplans, ?_⟩
    intro tx' hs
    simp only [commitState] at hs ⊢
    split at hs
    · exact hplain _ hplans _ (by simp [TaskState.status]) tx' hs
    · simp at hs
  | terminal outcome =>
    have hplans := loadScopes_plans s [] (by simp) h
    obtain ⟨ht, hl, hu⟩ := loadScopes_sound s [] (by simp) h
    have ht' : Tracked (s.loadScopes []).store (s.loadScopes []).own := by
      rw [hplans.store]
      exact ht
    have hp' := hp.plans hplans
    obtain ⟨hst, hsl, hsu, hleads⟩ := loadStaged_sound _ ht' hp' hu
    have hplans' := loadStaged_plans _ ht' hp' hu
    have hp'' := hp'.plans hplans'
    have hst' : Tracked ((s.loadScopes []).loadStaged (overlayOf tx)).store
        ((s.loadScopes []).loadStaged (overlayOf tx)).own := by
      rw [hplans'.store]
      exact hst
    have hcur' : ((s.loadScopes []).loadStaged (overlayOf tx)).own.live current.id = some current := by
      rw [hsl, hl, hcur]
    refine ⟨hplans.trans hplans', ?_⟩
    intro tx' hs
    simp only [commitState] at hs ⊢
    cases howned : ((s.loadScopes []).loadStaged (overlayOf tx)).own.hasOwnedLive
        (((s.loadScopes []).loadStaged (overlayOf tx)).fuel (overlayOf tx)) (overlayOf tx) [] current.id with
    | true =>
      rw [howned, if_pos rfl] at hs
      exact hplain _ (hplans.trans hplans') _ (by simp [TaskState.status]) tx' hs
    | false =>
      rw [howned, if_neg (by simp)] at hs
      obtain ⟨tx'', hs', hfinal⟩ := hp''.setTask hst'.mirrors (withState current (.terminal outcome)) hcur' hnow hlive
        (rewrites_withState hc _) (fun _ => ⟨hsu, hp''.not_owned hst' hsu hleads current.id howned⟩)
      obtain rfl : tx' = tx'' := Option.some.inj (hs.symm.trans hs')
      exact hfinal

end Scheduler

end PiAgent.Harness
