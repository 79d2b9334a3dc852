import PiAgent.Harness.SchedulerEvents

/-! # Abort cascades -/

namespace PiAgent.Harness

open Option List Durable

namespace Scheduler

/-! ## What the marks should be -/

/-- Every live non-background task whose nearest owner with intent is reached without crossing a background
task is marked, and only for a restart if that owner passes its restart on. -/
def Cascaded (store : Store) : Prop :=
  ∀ id r o owner, store.tasks id = some r → isTerminal r = false → r.background = false →
    store.tasks o = some owner → Cancels store o (parentOf r) →
    r.abortRequested = true ∧ (r.restart = true → passesRestart owner = true)

def KeepsMarks (store store' : Store) : Prop :=
  ∀ id r, store.tasks id = some r → ∃ r', store'.tasks id = some r' ∧
    (r.abortRequested = true → r'.abortRequested = true ∧ (r'.restart = true → r.restart = true))

/-- The task lies in the reach of an owner with intent, which passes a restart on if that is the reason. -/
def Reaches (store : Store) (record : TaskRecord) (restart : Bool) : Prop :=
  record.background = false ∧ ∃ o owner, store.tasks o = some owner ∧ Cancels store o (parentOf record) ∧
    (restart = true → passesRestart owner = true)

def FailsFast (store : Store) (checks : List Id) (id : Id) : Prop :=
  ∃ w ∈ checks, ∃ waiter, store.tasks w = some waiter ∧ isWaiting waiter = true ∧ id ∈ waitsFor waiter ∧
    ∃ m ∈ waitsFor waiter, (store.tasks m).any failedOutcome = true

/-! ## Commits that leave no pass pending -/

/-- A published record that asks for no pass: nothing ends, no new intent, and no mark that changes. -/
structure Quiet (previous : Option TaskRecord) (r : TaskRecord) : Prop where
  live : isTerminal r = false
  held : isCompleting r = true → previous.any isCompleting = true
  marked : r.abortRequested = true → previous.any TaskRecord.abortRequested = true
  upgraded : previous.any TaskRecord.restart = true → r.restart = true

variable {s s' : Scheduler} {r : TaskRecord}

theorem Flags.quiet (h : Flags s r s') :
    s'.reconcileScheduled = true ∨ s'.cascadePending = true ∨ Quiet (s.own.live r.id) r := by
  cases hterm : isTerminal r with
  | true => exact Or.inl (h.ended hterm)
  | false =>
    by_cases hheld : isCompleting r = true ∧ (s.own.live r.id).any isCompleting = false
    · exact Or.inl (h.held hheld.1 hheld.2)
    · by_cases hmarked : r.abortRequested = true ∧ (s.own.live r.id).any TaskRecord.abortRequested = false
      · exact Or.inr (Or.inl (h.marked hterm hmarked.1 hmarked.2))
      · by_cases hup : (s.own.live r.id).any TaskRecord.restart = true ∧ r.restart = false
        · exact Or.inr (Or.inl (h.upgraded hterm hup.1 hup.2))
        · refine Or.inr (Or.inr ⟨hterm, ?_, ?_, ?_⟩)
          · intro hc
            by_contra hn
            exact hheld ⟨hc, by simpa using hn⟩
          · intro hm
            by_contra hn
            exact hmarked ⟨hm, by simpa using hn⟩
          · intro hr
            by_contra hn
            exact hup ⟨hr, by simpa using hn⟩

structure Quietly (s : Scheduler) (tx : Tx) : Prop where
  scheduled : s.reconcileScheduled = false
  quiet : ∀ id w, tx.write id = some w → Quiet (s.own.live id) w.record
  created : ∀ id w, tx.write id = some w → s.own.live id = none → w.record.background = false →
    ∀ o, ¬Cancels tx.candidate o (parentOf w.record)

structure Asking (s : Scheduler) (tx : Tx) (t : Scheduler) (rest : List TaskRecord) : Prop where
  follows : Follows t
  scheduled : s.reconcileScheduled = true → t.reconcileScheduled = true
  live : ∀ r ∈ rest, t.own.live r.id = s.own.live r.id
  asked : t.reconcileScheduled = true ∨ t.cascadePending = true ∨
    ∀ r ∈ tx.stagedTasks, r ∈ rest ∨ Quiet (s.own.live r.id) r

variable {s : Scheduler}

theorem Asking.step {tx : Tx} {t t' : Scheduler} {r : TaskRecord} {rest : List TaskRecord}
    (h : Asking s tx t (r :: rest)) (hn : ((r :: rest).map TaskRecord.id).Nodup) (ht : Tracks t r t')
    (hf : Flags t r t') : Asking s tx t' rest := by
  refine ⟨h.follows.step ht, fun hs => hf.scheduled (h.scheduled hs), ?_, ?_⟩
  · intro v hv
    have hne : v.id ≠ r.id := by
      rw [map_cons, nodup_cons] at hn
      intro he
      exact hn.1 (he ▸ mem_map_of_mem hv)
    rw [ht.rest]
    show (t.own.track t.store.count r).live v.id = _
    rw [Ownership.track_live, Function.update_of_ne hne]
    exact h.live v (mem_cons_of_mem _ hv)
  · rcases h.asked with hs | hc | hq
    · exact Or.inl (hf.scheduled hs)
    · exact Or.inr (Or.inl (hf.cascade hc))
    · rcases hf.quiet with hs | hc | hr
      · exact Or.inl hs
      · exact Or.inr (Or.inl hc)
      · refine Or.inr (Or.inr ?_)
        intro v hv
        rcases hq v hv with hmem | hdone
        · rcases mem_cons.mp hmem with rfl | hrest
          · exact Or.inr (h.live v (mem_cons_self) ▸ hr)
          · exact Or.inl hrest
        · exact Or.inr hdone

variable {s s' : Scheduler}

theorem land_quietly (h : Base s) {tx : Tx} {inputs : List Id} {others : Bool} (hp : Planned s tx)
    (hl : s.land tx inputs others = some s') (hquiet : s'.reconcileScheduled = false) : Quietly s tx := by
  have hstart : ∀ own : Ownership, own.live = s.own.live →
      Asking s tx { s with store := tx.candidate, own := own } tx.stagedTasks := by
    intro own hlive
    refine ⟨⟨h.nodup, ?_, ?_⟩, fun hs => hs, fun r _ => congrFun hlive r.id, Or.inr (Or.inr fun r hr => Or.inl hr)⟩
    · intro id
      show id ∈ s.intent ↔ (own.live id).any cancellationIntent = true
      rw [hlive]
      exact h.intent id
    · intro m j
      show j ∈ s.waiters m ↔ m ∈ (own.live j).elim [] waitsFor
      rw [hlive]
      exact h.waiters m j
  rcases land_cases (P := Asking s tx) hp h.tracked hl hstart
    (fun t r rest htracking _ ha t' ht hf => ha.step htracking.nodup ht hf) with ⟨rfl, hw, -⟩ | ⟨mid, hasked, hpub⟩
  · have hnone : ∀ id w, tx.write id = some w → False := by
      intro id w hid
      have hmem := Tx.write_mem hid
      simp [hw] at hmem
    exact ⟨hquiet, fun id w hid => (hnone id w hid).elim, fun id w hid => (hnone id w hid).elim⟩
  · have hmid : mid.reconcileScheduled = false := by
      by_contra hn
      rw [hpub.scheduled (by simpa using hn)] at hquiet
      simp at hquiet
    have hcascade : mid.cascadePending = false := by
      by_contra hn
      rw [hpub.cascade (by simpa using hn)] at hquiet
      simp at hquiet
    refine ⟨?_, ?_, ?_⟩
    · by_contra hn
      rw [hasked.scheduled (by simpa using hn)] at hmid
      simp at hmid
    · intro id w hid
      rcases hasked.asked with hs | hc | hq
      · simp [hmid] at hs
      · simp [hcascade] at hc
      · have := hq w.record (mem_map_of_mem (Tx.write_mem hid))
        rw [hp.staged.id _ _ hid] at this
        simpa using this
    · intro id w hid hnew hb o hc
      have hwid := hp.staged.id _ _ hid
      have hcand := Tx.candidate_of_write hid
      have hkind : w.kind = .create := by
        cases hk : w.kind with
        | create => rfl
        | replace =>
          obtain ⟨old, hold, -⟩ := hp.replaced _ _ hid hk
          simp [hnew] at hold
      obtain ⟨-, hpending, hmark, -⟩ := hp.staged.created _ _ hid hkind
      have hlive : isTerminal w.record = false := by simp [isTerminal, hpending]
      obtain ⟨hload, hbelow⟩ := hpub.created w.record (mem_map_of_mem (Tx.write_mem hid)) hlive
        (by rw [hwid]; exact hnew)
      have hknown : w.record.id ∉ mid.own.unloaded := by
        intro hmem
        rw [hload hmem] at hquiet
        simp at hquiet
      have hm := hpub.tracking.mirrors
      have hml : mid.own.live id = some w.record := (hm _ _).mpr ⟨hcand, hlive⟩
      have htracked : Tracked mid.store mid.own := by
        rw [hpub.store]
        exact ⟨hp.staged.grounded, Tx.candidate_listed hp.staged (hp.store.symm ▸ h.tracked.listed),
          hpub.tracking.sound, hm⟩
      have hintent : ∀ j, intends mid.store j = true → j ∈ mid.intent := by
        intro j hj
        rw [intends_iff_live htracked.mirrors] at hj
        exact (hasked.follows.intent j).mpr hj
      have hloaded := hpub.tracking.sound.loaded_parent hml (hwid ▸ hknown)
      rw [hbelow hknown hb hmark (belowCancelled_of_cancels htracked hintent hloaded (hpub.store.symm ▸ hc))] at hquiet
      simp at hquiet

/-! ## Such a commit leaves the marks complete -/

theorem intends_iff (store : Store) (id : Id) :
    intends store id = true ↔ ∃ r, store.tasks id = some r ∧ cancellationIntent r = true := by
  unfold intends
  exact Option.any_eq_true _ _

variable {old r : TaskRecord}

theorem Rewrites.failed (h : Rewrites old r) (hold : isCompleting old = true)
    (hlive : isTerminal r = false) : failedOutcome r = failedOutcome old := by
  cases hs : old.state with
  | completing outcome =>
    rcases h.held outcome hs with he | he
    · simp [failedOutcome, hs, he]
    · simp [isTerminal, he, TaskState.status] at hlive
  | _ => simp [isCompleting, hs, TaskState.status] at hold

variable {r : TaskRecord}

theorem not_failed (hlive : isTerminal r = false) (hc : isCompleting r = false) : failedOutcome r = false := by
  cases hs : r.state <;> simp_all [failedOutcome, isTerminal, isCompleting, TaskState.status]

theorem Quiet.failed {old r : TaskRecord} (h : Quiet (some old) r) (hr : Rewrites old r) :
    failedOutcome r = true → failedOutcome old = true := by
  intro hf
  cases hc : isCompleting r with
  | false => simp [not_failed h.live hc] at hf
  | true =>
    rw [← hr.failed (h.held hc) h.live]
    exact hf

theorem Quiet.intent {old r : TaskRecord} (h : Quiet (some old) r) (hr : Rewrites old r) (hlive : isTerminal old = false) :
    cancellationIntent r = cancellationIntent old := by
  rw [Bool.eq_iff_iff]
  unfold cancellationIntent
  rw [h.live, hlive]
  simp only [Bool.not_false, Bool.true_and, Bool.or_eq_true]
  constructor
  · rintro (hm | hf)
    · exact Or.inl (h.marked hm)
    · exact Or.inr (h.failed hr hf)
  · rintro (hm | hf)
    · exact Or.inl (hr.marked hm)
    · have hc : isCompleting old = true := by
        by_contra hn
        simp [not_failed hlive (by simpa using hn)] at hf
      exact Or.inr ((hr.failed hc h.live).trans hf)

section Commit

variable {s : Scheduler} {tx : Tx}

theorem Planned.written (hp : Planned s tx) (hm : Ownership.Mirrors s.store s.own) {id : Id} {w : TaskWrite}
    (hw : tx.write id = some w) :
    (s.store.tasks id = none ∧ s.own.live id = none ∧ w.record.abortRequested = false ∧ w.record.state.status = .pending) ∨
      ∃ old, s.own.live id = some old ∧ Rewrites old w.record := by
  cases hk : w.kind with
  | replace => exact Or.inr (hp.replaced id w hw hk)
  | create =>
    obtain ⟨hnone, hpending, hmark, -⟩ := hp.staged.created id w hw hk
    rw [hp.store] at hnone
    refine Or.inl ⟨hnone, ?_, hmark, hpending⟩
    cases hl : s.own.live id with
    | none => rfl
    | some r => simp [((hm id r).mp hl).1] at hnone

theorem new_intent (hm : r.abortRequested = false) (hs : r.state.status = .pending) :
    cancellationIntent r = false := by
  have hf : failedOutcome r = false := by
    cases h : r.state <;> simp_all [failedOutcome, TaskState.status]
  simp [cancellationIntent, hm, hf]

theorem Quietly.intends (h : Quietly s tx) (hp : Planned s tx) (hm : Ownership.Mirrors s.store s.own) (id : Id) :
    intends tx.candidate id = intends s.store id := by
  cases hw : tx.write id with
  | none =>
    unfold Scheduler.intends
    rw [Tx.candidate_of_noWrite hw, hp.store]
  | some w =>
    unfold Scheduler.intends
    rw [Tx.candidate_of_write hw]
    rcases hp.written hm hw with ⟨hnone, -, hmark, hpending⟩ | ⟨old, hold, hr⟩
    · rw [hnone]
      simpa using new_intent hmark hpending
    · obtain ⟨hstored, hlive⟩ := (hm id old).mp hold
      rw [hstored]
      have hq := h.quiet id w hw
      rw [hold] at hq
      simpa using hq.intent hr hlive

theorem under_stored (hp : Planned s tx) (ht : Tracked s.store s.own) {pass : Id → TaskNode → Bool} {n m : Node}
    (hu : Harness.Under tx.candidate.node tx.candidate.edge pass n m) (hm : s.store.has m = true) :
    Harness.Under s.store.node s.store.edge pass n m := by
  obtain ⟨rank, hg⟩ := ht.grounded
  induction hu with
  | here => exact .here
  | @conversation c o hc hup ih =>
    obtain ⟨v, hv⟩ := (Store.has_iff _ _).mp hm
    obtain ⟨r, hr, -⟩ := map_eq_some_iff.mp hv
    have hcand := Tx.candidate_conversation hp.staged c r (by rw [hp.store]; exact hr)
    have hedge : s.store.edge c = some (some o) := by
      rw [← hc, Store.edge, Store.edge, hr, hcand]
    exact .conversation hedge (ih (hg.parent (.conversation c) _ (Ownership.up_of_edge hedge)))
  | @task id nd hn hpass hup ih =>
    obtain ⟨v, hv⟩ := (Store.has_iff _ _).mp hm
    obtain ⟨r, hr, -⟩ := map_eq_some_iff.mp hv
    obtain ⟨r', hr', hnode⟩ := Tx.candidate_node hp.staged id r (by rw [hp.store]; exact hr)
    have hnode' : s.store.node id = some nd := by
      rw [← hn, Store.node, Store.node, hr, hr']
      simp [hnode]
    exact .task hnode' hpass (ih (hg.parent (.task id) _ (Ownership.up_of_node hnode')))

theorem Quietly.cascaded (h : Quietly s tx) (hp : Planned s tx) (ht : Tracked s.store s.own)
    (hc : Cascaded s.store) : Cascaded tx.candidate := by
  obtain ⟨rank, hg⟩ := ht.grounded
  have hm := ht.mirrors
  have hpass : uncancelled tx.candidate = uncancelled s.store := by
    funext id node
    unfold uncancelled
    rw [h.intends hp hm]
  intro id r o owner hr hlive hb howner hcancels
  obtain ⟨hintends, hunder⟩ := hcancels
  -- the owner was there before, with the same intent
  rw [h.intends hp hm] at hintends
  obtain ⟨oldOwner, holdOwner, hintent⟩ := (intends_iff _ _).mp hintends
  have hpassed : passesRestart oldOwner = true → passesRestart owner = true := by
    intro hold
    cases hw : tx.write o with
    | none =>
      rw [Tx.candidate_of_noWrite hw, hp.store, holdOwner] at howner
      exact some.inj howner ▸ hold
    | some w =>
      rw [Tx.candidate_of_write hw] at howner
      rcases hp.written hm hw with ⟨hnone, -⟩ | ⟨old, hlo, hrw⟩
      · simp [holdOwner] at hnone
      · rw [((hm o old).mp hlo).1] at holdOwner
        obtain rfl := some.inj holdOwner
        obtain rfl := some.inj howner
        have hq := h.quiet o w hw
        rw [hlo] at hq
        unfold passesRestart at hold ⊢
        rw [Bool.and_eq_true] at hold ⊢
        refine ⟨hq.upgraded (by simpa using hold.1), ?_⟩
        have := hq.failed hrw
        cases hf : failedOutcome w.record with
        | false => rfl
        | true => simp [this hf] at hold
  have hold : ∀ old, s.store.tasks id = some old → isTerminal old = false → nodeOf old = nodeOf r →
      old.abortRequested = true ∧ (old.restart = true → passesRestart oldOwner = true) := by
    intro old hstored hlo hnode
    have hparent : parentOf old = parentOf r := by
      unfold parentOf
      rw [hnode]
    have hbg : old.background = false := by
      have := congrArg TaskNode.background hnode
      exact this.trans hb
    refine hc id old o oldOwner hstored hlo hbg holdOwner ⟨hintends, ?_⟩
    rw [hparent, ← hpass]
    refine under_stored hp ht hunder ?_
    rw [← hparent]
    exact hg.parent (.task id) _ (Ownership.up_of_node (d := nodeOf old) (by simp [Store.node, hstored]))
  cases hw : tx.write id with
  | none =>
    rw [Tx.candidate_of_noWrite hw, hp.store] at hr
    obtain ⟨hmark, hrestart⟩ := hold r hr hlive rfl
    exact ⟨hmark, fun hrr => hpassed (hrestart hrr)⟩
  | some w =>
    rw [Tx.candidate_of_write hw] at hr
    obtain rfl := some.inj hr
    rcases hp.written hm hw with ⟨-, hnew, -⟩ | ⟨old, hlo, hrw⟩
    · exact absurd ⟨by rw [h.intends hp hm]; exact hintends, hunder⟩ (h.created id w hw hnew hb o)
    · obtain ⟨hstored, hlive'⟩ := (hm id old).mp hlo
      obtain ⟨hmark, hrestart⟩ := hold old hstored hlive' hrw.node.symm
      exact ⟨hrw.marked hmark, fun hrr => hpassed (hrestart (hrw.request hmark hrr))⟩

end Commit

/-! ## What a pass finds to mark -/

theorem foldl_eq_nil {α β : Type} {f : List β → α → List β} (hkeep : ∀ l a, f l a = [] → l = []) (l : List α) (acc : List β)
    (h : l.foldl f acc = []) : acc = [] ∧ ∀ a ∈ l, f [] a = [] := by
  induction l generalizing acc with
  | nil => exact ⟨h, by simp⟩
  | cons a l ih =>
    obtain ⟨hacc, hall⟩ := ih (f acc a) h
    obtain rfl := hkeep acc a hacc
    refine ⟨rfl, ?_⟩
    intro b hb
    rcases mem_cons.mp hb with rfl | hb
    · exact hacc
    · exact hall b hb

variable {marks : List (Id × TaskRecord × Bool)}

theorem mark_eq_nil {r : TaskRecord} {restart : Bool} (h : mark marks r restart = []) :
    marks = [] ∧ r.abortRequested = true ∧ (r.restart = true → restart = true) := by
  unfold mark at h
  split at h
  · rename_i hany
    simp [h] at hany
  · split at h
    · rename_i hmarked
      simp only [Bool.and_eq_true, Bool.or_eq_true, Bool.not_eq_true'] at hmarked
      refine ⟨h, hmarked.1, fun hr => ?_⟩
      simpa [hr] using hmarked.2
    · have hself := Assoc.get?_set_self marks r.id (r, restart)
      simp [h] at hself

variable {s : Scheduler}

theorem cascadeMarks_eq_nil (h : s.cascadeMarks = []) (o : Id) (ho : o ∈ s.intent) (owner : TaskRecord)
    (howner : s.own.live o = some owner) (r : TaskRecord) (hr : r ∈ s.cascadeOf o) :
    r.abortRequested = true ∧ (r.restart = true → passesRestart owner = true) := by
  have hkeep : ∀ (restart : Bool) (marks : List (Id × TaskRecord × Bool)) (r : TaskRecord),
      mark marks r restart = [] → marks = [] := fun _ _ _ hm => (mark_eq_nil hm).1
  unfold cascadeMarks at h
  have hall := (foldl_eq_nil ?_ s.intent [] h).2 o ho
  · rw [howner] at hall
    have hm := (foldl_eq_nil (hkeep _) (s.cascadeOf o) [] hall).2 r hr
    exact (mark_eq_nil hm).2
  · intro marks id hm
    split at hm
    · exact hm
    · exact (foldl_eq_nil (hkeep _) _ _ hm).1

variable {checks : List Id}

theorem failFastMarks_eq_nil {marks : List (Id × TaskRecord × Bool)}
    (h : s.failFastMarks checks marks = []) : marks = [] := by
  unfold failFastMarks at h
  refine (foldl_eq_nil ?_ checks marks h).1
  intro marks id hm
  split at hm
  · exact hm
  · split at hm
    · refine (foldl_eq_nil ?_ _ _ hm).1
      intro marks member hm
      split at hm
      · exact hm
      · exact (mark_eq_nil hm).1
    · exact hm

theorem passes_iff (h : Tracked s.store s.own)
    (hintent : ∀ id, id ∈ s.intent ↔ (s.own.live id).any cancellationIntent = true) (id : Id) (node : TaskNode) :
    Ownership.passes false (fun below => decide (below ∉ s.intent)) id node = uncancelled s.store id node := by
  have hiff : (intends s.store id = true) ↔ id ∈ s.intent := by
    rw [intends_iff_live h.mirrors, hintent]
  unfold Ownership.passes uncancelled
  cases hi : intends s.store id <;> simp_all

theorem mem_cascadeOf (h : Tracked s.store s.own) (hu : s.own.unloaded = [])
    (hintent : ∀ id, id ∈ s.intent ↔ (s.own.live id).any cancellationIntent = true) {id o : Id} {r : TaskRecord}
    (hr : s.own.live id = some r) (hb : r.background = false) (hc : Cancels s.store o (parentOf r)) :
    r ∈ s.cascadeOf o := by
  have hloaded := h.sound.loaded_parent hr (by simp [hu])
  have hunder := (Ownership.under_iff_of_loaded h.sound.toCore hloaded).mpr hc.2
  have hwalk := (views_empty h).walkDown_complete s.store.count le_rfl false (fun below => decide (below ∉ s.intent))
    (.task o) id r ((h.mirrors id r).mp hr).1 ((h.mirrors id r).mp hr).2 ?_
  · unfold cascadeOf
    refine mem_filterMap.mpr ⟨_, hwalk, ?_⟩
    simp [nodeOf, hb]
  · rw [Ownership.nodeIn_empty, Ownership.edge_empty]
    refine hunder.mono (fun _ _ h => h) (fun _ _ h => h) ?_
    intro id nd _ hp
    rw [passes_iff h hintent]
    exact hp

theorem cancels_of_cascadeOf (h : Tracked s.store s.own)
    (hintent : ∀ id, id ∈ s.intent ↔ (s.own.live id).any cancellationIntent = true) {o : Id} (ho : o ∈ s.intent)
    {r : TaskRecord} (hr : r ∈ s.cascadeOf o) : r.background = false ∧ Cancels s.store o (parentOf r) := by
  obtain ⟨t, ht, htr⟩ := mem_filterMap.mp hr
  split at htr
  · simp at htr
  · rename_i hb
    obtain ⟨hnode, hlive, hunder⟩ := (views_empty h).walkDown_sound s.store.count le_rfl _ _ _ t ht
    obtain ⟨hstored, -⟩ := hlive r htr
    have hnd : t.node = nodeOf r := by
      rw [Store.node, hstored] at hnode
      exact (some.inj hnode).symm
    rw [hnd] at hb hunder
    refine ⟨by simpa [nodeOf] using hb, ?_, ?_⟩
    · rw [intends_iff_live h.mirrors]
      exact (hintent o).mp ho
    · refine hunder.mono (fun _ _ h => h) (fun _ _ h => h) ?_
      intro id nd _ hp
      rw [← passes_iff h hintent]
      exact hp

theorem cascaded_of_unmarked (h : Tracked s.store s.own) (hu : s.own.unloaded = [])
    (hintent : ∀ id, id ∈ s.intent ↔ (s.own.live id).any cancellationIntent = true) (hnone : s.cascadeMarks = []) :
    Cascaded s.store := by
  intro id r o owner hr hlive hb howner hc
  have hl := (h.mirrors id r).mpr ⟨hr, hlive⟩
  obtain ⟨owner', howner', hi⟩ := (intends_iff _ _).mp hc.1
  rw [howner] at howner'
  obtain rfl := some.inj howner'
  have hlo := (h.mirrors o owner).mpr ⟨howner, cancellationIntent_live hi⟩
  have ho : o ∈ s.intent := (hintent o).mpr (by simp [hlo, hi])
  exact cascadeMarks_eq_nil hnone o ho owner hlo r (mem_cascadeOf h hu hintent hl hb hc)

/-! ## Why a pass marks a task -/

def Justified (store : Store) (checks : List Id) (m : Id × TaskRecord × Bool) : Prop :=
  Reaches store m.2.1 m.2.2 ∨ (m.2.2 = false ∧ FailsFast store checks m.2.1.id)

theorem mark_justified {store : Store} {checks : List Id} {marks : List (Id × TaskRecord × Bool)} {r : TaskRecord}
    {restart : Bool} (h : ∀ m ∈ marks, Justified store checks m) (hr : Justified store checks (r.id, r, restart)) :
    ∀ m ∈ mark marks r restart, Justified store checks m := by
  unfold mark
  split
  · exact h
  · split
    · exact h
    · intro m hm
      rcases mem_set hm with rfl | hm
      · exact hr
      · exact h m hm

theorem foldl_justified {store : Store} {checks : List Id} {α : Type}
    {f : List (Id × TaskRecord × Bool) → α → List (Id × TaskRecord × Bool)} (l : List α)
    (hf : ∀ marks, ∀ a ∈ l, (∀ m ∈ marks, Justified store checks m) → ∀ m ∈ f marks a, Justified store checks m)
    (marks : List (Id × TaskRecord × Bool)) (h : ∀ m ∈ marks, Justified store checks m) :
    ∀ m ∈ l.foldl f marks, Justified store checks m := by
  induction l generalizing marks with
  | nil => exact h
  | cons a l ih =>
    exact ih (fun marks b hb => hf marks b (mem_cons_of_mem _ hb)) _ (hf marks a (mem_cons_self) h)

theorem cascadeMarks_justified (h : Tracked s.store s.own)
    (hintent : ∀ id, id ∈ s.intent ↔ (s.own.live id).any cancellationIntent = true) (checks : List Id) :
    ∀ m ∈ s.cascadeMarks, Justified s.store checks m := by
  unfold cascadeMarks
  refine foldl_justified _ ?_ [] (by simp)
  intro marks o ho hm
  split
  · exact hm
  · rename_i owner howner
    refine foldl_justified _ ?_ marks hm
    intro marks r hr hm
    obtain ⟨hb, hc⟩ := cancels_of_cascadeOf h hintent ho hr
    exact mark_justified hm (Or.inl ⟨hb, o, owner, ((h.mirrors _ _).mp howner).1, hc, fun hp => hp⟩)

theorem failFastMarks_justified (h : Tracked s.store s.own)
    {c : List Id} {marks : List (Id × TaskRecord × Bool)} (hm : ∀ m ∈ marks, Justified s.store c m) :
    ∀ m ∈ s.failFastMarks c marks, Justified s.store c m := by
  obtain ⟨rank, hg⟩ := h.grounded
  unfold failFastMarks
  refine foldl_justified _ ?_ marks hm
  intro marks w hw hm
  split
  · exact hm
  · rename_i waiter hwaiter
    obtain ⟨hl, hwaiting⟩ := filter_eq_some_iff.mp hwaiter
    split
    · rename_i hfailed
      refine foldl_justified _ ?_ marks hm
      intro marks member hmember hm
      split
      · exact hm
      · rename_i r hr
        obtain ⟨hlr, -⟩ := filter_eq_some_iff.mp hr
        have hid := hg.taskId _ _ ((h.mirrors _ _).mp hlr).1
        refine mark_justified hm (Or.inr ⟨rfl, w, hw, waiter, ((h.mirrors _ _).mp hl).1, hwaiting, ?_, ?_⟩)
        · rw [hid]
          exact hmember
        · unfold anyFailed at hfailed
          obtain ⟨j, hj, hf⟩ := any_eq_true.mp hfailed
          refine ⟨j, hj, ?_⟩
          cases hlj : s.own.live j with
          | none => simpa [hlj] using hf
          | some rj =>
            rw [((h.mirrors _ _).mp hlj).1]
            simpa [hlj] using hf
    · exact hm

/-! ## Every event -/

def Settling (s : Scheduler) : Prop := s.reconcileScheduled = true ∨ s.passes ≠ [] ∨ Cascaded s.store

variable {s s' : Scheduler}

theorem land_settling (h : Base s) {tx : Tx} {inputs : List Id} {others : Bool} (hp : Planned s tx)
    (hl : s.land tx inputs others = some s') (hs : Settling s) : Settling s' := by
  cases hquiet : s'.reconcileScheduled with
  | true => exact Or.inl hquiet
  | false =>
    have hq := land_quietly h hp hl hquiet
    rcases hs with hs | hs | hs
    · simp [hq.scheduled] at hs
    · refine Or.inr (Or.inl ?_)
      rw [(land_static hp h.tracked hl).passes]
      exact hs
    · refine Or.inr (Or.inr ?_)
      rcases land_store hp h.tracked hl with hstore | ⟨rfl, -⟩
      · rw [hstore]
        exact hq.cascaded hp h.tracked hs
      · exact hs

theorem plans_settling (h : Plans s s') (hs : Settling s) : Settling s' := by
  rcases hs with hs | hs | hs
  · exact Or.inl (h.scheduled hs)
  · refine Or.inr (Or.inl ?_)
    rw [h.rest]
    exact hs
  · refine Or.inr (Or.inr ?_)
    rw [h.store]
    exact hs

variable (s : Scheduler)

theorem runReconcile_settling (h : Base s) (queued : List Id) (others : Bool) (hs : Settling s) :
    Settling (s.runReconcile queued others) := by
  cases hpass : s.passes with
  | nil =>
    unfold runReconcile
    rw [hpass]
    exact hs
  | cons pass rest =>
    obtain ⟨mid, marked, tx, hr⟩ := runReconcile_spec s h.tracked pass rest hpass queued others
    obtain ⟨others', hl⟩ := hr.lands
    have h2 := hr.base h
    have hpasses : (s.runReconcile queued others).passes = rest := by
      rw [(land_static hr.planned h2.tracked hl).passes]
      show mid.passes = rest
      rw [hr.plans.rest]
    cases hquiet : (s.runReconcile queued others).reconcileScheduled with
    | true => exact Or.inl hquiet
    | false =>
      have hq := land_quietly h2 hr.planned hl hquiet
      have hmarks := failFastMarks_marks h2.tracked pass.checks (cascadeMarks_marks h2.tracked)
      -- a mark would have asked for another pass
      have hnone : mid.failFastMarks pass.checks mid.cascadeMarks = [] := by
        rw [eq_nil_iff_forall_not_mem]
        intro m hm
        obtain ⟨hid, hlive⟩ := hmarks.live m hm
        obtain ⟨w, hw, hrec⟩ := (hr.marks m.1).2 m.2 (Assoc.get?_of_mem _ m.1 m.2 hmarks.keys hm)
        obtain ⟨w', hw'⟩ := isSome_iff_exists.mp (hr.kept m.1 (by simp [hw]))
        have hquietly := hq.quiet m.1 w' hw'
        rcases hr.writes m.1 w' hw' with hterm | hsame
        · simp [hquietly.live] at hterm
        · rw [hw] at hsame
          obtain rfl := some.inj hsame
          rw [hrec, show Scheduler.own { mid with finalizeChecks := [] } = mid.own from rfl, hlive] at hquietly
          have hmark := hquietly.marked rfl
          obtain ⟨hrestart, hrequest⟩ := hmarks.stronger m hm (by simpa using hmark)
          have hup := hquietly.upgraded (by simpa using hrestart)
          simp [withAbortMark, hrequest] at hup
      refine Or.inr (Or.inr ?_)
      have hcascaded := cascaded_of_unmarked h2.tracked hr.unloaded h2.intent (failFastMarks_eq_nil hnone)
      rcases land_store hr.planned h2.tracked hl with hstore | ⟨hsame, -⟩
      · rw [hstore]
        exact hq.cascaded hr.planned h2.tracked hcascaded
      · rw [hsame]
        exact hcascaded

theorem next_settling (h : Base s) (event : Event) (hs : Settling s) : Settling (s.next event) := by
  rcases next_kept s h (P := Settling) (fun _ _ hp ht => plans_settling hp ht)
    (fun _ _ _ _ _ hb hp hl ht => land_settling hb hp hl ht) (fun _ _ _ _ _ _ _ ht => ht) hs event
    with hk | ⟨n, rfl⟩ | rfl | ⟨q, o, rfl⟩ | rfl | ⟨r, rfl⟩
  · exact hk
  · obtain ⟨runs, dirty, draining, hf | hf⟩ := finish_fields s n
    · show Settling (s.finish n)
      rw [hf]
      have hended := plans_settling (endInvocation_plans s n) hs
      exact hended
    · show Settling (s.finish n)
      rw [hf]
      exact hs
  · show Settling s.startReconcile
    unfold startReconcile
    split
    · exact Or.inr (Or.inl (by simp))
    · exact hs
  · exact runReconcile_settling s h q o hs
  · exact hs
  · exact Or.inl rfl

theorem run_settling (registry : JsString → Option TaskDefinition) (events : List Event) :
    Settling ((machine registry).run events) :=
  ((machine registry).runFrom_induction (P := fun s => Base s ∧ Settling s) (fun s event h => by
    show Base (s.advance event) ∧ Settling (s.advance event)
    rw [advance_eq h.1 event]
    exact ⟨next_base s h.1 event, next_settling s h.1 event h.2⟩) _ ⟨start_base registry, Or.inl rfl⟩ events).2

/-! ## Marks stay -/

theorem KeepsMarks.refl (store : Store) : KeepsMarks store store := fun _ r h => ⟨r, h, fun hm => ⟨hm, fun hr => hr⟩⟩

theorem KeepsMarks.trans {a b c : Store} (h : KeepsMarks a b) (h' : KeepsMarks b c) : KeepsMarks a c := by
  intro id r hr
  obtain ⟨r1, hr1, h1⟩ := h id r hr
  obtain ⟨r2, hr2, h2⟩ := h' id r1 hr1
  refine ⟨r2, hr2, fun hm => ?_⟩
  obtain ⟨hm1, hrs1⟩ := h1 hm
  obtain ⟨hm2, hrs2⟩ := h2 hm1
  exact ⟨hm2, fun hrs => hrs1 (hrs2 hrs)⟩

theorem land_keepsMarks {s s' : Scheduler} (h : Tracked s.store s.own) {tx : Tx} {inputs : List Id} {others : Bool}
    (hp : Planned s tx) (hl : s.land tx inputs others = some s') : KeepsMarks s.store s'.store := by
  rcases land_store hp h hl with hstore | ⟨rfl, -⟩
  · rw [hstore]
    intro id r hr
    cases hw : tx.write id with
    | none =>
      rw [Tx.candidate_of_noWrite hw, hp.store]
      exact ⟨r, hr, fun hm => ⟨hm, fun hrs => hrs⟩⟩
    | some w =>
      rw [Tx.candidate_of_write hw]
      refine ⟨w.record, rfl, fun hm => ?_⟩
      rcases hp.written h.mirrors hw with ⟨hnone, -⟩ | ⟨old, hold, hrw⟩
      · simp [hr] at hnone
      · rw [((h.mirrors id old).mp hold).1] at hr
        obtain rfl := some.inj hr
        exact ⟨hrw.marked hm, hrw.request hm⟩
  · exact KeepsMarks.refl _

theorem next_keepsMarks (h : Base s) (event : Event) : KeepsMarks s.store (s.next event).store := by
  rcases next_store s h event with hsame | ⟨mid, tx, inputs, others, landed, hmid, hstore, hp, hl, hnext⟩
  · rw [hsame]
    exact KeepsMarks.refl _
  · rw [hnext, ← hstore]
    exact land_keepsMarks hmid.tracked hp hl

theorem run_keepsMarks (registry : JsString → Option TaskDefinition) (s : Scheduler) (h : Base s) (events : List Event) :
    KeepsMarks s.store ((machine registry).runFrom s events).store :=
  ((machine registry).runFrom_induction (P := fun t => Base t ∧ KeepsMarks s.store t.store) (fun t event ht => by
    show Base (t.advance event) ∧ KeepsMarks s.store (t.advance event).store
    rw [advance_eq ht.1 event]
    exact ⟨next_base t ht.1 event, ht.2.trans (next_keepsMarks t ht.1 event)⟩) s ⟨h, KeepsMarks.refl _⟩ events).2

/-! ## The reach of a pass -/

theorem runReconcile_reaches (h : Base s) (pass : Pass) (rest : List Pass) (hpass : s.passes = pass :: rest)
    (queued : List Id) (others : Bool) (id : Id) (r r' : TaskRecord) (hr : s.store.tasks id = some r)
    (hr' : (s.runReconcile queued others).store.tasks id = some r')
    (hne : r'.abortRequested ≠ r.abortRequested ∨ r'.restart ≠ r.restart) :
    Reaches s.store r r'.restart ∨ (r'.restart = false ∧ FailsFast s.store pass.checks id) := by
  obtain ⟨mid, marked, tx, hrec⟩ := runReconcile_spec s h.tracked pass rest hpass queued others
  obtain ⟨others', hl⟩ := hrec.lands
  have h0 : Base { s with passes := rest } :=
    ⟨h.tracked, h.alive, h.nodup, h.flagged, h.intent, h.waiters, h.invoked⟩
  have h1 := h0.plans hrec.plans
  have hstore : mid.store = s.store := hrec.plans.store
  obtain ⟨rank, hg⟩ := h.tracked.grounded
  have hcur : tx.currentTask id = some r' := by
    rcases land_store hrec.planned (s := { mid with finalizeChecks := [] }) h1.tracked hl with hst | ⟨hsame, -⟩
    · rw [hst] at hr'
      exact hr'
    · rw [hsame, show Scheduler.store { mid with finalizeChecks := [] } = s.store from hstore, hr] at hr'
      obtain rfl := some.inj hr'
      simp at hne
  obtain ⟨r1, hr1, hm1, hrs1⟩ := hrec.same id r' hcur
  have hmarks := failFastMarks_marks h1.tracked pass.checks (cascadeMarks_marks h1.tracked)
  cases hget : Assoc.get? (mid.failFastMarks pass.checks mid.cascadeMarks) id with
  | none =>
    have hw := (hrec.marks id).1 hget
    rw [Tx.currentTask, hw, hrec.stored, hstore, hr] at hr1
    obtain rfl := some.inj hr1
    exact absurd hne (by simp [hm1, hrs1])
  | some m =>
    obtain ⟨w, hw, hwr⟩ := (hrec.marks id).2 m hget
    rw [Tx.currentTask, hw] at hr1
    have hr1' : w.record = r1 := by simpa using hr1
    have hmem := Assoc.mem_of_get? _ _ _ hget
    obtain ⟨hid, hlive⟩ := hmarks.live _ hmem
    have hm : m.1 = r := by
      have := ((h1.tracked.mirrors id m.1).mp hlive).1
      rw [hstore, hr] at this
      exact (some.inj this).symm
    have hrestart : r'.restart = m.2 := by
      rw [hrs1, ← hr1', hwr]
      rfl
    have hj := failFastMarks_justified h1.tracked (c := pass.checks)
      (cascadeMarks_justified h1.tracked h1.intent pass.checks) _ hmem
    rw [hstore] at hj
    rcases hj with hreach | ⟨hreq, hfail⟩
    · refine Or.inl ?_
      rw [hrestart, ← hm]
      exact hreach
    · refine Or.inr ⟨hrestart.trans hreq, ?_⟩
      have hid' : m.1.id = id := hid
      rw [← hid']
      exact hfail

/-! ## The result -/

/-- In every reachable state: the marks are complete once no pass is pending, they stay in every later state, and
a pass marks nothing outside the reach of the owners with intent, failed waits apart. -/
theorem cascades_complete (registry : JsString → Option TaskDefinition) (events : List Event) :
    let s := (machine registry).run events
    (s.reconcileScheduled = false → s.passes = [] → Cascaded s.store) ∧
      (∀ later, KeepsMarks s.store ((machine registry).run (events ++ later)).store) ∧
      ∀ pass rest queued others, s.passes = pass :: rest → ∀ id r r', s.store.tasks id = some r →
        (s.advance (.runReconcile queued others)).store.tasks id = some r' →
        r'.abortRequested ≠ r.abortRequested ∨ r'.restart ≠ r.restart →
        Reaches s.store r r'.restart ∨ (r'.restart = false ∧ FailsFast s.store pass.checks id) := by
  intro s
  have hbase : Base s := run_base registry events
  refine ⟨?_, ?_, ?_⟩
  · intro hsched hpasses
    rcases run_settling registry events with hs | hs | hs
    · simp [s, hs] at hsched
    · exact absurd hpasses hs
    · exact hs
  · intro later
    rw [Machine.run_append]
    exact run_keepsMarks registry s hbase later
  · intro pass rest queued others hpass id r r' hr hr' hne
    rw [advance_eq hbase] at hr'
    exact runReconcile_reaches s hbase pass rest hpass queued others id r r' hr hr' hne

def abortedEvents : List Event :=
  let options (id : Id) (owner conversation : Option Id) : Tx.TaskOptions :=
    { id := id, kind := [], version := 1, owner := owner, conversationId := conversation, background := false,
      abandonOnRestart := false, checkpoint := .null, body := .null }
  [.startReconcile, .runReconcile [] false, .hostCommit [.createConversation 1 none none, .createTask (options 2 none (some 1)),
      .createTask (options 3 (some 2) none)] [] false, .register (fun _ => some ⟨0, 1, none⟩), .abort 2 false, .startReconcile,
    .runReconcile [] false, .startReconcile, .runReconcile [] false]

theorem cascades_complete_aborted : let s := (machine (fun _ => none)).run abortedEvents
    s.reconcileScheduled = false ∧ s.passes = [] ∧ (s.store.tasks 3).any TaskRecord.abortRequested = true ∧
      Cascaded s.store :=
  ⟨by decide, by decide, by decide, (cascades_complete (fun _ => none) abortedEvents).1 (by decide) (by decide)⟩

end Scheduler

end PiAgent.Harness
