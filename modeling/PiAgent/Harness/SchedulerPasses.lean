import PiAgent.Harness.SchedulerSteps

/-! # The scheduler's own passes -/

namespace PiAgent.Harness

open List Assoc Durable

theorem foldlM_option {α β : Type} {P : β → Prop} (f : β → α → Option β) (l : List α)
    (h : ∀ b, ∀ a ∈ l, P b → ∃ b', f b a = some b' ∧ P b') (b : β) (hb : P b) :
    ∃ b', l.foldlM f b = some b' ∧ P b' := by
  induction l generalizing b with
  | nil => exact ⟨b, rfl, hb⟩
  | cons a l ih =>
    obtain ⟨b', hf, hb'⟩ := h b a mem_cons_self hb
    obtain ⟨b'', hl, hb''⟩ := ih (fun c d hd => h c d (mem_cons_of_mem a hd)) b' hb'
    exact ⟨b'', by simp [foldlM_cons, hf, hl], hb''⟩

namespace Scheduler

/-! ## Marks -/

structure Marking (s : Scheduler) (restart : Bool) (tx : Tx) : Prop where
  planned : Planned s tx
  internal : Internal tx
  marks : ∀ id w, tx.write id = some w → ∃ old, s.own.live id = some old ∧ w.record = withAbortMark old restart

theorem start_marking (s : Scheduler) (restart : Bool) (h : Tracked s.store s.own) :
    Marking s restart (Tx.start s.store) :=
  ⟨start_planned s h, start_internal s.store, by intro id w hw; simp [Tx.start, Tx.write] at hw⟩

variable {s : Scheduler}

variable {tx : Tx} {record : TaskRecord} {marks : List (Id × TaskRecord × Bool)} {f : Finalizing}

theorem taskEntry_marking {restart : Bool} (h : Marking s restart tx) (id : Id) :
    Marking s restart (tx.taskEntry id) := by
  refine ⟨taskEntry_planned h.planned id, h.internal.taskEntry id, ?_⟩
  intro j w hw
  rw [Tx.taskEntry_write] at hw
  exact h.marks j w hw

theorem rewrites_withAbortMark {restart : Bool}
    (h : record.abortRequested = true → restart = true → record.restart = true) :
    Rewrites record (withAbortMark record restart) :=
  ⟨rfl, rfl, fun _ => rfl, h, fun _ ho => Or.inl ho⟩

theorem isTerminal_withAbortMark (record : TaskRecord) (restart : Bool) :
    isTerminal (withAbortMark record restart) = isTerminal record := rfl

theorem mark_marking (h : Tracked s.store s.own) {restart : Bool} (hp : Marking s restart tx)
    (hlive : s.own.live record.id = some record)
    (hmark : record.abortRequested = true → restart = true → record.restart = true) :
    ∃ tx', tx.setTask (withAbortMark record restart) = some tx' ∧ Marking s restart tx' := by
  have hstored := (h.mirrors _ _).mp hlive
  -- the candidate is the stored record, or has the same mark
  obtain ⟨prev, hcur, hterm, hrw⟩ : ∃ prev, tx.currentTask record.id = some prev ∧ isTerminal prev = false ∧
      Rewrites prev (withAbortMark record restart) := by
    cases hw : tx.write record.id with
    | none =>
      refine ⟨record, ?_, hstored.2, rewrites_withAbortMark hmark⟩
      simp [Tx.currentTask, hw, hp.planned.store, hstored.1]
    | some w =>
      obtain ⟨old, hold, hwr⟩ := hp.marks _ w hw
      obtain rfl : record = old := by simpa [hlive] using hold
      refine ⟨w.record, by simp [Tx.currentTask, hw], ?_, hwr ▸ Rewrites.refl _⟩
      rw [hwr, isTerminal_withAbortMark]
      exact hstored.2
  obtain ⟨tx', hs, hp'⟩ := hp.planned.setTask h.mirrors (withAbortMark record restart) hlive hcur hterm hrw (by
    intro ht
    rw [isTerminal_withAbortMark, hstored.2] at ht
    simp at ht)
  refine ⟨tx', hs, hp', hp.internal.setTask _ hs, ?_⟩
  intro id w hw
  rcases Tx.setTask_write hs id w hw with ⟨rfl, hwr⟩ | hw'
  · exact ⟨record, hlive, hwr⟩
  · exact hp.marks id w hw'

structure Marks (s : Scheduler) (marks : List (Id × TaskRecord × Bool)) : Prop where
  keys : (Assoc.keys marks).Nodup
  live : ∀ m ∈ marks, m.2.1.id = m.1 ∧ s.own.live m.1 = some m.2.1
  stronger : ∀ m ∈ marks, m.2.1.abortRequested = true → m.2.1.restart = true ∧ m.2.2 = false

theorem mem_set {κ α : Type} [DecidableEq κ] {l : List (κ × α)} {k : κ} {v : α} {p : κ × α}
    (h : p ∈ Assoc.set l k v) : p = (k, v) ∨ p ∈ l := by
  induction l with
  | nil => exact Or.inl (by simpa [Assoc.set] using h)
  | cons q l ih =>
    unfold Assoc.set at h
    split at h
    · rename_i hq
      rcases mem_cons.mp h with rfl | h
      · exact Or.inl (by rw [← hq])
      · exact Or.inr (mem_cons_of_mem _ h)
    · rcases mem_cons.mp h with rfl | h
      · exact Or.inr mem_cons_self
      · exact (ih h).imp_right (mem_cons_of_mem _)

theorem mark_marks (h : Marks s marks) (hlive : s.own.live record.id = some record) (restart : Bool) :
    Marks s (mark marks record restart) := by
  unfold mark
  split
  · exact h
  · split
    · exact h
    · rename_i hskip
      refine ⟨nodup_keys_set _ _ _ h.keys, ?_, ?_⟩
      · intro m hm
        rcases mem_set hm with rfl | hm
        · exact ⟨rfl, hlive⟩
        · exact h.live m hm
      · intro m hm hmarked
        rcases mem_set hm with rfl | hm
        · dsimp only at hmarked ⊢
          simpa [hmarked] using hskip
        · exact h.stronger m hm hmarked

theorem foldl_marks {α : Type} (f : List (Id × TaskRecord × Bool) → α → List (Id × TaskRecord × Bool))
    (l : List α) (h : ∀ marks, ∀ a ∈ l, Marks s marks → Marks s (f marks a)) (marks : List (Id × TaskRecord × Bool))
    (hm : Marks s marks) : Marks s (l.foldl f marks) := by
  induction l generalizing marks with
  | nil => exact hm
  | cons a l ih =>
    exact ih (fun marks b hb => h marks b (mem_cons_of_mem a hb)) _ (h marks a mem_cons_self hm)

section

variable (h : Tracked s.store s.own)
include h

theorem views_empty : s.own.Views s.store s.store Overlay.empty :=
  ⟨h.grounded, h.grounded, overlay_empty_over s.store, h.sound.toCore, h.mirrors⟩

theorem live_of_walkDown (crossBackground : Bool) (enter : Id → Bool) (n : Node) (t : Ownership.Reached)
    (ht : t ∈ s.own.walkDown s.store.count Overlay.empty crossBackground enter n) (r : TaskRecord)
    (hr : t.live = some r) : r.id = t.id ∧ s.own.live r.id = some r := by
  obtain ⟨rank, hg⟩ := h.grounded
  obtain ⟨-, hlive, -⟩ := (views_empty h).walkDown_sound s.store.count le_rfl crossBackground enter n t ht
  obtain ⟨htask, hterminal⟩ := hlive r hr
  have hid := hg.taskId _ _ htask
  exact ⟨hid, by rw [hid]; exact (h.mirrors _ _).mpr ⟨htask, hterminal⟩⟩

theorem cascadeOf_live (owner : Id) (r : TaskRecord) (hr : r ∈ s.cascadeOf owner) : s.own.live r.id = some r := by
  obtain ⟨t, ht, htr⟩ := mem_filterMap.mp hr
  split at htr
  · simp at htr
  · exact (live_of_walkDown h _ _ _ t ht r htr).2

theorem cascadeMarks_marks : Marks s s.cascadeMarks := by
  unfold cascadeMarks
  refine foldl_marks _ _ ?_ [] ⟨nodup_nil, by simp, by simp⟩
  intro marks id _ hm
  split
  · exact hm
  · refine foldl_marks _ _ ?_ marks hm
    exact fun marks r hr hm => mark_marks hm (cascadeOf_live h id r hr) _

theorem failFastMarks_marks (checks : List Id) (hm : Marks s marks) :
    Marks s (s.failFastMarks checks marks) := by
  obtain ⟨rank, hg⟩ := h.grounded
  unfold failFastMarks
  refine foldl_marks _ _ ?_ marks hm
  intro marks id _ hm
  split
  · exact hm
  · split
    · refine foldl_marks _ _ ?_ marks hm
      intro marks member _ hm
      split
      · exact hm
      · rename_i r hr
        obtain ⟨hl, -⟩ := Option.filter_eq_some_iff.mp hr
        have hid := hg.taskId _ _ ((h.mirrors _ _).mp hl).1
        exact mark_marks hm (hid ▸ hl) false
    · exact hm

theorem stageMarks_planned (hm : Marks s marks) :
    ∃ tx, marks.foldlM (fun (tx : Tx) m => tx.setTask (withAbortMark m.2.1 m.2.2)) (Tx.start s.store) = some tx ∧
      Planned s tx ∧ Internal tx ∧
      ∀ id, (get? marks id = none → tx.write id = none) ∧
        ∀ m, get? marks id = some m → ∃ w, tx.write id = some w ∧ w.record = withAbortMark m.1 m.2 := by
  have hrun : ∀ (l : List (Id × TaskRecord × Bool)) (tx : Tx), (∀ m ∈ l, m ∈ marks) → (Assoc.keys l).Nodup →
      Planned s tx → Internal tx → (∀ m ∈ l, tx.write m.1 = none) →
      ∃ tx', l.foldlM (fun (tx : Tx) m => tx.setTask (withAbortMark m.2.1 m.2.2)) tx = some tx' ∧ Planned s tx' ∧
        Internal tx' ∧ ∀ id, (get? l id = none → tx'.write id = tx.write id) ∧
          ∀ m, get? l id = some m → ∃ w, tx'.write id = some w ∧ w.record = withAbortMark m.1 m.2 := by
    intro l
    induction l with
    | nil =>
      intro tx _ _ hp hi _
      exact ⟨tx, rfl, hp, hi, fun id => ⟨fun _ => rfl, by simp⟩⟩
    | cons m l ih =>
      intro tx hsub hkeys hp hi hnone
      rw [Assoc.keys, map_cons, nodup_cons] at hkeys
      obtain ⟨hid, hlive⟩ := hm.live m (hsub m mem_cons_self)
      have hlive' : s.own.live m.2.1.id = some m.2.1 := by rw [hid, hlive]
      have hstored := (h.mirrors _ _).mp hlive'
      have hcur : tx.currentTask m.2.1.id = some m.2.1 := by
        have hn := hnone m mem_cons_self
        rw [← hid] at hn
        simp [Tx.currentTask, hn, hp.store, hstored.1]
      obtain ⟨tx1, hs, hp1⟩ := hp.setTask h.mirrors (withAbortMark m.2.1 m.2.2) hlive' hcur hstored.2
        (rewrites_withAbortMark (fun hmarked _ => (hm.stronger m (hsub m mem_cons_self) hmarked).1))
        (by rw [isTerminal_withAbortMark, hstored.2]; simp)
      have hvid : (withAbortMark m.2.1 m.2.2).id = m.1 := hid
      have hother : ∀ j, j ≠ m.1 → tx1.write j = tx.write j := fun j hj => Tx.setTask_other hs j (hvid ▸ hj)
      have hself : ∃ w, tx1.write m.1 = some w ∧ w.record = withAbortMark m.2.1 m.2.2 := hvid ▸ Tx.setTask_self hs
      have hkey : ∀ q ∈ l, q.1 ≠ m.1 := by
        intro q hq he
        exact hkeys.1 (he ▸ mem_map_of_mem hq)
      obtain ⟨tx', hl, hp', hi', hwrites⟩ := ih tx1 (fun q hq => hsub q (mem_cons_of_mem _ hq)) hkeys.2 hp1
        (hi.setTask _ hs) (fun q hq => by
          rw [hother q.1 (hkey q hq)]
          exact hnone q (mem_cons_of_mem _ hq))
      refine ⟨tx', by simp [foldlM_cons, hs, hl], hp', hi', ?_⟩
      intro id
      have hnotin : get? l m.1 = none := (get?_eq_none_iff l m.1).mpr hkeys.1
      by_cases hj : m.1 = id
      · subst hj
        have hget : get? (m :: l) m.1 = some m.2 := get?_cons_self m.1 m.2 l
        rw [hget]
        refine ⟨by simp, ?_⟩
        intro v hv
        obtain ⟨w, hw, hwr⟩ := hself
        obtain rfl := Option.some.inj hv
        exact ⟨w, ((hwrites m.1).1 hnotin).trans hw, hwr⟩
      · have hget : get? (m :: l) id = get? l id := get?_cons_ne m.1 id m.2 l hj
        rw [hget]
        refine ⟨fun hn => ((hwrites id).1 hn).trans (hother id (Ne.symm hj)), (hwrites id).2⟩
  obtain ⟨tx, hl, hp, hi, hw⟩ := hrun marks (Tx.start s.store) (fun _ hmem => hmem) hm.keys (start_planned s h)
    (start_internal s.store) (fun _ _ => by simp [Tx.start, Tx.write])
  exact ⟨tx, hl, hp, hi, fun id => ⟨fun hn => ((hw id).1 hn).trans (by simp [Tx.start, Tx.write]), (hw id).2⟩⟩

end

/-! ## Final outcomes -/

def Ends (tx : Tx) (id : Id) : Prop := ∃ w, tx.write id = some w ∧ isTerminal w.record = true

theorem Planned.sameUp (hp : Planned s tx) (hm : Ownership.Mirrors s.store s.own) (hi : Internal tx) (n : Node) :
    tx.candidate.up n = s.store.up n := by
  cases n with
  | conversation c => simp [Store.up, Tx.candidate, Tx.currentConversation, hi.conversations, hp.store]
  | task id =>
    cases hw : tx.write id with
    | none => simp [Store.up, Tx.candidate_of_noWrite hw, hp.store]
    | some w =>
      obtain ⟨old, hold, hr⟩ := hp.replaced id w hw (hi.replaces id w hw)
      have hstored := ((hm id old).mp hold).1
      simp [Store.up, Tx.candidate_of_write hw, hstored, parentOf, hr.node]

theorem Planned.owned_store (hp : Planned s tx) (hm : Ownership.Mirrors s.store s.own) (hi : Internal tx)
    {o t : Id} (h : tx.candidate.Owned o t) : s.store.Owned o t := by
  obtain ⟨r, hr, ht, hb, hu⟩ := h
  have hnode : ∀ id, tx.candidate.node id = s.store.node id := by
    intro id
    cases hw : tx.write id with
    | none => simp [Store.node, Tx.candidate_of_noWrite hw, hp.store]
    | some w =>
      obtain ⟨old, hold, hrw⟩ := hp.replaced id w hw (hi.replaces id w hw)
      simp [Store.node, Tx.candidate_of_write hw, ((hm id old).mp hold).1, hrw.node]
  have hedge : ∀ c, tx.candidate.edge c = s.store.edge c := by
    intro c
    simp [Store.edge, Tx.candidate, Tx.currentConversation, hi.conversations, hp.store]
  rw [Store.Under, funext hnode, funext hedge] at hu
  cases hw : tx.write t with
  | none =>
    rw [Tx.candidate_of_noWrite hw, hp.store] at hr
    exact ⟨r, hr, ht, hb, hu⟩
  | some w =>
    rw [Tx.candidate_of_write hw] at hr
    obtain rfl := Option.some.inj hr
    obtain ⟨old, hold, hrw⟩ := hp.replaced t w hw (hi.replaces t w hw)
    obtain ⟨hstored, hterm⟩ := (hm t old).mp hold
    refine ⟨old, hstored, hterm, ?_, ?_⟩
    · exact (congrArg TaskNode.background hrw.node).symm.trans hb
    · have : parentOf w.record = parentOf old := by rw [parentOf, hrw.node, parentOf]
      exact this ▸ hu

/-- The state of a finalize pass: its overlay holds the candidates, and what is done owns nothing. -/
structure Finals (s : Scheduler) (f : Finalizing) : Prop where
  planned : Planned s f.tx
  internal : Internal f.tx
  keys : (Assoc.keys f.overlay.tasks).Nodup
  tasks : ∀ id, get? f.overlay.tasks id = (f.tx.write id).map TaskWrite.record
  edges : f.overlay.edges = []
  done : ∀ d ∈ f.done, Ends f.tx d

theorem Finals.views (hf : Finals s f) (h : Tracked s.store s.own) :
    s.own.Views s.store { f.tx.candidate with count := s.store.count } f.overlay := by
  obtain ⟨rank, hg⟩ := h.grounded
  obtain ⟨depth, hc⟩ := hf.planned.staged.grounded
  have hwrite : ∀ id r, get? f.overlay.tasks id = some r → ∃ w, f.tx.write id = some w ∧ w.record = r := by
    intro id r hr
    rw [hf.tasks] at hr
    exact Option.map_eq_some_iff.mp hr
  refine ⟨⟨rank, hg⟩, ⟨rank, ?_⟩, ⟨hf.keys, ?_, ?_, ?_, ?_, ?_, ?_⟩, h.sound.toCore, h.mirrors⟩
  · exact hg.of_up hc.taskId hc.conversationId (hf.planned.sameUp h.mirrors hf.internal) le_rfl
  · intro id r hr
    obtain ⟨w, hw, rfl⟩ := hwrite id r hr
    exact Tx.candidate_of_write hw
  · intro id hnone
    rw [hf.tasks, Option.map_eq_none_iff] at hnone
    exact (Tx.candidate_of_noWrite hnone).trans (by rw [hf.planned.store])
  · intro id r hr
    obtain ⟨w, hw, rfl⟩ := hwrite id r hr
    obtain ⟨old, hold, -⟩ := hf.planned.replaced id w hw (hf.internal.replaces id w hw)
    exact Or.inr ⟨old, (h.mirrors id old).mp hold⟩
  · intro id r hr
    rw [← hf.planned.store] at hr
    exact Tx.candidate_node hf.planned.staged id r hr
  · intro c o ho
    simp [hf.edges] at ho
  · intro c _
    simp [Tx.candidate, Tx.currentConversation, hf.internal.conversations, hf.planned.store]

structure Finalized (s : Scheduler) (f f' : Finalizing) : Prop where
  finals : Finals s f'
  ends : ∀ id, Ends f.tx id → Ends f'.tx id
  owned : ∀ o t, f'.tx.candidate.Owned o t → f.tx.candidate.Owned o t
  writes : ∀ id w, f'.tx.write id = some w → isTerminal w.record = true ∨ f.tx.write id = some w
  kept : ∀ id, (f.tx.write id).isSome = true → (f'.tx.write id).isSome = true
  marks : ∀ id r', f'.tx.currentTask id = some r' → ∃ r, f.tx.currentTask id = some r ∧
    r'.abortRequested = r.abortRequested ∧ r'.restart = r.restart

theorem Finalized.refl (hf : Finals s f) : Finalized s f f :=
  ⟨hf, fun _ h => h, fun _ _ h => h, fun _ _ h => Or.inr h, fun _ h => h, fun _ r h => ⟨r, h, rfl, rfl⟩⟩

theorem Finalized.trans {f' f'' : Finalizing} (h : Finalized s f f') (h' : Finalized s f' f'') :
    Finalized s f f'' := by
  refine ⟨h'.finals, fun id hid => h'.ends id (h.ends id hid), fun o t ho => h.owned o t (h'.owned o t ho), ?_,
    fun id hid => h'.kept id (h.kept id hid), ?_⟩
  · intro id w hw
    rcases h'.writes id w hw with ht | hw'
    · exact Or.inl ht
    · exact h.writes id w hw'
  · intro id r'' hr''
    obtain ⟨r', hr', hm', hs'⟩ := h'.marks id r'' hr''
    obtain ⟨r, hr, hm, hs⟩ := h.marks id r' hr'
    exact ⟨r, hr, hm'.trans hm, hs'.trans hs⟩

/-- A candidate of a completing task is completing, or has ended. -/
theorem Finals.completing (hf : Finals s f) (id : Id) (r : TaskRecord) (hr : s.own.live id = some r)
    (hc : isCompleting r = true) :
    Ends f.tx id ∨ ∃ record, s.own.record f.overlay id = some record ∧ isCompleting record = true := by
  obtain ⟨outcome, ho⟩ : ∃ outcome, r.state = .completing outcome := by
    cases hst : r.state <;> simp [isCompleting, hst, TaskState.status] at hc ⊢
  cases hw : f.tx.write id with
  | none => exact Or.inr ⟨r, by simp [Ownership.record, hf.tasks, hw, hr], hc⟩
  | some w =>
    obtain ⟨old, hold, hrw⟩ := hf.planned.replaced id w hw (hf.internal.replaces id w hw)
    obtain rfl : r = old := by simpa [hr] using hold
    rcases hrw.held outcome ho with hst | hst
    · exact Or.inr ⟨w.record, by simp [Ownership.record, hf.tasks, hw], by simp [isCompleting, hst, TaskState.status]⟩
    · exact Or.inl ⟨w, hw, by simp [isTerminal, hst, TaskState.status]⟩

/-- What ending a task of a pass leaves. -/
theorem Finals.ended (hf : Finals s f) (id : Id) (record : TaskRecord) (outcome : TaskOutcome)
    (hcur : f.tx.currentTask id = some record) (hid : record.id = id) (hlive : isTerminal record = false) {tx' : Tx}
    (hs : f.tx.setTask (withState record (.terminal outcome)) = some tx') (hp' : Planned s tx') (next : List Id) :
    Finalized s f { tx := tx', next, done := f.done ++ [id], overlay := { f.overlay with
      tasks := Assoc.set f.overlay.tasks id (withState record (.terminal outcome)) } } ∧ Ends tx' id := by
  have hvid : (withState record (.terminal outcome)).id = id := hid
  have hcur' : f.tx.currentTask (withState record (.terminal outcome)).id = some record := by rw [hvid, hcur]
  obtain ⟨w, hw, hwr⟩ : ∃ w, tx'.write id = some w ∧ w.record = withState record (.terminal outcome) :=
    hvid ▸ Tx.setTask_self hs
  have hother : ∀ j, j ≠ id → tx'.write j = f.tx.write j := fun j hj => Tx.setTask_other hs j (hvid ▸ hj)
  have hends : Ends tx' id := ⟨w, hw, by simp [hwr, withState, isTerminal, TaskState.status]⟩
  have hmono : ∀ j, Ends f.tx j → Ends tx' j := by
    intro j hj
    by_cases hji : j = id
    · exact hji ▸ hends
    · obtain ⟨w', hw', ht'⟩ := hj
      exact ⟨w', (hother j hji).trans hw', ht'⟩
  refine ⟨⟨⟨hp', hf.internal.setTask _ hs, nodup_keys_set _ _ _ hf.keys, ?_, hf.edges, ?_⟩, hmono,
    owned_of_setTask hcur' hlive rfl hs, ?_, ?_, ?_⟩, hends⟩
  · intro j
    dsimp only
    rw [get?_set]
    by_cases hji : id = j
    · subst hji
      simp [hw, hwr]
    · rw [if_neg hji, hf.tasks, hother j (Ne.symm hji)]
  · intro d hd
    rcases mem_append.mp hd with hd | hd
    · exact hmono d (hf.done d hd)
    · obtain rfl := mem_singleton.mp hd
      exact hends
  · intro j w' hw'
    by_cases hji : j = id
    · subst hji
      dsimp only at hw'
      rw [hw] at hw'
      obtain rfl := Option.some.inj hw'
      exact Or.inl (by simp [hwr, withState, isTerminal, TaskState.status])
    · exact Or.inr ((hother j hji).symm.trans hw')
  · intro j hj
    by_cases hji : j = id
    · subst hji
      simp [hw]
    · exact (hother j hji).symm ▸ hj
  · intro j r' hr'
    by_cases hji : j = id
    · subst hji
      refine ⟨record, hcur, ?_⟩
      have : r' = withState record (.terminal outcome) := by
        simpa [Tx.currentTask, hw, hwr, eq_comm] using hr'
      rw [this]
      exact ⟨rfl, rfl⟩
    · refine ⟨r', ?_, rfl, rfl⟩
      dsimp only at hr'
      rw [Tx.currentTask, hother j hji, f.tx.setTask_store _ _ hs] at hr'
      exact hr'

section

variable (h : Tracked s.store s.own)
include h

/-- A record of the overlay is the candidate of a live task. -/
theorem Finals.current (hf : Finals s f) (id : Id) (record : TaskRecord)
    (hrecord : s.own.record f.overlay id = some record) :
    record.id = id ∧ ∃ old, s.own.live id = some old ∧ f.tx.currentTask id = some record := by
  obtain ⟨rank, hg⟩ := h.grounded
  obtain ⟨old, hold, hcur⟩ : ∃ old, s.own.live id = some old ∧ f.tx.currentTask id = some record := by
    cases hw : f.tx.write id with
    | none =>
      have hl : s.own.live id = some record := by simpa [Ownership.record, hf.tasks, hw] using hrecord
      exact ⟨record, hl, by simp [Tx.currentTask, hw, hf.planned.store, ((h.mirrors id record).mp hl).1]⟩
    | some w =>
      obtain rfl : w.record = record := by simpa [Ownership.record, hf.tasks, hw] using hrecord
      obtain ⟨old, hold, -⟩ := hf.planned.replaced id w hw (hf.internal.replaces id w hw)
      exact ⟨old, hold, by simp [Tx.currentTask, hw]⟩
  refine ⟨?_, old, hold, hcur⟩
  rw [(hf.planned.current h.mirrors hold hcur).id]
  exact hg.taskId _ _ ((h.mirrors id old).mp hold).1

variable (hu : s.own.unloaded = [])
include hu

theorem finalizeOne_spec (hf : Finals s f) (id : Id) :
    ∃ f', s.finalizeOne f id = some f' ∧ Finalized s f f' ∧
      ∀ r, s.own.live id = some r → isCompleting r = true → (∀ t, ¬f.tx.candidate.Owned id t) → Ends f'.tx id := by
  have hviews := hf.views h
  have hfuel : s.store.count ≤ s.fuel f.overlay := by
    rw [fuel, add_assoc]
    exact Nat.le_add_right _ _
  unfold finalizeOne
  split
  · rename_i hnone
    refine ⟨f, rfl, Finalized.refl hf, ?_⟩
    intro r hr hc _
    rcases hf.completing id r hr hc with he | ⟨record, hrecord, -⟩
    · exact he
    · simp [hnone] at hrecord
  · rename_i record hrecord
    split
    · rename_i outcome houtcome
      have hlive : isTerminal record = false := by simp [isTerminal, houtcome, TaskState.status]
      obtain ⟨hid, old, hold, hcur⟩ := hf.current h id record hrecord
      split
      · rename_i hdone
        exact ⟨f, rfl, Finalized.refl hf, fun _ _ _ _ => hf.done id hdone⟩
      · split
        · rename_i howned
          refine ⟨f, rfl, Finalized.refl hf, ?_⟩
          intro r _ _ hnone
          simp only [Ownership.hasOwnedLive, Bool.not_eq_true', isEmpty_eq_false_iff] at howned
          obtain ⟨t, ht⟩ := exists_mem_of_ne_nil _ howned
          exact absurd (hviews.ownedLive_sound _ hfuel f.done id t ht) (hnone t)
        · rename_i howned
          have hdoneOwned : ∀ d ∈ f.done, ∀ t, ¬Store.Owned { f.tx.candidate with count := s.store.count } d t := by
            intro d hd
            obtain ⟨w, hw, hterm⟩ := hf.done d hd
            exact (hf.planned.ended d w hw hterm).2
          have hleads : ∀ j r, get? f.overlay.tasks j = some r → s.own.Leads f.overlay (parentOf r) := by
            intro j r hr
            rw [hf.tasks] at hr
            obtain ⟨w, hw, rfl⟩ := Option.map_eq_some_iff.mp hr
            obtain ⟨o, ho, hrw⟩ := hf.planned.replaced j w hw (hf.internal.replaces j w hw)
            have hparent : parentOf w.record = parentOf o := by rw [parentOf, hrw.node, parentOf]
            rw [hparent]
            exact (h.sound.loaded_parent ho (by simp [hu])).leads hviews.overlaid hviews.core
          have hnone := hviews.owned_of_empty h.sound hu hleads _ hfuel f.done hdoneOwned id (by simpa using howned)
          have hrw : Rewrites record (withState record (.terminal outcome)) := by
            refine ⟨rfl, rfl, fun hm => hm, fun _ hr => hr, ?_⟩
            intro outcome' ho
            rw [houtcome] at ho
            obtain rfl := TaskState.completing.inj ho
            exact Or.inr rfl
          have hvid : (withState record (.terminal outcome)).id = id := hid
          obtain ⟨tx', hs, hp'⟩ := hf.planned.setTask h.mirrors (withState record (.terminal outcome)) (hvid ▸ hold)
            (hvid ▸ hcur) hlive hrw (fun _ => ⟨hu, by rwa [hvid]⟩)
          obtain ⟨hfinal, hends⟩ := hf.ended id record outcome hcur hid hlive hs hp' _
          dsimp only
          rw [hs]
          exact ⟨_, rfl, hfinal, fun _ _ _ _ => hends⟩
    · rename_i hstate
      refine ⟨f, rfl, Finalized.refl hf, ?_⟩
      intro r hr hc _
      rcases hf.completing id r hr hc with he | ⟨record', hrecord', hc'⟩
      · exact he
      · obtain rfl : record = record' := Option.some.inj (hrecord.symm.trans hrecord')
        cases hst : record.state <;> simp [isCompleting, hst, TaskState.status] at hc'
        exact absurd hst (hstate _)

theorem finalizeRound_spec (round : List Id) (hf : Finals s f) :
    ∃ f', round.foldlM s.finalizeOne f = some f' ∧ Finalized s f f' ∧
      ∀ id ∈ round, ∀ r, s.own.live id = some r → isCompleting r = true → (∀ t, ¬f.tx.candidate.Owned id t) →
        Ends f'.tx id := by
  induction round generalizing f with
  | nil => exact ⟨f, rfl, Finalized.refl hf, by simp⟩
  | cons id round ih =>
    obtain ⟨f1, h1, hz1, he1⟩ := finalizeOne_spec h hu hf id
    obtain ⟨f2, h2, hz2, he2⟩ := ih hz1.finals
    refine ⟨f2, by simp [foldlM_cons, h1, h2], hz1.trans hz2, ?_⟩
    intro j hj r hr hc hnone
    rcases mem_cons.mp hj with rfl | hj
    · exact hz2.ends _ (he1 r hr hc hnone)
    · exact he2 j hj r hr hc (fun t ho => hnone t (hz1.owned j t ho))

theorem finalizeRounds_spec (fuel : ℕ) (round : List Id) (hf : Finals s f) :
    ∃ f', s.finalizeRounds fuel f round = some f' ∧ Finalized s f f' ∧
      (0 < fuel → ∀ id ∈ round, ∀ r, s.own.live id = some r → isCompleting r = true →
        (∀ t, ¬f.tx.candidate.Owned id t) → Ends f'.tx id) := by
  induction fuel generalizing f round with
  | zero => exact ⟨f, rfl, Finalized.refl hf, by omega⟩
  | succ fuel ih =>
    unfold finalizeRounds
    split
    · exact ⟨f, rfl, Finalized.refl hf, by simp⟩
    · have hf' : Finals s { f with next := [] } := ⟨hf.planned, hf.internal, hf.keys, hf.tasks, hf.edges, hf.done⟩
      obtain ⟨f1, h1, hz1, he1⟩ := finalizeRound_spec h hu round hf'
      have hz1' : Finalized s f f1 := ⟨hz1.finals, hz1.ends, hz1.owned, hz1.writes, hz1.kept, hz1.marks⟩
      obtain ⟨f2, h2, hz2, -⟩ := ih f1.next hz1.finals
      simp only [h1]
      exact ⟨f2, h2, hz1'.trans hz2, fun _ id hid r hr hc hnone => hz2.ends id (he1 id hid r hr hc hnone)⟩

theorem finalize_spec (hp : Planned s tx) (hi : Internal tx) :
    (s.finalize tx).1 = { s with finalizeChecks := [] } ∧ ∃ tx', (s.finalize tx).2 = some tx' ∧ Planned s tx' ∧
      Internal tx' ∧ (∀ id w, tx'.write id = some w → isTerminal w.record = true ∨ tx.write id = some w) ∧
      (∀ id, (tx.write id).isSome = true → (tx'.write id).isSome = true) ∧
      (∀ id r', tx'.currentTask id = some r' → ∃ r, tx.currentTask id = some r ∧
        r'.abortRequested = r.abortRequested ∧ r'.restart = r.restart) ∧
      ∀ id ∈ s.finalizeChecks, ∀ r, s.own.live id = some r → isCompleting r = true → (∀ t, ¬s.store.Owned id t) →
        Ends tx' id := by
  let cleared : Scheduler := { s with finalizeChecks := [] }
  let start : Finalizing := { tx := tx, overlay := overlayOf tx, done := [], next := [] }
  have hp' : Planned cleared tx := ⟨hp.store, hp.staged, hp.replaced, hp.ended⟩
  have hstart : Finals cleared start := by
    refine ⟨hp', hi, (hp.views h).overlaid.keys, ?_, ?_, by simp [start]⟩
    · intro id
      cases hw : tx.write id with
      | none =>
        rw [Option.map_none, get?_eq_none_iff]
        intro hmem
        simp only [start, overlayOf, Tx.stagedTasks, Assoc.keys, map_map, mem_map, Function.comp_apply] at hmem
        obtain ⟨w, hw', rfl⟩ := hmem
        simp [Tx.mem_writes hp.staged w hw'] at hw
      | some w =>
        refine get?_of_mem _ _ _ (hp.views h).overlaid.keys ?_
        show (id, w.record) ∈ (overlayOf tx).tasks
        simp only [overlayOf, Tx.stagedTasks, map_map, mem_map, Function.comp_apply, Prod.mk.injEq]
        exact ⟨w, Tx.write_mem hw, hp.staged.id id w hw, rfl⟩
    · show tx.conversations.map (fun c => (c.1, ownerTask c.2)) = []
      rw [hi.conversations]
      rfl
  obtain ⟨f', hf', hz, he⟩ := finalizeRounds_spec (s := cleared) h hu (s.store.count + 1) s.finalizeChecks hstart
  have hfinal : (s.finalize tx).2 = some f'.tx := by
    show Option.map Finalizing.tx (cleared.finalizeRounds (s.store.count + 1) start s.finalizeChecks) = _
    rw [hf']
    rfl
  have hplanned := hz.finals.planned
  refine ⟨rfl, f'.tx, hfinal, ⟨hplanned.store, hplanned.staged, hplanned.replaced, hplanned.ended⟩, hz.finals.internal,
    hz.writes, hz.kept, hz.marks, ?_⟩
  intro id hid r hr hc hnone
  exact he (Nat.succ_pos _) id hid r hr hc (fun t ho => hnone t (hp.owned_store h.mirrors hi ho))

end

end Scheduler

end PiAgent.Harness
