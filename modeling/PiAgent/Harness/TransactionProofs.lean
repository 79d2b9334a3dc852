import PiAgent.Harness.Transaction
import PiAgent.Harness.OwnershipLoads

/-! # What a transaction stages stays a tree -/

namespace PiAgent.Harness

open Option Function List Assoc Durable

/-! ## Growing the tree -/

variable {store : Store} {rank : Node → ℕ}

/-- A node that comes in under one that is there is ranked above all others. -/
theorem Store.Grounded.addNode (hg : store.Grounded rank) (after : Store) (node : Node) (parent : Option Node)
    (hself : after.up node = some parent) (hup : ∀ n, n ≠ node → after.up n = store.up n)
    (hnew : store.has node = false) (hparent : ∀ p, parent = some p → store.has p = true)
    (hcount : after.count = store.count + 1) (htask : ∀ id r, after.tasks id = some r → r.id = id)
    (hconversation : ∀ id r, after.conversations id = some r → r.id = id) :
    ∃ rank', after.Grounded rank' := by
  have hne : ∀ n, store.has n = true → n ≠ node := by
    rintro n hn rfl
    simp [hnew] at hn
  have hhas : ∀ n, after.has n = true ↔ n = node ∨ store.has n = true := by
    intro n
    by_cases hn : n = node
    · subst hn
      simp [Store.has, hself]
    · simp [Store.has, hup n hn, hn]
  -- an edge of `after` leads to a node of `store`
  have hedge : ∀ n p, after.up n = some (some p) → store.has p = true ∧ (n ≠ node → store.up n = some (some p)) := by
    intro n p h
    by_cases hn : n = node
    · subst hn
      exact ⟨hparent p (some.inj (hself.symm.trans h)), fun hn => absurd rfl hn⟩
    · rw [hup n hn] at h
      exact ⟨hg.parent n p h, fun _ => h⟩
  refine ⟨update rank node store.count, htask, hconversation, ?_, ?_, ?_, ?_⟩
  · exact fun n p h => (hhas p).mpr (.inr (hedge n p h).1)
  · intro n p h
    obtain ⟨hp, hold⟩ := hedge n p h
    rw [update_of_ne (hne p hp)]
    by_cases hn : n = node
    · subst hn
      rw [update_self]
      exact hg.bound p hp
    · rw [update_of_ne hn]
      exact hg.deeper n p (hold hn)
  · intro n h
    rcases (hhas n).mp h with rfl | h
    · simp [hcount]
    · rw [update_of_ne (hne n h), hcount]
      exact (hg.bound n h).trans (Nat.lt_succ_self _)
  · intro n m hn hm he
    rcases (hhas n).mp hn with rfl | hn <;> rcases (hhas m).mp hm with rfl | hm
    · rfl
    · rw [update_self, update_of_ne (hne m hm)] at he
      exact absurd (hg.bound m hm) (by omega)
    · rw [update_self, update_of_ne (hne n hn)] at he
      exact absurd (hg.bound n hn) (by omega)
    · rw [update_of_ne (hne n hn), update_of_ne (hne m hm)] at he
      exact hg.injective n m hn hm he

theorem Store.Grounded.addTask (hg : store.Grounded rank) (r : TaskRecord)
    (hnew : store.tasks r.id = none) (hparent : store.has (parentOf r) = true) :
    ∃ rank', Store.Grounded { store with tasks := update store.tasks r.id (some r)
                                         count := store.count + 1 } rank' := by
  refine hg.addNode _ (.task r.id) (some (parentOf r)) (by simp [Store.up]) ?_ (by simp [Store.has, Store.up, hnew])
    (fun p hp => some.inj hp ▸ hparent) rfl ?_ hg.conversationId
  · intro n hn
    cases n with
    | conversation c => rfl
    | task j =>
      have hj : j ≠ r.id := fun e => hn (e ▸ rfl)
      simp [Store.up, hj]
  · intro id r' h
    by_cases hid : id = r.id
    · subst hid
      simpa using congrArg TaskRecord.id (some.inj (by simpa using h)).symm
    · exact hg.taskId id r' (by simpa [hid] using h)

theorem Store.Grounded.addConversation (hg : store.Grounded rank)
    (r : ConversationRecord) (hnew : store.conversations r.id = none)
    (hparent : ∀ o, ownerTask r = some o → store.has (.task o) = true) :
    ∃ rank', Store.Grounded { store with conversations := update store.conversations r.id (some r)
                                         count := store.count + 1 } rank' := by
  refine hg.addNode _ (.conversation r.id) ((ownerTask r).map Node.task) (by simp [Store.up]) ?_
    (by simp [Store.has, Store.up, hnew]) ?_ rfl hg.taskId ?_
  · intro n hn
    cases n with
    | task j => rfl
    | conversation c =>
      have hc : c ≠ r.id := fun e => hn (e ▸ rfl)
      simp [Store.up, hc]
  · intro p hp
    obtain ⟨o, ho, rfl⟩ := map_eq_some_iff.mp hp
    exact hparent o ho
  · intro id r' h
    by_cases hid : id = r.id
    · subst hid
      simpa using congrArg ConversationRecord.id (some.inj (by simpa using h)).symm
    · exact hg.conversationId id r' (by simpa [hid] using h)

theorem Store.Grounded.of_up {store' : Store} (hg : store.Grounded rank)
    (ht : ∀ id r, store'.tasks id = some r → r.id = id)
    (hc : ∀ id r, store'.conversations id = some r → r.id = id) (hup : ∀ n, store'.up n = store.up n)
    (hn : store.count ≤ store'.count) : store'.Grounded rank := by
  have hhas : ∀ n, store'.has n = store.has n := fun n => by simp only [Store.has, hup]
  refine ⟨ht, hc, ?_, ?_, ?_, ?_⟩
  · intro n p h
    rw [hhas]
    exact hg.parent n p (by rwa [hup] at h)
  · intro n p h
    exact hg.deeper n p (by rwa [hup] at h)
  · intro n h
    exact (hg.bound n (by rwa [hhas] at h)).trans_le hn
  · intro n m h h'
    rw [hhas] at h h'
    exact hg.injective n m h h'

theorem Store.Grounded.replaceTask (hg : store.Grounded rank) (r old : TaskRecord)
    (count : ℕ) (hold : store.tasks r.id = some old) (hnode : nodeOf r = nodeOf old) (hcount : store.count ≤ count) :
    Store.Grounded { store with tasks := update store.tasks r.id (some r), count := count } rank := by
  have hup : ∀ n, Store.up { store with tasks := update store.tasks r.id (some r), count := count } n =
      store.up n := by
    intro n
    cases n with
    | conversation c => rfl
    | task j =>
      by_cases hj : j = r.id
      · subst hj
        simp [Store.up, hold, parentOf, hnode]
      · simp [Store.up, hj]
  refine hg.of_up (fun id r' h => ?_) hg.conversationId hup hcount
  by_cases hid : id = r.id
  · subst hid
    simpa using congrArg TaskRecord.id (some.inj (by simpa using h)).symm
  · exact hg.taskId id r' (by simpa [hid] using h)

theorem Store.Grounded.congr {store store' : Store} {rank : Node → ℕ} (hg : store.Grounded rank)
    (ht : store'.tasks = store.tasks) (hc : store'.conversations = store.conversations)
    (hn : store'.count = store.count) : store'.Grounded rank :=
  hg.of_up (ht ▸ hg.taskId) (hc ▸ hg.conversationId) (fun n => by cases n <;> simp [Store.up, ht, hc]) hn.ge

/-! ## The transaction -/

namespace Tx

/-- What holds of every transaction: its candidates form a tree, and each write is a new task or
keeps a stored task in its place. -/
structure Staged (tx : Tx) : Prop where
  grounded : ∃ rank, tx.candidate.Grounded rank
  keys : (Assoc.keys tx.tasksById).Nodup
  conversationKeys : (Assoc.keys tx.conversations).Nodup
  conversation : ∀ c r, get? tx.conversations c = some r → r.id = c ∧ tx.store.conversations c = none
  id : ∀ j w, tx.write j = some w → w.record.id = j
  created : ∀ j w, tx.write j = some w → w.kind = .create →
    tx.store.tasks j = none ∧ w.record.state.status = .pending ∧ w.record.abortRequested = false ∧
      (w.record.owner.isSome = true → w.record.background = false)
  replaced : ∀ j w, tx.write j = some w → w.kind = .replace →
    ∃ old, tx.store.tasks j = some old ∧ nodeOf w.record = nodeOf old

theorem start_staged (hg : ∃ rank, store.Grounded rank) : Staged (start store) := by
  obtain ⟨rank, hg⟩ := hg
  refine ⟨⟨rank, hg.congr rfl rfl rfl⟩, ?_, ?_, ?_, ?_, ?_, ?_⟩
  · exact nodup_nil
  · exact nodup_nil
  · intro c r h
    simp [start] at h
  · intro j w h
    simp [start, write] at h
  · intro j w h
    simp [start, write] at h
  · intro j w h
    simp [start, write] at h

/-! ## Touching a task -/

variable (tx : Tx)

theorem taskEntry_write (id j : Id) : (tx.taskEntry id).write j = tx.write j := by
  unfold taskEntry
  split
  · rfl
  · rename_i h
    have hnone : get? tx.tasksById id = none := by simpa [Assoc.has] using h
    simp only [write, get?_set]
    split
    · rename_i hj
      simp [← hj, hnone]
    · rfl

theorem filterMap_set_none {β : Type} (l : List (Id × Option β)) (id : Id) (h : get? l id = none) :
    (Assoc.set l id none).filterMap Prod.snd = l.filterMap Prod.snd := by
  induction l with
  | nil => rfl
  | cons p l ih =>
    obtain ⟨j, v⟩ := p
    by_cases hj : j = id
    · simp [get?, hj] at h
    · have ih' := ih (by simpa [get?, hj] using h)
      simp [Assoc.set, hj, filterMap_cons, ih']

variable (id : Id)

theorem taskEntry_writes : (tx.taskEntry id).writes = tx.writes := by
  unfold taskEntry
  split
  · rfl
  · rename_i h
    exact filterMap_set_none _ _ (by simpa [Assoc.has] using h)

theorem taskEntry_fields :
    (tx.taskEntry id).store = tx.store ∧ (tx.taskEntry id).conversations = tx.conversations := by
  unfold taskEntry
  split <;> exact ⟨rfl, rfl⟩

theorem taskEntry_candidate : (tx.taskEntry id).candidate = tx.candidate := by
  obtain ⟨hs, hc⟩ := tx.taskEntry_fields id
  have htasks : (tx.taskEntry id).currentTask = tx.currentTask := by
    funext j
    simp only [currentTask, taskEntry_write, hs]
  have hconvs : (tx.taskEntry id).currentConversation = tx.currentConversation := by
    funext j
    simp only [currentConversation, hs, hc]
  simp only [candidate, htasks, hconvs, hs, hc, taskEntry_writes]

variable {tx : Tx}

theorem taskEntry_staged (h : tx.Staged) (id : Id) : (tx.taskEntry id).Staged := by
  obtain ⟨hs, hc⟩ := tx.taskEntry_fields id
  refine ⟨?_, ?_, ?_, ?_, ?_, ?_, ?_⟩
  · rw [taskEntry_candidate]
    exact h.grounded
  · unfold taskEntry
    split
    · exact h.keys
    · exact nodup_keys_set _ _ _ h.keys
  · rw [hc]
    exact h.conversationKeys
  · intro c r hr
    rw [hc] at hr
    rw [hs]
    exact h.conversation c r hr
  · intro j w hw
    exact h.id j w (by rwa [taskEntry_write] at hw)
  · intro j w hw hk
    rw [hs]
    exact h.created j w (by rwa [taskEntry_write] at hw) hk
  · intro j w hw hk
    rw [hs]
    exact h.replaced j w (by rwa [taskEntry_write] at hw) hk

/-! ## Writing a task -/

variable (tx : Tx)

theorem setWrite_write (id j : Id) (w : TaskWrite) :
    (tx.setWrite id w).write j = if id = j then some w else tx.write j := by
  simp only [write, setWrite, get?_set]
  split <;> rfl

theorem length_filterMap_set {β : Type} (l : List (Id × Option β)) (id : Id) (b : β) :
    ((Assoc.set l id (some b)).filterMap Prod.snd).length =
      (l.filterMap Prod.snd).length + if (get? l id).join.isSome then 0 else 1 := by
  induction l with
  | nil => simp [Assoc.set]
  | cons p l ih =>
    obtain ⟨j, v⟩ := p
    by_cases hj : j = id
    · subst hj
      cases v <;> simp [Assoc.set, get?]
    · cases v with
      | none => simpa [Assoc.set, get?, hj, filterMap_cons] using ih
      | some a =>
        simp only [Assoc.set, hj, if_false, filterMap_cons, get?, length_cons, ih]
        omega

theorem setWrite_tasks (id : Id) (w : TaskWrite) :
    (tx.setWrite id w).candidate.tasks = update tx.candidate.tasks id (some w.record) := by
  funext j
  by_cases hj : j = id
  · subst hj
    simp [candidate, currentTask, setWrite_write]
  · rw [update_of_ne hj]
    simp only [candidate, currentTask, setWrite_write, if_neg (Ne.symm hj)]
    rfl

theorem setWrite_count (id : Id) (w : TaskWrite) :
    (tx.setWrite id w).candidate.count = tx.candidate.count + if (tx.write id).isSome then 0 else 1 := by
  have hcount : (tx.setWrite id w).writes.length = tx.writes.length + if (tx.write id).isSome then 0 else 1 :=
    length_filterMap_set _ _ _
  simp only [candidate, hcount, ← Nat.add_assoc]
  rfl

variable {tx : Tx}

theorem setWrite_keys (h : tx.Staged) (id : Id) (w : TaskWrite) : (Assoc.keys (tx.setWrite id w).tasksById).Nodup :=
  nodup_keys_set _ _ _ h.keys

theorem stageTask_staged (h : tx.Staged) (options : TaskOptions) (conversationId : Id) (tx' : Tx)
    (hs : tx.stageTask options conversationId = some tx')
    (howner : ∀ o, options.owner = some o → (tx.currentTask o).isSome = true ∧ options.background = false) :
    tx'.Staged := by
  unfold stageTask at hs
  split at hs
  · simp at hs
  · rename_i hok
    simp only [Bool.or_eq_true, isNone_iff_eq_none, not_or, isSome_iff_ne_none, ne_eq, not_not] at hok
    obtain rfl := some.inj hs
    obtain ⟨hconv, htask⟩ := hok
    have hnotStored : tx.store.tasks options.id = none := by
      rw [currentTask, or_eq_none_iff] at htask
      exact htask.2
    have hnoWrite : tx.write options.id = none := by
      rw [currentTask, or_eq_none_iff, map_eq_none_iff] at htask
      exact htask.1
    obtain ⟨rank, hg⟩ := h.grounded
    refine ⟨?_, setWrite_keys h _ _, h.conversationKeys, h.conversation, ?_, ?_, ?_⟩
    · suffices hparent : tx.candidate.has (parentOf (newTask options conversationId)) = true by
        obtain ⟨rank', hg'⟩ := hg.addTask (newTask options conversationId) htask hparent
        exact ⟨rank', hg'.congr (setWrite_tasks _ _ _) rfl (by rw [setWrite_count, hnoWrite]; rfl)⟩
      cases ho : options.owner with
      | none =>
        obtain ⟨c, hc⟩ := ne_none_iff_exists'.mp hconv
        have hh := Store.has_conversation (show tx.candidate.conversations conversationId = some c from hc)
        simpa [parentOf, nodeOf, newTask, TaskNode.parent, ho] using hh
      | some o =>
        obtain ⟨t, ht⟩ := isSome_iff_exists.mp (howner o ho).1
        have hh := Store.has_task (show tx.candidate.tasks o = some t from ht)
        simpa [parentOf, nodeOf, newTask, TaskNode.parent, ho] using hh
    · intro j w hw
      rw [setWrite_write] at hw
      split at hw
      · rename_i hj
        obtain rfl := some.inj hw
        exact hj
      · exact h.id j w hw
    · intro j w hw hk
      rw [setWrite_write] at hw
      split at hw
      · rename_i hj
        obtain rfl := some.inj hw
        subst hj
        refine ⟨hnotStored, rfl, rfl, ?_⟩
        intro hsome
        obtain ⟨o, ho⟩ := isSome_iff_exists.mp hsome
        exact (howner o ho).2
      · exact h.created j w hw hk
    · intro j w hw hk
      rw [setWrite_write] at hw
      split at hw
      · obtain rfl := some.inj hw
        simp at hk
      · exact h.replaced j w hw hk

theorem createTask_staged (h : tx.Staged) (options : TaskOptions) (tx' : Tx)
    (hs : tx.createTask options = some tx') : tx'.Staged := by
  unfold createTask at hs
  split at hs
  · rename_i ho
    obtain ⟨c, -, hs⟩ := bind_eq_some_iff.mp hs
    exact stageTask_staged h options c tx' hs (by simp [ho])
  · rename_i taskId ho
    split at hs
    · simp at hs
    · rename_i owner howner
      split at hs
      · simp at hs
      · rename_i hback
        split at hs
        · simp at hs
        · refine stageTask_staged h options _ tx' hs ?_
          intro o ho'
          obtain rfl : taskId = o := by simpa [ho] using ho'
          exact ⟨by simp [howner], by simpa using hback⟩

theorem createConversation_staged (h : tx.Staged) (id : Id) (parent : Option Parent) (owner : Option Id)
    (tx' : Tx) (hs : tx.createConversation id parent owner = some tx') : tx'.Staged := by
  unfold createConversation at hs
  split at hs
  · simp at hs
  · rename_i hfresh
    have hnone : tx.currentConversation id = none := by simpa using hfresh
    have hparts := hnone
    rw [currentConversation, or_eq_none_iff] at hparts
    obtain ⟨record, hid, howner, rfl⟩ : ∃ record : ConversationRecord, record.id = id ∧
        (∀ o, ownerTask record = some o → (tx.currentTask o).isSome = true) ∧
        tx' = { tx with conversations := tx.conversations ++ [(id, record)] } := by
      split at hs
      · exact ⟨_, rfl, by simp [ownerTask], (some.inj hs).symm⟩
      · rename_i taskId
        obtain ⟨task, htask, rfl⟩ := map_eq_some_iff.mp hs
        refine ⟨_, rfl, ?_, rfl⟩
        intro o ho
        obtain rfl : taskId = o := by simpa [ownerTask] using ho
        simp [htask]
    have hget : ∀ c, get? (tx.conversations ++ [(id, record)]) c =
        if c = id then some record else get? tx.conversations c := by
      intro c
      rw [get?_append]
      by_cases hc : c = id
      · subst hc
        simp [hparts.1]
      · simp [hc, get?, Ne.symm hc]
    obtain ⟨rank, hg⟩ := h.grounded
    refine ⟨?_, h.keys, ?_, ?_, h.id, h.created, h.replaced⟩
    · have hconvs : currentConversation { tx with conversations := tx.conversations ++ [(id, record)] } =
          update tx.currentConversation record.id (some record) := by
        funext c
        rw [hid]
        by_cases hc : c = id
        · subst hc
          simp [currentConversation, hget]
        · simp [currentConversation, hget, hc]
      have hcount : (candidate { tx with conversations := tx.conversations ++ [(id, record)] }).count =
          tx.candidate.count + 1 := by
        simp only [candidate, writes, length_append, length_singleton]
        omega
      have hparent : ∀ o, ownerTask record = some o → tx.candidate.has (.task o) = true := by
        intro o ho
        obtain ⟨t, ht⟩ := isSome_iff_exists.mp (howner o ho)
        exact Store.has_task ht
      obtain ⟨rank', hg'⟩ := hg.addConversation record (hid ▸ hnone) hparent
      exact ⟨rank', hg'.congr rfl hconvs hcount⟩
    · rw [Assoc.keys, map_append, nodup_append]
      refine ⟨h.conversationKeys, nodup_singleton _, ?_⟩
      rintro a ha b hb rfl
      have hb' : a = id := by simpa using hb
      subst hb'
      exact (get?_eq_none_iff _ _).mp hparts.1 ha
    · intro c r hr
      rw [hget] at hr
      split at hr
      · rename_i hc
        obtain rfl := some.inj hr
        subst hc
        exact ⟨hid, hparts.2⟩
      · exact h.conversation c r hr

section

variable {tx tx' : Tx} {value : TaskRecord} (hs : tx.setTask value = some tx')
include hs

theorem setTask_eq : ∃ w, tx' = tx.setWrite value.id w ∧ w.record = value ∧
    w.kind = ((tx.write value.id).map TaskWrite.kind).getD .replace := by
  unfold setTask at hs
  split at hs
  · rename_i hw
    exact ⟨_, (some.inj hs).symm, rfl, by simp [hw]⟩
  · rename_i c hw
    split at hs
    · simp at hs
    · exact ⟨_, (some.inj hs).symm, rfl, by simp [hw]⟩

theorem setTask_self : ∃ w, tx'.write value.id = some w ∧ w.record = value := by
  obtain ⟨w, rfl, hw, -⟩ := setTask_eq hs
  exact ⟨w, by rw [setWrite_write, if_pos rfl], hw⟩

theorem setTask_other (j : Id) (hj : j ≠ value.id) : tx'.write j = tx.write j := by
  obtain ⟨w, rfl, -⟩ := setTask_eq hs
  rw [setWrite_write, if_neg (Ne.symm hj)]

theorem setTask_write (j : Id) (w : TaskWrite) (hw : tx'.write j = some w) :
    (j = value.id ∧ w.record = value) ∨ tx.write j = some w := by
  by_cases hj : j = value.id
  · obtain ⟨w', hw', hr⟩ := setTask_self hs
    obtain rfl : w' = w := by simpa [← hj, hw] using hw'.symm
    exact Or.inl ⟨hj, hr⟩
  · exact Or.inr ((setTask_other hs j hj).symm.trans hw)

theorem setTask_kept (j : Id) (h : tx.write j ≠ none) : tx'.write j ≠ none := by
  by_cases hj : j = value.id
  · obtain ⟨w, hw, -⟩ := setTask_self hs
    simp [hj, hw]
  · rwa [setTask_other hs j hj]

end

theorem setTask_staged (h : tx.Staged) (value old : TaskRecord) (tx' : Tx)
    (hs : tx.setTask value = some tx') (hold : tx.store.tasks value.id = some old) (hnode : nodeOf value = nodeOf old) :
    tx'.Staged := by
  have hkind : ∀ w, tx.write value.id = some w → w.kind = .replace ∧ nodeOf w.record = nodeOf old := by
    intro w hw
    cases hk : w.kind with
    | create => simp [(h.created _ w hw hk).1] at hold
    | replace =>
      obtain ⟨old', hold', hn⟩ := h.replaced _ w hw hk
      obtain rfl : old = old' := by simpa [hold] using hold'
      exact ⟨rfl, hn⟩
  obtain ⟨current, hcurrent, hcnode⟩ : ∃ current, tx.candidate.tasks value.id = some current ∧
      nodeOf value = nodeOf current := by
    cases hw : tx.write value.id with
    | none => exact ⟨old, by simp [candidate, currentTask, hw, hold], hnode⟩
    | some w => exact ⟨w.record, by simp [candidate, currentTask, hw], hnode.trans (hkind w hw).2.symm⟩
  obtain rfl : tx' = tx.setWrite value.id { kind := .replace, record := value } := by
    obtain ⟨⟨kind, record⟩, rfl, rfl, hk⟩ := setTask_eq hs
    cases hw : tx.write record.id with
    | none => simp_all
    | some w => simp_all
  obtain ⟨rank, hg⟩ := h.grounded
  refine ⟨⟨rank, ?_⟩, setWrite_keys h _ _, h.conversationKeys, h.conversation, ?_, ?_, ?_⟩
  · exact (hg.replaceTask value current _ hcurrent hcnode (Nat.le_add_right _ _)).congr (setWrite_tasks _ _ _) rfl
      (setWrite_count _ _ _)
  · intro j w hw
    rw [setWrite_write] at hw
    split at hw
    · rename_i hj
      obtain rfl := some.inj hw
      exact hj
    · exact h.id j w hw
  · intro j w hw hk
    rw [setWrite_write] at hw
    split at hw
    · obtain rfl := some.inj hw
      simp at hk
    · exact h.created j w hw hk
  · intro j w hw hk
    rw [setWrite_write] at hw
    split at hw
    · rename_i hj
      obtain rfl := some.inj hw
      subst hj
      exact ⟨old, hold, hnode⟩
    · exact h.replaced j w hw hk

theorem run_staged (h : tx.Staged) (op : TxOp) : (op.run tx).Staged := by
  have htouch : ∀ owner : Option Id, (owner.elim tx tx.taskEntry).Staged := by
    intro owner
    cases owner with
    | none => exact h
    | some o => exact taskEntry_staged h o
  cases op with
  | readTask id => exact taskEntry_staged h id
  | createConversation id parent owner =>
    simp only [TxOp.run]
    cases hs : (owner.elim tx tx.taskEntry).createConversation id parent owner with
    | none => exact htouch owner
    | some tx' => exact createConversation_staged (htouch owner) id parent owner tx' hs
  | createTask options =>
    simp only [TxOp.run]
    cases hs : (options.owner.elim tx tx.taskEntry).createTask options with
    | none => exact htouch options.owner
    | some tx' => exact createTask_staged (htouch options.owner) options tx' hs

end Tx

end PiAgent.Harness
