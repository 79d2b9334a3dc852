import PiAgent.Harness.TransactionProofs
import PiAgent.Harness.OwnershipWalks
import PiAgent.Lib.Run

/-! # The index over whole runs -/

namespace PiAgent.Harness

open Option Function List Assoc Durable

/-! ## Runs of a transaction -/

namespace Tx

variable (tx : Tx)

theorem createConversation_eq (id : Id) (parent : Option Parent) (owner : Option Id) (tx' : Tx)
    (hs : tx.createConversation id parent owner = some tx') :
    ∃ record, tx' = { tx with conversations := tx.conversations ++ [(id, record)] } := by
  unfold createConversation at hs
  split at hs
  · simp at hs
  · split at hs
    · exact ⟨_, (some.inj hs).symm⟩
    · obtain ⟨_, -, rfl⟩ := map_eq_some_iff.mp hs
      exact ⟨_, rfl⟩

theorem createTask_eq (options : TaskOptions) (tx' : Tx) (hs : tx.createTask options = some tx') :
    ∃ conversationId, tx' = tx.setWrite options.id { kind := .create, record := newTask options conversationId } := by
  have hstage : ∀ c, tx.stageTask options c = some tx' →
      tx' = tx.setWrite options.id { kind := .create, record := newTask options c } := by
    intro c hc
    unfold stageTask at hc
    split at hc
    · simp at hc
    · exact (some.inj hc).symm
  unfold createTask at hs
  split at hs
  · obtain ⟨c, -, hs⟩ := bind_eq_some_iff.mp hs
    exact ⟨c, hstage c hs⟩
  · split at hs
    · simp at hs
    · split at hs
      · simp at hs
      · split at hs
        · simp at hs
        · exact ⟨_, hstage _ hs⟩

theorem run_induction {P : Tx → Prop} (hentry : ∀ tx id, P tx → P (tx.taskEntry id))
    (hconversation : ∀ tx id record, P tx → P { tx with conversations := tx.conversations ++ [(id, record)] })
    (htask : ∀ tx id record, P tx → P (tx.setWrite id { kind := .create, record := record })) (tx : Tx) (op : TxOp)
    (h : P tx) : P (op.run tx) := by
  have htouch : ∀ owner : Option Id, P (owner.elim tx tx.taskEntry) := by
    intro owner
    cases owner with
    | none => exact h
    | some o => exact hentry tx o h
  cases op with
  | readTask id => exact hentry tx id h
  | createConversation id parent owner =>
    simp only [TxOp.run]
    cases hs : (owner.elim tx tx.taskEntry).createConversation id parent owner with
    | none => exact htouch owner
    | some tx' =>
      obtain ⟨record, rfl⟩ := createConversation_eq _ id parent owner tx' hs
      exact hconversation _ id record (htouch owner)
  | createTask options =>
    simp only [TxOp.run]
    cases hs : (options.owner.elim tx tx.taskEntry).createTask options with
    | none => exact htouch options.owner
    | some tx' =>
      obtain ⟨c, rfl⟩ := createTask_eq _ options tx' hs
      exact htask _ options.id _ (htouch options.owner)

theorem run_store (op : TxOp) : (op.run tx).store = tx.store :=
  run_induction (P := fun t => t.store = tx.store) (fun t id h => (t.taskEntry_fields id).1.trans h)
    (fun _ _ _ h => h) (fun _ _ _ h => h) tx op rfl

def Creates (tx : Tx) : Prop := ∀ j w, tx.write j = some w → w.kind = .create

theorem run_creates (op : TxOp) (h : tx.Creates) : (op.run tx).Creates := by
  refine run_induction (P := Creates) ?_ (fun _ _ _ h => h) ?_ tx op h
  · intro t id ht j w hw
    exact ht j w (by rwa [taskEntry_write] at hw)
  · intro t id record ht j w hw
    rw [setWrite_write] at hw
    split at hw
    · rw [← some.inj hw]
    · exact ht j w hw

theorem runAll_creates (h : tx.Creates) (ops : List TxOp) : (tx.runAll ops).Creates := by
  induction ops generalizing tx with
  | nil => exact h
  | cons op ops ih => exact ih _ (run_creates tx op h)

theorem start_creates (store : Store) : (start store).Creates := by
  intro j w hw
  simp [start, write] at hw

variable {tx : Tx}

theorem runAll_staged (h : tx.Staged) (ops : List TxOp) : (tx.runAll ops).Staged := by
  induction ops generalizing tx with
  | nil => exact h
  | cons op ops ih => exact ih (run_staged h op)

variable (tx : Tx)

theorem runAll_store (ops : List TxOp) : (tx.runAll ops).store = tx.store := by
  induction ops generalizing tx with
  | nil => rfl
  | cons op ops ih => exact (ih (op.run tx)).trans (tx.run_store op)

def replaceOne (tx : Tx) (value : TaskRecord) : Tx :=
  if (tx.store.tasks value.id).any (fun old => nodeOf value = nodeOf old) then (tx.setTask value).getD tx else tx

theorem setTask_store (tx tx' : Tx) (value : TaskRecord) (h : tx.setTask value = some tx') : tx'.store = tx.store := by
  unfold setTask at h
  split at h
  · rw [← some.inj h]
    rfl
  · split at h
    · simp at h
    · rw [← some.inj h]
      rfl

variable {tx : Tx}

theorem replaceOne_staged (h : tx.Staged) (value : TaskRecord) : (tx.replaceOne value).Staged := by
  unfold replaceOne
  split
  · rename_i hany
    obtain ⟨old, hold, hnode⟩ := Option.any_eq_true _ _ |>.mp hany
    cases hs : tx.setTask value with
    | none => exact h
    | some tx' => exact setTask_staged h value old tx' hs hold (by simpa using hnode)
  · exact h

theorem replaceOne_store (tx : Tx) (value : TaskRecord) : (tx.replaceOne value).store = tx.store := by
  unfold replaceOne
  split
  · cases hs : tx.setTask value with
    | none => rfl
    | some tx' => exact tx.setTask_store tx' value hs
  · rfl

def replaceAll (tx : Tx) (values : List TaskRecord) : Tx := values.foldl replaceOne tx

theorem replaceAll_staged (h : tx.Staged) (values : List TaskRecord) : (tx.replaceAll values).Staged := by
  induction values generalizing tx with
  | nil => exact h
  | cons value values ih => exact ih (replaceOne_staged h value)

theorem replaceAll_store (tx : Tx) (values : List TaskRecord) : (tx.replaceAll values).store = tx.store := by
  induction values generalizing tx with
  | nil => rfl
  | cons value values ih => exact (ih (tx.replaceOne value)).trans (tx.replaceOne_store value)

/-! ## What a transaction publishes -/

theorem mem_writes (h : tx.Staged) (w : TaskWrite) (hw : w ∈ tx.writes) : tx.write w.record.id = some w := by
  obtain ⟨⟨j, o⟩, hmem, rfl⟩ := mem_filterMap.mp hw
  have hget : get? tx.tasksById j = some (some w) := get?_of_mem _ _ _ h.keys hmem
  have hwrite : tx.write j = some w := by simp [write, hget]
  rwa [h.id j w hwrite]

variable {j : Id}

theorem write_mem {w : TaskWrite} (h : tx.write j = some w) : w ∈ tx.writes := by
  rw [write, join_eq_some_iff] at h
  exact mem_filterMap.mpr ⟨(j, some w), mem_of_get? _ _ _ h, rfl⟩

theorem candidate_of_write {w : TaskWrite} (h : tx.write j = some w) : tx.candidate.tasks j = some w.record := by
  simp [candidate, currentTask, h]

theorem candidate_of_noWrite (h : tx.write j = none) : tx.candidate.tasks j = tx.store.tasks j := by
  simp [candidate, currentTask, h]

theorem candidate_node (h : tx.Staged) (j : Id) (old : TaskRecord) (hold : tx.store.tasks j = some old) :
    ∃ r, tx.candidate.tasks j = some r ∧ nodeOf r = nodeOf old := by
  cases hw : tx.write j with
  | none => exact ⟨old, (candidate_of_noWrite hw).trans hold, rfl⟩
  | some w =>
    refine ⟨w.record, candidate_of_write hw, ?_⟩
    cases hk : w.kind with
    | create => simp [(h.created j w hw hk).1] at hold
    | replace =>
      obtain ⟨old', hold', hn⟩ := h.replaced j w hw hk
      obtain rfl : old = old' := by simpa [hold] using hold'
      exact hn

theorem candidate_conversation (h : tx.Staged) (c : Id) (r : ConversationRecord)
    (hr : tx.store.conversations c = some r) : tx.candidate.conversations c = some r := by
  have hnone : get? tx.conversations c = none := by
    cases hg : get? tx.conversations c with
    | none => rfl
    | some r' => simp [(h.conversation c r' hg).2] at hr
  simp [candidate, currentConversation, hnone, hr]

theorem stagedTasks_nodup (h : tx.Staged) : (tx.stagedTasks.map TaskRecord.id).Nodup := by
  have hsub : (tx.stagedTasks.map TaskRecord.id).Sublist (keys tx.tasksById) := by
    have hid := h.id
    have hkeys := h.keys
    unfold stagedTasks writes write at *
    generalize tx.tasksById = l at hid hkeys ⊢
    induction l with
    | nil => exact List.Sublist.slnil
    | cons p l ih =>
      obtain ⟨j, o⟩ := p
      simp only [Assoc.keys, map_cons, nodup_cons] at hkeys
      have hrest : ∀ i w, (get? l i).join = some w → w.record.id = i := by
        intro i w hw
        refine hid i w ?_
        have hne : j ≠ i := by
          rintro rfl
          rw [(get?_eq_none_iff l j).mpr hkeys.1] at hw
          simp at hw
        simpa [get?, hne] using hw
      have ih' := ih hrest hkeys.2
      cases o with
      | none => simpa [filterMap_cons, Assoc.keys] using ih'.cons j
      | some w =>
        have hw : w.record.id = j := hid j w (by simp)
        simpa [filterMap_cons, Assoc.keys, hw] using ih'
  exact hsub.nodup h.keys

end Tx

/-! ## What a publication does to the index -/

namespace Ownership

variable {tx : Tx}

theorem Core.candidate (h : tx.Staged) {x : Ownership} (hx : Core tx.store x) : Core tx.candidate x := by
  refine { hx with node := ?_, edge := ?_ }
  · intro id n hn
    obtain ⟨r, hr, rfl⟩ := hx.node id n hn
    exact Tx.candidate_node h id r hr
  · intro c o ho
    obtain ⟨r, hr, rfl⟩ := hx.edge c o ho
    exact ⟨r, Tx.candidate_conversation h c r hr, rfl⟩

theorem Sound.candidate (h : tx.Staged) {x : Ownership} (hx : Sound tx.store x) : Sound tx.candidate x :=
  { hx with toCore := hx.toCore.candidate h }

variable {store : Store} {rank : Node → ℕ}

theorem trackEdges_sound (hg : store.Grounded rank) (values : List ConversationRecord)
    (hvalues : ∀ value ∈ values, store.conversations value.id = some value) (x : Ownership) (h : Sound store x) :
    let y := (values.map Change.conversation).foldl (fun x change => x.trackEdge store.count change) x
    Sound store y ∧ y.live = x.live ∧ y.settled = x.settled ∧ y.unloaded = x.unloaded ∧ Grows x y := by
  induction values generalizing x with
  | nil => exact ⟨h, rfl, rfl, rfl, fun _ _ hn => hn⟩
  | cons value values ih =>
    have hvalues' := fun v hv => hvalues v (mem_cons_of_mem _ hv)
    rw [map_cons, foldl_cons]
    by_cases hedge : (x.edges value.id).isSome = true
    · have hskip : x.trackEdge store.count (.conversation value) = x := by simp [trackEdge, hedge]
      rw [hskip]
      exact ih hvalues' x h
    · have hset : x.trackEdge store.count (.conversation value) = x.setEdge store.count value.id (ownerTask value) := by
        simp [trackEdge, hedge]
      rw [hset]
      have hnone : x.edges value.id = none := by simpa using hedge
      have hsound := setEdge_sound hg h value.id value (hvalues value mem_cons_self) hnone
      obtain ⟨hs, hl, hst, hu, hgrows⟩ := ih hvalues' _ hsound
      exact ⟨hs, hl.trans (by simp), hst.trans (x.setEdge_sameNodes _ _ _).settled, hu.trans (by simp),
        fun n p hn => hgrows n p (x.setEdge_grows _ _ _ hnone n p hn)⟩

variable (count : ℕ)

theorem trackEdge_tasks (values : List TaskRecord) (x : Ownership) :
    (values.map Change.task).foldl (fun x change => x.trackEdge count change) x = x := by
  induction values with
  | nil => rfl
  | cons value values ih => exact ih

theorem trackTask_conversations (values : List ConversationRecord) (x : Ownership) :
    (values.map Change.conversation).foldl (fun x change => x.trackTask count change) x = x := by
  induction values with
  | nil => rfl
  | cons value values ih => exact ih

def Trackable (x : Ownership) (r : TaskRecord) : Prop :=
  (x.live r.id).isSome = true ∨ (x.node r.id = none ∧ isTerminal r = false)

theorem track_sound (hg : store.Grounded rank) {x : Ownership} (h : Sound store x)
    (r : TaskRecord) (hr : store.tasks r.id = some r) (ht : x.Trackable r) : Sound store (x.track store.count r) := by
  unfold track
  split
  · rename_i hterminal
    rcases ht with hlive | ⟨-, hnot⟩
    · exact track_ended_sound hg h r hr hlive
    · simp [hterminal] at hnot
  · dsimp only
    split
    · rename_i old hold
      exact track_live_sound h r hr (by simp [hold])
    · rename_i hnone
      rcases ht with hlive | ⟨hnew, -⟩
      · simp [hnone] at hlive
      · exact track_new_sound hg h r hr hnew

theorem track_live (x : Ownership) (r : TaskRecord) :
    (x.track count r).live = update x.live r.id (if isTerminal r then none else some r) := by
  unfold track
  split
  · exact ((relist_sameNodes _ _ _).trans (dropIfUnneeded_sameNodes _ _)).live
  · dsimp only
    split
    · rfl
    · refine (relist_sameNodes _ _ _).live.trans ?_
      split <;> rfl

theorem track_settled_ne (x : Ownership) (r : TaskRecord) (j : Id) (hj : j ≠ r.id) :
    (x.track count r).settled j = x.settled j := by
  unfold track
  split
  · rw [((relist_sameNodes _ _ _).trans (dropIfUnneeded_sameNodes _ _)).settled]
    simp [retire, hj]
  · dsimp only
    split
    · rfl
    · rw [(relist_sameNodes _ _ _).settled]
      split <;> rfl

/-- The index while the tasks of a commit are tracked: `rest` are to come. -/
structure Untracked (store : Store) (x : Ownership) (rest : List TaskRecord) : Prop where
  sound : Sound store x
  nodup : (rest.map TaskRecord.id).Nodup
  stored : ∀ r ∈ rest, store.tasks r.id = some r
  trackable : ∀ r ∈ rest, x.Trackable r
  mirrored : ∀ id, id ∉ rest.map TaskRecord.id → ∀ r, x.live id = some r ↔ store.tasks id = some r ∧ isTerminal r = false

namespace Untracked

variable {x : Ownership} {r : TaskRecord} {rest : List TaskRecord}

theorem step (hg : store.Grounded rank) (h : Untracked store x (r :: rest)) :
    Untracked store (x.track store.count r) rest := by
  have hnodup := h.nodup
  rw [map_cons, nodup_cons] at hnodup
  have hne : ∀ v ∈ rest, v.id ≠ r.id := by
    intro v hv he
    exact hnodup.1 (he ▸ mem_map_of_mem hv)
  have hr := h.stored r mem_cons_self
  refine ⟨track_sound hg h.sound r hr (h.trackable r mem_cons_self), hnodup.2,
    fun v hv => h.stored v (mem_cons_of_mem _ hv), ?_, ?_⟩
  · intro v hv
    have hlive : (x.track store.count r).live v.id = x.live v.id := by
      rw [track_live, update_of_ne (hne v hv)]
    rcases h.trackable v (mem_cons_of_mem _ hv) with hl | ⟨hn, hnot⟩
    · exact Or.inl (by rw [← hl, ← hlive])
    · refine Or.inr ⟨?_, hnot⟩
      rw [node, hlive, track_settled_ne _ _ _ _ (hne v hv)]
      exact hn
  · intro id hid v
    rw [track_live]
    by_cases hv : id = r.id
    · subst hv
      rw [update_self, hr]
      cases hterm : isTerminal r with
      | true =>
        simp only [if_true, reduceCtorEq, Option.some.injEq, false_iff, not_and]
        rintro rfl
        simp [hterm]
      | false =>
        simp only [Bool.false_eq_true, if_false, Option.some.injEq]
        constructor
        · rintro rfl
          exact ⟨rfl, hterm⟩
        · exact And.left
    · rw [update_of_ne hv]
      refine h.mirrored id ?_ v
      rw [map_cons, mem_cons, not_or]
      exact ⟨hv, hid⟩

theorem mirrors (h : Untracked store x []) : Mirrors store x :=
  fun id r => h.mirrored id (by simp) r

theorem foldl (hg : store.Grounded rank) {values : List TaskRecord} (h : Untracked store x values) :
    Untracked store (values.foldl (fun x record => x.track store.count record) x) [] := by
  induction values generalizing x with
  | nil => exact h
  | cons value values ih => exact ih (h.step hg)

end Untracked

section

variable (h : tx.Staged) {x : Ownership} (hx : Sound tx.store x) (hm : Mirrors tx.store x) {changes : List Change}
    (hc : tx.assemble = some changes)
include h hx hm hc

/-- After the edges of a commit, its tasks are to be tracked. -/
theorem trackEdges_untracked :
    let y := changes.foldl (fun x change => x.trackEdge tx.candidate.count change) x
    Untracked tx.candidate y tx.stagedTasks ∧ y.live = x.live ∧ y.unloaded = x.unloaded ∧ Grows x y ∧
      changes = (tx.conversations.map Prod.snd).map Change.conversation ++ tx.stagedTasks.map Change.task := by
  unfold Tx.assemble at hc
  split at hc
  · rename_i hvalid
    rw [Bool.and_eq_true] at hvalid
    obtain ⟨rank, hg⟩ := h.grounded
    obtain rfl := some.inj hc
    have hmap : tx.conversations.map (fun c => Change.conversation c.2) =
        (tx.conversations.map Prod.snd).map Change.conversation := by simp
    dsimp only
    rw [hmap, foldl_append, trackEdge_tasks]
    obtain ⟨hs, hl, hst, hu, hgrows⟩ := trackEdges_sound hg (tx.conversations.map Prod.snd) (by
      intro value hvalue
      obtain ⟨⟨c, r⟩, hmem, rfl⟩ := mem_map.mp hvalue
      have hget := get?_of_mem _ _ _ h.conversationKeys hmem
      obtain ⟨hid, -⟩ := h.conversation c r hget
      simp [Tx.candidate, Tx.currentConversation, hid, hget]) x (hx.candidate h)
    refine ⟨⟨hs, Tx.stagedTasks_nodup h, ?_, ?_, ?_⟩, hl, hu, hgrows, rfl⟩
    · intro value hvalue
      obtain ⟨w, hw, rfl⟩ := mem_map.mp hvalue
      exact Tx.candidate_of_write (Tx.mem_writes h w hw)
    · intro value hvalue
      obtain ⟨w, hw, rfl⟩ := mem_map.mp hvalue
      have hwrite := Tx.mem_writes h w hw
      unfold Trackable
      rw [node, hl, hst]
      cases hk : w.kind with
      | create =>
        obtain ⟨hnone, hpending, -⟩ := h.created _ w hwrite hk
        refine Or.inr ⟨?_, by simp [isTerminal, hpending]⟩
        show x.node w.record.id = none
        by_contra hsome
        obtain ⟨nd, hnd⟩ := ne_none_iff_exists'.mp hsome
        obtain ⟨r, hr, -⟩ := hx.node _ nd hnd
        simp [hnone] at hr
      | replace =>
        refine Or.inl ?_
        have hall := all_eq_true.mp hvalid.2 w hw
        simp only [hk, bne_self_eq_false, Bool.false_or] at hall
        obtain ⟨old, hold, hok⟩ := Option.any_eq_true _ _ |>.mp hall
        rw [Bool.and_eq_true, Bool.not_eq_true'] at hok
        simp [(hm w.record.id old).mpr ⟨hold, hok.1⟩]
    · intro id hid r
      rw [hl, hm id r]
      have hnone : tx.write id = none := by
        cases hw : tx.write id with
        | none => rfl
        | some w =>
          refine absurd ?_ hid
          rw [← h.id id w hw]
          exact mem_map_of_mem (mem_map_of_mem (Tx.write_mem hw))
      rw [Tx.candidate_of_noWrite hnone]
  · simp at hc

theorem observe_sound : Sound tx.candidate (x.observe tx.candidate.count changes) ∧
    Mirrors tx.candidate (x.observe tx.candidate.count changes) := by
  obtain ⟨rank, hg⟩ := h.grounded
  obtain ⟨huntracked, -, -, -, hchanges⟩ := trackEdges_untracked h hx hm hc
  have htracked := huntracked.foldl hg
  unfold observe
  generalize changes.foldl (fun x change => x.trackEdge tx.candidate.count change) x = y at htracked
  rw [hchanges, foldl_append, trackTask_conversations, foldl_map]
  refine ⟨sweep_sound htracked.sound, ?_⟩
  intro id r
  rw [sweep_live]
  exact htracked.mirrors id r

end

end Ownership

end PiAgent.Harness
