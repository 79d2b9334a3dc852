import PiAgent.Harness.TaskGraphProofs

/-! # A task graph over a run -/

namespace PiAgent.Harness.TaskGraph

open List Durable Delta Sorted

/-! ## Commits of a Session -/

structure Committed where
  commit : PreparedCommit
  changes : List Change

def Owned (s : State) : Prop :=
  ∀ id record owner, s.conversations id = some record → record.owner = some owner → ∃ task, s.tasks owner.taskId = some task

/-- A commit of a transaction: it writes each task once and no ended one again, and the owner of a new conversation is
stored with it. Its changes come in any order. -/
structure Publishes (s : State) (c : Committed) : Prop where
  accepted : Accepted s c.commit
  tasks : (changedTasks c.changes).Perm (tasksOf c.commit.writes)
  conversations : (changedConversations c.changes).Perm (conversationsOf c.commit.writes)
  once : ((tasksOf c.commit.writes).map TaskRecord.id).Nodup
  live : ∀ record ∈ tasksOf c.commit.writes, ∀ old, s.tasks record.id = some old → isTerminal old = false
  owners : ∀ record ∈ conversationsOf c.commit.writes, ∀ owner, record.owner = some owner →
    ∃ task, (s.applyPreparedCommit c.commit).tasks owner.taskId = some task

section Commit

variable (s : State) (hs : Sound s) (ho : Owned s) (c : Committed) (h : Publishes s c)

include hs ho in
theorem owned_none (id : Id) (hnone : s.tasks id = none) : s.conversationIdsByOwnerTask id = [] := by
  rw [eq_nil_iff_forall_not_mem]
  intro other hmem
  obtain ⟨record, hrecord, howner⟩ := ((hs.indexed.byOwnerTask id).exact other).mp hmem
  obtain ⟨owner, hsome, rfl⟩ := Option.map_eq_some_iff.mp howner
  obtain ⟨task, htask⟩ := ho other record owner hrecord hsome
  rw [hnone] at htask
  cases htask

include h

theorem commit_tasks (id : Id) : (s.applyPreparedCommit c.commit).tasks id =
    (writtenAt TaskRecord.id (tasksOf c.commit.writes) id).or (s.tasks id) := by
  have htables := (applyActions_tables c.commit.seq c.commit.actions
    (c.commit.writes.foldl (fun s write => s.applyWrite c.commit.seq write) s)).1
  have hwrites := (applyWrites_tables c.commit.seq c.commit.writes s).1
  rw [← fold_update TaskRecord.id _ h.once, ← hwrites]
  exact congrFun htables id

theorem commit_conversations (id : Id) : (s.applyPreparedCommit c.commit).conversations id =
    (writtenAt ConversationRecord.id (conversationsOf c.commit.writes) id).or (s.conversations id) := by
  have htables := (applyActions_tables c.commit.seq c.commit.actions
    (c.commit.writes.foldl (fun s write => s.applyWrite c.commit.seq write) s)).2
  have hwrites := (applyWrites_tables c.commit.seq c.commit.writes s).2
  have honce := (conversations_once s (fun _ => none) c.commit.writes h.accepted.globalIds).1
  rw [← fold_update ConversationRecord.id _ honce, ← hwrites]
  exact congrFun htables id

theorem commit_sound (hs : Sound s) : Sound (s.applyPreparedCommit c.commit) :=
  (applyPreparedCommit_applied s c.commit hs h.accepted).sound

theorem commit_task_stays (id : Id) (task : TaskRecord) (htask : s.tasks id = some task) :
    ∃ task, (s.applyPreparedCommit c.commit).tasks id = some task := by
  rw [commit_tasks s c h, htask]
  cases writtenAt TaskRecord.id (tasksOf c.commit.writes) id with
  | none => exact ⟨task, rfl⟩
  | some written => exact ⟨written, rfl⟩

theorem commit_owned (ho : Owned s) : Owned (s.applyPreparedCommit c.commit) := by
  intro id record owner hrecord howner
  have honce := (conversations_once s (fun _ => none) c.commit.writes h.accepted.globalIds).1
  rw [commit_conversations s c h] at hrecord
  cases hwritten : writtenAt ConversationRecord.id (conversationsOf c.commit.writes) id with
  | none =>
    rw [hwritten, Option.none_or] at hrecord
    obtain ⟨task, htask⟩ := ho id record owner hrecord howner
    exact commit_task_stays s c h owner.taskId task htask
  | some written =>
    rw [hwritten, Option.some_or] at hrecord
    obtain rfl := Option.some.inj hrecord
    exact h.owners written ((writtenAt_eq_some _ _ honce _ _).mp hwritten).1 owner howner

include hs

theorem commit_ownedIds (taskId : Id) :
    sortIds (s.conversationIdsByOwnerTask taskId ++ newOwned (changedConversations c.changes) taskId) =
      (s.applyPreparedCommit c.commit).conversationIdsByOwnerTask taskId := by
  obtain ⟨honce, hfresh⟩ := conversations_once s (fun _ => none) c.commit.writes h.accepted.globalIds
  have hindex := hs.indexed.byOwnerTask taskId
  have hindex' := (commit_sound s c h hs).indexed.byOwnerTask taskId
  have hnew : ∀ id, id ∈ newOwned (changedConversations c.changes) taskId ↔
      ∃ record ∈ conversationsOf c.commit.writes, record.owner.map Owner.taskId = some taskId ∧ record.id = id := by
    intro id
    unfold newOwned
    simp only [mem_map, mem_filter, decide_eq_true_eq, and_assoc]
    exact exists_congr (fun record => and_congr_left (fun _ => h.conversations.mem_iff))
  have hnone : ∀ record ∈ conversationsOf c.commit.writes, s.conversations record.id = none := by
    intro record hmem
    refine absent s.recordTypes s.conversations .conversation record.id ?_ hs.tables.conversation
    rw [(hfresh record hmem).1]
    simp
  have hnodup : (newOwned (changedConversations c.changes) taskId).Nodup := by
    have hids : ((changedConversations c.changes).map ConversationRecord.id).Nodup :=
      (h.conversations.map ConversationRecord.id).nodup_iff.mpr honce
    exact List.Nodup.sublist (List.Sublist.map _ filter_sublist) hids
  refine sortIds_eq _ _ hindex'.ascending ?_ ?_
  · refine nodup_append.mpr ⟨hindex.ascending.imp ne_of_lt, hnodup, ?_⟩
    rintro id hid other hother rfl
    obtain ⟨record, hrecord, -⟩ := (hindex.exact id).mp hid
    obtain ⟨new, hmem, -, rfl⟩ := (hnew id).mp hother
    rw [hnone new hmem] at hrecord
    cases hrecord
  · intro id
    rw [mem_append, hindex.exact, hindex'.exact, hnew, commit_conversations s c h]
    constructor
    · rintro (⟨record, hrecord, howner⟩ | ⟨record, hmem, howner, rfl⟩)
      · have hwritten : writtenAt ConversationRecord.id (conversationsOf c.commit.writes) id = none := by
          refine (writtenAt_eq_none _ _ _).mpr (fun new hmem heq => ?_)
          have hfree := hnone new hmem
          rw [heq, hrecord] at hfree
          cases hfree
        rw [hwritten]
        exact ⟨record, hrecord, howner⟩
      · rw [(writtenAt_eq_some _ _ honce _ record).mpr ⟨hmem, rfl⟩]
        exact ⟨record, rfl, howner⟩
    · rintro ⟨record, hrecord, howner⟩
      cases hwritten : writtenAt ConversationRecord.id (conversationsOf c.commit.writes) id with
      | none =>
        rw [hwritten, Option.none_or] at hrecord
        exact Or.inl ⟨record, hrecord, howner⟩
      | some written =>
        rw [hwritten, Option.some_or] at hrecord
        obtain rfl := Option.some.inj hrecord
        obtain ⟨hmem, hid⟩ := (writtenAt_eq_some _ _ honce _ _).mp hwritten
        exact Or.inr ⟨written, hmem, howner, hid⟩

include ho in
theorem advance_shows (graph : Graph) (hshows : Shows s graph) :
    FitAll graph (advance graph c.changes).2 ∧ Shows (s.applyPreparedCommit c.commit) (advance graph c.changes).1 := by
  have honce : ((changedTasks c.changes).map TaskRecord.id).Nodup := (h.tasks.map TaskRecord.id).nodup_iff.mpr h.once
  have hpassed := passed_changes s graph hshows c.changes (owned_none s hs ho)
    (fun record hmem => h.live record (h.tasks.mem_iff.mp hmem)) honce
  unfold advance
  dsimp only
  generalize c.changes.foldl (advanceChange graph) ⟨[], []⟩ = progress at hpassed ⊢
  have hcollected := collected_changes graph progress.changed c.changes
  generalize c.changes.foldl (addCreated graph progress.changed) [] = created at hcollected ⊢
  obtain ⟨hfits, hget⟩ := setConversations_all graph progress.changed (applyGraphOps graph progress.ops) hpassed.applied
    created hcollected.nodup (applyGraphOps graph progress.ops) (fun _ _ => rfl) (fun key hmem => by
      obtain ⟨ids, hids⟩ := Option.ne_none_iff_exists'.mp (fun hnone => (Assoc.get?_eq_none_iff _ _).mp hnone hmem)
      obtain ⟨node, id, hnode, rfl⟩ := hcollected.node key ids hids
      exact ⟨keyOf_safe id, node, hnode⟩)
  rw [← applyGraphOps_append] at hget
  refine ⟨(fitAll_append _ _ _).mpr ⟨hpassed.fits, hfits⟩, ?_, ?_⟩
  · intro id
    -- the node before its new conversations is that of the new record
    have hmid : nodeAt graph progress.changed (keyOf id) =
        ((s.applyPreparedCommit c.commit).tasks id).bind (fun record =>
          if isTerminal record then none else some (nodeOf record (s.conversationIdsByOwnerTask id))) := by
      rw [hpassed.node, shownAfter, writtenAt_perm _ _ _ h.tasks honce, commit_tasks s c h]
      cases writtenAt TaskRecord.id (tasksOf c.commit.writes) id <;> rfl
    have hnew := hcollected.ids id
    have howned := commit_ownedIds s hs c h id
    rw [hget, hpassed.applied, hmid]
    unfold shown
    cases hrecord : (s.applyPreparedCommit c.commit).tasks id with
    | none => cases Assoc.get? created (keyOf id) <;> rfl
    | some record =>
      rw [hrecord, Option.bind_some] at hmid
      cases hterminal : isTerminal record with
      | true =>
        simp only [Option.bind_some, hterminal, if_true]
        cases Assoc.get? created (keyOf id) <;> rfl
      | false =>
        simp only [hterminal, Bool.false_eq_true, if_false] at hmid
        rw [hmid, if_neg (by simp)] at hnew
        simp only [Option.bind_some, hterminal, Bool.false_eq_true, if_false]
        cases hids : Assoc.get? created (keyOf id) with
        | none =>
          rw [hids, Option.getD_none] at hnew
          rw [← hnew, append_nil, sortIds_sorted _ (hs.indexed.byOwnerTask id).ascending] at howned
          dsimp only
          rw [howned]
        | some ids =>
          rw [hids, Option.getD_some] at hnew
          rw [← hnew] at howned
          dsimp only [Option.map_some, nodeOf]
          rw [howned]
  · intro key node hnode
    rw [hget] at hnode
    cases hids : Assoc.get? created key with
    | none =>
      rw [hids] at hnode
      dsimp only at hnode
      rw [hpassed.applied] at hnode
      exact hpassed.key key node hnode
    | some ids =>
      obtain ⟨-, id, -, hkey⟩ := hcollected.node key ids hids
      exact ⟨id, hkey⟩

end Commit

/-! ## Runs -/

structure World where
  store : State
  graph : Graph

def World.step (w : World) (c : Committed) : World × List GraphOp :=
  (⟨w.store.applyPreparedCommit c.commit, (advance w.graph c.changes).1⟩, (advance w.graph c.changes).2)

def taskGraphView (start : World) : Machine World Committed (List GraphOp) where
  start := start
  step := World.step

structure Good (w : World) : Prop where
  sound : Sound w.store
  owned : Owned w.store
  shows : Shows w.store w.graph

theorem good_step (w : World) (c : Committed) (h : Good w) (hc : Publishes w.store c) : Good (w.step c).1 :=
  ⟨commit_sound w.store c hc h.sound, commit_owned w.store c hc h.owned,
    (advance_shows w.store h.sound h.owned c hc w.graph h.shows).2⟩

def Rebuilds (w : World) : Prop := SameGraph w.graph (build w.store)

def Replays (w : World) (c : Committed) : Prop :=
  Delta.apply (graphJson w.graph) ((w.step c).2.map GraphOp.op) = .ok (graphJson (w.step c).1.graph)

/-- From a built graph on, after every commit the graph is the one that would be built, and its operations lead there. -/
theorem taskGraph_agrees (s : State) (hs : Sound s) (ho : Owned s) (commits : List Committed)
    (h : (taskGraphView ⟨s, build s⟩).Allowed (fun w c => Publishes w.store c) ⟨s, build s⟩ commits) :
    (taskGraphView ⟨s, build s⟩).Always Rebuilds ⟨s, build s⟩ commits ∧
    ∀ before c after, commits = before ++ c :: after →
      Replays ((taskGraphView ⟨s, build s⟩).runFrom ⟨s, build s⟩ before) c := by
  have hgood : Good ⟨s, build s⟩ := ⟨hs, ho, build_shows s hs⟩
  have halways := (taskGraphView ⟨s, build s⟩).always_of_allowed (fun w c hw hc => good_step w c hw hc) hgood h
  refine ⟨halways.mono (fun w hw => shows_same w.store w.graph _ hw.shows (build_shows w.store hw.sound)), ?_⟩
  intro before c after hsplit
  subst hsplit
  have hnow := halways.at
  exact apply_graph _ _ (advance_shows _ hnow.sound hnow.owned c h.at _ hnow.shows).1

/-! ## A task that starts with a conversation -/

def startedTask (state : TaskState) : TaskRecord :=
  { id := 3, conversationId := 2, kind := js "work", version := 1, owner := none, background := false
    abortRequested := false, restart := false, abandonOnRestart := false, state := state, body := .null }

def rootConversation : ConversationRecord := ⟨2, none, none⟩

def ownedConversation (id : Id) : ConversationRecord := ⟨id, none, some ⟨2, 3⟩⟩

def startCommit : Committed where
  commit := ⟨1, [.conversation rootConversation, .task (startedTask (.pending .null)), .conversation (ownedConversation 4)], []⟩
  changes := [.conversation (ownedConversation 4), .other, .task (startedTask (.pending .null)), .conversation rootConversation]

theorem startCommit_publishes : Publishes State.empty startCommit := by
  have haccepted : Accepted State.empty startCommit.commit :=
    (prepareCommit_accepted State.empty startCommit.commit.writes 1 startCommit.commit rfl).1
  refine ⟨haccepted, List.Perm.refl _, List.Perm.swap _ _ _, nodup_singleton _, ?_, ?_⟩
  · intro record _ old hold
    cases hold
  · intro record hmem owner howner
    rcases mem_cons.mp hmem with rfl | hmem
    · cases howner
    · obtain rfl := mem_singleton.mp hmem
      obtain rfl := Option.some.inj howner
      exact ⟨startedTask (.pending .null), rfl⟩

def startedWorld : World := (World.step ⟨State.empty, build State.empty⟩ startCommit).1

/-- The task ends, and another conversation of it is made. -/
def endCommit : Committed where
  commit := ⟨2, [.conversation (ownedConversation 5), .task (startedTask (.terminal ⟨.completed, .null⟩))], []⟩
  changes := [.task (startedTask (.terminal ⟨.completed, .null⟩)), .conversation (ownedConversation 5)]

theorem endCommit_publishes : Publishes startedWorld.store endCommit := by
  have haccepted : Accepted startedWorld.store endCommit.commit :=
    (prepareCommit_accepted startedWorld.store endCommit.commit.writes 2 endCommit.commit rfl).1
  refine ⟨haccepted, List.Perm.refl _, List.Perm.refl _, nodup_singleton _, ?_, ?_⟩
  · intro record hmem old hold
    obtain rfl := mem_singleton.mp hmem
    obtain rfl := Option.some.inj hold
    rfl
  · intro record hmem owner howner
    obtain rfl := mem_singleton.mp hmem
    obtain rfl := Option.some.inj howner
    exact ⟨startedTask (.terminal ⟨.completed, .null⟩), rfl⟩

theorem taskGraph_agrees_started :
    (taskGraphView ⟨State.empty, build State.empty⟩).Always Rebuilds ⟨State.empty, build State.empty⟩
      [startCommit, endCommit] ∧
    Replays startedWorld endCommit := by
  obtain ⟨halways, hreplays⟩ := taskGraph_agrees State.empty empty_invariant.sound (fun _ _ _ h => by cases h)
    [startCommit, endCommit] ⟨startCommit_publishes, endCommit_publishes, trivial⟩
  exact ⟨halways, hreplays [startCommit] endCommit [] rfl⟩

end PiAgent.Harness.TaskGraph
