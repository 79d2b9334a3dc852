import PiAgent.Harness.TaskGraphStorage

/-! # A task graph follows its storage -/

namespace PiAgent.Harness.TaskGraph

open List Assoc Durable Delta Sorted

/-! ## Nodes with one text -/

/-! ## Operations on the JSON of a graph -/

def GraphOp.key : GraphOp → JsString
  | .delete key => key
  | .set key _ => key
  | .setConversations key _ => key

def Fits (graph : Graph) (op : GraphOp) : Prop :=
  op.key ∉ reservedSegments ∧ ∀ key conversations, op = .setConversations key conversations →
    ∃ node, get? graph key = some node

def tasksPlace : Place := [.field [] (js "tasks") []]

theorem tasksPlace_ok : tasksPlace.Ok := by
  intro frame hframe
  rw [mem_singleton.mp hframe]
  exact ⟨not_mem_nil, by decide⟩

variable (graph : Graph)

theorem nodesJson_set (key : JsString) (node : TaskGraphNode) :
    nodesJson (Assoc.set graph key node) = Assoc.set (nodesJson graph) key (nodeJson node) := by
  induction graph with
  | nil => rfl
  | cons entry graph ih =>
    obtain ⟨k, v⟩ := entry
    unfold nodesJson at ih ⊢
    simp only [Assoc.set, map_cons]
    split
    · rfl
    · rw [map_cons, ih]

theorem nodesJson_del (key : JsString) : nodesJson (Assoc.del graph key) = Assoc.del (nodesJson graph) key := by
  unfold nodesJson Assoc.del
  rw [filter_map]
  rfl

theorem nodeFields_conversations (node : TaskGraphNode) : js "conversations" ∉ Assoc.keys (nodeFields node) := by
  unfold nodeFields Assoc.keys
  cases node.owner <;> simp <;> decide

theorem applyOp_graph (op : GraphOp) (h : Fits graph op) :
    applyOp (graphJson graph) op.op = .ok (graphJson (applyGraphOp graph op)) := by
  obtain ⟨hkey, hnode⟩ := h
  cases op with
  | delete key =>
    have happly := applyOp_deleteProperty tasksPlace tasksPlace_ok (nodesJson graph) key hkey
    rw [← nodesJson_del] at happly
    exact happly
  | set key node =>
    have happly := applyOp_setProperty tasksPlace tasksPlace_ok (nodesJson graph) key (nodeJson node) hkey
    rw [← nodesJson_set] at happly
    exact happly
  | setConversations key conversations =>
    obtain ⟨node, hget⟩ := hnode key conversations rfl
    obtain ⟨before, after, rfl, hbefore⟩ := exists_split graph key node hget
    have hnodes : ∀ node, nodesJson (before ++ (key, node) :: after) =
        nodesJson before ++ (key, nodeJson node) :: nodesJson after := by
      intro node
      unfold nodesJson
      rw [map_append, map_cons]
    have hkeys : key ∉ Assoc.keys (nodesJson before) := by
      unfold nodesJson Assoc.keys at *
      simpa using hbefore
    have hplace : Place.Ok (tasksPlace ++ [.field (nodesJson before) key (nodesJson after)]) :=
      (Place.ok_append _ _).mpr ⟨tasksPlace_ok, (Place.ok_singleton _).mpr ⟨hkeys, hkey⟩⟩
    have happly := applyOp_setProperty _ hplace (nodeFields node ++ [(js "conversations", idsJson node.conversations)])
      (js "conversations") (idsJson conversations) (by decide)
    rw [Assoc.set_middle (nodeFields node) [] _ (idsJson node.conversations) (idsJson conversations)
      (nodeFields_conversations node)] at happly
    have hafter : applyGraphOp (before ++ (key, node) :: after) (.setConversations key conversations) =
        before ++ (key, { node with conversations := conversations }) :: after := by
      simp only [applyGraphOp, hget]
      exact Assoc.set_middle before after key node _ hbefore
    rw [hafter]
    unfold graphJson
    rw [hnodes, hnodes]
    exact happly

def FitAll : Graph → List GraphOp → Prop
  | _, [] => True
  | graph, op :: ops => Fits graph op ∧ FitAll (applyGraphOp graph op) ops

theorem fitAll_append (a b : List GraphOp) :
    FitAll graph (a ++ b) ↔ FitAll graph a ∧ FitAll (applyGraphOps graph a) b := by
  induction a generalizing graph with
  | nil => simp [FitAll, applyGraphOps]
  | cons op a ih =>
    have hrest := ih (applyGraphOp graph op)
    rw [cons_append]
    show Fits graph op ∧ FitAll (applyGraphOp graph op) (a ++ b) ↔ (Fits graph op ∧ FitAll (applyGraphOp graph op) a) ∧ _
    rw [hrest, and_assoc]
    rfl

theorem applyGraphOps_append (a b : List GraphOp) :
    applyGraphOps graph (a ++ b) = applyGraphOps (applyGraphOps graph a) b := foldl_append

theorem apply_graph (ops : List GraphOp) (h : FitAll graph ops) :
    Delta.apply (graphJson graph) (ops.map GraphOp.op) = .ok (graphJson (applyGraphOps graph ops)) := by
  induction ops generalizing graph with
  | nil => rfl
  | cons op ops ih =>
    rw [map_cons, apply_cons _ _ _ _ (applyOp_graph graph op h.1)]
    exact ih _ h.2

/-! ## The tasks of a publication -/

def changedTasks (changes : List Change) : List TaskRecord :=
  changes.filterMap fun
    | .task value => some value
    | _ => none

def changedConversations (changes : List Change) : List ConversationRecord :=
  changes.filterMap fun
    | .conversation value => some value
    | _ => none

section Tasks

variable (s : State) (graph : Graph)

def shownAfter (written : List TaskRecord) (id : Id) : Option TaskGraphNode :=
  match writtenAt TaskRecord.id written id with
  | some record => if isTerminal record then none else some (nodeOf record (s.conversationIdsByOwnerTask id))
  | none => shown s id

structure Passed (written : List TaskRecord) (progress : Progress) : Prop where
  fits : FitAll graph progress.ops
  applied : ∀ key, get? (applyGraphOps graph progress.ops) key = nodeAt graph progress.changed key
  node : ∀ id, nodeAt graph progress.changed (keyOf id) = shownAfter s written id
  key : ∀ key node, nodeAt graph progress.changed key = some node → ∃ id, key = keyOf id

theorem nodeAt_set (changed : List (JsString × Option TaskGraphNode)) (key : JsString) (entry : Option TaskGraphNode)
    (k : JsString) : nodeAt graph (Assoc.set changed key entry) k = if key = k then entry else nodeAt graph changed k := by
  unfold nodeAt
  rw [get?_set]
  by_cases h : key = k
  · rw [if_pos h, if_pos h]
  · rw [if_neg h, if_neg h]

theorem writtenAt_snoc (written : List TaskRecord) (record : TaskRecord) (hnew : ∀ r ∈ written, r.id ≠ record.id) (id : Id) :
    writtenAt TaskRecord.id (written ++ [record]) id =
      if record.id = id then some record else writtenAt TaskRecord.id written id := by
  unfold writtenAt
  rw [find?_append]
  by_cases h : record.id = id
  · have hnone : written.find? (fun a => decide (a.id = id)) = none := by
      rw [find?_eq_none]
      intro r hr
      simpa [← h] using hnew r hr
    rw [hnone, if_pos h, find?_cons_of_pos (by simpa using h)]
    rfl
  · rw [if_neg h, find?_cons_of_neg (by simpa using h)]
    simp

theorem passed_task (written : List TaskRecord) (progress : Progress) (record : TaskRecord)
    (howned : s.tasks record.id = none → s.conversationIdsByOwnerTask record.id = [])
    (hlive : ∀ old, s.tasks record.id = some old → isTerminal old = false) (hnew : ∀ r ∈ written, r.id ≠ record.id)
    (h : Passed s graph written progress) :
    Passed s graph (written ++ [record]) (advanceTask graph progress record) := by
  have hprevious : nodeAt graph progress.changed (keyOf record.id) = shown s record.id := by
    rw [h.node, shownAfter, (writtenAt_eq_none _ _ _).mpr hnew]
  -- every other node stays
  have hnode : ∀ entry, entry = (if isTerminal record then none else
      some (nodeOf record (s.conversationIdsByOwnerTask record.id))) → ∀ id,
      (if record.id = id then entry else nodeAt graph progress.changed (keyOf id)) =
        shownAfter s (written ++ [record]) id := by
    intro entry hentry id
    rw [shownAfter, writtenAt_snoc written record hnew]
    by_cases hid : record.id = id
    · subst hid
      rw [if_pos rfl, if_pos rfl, hentry]
    · rw [if_neg hid, if_neg hid, h.node, shownAfter]
  have hkeys : ∀ entry id, (if keyOf record.id = keyOf id then entry else nodeAt graph progress.changed (keyOf id)) =
      (if record.id = id then entry else nodeAt graph progress.changed (keyOf id)) := by
    intro entry id
    by_cases hid : record.id = id
    · rw [if_pos hid, if_pos (by rw [hid])]
    · rw [if_neg hid, if_neg (fun heq => hid (keyOf_injective heq))]
  have hstay : ∀ entry, entry = (if isTerminal record then none else
      some (nodeOf record (s.conversationIdsByOwnerTask record.id))) → nodeAt graph progress.changed (keyOf record.id) = entry →
      Passed s graph (written ++ [record]) progress := by
    intro entry hentry hsame
    refine ⟨h.fits, h.applied, ?_, h.key⟩
    intro id
    rw [← hnode entry hentry id]
    by_cases hid : record.id = id
    · subst hid
      rw [if_pos rfl, hsame]
    · rw [if_neg hid]
  have hchange : ∀ (entry : Option TaskGraphNode) (op : GraphOp), entry = (if isTerminal record then none else
      some (nodeOf record (s.conversationIdsByOwnerTask record.id))) →
      Fits (applyGraphOps graph progress.ops) op →
      (∀ key, get? (applyGraphOp (applyGraphOps graph progress.ops) op) key =
        if keyOf record.id = key then entry else get? (applyGraphOps graph progress.ops) key) →
      Passed s graph (written ++ [record]) ⟨progress.ops ++ [op], Assoc.set progress.changed (keyOf record.id) entry⟩ := by
    intro entry op hentry hfits happlied
    refine ⟨(fitAll_append _ _ _).mpr ⟨h.fits, hfits, trivial⟩, ?_, ?_, ?_⟩
    · intro key
      rw [applyGraphOps_append, nodeAt_set, ← h.applied]
      exact happlied key
    · intro id
      rw [nodeAt_set, hkeys, hnode entry hentry]
    · intro key node hget
      rw [nodeAt_set] at hget
      by_cases hkey : keyOf record.id = key
      · exact ⟨record.id, hkey.symm⟩
      · rw [if_neg hkey] at hget
        exact h.key key node hget
  unfold advanceTask
  dsimp only
  cases hterminal : isTerminal record with
  | true =>
    simp only [if_true]
    by_cases hnone : nodeAt graph progress.changed (keyOf record.id) = none
    · rw [if_pos hnone]
      exact hstay none (by rw [hterminal]; rfl) hnone
    · rw [if_neg hnone]
      refine hchange none (.delete (keyOf record.id)) (by rw [hterminal]; rfl) ⟨keyOf_safe _, fun _ _ heq => by cases heq⟩ ?_
      intro key
      exact get?_del _ _ _
  | false =>
    simp only [Bool.false_eq_true, if_false]
    -- the conversations of the node are those the task owned before
    have hconversations : ((nodeAt graph progress.changed (keyOf record.id)).map TaskGraphNode.conversations).getD [] =
        s.conversationIdsByOwnerTask record.id := by
      rw [hprevious]
      unfold shown
      cases hold : s.tasks record.id with
      | none => exact (howned hold).symm
      | some old =>
        rw [Option.bind_some, hlive old hold]
        rfl
    rw [hconversations]
    have hentry : some (nodeOf record (s.conversationIdsByOwnerTask record.id)) =
        (if isTerminal record then none else some (nodeOf record (s.conversationIdsByOwnerTask record.id))) := by
      rw [hterminal]
      rfl
    by_cases hsame : nodeAt graph progress.changed (keyOf record.id) =
        some (nodeOf record (s.conversationIdsByOwnerTask record.id))
    · rw [if_pos hsame]
      exact hstay _ hentry hsame
    · rw [if_neg hsame]
      refine hchange _ (.set (keyOf record.id) _) hentry ⟨keyOf_safe _, fun _ _ heq => by cases heq⟩ ?_
      intro key
      exact get?_set _ _ _ _

theorem passed_changes (hshows : Shows s graph) (changes : List Change)
    (howned : ∀ id, s.tasks id = none → s.conversationIdsByOwnerTask id = [])
    (hlive : ∀ record ∈ changedTasks changes, ∀ old, s.tasks record.id = some old → isTerminal old = false)
    (honce : ((changedTasks changes).map TaskRecord.id).Nodup) :
    Passed s graph (changedTasks changes) (changes.foldl (advanceChange graph) ⟨[], []⟩) := by
  induction changes using List.reverseRecOn with
  | nil =>
    refine ⟨trivial, fun _ => rfl, ?_, hshows.key⟩
    intro id
    exact hshows.node id
  | append_singleton changes change ih =>
    rw [foldl_append, foldl_cons, foldl_nil]
    have hsplit : changedTasks (changes ++ [change]) = changedTasks changes ++ changedTasks [change] :=
      filterMap_append
    rw [hsplit] at hlive honce ⊢
    rw [map_append, nodup_append] at honce
    have hbefore := ih (fun record hmem => hlive record (mem_append_left _ hmem)) honce.1
    cases change with
    | task record =>
      refine passed_task s graph _ _ record (howned record.id) (hlive record (mem_append_right _ mem_cons_self))
        ?_ hbefore
      intro r hr heq
      exact honce.2.2 r.id (mem_map_of_mem hr) record.id (mem_map_of_mem mem_cons_self) heq
    | conversation record =>
      rw [show changedTasks [.conversation record] = [] from rfl, append_nil]
      exact hbefore
    | other =>
      rw [show changedTasks [.other] = [] from rfl, append_nil]
      exact hbefore

end Tasks

/-! ## The conversations of a publication -/

section Conversations

variable (graph : Graph) (changed : List (JsString × Option TaskGraphNode))

def newOwned (conversations : List ConversationRecord) (taskId : Id) : List Id :=
  (conversations.filter (fun record => record.owner.map Owner.taskId = some taskId)).map ConversationRecord.id

structure Collected (conversations : List ConversationRecord) (created : List (JsString × List Id)) : Prop where
  nodup : (Assoc.keys created).Nodup
  node : ∀ key ids, get? created key = some ids → ∃ node id, nodeAt graph changed key = some node ∧ key = keyOf id
  ids : ∀ id, (get? created (keyOf id)).getD [] =
    if nodeAt graph changed (keyOf id) = none then [] else newOwned conversations id

section

variable (conversations : List ConversationRecord) (record : ConversationRecord) (taskId : Id)

theorem newOwned_other (h : record.owner.map Owner.taskId ≠ some taskId) :
    newOwned (conversations ++ [record]) taskId = newOwned conversations taskId := by
  unfold newOwned
  rw [filter_append, filter_cons_of_neg (by simpa using h), filter_nil, append_nil]

theorem newOwned_owner (h : record.owner.map Owner.taskId = some taskId) :
    newOwned (conversations ++ [record]) taskId = newOwned conversations taskId ++ [record.id] := by
  unfold newOwned
  rw [filter_append, filter_cons_of_pos (by simpa using h), map_append]
  rfl

end

theorem collected_changes (changes : List Change) :
    Collected graph changed (changedConversations changes) (changes.foldl (addCreated graph changed) []) := by
  induction changes using List.reverseRecOn with
  | nil =>
    refine ⟨nodup_nil, fun key ids h => (by cases h), fun id => ?_⟩
    split <;> rfl
  | append_singleton changes change ih =>
    rw [foldl_append, foldl_cons, foldl_nil]
    have hsplit : changedConversations (changes ++ [change]) =
        changedConversations changes ++ changedConversations [change] := filterMap_append
    rw [hsplit]
    generalize changes.foldl (addCreated graph changed) [] = created at ih ⊢
    cases change with
    | task record =>
      rw [show changedConversations [.task record] = [] from rfl, append_nil]
      exact ih
    | other =>
      rw [show changedConversations [.other] = [] from rfl, append_nil]
      exact ih
    | conversation record =>
      rw [show changedConversations [.conversation record] = [record] from rfl]
      cases howner : record.owner with
      | none =>
        simp only [addCreated, howner]
        refine ⟨ih.nodup, ih.node, fun id => ?_⟩
        rw [newOwned_other _ _ _ (by rw [howner]; simp)]
        exact ih.ids id
      | some owner =>
        simp only [addCreated, howner]
        have hskip : ∀ id, owner.taskId ≠ id →
            newOwned (changedConversations changes ++ [record]) id = newOwned (changedConversations changes) id :=
          fun id hid => newOwned_other _ _ _ (by rw [howner]; simpa using hid)
        by_cases hnode : nodeAt graph changed (keyOf owner.taskId) = none
        · rw [if_pos hnode]
          refine ⟨ih.nodup, ih.node, fun id => ?_⟩
          by_cases hid : owner.taskId = id
          · have hids := ih.ids id
            rw [← hid, if_pos hnode] at hids ⊢
            exact hids
          · rw [hskip id hid]
            exact ih.ids id
        · rw [if_neg hnode]
          refine ⟨nodup_keys_set _ _ _ ih.nodup, ?_, ?_⟩
          · intro key ids hget
            rw [get?_set] at hget
            by_cases hkey : keyOf owner.taskId = key
            · obtain ⟨node, hsome⟩ := Option.ne_none_iff_exists'.mp hnode
              exact ⟨node, owner.taskId, by rw [← hkey]; exact hsome, hkey.symm⟩
            · rw [if_neg hkey] at hget
              exact ih.node key ids hget
          · intro id
            rw [get?_set]
            by_cases hid : owner.taskId = id
            · subst hid
              rw [if_pos rfl, if_neg hnode, ih.ids, if_neg hnode, newOwned_owner _ _ _ (by rw [howner]; rfl)]
              rfl
            · rw [if_neg (fun heq => hid (keyOf_injective heq)), ih.ids, hskip id hid]

theorem setConversations_all (start : Graph) (hstart : ∀ key, get? start key = nodeAt graph changed key)
    (created : List (JsString × List Id)) (hnodup : (Assoc.keys created).Nodup) (current : Graph)
    (hcurrent : ∀ key ∈ Assoc.keys created, get? current key = get? start key)
    (hnode : ∀ key ∈ Assoc.keys created, key ∉ reservedSegments ∧ ∃ node, nodeAt graph changed key = some node) :
    FitAll current (created.map (conversationsOp graph changed)) ∧
    ∀ key, get? (applyGraphOps current (created.map (conversationsOp graph changed))) key =
      match get? created key with
      | none => get? current key
      | some ids => (get? start key).map
          (fun node => { node with conversations := sortIds (node.conversations ++ ids) }) := by
  induction created generalizing current with
  | nil => exact ⟨trivial, fun _ => rfl⟩
  | cons owned created ih =>
    obtain ⟨key, ids⟩ := owned
    rw [Assoc.keys, map_cons, nodup_cons] at hnodup
    obtain ⟨hsafe, node, hget⟩ := hnode key mem_cons_self
    have hnow : get? current key = some node := by
      rw [hcurrent key mem_cons_self, hstart, hget]
    have hop : conversationsOp graph changed (key, ids) = .setConversations key (sortIds (node.conversations ++ ids)) := by
      unfold conversationsOp
      rw [hget]
      rfl
    have hset : applyGraphOp current (conversationsOp graph changed (key, ids)) =
        Assoc.set current key { node with conversations := sortIds (node.conversations ++ ids) } := by
      rw [hop]
      simp only [applyGraphOp, hnow]
    have hother : ∀ k ∈ Assoc.keys created, key ≠ k := by
      rintro k hk rfl
      exact hnodup.1 hk
    obtain ⟨hfits, hrest⟩ := ih hnodup.2 (applyGraphOp current (conversationsOp graph changed (key, ids)))
      (fun k hk => by rw [hset, get?_set_ne _ _ _ _ (hother k hk), hcurrent k (mem_cons_of_mem _ hk)])
      (fun k hk => hnode k (mem_cons_of_mem _ hk))
    refine ⟨⟨⟨?_, ?_⟩, hfits⟩, ?_⟩
    · rw [hop]
      exact hsafe
    · intro k conversations heq
      rw [hop] at heq
      obtain ⟨rfl, -⟩ := GraphOp.setConversations.inj heq
      exact ⟨node, hnow⟩
    · intro k
      have hstep : applyGraphOps current (((key, ids) :: created).map (conversationsOp graph changed)) =
          applyGraphOps (applyGraphOp current (conversationsOp graph changed (key, ids)))
            (created.map (conversationsOp graph changed)) := rfl
      rw [hstep, hrest k, hset]
      by_cases hk : key = k
      · subst hk
        have hnone : get? created key = none := (get?_eq_none_iff _ _).mpr hnodup.1
        rw [hnone, get?_cons_self, get?_set_self, hstart, hget]
        rfl
      · rw [get?_cons_ne _ _ _ _ hk, get?_set_ne _ _ _ _ hk]

end Conversations

end PiAgent.Harness.TaskGraph
