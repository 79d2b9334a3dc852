import PiAgent.Harness.OwnershipFull

/-! # Walks with a commit's candidates -/

namespace PiAgent.Harness

open Function List Assoc Durable

/-! ## Owned work -/

def Store.Owned (store : Store) (o t : Id) : Prop :=
  ∃ r, store.tasks t = some r ∧ isTerminal r = false ∧ r.background = false ∧ store.Under (.task o) (parentOf r)

def Store.Live (store : Store) (id : Id) : Prop := ∃ r, store.tasks id = some r ∧ isTerminal r = false

/-! ## Candidates over a store -/

structure Overlay.Over (overlay : Overlay) (store candidate : Store) : Prop where
  keys : (keys overlay.tasks).Nodup
  task : ∀ id r, get? overlay.tasks id = some r → candidate.tasks id = some r
  otherTask : ∀ id, get? overlay.tasks id = none → candidate.tasks id = store.tasks id
  old : ∀ id r, get? overlay.tasks id = some r →
    store.tasks id = none ∨ ∃ r', store.tasks id = some r' ∧ isTerminal r' = false
  same : ∀ id r, store.tasks id = some r → ∃ r', candidate.tasks id = some r' ∧ nodeOf r' = nodeOf r
  edge : ∀ c o, get? overlay.edges c = some o → store.conversations c = none ∧ candidate.edge c = some o
  otherEdge : ∀ c, get? overlay.edges c = none → candidate.conversations c = store.conversations c

theorem overlayOf_over {tx : Tx} (h : tx.Staged)
    (hlive : ∀ w ∈ tx.writes, w.kind = .replace → ∃ r, tx.store.tasks w.record.id = some r ∧ isTerminal r = false) :
    (overlayOf tx).Over tx.store tx.candidate := by
  have hkeys : (keys (overlayOf tx).tasks).Nodup := by
    have := Tx.stagedTasks_nodup h
    simpa [overlayOf, Assoc.keys, comp_def] using this
  have hwrite : ∀ id r, get? (overlayOf tx).tasks id = some r → ∃ w, tx.write id = some w ∧ w.record = r := by
    intro id r hr
    have hmem := mem_of_get? _ _ _ hr
    simp only [overlayOf, Tx.stagedTasks, map_map, mem_map, comp_apply, Prod.mk.injEq] at hmem
    obtain ⟨w, hw, rfl, rfl⟩ := hmem
    exact ⟨w, Tx.mem_writes h w hw, rfl⟩
  refine ⟨hkeys, ?_, ?_, ?_, ?_, ?_, ?_⟩
  · intro id r hr
    obtain ⟨w, hw, rfl⟩ := hwrite id r hr
    exact Tx.candidate_of_write hw
  · intro id hnone
    refine Tx.candidate_of_noWrite ?_
    cases hw : tx.write id with
    | none => rfl
    | some w =>
      rw [get?_eq_none_iff] at hnone
      refine absurd ?_ hnone
      simp only [overlayOf, Tx.stagedTasks, Assoc.keys, map_map, mem_map, comp_apply]
      exact ⟨w, Tx.write_mem hw, h.id id w hw⟩
  · intro id r hr
    obtain ⟨w, hw, rfl⟩ := hwrite id r hr
    cases hk : w.kind with
    | create => exact Or.inl (h.created id w hw hk).1
    | replace =>
      have := hlive w (Tx.write_mem hw) hk
      rw [h.id id w hw] at this
      exact Or.inr this
  · exact fun id r hr => Tx.candidate_node h id r hr
  · intro c o ho
    simp only [overlayOf] at ho
    rw [get?_map] at ho
    obtain ⟨r, hr, rfl⟩ := Option.map_eq_some_iff.mp ho
    exact ⟨(h.conversation c r hr).2, by simp [Store.edge, Tx.candidate, Tx.currentConversation, hr]⟩
  · intro c hc
    simp only [overlayOf] at hc
    rw [get?_map, Option.map_eq_none_iff] at hc
    simp [Tx.candidate, Tx.currentConversation, hc]

theorem overlay_empty_over (store : Store) : Overlay.empty.Over store store := by
  refine ⟨?_, ?_, fun _ _ => rfl, ?_, fun id r hr => ⟨r, hr, rfl⟩, ?_, fun _ _ => rfl⟩
  · exact nodup_nil
  · intro id r h
    simp [Overlay.empty] at h
  · intro id r h
    simp [Overlay.empty] at h
  · intro c o h
    simp [Overlay.empty] at h

namespace Ownership

section Candidates

variable {store candidate : Store} {overlay : Overlay} {x : Ownership}

section

variable (ho : overlay.Over store candidate)
include ho

theorem record_candidate (hm : Mirrors store x) (id : Id) (r : TaskRecord) (h : x.record overlay id = some r) :
    candidate.tasks id = some r := by
  rcases Option.or_eq_some_iff.mp h with h | ⟨hnone, hl⟩
  · exact ho.task id r h
  · rw [ho.otherTask id hnone]
    exact ((hm id r).mp hl).1

theorem record_of_live (hm : Mirrors store x) (id : Id) (r : TaskRecord) (h : candidate.tasks id = some r)
    (ht : isTerminal r = false) : x.record overlay id = some r := by
  cases hg : get? overlay.tasks id with
  | some r' =>
    have := (ho.task id r' hg).symm.trans h
    obtain rfl := Option.some.inj this
    simp [record, hg]
  | none =>
    rw [ho.otherTask id hg] at h
    simp [record, hg, (hm id r).mpr ⟨h, ht⟩]

theorem nodeIn_candidate (hx : Core store x) (hm : Mirrors store x) (id : Id) (nd : TaskNode)
    (h : x.nodeIn overlay id = some nd) : candidate.node id = some nd := by
  rcases Option.or_eq_some_iff.mp h with h | ⟨hnone, hs⟩
  · obtain ⟨r, hr, rfl⟩ := Option.map_eq_some_iff.mp h
    simp [Store.node, record_candidate ho hm id r hr]
  · rw [Option.map_eq_none_iff, record, Option.or_eq_none_iff] at hnone
    obtain ⟨r, hr, rfl⟩ := hx.node id nd (by simp [node, hnone.2, hs])
    simp [Store.node, ho.otherTask id hnone.1, hr]

theorem edge_candidate (hx : Core store x) (c : Id) (o : Option Id) (h : x.edge overlay c = some o) :
    candidate.edge c = some o := by
  rcases Option.or_eq_some_iff.mp h with h | ⟨hnone, he⟩
  · exact (ho.edge c o h).2
  · obtain ⟨r, hr, rfl⟩ := hx.edge c o he
    simp [Store.edge, ho.otherEdge c hnone, hr]

end

theorem up_of_node {store : Store} {id : Id} {d : TaskNode} (h : store.node id = some d) :
    store.up (.task id) = some (some d.parent) := by
  obtain ⟨r, hr, rfl⟩ := Option.map_eq_some_iff.mp h
  simp [Store.up, hr, parentOf]

theorem up_of_edge {store : Store} {c : Id} {o : Option Id} (h : store.edge c = some o) :
    store.up (.conversation c) = some (o.map Node.task) := by
  obtain ⟨r, hr, rfl⟩ := Option.map_eq_some_iff.mp h
  simp [Store.up, hr]

section

variable (ho : overlay.Over store candidate) (hx : Core store x)
include ho hx

theorem upIn_candidate (hm : Mirrors store x) (n : Node) (v : Option Node) (h : x.upIn overlay n = some v) :
    candidate.up n = some v := by
  cases n with
  | task id =>
    obtain ⟨nd, hnd, rfl⟩ := Option.map_eq_some_iff.mp h
    exact up_of_node (nodeIn_candidate ho hx hm id nd hnd)
  | conversation c =>
    obtain ⟨o, hoe, rfl⟩ := Option.map_eq_some_iff.mp h
    exact up_of_edge (edge_candidate ho hx c o hoe)

theorem nodeIn_of_node (id : Id) (nd : TaskNode) (h : x.node id = some nd) : x.nodeIn overlay id = some nd := by
  cases hg : get? overlay.tasks id with
  | none => simpa [nodeIn, record, hg, node] using h
  | some r =>
    obtain ⟨r', hr', rfl⟩ := hx.node id nd h
    obtain ⟨r'', hr'', hn⟩ := ho.same id r' hr'
    obtain rfl : r = r'' := by simpa [ho.task id r hg] using hr''
    simp [nodeIn, record, hg, hn]

theorem edge_of_edges (c : Id) (o : Option Id) (h : x.edges c = some o) : x.edge overlay c = some o := by
  cases hg : get? overlay.edges c with
  | none => simp [edge, hg, h]
  | some o' =>
    obtain ⟨r, hr, -⟩ := hx.edge c o h
    simp [(ho.edge c o' hg).1] at hr

theorem upIn_of_up (n : Node) (v : Option Node) (h : x.up n = some v) : x.upIn overlay n = some v := by
  cases n with
  | task id =>
    obtain ⟨nd, hnd, rfl⟩ := Option.map_eq_some_iff.mp h
    simp [upIn, nodeIn_of_node ho hx id nd hnd]
  | conversation c =>
    obtain ⟨o, hoe, rfl⟩ := Option.map_eq_some_iff.mp h
    simp [upIn, edge_of_edges ho hx c o hoe]

end

theorem up_of_upIn (ho : overlay.Over store candidate) (hm : Mirrors store x) (n : Node)
    (hstored : store.has n = true) (v : Option Node) (h : x.upIn overlay n = some v) :
    ∃ v', x.up n = some v' := by
  rw [← Option.isSome_iff_exists]
  cases n with
  | task id =>
    cases hg : get? overlay.tasks id with
    | none =>
      have : x.upIn overlay (.task id) = x.up (.task id) := by simp [upIn, nodeIn, record, hg, up, node]
      rw [← this, h]
      rfl
    | some r =>
      rcases ho.old id r hg with hnone | ⟨r', hr', ht⟩
      · simp [Store.has, Store.up, hnone] at hstored
      · have hlive := (hm id r').mpr ⟨hr', ht⟩
        simp [up, node, hlive]
  | conversation c =>
    cases hg : get? overlay.edges c with
    | none =>
      have : x.upIn overlay (.conversation c) = x.up (.conversation c) := by simp [upIn, edge, hg, up]
      rw [← this, h]
      rfl
    | some o =>
      have := (ho.edge c o hg).1
      simp [Store.has, Store.up, this] at hstored

end Candidates

/-! ## The links of the commit's own tasks -/

structure LinksOk (x : Ownership) (overlay : Overlay) (links : Node → List Node) : Prop where
  up : ∀ p c, c ∈ links p → x.upIn overlay c = some (some p)
  apart : ∀ p c, c ∈ links p → c ∉ x.below p
  nodup : ∀ p, (links p).Nodup

def Placeable (x : Ownership) (overlay : Overlay) (links : Node → List Node) (n : Node) : Prop :=
  x.needed n = true ∨ (∃ p, n ∈ links p) ∨ (∃ id, n = .task id ∧ has overlay.tasks id = true) ∨
    ∀ p, x.upIn overlay n ≠ some (some p)

theorem Placeable.mono {x : Ownership} {overlay : Overlay} {links links' : Node → List Node} {n : Node}
    (h : x.Placeable overlay links n) (hsub : ∀ p c, c ∈ links p → c ∈ links' p) : x.Placeable overlay links' n :=
  h.imp_right (fun h => h.imp_left (fun ⟨p, hp⟩ => ⟨p, hsub p n hp⟩))

theorem LinksOk.add {x : Ownership} {overlay : Overlay} {links : Node → List Node} (h : x.LinksOk overlay links)
    {child parent : Node} (hup : x.upIn overlay child = some (some parent)) (hnot : child ∉ x.below parent) :
    x.LinksOk overlay (addTo links parent child) := by
  refine ⟨?_, ?_, nodup_addTo links parent child h.nodup⟩
  · intro p c hc
    rcases (mem_addTo links parent p child c).mp hc with ⟨rfl, rfl⟩ | hc
    · exact hup
    · exact h.up p c hc
  · intro p c hc
    rcases (mem_addTo links parent p child c).mp hc with ⟨rfl, rfl⟩ | hc
    · exact hnot
    · exact h.apart p c hc

/-- The links hold `child` below `parent` besides what they held, and the parents of linked nodes are placed. -/
structure LinksGrown (x : Ownership) (overlay : Overlay) (links : Node → List Node) (child parent : Node)
    (links' : Node → List Node) : Prop where
  ok : x.LinksOk overlay links'
  placed : ∀ p c, c ∈ links' p → x.Placeable overlay links' p
  sub : ∀ p c, c ∈ links p → c ∈ links' p
  self : child ∈ links' parent

section

variable {store candidate : Store} {rank : Node → ℕ} (hg : candidate.Grounded rank) {overlay : Overlay}
    (ho : overlay.Over store candidate) {x : Ownership} (hx : Core store x) (hm : Mirrors store x)
include hg ho hx hm

theorem linkUp_spec (fuel : ℕ) (links : Node → List Node) (child parent : Node)
    (hlinks : x.LinksOk overlay links) (hplaced : ∀ p c, c ∈ links p → p = child ∨ x.Placeable overlay links p)
    (hup : x.upIn overlay child = some (some parent)) (hnot : child ∉ x.below parent)
    (hfuel : rank parent < fuel) :
    x.LinksGrown overlay links child parent (x.linkUp overlay fuel links child (some parent)) := by
  induction fuel generalizing links child parent with
  | zero => omega
  | succ fuel ih =>
    unfold linkUp
    split
    · rename_i hmem
      refine ⟨hlinks, ?_, fun _ _ hc => hc, hmem⟩
      intro p c hc
      rcases hplaced p c hc with rfl | hp
      · exact Or.inr (Or.inl ⟨parent, hmem⟩)
      · exact hp
    · have hsub : ∀ p c, c ∈ links p → c ∈ addTo links parent child p :=
        fun p c hc => (mem_addTo links parent p child c).mpr (Or.inr hc)
      have hself : child ∈ addTo links parent child parent := (mem_addTo _ _ _ _ _).mpr (Or.inl ⟨rfl, rfl⟩)
      have hok := hlinks.add hup hnot
      have hplaced' : ∀ p c, c ∈ addTo links parent child p →
          p = parent ∨ x.Placeable overlay (addTo links parent child) p := by
        intro p c hc
        rcases (mem_addTo links parent p child c).mp hc with ⟨rfl, -⟩ | hc
        · exact Or.inl rfl
        · rcases hplaced p c hc with rfl | hp
          · exact Or.inr (Or.inr (Or.inl ⟨parent, hself⟩))
          · exact Or.inr (hp.mono hsub)
      have hstop : x.Placeable overlay (addTo links parent child) parent →
          x.LinksGrown overlay links child parent (addTo links parent child) := by
        intro hp
        refine ⟨hok, ?_, hsub, hself⟩
        intro p c hc
        rcases hplaced' p c hc with rfl | h
        · exact hp
        · exact h
      have hgo : ∀ above, x.upIn overlay parent = some (some above) → parent ∉ x.below above →
          x.LinksGrown overlay links child parent
            (x.linkUp overlay fuel (addTo links parent child) parent (some above)) := by
        intro above habove hnotAbove
        have hdeep := hg.deeper _ _ (upIn_candidate ho hx hm _ _ habove)
        have hgrown := ih (addTo links parent child) parent above hok hplaced' habove hnotAbove (by omega)
        exact ⟨hgrown.ok, hgrown.placed, fun p c hc => hgrown.sub p c (hsub p c hc), hgrown.sub _ _ hself⟩
      have hlisted : ∀ above, parent ∈ x.below above → x.needed parent = true := by
        intro above hmem
        exact (((hx.linked parent).below above).mp hmem).2
      cases parent with
      | task id =>
        simp only
        split
        · rename_i hstop'
          rw [Bool.or_eq_true] at hstop'
          refine hstop ?_
          rcases hstop' with hl | hov
          · exact Or.inl ((x.needed_iff_lists _).mpr (Or.inl hl))
          · exact Or.inr (Or.inr (Or.inl ⟨id, rfl, hov⟩))
        · rename_i hnotLive
          rw [Bool.or_eq_true, not_or] at hnotLive
          have hrecord : x.record overlay id = none := by
            simp only [record, Option.or_eq_none_iff]
            refine ⟨?_, by simpa using hnotLive.1⟩
            rw [get?_eq_none_iff, ← has_iff]
            exact hnotLive.2
          split
          · rename_i hnone
            rw [Option.map_eq_none_iff] at hnone
            refine hstop (Or.inr (Or.inr (Or.inr ?_)))
            simp [upIn, nodeIn, hrecord, hnone]
          · rename_i above habove
            obtain ⟨nd, hnd, rfl⟩ := Option.map_eq_some_iff.mp habove
            split
            · rename_i hmem
              exact hstop (Or.inl (hlisted _ hmem))
            · rename_i hmem
              exact hgo _ (by simp [upIn, nodeIn, hrecord, hnd]) hmem
      | conversation c =>
        simp only
        split
        · rename_i hnone
          refine hstop (Or.inr (Or.inr (Or.inr ?_)))
          intro p hp
          obtain ⟨o, hoe, hop⟩ := Option.map_eq_some_iff.mp hp
          obtain ⟨o', rfl, -⟩ := Option.map_eq_some_iff.mp hop
          simp [hoe] at hnone
        · rename_i owner howner
          rw [Option.join_eq_some_iff] at howner
          split
          · rename_i hmem
            exact hstop (Or.inl (hlisted _ hmem))
          · rename_i hmem
            exact hgo _ (by simp [upIn, howner]) hmem

theorem links_spec (count : ℕ) (hcount : candidate.count ≤ count) :
    x.LinksOk overlay (x.links count overlay) ∧
      (∀ p c, c ∈ x.links count overlay p → x.Placeable overlay (x.links count overlay) p) ∧
      ∀ id r, get? overlay.tasks id = some r → (x.live id).isSome = false → (x.settled id).isSome = false →
        .task id ∈ x.links count overlay (parentOf r) := by
  have hrun : ∀ (tasks : List (Id × TaskRecord)) (links : Node → List Node),
      (∀ t ∈ tasks, get? overlay.tasks t.1 = some t.2) → x.LinksOk overlay links →
      (∀ p c, c ∈ links p → x.Placeable overlay links p) →
      let links' := tasks.foldl (fun links task =>
        if (x.live task.1).isSome || (x.settled task.1).isSome then links
        else x.linkUp overlay count links (.task task.1) (some (parentOf task.2))) links
      x.LinksOk overlay links' ∧ (∀ p c, c ∈ links' p → x.Placeable overlay links' p) ∧
        (∀ p c, c ∈ links p → c ∈ links' p) ∧
        ∀ t ∈ tasks, (x.live t.1).isSome = false → (x.settled t.1).isSome = false →
          .task t.1 ∈ links' (parentOf t.2) := by
    intro tasks
    induction tasks with
    | nil => exact fun links _ hok hp => ⟨hok, hp, fun _ _ hc => hc, by simp⟩
    | cons t tasks ih =>
      intro links hget hok hp
      have hget' := fun q hq => hget q (mem_cons_of_mem _ hq)
      rw [foldl_cons]
      by_cases hskip : ((x.live t.1).isSome || (x.settled t.1).isSome) = true
      · simp only [hskip, if_true]
        obtain ⟨h1, h2, h3, h4⟩ := ih links hget' hok hp
        refine ⟨h1, h2, h3, ?_⟩
        intro q hq hl hs
        rcases mem_cons.mp hq with rfl | hq
        · simp [hl, hs] at hskip
        · exact h4 q hq hl hs
      · simp only [hskip]
        have hgt := hget t mem_cons_self
        have hup : x.upIn overlay (.task t.1) = some (some (parentOf t.2)) := by
          simp [upIn, nodeIn, record, hgt, parentOf]
        have hcup := upIn_candidate ho hx hm _ _ hup
        have hnot : Node.task t.1 ∉ x.below (parentOf t.2) := by
          intro hmem
          have hknown := (((hx.linked _).below _).mp hmem).1
          rw [Bool.or_eq_true, not_or] at hskip
          simp only [up, node, Option.map_eq_some_iff, Option.or_eq_some_iff] at hknown
          obtain ⟨nd, h | ⟨-, h⟩, -⟩ := hknown
          · obtain ⟨r, hr, -⟩ := h
            simp [hr] at hskip
          · simp [h] at hskip
        have hbound : rank (parentOf t.2) < count := lt_of_lt_of_le (hg.bound _ (hg.parent _ _ hcup)) hcount
        have hgrown := linkUp_spec hg ho hx hm count links (.task t.1) (parentOf t.2) hok
          (fun p c hc => Or.inr (hp p c hc)) hup hnot hbound
        obtain ⟨h1, h2, h3, h4⟩ := ih _ hget' hgrown.ok hgrown.placed
        refine ⟨h1, h2, fun p c hc => h3 p c (hgrown.sub p c hc), ?_⟩
        intro q hq hl hs
        rcases mem_cons.mp hq with rfl | hq
        · exact h3 _ _ hgrown.self
        · exact h4 q hq hl hs
  have hstart : x.LinksOk overlay (fun _ => []) := ⟨by simp, by simp, by simp⟩
  obtain ⟨h1, h2, -, h4⟩ := hrun overlay.tasks (fun _ => [])
    (fun t ht => get?_of_mem _ _ _ ho.keys ht) hstart (by simp)
  refine ⟨h1, h2, ?_⟩
  intro id r hr hl hs
  exact h4 (id, r) (mem_of_get? _ _ _ hr) hl hs

end

/-! ## Walks down in the candidates' view -/

/-- What a walk with a commit's candidates needs: an index of the store, and candidates that form a tree. -/
structure Views (x : Ownership) (store candidate : Store) (overlay : Overlay) : Prop where
  stored : ∃ rank, store.Grounded rank
  grounded : ∃ rank, candidate.Grounded rank
  overlaid : overlay.Over store candidate
  core : Core store x
  mirrors : Mirrors store x

theorem needed_stored {store : Store} {rank : Node → ℕ} (hg : store.Grounded rank) {x : Ownership}
    (hx : Core store x) (hm : Mirrors store x) (n : Node) (hn : x.needed n = true) : store.has n = true := by
  rcases (x.needed_iff_lists n).mp hn with hl | ⟨c, hc⟩
  · cases n with
    | conversation c => simp [isLive] at hl
    | task id =>
      obtain ⟨r, hr⟩ := Option.isSome_iff_exists.mp hl
      exact Store.has_task ((hm id r).mp hr).1
  · exact hg.parent _ _ (hx.up _ _ (((hx.linked c).below n).mp hc).1)

section Walk

variable {store candidate : Store} {overlay : Overlay} {x : Ownership}

section

variable (h : x.Views store candidate overlay)
include h

theorem Views.links (count : ℕ) (hcount : candidate.count ≤ count) :
    x.LinksOk overlay (x.links count overlay) ∧
      (∀ p c, c ∈ x.links count overlay p → x.Placeable overlay (x.links count overlay) p) ∧
      ∀ id r, get? overlay.tasks id = some r → (x.live id).isSome = false → (x.settled id).isSome = false →
        .task id ∈ x.links count overlay (parentOf r) := by
  obtain ⟨rank, hg⟩ := h.grounded
  exact links_spec hg h.overlaid h.core h.mirrors count hcount

theorem Views.children_up (count : ℕ) (hcount : candidate.count ≤ count) (p c : Node)
    (hc : c ∈ x.children count overlay p) : x.upIn overlay c = some (some p) := by
  rw [children, mem_append] at hc
  rcases hc with hc | hc
  · exact upIn_of_up h.overlaid h.core c _ (((h.core.linked c).below p).mp hc).1
  · exact (h.links count hcount).1.up p c hc

theorem Views.forest (count : ℕ) (hcount : candidate.count ≤ count) :
    ∃ rank, Forest.IsForest (x.children count overlay) rank count := by
  obtain ⟨rank, hg⟩ := h.grounded
  have hup := fun p c hc => upIn_candidate h.overlaid h.core h.mirrors _ _ (h.children_up count hcount p c hc)
  have hhas : ∀ p c, c ∈ x.children count overlay p → candidate.has c = true :=
    fun p c hc => (candidate.has_iff c).mpr ⟨_, hup p c hc⟩
  refine ⟨rank, fun p c hc => hg.deeper _ _ (hup p c hc), ?_, ?_, ?_⟩
  · intro p c hc
    exact lt_of_lt_of_le (hg.bound _ (hhas p c hc)) hcount
  · intro p q c d hc hd he
    obtain rfl := hg.injective c d (hhas p c hc) (hhas q d hd) he
    have hpq := (hup p c hc).symm.trans (hup q c hd)
    simp only [Option.some.injEq] at hpq
    exact ⟨rfl, hpq⟩
  · intro p
    obtain ⟨hok, -, -⟩ := h.links count hcount
    rw [children, nodup_append]
    refine ⟨h.core.nodup p, hok.nodup p, ?_⟩
    rintro a ha b hb rfl
    exact hok.apart p a hb ha

theorem Views.needed_up (n : Node) (hn : x.needed n = true) (p : Node) (hup : x.upIn overlay n = some (some p)) :
    x.up n = some (some p) := by
  obtain ⟨rank, hg⟩ := h.stored
  have hstored := needed_stored hg h.core h.mirrors n hn
  obtain ⟨v, hv⟩ := up_of_upIn h.overlaid h.mirrors n hstored _ hup
  rw [hv, ← upIn_of_up h.overlaid h.core n v hv, hup]

theorem Views.covers (count : ℕ) (hcount : candidate.count ≤ count) :
    Covers x overlay (x.children count overlay) (x.Placeable overlay (x.links count overlay)) := by
  obtain ⟨hok, hplaced, hnew⟩ := h.links count hcount
  have hneeded : ∀ n p, x.needed n = true → x.upIn overlay n = some (some p) →
      n ∈ x.children count overlay p ∧ x.Placeable overlay (x.links count overlay) p := by
    intro n p hn hup
    have hknown := h.needed_up n hn p hup
    rw [children, mem_append]
    exact ⟨Or.inl (((h.core.linked n).below p).mpr ⟨hknown, hn⟩), Or.inl (needed_of_hangs h.core.linked hknown hn)⟩
  have hlinked : ∀ n p q, n ∈ x.links count overlay q → x.upIn overlay n = some (some p) →
      n ∈ x.children count overlay p ∧ x.Placeable overlay (x.links count overlay) p := by
    intro n p q hq hup
    obtain rfl : q = p := by simpa [hok.up q n hq] using hup
    rw [children, mem_append]
    exact ⟨Or.inr hq, hplaced q n hq⟩
  have hboth : ∀ n p, x.Placeable overlay (x.links count overlay) n → x.upIn overlay n = some (some p) →
      n ∈ x.children count overlay p ∧ x.Placeable overlay (x.links count overlay) p := by
    rintro n p (hn | ⟨q, hq⟩ | ⟨id, rfl, hid⟩ | hnone) hup
    · exact hneeded n p hn hup
    · exact hlinked n p q hq hup
    · obtain ⟨r, hr⟩ : ∃ r, get? overlay.tasks id = some r := by
        rw [← Option.ne_none_iff_exists']
        rw [ne_eq, get?_eq_none_iff, ← has_iff]
        simpa using hid
      have hparent : p = parentOf r := by
        simpa [upIn, nodeIn, record, hr, parentOf, eq_comm] using hup
      cases hl : (x.live id).isSome with
      | true => exact hneeded _ p ((x.needed_iff_lists _).mpr (Or.inl hl)) hup
      | false =>
        have hs : (x.settled id).isSome = false := by
          by_contra hs
          rw [Bool.not_eq_false] at hs
          obtain ⟨nd, hnd⟩ := Option.isSome_iff_exists.mp hs
          have hlnone : x.live id = none := by simpa using hl
          obtain ⟨r', hr', -⟩ := h.core.node id nd (by simp [node, hlnone, hnd])
          rcases h.overlaid.old id r hr with hnone | ⟨r'', hr'', ht⟩
          · simp [hnone] at hr'
          · simp [(h.mirrors id r'').mpr ⟨hr'', ht⟩] at hlnone
        exact hlinked _ p p (hparent ▸ hnew id r hr hl hs) hup
    · exact absurd hup (hnone p)
  exact ⟨fun n p hn hup => (hboth n p hn hup).1, fun n p hn hup => (hboth n p hn hup).2⟩

theorem Views.walkDown_sound (count : ℕ) (hcount : candidate.count ≤ count) (crossBackground : Bool)
    (enter : Id → Bool) (n : Node) (t : Reached) (ht : t ∈ x.walkDown count overlay crossBackground enter n) :
    candidate.node t.id = some t.node ∧
      (∀ r, t.live = some r → candidate.tasks t.id = some r ∧ isTerminal r = false) ∧
      Harness.Under candidate.node candidate.edge (passes crossBackground enter) n t.node.parent := by
  obtain ⟨rank, hf⟩ := h.forest count hcount
  obtain ⟨hb, hreached⟩ := (mem_walkDown hf crossBackground enter n t).mp ht
  obtain ⟨p, hp, hu⟩ := under_of_below (fun p c hc => h.children_up count hcount p c hc) hb
  obtain ⟨nd, hnd, hqt⟩ := Option.map_eq_some_iff.mp hreached
  obtain rfl : nd = t.node := congrArg Reached.node hqt
  have hl : (x.record overlay t.id).filter (fun record => !isTerminal record) = t.live := congrArg Reached.live hqt
  refine ⟨nodeIn_candidate h.overlaid h.core h.mirrors _ _ hnd, ?_, ?_⟩
  · intro r hr
    rw [← hl] at hr
    obtain ⟨hrecord, hlive⟩ := Option.filter_eq_some_iff.mp hr
    exact ⟨record_candidate h.overlaid h.mirrors _ r hrecord, by simpa using hlive⟩
  · have hup := h.children_up count hcount p _ hp
    have hp : t.node.parent = p := by simpa [upIn, hnd] using hup
    rw [hp]
    exact hu.mono (fun id nd hn => nodeIn_candidate h.overlaid h.core h.mirrors id nd hn)
      (fun c o ho => edge_candidate h.overlaid h.core c o ho) (fun _ _ _ hpass => hpass)

theorem Views.walkDown_complete (count : ℕ) (hcount : candidate.count ≤ count) (crossBackground : Bool)
    (enter : Id → Bool) (n : Node) (id : Id) (r : TaskRecord) (hr : candidate.tasks id = some r)
    (ht : isTerminal r = false)
    (hu : Harness.Under (x.nodeIn overlay) (x.edge overlay) (passes crossBackground enter) n (parentOf r)) :
    { id := id, node := nodeOf r, live := some r } ∈ x.walkDown count overlay crossBackground enter n := by
  obtain ⟨rank, hf⟩ := h.forest count hcount
  have hrecord := record_of_live h.overlaid h.mirrors id r hr ht
  have hnode : x.nodeIn overlay id = some (nodeOf r) := by simp [nodeIn, hrecord]
  have hup : x.upIn overlay (.task id) = some (some (parentOf r)) := by simp [upIn, hnode, parentOf]
  have hcovers := h.covers count hcount
  have hplaced : x.Placeable overlay (x.links count overlay) (.task id) := by
    cases hg : get? overlay.tasks id with
    | some r' =>
      refine Or.inr (Or.inr (Or.inl ⟨id, rfl, ?_⟩))
      rw [has_iff]
      exact mem_map_of_mem (mem_of_get? _ _ _ hg)
    | none =>
      rw [h.overlaid.otherTask id hg] at hr
      exact Or.inl ((x.needed_iff_lists _).mpr (Or.inl (by simp [isLive, (h.mirrors id r).mpr ⟨hr, ht⟩])))
  refine (mem_walkDown hf crossBackground enter n _).mpr ⟨?_, by simp [reached, hnode, hrecord, ht]⟩
  exact below_of_under hcovers hu _ (hcovers.listed _ _ hplaced hup) (hcovers.up _ _ hplaced hup)

theorem Views.ownedLive_sound (count : ℕ) (hcount : candidate.count ≤ count) (done : List Id) (o t : Id)
    (ht : t ∈ x.ownedLive count overlay done o) : candidate.Owned o t := by
  unfold ownedLive at ht
  obtain ⟨q, hq, hqt⟩ := mem_filterMap.mp ht
  obtain ⟨hnode, hlive, hu⟩ := h.walkDown_sound count hcount false _ _ q hq
  split at hqt
  · simp at hqt
  · rename_i hnot
    obtain rfl := Option.some.inj hqt
    rw [Bool.or_eq_true, not_or, Bool.not_eq_true, Bool.not_eq_true] at hnot
    obtain ⟨r, hr⟩ : ∃ r, q.live = some r := by
      rw [← Option.isSome_iff_exists]
      simpa using hnot.1
    obtain ⟨htask, hterminal⟩ := hlive r hr
    have hqn : nodeOf r = q.node := by simpa [Store.node, htask] using hnode
    refine ⟨r, htask, hterminal, ?_, ?_⟩
    · have := hnot.2
      rwa [← hqn] at this
    · have hparent : parentOf r = q.node.parent := by rw [parentOf, hqn]
      rw [hparent]
      refine hu.mono (fun _ _ hn => hn) (fun _ _ he => he) ?_
      intro id nd _ hpass
      simp only [passes, Bool.false_or, Bool.and_eq_true] at hpass
      exact hpass.1

theorem Views.ownedLive_complete (count : ℕ) (hcount : candidate.count ≤ count) (done : List Id) (o t : Id)
    (r : TaskRecord) (hr : candidate.tasks t = some r) (ht : isTerminal r = false) (hb : r.background = false)
    (hu : Harness.Under (x.nodeIn overlay) (x.edge overlay) ordinary (.task o) (parentOf r))
    (hdone : ∀ d ∈ done, ¬candidate.Owned d t) : t ∈ x.ownedLive count overlay done o := by
  have hpass : Harness.Under (x.nodeIn overlay) (x.edge overlay) (passes false (fun id => id ∉ done)) (.task o)
      (parentOf r) := by
    have hcand : ∀ d, Harness.Under (x.nodeIn overlay) (x.edge overlay) ordinary (.task d) (parentOf r) →
        candidate.Owned d t := by
      intro d hd
      exact ⟨r, hr, ht, hb, hd.mono (fun id nd hn => nodeIn_candidate h.overlaid h.core h.mirrors id nd hn)
        (fun c o ho => edge_candidate h.overlaid h.core c o ho) (fun _ _ _ hp => hp)⟩
    -- every task on the way has this work below it
    have hway : ∀ m, Harness.Under (x.nodeIn overlay) (x.edge overlay) ordinary (.task o) m →
        (∀ d, Harness.Under (x.nodeIn overlay) (x.edge overlay) ordinary (.task d) m → d ∉ done) →
        Harness.Under (x.nodeIn overlay) (x.edge overlay) (passes false (fun id => id ∉ done)) (.task o) m := by
      intro m hm
      induction hm with
      | here => exact fun _ => .here
      | conversation hc _ ih => exact fun hd => .conversation hc (ih (fun d hu => hd d (.conversation hc hu)))
      | @task id nd hn hp _ ih =>
        intro hd
        refine .task hn ?_ (ih (fun d hu => hd d (.task hn hp hu)))
        have hnot := hd id .here
        simpa [passes, hnot] using (ordinary_iff id nd).mp hp
    exact hway _ hu (fun d hd hmem => hdone d hmem (hcand d hd))
  have hreached := h.walkDown_complete count hcount false _ _ t r hr ht hpass
  unfold ownedLive
  refine mem_filterMap.mpr ⟨_, hreached, ?_⟩
  simp [nodeOf, hb]

end

end Walk

end Ownership

end PiAgent.Harness
