import PiAgent.Harness.OwnershipLists

/-! # The index agrees with the stored tree -/

namespace PiAgent.Harness

open Option Function Durable

/-! ## The stored tree -/

structure Store.Grounded (store : Store) (rank : Node → ℕ) : Prop where
  taskId : ∀ id r, store.tasks id = some r → r.id = id
  conversationId : ∀ id r, store.conversations id = some r → r.id = id
  parent : ∀ n p, store.up n = some (some p) → store.has p = true
  deeper : ∀ n p, store.up n = some (some p) → rank p < rank n
  bound : ∀ n, store.has n = true → rank n < store.count
  injective : ∀ n m, store.has n = true → store.has m = true → rank n = rank m → n = m

theorem Store.has_iff (store : Store) (n : Node) : store.has n = true ↔ ∃ v, store.up n = some v :=
  isSome_iff_exists

theorem Store.has_task {store : Store} {id : Id} {r : TaskRecord} (h : store.tasks id = some r) :
    store.has (.task id) = true := by
  simp [Store.has, Store.up, h]

theorem Store.has_conversation {store : Store} {id : Id} {r : ConversationRecord}
    (h : store.conversations id = some r) : store.has (.conversation id) = true := by
  simp [Store.has, Store.up, h]

namespace Ownership

/-! ## Chains -/

inductive Loaded (x : Ownership) : Node → Prop
  | root {n : Node} (h : x.up n = some none) : Loaded x n
  | step {n p : Node} (h : x.up n = some (some p)) (hp : Loaded x p) : Loaded x n

def Hangs (x : Ownership) (n p : Node) : Prop := x.up n = some (some p)

def OnChain (x : Ownership) (n : Node) : Prop :=
  ∃ id, (x.live id).isSome = true ∧ Relation.ReflTransGen x.Hangs (.task id) n

variable {x y : Ownership}

theorem Loaded.mono (hup : ∀ n p, x.up n = some p → y.up n = some p) {n : Node} (h : x.Loaded n) : y.Loaded n := by
  induction h with
  | root h => exact .root (hup _ _ h)
  | step h _ ih => exact .step (hup _ _ h) ih

theorem SameNodes.loaded (h : SameNodes x y) {n : Node} (hl : x.Loaded n) : y.Loaded n :=
  hl.mono (fun m _ hm => (h.up m).trans hm)

variable {x : Ownership}

theorem Loaded.of_hangs {n m : Node} (h : Relation.ReflTransGen x.Hangs n m) (hm : x.Loaded m) : x.Loaded n := by
  induction h using Relation.ReflTransGen.head_induction_on with
  | refl => exact hm
  | head h _ ih => exact .step h ih

/-! ## What always holds -/

structure Core (store : Store) (x : Ownership) : Prop where
  node : ∀ id n, x.node id = some n → ∃ r, store.tasks id = some r ∧ nodeOf r = n
  edge : ∀ c o, x.edges c = some o → ∃ r, store.conversations c = some r ∧ ownerTask r = o
  apart : ∀ id r, x.live id = some r → x.settled id = none
  linked : ∀ n, x.Linked n
  nodup : ∀ p, (x.below p).Nodup
  unloaded : ∀ id ∈ x.unloaded, (x.node id).isSome = true
  loaded : ∀ id, x.knownTask id = true → x.needed (.task id) = true → x.Loaded (.task id)

structure Sound (store : Store) (x : Ownership) : Prop extends Core store x where
  queued : ∀ n, x.Queued n
  flagged : x.Flagged
  chains : ∀ id, x.knownTask id = true → x.Loaded (.task id)

variable {store : Store}

theorem Core.up {x : Ownership} (h : Core store x) (n : Node) (v : Option Node) (hn : x.up n = some v) :
    store.up n = some v := by
  cases n with
  | task id =>
    simp only [Ownership.up, map_eq_some_iff] at hn
    obtain ⟨nd, hnd, rfl⟩ := hn
    obtain ⟨r, hr, rfl⟩ := h.node id nd hnd
    simp [Store.up, hr, parentOf]
  | conversation c =>
    simp only [Ownership.up, map_eq_some_iff] at hn
    obtain ⟨o, ho, rfl⟩ := hn
    obtain ⟨r, hr, rfl⟩ := h.edge c o ho
    simp [Store.up, hr]

variable {rank : Node → ℕ}

theorem Core.deeper (hg : store.Grounded rank) {x : Ownership} (h : Core store x)
    (n p : Node) (hn : x.up n = some (some p)) : rank p < rank n :=
  hg.deeper n p (h.up n _ hn)

theorem empty_sound (store : Store) : Sound store Ownership.empty := by
  refine ⟨⟨?_, ?_, ?_, ?_, ?_, ?_, ?_⟩, ?_, ?_, ?_⟩
  · intro id n h
    simp [Ownership.node, Ownership.empty] at h
  · intro c o h
    simp [Ownership.empty] at h
  · intro id r h
    simp [Ownership.empty] at h
  · intro n
    refine ⟨fun p => ?_, fun c _ => ?_⟩
    · cases n <;> simp [Ownership.empty, Ownership.up, Ownership.node]
    · cases n <;> simp [Ownership.empty, Ownership.up, Ownership.node]
  · intro p
    simp [Ownership.empty]
  · intro id h
    simp [Ownership.empty] at h
  · intro id h
    simp [Ownership.knownTask, Ownership.node, Ownership.empty] at h
  · intro n h
    cases n <;> simp [Ownership.up, Ownership.node, Ownership.empty] at h
  · intro h
    simp [Ownership.empty] at h
  · intro id h
    simp [Ownership.knownTask, Ownership.node, Ownership.empty] at h

/-! ## A node becomes known, or changes its part -/

/-- Another index that differs at one node only: the node's links and its place in the queue may be wrong. -/
structure Changed (store : Store) (n : Node) (y : Ownership) : Prop where
  node : ∀ id nd, y.node id = some nd → ∃ r, store.tasks id = some r ∧ nodeOf r = nd
  edge : ∀ c o, y.edges c = some o → ∃ r, store.conversations c = some r ∧ ownerTask r = o
  apart : ∀ id r, y.live id = some r → y.settled id = none
  linked : ∀ m, m ≠ n → y.Linked m
  placed : y.Placed n
  nodup : ∀ p, (y.below p).Nodup
  unloaded : ∀ id ∈ y.unloaded, (y.node id).isSome = true
  queued : ∀ m, m ≠ n → y.Queued m
  flagged : y.Flagged
  chains : ∀ id, y.knownTask id = true → y.Loaded (.task id)
  known : store.has n = true

theorem Changed.up {n : Node} {y : Ownership} (h : Changed store n y) (m : Node) (v : Option Node)
    (hm : y.up m = some v) : store.up m = some v := by
  cases m with
  | task id =>
    simp only [Ownership.up, map_eq_some_iff] at hm
    obtain ⟨nd, hnd, rfl⟩ := hm
    obtain ⟨r, hr, rfl⟩ := h.node id nd hnd
    simp [Store.up, hr, parentOf]
  | conversation c =>
    simp only [Ownership.up, map_eq_some_iff] at hm
    obtain ⟨o, ho, rfl⟩ := hm
    obtain ⟨r, hr, rfl⟩ := h.edge c o ho
    simp [Store.up, hr]

variable {x y : Ownership}

theorem SameNodes.knownTask (h : SameNodes x y) (id : Id) : y.knownTask id = x.knownTask id := by
  simp [Ownership.knownTask, h.node, h.unloaded]

theorem Changed.relist (hg : store.Grounded rank) {n : Node} {y : Ownership}
    (h : Changed store n y) : Sound store ((y.relist store.count n).dropIfUnneeded n) := by
  have hfuel : rank n < store.count := hg.bound n h.known
  have hrank : ∀ m p, y.up m = some (some p) → rank p < rank m := fun m p hm => hg.deeper m p (h.up m _ hm)
  have hsame := (y.relist_sameNodes store.count n).trans (dropIfUnneeded_sameNodes _ n)
  refine { node := ?_, edge := ?_, apart := ?_, linked := ?_, nodup := ?_, unloaded := ?_, loaded := ?_, queued := ?_,
           flagged := ?_, chains := ?_ }
  · intro id nd hnd
    exact h.node id nd ((hsame.node id).symm.trans hnd)
  · intro c o ho
    rw [hsame.edges] at ho
    exact h.edge c o ho
  · intro id r hr
    rw [hsame.live] at hr
    rw [hsame.settled]
    exact h.apart id r hr
  · intro m
    exact dropIfUnneeded_linked _ _ _ (relist_linked rank _ y hrank n hfuel h.linked h.placed m)
  · intro p
    rw [dropIfUnneeded_below]
    exact relist_nodup _ y n h.nodup p
  · intro id hid
    rw [hsame.unloaded] at hid
    rw [hsame.node]
    exact h.unloaded id hid
  · intro id hid _
    rw [hsame.knownTask] at hid
    exact hsame.loaded (h.chains id hid)
  · intro m
    exact dropIfUnneeded_queued _ _ _ (fun hm => relist_queued _ y n m (h.queued m hm))
  · exact dropIfUnneeded_flagged _ _ (relist_flagged _ y n h.flagged)
  · intro id hid
    rw [hsame.knownTask] at hid
    exact hsame.loaded (h.chains id hid)

theorem Changed.relist_needed (hg : store.Grounded rank) {n : Node} {y : Ownership}
    (h : Changed store n y) (hn : y.isLive n = true) : Sound store (y.relist store.count n) := by
  have hs := h.relist hg
  have hneeded : (y.relist store.count n).needed n = true := by
    rw [needed_iff_lists, (y.relist_sameNodes store.count n).isLive]
    exact Or.inl hn
  rwa [dropIfUnneeded, if_pos hneeded] at hs

variable {m : Node}

theorem Linked.of_other (h : x.Linked m) (hup : y.up m = x.up m)
    (hlive : y.isLive m = x.isLive m) (hbelow : y.below = x.below) (hroots : y.roots = x.roots) : y.Linked m := by
  have hneeded : y.needed m = x.needed m := by simp [needed, hlive, hbelow]
  refine ⟨fun p => ?_, fun c hc => ?_⟩
  · rw [hbelow, h.below, hup, hneeded]
  · rw [hroots, h.root c hc, hup, hneeded]

theorem Queued.of_other (h : x.Queued m) (hup : y.up m = x.up m)
    (hlive : y.isLive m = x.isLive m) (hbelow : y.below = x.below) (hqueue : y.dropQueue = x.dropQueue) : y.Queued m := by
  intro hm hneeded
  rw [hqueue]
  refine h (hup ▸ hm) ?_
  simpa [needed, hlive, hbelow] using hneeded

theorem Linked.placed_of_unknown (h : x.Linked m) (hm : x.up m = none)
    (hbelow : y.below = x.below) (hroots : y.roots = x.roots) : y.Placed m := by
  refine ⟨fun p hp => ?_, fun c hc hr => ?_⟩
  · rw [hbelow] at hp
    exact absurd (hm.symm.trans ((h.below p).mp hp).1) (by simp)
  · rw [hroots] at hr
    exact absurd (hm.symm.trans ((h.root c hc).mp hr).1) (by simp)

theorem up_grows {n : Node} (hother : ∀ m, m ≠ n → y.up m = x.up m) (hn : x.up n = none) (m : Node)
    (v : Option Node) (hm : x.up m = some v) : y.up m = some v := by
  rw [hother m ?_]
  · exact hm
  · rintro rfl
    simp [hn] at hm

theorem up_congr (hnode : ∀ j, y.node j = x.node j) (hedges : y.edges = x.edges) (m : Node) : y.up m = x.up m := by
  cases m <;> simp [up, hnode, hedges]

theorem up_congr_of_ne {id : Id} (hnode : ∀ j, j ≠ id → y.node j = x.node j) (hedges : y.edges = x.edges) (m : Node)
    (hm : m ≠ .task id) : y.up m = x.up m := by
  cases m with
  | conversation d => simp [up, hedges]
  | task j => simp only [up, hnode j (fun e => hm (e ▸ rfl))]

theorem isLive_congr_of_ne {id : Id} (hlive : ∀ j, j ≠ id → y.live j = x.live j) (m : Node) (hm : m ≠ .task id) :
    y.isLive m = x.isLive m := by
  cases m with
  | conversation d => rfl
  | task j => simp only [isLive, hlive j (fun e => hm (e ▸ rfl))]

theorem nodeOf_live (h : Core store x) {r old : TaskRecord} (hr : store.tasks r.id = some r)
    (hold : x.live r.id = some old) : nodeOf old = nodeOf r := by
  obtain ⟨r', hr', hn⟩ := h.node r.id (nodeOf old) (by simp [node, hold])
  obtain rfl : r = r' := by simpa [hr] using hr'
  exact hn.symm

theorem setEdge_sound (hg : store.Grounded rank) {x : Ownership} (h : Sound store x)
    (c : Id) (r : ConversationRecord) (hr : store.conversations c = some r) (hnew : x.edges c = none) :
    Sound store (x.setEdge store.count c (ownerTask r)) := by
  unfold setEdge
  refine Changed.relist hg ?_
  have hother : ∀ m, m ≠ .conversation c →
      up { x with edges := update x.edges c (some (ownerTask r)) } m = x.up m := by
    intro m hm
    cases m with
    | task id => rfl
    | conversation d =>
      have hd : d ≠ c := fun e => hm (e ▸ rfl)
      simp [up, hd]
  refine { node := h.node, edge := ?_, apart := h.apart, linked := ?_, placed := ?_, nodup := h.nodup,
           unloaded := h.unloaded, queued := ?_, flagged := h.flagged, chains := ?_, known := ?_ }
  · intro d o hd
    by_cases hdc : d = c
    · subst hdc
      exact ⟨r, hr, by simpa using hd⟩
    · exact h.edge d o (by simpa [hdc] using hd)
  · intro m hm
    exact (h.linked m).of_other (hother m hm) rfl rfl rfl
  · exact (h.linked (.conversation c)).placed_of_unknown (by simp [up, hnew]) rfl rfl
  · intro m hm
    exact (h.queued m).of_other (hother m hm) rfl rfl rfl
  · intro id hid
    exact (h.chains id hid).mono (up_grows hother (by simp [up, hnew]))
  · exact Store.has_conversation hr

theorem settle_sound (hg : store.Grounded rank) {x : Ownership} (h : Sound store x)
    (id : Id) (r : TaskRecord) (hr : store.tasks id = some r) (hnew : x.node id = none) :
    Sound store (x.settle store.count id (nodeOf r)) := by
  unfold settle
  refine Changed.relist hg ?_
  have hlive : x.live id = none := by
    simp only [node, or_eq_none_iff, map_eq_none_iff] at hnew
    exact hnew.1
  have hnode : ∀ j, j ≠ id → node { x with settled := update x.settled id (some (nodeOf r)),
                                           unloaded := add x.unloaded id } j = x.node j := by
    intro j hj
    simp [node, hj]
  have hself : node { x with settled := update x.settled id (some (nodeOf r)),
                             unloaded := add x.unloaded id } id = some (nodeOf r) := by
    simp [node, hlive]
  have hother := up_congr_of_ne hnode rfl
  refine { node := ?_, edge := h.edge, apart := ?_, linked := ?_, placed := ?_, nodup := h.nodup,
           unloaded := ?_, queued := ?_, flagged := h.flagged, chains := ?_, known := ?_ }
  · intro j nd hj
    by_cases hjid : j = id
    · subst hjid
      exact ⟨r, hr, by simpa using hself.symm.trans hj⟩
    · exact h.node j nd ((hnode j hjid).symm.trans hj)
  · intro j r' hj
    have hjid : j ≠ id := by
      rintro rfl
      simp [hlive] at hj
    simpa [hjid] using h.apart j r' hj
  · intro m hm
    refine (h.linked m).of_other (hother m hm) ?_ rfl rfl
    cases m <;> rfl
  · exact (h.linked (.task id)).placed_of_unknown (by simp [up, hnew]) rfl rfl
  · intro j hj
    rw [mem_add] at hj
    by_cases hjid : j = id
    · subst hjid
      simp [hself]
    · rw [hnode j hjid]
      exact h.unloaded j (hj.resolve_left hjid)
  · intro m hm
    refine (h.queued m).of_other (hother m hm) ?_ rfl rfl
    cases m <;> rfl
  · intro j hj
    have hjid : j ≠ id := by
      rintro rfl
      simp [knownTask] at hj
    have hjx : x.knownTask j = true := by
      rw [knownTask, hnode j hjid] at hj
      simpa [knownTask, hjid] using hj
    exact (h.chains j hjx).mono (up_grows hother (by simp [up, hnew]))
  · exact Store.has_task hr

/-! ## Tracking -/

theorem track_ended_sound (hg : store.Grounded rank) {x : Ownership}
    (h : Sound store x) (r : TaskRecord) (hr : store.tasks r.id = some r) (hlive : (x.live r.id).isSome = true) :
    Sound store (((x.retire r).relist store.count (.task r.id)).dropIfUnneeded (.task r.id)) := by
  refine Changed.relist hg ?_
  have hnode : ∀ j, (x.retire r).node j = x.node j := by
    intro j
    by_cases hj : j = r.id
    · subst hj
      obtain ⟨old, hold⟩ := isSome_iff_exists.mp hlive
      simp [retire, node, hold, nodeOf_live h.toCore hr hold]
    · simp [retire, node, hj]
  have hup := up_congr hnode rfl
  have hotherLive := isLive_congr_of_ne (x := x) (y := x.retire r) (fun j hj => update_of_ne hj _ _)
  refine { node := ?_, edge := h.edge, apart := ?_, linked := ?_, placed := ?_, nodup := h.nodup,
           unloaded := ?_, queued := ?_, flagged := h.flagged, chains := ?_, known := ?_ }
  · intro j nd hj
    exact h.node j nd ((hnode j).symm.trans hj)
  · intro j r' hj
    have hjid : j ≠ r.id := by
      rintro rfl
      simp [retire] at hj
    simp only [retire, update_of_ne hjid] at hj ⊢
    exact h.apart j r' hj
  · intro m hm
    exact (h.linked m).of_other (hup m) (hotherLive m hm) rfl rfl
  · have hp := (h.linked (.task r.id)).placed
    exact ⟨fun p hmem => (hup _).trans (hp.below p hmem), fun c hc hmem => (hup _).trans (hp.root c hc hmem)⟩
  · intro j hj
    rw [hnode]
    exact h.unloaded j hj
  · intro m hm
    exact (h.queued m).of_other (hup m) (hotherLive m hm) rfl rfl
  · intro j hj
    have hjx : x.knownTask j = true := by
      rw [knownTask, hnode j] at hj
      exact hj
    exact (h.chains j hjx).mono (fun m v hm => (hup m).trans hm)
  · exact Store.has_task hr

theorem track_live_sound {x : Ownership} (h : Sound store x) (r : TaskRecord)
    (hr : store.tasks r.id = some r) (hlive : (x.live r.id).isSome = true) :
    Sound store { x with live := update x.live r.id (some r) } := by
  obtain ⟨old, hold⟩ := isSome_iff_exists.mp hlive
  have hnode : ∀ j, node { x with live := update x.live r.id (some r) } j = x.node j := by
    intro j
    by_cases hj : j = r.id
    · subst hj
      simp [node, hold, nodeOf_live h.toCore hr hold]
    · simp [node, hj]
  have hup := up_congr hnode rfl
  have hisLive : ∀ m, isLive { x with live := update x.live r.id (some r) } m = x.isLive m := by
    intro m
    cases m with
    | conversation d => rfl
    | task j =>
      by_cases hj : j = r.id
      · subst hj
        simp [isLive, hold]
      · simp [isLive, hj]
  have hchains : ∀ id, knownTask { x with live := update x.live r.id (some r) } id = true →
      Loaded { x with live := update x.live r.id (some r) } (.task id) := by
    intro j hj
    rw [knownTask, hnode j] at hj
    exact (h.chains j hj).mono (fun m v hm => (hup m).trans hm)
  refine { node := ?_, edge := h.edge, apart := ?_, linked := ?_, nodup := h.nodup, unloaded := ?_,
           loaded := fun id hid _ => hchains id hid, queued := ?_, flagged := h.flagged, chains := hchains }
  · intro j nd hj
    exact h.node j nd ((hnode j).symm.trans hj)
  · intro j r' hj
    by_cases hjid : j = r.id
    · subst hjid
      exact h.apart _ old hold
    · exact h.apart j r' (by simpa [hjid] using hj)
  · intro m
    exact (h.linked m).of_other (hup m) (hisLive m) rfl rfl
  · intro j hj
    rw [hnode]
    exact h.unloaded j hj
  · intro m
    exact (h.queued m).of_other (hup m) (hisLive m) rfl rfl

theorem track_new_sound (hg : store.Grounded rank) {x : Ownership}
    (h : Sound store x) (r : TaskRecord) (hr : store.tasks r.id = some r) (hnew : x.node r.id = none) :
    let next := { x with live := update x.live r.id (some r) }
    let next' := if next.known (parentOf r) then next else { next with unloaded := add next.unloaded r.id }
    Sound store (next'.relist store.count (.task r.id)) := by
  intro next next'
  have hsettled : x.settled r.id = none := by
    simp only [node, or_eq_none_iff, map_eq_none_iff] at hnew
    exact hnew.2
  have hnode : ∀ j, j ≠ r.id → next.node j = x.node j := by
    intro j hj
    simp [next, node, hj]
  have hself : next.node r.id = some (nodeOf r) := by
    simp [next, node]
  have hother := up_congr_of_ne hnode rfl
  have hparent : next.up (.task r.id) = some (some (parentOf r)) := by
    simp [up, hself, parentOf]
  have hnotUnloaded : r.id ∉ x.unloaded := by
    intro hmem
    simpa [hnew] using h.unloaded r.id hmem
  have hisLive := isLive_congr_of_ne (x := x) (y := next) (fun j hj => update_of_ne hj _ _)
  have hold : ∀ j, j ≠ r.id → next.knownTask j = true → next.Loaded (.task j) := by
    intro j hj hk
    rw [knownTask, hnode j hj] at hk
    exact (h.chains j hk).mono (up_grows hother (by simp [up, hnew]))
  -- both versions agree on everything but `unloaded`
  have hsame : next'.live = next.live ∧ next'.settled = next.settled ∧ next'.edges = next.edges ∧
      next'.below = next.below ∧ next'.roots = next.roots ∧ next'.dropQueue = next.dropQueue ∧
      next'.sweepScheduled = next.sweepScheduled := by
    simp only [next']
    split <;> exact ⟨rfl, rfl, rfl, rfl, rfl, rfl, rfl⟩
  obtain ⟨hl, hs, he, hb, hro, hq, hsw⟩ := hsame
  have hnode' : ∀ j, next'.node j = next.node j := fun j => by simp [node, hl, hs]
  have hup' := up_congr hnode' he
  have hlive' : ∀ m, next'.isLive m = next.isLive m := by
    intro m
    cases m <;> simp [isLive, hl]
  have hlift : ∀ m, next.Loaded m → next'.Loaded m := fun m hm => hm.mono (fun n v hv => (hup' n).trans hv)
  refine Changed.relist_needed hg ?_ (by simp [isLive, hl, next])
  refine { node := ?_, edge := ?_, apart := ?_, linked := ?_, placed := ?_, nodup := ?_, unloaded := ?_,
           queued := ?_, flagged := ?_, chains := ?_, known := ?_ }
  · intro j nd hj
    rw [hnode'] at hj
    by_cases hjid : j = r.id
    · subst hjid
      exact ⟨r, hr, by simpa using hself.symm.trans hj⟩
    · exact h.node j nd ((hnode j hjid).symm.trans hj)
  · intro c o hc
    rw [he] at hc
    exact h.edge c o hc
  · intro j r' hj
    rw [hl] at hj
    rw [hs]
    by_cases hjid : j = r.id
    · subst hjid
      exact hsettled
    · exact h.apart j r' (by simpa [next, hjid] using hj)
  · intro m hm
    exact (h.linked m).of_other ((hup' m).trans (hother m hm)) ((hlive' m).trans (hisLive m hm)) hb hro
  · exact (h.linked (.task r.id)).placed_of_unknown (by simp [up, hnew]) hb hro
  · intro p
    rw [hb]
    exact h.nodup p
  · intro j hj
    rw [hnode']
    by_cases hjid : j = r.id
    · subst hjid
      simp [hself]
    · rw [hnode j hjid]
      refine h.unloaded j ?_
      simp only [next'] at hj
      split at hj
      · exact hj
      · exact ((mem_add _ _ _).mp hj).resolve_left hjid
  · intro m hm
    exact (h.queued m).of_other ((hup' m).trans (hother m hm)) ((hlive' m).trans (hisLive m hm)) hb hq
  · intro hne
    rw [hsw]
    rw [hq] at hne
    exact h.flagged hne
  · intro j hj
    refine hlift _ ?_
    by_cases hjid : j = r.id
    · subst hjid
      -- known at once: its parent's chain is loaded
      have hknown : next.known (parentOf r) = true := by
        by_contra hk
        rw [knownTask] at hj
        simp only [next', hk, if_false, Bool.false_eq_true] at hj
        simp at hj
      refine .step hparent ?_
      have hdeep : rank (parentOf r) < rank (.task r.id) := hg.deeper _ _ (by simp [Store.up, hr])
      cases hp : parentOf r with
      | task o =>
        rw [hp] at hknown hdeep
        refine hold o ?_ hknown
        rintro rfl
        omega
      | conversation c =>
        rw [hp] at hknown hdeep
        cases hedge : next.edges c with
        | none => simp [known, hedge] at hknown
        | some o =>
          cases o with
          | none => exact .root (by simp [up, hedge])
          | some o =>
            simp only [known, hedge] at hknown
            refine .step (p := .task o) (by simp [up, hedge]) (hold o ?_ hknown)
            rintro rfl
            obtain ⟨rc, hrc, hoc⟩ := h.edge c _ hedge
            have hdeep' := hg.deeper (.conversation c) (.task r.id) (by simp [Store.up, hrc, hoc])
            omega
    · refine hold j hjid ?_
      rw [knownTask, hnode'] at hj
      rw [knownTask]
      simp only [Bool.and_eq_true, Bool.not_eq_true', decide_eq_false_iff_not] at hj ⊢
      refine ⟨hj.1, fun hmem => hj.2 ?_⟩
      simp only [next']
      split
      · exact hmem
      · exact (mem_add _ _ _).mpr (Or.inr hmem)
  · exact Store.has_task hr

end Ownership

end PiAgent.Harness
