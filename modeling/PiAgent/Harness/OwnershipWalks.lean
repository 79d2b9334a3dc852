import PiAgent.Harness.OwnershipLoads

/-!
# Walks down and walks up agree

A walk down meets a live task exactly when the walk up from the task comes to the
start without crossing a background task.
-/

namespace PiAgent.Harness

open Option Durable

/-! ## Ways up -/

inductive Under (node : Id → Option TaskNode) (edge : Id → Option (Option Id)) (pass : Id → TaskNode → Bool)
    (n : Node) : Node → Prop
  | here : Under node edge pass n n
  | conversation {c o : Id} (h : edge c = some (some o)) (hp : Under node edge pass n (.task o)) :
      Under node edge pass n (.conversation c)
  | task {id : Id} {nd : TaskNode} (h : node id = some nd) (hpass : pass id nd = true)
      (hp : Under node edge pass n nd.parent) : Under node edge pass n (.task id)

def ordinary (_ : Id) (node : TaskNode) : Bool := !node.background

theorem ordinary_iff (id : Id) (node : TaskNode) : ordinary id node = true ↔ node.background = false := by
  simp [ordinary]

section Under

variable {node : Id → Option TaskNode} {edge : Id → Option (Option Id)} {pass : Id → TaskNode → Bool}

theorem Under.trans {n m k : Node} (h : Under node edge pass m k) (h' : Under node edge pass n m) :
    Under node edge pass n k := by
  induction h with
  | here => exact h'
  | conversation hc _ ih => exact .conversation hc ih
  | task hn hb _ ih => exact .task hn hb ih

theorem Under.mono {node' : Id → Option TaskNode} {edge' : Id → Option (Option Id)} {pass' : Id → TaskNode → Bool}
    (hnode : ∀ id nd, node id = some nd → node' id = some nd) (hedge : ∀ c o, edge c = some o → edge' c = some o)
    (hpass : ∀ id nd, node id = some nd → pass id nd = true → pass' id nd = true) {n m : Node}
    (h : Under node edge pass n m) : Under node' edge' pass' n m := by
  induction h with
  | here => exact .here
  | conversation hc _ ih => exact .conversation (hedge _ _ hc) ih
  | task hn hb _ ih => exact .task (hnode _ _ hn) (hpass _ _ hn hb) ih

theorem under_task_iff (n : Node) (id : Id) (h : n ≠ .task id) : Under node edge pass n (.task id) ↔
      ∃ nd, node id = some nd ∧ pass id nd = true ∧ Under node edge pass n nd.parent := by
  constructor
  · intro hu
    cases hu with
    | here => exact absurd rfl h
    | task hn hb hp => exact ⟨_, hn, hb, hp⟩
  · rintro ⟨nd, hn, hb, hp⟩
    exact .task hn hb hp

theorem under_conversation_iff (n : Node) (c : Id) (h : n ≠ .conversation c) :
    Under node edge pass n (.conversation c) ↔ ∃ o, edge c = some (some o) ∧ Under node edge pass n (.task o) := by
  constructor
  · intro hu
    cases hu with
    | here => exact absurd rfl h
    | conversation hc hp => exact ⟨_, hc, hp⟩
  · rintro ⟨o, ho, hp⟩
    exact .conversation ho hp

/-- What a walk up from the parent of a task passes first: its owner task, or what hangs its conversation. -/
theorem under_parent_iff (o : Id) (nd : TaskNode) : Under node edge pass (.task o) nd.parent ↔
      ∃ owner, nd.owner.or (edge nd.conversationId).join = some owner ∧ Under node edge pass (.task o) (.task owner) := by
  unfold TaskNode.parent
  cases nd.owner with
  | some owner => simp
  | none =>
    rw [under_conversation_iff _ _ (by simp)]
    simp only [none_or, join_eq_some_iff]

end Under

def Store.node (store : Store) (id : Id) : Option TaskNode := (store.tasks id).map nodeOf

def Store.edge (store : Store) (c : Id) : Option (Option Id) := (store.conversations c).map ownerTask

def Store.Under (store : Store) : Node → Node → Prop := Harness.Under store.node store.edge ordinary

namespace Ownership

def Under (x : Ownership) : Node → Node → Prop := Harness.Under x.node x.edges ordinary

def upIn (x : Ownership) (overlay : Overlay) : Node → Option (Option Node)
  | .task id => (x.nodeIn overlay id).map (fun node => some node.parent)
  | .conversation c => (x.edge overlay c).map (Option.map Node.task)

/-! ## Walks down -/

variable (x : Ownership)

@[simp] theorem record_empty (id : Id) : x.record Overlay.empty id = x.live id := by
  simp [record, Overlay.empty]

@[simp] theorem nodeIn_empty : x.nodeIn Overlay.empty = x.node := by
  funext id
  simp [nodeIn, node]

@[simp] theorem edge_empty : x.edge Overlay.empty = x.edges := by
  funext c
  simp [edge, Overlay.empty]

@[simp] theorem links_empty (count : ℕ) : x.links count Overlay.empty = fun _ => [] := rfl

theorem upIn_empty (n : Node) : x.upIn Overlay.empty n = x.up n := by
  cases n <;> simp [upIn, up]

variable {store : Store} {rank : Node → ℕ}

theorem Core.forest (hg : store.Grounded rank) {x : Ownership} (h : Core store x) :
    Forest.IsForest x.below rank store.count := by
  have hhas : ∀ p c, c ∈ x.below p → store.has c = true ∧ x.up c = some (some p) := by
    intro p c hc
    have hup := (((h.linked c).below p).mp hc).1
    exact ⟨(store.has_iff c).mpr ⟨_, h.up c _ hup⟩, hup⟩
  refine ⟨?_, ?_, ?_, h.nodup⟩
  · intro p c hc
    exact h.deeper hg c p (hhas p c hc).2
  · intro p c hc
    exact hg.bound c (hhas p c hc).1
  · intro p q c d hc hd he
    obtain rfl := hg.injective c d (hhas p c hc).1 (hhas q d hd).1 he
    have hpq := (hhas p c hc).2.symm.trans (hhas q c hd).2
    exact ⟨rfl, by simpa using hpq⟩

/-- The nodes a walk down takes the children from: what is listed, and the links of the commit's own tasks. -/
def children (x : Ownership) (count : ℕ) (overlay : Overlay) (n : Node) : List Node :=
  x.below n ++ x.links count overlay n

theorem children_empty (count : ℕ) : x.children count Overlay.empty = x.below := by
  funext n
  simp [children]

theorem mem_walkDown {count : ℕ} {x : Ownership} {overlay : Overlay}
    (hf : Forest.IsForest (x.children count overlay) rank count) (crossBackground : Bool) (enter : Id → Bool)
    (n : Node) (t : Reached) :
    t ∈ x.walkDown count overlay crossBackground enter n ↔
      Forest.Below (x.children count overlay) (x.enters overlay crossBackground enter) n (.task t.id) ∧
        x.reached overlay (.task t.id) = some t := by
  have hwalk := Forest.mem_walk (x.enters overlay crossBackground enter) hf n
  unfold walkDown
  simp only [List.mem_filterMap]
  constructor
  · rintro ⟨m, hm, ht⟩
    cases m with
    | conversation c => simp [reached] at ht
    | task id =>
      have hid : t.id = id := by
        simp only [reached, map_eq_some_iff] at ht
        obtain ⟨_, -, rfl⟩ := ht
        rfl
      rw [hid]
      exact ⟨(hwalk _).mp hm, ht⟩
  · rintro ⟨hb, ht⟩
    exact ⟨_, (hwalk _).mpr hb, ht⟩

def passes (crossBackground : Bool) (enter : Id → Bool) (id : Id) (node : TaskNode) : Bool :=
  (crossBackground || !node.background) && enter id

theorem passes_ordinary : passes false (fun _ => true) = ordinary := by
  funext id node
  simp [passes, ordinary]

variable {x : Ownership}

theorem under_of_below {o : Overlay} {children : Node → List Node}
    (hup : ∀ p c, c ∈ children p → x.upIn o c = some (some p)) {crossBackground : Bool} {enter : Id → Bool}
    {n m : Node} (h : Forest.Below children (x.enters o crossBackground enter) n m) :
    ∃ p, m ∈ children p ∧
      Harness.Under (x.nodeIn o) (x.edge o) (passes crossBackground enter) n p := by
  induction h with
  | child h => exact ⟨n, h, .here⟩
  | @step m c _ henter hc ih =>
    refine ⟨m, hc, ?_⟩
    obtain ⟨p, hm, hu⟩ := ih
    have hmp := hup p m hm
    cases m with
    | conversation d =>
      simp only [upIn, map_eq_some_iff] at hmp
      obtain ⟨_ | o, ho, hmp⟩ := hmp
      · simp at hmp
      · obtain rfl : Node.task o = p := by simpa using hmp
        exact .conversation ho hu
    | task id =>
      obtain ⟨node, hnode, hb⟩ := (Option.any_eq_true _ _).mp henter
      have hp : node.parent = p := by simpa [upIn, hnode] using hmp
      exact .task hnode hb (hp ▸ hu)

structure Covers (x : Ownership) (overlay : Overlay) (children : Node → List Node) (Q : Node → Prop) : Prop where
  listed : ∀ n p, Q n → x.upIn overlay n = some (some p) → n ∈ children p
  up : ∀ n p, Q n → x.upIn overlay n = some (some p) → Q p

theorem below_of_under {overlay : Overlay} {children : Node → List Node} {Q : Node → Prop}
    (hQ : Covers x overlay children Q) {crossBackground : Bool} {enter : Id → Bool} {n p : Node}
    (hu : Harness.Under (x.nodeIn overlay) (x.edge overlay) (passes crossBackground enter) n p) (m : Node)
    (hm : m ∈ children p) (hp : Q p) : Forest.Below children (x.enters overlay crossBackground enter) n m := by
  induction hu generalizing m with
  | here => exact .child hm
  | @conversation c o hc _ ih =>
    have hup : x.upIn overlay (.conversation c) = some (some (.task o)) := by simp [upIn, hc]
    exact .step (ih _ (hQ.listed _ _ hp hup) (hQ.up _ _ hp hup)) rfl hm
  | @task id node hnode hb _ ih =>
    have hup : x.upIn overlay (.task id) = some (some node.parent) := by simp [upIn, hnode]
    refine .step (ih _ (hQ.listed _ _ hp hup) (hQ.up _ _ hp hup)) ?_ hm
    exact (Option.any_eq_true _ _).mpr ⟨node, hnode, hb⟩

theorem Core.covers (h : Core store x) : Covers x Overlay.empty x.below (fun n => x.needed n = true) := by
  refine ⟨fun n p hn hup => ?_, fun n p hn hup => ?_⟩
  · rw [upIn_empty] at hup
    exact ((h.linked n).below p).mpr ⟨hup, hn⟩
  · rw [upIn_empty] at hup
    exact needed_of_hangs h.linked hup hn

/-- A walk down reaches a live task exactly when its walk up comes to the start. -/
theorem mem_walkDown_iff_under (hg : store.Grounded rank) {x : Ownership}
    (h : Core store x) (crossBackground : Bool) (enter : Id → Bool) (n : Node) (id : Id) (r : TaskRecord)
    (hr : x.live id = some r) :
    (∃ t ∈ x.walkDown store.count Overlay.empty crossBackground enter n, t.id = id) ↔
      Harness.Under x.node x.edges (passes crossBackground enter) n (parentOf r) := by
  have hf : Forest.IsForest (x.children store.count Overlay.empty) rank store.count := by
    rw [children_empty]
    exact h.forest hg
  have hnode : x.node id = some (nodeOf r) := by simp [node, hr]
  have hup : x.up (.task id) = some (some (parentOf r)) := by simp [up, hnode, parentOf]
  have hneeded : x.needed (.task id) = true := (x.needed_iff_lists _).mpr (Or.inl (by simp [isLive, hr]))
  constructor
  · rintro ⟨t, ht, rfl⟩
    have hb := ((mem_walkDown hf _ _ _ t).mp ht).1
    rw [children_empty] at hb
    obtain ⟨p, hp, hu⟩ := under_of_below (o := Overlay.empty) (fun p c hc => by
      rw [upIn_empty]
      exact (((h.linked c).below p).mp hc).1) hb
    have hpp := hup.symm.trans (((h.linked _).below p).mp hp).1
    simp only [Option.some.injEq] at hpp
    rw [nodeIn_empty, edge_empty] at hu
    exact hpp ▸ hu
  · intro hu
    let t : Reached := { id := id, node := nodeOf r, live := (some r).filter (fun record => !isTerminal record) }
    have hreached : x.reached Overlay.empty (.task id) = some t := by
      simp [reached, hnode, hr, t]
    refine ⟨t, (mem_walkDown hf _ _ _ t).mpr ⟨?_, hreached⟩, rfl⟩
    rw [children_empty]
    refine below_of_under h.covers ?_ _ (((h.linked _).below _).mpr ⟨hup, hneeded⟩)
      (needed_of_hangs h.linked hup hneeded)
    rwa [nodeIn_empty, edge_empty]

theorem walkDown_iff_under (hg : store.Grounded rank) {x : Ownership}
    (h : Core store x) (n : Node) (id : Id) (r : TaskRecord) (hr : x.live id = some r) :
    (∃ t ∈ x.walkDown store.count Overlay.empty false (fun _ => true) n, t.id = id) ↔ x.Under n (parentOf r) := by
  rw [mem_walkDown_iff_under hg h false (fun _ => true) n id r hr, passes_ordinary]
  rfl

/-! ## Walks up -/

section

variable (hg : store.Grounded rank) {x : Ownership} (h : Core store x)
include hg h

theorem up_deeper_task {id : Id} {node : TaskNode} (hn : x.node id = some node) :
    rank node.parent < rank (.task id) :=
  h.deeper hg _ _ (by simp [up, hn])

theorem up_deeper_conversation {c o : Id} (hc : x.edges c = some (some o)) :
    rank (.task o) < rank (.conversation c) :=
  h.deeper hg _ _ (by simp [up, hc])

theorem inScopeOf_conversation (c : Id) (fuel : ℕ) (m : Node) (hfuel : rank m < fuel) :
    inScopeOf (.conversation c) false (x.above fuel m) = some true ↔ x.Under (.conversation c) m := by
  induction fuel generalizing m with
  | zero => omega
  | succ fuel ih =>
    cases m with
    | task id =>
      rw [Ownership.Under, under_task_iff _ id (by simp)]
      cases hn : x.node id with
      | none => simp [above, hn, inScopeOf]
      | some node =>
        have hdeep := up_deeper_task hg h hn
        simp only [above, hn, inScopeOf, Bool.not_false, Bool.and_true]
        cases hb : node.background with
        | true => simp [ordinary_iff, hb]
        | false =>
          rw [if_neg (by simp), ih node.parent (by omega)]
          constructor
          · exact fun hu => ⟨node, rfl, (ordinary_iff _ _).mpr hb, hu⟩
          · rintro ⟨node', hn', -, hu⟩
            exact some.inj hn' ▸ hu
    | conversation d =>
      by_cases hd : c = d
      · subst hd
        simp only [above, inScopeOf, if_true, true_iff]
        exact .here
      · rw [Ownership.Under, under_conversation_iff _ d (by simpa using hd)]
        simp only [above, inScopeOf, Scope.conversation.injEq, hd, if_false]
        cases hc : x.edges d with
        | none => simp [inScopeOf]
        | some o =>
          cases o with
          | none => simp [inScopeOf]
          | some o =>
            have hdeep := up_deeper_conversation hg h hc
            simp only [Option.some.injEq, exists_eq_left']
            exact ih (.task o) (by omega)

theorem inScopeOf_roots (fuel : ℕ) (m : Node) (hfuel : rank m < fuel) :
    inScopeOf .roots false (x.above fuel m) = some true ↔
      ∃ c, x.edges c = some none ∧ x.Under (.conversation c) m := by
  induction fuel generalizing m with
  | zero => omega
  | succ fuel ih =>
    cases m with
    | task id =>
      simp only [Ownership.Under, under_task_iff _ id (by simp : (Node.conversation _) ≠ .task id)]
      cases hn : x.node id with
      | none => simp [above, hn, inScopeOf]
      | some node =>
        have hdeep := up_deeper_task hg h hn
        simp only [above, hn, inScopeOf, Bool.not_false, Bool.and_true]
        cases hb : node.background with
        | true => simp [ordinary_iff, hb]
        | false =>
          rw [if_neg (by simp), ih node.parent (by omega)]
          constructor
          · rintro ⟨c, hc, hu⟩
            exact ⟨c, hc, node, rfl, (ordinary_iff _ _).mpr hb, hu⟩
          · rintro ⟨c, hc, node', hn', -, hu⟩
            exact ⟨c, hc, some.inj hn' ▸ hu⟩
    | conversation d =>
      simp only [above, inScopeOf, reduceCtorEq, if_false]
      cases hc : x.edges d with
      | none =>
        simp only [inScopeOf, reduceCtorEq, false_iff, not_exists, not_and]
        intro c hcn hu
        have hcd : c ≠ d := by
          rintro rfl
          simp [hc] at hcn
        obtain ⟨o, ho, -⟩ := (under_conversation_iff _ d (by simpa using hcd)).mp hu
        simp [hc] at ho
      | some o =>
        cases o with
        | none =>
          simp only [inScopeOf, decide_true, true_iff]
          exact ⟨d, hc, .here⟩
        | some o =>
          have hdeep := up_deeper_conversation hg h hc
          dsimp only
          rw [ih (.task o) (by omega)]
          constructor
          · rintro ⟨c, hcn, hu⟩
            exact ⟨c, hcn, .conversation hc hu⟩
          · rintro ⟨c, hcn, hu⟩
            have hcd : c ≠ d := by
              rintro rfl
              simp [hc] at hcn
            obtain ⟨o', ho', hu⟩ := (under_conversation_iff _ d (by simpa using hcd)).mp hu
            obtain rfl : o = o' := by simpa [hc] using ho'
            exact ⟨c, hcn, hu⟩

end

/-! ## The holders of ended work -/

def LiveOnly (x : Ownership) : Prop := ∀ id r, x.live id = some r → r.id = id ∧ isTerminal r = false

theorem Mirrors.liveOnly (hg : store.Grounded rank) {x : Ownership} (hm : Mirrors store x) : x.LiveOnly :=
  fun id r hr => ⟨hg.taskId id r ((hm id r).mp hr).1, ((hm id r).mp hr).2⟩

theorem nearestLiveAbove_under (hm : x.LiveOnly) (fuel : ℕ) (node : TaskNode)
    (r : TaskRecord) (h : x.nearestLiveAbove Overlay.empty fuel node = some r) :
    ∃ o, x.live o = some r ∧ node.background = false ∧ x.Under (.task o) node.parent := by
  induction fuel generalizing node with
  | zero => simp [nearestLiveAbove] at h
  | succ fuel ih =>
    unfold nearestLiveAbove at h
    simp only [edge_empty, record_empty] at h
    split at h
    · simp at h
    · rename_i hb
      rw [Bool.not_eq_true] at hb
      split at h
      · simp at h
      · rename_i owner howner
        cases hl : x.live owner with
        | some record =>
          have hterminal := (hm owner record hl).2
          simp only [hl, hterminal, Bool.false_eq_true, if_false, Option.some.injEq] at h
          subst h
          exact ⟨owner, hl, hb, (under_parent_iff owner node).mpr ⟨owner, howner, .here⟩⟩
        | none =>
          simp only [hl] at h
          cases hs : x.settled owner with
          | none => simp [hs] at h
          | some above =>
            simp only [hs] at h
            obtain ⟨o, ho, hab, hu⟩ := ih above h
            refine ⟨o, ho, hb, (under_parent_iff o node).mpr ⟨owner, howner, ?_⟩⟩
            exact .task (by simp [Ownership.node, hl, hs]) ((ordinary_iff _ _).mpr hab) hu

theorem nearestLiveAbove_of_deeper (hdeep : ∀ n p, x.up n = some (some p) → rank p < rank n) (hm : x.LiveOnly) (o : Id)
    (ho : (x.live o).isSome = true) (fuel : ℕ) (node : TaskNode) (hfuel : rank node.parent < fuel)
    (hb : node.background = false) (hu : x.Under (.task o) node.parent) :
    ∃ id r, x.live id = some r ∧ x.nearestLiveAbove Overlay.empty fuel node = some r ∧ rank (.task id) ≤ rank node.parent ∧
      (id = o ∨ (r.background = false ∧ x.Under (.task o) (parentOf r))) := by
  induction fuel generalizing node with
  | zero => omega
  | succ fuel ih =>
    obtain ⟨owner, howner, hu⟩ := (under_parent_iff o node).mp hu
    have hle : rank (.task owner) ≤ rank node.parent := by
      unfold TaskNode.parent
      cases hown : node.owner with
      | some w =>
        obtain rfl : w = owner := by simpa [hown] using howner
        exact le_rfl
      | none =>
        rw [hown, none_or, join_eq_some_iff] at howner
        exact (hdeep (.conversation _) (.task owner) (by simp [up, howner])).le
    unfold nearestLiveAbove
    simp only [edge_empty, record_empty, hb, Bool.false_eq_true, if_false, howner]
    cases hl : x.live owner with
    | some record =>
      have hterminal := (hm owner record hl).2
      refine ⟨owner, record, hl, by simp [hterminal], hle, ?_⟩
      by_cases heq : owner = o
      · exact Or.inl heq
      · obtain ⟨nd, hnd, hndb, hup⟩ := (under_task_iff _ owner (by simpa using Ne.symm heq)).mp hu
        obtain rfl : nodeOf record = nd := by simpa [Ownership.node, hl] using hnd
        exact Or.inr ⟨(ordinary_iff _ _).mp hndb, hup⟩
    | none =>
      have heq : o ≠ owner := by
        rintro rfl
        simp [hl] at ho
      obtain ⟨nd, hnd, hndb, hup⟩ := (under_task_iff _ owner (by simpa using heq)).mp hu
      have hs : x.settled owner = some nd := by simpa [Ownership.node, hl] using hnd
      have hrank : rank nd.parent < rank (.task owner) := hdeep _ _ (by simp [up, hnd])
      obtain ⟨id, r, hr, hnear, hrank', hor⟩ := ih nd (by omega) ((ordinary_iff _ _).mp hndb) hup
      exact ⟨id, r, hr, by simpa [hs] using hnear, by omega, hor⟩

def HeldBy (x : Ownership) (count : ℕ) (id holder : Id) : Prop :=
  ∃ r above, x.live id = some r ∧ x.nearestLiveAbove Overlay.empty count (nodeOf r) = some above ∧
    x.live holder = some above

theorem heldBy_iff_under (hg : store.Grounded rank) {x : Ownership}
    (h : Core store x) (hm : x.LiveOnly) (id o : Id) (r : TaskRecord) (hr : x.live id = some r)
    (ho : (x.live o).isSome = true) :
    Relation.TransGen (x.HeldBy store.count) id o ↔ r.background = false ∧ x.Under (.task o) (parentOf r) := by
  constructor
  · intro hheld
    induction hheld using Relation.TransGen.head_induction_on generalizing r with
    | single hs =>
      obtain ⟨r', above, hr', hnear, hlive⟩ := hs
      obtain rfl : r = r' := by simpa [hr] using hr'
      obtain ⟨o', ho', hb, hu⟩ := nearestLiveAbove_under hm _ _ _ hnear
      have hid : o' = o := (hm o' above ho').1.symm.trans (hm o above hlive).1
      exact ⟨hb, hid ▸ hu⟩
    | head hs _ ih =>
      obtain ⟨r', above, hr', hnear, hlive⟩ := hs
      obtain rfl : r = r' := by simpa [hr] using hr'
      obtain ⟨hab, hup⟩ := ih above hlive
      obtain ⟨o', ho', hb, hu⟩ := nearestLiveAbove_under hm _ _ _ hnear
      exact ⟨hb, hu.trans (.task (by simp [node, ho']) ((ordinary_iff _ _).mpr hab) hup)⟩
  · rintro ⟨hb, hu⟩
    induction hd : rank (parentOf r) using Nat.strong_induction_on generalizing id r with
    | _ d ih =>
      have hfuel : rank (parentOf r) < store.count :=
        hg.bound _ (hg.parent (.task id) _ (h.up _ _ (by simp [up, node, hr, parentOf])))
      obtain ⟨id', r', hr', hnear, hle, hor⟩ :=
        nearestLiveAbove_of_deeper (h.deeper hg) hm o ho store.count (nodeOf r) hfuel hb hu
      have hstep : x.HeldBy store.count id id' := ⟨r, r', hr, hnear, hr'⟩
      rcases hor with rfl | ⟨hb', hu'⟩
      · exact .single hstep
      · have hdeep := up_deeper_task hg h (show x.node id' = some (nodeOf r') by simp [node, hr'])
        have hle' : rank (.task id') ≤ rank (parentOf r) := hle
        have hlt : rank (parentOf r') < d := by
          rw [← hd]
          exact lt_of_lt_of_le hdeep hle'
        exact .head hstep (ih _ hlt id' r' hr' hb' hu' rfl)

end Ownership

end PiAgent.Harness
