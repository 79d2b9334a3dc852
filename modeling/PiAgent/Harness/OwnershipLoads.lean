import PiAgent.Harness.OwnershipSweep

/-! # Chain loads -/

namespace PiAgent.Harness

open Option Durable

namespace Ownership

/-! ## What is known grows -/

def Grows (x y : Ownership) : Prop := ∀ n p, x.up n = some p → y.up n = some p

theorem Grows.hangs {x y : Ownership} (h : Grows x y) {n m : Node} (hc : Relation.ReflTransGen x.Hangs n m) :
    Relation.ReflTransGen y.Hangs n m :=
  hc.lift id (fun _ _ hs => h _ _ hs)

variable (x : Ownership) (count : ℕ) (c : Id) (o : Option Id)

theorem setEdge_sameNodes :
    SameNodes { x with edges := Function.update x.edges c (some o) } (x.setEdge count c o) :=
  (relist_sameNodes _ _ _).trans (dropIfUnneeded_sameNodes _ _)

variable (id : Id) (node : TaskNode)

theorem settle_sameNodes :
    SameNodes { x with settled := Function.update x.settled id (some node), unloaded := add x.unloaded id }
      (x.settle count id node) :=
  (relist_sameNodes _ _ _).trans (dropIfUnneeded_sameNodes _ _)

theorem setEdge_grows (hnew : x.edges c = none) : Grows x (x.setEdge count c o) := by
  intro n p hn
  rw [(x.setEdge_sameNodes count c o).up]
  cases n with
  | task id => exact hn
  | conversation d =>
    have hd : d ≠ c := by
      rintro rfl
      simp [up, hnew] at hn
    simpa [up, hd] using hn

theorem setEdge_up : (x.setEdge count c o).up (.conversation c) = some (o.map Node.task) := by
  rw [(x.setEdge_sameNodes count c o).up]
  simp [up]

theorem settle_grows (hnew : x.node id = none) : Grows x (x.settle count id node) := by
  intro n p hn
  rw [(x.settle_sameNodes count id node).up]
  cases n with
  | conversation d => exact hn
  | task j =>
    have hj : j ≠ id := by
      rintro rfl
      simp [up, hnew] at hn
    simpa [up, Ownership.node, hj] using hn

theorem settle_up (hnew : x.node id = none) : (x.settle count id node).up (.task id) = some (some node.parent) := by
  rw [(x.settle_sameNodes count id node).up]
  simp only [Ownership.node, or_eq_none_iff, map_eq_none_iff] at hnew
  simp [up, Ownership.node, hnew.1]

@[simp] theorem setEdge_live : (x.setEdge count c o).live = x.live :=
  (x.setEdge_sameNodes count c o).live

@[simp] theorem settle_live : (x.settle count id node).live = x.live :=
  (x.settle_sameNodes count id node).live

@[simp] theorem setEdge_unloaded : (x.setEdge count c o).unloaded = x.unloaded :=
  (x.setEdge_sameNodes count c o).unloaded

@[simp] theorem settle_unloaded : (x.settle count id node).unloaded = add x.unloaded id :=
  (x.settle_sameNodes count id node).unloaded

variable {store : Store}

theorem forget_sound {x : Ownership} (h : Sound store x) (passed : List Id)
    (hpassed : ∀ q ∈ passed, x.Loaded (.task q)) :
    Sound store { x with unloaded := x.unloaded.filter (fun id => id ∉ passed) } := by
  have hgrows : Grows x { x with unloaded := x.unloaded.filter (fun id => id ∉ passed) } := fun _ _ hn => hn
  have hchains : ∀ id, knownTask { x with unloaded := x.unloaded.filter (fun id => id ∉ passed) } id = true →
      Loaded { x with unloaded := x.unloaded.filter (fun id => id ∉ passed) } (.task id) := by
    intro id hid
    refine Loaded.mono hgrows ?_
    by_cases hp : id ∈ passed
    · exact hpassed id hp
    · refine h.chains id ?_
      rw [knownTask, Bool.and_eq_true, Bool.not_eq_true', decide_eq_false_iff_not] at hid ⊢
      refine ⟨hid.1, fun hmem => hid.2 ?_⟩
      simp [hmem, hp]
  refine { h with linked := ?_, unloaded := ?_, loaded := fun id hid _ => hchains id hid, chains := hchains,
                  queued := h.queued, flagged := h.flagged }
  · intro n
    exact ⟨(h.linked n).below, (h.linked n).root⟩
  · intro id hid
    exact h.unloaded id (List.mem_of_mem_filter hid)

/-! ## The loop -/

def Mirrors (store : Store) (x : Ownership) : Prop :=
  ∀ id r, x.live id = some r ↔ store.tasks id = some r ∧ isTerminal r = false

structure Fits (store : Store) (overlay : Overlay) : Prop where
  tasks : ∀ id, Assoc.has overlay.tasks id = true →
    store.tasks id = none ∨ ∃ r, store.tasks id = some r ∧ isTerminal r = false
  edges : ∀ c, (Assoc.get? overlay.edges c).isSome = true → store.conversations c = none
  owners : ∀ c o, Assoc.get? overlay.edges c = some (some o) →
    (store.tasks o).isSome = true ∨ Assoc.has overlay.tasks o = true

theorem fits_empty (store : Store) : Fits store Overlay.empty :=
  ⟨by simp [Overlay.empty, Assoc.has], by simp [Overlay.empty], by simp [Overlay.empty]⟩

def Overlay.has (overlay : Overlay) : Node → Bool
  | .task id => Assoc.has overlay.tasks id
  | .conversation c => (Assoc.get? overlay.edges c).isSome

structure Loading (store : Store) (overlay : Overlay) (x : Ownership) (at_ : Option Node) (passed : List Id) : Prop where
  sound : Sound store x
  mirrors : Mirrors store x
  leads : ∀ q ∈ passed, match at_ with
    | some n => Relation.ReflTransGen x.Hangs (.task q) n
    | none => x.Loaded (.task q)
  stored : ∀ n, at_ = some n → store.has n = true ∨ (passed = [] ∧ Overlay.has overlay n = true)

variable {rank : Node → ℕ}

theorem Loading.next (hg : store.Grounded rank) {overlay : Overlay} {x y : Ownership}
    {n : Node} {passed l : List Id} {p : Option Node} (h : Loading store overlay x (some n) passed)
    (hsound : Sound store y) (hlive : y.live = x.live) (hgrows : Grows x y) (hup : y.up n = some p)
    (hpassed : ∀ q ∈ l, q ∈ passed ∨ n = .task q) : Loading store overlay y p l := by
  have hleads : ∀ q ∈ l, Relation.ReflTransGen y.Hangs (.task q) n := by
    intro q hq
    rcases hpassed q hq with hq | rfl
    · exact hgrows.hangs (h.leads q hq)
    · exact .refl
  refine ⟨hsound, ?_, ?_, ?_⟩
  · intro id r
    rw [hlive]
    exact h.mirrors id r
  · intro q hq
    cases p with
    | none => exact Loaded.of_hangs (hleads q hq) (.root hup)
    | some p => exact (hleads q hq).tail hup
  · intro m hm
    exact Or.inl (hg.parent n m (hsound.up n _ (hm ▸ hup)))

theorem Loading.finish {overlay : Overlay} {x : Ownership} {n : Node} {passed : List Id}
    (h : Loading store overlay x (some n) passed) (hl : x.Loaded n) :
    Sound store { x with unloaded := x.unloaded.filter (fun id => id ∉ passed) } :=
  forget_sound h.sound passed (fun q hq => Loaded.of_hangs (h.leads q hq) hl)

/-- An edge that a load goes up: one that is known afterwards, or one of this commit. -/
def GoesUp (overlay : Overlay) (y : Ownership) (n : Node) (above : Option Node) : Prop :=
  y.up n = some above ∨
    ∃ c owner, n = .conversation c ∧ Assoc.get? overlay.edges c = some owner ∧ above = owner.map Node.task

/-- One turn of a load ends at a loaded node or at a task of this commit, or goes on from the node above. -/
theorem loadChainFrom_turn (hg : store.Grounded rank) {overlay : Overlay} (hf : Fits store overlay) (fuel : ℕ)
    (x : Ownership) (loaded : Bool) (n : Node) (passed : List Id) (h : Loading store overlay x (some n) passed) :
    (loadChainFrom store overlay (fuel + 1) x loaded (some n) passed =
        ({ x with unloaded := x.unloaded.filter (fun id => id ∉ passed) }, loaded) ∧
      Sound store { x with unloaded := x.unloaded.filter (fun id => id ∉ passed) } ∧
      (x.Loaded n ∨ ∃ id, n = .task id ∧ Assoc.has overlay.tasks id = true)) ∨
    ∃ y next above passed', loadChainFrom store overlay (fuel + 1) x loaded (some n) passed =
        loadChainFrom store overlay fuel y next above passed' ∧
      Loading store overlay y above passed' ∧ y.live = x.live ∧ GoesUp overlay y n above ∧
      (∀ q ∈ passed, q ∈ passed') ∧ ∀ q ∈ y.unloaded, q ∈ x.unloaded ∨ q ∈ passed' := by
  have hstored : Overlay.has overlay n = false → store.has n = true := by
    intro ho
    rcases h.stored n rfl with hs | ⟨-, hov⟩
    · exact hs
    · simp [ho] at hov
  -- nothing was passed below what this commit creates
  have hcreated : store.has n = false → passed = [] ∧ Overlay.has overlay n = true := by
    intro hs
    rcases h.stored n rfl with hs' | ho
    · simp [hs] at hs'
    · exact ho
  cases n with
  | task id =>
    rw [loadChainFrom]
    have hmore : ∀ q ∈ passed ++ [id], q ∈ passed ∨ Node.task id = .task q := by
      intro q hq
      rw [List.mem_append, List.mem_singleton] at hq
      exact hq.imp_right (by rintro rfl; rfl)
    cases hnode : x.node id with
    | some node =>
      have hup : x.up (.task id) = some (some node.parent) := by simp [up, hnode]
      by_cases hun : id ∈ x.unloaded
      · simp only [if_pos hun]
        exact .inr ⟨x, loaded, _, _, rfl, h.next hg h.sound rfl (fun _ _ hn => hn) hup hmore, rfl, .inl hup,
          fun q hq => List.mem_append_left _ hq, fun q hq => .inl hq⟩
      · have hchain := h.sound.chains id (by simp [knownTask, hnode, hun])
        exact .inl ⟨by simp only [if_neg hun], h.finish hchain, .inl hchain⟩
    | none =>
      have hnotLive : x.live id = none := by
        simp only [Ownership.node, or_eq_none_iff, map_eq_none_iff] at hnode
        exact hnode.1
      have hended : ∀ r, store.tasks id = some r → isTerminal r = true := by
        intro r hr
        by_contra ht
        rw [Bool.not_eq_true] at ht
        simp [(h.mirrors id r).mpr ⟨hr, ht⟩] at hnotLive
      by_cases hov : Assoc.has overlay.tasks id = true
      · have hnone : store.tasks id = none := by
          rcases hf.tasks id hov with hnone | ⟨r, hr, ht⟩
          · exact hnone
          · simp [hended r hr] at ht
        have hpassed := (hcreated (by simp [Store.has, Store.up, hnone])).1
        exact .inl ⟨by simp only [if_pos hov], forget_sound h.sound passed (by simp [hpassed]), .inr ⟨id, rfl, hov⟩⟩
      · have hs := hstored (by simpa [Overlay.has] using hov)
        obtain ⟨r, hr⟩ : ∃ r, store.tasks id = some r := by simpa [Store.has, Store.up, isSome_iff_exists] using hs
        have hup := x.settle_up store.count id (nodeOf r) hnode
        simp only [if_neg hov, hr, if_pos (hended r hr)]
        refine .inr ⟨_, true, _, _, rfl, h.next hg (settle_sound hg h.sound id r hr hnode) (by simp)
          (x.settle_grows _ id _ hnode) hup hmore, by simp, .inl hup, fun q hq => List.mem_append_left _ hq, ?_⟩
        intro q hq
        rw [settle_unloaded, mem_add] at hq
        rcases hq with rfl | hq
        · exact .inr (List.mem_append_right _ (List.mem_singleton_self _))
        · exact .inl hq
  | conversation c =>
    rw [loadChainFrom]
    cases hedge : x.edge overlay c with
    | some owner =>
      refine .inr ⟨x, loaded, _, _, rfl, ?_, rfl, ?_, fun q hq => hq, fun q hq => .inl hq⟩
      · rcases or_eq_some_iff.mp hedge with hov | ⟨-, hedge⟩
        · obtain ⟨rfl, -⟩ := hcreated (by simp [Store.has, Store.up, hf.edges c (by simp [hov])])
          refine ⟨h.sound, h.mirrors, by simp, fun n hn => ?_⟩
          obtain ⟨o, rfl, rfl⟩ := map_eq_some_iff.mp hn
          exact (hf.owners c o hov).imp (by simp [Store.has, Store.up]) (fun ho => ⟨rfl, ho⟩)
        · exact h.next hg h.sound rfl (fun _ _ hn => hn) (by simp [up, hedge]) (fun q hq => .inl hq)
      · rcases or_eq_some_iff.mp hedge with hov | ⟨-, hedge⟩
        · exact .inr ⟨c, owner, rfl, hov, rfl⟩
        · exact .inl (by simp [up, hedge])
    | none =>
      rw [edge, or_eq_none_iff] at hedge
      have hs := hstored (by simp [Overlay.has, hedge.1])
      obtain ⟨r, hr⟩ : ∃ r, store.conversations c = some r := by
        simpa [Store.has, Store.up, isSome_iff_exists] using hs
      have howner : (store.conversations c).bind ownerTask = ownerTask r := by simp [hr]
      have hup := x.setEdge_up store.count c (ownerTask r)
      simp only [howner]
      exact .inr ⟨_, true, _, _, rfl, h.next hg (setEdge_sound hg h.sound c r hr hedge.2) (by simp)
        (x.setEdge_grows _ c _ hedge.2) hup (fun q hq => .inl hq), by simp, .inl hup, fun q hq => hq,
        fun q hq => .inl (by simpa using hq)⟩

theorem loadChainFrom_sound (hg : store.Grounded rank) {overlay : Overlay}
    (hf : Fits store overlay) (fuel : ℕ) (x : Ownership) (loaded : Bool) (at_ : Option Node) (passed : List Id)
    (h : Loading store overlay x at_ passed) :
    Sound store (loadChainFrom store overlay fuel x loaded at_ passed).1 ∧
      (loadChainFrom store overlay fuel x loaded at_ passed).1.live = x.live := by
  induction fuel generalizing x loaded at_ passed with
  | zero => cases at_ <;> exact ⟨h.sound, rfl⟩
  | succ fuel ih =>
    cases at_ with
    | none => exact ⟨forget_sound h.sound passed h.leads, rfl⟩
    | some n =>
      rcases loadChainFrom_turn hg hf fuel x loaded n passed h with
        ⟨heq, hs, -⟩ | ⟨y, next, above, passed', heq, hy, hlive, -⟩
      · rw [heq]
        exact ⟨hs, rfl⟩
      · rw [heq, ← hlive]
        exact ih y next above passed' hy

theorem loadChain_sound (hg : store.Grounded rank) {overlay : Overlay}
    (hf : Fits store overlay) {x : Ownership} (h : Sound store x) (hm : Mirrors store x) (start : Node)
    (hstart : store.has start = true ∨ Overlay.has overlay start = true) :
    Sound store (x.loadChain store overlay start).1 ∧ Mirrors store (x.loadChain store overlay start).1 := by
  have hloading : Loading store overlay x (some start) [] := by
    refine ⟨h, hm, by simp, ?_⟩
    intro n hn
    obtain rfl : start = n := by simpa using hn
    exact hstart.imp_right (fun ho => ⟨rfl, ho⟩)
  obtain ⟨hs, hl⟩ := loadChainFrom_sound hg hf (store.count + overlay.tasks.length + overlay.edges.length + 1) x
    false (some start) [] hloading
  refine ⟨hs, ?_⟩
  intro id r
  rw [loadChain, hl]
  exact hm id r

end Ownership

end PiAgent.Harness
