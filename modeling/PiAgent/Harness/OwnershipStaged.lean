import PiAgent.Harness.OwnershipLinks

/-! # Chains above a commit's own tasks -/

namespace PiAgent.Harness

open Option Assoc Durable

namespace Ownership

/-! ## What loads make known -/

variable (x : Ownership)

theorem Grows.refl : Grows x x := fun _ _ h => h

theorem Grows.trans {x y z : Ownership} (h : Grows x y) (h' : Grows y z) : Grows x z :=
  fun n p hn => h' n p (h n p hn)

theorem loadChainFrom_grows (store : Store) (overlay : Overlay) (fuel : ℕ) (x : Ownership) (loaded : Bool)
    (at_ : Option Node) (passed : List Id) : Grows x (loadChainFrom store overlay fuel x loaded at_ passed).1 := by
  induction fuel generalizing x loaded at_ passed with
  | zero => cases at_ <;> exact Grows.refl x
  | succ fuel ih =>
    have hforget : Grows x { x with unloaded := x.unloaded.filter (fun id => id ∉ passed) } := fun _ _ hn => hn
    rcases at_ with _ | (id | c)
    · exact hforget
    · unfold loadChainFrom
      split
      · split
        · exact ih x loaded _ _
        · exact hforget
      · rename_i hnode
        split
        · exact hforget
        · split
          · exact Grows.refl x
          · rename_i r hr
            refine Grows.trans ?_ (ih _ true _ _)
            split
            · exact x.settle_grows _ id _ hnode
            · exact Grows.refl x
    · unfold loadChainFrom
      split
      · exact ih x loaded _ _
      · rename_i hedge
        rw [edge, or_eq_none_iff] at hedge
        exact Grows.trans (x.setEdge_grows _ c _ hedge.2) (ih _ true _ _)

theorem loadChainsFrom_grows (store : Store) (overlay : Overlay) (starts : List Node) (x : Ownership) (loaded : Bool) :
    Grows x (starts.foldl (fun s start =>
      let next := s.1.loadChain store overlay start
      (next.1, s.2 || next.2)) (x, loaded)).1 := by
  induction starts generalizing x loaded with
  | nil => exact Grows.refl x
  | cons n starts ih => exact Grows.trans (loadChainFrom_grows store overlay _ x false (some n) []) (ih _ _)

theorem upIn_grows {x y : Ownership} (h : Grows x y) (overlay : Overlay) (n : Node) (v : Option Node)
    (hn : x.upIn overlay n = some v) : y.upIn overlay n = some v := by
  cases n with
  | task id =>
    cases hg : get? overlay.tasks id with
    | some r => simpa [upIn, nodeIn, record, hg] using hn
    | none =>
      have hup : ∀ z : Ownership, z.upIn overlay (.task id) = z.up (.task id) := by
        intro z
        simp [upIn, nodeIn, record, hg, up, node]
      rw [hup] at hn ⊢
      exact h _ _ hn
  | conversation c =>
    cases hg : get? overlay.edges c with
    | some o => simpa [upIn, edge, hg] using hn
    | none =>
      have hup : ∀ z : Ownership, z.upIn overlay (.conversation c) = z.up (.conversation c) := by
        intro z
        simp [upIn, edge, hg, up]
      rw [hup] at hn ⊢
      exact h _ _ hn

/-! ## Chains in the candidates' view -/

inductive Leads (x : Ownership) (overlay : Overlay) : Node → Prop
  | root {n : Node} (h : x.upIn overlay n = some none) : Leads x overlay n
  | stop {id : Id} (h : has overlay.tasks id = true) : Leads x overlay (.task id)
  | step {n p : Node} (h : x.upIn overlay n = some (some p)) (hp : Leads x overlay p) : Leads x overlay n

theorem Leads.grows {x y : Ownership} (h : Grows x y) {overlay : Overlay} {n : Node} (hl : x.Leads overlay n) :
    y.Leads overlay n := by
  induction hl with
  | root hn => exact .root (upIn_grows h overlay _ _ hn)
  | stop ho => exact .stop ho
  | step hn _ ih => exact .step (upIn_grows h overlay _ _ hn) ih

variable {x : Ownership} {overlay : Overlay}

theorem Leads.above {n : Node} {v : Option Node}
    (hup : x.upIn overlay n = some v) (hl : ∀ p, v = some p → x.Leads overlay p) : x.Leads overlay n := by
  cases v with
  | none => exact .root hup
  | some p => exact .step hup (hl p rfl)

variable {store candidate : Store}

theorem Loaded.leads {overlay : Overlay} {x : Ownership}
    (ho : overlay.Over store candidate) (hx : Core store x) {n : Node} (h : x.Loaded n) : x.Leads overlay n := by
  induction h with
  | root h => exact .root (upIn_of_up ho hx _ _ h)
  | step h _ ih => exact .step (upIn_of_up ho hx _ _ h) ih

section

variable {rank depth : Node → ℕ} (hg : store.Grounded rank) {overlay : Overlay} (hd : overlay.Deep store depth)
    (hf : Fits store overlay) (ho : overlay.Over store candidate)
include hg hd hf ho

theorem loadChainFrom_leads (fuel : ℕ) (x : Ownership) (loaded : Bool) (at_ : Option Node) (passed : List Id)
    (h : Loading store overlay x at_ passed) (hfuel : ∀ n, at_ = some n → depth n < fuel) (n : Node)
    (hn : at_ = some n) : (loadChainFrom store overlay fuel x loaded at_ passed).1.Leads overlay n := by
  induction fuel generalizing x loaded at_ passed n with
  | zero =>
    have := hfuel n hn
    omega
  | succ fuel ih =>
    subst hn
    have hdepth := hfuel n rfl
    rcases loadChainFrom_turn hg hf fuel x loaded n passed h with
      ⟨heq, hs, hend⟩ | ⟨y, next, above, passed', heq, hy, -, hup, -⟩
    · rw [heq]
      rcases hend with hloaded | ⟨id, rfl, hov⟩
      · have hgrows : Grows x { x with unloaded := x.unloaded.filter (fun id => id ∉ passed) } := fun _ _ hn => hn
        exact (hloaded.leads ho h.sound.toCore).grows hgrows
      · exact .stop hov
    · have hupIn : y.upIn overlay n = some above := by
        rcases hup with hup | ⟨c, owner, rfl, hov, rfl⟩
        · exact upIn_of_up ho hy.sound.toCore _ _ hup
        · simp [upIn, edge, hov]
      rw [heq]
      refine Leads.above (upIn_grows (loadChainFrom_grows store overlay fuel y next above passed') overlay n above hupIn) ?_
      refine fun p hp => ih y next above passed' hy (fun q hq => ?_) p hp
      have := GoesUp.deeper hd hy.sound (hq ▸ hup)
      omega

theorem loadChains_leads (starts : List Node)
    (hstarts : ∀ n ∈ starts, (store.has n = true ∨ Overlay.has overlay n = true) ∧
      depth n < store.count + overlay.tasks.length + overlay.edges.length) {x : Ownership} (h : Sound store x)
    (hm : Mirrors store x) : ∀ n ∈ starts, (x.loadChains store overlay starts).1.Leads overlay n := by
  unfold loadChains
  generalize false = loaded
  induction starts generalizing x loaded with
  | nil => simp
  | cons n starts ih =>
    obtain ⟨hstart, hdepth⟩ := hstarts n List.mem_cons_self
    obtain ⟨hs, hm'⟩ := loadChain_sound hg hf h hm n hstart
    intro k hk
    rcases List.mem_cons.mp hk with rfl | hk
    · refine Leads.grows (loadChainsFrom_grows store overlay starts _ _) ?_
      refine loadChainFrom_leads hg hd hf ho _ x false (some k) [] (loading_start h hm k hstart) ?_ k rfl
      intro m hmk
      obtain rfl := some.inj hmk
      omega
    · exact ih (fun m hmem => hstarts m (List.mem_cons_of_mem _ hmem)) hs hm' _ k hk

end

/-! ## Nothing is missed -/

theorem Views.under_of_leads {overlay : Overlay} {x : Ownership} (h : x.Views store candidate overlay)
    (hstaged : ∀ id r, get? overlay.tasks id = some r → x.Leads overlay (parentOf r))
    {pass : Id → TaskNode → Bool} {n m : Node} (hl : x.Leads overlay m)
    (hu : Harness.Under candidate.node candidate.edge pass n m) :
    Harness.Under (x.nodeIn overlay) (x.edge overlay) pass n m := by
  -- a known node on the way has its candidate's parent
  have htask : ∀ id nd, candidate.node id = some nd → x.Leads overlay (.task id) →
      x.nodeIn overlay id = some nd ∧ x.Leads overlay nd.parent := by
    intro id nd hnd hlead
    have hknown : ∀ p, x.upIn overlay (.task id) = some p → x.nodeIn overlay id = some nd ∧ p = some nd.parent := by
      intro p hp
      obtain ⟨nd', hnd', rfl⟩ := map_eq_some_iff.mp hp
      have := (nodeIn_candidate h.overlaid h.core h.mirrors id nd' hnd').symm.trans hnd
      obtain rfl := some.inj this
      exact ⟨hnd', rfl⟩
    cases hlead with
    | root hr => simpa using (hknown none hr).2
    | stop hov =>
      obtain ⟨r, hr⟩ : ∃ r, get? overlay.tasks id = some r := by
        rw [← ne_none_iff_exists', ne_eq, get?_eq_none_iff, ← has_iff]
        simpa using hov
      obtain ⟨hnode, hp⟩ := hknown (some (parentOf r)) (by simp [upIn, nodeIn, record, hr, parentOf])
      exact ⟨hnode, some.inj hp ▸ hstaged id r hr⟩
    | step hs hp =>
      obtain ⟨hnode, hpp⟩ := hknown _ hs
      exact ⟨hnode, some.inj hpp ▸ hp⟩
  induction hu with
  | here => exact .here
  | @conversation c o hc _ ih =>
    have hknown : ∀ v, x.upIn overlay (.conversation c) = some v → x.edge overlay c = some (some o) ∧ v = some (.task o) := by
      intro v hv
      obtain ⟨o', ho', rfl⟩ := map_eq_some_iff.mp hv
      have := (edge_candidate h.overlaid h.core c o' ho').symm.trans hc
      obtain rfl := some.inj this
      exact ⟨ho', rfl⟩
    cases hl with
    | root hr => simpa using (hknown none hr).2
    | step hs hp =>
      obtain ⟨hedge, hpp⟩ := hknown _ hs
      exact .conversation hedge (ih (some.inj hpp ▸ hp))
  | @task id nd hn hpass _ ih =>
    obtain ⟨hnode, hp⟩ := htask id nd hn hl
    exact .task hnode hpass (ih hp)

theorem Views.owned_of_empty {overlay : Overlay} {x : Ownership}
    (h : x.Views store candidate overlay) (hs : Sound store x) (hfull : x.unloaded = [])
    (hstaged : ∀ id r, get? overlay.tasks id = some r → x.Leads overlay (parentOf r)) (count : ℕ)
    (hcount : candidate.count ≤ count) (done : List Id) (hdone : ∀ d ∈ done, ∀ t, ¬candidate.Owned d t) (o : Id)
    (hnone : x.hasOwnedLive count overlay done o = false) (t : Id) : ¬candidate.Owned o t := by
  rintro ⟨r, hr, ht, hb, hu⟩
  have hlead : x.Leads overlay (parentOf r) := by
    cases hg : get? overlay.tasks t with
    | some r' =>
      obtain rfl : r' = r := by simpa [h.overlaid.task t r' hg] using hr
      exact hstaged t r' hg
    | none =>
      rw [h.overlaid.otherTask t hg] at hr
      exact (hs.loaded_parent ((h.mirrors t r).mpr ⟨hr, ht⟩) (by simp [hfull])).leads h.overlaid h.core
  have hmem := h.ownedLive_complete count hcount done o t r hr ht hb (h.under_of_leads hstaged hlead hu)
    (fun d hd => hdone d hd t)
  have hempty : x.ownedLive count overlay done o = [] := by simpa [hasOwnedLive] using hnone
  simp [hempty] at hmem

end Ownership

end PiAgent.Harness
