import PiAgent.Harness.OwnershipExact

/-! # Complete loads -/

namespace PiAgent.Harness

open Option List Durable

/-! ## Loads leave nothing behind -/

structure Overlay.Deep (store : Store) (overlay : Overlay) (rank : Node → ℕ) : Prop where
  stored : ∀ n p, store.up n = some (some p) → rank p < rank n
  edges : ∀ c o, Assoc.get? overlay.edges c = some (some o) → rank (.task o) < rank (.conversation c)

theorem Store.Grounded.deep {store : Store} {rank : Node → ℕ} (hg : store.Grounded rank) :
    Overlay.empty.Deep store rank :=
  ⟨hg.deeper, by simp [Overlay.empty]⟩

namespace Ownership

variable {store : Store} {rank depth : Node → ℕ}

theorem GoesUp.deeper {overlay : Overlay} (hd : overlay.Deep store depth) {y : Ownership} (h : Sound store y)
    {n p : Node} (hup : GoesUp overlay y n (some p)) : depth p < depth n := by
  rcases hup with hup | ⟨c, owner, rfl, hov, howner⟩
  · exact hd.stored _ _ (h.up _ _ hup)
  · obtain ⟨o, rfl, rfl⟩ := map_eq_some_iff.mp howner.symm
    exact hd.edges c o hov

theorem loadChainFrom_unloaded (hg : store.Grounded rank) {overlay : Overlay}
    (hd : overlay.Deep store depth) (hf : Fits store overlay) (fuel : ℕ) (x : Ownership) (loaded : Bool)
    (at_ : Option Node) (passed : List Id) (h : Loading store overlay x at_ passed) (hpos : 0 < fuel)
    (hfuel : ∀ n, at_ = some n → depth n + 1 < fuel) :
    ∀ id ∈ (loadChainFrom store overlay fuel x loaded at_ passed).1.unloaded, id ∈ x.unloaded ∧ id ∉ passed := by
  induction fuel generalizing x loaded at_ passed with
  | zero => omega
  | succ fuel ih =>
    have hfilter : ∀ id ∈ x.unloaded.filter (fun id => id ∉ passed), id ∈ x.unloaded ∧ id ∉ passed := by
      intro id hid
      simpa using hid
    cases at_ with
    | none => exact hfilter
    | some n =>
      have hdepth := hfuel n rfl
      rcases loadChainFrom_turn hg hf fuel x loaded n passed h with
        ⟨heq, -⟩ | ⟨y, next, above, passed', heq, hy, -, hup, hpassed, hunloaded⟩
      · rw [heq]
        exact hfilter
      · rw [heq]
        intro id hid
        obtain ⟨hmem, hnot⟩ := ih y next above passed' hy (by omega) (fun p hp => by
          have := GoesUp.deeper hd hy.sound (hp ▸ hup)
          omega) id hid
        exact ⟨(hunloaded id hmem).resolve_right hnot, fun hp => hnot (hpassed id hp)⟩

theorem loading_start {o : Overlay} {x : Ownership} (h : Sound store x) (hm : Mirrors store x)
    (start : Node) (hstart : store.has start = true ∨ Overlay.has o start = true) :
    Loading store o x (some start) [] := by
  refine ⟨h, hm, by simp, ?_⟩
  intro n hn
  obtain rfl := some.inj hn
  exact hstart.imp_right (fun ho => ⟨rfl, ho⟩)

theorem loadChain_unloaded (hg : store.Grounded rank) {overlay : Overlay}
    (hd : overlay.Deep store depth) (hf : Fits store overlay) {x : Ownership} (h : Sound store x)
    (hm : Mirrors store x) (start : Node) (hstart : store.has start = true ∨ Overlay.has overlay start = true)
    (hdepth : depth start < store.count + overlay.tasks.length + overlay.edges.length) :
    ∀ id ∈ (x.loadChain store overlay start).1.unloaded, id ∈ x.unloaded := by
  intro id hid
  unfold loadChain at hid
  refine (loadChainFrom_unloaded hg hd hf _ x false (some start) [] (loading_start h hm start hstart) (by omega) ?_ id
    hid).1
  intro n hn
  obtain rfl := some.inj hn
  omega

section

variable {rank : Node → ℕ} (hg : store.Grounded rank) {x : Ownership} (h : Sound store x) (hm : Mirrors store x)
include hg h hm

theorem loadChain_task_unloaded (id : Id) (hid : id ∈ x.unloaded) :
    id ∉ (x.loadChain store Overlay.empty (.task id)).1.unloaded := by
  obtain ⟨nd, hnd⟩ := isSome_iff_exists.mp (h.unloaded id hid)
  obtain ⟨r, hr, rfl⟩ := h.node id nd hnd
  have hstored : store.has (.task id) = true := Store.has_task hr
  have hstart := loading_start (o := Overlay.empty) h hm (.task id) (Or.inl hstored)
  have hup : x.up (.task id) = some (some (nodeOf r).parent) := by simp [up, hnd]
  have hnext := hstart.next hg h rfl (fun _ _ hn => hn) hup (l := [] ++ [id]) (by simp)
  have hbound := hg.bound _ hstored
  have hdeep := hg.deeper _ _ (h.up _ _ hup)
  unfold loadChain loadChainFrom
  rw [hnd]
  simp only [hid, if_true]
  intro hmem
  have := (loadChainFrom_unloaded hg hg.deep (fits_empty store) _ x false _ _ hnext (by omega) (by
    rintro n hn
    obtain rfl := some.inj hn
    omega) id hmem).2
  simp at this

theorem loadUnloaded_sound :
    Sound store (x.loadUnloaded store).1 ∧ Mirrors store (x.loadUnloaded store).1 ∧
      (x.loadUnloaded store).1.unloaded = [] := by
  have hrun : ∀ (ids : List Id) (y : Ownership) (loaded : Bool), Sound store y → Mirrors store y →
      (∀ id ∈ y.unloaded, id ∈ ids) →
      let z := (ids.foldl (fun s id =>
        if id ∈ s.1.unloaded then
          let next := s.1.loadChain store Overlay.empty (.task id)
          (next.1, s.2 || next.2)
        else s) (y, loaded)).1
      Sound store z ∧ Mirrors store z ∧ z.unloaded = [] := by
    intro ids
    induction ids with
    | nil =>
      intro y loaded hs hmy hsub
      exact ⟨hs, hmy, eq_nil_iff_forall_not_mem.mpr (fun id hid => by simpa using hsub id hid)⟩
    | cons id ids ih =>
      intro y loaded hs hmy hsub
      rw [foldl_cons]
      by_cases hid : id ∈ y.unloaded
      · obtain ⟨nd, hnd⟩ := isSome_iff_exists.mp (hs.unloaded id hid)
        obtain ⟨r, hr, -⟩ := hs.node id nd hnd
        have hstored : store.has (.task id) = true := Store.has_task hr
        obtain ⟨hs', hm'⟩ := loadChain_sound hg (fits_empty store) hs hmy (.task id) (Or.inl hstored)
        simp only [hid, if_true]
        refine ih _ _ hs' hm' ?_
        intro q hq
        have hqy := loadChain_unloaded hg hg.deep (fits_empty store) hs hmy (.task id) (Or.inl hstored)
          (Nat.lt_of_lt_of_le (hg.bound _ hstored) (by simp [Overlay.empty])) q hq
        refine (mem_cons.mp (hsub q hqy)).resolve_left ?_
        rintro rfl
        exact loadChain_task_unloaded hg hs hmy q hid hq
      · simp only [hid, if_false]
        refine ih y loaded hs hmy ?_
        intro q hq
        refine (mem_cons.mp (hsub q hq)).resolve_left ?_
        rintro rfl
        exact hid hq
  exact hrun x.unloaded x false h hm (fun id hid => hid)

end

theorem loadChains_unloaded (hg : store.Grounded rank) {overlay : Overlay}
    (hd : overlay.Deep store depth) (hf : Fits store overlay) (starts : List Node)
    (hstarts : ∀ n ∈ starts, (store.has n = true ∨ Overlay.has overlay n = true) ∧
      depth n < store.count + overlay.tasks.length + overlay.edges.length) {x : Ownership} (h : Sound store x)
    (hm : Mirrors store x) (hnil : x.unloaded = []) : (x.loadChains store overlay starts).1.unloaded = [] := by
  unfold loadChains
  generalize false = loaded
  induction starts generalizing x loaded with
  | nil => exact hnil
  | cons n starts ih =>
    obtain ⟨hstart, hdepth⟩ := hstarts n mem_cons_self
    obtain ⟨hs, hm'⟩ := loadChain_sound hg hf h hm n hstart
    refine ih (fun m hmem => hstarts m (mem_cons_of_mem _ hmem)) hs hm' ?_ _
    refine eq_nil_iff_forall_not_mem.mpr (fun id hid => ?_)
    have := loadChain_unloaded hg hd hf h hm n hstart hdepth id hid
    simp [hnil] at this

/-! ## Known and stored ways up -/

variable {x : Ownership}

theorem Loaded.parent {n p : Node} (h : x.Loaded n) (hup : x.up n = some (some p)) : x.Loaded p := by
  cases h with
  | root h => simp [hup] at h
  | step h hp =>
    obtain rfl : p = _ := by simpa [hup] using h
    exact hp

theorem under_iff_of_loaded (h : Core store x) {pass : Id → TaskNode → Bool} {n m : Node} (hl : x.Loaded m) :
    Harness.Under x.node x.edges pass n m ↔ Harness.Under store.node store.edge pass n m := by
  constructor
  · refine Under.mono ?_ ?_ (fun _ _ _ hp => hp)
    · intro id nd hnd
      obtain ⟨r, hr, rfl⟩ := h.node id nd hnd
      simp [Store.node, hr]
    · intro c o ho
      obtain ⟨r, hr, rfl⟩ := h.edge c o ho
      simp [Store.edge, hr]
  · intro hu
    induction hu with
    | here => exact .here
    | @conversation c o hc _ ih =>
      have hup : store.up (.conversation c) = some (some (.task o)) := by
        obtain ⟨r, hr, hro⟩ := map_eq_some_iff.mp hc
        simp [Store.up, hr, hro]
      cases hl with
      | root h' => simpa [hup] using h.up _ _ h'
      | step h' hp =>
        have hpp := (h.up _ _ h').symm.trans hup
        obtain rfl := some.inj (some.inj hpp)
        refine .conversation ?_ (ih hp)
        cases he : x.edges c with
        | none => simp [up, he] at h'
        | some o' => simpa [up, he] using h'
    | @task id nd hn hpass _ ih =>
      have hup : store.up (.task id) = some (some nd.parent) := by
        obtain ⟨r, hr, rfl⟩ := map_eq_some_iff.mp hn
        simp [Store.up, hr, parentOf]
      cases hl with
      | root h' => simpa [hup] using h.up _ _ h'
      | step h' hp =>
        have hpp := (h.up _ _ h').symm.trans hup
        obtain rfl := some.inj (some.inj hpp)
        cases hnd : x.node id with
        | none => simp [up, hnd] at h'
        | some nd' =>
          obtain ⟨r, hr, rfl⟩ := h.node id nd' hnd
          obtain ⟨r', hr', rfl⟩ := map_eq_some_iff.mp hn
          obtain rfl : r = r' := by simpa [hr] using hr'
          exact .task hnd hpass (ih hp)

theorem Sound.loaded_parent (h : Sound store x) {id : Id} {r : TaskRecord}
    (hr : x.live id = some r) (hu : id ∉ x.unloaded) : x.Loaded (parentOf r) := by
  have hup : x.up (.task id) = some (some (parentOf r)) := by simp [up, node, hr, parentOf]
  exact (h.chains id (by simp [knownTask, node, hr, hu])).parent hup

end Ownership

end PiAgent.Harness
