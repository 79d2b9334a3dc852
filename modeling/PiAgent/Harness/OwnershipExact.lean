import PiAgent.Harness.OwnershipRuns

/-! # The index is exact and bounded -/

namespace PiAgent.Harness

open Function List Assoc Durable

/-! ## Opening -/

structure Store.Listed (store : Store) : Prop where
  mem : ∀ id, id ∈ store.taskIds ↔ (store.tasks id).isSome = true
  nodup : store.taskIds.Nodup

theorem Store.mem_liveTasks {store : Store} (h : store.Listed) (r : TaskRecord) :
    r ∈ store.liveTasks ↔ ∃ id, store.tasks id = some r ∧ isTerminal r = false := by
  simp only [liveTasks, mem_flatMap, mem_filterMap, Option.filter_eq_some_iff, decide_eq_true_eq]
  constructor
  · rintro ⟨status, hs, id, -, hr, rfl⟩
    refine ⟨id, hr, ?_⟩
    cases hst : r.state.status <;> simp [hst, liveStatuses, isTerminal] at hs ⊢
  · rintro ⟨id, hr, ht⟩
    refine ⟨r.state.status, ?_, id, (h.mem id).mpr (by simp [hr]), hr, rfl⟩
    cases hst : r.state.status <;> simp [hst, liveStatuses, isTerminal] at ht ⊢

theorem Store.liveTasks_nodup {store : Store} (h : store.Listed) (hid : ∀ id r, store.tasks id = some r → r.id = id) :
    (store.liveTasks.map TaskRecord.id).Nodup := by
  have hpart : ∀ status, ((store.taskIds.filterMap (fun id =>
      (store.tasks id).filter (fun record => record.state.status = status))).map TaskRecord.id).Sublist store.taskIds := by
    intro status
    generalize store.taskIds = l
    induction l with
    | nil => exact List.Sublist.slnil
    | cons id l ih =>
      rw [filterMap_cons]
      cases hr : (store.tasks id).filter (fun record => record.state.status = status) with
      | none => exact ih.cons id
      | some r =>
        have hrid : r.id = id := hid id r (Option.filter_eq_some_iff.mp hr).1
        simpa [hrid] using ih
  rw [liveTasks, map_flatMap, nodup_flatMap]
  refine ⟨fun status _ => (hpart status).nodup h.nodup, ?_⟩
  have hdisjoint : ∀ s s', s ≠ s' → List.Disjoint
      ((store.taskIds.filterMap (fun id => (store.tasks id).filter (fun r => r.state.status = s))).map TaskRecord.id)
      ((store.taskIds.filterMap (fun id => (store.tasks id).filter (fun r => r.state.status = s'))).map TaskRecord.id) := by
    intro s s' hne a ha hb
    simp only [mem_map, mem_filterMap, Option.filter_eq_some_iff, decide_eq_true_eq] at ha hb
    obtain ⟨r, ⟨id, -, hr, hrs⟩, rfl⟩ := ha
    obtain ⟨r', ⟨id', -, hr', hrs'⟩, he⟩ := hb
    obtain rfl : id = id' := by rw [← hid id r hr, ← hid id' r' hr', he]
    obtain rfl : r = r' := by simpa [hr] using hr'
    exact hne (hrs.symm.trans hrs')
  simp only [liveStatuses, pairwise_cons, mem_cons, not_mem_nil, or_false, forall_eq_or_imp, forall_eq,
    List.Pairwise.nil, and_true, IsEmpty.forall_iff, implies_true]
  refine ⟨⟨?_, ?_, ?_⟩, ⟨?_, ?_⟩, ?_⟩ <;> exact hdisjoint _ _ (by decide)

theorem Tx.candidate_listed {tx : Tx} (h : tx.Staged) (hl : tx.store.Listed) : tx.candidate.Listed := by
  have hcreated : ∀ j, j ∈ (tx.writes.filter (fun w => w.kind = .create)).map (fun w => w.record.id) ↔
      ∃ w, tx.write j = some w ∧ w.kind = .create := by
    intro j
    simp only [mem_map, mem_filter, decide_eq_true_eq]
    constructor
    · rintro ⟨w, ⟨hw, hk⟩, rfl⟩
      exact ⟨w, mem_writes h w hw, hk⟩
    · rintro ⟨w, hw, hk⟩
      exact ⟨w, ⟨write_mem hw, hk⟩, h.id j w hw⟩
  refine ⟨?_, ?_⟩
  · intro j
    rw [candidate, mem_append, hl.mem, hcreated]
    simp only [currentTask]
    cases hw : tx.write j with
    | none => simp
    | some w =>
      simp only [Option.map_some, Option.some_or, Option.isSome_some, iff_true, Option.some.injEq, exists_eq_left']
      cases hk : w.kind with
      | create => exact Or.inr rfl
      | replace =>
        obtain ⟨old, hold, -⟩ := h.replaced j w hw hk
        exact Or.inl (by simp [hold])
  · have hpart : (((tx.writes.filter (fun w => w.kind = .create)).map TaskWrite.record).map TaskRecord.id).Sublist
        ((tx.writes.map TaskWrite.record).map TaskRecord.id) :=
      ((filter_sublist (l := tx.writes)).map TaskWrite.record).map TaskRecord.id
    have hsub := hpart.nodup (stagedTasks_nodup h)
    rw [candidate, nodup_append]
    refine ⟨hl.nodup, by rwa [map_map] at hsub, ?_⟩
    rintro a ha b hb rfl
    obtain ⟨w, hw, hk⟩ := (hcreated a).mp hb
    have hsome := (hl.mem a).mp ha
    simp [(h.created a w hw hk).1] at hsome

namespace Ownership

def opened (store : Store) : Ownership := store.liveTasks.foldl (fun x record => x.track store.count record) empty

section

variable {store : Store} {rank : Node → ℕ} (hg : store.Grounded rank) (hl : store.Listed)
include hg hl

theorem opening_untracked : Untracked store empty store.liveTasks := by
  have hmem : ∀ r ∈ store.liveTasks, store.tasks r.id = some r ∧ isTerminal r = false := by
    intro r hr
    obtain ⟨id, hid, ht⟩ := (Store.mem_liveTasks hl r).mp hr
    rw [hg.taskId id r hid]
    exact ⟨hid, ht⟩
  refine ⟨empty_sound store, Store.liveTasks_nodup hl hg.taskId, fun r hr => (hmem r hr).1,
    fun r hr => Or.inr ⟨rfl, (hmem r hr).2⟩, ?_⟩
  intro id hid r
  simp only [empty, reduceCtorEq, false_iff]
  rintro ⟨hr, ht⟩
  refine hid ?_
  rw [← hg.taskId id r hr]
  exact mem_map_of_mem ((Store.mem_liveTasks hl r).mpr ⟨id, hr, ht⟩)

theorem opened_sound : Sound store (opened store) ∧ Mirrors store (opened store) :=
  ⟨((opening_untracked hg hl).foldl hg).sound, ((opening_untracked hg hl).foldl hg).mirrors⟩

end

/-! ## Chain loads for a commit's own tasks -/

theorem fits_overlayOf {tx : Tx} (h : tx.Staged)
    (hlive : ∀ w ∈ tx.writes, w.kind = .replace → ∃ r, tx.store.tasks w.record.id = some r ∧ isTerminal r = false) :
    Fits tx.store (overlayOf tx) := by
  obtain ⟨rank, hg⟩ := h.grounded
  have htask : ∀ id, has (overlayOf tx).tasks id = true → ∃ w, tx.write id = some w := by
    intro id hid
    rw [has_iff] at hid
    simp only [overlayOf, Tx.stagedTasks, Assoc.keys, map_map, mem_map, comp_apply] at hid
    obtain ⟨w, hw, rfl⟩ := hid
    exact ⟨w, Tx.mem_writes h w hw⟩
  have hedge : ∀ c o, get? (overlayOf tx).edges c = some o →
      ∃ r, get? tx.conversations c = some r ∧ ownerTask r = o := by
    intro c o ho
    simpa only [overlayOf, get?_map, Option.map_eq_some_iff] using ho
  refine ⟨?_, ?_, ?_⟩
  · intro id hid
    obtain ⟨w, hw⟩ := htask id hid
    cases hk : w.kind with
    | create => exact Or.inl (h.created id w hw hk).1
    | replace =>
      have := hlive w (Tx.write_mem hw) hk
      rw [h.id id w hw] at this
      exact Or.inr this
  · intro c hc
    obtain ⟨o, ho⟩ := Option.isSome_iff_exists.mp hc
    obtain ⟨r, hr, -⟩ := hedge c o ho
    exact (h.conversation c r hr).2
  · intro c o ho
    obtain ⟨r, hr, hor⟩ := hedge c (some o) ho
    have hup : tx.candidate.up (.conversation c) = some (some (.task o)) := by
      simp [Store.up, Tx.candidate, Tx.currentConversation, hr, hor]
    have hhas := hg.parent _ _ hup
    simp only [Store.has, Store.up, Option.isSome_map] at hhas
    cases hw : tx.write o with
    | none => exact Or.inl (by rwa [← Tx.candidate_of_noWrite hw])
    | some w =>
      refine Or.inr ((has_iff _ _).mpr ?_)
      simp only [overlayOf, Tx.stagedTasks, Assoc.keys, map_map, mem_map, comp_apply]
      exact ⟨w, Tx.write_mem hw, h.id o w hw⟩

theorem parent_stored_or_staged {tx : Tx} (h : tx.Staged) (w : TaskWrite) (hw : w ∈ tx.writes) :
    tx.store.has (parentOf w.record) = true ∨ Overlay.has (overlayOf tx) (parentOf w.record) = true := by
  obtain ⟨rank, hg⟩ := h.grounded
  have hup : tx.candidate.up (.task w.record.id) = some (some (parentOf w.record)) := by
    simp [Store.up, Tx.candidate_of_write (Tx.mem_writes h w hw)]
  have hhas := hg.parent _ _ hup
  cases hp : parentOf w.record with
  | task o =>
    rw [hp] at hhas
    simp only [Store.has, Store.up, Option.isSome_map] at hhas ⊢
    cases hwo : tx.write o with
    | none => exact Or.inl (by rwa [← Tx.candidate_of_noWrite hwo])
    | some wo =>
      refine Or.inr ((has_iff _ _).mpr ?_)
      simp only [overlayOf, Tx.stagedTasks, Assoc.keys, map_map, mem_map, comp_apply]
      exact ⟨wo, Tx.write_mem hwo, h.id o wo hwo⟩
  | conversation c =>
    rw [hp] at hhas
    simp only [Store.has, Store.up, Option.isSome_map, Tx.candidate, Tx.currentConversation] at hhas ⊢
    cases hc : get? tx.conversations c with
    | none => exact Or.inl (by simpa [hc] using hhas)
    | some r =>
      refine Or.inr ?_
      simp only [Overlay.has, overlayOf]
      rw [get?_map, hc]
      rfl

theorem loadChains_sound {store : Store} {rank : Node → ℕ} (hg : store.Grounded rank) {overlay : Overlay}
    (hf : Fits store overlay) (starts : List Node)
    (hstarts : ∀ n ∈ starts, store.has n = true ∨ Overlay.has overlay n = true) {x : Ownership} (h : Sound store x)
    (hm : Mirrors store x) :
    Sound store (x.loadChains store overlay starts).1 ∧ Mirrors store (x.loadChains store overlay starts).1 := by
  unfold loadChains
  generalize false = loaded
  induction starts generalizing x loaded with
  | nil => exact ⟨h, hm⟩
  | cons n starts ih =>
    obtain ⟨hs, hm'⟩ := loadChain_sound hg hf h hm n (hstarts n mem_cons_self)
    exact ih (fun m hmem => hstarts m (mem_cons_of_mem _ hmem)) hs hm' _

end Ownership

/-! ## The machine -/

inductive IndexEvent where
  /-- A commit whose callback ran these operations and replaced these records, and its publication. -/
  | commit (ops : List TxOp) (values : List TaskRecord)
  /-- The load of the chain above a stored node. -/
  | load (start : Node)
  /-- The loads of the chains above the tasks a callback created. -/
  | loadStaged (ops : List TxOp)
  /-- The queued sweep. -/
  | sweep
  /-- A crash, and the index of the scheduler that opens next. -/
  | reopen

def ownershipStep (s : Store × Ownership) : IndexEvent → Store × Ownership
  | .commit ops values =>
    let tx := ((Tx.start s.1).runAll ops).replaceAll values
    match tx.assemble with
    | none => s
    | some changes => (tx.candidate, s.2.observe tx.candidate.count changes)
  | .load start => if s.1.has start then (s.1, (s.2.loadChain s.1 Overlay.empty start).1) else s
  | .loadStaged ops =>
    let tx := (Tx.start s.1).runAll ops
    (s.1, (s.2.loadChains s.1 (overlayOf tx) (tx.stagedTasks.map parentOf)).1)
  | .sweep => (s.1, s.2.sweepJob)
  | .reopen => (s.1, Ownership.opened s.1)

def ownershipMachine : Machine (Store × Ownership) IndexEvent Unit :=
  { start := (Store.empty, Ownership.empty), step := fun s event => (ownershipStep s event, ()) }

structure Tracked (store : Store) (x : Ownership) : Prop where
  grounded : ∃ rank, store.Grounded rank
  listed : store.Listed
  sound : x.Sound store
  mirrors : x.Mirrors store

theorem empty_tracked : Tracked Store.empty Ownership.empty := by
  refine ⟨⟨fun _ => 0, ⟨?_, ?_, ?_, ?_, ?_, ?_⟩⟩, ⟨?_, ?_⟩, Ownership.empty_sound _, ?_⟩
  · intro id r h
    simp [Store.empty] at h
  · intro id r h
    simp [Store.empty] at h
  · intro n p h
    cases n <;> simp [Store.up, Store.empty] at h
  · intro n p h
    cases n <;> simp [Store.up, Store.empty] at h
  · intro n h
    cases n <;> simp [Store.has, Store.up, Store.empty] at h
  · intro n m h
    cases n <;> simp [Store.has, Store.up, Store.empty] at h
  · simp [Store.empty]
  · simp [Store.empty]
  · intro id r
    simp [Store.empty, Ownership.empty]

theorem Tracked.commit (tx : Tx) {x : Ownership} (h : Tracked tx.store x) (hs : tx.Staged)
    (changes : List Ownership.Change) (hc : tx.assemble = some changes) :
    Tracked tx.candidate (x.observe tx.candidate.count changes) := by
  obtain ⟨hsound, hmirrors⟩ := Ownership.observe_sound hs h.sound h.mirrors hc
  exact ⟨hs.grounded, Tx.candidate_listed hs h.listed, hsound, hmirrors⟩

theorem ownershipStep_tracked (s : Store × Ownership) (event : IndexEvent) (h : Tracked s.1 s.2) :
    Tracked (ownershipStep s event).1 (ownershipStep s event).2 := by
  obtain ⟨rank, hg⟩ := h.grounded
  cases event with
  | commit ops values =>
    simp only [ownershipStep]
    split
    · exact h
    · rename_i changes hc
      have hstaged : (((Tx.start s.1).runAll ops).replaceAll values).Staged :=
        Tx.replaceAll_staged (Tx.runAll_staged (Tx.start_staged ⟨rank, hg⟩) ops) values
      have hstore : (((Tx.start s.1).runAll ops).replaceAll values).store = s.1 := by
        rw [Tx.replaceAll_store, Tx.runAll_store]
        rfl
      exact Tracked.commit (((Tx.start s.1).runAll ops).replaceAll values) (hstore.symm ▸ h) hstaged changes hc
  | load start =>
    simp only [ownershipStep]
    split
    · rename_i hstart
      obtain ⟨hs, hm⟩ := Ownership.loadChain_sound hg (Ownership.fits_empty s.1) h.sound h.mirrors start (Or.inl hstart)
      exact ⟨⟨rank, hg⟩, h.listed, hs, hm⟩
    · exact h
  | loadStaged ops =>
    have hstaged := Tx.runAll_staged (Tx.start_staged ⟨rank, hg⟩) ops
    have hstore : ((Tx.start s.1).runAll ops).store = s.1 := Tx.runAll_store _ _
    have hcreates : ∀ w ∈ ((Tx.start s.1).runAll ops).writes, w.kind = .replace →
        ∃ r, ((Tx.start s.1).runAll ops).store.tasks w.record.id = some r ∧ isTerminal r = false := by
      intro w hw hk
      simp [Tx.runAll_creates _ (Tx.start_creates s.1) ops _ w (Tx.mem_writes hstaged w hw)] at hk
    have hfits := Ownership.fits_overlayOf hstaged hcreates
    obtain ⟨hs, hm⟩ := Ownership.loadChains_sound hg (hstore ▸ hfits)
      (((Tx.start s.1).runAll ops).stagedTasks.map parentOf) (by
        intro n hn
        simp only [Tx.stagedTasks, map_map, mem_map, comp_apply] at hn
        obtain ⟨w, hw, rfl⟩ := hn
        have := Ownership.parent_stored_or_staged hstaged w hw
        rwa [hstore] at this) h.sound h.mirrors
    exact ⟨⟨rank, hg⟩, h.listed, hs, hm⟩
  | sweep =>
    refine ⟨⟨rank, hg⟩, h.listed, Ownership.sweepJob_sound h.sound, ?_⟩
    intro id r
    have hlive : s.2.sweepJob.live = s.2.live := Ownership.sweep_live _
    simp only [ownershipStep, hlive]
    exact h.mirrors id r
  | reopen =>
    obtain ⟨hs, hm⟩ := Ownership.opened_sound hg h.listed
    exact ⟨⟨rank, hg⟩, h.listed, hs, hm⟩

theorem ownershipMachine_tracked (events : List IndexEvent) :
    Tracked (ownershipMachine.run events).1 (ownershipMachine.run events).2 :=
  ownershipMachine.runFrom_induction (P := fun s => Tracked s.1 s.2) ownershipStep_tracked _ empty_tracked events

/-! ## Exactness -/

namespace Ownership

structure Exact (store : Store) (x : Ownership) : Prop where
  /-- The live tasks are the stored ones that are not terminal. -/
  live : ∀ id r, x.live id = some r ↔ store.tasks id = some r ∧ isTerminal r = false
  /-- A known parent is the stored one. -/
  stored : ∀ n p, x.up n = some p → store.up n = some p
  /-- The parent links on the chains from live tasks are listed, and no others. -/
  below : ∀ n p, n ∈ x.below p ↔ x.OnChain n ∧ x.Hangs n p
  roots : ∀ c, c ∈ x.roots ↔ x.OnChain (.conversation c) ∧ x.edges c = some none
  settled : ∀ id, (x.settled id).isSome = true → x.OnChain (.task id)
  edges : ∀ c, (x.edges c).isSome = true → x.OnChain (.conversation c)
  unloaded : ∀ id, (x.live id).isSome = true → ¬x.Loaded (.task id) → id ∈ x.unloaded
  /-- A walk down reaches a live task exactly when the walk up comes to its start. -/
  walks : ∀ id r, x.live id = some r → ∀ n,
    (∃ t ∈ x.walkDown store.count Overlay.empty false (fun _ => true) n, t.id = id) ↔ x.Under n (parentOf r)
  inScope : ∀ id r, x.live id = some r → ∀ c,
    (∃ t ∈ x.walkDown store.count Overlay.empty false (fun _ => true) (.conversation c), t.id = id) ↔
      x.inScope store.count (parentOf r) (.conversation c) false = some true
  inRoots : ∀ id r, x.live id = some r →
    ((∃ c ∈ x.roots, ∃ t ∈ x.walkDown store.count Overlay.empty false (fun _ => true) (.conversation c), t.id = id) ↔
      x.inScope store.count (parentOf r) .roots false = some true)
  held : ∀ id r, x.live id = some r → r.background = false → ∀ o, (x.live o).isSome = true →
    ((∃ t ∈ x.walkDown store.count Overlay.empty false (fun _ => true) (.task o), t.id = id) ↔
      Relation.TransGen (x.HeldBy store.count) id o)

variable {x : Ownership}

theorem Under.chain {n m : Node} (h : x.Under n m) : Relation.ReflTransGen x.Hangs m n := by
  induction h with
  | here => exact .refl
  | conversation hc _ ih => exact ih.head (by simp [Hangs, Ownership.up, hc])
  | task hn _ _ ih => exact ih.head (by simp [Hangs, Ownership.up, hn])

theorem exact_of_tracked {store : Store} {x : Ownership} (h : Tracked store x) (hqueue : x.dropQueue = []) :
    x.Exact store := by
  obtain ⟨rank, hg⟩ := h.grounded
  have hcore := h.sound.toCore
  have hneeded : ∀ n, x.up n ≠ none → x.OnChain n := by
    intro n hup
    refine (needed_iff_onChain hg hcore n).mp ?_
    by_contra hn
    rw [Bool.not_eq_true] at hn
    have hmem := h.sound.queued n hup hn
    simp [hqueue] at hmem
  have hup : ∀ id r, x.live id = some r → x.up (.task id) = some (some (parentOf r)) := by
    intro id r hr
    simp [Ownership.up, node, hr, parentOf]
  have hparent : ∀ id r, x.live id = some r → rank (parentOf r) < store.count := by
    intro id r hr
    exact hg.bound _ (hg.parent _ _ (hcore.up _ _ (hup id r hr)))
  refine ⟨h.mirrors, hcore.up, ?_, ?_, ?_, ?_, ?_, ?_, ?_, ?_, ?_⟩
  · intro n p
    rw [(hcore.linked n).below p, needed_iff_onChain hg hcore, and_comm]
    rfl
  · intro c
    rw [(hcore.linked _).root c rfl, needed_iff_onChain hg hcore, and_comm]
    simp [Ownership.up, Option.map_eq_some_iff]
  · intro id hid
    refine hneeded _ ?_
    obtain ⟨nd, hnd⟩ := Option.isSome_iff_exists.mp hid
    cases hl : x.live id <;> simp [Ownership.up, node, hl, hnd]
  · intro c hc
    refine hneeded _ ?_
    obtain ⟨o, ho⟩ := Option.isSome_iff_exists.mp hc
    simp [Ownership.up, ho]
  · intro id hid hnot
    by_contra hmem
    refine hnot (h.sound.chains id ?_)
    obtain ⟨r, hr⟩ := Option.isSome_iff_exists.mp hid
    simp [knownTask, node, hr, hmem]
  · intro id r hr n
    exact walkDown_iff_under hg hcore n id r hr
  · intro id r hr c
    rw [walkDown_iff_under hg hcore _ id r hr, Ownership.inScope,
      inScopeOf_conversation hg hcore c _ _ (Nat.lt_succ_of_lt (hparent id r hr))]
  · intro id r hr
    rw [Ownership.inScope, inScopeOf_roots hg hcore _ _ (Nat.lt_succ_of_lt (hparent id r hr))]
    constructor
    · rintro ⟨c, hc, ht⟩
      have hroot := ((hcore.linked _).root c rfl).mp hc
      refine ⟨c, by simpa [Ownership.up, Option.map_eq_some_iff] using hroot.1, ?_⟩
      exact (walkDown_iff_under hg hcore _ id r hr).mp ht
    · rintro ⟨c, hc, hu⟩
      refine ⟨c, ?_, (walkDown_iff_under hg hcore _ id r hr).mpr hu⟩
      refine ((hcore.linked _).root c rfl).mpr ⟨by simp [Ownership.up, hc], needed_of_onChain hcore.linked ?_⟩
      exact ⟨id, by simp [hr], hu.chain.head (hup id r hr)⟩
  · intro id r hr hb o ho
    rw [walkDown_iff_under hg hcore _ id r hr, heldBy_iff_under hg hcore (h.mirrors.liveOnly hg) id o r hr ho]
    simp [hb]

end Ownership

/-- Whenever the queued sweeps have run, the index is exact. -/
theorem ownership_exact (events : List IndexEvent) (hqueue : (ownershipMachine.run events).2.dropQueue = []) :
    (ownershipMachine.run events).2.Exact (ownershipMachine.run events).1 :=
  Ownership.exact_of_tracked (ownershipMachine_tracked events) hqueue

def heldEvents : List IndexEvent :=
  let checkpoint : JsonValue := .null
  let options (id : Id) (conversationId : Id) : Tx.TaskOptions :=
    { id := id, kind := [], version := 1, owner := none, conversationId := some conversationId, background := false,
      abandonOnRestart := false, checkpoint := checkpoint, body := .null }
  [.commit [.createConversation 1 none none, .createTask (options 2 1), .createConversation 3 none (some 2),
      .createTask (options 4 3)] [],
    .commit [] [{ Tx.newTask (options 2 1) 1 with state := .terminal ⟨.completed, .null⟩ }], .sweep]

theorem ownership_exact_held : (ownershipMachine.run heldEvents).2.dropQueue = [] ∧
      ((ownershipMachine.run heldEvents).2.settled 2).isSome = true ∧
      (ownershipMachine.run heldEvents).2.Exact (ownershipMachine.run heldEvents).1 :=
  ⟨by decide, by decide, ownership_exact heldEvents (by decide)⟩

end PiAgent.Harness
