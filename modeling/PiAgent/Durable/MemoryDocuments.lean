import Mathlib.Data.List.Chain
import PiAgent.Durable.MemoryProofs

/-!
# What a batch makes of the documents
-/

namespace PiAgent.Durable

open Sorted

/-! ## The actions of a batch -/

/-- What the checks say of one action, given the documents before the batch. -/
structure ActionOk (s : State) (id : Id) (action : DocumentAction) : Prop where
  create : ∀ record, action.create = some record → record.id = id ∧ s.documents id = none ∧
    ∃ version value, action.content = some (.base version value)
  existing : action.create = none → ∃ d, s.documents id = some d ∧ d.record.retiredAt = none ∧
    ∀ version ops, action.content = some (.delta version ops) →
      ∃ last, d.revisions.getLast? = some last ∧ last.content.version = version

/-- The shape of the actions made from some writes. -/
structure ActionsOf (writes : List StorageWrite) (actions : Actions) : Prop where
  nodup : (Assoc.keys actions).Nodup
  create : ∀ id action record, Assoc.get? actions id = some action → action.create = some record →
    record.id = id ∧ ∃ version value, action.content = some (.base version value) ∧
      ∃ version value, .documentCreate record version value ∈ writes

theorem get?_getD_create (actions : Actions) (writes : List StorageWrite) (h : ActionsOf writes actions) (id : Id)
    (record : DocumentCreate) (hc : ((Assoc.get? actions id).getD {}).create = some record) :
    record.id = id ∧ ∃ version value, ((Assoc.get? actions id).getD {}).content = some (.base version value) ∧
      ∃ version value, .documentCreate record version value ∈ writes := by
  cases hg : Assoc.get? actions id with
  | none =>
    rw [hg] at hc
    cases hc
  | some action =>
    rw [hg] at hc
    exact h.create id action record hg hc

theorem addAction_ok (done : List StorageWrite) (actions actions' : Actions) (write : StorageWrite)
    (h : ActionsOf done actions) (hok : addAction actions write = .ok actions') :
    ActionsOf (done ++ [write]) actions' := by
  have hset : ∀ id action, (∀ record, action.create = some record → record.id = id ∧
      ∃ version value, action.content = some (.base version value) ∧
        ∃ version value, .documentCreate record version value ∈ done ++ [write]) →
      ActionsOf (done ++ [write]) (Assoc.set actions id action) := by
    intro id action hnew
    refine ⟨Assoc.nodup_keys_set actions id action h.nodup, fun x a record hx ha => ?_⟩
    rw [Assoc.get?_set] at hx
    split at hx
    · rename_i he
      cases hx
      exact he ▸ hnew record ha
    · obtain ⟨h₁, v, w, h₂, v', w', h₃⟩ := h.create x a record hx ha
      exact ⟨h₁, v, w, h₂, v', w', List.mem_append_left _ h₃⟩
  have hkeep : ∀ id record, ((Assoc.get? actions id).getD {}).create = some record → record.id = id ∧
      ∃ version value, ((Assoc.get? actions id).getD {}).content = some (.base version value) ∧
        ∃ version value, .documentCreate record version value ∈ done ++ [write] := by
    intro id record hc
    obtain ⟨h₁, v, w, h₂, v', w', h₃⟩ := get?_getD_create actions done h id record hc
    exact ⟨h₁, v, w, h₂, v', w', List.mem_append_left _ h₃⟩
  have hsame : actions' = actions → ActionsOf (done ++ [write]) actions' := by
    rintro rfl
    refine ⟨h.nodup, fun x a record hx ha => ?_⟩
    obtain ⟨h₁, v, w, h₂, v', w', h₃⟩ := h.create x a record hx ha
    exact ⟨h₁, v, w, h₂, v', w', List.mem_append_left _ h₃⟩
  cases write with
  | documentCreate record version value =>
    simp only [addAction] at hok
    split at hok
    · cases hok
    · cases hok
      refine hset _ _ (fun r hr => ?_)
      cases hr
      exact ⟨rfl, version, value, rfl, version, value, by simp⟩
  | documentChange id content =>
    simp only [addAction] at hok
    split at hok
    · cases hok
    · rename_i hnone
      cases hok
      refine hset _ _ (fun r hr => ?_)
      -- a document that is created here has its content already
      obtain ⟨-, v, w, hcontent, -⟩ := hkeep id r hr
      rw [hcontent] at hnone
      exact absurd rfl hnone
  | documentRetire id =>
    simp only [addAction] at hok
    split at hok
    · cases hok
    · cases hok
      exact hset _ _ (fun r hr => hkeep id r hr)
  | conversation value => exact hsame (by cases hok; rfl)
  | entry value => exact hsame (by cases hok; rfl)
  | task value => exact hsame (by cases hok; rfl)
  | submission value => exact hsame (by cases hok; rfl)
  | documentCopy record source point => exact hsame (by cases hok; rfl)

/-- What holds before the first write, and what each accepted write keeps, holds of the prepared actions. -/
theorem prepareDocumentActions_induction {P : List StorageWrite → Actions → Prop} (start : P [] [])
    (step : ∀ done actions actions' write, P done actions → addAction actions write = .ok actions' →
      P (done ++ [write]) actions') (writes : List StorageWrite) (actions : Actions)
    (h : prepareDocumentActions writes = .ok actions) : P writes actions := by
  have key : ∀ (rest done : List StorageWrite) (actions₀ : Actions), P done actions₀ →
      rest.foldlM addAction actions₀ = .ok actions → P (done ++ rest) actions := by
    intro rest
    induction rest with
    | nil =>
      intro done actions₀ h₀ hfold
      cases hfold
      simpa using h₀
    | cons write rest ih =>
      intro done actions₀ h₀ hfold
      rw [List.foldlM_cons] at hfold
      cases hadd : addAction actions₀ write with
      | error e =>
        rw [hadd] at hfold
        cases hfold
      | ok actions₁ =>
        rw [hadd] at hfold
        simpa using ih (done ++ [write]) actions₁ (step done actions₀ actions₁ write h₀ hadd) hfold
  exact key writes [] [] start h

theorem prepareDocumentActions_ok (writes : List StorageWrite) (actions : Actions)
    (h : prepareDocumentActions writes = .ok actions) : ActionsOf writes actions :=
  prepareDocumentActions_induction ⟨by simp [Assoc.keys], by simp⟩ addAction_ok writes actions h

theorem checkDocumentAction_ok (s : State) (writes : List StorageWrite) (actions : Actions)
    (hof : ActionsOf writes actions) (id : Id) (action : DocumentAction)
    (hget : Assoc.get? actions id = some action) (h : checkDocumentAction s id action = .ok ()) :
    ActionOk s id action := by
  unfold checkDocumentAction at h
  dsimp only at h
  split at h
  · cases h
  rename_i hunknown
  split at h
  · cases h
  rename_i hexists
  split at h
  · cases h
  rename_i hretired
  refine ⟨fun record hc => ?_, fun hc => ?_⟩
  · obtain ⟨hid, v, w, hcontent, -⟩ := hof.create id action record hget hc
    refine ⟨hid, ?_, v, w, hcontent⟩
    cases hd : s.documents id with
    | none => rfl
    | some d => exact absurd ⟨by simp [hc], by simp [hd]⟩ hexists
  · cases hd : s.documents id with
    | none => exact absurd ⟨by simp [hc], by simp [hd]⟩ hunknown
    | some d =>
      rw [hd] at h hretired
      refine ⟨d, rfl, by simpa using hretired, fun version ops hcontent => ?_⟩
      rw [hcontent] at h
      simp only [Option.bind_some] at h
      cases hlast : d.revisions.getLast? with
      | none =>
        rw [hlast] at h
        cases h
      | some last =>
        rw [hlast] at h
        simp only at h
        split at h
        · cases h
        · rename_i hv
          exact ⟨last, rfl, not_not.mp hv⟩

/-! ## Counting the live incarnations of an address -/

def actionsAt (s : State) (address : DocumentAddress) (actions : Actions) : Actions :=
  actions.filter (fun p => actionAddress s p.1 p.2 = some address)

def liveCount (s : State) (address : DocumentAddress) (actions : Actions) : ℤ :=
  (actionsAt s address actions).foldl (fun live p => liveAfter s address p.1 p.2 live) (initialLive s address)

theorem countActions_ok (s : State) (actions : Actions) (counts₀ counts : List (DocumentAddress × ℤ))
    (h : actions.foldlM (fun counts p => countAction s counts p.1 p.2) counts₀ = .ok counts) :
    (∀ p ∈ actions, checkDocumentAction s p.1 p.2 = .ok ()) ∧
    ∀ address, (Assoc.get? counts address).getD (initialLive s address) =
      (actionsAt s address actions).foldl (fun live p => liveAfter s address p.1 p.2 live)
        ((Assoc.get? counts₀ address).getD (initialLive s address)) := by
  induction actions generalizing counts₀ with
  | nil =>
    cases h
    exact ⟨by simp, fun address => rfl⟩
  | cons p actions ih =>
    rw [List.foldlM_cons] at h
    cases hcount : countAction s counts₀ p.1 p.2 with
    | error e =>
      rw [hcount] at h
      cases h
    | ok counts₁ =>
      rw [hcount] at h
      obtain ⟨hchecks, hsum⟩ := ih counts₁ h
      unfold countAction at hcount
      split at hcount
      · cases hcount
      rename_i hcheck
      split at hcount
      · cases hcount
      rename_i address haddress
      cases hcount
      refine ⟨List.forall_mem_cons.mpr ⟨hcheck, hchecks⟩, fun a => ?_⟩
      rw [hsum a]
      unfold actionsAt
      rw [List.filter_cons, Assoc.get?_set]
      by_cases ha : address = a
      · subst ha
        simp [haddress]
      · simp [haddress, ha]

theorem checkDocumentActions_ok (s : State) (actions : Actions) (h : checkDocumentActions s actions = .ok ()) :
    (∀ p ∈ actions, checkDocumentAction s p.1 p.2 = .ok ()) ∧ ∀ address, liveCount s address actions ≤ 1 := by
  unfold checkDocumentActions at h
  split at h
  · cases h
  · rename_i counts hcounts
    obtain ⟨hchecks, hsum⟩ := countActions_ok s actions [] counts hcounts
    refine ⟨hchecks, fun address => ?_⟩
    have hlive := hsum address
    simp only [Assoc.get?_nil, Option.getD_none] at hlive
    unfold liveCount
    rw [← hlive]
    cases hget : Assoc.get? counts address with
    | none =>
      simp only [Option.getD_none, initialLive]
      split <;> omega
    | some live =>
      simp only [Option.getD_some]
      by_contra hlt
      have hany : counts.any (fun p => 1 < p.2) = true :=
        List.any_eq_true.mpr ⟨_, Assoc.mem_of_get? counts address live hget, by simpa using hlt⟩
      rw [if_pos hany] at h
      cases h

/-- The documents that some actions create and do not retire. -/
def created (actions : Actions) : List Id :=
  (actions.filter (fun p => p.2.create.isSome && !p.2.retire)).map Prod.fst

/-- Some action retires the current incarnation. -/
def retires (current : Option Id) (actions : Actions) : Bool :=
  actions.any (fun p => p.2.retire && decide (current = some p.1))

/-- What the actions of one address make of its current incarnation. -/
def currentAfter (current : Option Id) (actions : Actions) : Option Id :=
  match (created actions).getLast? with
  | some id => some id
  | none => if retires current actions then none else current

theorem mem_created (actions : Actions) (id : Id) (h : id ∈ created actions) : id ∈ Assoc.keys actions := by
  obtain ⟨p, hp, rfl⟩ := List.mem_map.mp h
  exact List.mem_map_of_mem (List.mem_of_mem_filter hp)

theorem created_append (actions : Actions) (id : Id) (action : DocumentAction) :
    created (actions ++ [(id, action)]) =
      created actions ++ if action.create.isSome && !action.retire then [id] else [] := by
  unfold created
  rw [List.filter_append, List.map_append]
  congr 1
  by_cases h : (action.create.isSome && !action.retire) = true <;> simp [h]

theorem retires_append (current : Option Id) (actions : Actions) (id : Id) (action : DocumentAction) :
    retires current (actions ++ [(id, action)]) =
      (retires current actions || (action.retire && decide (current = some id))) := by
  simp [retires]

theorem actionIndex_currentId (index : DocumentAddressIndex) (id : Id) (action : DocumentAction) :
    (actionIndex index id action).currentId =
      if action.create.isSome ∧ action.retire = false then some id
      else if action.retire = true ∧ index.currentId = some id then none
      else index.currentId := rfl

theorem live_fold (s : State) (address : DocumentAddress) (actions : Actions) (hnd : (Assoc.keys actions).Nodup)
    (hfresh : ∀ p ∈ actions, p.2.create.isSome = true → (s.documentAddresses address).currentId ≠ some p.1) :
    actions.foldl (fun live p => liveAfter s address p.1 p.2 live) (initialLive s address) =
      (if (s.documentAddresses address).currentId.isSome &&
          !retires (s.documentAddresses address).currentId actions then 1 else 0) + (created actions).length ∧
    (actions.foldl (fun index p => actionIndex index p.1 p.2) (s.documentAddresses address)).currentId =
      currentAfter (s.documentAddresses address).currentId actions := by
  induction actions using List.reverseRecOn with
  | nil =>
    refine ⟨?_, rfl⟩
    unfold initialLive
    cases (s.documentAddresses address).currentId <;> simp [retires, created]
  | append_singleton actions p ih =>
    obtain ⟨id, action⟩ := p
    have hkeys : Assoc.keys (actions ++ [(id, action)]) = Assoc.keys actions ++ [id] := by simp [Assoc.keys]
    rw [hkeys] at hnd
    have hid : id ∉ Assoc.keys actions := by
      intro hm
      exact (List.nodup_append.mp hnd).2.2 id hm id (by simp) rfl
    obtain ⟨hlive, hcur⟩ := ih (List.nodup_append.mp hnd).1 (fun p hp => hfresh p (List.mem_append_left _ hp))
    have hnew := hfresh (id, action) (by simp)
    have hlast : ∀ x, (created actions).getLast? = some x → x ≠ id := by
      rintro x hx rfl
      exact hid (mem_created actions x (List.mem_of_getLast? hx))
    have hgone : (s.documentAddresses address).currentId = some id →
        retires (s.documentAddresses address).currentId actions = false := by
      intro hc
      rw [retires, List.any_eq_false]
      intro p hp hret
      rw [Bool.and_eq_true, decide_eq_true_eq, hc, Option.some.injEq] at hret
      exact hid (hret.2 ▸ List.mem_map_of_mem hp)
    rw [List.foldl_append, List.foldl_append]
    simp only [List.foldl_cons, List.foldl_nil]
    rw [hlive, created_append, retires_append]
    unfold currentAfter at hcur ⊢
    rw [created_append, retires_append]
    rw [actionIndex_currentId, hcur]
    unfold liveAfter
    simp only
    cases hcreate : action.create.isSome with
    | true =>
      have hne := hnew hcreate
      cases hretire : action.retire with
      | false => simp [hne]; omega
      | true =>
        refine ⟨by simp [hne], ?_⟩
        cases hl : (created actions).getLast? with
        | none => simp [hl, hne]
        | some x => simp [hl, hlast x hl]
    | false =>
      cases hretire : action.retire with
      | false => simp
      | true =>
        by_cases hc : (s.documentAddresses address).currentId = some id
        · have hg := hgone hc
          refine ⟨by simp [hc]; rw [← hc, hg]; simp, ?_⟩
          cases hl : (created actions).getLast? with
          | none => simp [hl, hc]
          | some x => simp [hl, hlast x hl]
        · refine ⟨by simp [hc], ?_⟩
          cases hl : (created actions).getLast? with
          | none => simp [hl, hc]
          | some x => simp [hl, hlast x hl]

/-! ## One action -/

theorem actionStored_create (stored : Option StoredDocumentState) (action : DocumentAction) (seq : Seq)
    (record : DocumentCreate) (version : ℤ) (value : JsonValue) (hc : action.create = some record)
    (hcontent : action.content = some (.base version value)) :
    actionStored stored action seq = some ⟨createdRecord record action.retire seq,
      if action.retire = true ∧ isCurrentOnly record = true then [] else [⟨.base version value, seq⟩]⟩ := by
  simp only [actionStored, contentStored, hc, hcontent, retireStored, createdRecord, Option.map_some,
    Option.toList_some, Option.isNone_some, Bool.false_eq_true, and_false, if_false]

/-- The revisions of a document that was there before the batch. -/
def nextRevisions (d : StoredDocumentState) (action : DocumentAction) (seq : Seq) : List DocumentRevision :=
  if action.retire = true ∧ isCurrentOnly d.record.toDocumentCreate = true then []
  else
    match action.content with
    | none => d.revisions
    | some content =>
      if content.isBase ∧ isCurrentOnly d.record.toDocumentCreate = true then [⟨content, seq⟩]
      else d.revisions ++ [⟨content, seq⟩]

theorem actionStored_existing (d : StoredDocumentState) (action : DocumentAction) (seq : Seq)
    (hc : action.create = none) :
    actionStored (some d) action seq = some
      ⟨if action.retire = true then { d.record with retiredAt := some seq } else d.record,
        nextRevisions d action seq⟩ := by
  unfold actionStored contentStored retireStored nextRevisions
  rw [hc]
  cases action.content with
  | none => simp
  | some content =>
    by_cases hbase : content.isBase = true ∧ isCurrentOnly d.record.toDocumentCreate = true
    · simp [hbase]
    · simp [hbase]

/-- What an action leaves of its document: its address, its scope and its ID. -/
structure Stays (s : State) (id : Id) (action : DocumentAction) (stored : StoredDocumentState) : Prop where
  address : actionAddress s id action = some stored.record.address
  keyed : stored.record.id = id
  create : ∀ record, action.create = some record → stored.record.toDocumentCreate = record
  existing : action.create = none → ∃ d, s.documents id = some d ∧
    stored.record.toDocumentCreate = d.record.toDocumentCreate

theorem actionStored_stays (s : State) (id : Id) (action : DocumentAction) (seq : Seq) (hok : ActionOk s id action)
    (hkeyed : ∀ id d, s.documents id = some d → d.record.id = id) :
    ∃ stored, actionStored (s.documents id) action seq = some stored ∧ Stays s id action stored := by
  cases hc : action.create with
  | some record =>
    obtain ⟨hid, -, version, value, hcontent⟩ := hok.create record hc
    refine ⟨_, actionStored_create _ action seq record version value hc hcontent, ?_, hid, ?_, ?_⟩
    · simp only [actionAddress, hc]
      rfl
    · intro r hr
      rw [hc] at hr
      cases hr
      rfl
    · intro hnone
      rw [hc] at hnone
      cases hnone
  | none =>
    obtain ⟨d, hd, -, -⟩ := hok.existing hc
    rw [hd]
    refine ⟨_, actionStored_existing d action seq hc, ?_, ?_, ?_, fun _ => ⟨d, hd, ?_⟩⟩
    · simp only [actionAddress, hc, hd]
      split <;> rfl
    · have := hkeyed id d hd
      simp only
      split <;> exact this
    · intro r hr
      rw [hc] at hr
      cases hr
    · simp only
      split <;> rfl

theorem applyDocumentAction_spec (s t : State) (seq : Seq) (id : Id) (action : DocumentAction)
    (hok : ActionOk s id action) (hkeyed : ∀ id d, s.documents id = some d → d.record.id = id)
    (hdoc : t.documents id = s.documents id) (htype : action.create.isSome = true → t.recordTypes id = none)
    (h : Sound t) :
    Sound (t.applyDocumentAction seq id action) ∧
    (∀ x, (t.applyDocumentAction seq id action).documents x =
      if x = id then actionStored (s.documents id) action seq else t.documents x) ∧
    (∀ address, (t.applyDocumentAction seq id action).documentAddresses address =
      if actionAddress s id action = some address then actionIndex (t.documentAddresses address) id action
      else t.documentAddresses address) ∧
    ∀ x, x ≠ id → (t.applyDocumentAction seq id action).recordTypes x = t.recordTypes x := by
  obtain ⟨stored, hstored, hstays⟩ := actionStored_stays s id action seq hok hkeyed
  have happly : t.applyDocumentAction seq id action =
      { t with
        recordTypes :=
          if action.create.isSome then Function.update t.recordTypes id (some .document) else t.recordTypes
        documents := Function.update t.documents id (some stored)
        documentAddresses := Function.update t.documentAddresses stored.record.address
          (actionIndex (t.documentAddresses stored.record.address) id action)
        documentIdsByScope :=
          if action.create.isSome then insertMapId t.documentIdsByScope stored.record.scope id
          else t.documentIdsByScope
        nextId := if action.create.isSome then max t.nextId (id + 1) else t.nextId } := by
    unfold State.applyDocumentAction
    rw [hdoc, hstored]
  rw [happly]
  refine ⟨?_, ?_, ?_, ?_⟩
  · cases hc : action.create with
    | some record =>
      have hnone := htype (by simp [hc])
      have hfresh := absent t.recordTypes t.documents .document id (by simp [hnone]) h.tables.document
      simp only [Option.isSome_some, if_true]
      refine ⟨⟨?_, ?_, ?_, ?_, ?_⟩, ?_, ?_⟩
      · exact tables_other _ _ _ _ _ (by decide) (.inl hnone) h.tables.conversation
      · exact tables_other _ _ _ _ _ (by decide) (.inl hnone) h.tables.entry
      · exact tables_other _ _ _ _ _ (by decide) (.inl hnone) h.tables.task
      · exact tables_other _ _ _ _ _ (by decide) (.inl hnone) h.tables.submission
      · exact tables_self _ _ _ _ _ h.tables.document
      · refine { h.indexed with
          documentIdsByScope := insertMapId_index _ _ (fun k (d : StoredDocumentState) => d.record.scope = k) _ _ _
            hfresh (fun k => eq_comm) h.indexed.documentIdsByScope
          documentIdsByAddress := ?_ }
        intro address
        dsimp only
        have hbase := insertMapId_index (fun a => (t.documentAddresses a).ids) t.documents
          (fun k (d : StoredDocumentState) => d.record.address = k) id stored stored.record.address hfresh
          (fun k => eq_comm) h.indexed.documentIdsByAddress address
        unfold insertMapId at hbase
        by_cases ha : address = stored.record.address
        · subst ha
          rw [Function.update_self] at hbase ⊢
          simpa [actionIndex, hc] using hbase
        · rw [Function.update_of_ne ha] at hbase ⊢
          exact hbase
      · exact { h.keyed with
          document := keyed_update _ (fun d : StoredDocumentState => d.record.id) _ _ hstays.keyed h.keyed.document }
    | none =>
      obtain ⟨d, hd, hsame⟩ := hstays.existing hc
      rw [← hdoc] at hd
      simp only [Option.isSome_none, Bool.false_eq_true, if_false]
      have hcongr : ∀ p : DocumentCreate → Prop, ∀ x,
          (∃ e, t.documents x = some e ∧ p e.record.toDocumentCreate) ↔
          ∃ e, Function.update t.documents id (some stored) x = some e ∧ p e.record.toDocumentCreate := by
        intro p x
        by_cases hx : x = id
        · subst hx
          simp [hd, hsame]
        · rw [Function.update_of_ne hx]
      refine ⟨{ h.tables with document := fun x => ?_ }, ?_, ?_⟩
      · rw [h.tables.document x]
        simpa using hcongr (fun _ => True) x
      · refine { h.indexed with
          documentIdsByScope := fun scope => (h.indexed.documentIdsByScope scope).congr (hcongr (·.scope = scope))
          documentIdsByAddress := fun address => ?_ }
        dsimp only
        have hindex := (h.indexed.documentIdsByAddress address).congr (hcongr (·.address = address))
        by_cases ha : address = stored.record.address
        · subst ha
          rw [Function.update_self]
          simpa [actionIndex, hc] using hindex
        · rw [Function.update_of_ne ha]
          exact hindex
      · exact { h.keyed with
          document := keyed_update _ (fun d : StoredDocumentState => d.record.id) _ _ hstays.keyed h.keyed.document }
  · intro x
    by_cases hx : x = id
    · subst hx
      simp [hstored]
    · simp [hx]
  · intro address
    rw [hstays.address]
    by_cases ha : stored.record.address = address
    · subst ha
      simp
    · simp [ha, Ne.symm ha]
  · intro x hx
    simp only
    split
    · rw [Function.update_of_ne hx]
    · rfl

/-! ## All actions of a batch -/

def State.applyActions (t : State) (seq : Seq) (actions : Actions) : State :=
  actions.foldl (fun s p => s.applyDocumentAction seq p.1 p.2) t

theorem applyActions_spec (s : State) (seq : Seq) (hkeyed : ∀ id d, s.documents id = some d → d.record.id = id)
    (actions : Actions) (hnd : (Assoc.keys actions).Nodup) (hok : ∀ p ∈ actions, ActionOk s p.1 p.2) (t : State)
    (hdoc : ∀ p ∈ actions, t.documents p.1 = s.documents p.1)
    (htype : ∀ p ∈ actions, p.2.create.isSome = true → t.recordTypes p.1 = none) (h : Sound t) :
    Sound (t.applyActions seq actions) ∧
    (∀ x, (t.applyActions seq actions).documents x =
      match Assoc.get? actions x with
      | some action => actionStored (s.documents x) action seq
      | none => t.documents x) ∧
    ∀ address, (t.applyActions seq actions).documentAddresses address =
      (actionsAt s address actions).foldl (fun index p => actionIndex index p.1 p.2)
        (t.documentAddresses address) := by
  induction actions generalizing t with
  | nil => exact ⟨h, fun x => rfl, fun address => rfl⟩
  | cons p actions ih =>
    obtain ⟨id, action⟩ := p
    simp only [Assoc.keys, List.map_cons, List.nodup_cons] at hnd
    have hne : ∀ p ∈ actions, p.1 ≠ id := by
      rintro p hp rfl
      exact hnd.1 (List.mem_map_of_mem hp)
    obtain ⟨h₁, hd₁, ha₁, ht₁⟩ := applyDocumentAction_spec s t seq id action (hok (id, action) (by simp)) hkeyed
      (hdoc (id, action) (by simp)) (htype (id, action) (by simp)) h
    obtain ⟨h₂, hd₂, ha₂⟩ := ih hnd.2 (fun p hp => hok p (by simp [hp])) (t.applyDocumentAction seq id action)
      (fun p hp => by rw [hd₁, if_neg (hne p hp)]; exact hdoc p (by simp [hp]))
      (fun p hp hc => by rw [ht₁ _ (hne p hp)]; exact htype p (by simp [hp]) hc) h₁
    refine ⟨h₂, fun x => ?_, fun address => ?_⟩
    · change (State.applyActions (t.applyDocumentAction seq id action) seq actions).documents x = _
      rw [hd₂ x, Assoc.get?_cons]
      by_cases hx : id = x
      · subst hx
        have hnone : Assoc.get? actions id = none := (Assoc.get?_eq_none_iff actions id).mpr hnd.1
        rw [hnone, if_pos rfl]
        simp only
        rw [hd₁, if_pos rfl]
      · rw [if_neg hx]
        cases Assoc.get? actions x with
        | some a => rfl
        | none =>
          simp only
          rw [hd₁, if_neg (Ne.symm hx)]
    · change (State.applyActions (t.applyDocumentAction seq id action) seq actions).documentAddresses address = _
      rw [ha₂ address, ha₁ address]
      unfold actionsAt
      rw [List.filter_cons]
      by_cases haddr : actionAddress s id action = some address
      · simp [haddr]
      · simp [haddr]

end PiAgent.Durable
