import PiAgent.Durable.MemoryHistory
import PiAgent.Lib.Run

/-! # The invariant of the memory store -/

namespace PiAgent.Durable

open Sorted

/-! ## Incarnations of an address -/

def CurrentOk (s : State) : Prop :=
  ∀ address id, (s.documentAddresses address).currentId = some id ↔
    ∃ d, s.documents id = some d ∧ d.record.address = address ∧ d.record.retiredAt = none

def AliveOnce (s : State) : Prop :=
  ∀ id id' d d' seq, s.documents id = some d → s.documents id' = some d' →
    d.record.address = d'.record.address → isAliveAt d.record (.at seq) = true →
    isAliveAt d'.record (.at seq) = true → id = id'

structure Invariant (s : State) : Prop where
  sound : Sound s
  documents : ∀ id d, s.documents id = some d → DocumentOk s.nextSeq d
  current : CurrentOk s
  aliveOnce : AliveOnce s

/-! ## What a prepared commit has passed -/

structure Accepted (s : State) (commit : PreparedCommit) : Prop where
  seq : s.nextSeq ≤ commit.seq
  globalIds : checkGlobalIds s commit.writes = .ok ()
  actionsOf : ActionsOf commit.writes commit.actions
  actions : ∀ p ∈ commit.actions, ActionOk s p.1 p.2
  live : ∀ address, liveCount s address commit.actions ≤ 1

theorem prepareCommit_accepted (s : State) (writes : List StorageWrite) (seq : Seq) (commit : PreparedCommit)
    (h : prepareCommit s writes seq = .ok commit) : Accepted s commit ∧ commit.seq = seq := by
  unfold prepareCommit at h
  split at h
  · cases h
  rename_i hseq
  split at h
  · cases h
  split at h
  · cases h
  rename_i hids
  split at h
  · cases h
  rename_i actions hactions
  split at h
  · cases h
  rename_i hcheck
  cases h
  have hof := prepareDocumentActions_ok _ actions hactions
  obtain ⟨hchecks, hlive⟩ := checkDocumentActions_ok s actions hcheck
  refine ⟨⟨?_, hids, hof, fun p hp => ?_, hlive⟩, rfl⟩
  · rw [not_or, not_lt, not_lt] at hseq
    exact hseq.2
  · exact checkDocumentAction_ok s _ actions hof p.1 p.2 (Assoc.get?_of_mem actions p.1 p.2 hof.nodup hp)
      (hchecks p hp)

/-! ## The parts of a commit -/

theorem applyWrites_documents (seq : Seq) (writes : List StorageWrite) (s : State) :
    (writes.foldl (fun s write => s.applyWrite seq write) s).documents = s.documents ∧
    (writes.foldl (fun s write => s.applyWrite seq write) s).documentAddresses = s.documentAddresses := by
  induction writes generalizing s with
  | nil => exact ⟨rfl, rfl⟩
  | cons write writes ih =>
    obtain ⟨hd, ha, -⟩ := applyWrite_documents s seq write
    rw [List.foldl_cons, (ih _).1, (ih _).2, hd, ha]
    exact ⟨rfl, rfl⟩

structure Applied (s : State) (commit : PreparedCommit) (s' : State) : Prop where
  sound : Sound s'
  documents : ∀ x, s'.documents x =
    match Assoc.get? commit.actions x with
    | some action => actionStored (s.documents x) action commit.seq
    | none => s.documents x
  addresses : ∀ address, s'.documentAddresses address =
    (actionsAt s address commit.actions).foldl (fun index p => actionIndex index p.1 p.2)
      (s.documentAddresses address)
  nextSeq : s'.nextSeq = commit.seq + 1

theorem applyPreparedCommit_applied (s : State) (commit : PreparedCommit) (hsound : Sound s)
    (h : Accepted s commit) : Applied s commit (s.applyPreparedCommit commit) := by
  have hstart : Claims s (fun _ => none) s := ⟨fun _ _ => rfl, by simp, by simp⟩
  obtain ⟨hwritten, claimed, hclaims, -, hcreated⟩ :=
    applyWrites_sound s commit.seq commit.writes s (fun _ => none) h.globalIds hstart hsound
  obtain ⟨hdocuments, haddresses⟩ := applyWrites_documents commit.seq commit.writes s
  have htype : ∀ p ∈ commit.actions, p.2.create.isSome = true →
      (commit.writes.foldl (fun s write => s.applyWrite commit.seq write) s).recordTypes p.1 = none := by
    intro p hp hc
    obtain ⟨record, hrecord⟩ := Option.isSome_iff_exists.mp hc
    obtain ⟨hid, -, -, -, version, value, hmem⟩ := h.actionsOf.create p.1 p.2 record
      (Assoc.get?_of_mem commit.actions p.1 p.2 h.actionsOf.nodup hp) hrecord
    rw [← hid]
    exact hclaims.document record.id (hcreated record version value hmem)
  obtain ⟨hs, hd, ha⟩ := applyActions_spec s commit.seq hsound.keyed.document commit.actions h.actionsOf.nodup
    h.actions (commit.writes.foldl (fun s write => s.applyWrite commit.seq write) s)
    (fun p _ => by rw [hdocuments]) htype hwritten
  refine ⟨⟨⟨hs.tables.conversation, hs.tables.entry, hs.tables.task, hs.tables.submission, hs.tables.document⟩,
    { hs.indexed with }, { hs.keyed with }⟩, fun x => ?_, fun address => ?_, rfl⟩
  · exact hdocuments ▸ hd x
  · rw [← haddresses]
    exact ha address

structure Kept (s : State) (writes : List StorageWrite) (s' : State) : Prop where
  conversations : ∀ id record, s.conversations id = some record → s'.conversations id = some record
  entries : ∀ id entry, s.entries id = some entry → s'.entries id = some entry
  written : ∀ id entry, s'.entries id = some entry → s.entries id = some entry ∨ .entry entry ∈ writes

theorem applyWrite_kept (s t : State) (seq : Seq) (writes : List StorageWrite) (write : StorageWrite)
    (hmem : write ∈ writes) (hsound : Sound t) (hadmits : Admits t write) (h : Kept s writes t) :
    Kept s writes (t.applyWrite seq write) := by
  have hfresh : ∀ id table, write.claim = some (id, table) → table.rewritable = false → t.recordTypes id = none := by
    intro id table hclaim hr
    rcases hadmits id table hclaim with hn | ⟨hr', -⟩
    · exact hn
    · rw [hr] at hr'
      cases hr'
  cases write with
  | conversation value =>
    refine ⟨fun id record hr => ?_, h.entries, h.written⟩
    have hnone := absent t.recordTypes t.conversations .conversation value.id
      (by simp [hfresh value.id .conversation rfl rfl]) hsound.tables.conversation
    have hold := h.conversations id record hr
    have hne : id ≠ value.id := by
      rintro rfl
      rw [hnone] at hold
      cases hold
    exact (Function.update_of_ne hne _ _).trans hold
  | entry value =>
    have hnone := absent t.recordTypes t.entries .entry value.id
      (by simp [hfresh value.id .entry rfl rfl]) hsound.tables.entry
    refine ⟨h.conversations, fun id entry he => ?_, fun id entry he => ?_⟩
    · have hold := h.entries id entry he
      have hne : id ≠ value.id := by
        rintro rfl
        rw [hnone] at hold
        cases hold
      exact (Function.update_of_ne hne _ _).trans hold
    · change Function.update t.entries value.id (some value) id = some entry at he
      by_cases hid : id = value.id
      · subst hid
        rw [Function.update_self] at he
        cases he
        exact .inr hmem
      · rw [Function.update_of_ne hid] at he
        exact h.written id entry he
  | task value => exact ⟨h.conversations, h.entries, h.written⟩
  | submission value => exact ⟨h.conversations, h.entries, h.written⟩
  | documentCreate record version value => exact h
  | documentCopy record source point => exact h
  | documentChange id content => exact h
  | documentRetire id => exact h

theorem applyDocumentAction_kept (s t : State) (writes : List StorageWrite) (seq : Seq) (id : Id)
    (action : DocumentAction) (h : Kept s writes t) : Kept s writes (t.applyDocumentAction seq id action) := by
  unfold State.applyDocumentAction
  split
  · exact h
  · exact ⟨h.conversations, h.entries, h.written⟩

theorem applyPreparedCommit_kept (s : State) (commit : PreparedCommit) (hsound : Sound s) (h : Accepted s commit) :
    Kept s commit.writes (s.applyPreparedCommit commit) := by
  have hwritten := applyWrites_rule s commit.seq (Kept s commit.writes) commit.writes s (fun _ => none)
    (fun t write hmem hs ha hk => applyWrite_kept s t commit.seq commit.writes write hmem hs ha hk) h.globalIds
    ⟨fun _ _ => rfl, by simp, by simp⟩ hsound
    ⟨fun _ _ hr => hr, fun _ _ he => he, fun _ _ he => .inl he⟩
  have hactions : ∀ (actions : Actions) (t : State), Kept s commit.writes t →
      Kept s commit.writes (actions.foldl (fun s p => s.applyDocumentAction commit.seq p.1 p.2) t) := by
    intro actions
    induction actions with
    | nil => exact fun t ht => ht
    | cons p actions ih => exact fun t ht => ih _ (applyDocumentAction_kept s t _ commit.seq p.1 p.2 ht)
  have hall := hactions commit.actions _ hwritten
  exact ⟨hall.conversations, hall.entries, hall.written⟩

theorem applyActions_entries (seq : Seq) (actions : Actions) (t : State) :
    (actions.foldl (fun s p => s.applyDocumentAction seq p.1 p.2) t).entries = t.entries := by
  induction actions generalizing t with
  | nil => rfl
  | cons p actions ih =>
    rw [List.foldl_cons, ih]
    unfold State.applyDocumentAction
    split <;> rfl

theorem applyPreparedCommit_entry (s : State) (commit : PreparedCommit) (hsound : Sound s) (h : Accepted s commit)
    (entry : EntryRecord) (hmem : .entry entry ∈ commit.writes) :
    (s.applyPreparedCommit commit).entries entry.id = some entry := by
  have hall := applyWrites_each s commit.seq
    (fun write t => ∀ entry, write = .entry entry → t.entries entry.id = some entry) commit.writes s (fun _ => none)
    (fun t write _ entry he => by
      subst he
      exact Function.update_self ..)
    (fun t write other hs ha hq entry he =>
      (applyWrite_kept t t commit.seq [other] other (by simp) hs ha
        ⟨fun _ _ hr => hr, fun _ _ he => he, fun _ _ he => .inl he⟩).entries _ _ (hq entry he))
    h.globalIds ⟨fun _ _ => rfl, by simp, by simp⟩ hsound
  have hwritten := hall _ hmem entry rfl
  rw [← hwritten]
  exact congrFun (applyActions_entries commit.seq commit.actions _) entry.id

/-! ## The current incarnation after a commit -/

section Current

variable (s : State) (commit : PreparedCommit)

theorem mem_actionsAt (address : DocumentAddress) (p : Id × DocumentAction) :
    p ∈ actionsAt s address commit.actions ↔ p ∈ commit.actions ∧ actionAddress s p.1 p.2 = some address := by
  unfold actionsAt
  rw [List.mem_filter, decide_eq_true_eq]

theorem currentId_after (hi : Invariant s) (h : Accepted s commit) (address : DocumentAddress) :
    (if (s.documentAddresses address).currentId.isSome &&
        !retires (s.documentAddresses address).currentId (actionsAt s address commit.actions) then (1 : ℤ) else 0) +
      (created (actionsAt s address commit.actions)).length ≤ 1 ∧
    ((actionsAt s address commit.actions).foldl (fun index p => actionIndex index p.1 p.2)
      (s.documentAddresses address)).currentId =
      currentAfter (s.documentAddresses address).currentId (actionsAt s address commit.actions) := by
  have hnd : (Assoc.keys (actionsAt s address commit.actions)).Nodup :=
    h.actionsOf.nodup.sublist ((List.filter_sublist).map Prod.fst)
  obtain ⟨hlive, hcurrent⟩ := live_fold s address (actionsAt s address commit.actions) hnd (by
    intro p hp hc hid
    obtain ⟨record, hrecord⟩ := Option.isSome_iff_exists.mp hc
    obtain ⟨-, hnone, -⟩ := (h.actions p ((mem_actionsAt s commit address p).mp hp).1).create record hrecord
    obtain ⟨d, hd, -⟩ := (hi.current address p.1).mp hid
    rw [hnone] at hd
    cases hd)
  refine ⟨?_, hcurrent⟩
  rw [← hlive]
  exact h.live address

theorem mem_created_iff (address : DocumentAddress) (id : Id) :
    id ∈ created (actionsAt s address commit.actions) ↔ ∃ action, (id, action) ∈ commit.actions ∧
      actionAddress s id action = some address ∧ action.create.isSome = true ∧ action.retire = false := by
  unfold created
  rw [List.mem_map]
  constructor
  · rintro ⟨p, hp, rfl⟩
    rw [List.mem_filter, mem_actionsAt] at hp
    exact ⟨p.2, hp.1.1, hp.1.2, by simpa using hp.2⟩
  · rintro ⟨action, hmem, haddress, hc, hr⟩
    exact ⟨(id, action), List.mem_filter.mpr ⟨(mem_actionsAt s commit address _).mpr ⟨hmem, haddress⟩, by simp [hc, hr]⟩,
      rfl⟩

theorem retires_iff (address : DocumentAddress) (id : Id)
    (hcurrent : (s.documentAddresses address).currentId = some id) :
    retires (s.documentAddresses address).currentId (actionsAt s address commit.actions) = true ↔
      ∃ action, (id, action) ∈ commit.actions ∧ actionAddress s id action = some address ∧ action.retire = true := by
  unfold retires
  rw [List.any_eq_true, hcurrent]
  constructor
  · rintro ⟨p, hp, hr⟩
    rw [Bool.and_eq_true, decide_eq_true_eq, Option.some.injEq] at hr
    obtain ⟨hmem, haddress⟩ := (mem_actionsAt s commit address p).mp hp
    refine ⟨p.2, ?_, ?_, hr.1⟩
    · rw [hr.2]
      exact hmem
    · rw [hr.2]
      exact haddress
  · rintro ⟨action, hmem, haddress, hr⟩
    exact ⟨(id, action), (mem_actionsAt s commit address _).mpr ⟨hmem, haddress⟩, by simp [hr]⟩

end Current

inductive Became (s : State) (commit : PreparedCommit) (id : Id) (d' : StoredDocumentState) : Prop where
  | kept (hd : s.documents id = some d') (hnot : ∀ action, (id, action) ∉ commit.actions)
  | created (action : DocumentAction) (record : DocumentCreate) (hmem : (id, action) ∈ commit.actions)
    (hc : action.create = some record) (hrecord : d'.record = createdRecord record action.retire commit.seq)
  | changed (action : DocumentAction) (d : StoredDocumentState) (hmem : (id, action) ∈ commit.actions)
    (hc : action.create = none) (hd : s.documents id = some d) (hlive : d.record.retiredAt = none)
    (hrecord : d'.record =
      if action.retire = true then { d.record with retiredAt := some commit.seq } else d.record)

theorem became (s s' : State) (commit : PreparedCommit) (h : Accepted s commit) (happlied : Applied s commit s')
    (id : Id) (d' : StoredDocumentState) (hd' : s'.documents id = some d') : Became s commit id d' := by
  have hdoc := happlied.documents id
  rw [hd'] at hdoc
  cases hget : Assoc.get? commit.actions id with
  | none =>
    rw [hget] at hdoc
    refine .kept hdoc.symm (fun action hmem => ?_)
    rw [Assoc.get?_of_mem _ _ _ h.actionsOf.nodup hmem] at hget
    cases hget
  | some action =>
    rw [hget] at hdoc
    have hmem := Assoc.mem_of_get? _ _ _ hget
    have hok := h.actions (id, action) hmem
    cases hc : action.create with
    | some record =>
      obtain ⟨-, -, version, value, hcontent⟩ := hok.create record hc
      simp only [actionStored_create _ action commit.seq record version value hc hcontent] at hdoc
      cases hdoc
      exact .created action record hmem hc rfl
    | none =>
      obtain ⟨d, hd, hlive, -⟩ := hok.existing hc
      simp only [hd, actionStored_existing d action commit.seq hc] at hdoc
      cases hdoc
      exact .changed action d hmem hc hd hlive rfl

theorem exists_after (s s' : State) (commit : PreparedCommit) (hi : Invariant s) (h : Accepted s commit)
    (happlied : Applied s commit s') (id : Id)
    (hid : (s.documents id).isSome = true ∨ ∃ action, (id, action) ∈ commit.actions) :
    ∃ d', s'.documents id = some d' := by
  rw [happlied.documents id]
  cases hget : Assoc.get? commit.actions id with
  | none =>
    rcases hid with hd | ⟨action, hmem⟩
    · exact Option.isSome_iff_exists.mp hd
    · rw [Assoc.get?_of_mem _ _ _ h.actionsOf.nodup hmem] at hget
      cases hget
  | some action =>
    obtain ⟨stored, hstored, -⟩ := actionStored_stays s id action commit.seq
      (h.actions (id, action) (Assoc.mem_of_get? _ _ _ hget)) hi.sound.keyed.document
    exact ⟨stored, hstored⟩

theorem actionAddress_create (s : State) (id : Id) (action : DocumentAction) (record : DocumentCreate)
    (hc : action.create = some record) : actionAddress s id action = some record.address := by
  unfold actionAddress
  rw [hc]

theorem actionAddress_existing (s : State) (id : Id) (action : DocumentAction) (d : StoredDocumentState)
    (hc : action.create = none) (hd : s.documents id = some d) :
    actionAddress s id action = some d.record.address := by
  unfold actionAddress
  rw [hc, hd]
  rfl

section

variable (s : State) (commit : PreparedCommit)

theorem action_unique (h : Accepted s commit) (id : Id) (action action' : DocumentAction)
    (hmem : (id, action) ∈ commit.actions) (hmem' : (id, action') ∈ commit.actions) : action = action' := by
  have hget := Assoc.get?_of_mem _ _ _ h.actionsOf.nodup hmem
  rw [Assoc.get?_of_mem _ _ _ h.actionsOf.nodup hmem'] at hget
  exact (Option.some.inj hget).symm

theorem current_stays (hi : Invariant s) (h : Accepted s commit) (address : DocumentAddress) (id : Id)
    (hcurrent : (s.documentAddresses address).currentId = some id)
    (hnot : ∀ action, (id, action) ∈ commit.actions → action.retire = false) :
    currentAfter (s.documentAddresses address).currentId (actionsAt s address commit.actions) = some id := by
  have hret : retires (s.documentAddresses address).currentId (actionsAt s address commit.actions) = false := by
    rw [Bool.eq_false_iff]
    intro hr
    obtain ⟨action, hmem, -, hretire⟩ := (retires_iff s commit address id hcurrent).mp hr
    rw [hnot action hmem] at hretire
    cases hretire
  have hlive := (currentId_after s commit hi h address).1
  rw [hret, hcurrent] at hlive
  have hnone : created (actionsAt s address commit.actions) = [] := by
    apply List.eq_nil_of_length_eq_zero
    simp only [Option.isSome_some, Bool.not_false, Bool.and_self, if_true] at hlive
    omega
  unfold currentAfter
  rw [hnone, hret]
  exact hcurrent

theorem current_created (hi : Invariant s) (h : Accepted s commit) (address : DocumentAddress) (id : Id)
    (hmem : id ∈ created (actionsAt s address commit.actions)) :
    currentAfter (s.documentAddresses address).currentId (actionsAt s address commit.actions) = some id := by
  have hlive := (currentId_after s commit hi h address).1
  have hone : (created (actionsAt s address commit.actions)).length ≤ 1 := by
    split at hlive <;> omega
  unfold currentAfter
  match hcreated : created (actionsAt s address commit.actions) with
  | [] =>
    rw [hcreated] at hmem
    cases hmem
  | [x] =>
    rw [hcreated, List.mem_singleton] at hmem
    rw [hmem]
    rfl
  | x :: y :: rest =>
    rw [hcreated] at hone
    simp at hone

end

theorem currentOk_after (s s' : State) (commit : PreparedCommit) (hi : Invariant s) (h : Accepted s commit)
    (happlied : Applied s commit s') : CurrentOk s' := by
  intro address id
  rw [happlied.addresses address, (currentId_after s commit hi h address).2]
  constructor
  · intro hcurrent
    unfold currentAfter at hcurrent
    split at hcurrent
    · -- a document that the batch creates
      rename_i x hlast
      cases hcurrent
      obtain ⟨action, hmem, haddress, hc, hretire⟩ :=
        (mem_created_iff s commit address id).mp (List.mem_of_getLast? hlast)
      obtain ⟨d', hd'⟩ := exists_after s s' commit hi h happlied id (.inr ⟨action, hmem⟩)
      refine ⟨d', hd', ?_⟩
      cases became s s' commit h happlied id d' hd' with
      | kept hd hnot => exact absurd hmem (hnot action)
      | created action' record hmem' hc' hrecord =>
        obtain rfl := action_unique s commit h id action action' hmem hmem'
        rw [actionAddress_create s id action record hc'] at haddress
        rw [hrecord, hretire]
        exact ⟨Option.some.inj haddress, rfl⟩
      | changed action' d hmem' hc' hd hlive hrecord =>
        obtain rfl := action_unique s commit h id action action' hmem hmem'
        rw [hc'] at hc
        cases hc
    · -- the incarnation that was there
      split at hcurrent
      · cases hcurrent
      rename_i hret
      obtain ⟨d, hd, haddress, hlive⟩ := (hi.current address id).mp hcurrent
      obtain ⟨d', hd'⟩ := exists_after s s' commit hi h happlied id (.inl (by rw [hd]; rfl))
      refine ⟨d', hd', ?_⟩
      cases became s s' commit h happlied id d' hd' with
      | kept hd₀ hnot =>
        rw [hd] at hd₀
        cases hd₀
        exact ⟨haddress, hlive⟩
      | created action record hmem hc hrecord =>
        have hnone := ((h.actions (id, action) hmem).create record hc).2.1
        rw [hd] at hnone
        cases hnone
      | changed action d₀ hmem hc hd₀ hlive₀ hrecord =>
        rw [hd] at hd₀
        cases hd₀
        have hkeep : action.retire = false := by
          rw [Bool.eq_false_iff]
          intro hr
          exact hret ((retires_iff s commit address id hcurrent).mpr
            ⟨action, hmem, haddress ▸ actionAddress_existing s id action d hc hd, hr⟩)
        rw [hrecord, hkeep]
        exact ⟨haddress, hlive⟩
  · rintro ⟨d', hd', haddress, hlive⟩
    cases became s s' commit h happlied id d' hd' with
    | kept hd hnot =>
      exact current_stays s commit hi h address id ((hi.current address id).mpr ⟨d', hd, haddress, hlive⟩)
        (fun action hmem => absurd hmem (hnot action))
    | created action record hmem hc hrecord =>
      rw [hrecord] at haddress hlive
      have hretire : action.retire = false := by
        rw [Bool.eq_false_iff]
        intro hr
        rw [createdRecord, hr] at hlive
        cases hlive
      refine current_created s commit hi h address id ((mem_created_iff s commit address id).mpr
        ⟨action, hmem, ?_, by rw [hc]; rfl, hretire⟩)
      rw [actionAddress_create s id action record hc]
      exact congrArg some haddress
    | changed action d hmem hc hd hlive₀ hrecord =>
      have hretire : action.retire = false := by
        rw [Bool.eq_false_iff]
        intro hr
        rw [hrecord, if_pos hr] at hlive
        cases hlive
      rw [hrecord, hretire] at haddress
      refine current_stays s commit hi h address id ((hi.current address id).mpr ⟨d, hd, haddress, hlive₀⟩) ?_
      intro action' hmem'
      rw [← action_unique s commit h id action action' hmem hmem']
      exact hretire

/-! ## One incarnation at a time -/

theorem alive_before (s s' : State) (commit : PreparedCommit) (h : Accepted s commit)
    (happlied : Applied s commit s') (id : Id) (d' : StoredDocumentState) (seq : Seq) (hlt : seq < commit.seq)
    (hd' : s'.documents id = some d') (halive : isAliveAt d'.record (.at seq) = true) :
    ∃ d, s.documents id = some d ∧ d.record.address = d'.record.address ∧
      isAliveAt d.record (.at seq) = true := by
  cases became s s' commit h happlied id d' hd' with
  | kept hd hnot => exact ⟨d', hd, rfl, halive⟩
  | created action record hmem hc hrecord =>
    rw [hrecord, isAliveAt, Bool.and_eq_true, decide_eq_true_eq] at halive
    exact absurd halive.1 (not_le_of_gt hlt)
  | changed action d hmem hc hd hlive hrecord =>
    refine ⟨d, hd, ?_, ?_⟩
    · rw [hrecord]
      split <;> rfl
    · rw [isAliveAt, Bool.and_eq_true] at halive ⊢
      rw [hlive]
      refine ⟨?_, rfl⟩
      have hat := halive.1
      rw [hrecord] at hat
      split at hat <;> exact hat

theorem alive_after (nextSeq : Seq) (d : StoredDocumentState) (h : DocumentOk (nextSeq + 1) d) (seq : Seq)
    (hle : nextSeq ≤ seq) (halive : isAliveAt d.record (.at seq) = true) : d.record.retiredAt = none := by
  rw [isAliveAt, Bool.and_eq_true] at halive
  cases hr : d.record.retiredAt with
  | none => rfl
  | some retired =>
    have hbound := (h.retiredAt retired hr).2
    rw [hr, Option.all_some] at halive
    exact absurd (lt_of_le_of_lt hle (of_decide_eq_true halive.2)) (not_lt_of_ge (Nat.le_of_lt_succ hbound))

theorem aliveOnce_after (s s' : State) (commit : PreparedCommit) (hi : Invariant s) (h : Accepted s commit)
    (happlied : Applied s commit s') (hcurrent : CurrentOk s')
    (hdocuments : ∀ id d, s'.documents id = some d → DocumentOk (commit.seq + 1) d) : AliveOnce s' := by
  intro id id' d d' seq hd hd' haddress halive halive'
  by_cases hlt : seq < commit.seq
  · obtain ⟨e, he, hea, healive⟩ := alive_before s s' commit h happlied id d seq hlt hd halive
    obtain ⟨e', he', hea', healive'⟩ := alive_before s s' commit h happlied id' d' seq hlt hd' halive'
    exact hi.aliveOnce id id' e e' seq he he' (by rw [hea, hea', haddress]) healive healive'
  · have hle := not_lt.mp hlt
    have hnow := alive_after commit.seq d (hdocuments id d hd) seq hle halive
    have hnow' := alive_after commit.seq d' (hdocuments id' d' hd') seq hle halive'
    have hcur := (hcurrent d.record.address id).mpr ⟨d, hd, rfl, hnow⟩
    have hcur' := (hcurrent d.record.address id').mpr ⟨d', hd', haddress.symm, hnow'⟩
    rw [hcur] at hcur'
    exact Option.some.inj hcur'

/-! ## Every commit keeps the invariant -/

theorem applyPreparedCommit_invariant (s : State) (commit : PreparedCommit) (hi : Invariant s)
    (h : Accepted s commit) : Invariant (s.applyPreparedCommit commit) := by
  have happlied := applyPreparedCommit_applied s commit hi.sound h
  have hdocuments : ∀ id d, (s.applyPreparedCommit commit).documents id = some d → DocumentOk (commit.seq + 1) d := by
    intro id d hd
    rw [happlied.documents id] at hd
    cases hget : Assoc.get? commit.actions id with
    | none =>
      rw [hget] at hd
      exact (hi.documents id d hd).mono _ _ _ (Nat.le_succ_of_le h.seq)
    | some action =>
      rw [hget] at hd
      exact actionStored_ok s commit.seq id action (h.actions (id, action) (Assoc.mem_of_get? _ _ _ hget)) h.seq
        (hi.documents id) d hd
  have hcurrent := currentOk_after s _ commit hi h happlied
  exact ⟨happlied.sound, hdocuments, hcurrent, aliveOnce_after s _ commit hi h happlied hcurrent hdocuments⟩

theorem empty_table {α : Type} : IsIndex [] (fun _ : Id => ∃ r : α, (none : Option α) = some r) :=
  IsIndex.nil (fun _ h => by
    obtain ⟨r, hr⟩ := h
    cases hr)

theorem empty_index {α : Type} (p : α → Prop) : IsIndex [] (fun _ : Id => ∃ r : α, none = some r ∧ p r) :=
  IsIndex.nil (fun _ h => by
    obtain ⟨r, hr, -⟩ := h
    cases hr)

theorem empty_invariant : Invariant State.empty where
  sound := by
    refine ⟨⟨?_, ?_, ?_, ?_, ?_⟩, ?_, ⟨?_, ?_, ?_, ?_, ?_⟩⟩
    iterate 5 exact fun id => ⟨by rintro ⟨⟩, by rintro ⟨r, ⟨⟩⟩⟩
    · exact ⟨empty_table, fun _ => empty_index _, fun _ => empty_index _, fun _ => empty_index _,
        fun _ => empty_index _, empty_table, fun _ => empty_index _, empty_table, fun _ => empty_index _,
        fun _ => empty_index _, fun _ => empty_index _⟩
    all_goals
      rintro id r ⟨⟩
  documents := by
    rintro id d ⟨⟩
  current := fun address id => ⟨by rintro ⟨⟩, by rintro ⟨d, ⟨⟩, -⟩⟩
  aliveOnce := by
    rintro id id' d d' seq ⟨⟩

/-! ## Runs -/

structure Handle where
  given : List StorageWrite
  commit : PreparedCommit
  applied : Bool

structure Store where
  state : State
  prepared : List Handle

inductive Call where
  | prepare (writes : List StorageWrite) (seq : Option Seq)
  | apply (index : ℕ)

def Store.prepareCommit (s : Store) (writes : List StorageWrite) (seq : Option Seq) : Store × Except StorageError Seq :=
  match Durable.prepareCommit s.state writes (seq.getD s.state.nextSeq) with
  | .error e => (s, .error e)
  | .ok commit => ({ s with prepared := s.prepared ++ [⟨writes, commit, false⟩] }, .ok commit.seq)

def Store.apply (s : Store) (index : ℕ) : Store :=
  match s.prepared[index]? with
  | none => s
  | some handle =>
    if handle.applied then s
    else
      { state := s.state.applyPreparedCommit handle.commit
        prepared := s.prepared.set index { handle with applied := true } }

def Store.step (s : Store) : Call → Store × Except StorageError Seq
  | .prepare writes seq => s.prepareCommit writes seq
  | .apply index => (s.apply index, .ok ((s.apply index).state.nextSeq))

def memoryStorage : Machine Store Call (Except StorageError Seq) where
  start := { state := State.empty, prepared := [] }
  step := Store.step

def StillPrepared (s : Store) : Call → Prop
  | .prepare .. => True
  | .apply index => ∀ handle, s.prepared[index]? = some handle → handle.applied = false →
      prepareCommit s.state handle.given handle.commit.seq = .ok handle.commit

theorem step_invariant (s : Store) (call : Call) (h : Invariant s.state) (hstill : StillPrepared s call) :
    Invariant (s.step call).1.state := by
  cases call with
  | prepare writes seq =>
    simp only [Store.step, Store.prepareCommit]
    split
    · exact h
    · exact h
  | apply index =>
    simp only [Store.step, Store.apply]
    split
    · exact h
    rename_i handle hget
    split
    · exact h
    rename_i hfresh
    have hok := hstill handle hget (by simpa using hfresh)
    exact applyPreparedCommit_invariant s.state handle.commit h (prepareCommit_accepted s.state _ _ _ hok).1

theorem step_rejected (s : Store) (call : Call) (e : StorageError) (h : (s.step call).2 = .error e) :
    (s.step call).1 = s := by
  cases call with
  | apply index => cases h
  | prepare writes seq =>
    simp only [Store.step, Store.prepareCommit] at h ⊢
    split at h
    · rfl
    · cases h

def ReadsFold (s : State) : Prop :=
  ∀ id d point, s.documents id = some d → Readable d point →
    ∃ version value deltas, NewestBase (revisionsUpTo d.revisions point) version value deltas ∧
      materializeDocument s id point = (deltas.foldlM revise value).map (fun value =>
        some { record := d.record, version, value, deltasSinceBase := deltas.length })

theorem memoryStorage_invariant (calls : List Call)
    (h : memoryStorage.Allowed StillPrepared memoryStorage.start calls) :
    memoryStorage.Always (fun s => Invariant s.state ∧ ReadsFold s.state) memoryStorage.start calls ∧
    ∀ (s : Store) (call : Call) (e : StorageError), (memoryStorage.step s call).2 = .error e →
      (memoryStorage.step s call).1 = s := by
  refine ⟨Machine.Always.mono (fun s hi => ⟨hi, fun id d point hd hr => ?_⟩)
    (memoryStorage.always_of_allowed (fun s call hi hc => step_invariant s call hi hc) empty_invariant h), step_rejected⟩
  exact materializeDocument_fold s.state id d point hd (hi.documents id d hd) hr

def successorCalls : List Call :=
  [.prepare [.conversation ⟨1, none, none⟩, .task ⟨2, 1, [], 1, none, false, false, false, false, .pending .null, .null⟩,
      .documentCreate ⟨3, [], none, .session, none, none⟩ 1 .null] none,
    .apply 0,
    .prepare [.documentCreate ⟨4, [], none, .session, none, none⟩ 1 .null, .documentChange 3 (.delta 1 []),
      .documentRetire 3] none,
    .apply 1]

theorem memoryStorage_invariant_successor :
    Invariant (memoryStorage.runFrom memoryStorage.start successorCalls).state :=
  (memoryStorage_invariant successorCalls
    ⟨trivial, fun _ hget _ => by cases hget; rfl, trivial, fun _ hget _ => by cases hget; rfl, trivial⟩).1.last.1

/-- A commit that was prepared before another one was applied may write an ID that is taken by now. -/
theorem stale_apply_breaks : ¬ ((memoryStorage.runFrom memoryStorage.start
    [.prepare [.entry ⟨5, 1, none, .null⟩] none, .prepare [.entry ⟨5, 1, none, .null⟩] none,
      .apply 0, .apply 1]).state.entryIds 1).Pairwise (· < ·) := by
  decide

end PiAgent.Durable
