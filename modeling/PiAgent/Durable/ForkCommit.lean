import PiAgent.Durable.ForkCopies

/-! # The commit of a fork -/

namespace PiAgent.Durable

open List Assoc Sorted

/-! ## The actions of the writes -/

structure Recorded (writes : List StorageWrite) (actions : Actions) : Prop where
  create : ∀ record version value, .documentCreate record version value ∈ writes →
    ((get? actions record.id).getD {}).create = some record ∧
      ((get? actions record.id).getD {}).content = some (.base version value)
  retire : ∀ id, ((get? actions id).getD {}).retire = true ↔ .documentRetire id ∈ writes
  other : ∀ id, id ∉ changedDocumentIds writes → get? actions id = none

theorem changedDocumentIds_append (a b : List StorageWrite) :
    changedDocumentIds (a ++ b) = changedDocumentIds a ++ changedDocumentIds b := filterMap_append

variable (done : List StorageWrite) (actions : Actions) (write : StorageWrite)

theorem recorded_same (h : Recorded done actions)
    (hcreate : ∀ record version value, write ≠ .documentCreate record version value)
    (hretire : ∀ id, write ≠ .documentRetire id) : Recorded (done ++ [write]) actions := by
  refine ⟨fun record version value hmem => ?_, fun id => ?_, fun id hid => ?_⟩
  · rcases mem_append.mp hmem with hmem | hmem
    · exact h.create record version value hmem
    · exact absurd (mem_singleton.mp hmem).symm (hcreate record version value)
  · rw [h.retire id, mem_append, mem_singleton]
    exact (or_iff_left (Ne.symm (hretire id))).symm
  · rw [changedDocumentIds_append, mem_append, not_or] at hid
    exact h.other id hid.1

theorem recorded_set (h : Recorded done actions)
    (target : Id) (action : DocumentAction) (hchanged : changedDocumentIds [write] = [target])
    (hcreate : ∀ record version value, .documentCreate record version value ∈ done ++ [write] → record.id = target →
      action.create = some record ∧ action.content = some (.base version value))
    (hretire : action.retire = true ↔ .documentRetire target ∈ done ++ [write])
    (hcreated : ∀ record version value, write = .documentCreate record version value → record.id = target)
    (hretired : ∀ id, write = .documentRetire id → id = target) :
    Recorded (done ++ [write]) (set actions target action) := by
  refine ⟨fun record version value hmem => ?_, fun id => ?_, fun id hid => ?_⟩
  · rw [get?_set]
    split
    · rename_i heq
      exact hcreate record version value hmem heq.symm
    · rename_i hne
      rcases mem_append.mp hmem with hmem | hmem
      · exact h.create record version value hmem
      · exact absurd (hcreated record version value (mem_singleton.mp hmem).symm).symm hne
  · rw [get?_set]
    split
    · rename_i heq
      rw [← heq]
      exact hretire
    · rename_i hne
      rw [h.retire id, mem_append, mem_singleton]
      exact (or_iff_left (fun heq => hne (hretired id heq.symm).symm)).symm
  · rw [changedDocumentIds_append, hchanged, mem_append, not_or, mem_singleton] at hid
    rw [get?_set, if_neg (Ne.symm hid.2)]
    exact h.other id hid.1

theorem recorded_step (actions actions' : Actions) (write : StorageWrite)
    (h : Recorded done actions) (hok : addAction actions write = .ok actions') : Recorded (done ++ [write]) actions' := by
  have hkeep : ∀ id, .documentRetire id ≠ write →
      (((get? actions id).getD {}).retire = true ↔ .documentRetire id ∈ done ++ [write]) := by
    intro id hne
    rw [h.retire id, mem_append, mem_singleton]
    exact (or_iff_left hne).symm
  cases write with
  | documentCreate record version value =>
    simp only [addAction] at hok
    split at hok
    · cases hok
    · rename_i hfresh
      cases hok
      refine recorded_set done actions _ h record.id _ rfl (fun r v x hmem heq => ?_) ?_
        (fun r v x heq => by cases heq; rfl) (fun id heq => by cases heq)
      · rcases mem_append.mp hmem with hmem | hmem
        · obtain ⟨hc, -⟩ := h.create r v x hmem
          rw [heq] at hc
          exact absurd (.inl (by rw [hc]; rfl)) hfresh
        · cases mem_singleton.mp hmem
          exact ⟨rfl, rfl⟩
      · exact hkeep record.id (fun heq => by cases heq)
  | documentChange id content =>
    simp only [addAction] at hok
    split at hok
    · cases hok
    · rename_i hnone
      cases hok
      refine recorded_set done actions _ h id _ rfl (fun r v x hmem heq => ?_) ?_
        (fun r v x heq => by cases heq) (fun id heq => by cases heq)
      · rcases mem_append.mp hmem with hmem | hmem
        · obtain ⟨-, hcontent⟩ := h.create r v x hmem
          rw [heq] at hcontent
          exact absurd (by rw [hcontent]; rfl) hnone
        · cases mem_singleton.mp hmem
      · exact hkeep id (fun heq => by cases heq)
  | documentRetire id =>
    simp only [addAction] at hok
    split at hok
    · cases hok
    · cases hok
      refine recorded_set done actions _ h id _ rfl (fun r v x hmem heq => ?_) (by simp)
        (fun r v x heq => by cases heq) (fun id heq => by cases heq; rfl)
      rcases mem_append.mp hmem with hmem | hmem
      · rw [← heq]
        exact h.create r v x hmem
      · cases mem_singleton.mp hmem
  | _ =>
    cases hok
    exact recorded_same done actions _ h (fun _ _ _ heq => by cases heq) (fun _ heq => by cases heq)

variable (writes : List StorageWrite)

theorem recorded (actions : Actions) (h : prepareDocumentActions writes = .ok actions) :
    Recorded writes actions :=
  prepareDocumentActions_induction ⟨fun _ _ _ hmem => absurd hmem not_mem_nil, fun _ =>
    ⟨fun hr => Bool.noConfusion hr, fun hmem => absurd hmem not_mem_nil⟩, fun _ _ => rfl⟩ recorded_step writes actions h

/-! ## The copies of a batch -/

structure Resolves (s : State) (changed : List Id) (writes detached : List StorageWrite) : Prop where
  given : ∀ write ∈ writes, ∃ write' ∈ detached, resolveDocumentCopy s changed write = .ok write'
  back : ∀ write' ∈ detached, ∃ write ∈ writes, resolveDocumentCopy s changed write = .ok write'
  ids : changedDocumentIds detached = changedDocumentIds writes

variable (s : State)

theorem resolveDocumentCopy_ids (changed : List Id) (write write' : StorageWrite)
    (h : resolveDocumentCopy s changed write = .ok write') : changedDocumentIds [write'] = changedDocumentIds [write] := by
  cases write with
  | documentCopy record source point =>
    unfold resolveDocumentCopy at h
    simp only at h
    split at h
    · cases h
    · split at h
      · split at h
        · cases h
          rfl
        · cases h
      · cases h
  | _ =>
    cases h
    rfl

theorem resolves (changed : List Id) (writes detached : List StorageWrite)
    (h : writes.mapM (resolveDocumentCopy s changed) = .ok detached) : Resolves s changed writes detached := by
  induction writes generalizing detached with
  | nil =>
    rw [mapM_nil] at h
    cases h
    exact ⟨fun _ hmem => (by cases hmem), fun _ hmem => (by cases hmem), rfl⟩
  | cons write writes ih =>
    rw [mapM_cons] at h
    cases hwrite : resolveDocumentCopy s changed write with
    | error e =>
      rw [hwrite] at h
      cases h
    | ok write' =>
      cases hrest : writes.mapM (resolveDocumentCopy s changed) with
      | error e =>
        rw [hwrite, hrest] at h
        cases h
      | ok rest =>
        rw [hwrite, hrest] at h
        cases h
        obtain ⟨hgiven, hback, hids⟩ := ih rest hrest
        refine ⟨fun w hmem => ?_, fun w hmem => ?_, ?_⟩
        · rcases mem_cons.mp hmem with rfl | hmem
          · exact ⟨write', mem_cons_self, hwrite⟩
          · obtain ⟨w', hw', hok⟩ := hgiven w hmem
            exact ⟨w', mem_cons_of_mem _ hw', hok⟩
        · rcases mem_cons.mp hmem with rfl | hmem
          · exact ⟨write, mem_cons_self, hwrite⟩
          · obtain ⟨w', hw', hok⟩ := hback w hmem
            exact ⟨w', mem_cons_of_mem _ hw', hok⟩
        · have hone := resolveDocumentCopy_ids s changed write write' hwrite
          rw [← singleton_append, changedDocumentIds_append, hids, hone, ← changedDocumentIds_append]
          rfl

theorem prepareCommit_parts (writes : List StorageWrite) (seq : Seq) (commit : PreparedCommit)
    (h : prepareCommit s writes seq = .ok commit) :
    Resolves s (changedDocumentIds writes) writes commit.writes ∧ Recorded commit.writes commit.actions ∧
      commit.seq = seq := by
  unfold prepareCommit at h
  split at h
  · cases h
  split at h
  · cases h
  rename_i detached hdetached
  split at h
  · cases h
  split at h
  · cases h
  rename_i actions hactions
  split at h
  · cases h
  cases h
  exact ⟨resolves s _ writes _ hdetached, recorded _ _ hactions, rfl⟩

/-! ## A run of commits -/

inductive Commits (P : List StorageWrite → Prop) (s : State) : State → Prop where
  | none : Commits P s s
  | more (t : State) (writes : List StorageWrite) (seq : Seq) (commit : PreparedCommit) (h : Commits P s t)
    (hwrites : P writes) (hcommit : prepareCommit t writes seq = .ok commit) :
    Commits P s (t.applyPreparedCommit commit)

theorem Commits.invariant (P : List StorageWrite → Prop) (s t : State) (h : Commits P s t) (hs : Invariant s) :
    Invariant t := by
  induction h with
  | none => exact hs
  | more t writes seq commit h hwrites hcommit ih =>
    exact applyPreparedCommit_invariant t commit ih (prepareCommit_accepted t writes seq commit hcommit).1

theorem document_unnamed (hs : Sound s) (writes : List StorageWrite) (seq : Seq) (commit : PreparedCommit)
    (hcommit : prepareCommit s writes seq = .ok commit) (id : Id) (hid : id ∉ changedDocumentIds writes) :
    (s.applyPreparedCommit commit).documents id = s.documents id := by
  obtain ⟨hresolves, hrecorded, -⟩ := prepareCommit_parts s writes seq commit hcommit
  have happlied := applyPreparedCommit_applied s commit hs (prepareCommit_accepted s writes seq commit hcommit).1
  have hnone := hrecorded.other id (by rwa [hresolves.ids])
  have hdoc := happlied.documents id
  rw [hnone] at hdoc
  exact hdoc

theorem Commits.document (s t : State) (id : Id)
    (h : Commits (fun writes => id ∉ changedDocumentIds writes) s t) (hs : Invariant s) :
    t.documents id = s.documents id := by
  induction h with
  | none => rfl
  | more t writes seq commit h hwrites hcommit ih =>
    rw [document_unnamed t (h.invariant _ _ _ hs).sound writes seq commit hcommit id hwrites]
    exact ih

theorem materializeDocument_congr (s t : State) (id : Id) (point : DocumentPoint) (h : t.documents id = s.documents id) :
    materializeDocument t id point = materializeDocument s id point := by
  unfold materializeDocument
  rw [h]

/-! ## A created document -/

theorem document_created (hs : Sound s) (writes : List StorageWrite) (seq : Seq) (commit : PreparedCommit)
    (hcommit : prepareCommit s writes seq = .ok commit) (record : DocumentCreate) (version : ℤ) (value : JsonValue)
    (hcreate : .documentCreate record version value ∈ commit.writes) :
    s.documents record.id = none ∧ ∃ retired, (retired = true ↔ .documentRetire record.id ∈ commit.writes) ∧
      (s.applyPreparedCommit commit).documents record.id = some ⟨createdRecord record retired seq,
        if retired = true ∧ isCurrentOnly record = true then [] else [⟨.base version value, seq⟩]⟩ := by
  obtain ⟨-, hrecorded, rfl⟩ := prepareCommit_parts s writes seq commit hcommit
  have haccepted := (prepareCommit_accepted s writes commit.seq commit hcommit).1
  have happlied := applyPreparedCommit_applied s commit hs haccepted
  obtain ⟨hc, hcontent⟩ := hrecorded.create record version value hcreate
  have hretire := hrecorded.retire record.id
  cases hget : get? commit.actions record.id with
  | none =>
    rw [hget] at hc
    cases hc
  | some action =>
    rw [hget, Option.getD_some] at hc hcontent hretire
    have hdoc := happlied.documents record.id
    rw [hget] at hdoc
    simp only [actionStored_create _ action commit.seq record version value hc hcontent] at hdoc
    exact ⟨((haccepted.actions _ (mem_of_get? _ _ _ hget)).create record hc).2.1, action.retire, hretire, hdoc⟩

theorem created_once (writes : List StorageWrite) (seq : Seq) (commit : PreparedCommit)
    (hcommit : prepareCommit s writes seq = .ok commit) (a b : DocumentCreate) (version version' : ℤ)
    (value value' : JsonValue) (ha : .documentCreate a version value ∈ commit.writes)
    (hb : .documentCreate b version' value' ∈ commit.writes) (hid : a.id = b.id) : a = b := by
  obtain ⟨-, hrecorded, -⟩ := prepareCommit_parts s writes seq commit hcommit
  have hac := (hrecorded.create a version value ha).1
  have hbc := (hrecorded.create b version' value' hb).1
  rw [hid, hbc] at hac
  exact (Option.some.inj hac).symm

theorem materializeDocument_created (record : DocumentCreate) (seq : Seq) (version : ℤ) (value : JsonValue)
    (h : s.documents record.id = some ⟨createdRecord record false seq, [⟨.base version value, seq⟩]⟩) :
    materializeDocument s record.id .current =
      .ok (some { record := createdRecord record false seq, version, value, deltasSinceBase := 0 }) := by
  unfold materializeDocument
  rw [h]
  rfl

theorem materializeDocument_retired (record : DocumentCreate) (seq : Seq) (revisions : List DocumentRevision)
    (h : s.documents record.id = some ⟨createdRecord record true seq, revisions⟩) :
    materializeDocument s record.id .current = .ok none := by
  unfold materializeDocument
  rw [h]
  rfl

end PiAgent.Durable
