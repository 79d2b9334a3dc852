import PiAgent.Durable.ForkCommit

/-!
# Fork fidelity

A fork copies the documents it selects, each once, with the values they have at the point of
the fork; afterwards the two sides change alone.
-/

namespace PiAgent.Durable

open Sorted

/-! ## The entry of a fork -/

def WrittenAt (s : State) (id : Id) (seq : Seq) : Prop :=
  ∃ t writes commit entry, Commits (fun _ => True) State.empty t ∧ prepareCommit t writes seq = .ok commit ∧
    .entry entry ∈ commit.writes ∧ entry.id = id ∧ Commits (fun _ => True) (t.applyPreparedCommit commit) s

theorem applyWrites_entryCommitSeqs (seq : Seq) (writes : List StorageWrite) (s : State) (id : Id) :
    (writes.foldl (fun s write => s.applyWrite seq write) s).entryCommitSeqs id = s.entryCommitSeqs id ∨
      (writes.foldl (fun s write => s.applyWrite seq write) s).entryCommitSeqs id = some seq ∧
        ∃ entry, .entry entry ∈ writes ∧ entry.id = id := by
  induction writes generalizing s with
  | nil => exact .inl rfl
  | cons write writes ih =>
    rw [List.foldl_cons]
    have hrest := ih (s.applyWrite seq write)
    have hlater : (∃ entry, .entry entry ∈ writes ∧ entry.id = id) →
        ∃ entry, .entry entry ∈ write :: writes ∧ entry.id = id := by
      rintro ⟨entry, hmem, hid⟩
      exact ⟨entry, List.mem_cons_of_mem _ hmem, hid⟩
    rcases hrest with hrest | ⟨hrest, hentry⟩
    · cases write with
      | entry value =>
        by_cases hid : value.id = id
        · subst hid
          refine .inr ⟨hrest.trans ?_, value, List.mem_cons_self, rfl⟩
          exact Function.update_self ..
        · refine .inl (hrest.trans ?_)
          exact Function.update_of_ne (Ne.symm hid) ..
      | _ => exact .inl hrest
    · exact .inr ⟨hrest, hlater hentry⟩

theorem applyActions_entryCommitSeqs (seq : Seq) (actions : Actions) (t : State) :
    (actions.foldl (fun s p => s.applyDocumentAction seq p.1 p.2) t).entryCommitSeqs = t.entryCommitSeqs := by
  induction actions generalizing t with
  | nil => rfl
  | cons p actions ih =>
    rw [List.foldl_cons, ih]
    unfold State.applyDocumentAction
    split <;> rfl

theorem writtenAt (s : State) (h : Commits (fun _ => True) State.empty s) (id : Id) (seq : Seq)
    (hseq : s.entryCommitSeqs id = some seq) : WrittenAt s id seq := by
  induction h with
  | none => cases hseq
  | more t writes n commit h hwrites hcommit ih =>
    have hn := (prepareCommit_accepted t writes n commit hcommit).2
    have hafter : (t.applyPreparedCommit commit).entryCommitSeqs id =
        (commit.writes.foldl (fun s write => s.applyWrite commit.seq write) t).entryCommitSeqs id :=
      congrFun (applyActions_entryCommitSeqs commit.seq commit.actions _) id
    rw [hafter] at hseq
    rcases applyWrites_entryCommitSeqs commit.seq commit.writes t id with hold | ⟨hnew, entry, hmem, hid⟩
    · rw [hold] at hseq
      obtain ⟨t', writes', commit', entry, hstart, hok, hmem, hid, hrest⟩ := ih hseq
      exact ⟨t', writes', commit', entry, hstart, hok, hmem, hid, .more t writes n commit hrest trivial hcommit⟩
    · rw [hnew, hn] at hseq
      cases hseq
      exact ⟨t, writes, commit, entry, h, hcommit, hmem, hid, .none⟩

theorem mem_visibleFrom_visible (s : State) (hs : Sound s) (lower : Option Id) (fuel : ℕ) (id : Id)
    (upper : Option Id) (entry : EntryRecord) (h : entry ∈ visibleFrom s lower fuel id upper) :
    Visible s id entry ∧ atMost upper entry.id = true ∧ atLeast lower entry.id = true := by
  induction fuel generalizing id upper with
  | zero => cases h
  | succ fuel ih =>
    unfold visibleFrom at h
    rcases List.mem_append.mp h with hown | hup
    · obtain ⟨he, hc, hupper, hlower⟩ := (mem_descendingSegment s hs lower upper id entry).mp hown
      exact ⟨(visible_iff s id entry).mpr (.inl ⟨he, hc⟩), hupper, hlower⟩
    · split at hup
      · cases hup
      · rename_i parent hp
        split at hup
        · cases hup
        · obtain ⟨hvisible, hupper, hlower⟩ := ih parent.conversationId _ hup
          rw [atMost_narrow, Bool.and_eq_true] at hupper
          exact ⟨.inherited id parent entry hp (of_decide_eq_true hupper.2) hvisible, hupper.1, hlower⟩

theorem forkEntry_visible (s : State) (hs : Sound s) (parent entryId : Id) (entry : EntryRecord) (seq : Seq)
    (h : forkEntry s parent entryId = .ok (entry, seq)) :
    entry.id = entryId ∧ Visible s parent entry ∧ s.entryCommitSeqs entryId = some seq := by
  unfold forkEntry at h
  split at h
  · cases h
  · rename_i entries hentries
    split at h
    · rename_i head n hhead hseq
      cases h
      unfold visibleEntries at hentries
      split at hentries
      · cases hentries
      · cases hentries
        obtain ⟨hvisible, hupper, hlower⟩ := mem_visibleFrom_visible s hs (some entryId) _ parent (some entryId) entry
          (List.mem_of_head? hhead)
        exact ⟨le_antisymm (of_decide_eq_true hupper) (of_decide_eq_true hlower), hvisible, hseq⟩
    · cases h

/-! ## What the callback makes of a copy -/

def edited (value : JsonValue) (ops : List CopyOp) : JsonValue :=
  ops.foldl (fun value op => match op with
    | .edit value => value
    | _ => value) value

theorem edited_append (value : JsonValue) (before after : List CopyOp) :
    edited value (before ++ after) = edited (edited value before) after := List.foldl_append

structure Performed (s : State) (copy : ForkDocumentCopy) (ops : List CopyOp) (entry : CopyEntry) : Prop where
  same : entry.copy = copy
  retired : entry.retireOnCommit = true ↔ .retire ∈ ops
  untouched : entry.acquired = none → ∀ op ∈ ops, op = .retire
  started : ∀ version value, entry.acquired = some (version, value) →
    ∃ stored definition, materializeDocument s copy.source copy.point = .ok (some stored) ∧
      .acquire definition ∈ ops ∧ version = definition.version ∧
      value = edited (definition.materialize stored.version stored.value) ops

theorem edited_retires (value : JsonValue) (ops : List CopyOp) (h : ∀ op ∈ ops, op = .retire) :
    edited value ops = value := by
  induction ops with
  | nil => rfl
  | cons op ops ih =>
    have hop := h op List.mem_cons_self
    subst hop
    exact ih (fun op hmem => h op (List.mem_cons_of_mem _ hmem))

theorem performed_step (s : State) (copy : ForkDocumentCopy) (done : List CopyOp) (op : CopyOp)
    (entry entry' : CopyEntry) (h : Performed s copy done entry) (hop : entry.perform s op = some entry') :
    Performed s copy (done ++ [op]) entry' := by
  cases op with
  | acquire definition =>
    unfold CopyEntry.perform at hop
    simp only at hop
    split at hop
    · cases hop
    have hretired : (.retire ∈ done ++ [.acquire definition]) ↔ CopyOp.retire ∈ done := by simp
    unfold acquireForkCopy at hop
    split at hop
    · rename_i hsome
      cases hop
      refine ⟨h.same, h.retired.trans hretired.symm, fun hnone => ?_, fun version value ha => ?_⟩
      · rw [hnone] at hsome
        cases hsome
      · obtain ⟨stored, definition', hstored, hmem, hversion, hvalue⟩ := h.started version value ha
        exact ⟨stored, definition', hstored, List.mem_append_left _ hmem, hversion, by rw [edited_append, hvalue]; rfl⟩
    · rename_i hnone
      rw [Bool.not_eq_true, Option.isSome_eq_false_iff, Option.isNone_iff_eq_none] at hnone
      split at hop
      · rename_i stored hstored
        split at hop
        · cases hop
          refine ⟨h.same, h.retired.trans hretired.symm, fun hno => (by cases hno), fun version value ha => ?_⟩
          cases ha
          rw [h.same] at hstored
          refine ⟨stored, definition, hstored, by simp, rfl, ?_⟩
          rw [edited_append, edited_retires _ _ (h.untouched hnone)]
          rfl
        · cases hop
      · cases hop
  | edit next =>
    unfold CopyEntry.perform at hop
    obtain ⟨acquired, hacquired, rfl⟩ := Option.map_eq_some_iff.mp hop
    refine ⟨h.same, h.retired.trans (by simp), fun hno => (by cases hno), fun version value ha => ?_⟩
    cases ha
    obtain ⟨stored, definition, hstored, hmem, hversion, -⟩ := h.started acquired.1 acquired.2 hacquired
    exact ⟨stored, definition, hstored, List.mem_append_left _ hmem, hversion, by rw [edited_append]; rfl⟩
  | retire =>
    cases hop
    refine ⟨h.same, ⟨fun _ => by simp, fun _ => rfl⟩, fun hnone op hmem => ?_, fun version value ha => ?_⟩
    · rcases List.mem_append.mp hmem with hmem | hmem
      · exact h.untouched hnone op hmem
      · exact List.mem_singleton.mp hmem
    · obtain ⟨stored, definition, hstored, hmem, hversion, hvalue⟩ := h.started version value ha
      exact ⟨stored, definition, hstored, List.mem_append_left _ hmem, hversion, by rw [edited_append, hvalue]; rfl⟩

theorem performed (s : State) (copy : ForkDocumentCopy) (ops : List CopyOp) (entry : CopyEntry)
    (h : (stageCopy copy).performAll s ops = some entry) : Performed s copy ops entry := by
  have key : ∀ (rest done : List CopyOp) (entry₀ : CopyEntry), Performed s copy done entry₀ →
      rest.foldlM (fun entry op => entry.perform s op) entry₀ = some entry → Performed s copy (done ++ rest) entry := by
    intro rest
    induction rest with
    | nil =>
      intro done entry₀ h₀ hfold
      cases hfold
      rwa [List.append_nil]
    | cons op rest ih =>
      intro done entry₀ h₀ hfold
      rw [List.foldlM_cons] at hfold
      cases hop : entry₀.perform s op with
      | none =>
        rw [hop] at hfold
        cases hfold
      | some entry₁ =>
        rw [hop] at hfold
        have hrest := ih (done ++ [op]) entry₁ (performed_step s copy done op entry₀ entry₁ h₀ hop) hfold
        rwa [List.append_assoc] at hrest
  exact key ops [] (stageCopy copy) ⟨rfl, ⟨fun hr => Bool.noConfusion hr, fun hmem => absurd hmem List.not_mem_nil⟩,
    fun _ op hmem => absurd hmem List.not_mem_nil, fun _ _ ha => (by cases ha)⟩ h

/-! ## The writes of a fork -/

inductive Origin (tx : ForkTx) (s : State) (write : StorageWrite) : Prop where
  | table (h : write.isTable = true)
  | copy (target : ForkDocumentCopy) (ops : List CopyOp) (entry : CopyEntry) (hstaged : .copy target ops ∈ tx.staged)
    (hentry : (stageCopy target).performAll s ops = some entry) (h : write ∈ entry.writes)
  | other (plan : DocumentPlan) (hstaged : .other plan ∈ tx.staged) (h : write ∈ plan.writes)

theorem Staged.writes_copy (s : State) (target : ForkDocumentCopy) (ops : List CopyOp) (entry : CopyEntry)
    (h : (stageCopy target).performAll s ops = some entry) : (Staged.copy target ops).writes s = entry.writes := by
  change ((stageCopy target).performAll s ops).elim [] CopyEntry.writes = entry.writes
  rw [h, Option.elim_some]

theorem origin (tx : ForkTx) (s : State) (h : tx.Settles s) (write : StorageWrite) (hmem : write ∈ tx.writes s) :
    Origin tx s write := by
  rcases List.mem_append.mp hmem with hmem | hmem
  · exact .table (h.tables write hmem)
  · obtain ⟨staged, hstaged, hwrite⟩ := List.mem_flatMap.mp hmem
    cases staged with
    | copy target ops =>
      obtain ⟨entry, hentry⟩ := Option.isSome_iff_exists.mp (h.performed target ops hstaged)
      rw [Staged.writes_copy s target ops entry hentry] at hwrite
      exact .copy target ops entry hstaged hentry hwrite
    | other plan => exact .other plan hstaged hwrite

theorem CopyEntry.mem_writes (entry : CopyEntry) (write : StorageWrite) :
    write ∈ entry.writes ↔ (∃ version value, entry.acquired = some (version, value) ∧
        write = .documentCreate entry.copy.record version value) ∨
      (entry.acquired = none ∧ write = .documentCopy entry.copy.record entry.copy.source entry.copy.point) ∨
      entry.retireOnCommit = true ∧ write = .documentRetire entry.copy.record.id := by
  unfold CopyEntry.writes
  cases entry.acquired with
  | none => cases entry.retireOnCommit <;> simp
  | some acquired =>
    obtain ⟨version, value⟩ := acquired
    cases entry.retireOnCommit <;> simp

theorem DocumentPlan.mem_writes (plan : DocumentPlan) (write : StorageWrite) (h : write ∈ plan.writes) :
    (plan.content.isNone && !plan.retire) = false ∧
      ((∃ version value, plan.content = some (.create version value) ∧
          write = .documentCreate plan.record version value) ∨
        (∃ source point, plan.content = some (.copy source point) ∧ write = .documentCopy plan.record source point) ∨
        (∃ content, write = .documentChange plan.record.id content) ∨ write = .documentRetire plan.record.id) := by
  unfold DocumentPlan.writes at h
  rcases List.mem_append.mp h with h | h
  · split at h
    · rename_i version value hcontent
      exact ⟨by rw [hcontent]; rfl, .inl ⟨version, value, hcontent, List.mem_singleton.mp h⟩⟩
    · rename_i source point hcontent
      exact ⟨by rw [hcontent]; rfl, .inr (.inl ⟨source, point, hcontent, List.mem_singleton.mp h⟩)⟩
    · rename_i content hcontent
      exact ⟨by rw [hcontent]; rfl, .inr (.inr (.inl ⟨content, List.mem_singleton.mp h⟩))⟩
    · cases h
  · split at h
    · rename_i hretire
      exact ⟨by rw [hretire, Bool.not_true, Bool.and_false], .inr (.inr (.inr (List.mem_singleton.mp h)))⟩
    · cases h

theorem mem_changedDocumentIds (writes : List StorageWrite) (id : Id) :
    id ∈ changedDocumentIds writes ↔ ∃ write ∈ writes, id ∈ changedDocumentIds [write] := by
  induction writes with
  | nil => simp [changedDocumentIds]
  | cons write writes ih =>
    rw [← List.singleton_append, changedDocumentIds_append, List.mem_append, ih]
    simp

theorem table_unnamed (write : StorageWrite) (h : write.isTable = true) : changedDocumentIds [write] = [] := by
  cases write with
  | conversation value => rfl
  | entry value => rfl
  | task value => rfl
  | submission value => rfl
  | documentCreate record version value => cases h
  | documentCopy record source point => cases h
  | documentChange id content => cases h
  | documentRetire id => cases h

/-! ## The child right after the commit -/

/-- What a copy starts from in the child: the stored value, brought to the version of the definition that reads it. -/
inductive Starts (stored : StoredDocument) (ops : List CopyOp) : ℤ → JsonValue → Prop where
  | unread (h : ∀ op ∈ ops, op = .retire) : Starts stored ops stored.version stored.value
  | read (definition : Definition) (h : .acquire definition ∈ ops) :
    Starts stored ops definition.version (definition.materialize stored.version stored.value)

section Commit

variable (tx : ForkTx) (s : State) (seq : Seq) (commit : PreparedCommit)

theorem staged_unique (hn : (tx.copies.map (fun copy => copy.record.address)).Nodup) (a b : Staged)
    (ha : a ∈ tx.staged) (hb : b ∈ tx.staged) (copy copy' : ForkDocumentCopy) (hcopy : a.copy? = some copy)
    (hcopy' : b.copy? = some copy') (haddress : copy.record.address = copy'.record.address) : a = b := by
  by_contra hne
  unfold ForkTx.copies at hn
  rw [List.Nodup, List.pairwise_map, List.pairwise_filterMap] at hn
  have hsymm : Std.Symm (fun x y : Staged => ∀ c, x.copy? = some c → ∀ c', y.copy? = some c' →
      c.record.address ≠ c'.record.address) := ⟨fun x y hxy c hc c' hc' heq => hxy c' hc' c hc heq.symm⟩
  exact List.Pairwise.forall hn ha hb hne copy hcopy copy' hcopy' haddress

theorem copy_created (h : tx.Settles s) (hcommit : prepareCommit s (tx.writes s) seq = .ok commit)
    (target : ForkDocumentCopy) (ops : List CopyOp) (hstaged : .copy target ops ∈ tx.staged) :
    ∃ stored version value, materializeDocument s target.source target.point = .ok (some stored) ∧
      Starts stored ops version value ∧ .documentCreate target.record version (edited value ops) ∈ commit.writes := by
  obtain ⟨hresolves, -, -⟩ := prepareCommit_parts s _ seq commit hcommit
  obtain ⟨entry, hentry⟩ := Option.isSome_iff_exists.mp (h.performed target ops hstaged)
  have hperformed := performed s target ops entry hentry
  have hgiven : ∀ write ∈ entry.writes, write ∈ tx.writes s := by
    intro write hmem
    refine List.mem_append_right _ (List.mem_flatMap.mpr ⟨_, hstaged, ?_⟩)
    rw [Staged.writes_copy s target ops entry hentry]
    exact hmem
  cases hacquired : entry.acquired with
  | none =>
    have hmem := hgiven _ ((entry.mem_writes _).mpr (.inr (.inl ⟨hacquired, rfl⟩)))
    obtain ⟨write', hwrite', hresolve⟩ := hresolves.given _ hmem
    rw [hperformed.same] at hresolve
    unfold resolveDocumentCopy at hresolve
    simp only at hresolve
    split at hresolve
    · cases hresolve
    split at hresolve
    · rename_i stored hstored
      split at hresolve
      · cases hresolve
        have huntouched := hperformed.untouched hacquired
        refine ⟨stored, stored.version, stored.value, hstored, .unread huntouched, ?_⟩
        rw [edited_retires _ _ huntouched]
        exact hwrite'
      · cases hresolve
    · cases hresolve
  | some acquired =>
    have hmem := hgiven _ ((entry.mem_writes _).mpr (.inl ⟨acquired.1, acquired.2, hacquired, rfl⟩))
    obtain ⟨write', hwrite', hresolve⟩ := hresolves.given _ hmem
    cases hresolve
    obtain ⟨stored, definition, hstored, hread, hversion, hvalue⟩ := hperformed.started _ _ hacquired
    rw [hperformed.same, hversion, hvalue] at hwrite'
    exact ⟨stored, _, _, hstored, .read definition hread, hwrite'⟩

theorem copy_retired (h : tx.Settles s) (hcommit : prepareCommit s (tx.writes s) seq = .ok commit)
    (hn : (tx.copies.map (fun copy => copy.record.address)).Nodup)
    (target : ForkDocumentCopy) (ops : List CopyOp) (hstaged : .copy target ops ∈ tx.staged) :
    .documentRetire target.record.id ∈ commit.writes ↔ .retire ∈ ops := by
  obtain ⟨hresolves, -, -⟩ := prepareCommit_parts s _ seq commit hcommit
  constructor
  · intro hmem
    obtain ⟨write, hwrite, hresolve⟩ := hresolves.back _ hmem
    have hsame : write = .documentRetire target.record.id := by
      cases write with
      | documentCopy record source point =>
        unfold resolveDocumentCopy at hresolve
        simp only at hresolve
        split at hresolve
        · cases hresolve
        split at hresolve
        · split at hresolve <;> cases hresolve
        · cases hresolve
      | documentRetire id =>
        cases hresolve
        rfl
      | _ => cases hresolve
    subst hsame
    cases origin tx s h _ hwrite with
    | table htable => cases htable
    | copy other ops' entry hother hentry hmem =>
      have hperformed := performed s other ops' entry hentry
      rcases (entry.mem_writes _).mp hmem with ⟨_, _, _, heq⟩ | ⟨_, heq⟩ | ⟨hretire, heq⟩
      · cases heq
      · cases heq
      · rw [hperformed.same] at heq
        have hid : target.record.id = other.record.id := StorageWrite.documentRetire.inj heq
        obtain ⟨_, version, value, _, _, hcreate⟩ := copy_created tx s seq commit h hcommit target ops hstaged
        obtain ⟨_, version', value', _, _, hcreate'⟩ := copy_created tx s seq commit h hcommit other ops' hother
        have hrecord := created_once s _ seq commit hcommit _ _ _ _ _ _ hcreate hcreate' hid
        have hunique := staged_unique tx hn _ _ hstaged hother target other rfl rfl (by rw [hrecord])
        cases hunique
        exact hperformed.retired.mp hretire
    | other plan hplan hmem =>
      obtain ⟨-, ⟨_, _, _, heq⟩ | ⟨_, _, _, heq⟩ | ⟨_, heq⟩ | heq⟩ := plan.mem_writes _ hmem
      · cases heq
      · cases heq
      · cases heq
      · have hid : target.record.id = plan.record.id := StorageWrite.documentRetire.inj heq
        refine absurd ?_ (h.minted plan hplan)
        rw [← hid]
        exact List.mem_map_of_mem (List.mem_filterMap.mpr ⟨_, hstaged, rfl⟩)
  · intro hretire
    obtain ⟨entry, hentry⟩ := Option.isSome_iff_exists.mp (h.performed target ops hstaged)
    have hperformed := performed s target ops entry hentry
    have hmem : .documentRetire target.record.id ∈ tx.writes s := by
      refine List.mem_append_right _ (List.mem_flatMap.mpr ⟨_, hstaged, ?_⟩)
      rw [Staged.writes_copy s target ops entry hentry, ← hperformed.same]
      exact (entry.mem_writes _).mpr (.inr (.inr ⟨hperformed.retired.mpr hretire, rfl⟩))
    obtain ⟨write', hwrite', hresolve⟩ := hresolves.given _ hmem
    cases hresolve
    exact hwrite'

end Commit

/-! ## Values at a point -/

structure ReadAt (s : State) (id : Id) (point : DocumentPoint) (stored : StoredDocument) : Prop where
  read : materializeDocument s id point = .ok (some stored)
  folded : ∃ d value deltas, s.documents id = some d ∧
    NewestBase (revisionsUpTo d.revisions point) stored.version value deltas ∧
    deltas.foldlM revise value = .ok stored.value

theorem readAt (s : State) (hi : Invariant s) (id : Id) (point : DocumentPoint) (stored : StoredDocument)
    (h : materializeDocument s id point = .ok (some stored)) : ReadAt s id point stored := by
  have hread := h
  unfold materializeDocument at hread
  split at hread
  · cases hread
  rename_i d hd
  split at hread
  · cases hread
  rename_i hretained
  split at hread
  · cases hread
  rename_i halive
  have hreadable : Readable d point := by
    refine ⟨by rwa [Bool.not_eq_false] at halive, ?_⟩
    rw [not_and_or, not_not, Bool.not_eq_true] at hretained
    exact hretained
  obtain ⟨version, value, deltas, hbase, hfold⟩ := materializeDocument_fold s id d point hd (hi.documents id d hd) hreadable
  rw [h] at hfold
  cases hvalue : deltas.foldlM revise value with
  | error e =>
    rw [hvalue] at hfold
    cases hfold
  | ok final =>
    rw [hvalue] at hfold
    cases hfold
    exact ⟨h, d, value, deltas, hd, hbase, hvalue⟩

/-! ## Fork fidelity -/

structure CopiedTo (s s' : State) (seq : Seq) (copy : ForkDocumentCopy) (ops : List CopyOp) : Prop where
  fresh : s.documents copy.record.id = none
  carried : ∃ stored version value, ReadAt s copy.source copy.point stored ∧ Starts stored ops version value ∧
    (.retire ∉ ops → materializeDocument s' copy.record.id .current =
      .ok (some ⟨createdRecord copy.record false seq, version, edited value ops, 0⟩))
  retired : .retire ∈ ops → materializeDocument s' copy.record.id .current = .ok none

structure Fidelity (tx : ForkTx) (s s' : State) (seq : Seq) : Prop where
  selected : ∃ entry entrySeq, entry.id = tx.entryId ∧ Visible s tx.parent entry ∧ WrittenAt s tx.entryId entrySeq ∧
    Copies s entry.conversationId tx.parent tx.child entrySeq tx.copies
  once : (tx.copies.map (fun copy => copy.source)).Nodup
  copied : ∀ copy ops, .copy copy ops ∈ tx.staged → CopiedTo s s' seq copy ops
  only : ∀ id d, s'.documents id = some d → s.documents id = none → d.record.scope = .conversation tx.child →
    id ∈ tx.copies.map (fun copy => copy.record.id) ∨
      ∃ plan version value, .other plan ∈ tx.staged ∧ plan.record.id = id ∧ plan.content = some (.create version value)
  live : ∀ id id' d d', s'.documents id = some d → s'.documents id' = some d' → d.record.address = d'.record.address →
    d.record.retiredAt = none → d'.record.retiredAt = none → id = id'
  sources : ∀ copy ∈ tx.copies, s'.documents copy.source = s.documents copy.source
  apart : ∀ copy ∈ tx.copies, ∀ copy' ∈ tx.copies, copy.record.id ≠ copy'.source
  later : ∀ id s'', Commits (fun writes => id ∉ changedDocumentIds writes) s' s'' →
    ∀ point, materializeDocument s'' id point = materializeDocument s' id point

section Fidelity

variable (tx : ForkTx) (s : State) (seq : Seq) (commit : PreparedCommit)

theorem mem_copies (copy : ForkDocumentCopy) (h : copy ∈ tx.copies) : ∃ ops, .copy copy ops ∈ tx.staged := by
  obtain ⟨staged, hstaged, hcopy⟩ := List.mem_filterMap.mp h
  cases staged with
  | copy target ops =>
    cases hcopy
    exact ⟨ops, hstaged⟩
  | other plan => cases hcopy

theorem copiedTo (hi : Invariant s) (h : tx.Settles s) (hcommit : prepareCommit s (tx.writes s) seq = .ok commit)
    (hn : (tx.copies.map (fun copy => copy.record.address)).Nodup) (copy : ForkDocumentCopy) (ops : List CopyOp)
    (hstaged : .copy copy ops ∈ tx.staged) : CopiedTo s (s.applyPreparedCommit commit) seq copy ops := by
  obtain ⟨stored, version, value, hstored, hstarts, hcreate⟩ := copy_created tx s seq commit h hcommit copy ops hstaged
  obtain ⟨hfresh, retired, hretired, hdoc⟩ := document_created s hi.sound _ seq commit hcommit _ _ _ hcreate
  rw [copy_retired tx s seq commit h hcommit hn copy ops hstaged] at hretired
  refine ⟨hfresh, ⟨stored, version, value, readAt s hi _ _ _ hstored, hstarts, fun hlive => ?_⟩, fun hretire => ?_⟩
  · have hno : retired = false := by
      rw [← Bool.not_eq_true]
      exact fun hr => hlive (hretired.mp hr)
    subst hno
    exact materializeDocument_created _ copy.record seq version (edited value ops) hdoc
  · rw [hretired.mpr hretire] at hdoc
    exact materializeDocument_retired _ copy.record seq _ hdoc

theorem child_documents (hi : Invariant s) (h : tx.Settles s) (hcommit : prepareCommit s (tx.writes s) seq = .ok commit)
    (id : Id) (d : StoredDocumentState) (hd : (s.applyPreparedCommit commit).documents id = some d)
    (hnew : s.documents id = none) (hscope : d.record.scope = .conversation tx.child) :
    id ∈ tx.copies.map (fun copy => copy.record.id) ∨
      ∃ plan version value, .other plan ∈ tx.staged ∧ plan.record.id = id ∧
        plan.content = some (.create version value) := by
  obtain ⟨hresolves, -, -⟩ := prepareCommit_parts s _ seq commit hcommit
  have haccepted := (prepareCommit_accepted s _ seq commit hcommit).1
  have happlied := applyPreparedCommit_applied s commit hi.sound haccepted
  cases became s _ commit haccepted happlied id d hd with
  | kept hold hnot =>
    rw [hnew] at hold
    cases hold
  | changed action old hmem hc hold hlive hrecord =>
    rw [hnew] at hold
    cases hold
  | created action record hmem hc hrecord =>
    have hget := Assoc.get?_of_mem commit.actions id action haccepted.actionsOf.nodup hmem
    obtain ⟨hid, -, -, -, version, value, hcreate⟩ := haccepted.actionsOf.create id action record hget hc
    have hchild : record.scope = .conversation tx.child := by
      rw [hrecord] at hscope
      exact hscope
    obtain ⟨write, hwrite, hresolve⟩ := hresolves.back _ hcreate
    have hnames : id ∈ changedDocumentIds [write] := by
      rw [← resolveDocumentCopy_ids s _ _ _ hresolve, ← hid]
      exact List.mem_singleton.mpr rfl
    cases origin tx s h write hwrite with
    | table htable =>
      rw [table_unnamed write htable] at hnames
      cases hnames
    | copy target ops entry hstaged hentry hwrites =>
      have hperformed := performed s target ops entry hentry
      rcases (entry.mem_writes write).mp hwrites with ⟨_, _, _, rfl⟩ | ⟨_, rfl⟩ | ⟨_, rfl⟩
      all_goals
        refine .inl ?_
        rw [List.mem_singleton.mp hnames, hperformed.same]
        exact List.mem_map_of_mem (List.mem_filterMap.mpr ⟨_, hstaged, rfl⟩)
    | other plan hstaged hwrites =>
      obtain ⟨-, ⟨_, _, hcontent, rfl⟩ | ⟨source, point, hcontent, rfl⟩ | ⟨content, rfl⟩ | rfl⟩ :=
        plan.mem_writes write hwrites
      · cases hresolve
        exact .inr ⟨plan, _, _, hstaged, hid, hcontent⟩
      · unfold resolveDocumentCopy at hresolve
        simp only at hresolve
        split at hresolve
        · cases hresolve
        split at hresolve
        · split at hresolve
          · cases hresolve
            exact absurd hchild (h.apart plan source point hstaged hcontent)
          · cases hresolve
        · cases hresolve
      · cases hresolve
      · cases hresolve

theorem live_once (hi : Invariant s) (id id' : Id) (d d' : StoredDocumentState) (hd : s.documents id = some d)
    (hd' : s.documents id' = some d') (haddress : d.record.address = d'.record.address)
    (hlive : d.record.retiredAt = none) (hlive' : d'.record.retiredAt = none) : id = id' := by
  have hcurrent := (hi.current d.record.address id).mpr ⟨d, hd, rfl, hlive⟩
  have hcurrent' := (hi.current d.record.address id').mpr ⟨d', hd', haddress.symm, hlive'⟩
  rw [hcurrent] at hcurrent'
  exact Option.some.inj hcurrent'

theorem source_unnamed (h : tx.Settles s) (hfresh : ∀ copy ∈ tx.copies, s.documents copy.record.id = none)
    (copy : ForkDocumentCopy) (hmem : copy ∈ tx.copies) (hstored : (s.documents copy.source).isSome = true) :
    copy.source ∉ changedDocumentIds (tx.writes s) := by
  intro hnamed
  obtain ⟨write, hwrite, hnames⟩ := (mem_changedDocumentIds _ _).mp hnamed
  cases origin tx s h write hwrite with
  | table htable =>
    rw [table_unnamed write htable] at hnames
    cases hnames
  | copy target ops entry hstaged hentry hwrites =>
    have hperformed := performed s target ops entry hentry
    have hsame : copy.source = target.record.id := by
      rw [← hperformed.same]
      rcases (entry.mem_writes write).mp hwrites with ⟨_, _, _, rfl⟩ | ⟨_, rfl⟩ | ⟨_, rfl⟩ <;>
        exact List.mem_singleton.mp hnames
    rw [hsame, hfresh target (List.mem_filterMap.mpr ⟨_, hstaged, rfl⟩)] at hstored
    cases hstored
  | other plan hstaged hwrites =>
    obtain ⟨hnonempty, hshape⟩ := plan.mem_writes write hwrites
    have hsame : copy.source = plan.record.id := by
      rcases hshape with ⟨_, _, _, rfl⟩ | ⟨_, _, _, rfl⟩ | ⟨_, rfl⟩ | rfl <;> exact List.mem_singleton.mp hnames
    have hpasses := h.passes plan hstaged
    unfold DocumentPlan.passes at hpasses
    rw [hnonempty, Bool.false_or, Bool.and_eq_true, Bool.not_eq_true', decide_eq_false_iff_not] at hpasses
    exact hpasses.1 (hsame ▸ List.mem_map_of_mem hmem)

end Fidelity

theorem fork_fidelity (tx : ForkTx) (s : State) (seq : Seq) (commit : PreparedCommit)
    (hhistory : Commits (fun _ => True) State.empty s) (h : tx.Settles s)
    (hcommit : prepareCommit s (tx.writes s) seq = .ok commit) :
    Fidelity tx s (s.applyPreparedCommit commit) seq := by
  have hi := hhistory.invariant _ _ _ empty_invariant
  have hi' := applyPreparedCommit_invariant s commit hi (prepareCommit_accepted s _ seq commit hcommit).1
  obtain ⟨entry, entrySeq, hentry, hcopies⟩ := prepareForkDocumentCopies_copies s hi.sound _ _ _ _ _ h.copies
  obtain ⟨hid, hvisible, hwritten⟩ := forkEntry_visible s hi.sound _ _ _ _ hentry
  have hcopied : ∀ copy ops, .copy copy ops ∈ tx.staged → CopiedTo s (s.applyPreparedCommit commit) seq copy ops :=
    copiedTo tx s seq commit hi h hcommit hcopies.addresses
  have hfresh : ∀ copy ∈ tx.copies, s.documents copy.record.id = none := by
    intro copy hmem
    obtain ⟨ops, hstaged⟩ := mem_copies tx copy hmem
    exact (hcopied copy ops hstaged).fresh
  have hstored : ∀ copy ∈ tx.copies, (s.documents copy.source).isSome = true := by
    intro copy hmem
    obtain ⟨d, hd, -⟩ := hcopies.record copy hmem
    exact Option.isSome_iff_exists.mpr ⟨d, hd⟩
  refine ⟨⟨entry, entrySeq, hid, hvisible, writtenAt s hhistory _ _ hwritten, hcopies⟩,
    hcopies.once _ _ _ _ _ _, hcopied, child_documents tx s seq commit hi h hcommit, live_once _ hi',
    fun copy hmem => ?_, fun copy hmem copy' hmem' heq => ?_,
    fun id s'' hlater point => materializeDocument_congr _ _ id point (hlater.document _ _ id hi')⟩
  · exact document_unnamed s hi.sound _ seq commit hcommit copy.source
      (source_unnamed tx s h hfresh copy hmem (hstored copy hmem))
  · have hnone := hfresh copy hmem
    rw [heq] at hnone
    have hsome := hstored copy' hmem'
    rw [hnone] at hsome
    cases hsome

def sourceCommit : PreparedCommit where
  seq := 1
  writes := [.conversation ⟨1, none, none⟩, .entry ⟨2, 1, none, .null⟩,
    .documentCreate ⟨3, [1], none, .conversation 1, some .rewindable, some .asOf⟩ 1 (.num 5),
    .documentCreate ⟨4, [2], none, .conversation 1, some .latest, some .current⟩ 1 (.num 5)]
  actions := [
    (3, ⟨some ⟨3, [1], none, .conversation 1, some .rewindable, some .asOf⟩, some (.base 1 (.num 5)), false⟩),
    (4, ⟨some ⟨4, [2], none, .conversation 1, some .latest, some .current⟩, some (.base 1 (.num 5)), false⟩)]

def laterCommit : PreparedCommit := ⟨2, [.documentChange 3 (.base 1 .null)], [(3, ⟨none, some (.base 1 .null), false⟩)]⟩

def sourceState : State := (State.empty.applyPreparedCommit sourceCommit).applyPreparedCommit laterCommit

def documentFork : ForkTx where
  parent := 1
  entryId := 2
  child := 10
  mint := fun n => 11 + n
  tables := [.conversation ⟨10, some ⟨1, 2⟩, none⟩]
  staged := [
    .copy ⟨⟨11, [1], none, .conversation 10, some .rewindable, some .asOf⟩, 3, .at 1⟩ [],
    .copy ⟨⟨12, [2], none, .conversation 10, some .latest, some .current⟩, 4, .current⟩
      [.acquire ⟨1, fun _ value => value⟩, .edit .null]]

def documentForkCommit : PreparedCommit where
  seq := 3
  writes := [.conversation ⟨10, some ⟨1, 2⟩, none⟩,
    .documentCreate ⟨11, [1], none, .conversation 10, some .rewindable, some .asOf⟩ 1 (.num 5),
    .documentCreate ⟨12, [2], none, .conversation 10, some .latest, some .current⟩ 1 .null]
  actions := [
    (11, ⟨some ⟨11, [1], none, .conversation 10, some .rewindable, some .asOf⟩, some (.base 1 (.num 5)), false⟩),
    (12, ⟨some ⟨12, [2], none, .conversation 10, some .latest, some .current⟩, some (.base 1 .null), false⟩)]

theorem sourceState_history : Commits (fun _ => True) State.empty sourceState :=
  .more _ laterCommit.writes 2 laterCommit
    (.more _ sourceCommit.writes 1 sourceCommit .none trivial rfl) trivial rfl

theorem documentFork_settles : documentFork.Settles sourceState where
  copies := rfl
  performed := by
    intro copy ops hmem
    simp only [documentFork, List.mem_cons, List.not_mem_nil, or_false, Staged.copy.injEq] at hmem
    rcases hmem with ⟨rfl, rfl⟩ | ⟨rfl, rfl⟩ <;> rfl
  passes := by simp [documentFork]
  minted := by simp [documentFork]
  apart := by simp [documentFork]
  tables := by simp [documentFork, StorageWrite.isTable]

theorem fork_fidelity_edited :
    Fidelity documentFork sourceState (sourceState.applyPreparedCommit documentForkCommit) 3 :=
  fork_fidelity documentFork sourceState 3 documentForkCommit sourceState_history documentFork_settles rfl

end PiAgent.Durable
