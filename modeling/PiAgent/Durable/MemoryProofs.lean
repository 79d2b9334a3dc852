import PiAgent.Durable.Memory

/-!
# What every write leaves of the memory store
-/

namespace PiAgent.Durable

open Sorted

/-! ## Tables and their indexes -/

structure Tables (s : State) : Prop where
  conversation : ∀ id, s.recordTypes id = some .conversation ↔ ∃ r, s.conversations id = some r
  entry : ∀ id, s.recordTypes id = some .entry ↔ ∃ r, s.entries id = some r
  task : ∀ id, s.recordTypes id = some .task ↔ ∃ r, s.tasks id = some r
  submission : ∀ id, s.recordTypes id = some .submission ↔ ∃ r, s.submissions id = some r
  document : ∀ id, s.recordTypes id = some .document ↔ ∃ d, s.documents id = some d

structure Indexed (s : State) : Prop where
  conversationIds : IsIndex s.conversationIds (fun id => ∃ r, s.conversations id = some r)
  byOwnerConversation : ∀ key, IsIndex (s.conversationIdsByOwnerConversation key)
    (fun id => ∃ r, s.conversations id = some r ∧ r.owner.map Owner.conversationId = some key)
  byOwnerTask : ∀ key, IsIndex (s.conversationIdsByOwnerTask key)
    (fun id => ∃ r, s.conversations id = some r ∧ r.owner.map Owner.taskId = some key)
  entryIds : ∀ key, IsIndex (s.entryIds key) (fun id => ∃ r, s.entries id = some r ∧ r.conversationId = key)
  headEntryIds : ∀ key, IsIndex (s.headEntryIds key)
    (fun id => ∃ r, s.entries id = some r ∧ r.conversationId = key ∧ r.head.isSome = true)
  taskIds : IsIndex s.taskIds (fun id => ∃ r, s.tasks id = some r)
  taskIdsByStatus : ∀ status, IsIndex (s.taskIdsByStatus status)
    (fun id => ∃ r, s.tasks id = some r ∧ r.state.status = status)
  submissionIds : IsIndex s.submissionIds (fun id => ∃ r, s.submissions id = some r)
  submissionIdsByStatus : ∀ status, IsIndex (s.submissionIdsByStatus status)
    (fun id => ∃ r, s.submissions id = some r ∧ r.status = status)
  documentIdsByScope : ∀ scope, IsIndex (s.documentIdsByScope scope)
    (fun id => ∃ d, s.documents id = some d ∧ d.record.scope = scope)
  documentIdsByAddress : ∀ address, IsIndex (s.documentAddresses address).ids
    (fun id => ∃ d, s.documents id = some d ∧ d.record.address = address)

structure Keyed (s : State) : Prop where
  conversation : ∀ id r, s.conversations id = some r → r.id = id
  entry : ∀ id r, s.entries id = some r → r.id = id
  task : ∀ id r, s.tasks id = some r → r.id = id
  submission : ∀ id r, s.submissions id = some r → r.id = id
  document : ∀ id d, s.documents id = some d → d.record.id = id

def Admits (s : State) (write : StorageWrite) : Prop :=
  ∀ id table, write.claim = some (id, table) →
    s.recordTypes id = none ∨ table.rewritable = true ∧ s.recordTypes id = some table

section Update

variable {κ α : Type} [DecidableEq κ]

theorem exists_update (f : κ → Option α) (key : κ) (value : α) (p : α → Prop) (x : κ) :
    (∃ r, Function.update f key (some value) x = some r ∧ p r) ↔
      x = key ∧ p value ∨ x ≠ key ∧ ∃ r, f x = some r ∧ p r := by
  by_cases hx : x = key
  · subst hx
    simp
  · simp [hx]

theorem exists_update' (f : κ → Option α) (key : κ) (value : α) (x : κ) :
    (∃ r, Function.update f key (some value) x = some r) ↔ x = key ∨ x ≠ key ∧ ∃ r, f x = some r := by
  simpa using exists_update f key value (fun _ => True) x

end Update

theorem index_of_unselected {α : Type} (ids : List Id) (f : Id → Option α) (p : α → Prop) (id : Id) (value : α)
    (hfresh : f id = none) (hp : ¬ p value) (h : IsIndex ids (fun x => ∃ r, f x = some r ∧ p r)) :
    IsIndex ids (fun x => ∃ r, Function.update f id (some value) x = some r ∧ p r) := by
  refine h.congr (fun x => ?_)
  rw [exists_update]
  constructor
  · intro hx
    refine .inr ⟨?_, hx⟩
    rintro rfl
    simp [hfresh] at hx
  · rintro (⟨-, hv⟩ | ⟨-, hx⟩)
    · exact absurd hv hp
    · exact hx

theorem insertMapId_index {κ α : Type} [DecidableEq κ] (index : κ → List Id) (f : Id → Option α) (p : κ → α → Prop)
    (id : Id) (value : α) (key : κ) (hfresh : f id = none) (hp : ∀ k, p k value ↔ k = key)
    (h : ∀ k, IsIndex (index k) (fun x => ∃ r, f x = some r ∧ p k r)) (k : κ) :
    IsIndex (insertMapId index key id k) (fun x => ∃ r, Function.update f id (some value) x = some r ∧ p k r) := by
  unfold insertMapId
  by_cases hk : k = key
  · subst hk
    rw [Function.update_self]
    refine (h k).insert id (by simp [hfresh]) (fun x => ?_)
    rw [exists_update]
    constructor
    · rintro (⟨hx, -⟩ | ⟨-, hx⟩)
      · exact .inl hx
      · exact .inr hx
    · rintro (rfl | hx)
      · exact .inl ⟨rfl, (hp k).mpr rfl⟩
      · refine .inr ⟨?_, hx⟩
        rintro rfl
        simp [hfresh] at hx
  · rw [Function.update_of_ne hk]
    exact index_of_unselected (index k) f (p k) id value hfresh (fun hv => hk ((hp k).mp hv)) (h k)

theorem insertOwner_index {α : Type} (index : Id → List Id) (f : Id → Option α) (owner : α → Option Id)
    (id : Id) (value : α) (hfresh : f id = none)
    (h : ∀ k, IsIndex (index k) (fun x => ∃ r, f x = some r ∧ owner r = some k)) (k : Id) :
    IsIndex (insertOwner index (owner value) id k)
      (fun x => ∃ r, Function.update f id (some value) x = some r ∧ owner r = some k) := by
  unfold insertOwner
  cases hkey : owner value with
  | none => exact index_of_unselected _ f (fun r => owner r = some k) id value hfresh (by simp [hkey]) (h k)
  | some key =>
    exact insertMapId_index index f (fun k r => owner r = some k) id value key hfresh
      (fun k => by rw [hkey, Option.some.injEq, eq_comm]) h k

section

variable {α : Type} (ids : List Id) (f : Id → Option α) (id : Id) (value : α)

theorem insertSorted_table (hfresh : f id = none) (h : IsIndex ids (fun x => ∃ r, f x = some r)) :
    IsIndex (insertSorted ids id) (fun x => ∃ r, Function.update f id (some value) x = some r) := by
  refine h.insert id (by simp [hfresh]) (fun x => ?_)
  rw [exists_update']
  constructor
  · rintro (hx | ⟨-, hx⟩)
    · exact .inl hx
    · exact .inr hx
  · rintro (hx | hx)
    · exact .inl hx
    · by_cases he : x = id
      · exact .inl he
      · exact .inr ⟨he, hx⟩

theorem rewrite_table (h : IsIndex ids (fun x => ∃ r, f x = some r)) :
    IsIndex (if (f id).isNone then insertSorted ids id else ids)
      (fun x => ∃ r, Function.update f id (some value) x = some r) := by
  cases hf : f id with
  | none =>
    simp only [Option.isNone_none, if_true]
    exact insertSorted_table ids f id value hf h
  | some old =>
    simp only [Option.isNone_some, Bool.false_eq_true, if_false]
    refine h.congr (fun x => ?_)
    rw [exists_update']
    constructor
    · intro hx
      by_cases he : x = id
      · exact .inl he
      · exact .inr ⟨he, hx⟩
    · rintro (rfl | ⟨-, hx⟩)
      · exact ⟨old, hf⟩
      · exact hx

end

theorem moveStatus_index {κ α : Type} [DecidableEq κ] (index : κ → List Id) (f : Id → Option α) (status : α → κ)
    (id : Id) (value : α) (h : ∀ k, IsIndex (index k) (fun x => ∃ r, f x = some r ∧ status r = k)) (k : κ) :
    IsIndex (moveStatus index ((f id).map status) (status value) id k)
      (fun x => ∃ r, Function.update f id (some value) x = some r ∧ status r = k) := by
  cases hf : f id with
  | none =>
    exact insertMapId_index index f (fun k r => status r = k) id value (status value) hf
      (fun k => eq_comm) h k
  | some old =>
    simp only [Option.map_some, moveStatus]
    have hold : ∀ x, (∃ r, f x = some r ∧ status r = k) ↔
        x = id ∧ status old = k ∨ x ≠ id ∧ ∃ r, f x = some r ∧ status r = k := by
      intro x
      by_cases hx : x = id
      · subst hx
        simp [hf]
      · simp [hx]
    split
    · rename_i heq
      refine (h k).congr (fun x => ?_)
      rw [exists_update, hold, heq]
      by_cases hx : x = id <;> simp [hx]
    · rename_i hne
      unfold insertMapId
      by_cases hk : k = status value
      · subst hk
        rw [Function.update_self, Function.update_of_ne (Ne.symm hne)]
        refine (h _).insert id ?_ (fun x => ?_)
        · rintro ⟨r, hr, hs⟩
          rw [hf] at hr
          cases hr
          exact hne hs
        · rw [exists_update, hold]
          simp [hne]
      · rw [Function.update_of_ne hk]
        by_cases hko : k = status old
        · subst hko
          rw [Function.update_self]
          refine (h _).remove id (fun x => ?_)
          rw [exists_update]
          simp [Ne.symm hk]
        · rw [Function.update_of_ne hko]
          refine (h k).congr (fun x => ?_)
          rw [exists_update, hold]
          simp [Ne.symm hk, Ne.symm hko]

/-! ## The writes of the four tables -/

theorem tables_other (types : Id → Option TableName) (p : Id → Prop) (table other : TableName) (id : Id)
    (hne : other ≠ table) (hid : types id = none ∨ types id = some table)
    (h : ∀ x, types x = some other ↔ p x) (x : Id) :
    Function.update types id (some table) x = some other ↔ p x := by
  by_cases hx : x = id
  · subst hx
    have hnot : ¬ p x := by
      rw [← h x]
      rcases hid with hid | hid
      · simp [hid]
      · rw [hid]
        simpa using hne.symm
    simp [hnot, hne.symm]
  · rw [Function.update_of_ne hx]
    exact h x

theorem tables_self {α : Type} (types : Id → Option TableName) (f : Id → Option α) (table : TableName) (id : Id)
    (value : α) (h : ∀ x, types x = some table ↔ ∃ r, f x = some r) (x : Id) :
    Function.update types id (some table) x = some table ↔
      ∃ r, Function.update f id (some value) x = some r := by
  by_cases hx : x = id
  · subst hx
    simp
  · rw [Function.update_of_ne hx, Function.update_of_ne hx]
    exact h x

theorem keyed_update {α : Type} (f : Id → Option α) (idOf : α → Id) (id : Id) (value : α) (hid : idOf value = id)
    (h : ∀ x r, f x = some r → idOf r = x) (x : Id) (r : α) (hr : Function.update f id (some value) x = some r) :
    idOf r = x := by
  by_cases hx : x = id
  · subst hx
    rw [Function.update_self] at hr
    cases hr
    exact hid
  · rw [Function.update_of_ne hx] at hr
    exact h x r hr

structure Sound (s : State) : Prop where
  tables : Tables s
  indexed : Indexed s
  keyed : Keyed s

theorem absent {α : Type} (types : Id → Option TableName) (f : Id → Option α) (table : TableName) (id : Id)
    (hne : types id ≠ some table) (h : ∀ x, types x = some table ↔ ∃ r, f x = some r) : f id = none := by
  cases hf : f id with
  | none => rfl
  | some r => exact absurd ((h id).mpr ⟨r, hf⟩) hne

section

variable (s : State) (h : Sound s)
include h

theorem applyConversation_sound (value : ConversationRecord) (hadmits : Admits s (.conversation value)) :
    Sound (s.applyConversation value) := by
  have hnone : s.recordTypes value.id = none := by
    rcases hadmits value.id .conversation rfl with hn | ⟨hr, -⟩
    · exact hn
    · cases hr
  have hfresh := absent s.recordTypes s.conversations .conversation value.id (by simp [hnone]) h.tables.conversation
  refine ⟨⟨?_, ?_, ?_, ?_, ?_⟩, ?_, ?_⟩
  · exact tables_self _ _ _ _ _ h.tables.conversation
  · exact tables_other _ _ _ _ _ (by decide) (.inl hnone) h.tables.entry
  · exact tables_other _ _ _ _ _ (by decide) (.inl hnone) h.tables.task
  · exact tables_other _ _ _ _ _ (by decide) (.inl hnone) h.tables.submission
  · exact tables_other _ _ _ _ _ (by decide) (.inl hnone) h.tables.document
  · exact { h.indexed with
      conversationIds := insertSorted_table _ _ _ _ hfresh h.indexed.conversationIds
      byOwnerConversation := insertOwner_index _ _ (fun r : ConversationRecord => r.owner.map Owner.conversationId) _
        value hfresh h.indexed.byOwnerConversation
      byOwnerTask := insertOwner_index _ _ (fun r : ConversationRecord => r.owner.map Owner.taskId) _ value hfresh
        h.indexed.byOwnerTask }
  · exact { h.keyed with conversation := keyed_update _ ConversationRecord.id _ _ rfl h.keyed.conversation }

theorem applyEntry_sound (seq : Seq) (value : EntryRecord) (hadmits : Admits s (.entry value)) :
    Sound (s.applyEntry seq value) := by
  have hnone : s.recordTypes value.id = none := by
    rcases hadmits value.id .entry rfl with hn | ⟨hr, -⟩
    · exact hn
    · cases hr
  have hfresh := absent s.recordTypes s.entries .entry value.id (by simp [hnone]) h.tables.entry
  refine ⟨⟨?_, ?_, ?_, ?_, ?_⟩, ?_, ?_⟩
  · exact tables_other _ _ _ _ _ (by decide) (.inl hnone) h.tables.conversation
  · exact tables_self _ _ _ _ _ h.tables.entry
  · exact tables_other _ _ _ _ _ (by decide) (.inl hnone) h.tables.task
  · exact tables_other _ _ _ _ _ (by decide) (.inl hnone) h.tables.submission
  · exact tables_other _ _ _ _ _ (by decide) (.inl hnone) h.tables.document
  · refine { h.indexed with
      entryIds := insertMapId_index _ _ (fun k r => r.conversationId = k) _ _ _ hfresh (fun k => eq_comm)
        h.indexed.entryIds
      headEntryIds := ?_ }
    intro key
    simp only [State.applyEntry]
    split
    · rename_i hhead
      exact insertMapId_index _ _ (fun k r => r.conversationId = k ∧ r.head.isSome = true) _ _ _ hfresh
        (fun k => ⟨fun hk => hk.1.symm, fun hk => ⟨hk.symm, hhead⟩⟩) h.indexed.headEntryIds key
    · rename_i hhead
      exact index_of_unselected _ _ (fun r => r.conversationId = key ∧ r.head.isSome = true) _ _ hfresh
        (fun hp => hhead hp.2) (h.indexed.headEntryIds key)
  · exact { h.keyed with entry := keyed_update _ EntryRecord.id _ _ rfl h.keyed.entry }

theorem applyTask_sound (value : TaskRecord) (hadmits : Admits s (.task value)) :
    Sound (s.applyTask value) := by
  have hid : s.recordTypes value.id = none ∨ s.recordTypes value.id = some .task := by
    rcases hadmits value.id .task rfl with hn | ⟨-, hr⟩
    · exact .inl hn
    · exact .inr hr
  refine ⟨⟨?_, ?_, ?_, ?_, ?_⟩, ?_, ?_⟩
  · exact tables_other _ _ _ _ _ (by decide) hid h.tables.conversation
  · exact tables_other _ _ _ _ _ (by decide) hid h.tables.entry
  · exact tables_self _ _ _ _ _ h.tables.task
  · exact tables_other _ _ _ _ _ (by decide) hid h.tables.submission
  · exact tables_other _ _ _ _ _ (by decide) hid h.tables.document
  · exact { h.indexed with
      taskIds := rewrite_table _ _ _ _ h.indexed.taskIds
      taskIdsByStatus := moveStatus_index _ _ (fun r : TaskRecord => r.state.status) _ value h.indexed.taskIdsByStatus }
  · exact { h.keyed with task := keyed_update _ TaskRecord.id _ _ rfl h.keyed.task }

theorem applySubmission_sound (value : SubmissionRecord) (hadmits : Admits s (.submission value)) :
    Sound (s.applySubmission value) := by
  have hid : s.recordTypes value.id = none ∨ s.recordTypes value.id = some .submission := by
    rcases hadmits value.id .submission rfl with hn | ⟨-, hr⟩
    · exact .inl hn
    · exact .inr hr
  refine ⟨⟨?_, ?_, ?_, ?_, ?_⟩, ?_, ?_⟩
  · exact tables_other _ _ _ _ _ (by decide) hid h.tables.conversation
  · exact tables_other _ _ _ _ _ (by decide) hid h.tables.entry
  · exact tables_other _ _ _ _ _ (by decide) hid h.tables.task
  · exact tables_self _ _ _ _ _ h.tables.submission
  · exact tables_other _ _ _ _ _ (by decide) hid h.tables.document
  · exact { h.indexed with
      submissionIds := rewrite_table _ _ _ _ h.indexed.submissionIds
      submissionIdsByStatus := moveStatus_index _ _ SubmissionRecord.status _ _ h.indexed.submissionIdsByStatus }
  · exact { h.keyed with submission := keyed_update _ SubmissionRecord.id _ _ rfl h.keyed.submission }

theorem applyWrite_sound (seq : Seq) (write : StorageWrite) (hadmits : Admits s write) :
    Sound (s.applyWrite seq write) := by
  cases write with
  | conversation value => exact applyConversation_sound s h value hadmits
  | entry value => exact applyEntry_sound s h seq value hadmits
  | task value => exact applyTask_sound s h value hadmits
  | submission value => exact applySubmission_sound s h value hadmits
  | documentCreate record version value => exact h
  | documentCopy record source point => exact h
  | documentChange id content => exact h
  | documentRetire id => exact h

end

theorem applyWrite_documents (s : State) (seq : Seq) (write : StorageWrite) :
    (s.applyWrite seq write).documents = s.documents ∧
    (s.applyWrite seq write).documentAddresses = s.documentAddresses ∧
    (s.applyWrite seq write).nextSeq = s.nextSeq := by
  cases write <;> exact ⟨rfl, rfl, rfl⟩

theorem applyWrite_recordTypes (s : State) (seq : Seq) (write : StorageWrite) :
    (s.applyWrite seq write).recordTypes =
      match write.claim with
      | some (_, .document) => s.recordTypes
      | some (id, table) => Function.update s.recordTypes id (some table)
      | none => s.recordTypes := by
  cases write <;> rfl

/-! ## The table writes of a checked batch -/

structure Claims (s : State) (claimed : Id → Option TableName) (t : State) : Prop where
  unclaimed : ∀ id, claimed id = none → t.recordTypes id = s.recordTypes id
  document : ∀ id, claimed id = some .document → t.recordTypes id = none
  table : ∀ id table, claimed id = some table → table ≠ .document → t.recordTypes id = some table

theorem checkGlobalId_ok (s : State) (claimed claimed' : Id → Option TableName) (id : Id) (table : TableName)
    (h : checkGlobalId s claimed id table = .ok claimed') :
    claimed' = Function.update claimed id (some table) ∧
    (s.recordTypes id = none ∧ claimed id = none ∨ table.rewritable = true ∧
      (s.recordTypes id = none ∨ s.recordTypes id = some table) ∧
      (claimed id = none ∨ claimed id = some table)) := by
  unfold checkGlobalId at h
  dsimp only at h
  split at h
  · split at h
    · cases h
    · cases h
    · rename_i hs hc
      cases h
      exact ⟨rfl, .inl ⟨hs, hc⟩⟩
  · rename_i hr
    have key : ∀ o : Option TableName, o.filter (· ≠ table) = none → o = none ∨ o = some table := by
      intro o ho
      cases o with
      | none => exact .inl rfl
      | some x =>
        right
        by_contra hx
        have : x ≠ table := fun e => hx (by rw [e])
        simp [Option.filter, this] at ho
    split at h
    · cases h
    · cases h
    · rename_i hs hc
      cases h
      exact ⟨rfl, .inr ⟨by simpa using hr, key _ hs, key _ hc⟩⟩

theorem claims_step (s t : State) (claimed : Id → Option TableName) (seq : Seq) (write : StorageWrite) (id : Id)
    (table : TableName) (hclaim : write.claim = some (id, table)) (h : Claims s claimed t)
    (hc : s.recordTypes id = none ∧ claimed id = none ∨ table.rewritable = true ∧
      (s.recordTypes id = none ∨ s.recordTypes id = some table) ∧ (claimed id = none ∨ claimed id = some table)) :
    Admits t write ∧ Claims s (Function.update claimed id (some table)) (t.applyWrite seq write) := by
  have hdoc : table = .document → t.recordTypes id = none := by
    rintro rfl
    rcases hc with ⟨hs, hn⟩ | ⟨hr, -⟩
    · rw [h.unclaimed id hn, hs]
    · cases hr
  constructor
  · intro id' table' hclaim'
    rw [hclaim] at hclaim'
    cases hclaim'
    rcases hc with ⟨hs, hn⟩ | ⟨hr, hs, hn⟩
    · left
      rw [h.unclaimed id hn, hs]
    · rcases hn with hn | hn
      · rw [h.unclaimed id hn]
        rcases hs with hs | hs
        · exact .inl hs
        · exact .inr ⟨hr, hs⟩
      · by_cases hd : table = .document
        · exact .inl (hdoc hd)
        · exact .inr ⟨hr, h.table id table hn hd⟩
  · have htypes := applyWrite_recordTypes t seq write
    rw [hclaim] at htypes
    have hother : ∀ x, x ≠ id → (t.applyWrite seq write).recordTypes x = t.recordTypes x := by
      intro x hx
      rw [htypes]
      cases table <;> simp [hx]
    refine ⟨fun x hx => ?_, fun x hx => ?_, fun x tb hx hne => ?_⟩
    · by_cases hxi : x = id
      · subst hxi
        simp at hx
      · rw [Function.update_of_ne hxi] at hx
        rw [hother x hxi]
        exact h.unclaimed x hx
    · by_cases hxi : x = id
      · subst hxi
        rw [Function.update_self] at hx
        cases hx
        rw [htypes]
        exact hdoc rfl
      · rw [Function.update_of_ne hxi] at hx
        rw [hother x hxi]
        exact h.document x hx
    · by_cases hxi : x = id
      · subst hxi
        rw [Function.update_self] at hx
        cases hx
        rw [htypes]
        cases table with
        | document => exact absurd rfl hne
        | conversation => simp
        | entry => simp
        | task => simp
        | submission => simp
      · rw [Function.update_of_ne hxi] at hx
        rw [hother x hxi]
        exact h.table x tb hx hne

section

variable (s : State) (seq : Seq)

/-- One write of a checked batch: it is admitted, and the rest is checked against what it leaves. -/
theorem checkGlobalIdsFrom_cons (write : StorageWrite) (writes : List StorageWrite) (t : State)
    (claimed : Id → Option TableName) (hcheck : checkGlobalIdsFrom s claimed (write :: writes) = .ok ())
    (hclaims : Claims s claimed t) (hsound : Sound t) :
    Admits t write ∧ Sound (t.applyWrite seq write) ∧ ∃ claimed', checkGlobalIdsFrom s claimed' writes = .ok () ∧
      Claims s claimed' (t.applyWrite seq write) ∧ (∀ id, claimed id = some .document → claimed' id = some .document) ∧
      ∀ record version value, write = .documentCreate record version value → claimed' record.id = some .document := by
  rw [checkGlobalIdsFrom] at hcheck
  split at hcheck
  · rename_i hnone
    have hsame : t.applyWrite seq write = t := by
      cases write <;> first | rfl | cases hnone
    have hadmits : Admits t write := by
      intro id table hclaim
      rw [hnone] at hclaim
      cases hclaim
    rw [hsame]
    refine ⟨hadmits, hsound, claimed, hcheck, hclaims, fun _ h => h, ?_⟩
    rintro record version value rfl
    cases hnone
  · rename_i id table hclaim
    split at hcheck
    · cases hcheck
    · rename_i claimed₁ hok
      obtain ⟨rfl, hc⟩ := checkGlobalId_ok s claimed claimed₁ id table hok
      obtain ⟨hadmits, hclaims₁⟩ := claims_step s t claimed seq write id table hclaim hclaims hc
      refine ⟨hadmits, applyWrite_sound t hsound seq write hadmits, _, hcheck, hclaims₁, fun x hx => ?_, ?_⟩
      · by_cases hxi : x = id
        · subst hxi
          rw [Function.update_self]
          -- a document's ID is claimed once
          rcases hc with ⟨-, hn⟩ | ⟨-, -, hn | hn⟩
          · rw [hn] at hx
            cases hx
          · rw [hn] at hx
            cases hx
          · rw [← hn]
            exact hx
        · rw [Function.update_of_ne hxi]
          exact hx
      · rintro record version value rfl
        cases hclaim
        exact Function.update_self ..

theorem applyWrites_sound (writes : List StorageWrite) (t : State) (claimed : Id → Option TableName)
    (hcheck : checkGlobalIdsFrom s claimed writes = .ok ()) (hclaims : Claims s claimed t) (hsound : Sound t) :
    Sound (writes.foldl (fun s write => s.applyWrite seq write) t) ∧
    ∃ claimed', Claims s claimed' (writes.foldl (fun s write => s.applyWrite seq write) t) ∧
      (∀ id, claimed id = some .document → claimed' id = some .document) ∧
      ∀ record version value, .documentCreate record version value ∈ writes →
        claimed' record.id = some .document := by
  induction writes generalizing t claimed with
  | nil => exact ⟨hsound, claimed, hclaims, fun _ h => h, by simp⟩
  | cons write writes ih =>
    obtain ⟨-, hsound₁, claimed₁, hcheck₁, hclaims₁, hkept, hnew⟩ :=
      checkGlobalIdsFrom_cons s seq write writes t claimed hcheck hclaims hsound
    obtain ⟨h₁, claimed', h₂, h₃, h₄⟩ := ih _ _ hcheck₁ hclaims₁ hsound₁
    refine ⟨h₁, claimed', h₂, fun x hx => h₃ x (hkept x hx), fun record version value hm => ?_⟩
    rcases List.mem_cons.mp hm with rfl | hm
    · exact h₃ _ (hnew record version value rfl)
    · exact h₄ record version value hm

theorem applyWrites_rule (P : State → Prop) (writes : List StorageWrite) (t : State)
    (claimed : Id → Option TableName)
    (hstep : ∀ t write, write ∈ writes → Sound t → Admits t write → P t → P (t.applyWrite seq write))
    (hcheck : checkGlobalIdsFrom s claimed writes = .ok ()) (hclaims : Claims s claimed t) (hsound : Sound t)
    (h : P t) : P (writes.foldl (fun s write => s.applyWrite seq write) t) := by
  induction writes generalizing t claimed with
  | nil => exact h
  | cons write writes ih =>
    obtain ⟨hadmits, hsound₁, claimed₁, hcheck₁, hclaims₁, -⟩ :=
      checkGlobalIdsFrom_cons s seq write writes t claimed hcheck hclaims hsound
    exact ih _ _ (fun t write hw => hstep t write (List.mem_cons_of_mem _ hw)) hcheck₁ hclaims₁ hsound₁
      (hstep t write List.mem_cons_self hsound hadmits h)

theorem applyWrites_each (Q : StorageWrite → State → Prop) (writes : List StorageWrite) (t : State)
    (claimed : Id → Option TableName) (hset : ∀ t write, Admits t write → Q write (t.applyWrite seq write))
    (hkeep : ∀ t write other, Sound t → Admits t other → Q write t → Q write (t.applyWrite seq other))
    (hcheck : checkGlobalIdsFrom s claimed writes = .ok ()) (hclaims : Claims s claimed t) (hsound : Sound t) :
    ∀ write ∈ writes, Q write (writes.foldl (fun s write => s.applyWrite seq write) t) := by
  induction writes generalizing t claimed with
  | nil => simp
  | cons write writes ih =>
    obtain ⟨hadmits, hsound₁, claimed₁, hcheck₁, hclaims₁, -⟩ :=
      checkGlobalIdsFrom_cons s seq write writes t claimed hcheck hclaims hsound
    rw [List.foldl_cons, List.forall_mem_cons]
    exact ⟨applyWrites_rule s seq (Q write) writes _ _ (fun t other _ hs ha hq => hkeep t write other hs ha hq) hcheck₁
      hclaims₁ hsound₁ (hset t write hadmits), ih _ _ hcheck₁ hclaims₁ hsound₁⟩

end

end PiAgent.Durable
