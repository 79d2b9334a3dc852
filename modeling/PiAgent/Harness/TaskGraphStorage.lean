import Mathlib.Data.Int.Lemmas
import PiAgent.Durable.MemoryInvariant
import PiAgent.Harness.TaskGraph

/-! # What a task graph shows -/

namespace PiAgent.Harness.TaskGraph

open Option Function List Assoc Durable Delta Sorted

/-! ## Keys -/

theorem keyOf_injective : Injective keyOf := by
  have hminus : ∀ n : ℕ, (decimal n).head? ≠ some 45 := by
    intro n h
    have hdigit := isDigit_of_mem_decimal n 45 (mem_of_head? h)
    exact absurd hdigit (by decide)
  intro a b h
  unfold keyOf at h
  by_cases ha : a < 0 <;> by_cases hb : b < 0
  · rw [if_pos ha, if_pos hb] at h
    exact (Int.natAbs_inj_of_nonpos_of_nonpos (le_of_lt ha) (le_of_lt hb)).mp
      (decimal_injective (append_cancel_left h))
  · rw [if_pos ha, if_neg hb, nil_append] at h
    exact absurd (by rw [← h]; rfl) (hminus b.natAbs)
  · rw [if_neg ha, if_pos hb, nil_append] at h
    exact absurd (by rw [h]; rfl) (hminus a.natAbs)
  · rw [if_neg ha, if_neg hb] at h
    exact (Int.natAbs_inj_of_nonneg_of_nonneg (not_lt.mp ha) (not_lt.mp hb)).mp (decimal_injective h)

theorem keyOf_safe (id : Id) : keyOf id ∉ reservedSegments := by
  have hunits : ∀ u ∈ keyOf id, u = 45 ∨ isDigit u = true := by
    intro u hu
    unfold keyOf at hu
    rcases mem_append.mp hu with hu | hu
    · split at hu
      · exact Or.inl (mem_singleton.mp hu)
      · cases hu
    · exact Or.inr (isDigit_of_mem_decimal _ u hu)
  have hreserved : ∀ name ∈ reservedSegments, ∃ u ∈ name, u ≠ 45 ∧ isDigit u = false := by decide
  intro hmem
  obtain ⟨u, hu, hne, hdigit⟩ := hreserved _ hmem
  rcases hunits u hu with rfl | hdigit'
  · exact hne rfl
  · rw [hdigit] at hdigit'
    cases hdigit'

/-! ## Folds -/

section Folds

variable {α β κ : Type} [DecidableEq κ]

variable (l : List α)

theorem get?_fold_other (key : α → κ) (f : α → β) (m : List (κ × β)) (k : κ) (h : ∀ a ∈ l, key a ≠ k) :
    get? (l.foldl (fun m a => set m (key a) (f a)) m) k = get? m k := by
  induction l generalizing m with
  | nil => rfl
  | cons a l ih =>
    rw [foldl_cons, ih _ (fun b hb => h b (mem_cons_of_mem _ hb)), get?_set_ne _ _ _ _ (h a mem_cons_self)]

theorem get?_fold_some (key : α → κ) (f : α → β) (m : List (κ × β)) (a : α) (hmem : a ∈ l)
    (h : ∀ b ∈ l, key b = key a → b = a) :
    get? (l.foldl (fun m a => set m (key a) (f a)) m) (key a) = some (f a) := by
  induction l generalizing m with
  | nil => cases hmem
  | cons b l ih =>
    rw [foldl_cons]
    by_cases hlater : a ∈ l
    · exact ih _ hlater (fun c hc => h c (mem_cons_of_mem _ hc))
    · obtain rfl : a = b := by
        rcases mem_cons.mp hmem with heq | hin
        · exact heq
        · exact absurd hin hlater
      rw [get?_fold_other l key f _ (key a), get?_set_self]
      intro c hc heq
      exact hlater (h c (mem_cons_of_mem _ hc) heq ▸ hc)

def writtenAt (idOf : α → κ) (l : List α) (id : κ) : Option α := l.find? (fun a => idOf a = id)

variable (idOf : α → κ)

theorem writtenAt_eq_some (l : List α) (hn : (l.map idOf).Nodup) (id : κ) (a : α) :
    writtenAt idOf l id = some a ↔ a ∈ l ∧ idOf a = id := by
  induction l with
  | nil => simp [writtenAt]
  | cons b l ih =>
    rw [map_cons, nodup_cons] at hn
    unfold writtenAt at ih ⊢
    by_cases hb : idOf b = id
    · rw [find?_cons_of_pos (by simpa using hb), Option.some.injEq, mem_cons]
      constructor
      · rintro rfl
        exact ⟨Or.inl rfl, hb⟩
      · rintro ⟨rfl | hin, ha⟩
        · rfl
        · exact absurd (mem_map.mpr ⟨a, hin, ha.trans hb.symm⟩) hn.1
    · rw [find?_cons_of_neg (by simpa using hb), ih hn.2, mem_cons]
      constructor
      · rintro ⟨hin, ha⟩
        exact ⟨Or.inr hin, ha⟩
      · rintro ⟨rfl | hin, ha⟩
        · exact absurd ha hb
        · exact ⟨hin, ha⟩

theorem writtenAt_eq_none (l : List α) (id : κ) : writtenAt idOf l id = none ↔ ∀ a ∈ l, idOf a ≠ id := by
  unfold writtenAt
  simp

theorem writtenAt_perm (l l' : List α) (hperm : l.Perm l') (hn : (l.map idOf).Nodup) (id : κ) :
    writtenAt idOf l id = writtenAt idOf l' id := by
  have hn' : (l'.map idOf).Nodup := (hperm.map idOf).nodup_iff.mp hn
  cases h : writtenAt idOf l' id with
  | none =>
    rw [writtenAt_eq_none] at h ⊢
    exact fun a ha => h a (hperm.mem_iff.mp ha)
  | some a =>
    rw [writtenAt_eq_some idOf l' hn'] at h
    rw [writtenAt_eq_some idOf l hn]
    exact ⟨hperm.mem_iff.mpr h.1, h.2⟩

theorem fold_update (l : List α) (hn : (l.map idOf).Nodup) (table : κ → Option α) (id : κ) :
    l.foldl (fun table a => update table (idOf a) (some a)) table id = (writtenAt idOf l id).or (table id) := by
  induction l generalizing table with
  | nil => rfl
  | cons a l ih =>
    rw [map_cons, nodup_cons] at hn
    rw [foldl_cons, ih hn.2]
    by_cases ha : idOf a = id
    · have hnone : writtenAt idOf l id = none :=
        (writtenAt_eq_none idOf l id).mpr (fun b hb heq => hn.1 (mem_map.mpr ⟨b, hb, heq.trans ha.symm⟩))
      have hsome : writtenAt idOf (a :: l) id = some a := find?_cons_of_pos (by simpa using ha)
      rw [hnone, hsome, ha, update_self]
      rfl
    · have hsame : writtenAt idOf (a :: l) id = writtenAt idOf l id := find?_cons_of_neg (by simpa using ha)
      rw [hsame, update_of_ne (Ne.symm ha)]

end Folds

/-! ## What is shown -/

def shown (s : State) (id : Id) : Option TaskGraphNode :=
  (s.tasks id).bind fun record =>
    if isTerminal record then none else some (nodeOf record (s.conversationIdsByOwnerTask id))

structure Shows (s : State) (graph : Graph) : Prop where
  node : ∀ id, get? graph (keyOf id) = shown s id
  key : ∀ key node, get? graph key = some node → ∃ id, key = keyOf id

def SameGraph (graph graph' : Graph) : Prop := ∀ key, get? graph key = get? graph' key

variable (s : State)

theorem shows_same (graph graph' : Graph) (h : Shows s graph) (h' : Shows s graph') : SameGraph graph graph' := by
  have hsome : ∀ (graph graph' : Graph), Shows s graph → Shows s graph' → ∀ key node,
      get? graph key = some node → get? graph' key = some node := by
    intro graph graph' h h' key node hget
    obtain ⟨id, rfl⟩ := h.key key node hget
    rw [h'.node, ← h.node, hget]
  intro key
  cases hget : get? graph key with
  | some node => rw [hsome graph graph' h h' key node hget]
  | none =>
    cases hget' : get? graph' key with
    | none => rfl
    | some node =>
      rw [hsome graph' graph h' h key node hget'] at hget
      cases hget

theorem scanAll_index (ids : List Id) (p : Id → Prop) (h : IsIndex ids p) : scanAll ids = ids :=
  scanPages_all ids h.ascending SCAN_PAGE_SIZE (by decide)

theorem sortIds_sorted (ids : List Id) (h : ids.Pairwise (· < ·)) : sortIds ids = ids :=
  mergeSort_of_pairwise (h.imp (fun hlt => by simpa using le_of_lt hlt))

theorem sortIds_eq (ids sorted : List Id) (hsorted : sorted.Pairwise (· < ·)) (hn : ids.Nodup)
    (h : ∀ id, id ∈ ids ↔ id ∈ sorted) : sortIds ids = sorted := by
  have hperm : (sortIds ids).Perm ids := mergeSort_perm _ _
  have hle : (sortIds ids).Pairwise (fun a b => decide (a ≤ b) = true) := by
    refine pairwise_mergeSort (fun a b c hab hbc => ?_) (fun a b => ?_) ids
    · exact decide_eq_true (le_trans (of_decide_eq_true hab) (of_decide_eq_true hbc))
    · rw [Bool.or_eq_true, decide_eq_true_eq, decide_eq_true_eq]
      exact le_total a b
  have hlt : (sortIds ids).Pairwise (· < ·) := by
    have hne : (sortIds ids).Nodup := hperm.nodup_iff.mpr hn
    refine (hle.and hne).imp ?_
    rintro a b ⟨hab, hne'⟩
    exact lt_of_le_of_ne (of_decide_eq_true hab) hne'
  exact eq_of_mem_iff _ _ hlt hsorted (fun id => (hperm.mem_iff).trans (h id))

theorem ownedIds_eq (hs : Sound s) (taskId : Id) : ownedIds s taskId = s.conversationIdsByOwnerTask taskId := by
  have hindex := hs.indexed.byOwnerTask taskId
  have hmap : ∀ ids : List Id, (∀ id ∈ ids, ∃ r, s.conversations id = some r) →
      (ids.filterMap s.conversations).map ConversationRecord.id = ids := by
    intro ids hall
    induction ids with
    | nil => rfl
    | cons id ids ih =>
      obtain ⟨r, hr⟩ := hall id mem_cons_self
      rw [filterMap_cons_some hr, map_cons, hs.keyed.conversation id r hr,
        ih (fun other hother => hall other (mem_cons_of_mem _ hother))]
  have hall : ∀ id ∈ s.conversationIdsByOwnerTask taskId, ∃ r, s.conversations id = some r := by
    intro id hid
    obtain ⟨r, hr, -⟩ := (hindex.exact id).mp hid
    exact ⟨r, hr⟩
  unfold ownedIds
  rw [scanAll_index _ _ hindex, hmap _ hall, sortIds_sorted _ hindex.ascending]

theorem mem_liveRecords (hs : Sound s) (record : TaskRecord) :
    record ∈ liveRecords s ↔ s.tasks record.id = some record ∧ isTerminal record = false := by
  have hperm := mergeSort_perm
    (LIVE_STATUSES.flatMap (fun status => (scanAll (s.taskIdsByStatus status)).filterMap s.tasks))
    (fun a b => decide (a.id ≤ b.id))
  unfold liveRecords
  rw [hperm.mem_iff]
  simp only [mem_flatMap, mem_filterMap]
  constructor
  · rintro ⟨status, hstatus, id, hid, hr⟩
    rw [scanAll_index _ _ (hs.indexed.taskIdsByStatus status), (hs.indexed.taskIdsByStatus status).exact] at hid
    obtain ⟨r, hr', hrs⟩ := hid
    rw [hr] at hr'
    obtain rfl := some.inj hr'
    obtain rfl := hs.keyed.task id record hr
    refine ⟨hr, ?_⟩
    unfold isTerminal
    rw [hrs, decide_eq_false_iff_not]
    rintro rfl
    exact absurd hstatus (by decide)
  · rintro ⟨hr, hlive⟩
    unfold isTerminal at hlive
    rw [decide_eq_false_iff_not] at hlive
    refine ⟨record.state.status, ?_, record.id, ?_, hr⟩
    · unfold LIVE_STATUSES
      cases hstatus : record.state.status with
      | terminal => exact absurd hstatus hlive
      | _ => simp
    · rw [scanAll_index _ _ (hs.indexed.taskIdsByStatus _), (hs.indexed.taskIdsByStatus _).exact]
      exact ⟨record, hr, rfl⟩

theorem build_shows (hs : Sound s) : Shows s (build s) := by
  have hone : ∀ a ∈ liveRecords s, ∀ b ∈ liveRecords s, keyOf b.id = keyOf a.id → b = a := by
    intro a ha b hb hkey
    have hid := keyOf_injective hkey
    have ha' := ((mem_liveRecords s hs a).mp ha).1
    have hb' := ((mem_liveRecords s hs b).mp hb).1
    rw [hid, ha'] at hb'
    exact (some.inj hb').symm
  have hnone : ∀ key, (∀ record ∈ liveRecords s, keyOf record.id ≠ key) → get? (build s) key = none :=
    fun key hkey => get?_fold_other _ _ (fun record => nodeOf record (ownedIds s record.id)) [] key hkey
  have hsome : ∀ record ∈ liveRecords s,
      get? (build s) (keyOf record.id) = some (nodeOf record (s.conversationIdsByOwnerTask record.id)) := by
    intro record hmem
    rw [← ownedIds_eq s hs]
    exact get?_fold_some _ _ (fun record => nodeOf record (ownedIds s record.id)) [] record hmem (hone record hmem)
  constructor
  · intro id
    unfold shown
    cases hr : s.tasks id with
    | none =>
      refine hnone _ (fun record hmem hkey => ?_)
      rw [← keyOf_injective hkey, ((mem_liveRecords s hs record).mp hmem).1] at hr
      cases hr
    | some record =>
      obtain rfl := hs.keyed.task id record hr
      cases hlive : isTerminal record with
      | false =>
        rw [hsome record ((mem_liveRecords s hs record).mpr ⟨hr, hlive⟩)]
        simp [hlive]
      | true =>
        simp only [bind_some, hlive, if_true]
        refine hnone _ (fun other hmem hkey => ?_)
        obtain ⟨hother, hlive'⟩ := (mem_liveRecords s hs other).mp hmem
        rw [keyOf_injective hkey, hr] at hother
        obtain rfl := some.inj hother
        rw [hlive] at hlive'
        cases hlive'
  · intro key node hget
    by_contra hno
    rw [hnone key (fun record _ hkey => hno ⟨record.id, hkey.symm⟩)] at hget
    cases hget

/-! ## What a commit writes -/

def tasksOf (writes : List StorageWrite) : List TaskRecord :=
  writes.filterMap fun
    | .task value => some value
    | _ => none

def conversationsOf (writes : List StorageWrite) : List ConversationRecord :=
  writes.filterMap fun
    | .conversation value => some value
    | _ => none

theorem applyWrites_tables (seq : Seq) (writes : List StorageWrite) (s : State) :
    (writes.foldl (fun s write => s.applyWrite seq write) s).tasks =
      (tasksOf writes).foldl (fun table a => update table (TaskRecord.id a) (some a)) s.tasks ∧
    (writes.foldl (fun s write => s.applyWrite seq write) s).conversations =
      (conversationsOf writes).foldl (fun table a => update table (ConversationRecord.id a) (some a))
        s.conversations := by
  induction writes generalizing s with
  | nil => exact ⟨rfl, rfl⟩
  | cons write writes ih =>
    rw [foldl_cons, (ih _).1, (ih _).2]
    cases write <;> exact ⟨rfl, rfl⟩

theorem applyActions_tables (seq : Seq) (actions : Actions) (t : State) :
    (actions.foldl (fun s p => s.applyDocumentAction seq p.1 p.2) t).tasks = t.tasks ∧
    (actions.foldl (fun s p => s.applyDocumentAction seq p.1 p.2) t).conversations = t.conversations := by
  induction actions generalizing t with
  | nil => exact ⟨rfl, rfl⟩
  | cons p actions ih =>
    rw [foldl_cons, (ih _).1, (ih _).2]
    unfold State.applyDocumentAction
    split <;> exact ⟨rfl, rfl⟩

theorem conversations_once (claimed : Id → Option TableName) (writes : List StorageWrite)
    (h : checkGlobalIdsFrom s claimed writes = .ok ()) :
    ((conversationsOf writes).map ConversationRecord.id).Nodup ∧
    ∀ record ∈ conversationsOf writes, s.recordTypes record.id = none ∧ claimed record.id = none := by
  induction writes generalizing claimed with
  | nil => exact ⟨nodup_nil, fun _ hmem => by cases hmem⟩
  | cons write writes ih =>
    rw [checkGlobalIdsFrom] at h
    split at h
    · rename_i hclaim
      have hskip : conversationsOf (write :: writes) = conversationsOf writes := by
        cases write <;> first | rfl | cases hclaim
      rw [hskip]
      exact ih claimed h
    · rename_i id table hclaim
      split at h
      · cases h
      · rename_i claimed' hok
        obtain ⟨rfl, hfree⟩ := checkGlobalId_ok s claimed claimed' id table hok
        obtain ⟨hnodup, hrest⟩ := ih _ h
        have hlater : ∀ record ∈ conversationsOf writes, record.id ≠ id ∧ s.recordTypes record.id = none ∧
            claimed record.id = none := by
          intro record hmem
          obtain ⟨htypes, hclaimed⟩ := hrest record hmem
          have hne : record.id ≠ id := by
            intro heq
            rw [heq, update_self] at hclaimed
            cases hclaimed
          rw [update_of_ne hne] at hclaimed
          exact ⟨hne, htypes, hclaimed⟩
        cases write with
        | conversation value =>
          obtain ⟨rfl, rfl⟩ := Prod.mk.inj (some.inj hclaim)
          have hfresh : s.recordTypes value.id = none ∧ claimed value.id = none := by
            rcases hfree with hfree | ⟨hr, -⟩
            · exact hfree
            · cases hr
          refine ⟨nodup_cons.mpr ⟨?_, hnodup⟩, ?_⟩
          · intro hmem
            obtain ⟨record, hrecord, heq⟩ := mem_map.mp hmem
            exact (hlater record hrecord).1 heq
          · intro record hmem
            rcases mem_cons.mp hmem with rfl | hmem
            · exact hfresh
            · exact (hlater record hmem).2
        | _ => exact ⟨hnodup, fun record hmem => (hlater record hmem).2⟩

end PiAgent.Harness.TaskGraph
