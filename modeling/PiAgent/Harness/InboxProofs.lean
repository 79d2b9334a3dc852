import PiAgent.Harness.Inbox

/-! # A boundary places what it selects -/

namespace PiAgent.Harness.Inbox

open Durable

/-! ## Positions -/

section Positions

variable {α : Type}

def select (p : ℕ → Bool) (items : List α) : List α := (items.zipIdx.filter (fun e => p e.2)).map Prod.fst

theorem select_sublist (p : ℕ → Bool) (items : List α) : (select p items).Sublist items := by
  have h := (List.filter_sublist (l := items.zipIdx) (p := fun e => p e.2)).map Prod.fst
  rwa [List.zipIdx_map_fst] at h

theorem filterMap_range (p : ℕ → Bool) (items : List α) :
    ((List.range items.length).filter p).filterMap (fun index => items[index]?) = select p items := by
  have hrange : List.range items.length = items.zipIdx.map Prod.snd := by
    rw [List.zipIdx_map_snd, List.range_eq_range']
  unfold select
  rw [hrange, List.filter_map, List.filterMap_map, ← List.filterMap_eq_map]
  refine List.filterMap_congr (fun e he => ?_)
  have := List.mem_zipIdx_iff_getElem?.mp (List.mem_filter.mp he).1
  exact this

theorem select_getElem (p : α → Bool) (items : List α) :
    select (fun index => items[index]?.any p) items = items.filter p := by
  unfold select
  have hcongr : items.zipIdx.filter (fun e => items[e.2]?.any p) = items.zipIdx.filter (fun e => p e.1) := by
    refine List.filter_congr (fun e he => ?_)
    rw [List.mem_zipIdx_iff_getElem?.mp he]
    rfl
  have hfst := List.filter_map (p := p) (f := Prod.fst) (l := items.zipIdx)
  rw [List.zipIdx_map_fst] at hfst
  rw [hcongr, hfst]
  rfl

theorem erase_descending (items : List α) (positions : List ℕ) (h : positions.Pairwise (fun a b => b < a)) :
    positions.foldl List.eraseIdx items = select (fun index => !positions.contains index) items := by
  induction positions generalizing items with
  | nil =>
    unfold select
    simp
  | cons d positions ih =>
    obtain ⟨hlt, hrest⟩ := List.pairwise_cons.mp h
    rw [List.foldl_cons, ih (items.eraseIdx d) hrest]
    unfold select
    rcases Nat.lt_or_ge d items.length with hd | hd
    · -- The items before position `d`, the one at it and those after it.
      obtain ⟨before, x, after, hitems, hlength⟩ : ∃ before x after, items = before ++ x :: after ∧ before.length = d :=
        ⟨items.take d, items[d], items.drop (d + 1), by rw [← List.drop_eq_getElem_cons hd, List.take_append_drop],
          by rw [List.length_take]; omega⟩
      have hkept : ∀ n, d ≤ n → ∀ e ∈ after.zipIdx n, (!positions.contains e.2) = true := by
        intro n hn e he
        have hle := List.le_snd_of_mem_zipIdx he
        by_contra hmem
        rw [Bool.not_eq_true', Bool.not_eq_false, List.contains_iff_mem] at hmem
        have := hlt e.2 hmem
        omega
      have hbefore : before.zipIdx.filter (fun e => !(d :: positions).contains e.2) =
          before.zipIdx.filter (fun e => !positions.contains e.2) := by
        refine List.filter_congr (fun e he => ?_)
        have hb := List.snd_lt_of_mem_zipIdx he
        have hne : e.2 ≠ d := by omega
        simp [hne]
      have hafter : (after.zipIdx (d + 1)).filter (fun e => !(d :: positions).contains e.2) = after.zipIdx (d + 1) := by
        refine List.filter_eq_self.mpr (fun e he => ?_)
        have hle := List.le_snd_of_mem_zipIdx he
        have hne : e.2 ≠ d := by omega
        have := hkept (d + 1) (by omega) e he
        simpa [hne] using this
      have herase : items.eraseIdx d = before ++ after := by
        rw [hitems, List.eraseIdx_append_of_length_le (by omega)]
        simp [hlength]
      rw [herase, hitems, List.zipIdx_append, List.zipIdx_append, List.filter_append, List.filter_append, List.zipIdx_cons,
        hbefore]
      simp only [Nat.zero_add, hlength]
      rw [List.filter_cons_of_neg (by simp), hafter, List.filter_eq_self.mpr (hkept d (Nat.le_refl d)),
        List.map_append, List.map_append, List.zipIdx_map_fst, List.zipIdx_map_fst]
    · rw [List.eraseIdx_of_length_le hd]
      congr 1
      refine List.filter_congr (fun e he => ?_)
      have hb := List.snd_lt_of_mem_zipIdx he
      have hne : e.2 ≠ d := by omega
      simp [hne]

end Positions

/-! ## What is selected -/

def takes (items : List InboxItem) (mode : Mode) (queueMode : QueueMode) (index : ℕ) : Bool :=
  items[index]?.any (InboxItem.hasMode mode) &&
    (queueMode = .all || !(items.take index).any (InboxItem.hasMode mode))

def userAt (boundary : Boundary) (final : Bool) (index : ℕ) : Bool :=
  takes boundary.items .steer boundary.steeringMode index ||
    (final && takes boundary.items .followUp boundary.followUpMode index)

def writeAt (items : List InboxItem) (index : ℕ) : Bool := items[index]?.any InboxItem.isWrite

theorem any_take (p : InboxItem → Bool) (items : List InboxItem) (index : ℕ) :
    (items.take index).any p = false ↔ ∀ j < index, items[j]?.any p = false := by
  rw [List.any_eq_false]
  constructor
  · intro h j hj
    cases hget : items[j]? with
    | none => rfl
    | some item =>
      have hmem : item ∈ items.take index := by
        refine List.mem_of_getElem? (i := j) ?_
        rw [List.getElem?_take_of_lt hj, hget]
      simpa using h item hmem
  · intro h item hmem
    obtain ⟨j, hj, rfl⟩ := List.mem_iff_getElem.mp hmem
    have hlt : j < index ∧ j < items.length := by
      rw [List.length_take] at hj
      omega
    have := h j hlt.1
    rw [List.getElem?_eq_getElem hlt.2] at this
    simpa using this

theorem pairwise_range_filter (p : ℕ → Bool) (n : ℕ) : ((List.range n).filter p).Pairwise (fun a b => a < b) :=
  List.pairwise_lt_range.filter _

theorem mem_take_one (p : ℕ → Bool) (n index : ℕ) :
    index ∈ ((List.range n).filter p).take 1 ↔ (index < n ∧ p index = true) ∧ ∀ j < index, p j = false := by
  have hsorted := pairwise_range_filter p n
  have hmem : ∀ k, k ∈ (List.range n).filter p ↔ k < n ∧ p k = true := fun k => by
    rw [List.mem_filter, List.mem_range]
  rcases hl : (List.range n).filter p with _ | ⟨first, rest⟩
  · simp only [List.take_nil, List.not_mem_nil, false_iff]
    rintro ⟨hp, -⟩
    have := (hmem index).mpr hp
    rw [hl] at this
    cases this
  · rw [hl] at hsorted hmem
    obtain ⟨hlt, -⟩ := List.pairwise_cons.mp hsorted
    have hfirst := (hmem first).mp List.mem_cons_self
    simp only [List.take_succ_cons, List.take_zero, List.mem_singleton]
    constructor
    · rintro rfl
      refine ⟨hfirst, fun j hj => ?_⟩
      by_contra hp
      rcases List.mem_cons.mp ((hmem j).mpr ⟨by omega, Bool.not_eq_false _ ▸ hp⟩) with rfl | hr
      · omega
      · have := hlt j hr
        omega
    · rintro ⟨hp, hbefore⟩
      rcases List.mem_cons.mp ((hmem index).mpr hp) with h | hr
      · exact h
      · have := hbefore first (hlt index hr)
        rw [hfirst.2] at this
        cases this

theorem mem_pick (items : List InboxItem) (mode : Mode) (queueMode : QueueMode) (index : ℕ) :
    index ∈ pick items mode queueMode ↔ index < items.length ∧ takes items mode queueMode index = true := by
  unfold pick takes indexesOf
  by_cases hall : queueMode = .all
  · simp [hall]
  · rw [if_neg hall, mem_take_one]
    simp only [hall, decide_false, Bool.false_or, Bool.and_eq_true, Bool.not_eq_true', any_take]
    exact and_assoc

theorem pick_nodup (items : List InboxItem) (mode : Mode) (queueMode : QueueMode) : (pick items mode queueMode).Nodup := by
  have h : (indexesOf (InboxItem.hasMode mode) items).Nodup := List.nodup_range.filter _
  unfold pick
  split
  · exact h
  · exact h.sublist (List.take_sublist 1 _)

theorem hasMode_unique (item : InboxItem) (h : item.hasMode .steer = true) (h' : item.hasMode .followUp = true) : False := by
  unfold InboxItem.hasMode at h h'
  cases hv : item.value with
  | write draft =>
    rw [hv] at h
    cases h
  | input mode content entry =>
    rw [hv] at h h'
    cases mode <;> simp at h h'

theorem takes_item (items : List InboxItem) (mode : Mode) (queueMode : QueueMode) (index : ℕ)
    (h : takes items mode queueMode index = true) : ∃ item, items[index]? = some item ∧ item.hasMode mode = true := by
  have hany := (Bool.and_eq_true_iff.mp h).1
  cases hget : items[index]? with
  | none =>
    rw [hget] at hany
    cases hany
  | some item => exact ⟨item, rfl, by rw [hget] at hany; exact hany⟩

theorem mergeSort_ascending (l : List ℕ) : (l.mergeSort (fun a b => a ≤ b)).Pairwise (fun a b => a ≤ b) := by
  have h : (l.mergeSort (fun a b => decide (a ≤ b))).Pairwise (fun a b => decide (a ≤ b) = true) :=
    List.pairwise_mergeSort (fun a b c hab hbc => by simp only [decide_eq_true_eq] at *; omega)
      (fun a b => by simp only [Bool.or_eq_true, decide_eq_true_eq]; omega) l
  simpa using h

theorem mergeSort_descending (l : List ℕ) : (l.mergeSort (fun a b => b ≤ a)).Pairwise (fun a b => b ≤ a) := by
  have h : (l.mergeSort (fun a b => decide (b ≤ a))).Pairwise (fun a b => decide (b ≤ a) = true) :=
    List.pairwise_mergeSort (fun a b c hab hbc => by simp only [decide_eq_true_eq] at *; omega)
      (fun a b => by simp only [Bool.or_eq_true, decide_eq_true_eq]; omega) l
  simpa using h

theorem selectUsers_eq (boundary : Boundary) (final : Bool) :
    selectUsers boundary final = (List.range boundary.items.length).filter (userAt boundary final) := by
  have hnodup : (pick boundary.items .steer boundary.steeringMode ++
      if final then pick boundary.items .followUp boundary.followUpMode else []).Nodup := by
    refine List.nodup_append.mpr ⟨pick_nodup _ _ _, ?_, fun a ha b hb heq => ?_⟩
    · split
      · exact pick_nodup _ _ _
      · exact List.nodup_nil
    · split at hb
      · obtain ⟨item, hget, hsteer⟩ := takes_item _ _ _ _ ((mem_pick _ _ _ _).mp ha).2
        obtain ⟨item', hget', hfollow⟩ := takes_item _ _ _ _ ((mem_pick _ _ _ _).mp hb).2
        rw [← heq, hget] at hget'
        obtain rfl := Option.some.inj hget'
        exact hasMode_unique item hsteer hfollow
      · cases hb
  unfold selectUsers
  refine List.Perm.eq_of_pairwise (fun a b _ _ hab hba => Nat.le_antisymm hab hba) (mergeSort_ascending _) ?_ ?_
  · exact (pairwise_range_filter _ _).imp Nat.le_of_lt
  · refine (List.mergeSort_perm _ _).trans ((List.perm_ext_iff_of_nodup hnodup (List.nodup_range.filter _)).mpr (fun index => ?_))
    rw [List.mem_append, mem_pick, List.mem_filter, List.mem_range]
    unfold userAt
    cases final with
    | false => simp
    | true =>
      simp only [if_true, mem_pick, Bool.true_and, Bool.or_eq_true]
      exact and_or_left.symm

theorem erase_selected (items : List InboxItem) (users : ℕ → Bool)
    (hdisjoint : ∀ index, writeAt items index = true → users index = false) :
    ((indexesOf InboxItem.isWrite items ++ (List.range items.length).filter users).mergeSort (fun a b => b ≤ a)).foldl
      List.eraseIdx items = select (fun index => !writeAt items index && !users index) items := by
  have hperm := List.mergeSort_perm (indexesOf InboxItem.isWrite items ++ (List.range items.length).filter users)
    (fun a b => b ≤ a)
  have hnodup : (indexesOf InboxItem.isWrite items ++ (List.range items.length).filter users).Nodup := by
    refine List.nodup_append.mpr ⟨List.nodup_range.filter _, List.nodup_range.filter _, fun a ha b hb heq => ?_⟩
    have hw : writeAt items a = true := (List.mem_filter.mp ha).2
    rw [← heq] at hb
    simp [hdisjoint a hw] at hb
  have hsorted := mergeSort_descending (indexesOf InboxItem.isWrite items ++ (List.range items.length).filter users)
  have hstrict : ((indexesOf InboxItem.isWrite items ++ (List.range items.length).filter users).mergeSort
      (fun a b => b ≤ a)).Pairwise (fun a b => b < a) :=
    (hsorted.and (hperm.nodup_iff.mpr hnodup)).imp (fun h => by omega)
  rw [erase_descending items _ hstrict]
  unfold select
  congr 1
  refine List.filter_congr (fun e he => ?_)
  have hlt : e.2 < items.length := by simpa using List.snd_lt_of_mem_zipIdx he
  rw [Bool.eq_iff_iff, Bool.not_eq_true', ← Bool.not_eq_true, List.contains_iff_mem, hperm.mem_iff, List.mem_append,
    List.mem_filter]
  unfold indexesOf
  rw [List.mem_filter, List.mem_range]
  change ¬ (e.2 < items.length ∧ writeAt items e.2 = true ∨ _) ↔ _
  simp [hlt]

/-! ## Outcomes -/

structure Outcome where
  item : InboxItem
  entry : Option EntryRecord

def Outcome.change (o : Outcome) : Id × SubmissionChange :=
  match o.entry with
  | none => (o.item.id, .unanswered (js "stale") none)
  | some entry => (o.item.id, .placed entry.id)

def newestHead (head : Option Id) (entries : List EntryRecord) : Option Id :=
  (entries.reverse.findSome? EntryRecord.head).or head

def Right (taskId : Option Id) (conversationId : Id) (now : ℚ) (head : Option Id) (id : Id) (o : Outcome) : Prop :=
  match o.item.value with
  | .write draft =>
    o.entry = if isStale head draft then none else some (recordOf taskId conversationId draft id)
  | .input _ content entry => o.entry = some (recordOf taskId conversationId (inputDraft content entry now) id)

inductive Turns (conversationId : Id) (now : ℚ) : Tx → Option Id → List Outcome → Tx → Option Id → Prop where
  | nil (tx : Tx) (head : Option Id) : Turns conversationId now tx head [] tx head
  | cons (tx tx' : Tx) (head head' : Option Id) (o : Outcome) (outcomes : List Outcome)
    (hright : Right tx.taskId conversationId now head (tx.mintId tx.minted) o)
    (hrest : Turns conversationId now
      { tx with
        minted := tx.minted + o.entry.toList.length
        writes := tx.writes ++ o.entry.toList
        changes := tx.changes ++ [o.change] } (newestHead head o.entry.toList) outcomes tx' head') :
    Turns conversationId now tx head (o :: outcomes) tx' head'

theorem Turns.append (conversationId : Id) (now : ℚ) (tx tx' tx'' : Tx) (head head' head'' : Option Id)
    (a b : List Outcome) (ha : Turns conversationId now tx head a tx' head')
    (hb : Turns conversationId now tx' head' b tx'' head'') : Turns conversationId now tx head (a ++ b) tx'' head'' := by
  induction ha with
  | nil tx head => exact hb
  | cons tx tx' head head' o outcomes hright hrest ih => exact .cons _ _ _ _ o _ hright (ih hb)

theorem newestHead_one (head : Option Id) (entry : EntryRecord) : newestHead head [entry] = entry.head.or head := by
  unfold newestHead
  rw [List.reverse_singleton, List.findSome?_singleton]

theorem newestHead_append (head : Option Id) (a b : List EntryRecord) :
    newestHead head (a ++ b) = newestHead (newestHead head a) b := by
  unfold newestHead
  rw [List.reverse_append, List.findSome?_append, Option.or_assoc]

theorem writes_turns (conversationId : Id) (now : ℚ) (items : List InboxItem)
    (hwrites : ∀ item ∈ items, item.isWrite = true) (tx : Tx) (head : Option Id) :
    ∃ outcomes, outcomes.map Outcome.item = items ∧
      Turns conversationId now tx head outcomes (items.foldl (placeWrite conversationId) (tx, head)).1
        (items.foldl (placeWrite conversationId) (tx, head)).2 := by
  induction items generalizing tx head with
  | nil => exact ⟨[], rfl, .nil tx head⟩
  | cons item items ih =>
    have hwrite := hwrites item List.mem_cons_self
    obtain ⟨id, value⟩ := item
    cases value with
    | input mode content entry => cases hwrite
    | write draft =>
      rw [List.foldl_cons]
      by_cases hstale : isStale head draft = true
      · have hplace : placeWrite conversationId (tx, head) ⟨id, .write draft⟩ = (tx.settleSubmission id (js "stale"), head) :=
          if_pos hstale
        rw [hplace]
        obtain ⟨outcomes, hitems, hturns⟩ := ih (fun item hmem => hwrites item (List.mem_cons_of_mem _ hmem))
          (tx.settleSubmission id (js "stale")) head
        refine ⟨⟨⟨id, .write draft⟩, none⟩ :: outcomes, by rw [List.map_cons, hitems], .cons _ _ _ _ _ _ ?_ ?_⟩
        · exact (if_pos hstale).symm
        · simpa [Tx.settleSubmission, Outcome.change, newestHead] using hturns
      · have hplace : placeWrite conversationId (tx, head) ⟨id, .write draft⟩ =
            ((tx.appendEntry conversationId draft).2.placeSubmission id (tx.mintId tx.minted),
              (headOf (tx.mintId tx.minted) draft.head).or head) := by
          have hplaced : placeWrite conversationId (tx, head) ⟨id, .write draft⟩ =
              ((tx.appendEntry conversationId draft).2.placeSubmission id (tx.mintId tx.minted),
                if draft.head.isSome then headOf (tx.mintId tx.minted) draft.head else head) := if_neg hstale
          rw [hplaced]
          rcases draft.head with _ | (_ | target) <;> rfl
        rw [hplace]
        obtain ⟨outcomes, hitems, hturns⟩ := ih (fun item hmem => hwrites item (List.mem_cons_of_mem _ hmem))
          ((tx.appendEntry conversationId draft).2.placeSubmission id (tx.mintId tx.minted))
          ((headOf (tx.mintId tx.minted) draft.head).or head)
        refine ⟨⟨⟨id, .write draft⟩, some (recordOf tx.taskId conversationId draft (tx.mintId tx.minted))⟩ :: outcomes,
          by rw [List.map_cons, hitems], .cons _ _ _ _ _ _ ?_ ?_⟩
        · exact (if_neg hstale).symm
        · rw [Option.toList_some, newestHead_one]
          exact hturns

theorem users_turns (conversationId : Id) (now : ℚ) (items : List InboxItem)
    (husers : ∀ item ∈ items, item.isWrite = false) (tx : Tx) (head : Option Id) (placed : List Id) :
    ∃ outcomes, outcomes.map Outcome.item = items ∧
      Turns conversationId now tx head outcomes (items.foldl (placeUser conversationId now) (tx, placed)).1 head ∧
      (items.foldl (placeUser conversationId now) (tx, placed)).2 = placed ++ items.map InboxItem.id := by
  induction items generalizing tx placed with
  | nil => exact ⟨[], rfl, .nil tx head, (List.append_nil placed).symm⟩
  | cons item items ih =>
    have huser := husers item List.mem_cons_self
    obtain ⟨id, value⟩ := item
    cases value with
    | write draft => cases huser
    | input mode content entry =>
      rw [List.foldl_cons]
      have hplace : placeUser conversationId now (tx, placed) ⟨id, .input mode content entry⟩ =
          ((tx.appendEntry conversationId (inputDraft content entry now)).2.placeSubmission id (tx.mintId tx.minted),
            placed ++ [id]) := rfl
      rw [hplace]
      obtain ⟨outcomes, hitems, hturns, hplaced⟩ := ih (fun item hmem => husers item (List.mem_cons_of_mem _ hmem))
        ((tx.appendEntry conversationId (inputDraft content entry now)).2.placeSubmission id (tx.mintId tx.minted))
        (placed ++ [id])
      refine ⟨⟨⟨id, .input mode content entry⟩,
        some (recordOf tx.taskId conversationId (inputDraft content entry now) (tx.mintId tx.minted))⟩ :: outcomes,
        by rw [List.map_cons, hitems], .cons _ _ _ _ _ _ rfl ?_, ?_⟩
      · rw [Option.toList_some, newestHead_one]
        exact hturns
      · rw [hplaced, List.append_assoc, List.map_cons, List.singleton_append]

structure Added (conversationId : Id) (now : ℚ) (tx : Tx) (head : Option Id) (outcomes : List Outcome) (tx' : Tx) :
    Prop where
  writes : tx'.writes = tx.writes ++ outcomes.filterMap Outcome.entry
  changes : tx'.changes = tx.changes ++ outcomes.map Outcome.change
  right : ∀ before o after, outcomes = before ++ o :: after →
    Right tx.taskId conversationId now (newestHead head (before.filterMap Outcome.entry))
      (tx.mintId (tx.minted + (before.filterMap Outcome.entry).length)) o

theorem Turns.added (conversationId : Id) (now : ℚ) (tx tx' : Tx) (head head' : Option Id) (outcomes : List Outcome)
    (h : Turns conversationId now tx head outcomes tx' head') : Added conversationId now tx head outcomes tx' := by
  induction h with
  | nil tx head =>
    refine ⟨(List.append_nil _).symm, (List.append_nil _).symm, fun before o after hsplit => ?_⟩
    cases before <;> cases hsplit
  | cons tx tx' head head' o outcomes hright hrest ih =>
    have hentries : (o :: outcomes).filterMap Outcome.entry = o.entry.toList ++ outcomes.filterMap Outcome.entry := by
      rw [List.filterMap_cons]
      cases o.entry <;> rfl
    refine ⟨?_, ?_, fun before other after hsplit => ?_⟩
    · rw [ih.writes, hentries, List.append_assoc]
    · rw [ih.changes, List.map_cons, List.append_assoc, List.singleton_append]
    · cases before with
      | nil =>
        obtain ⟨rfl, -⟩ := List.cons.inj hsplit
        exact hright
      | cons first before =>
        obtain ⟨rfl, hsplit'⟩ := List.cons.inj hsplit
        have hlater := ih.right before other after hsplit'
        have hfirst : (o :: before).filterMap Outcome.entry = o.entry.toList ++ before.filterMap Outcome.entry := by
          rw [List.filterMap_cons]
          cases o.entry <;> rfl
        rw [hfirst, newestHead_append, List.length_append, ← Nat.add_assoc]
        exact hlater

/-! ## Submissions -/

structure Waiting (submissions : Submissions) (items : List InboxItem) : Prop where
  ids : (items.map InboxItem.id).Nodup
  queued : ∀ item ∈ items, ∃ record, submissions item.id = some record ∧ record.status = .queued ∧
    (record.type = .write ↔ item.isWrite = true)

def settledRecord (o : Outcome) (record : SubmissionRecord) : SubmissionRecord :=
  match o.entry with
  | none => { record with status := .unanswered, reason := some (js "stale"), detail := none }
  | some entry => { record with status := if o.item.isWrite then .done else .placed, entry := some entry.id }

theorem applySubmissionChange_outcome (o : Outcome) (record : SubmissionRecord) (hstatus : record.status = .queued)
    (htype : record.type = .write ↔ o.item.isWrite = true) :
    applySubmissionChange record o.change.2 = .ok (settledRecord o record) := by
  have hopen : ¬ (record.status = .done ∨ record.status = .unanswered) := by
    rw [hstatus]
    decide
  unfold applySubmissionChange
  rw [if_neg hopen]
  unfold Outcome.change settledRecord
  cases o.entry with
  | none => rfl
  | some entry =>
    dsimp only
    rw [if_neg (not_not.mpr hstatus)]
    cases ht : record.type with
    | write =>
      rw [ht] at htype
      rw [htype.mp rfl]
      rfl
    | input =>
      have hnot : o.item.isWrite = false := by
        by_contra hwrite
        have := htype.mpr (Bool.not_eq_false _ ▸ hwrite)
        rw [ht] at this
        cases this
      rw [hnot]
      rfl

theorem assemble_cons (submissions : Submissions) (id : Id) (change : SubmissionChange)
    (changes : List (Id × SubmissionChange)) (current next : SubmissionRecord) (hfound : submissions id = some current)
    (hnext : applySubmissionChange current change = .ok next) :
    assemble submissions ((id, change) :: changes) = assemble (Function.update submissions id (some next)) changes := by
  rw [assemble, hfound]
  simp only [hnext]

structure Settles (submissions : Submissions) (outcomes : List Outcome) (settled : Submissions) : Prop where
  own : ∀ o ∈ outcomes, settled o.item.id = (submissions o.item.id).map (settledRecord o)
  others : ∀ id, id ∉ outcomes.map (fun o => o.item.id) → settled id = submissions id

theorem assemble_outcomes (outcomes : List Outcome) (submissions : Submissions)
    (h : Waiting submissions (outcomes.map Outcome.item)) :
    ∃ settled, assemble submissions (outcomes.map Outcome.change) = .ok settled ∧ Settles submissions outcomes settled := by
  induction outcomes generalizing submissions with
  | nil => exact ⟨submissions, rfl, fun o ho => absurd ho List.not_mem_nil, fun _ _ => rfl⟩
  | cons o outcomes ih =>
    obtain ⟨record, hfound, hstatus, htype⟩ := h.queued o.item List.mem_cons_self
    have hids := h.ids
    rw [List.map_cons, List.map_cons, List.map_map, List.nodup_cons] at hids
    have hother : ∀ other ∈ outcomes, other.item.id ≠ o.item.id := fun other hmem heq =>
      hids.1 (heq ▸ List.mem_map_of_mem hmem)
    have hwaiting : Waiting (Function.update submissions o.item.id (some (settledRecord o record)))
        (outcomes.map Outcome.item) := by
      refine ⟨by rw [List.map_map]; exact hids.2, fun item hmem => ?_⟩
      obtain ⟨other, hmem', rfl⟩ := List.mem_map.mp hmem
      rw [Function.update_of_ne (hother other hmem')]
      exact h.queued other.item (List.mem_cons_of_mem _ hmem)
    obtain ⟨settled, hassemble, hsettles⟩ := ih _ hwaiting
    have hid : o.change.1 = o.item.id := by
      unfold Outcome.change
      cases o.entry <;> rfl
    refine ⟨settled, ?_, fun other hmem => ?_, fun id hno => ?_⟩
    · rw [List.map_cons, ← hassemble]
      rw [show o.change = (o.item.id, o.change.2) from Prod.ext hid rfl]
      exact assemble_cons submissions _ _ _ record _ hfound (applySubmissionChange_outcome o record hstatus htype)
    · rcases List.mem_cons.mp hmem with rfl | hmem
      · rw [hsettles.others _ hids.1, Function.update_self, hfound]
        rfl
      · rw [hsettles.own other hmem, Function.update_of_ne (hother other hmem)]
    · rw [List.map_cons, List.mem_cons, not_or] at hno
      rw [hsettles.others id hno.2, Function.update_of_ne hno.1]

/-! ## The boundary -/

def isFinal (boundary : Boundary) (at' : At) : Bool := at' = .final || hasQueuedReset boundary.items

def selectedUsers (boundary : Boundary) (at' : At) : List InboxItem :=
  select (userAt boundary (isFinal boundary at')) boundary.items

structure Places (tx : Tx) (boundary : Boundary) (at' : At) (now : ℚ) (placed : BoundaryResult × Boundary × Tx)
    (outcomes : List Outcome) : Prop where
  items : outcomes.map Outcome.item = boundary.items.filter InboxItem.isWrite ++ selectedUsers boundary at'
  added : Added boundary.conversationId now tx boundary.head outcomes placed.2.2
  users : placed.1.users = (selectedUsers boundary at').map InboxItem.id
  reset : placed.1.reset = hasQueuedReset boundary.items
  left : placed.2.1.items = select
    (fun index => !writeAt boundary.items index && !userAt boundary (isFinal boundary at') index) boundary.items
  ordered : boundary.items.Pairwise (fun a b => a.id < b.id) →
    (boundary.items.filter InboxItem.isWrite).Pairwise (fun a b => a.id < b.id) ∧
      (selectedUsers boundary at').Pairwise (fun a b => a.id < b.id)
  settles : ∀ submissions, Waiting submissions boundary.items →
    ∃ settled, assemble submissions (outcomes.map Outcome.change) = .ok settled ∧ Settles submissions outcomes settled

theorem userAt_notWrite (boundary : Boundary) (final : Bool) (index : ℕ) (h : writeAt boundary.items index = true) :
    userAt boundary final index = false := by
  by_contra huser
  have hmode : ∃ mode queueMode, takes boundary.items mode queueMode index = true := by
    rw [Bool.not_eq_false] at huser
    rcases Bool.or_eq_true_iff.mp huser with hs | hf
    · exact ⟨_, _, hs⟩
    · exact ⟨_, _, (Bool.and_eq_true_iff.mp hf).2⟩
  obtain ⟨mode, queueMode, htakes⟩ := hmode
  obtain ⟨item, hget, hmode⟩ := takes_item _ _ _ _ htakes
  unfold writeAt at h
  rw [hget] at h
  unfold InboxItem.hasMode at hmode
  unfold InboxItem.isWrite at h
  cases hv : item.value with
  | write draft =>
    rw [hv] at hmode
    cases hmode
  | input m content entry =>
    rw [Option.any_some, hv] at h
    cases h

theorem selectedUsers_notWrite (boundary : Boundary) (at' : At) (item : InboxItem) (h : item ∈ selectedUsers boundary at') :
    item.isWrite = false := by
  obtain ⟨e, he, rfl⟩ := List.mem_map.mp h
  obtain ⟨hmem, huser⟩ := List.mem_filter.mp he
  by_contra hwrite
  have hat : writeAt boundary.items e.2 = true := by
    unfold writeAt
    rw [List.mem_zipIdx_iff_getElem?.mp hmem]
    exact Bool.not_eq_false _ ▸ hwrite
  rw [userAt_notWrite boundary _ e.2 hat] at huser
  cases huser

theorem waiting_selected (submissions : Submissions) (boundary : Boundary) (at' : At)
    (h : Waiting submissions boundary.items) :
    Waiting submissions (boundary.items.filter InboxItem.isWrite ++ selectedUsers boundary at') := by
  have hwrites := List.filter_sublist (p := InboxItem.isWrite) (l := boundary.items)
  have husers := select_sublist (userAt boundary (isFinal boundary at')) boundary.items
  refine ⟨?_, fun item hmem => ?_⟩
  · rw [List.map_append]
    refine List.nodup_append.mpr ⟨h.ids.sublist (hwrites.map _), h.ids.sublist (husers.map _), ?_⟩
    intro a ha b hb heq
    obtain ⟨item, hi, rfl⟩ := List.mem_map.mp ha
    obtain ⟨user, hu, rfl⟩ := List.mem_map.mp hb
    have hsame := List.inj_on_of_nodup_map h.ids (hwrites.subset hi) (husers.subset hu) heq
    have hwrite := (List.mem_filter.mp hi).2
    rw [hsame, selectedUsers_notWrite boundary at' user hu] at hwrite
    cases hwrite
  · rcases List.mem_append.mp hmem with hi | hu
    · exact h.queued item (hwrites.subset hi)
    · exact h.queued item (husers.subset hu)

/-- A boundary places the writes that are not stale at their turn and then the selected user items, and no others. -/
theorem applyBoundary_places (tx : Tx) (boundary : Boundary) (at' : At) (now : ℚ) :
    ∃ outcomes, Places tx boundary at' now (applyBoundary tx boundary at' now) outcomes := by
  have hwrites : itemsAt boundary.items (indexesOf InboxItem.isWrite boundary.items) =
      boundary.items.filter InboxItem.isWrite := by
    unfold itemsAt indexesOf
    rw [filterMap_range, select_getElem]
  have husers : itemsAt boundary.items (selectUsers boundary (isFinal boundary at')) = selectedUsers boundary at' := by
    unfold itemsAt
    rw [selectUsers_eq, filterMap_range]
    rfl
  obtain ⟨written, hwritten, hfirst⟩ := writes_turns boundary.conversationId now
    (boundary.items.filter InboxItem.isWrite) (fun item hmem => (List.mem_filter.mp hmem).2) tx boundary.head
  obtain ⟨placed, hplaced, hsecond, hids⟩ := users_turns boundary.conversationId now (selectedUsers boundary at')
    (selectedUsers_notWrite boundary at')
    ((boundary.items.filter InboxItem.isWrite).foldl (placeWrite boundary.conversationId) (tx, boundary.head)).1
    ((boundary.items.filter InboxItem.isWrite).foldl (placeWrite boundary.conversationId) (tx, boundary.head)).2 []
  have hitems : (written ++ placed).map Outcome.item =
      boundary.items.filter InboxItem.isWrite ++ selectedUsers boundary at' := by
    rw [List.map_append, hwritten, hplaced]
  have hresult : applyBoundary tx boundary at' now =
      (⟨((itemsAt boundary.items (selectUsers boundary (isFinal boundary at'))).foldl (placeUser boundary.conversationId now)
          (((itemsAt boundary.items (indexesOf InboxItem.isWrite boundary.items)).foldl
            (placeWrite boundary.conversationId) (tx, boundary.head)).1, [])).2, hasQueuedReset boundary.items⟩,
        { boundary with
          items := ((indexesOf InboxItem.isWrite boundary.items ++ selectUsers boundary (isFinal boundary at')).mergeSort
            (fun a b => b ≤ a)).foldl List.eraseIdx boundary.items
          head := ((itemsAt boundary.items (indexesOf InboxItem.isWrite boundary.items)).foldl
            (placeWrite boundary.conversationId) (tx, boundary.head)).2 },
        ((itemsAt boundary.items (selectUsers boundary (isFinal boundary at'))).foldl (placeUser boundary.conversationId now)
          (((itemsAt boundary.items (indexesOf InboxItem.isWrite boundary.items)).foldl
            (placeWrite boundary.conversationId) (tx, boundary.head)).1, [])).1) := rfl
  rw [hwrites, husers, selectUsers_eq, erase_selected _ _ (userAt_notWrite boundary (isFinal boundary at'))] at hresult
  refine ⟨written ++ placed, ?_⟩
  rw [hresult]
  exact
    { items := hitems
      added := (hfirst.append _ _ _ _ _ _ _ _ _ _ hsecond).added
      users := hids
      reset := rfl
      left := rfl
      ordered := fun hsorted => ⟨hsorted.filter _, hsorted.sublist (select_sublist _ _)⟩
      settles := fun submissions hwaiting => assemble_outcomes (written ++ placed) submissions
        (hitems ▸ waiting_selected submissions boundary at' hwaiting) }

/-! ## A reset between two heads -/

def resetBoundary : Boundary where
  conversationId := 1
  items := [⟨2, .write ⟨some .self, []⟩⟩, ⟨3, .input .steer .null none⟩, ⟨4, .input .followUp .null none⟩,
    ⟨5, .write ⟨some (.entry 6), []⟩⟩, ⟨7, .input .steer .null none⟩]
  steeringMode := .one
  followUpMode := .one
  head := none

def resetTx : Tx where
  taskId := none
  mintId := fun n => 10 + n
  minted := 0
  writes := []
  changes := []

def resetSubmissions : Submissions := fun id =>
  if id = 2 ∨ id = 5 then some ⟨id, .write, .queued, none, none, none, none⟩
  else some ⟨id, .input, .queued, none, none, none, none⟩

theorem applyBoundary_places_reset : ∃ outcomes settled,
    Places resetTx resetBoundary .postTools 0 (applyBoundary resetTx resetBoundary .postTools 0) outcomes ∧
      Waiting resetSubmissions resetBoundary.items ∧ Settles resetSubmissions outcomes settled ∧
      (applyBoundary resetTx resetBoundary .postTools 0).1.users = [3, 4] ∧
      (applyBoundary resetTx resetBoundary .postTools 0).2.1.items.map InboxItem.id = [7] := by
  obtain ⟨outcomes, h⟩ := applyBoundary_places resetTx resetBoundary .postTools 0
  have hwaiting : Waiting resetSubmissions resetBoundary.items := by
    refine ⟨by decide, fun item hmem => ?_⟩
    simp only [resetBoundary, List.mem_cons, List.not_mem_nil, or_false] at hmem
    rcases hmem with rfl | rfl | rfl | rfl | rfl <;> exact ⟨_, rfl, rfl, by decide⟩
  obtain ⟨settled, -, hsettles⟩ := h.settles resetSubmissions hwaiting
  exact ⟨outcomes, settled, h, hwaiting, hsettles, h.users.trans (by decide), by rw [h.left]; decide⟩

end PiAgent.Harness.Inbox
