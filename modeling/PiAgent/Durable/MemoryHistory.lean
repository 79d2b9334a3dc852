import PiAgent.Durable.MemoryDocuments

/-!
# The history of a document

A document starts with a base, and a delta continues the version of the revision
before it. So a prefix of the revisions always has a newest base to fold from.
-/

namespace PiAgent.Durable

open List Sorted

/-! ## Chains of revisions -/

def Follows (previous next : DocumentRevision) : Prop :=
  next.content.isBase = true ∨ next.content.version = previous.content.version

structure Chained (revisions : List DocumentRevision) : Prop where
  base : ∀ first, revisions.head? = some first → first.content.isBase = true
  follows : revisions.IsChain Follows
  ascending : revisions.Pairwise (fun a b => a.seq < b.seq)

theorem chained_nil : Chained [] := ⟨by simp, isChain_nil, List.Pairwise.nil⟩

variable (version : ℤ)

theorem chained_base (value : JsonValue) (seq : Seq) : Chained [⟨.base version value, seq⟩] := by
  refine ⟨fun first h => ?_, isChain_singleton _, pairwise_singleton _ _⟩
  cases h
  rfl

theorem Chained.isPrefix (revisions before : List DocumentRevision) (h : Chained revisions)
    (hp : before <+: revisions) : Chained before := by
  refine ⟨fun first hf => ?_, h.follows.prefix hp, h.ascending.sublist hp.sublist⟩
  obtain ⟨rest, rfl⟩ := hp
  refine h.base first ?_
  rw [head?_append, hf]
  rfl

variable (revisions : List DocumentRevision)

theorem Chained.append (next : DocumentRevision) (h : Chained revisions) (hseq : ∀ r ∈ revisions, r.seq < next.seq)
    (hnext : ∀ last, revisions.getLast? = some last → Follows last next)
    (hfirst : revisions = [] → next.content.isBase = true) : Chained (revisions ++ [next]) := by
  refine ⟨fun first hf => ?_, ?_, ?_⟩
  · rw [head?_append] at hf
    cases hhead : revisions.head? with
    | some r =>
      rw [hhead] at hf
      exact h.base first (by rw [hhead]; exact hf)
    | none =>
      rw [hhead] at hf
      cases hf
      exact hfirst (head?_eq_none_iff.mp hhead)
  · refine h.follows.append (isChain_singleton next) ?_
    intro last hl first hf
    cases hf
    exact hnext last hl
  · rw [pairwise_append]
    refine ⟨h.ascending, pairwise_singleton _ _, ?_⟩
    intro r hr x hx
    rw [mem_singleton.mp hx]
    exact hseq r hr

theorem revisionsUpTo_isPrefix (h : Chained revisions) (point : DocumentPoint) :
    revisionsUpTo revisions point <+: revisions := by
  cases point with
  | current => exact prefix_refl _
  | «at» seq =>
    have htake := (takeWhile_eq_filter (fun a b : DocumentRevision => a.seq < b.seq)
      (fun revision => decide (revision.seq ≤ seq))
      (fun x y hxy hy => decide_eq_true (le_trans (le_of_lt hxy) (of_decide_eq_true hy))) revisions h.ascending).1
    change revisions.filter (fun revision => decide (revision.seq ≤ seq)) <+: revisions
    rw [← htake]
    exact takeWhile_prefix _

/-! ## Folding from the newest base -/

def revise (value : JsonValue) (revision : DocumentRevision) : Except StorageError JsonValue :=
  match revision.content with
  | .base _ value => .ok value
  | .delta _ ops =>
    match Delta.apply value ops with
    | .error e => .error (.delta e)
    | .ok value => .ok value

structure NewestBase (revisions : List DocumentRevision) (version : ℤ) (value : JsonValue)
    (deltas : List DocumentRevision) : Prop where
  split : ∃ before seq, revisions = before ++ ⟨.base version value, seq⟩ :: deltas
  deltas : ∀ r ∈ deltas, ∃ ops, r.content = .delta version ops

theorem splitBase_none (h : splitBase revisions = none) : ∀ r ∈ revisions, r.content.isBase = false := by
  induction revisions with
  | nil => simp
  | cons r rest ih =>
    rw [splitBase] at h
    split at h
    · cases h
    · rename_i hrest
      split at h
      · cases h
      · rename_i hc
        refine forall_mem_cons.mpr ⟨?_, ih hrest⟩
        rw [hc]
        rfl

theorem deltas_version (r : DocumentRevision) (rest : List DocumentRevision) (h : (r :: rest).IsChain Follows)
    (hdeltas : ∀ x ∈ rest, x.content.isBase = false) :
    ∀ x ∈ rest, ∃ ops, x.content = .delta r.content.version ops := by
  induction rest generalizing r with
  | nil => simp
  | cons x rest ih =>
    rw [isChain_cons_cons] at h
    have hx := hdeltas x (by simp)
    have hversion : x.content.version = r.content.version := by
      rcases h.1 with hb | hv
      · rw [hx] at hb
        cases hb
      · exact hv
    rw [forall_mem_cons]
    constructor
    · cases hc : x.content with
      | base v w =>
        rw [hc] at hx
        cases hx
      | delta v ops =>
        rw [hc] at hversion
        exact ⟨ops, by rw [← hversion]; rfl⟩
    · rw [← hversion]
      exact ih x h.2 (fun y hy => hdeltas y (by simp [hy]))

theorem splitBase_some (hchain : revisions.IsChain Follows) (version : ℤ)
    (value : JsonValue) (deltas : List DocumentRevision)
    (h : splitBase revisions = some (version, value, deltas)) : NewestBase revisions version value deltas := by
  induction revisions with
  | nil => cases h
  | cons r rest ih =>
    rw [splitBase] at h
    split at h
    · rename_i hrest
      cases h
      obtain ⟨⟨before, seq, hsplit⟩, hdeltas⟩ := ih hchain.tail hrest
      exact ⟨⟨r :: before, seq, by rw [hsplit]; rfl⟩, hdeltas⟩
    · rename_i hrest
      split at h
      · rename_i v w hc
        cases h
        have hall := deltas_version r deltas hchain (splitBase_none deltas hrest)
        rw [hc] at hall
        exact ⟨⟨[], r.seq, by rw [← hc]; rfl⟩, hall⟩
      · cases h

theorem newestBase (h : Chained revisions) (hne : revisions ≠ []) :
    ∃ version value deltas, splitBase revisions = some (version, value, deltas) ∧
      NewestBase revisions version value deltas := by
  cases hs : splitBase revisions with
  | some found =>
    obtain ⟨version, value, deltas⟩ := found
    exact ⟨version, value, deltas, rfl, splitBase_some revisions h.follows version value deltas hs⟩
  | none =>
    obtain ⟨first, rest, rfl⟩ := exists_cons_of_ne_nil hne
    have hbase := h.base first rfl
    have hnot := splitBase_none _ hs first (by simp)
    rw [hbase] at hnot
    cases hnot

variable (id : Id)

theorem applyDeltas_fold (version : ℤ) (deltas : List DocumentRevision)
    (h : ∀ r ∈ deltas, ∃ ops, r.content = .delta version ops) (value : JsonValue) :
    applyDeltas id version value deltas = deltas.foldlM revise value := by
  induction deltas generalizing value with
  | nil => rfl
  | cons r deltas ih =>
    obtain ⟨ops, hc⟩ := h r (by simp)
    rw [applyDeltas, foldlM_cons, revise, hc]
    simp only [ne_eq, not_true_eq_false, if_false]
    cases Delta.apply value ops with
    | error e => rfl
    | ok value => exact ih (fun x hx => h x (by simp [hx])) value

/-! ## The documents of a store -/

structure DocumentOk (nextSeq : Seq) (d : StoredDocumentState) : Prop where
  createdAt : d.record.createdAt < nextSeq
  retiredAt : ∀ retired, d.record.retiredAt = some retired → d.record.createdAt ≤ retired ∧ retired < nextSeq
  chained : Chained d.revisions
  bounded : ∀ r ∈ d.revisions, r.seq < nextSeq
  kept : d.record.retiredAt = none ∨ isCurrentOnly d.record.toDocumentCreate = false → d.revisions ≠ []
  first : isCurrentOnly d.record.toDocumentCreate = false →
    ∀ first, d.revisions.head? = some first → first.seq = d.record.createdAt

theorem DocumentOk.mono (nextSeq next : Seq) (d : StoredDocumentState) (h : DocumentOk nextSeq d)
    (hle : nextSeq ≤ next) : DocumentOk next d :=
  ⟨lt_of_lt_of_le h.createdAt hle, fun r hr => ⟨(h.retiredAt r hr).1, lt_of_lt_of_le (h.retiredAt r hr).2 hle⟩,
    h.chained, fun r hr => lt_of_lt_of_le (h.bounded r hr) hle, h.kept, h.first⟩

structure Readable (d : StoredDocumentState) (point : DocumentPoint) : Prop where
  alive : isAliveAt d.record point = true
  retained : point = .current ∨ isCurrentOnly d.record.toDocumentCreate = false

theorem revisionsUpTo_ne_nil (nextSeq : Seq) (d : StoredDocumentState) (h : DocumentOk nextSeq d)
    (point : DocumentPoint) (hr : Readable d point) : revisionsUpTo d.revisions point ≠ [] := by
  cases point with
  | current =>
    have halive := hr.alive
    rw [isAliveAt, Option.isNone_iff_eq_none] at halive
    exact h.kept (.inl halive)
  | «at» seq =>
    rcases hr.retained with hc | hkept
    · cases hc
    obtain ⟨first, rest, hd⟩ := exists_cons_of_ne_nil (h.kept (.inr hkept))
    have hfirst := h.first hkept first (by rw [hd]; rfl)
    have halive := hr.alive
    rw [isAliveAt, Bool.and_eq_true, decide_eq_true_eq] at halive
    rw [revisionsUpTo, hd]
    exact ne_nil_of_mem (mem_filter.mpr ⟨mem_cons_self, by simp [hfirst, halive.1]⟩)

theorem materializeDocument_fold (s : State) (id : Id) (d : StoredDocumentState) (point : DocumentPoint)
    (hd : s.documents id = some d) (h : DocumentOk s.nextSeq d) (hr : Readable d point) :
    ∃ version value deltas, NewestBase (revisionsUpTo d.revisions point) version value deltas ∧
      materializeDocument s id point = (deltas.foldlM revise value).map (fun value =>
        some { record := d.record, version, value, deltasSinceBase := deltas.length }) := by
  obtain ⟨version, value, deltas, hsplit, hbase⟩ := newestBase (revisionsUpTo d.revisions point)
    (h.chained.isPrefix _ _ (revisionsUpTo_isPrefix d.revisions h.chained point))
    (revisionsUpTo_ne_nil s.nextSeq d h point hr)
  refine ⟨version, value, deltas, hbase, ?_⟩
  unfold materializeDocument
  rw [hd]
  simp only
  rw [if_neg, if_neg, hsplit]
  · simp only
    rw [applyDeltas_fold id version deltas hbase.deltas]
    cases deltas.foldlM revise value with
    | error e => rfl
    | ok value => rfl
  · rw [hr.alive]
    exact Bool.noConfusion
  · rintro ⟨hne, hcurrent⟩
    rcases hr.retained with hc | hkept
    · exact hne hc
    · rw [hkept] at hcurrent
      cases hcurrent

/-! ## One more batch -/

theorem created_ok (stored : Option StoredDocumentState) (action : DocumentAction) (seq : Seq)
    (record : DocumentCreate) (version : ℤ) (value : JsonValue) (hc : action.create = some record)
    (hcontent : action.content = some (.base version value)) (d : StoredDocumentState)
    (hd : actionStored stored action seq = some d) : DocumentOk (seq + 1) d := by
  rw [actionStored_create stored action seq record version value hc hcontent] at hd
  cases hd
  refine ⟨Nat.lt_succ_self seq, fun retired hr => ?_, ?_, ?_, ?_, ?_⟩
  · simp only [createdRecord] at hr ⊢
    split at hr
    · cases hr
      exact ⟨le_refl seq, Nat.lt_succ_self seq⟩
    · cases hr
  · simp only
    split
    · exact chained_nil
    · exact chained_base version value seq
  · simp only
    intro r hr
    split at hr
    · cases hr
    · rw [mem_singleton.mp hr]
      exact Nat.lt_succ_self seq
  · rintro hkept hnil
    simp only at hnil
    split at hnil
    · rename_i hgone
      rcases hkept with hk | hk
      · simp [createdRecord, hgone.1] at hk
      · simp only [createdRecord] at hk
        rw [hgone.2] at hk
        cases hk
    · cases hnil
  · intro hkept first hf
    simp only at hf
    split at hf
    · cases hf
    · cases hf
      rfl

theorem nextRevisions_ok (nextSeq seq : Seq) (d : StoredDocumentState) (action : DocumentAction)
    (h : DocumentOk nextSeq d) (hle : nextSeq ≤ seq) (hlive : d.record.retiredAt = none)
    (hdelta : ∀ version ops, action.content = some (.delta version ops) →
      ∃ last, d.revisions.getLast? = some last ∧ last.content.version = version) :
    Chained (nextRevisions d action seq) ∧ (∀ r ∈ nextRevisions d action seq, r.seq < seq + 1) ∧
    (¬ (action.retire = true ∧ isCurrentOnly d.record.toDocumentCreate = true) → nextRevisions d action seq ≠ []) ∧
    (isCurrentOnly d.record.toDocumentCreate = false → (nextRevisions d action seq).head? = d.revisions.head?) := by
  have hkept := h.kept (.inl hlive)
  have hbound : ∀ r ∈ d.revisions, r.seq < seq + 1 := fun r hr =>
    Nat.lt_succ_of_lt (lt_of_lt_of_le (h.bounded r hr) hle)
  unfold nextRevisions
  split
  · rename_i hgone
    exact ⟨chained_nil, by simp, fun hnot => absurd hgone hnot, fun hk => by rw [hgone.2] at hk; cases hk⟩
  cases hcontent : action.content with
  | none => exact ⟨h.chained, hbound, fun _ => hkept, fun _ => rfl⟩
  | some content =>
    simp only
    split
    · rename_i hreplace
      cases content with
      | delta version ops => cases hreplace.1
      | base version value =>
        refine ⟨chained_base version value seq, by simp, by simp, fun hk => ?_⟩
        rw [hreplace.2] at hk
        cases hk
    · refine ⟨h.chained.append _ _ ?_ ?_ ?_, ?_, by simp, fun _ => ?_⟩
      · intro r hr
        exact lt_of_lt_of_le (h.bounded r hr) hle
      · intro last hlast
        cases content with
        | base version value => exact .inl rfl
        | delta version ops =>
          obtain ⟨previous, hprevious, hversion⟩ := hdelta version ops hcontent
          rw [hlast] at hprevious
          cases hprevious
          exact .inr hversion.symm
      · intro hnil
        exact absurd hnil hkept
      · intro r hr
        rcases mem_append.mp hr with hr | hr
        · exact hbound r hr
        · rw [mem_singleton.mp hr]
          exact Nat.lt_succ_self seq
      · obtain ⟨first, rest, hd⟩ := exists_cons_of_ne_nil hkept
        rw [hd]
        rfl

theorem existing_ok (nextSeq seq : Seq) (d d' : StoredDocumentState) (action : DocumentAction)
    (h : DocumentOk nextSeq d) (hle : nextSeq ≤ seq) (hlive : d.record.retiredAt = none)
    (hc : action.create = none)
    (hdelta : ∀ version ops, action.content = some (.delta version ops) →
      ∃ last, d.revisions.getLast? = some last ∧ last.content.version = version)
    (hd : actionStored (some d) action seq = some d') : DocumentOk (seq + 1) d' := by
  rw [actionStored_existing d action seq hc] at hd
  cases hd
  obtain ⟨hchained, hbounded, hne, hhead⟩ := nextRevisions_ok nextSeq seq d action h hle hlive hdelta
  have hcreated := lt_of_lt_of_le h.createdAt hle
  have hrecord : (if action.retire = true then { d.record with retiredAt := some seq } else d.record).toDocumentCreate =
      d.record.toDocumentCreate := by split <;> rfl
  have hat : (if action.retire = true then { d.record with retiredAt := some seq } else d.record).createdAt =
      d.record.createdAt := by split <;> rfl
  refine ⟨?_, ?_, hchained, hbounded, ?_, ?_⟩
  · simp only [hat]
    exact Nat.lt_succ_of_lt hcreated
  · intro retired hr
    simp only at hr ⊢
    rw [hat]
    split at hr
    · cases hr
      exact ⟨le_of_lt hcreated, Nat.lt_succ_self seq⟩
    · rw [hlive] at hr
      cases hr
  · simp only [hrecord]
    intro hkept
    refine hne (fun hgone => ?_)
    rw [if_pos hgone.1, hgone.2] at hkept
    rcases hkept with hk | hk <;> cases hk
  · simp only [hrecord, hat]
    intro hk first hf
    rw [hhead hk] at hf
    exact h.first hk first hf

theorem actionStored_ok (s : State) (seq : Seq) (id : Id) (action : DocumentAction) (hok : ActionOk s id action)
    (hle : s.nextSeq ≤ seq) (h : ∀ d, s.documents id = some d → DocumentOk s.nextSeq d) (d' : StoredDocumentState)
    (hd : actionStored (s.documents id) action seq = some d') : DocumentOk (seq + 1) d' := by
  cases hc : action.create with
  | some record =>
    obtain ⟨-, -, version, value, hcontent⟩ := hok.create record hc
    exact created_ok _ action seq record version value hc hcontent d' hd
  | none =>
    obtain ⟨d, hstored, hlive, hdelta⟩ := hok.existing hc
    rw [hstored] at hd
    exact existing_ok s.nextSeq seq d d' action (h d hstored) hle hlive hc hdelta hd

end PiAgent.Durable
