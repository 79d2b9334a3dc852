import PiAgent.Session.BranchedContext

/-!
# Branched sessions

A session that `createBranchedSession` leaves is the conversation of the path to the
entry, in memory and in its file.
-/

namespace PiAgent.Session

open List Assoc

/-! ## Labels that are written again -/

variable (labels : List ((EntryId × JsString) × Time)) (labelIds : List EntryId) (parentId : Option EntryId)

theorem labelEntries_isLabel : ∀ e ∈ Manager.labelEntries parentId labels labelIds, e.isLabel = true := by
  induction labels generalizing labelIds parentId with
  | nil => simp [Manager.labelEntries]
  | cons label labels ih =>
    cases labelIds with
    | nil => simp [Manager.labelEntries]
    | cons id labelIds =>
      intro e he
      rw [Manager.labelEntries] at he
      rcases mem_cons.mp he with rfl | he
      · rfl
      · exact ih labelIds (some id) e he

theorem ids_labelEntries : (ids (Manager.labelEntries parentId labels labelIds)).Sublist labelIds := by
  induction labels generalizing labelIds parentId with
  | nil => simp [Manager.labelEntries]
  | cons label labels ih =>
    cases labelIds with
    | nil => simp [Manager.labelEntries]
    | cons id labelIds =>
      rw [Manager.labelEntries, ids_cons]
      exact (ih labelIds (some id)).cons_cons id

variable (path : List Entry)

theorem linear_labelEntries (h : Linear path) :
    Linear (path ++ Manager.labelEntries (path.getLast?.map Entry.id) labels labelIds) := by
  induction labels generalizing labelIds path with
  | nil => simpa [Manager.labelEntries] using h
  | cons label labels ih =>
    cases labelIds with
    | nil => simpa [Manager.labelEntries] using h
    | cons id labelIds =>
      rw [Manager.labelEntries]
      have hnext := ih labelIds (path ++ [⟨id, path.getLast?.map Entry.id, label.2, .label label.1.1 (some label.1.2)⟩])
        (h.snoc _ rfl)
      rw [getLast?_concat, Option.map_some, append_assoc, singleton_append] at hnext
      exact hnext

theorem foldl_labelEntries (texts : List (EntryId × JsString)) (times : List (EntryId × Time))
    (hlen : labels.length ≤ labelIds.length) (hfilled : ∀ label ∈ labels, label.1.2 ≠ [])
    (hkeys : keys times = keys texts)
    (hn : (keys texts ++ labels.map (fun label => label.1.1)).Nodup) :
    (Manager.labelEntries parentId labels labelIds).foldl applyLabel (texts, times) =
      (texts ++ labels.map Prod.fst, times ++ labels.map (fun label => (label.1.1, label.2))) := by
  induction labels generalizing labelIds parentId texts times with
  | nil => simp [Manager.labelEntries]
  | cons label labels ih =>
    cases labelIds with
    | nil => simp at hlen
    | cons id labelIds =>
      obtain ⟨⟨targetId, text⟩, time⟩ := label
      have hfill : text ≠ [] := hfilled _ (mem_cons_self ..)
      have hnew : targetId ∉ keys texts := by
        intro hmem
        exact (nodup_append.mp hn).2.2 _ hmem _ (mem_cons_self ..) rfl
      have happly : applyLabel (texts, times) ⟨id, parentId, time, .label targetId (some text)⟩ =
          (texts ++ [(targetId, text)], times ++ [(targetId, time)]) := by
        have htruthy : Manager.truthy (some text) = some text := by
          simp [Manager.truthy, hfill]
        simp only [applyLabel, htruthy]
        rw [set_new _ _ _ hnew, set_new _ _ _ (hkeys ▸ hnew)]
      rw [Manager.labelEntries, foldl_cons, happly, ih labelIds (some id)]
      · simp
      · simpa using hlen
      · exact fun label hl => hfilled label (mem_cons_of_mem _ hl)
      · unfold Assoc.keys at hkeys ⊢
        rw [map_append, map_append, hkeys]
        rfl
      · unfold Assoc.keys at hn ⊢
        simpa using hn

theorem get?_map_key {α β : Type} (f : EntryId → α → β) (l : List (EntryId × α)) (k : EntryId) :
    get? (l.map (fun entry => (entry.1, f entry.1 entry.2))) k = (get? l k).map (f k) := by
  induction l with
  | nil => rfl
  | cons entry l ih =>
    obtain ⟨j, v⟩ := entry
    rw [map_cons, get?_cons, get?_cons, ih]
    split
    · rename_i h
      rw [h]
      rfl
    · rfl

def FreshLabelIds (m : Manager) (leafId : EntryId) (labelIds : List EntryId) : Prop :=
  (ids (strip (getBranch m.byId (some leafId))) ++ labelIds).Nodup ∧
    (m.labelsToWrite (ids (strip (getBranch m.byId (some leafId))))).length ≤ labelIds.length

/-! ## What a branched session has -/

structure Extracts (m : Manager) (leafId : EntryId) (m' : Manager) : Prop where
  context : m'.buildSessionContext = ({ m with leafId := some leafId } : Manager).buildSessionContext
  entries : List.Forall₂ Same (strip (getBranch m.byId (some leafId))) (strip m'.entries)
  labels : ∀ k, get? m'.labelsById k =
    if k ∈ ids (strip (getBranch m.byId (some leafId))) then get? m.labelsById k else none
  timestamps : ∀ k, get? m'.labelTimestampsById k =
    if k ∈ ids (strip (getBranch m.byId (some leafId))) then get? m.labelTimestampsById k else none
  parents : IsTree m'.entries

def branchedEntries (m : Manager) (leafId : EntryId) (labelIds : List EntryId) : List Entry :=
  let path := relabel [] (getBranch m.byId (some leafId))
  path ++ Manager.labelEntries (path.getLast?.map Entry.id) (m.labelsToWrite (ids path)) labelIds

theorem linear_relabel : Linear (relabel [] path) := by
  intro before e after h
  rw [relabel_linear [] path before e after h]
  unfold ids
  simp

theorem branchedEntries_linear (m : Manager) (leafId : EntryId) (labelIds : List EntryId) :
    Linear (branchedEntries m leafId labelIds) := linear_labelEntries _ _ _ (linear_relabel _)

variable {m : Manager}

theorem branchedEntries_nodup {leafId : EntryId} {labelIds : List EntryId}
    (hf : FreshLabelIds m leafId labelIds) : (ids (branchedEntries m leafId labelIds)).Nodup := by
  unfold branchedEntries
  rw [ids_append, ids_relabel]
  exact hf.1.sublist ((List.Sublist.refl _).append (ids_labelEntries _ _ _))

theorem applyLabel_other (labels : List (EntryId × JsString) × List (EntryId × Time)) (e : Entry)
    (h : e.isLabel = false) : applyLabel labels e = labels := by
  obtain ⟨id, parentId, timestamp, body⟩ := e
  cases body with
  | label => cases h
  | _ => rfl

theorem labelsOf_branched {leafId : EntryId} {labelIds : List EntryId} (hl : LabelsWf m)
    (hf : FreshLabelIds m leafId labelIds) :
    labelsOf (branchedEntries m leafId labelIds) =
      ((m.labelsToWrite (ids (strip (getBranch m.byId (some leafId))))).map Prod.fst,
        (m.labelsToWrite (ids (strip (getBranch m.byId (some leafId))))).map (fun label => (label.1.1, label.2))) := by
  have hnone : ∀ (entries : List Entry) (labels : List (EntryId × JsString) × List (EntryId × Time)),
      strip entries = entries → entries.foldl applyLabel labels = labels := by
    intro entries labels hs
    have hall : ∀ e ∈ entries, e.isLabel = false := fun e he => by
      simpa using filter_eq_self.mp hs e he
    clear hs
    induction entries generalizing labels with
    | nil => rfl
    | cons e entries ih =>
      rw [foldl_cons, applyLabel_other labels e (hall e (mem_cons_self ..))]
      exact ih _ (fun x hx => hall x (mem_cons_of_mem _ hx))
  unfold labelsOf branchedEntries
  rw [foldl_append, hnone _ _ (strip_of_same (relabel_same [] _)), ids_relabel, foldl_labelEntries]
  · simp
  · exact hf.2
  · intro label hmem
    unfold Manager.labelsToWrite at hmem
    obtain ⟨x, hx, rfl⟩ := mem_map.mp hmem
    exact hl.filled x (mem_filter.mp hx).1
  · rfl
  · unfold Manager.labelsToWrite
    rw [map_map]
    have hsub := (filter_sublist (l := m.labelsById)
      (p := fun label => label.1 ∈ ids (strip (getBranch m.byId (some leafId))))).map Prod.fst
    exact hl.labels.sublist hsub

variable {codec : Codec}

theorem extracts_of_index {m : Manager} (h : Invariant codec m) {leafId : EntryId}
    {labelIds : List EntryId} (hid : leafId ∈ ids m.entries) (hf : FreshLabelIds m leafId labelIds) {m' : Manager}
    (he : m'.entries = branchedEntries m leafId labelIds) (hb : m'.byId = indexOf m'.entries)
    (hleaf : m'.leafId = m'.entries.getLast?.map Entry.id)
    (hl : (m'.labelsById, m'.labelTimestampsById) = labelsOf m'.entries) : Extracts m leafId m' := by
  obtain ⟨e, hmem, rfl⟩ := mem_map.mp hid
  have hnodup := branchedEntries_nodup hf
  have hlinear := branchedEntries_linear m e.id labelIds
  have hpath : (ids (getBranch m.byId (some e.id))).Nodup := by
    rw [h.byId]
    exact h.tree.nodup.sublist ((branch_spec h.tree (some e.id)).2.map Entry.id)
  have hlabelled := labelEntries_isLabel
    (m.labelsToWrite (ids (relabel [] (getBranch m.byId (some e.id))))) labelIds
    ((relabel [] (getBranch m.byId (some e.id))).getLast?.map Entry.id)
  rw [he] at hl
  rw [labelsOf_branched h.labels hf] at hl
  obtain ⟨hl1, hl2⟩ := Prod.mk.inj hl
  refine ⟨?_, ?_, ?_, ?_, ?_⟩
  · have hnew : m'.buildSessionContext = contextOf (branchedEntries m e.id labelIds) := by
      unfold Manager.buildSessionContext buildSessionContext
      rw [hb, hleaf, he, (buildSessionPath_linear hlinear hnodup).2]
    have hold : ({ m with leafId := some e.id } : Manager).buildSessionContext = contextOf (getBranch m.byId (some e.id)) := by
      unfold Manager.buildSessionContext buildSessionContext
      show contextOf (buildSessionPath m.entries (.ofOption (some e.id)) m.byId) = _
      rw [h.byId, buildSessionPath_at h.tree e hmem]
    rw [hnew, hold]
    exact contextOf_relabel _ _ hpath hlabelled
  · rw [he]
    unfold branchedEntries
    rw [strip_append, strip_of_same (relabel_same [] _), strip_labels hlabelled, append_nil]
    exact relabel_same [] _
  · intro k
    have hwritten : (m.labelsToWrite (ids (strip (getBranch m.byId (some e.id))))).map Prod.fst =
        m.labelsById.filter (fun label => label.1 ∈ ids (strip (getBranch m.byId (some e.id)))) := by
      simp [Manager.labelsToWrite, Function.comp_def]
    rw [hl1, hwritten]
    simpa using get?_filter m.labelsById (fun key => key ∈ ids (strip (getBranch m.byId (some e.id)))) k
  · intro k
    rw [hl2]
    unfold Manager.labelsToWrite
    rw [map_map]
    have hmap := get?_map_key (fun (key : EntryId) (_ : JsString) => (get? m.labelTimestampsById key).getD 0)
      (m.labelsById.filter (fun label => label.1 ∈ ids (strip (getBranch m.byId (some e.id))))) k
    refine hmap.trans ?_
    have hfilter := get?_filter m.labelsById (fun key => key ∈ ids (strip (getBranch m.byId (some e.id)))) k
    rw [hfilter]
    have hhas := h.labels.timestamps k
    unfold has at hhas
    by_cases hk : k ∈ ids (strip (getBranch m.byId (some e.id)))
    · rw [if_pos (by simpa using hk), if_pos hk]
      cases ht : get? m.labelTimestampsById k with
      | none =>
        rw [ht] at hhas
        cases hlk : get? m.labelsById k with
        | none => rfl
        | some label => simp [hlk] at hhas
      | some time =>
        rw [ht] at hhas
        cases hlk : get? m.labelsById k with
        | none => simp [hlk] at hhas
        | some label => rfl
    · rw [if_neg (by simpa using hk), if_neg hk]
      rfl
  · rw [he]
    exact hlinear.isTree hnodup

theorem createBranchedSession_spec {m : Manager} (h : Invariant codec m) (header : Header)
    {leafId : EntryId} {labelIds : List EntryId} (hid : leafId ∈ ids m.entries) (hf : FreshLabelIds m leafId labelIds) :
    ∃ m', m.createBranchedSession codec leafId header labelIds = some m' ∧
      m'.entries = branchedEntries m leafId labelIds ∧ m'.byId = indexOf m'.entries ∧
      m'.leafId = m'.entries.getLast?.map Entry.id ∧
      (m'.labelsById, m'.labelTimestampsById) = labelsOf m'.entries ∧ LabelsWf m' ∧ m'.persist = m.persist ∧
      m'.file = (if m'.flushed then some (m'.fileText codec) else none) ∧ (m'.flushed = true → m'.persist = true) := by
  have hpath : (ids (getBranch m.byId (some leafId))).Nodup := by
    rw [h.byId]
    exact h.tree.nodup.sublist ((branch_spec h.tree (some leafId)).2.map Entry.id)
  have hne : (getBranch m.byId (some leafId)).isEmpty = false := by
    obtain ⟨e, hmem, rfl⟩ := mem_map.mp hid
    obtain ⟨path, hbranch, -, -⟩ := getBranch_spec h.tree e hmem
    rw [h.byId, hbranch]
    cases path <;> rfl
  have hwithout : Manager.withoutLabels none [] [] (getBranch m.byId (some leafId)) =
      relabel [] (getBranch m.byId (some leafId)) :=
    withoutLabels_eq _ [] none [] [] (by simpa using hpath) rfl (by simp) (fun id _ => rfl)
  obtain ⟨g1, g2, g3, g4, g5, g6, g7, g8, g9⟩ := buildIndex_spec
    { m with header := header, entries := branchedEntries m leafId labelIds } (branchedEntries_nodup hf)
  have hcreate : m.createBranchedSession codec leafId header labelIds =
      (let branched := Manager.buildIndex { m with header := header, entries := branchedEntries m leafId labelIds }
        if !m.persist then some branched
        else if branched.hasConversation then
          some { branched with file := some (branched.fileText codec), flushed := true }
        else some { branched with file := none, flushed := false }) := by
    unfold Manager.createBranchedSession
    simp only [hne, hwithout, Bool.false_eq_true, if_false]
    rfl
  simp only at hcreate
  generalize Manager.buildIndex { m with header := header, entries := branchedEntries m leafId labelIds } = branched
    at hcreate g1 g2 g3 g4 g5 g6 g7 g8 g9
  have g1' : branched.entries = branchedEntries m leafId labelIds := g1
  rw [← g1'] at g6 g7 g8
  rw [hcreate]
  cases hp : m.persist with
  | false =>
    have hflushed : m.flushed = false := by
      cases hfl : m.flushed with
      | false => rfl
      | true => simp [h.flushed hfl] at hp
    have hfile := h.file
    simp only [hflushed, Bool.false_eq_true, if_false] at hfile
    refine ⟨branched, by simp, g1', g6, g7, g8, g9, g5.trans hp, ?_, ?_⟩
    · rw [g4, g3]
      simp [hfile, hflushed]
    · rw [g3]
      simp [hflushed]
  | true =>
    have hpersist : branched.persist = true := g5.trans hp
    cases hconv : branched.hasConversation with
    | true =>
      exact ⟨{ branched with file := some (branched.fileText codec), flushed := true }, by simp, g1', g6, g7, g8,
        ⟨g9.labels, g9.timestamps, g9.filled⟩, hpersist, rfl, fun _ => hpersist⟩
    | false =>
      exact ⟨{ branched with file := none, flushed := false }, by simp, g1', g6, g7, g8,
        ⟨g9.labels, g9.timestamps, g9.filled⟩, hpersist, rfl, fun _ => hpersist⟩

/-! ## Edits in a branched session -/

theorem editable_not_label {e : Entry} (h : Manager.editable e = true) : e.isLabel = false := by
  obtain ⟨id, parentId, timestamp, body⟩ := e
  cases body with
  | label => cases h
  | _ => rfl

theorem Same.editable {e e' : Entry} (h : Same e e') : Manager.editable e' = Manager.editable e := by
  obtain ⟨id, parentId, timestamp, body⟩ := e
  obtain ⟨id', parentId', timestamp', body'⟩ := e'
  obtain ⟨-, -, hb⟩ := h
  cases hb <;> rfl

theorem forall₂_mem {R : Entry → Entry → Prop} {a b : List Entry} (h : List.Forall₂ R a b) {x : Entry} (hx : x ∈ a) :
    ∃ y ∈ b, R x y := by
  induction h with
  | nil => cases hx
  | cons hr _ ih =>
    rcases mem_cons.mp hx with rfl | hx
    · exact ⟨_, mem_cons_self .., hr⟩
    · obtain ⟨y, hy, hxy⟩ := ih hx
      exact ⟨y, mem_cons_of_mem _ hy, hxy⟩

theorem relabel_edits (h : EditsBefore path) : EditsBefore (relabel [] path) := by
  induction path using List.reverseRecOn with
  | nil => exact EditsBefore.nil
  | append_singleton path e ih =>
    rw [relabel_append, nil_append, relabel, relabel]
    have hpath := ih h.of_append
    cases hl : e.isLabel with
    | true => simpa using hpath
    | false =>
      rw [if_neg (by simp)]
      refine hpath.snoc _ ?_
      intro targetId replacement hbody
      have he : e.body = .contextEdit targetId replacement := by
        have hkeep : keepFrom (path ++ [e]) e.body = .contextEdit targetId replacement := hbody
        cases hb : e.body with
        | compaction c =>
          rw [hb] at hkeep
          cases hkeep
        | _ =>
          rw [hb] at hkeep
          exact hkeep
      obtain ⟨target, hmem, hid, hedit⟩ := h path e [] targetId replacement rfl he
      have hstrip : target ∈ strip path := mem_filter.mpr ⟨hmem, by simp [editable_not_label hedit]⟩
      obtain ⟨target', hmem', hst⟩ := forall₂_mem (relabel_same [] path) hstrip
      exact ⟨target', hmem', hst.id.trans hid, hst.editable.trans hedit⟩

theorem EditsBefore.append_labels {path : List Entry} (h : EditsBefore path) (labels : List Entry)
    (hl : ∀ e ∈ labels, e.isLabel = true) : EditsBefore (path ++ labels) := by
  induction labels using List.reverseRecOn with
  | nil => simpa using h
  | append_singleton labels e ih =>
    rw [← append_assoc]
    refine (ih (fun x hx => hl x (mem_append_left _ hx))).snoc e ?_
    intro targetId replacement hb
    have he : e.isLabel = true := hl e (by simp)
    unfold Entry.isLabel at he
    rw [hb] at he
    cases he

theorem linear_edits {path : List Entry} (h : Linear path) (hn : (ids path).Nodup) (hedits : EditsBefore path) :
    ∀ e ∈ path, EditsBefore (getBranch (indexOf path) (some e.id)) := by
  intro e he
  obtain ⟨before, after, heq⟩ := append_of_mem he
  have hwalk := walk_linear h hn (indexOf path).length before e after heq (by
    rw [length_indexOf, heq]
    simp)
  unfold getBranch
  rw [Option.bind_some, get?_indexOf path hn e he, hwalk]
  rw [heq, show before ++ e :: after = (before ++ [e]) ++ after by simp] at hedits
  exact hedits.of_append

variable {m m' : Manager}

theorem Invariant.branched (h : Invariant codec m) {leafId : EntryId} {header : Header}
    {labelIds : List EntryId} (hf : FreshLabelIds m leafId labelIds)
    (hc : m.createBranchedSession codec leafId header labelIds = some m') : Invariant codec m' := by
  have hid : leafId ∈ ids m.entries := by
    by_contra hno
    have hnone : get? m.byId leafId = none := by
      rw [h.byId]
      exact (get?_indexOf_none _ _).mpr hno
    have hempty : getBranch m.byId (some leafId) = [] := by simp [getBranch, hnone]
    simp [Manager.createBranchedSession, hempty] at hc
  obtain ⟨m₁, hm₁, he, hb, hleaf, -, hl, -, hfile, hflushed⟩ := createBranchedSession_spec h header hid hf
  obtain rfl : m₁ = m' := Option.some.inj (hm₁.symm.trans hc)
  have hnodup := branchedEntries_nodup hf
  have hlinear := branchedEntries_linear m leafId labelIds
  have hpath : EditsBefore (getBranch m.byId (some leafId)) := by
    rw [h.byId]
    exact branch_edits h _
  refine ⟨he ▸ hlinear.isTree hnodup, hb, ?_, hl, ?_, hfile, hflushed⟩
  · intro l hleaf'
    rw [hleaf] at hleaf'
    obtain ⟨e, hlast, rfl⟩ := Option.map_eq_some_iff.mp hleaf'
    exact mem_map_of_mem (mem_of_getLast? hlast)
  · rw [he]
    exact linear_edits hlinear hnodup ((relabel_edits _ hpath).append_labels _ (labelEntries_isLabel _ _ _))

/-! ## Reopening -/

theorem newSession_invariant (codec : Codec) (persist : Bool) (header : Header) :
    Invariant codec (Manager.newSession persist header) := by
  refine ⟨IsTree.nil, rfl, ?_, ⟨nodup_nil, fun _ => rfl, by simp [Manager.newSession]⟩, ?_, rfl, ?_⟩
  · intro l h
    cases h
  · intro e he
    cases he
  · intro h
    cases h

theorem reopen_spec (h : Invariant codec m) (fresh : Header) (hfl : m.flushed = true)
    (hr : ∀ e ∈ m.fileEntries, codec.Reads e) (ho : Manager.reopen codec fresh m.file = some m') :
    m'.entries = m.entries ∧ m'.byId = indexOf m.entries ∧ m'.leafId = m.entries.getLast?.map Entry.id ∧
      (m'.labelsById, m'.labelTimestampsById) = labelsOf m.entries ∧ m'.header = m.header ∧ LabelsWf m' ∧
      m'.file = some (m.fileText codec) ∧ m'.flushed = true ∧ m'.persist = true := by
  have hfile := h.file
  rw [hfl, if_pos rfl] at hfile
  rw [hfile, reopen_written codec m fresh hr] at ho
  obtain rfl := Option.some.inj ho
  obtain ⟨g1, g2, g3, g4, g5, g6, g7, g8, g9⟩ := buildIndex_spec
    { Manager.newSession true m.header with
      entries := m.entries, flushed := true, file := some (m.fileText codec) } h.tree.nodup
  exact ⟨g1, g6, g7, g8, g2, g9, g4, g3, g5⟩

theorem Invariant.reopened (h : Invariant codec m) (fresh : Header)
    (hr : ∀ e ∈ m.fileEntries, codec.Reads e) (ho : Manager.reopen codec fresh m.file = some m') :
    Invariant codec m' := by
  cases hfl : m.flushed with
  | false =>
    have hfile := h.file
    rw [hfl, if_neg (by simp)] at hfile
    rw [hfile] at ho
    obtain rfl := Option.some.inj ho
    exact newSession_invariant codec true fresh
  | true =>
    obtain ⟨g1, g2, g3, -, g5, g6, g7, g8, g9⟩ := reopen_spec h fresh hfl hr ho
    refine ⟨g1 ▸ h.tree, by rw [g2, g1], ?_, g6, ?_, ?_, fun _ => g9⟩
    · intro l hl
      rw [g3] at hl
      obtain ⟨e, hlast, rfl⟩ := Option.map_eq_some_iff.mp hl
      rw [g1]
      exact mem_map_of_mem (mem_of_getLast? hlast)
    · rw [g1]
      exact h.edits
    · rw [g7, g8, if_pos rfl]
      unfold Manager.fileText Manager.fileEntries
      rw [g1, g5]

/-! ## Moving the leaf -/

theorem Invariant.branch (h : Invariant codec m) {branchFromId : EntryId}
    (hb : m.branch branchFromId = some m') : Invariant codec m' := by
  unfold Manager.branch at hb
  split at hb
  · rename_i hhas
    obtain rfl := Option.some.inj hb
    refine ⟨h.tree, h.byId, ?_, ⟨h.labels.labels, h.labels.timestamps, h.labels.filled⟩, h.edits, h.file, h.flushed⟩
    intro l hl
    rw [← Option.some.inj hl]
    rw [h.byId] at hhas
    exact (has_indexOf _ _).mp hhas
  · cases hb

theorem Invariant.resetLeaf {m : Manager} (h : Invariant codec m) : Invariant codec m.resetLeaf := by
  refine ⟨h.tree, h.byId, ?_, ⟨h.labels.labels, h.labels.timestamps, h.labels.filled⟩, h.edits, h.file, h.flushed⟩
  intro l hl
  cases hl

/-! ## Sessions that operations build -/

inductive Built (codec : Codec) : Manager → Prop
  | new (persist : Bool) (header : Header) : Built codec (Manager.newSession persist header)
  | append {m m' : Manager} (h : Built codec m) (op : Manager.AppendOp) (id : EntryId) (time : Time)
      (hfresh : id ∉ ids m.entries) (ha : m.append codec op id time .succeeds = .done m') : Built codec m'
  | branch {m m' : Manager} (h : Built codec m) (branchFromId : EntryId) (hb : m.branch branchFromId = some m') :
      Built codec m'
  | resetLeaf {m : Manager} (h : Built codec m) : Built codec m.resetLeaf
  | branched {m m' : Manager} (h : Built codec m) (leafId : EntryId) (header : Header) (labelIds : List EntryId)
      (hf : FreshLabelIds m leafId labelIds) (hc : m.createBranchedSession codec leafId header labelIds = some m') :
      Built codec m'
  | reopened {m m' : Manager} (h : Built codec m) (fresh : Header) (hr : ∀ e ∈ m.fileEntries, codec.Reads e)
      (ho : Manager.reopen codec fresh m.file = some m') : Built codec m'

theorem Built.invariant {m : Manager} (h : Built codec m) : Invariant codec m := by
  induction h with
  | new persist header => exact newSession_invariant codec persist header
  | append _ op id time hfresh ha ih => exact ih.append hfresh ha
  | branch _ branchFromId hb ih => exact ih.branch hb
  | resetLeaf _ ih => exact ih.resetLeaf
  | branched _ leafId header labelIds hf hc ih => exact ih.branched hf hc
  | reopened _ fresh hr ho ih => exact ih.reopened fresh hr ho

/-- Branch extraction preserves the conversation of the path to an entry, in memory and in the file. -/
theorem createBranchedSession_extracts (codec : Codec) (m : Manager) (hm : Built codec m) (leafId : EntryId)
    (hid : leafId ∈ ids m.entries) (header fresh : Header) (labelIds : List EntryId) (hf : FreshLabelIds m leafId labelIds) :
    ∃ m', m.createBranchedSession codec leafId header labelIds = some m' ∧ Extracts m leafId m' ∧
      (m'.flushed = true → (∀ e ∈ m'.fileEntries, codec.Reads e) →
        ∃ m'', Manager.reopen codec fresh m'.file = some m'' ∧ Extracts m leafId m'') := by
  have h := hm.invariant
  obtain ⟨m', hc, he, hb, hleaf, hl, -, -, hfile, -⟩ := createBranchedSession_spec h header hid hf
  refine ⟨m', hc, extracts_of_index h hid hf he hb hleaf hl, ?_⟩
  intro hflushed hr
  have h' := h.branched hf hc
  rw [hflushed, if_pos rfl] at hfile
  have ho := reopen_written codec m' fresh hr
  rw [← hfile] at ho
  obtain ⟨g1, g2, g3, g4, -⟩ := reopen_spec h' fresh hflushed hr ho
  exact ⟨_, ho, extracts_of_index h hid hf (g1.trans he) (by rw [g2, g1]) (by rw [g3, g1]) (by rw [g4, g1])⟩

/-! ## A session of two notes -/

def ascii (text : JsString) : Bytes := text.map (fun u => u.toUInt8)

def noteHeader : Header := { id := js "s1", timestamp := 0, cwd := js "/", parentSession := none }

def note (id : EntryId) (parentId : Option EntryId) (body : EntryBody) : Entry :=
  { id := id, parentId := parentId, timestamp := 0, body := body }

def noteMessage : Message := .user (some (.text (js "hi"))) 0

def noteEntry : Entry := note (js "e1") none (.message noteMessage)

def noteLabel : Entry := note (js "l1") (some (js "e1")) (.label (js "e1") (some (js "start")))

/-- A note after the label. -/
def secondNote : Entry := note (js "e2") (some (js "l1")) (.message noteMessage)

def noteSummary (firstKeptEntryId : EntryId) : Entry := note (js "c1") (some (js "e2")) (.compaction
  { summary := js "notes", firstKeptEntryId := firstKeptEntryId, tokensBefore := 3, systemMessage := none
    rest := .obj [] })

def branchHeader : Header := { noteHeader with id := js "s2" }

/-- The branch: the label is written at its end, and the summary keeps from the note that followed it. -/
def branchEntries : List Entry := [noteEntry, { secondNote with parentId := some (js "e1") }, noteSummary (js "e2"),
  { noteLabel with id := js "l2", parentId := some (js "c1") }]

def jsonString (text : JsString) : JsString := js "\"" ++ text ++ js "\""

def entryText (type : String) (entry : Entry) (rest : JsString) : JsString :=
  js "\x7b\"type\":\"" ++ js type ++ js "\",\"id\":" ++ jsonString entry.id ++ js ",\"parentId\":" ++
    (entry.parentId.map jsonString).getD (js "null") ++ js ",\"timestamp\":\"1970-01-01T00:00:00.000Z\"," ++
    rest ++ js "\x7d"

/-- How these headers, notes, labels and summaries are written. -/
def noteText : FileEntry → JsString
  | .session header => js "\x7b\"type\":\"session\",\"version\":3,\"id\":" ++ jsonString header.id ++
      js ",\"timestamp\":\"1970-01-01T00:00:00.000Z\",\"cwd\":\"/\"\x7d"
  | .entry entry =>
    match entry.body with
    | .label targetId label => entryText "label" entry
        (js "\"targetId\":" ++ jsonString targetId ++ js ",\"label\":" ++ jsonString (label.getD []))
    | .compaction c => entryText "compaction" entry (js "\"summary\":" ++ jsonString c.summary ++
        js ",\"firstKeptEntryId\":" ++ jsonString c.firstKeptEntryId ++ js ",\"tokensBefore\":3")
    | _ => entryText "message" entry
        (js "\"message\":\x7b\"role\":\"user\",\"content\":\"hi\",\"timestamp\":0\x7d")

def noteTable : List FileEntry :=
  .session noteHeader :: .session branchHeader ::
    ([noteLabel, secondNote, noteSummary (js "l1")] ++ branchEntries).map .entry

def noteCodec : Codec where
  stringify e := ascii (noteText e)
  parseSessionEntryLine line := noteTable.find? (fun e => ascii (noteText e) = line)

set_option maxRecDepth 8000 in
theorem noteTable_texts : (noteTable.map noteCodec.stringify).Pairwise (fun a b => ¬a <+: b ∧ ¬b <+: a) ∧
    ∀ text ∈ noteTable.map noteCodec.stringify, text ≠ [] ∧ (10 : UInt8) ∉ text := by
  decide +kernel

theorem noteCodec_reads (e : FileEntry) (he : e ∈ noteTable) : noteCodec.Reads e := by
  obtain ⟨hpairs, htexts⟩ := noteTable_texts
  rw [pairwise_map] at hpairs
  obtain ⟨hfilled, hline⟩ := htexts _ (mem_map_of_mem he)
  obtain ⟨before, after, htable⟩ := append_of_mem he
  rw [htable, pairwise_append, pairwise_cons] at hpairs
  obtain ⟨-, ⟨hafter, -⟩, hbefore⟩ := hpairs
  refine ⟨?_, hfilled, hline, fun n hn => ?_⟩
  · refine find?_eq_some_iff_append.mpr ⟨by simp [noteCodec], before, after, htable, fun d hd => ?_⟩
    simp only [Bool.not_eq_true', decide_eq_false_iff_not]
    intro heq
    exact (hbefore d hd e mem_cons_self).1 (heq ▸ List.prefix_refl _)
  · refine find?_eq_none.mpr (fun d hd heq => ?_)
    have htake : noteCodec.stringify d = (noteCodec.stringify e).take n := of_decide_eq_true heq
    have hpre : noteCodec.stringify d <+: noteCodec.stringify e := htake ▸ take_prefix n _
    rw [htable, mem_append, mem_cons] at hd
    rcases hd with hd | rfl | hd
    · exact (hbefore d hd e mem_cons_self).1 hpre
    · have hlen := congrArg List.length htake
      rw [length_take] at hlen
      omega
    · exact (hafter d hd).2 hpre

/-- The first note, the label, the second note, and a summary that names the label. -/
def noteSession : Manager :=
  { persist := true, flushed := true, header := noteHeader
    entries := [noteEntry, noteLabel, secondNote, noteSummary (js "l1")]
    byId := indexOf [noteEntry, noteLabel, secondNote, noteSummary (js "l1")]
    labelsById := [(js "e1", js "start")], labelTimestampsById := [(js "e1", 0)], leafId := some (js "c1")
    file := some (noteCodec.line (.session noteHeader) ++ noteCodec.line (.entry noteEntry) ++
      noteCodec.line (.entry noteLabel) ++ noteCodec.line (.entry secondNote) ++
      noteCodec.line (.entry (noteSummary (js "l1")))) }

theorem noteSession_built : Built noteCodec noteSession := by
  refine .append (.append (.append (.append (.new true noteHeader) (.message noteMessage) (js "e1") 0 ?_ rfl)
    (.labelChange (js "e1") (some (js "start"))) (js "l1") 0 ?_ rfl) (.message noteMessage) (js "e2") 0 ?_ rfl)
    (.compaction (js "notes") (some (js "l1")) 3 (.obj [])) (js "c1") 0 ?_ rfl
  all_goals decide

theorem createBranchedSession_extracts_note : ∃ m' m'',
    noteSession.createBranchedSession noteCodec (js "c1") branchHeader [js "l2"] = some m' ∧
      m'.entries = branchEntries ∧ Extracts noteSession (js "c1") m' ∧
      Manager.reopen noteCodec noteHeader m'.file = some m'' ∧ Extracts noteSession (js "c1") m'' := by
  obtain ⟨m', hc, hm', hopen⟩ := createBranchedSession_extracts noteCodec noteSession noteSession_built (js "c1")
    (by decide) branchHeader noteHeader [js "l2"] ⟨by decide, by decide⟩
  have hentries : m'.entries = branchEntries ∧ m'.header = branchHeader ∧ m'.flushed = true := by
    obtain rfl := Option.some_inj.mp hc
    exact ⟨rfl, rfl, rfl⟩
  have hreads : ∀ e ∈ m'.fileEntries, noteCodec.Reads e := by
    intro e he
    rw [Manager.fileEntries, hentries.1, hentries.2.1] at he
    refine noteCodec_reads e ?_
    rcases mem_cons.mp he with rfl | he
    · exact mem_cons_of_mem _ mem_cons_self
    · exact mem_cons_of_mem _ (mem_cons_of_mem _ (by rw [map_append]; exact mem_append_right _ he))
  obtain ⟨m'', ho, hm''⟩ := hopen hentries.2.2 hreads
  exact ⟨m', m'', hc, hentries.1, hm', ho, hm''⟩

end PiAgent.Session
