import PiAgent.Session.Tree

/-! # Every session that operations build is a tree -/

namespace PiAgent.Session

open Option Assoc

/-! ## What is known of a session -/

structure LabelsWf (m : Manager) : Prop where
  labels : (keys m.labelsById).Nodup
  timestamps : ∀ k, has m.labelTimestampsById k = has m.labelsById k
  filled : ∀ label ∈ m.labelsById, label.2 ≠ []

def EditsBefore (path : List Entry) : Prop :=
  ∀ (before : List Entry) (e : Entry) (after : List Entry) (targetId : EntryId) (replacement : Option Content),
    path = before ++ e :: after → e.body = .contextEdit targetId replacement →
    ∃ target ∈ before, target.id = targetId ∧ Manager.editable target = true

structure Invariant (codec : Codec) (m : Manager) : Prop where
  tree : IsTree m.entries
  byId : m.byId = indexOf m.entries
  leaf : ∀ leafId, m.leafId = some leafId → leafId ∈ ids m.entries
  labels : LabelsWf m
  edits : ∀ e ∈ m.entries, EditsBefore (getBranch (indexOf m.entries) (some e.id))
  file : m.file = if m.flushed then some (m.fileText codec) else none
  flushed : m.flushed = true → m.persist = true

/-! ## Paths -/

variable {entries : List Entry}

section

variable (h : IsTree entries) (x : Entry) (hx : x.id ∉ ids entries)
include h hx

theorem walk_snoc (fuel fuel' : ℕ) (before : List Entry) (e : Entry) (after : List Entry)
    (heq : entries = before ++ e :: after) (hfuel : before.length < fuel) (hfuel' : before.length < fuel') :
    ancestors (indexOf (entries ++ [x])) fuel' (some e) = ancestors (indexOf entries) fuel (some e) := by
  induction fuel generalizing fuel' before e after with
  | zero => omega
  | succ fuel ih =>
    obtain ⟨fuel', rfl⟩ : ∃ n, fuel' = n + 1 := ⟨fuel' - 1, by omega⟩
    rw [ancestors, ancestors]
    congr 1
    cases hp : e.parentId with
    | none => simp
    | some p =>
      obtain ⟨parent, hmem, rfl⟩ := List.mem_map.mp (h.parents before e after heq p hp)
      obtain ⟨before', between, rfl⟩ := List.append_of_mem hmem
      have hin : parent ∈ entries := by
        rw [heq]
        simp
      have hn : (ids (entries ++ [x])).Nodup := by
        rw [ids_append, List.nodup_append]
        refine ⟨h.nodup, by simp, ?_⟩
        rintro a ha b hb rfl
        rw [List.mem_singleton.mp hb] at ha
        exact hx ha
      rw [bind_some, bind_some, get?_indexOf _ hn parent (List.mem_append_left _ hin),
        get?_indexOf _ h.nodup parent hin]
      rw [List.length_append, List.length_cons] at hfuel hfuel'
      exact ih fuel' before' parent (between ++ e :: after) (by rw [heq]; simp) (by omega) (by omega)

theorem getBranch_snoc (e : Entry) (he : e ∈ entries) (hn : (ids (entries ++ [x])).Nodup) :
    getBranch (indexOf (entries ++ [x])) (some e.id) = getBranch (indexOf entries) (some e.id) := by
  obtain ⟨before, after, heq⟩ := List.append_of_mem he
  unfold getBranch
  rw [bind_some, bind_some, get?_indexOf _ hn e (List.mem_append_left _ he), get?_indexOf _ h.nodup e he]
  congr 1
  refine walk_snoc h x hx _ _ before e after heq ?_ ?_ <;>
  · rw [length_indexOf, heq]
    simp

theorem getBranch_new (hp : ∀ p, x.parentId = some p → p ∈ ids entries) (hn : (ids (entries ++ [x])).Nodup) :
    getBranch (indexOf (entries ++ [x])) (some x.id) = getBranch (indexOf entries) x.parentId ++ [x] := by
  unfold getBranch
  rw [bind_some, get?_indexOf _ hn x (by simp), length_indexOf, List.length_append, List.length_singleton, ancestors,
    List.reverse_cons]
  congr 2
  cases hparent : x.parentId with
  | none => simp
  | some p =>
    obtain ⟨parent, hmem, rfl⟩ := List.mem_map.mp (hp p hparent)
    obtain ⟨before, after, heq⟩ := List.append_of_mem hmem
    rw [bind_some, bind_some, get?_indexOf _ hn parent (List.mem_append_left _ hmem),
      get?_indexOf _ h.nodup parent hmem]
    refine walk_snoc h x hx _ _ before parent after heq ?_ ?_
    · rw [length_indexOf, heq]
      simp
    · rw [heq]
      simp

end

theorem EditsBefore.snoc {path : List Entry} (h : EditsBefore path) (x : Entry)
    (hx : ∀ targetId replacement, x.body = .contextEdit targetId replacement →
      ∃ target ∈ path, target.id = targetId ∧ Manager.editable target = true) : EditsBefore (path ++ [x]) := by
  intro before e after targetId replacement heq hbody
  rcases List.eq_nil_or_concat after with rfl | ⟨after', y, rfl⟩
  · obtain ⟨rfl, hlast⟩ := List.append_inj' heq rfl
    obtain rfl : x = e := by simpa using hlast
    exact hx targetId replacement hbody
  · have heq' : path ++ [x] = (before ++ e :: after') ++ [y] := by simpa using heq
    obtain ⟨rfl, -⟩ := List.append_inj' heq' rfl
    exact h before e after' targetId replacement rfl hbody

theorem EditsBefore.nil : EditsBefore [] := fun before e after _ _ h => by simp at h

theorem EditsBefore.of_append {a b : List Entry} (h : EditsBefore (a ++ b)) : EditsBefore a := by
  intro before e after targetId replacement heq hbody
  refine h before e (after ++ b) targetId replacement ?_ hbody
  rw [heq]
  simp

/-! ## Labels -/

theorem LabelsWf.setLabel {m : Manager} (h : LabelsWf m) (targetId : EntryId) (label : Option JsString)
    (timestamp : Time) : LabelsWf (m.setLabel targetId label timestamp) := by
  unfold Manager.setLabel
  cases hl : Manager.truthy label with
  | none =>
    refine ⟨nodup_keys_del _ _ h.labels, ?_, fun x hx => h.filled x (List.mem_filter.mp hx).1⟩
    intro k
    show has (del m.labelTimestampsById targetId) k = has (del m.labelsById targetId) k
    have hk := h.timestamps k
    unfold has at hk ⊢
    rw [get?_del, get?_del]
    split
    · rfl
    · exact hk
  | some text =>
    have hfilled : text ≠ [] := by
      rintro rfl
      cases label with
      | none => cases hl
      | some label =>
        simp only [Manager.truthy] at hl
        split at hl
        · cases hl
        · rename_i hne
          obtain rfl := some.inj hl
          exact hne rfl
    have hkeys := nodup_keys_set m.labelsById targetId text h.labels
    refine ⟨hkeys, ?_, ?_⟩
    · intro k
      show has (set m.labelTimestampsById targetId timestamp) k = has (set m.labelsById targetId text) k
      have hk := h.timestamps k
      unfold has at hk ⊢
      rw [get?_set, get?_set]
      split
      · rfl
      · exact hk
    · rintro ⟨key, value⟩ hmem
      have hget : get? (set m.labelsById targetId text) key = some value := get?_of_mem _ _ _ hkeys hmem
      rw [get?_set] at hget
      split at hget
      · obtain rfl := some.inj hget
        exact hfilled
      · exact h.filled _ (mem_of_get? _ _ _ hget)

variable (m : Manager)

theorem setLabel_fields (targetId : EntryId) (label : Option JsString) (timestamp : Time) :
    (m.setLabel targetId label timestamp).entries = m.entries ∧ (m.setLabel targetId label timestamp).byId = m.byId ∧
      (m.setLabel targetId label timestamp).leafId = m.leafId ∧ (m.setLabel targetId label timestamp).file = m.file ∧
      (m.setLabel targetId label timestamp).flushed = m.flushed ∧ (m.setLabel targetId label timestamp).header = m.header ∧
      (m.setLabel targetId label timestamp).persist = m.persist := by
  unfold Manager.setLabel
  cases Manager.truthy label <;> exact ⟨rfl, rfl, rfl, rfl, rfl, rfl, rfl⟩

def applyLabel (labels : List (EntryId × JsString) × List (EntryId × Time)) (entry : Entry) :
    List (EntryId × JsString) × List (EntryId × Time) :=
  match entry.body with
  | .label targetId label =>
    match Manager.truthy label with
    | some label => (set labels.1 targetId label, set labels.2 targetId entry.timestamp)
    | none => (del labels.1 targetId, del labels.2 targetId)
  | _ => labels

def labelsOf (entries : List Entry) : List (EntryId × JsString) × List (EntryId × Time) := entries.foldl applyLabel ([], [])

theorem afterAppend_labels (e : Entry) : ((m.afterAppend e).labelsById, (m.afterAppend e).labelTimestampsById) =
      applyLabel (m.labelsById, m.labelTimestampsById) e := by
  obtain ⟨id, parentId, timestamp, body⟩ := e
  cases body with
  | label targetId label =>
    simp only [Manager.afterAppend, applyLabel, Manager.setLabel]
    cases Manager.truthy label <;> rfl
  | _ => rfl

theorem afterAppend_fields (e : Entry) :
    (m.afterAppend e).entries = m.entries ∧ (m.afterAppend e).byId = m.byId ∧ (m.afterAppend e).leafId = m.leafId ∧
      (m.afterAppend e).file = m.file ∧ (m.afterAppend e).flushed = m.flushed ∧ (m.afterAppend e).header = m.header ∧
      (m.afterAppend e).persist = m.persist := by
  unfold Manager.afterAppend
  split
  · exact setLabel_fields m _ _ _
  · exact ⟨rfl, rfl, rfl, rfl, rfl, rfl, rfl⟩

theorem LabelsWf.afterAppend {m : Manager} (h : LabelsWf m) (e : Entry) : LabelsWf (m.afterAppend e) := by
  unfold Manager.afterAppend
  split
  · exact h.setLabel _ _ _
  · exact h

/-! ## The index that is built from the entries -/

theorem foldl_indexEntry (entries : List Entry) (m : Manager) : let after := entries.foldl Manager.indexEntry m
    after.entries = m.entries ∧ after.header = m.header ∧ after.flushed = m.flushed ∧ after.file = m.file ∧
      after.persist = m.persist ∧ after.byId = entries.foldl (fun index e => set index e.id e) m.byId ∧
      after.leafId = (entries.getLast?.map Entry.id).or m.leafId ∧
      (after.labelsById, after.labelTimestampsById) = entries.foldl applyLabel (m.labelsById, m.labelTimestampsById) ∧
      (LabelsWf m → LabelsWf after) := by
  induction entries generalizing m with
  | nil => exact ⟨rfl, rfl, rfl, rfl, rfl, rfl, rfl, rfl, fun h => h⟩
  | cons e entries ih =>
    have hindex : m.indexEntry e =
        ({ m with byId := set m.byId e.id e, leafId := some e.id } : Manager).afterAppend e := rfl
    obtain ⟨h1, h2, h3, h4, h5, h6, h7, h8, h9⟩ := ih (m.indexEntry e)
    obtain ⟨g1, g2, g3, g4, g5, g6, g7⟩ :=
      afterAppend_fields ({ m with byId := set m.byId e.id e, leafId := some e.id } : Manager) e
    have g8 := afterAppend_labels ({ m with byId := set m.byId e.id e, leafId := some e.id } : Manager) e
    rw [← hindex] at g1 g2 g3 g4 g5 g6 g7 g8
    refine ⟨h1.trans g1, h2.trans g6, h3.trans g5, h4.trans g4, h5.trans g7, ?_, ?_, ?_, ?_⟩
    · rw [List.foldl_cons, List.foldl_cons, h6, g2]
    · rw [List.foldl_cons, h7, g3]
      show (entries.getLast?.map Entry.id).or (some e.id) = _
      rw [List.getLast?_cons]
      cases entries.getLast? <;> rfl
    · rw [List.foldl_cons, List.foldl_cons, h8, g8]
    · intro h
      rw [List.foldl_cons]
      refine h9 ?_
      rw [hindex]
      have hm : LabelsWf { m with byId := set m.byId e.id e, leafId := some e.id } :=
        ⟨h.labels, h.timestamps, h.filled⟩
      exact hm.afterAppend e

theorem buildIndex_spec (hn : (ids m.entries).Nodup) :
    m.buildIndex.entries = m.entries ∧ m.buildIndex.header = m.header ∧ m.buildIndex.flushed = m.flushed ∧
      m.buildIndex.file = m.file ∧ m.buildIndex.persist = m.persist ∧ m.buildIndex.byId = indexOf m.entries ∧
      m.buildIndex.leafId = m.entries.getLast?.map Entry.id ∧
      (m.buildIndex.labelsById, m.buildIndex.labelTimestampsById) = labelsOf m.entries ∧ LabelsWf m.buildIndex := by
  obtain ⟨h1, h2, h3, h4, h5, h6, h7, h8, h9⟩ := foldl_indexEntry m.entries
    { m with byId := [], labelsById := [], labelTimestampsById := [], leafId := none }
  refine ⟨h1, h2, h3, h4, h5, ?_, ?_, h8, h9 ⟨List.nodup_nil, fun _ => rfl, by simp⟩⟩
  · exact h6.trans (buildEntryIndex_eq m.entries hn)
  · exact h7.trans (by simp)

/-! ## Files of whole lines -/

theorem splitLines_line (text rest : Bytes) (h : newline ∉ text) :
    splitLines (text ++ newline :: rest) = (text :: (splitLines rest).1, (splitLines rest).2) := by
  induction text with
  | nil => simp [splitLines]
  | cons b text ih =>
    have hb : b ≠ newline := fun heq => h (heq ▸ List.mem_cons_self ..)
    have hrest : newline ∉ text := fun hmem => h (List.mem_cons_of_mem _ hmem)
    rw [List.cons_append, splitLines, if_neg hb, ih hrest]

theorem splitLines_tail (tail : Bytes) (h : newline ∉ tail) : splitLines tail = ([], tail) := by
  induction tail with
  | nil => rfl
  | cons b tail ih =>
    have hb : b ≠ newline := fun heq => h (heq ▸ List.mem_cons_self ..)
    have hrest : newline ∉ tail := fun hmem => h (List.mem_cons_of_mem _ hmem)
    rw [splitLines, if_neg hb, ih hrest]

variable (codec : Codec)

theorem splitLines_lines (written : List FileEntry) (tail : Bytes)
    (hw : ∀ e ∈ written, codec.Reads e) (ht : newline ∉ tail) :
    splitLines (written.flatMap codec.line ++ tail) = (written.map codec.stringify, tail) := by
  induction written with
  | nil => exact splitLines_tail tail ht
  | cons e written ih =>
    have hrest := ih (fun e' he' => hw e' (List.mem_cons_of_mem _ he'))
    rw [List.flatMap_cons, Codec.line, List.append_assoc, List.append_assoc, List.singleton_append,
      splitLines_line _ _ (hw e (List.mem_cons_self ..)).line, hrest]
    rfl

theorem loadEntriesFromFile_lines (header : Header) (written : List FileEntry) (tail : Bytes)
    (hw : ∀ e ∈ FileEntry.session header :: written, codec.Reads e) (ht : newline ∉ tail)
    (hnone : codec.parseSessionEntryLine tail = none) :
    loadEntriesFromFile codec ((FileEntry.session header :: written).flatMap codec.line ++ tail) =
      (.session header :: written,
        if tail.isEmpty then (FileEntry.session header :: written).flatMap codec.line ++ tail
        else (FileEntry.session header :: written).flatMap codec.line ++ tail ++ [newline]) := by
  have hread : ∀ (l : List FileEntry), (∀ e ∈ l, codec.Reads e) →
      (l.map codec.stringify).filterMap codec.parseSessionEntryLine = l := by
    intro l hl
    induction l with
    | nil => rfl
    | cons e l ih =>
      rw [List.map_cons, List.filterMap_cons, (hl e (List.mem_cons_self ..)).back,
        ih (fun e' he' => hl e' (List.mem_cons_of_mem _ he'))]
  have hentries : (((FileEntry.session header :: written).map codec.stringify) ++ [tail]).filterMap
      codec.parseSessionEntryLine = .session header :: written := by
    rw [List.filterMap_append, hread _ hw]
    simp [hnone]
  unfold loadEntriesFromFile
  rw [splitLines_lines codec _ tail hw ht]
  simp only [hentries]

theorem parse_nil {codec : Codec} {e : FileEntry} (h : codec.Reads e) : codec.parseSessionEntryLine [] = none := by
  have hpos : 0 < (codec.stringify e).length := List.length_pos_iff.mpr h.filled
  simpa using h.torn 0 hpos

theorem reopen_written (m : Manager) (fresh : Header) (hr : ∀ e ∈ m.fileEntries, codec.Reads e) :
    Manager.reopen codec fresh (some (m.fileText codec)) =
      some (Manager.buildIndex { Manager.newSession true m.header with
        entries := m.entries, flushed := true, file := some (m.fileText codec) }) := by
  have hload := loadEntriesFromFile_lines codec m.header (m.entries.map .entry) [] hr (by simp)
    (parse_nil (hr _ (List.mem_cons_self ..)))
  have hentries : Manager.entriesOf (m.entries.map .entry) = m.entries := by
    unfold Manager.entriesOf
    rw [List.filterMap_map]
    exact List.filterMap_some
  rw [List.append_nil] at hload
  unfold Manager.reopen
  have hfile : m.fileText codec = (FileEntry.session m.header :: m.entries.map .entry).flatMap codec.line := rfl
  simp only [hfile, hload, hentries, List.isEmpty_nil, if_true]

end PiAgent.Session
