import PiAgent.Session.Runs

/-! # Sessions that operations build -/

namespace PiAgent.Session

open Option Assoc

/-! ## Appending -/

variable (m : Manager) (codec : Codec) (e : Entry)

theorem persistEntry_fields (write : Manager.Write) :
    ∃ file flushed, (m.persistEntry codec e write).1 = { m with file := file, flushed := flushed } := by
  unfold Manager.persistEntry
  split
  · exact ⟨_, _, rfl⟩
  split
  · split
    · exact ⟨_, _, rfl⟩
    split
    · exact ⟨_, _, rfl⟩
    cases write <;> exact ⟨_, _, rfl⟩
  · cases write <;> exact ⟨_, _, rfl⟩

theorem append_eq {op : Manager.AppendOp} {id : EntryId} {time : Time}
    {body : EntryBody} (write : Manager.Write) (h : m.bodyOf op id time = some body) :
    m.append codec op id time write =
      if (m.appendEntry codec ⟨id, m.parentOf op, time, body⟩ write).2 then
        .threw (m.appendEntry codec ⟨id, m.parentOf op, time, body⟩ write).1
      else .done ((m.appendEntry codec ⟨id, m.parentOf op, time, body⟩ write).1.afterAppend
        ⟨id, m.parentOf op, time, body⟩) := by
  unfold Manager.append
  rw [h]

variable {codec : Codec}

theorem append_spec {m m' : Manager} {op : Manager.AppendOp} {id : EntryId} {time : Time}
    {write : Manager.Write} (h : m.append codec op id time write = .done m') :
    ∃ body, m.bodyOf op id time = some body ∧ m'.entries = m.entries ++ [⟨id, m.parentOf op, time, body⟩] ∧
      m'.byId = set m.byId id ⟨id, m.parentOf op, time, body⟩ ∧ m'.leafId = some id ∧ m'.header = m.header ∧
      m'.persist = m.persist ∧
      (m'.labelsById, m'.labelTimestampsById) =
        applyLabel (m.labelsById, m.labelTimestampsById) ⟨id, m.parentOf op, time, body⟩ ∧
      (LabelsWf m → LabelsWf m') ∧
      (m'.file, m'.flushed) =
        ((m.appendEntry codec ⟨id, m.parentOf op, time, body⟩ write).1.file,
          (m.appendEntry codec ⟨id, m.parentOf op, time, body⟩ write).1.flushed) ∧
      (m.appendEntry codec ⟨id, m.parentOf op, time, body⟩ write).2 = false := by
  cases hbody : m.bodyOf op id time with
  | none =>
    simp [Manager.append, hbody] at h
  | some body =>
    rw [append_eq m codec write hbody] at h
    generalize he : (⟨id, m.parentOf op, time, body⟩ : Entry) = e at h ⊢
    obtain ⟨file, flushed, hfields⟩ := persistEntry_fields { m with entries := m.entries ++ [e]
                                                                    byId := set m.byId e.id e
                                                                    leafId := some e.id } codec e write
    have happend : (m.appendEntry codec e write).1 = { m with entries := m.entries ++ [e]
                                                              byId := set m.byId e.id e
                                                              leafId := some e.id
                                                              file := file
                                                              flushed := flushed } := hfields
    have hid : e.id = id := by rw [← he]
    cases hthrew : (m.appendEntry codec e write).2 with
    | true =>
      rw [hthrew] at h
      cases h
    | false =>
      rw [hthrew, if_neg (by simp)] at h
      injection h with h'
      obtain ⟨g1, g2, g3, g4, g5, g6, g7⟩ := afterAppend_fields (m.appendEntry codec e write).1 e
      have g8 := afterAppend_labels (m.appendEntry codec e write).1 e
      rw [h'] at g1 g2 g3 g4 g5 g6 g7 g8
      rw [happend] at g1 g2 g3 g6 g7 g8
      refine ⟨body, rfl, ?_⟩
      rw [he]
      refine ⟨g1, ?_, ?_, g6, g7, g8, ?_, by rw [g4, g5], hthrew⟩
      · rw [g2, hid]
      · rw [g3, hid]
      · intro hl
        rw [← h']
        have hm : LabelsWf (m.appendEntry codec e write).1 := by
          rw [happend]
          exact ⟨hl.labels, hl.timestamps, hl.filled⟩
        exact hm.afterAppend e

theorem branch_spec {entries : List Entry} (h : IsTree entries) (start : Option EntryId) :
    Linear (getBranch (indexOf entries) start) ∧ (getBranch (indexOf entries) start).Sublist entries := by
  cases start with
  | none => exact ⟨by simpa [getBranch] using Linear.nil, by simp [getBranch]⟩
  | some id =>
    cases hget : get? (indexOf entries) id with
    | none => exact ⟨by simpa [getBranch, hget] using Linear.nil, by simp [getBranch, hget]⟩
    | some e =>
      obtain ⟨he, rfl⟩ := mem_of_get?_indexOf entries id e hget
      obtain ⟨path, hpath, hlin, hsub⟩ := getBranch_spec h e he
      rw [hpath]
      exact ⟨hlin, hsub⟩

variable {m : Manager}

theorem branch_edits (h : Invariant codec m) (start : Option EntryId) :
    EditsBefore (getBranch (indexOf m.entries) start) := by
  cases start with
  | none => simpa [getBranch] using EditsBefore.nil
  | some id =>
    cases hget : get? (indexOf m.entries) id with
    | none => simpa [getBranch, hget] using EditsBefore.nil
    | some e =>
      obtain ⟨he, rfl⟩ := mem_of_get?_indexOf m.entries id e hget
      exact h.edits e he

theorem contextEdit_target (h : Invariant codec m) {targetId : EntryId}
    {replacement : Option Content} {body : EntryBody} (hb : m.contextEditBody targetId replacement = some body) :
    (∃ replacement', body = .contextEdit targetId replacement') ∧
      ∃ target ∈ getBranch (indexOf m.entries) m.leafId, target.id = targetId ∧ Manager.editable target = true := by
  unfold Manager.contextEditBody at hb
  rw [h.byId] at hb
  cases hget : get? (indexOf m.entries) targetId with
  | none => simp [hget] at hb
  | some target =>
    rw [hget] at hb
    simp only at hb
    split at hb
    · rename_i hcond
      rw [Bool.and_eq_true, List.any_eq_true] at hcond
      obtain ⟨⟨e, he, hid⟩, hedit⟩ := hcond
      have hsame : e = target := by
        have hmem := (branch_spec h.tree m.leafId).2.subset he
        have hself := get?_indexOf m.entries h.tree.nodup e hmem
        rw [of_decide_eq_true hid, hget] at hself
        exact (some.inj hself).symm
      subst hsame
      exact ⟨⟨_, (some.inj hb).symm⟩, e, he, of_decide_eq_true hid, hedit⟩
    · cases hb

theorem bodyOf_spec (h : Invariant codec m) {op : Manager.AppendOp} {id : EntryId}
    {time : Time} {body : EntryBody} (hb : m.bodyOf op id time = some body) :
    (∀ p, m.parentOf op = some p → p ∈ ids m.entries) ∧
      ∀ targetId replacement, body = .contextEdit targetId replacement →
        ∃ target ∈ getBranch (indexOf m.entries) (m.parentOf op), target.id = targetId ∧
          Manager.editable target = true := by
  cases op with
  | contextEdit targetId replacement =>
    obtain ⟨⟨_, hbody⟩, htarget⟩ := contextEdit_target h hb
    refine ⟨h.leaf, ?_⟩
    intro targetId' _ heq
    rw [hbody] at heq
    injection heq with heq
    subst heq
    exact htarget
  | branchWithSummary branchFromId summary rest =>
    simp only [Manager.bodyOf] at hb
    split at hb
    · rename_i hall
      refine ⟨?_, ?_⟩
      · intro p hp
        have hp' : branchFromId = some p := hp
        rw [hp', h.byId] at hall
        exact (has_indexOf m.entries p).mp hall
      · intro targetId replacement heq
        rw [← some.inj hb] at heq
        cases heq
    · cases hb
  | labelChange targetId label =>
    simp only [Manager.bodyOf] at hb
    split at hb
    · refine ⟨h.leaf, ?_⟩
      intro targetId' replacement heq
      rw [← some.inj hb] at heq
      cases heq
    · cases hb
  | _ =>
    refine ⟨h.leaf, ?_⟩
    intro targetId replacement heq
    rw [← some.inj hb] at heq
    cases heq

theorem fileText_eq (m : Manager) (codec : Codec) (e : Entry) (entries : List Entry) (h : m.entries = entries ++ [e]) :
    m.fileText codec = ((FileEntry.session m.header :: entries.map .entry).flatMap codec.line) ++ codec.line (.entry e) := by
  unfold Manager.fileText Manager.fileEntries
  rw [h]
  simp

theorem persistEntry_file (m : Manager) (codec : Codec) (before : List Entry) (e : Entry)
    (he : m.entries = before ++ [e])
    (hf : m.file = if m.flushed then
      some ((FileEntry.session m.header :: before.map .entry).flatMap codec.line) else none)
    (hp : m.flushed = true → m.persist = true) :
    let after := (m.persistEntry codec e .succeeds).1
    after.file = (if after.flushed then some (after.fileText codec) else none) ∧
      (after.flushed = true → after.persist = true) := by
  unfold Manager.persistEntry
  cases hpersist : m.persist with
  | false =>
    have hflushed : m.flushed = false := by
      cases hfl : m.flushed with
      | false => rfl
      | true => simp [hp hfl] at hpersist
    simp only [hflushed, Bool.false_eq_true, if_false] at hf
    simp [hflushed, hf]
  | true =>
    cases hflushed : m.flushed with
    | false =>
      simp only [hflushed, Bool.false_eq_true, if_false] at hf
      cases hconv : m.hasConversation with
      | false => simp [hflushed, hf]
      | true =>
        simp only [hf, Bool.not_true, Bool.not_false, Bool.false_eq_true, if_true, if_false, isSome_none,
          implies_true, and_true]
        rfl
    | true =>
      simp only [hflushed, if_true] at hf
      have htext := fileText_eq m codec e before he
      simp only [hf, Bool.not_true, Bool.false_eq_true, if_false, getD_some, implies_true, and_true, if_true]
      rw [← htext]
      rfl

theorem Invariant.append {m m' : Manager} (h : Invariant codec m) {op : Manager.AppendOp} {id : EntryId}
    {time : Time} (hfresh : id ∉ ids m.entries) (ha : m.append codec op id time .succeeds = .done m') :
    Invariant codec m' := by
  obtain ⟨body, hbody, hentries, hbyId, hleaf, hheader, hpersist, -, hlabels, hfile, -⟩ := append_spec ha
  obtain ⟨hparent, hedit⟩ := bodyOf_spec h hbody
  generalize he : (⟨id, m.parentOf op, time, body⟩ : Entry) = e at hentries hbyId hfile
  have hid : e.id = id := by rw [← he]
  have hfresh' : e.id ∉ ids m.entries := hid ▸ hfresh
  have hp : e.parentId = m.parentOf op := by rw [← he]
  have hparent' : ∀ p, e.parentId = some p → p ∈ ids m.entries := hp ▸ hparent
  have htree : IsTree (m.entries ++ [e]) := h.tree.snoc e hfresh' hparent'
  have hpersisted := persistEntry_file { m with entries := m.entries ++ [e], byId := set m.byId e.id e
                                                leafId := some e.id } codec m.entries e rfl h.file h.flushed
  obtain ⟨file, flushed, hfields⟩ := persistEntry_fields { m with entries := m.entries ++ [e]
                                                                  byId := set m.byId e.id e
                                                                  leafId := some e.id } codec e .succeeds
  obtain ⟨hm'file, hm'flushed⟩ := Prod.mk.inj hfile
  unfold Manager.appendEntry at hm'file hm'flushed
  refine ⟨hentries ▸ htree, ?_, ?_, hlabels h.labels, ?_, ?_, ?_⟩
  · rw [hbyId, hentries, h.byId, ← hid]
    exact indexOf_snoc m.entries e hfresh'
  · intro leafId hl
    rw [hleaf] at hl
    rw [hentries, ← some.inj hl, ← hid]
    simp
  · rw [hentries]
    intro x hx
    rcases List.mem_append.mp hx with hx | hx
    · rw [getBranch_snoc h.tree e hfresh' x hx htree.nodup]
      exact h.edits x hx
    · rw [List.mem_singleton.mp hx, getBranch_new h.tree e hfresh' hparent' htree.nodup]
      refine (branch_edits h e.parentId).snoc e ?_
      intro targetId replacement hb
      rw [hp]
      exact hedit targetId replacement (by rw [← hb, ← he])
  · have htext : m'.fileText codec = (({ m with entries := m.entries ++ [e], byId := set m.byId e.id e
                                                leafId := some e.id } : Manager).persistEntry codec e .succeeds).1.fileText
        codec := by
      rw [hfields]
      unfold Manager.fileText Manager.fileEntries
      rw [hentries, hheader]
    rw [hm'file, hm'flushed, htext]
    exact hpersisted.1
  · intro hfl
    rw [hm'flushed] at hfl
    have hpp := hpersisted.2 hfl
    rw [hpersist]
    rw [hfields] at hpp
    exact hpp

end PiAgent.Session
