import PiAgent.Session.BranchedSession

/-! # Appends whose write throws -/

namespace PiAgent.Session

structure Unchanged (m after : Manager) : Prop where
  entries : after.entries = m.entries
  leaf : after.leafId = m.leafId
  labels : after.labelsById = m.labelsById ∧ after.labelTimestampsById = m.labelTimestampsById
  context : after.buildSessionContext = m.buildSessionContext

theorem append_threw_spec {codec : Codec} {m after : Manager} {op : Manager.AppendOp} {id : EntryId} {time : Time}
    {write : Manager.Write} (h : m.append codec op id time write = .threw after) :
    ∃ body, m.bodyOf op id time = some body ∧ after.entries = m.entries ++ [⟨id, m.parentOf op, time, body⟩] ∧
      after.leafId = some id ∧ after.labelsById = m.labelsById := by
  cases hbody : m.bodyOf op id time with
  | none =>
    simp [Manager.append, hbody] at h
  | some body =>
    rw [append_eq m codec write hbody] at h
    split at h
    · injection h with h
      obtain ⟨file, flushed, hfields⟩ := persistEntry_fields { m with
        entries := m.entries ++ [⟨id, m.parentOf op, time, body⟩]
        byId := Assoc.set m.byId id ⟨id, m.parentOf op, time, body⟩
        leafId := some id } codec ⟨id, m.parentOf op, time, body⟩ write
      have hafter : after = { m with
          entries := m.entries ++ [⟨id, m.parentOf op, time, body⟩]
          byId := Assoc.set m.byId id ⟨id, m.parentOf op, time, body⟩
          leafId := some id, file := file, flushed := flushed } := by
        rw [← h]
        exact hfields
      exact ⟨body, rfl, by rw [hafter], by rw [hafter], by rw [hafter]⟩
    · cases h

/-- No append whose write throws leaves the session as it was. -/
theorem append_threw_changes (codec : Codec) (m after : Manager) (op : Manager.AppendOp) (id : EntryId) (time : Time)
    (write : Manager.Write) (h : m.append codec op id time write = .threw after) : ¬Unchanged m after := by
  intro hsame
  obtain ⟨body, -, hentries, -⟩ := append_threw_spec h
  have hlength := congrArg List.length (hentries.symm.trans hsame.entries)
  simp at hlength

/-- A file that cannot be created, at the first message. -/
theorem append_threw_changes_first : ∃ after,
    (Manager.newSession true noteHeader).append noteCodec (.message noteMessage) (js "e1") 0
      .openFails = .threw after ∧ ¬Unchanged (Manager.newSession true noteHeader) after :=
  ⟨_, rfl, append_threw_changes noteCodec (Manager.newSession true noteHeader) _
    (.message noteMessage) (js "e1") 0 .openFails rfl⟩

/-- The message that was not written is an entry and the leaf. -/
theorem failed_message_stays : ∃ after,
    (Manager.newSession true noteHeader).append noteCodec (.message noteMessage) (js "e1") 0
      .openFails = .threw after ∧ after.entries = [noteEntry] ∧ after.leafId = some (js "e1") ∧
      (Manager.newSession true noteHeader).entries = [] ∧ after.file = none :=
  ⟨_, rfl, rfl, rfl, rfl, rfl⟩

end PiAgent.Session
