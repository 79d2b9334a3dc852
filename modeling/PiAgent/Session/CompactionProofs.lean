import PiAgent.Session.BranchedSession
import PiAgent.Session.CompactionCut

/-! # A compaction loses no message -/

namespace PiAgent.Session

open Option List Assoc

/-! ## Edits -/

def editOf? (id : EntryId) (e : Entry) : Option (Option Content) :=
  match e.body with
  | .contextEdit targetId replacement => if targetId = id then some replacement else none
  | _ => none

variable {e x : Entry} {a b path tail : List Entry} {c : Compaction} {front : List ProjectedSessionEntry}

theorem editOf?_eq_some {id : EntryId} {replacement : Option Content} (h : editOf? id e = some replacement) :
    e.body = .contextEdit id replacement := by
  unfold editOf? at h
  split at h
  · rename_i targetId replacement' hbody
    split at h
    · rename_i hid
      rw [hbody, hid, some.inj h]
    · cases h
  · cases h

theorem get?_editsOf (entries : List Entry) (id : EntryId) :
    get? (editsOf entries) id = (entries.filterMap (editOf? id)).getLast? := by
  induction entries using List.reverseRecOn with
  | nil => rfl
  | append_singleton entries e ih =>
    unfold editsOf at ih ⊢
    rw [foldl_append, foldl_cons, foldl_nil, filterMap_append]
    cases hb : e.body with
    | contextEdit targetId replacement =>
      by_cases hid : targetId = id
      · have hedit : editOf? id e = some replacement := by simp [editOf?, hb, hid]
        simp only [addEdit, hb]
        rw [filterMap_cons_some hedit, hid, get?_set_self]
        simp
      · have hedit : editOf? id e = none := by simp [editOf?, hb, hid]
        simp only [addEdit, hb]
        rw [filterMap_cons_none hedit, get?_set_ne _ _ _ _ hid, ih]
        simp
    | _ =>
      have hedit : editOf? id e = none := by simp [editOf?, hb]
      simp only [addEdit, hb]
      rw [filterMap_cons_none hedit, ih]
      simp

theorem no_edit_before (h : EditsBefore path) (hn : (ids path).Nodup) (hsub : (a ++ b).Sublist path) (t : Entry)
    (ht : t ∈ b) : a.filterMap (editOf? t.id) = [] := by
  obtain ⟨p, q, rfl, hp, hq⟩ := append_sublist_iff.mp hsub
  refine filterMap_eq_nil_iff.mpr (fun e he => ?_)
  cases hedit : editOf? t.id e with
  | none => rfl
  | some replacement =>
    obtain ⟨before, between, rfl⟩ := append_of_mem (hp.subset he)
    obtain ⟨target, hmem, hid, -⟩ := h before e (between ++ q) t.id replacement (by simp) (editOf?_eq_some hedit)
    rw [ids_append, nodup_append] at hn
    refine absurd hid (hn.2.2 target.id ?_ t.id (mem_map_of_mem (hq.subset ht)))
    exact mem_map_of_mem (mem_append_left _ hmem)

theorem no_edit_of_not_editable (h : EditsBefore path) (hn : (ids path).Nodup) (hsub : tail.Sublist path)
    (x : Entry) (hx : x ∈ path) (hedit : Manager.editable x = false) : get? (editsOf tail) x.id = none := by
  have hnone : tail.filterMap (editOf? x.id) = [] := by
    refine filterMap_eq_nil_iff.mpr (fun e he => ?_)
    cases hsome : editOf? x.id e with
    | none => rfl
    | some replacement =>
      obtain ⟨before, after, rfl⟩ := append_of_mem (hsub.subset he)
      obtain ⟨target, hmem, hid, htarget⟩ := h before e after x.id replacement rfl (editOf?_eq_some hsome)
      have hsame : target = x := inj_on_of_nodup_map hn (mem_append_left _ hmem) hx hid
      rw [hsame, hedit] at htarget
      cases htarget
  rw [get?_editsOf, hnone]
  rfl

theorem no_edit_of_fresh (h : EditsBefore path) (hsub : tail.Sublist path) (id : EntryId) (hid : id ∉ ids path) :
    get? (editsOf tail) id = none := by
  have hnone : tail.filterMap (editOf? id) = [] := by
    refine filterMap_eq_nil_iff.mpr (fun e he => ?_)
    cases hsome : editOf? id e with
    | none => rfl
    | some replacement =>
      obtain ⟨before, after, rfl⟩ := append_of_mem (hsub.subset he)
      obtain ⟨target, hmem, rfl, -⟩ := h before e after id replacement rfl (editOf?_eq_some hsome)
      exact absurd (mem_map_of_mem (mem_append_left _ hmem)) hid
  rw [get?_editsOf, hnone]
  rfl

/-! ## What entries show -/

def nonSystem (messages : List Message) : List Message := messages.filter (fun message => !message.isSystem)

@[simp] theorem nonSystem_append (a b : List Message) : nonSystem (a ++ b) = nonSystem a ++ nonSystem b :=
  filter_append ..

theorem isSystem_replaceContent (replacement : Content) (message : Message) :
    (replaceContent replacement message).isSystem = message.isSystem := by
  cases message <;> rfl

theorem sessionEntry_cases (e : Entry) (h : e.isCompaction = false) : sessionEntryToContextMessages e = [] ∨
      ∃ message, sessionEntryToContextMessages e = [message] ∧ message.isSystem = e.isSystem := by
  obtain ⟨id, parentId, timestamp, body⟩ := e
  cases body with
  | message message => cases message <;> exact Or.inr ⟨_, rfl, rfl⟩
  | compaction => cases h
  | customMessage => exact Or.inr ⟨_, rfl, rfl⟩
  | branchSummary fromId summary rest =>
    unfold sessionEntryToContextMessages
    cases hs : summary.isEmpty with
    | true => exact Or.inl (by simp [hs])
    | false => exact Or.inr ⟨.branchSummary summary fromId timestamp, by simp [hs], rfl⟩
  | _ => exact Or.inl rfl

section

variable (edits : List (EntryId × Option Content))

theorem tailMessages_cases (e : Entry) : tailMessages edits e = [] ∨
      ∃ message, tailMessages edits e = [message] ∧ message.isSystem = e.isSystem := by
  unfold tailMessages
  cases hc : e.isCompaction with
  | true => exact Or.inl (by simp)
  | false =>
    rw [if_neg (by simp)]
    have hcases := sessionEntry_cases e hc
    unfold projectContextEntry
    rcases get? edits e.id with _ | _ | replacement
    · exact hcases
    · exact Or.inl rfl
    · rcases hcases with hnil | ⟨message, hone, hsys⟩
      · exact Or.inl (by simp [hnil])
      · exact Or.inr ⟨replaceContent replacement message, by simp [hone], by rw [isSystem_replaceContent, hsys]⟩

theorem nonSystem_tailMessages (e : Entry) :
    nonSystem (tailMessages edits e) = if e.isSystem then [] else tailMessages edits e := by
  rcases tailMessages_cases edits e with hnil | ⟨message, hone, hsys⟩
  · simp [hnil, nonSystem]
  · rw [hone, ← hsys]
    cases hm : message.isSystem <;> simp [nonSystem, hm]

theorem nonSystem_flatMap (entries : List Entry) :
    nonSystem (entries.flatMap (tailMessages edits)) =
      (entries.filter (fun e => !e.isSystem)).flatMap (tailMessages edits) := by
  induction entries with
  | nil => rfl
  | cons e entries ih =>
    rw [flatMap_cons, nonSystem_append, nonSystem_tailMessages, ih, filter_cons]
    cases hs : e.isSystem <;> simp

theorem tailMessages_compaction (e : Entry) (h : e.isCompaction = true) : tailMessages edits e = [] := by
  unfold tailMessages
  rw [if_pos h]

theorem flatMap_compactions (entries : List Entry) :
    (entries.filter (fun e => !e.isCompaction)).flatMap (tailMessages edits) = entries.flatMap (tailMessages edits) := by
  induction entries with
  | nil => rfl
  | cons e entries ih =>
    rw [filter_cons, flatMap_cons]
    cases hc : e.isCompaction with
    | true => rw [tailMessages_compaction edits e hc, nil_append, ← ih]; simp
    | false => simp [ih]

end

theorem filterMap_filter {α β : Type} (f : α → Option β) (keep : α → Bool) (l : List α)
    (h : ∀ a b, f a = some b → keep a = true) : (l.filter keep).filterMap f = l.filterMap f := by
  induction l with
  | nil => rfl
  | cons a l ih =>
    rw [filter_cons]
    cases hf : f a with
    | some b => rw [h a b hf, if_pos rfl, filterMap_cons_some hf, filterMap_cons_some hf, ih]
    | none =>
      rw [filterMap_cons_none hf]
      split
      · rw [filterMap_cons_none hf, ih]
      · exact ih

theorem edits_of_seen (id : EntryId) (entries : List Entry) :
    ((entries.filter (fun e => !e.isSystem)).filter (fun e => !e.isCompaction)).filterMap (editOf? id) =
      entries.filterMap (editOf? id) := by
  rw [filterMap_filter, filterMap_filter]
  · intro e replacement h
    simp [Entry.isSystem, editOf?_eq_some h]
  · intro e replacement h
    simp [Entry.isCompaction, Entry.compaction?, editOf?_eq_some h]

/-! ## The layout of a context -/

def tailEntry (edits : List (EntryId × Option Content)) (e : Entry) : ProjectedSessionEntry := ⟨e, tailMessages edits e⟩

def previousSummary (path : List Entry) : List Message :=
  match latestCompaction path with
  | none => []
  | some (e, c) => [.compactionSummary c.summary c.tokensBefore e.timestamp]

structure Layout (path : List Entry) (front : List ProjectedSessionEntry) (tail : List Entry) : Prop where
  entries : (projectPath path).entries = front ++ tail.map (tailEntry (editsOf tail))
  sublist : tail.Sublist path
  one : front.length ≤ 1
  shows : ∀ x ∈ front, x.sourceEntry.isCompaction = true ∧ x.messages ≠ [] ∧
    x.messages = projectContextEntry x.sourceEntry none
  summary : nonSystem (front.flatMap ProjectedSessionEntry.messages) = previousSummary path
  /-- What is kept from an entry on is found in the path again. -/
  kept : ∀ a x b, tail = a ++ x :: b →
    (keptEntries x.id path).filter (fun e => !e.isCompaction) =
      ((x :: b).filter (fun e => !e.isSystem)).filter (fun e => !e.isCompaction)

theorem mapIdx_eq_map {α β : Type} (f : ℕ → α → β) (g : α → β) (l : List α) (h : ∀ i, ∀ a ∈ l, f i a = g a) :
    l.mapIdx f = l.map g := by
  induction l generalizing f with
  | nil => rfl
  | cons a l ih =>
    rw [mapIdx_cons, map_cons, h 0 a (mem_cons_self ..), ih _ (fun i b hb => h (i + 1) b (mem_cons_of_mem _ hb))]

theorem dropWhile_split (before after : List Entry) (x : Entry) (h : x.id ∉ ids before) :
    (before ++ x :: after).dropWhile (fun entry => entry.id ≠ x.id) = x :: after := by
  induction before with
  | nil => simp
  | cons y before ih =>
    have hy : y.id ≠ x.id := fun heq => h (by simp [heq])
    rw [cons_append, dropWhile_cons, if_pos (by simpa using hy)]
    exact ih (fun hmem => h (mem_cons_of_mem _ hmem))

theorem keptEntries_split (before after : List Entry) (x : Entry) (h : x.id ∉ ids before) :
    keptEntries x.id (before ++ x :: after) = (x :: after).filter (fun e => !e.isSystem) := by
  unfold keptEntries
  rw [dropWhile_split before after x h]

theorem not_mem_before {before after : List Entry} (h : (ids (before ++ x :: after)).Nodup) :
    x.id ∉ ids before := by
  rw [ids_append, nodup_append] at h
  exact fun hmem => h.2.2 _ hmem _ (mem_cons_self ..) rfl

theorem layout_plain (path : List Entry) (hn : (ids path).Nodup) (h : ∀ e ∈ path, e.compaction? = none) :
    Layout path [] path := by
  have hnone : latestCompaction path = none := latestCompaction_append [] path h
  have hcontext : contextOfPath path = path := by
    unfold contextOfPath
    rw [hnone]
  refine ⟨?_, List.Sublist.refl _, by simp, by simp, ?_, ?_⟩
  · unfold projectPath
    rw [hcontext]
    refine mapIdx_eq_map _ _ _ ?_
    intro i e he
    unfold projectEntry tailEntry tailMessages Entry.isCompaction
    rw [h e he]
    rfl
  · unfold previousSummary
    rw [hnone]
    rfl
  · rintro a x b rfl
    rw [keptEntries_split a b x (not_mem_before hn)]

section

variable (h : e.compaction? = some c)
include h

theorem isSystem_compaction : e.isSystem = false := by
  obtain ⟨id, parentId, timestamp, body⟩ := e
  cases body with
  | compaction => rfl
  | _ => cases h

theorem editable_compaction : Manager.editable e = false := by
  obtain ⟨id, parentId, timestamp, body⟩ := e
  cases body with
  | compaction => rfl
  | _ => cases h

theorem sessionEntry_compaction :
    sessionEntryToContextMessages e =
      (c.systemMessage.map Message.system).toList ++ [.compactionSummary c.summary c.tokensBefore e.timestamp] := by
  obtain ⟨id, parentId, timestamp, body⟩ := e
  cases body with
  | compaction c' =>
    obtain rfl := some.inj h
    rfl
  | _ => cases h

theorem nonSystem_compaction :
    nonSystem (sessionEntryToContextMessages e) = [.compactionSummary c.summary c.tokensBefore e.timestamp] := by
  rw [sessionEntry_compaction h]
  cases c.systemMessage <;> rfl

end

theorem keptEntries_eq_append {pre : List Entry} {id : EntryId} (h : keptEntries id pre = a ++ x :: b) :
    ∃ before after, pre = before ++ x :: after ∧ after.filter (fun e => !e.isSystem) = b ∧ x.isSystem = false := by
  unfold keptEntries at h
  obtain ⟨l, r, hdrop, -, hr⟩ := filter_eq_append_iff.mp h
  obtain ⟨between, after, rfl, -, hx, hafter⟩ := filter_eq_cons_iff.mp hr
  refine ⟨pre.takeWhile (fun entry => entry.id ≠ id) ++ l ++ between, after, ?_, hafter, by simpa using hx⟩
  have hsplit := (takeWhile_append_dropWhile (p := fun entry => decide (entry.id ≠ id)) (l := pre)).symm
  rw [hdrop] at hsplit
  simpa using hsplit

theorem layout_split (pre post : List Entry) (p : Entry) (c : Compaction) (hp : p.compaction? = some c)
    (hpost : ∀ x ∈ post, x.compaction? = none) (hn : (ids (pre ++ p :: post)).Nodup)
    (he : EditsBefore (pre ++ p :: post)) :
    Layout (pre ++ p :: post) [⟨p, projectContextEntry p none⟩] (keptEntries c.firstKeptEntryId pre ++ post) := by
  have hfresh : p.id ∉ ids pre := not_mem_before hn
  have hsub : (keptEntries c.firstKeptEntryId pre ++ post).Sublist (pre ++ p :: post) :=
    (filter_sublist.trans (dropWhile_sublist _)).append (sublist_cons_self ..)
  have hedit := no_edit_of_not_editable he hn hsub p (by simp) (editable_compaction hp)
  have hlatest := latestCompaction_split pre post p c hp hpost
  have hpcomp : p.isCompaction = true := by simp [Entry.isCompaction, hp]
  refine ⟨?_, hsub, by simp, ?_, ?_, ?_⟩
  · simp only [projectPath, contextOfPath_split pre post p c hp hpost hfresh, cons_append,
      editsOf_compaction p c hp, mapIdx_cons]
    congr 1
    · simp [projectEntry, hedit]
    · refine mapIdx_eq_map _ _ _ ?_
      intro i e hmem
      simp [projectEntry, tailEntry, tailMessages]
  · intro x hx
    obtain rfl := mem_singleton.mp hx
    refine ⟨hpcomp, ?_, rfl⟩
    show sessionEntryToContextMessages p ≠ []
    simp [sessionEntry_compaction hp]
  · unfold previousSummary
    rw [hlatest]
    rw [flatMap_singleton]
    exact nonSystem_compaction hp
  · intro a x b htail
    have hafter : ∀ (a' : List Entry), post = a' ++ x :: b →
        (keptEntries x.id (pre ++ p :: post)).filter (fun e => !e.isCompaction) =
          ((x :: b).filter (fun e => !e.isSystem)).filter (fun e => !e.isCompaction) := by
      rintro a' rfl
      have heq : pre ++ p :: (a' ++ x :: b) = (pre ++ p :: a') ++ x :: b := by simp
      rw [heq] at hn ⊢
      rw [keptEntries_split _ b x (not_mem_before hn)]
    rcases append_eq_append_iff.mp htail with ⟨a', -, hx⟩ | ⟨kept, hkept, hx⟩
    · exact hafter a' hx
    · cases kept with
      | nil => exact hafter [] hx.symm
      | cons y kept =>
        obtain ⟨rfl, rfl⟩ := List.cons.inj hx
        obtain ⟨before, after, rfl, rfl, hsys⟩ := keptEntries_eq_append hkept
        have heq : (before ++ x :: after) ++ p :: post = before ++ x :: (after ++ p :: post) := by simp
        rw [heq] at hn ⊢
        rw [keptEntries_split _ _ x (not_mem_before hn)]
        simp [filter_cons, hsys, isSystem_compaction hp, hpcomp]

theorem exists_layout (path : List Entry) (hn : (ids path).Nodup) (he : EditsBefore path) :
    ∃ front tail, Layout path front tail := by
  rcases compaction_cases path with ⟨-, hall⟩ | ⟨pre, p, c, post, rfl, hp, hpost⟩
  · exact ⟨_, _, layout_plain path hn hall⟩
  · exact ⟨_, _, layout_split pre post p c hp hpost hn he⟩

/-! ## What is kept shows what it showed -/

section

variable (h : Layout path front tail) (hn : (ids path).Nodup) (he : EditsBefore path) (ht : tail = a ++ x :: b)
include h hn he ht

theorem Layout.edits (e : Entry) (hmem : e ∈ x :: b) :
    get? (editsOf (keptEntries x.id path)) e.id = get? (editsOf tail) e.id := by
  have hsame := congrArg (List.filterMap (editOf? e.id)) (h.kept a x b ht)
  rw [edits_of_seen, filterMap_filter] at hsame
  · have hbefore := no_edit_before he hn (ht ▸ h.sublist) e hmem
    rw [get?_editsOf, get?_editsOf, hsame, ht, filterMap_append, hbefore, nil_append]
  · intro e' replacement hedit
    simp [Entry.isCompaction, Entry.compaction?, editOf?_eq_some hedit]

theorem Layout.kept_messages :
    (keptEntries x.id path).flatMap (tailMessages (editsOf (keptEntries x.id path))) =
      nonSystem ((x :: b).flatMap (tailMessages (editsOf tail))) := by
  have hedits : ∀ e ∈ (x :: b).filter (fun e => !e.isSystem),
      tailMessages (editsOf (keptEntries x.id path)) e = tailMessages (editsOf tail) e := by
    intro e hmem
    unfold tailMessages
    rw [h.edits hn he ht e (mem_filter.mp hmem).1]
  rw [nonSystem_flatMap, ← flatMap_compactions, h.kept a x b ht, flatMap_compactions]
  exact flatMap_congr hedits

end

theorem messages_compacted (path : List Entry) (e : Entry) (c : Compaction) (hc : e.compaction? = some c)
    (hfresh : e.id ∉ ids path) (he : EditsBefore path) :
    (projectPath (path ++ [e])).messages = sessionEntryToContextMessages e ++
      (keptEntries c.firstKeptEntryId path).flatMap
        (tailMessages (editsOf (keptEntries c.firstKeptEntryId path))) := by
  have hsub : (keptEntries c.firstKeptEntryId path).Sublist path :=
    filter_sublist.trans (dropWhile_sublist _)
  have hmessages := messages_split path [] e c hc (by simp) hfresh
  rw [append_nil, no_edit_of_fresh he hsub e.id hfresh] at hmessages
  exact hmessages

theorem systemMessages_kept (edits : List (EntryId × Option Content)) (id : EntryId) (path : List Entry) :
    systemMessages ((keptEntries id path).flatMap (tailMessages edits)) = [] := by
  refine filterMap_eq_nil_iff.mpr (fun message hmem => ?_)
  obtain ⟨e, he, hin⟩ := mem_flatMap.mp hmem
  have hsys : e.isSystem = false := by simpa using (mem_filter.mp he).2
  rcases tailMessages_cases edits e with hnil | ⟨message', hone, hm⟩
  · rw [hnil] at hin
    cases hin
  · rw [hone, mem_singleton] at hin
    rw [hsys, ← hin] at hm
    cases message with
    | system => cases hm
    | _ => rfl

theorem systemMessages_compaction (h : e.compaction? = some c) :
    systemMessages (sessionEntryToContextMessages e) = c.systemMessage.toList := by
  rw [sessionEntry_compaction h]
  cases c.systemMessage <;> rfl

/-! ## The cut, in a layout -/

theorem projected_silent (e : Entry) (edit : Option (Option Content)) (messages : List Message)
    (hm : messages = [] ∨ messages = projectContextEntry e edit)
    (h : (ProjectedSessionEntry.mk e messages).isIntrinsicallyVisible = false) : messages = [] := by
  rcases hm with hnil | hshown
  · exact hnil
  · have hnone : sessionEntryToContextMessages e = [] := by
      unfold ProjectedSessionEntry.isIntrinsicallyVisible ProjectedSessionEntry.isContextEdit at h
      obtain ⟨id, parentId, timestamp, body⟩ := e
      cases body with
      | contextEdit => rfl
      | _ => simpa using h
    rw [hshown]
    unfold projectContextEntry
    rcases edit with _ | _ | replacement
    · exact hnone
    · rfl
    · rw [hnone]
      rfl

theorem Layout.silent (h : Layout path front tail) :
    ∀ e ∈ (projectPath path).entries, e.isIntrinsicallyVisible = false → e.messages = [] := by
  intro e he hv
  rw [h.entries] at he
  rcases mem_append.mp he with he | he
  · exact projected_silent e.sourceEntry none e.messages (Or.inr (h.shows e he).2.2) hv
  · obtain ⟨x, -, rfl⟩ := mem_map.mp he
    refine projected_silent x (get? (editsOf tail) x.id) _ ?_ hv
    show tailMessages (editsOf tail) x = [] ∨ tailMessages (editsOf tail) x = _
    unfold tailMessages
    split
    · exact Or.inl rfl
    · exact Or.inr rfl

theorem Layout.boundary (h : Layout path front tail) :
    (((projectPath path).entries.zipIdx.find?
      (fun (e, _) => e.sourceEntry.isCompaction && !e.messages.isEmpty)).map (fun (_, i) => i + 1)).getD 0 =
        front.length := by
  have hone := h.one
  have hshows := h.shows
  rw [h.entries]
  match front, hone, hshows with
  | [], _, _ =>
    have hnone : ((tail.map (tailEntry (editsOf tail))).zipIdx.find?
        (fun (e, _) => e.sourceEntry.isCompaction && !e.messages.isEmpty)) = none := by
      refine find?_eq_none.mpr ?_
      rintro ⟨e, i⟩ hmem
      obtain ⟨x, -, rfl⟩ := mem_map.mp (fst_mem_of_mem_zipIdx hmem)
      simp only [tailEntry, Bool.and_eq_true, not_and]
      intro hc
      simp [tailMessages_compaction _ x hc]
    rw [nil_append, hnone]
    rfl
  | [x], _, hx =>
    obtain ⟨hc, hm, -⟩ := hx x (mem_singleton.mpr rfl)
    simp [zipIdx_cons, hc, hm]

theorem forCompaction_tail (edits : List (EntryId × Option Content)) (e : Entry) :
    getMessagesFromProjectedEntryForCompaction (tailEntry edits e) = nonSystem (tailMessages edits e) := by
  unfold getMessagesFromProjectedEntryForCompaction tailEntry
  split
  · rename_i hc
    rw [tailMessages_compaction edits e hc]
    rfl
  · rfl

theorem flatMap_forCompaction (edits : List (EntryId × Option Content)) (entries : List Entry) :
    (entries.map (tailEntry edits)).flatMap getMessagesFromProjectedEntryForCompaction =
      nonSystem (entries.flatMap (tailMessages edits)) := by
  induction entries with
  | nil => rfl
  | cons e entries ih => rw [map_cons, flatMap_cons, flatMap_cons, nonSystem_append, ih, forCompaction_tail]

theorem slice_append {α : Type} (l : List α) {a b c : ℕ} (hab : a ≤ b) (hbc : b ≤ c) :
    slice l a b ++ slice l b c = slice l a c := by
  unfold slice
  rw [← List.take_append_drop (b - a) ((l.take c).drop a), drop_drop, show a + (b - a) = b by omega]
  congr 1
  rw [drop_take, drop_take, take_take]
  congr 1
  omega

theorem slice_self {α : Type} (l : List α) (a : ℕ) : slice l a a = [] := by
  unfold slice
  rw [drop_eq_nil_iff, length_take]
  omega

theorem slice_after {α : Type} (a b : List α) (k : ℕ) : slice (a ++ b) a.length (a.length + k) = b.take k := by
  unfold slice
  rw [take_length_add_append, drop_left]

theorem projection_linear (hl : Linear path) (hn : (ids path).Nodup) :
    Session.buildSessionProjection path .omitted (buildEntryIndex path) = projectPath path := by
  unfold Session.buildSessionProjection
  rw [buildEntryIndex_eq path hn, (buildSessionPath_linear hl hn).1]

theorem prepareCompaction_spec {P : Ai.JsonTexts} {keepRecentTokens : ℚ} {p : CompactionPreparation}
    (hl : Linear path) (hn : (ids path).Nodup) (h : Layout path front tail)
    (hp : prepareCompaction P path keepRecentTokens = some p) :
    ∃ a x b, tail = a ++ x :: b ∧ p.firstKeptEntryId = x.id ∧
      p.messagesToSummarize ++ p.turnPrefixMessages = nonSystem (a.flatMap (tailMessages (editsOf tail))) ∧
      Begins ((x :: b).map (tailEntry (editsOf tail))) := by
  unfold prepareCompaction at hp
  rw [projection_linear hl hn] at hp
  split at hp
  · cases hp
  simp only [h.boundary] at hp
  obtain ⟨hle, hturn, hbegins⟩ := findProjectedCutPoint_spec P (projectPath path).entries front.length keepRecentTokens
    h.silent
  generalize findProjectedCutPoint P (projectPath path).entries front.length keepRecentTokens = cutPoint at *
  split at hp
  · cases hp
  rename_i e he
  rw [ite_none_left_eq_some] at hp
  obtain ⟨hmessages, hp⟩ := hp
  obtain rfl := some.inj hp
  obtain ⟨k, hk⟩ := Nat.exists_eq_add_of_le hle
  -- what is summarized is one range of the entries
  have hrange : ∀ historyEnd turnPrefix,
      (if cutPoint.isSplitTurn then cutPoint.turnStartIndex.getD 0 else cutPoint.firstKeptEntryIndex) = historyEnd →
      (if cutPoint.isSplitTurn then
        (slice (projectPath path).entries (cutPoint.turnStartIndex.getD 0) cutPoint.firstKeptEntryIndex).flatMap
          getMessagesFromProjectedEntryForCompaction else []) = turnPrefix →
      (slice (projectPath path).entries front.length historyEnd).flatMap getMessagesFromProjectedEntryForCompaction ++
          turnPrefix =
        (slice (projectPath path).entries front.length cutPoint.firstKeptEntryIndex).flatMap
          getMessagesFromProjectedEntryForCompaction := by
    rintro _ _ rfl rfl
    cases hsplit : cutPoint.isSplitTurn with
    | false => simp
    | true =>
      obtain ⟨h1, h2⟩ := hturn hsplit
      rw [if_pos rfl, if_pos rfl, ← flatMap_append, slice_append _ h1 h2]
  have hall := hrange _ _ rfl rfl
  rw [h.entries, hk, getElem?_append_right (by omega), Nat.add_sub_cancel_left, getElem?_map] at he
  obtain ⟨x, hx, rfl⟩ := map_eq_some_iff.mp he
  obtain ⟨hlt, hget⟩ := List.getElem?_eq_some_iff.mp hx
  have htail : tail = tail.take k ++ x :: tail.drop (k + 1) := by
    rw [← hget, ← drop_eq_getElem_cons hlt, List.take_append_drop]
  refine ⟨tail.take k, x, tail.drop (k + 1), htail, rfl, ?_, ?_⟩
  · refine hall.trans ?_
    rw [hk, h.entries, slice_after, ← map_take, flatMap_forCompaction]
  · rcases hbegins with ⟨hstart, hsplit⟩ | hbegins
    · -- nothing would be summarized
      exfalso
      refine hmessages ?_
      simp [hsplit, hstart, slice_self]
    · rw [hk, h.entries, drop_length_add_append, ← map_drop, drop_eq_getElem_cons hlt, hget] at hbegins
      exact hbegins

theorem Begins.head (edits : List (EntryId × Option Content)) (entries : List Entry)
    (h : Begins (entries.map (tailEntry edits))) :
    ((nonSystem (entries.flatMap (tailMessages edits))).head?.all (fun message => !message.isToolResult)) = true := by
  obtain ⟨a, b, hab, ha, hb⟩ := h
  obtain ⟨a, b, rfl, rfl, rfl⟩ := map_eq_append_iff.mp hab
  have hnone : a.flatMap (tailMessages edits) = [] :=
    flatMap_eq_nil_iff.mpr (fun e he => ha (tailEntry edits e) (mem_map_of_mem he))
  rw [flatMap_append, hnone, nil_append]
  rcases hb with hnil | ⟨e, b', hcons, hpoint⟩
  · rw [map_eq_nil_iff.mp hnil]
    rfl
  · obtain ⟨x, b, rfl, rfl, -⟩ := map_eq_cons_iff.mp hcons
    unfold ProjectedSessionEntry.isCutPoint tailEntry at hpoint
    rw [Bool.and_eq_true] at hpoint
    obtain ⟨-, hany⟩ := hpoint
    rw [flatMap_cons]
    rcases tailMessages_cases edits x with hnil | ⟨message, hone, -⟩
    · simp [hnil] at hany
    · rw [hone] at hany ⊢
      cases message <;> simp [isCutPointMessage, nonSystem, Message.isSystem, Message.isToolResult] at hany ⊢

/-! ## Compacting a session -/

theorem projection_branch {codec : Codec} {m : Manager} (h : Invariant codec m) :
    m.buildSessionProjection = projectPath (getBranch (indexOf m.entries) m.leafId) := by
  unfold Manager.buildSessionProjection Session.buildSessionProjection
  rw [h.byId]
  cases hl : m.leafId with
  | none => simp [Leaf.ofOption, buildSessionPath, getBranch]
  | some leafId =>
    obtain ⟨e, he, rfl⟩ := mem_map.mp (h.leaf leafId hl)
    rw [buildSessionPath_at h.tree e he]

/-- A compaction summarizes what it does not keep: no message is lost or doubled, and prompt and tools stay. -/
theorem compaction_keeps_messages (codec : Codec) (P : Ai.JsonTexts) (m m' : Manager) (hm : Built codec m)
    (keepRecentTokens : ℚ) (p : CompactionPreparation)
    (hp : prepareCompaction P (getBranch m.byId m.leafId) keepRecentTokens = some p) (summary : JsString)
    (tokensBefore : ℤ) (rest : JsonValue) (id : EntryId) (time : Time) (hfresh : id ∉ ids m.entries)
    (ha : m.append codec (.compaction summary (some p.firstKeptEntryId) tokensBefore rest) id time .succeeds = .done m') :
    (∃ kept, nonSystem m'.buildSessionProjection.messages = .compactionSummary summary tokensBefore time :: kept ∧
      previousSummary (getBranch m.byId m.leafId) ++ (p.messagesToSummarize ++ p.turnPrefixMessages ++ kept) =
        nonSystem m.buildSessionProjection.messages ∧
      kept.head?.all (fun message => !message.isToolResult) = true) ∧
    getCurrentSystemPrompt m'.buildSessionProjection.messages = getCurrentSystemPrompt m.buildSessionProjection.messages ∧
    getCurrentTools m'.buildSessionProjection.messages = getCurrentTools m.buildSessionProjection.messages := by
  have h := hm.invariant
  have h' := (hm.append _ id time hfresh ha).invariant
  obtain ⟨body, hbody, hentries, -, hleaf, -⟩ := append_spec ha
  have hbody' := some.inj hbody
  obtain ⟨c, hcbody, hsummary, hkeep, htokens, hsystem⟩ : ∃ c : Compaction, body = .compaction c ∧ c.summary = summary ∧
      c.firstKeptEntryId = p.firstKeptEntryId ∧ c.tokensBefore = tokensBefore ∧
      c.systemMessage = (getCurrentSystemMessage m.buildSessionProjection.messages).map
        (fun message => { message with timestamp := time }) := ⟨_, hbody'.symm, rfl, rfl, rfl, rfl⟩
  generalize hx : (⟨id, m.parentOf (.compaction summary (some p.firstKeptEntryId) tokensBefore rest), time, body⟩ : Entry)
    = x at hentries
  have hxid : x.id = id := by rw [← hx]
  have hxp : x.parentId = m.leafId := by rw [← hx]; rfl
  have hxt : x.timestamp = time := by rw [← hx]
  have hxc : x.compaction? = some c := by rw [← hx, hcbody]; rfl
  -- the path before, and its layout
  rw [h.byId] at hp ⊢
  have hn : (ids (getBranch (indexOf m.entries) m.leafId)).Nodup := ((branch_spec h.tree m.leafId).2.map _).nodup h.tree.nodup
  have hedits := branch_edits h m.leafId
  have hpath : getBranch (indexOf m'.entries) m'.leafId = getBranch (indexOf m.entries) m.leafId ++ [x] := by
    have htree := h'.tree
    rw [hentries] at htree ⊢
    rw [hleaf, ← hxid, getBranch_new h.tree x (hxid ▸ hfresh) (hxp ▸ h.leaf) htree.nodup, hxp]
  have hxfresh : x.id ∉ ids (getBranch (indexOf m.entries) m.leafId) := by
    intro hmem
    obtain ⟨e, he, heid⟩ := mem_map.mp hmem
    refine hfresh ?_
    rw [← hxid, ← heid]
    exact mem_map_of_mem ((branch_spec h.tree m.leafId).2.subset he)
  have hlin := (branch_spec h.tree m.leafId).1
  have hbefore := projection_branch h
  have hafter := projection_branch h'
  rw [hpath] at hafter
  generalize getBranch (indexOf m.entries) m.leafId = path at hp hn hedits hxfresh hlin hbefore hafter ⊢
  rw [hbefore, hafter]
  have hmessages := messages_compacted path x c hxc hxfresh hedits
  refine ⟨?_, getCurrentSystemPrompt_replay _ _ time ?_, (getCurrentSystemMessage_replay _ _ time ?_).2⟩
  · obtain ⟨front, tail, hlayout⟩ := exists_layout path hn hedits
    obtain ⟨a, y, b, htail, hfirst, hsummarized, hbegins⟩ := prepareCompaction_spec hlin hn hlayout hp
    rw [hkeep, hfirst, hlayout.kept_messages hn hedits htail] at hmessages
    have hshown : (projectPath path).messages =
        front.flatMap ProjectedSessionEntry.messages ++ tail.flatMap (tailMessages (editsOf tail)) := by
      show (projectPath path).entries.flatMap ProjectedSessionEntry.messages = _
      rw [hlayout.entries, flatMap_append, flatMap_map]
      rfl
    refine ⟨nonSystem ((y :: b).flatMap (tailMessages (editsOf tail))), ?_, ?_, hbegins.head⟩
    · rw [hmessages, nonSystem_append, nonSystem_compaction hxc, hsummary, htokens, hxt]
      simp [nonSystem]
    · rw [hshown, nonSystem_append, hlayout.summary, hsummarized, ← nonSystem_append, ← flatMap_append, ← htail]
  all_goals
    rw [hmessages, ← hbefore, ← hsystem, ← systemMessages_compaction hxc]
    unfold systemMessages
    rw [filterMap_append]
    exact (congrArg _ (systemMessages_kept _ _ _)).trans (append_nil _)

/-! ## A question, its answer, and the next one -/

def chatEntry (id : EntryId) (parentId : Option EntryId) (message : Message) : Entry :=
  { id := id, parentId := parentId, timestamp := 0, body := .message message }

def chatQuestion : Message := .user (some (.text (js "hi"))) 0

def chatAnswer : Message := .assistant (some (.blocks [.text (js "ho") (.obj [])])) (js "p") (js "m") (.obj [])

def chatTexts : Ai.JsonTexts := { numberText := fun _ => [], jsonParse := fun _ => none, partialParse := fun _ => none }

def chatEntries : List Entry :=
  [chatEntry (js "e1") none chatQuestion, chatEntry (js "e2") (some (js "e1")) chatAnswer,
    chatEntry (js "e3") (some (js "e2")) chatQuestion]

def chatSession : Manager :=
  { persist := false, flushed := false, header := noteHeader, entries := chatEntries, byId := indexOf chatEntries
    labelsById := [], labelTimestampsById := [], leafId := some (js "e3"), file := none }

theorem chatSession_built : Built noteCodec chatSession := by
  refine .append (.append (.append (.new false noteHeader) (.message chatQuestion) (js "e1") 0 ?_ rfl)
    (.message chatAnswer) (js "e2") 0 ?_ rfl) (.message chatQuestion) (js "e3") 0 ?_ rfl
  · decide
  · decide
  · decide

def chatPreparation : CompactionPreparation :=
  { firstKeptEntryId := js "e3", messagesToSummarize := [chatQuestion, chatAnswer], turnPrefixMessages := []
    isSplitTurn := false, previousSummary := none }

theorem chatSession_prepared :
    prepareCompaction chatTexts (getBranch chatSession.byId chatSession.leafId) 1 = some chatPreparation := by
  rfl

theorem compaction_keeps_messages_chat : ∃ m', chatSession.append noteCodec
      (.compaction (js "greeting") (some chatPreparation.firstKeptEntryId) 3 (.obj [])) (js "c1") 1 .succeeds = .done m' ∧
    getCurrentTools m'.buildSessionProjection.messages = getCurrentTools chatSession.buildSessionProjection.messages ∧
    ∃ kept, nonSystem m'.buildSessionProjection.messages = .compactionSummary (js "greeting") 3 1 :: kept ∧
      [chatQuestion, chatAnswer] ++ kept = nonSystem chatSession.buildSessionProjection.messages := by
  obtain ⟨⟨kept, hafter, hbefore, -⟩, -, htools⟩ := compaction_keeps_messages noteCodec chatTexts chatSession _
    chatSession_built 1 chatPreparation chatSession_prepared (js "greeting") 3 (.obj []) (js "c1") 1 (by decide) rfl
  exact ⟨_, rfl, htools, kept, hafter, hbefore⟩

end PiAgent.Session
