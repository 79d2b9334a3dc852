import Mathlib.Data.List.Induction
import PiAgent.Session.Branched

/-! # The context of a path without its labels -/

namespace PiAgent.Session

open Option List

/-! ## Paths, relabelled -/

theorem relabel_append (done a b : List Entry) : relabel done (a ++ b) = relabel done a ++ relabel (done ++ a) b := by
  induction a generalizing done with
  | nil => simp [relabel]
  | cons e a ih =>
    rw [cons_append, relabel, relabel]
    cases hl : e.isLabel with
    | true => simp [ih]
    | false => simp [ih]

theorem relabelEntry_same (done : List Entry) (e : Entry) : Same e (relabelEntry done e) := by
  refine ⟨rfl, rfl, ?_⟩
  show SameBody e.body (keepFrom (done ++ [e]) e.body)
  cases e.body with
  | compaction c => exact .compaction c _
  | _ => exact .refl _

variable (done rest : List Entry)

theorem relabel_same : List.Forall₂ Same (strip rest) (relabel done rest) := by
  induction rest generalizing done with
  | nil => exact .nil
  | cons e rest ih =>
    rw [relabel]
    cases hl : e.isLabel with
    | true =>
      rw [strip_cons_label hl, if_pos rfl]
      exact ih _
    | false =>
      rw [strip_cons_other hl, if_neg (by simp)]
      exact .cons (relabelEntry_same done e) (ih _)

theorem ids_same {a b : List Entry} (h : List.Forall₂ Same a b) : ids b = ids a := by
  induction h with
  | nil => rfl
  | cons hs _ ih => rw [ids_cons, ids_cons, hs.id, ih]

variable {e e' : Entry}

theorem Same.isLabel (h : Same e e') : e'.isLabel = e.isLabel := by
  obtain ⟨id, parentId, timestamp, body⟩ := e
  obtain ⟨id', parentId', timestamp', body'⟩ := e'
  obtain ⟨-, -, hb⟩ := h
  cases hb <;> rfl

theorem Same.isSystem (h : Same e e') : e'.isSystem = e.isSystem := by
  obtain ⟨id, parentId, timestamp, body⟩ := e
  obtain ⟨id', parentId', timestamp', body'⟩ := e'
  obtain ⟨-, -, hb⟩ := h
  cases hb <;> rfl

theorem Same.isCompaction (h : Same e e') : e'.isCompaction = e.isCompaction := by
  obtain ⟨id, parentId, timestamp, body⟩ := e
  obtain ⟨id', parentId', timestamp', body'⟩ := e'
  obtain ⟨-, -, hb⟩ := h
  cases hb <;> rfl

theorem strip_of_same {a b : List Entry} (h : List.Forall₂ Same (strip a) b) : strip b = b := by
  have hall : ∀ (x y : List Entry), List.Forall₂ Same x y → (∀ e ∈ x, e.isLabel = false) → ∀ e ∈ y, e.isLabel = false := by
    intro x y hxy
    induction hxy with
    | nil => simp
    | cons hs _ ih =>
      intro hx e he
      rcases mem_cons.mp he with rfl | he
      · rw [hs.isLabel]
        exact hx _ (mem_cons_self ..)
      · exact ih (fun e he => hx e (mem_cons_of_mem _ he)) e he
  refine filter_eq_self.mpr (fun e he => ?_)
  have hno := hall _ _ h (fun e he => by simpa using (mem_filter.mp he).2) e he
  simp [hno]

theorem strip_labels {labels : List Entry} (h : ∀ e ∈ labels, e.isLabel = true) : strip labels = [] :=
  filter_eq_nil_iff.mpr (fun e he => by simp [h e he])

theorem relabel_linear (before : List Entry) (e : Entry) (after : List Entry)
    (h : relabel done rest = before ++ e :: after) : e.parentId = (ids (strip done) ++ ids before).getLast? := by
  induction rest generalizing done before with
  | nil => simp [relabel] at h
  | cons x rest ih =>
    rw [relabel] at h
    cases hl : x.isLabel with
    | true =>
      rw [hl, if_pos rfl] at h
      have hlast := ih (done ++ [x]) before h
      rwa [strip_append, strip_cons_label hl, strip_nil, append_nil] at hlast
    | false =>
      rw [hl, if_neg (by simp)] at h
      cases before with
      | nil =>
        obtain ⟨rfl, -⟩ := List.cons.inj h
        rw [ids_nil, append_nil]
        unfold ids
        rw [getLast?_map]
        rfl
      | cons y before =>
        rw [cons_append] at h
        obtain ⟨hy, hrest⟩ := List.cons.inj h
        have hlast := ih (done ++ [x]) before hrest
        rw [strip_append, strip_cons_other hl, strip_nil] at hlast
        have hid : y.id = x.id := by rw [← hy]; rfl
        rw [hlast]
        simp [hid]

/-! ## Folds that see no labels -/

variable {α : Type}

theorem foldl_strip (f : α → Entry → α) (hf : ∀ a e, e.isLabel = true → f a e = a) (entries : List Entry)
    (a : α) : (strip entries).foldl f a = entries.foldl f a := by
  induction entries generalizing a with
  | nil => rfl
  | cons e entries ih =>
    cases hl : e.isLabel with
    | true => rw [strip_cons_label hl, foldl_cons, hf a e hl, ih]
    | false => rw [strip_cons_other hl, foldl_cons, foldl_cons, ih]

theorem foldl_same (f : α → Entry → α) (hf : ∀ a e e', Same e e' → f a e' = f a e) {x y : List Entry}
    (h : List.Forall₂ Same x y) (a : α) : y.foldl f a = x.foldl f a := by
  induction h generalizing a with
  | nil => rfl
  | cons hs _ ih => rw [foldl_cons, foldl_cons, hf _ _ _ hs, ih]

theorem applySettings_label (settings : Settings) (e : Entry) (h : e.isLabel = true) : applySettings settings e = settings := by
  obtain ⟨id, parentId, timestamp, body⟩ := e
  cases body with
  | label => rfl
  | _ => cases h

theorem applySettings_same (settings : Settings) (e e' : Entry) (h : Same e e') :
    applySettings settings e' = applySettings settings e := by
  obtain ⟨id, parentId, timestamp, body⟩ := e
  obtain ⟨id', parentId', timestamp', body'⟩ := e'
  obtain ⟨-, -, hb⟩ := h
  cases hb <;> rfl

variable (edits : List (EntryId × Option Content)) (e : Entry)

theorem addEdit_label (h : e.isLabel = true) : addEdit edits e = edits := by
  obtain ⟨id, parentId, timestamp, body⟩ := e
  cases body with
  | label => rfl
  | _ => cases h

theorem addEdit_same (e e' : Entry) (h : Same e e') : addEdit edits e' = addEdit edits e := by
  obtain ⟨id, parentId, timestamp, body⟩ := e
  obtain ⟨id', parentId', timestamp', body'⟩ := e'
  obtain ⟨-, -, hb⟩ := h
  cases hb <;> rfl

/-! ## Messages -/

def tailMessages (edits : List (EntryId × Option Content)) (e : Entry) : List Message :=
  if e.isCompaction then [] else projectContextEntry e (Assoc.get? edits e.id)

theorem flatMap_mapIdx (f : ℕ → α → ProjectedSessionEntry) (g : α → List Message) (l : List α)
    (h : ∀ i, ∀ a ∈ l, (f i a).messages = g a) :
    (l.mapIdx f).flatMap ProjectedSessionEntry.messages = l.flatMap g := by
  induction l generalizing f with
  | nil => rfl
  | cons a l ih =>
    rw [mapIdx_cons, flatMap_cons, flatMap_cons, h 0 a (mem_cons_self ..),
      ih _ (fun i b hb => h (i + 1) b (mem_cons_of_mem _ hb))]

variable {e e' : Entry}

theorem sessionEntry_same (h : Same e e') : sessionEntryToContextMessages e' = sessionEntryToContextMessages e := by
  obtain ⟨id, parentId, timestamp, body⟩ := e
  obtain ⟨id', parentId', timestamp', body'⟩ := e'
  obtain ⟨-, ht, hb⟩ := h
  have ht' : timestamp' = timestamp := ht
  subst ht'
  cases hb <;> rfl

theorem projectContextEntry_same (h : Same e e') (edit : Option (Option Content)) :
    projectContextEntry e' edit = projectContextEntry e edit := by
  unfold projectContextEntry
  rw [sessionEntry_same h]

variable (e : Entry)

theorem tailMessages_label (h : e.isLabel = true) : tailMessages edits e = [] := by
  obtain ⟨id, parentId, timestamp, body⟩ := e
  cases body with
  | label targetId label =>
    unfold tailMessages projectContextEntry
    rw [if_neg (by simp [Entry.isCompaction, Entry.compaction?])]
    cases Assoc.get? edits id with
    | none => rfl
    | some edit => cases edit <;> rfl
  | _ => cases h

theorem tailMessages_same {e e' : Entry} (h : Same e e') : tailMessages edits e' = tailMessages edits e := by
  unfold tailMessages
  rw [h.isCompaction, h.id, projectContextEntry_same h]

theorem flatMap_tailMessages {x y : List Entry} (h : List.Forall₂ Same (strip x) (strip y)) :
    y.flatMap (tailMessages (editsOf y)) = x.flatMap (tailMessages (editsOf x)) := by
  have hstrip : ∀ (edits : List (EntryId × Option Content)) (l : List Entry),
      (strip l).flatMap (tailMessages edits) = l.flatMap (tailMessages edits) := by
    intro edits l
    induction l with
    | nil => rfl
    | cons e l ih =>
      cases hl : e.isLabel with
      | true => rw [strip_cons_label hl, flatMap_cons, tailMessages_label _ _ hl, nil_append, ih]
      | false => rw [strip_cons_other hl, flatMap_cons, flatMap_cons, ih]
  have hedits : editsOf y = editsOf x := by
    unfold editsOf
    rw [← foldl_strip addEdit addEdit_label y, ← foldl_strip addEdit addEdit_label x, foldl_same addEdit addEdit_same h]
  rw [hedits, ← hstrip, ← hstrip _ x]
  generalize editsOf x = edits
  generalize strip x = a, strip y = b at h
  induction h with
  | nil => rfl
  | cons hs _ ih => rw [flatMap_cons, flatMap_cons, tailMessages_same edits hs, ih]

/-! ## The latest compaction -/

theorem latestCompaction_append (p q : List Entry) (h : ∀ e ∈ q, e.compaction? = none) :
    latestCompaction (p ++ q) = latestCompaction p := by
  induction q using List.reverseRecOn with
  | nil => rw [append_nil]
  | append_singleton q e ih =>
    have he : e.compaction? = none := h e (by simp)
    have hq := ih (fun x hx => h x (mem_append_left _ hx))
    unfold latestCompaction at hq ⊢
    rw [← append_assoc, foldl_append, foldl_cons, foldl_nil, he]
    exact hq

variable (pre post : List Entry)

theorem latestCompaction_split (e : Entry) (c : Compaction) (he : e.compaction? = some c)
    (h : ∀ x ∈ post, x.compaction? = none) : latestCompaction (pre ++ e :: post) = some (e, c) := by
  rw [show pre ++ e :: post = (pre ++ [e]) ++ post by simp, latestCompaction_append _ _ h]
  unfold latestCompaction
  rw [foldl_append, foldl_cons, foldl_nil, he]

theorem compaction_cases (path : List Entry) : (latestCompaction path = none ∧ ∀ e ∈ path, e.compaction? = none) ∨
      ∃ pre e c post, path = pre ++ e :: post ∧ e.compaction? = some c ∧ ∀ x ∈ post, x.compaction? = none := by
  induction path using List.reverseRecOn with
  | nil => exact Or.inl ⟨rfl, by simp⟩
  | append_singleton path e ih =>
    cases he : e.compaction? with
    | some c => exact Or.inr ⟨path, e, c, [], rfl, he, by simp⟩
    | none =>
      have hlast : ∀ x ∈ [e], x.compaction? = none := by simpa using he
      rcases ih with ⟨hnone, hall⟩ | ⟨pre, e', c, post, rfl, he', hpost⟩
      · left
        refine ⟨(latestCompaction_append path [e] hlast).trans hnone, ?_⟩
        intro x hx
        rcases mem_append.mp hx with hx | hx
        · exact hall x hx
        · exact hlast x hx
      · right
        refine ⟨pre, e', c, post ++ [e], by simp, he', ?_⟩
        intro x hx
        rcases mem_append.mp hx with hx | hx
        · exact hpost x hx
        · exact hlast x hx

theorem findIdx_split (e : Entry) (h : e.id ∉ ids pre) :
    (pre ++ e :: post).findIdx (fun other => other.id = e.id) = pre.length := by
  induction pre with
  | nil => simp [findIdx_cons]
  | cons x pre ih =>
    have hx : ¬x.id = e.id := fun heq => h (by simp [heq])
    have hpre : e.id ∉ ids pre := fun hmem => h (mem_cons_of_mem _ hmem)
    rw [cons_append, findIdx_cons, ih hpre]
    simp [hx]

theorem contextOfPath_split (e : Entry) (c : Compaction) (he : e.compaction? = some c)
    (hpost : ∀ x ∈ post, x.compaction? = none) (hn : e.id ∉ ids pre) :
    contextOfPath (pre ++ e :: post) = e :: keptEntries c.firstKeptEntryId pre ++ post := by
  unfold contextOfPath
  rw [latestCompaction_split pre post e c he hpost]
  simp only
  rw [findIdx_split pre post e hn, take_left' rfl]
  congr 1
  rw [drop_append, drop_eq_nil_of_le (by omega)]
  simp

theorem editsOf_compaction (c : Compaction) (he : e.compaction? = some c) (tail : List Entry) :
    editsOf (e :: tail) = editsOf tail := by
  obtain ⟨id, parentId, timestamp, body⟩ := e
  cases body with
  | compaction => rfl
  | _ => cases he

theorem messages_plain (path : List Entry) (h : ∀ e ∈ path, e.compaction? = none) :
    (projectPath path).messages = path.flatMap (tailMessages (editsOf path)) := by
  have hnone : latestCompaction path = none := latestCompaction_append [] path h
  have hcontext : contextOfPath path = path := by
    unfold contextOfPath
    rw [hnone]
  unfold projectPath
  rw [hcontext]
  refine flatMap_mapIdx _ _ _ ?_
  intro i e he
  unfold projectEntry tailMessages Entry.isCompaction
  rw [h e he]
  rfl

theorem messages_split (e : Entry) (c : Compaction) (he : e.compaction? = some c)
    (hpost : ∀ x ∈ post, x.compaction? = none) (hn : e.id ∉ ids pre) :
    (projectPath (pre ++ e :: post)).messages =
      projectContextEntry e (Assoc.get? (editsOf (keptEntries c.firstKeptEntryId pre ++ post)) e.id) ++
        (keptEntries c.firstKeptEntryId pre ++ post).flatMap
          (tailMessages (editsOf (keptEntries c.firstKeptEntryId pre ++ post))) := by
  simp only [projectPath, contextOfPath_split pre post e c he hpost hn, cons_append, editsOf_compaction e c he,
    mapIdx_cons, flatMap_cons]
  congr 1
  · unfold projectEntry
    simp
  · refine flatMap_mapIdx _ _ _ ?_
    intro i x hx
    unfold projectEntry tailMessages
    simp

/-! ## A compaction keeps the same entries -/

theorem keptEntries_same {x y : List Entry} (h : List.Forall₂ Same x y) (id : EntryId) :
    List.Forall₂ Same (keptEntries id x) (keptEntries id y) := by
  have hfilter : ∀ {a b : List Entry}, List.Forall₂ Same a b →
      List.Forall₂ Same (a.filter (fun e => !e.isSystem)) (b.filter (fun e => !e.isSystem)) := by
    intro a b hab
    induction hab with
    | nil => exact .nil
    | cons hs _ ih =>
      rw [filter_cons, filter_cons, hs.isSystem]
      split
      · exact .cons hs ih
      · exact ih
  unfold keptEntries
  induction h with
  | nil => exact .nil
  | @cons e e' x y hs hxy ih =>
    rw [dropWhile_cons, dropWhile_cons, hs.id]
    split
    · exact ih
    · exact hfilter (.cons hs hxy)

theorem strip_keptEntries (pre : List Entry) (e : Entry) (id : EntryId) (he : e.isLabel = false)
    (hn : (ids (pre ++ [e])).Nodup) :
    strip (keptEntries id pre) = keptEntries (keptId (pre ++ [e]) id) (strip pre) := by
  have hcomm : ∀ l : List Entry, strip (l.filter (fun e => !e.isSystem)) = (strip l).filter (fun e => !e.isSystem) :=
    fun l => filter_comm _ _ _
  unfold keptEntries
  rw [hcomm]
  congr 1
  induction pre with
  | nil => rfl
  | cons x pre ih =>
    have hn' : (ids (pre ++ [e])).Nodup := (nodup_cons.mp hn).2
    have hx : x.id ∉ ids (pre ++ [e]) := (nodup_cons.mp hn).1
    by_cases hid : x.id = id
    · rw [dropWhile_cons, if_neg (by simp [hid])]
      have hkept : keptId (x :: pre ++ [e]) id = ((strip (x :: pre ++ [e])).head?.map Entry.id).getD id := by
        unfold keptId nextId
        rw [cons_append, dropWhile_cons, if_neg (by simp [hid])]
      rw [hkept]
      -- the first entry that is no label is the first one kept
      have hhead : ∀ l : List Entry,
          l = l.dropWhile (fun y => y.id ≠ ((l ++ [e]).head?.map Entry.id).getD id) := by
        intro l
        cases l with
        | nil => rfl
        | cons y l => simp
      have hstrip : strip (x :: pre ++ [e]) = strip (x :: pre) ++ [e] := by
        rw [strip_append, strip_cons_other he, strip_nil]
      rw [hstrip]
      exact hhead (strip (x :: pre))
    · have hnext : keptId (x :: pre ++ [e]) id = keptId (pre ++ [e]) id := by
        unfold keptId nextId
        rw [cons_append, dropWhile_cons, if_pos (by simpa using hid)]
      rw [dropWhile_cons, if_pos (by simpa using hid), ih hn', hnext]
      cases hl : x.isLabel with
      | true => rw [strip_cons_label hl]
      | false =>
        have hne : x.id ≠ keptId (pre ++ [e]) id := by
          intro heq
          unfold keptId at heq
          cases hnone : nextId (pre ++ [e]) id with
          | none =>
            rw [hnone] at heq
            exact hid heq
          | some next =>
            rw [hnone, getD_some] at heq
            unfold nextId at hnone
            obtain ⟨y, hy, rfl⟩ := map_eq_some_iff.mp hnone
            have hmem : y ∈ pre ++ [e] :=
              (dropWhile_sublist _).subset (mem_filter.mp (mem_of_head? hy)).1
            exact hx (heq ▸ mem_map_of_mem hmem)
        rw [strip_cons_other hl, dropWhile_cons, if_pos (by simpa using hne)]

/-! ## One context -/

theorem compaction?_label {e : Entry} (h : e.isLabel = true) : e.compaction? = none := by
  obtain ⟨id, parentId, timestamp, body⟩ := e
  cases body with
  | label => rfl
  | _ => cases h

theorem isLabel_compaction {e : Entry} {c : Compaction} (h : e.compaction? = some c) : e.isLabel = false := by
  cases hl : e.isLabel with
  | false => rfl
  | true =>
    rw [compaction?_label hl] at h
    cases h

theorem compaction?_relabel (h : ∀ e ∈ rest, e.compaction? = none) :
    ∀ e ∈ relabel done rest, e.compaction? = none := by
  induction rest generalizing done with
  | nil => simp [relabel]
  | cons x rest ih =>
    intro e he
    rw [relabel] at he
    have hrest := ih (done ++ [x]) (fun y hy => h y (mem_cons_of_mem _ hy))
    split at he
    · exact hrest e he
    · rcases mem_cons.mp he with rfl | he
      · have hx : x.compaction? = none := h x (mem_cons_self ..)
        obtain ⟨id, parentId, timestamp, body⟩ := x
        cases body with
        | compaction c => cases hx
        | _ => rfl
      · exact hrest e he

theorem ids_strip_sublist (entries : List Entry) : (ids (strip entries)).Sublist (ids entries) :=
  (filter_sublist).map Entry.id

theorem ids_relabel : ids (relabel done rest) = ids (strip rest) :=
  ids_same (relabel_same done rest)

theorem contextOf_relabel (path labels : List Entry) (hn : (ids path).Nodup) (hl : ∀ e ∈ labels, e.isLabel = true) :
    contextOf (relabel [] path ++ labels) = contextOf path := by
  have hsame : List.Forall₂ Same (strip path) (strip (relabel [] path ++ labels)) := by
    rw [strip_append, strip_of_same (relabel_same [] path), strip_labels hl, append_nil]
    exact relabel_same [] path
  have hsettings : getSessionContextSettings (relabel [] path ++ labels) = getSessionContextSettings path := by
    unfold getSessionContextSettings
    rw [← foldl_strip applySettings applySettings_label, foldl_same applySettings applySettings_same hsame,
      foldl_strip applySettings applySettings_label]
  have hlabels : ∀ e ∈ labels, e.compaction? = none := fun e he => compaction?_label (hl e he)
  have hmessages : (projectPath (relabel [] path ++ labels)).messages = (projectPath path).messages := by
    rcases compaction_cases path with ⟨-, hall⟩ | ⟨pre, e, c, post, rfl, he, hpost⟩
    · rw [messages_plain path hall, messages_plain _ (by
        intro x hx
        rcases mem_append.mp hx with hx | hx
        · exact compaction?_relabel [] path hall x hx
        · exact hlabels x hx)]
      exact flatMap_tailMessages hsame
    · have hel : e.isLabel = false := isLabel_compaction he
      have hn' : (ids (pre ++ [e])).Nodup := by
        rw [show pre ++ e :: post = (pre ++ [e]) ++ post by simp, ids_append] at hn
        exact (nodup_append.mp hn).1
      have hfresh : e.id ∉ ids pre := by
        rw [ids_append, nodup_append] at hn'
        exact fun hmem => hn'.2.2 _ hmem _ (mem_cons_self ..) rfl
      have hc : (relabelEntry pre e).compaction? =
          some { c with firstKeptEntryId := keptId (pre ++ [e]) c.firstKeptEntryId } := by
        obtain ⟨id, parentId, timestamp, body⟩ := e
        cases body with
        | compaction c' =>
          obtain rfl : c' = c := some.inj he
          rfl
        | _ => cases he
      have hpath : relabel [] (pre ++ e :: post) ++ labels =
          relabel [] pre ++ relabelEntry pre e :: (relabel (pre ++ [e]) post ++ labels) := by
        rw [relabel_append, nil_append, relabel, if_neg (by simp [hel])]
        simp
      have hfresh' : (relabelEntry pre e).id ∉ ids (relabel [] pre) := by
        rw [ids_relabel]
        exact fun hmem => hfresh ((ids_strip_sublist pre).subset hmem)
      have htail : List.Forall₂ Same (strip (keptEntries c.firstKeptEntryId pre ++ post))
          (strip (keptEntries (keptId (pre ++ [e]) c.firstKeptEntryId) (relabel [] pre) ++
            (relabel (pre ++ [e]) post ++ labels))) := by
        have hkept := keptEntries_same (relabel_same [] pre) (keptId (pre ++ [e]) c.firstKeptEntryId)
        rw [← strip_keptEntries pre e c.firstKeptEntryId hel hn'] at hkept
        have hpost' := relabel_same (pre ++ [e]) post
        rw [strip_append, strip_append, strip_append, strip_of_same hkept, strip_of_same hpost', strip_labels hl,
          append_nil]
        exact rel_append hkept hpost'
      have hedits : editsOf (keptEntries (keptId (pre ++ [e]) c.firstKeptEntryId) (relabel [] pre) ++
          (relabel (pre ++ [e]) post ++ labels)) = editsOf (keptEntries c.firstKeptEntryId pre ++ post) := by
        unfold editsOf
        rw [← foldl_strip addEdit addEdit_label, foldl_same addEdit addEdit_same htail, foldl_strip addEdit addEdit_label]
      rw [hpath, messages_split pre post e c he hpost hfresh,
        messages_split (relabel [] pre) _ (relabelEntry pre e) _ hc (by
          intro x hx
          rcases mem_append.mp hx with hx | hx
          · exact compaction?_relabel _ post hpost x hx
          · exact hlabels x hx) hfresh']
      congr 1
      · show projectContextEntry (relabelEntry pre e) (Assoc.get? _ e.id) = _
        rw [projectContextEntry_same (relabelEntry_same pre e), hedits]
      · exact flatMap_tailMessages htail
  unfold contextOf
  rw [hmessages]
  show SessionContext.mk _ (getSessionContextSettings _).thinkingLevel (getSessionContextSettings _).model = _
  rw [hsettings]
  rfl

end PiAgent.Session
