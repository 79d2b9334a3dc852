import Mathlib.Data.List.TakeWhile
import PiAgent.Session.Built

/-!
# A path without its labels

`createBranchedSession` drops the labels of a path and chains the rest again. A
compaction that keeps from a label keeps from the next entry that is none. So the
entries, in their order, and the context stay as they are.
-/

namespace PiAgent.Session

open List

def strip (entries : List Entry) : List Entry := entries.filter (fun e => !e.isLabel)

@[simp] theorem strip_nil : strip [] = [] := rfl

@[simp] theorem strip_append (a b : List Entry) : strip (a ++ b) = strip a ++ strip b := filter_append _ _

theorem strip_cons_label {e : Entry} (h : e.isLabel = true) (entries : List Entry) : strip (e :: entries) = strip entries := by
  simp [strip, h]

theorem strip_cons_other {e : Entry} (h : e.isLabel = false) (entries : List Entry) :
    strip (e :: entries) = e :: strip entries := by
  simp [strip, h]

/-- The same body, but for what a compaction keeps from. -/
inductive SameBody : EntryBody → EntryBody → Prop
  | refl (body : EntryBody) : SameBody body body
  | compaction (c : Compaction) (firstKeptEntryId : EntryId) :
      SameBody (.compaction c) (.compaction { c with firstKeptEntryId := firstKeptEntryId })

/-- The same entry, but for its parent and what it keeps from. -/
structure Same (e e' : Entry) : Prop where
  id : e'.id = e.id
  timestamp : e'.timestamp = e.timestamp
  body : SameBody e.body e'.body

/-! ## What a compaction keeps from -/

/-- The first entry from `id` on that is no label. -/
def nextId (entries : List Entry) (id : EntryId) : Option EntryId :=
  (strip (entries.dropWhile (fun e => e.id ≠ id))).head?.map Entry.id

def keptId (entries : List Entry) (id : EntryId) : EntryId := (nextId entries id).getD id

theorem dropWhile_eq_nil (entries : List Entry) (id : EntryId) :
    entries.dropWhile (fun e => e.id ≠ id) = [] ↔ id ∉ ids entries := by
  rw [dropWhile_eq_nil_iff]
  constructor
  · intro h hmem
    obtain ⟨e, he, rfl⟩ := mem_map.mp hmem
    simpa using h e he
  · intro h e he
    have hne : e.id ≠ id := fun heq => h (heq ▸ mem_map_of_mem he)
    simpa using hne

theorem nextId_snoc (entries : List Entry) (e : Entry) (id : EntryId) : nextId (entries ++ [e]) id =
      if id ∈ ids entries then (nextId entries id).or (if e.isLabel then none else some e.id)
      else if e.id = id ∧ e.isLabel = false then some e.id else none := by
  unfold nextId
  rw [dropWhile_append]
  by_cases hmem : id ∈ ids entries
  · have hne : (entries.dropWhile (fun e => e.id ≠ id)).isEmpty = false := by
      rw [isEmpty_eq_false_iff]
      exact fun hnil => (dropWhile_eq_nil entries id).mp hnil hmem
    rw [if_neg (by rw [hne]; simp), if_pos hmem, strip_append, head?_append]
    cases hl : e.isLabel with
    | true =>
      rw [strip_cons_label hl]
      cases (strip (entries.dropWhile (fun e => e.id ≠ id))).head? <;> rfl
    | false =>
      rw [strip_cons_other hl]
      cases (strip (entries.dropWhile (fun e => e.id ≠ id))).head? <;> rfl
  · rw [if_pos (by rw [(dropWhile_eq_nil entries id).mpr hmem]; rfl), if_neg hmem]
    by_cases hid : e.id = id
    · cases hl : e.isLabel with
      | true => simp [hid, strip_cons_label hl]
      | false => simp [hid, strip_cons_other hl]
    · simp [hid]

def keepFrom (entries : List Entry) : EntryBody → EntryBody
  | .compaction c => .compaction { c with firstKeptEntryId := keptId entries c.firstKeptEntryId }
  | body => body

/-- An entry in its place among the rest, with `done` before it. -/
def relabelEntry (done : List Entry) (e : Entry) : Entry :=
  { e with parentId := (strip done).getLast?.map Entry.id, body := keepFrom (done ++ [e]) e.body }

def relabel : List Entry → List Entry → List Entry
  | _, [] => []
  | done, e :: rest => if e.isLabel then relabel (done ++ [e]) rest else relabelEntry done e :: relabel (done ++ [e]) rest

theorem get?_foldl_set (pending : List EntryId) (target : EntryId) (replaced : List (EntryId × EntryId)) (id : EntryId) :
    Assoc.get? (pending.foldl (fun replaced labelId => Assoc.set replaced labelId target) replaced) id =
      if id ∈ pending then some target else Assoc.get? replaced id := by
  induction pending generalizing replaced with
  | nil => rfl
  | cons labelId pending ih =>
    rw [foldl_cons, ih, Assoc.get?_set]
    by_cases hid : id = labelId
    · simp [hid]
    · simp [hid, Ne.symm hid]

theorem retarget_eq (done : List Entry) (e : Entry) (replaced : List (EntryId × EntryId)) (hfresh : e.id ∉ ids done)
    (hl : e.isLabel = false) (hr : ∀ id, (Assoc.get? replaced id).getD id = keptId (done ++ [e]) id) :
    Manager.retarget replaced e = keepFrom (done ++ [e]) e.body := by
  obtain ⟨id, parentId, timestamp, body⟩ := e
  cases body with
  | compaction c =>
    simp only [Manager.retarget, keepFrom]
    split
    · rename_i heq
      have hself : keptId (done ++ [⟨id, parentId, timestamp, .compaction c⟩]) c.firstKeptEntryId = id := by
        unfold keptId
        rw [nextId_snoc, heq, if_neg hfresh]
        simp [hl]
      rw [hself]
    · rw [hr]
  | _ => rfl

theorem withoutLabels_eq (rest done : List Entry) (parentId : Option EntryId) (pending : List EntryId)
    (replaced : List (EntryId × EntryId)) (hn : (ids (done ++ rest)).Nodup)
    (hparent : parentId = (strip done).getLast?.map Entry.id)
    (hpending : ∀ id, id ∈ pending ↔ id ∈ ids done ∧ nextId done id = none)
    (hreplaced : ∀ id, id ∉ pending → (Assoc.get? replaced id).getD id = keptId done id) :
    Manager.withoutLabels parentId pending replaced rest = relabel done rest := by
  induction rest generalizing done parentId pending replaced with
  | nil => rfl
  | cons e rest ih =>
    have hn' : (ids (done ++ [e] ++ rest)).Nodup := by simpa using hn
    have hfresh : e.id ∉ ids done := by
      rw [ids_append, nodup_append] at hn
      exact fun hmem => hn.2.2 _ hmem _ (mem_cons_self ..) rfl
    rw [Manager.withoutLabels, relabel]
    cases hl : e.isLabel with
    | true =>
      rw [if_pos rfl, if_pos rfl]
      refine ih (done ++ [e]) parentId _ _ hn' ?_ ?_ ?_
      · rw [strip_append, strip_cons_label hl, strip_nil, append_nil]
        exact hparent
      · intro id
        rw [nextId_snoc, ids_append, mem_append, mem_append, hpending id]
        by_cases hmem : id ∈ ids done
        · have hne : id ≠ e.id := fun heq => hfresh (heq ▸ hmem)
          simp [hmem, hl, hne]
        · simp [hmem, hl]
      · intro id hid
        rw [mem_append, not_or] at hid
        have hne : e.id ≠ id := fun heq => hid.2 (by simp [heq])
        rw [hreplaced id hid.1]
        unfold keptId
        rw [nextId_snoc]
        by_cases hmem : id ∈ ids done
        · simp [hmem, hl]
        · have hnone : nextId done id = none := by
            unfold nextId
            rw [(dropWhile_eq_nil done id).mpr hmem]
            rfl
          simp [hmem, hne, hnone]
    | false =>
      rw [if_neg (by simp), if_neg (by simp)]
      -- once the entry is reached, every label before it has a replacement
      have hkept : ∀ id, (Assoc.get? (pending.foldl (fun replaced labelId => Assoc.set replaced labelId e.id) replaced)
          id).getD id = keptId (done ++ [e]) id := by
        intro id
        rw [get?_foldl_set]
        unfold keptId
        rw [nextId_snoc]
        by_cases hmem : id ∈ ids done
        · by_cases hpend : id ∈ pending
          · have hnone := ((hpending id).mp hpend).2
            simp [hmem, hpend, hnone, hl]
          · have hsome : nextId done id ≠ none := fun hnone => hpend ((hpending id).mpr ⟨hmem, hnone⟩)
            have hr := hreplaced id hpend
            unfold keptId at hr
            obtain ⟨next, hnext⟩ := Option.ne_none_iff_exists'.mp hsome
            rw [hnext] at hr ⊢
            simp [hmem, hpend, hr]
        · have hpend : id ∉ pending := fun hp => hmem ((hpending id).mp hp).1
          have hr := hreplaced id hpend
          have hnone : nextId done id = none := by
            unfold nextId
            rw [(dropWhile_eq_nil done id).mpr hmem]
            rfl
          unfold keptId at hr
          rw [hnone] at hr
          by_cases hid : e.id = id
          · simp [hmem, hpend, hr, hid, hl]
          · simp [hmem, hpend, hr, hid]
      refine congrArg₂ List.cons ?_ ?_
      · unfold relabelEntry
        rw [hparent, retarget_eq done e _ hfresh hl hkept]
      · refine ih (done ++ [e]) (some e.id) [] _ hn' ?_ ?_ ?_
        · rw [strip_append, strip_cons_other hl, strip_nil, getLast?_concat]
          rfl
        · intro id
          rw [nextId_snoc]
          by_cases hmem : id ∈ ids done
          · cases hnext : nextId done id <;> simp [hmem, hl]
          · by_cases hid : e.id = id
            · simp [hmem, hid, hl]
            · simp [hmem, hid, Ne.symm hid]
        · exact fun id _ => hkept id

end PiAgent.Session
