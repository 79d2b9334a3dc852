import PiAgent.Session.Manager

/-! # The tree of a session -/

namespace PiAgent.Session

open List Assoc

def ids (entries : List Entry) : List EntryId := entries.map Entry.id

@[simp] theorem ids_nil : ids [] = [] := rfl

variable (e : Entry) (entries : List Entry)

@[simp] theorem ids_cons : ids (e :: entries) = e.id :: ids entries := rfl

@[simp] theorem ids_append (a b : List Entry) : ids (a ++ b) = ids a ++ ids b := map_append

/-! ## Indexes -/

def indexOf (entries : List Entry) : Index := entries.map (fun entry => (entry.id, entry))

theorem keys_indexOf : keys (indexOf entries) = ids entries := by
  unfold Assoc.keys indexOf ids
  rw [map_map]
  rfl

theorem indexOf_snoc (e : Entry) (h : e.id ∉ ids entries) :
    set (indexOf entries) e.id e = indexOf (entries ++ [e]) := by
  rw [set_new _ _ _ (by rwa [keys_indexOf])]
  simp [indexOf]

theorem buildEntryIndex_eq (h : (ids entries).Nodup) : buildEntryIndex entries = indexOf entries := by
  have hset := foldl_set_new Entry.id (fun e => e) entries [] (by simpa [Assoc.keys, ids] using h)
  unfold buildEntryIndex
  rw [hset]
  rfl

theorem get?_indexOf (h : (ids entries).Nodup) (e : Entry) (he : e ∈ entries) :
    get? (indexOf entries) e.id = some e := by
  refine get?_of_mem _ _ _ (by rwa [keys_indexOf]) ?_
  exact mem_map.mpr ⟨e, he, rfl⟩

variable (id : EntryId)

theorem mem_of_get?_indexOf (e : Entry) (h : get? (indexOf entries) id = some e) : e ∈ entries ∧ e.id = id := by
  obtain ⟨e', he', heq⟩ := mem_map.mp (mem_of_get? _ _ _ h)
  obtain ⟨rfl, rfl⟩ := Prod.mk.inj heq
  exact ⟨he', rfl⟩

theorem get?_indexOf_none : get? (indexOf entries) id = none ↔ id ∉ ids entries := by
  rw [get?_eq_none_iff, keys_indexOf]

theorem has_indexOf : has (indexOf entries) id = true ↔ id ∈ ids entries := by
  rw [has_iff, keys_indexOf]

/-! ## Trees -/

structure IsTree (entries : List Entry) : Prop where
  nodup : (ids entries).Nodup
  parents : ∀ (before : List Entry) (e : Entry) (after : List Entry), entries = before ++ e :: after →
    ∀ p, e.parentId = some p → p ∈ ids before

theorem IsTree.nil : IsTree [] :=
  ⟨nodup_nil, fun before e after h => by simp at h⟩

variable {entries : List Entry}

theorem IsTree.snoc (h : IsTree entries) (e : Entry) (hfresh : e.id ∉ ids entries)
    (hp : ∀ p, e.parentId = some p → p ∈ ids entries) : IsTree (entries ++ [e]) := by
  refine ⟨?_, ?_⟩
  · rw [ids_append, nodup_append]
    refine ⟨h.nodup, by simp, ?_⟩
    rintro a ha b hb rfl
    rw [mem_singleton.mp hb] at ha
    exact hfresh ha
  · intro before x after heq p hpx
    rcases eq_nil_or_concat after with rfl | ⟨after', y, rfl⟩
    · obtain ⟨rfl, hx⟩ := append_inj' heq rfl
      obtain rfl : e = x := by simpa using hx
      exact hp p hpx
    · have heq' : entries ++ [e] = (before ++ x :: after') ++ [y] := by simpa using heq
      obtain ⟨rfl, -⟩ := append_inj' heq' rfl
      exact h.parents before x after' rfl p hpx

def Linear (path : List Entry) : Prop :=
  ∀ (before : List Entry) (e : Entry) (after : List Entry), path = before ++ e :: after →
    e.parentId = before.getLast?.map Entry.id

theorem Linear.nil : Linear [] := fun before e after h => by simp at h

variable {path : List Entry}

theorem Linear.snoc (h : Linear path) (e : Entry) (hp : e.parentId = path.getLast?.map Entry.id) :
    Linear (path ++ [e]) := by
  intro before x after heq
  rcases eq_nil_or_concat after with rfl | ⟨after', y, rfl⟩
  · obtain ⟨rfl, hx⟩ := append_inj' heq rfl
    obtain rfl : e = x := by simpa using hx
    exact hp
  · have heq' : path ++ [e] = (before ++ x :: after') ++ [y] := by simpa using heq
    obtain ⟨rfl, -⟩ := append_inj' heq' rfl
    exact h before x after' rfl

theorem Linear.isTree (h : Linear path) (hn : (ids path).Nodup) : IsTree path := by
  refine ⟨hn, ?_⟩
  intro before e after heq p hp
  rw [h before e after heq] at hp
  obtain ⟨last, hlast, rfl⟩ := Option.map_eq_some_iff.mp hp
  exact mem_map.mpr ⟨last, mem_of_getLast? hlast, rfl⟩

/-! ## The walk to the root -/

@[simp] theorem ancestors_none (index : Index) (fuel : ℕ) : ancestors index fuel none = [] := by
  cases fuel <;> rfl

theorem walk_spec (h : IsTree entries) (fuel : ℕ) (before : List Entry) (e : Entry)
    (after : List Entry) (heq : entries = before ++ e :: after) (hfuel : before.length < fuel) :
    ∃ path, (ancestors (indexOf entries) fuel (some e)).reverse = path ++ [e] ∧ Linear (path ++ [e]) ∧
      (path ++ [e]).Sublist (before ++ [e]) := by
  induction fuel generalizing before e after with
  | zero => omega
  | succ fuel ih =>
    rw [ancestors, reverse_cons]
    cases hp : e.parentId with
    | none =>
      refine ⟨[], by simp, Linear.nil.snoc e (by simpa using hp), ?_⟩
      exact sublist_append_right before [e]
    | some p =>
      obtain ⟨parent, hmem, rfl⟩ := mem_map.mp (h.parents before e after heq p hp)
      obtain ⟨before', between, rfl⟩ := append_of_mem hmem
      have heq' : entries = before' ++ parent :: (between ++ e :: after) := by
        rw [heq]
        simp
      have hget : get? (indexOf entries) parent.id = some parent :=
        get?_indexOf entries h.nodup parent (by rw [heq']; simp)
      obtain ⟨path, hpath, hlin, hsub⟩ := ih before' parent _ heq' (by
        rw [length_append, length_cons] at hfuel
        omega)
      rw [Option.bind_some, hget, hpath]
      refine ⟨path ++ [parent], rfl, hlin.snoc e (by simp [hp]), ?_⟩
      refine List.Sublist.append ?_ (List.Sublist.refl [e])
      refine hsub.trans ?_
      rw [show before' ++ parent :: between = (before' ++ [parent]) ++ between by simp]
      exact sublist_append_left _ _

theorem length_indexOf (entries : List Entry) : (indexOf entries).length = entries.length := by simp [indexOf]

theorem getBranch_spec (h : IsTree entries) (e : Entry) (he : e ∈ entries) :
    ∃ path, getBranch (indexOf entries) (some e.id) = path ++ [e] ∧ Linear (path ++ [e]) ∧
      (path ++ [e]).Sublist entries := by
  obtain ⟨before, after, heq⟩ := append_of_mem he
  obtain ⟨path, hpath, hlin, hsub⟩ := walk_spec h (indexOf entries).length before e after heq (by
    rw [length_indexOf, heq, length_append, length_cons]
    omega)
  refine ⟨path, ?_, hlin, hsub.trans ?_⟩
  · unfold getBranch
    rw [Option.bind_some, get?_indexOf entries h.nodup e he]
    exact hpath
  · rw [heq, show before ++ e :: after = (before ++ [e]) ++ after by simp]
    exact sublist_append_left _ _

theorem walk_linear (h : Linear path) (hn : (ids path).Nodup) (fuel : ℕ) (before : List Entry)
    (e : Entry) (after : List Entry) (heq : path = before ++ e :: after) (hfuel : before.length < fuel) :
    (ancestors (indexOf path) fuel (some e)).reverse = before ++ [e] := by
  induction fuel generalizing before e after with
  | zero => omega
  | succ fuel ih =>
    rw [ancestors, reverse_cons, h before e after heq]
    rcases eq_nil_or_concat before with rfl | ⟨before', parent, rfl⟩
    · simp
    · have heq' : path = before' ++ parent :: (e :: after) := by
        rw [heq]
        simp
      have hget : get? (indexOf path) parent.id = some parent :=
        get?_indexOf path hn parent (by rw [heq']; simp)
      rw [concat_eq_append, getLast?_concat, Option.map_some, Option.bind_some, hget,
        ih before' parent _ heq' (by rw [concat_eq_append, length_append] at hfuel; simp at hfuel; omega)]

theorem buildSessionPath_linear (h : Linear path) (hn : (ids path).Nodup) :
    buildSessionPath path .omitted (indexOf path) = path ∧
      buildSessionPath path (.ofOption (path.getLast?.map Entry.id)) (indexOf path) = path := by
  rcases eq_nil_or_concat path with rfl | ⟨before, e, rfl⟩
  · exact ⟨rfl, rfl⟩
  · have hwalk := walk_linear h hn (indexOf (before ++ [e])).length before e [] (by simp) (by
      rw [length_indexOf]
      simp)
    have hget : get? (indexOf (before ++ [e])) e.id = some e := get?_indexOf _ (by simpa using hn) e (by simp)
    rw [concat_eq_append] at *
    refine ⟨?_, ?_⟩
    · unfold buildSessionPath
      rw [getLast?_concat]
      exact hwalk
    · rw [getLast?_concat, Option.map_some]
      show (ancestors _ _ ((get? _ e.id).or _)).reverse = _
      rw [hget]
      exact hwalk

theorem buildSessionPath_at (h : IsTree entries) (e : Entry) (he : e ∈ entries) :
    buildSessionPath entries (.ofOption (some e.id)) (indexOf entries) = getBranch (indexOf entries) (some e.id) := by
  show (ancestors _ _ ((get? _ e.id).or _)).reverse = _
  unfold getBranch
  rw [Option.bind_some, get?_indexOf entries h.nodup e he]
  rfl

end PiAgent.Session
