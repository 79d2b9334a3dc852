import PiAgent.Harness.SchedulerReserve

/-! # Tracking what a commit publishes -/

namespace PiAgent.Harness

open Option List Durable

/-! ## Sets -/

theorem mem_foldl_add {α : Type} [DecidableEq α] (l acc : List α) (b : α) : b ∈ l.foldl add acc ↔ b ∈ l ∨ b ∈ acc := by
  induction l generalizing acc with
  | nil => simp
  | cons a l ih =>
    rw [foldl_cons, ih, mem_add, mem_cons]
    tauto

theorem nodup_foldl_add {α : Type} [DecidableEq α] (l acc : List α) (h : acc.Nodup) : (l.foldl add acc).Nodup := by
  induction l generalizing acc with
  | nil => exact h
  | cons a l ih => exact ih _ (nodup_add acc a h)

theorem mem_foldl_addTo (l : List Id) (map : Id → List Id) (id m j : Id) :
    j ∈ l.foldl (fun waiters on => addTo waiters on id) map m ↔ (m ∈ l ∧ j = id) ∨ j ∈ map m := by
  induction l generalizing map with
  | nil => simp
  | cons a l ih =>
    rw [foldl_cons, ih, mem_addTo, mem_cons]
    tauto

theorem mem_foldl_deleteFrom (l : List Id) (map : Id → List Id) (id m j : Id) :
    j ∈ l.foldl (fun waiters on => deleteFrom waiters on id) map m ↔ j ∈ map m ∧ ¬(m ∈ l ∧ j = id) := by
  induction l generalizing map with
  | nil => simp
  | cons a l ih =>
    rw [foldl_cons, ih, mem_deleteFrom, mem_cons]
    tauto

namespace Ownership

/-! ## The index while a commit is tracked -/

structure Tracking (store : Store) (x : Ownership) (rest : List TaskRecord) : Prop extends Untracked store x rest where
  live : x.LiveOnly
  loaded : ∀ r ∈ rest, isTerminal r = true → x.Loaded (.task r.id)

variable {store : Store} {x : Ownership} {r : TaskRecord} {rest : List TaskRecord}

theorem Tracking.known (h : Tracking store x (r :: rest)) {old : TaskRecord} (hold : x.live r.id = some old) :
    nodeOf old = nodeOf r :=
  nodeOf_live h.sound.toCore (h.stored r mem_cons_self) hold

theorem retire_up {r old : TaskRecord} (hold : x.live r.id = some old) (hn : nodeOf old = nodeOf r)
    (n : Node) : (x.retire r).up n = x.up n := by
  cases n with
  | conversation c => rfl
  | task id =>
    by_cases hid : id = r.id
    · subst hid
      simp [up, node, retire, hold, hn]
    · simp [up, node, retire, hid]

theorem track_grows (h : Tracking store x (r :: rest)) : Grows x (x.track store.count r) := by
  have hupdate : ∀ y : Ownership, (∀ n p, x.up n = some p → y.up n = some p) → ∀ z, SameNodes y z → Grows x z :=
    fun y hy z hz n p hn => (hz.up n).trans (hy n p hn)
  have htrack := h.trackable r mem_cons_self
  unfold track
  split
  · rename_i hterminal
    rcases htrack with hlive | ⟨-, hnot⟩
    · obtain ⟨old, hold⟩ := isSome_iff_exists.mp hlive
      refine hupdate (x.retire r) ?_ _ ((relist_sameNodes _ _ _).trans (dropIfUnneeded_sameNodes _ _))
      intro n p hn
      rw [retire_up hold (h.known hold), hn]
    · simp [hterminal] at hnot
  · have hset : ∀ n p, x.up n = some p → Ownership.up { x with live := Function.update x.live r.id (some r) } n = some p := by
      intro n p hn
      cases n with
      | conversation c => exact hn
      | task id =>
        by_cases hid : id = r.id
        · subst hid
          rcases htrack with hlive | ⟨hnew, -⟩
          · obtain ⟨old, hold⟩ := isSome_iff_exists.mp hlive
            simpa [up, node, hold, h.known hold] using hn
          · simp [up, hnew] at hn
        · simpa [up, node, hid] using hn
    dsimp only
    split
    · exact hset
    · refine hupdate _ ?_ _ (relist_sameNodes _ _ _)
      intro n p hn
      split
      · exact hset n p hn
      · exact hset n p hn

variable {rank : Node → ℕ}

theorem Tracking.step (hg : store.Grounded rank) {x : Ownership} {r : TaskRecord}
    {rest : List TaskRecord} (h : Tracking store x (r :: rest)) : Tracking store (x.track store.count r) rest := by
  refine ⟨h.toUntracked.step hg, ?_, fun v hv ht => (h.loaded v (mem_cons_of_mem _ hv) ht).mono (track_grows h)⟩
  intro id v hv
  rw [track_live] at hv
  by_cases hid : id = r.id
  · subst hid
    rw [Function.update_self] at hv
    split at hv
    · simp at hv
    · rename_i ht
      obtain rfl := some.inj hv
      exact ⟨rfl, by simpa using ht⟩
  · rw [Function.update_of_ne hid] at hv
    exact h.live id v hv

/-! ## Work that ends frees its holder -/

def Holds (x : Ownership) (store : Store) (o : Id) : Prop :=
  ∃ t r, x.live t = some r ∧ r.background = false ∧ store.Under (.task o) (parentOf r)

theorem Mirrors.holds_iff (hm : Mirrors store x) (o : Id) : x.Holds store o ↔ ∃ t, store.Owned o t := by
  constructor
  · rintro ⟨t, r, hr, hb, hu⟩
    obtain ⟨hs, ht⟩ := (hm t r).mp hr
    exact ⟨t, r, hs, ht, hb, hu⟩
  · rintro ⟨t, r, hs, ht, hb, hu⟩
    exact ⟨t, r, (hm t r).mpr ⟨hs, ht⟩, hb, hu⟩

section

variable (hg : store.Grounded rank) {x : Ownership} {r : TaskRecord} {rest : List TaskRecord}
    (h : Tracking store x (r :: rest)) (ht : isTerminal r = true)
include hg h ht

theorem Tracking.nearest (hb : r.background = false) {o : Id} (ho : (x.live o).isSome = true) (hne : o ≠ r.id)
    (hu : store.Under (.task o) (parentOf r)) :
    ∃ id above, x.live id = some above ∧ id ≠ r.id ∧
      (x.retire r).nearestLiveAbove Overlay.empty store.count (nodeOf r) = some above ∧
      (id = o ∨ (above.background = false ∧ store.Under (.task o) (parentOf above))) := by
  obtain ⟨old, hold⟩ : ∃ old, x.live r.id = some old := by
    rcases h.trackable r mem_cons_self with hl | ⟨-, hnot⟩
    · exact isSome_iff_exists.mp hl
    · simp [ht] at hnot
  have hn := h.known hold
  have hup := fun n => retire_up hold hn n
  have hlive : ∀ id, id ≠ r.id → (x.retire r).live id = x.live id := by
    intro id hid
    simp [retire, hid]
  have hdeep : ∀ n p, (x.retire r).up n = some (some p) → rank p < rank n := by
    intro n p hnp
    rw [hup] at hnp
    exact h.sound.deeper hg n p hnp
  have hlo : (x.retire r).LiveOnly := by
    intro id v hv
    have hid : id ≠ r.id := by
      rintro rfl
      simp [retire] at hv
    rw [hlive id hid] at hv
    exact h.live id v hv
  have hxu : Harness.Under x.node x.edges ordinary (.task o) (parentOf r) := by
    have hup' : x.up (.task r.id) = some (some (parentOf r)) := by simp [up, node, hold, hn, parentOf]
    exact (under_iff_of_loaded h.sound.toCore ((h.loaded r mem_cons_self ht).parent hup')).mpr hu
  have hnodes : (x.retire r).node = x.node := by
    funext id
    by_cases hid : id = r.id
    · subst hid
      simp [node, retire, hold, hn]
    · simp [node, retire, hid]
  have hru : (x.retire r).Under (.task o) (nodeOf r).parent := by
    unfold Ownership.Under
    rw [hnodes]
    exact hxu
  have hbound : rank (nodeOf r).parent < store.count := by
    have hup' : store.up (.task r.id) = some (some (parentOf r)) := by
      simp [Store.up, h.stored r mem_cons_self]
    exact hg.bound _ (hg.parent _ _ hup')
  obtain ⟨id, above, hid, hnear, -, hor⟩ := nearestLiveAbove_of_deeper hdeep hlo o (by rw [hlive o hne]; exact ho)
    store.count (nodeOf r) hbound hb hru
  have hidne : id ≠ r.id := by
    rintro rfl
    simp [retire] at hid
  refine ⟨id, above, (hlive id hidne).symm.trans hid, hidne, hnear, ?_⟩
  rcases hor with rfl | ⟨hab, hau⟩
  · exact Or.inl rfl
  · unfold Ownership.Under at hau
    rw [hnodes] at hau
    exact Or.inr ⟨hab, Scheduler.stored_of_known h.sound.toCore hau⟩

theorem Tracking.freed {o : Id} {ro : TaskRecord} (ho : x.live o = some ro) (hne : o ≠ r.id)
    (hh : x.Holds store o) :
    (x.track store.count r).Holds store o ∨
      (x.retire r).nearestLiveAbove Overlay.empty store.count (nodeOf r) = some ro := by
  obtain ⟨t, rt, hrt, hb, hu⟩ := hh
  have hlive : ∀ id, id ≠ r.id → (x.track store.count r).live id = x.live id := by
    intro id hid
    rw [track_live, Function.update_of_ne hid]
  by_cases htr : t = r.id
  · subst htr
    have hn := h.known hrt
    have hbr : r.background = false := (congrArg TaskNode.background hn).symm.trans hb
    have hpr : parentOf rt = parentOf r := by rw [parentOf, hn, parentOf]
    rw [hpr] at hu
    obtain ⟨id, above, hid, hidne, hnear, rfl | ⟨hab, hau⟩⟩ :=
      h.nearest hg ht hbr (by simp [ho]) hne hu
    · obtain rfl : ro = above := by simpa [ho] using hid
      exact Or.inr hnear
    · exact Or.inl ⟨id, above, (hlive id hidne).trans hid, hab, hau⟩
  · exact Or.inl ⟨t, rt, (hlive t htr).trans hrt, hb, hu⟩

end

theorem Tracking.holds_mono (h : Tracking store x (r :: rest)) (ht : isTerminal r = false) {o : Id} (hh : x.Holds store o) :
    (x.track store.count r).Holds store o := by
  obtain ⟨t, rt, hrt, hb, hu⟩ := hh
  by_cases htr : t = r.id
  · subst htr
    have hn := h.known hrt
    refine ⟨r.id, r, by simp [track_live, ht], (congrArg TaskNode.background hn).symm.trans hb, ?_⟩
    have hpr : parentOf rt = parentOf r := by rw [parentOf, hn, parentOf]
    exact hpr ▸ hu
  · exact ⟨t, rt, by rw [track_live, Function.update_of_ne htr, hrt], hb, hu⟩

end Ownership

end PiAgent.Harness
