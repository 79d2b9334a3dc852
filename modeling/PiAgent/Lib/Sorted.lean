import Mathlib.Order.Lattice
import Mathlib.Data.List.Basic

/-!
# Strictly ascending lists, searched by halves

Insertion, removal and the two bounds of a list that is kept in ascending order.
-/

namespace PiAgent.Sorted

variable {α : Type} [LinearOrder α]

/-- The search by halves: `p` holds of the items before the place that is looked for. -/
def bisect (p : α → Bool) (ids : List α) : ℕ → ℕ → ℕ → ℕ
  | 0, low, _ => low
  | n + 1, low, high =>
    if low < high then
      let middle := (low + high) / 2
      if (ids[middle]?).any p then bisect p ids n (middle + 1) high else bisect p ids n low middle
    else low

/-- The first place whose item is not below the target. -/
def lowerBound (ids : List α) (target : α) : ℕ := bisect (· < target) ids ids.length 0 ids.length

/-- The first place whose item is above the target. -/
def upperBound (ids : List α) (target : α) : ℕ := bisect (· ≤ target) ids ids.length 0 ids.length

def insertSorted (ids : List α) (id : α) : List α :=
  match ids.getLast? with
  | none => ids ++ [id]
  | some last => if last < id then ids ++ [id] else ids.take (lowerBound ids id) ++ id :: ids.drop (lowerBound ids id)

def removeSorted (ids : List α) (id : α) : List α :=
  if ids[lowerBound ids id]? = some id then ids.eraseIdx (lowerBound ids id) else ids

/-! ## The search finds the place -/

omit [LinearOrder α] in
theorem bisect_eq (p : α → Bool) (ids : List α) (place : ℕ)
    (hp : ∀ i x, ids[i]? = some x → (p x = true ↔ i < place)) (n low high : ℕ) (hlow : low ≤ place)
    (hhigh : place ≤ high) (hlen : high ≤ ids.length) (hn : high - low ≤ n) : bisect p ids n low high = place := by
  induction n generalizing low high with
  | zero =>
    unfold bisect
    omega
  | succ n ih =>
    unfold bisect
    split
    · have hm : (low + high) / 2 < ids.length := by omega
      have hget := List.getElem?_eq_getElem hm
      simp only [hget, Option.any_some]
      split
      · rename_i h
        have := (hp _ _ hget).mp h
        exact ih _ _ (by omega) hhigh hlen (by omega)
      · rename_i h
        have : ¬ (low + high) / 2 < place := fun hlt => h ((hp _ _ hget).mpr hlt)
        exact ih _ _ hlow (by omega) (by omega) (by omega)
    · omega

section

variable (p : α → Bool) (hp : ∀ x y, x < y → p y = true → p x = true) (ids : List α) (hs : ids.Pairwise (· < ·))
include hp hs

theorem holds_iff_lt_takeWhile (i : ℕ) (x : α) (hx : ids[i]? = some x) :
    p x = true ↔ i < (ids.takeWhile p).length := by
  induction ids generalizing i with
  | nil => simp at hx
  | cons a ids ih =>
    rw [List.pairwise_cons] at hs
    by_cases ha : p a = true
    · rw [List.takeWhile_cons_of_pos ha]
      cases i with
      | zero =>
        obtain rfl : a = x := by simpa using hx
        simp [ha]
      | succ i =>
        rw [ih hs.2 i (by simpa using hx)]
        simp
    · rw [List.takeWhile_cons_of_neg ha]
      constructor
      · intro hpx
        cases i with
        | zero =>
          obtain rfl : a = x := by simpa using hx
          exact absurd hpx ha
        | succ i =>
          have hmem : x ∈ ids := List.mem_of_getElem? (by simpa using hx)
          exact absurd (hp a x (hs.1 x hmem) hpx) ha
      · intro h
        simp at h

theorem bisect_takeWhile : bisect p ids ids.length 0 ids.length = (ids.takeWhile p).length :=
  bisect_eq p ids _ (holds_iff_lt_takeWhile p hp ids hs) _ _ _ (Nat.zero_le _)
    (List.takeWhile_prefix p).length_le (Nat.le_refl _) (by omega)

end

omit [LinearOrder α] in
theorem takeWhile_eq_filter (R : α → α → Prop) (p : α → Bool) (hp : ∀ x y, R x y → p y = true → p x = true)
    (ids : List α) (hs : ids.Pairwise R) :
    ids.takeWhile p = ids.filter p ∧ ids.dropWhile p = ids.filter (fun x => !p x) := by
  induction ids with
  | nil => simp
  | cons a ids ih =>
    rw [List.pairwise_cons] at hs
    obtain ⟨h₁, h₂⟩ := ih hs.2
    by_cases ha : p a = true
    · simp [ha, h₁, h₂]
    · have hall : ∀ x ∈ ids, p x = false := by
        intro x hx
        by_contra hpx
        exact ha (hp a x (hs.1 x hx) (by simpa using hpx))
      have hnil : ids.filter p = [] := List.filter_eq_nil_iff.mpr (fun x hx => by simp [hall x hx])
      have hself : ids.filter (fun x => !p x) = ids := List.filter_eq_self.mpr (fun x hx => by simp [hall x hx])
      simp [ha, hnil, hself]

theorem take_bisect (p : α → Bool) (hp : ∀ x y, x < y → p y = true → p x = true) (ids : List α)
    (hs : ids.Pairwise (· < ·)) :
    ids.take (bisect p ids ids.length 0 ids.length) = ids.filter p ∧
    ids.drop (bisect p ids ids.length 0 ids.length) = ids.filter (fun x => !p x) := by
  obtain ⟨h₁, h₂⟩ := takeWhile_eq_filter (· < ·) p hp ids hs
  rw [bisect_takeWhile p hp ids hs, ← h₁, ← h₂]
  have htake : ids.take (ids.takeWhile p).length = ids.takeWhile p :=
    (List.prefix_iff_eq_take.mp (List.takeWhile_prefix p)).symm
  refine ⟨htake, ?_⟩
  have hboth : ids.take (ids.takeWhile p).length ++ ids.drop (ids.takeWhile p).length =
      ids.takeWhile p ++ ids.dropWhile p := by
    rw [List.take_append_drop, List.takeWhile_append_dropWhile]
  rw [htake] at hboth
  exact List.append_cancel_left hboth

theorem take_lowerBound (ids : List α) (hs : ids.Pairwise (· < ·)) (target : α) :
    ids.take (lowerBound ids target) = ids.filter (· < target) ∧
    ids.drop (lowerBound ids target) = ids.filter (target ≤ ·) := by
  have h := take_bisect (fun x => decide (x < target))
    (fun x y hxy hy => by simpa using lt_trans hxy (by simpa using hy)) ids hs
  refine ⟨h.1, h.2.trans ?_⟩
  congr 1
  funext x
  rw [Bool.eq_iff_iff]
  simp

theorem take_upperBound (ids : List α) (hs : ids.Pairwise (· < ·)) (target : α) :
    ids.take (upperBound ids target) = ids.filter (· ≤ target) ∧
    ids.drop (upperBound ids target) = ids.filter (target < ·) := by
  have h := take_bisect (fun x => decide (x ≤ target))
    (fun x y hxy hy => by simpa using le_trans (le_of_lt hxy) (by simpa using hy)) ids hs
  refine ⟨h.1, h.2.trans ?_⟩
  congr 1
  funext x
  rw [Bool.eq_iff_iff]
  simp

/-! ## Insertion and removal -/

section

variable (ids : List α) (hs : ids.Pairwise (· < ·))
include hs

theorem insertSorted_eq (id : α) : insertSorted ids id = ids.filter (· < id) ++ id :: ids.filter (id ≤ ·) := by
  unfold insertSorted
  have happend : (∀ x ∈ ids, x < id) → ids ++ [id] = ids.filter (· < id) ++ id :: ids.filter (id ≤ ·) := by
    intro h
    have h₁ : ids.filter (· < id) = ids := List.filter_eq_self.mpr (fun x hx => by simp [h x hx])
    have h₂ : ids.filter (id ≤ ·) = [] := List.filter_eq_nil_iff.mpr (fun x hx => by simp [h x hx])
    rw [h₁, h₂]
  split
  · rename_i hnone
    obtain rfl := List.getLast?_eq_none_iff.mp hnone
    rfl
  · rename_i last hlast
    split
    · rename_i hlt
      refine happend (fun x hx => ?_)
      obtain ⟨init, rfl⟩ := List.getLast?_eq_some_iff.mp hlast
      rcases List.mem_append.mp hx with hx | hx
      · exact lt_trans ((List.pairwise_append.mp hs).2.2 x hx last (by simp)) hlt
      · rw [List.mem_singleton.mp hx]
        exact hlt
    · rw [(take_lowerBound ids hs id).1, (take_lowerBound ids hs id).2]

theorem insertSorted_pairwise (id : α) (hid : id ∉ ids) : (insertSorted ids id).Pairwise (· < ·) := by
  rw [insertSorted_eq ids hs]
  refine List.pairwise_append.mpr ⟨hs.filter _, ?_, ?_⟩
  · refine List.pairwise_cons.mpr ⟨fun x hx => ?_, hs.filter _⟩
    obtain ⟨hmem, hle⟩ := List.mem_filter.mp hx
    exact lt_of_le_of_ne (by simpa using hle) (fun e => hid (e ▸ hmem))
  · intro x hx y hy
    have hlt : x < id := by simpa using (List.mem_filter.mp hx).2
    rcases List.mem_cons.mp hy with rfl | hy
    · exact hlt
    · exact lt_of_lt_of_le hlt (by simpa using (List.mem_filter.mp hy).2)

theorem mem_insertSorted (id x : α) : x ∈ insertSorted ids id ↔ x = id ∨ x ∈ ids := by
  rw [insertSorted_eq ids hs, List.mem_append, List.mem_cons, List.mem_filter, List.mem_filter]
  constructor
  · rintro (h | rfl | h)
    · exact .inr h.1
    · exact .inl rfl
    · exact .inr h.1
  · rintro (rfl | h)
    · exact .inr (.inl rfl)
    · by_cases hx : x < id
      · exact .inl ⟨h, by simpa using hx⟩
      · exact .inr (.inr ⟨h, by simpa using hx⟩)

theorem removeSorted_eq (id : α) : removeSorted ids id = ids.filter (· ≠ id) := by
  have htake := (take_lowerBound ids hs id).1
  have hdrop := (take_lowerBound ids hs id).2
  have hsplit := List.take_append_drop (lowerBound ids id) ids
  have hbelow : (ids.filter (· < id)).filter (· ≠ id) = ids.filter (· < id) :=
    List.filter_eq_self.mpr (fun x hx => by
      have : x < id := by simpa using (List.mem_filter.mp hx).2
      simpa using ne_of_lt this)
  have hsorted : (ids.filter (id ≤ ·)).Pairwise (· < ·) := hs.filter _
  have hget : ids[lowerBound ids id]? = (ids.filter (id ≤ ·))[0]? := by
    rw [← hdrop]
    simp
  unfold removeSorted
  rw [hget]
  cases hrest : ids.filter (id ≤ ·) with
  | nil =>
    rw [if_neg (by simp)]
    refine (List.filter_eq_self.mpr (fun x hx => ?_)).symm
    have hmem : x ∉ ids.filter (id ≤ ·) := by simp [hrest]
    rw [List.mem_filter, not_and] at hmem
    have hlt : x < id := by simpa using hmem hx
    simpa using ne_of_lt hlt
  | cons a rest =>
    rw [hrest] at hsorted hdrop
    have ha : id ≤ a := by
      have : a ∈ ids.filter (id ≤ ·) := by simp [hrest]
      simpa using (List.mem_filter.mp this).2
    have habove : ∀ x ∈ rest, x ≠ id := fun x hx =>
      ne_of_gt (lt_of_le_of_lt ha ((List.pairwise_cons.mp hsorted).1 x hx))
    have hrestne : rest.filter (· ≠ id) = rest := List.filter_eq_self.mpr (fun x hx => by simpa using habove x hx)
    simp only [List.getElem?_cons_zero, Option.some.injEq]
    split
    · rename_i heq
      subst heq
      conv_rhs => rw [← hsplit]
      rw [List.eraseIdx_eq_take_drop_succ, ← List.drop_drop, htake, hdrop, List.filter_append, hbelow,
        List.filter_cons, if_neg (by simp), hrestne]
      rfl
    · rename_i hne
      conv_lhs => rw [← hsplit]
      conv_rhs => rw [← hsplit]
      rw [htake, hdrop, List.filter_append, hbelow, List.filter_cons, if_pos (by simpa using hne), hrestne]

theorem removeSorted_pairwise (id : α) : (removeSorted ids id).Pairwise (· < ·) := by
  rw [removeSorted_eq ids hs]
  exact hs.filter _

theorem mem_removeSorted (id x : α) : x ∈ removeSorted ids id ↔ x ≠ id ∧ x ∈ ids := by
  rw [removeSorted_eq ids hs, List.mem_filter]
  simp [and_comm]

end

/-! ## Indexes -/

/-- The ascending list of the items that `p` selects. -/
structure IsIndex (ids : List α) (p : α → Prop) : Prop where
  ascending : ids.Pairwise (· < ·)
  exact : ∀ x, x ∈ ids ↔ p x

namespace IsIndex

variable {ids : List α} {p q : α → Prop}

theorem nil (h : ∀ x : α, ¬ p x) : IsIndex [] p where
  ascending := List.Pairwise.nil
  exact := fun x => ⟨fun hx => absurd hx (by simp), fun hx => absurd hx (h x)⟩

theorem congr (h : IsIndex ids p) (hpq : ∀ x, p x ↔ q x) : IsIndex ids q where
  ascending := h.ascending
  exact := fun x => (h.exact x).trans (hpq x)

theorem insert (h : IsIndex ids p) (id : α) (hid : ¬ p id) (hq : ∀ x, q x ↔ x = id ∨ p x) :
    IsIndex (insertSorted ids id) q where
  ascending := insertSorted_pairwise ids h.ascending id (fun hm => hid ((h.exact id).mp hm))
  exact := fun x => by rw [mem_insertSorted ids h.ascending, h.exact, hq]

theorem remove (h : IsIndex ids p) (id : α) (hq : ∀ x, q x ↔ x ≠ id ∧ p x) : IsIndex (removeSorted ids id) q where
  ascending := removeSorted_pairwise ids h.ascending id
  exact := fun x => by rw [mem_removeSorted ids h.ascending, h.exact, hq]

end IsIndex

omit [LinearOrder α] in
theorem last_of_isPrefix (ids before : List α) (h : before <+: ids) (hne : 0 < before.length) :
    ids[before.length - 1]? = before.getLast? := by
  obtain ⟨rest, rfl⟩ := h
  rw [List.getElem?_append_left (by omega), List.getLast?_eq_getElem?]

theorem le_getLast (ids : List α) (hs : ids.Pairwise (· < ·)) (last : α) (h : ids.getLast? = some last)
    (x : α) (hx : x ∈ ids) : x ≤ last := by
  obtain ⟨before, rfl⟩ := List.getLast?_eq_some_iff.mp h
  rcases List.mem_append.mp hx with hx | hx
  · exact le_of_lt ((List.pairwise_append.mp hs).2.2 x hx last (by simp))
  · exact le_of_eq (List.mem_singleton.mp hx)

theorem eq_of_mem_iff (l m : List α) (hl : l.Pairwise (· < ·)) (hm : m.Pairwise (· < ·))
    (h : ∀ x, x ∈ l ↔ x ∈ m) : l = m := by
  induction l generalizing m with
  | nil =>
    cases m with
    | nil => rfl
    | cons b m => exact absurd ((h b).mpr (by simp)) (by simp)
  | cons a l ih =>
    cases m with
    | nil => exact absurd ((h a).mp (by simp)) (by simp)
    | cons b m =>
      rw [List.pairwise_cons] at hl hm
      have hab : a = b := by
        rcases List.mem_cons.mp ((h a).mp (by simp)) with hab | hab
        · exact hab
        · rcases List.mem_cons.mp ((h b).mpr (by simp)) with hba | hba
          · exact hba.symm
          · exact absurd (lt_trans (hl.1 b hba) (hm.1 a hab)) (lt_irrefl a)
      subst hab
      rw [ih m hl.2 hm.2 (fun x => ?_)]
      have hx := h x
      simp only [List.mem_cons] at hx
      constructor
      · intro hxl
        rcases hx.mp (.inr hxl) with rfl | hxm
        · exact absurd (hl.1 x hxl) (lt_irrefl x)
        · exact hxm
      · intro hxm
        rcases hx.mpr (.inr hxm) with rfl | hxl
        · exact absurd (hm.1 x hxm) (lt_irrefl x)
        · exact hxl

end PiAgent.Sorted
