import PiAgent.Lib.Sorted

/-!
# Scans in pages

A scan of an ascending list takes one page after the other, each from where the one before
ended. All pages together are the list.
-/

namespace PiAgent.Sorted

open Option List

variable {α : Type} [LinearOrder α]

/-- What comes after an item, or everything. -/
def itemsAfter (ids : List α) (after : Option α) : List α := ids.drop (after.elim 0 (fun after => upperBound ids after))

/-- At most `limit` items, and the last of them when there are more. -/
def pageAfter (ids : List α) (limit : ℕ) (after : Option α) : List α × Option α :=
  ((itemsAfter ids after).take limit,
    if (itemsAfter ids after).length ≤ limit then none else ((itemsAfter ids after).take limit).getLast?)

def scanPages (ids : List α) (limit : ℕ) : ℕ → Option α → List α
  | 0, _ => []
  | fuel + 1, after =>
    (pageAfter ids limit after).1 ++ (pageAfter ids limit after).2.elim [] (fun next => scanPages ids limit fuel (some next))

/-- Of items in the order of their keys, those after the last of a front part are the rest. -/
theorem filter_after {β : Type} (key : β → α) (items : List β) (h : items.Pairwise (fun a b => key a < key b)) (k : ℕ)
    (last : β) (hlast : (items.take k).getLast? = some last) :
    items.filter (fun item => key last < key item) = items.drop k := by
  obtain ⟨front, hfront⟩ := getLast?_eq_some_iff.mp hlast
  have hsplit : items = (front ++ [last]) ++ items.drop k := by
    rw [← hfront, List.take_append_drop]
  rw [hsplit, pairwise_append] at h
  obtain ⟨hpre, -, hcross⟩ := h
  conv_lhs => rw [hsplit]
  rw [filter_append, filter_eq_nil_iff.mpr, nil_append, filter_eq_self.mpr]
  · intro item hmem
    exact decide_eq_true (hcross last (by simp) item hmem)
  · intro item hmem
    rw [decide_eq_true_eq, not_lt]
    rcases mem_append.mp hmem with hmem | hmem
    · exact le_of_lt ((pairwise_append.mp hpre).2.2 item hmem last (by simp))
    · rw [mem_singleton.mp hmem]

variable (ids : List α)

section

variable (hs : ids.Pairwise (· < ·))
include hs

theorem itemsAfter_some (after : α) :
    itemsAfter ids (some after) = ids.filter (fun id => after < id) := (take_upperBound ids hs after).2

theorem itemsAfter_last (k : ℕ) (last : α) (hlast : (ids.take k).getLast? = some last) :
    itemsAfter ids (some last) = ids.drop k :=
  (itemsAfter_some ids hs last).trans (filter_after id ids hs k last hlast)

theorem scanPages_drop (limit : ℕ) (hlimit : 0 < limit) (fuel k : ℕ) (after : Option α)
    (hafter : itemsAfter ids after = ids.drop k) (hfuel : ids.length - k < fuel) :
    scanPages ids limit fuel after = ids.drop k := by
  induction fuel generalizing k after with
  | zero => exact absurd hfuel (Nat.not_lt_zero _)
  | succ fuel ih =>
    unfold scanPages pageAfter
    rw [hafter]
    dsimp only
    by_cases hshort : (ids.drop k).length ≤ limit
    · rw [if_pos hshort, take_of_length_le hshort, elim_none, append_nil]
    · rw [if_neg hshort]
      rw [length_drop] at hshort
      obtain ⟨last, hlast⟩ : ∃ last, ((ids.drop k).take limit).getLast? = some last := by
        rw [← isSome_iff_exists, getLast?_isSome, ← length_pos_iff, length_take, length_drop]
        omega
      have hfront : (ids.take (k + limit)).getLast? = some last := by
        rw [take_add, getLast?_append, hlast]
        rfl
      have hnext := itemsAfter_last ids hs (k + limit) last hfront
      rw [hlast, elim_some, ih (k + limit) (some last) hnext (by omega), ← drop_drop, List.take_append_drop]

theorem scanPages_all (limit : ℕ) (hlimit : 0 < limit) : scanPages ids limit (ids.length + 1) none = ids :=
  scanPages_drop ids hs limit hlimit (ids.length + 1) 0 none rfl (by omega)

end

end PiAgent.Sorted
