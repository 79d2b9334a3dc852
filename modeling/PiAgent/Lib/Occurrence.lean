import Mathlib.Data.List.Infix
import Mathlib.Data.Nat.Find

/-!
# Where a list occurs in another

The first place where a pattern occurs, and what of it stays when the list goes on.
-/

namespace PiAgent

open List

variable {α : Type}

/-- The pattern stands at a place of the list. -/
def OccursAt (pattern s : List α) (i : ℕ) : Prop := i ≤ s.length ∧ pattern <+: s.drop i

instance [DecidableEq α] (pattern s : List α) (i : ℕ) : Decidable (OccursAt pattern s i) :=
  inferInstanceAs (Decidable (_ ∧ _))

/-- `indexOf`: the first place. -/
def firstIndex [DecidableEq α] (pattern : List α) : List α → Option ℕ
  | [] => if pattern <+: [] then some 0 else none
  | a :: s => if pattern <+: a :: s then some 0 else (firstIndex pattern s).map (fun i => i + 1)

variable (pattern s : List α)

theorem occursAt_zero : OccursAt pattern s 0 ↔ pattern <+: s := by
  unfold OccursAt
  simp

variable (pattern : List α)

theorem occursAt_succ (a : α) (s : List α) (i : ℕ) : OccursAt pattern (a :: s) (i + 1) ↔ OccursAt pattern s i := by
  unfold OccursAt
  rw [length_cons, drop_succ_cons, Nat.add_le_add_iff_right]

variable {pattern s : List α} {i : ℕ}

theorem OccursAt.le (h : OccursAt pattern s i) : i + pattern.length ≤ s.length := by
  have hlength := h.2.length_le
  have hle := h.1
  rw [length_drop] at hlength
  omega

theorem OccursAt.split (h : OccursAt pattern s i) : s = s.take i ++ pattern ++ s.drop (i + pattern.length) := by
  obtain ⟨rest, hrest⟩ := h.2
  have hdrop : s.drop (i + pattern.length) = rest := by
    rw [← drop_drop, ← hrest, drop_left]
  rw [hdrop, append_assoc, hrest, List.take_append_drop]

theorem occursAt_append (a pattern b : List α) : OccursAt pattern (a ++ pattern ++ b) a.length := by
  refine ⟨by simp, ?_⟩
  rw [append_assoc, drop_left]
  exact prefix_append _ _

theorem OccursAt.append (h : OccursAt pattern s i) (t : List α) : OccursAt pattern (s ++ t) i := by
  refine ⟨by rw [length_append]; exact h.1.trans (Nat.le_add_right _ _), ?_⟩
  rw [drop_append_of_le_length h.1]
  exact h.2.trans (prefix_append _ _)

theorem OccursAt.of_append {pattern s t : List α} {i : ℕ} (h : OccursAt pattern (s ++ t) i)
    (hle : i + pattern.length ≤ s.length) : OccursAt pattern s i := by
  refine ⟨by omega, ?_⟩
  have hprefix := h.2
  rw [drop_append_of_le_length (by omega)] at hprefix
  exact prefix_of_prefix_length_le hprefix (prefix_append _ _) (by rw [length_drop]; omega)

theorem occursAt_append_right (pattern s t : List α) (i : ℕ) :
    OccursAt pattern (s ++ t) (s.length + i) ↔ OccursAt pattern t i := by
  unfold OccursAt
  rw [length_append, Nat.add_le_add_iff_left, drop_append, drop_eq_nil_of_le (Nat.le_add_right _ _),
    Nat.add_sub_cancel_left, nil_append]

/-- A pattern that can stand at two places which overlap. -/
def Overlaps (pattern : List α) : Prop := ∃ k < pattern.length, 0 < k ∧ pattern.drop k <+: pattern

instance [DecidableEq α] (pattern : List α) : Decidable (Overlaps pattern) :=
  inferInstanceAs (Decidable (∃ k < pattern.length, 0 < k ∧ pattern.drop k <+: pattern))

/-- A later place within the pattern at an earlier one. -/
theorem OccursAt.overlaps {pattern s : List α} {i j : ℕ} (hi : OccursAt pattern s i) (hj : OccursAt pattern s j) (hlt : i < j)
    (hnear : j < i + pattern.length) : Overlaps pattern := by
  refine ⟨j - i, by omega, by omega, ?_⟩
  have hdrop : s.drop j = (s.drop i).drop (j - i) := by
    rw [drop_drop]
    congr 1
    omega
  have htail : pattern.drop (j - i) <+: s.drop j := by
    rw [hdrop]
    exact hi.2.drop (j - i)
  exact prefix_of_prefix_length_le htail hj.2 (by rw [length_drop]; omega)

theorem OccursAt.eq_of_near {pattern s : List α} {i j : ℕ} (hself : ¬ Overlaps pattern) (hi : OccursAt pattern s i)
    (hj : OccursAt pattern s j) (hij : i < j + pattern.length) (hji : j < i + pattern.length) : i = j := by
  rcases Nat.lt_trichotomy i j with hlt | heq | hgt
  · exact absurd (hi.overlaps hj hlt hji) hself
  · exact heq
  · exact absurd (hj.overlaps hi hgt hij) hself

/-- The places of a list that is given are looked through up to its length. -/
theorem occursAt_iff_of_le {pattern s : List α} {k : ℕ} (hk : OccursAt pattern s k)
    (h : ∀ i ≤ s.length, OccursAt pattern s i → i = k) (i : ℕ) : OccursAt pattern s i ↔ i = k := by
  refine ⟨fun hi => h i hi.1 hi, ?_⟩
  rintro rfl
  exact hk

variable [DecidableEq α]

theorem firstIndex_eq_some (pattern s : List α) (i : ℕ) :
    firstIndex pattern s = some i ↔ OccursAt pattern s i ∧ ∀ j < i, ¬ OccursAt pattern s j := by
  induction s generalizing i with
  | nil =>
    unfold firstIndex
    by_cases h : pattern <+: []
    · rw [if_pos h, Option.some.injEq]
      constructor
      · rintro rfl
        exact ⟨(occursAt_zero _ _).mpr h, by simp⟩
      · rintro ⟨hi, -⟩
        exact (Nat.le_zero.mp hi.1).symm
    · rw [if_neg h]
      simp only [reduceCtorEq, false_iff, not_and]
      intro hi
      obtain rfl := Nat.le_zero.mp hi.1
      exact absurd ((occursAt_zero _ _).mp hi) h
  | cons a s ih =>
    unfold firstIndex
    by_cases h : pattern <+: a :: s
    · rw [if_pos h, Option.some.injEq]
      constructor
      · rintro rfl
        exact ⟨(occursAt_zero _ _).mpr h, by simp⟩
      · rintro ⟨-, hfirst⟩
        by_contra hne
        exact hfirst 0 (by omega) ((occursAt_zero _ _).mpr h)
    · rw [if_neg h, Option.map_eq_some_iff]
      constructor
      · rintro ⟨k, hk, rfl⟩
        obtain ⟨hat, hfirst⟩ := (ih k).mp hk
        refine ⟨(occursAt_succ _ _ _ _).mpr hat, ?_⟩
        intro j hj hj'
        cases j with
        | zero => exact h ((occursAt_zero _ _).mp hj')
        | succ j => exact hfirst j (by omega) ((occursAt_succ _ _ _ _).mp hj')
      · rintro ⟨hat, hfirst⟩
        cases i with
        | zero => exact absurd ((occursAt_zero _ _).mp hat) h
        | succ k =>
          refine ⟨k, (ih k).mpr ⟨(occursAt_succ _ _ _ _).mp hat, ?_⟩, rfl⟩
          intro j hj hj'
          exact hfirst (j + 1) (by omega) ((occursAt_succ _ _ _ _).mpr hj')

theorem firstIndex_eq_none (pattern s : List α) : firstIndex pattern s = none ↔ ∀ i, ¬ OccursAt pattern s i := by
  constructor
  · intro h i hi
    -- the least place would be the first
    have hex : ∃ j, OccursAt pattern s j := ⟨i, hi⟩
    have hfirst := (firstIndex_eq_some pattern s (Nat.find hex)).mpr
      ⟨Nat.find_spec hex, fun j hj => Nat.find_min hex hj⟩
    rw [h] at hfirst
    cases hfirst
  · intro h
    cases hfirst : firstIndex pattern s with
    | none => rfl
    | some i => exact absurd ((firstIndex_eq_some pattern s i).mp hfirst).1 (h i)

theorem firstIndex_append (pattern s t : List α) (i : ℕ) (h : firstIndex pattern s = some i) :
    firstIndex pattern (s ++ t) = some i := by
  obtain ⟨hat, hfirst⟩ := (firstIndex_eq_some pattern s i).mp h
  refine (firstIndex_eq_some _ _ _).mpr ⟨hat.append t, ?_⟩
  intro j hj hj'
  have := hat.le
  exact hfirst j hj (hj'.of_append (by omega))

/-! ## Places that do not overlap -/

/-- The places of a pattern that is not empty, from left to right without overlap; so many elements are passed over first. -/
def countDisjoint (pattern : List α) : ℕ → List α → ℕ
  | _, [] => 0
  | 0, a :: s => if pattern <+: a :: s then countDisjoint pattern (pattern.length - 1) s + 1 else countDisjoint pattern 0 s
  | skip + 1, _ :: s => countDisjoint pattern skip s

variable (pattern : List α)

omit [DecidableEq α] in
theorem not_occursAt_nil (h : pattern ≠ []) (i : ℕ) : ¬ OccursAt pattern [] i := by
  rintro hi
  have hle := hi.le
  have := length_pos_iff.mpr h
  rw [length_nil] at hle
  omega

theorem countDisjoint_eq_zero (hne : pattern ≠ []) (skip : ℕ) (s : List α) :
    countDisjoint pattern skip s = 0 ↔ ∀ i, skip ≤ i → ¬ OccursAt pattern s i := by
  induction s generalizing skip with
  | nil => exact iff_of_true (by cases skip <;> rfl) (fun i _ => not_occursAt_nil pattern hne i)
  | cons a s ih =>
    rcases skip with _ | skip
    · unfold countDisjoint
      split
      · rename_i hprefix
        refine iff_of_false (by omega) (fun h => h 0 (Nat.le_refl 0) ((occursAt_zero _ _).mpr hprefix))
      · rename_i hno
        rw [ih]
        refine ⟨fun h i _ => ?_, fun h i _ => ?_⟩
        · rcases i with _ | i
          · exact fun h0 => hno ((occursAt_zero _ _).mp h0)
          · exact fun hi => h i (Nat.zero_le i) ((occursAt_succ _ _ _ _).mp hi)
        · exact fun hi => h (i + 1) (Nat.zero_le _) ((occursAt_succ _ _ _ _).mpr hi)
    · unfold countDisjoint
      rw [ih]
      refine ⟨fun h i hle => ?_, fun h i hle => ?_⟩
      · obtain ⟨j, rfl⟩ := Nat.exists_eq_add_of_le' (show 1 ≤ i by omega)
        exact fun hi => h j (by omega) ((occursAt_succ _ _ _ _).mp hi)
      · exact fun hi => h (i + 1) (by omega) ((occursAt_succ _ _ _ _).mpr hi)

theorem countDisjoint_le_one (hne : pattern ≠ []) (skip : ℕ) (s : List α) : countDisjoint pattern skip s ≤ 1 ↔
      ∀ i j, skip ≤ i → OccursAt pattern s i → OccursAt pattern s j → j < i + pattern.length := by
  have hpos := length_pos_iff.mpr hne
  induction s generalizing skip with
  | nil =>
    refine iff_of_true (by cases skip <;> exact Nat.zero_le _) (fun i j _ hi _ => absurd hi (not_occursAt_nil pattern hne i))
  | cons a s ih =>
    rcases skip with _ | skip
    · unfold countDisjoint
      split
      · rename_i hprefix
        have hzero : countDisjoint pattern (pattern.length - 1) s + 1 ≤ 1 ↔ countDisjoint pattern (pattern.length - 1) s = 0 := by
          omega
        rw [hzero, countDisjoint_eq_zero pattern hne]
        refine ⟨fun h i j _ hi hj => ?_, fun h i hle hi => ?_⟩
        · by_contra hfar
          obtain ⟨k, rfl⟩ := Nat.exists_eq_add_of_le' (show 1 ≤ j by omega)
          exact h k (by omega) ((occursAt_succ _ _ _ _).mp hj)
        · have := h 0 (i + 1) (Nat.le_refl 0) ((occursAt_zero _ _).mpr hprefix) ((occursAt_succ _ _ _ _).mpr hi)
          omega
      · rename_i hno
        refine (ih 0).trans ⟨fun h i j _ hi hj => ?_, fun h i j _ hi hj => ?_⟩
        · rcases i with _ | i
          · exact absurd ((occursAt_zero _ _).mp hi) hno
          · rcases j with _ | j
            · omega
            · have := h i j (Nat.zero_le i) ((occursAt_succ _ _ _ _).mp hi) ((occursAt_succ _ _ _ _).mp hj)
              omega
        · have := h (i + 1) (j + 1) (Nat.zero_le _) ((occursAt_succ _ _ _ _).mpr hi) ((occursAt_succ _ _ _ _).mpr hj)
          omega
    · unfold countDisjoint
      refine (ih skip).trans ⟨fun h i j hle hi hj => ?_, fun h i j hle hi hj => ?_⟩
      · obtain ⟨i, rfl⟩ := Nat.exists_eq_add_of_le' (show 1 ≤ i by omega)
        rcases j with _ | j
        · omega
        · have := h i j (by omega) ((occursAt_succ _ _ _ _).mp hi) ((occursAt_succ _ _ _ _).mp hj)
          omega
      · have := h (i + 1) (j + 1) (by omega) ((occursAt_succ _ _ _ _).mpr hi) ((occursAt_succ _ _ _ _).mpr hj)
        omega

end PiAgent
