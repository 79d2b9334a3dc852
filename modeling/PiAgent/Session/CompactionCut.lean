import PiAgent.Session.Compaction
import PiAgent.Session.BranchedContext

/-! # Where a compaction cuts -/

namespace PiAgent.Session

open List

variable (entries : List ProjectedSessionEntry)

theorem findProjectedTurnStartIndex_spec (startIndex index t : ℕ)
    (h : findProjectedTurnStartIndex entries startIndex index = some t) : startIndex ≤ t ∧ t ≤ index := by
  induction index with
  | zero =>
    unfold findProjectedTurnStartIndex at h
    split at h
    · rename_i hcond
      obtain rfl := Option.some.inj h
      omega
    · cases h
  | succ index ih =>
    unfold findProjectedTurnStartIndex at h
    split at h
    · cases h
    split at h
    · obtain rfl := Option.some.inj h
      omega
    · have hrest := ih h
      omega

theorem skipBack_spec (startIndex cutIndex : ℕ) (h : startIndex ≤ cutIndex) :
    startIndex ≤ skipBack entries startIndex cutIndex ∧ skipBack entries startIndex cutIndex ≤ cutIndex ∧
      ∀ i e, skipBack entries startIndex cutIndex ≤ i → i < cutIndex → entries[i]? = some e → e.messages = [] := by
  induction cutIndex with
  | zero =>
    refine ⟨h, le_refl _, ?_⟩
    intro i e _ hi
    omega
  | succ cutIndex ih =>
    unfold skipBack
    split
    · rename_i hcond
      obtain ⟨hlt, hany⟩ := hcond
      obtain ⟨h1, h2, h3⟩ := ih (by omega)
      refine ⟨h1, by omega, ?_⟩
      intro i e hi hlt' he
      by_cases hlast : i = cutIndex
      · subst hlast
        rw [he, Option.any_some, Bool.and_eq_true, List.isEmpty_iff] at hany
        exact hany.2
      · exact h3 i e hi (by omega) he
    · refine ⟨h, le_refl _, ?_⟩
      intro i e hi hlt
      omega

/-- A list begins with entries that contribute nothing, and then ends or goes on with a message to cut at. -/
def Begins (entries : List ProjectedSessionEntry) : Prop :=
  ∃ a b, entries = a ++ b ∧ (∀ e ∈ a, e.messages = []) ∧ (b = [] ∨ ∃ e b', b = e :: b' ∧ e.isCutPoint = true)

theorem begins_of_cut (c cut : ℕ) (hc : c ≤ cut)
    (hskip : ∀ i e, c ≤ i → i < cut → entries[i]? = some e → e.messages = [])
    (hcut : (∃ e, entries[cut]? = some e ∧ e.isCutPoint = true) ∨ ∀ e ∈ entries.drop cut, e.messages = []) :
    Begins (entries.drop c) := by
  have hsplit : entries.drop c = (entries.drop c).take (cut - c) ++ entries.drop cut := by
    have htake := (List.take_append_drop (cut - c) (entries.drop c)).symm
    rwa [drop_drop, show c + (cut - c) = cut by omega] at htake
  have ha : ∀ e ∈ (entries.drop c).take (cut - c), e.messages = [] := by
    intro e he
    obtain ⟨i, hi⟩ := mem_iff_getElem?.mp he
    have hlt : i < cut - c := by
      by_contra hno
      rw [getElem?_take_eq_none (by omega)] at hi
      cases hi
    rw [getElem?_take_of_lt hlt, getElem?_drop] at hi
    exact hskip (c + i) e (by omega) (by omega) hi
  rcases hcut with ⟨e, he, hpoint⟩ | hall
  · refine ⟨_, _, hsplit, ha, Or.inr ⟨e, entries.drop (cut + 1), ?_, hpoint⟩⟩
    obtain ⟨hlt, hget⟩ := List.getElem?_eq_some_iff.mp he
    rw [← hget]
    exact drop_eq_getElem_cons hlt
  · refine ⟨entries.drop c, [], by simp, ?_, Or.inl rfl⟩
    intro e he
    rw [hsplit] at he
    rcases mem_append.mp he with he | he
    · exact ha e he
    · exact hall e he

theorem recovery_silent (exceeded : Bool) (suffix : List ProjectedSessionEntry)
    (hsilent : ∀ e ∈ suffix, e.isIntrinsicallyVisible = false → e.messages = [])
    (h : isRecoveryOmissionSuffix exceeded suffix = true) : ∀ e ∈ suffix, e.messages = [] := by
  intro e he
  unfold isRecoveryOmissionSuffix at h
  simp only [Bool.and_eq_true, all_eq_true] at h
  have hall := (h.2 e he).2
  cases hv : e.isIntrinsicallyVisible with
  | false => exact hsilent e he hv
  | true =>
    rw [hv] at hall
    have homitted : e.isOmitted = true := by simpa using hall
    unfold ProjectedSessionEntry.isOmitted at homitted
    rw [Bool.and_eq_true, List.isEmpty_iff] at homitted
    exact homitted.2

theorem cutFrom_mem (first : ℕ) (rest : List ℕ) (exceeded : Option ℕ) :
    cutFrom first rest exceeded ∈ first :: rest := by
  unfold cutFrom
  cases exceeded with
  | none => exact mem_cons_self ..
  | some i =>
    simp only
    cases hfind : (first :: rest).find? (fun candidate => decide (i ≤ candidate)) with
    | none => exact getLast_mem _
    | some candidate => exact mem_of_find?_eq_some hfind

theorem findProjectedCutPoint_spec (P : Ai.JsonTexts) (entries : List ProjectedSessionEntry) (startIndex : ℕ)
    (keepRecentTokens : ℚ) (hsilent : ∀ e ∈ entries, e.isIntrinsicallyVisible = false → e.messages = []) :
    let cutPoint := findProjectedCutPoint P entries startIndex keepRecentTokens
    startIndex ≤ cutPoint.firstKeptEntryIndex ∧
      (cutPoint.isSplitTurn = true →
        startIndex ≤ cutPoint.turnStartIndex.getD 0 ∧ cutPoint.turnStartIndex.getD 0 ≤ cutPoint.firstKeptEntryIndex) ∧
      ((cutPoint.firstKeptEntryIndex = startIndex ∧ cutPoint.isSplitTurn = false) ∨
        Begins (entries.drop cutPoint.firstKeptEntryIndex)) := by
  unfold findProjectedCutPoint
  generalize hpoints : (List.range entries.length).filter
    (fun i => decide (startIndex ≤ i) && entries[i]?.any (·.isCutPoint)) = cutPoints
  cases cutPoints with
  | nil => exact ⟨le_refl _, fun h => by simp at h, Or.inl ⟨rfl, rfl⟩⟩
  | cons first rest =>
    have hpoint : ∀ i ∈ first :: rest, startIndex ≤ i ∧ ∃ e, entries[i]? = some e ∧ e.isCutPoint = true := by
      intro i hi
      rw [← hpoints, mem_filter, Bool.and_eq_true, decide_eq_true_eq] at hi
      obtain ⟨-, hle, hany⟩ := hi
      exact ⟨hle, (Option.any_eq_true _ _).mp hany⟩
    simp only
    generalize exceedsAt keepRecentTokens 0 _ = exceeded
    -- before it is moved, the cut is at a message to cut at
    obtain ⟨hle, hcutPoint⟩ := hpoint _ (cutFrom_mem first rest exceeded)
    generalize cutFrom first rest exceeded = cut at hle hcutPoint ⊢
    obtain ⟨moved, hmoved, hle', hmovedCut⟩ : ∃ moved,
        (if isRecoveryOmissionSuffix exceeded.isSome (entries.drop (cut + 1)) then cut + 1 else cut) = moved ∧
        startIndex ≤ moved ∧
        ((∃ e, entries[moved]? = some e ∧ e.isCutPoint = true) ∨ ∀ e ∈ entries.drop moved, e.messages = []) := by
      cases hrec : isRecoveryOmissionSuffix exceeded.isSome (entries.drop (cut + 1)) with
      | false => exact ⟨cut, rfl, hle, Or.inl hcutPoint⟩
      | true =>
        refine ⟨cut + 1, rfl, by omega, Or.inr (recovery_silent _ _ ?_ hrec)⟩
        exact fun e he => hsilent e (mem_of_mem_drop he)
    rw [hmoved]
    obtain ⟨h1, h2, h3⟩ := skipBack_spec entries startIndex moved hle'
    refine ⟨h1, ?_, Or.inr (begins_of_cut entries _ moved h2 h3 hmovedCut)⟩
    intro hsplit
    rw [Bool.and_eq_true] at hsplit
    obtain ⟨t, ht⟩ := Option.isSome_iff_exists.mp hsplit.2
    rw [ht, Option.getD_some]
    split at ht
    · cases ht
    · exact findProjectedTurnStartIndex_spec entries startIndex _ t ht

end PiAgent.Session
