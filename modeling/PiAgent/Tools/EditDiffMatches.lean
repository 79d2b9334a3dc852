import PiAgent.Tools.EditDiffProofs

/-! # Matching edits -/

namespace PiAgent.Tools

open List Durable

variable (nfkc : Nfkc)

/-! ## One edit -/

def rangeOf (base : JsString) (edit : Edit) : Option (Splice UInt16) :=
  (fuzzyFindText nfkc base edit.oldText).map (fun found => ⟨found.index, found.matchLength, edit.newText⟩)

theorem fuzzyFindText_exact (content oldText : JsString) (i : ℕ) (h : firstIndex oldText content = some i) :
    fuzzyFindText nfkc content oldText = some ⟨i, oldText.length, false, content⟩ := by
  unfold fuzzyFindText
  rw [h]

theorem fuzzyFindText_fuzzy (content oldText : JsString) (h : firstIndex oldText content = none) :
    fuzzyFindText nfkc content oldText =
      (firstIndex (normalizeForFuzzyMatch nfkc oldText) (normalizeForFuzzyMatch nfkc content)).map
        (fun i => ⟨i, (normalizeForFuzzyMatch nfkc oldText).length, true, normalizeForFuzzyMatch nfkc content⟩) := by
  unfold fuzzyFindText
  rw [h]

/-- The place of an edit in the base text: the first one of its old text or, where some edit needs it and the old text
is nowhere, the first one of its normalized form. -/
structure MatchedAt (content : JsString) (edits : List Edit) (edit : Edit) (range : Splice UInt16) : Prop where
  text : range.text = edit.newText
  pos : 0 < range.length
  found :
    firstIndex edit.oldText (replacementBaseContent nfkc content edits) = some range.start ∧
        range.length = edit.oldText.length ∨
      usedFuzzyMatch nfkc content edits = true ∧
        firstIndex edit.oldText (replacementBaseContent nfkc content edits) = none ∧
        firstIndex (normalizeForFuzzyMatch nfkc edit.oldText) (replacementBaseContent nfkc content edits) = some range.start ∧
        range.length = (normalizeForFuzzyMatch nfkc edit.oldText).length

section

variable (content : JsString) (edits : List Edit)

theorem normalize_base :
    normalizeForFuzzyMatch nfkc (replacementBaseContent nfkc content edits) = normalizeForFuzzyMatch nfkc content := by
  unfold replacementBaseContent
  split
  · exact normalizeForFuzzyMatch_again content nfkc
  · rfl

/-- Where no edit needs a fuzzy match, every one that is found is found as it is. -/
theorem exact_of_not_fuzzy (h : usedFuzzyMatch nfkc content edits = false) (edit : Edit) (hmem : edit ∈ edits)
    (hnone : firstIndex edit.oldText content = none) : fuzzyFindText nfkc content edit.oldText = none := by
  unfold usedFuzzyMatch at h
  rw [any_eq_false] at h
  have hno := h edit hmem
  rw [fuzzyFindText_fuzzy nfkc content edit.oldText hnone] at hno ⊢
  cases hfound : firstIndex (normalizeForFuzzyMatch nfkc edit.oldText) (normalizeForFuzzyMatch nfkc content) with
  | none => rfl
  | some i =>
    rw [hfound] at hno
    exact absurd rfl hno

theorem rangeOf_iff (edit : Edit) (hmem : edit ∈ edits) (hold : edit.oldText ≠ [])
    (hnormal : normalizeForFuzzyMatch nfkc edit.oldText ≠ []) (range : Splice UInt16) :
    rangeOf nfkc (replacementBaseContent nfkc content edits) edit = some range ↔ MatchedAt nfkc content edits edit range := by
  have hlength := length_pos_iff.mpr hold
  have hlength' := length_pos_iff.mpr hnormal
  have hbase := normalize_base nfkc content edits
  unfold rangeOf
  cases hexact : firstIndex edit.oldText (replacementBaseContent nfkc content edits) with
  | some i =>
    rw [fuzzyFindText_exact nfkc _ _ i hexact, Option.map_some, Option.some.injEq]
    constructor
    · rintro rfl
      exact ⟨rfl, hlength, .inl ⟨hexact, rfl⟩⟩
    · rintro ⟨htext, -, ⟨hstart, hlen⟩ | ⟨-, hnone, -⟩⟩
      · rw [hexact, Option.some.injEq] at hstart
        rw [hstart, ← hlen, ← htext]
      · rw [hexact] at hnone
        cases hnone
  | none =>
    rw [fuzzyFindText_fuzzy nfkc _ _ hexact, hbase]
    cases hfuzzy : usedFuzzyMatch nfkc content edits with
    | false =>
      have heq : replacementBaseContent nfkc content edits = content := by
        unfold replacementBaseContent
        rw [hfuzzy]
        rfl
      rw [heq] at hexact
      have hnothing := exact_of_not_fuzzy nfkc content edits hfuzzy edit hmem hexact
      rw [fuzzyFindText_fuzzy nfkc content _ hexact] at hnothing
      rw [hnothing]
      refine iff_of_false (fun h => by cases h) ?_
      rintro ⟨-, -, ⟨hstart, -⟩ | ⟨hused, -⟩⟩
      · rw [heq, hexact] at hstart
        cases hstart
      · rw [hfuzzy] at hused
        cases hused
    | true =>
      have heq : replacementBaseContent nfkc content edits = normalizeForFuzzyMatch nfkc content := by
        unfold replacementBaseContent
        rw [hfuzzy]
        rfl
      rw [Option.map_map, Option.map_eq_some_iff, ← heq]
      constructor
      · rintro ⟨i, hi, rfl⟩
        exact ⟨rfl, hlength', .inr ⟨hfuzzy, hexact, hi, rfl⟩⟩
      · rintro ⟨htext, -, ⟨hstart, -⟩ | ⟨-, -, hstart, hlen⟩⟩
        · rw [hexact] at hstart
          cases hstart
        · refine ⟨range.start, hstart, ?_⟩
          rw [Function.comp_apply, ← hlen, ← htext]

end

theorem MatchedAt.le {content : JsString} {edits : List Edit} {edit : Edit} {range : Splice UInt16}
    (h : MatchedAt nfkc content edits edit range) : range.stop ≤ (replacementBaseContent nfkc content edits).length := by
  unfold Splice.stop
  rcases h.found with ⟨hstart, hlen⟩ | ⟨-, -, hstart, hlen⟩
  · rw [hlen]
    exact ((firstIndex_eq_some _ _ _).mp hstart).1.le
  · rw [hlen]
    exact ((firstIndex_eq_some _ _ _).mp hstart).1.le

/-! ## Counting -/

def Unambiguous (content : JsString) (edit : Edit) : Prop :=
  ∀ i j, OccursAt (normalizeForFuzzyMatch nfkc edit.oldText) (normalizeForFuzzyMatch nfkc content) i →
    OccursAt (normalizeForFuzzyMatch nfkc edit.oldText) (normalizeForFuzzyMatch nfkc content) j →
    j < i + (normalizeForFuzzyMatch nfkc edit.oldText).length

theorem countOccurrences_le_one (content : JsString) (edits : List Edit) (edit : Edit)
    (hnormal : normalizeForFuzzyMatch nfkc edit.oldText ≠ []) :
    countOccurrences nfkc (replacementBaseContent nfkc content edits) edit.oldText ≤ 1 ↔ Unambiguous nfkc content edit := by
  unfold countOccurrences splitLength Unambiguous
  rw [normalize_base, if_neg (by simpa using hnormal)]
  have hcount := countDisjoint_le_one (normalizeForFuzzyMatch nfkc edit.oldText) hnormal 0 (normalizeForFuzzyMatch nfkc content)
  constructor
  · intro h i j
    exact hcount.mp (by omega) i j (Nat.zero_le i)
  · intro h
    have := hcount.mpr (fun i j _ => h i j)
    omega

/-! ## All edits -/

theorem matchEdits_ok (base : JsString) (totalEdits i : ℕ) (edits : List Edit) (found : List MatchedEdit)
    (h : matchEdits nfkc base totalEdits i edits = .ok found) :
    List.Forall₂ (fun edit range => rangeOf nfkc base edit = some range ∧ countOccurrences nfkc base edit.oldText ≤ 1) edits
      (found.map MatchedEdit.splice) := by
  induction edits generalizing i found with
  | nil =>
    unfold matchEdits at h
    obtain rfl := Except.ok.inj h
    exact .nil
  | cons edit edits ih =>
    unfold matchEdits at h
    split at h
    · cases h
    · rename_i m hm
      split at h
      · cases h
      · rename_i hcount
        cases hrest : matchEdits nfkc base totalEdits (i + 1) edits with
        | error e =>
          rw [hrest] at h
          cases h
        | ok rest =>
          rw [hrest] at h
          obtain rfl := Except.ok.inj h
          refine .cons ⟨?_, by omega⟩ (ih (i + 1) rest hrest)
          unfold rangeOf
          rw [hm]
          rfl

theorem matchEdits_of_ranges (base : JsString) (totalEdits i : ℕ) (edits : List Edit) (ranges : List (Splice UInt16))
    (h : List.Forall₂ (fun edit range => rangeOf nfkc base edit = some range ∧ countOccurrences nfkc base edit.oldText ≤ 1)
      edits ranges) :
    ∃ found, matchEdits nfkc base totalEdits i edits = .ok found ∧ found.map MatchedEdit.splice = ranges := by
  induction h generalizing i with
  | nil => exact ⟨[], rfl, rfl⟩
  | cons hfirst hrest ih =>
    rename_i edit range edits ranges
    obtain ⟨hrange, hcount⟩ := hfirst
    obtain ⟨found, hfound, hmap⟩ := ih (i + 1)
    unfold rangeOf at hrange
    obtain ⟨m, hm, rfl⟩ := Option.map_eq_some_iff.mp hrange
    unfold matchEdits
    rw [hm]
    dsimp only
    rw [if_neg (by omega), hfound]
    refine ⟨_, rfl, ?_⟩
    rw [map_cons, hmap]
    rfl

/-! ## Overlaps -/

instance instTotalByMatchIndex : Std.Total byMatchIndex := ⟨fun a b => Nat.le_total a.matchIndex b.matchIndex⟩

instance instTransByMatchIndex : IsTrans MatchedEdit byMatchIndex := ⟨fun _ _ _ h1 h2 => Nat.le_trans h1 h2⟩

theorem findOverlap_none (edits : List MatchedEdit) (h : findOverlap edits = none) :
    (edits.map MatchedEdit.splice).Pairwise (fun s t => s.stop ≤ t.start) := by
  induction edits with
  | nil => exact .nil
  | cons previous edits ih =>
    cases edits with
    | nil => exact pairwise_singleton _ _
    | cons current rest =>
      unfold findOverlap at h
      split at h
      · cases h
      · rename_i hle
        have hrest := ih h
        have hnext : previous.splice.stop ≤ current.splice.start := Nat.le_of_not_lt hle
        rw [map_cons]
        refine pairwise_cons.mpr ⟨fun s hs => ?_, hrest⟩
        rw [map_cons] at hrest hs
        rcases mem_cons.mp hs with rfl | hs
        · exact hnext
        · have hlater := (pairwise_cons.mp hrest).1 s hs
          unfold Splice.stop at hlater hnext ⊢
          omega

theorem findOverlap_of_apart (edits : List MatchedEdit) (hsorted : edits.Pairwise byMatchIndex)
    (hapart : (edits.map MatchedEdit.splice).Pairwise Splice.Apart) (hpos : ∀ edit ∈ edits, 0 < edit.matchLength) :
    findOverlap edits = none := by
  induction edits with
  | nil => rfl
  | cons previous edits ih =>
    cases edits with
    | nil => rfl
    | cons current rest =>
      obtain ⟨hfirst, hsorted'⟩ := pairwise_cons.mp hsorted
      obtain ⟨hfirst', hapart'⟩ := pairwise_cons.mp hapart
      have hle := hfirst current mem_cons_self
      have hout := hfirst' current.splice (mem_map_of_mem mem_cons_self)
      have hlength := hpos current (mem_cons_of_mem _ mem_cons_self)
      unfold findOverlap
      rw [if_neg, ih hsorted' hapart' (fun edit hmem => hpos edit (mem_cons_of_mem _ hmem))]
      unfold Splice.Apart Splice.stop MatchedEdit.splice at hout
      unfold byMatchIndex at hle
      dsimp only at hout
      omega

end PiAgent.Tools
