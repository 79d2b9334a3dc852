import Mathlib.Data.List.Perm.Basic
import PiAgent.Tools.EditDiffMatches

/-! # What a call with several edits does -/

namespace PiAgent.Tools

open List Durable

variable (nfkc : Nfkc)

/-- What the replacements make of the content: as it is or, where some edit needs a fuzzy match, line by line, where the
lines that no range touches are those of the content. -/
def replaced (content : JsString) (edits : List Edit) (ranges : List (Splice UInt16)) : JsString :=
  if usedFuzzyMatch nfkc content edits then
    weave ranges 0 (splitLinesWithEndings (normalizeForFuzzyMatch nfkc content)) (splitLinesWithEndings content)
  else spliced ranges 0 content

def SameLines (content : JsString) (edits : List Edit) : Prop :=
  usedFuzzyMatch nfkc content edits = true →
    (splitLinesWithEndings content).length = (splitLinesWithEndings (normalizeForFuzzyMatch nfkc content)).length

structure Accepts (content : JsString) (edits : List Edit) (ranges : List (Splice UInt16)) : Prop where
  matched : List.Forall₂ (fun edit range => MatchedAt nfkc content edits edit range ∧ Unambiguous nfkc content edit) edits ranges
  apart : ranges.Pairwise Splice.Apart
  sameLines : SameLines nfkc content edits
  differs : replaced nfkc content edits ranges ≠ content

/-! ## From edits to ranges -/

theorem forall₂_mem_left {α β : Type} {R S : α → β → Prop} (as : List α) (bs : List β) (h : List.Forall₂ R as bs)
    (himp : ∀ a ∈ as, ∀ b, R a b → S a b) : List.Forall₂ S as bs := by
  induction h with
  | nil => exact .nil
  | cons hab _ ih =>
    exact .cons (himp _ mem_cons_self _ hab) (ih (fun a ha b => himp a (mem_cons_of_mem _ ha) b))

variable (content : JsString) (edits : List Edit)

theorem matched_iff (hold : ∀ edit ∈ edits, edit.oldText ≠ [])
    (hnormal : ∀ edit ∈ edits, normalizeForFuzzyMatch nfkc edit.oldText ≠ []) (ranges : List (Splice UInt16)) :
    List.Forall₂ (fun edit range => rangeOf nfkc (replacementBaseContent nfkc content edits) edit = some range ∧
        countOccurrences nfkc (replacementBaseContent nfkc content edits) edit.oldText ≤ 1) edits ranges ↔
      List.Forall₂ (fun edit range => MatchedAt nfkc content edits edit range ∧ Unambiguous nfkc content edit) edits ranges := by
  constructor
  · intro h
    refine forall₂_mem_left _ _ h (fun edit hmem range hboth => ?_)
    exact ⟨(rangeOf_iff nfkc content edits edit hmem (hold edit hmem) (hnormal edit hmem) range).mp hboth.1,
      (countOccurrences_le_one nfkc content edits edit (hnormal edit hmem)).mp hboth.2⟩
  · intro h
    refine forall₂_mem_left _ _ h (fun edit hmem range hboth => ?_)
    exact ⟨(rangeOf_iff nfkc content edits edit hmem (hold edit hmem) (hnormal edit hmem) range).mpr hboth.1,
      (countOccurrences_le_one nfkc content edits edit (hnormal edit hmem)).mpr hboth.2⟩

theorem MatchedAt.old_ne_nil {content : JsString} {edits : List Edit} {edit : Edit} {range : Splice UInt16}
    (h : MatchedAt nfkc content edits edit range) : edit.oldText ≠ [] := by
  intro hnil
  have hpos := h.pos
  rcases h.found with ⟨-, hlen⟩ | ⟨-, hnone, -⟩
  · rw [hlen, hnil] at hpos
    exact absurd hpos (Nat.lt_irrefl 0)
  · -- the empty text is at the first place
    rw [hnil, firstIndex_eq_none] at hnone
    exact hnone 0 ⟨Nat.zero_le _, nil_prefix⟩

/-! ## Replacing in order -/

section Replace

variable (content : JsString) (edits : List Edit) (matchedEdits : List MatchedEdit)
  (hsorted : matchedEdits.Pairwise byMatchIndex)
  (hordered : Ordered (matchedEdits.map MatchedEdit.splice))
  (hin : ∀ edit ∈ matchedEdits, edit.splice.stop ≤ (replacementBaseContent nfkc content edits).length)

include hordered hin in
theorem replace_exact (hused : usedFuzzyMatch nfkc content edits = false) :
    applyReplacements (replacementBaseContent nfkc content edits) matchedEdits 0 =
      replaced nfkc content edits (matchedEdits.map MatchedEdit.splice) := by
  have hbase : replacementBaseContent nfkc content edits = content := by
    unfold replacementBaseContent
    rw [hused]
    rfl
  unfold replaced
  rw [hused, if_neg Bool.false_ne_true, applyReplacements_eq, hbase]
  refine spliceAll_eq 0 _ _ hordered (fun s hs => ?_)
  obtain ⟨edit, hmem, rfl⟩ := mem_map.mp hs
  have hstop := hin edit hmem
  rw [hbase] at hstop
  exact ⟨Nat.zero_le _, by omega⟩

include hsorted hordered hin in
theorem replace_fuzzy (hused : usedFuzzyMatch nfkc content edits = true)
    (hlines : (splitLinesWithEndings content).length = (splitLinesWithEndings (normalizeForFuzzyMatch nfkc content)).length) :
    applyReplacementsPreservingUnchangedLines content (replacementBaseContent nfkc content edits) matchedEdits =
      .ok (replaced nfkc content edits (matchedEdits.map MatchedEdit.splice)) := by
  have hbase : replacementBaseContent nfkc content edits = normalizeForFuzzyMatch nfkc content := by
    unfold replacementBaseContent
    rw [hused]
    rfl
  unfold replaced
  rw [hused, if_pos rfl]
  rw [hbase] at hin ⊢
  exact applyReplacementsPreservingUnchangedLines_eq content _ matchedEdits hlines hsorted.insertionSort_eq hordered hin

end Replace

theorem replaced_perm (ranges ranges' : List (Splice UInt16)) (h : ranges.Perm ranges')
    (hapart : ranges.Pairwise Splice.Apart) (hpos : ∀ s ∈ ranges, 0 < s.length) :
    replaced nfkc content edits ranges = replaced nfkc content edits ranges' := by
  unfold replaced
  rw [weave_perm ranges ranges' h hapart hpos, spliced_perm ranges ranges' h hapart hpos]

/-! ## A call -/

section Call

variable (content : JsString) (edits : List Edit) (hnormal : ∀ edit ∈ edits, normalizeForFuzzyMatch nfkc edit.oldText ≠ [])

def replaceMatched (matchedEdits : List MatchedEdit) : Except EditError JsString :=
  if usedFuzzyMatch nfkc content edits then
    applyReplacementsPreservingUnchangedLines content (replacementBaseContent nfkc content edits) matchedEdits
  else .ok (applyReplacements (replacementBaseContent nfkc content edits) matchedEdits 0)

def finish (totalEdits : ℕ) (newContent : Except EditError JsString) : Except EditError AppliedEditsResult :=
  match newContent with
  | .error e => .error e
  | .ok newContent => if content = newContent then .error (.noChange totalEdits) else .ok ⟨content, newContent⟩

def applyMatched (found : List MatchedEdit) : Except EditError AppliedEditsResult :=
  match findOverlap (found.insertionSort byMatchIndex) with
  | some e => .error e
  | none => finish content edits.length (replaceMatched nfkc content edits (found.insertionSort byMatchIndex))

theorem finish_ok_iff (totalEdits : ℕ) (newContent : Except EditError JsString) (result : AppliedEditsResult) :
    finish content totalEdits newContent = .ok result ↔
      ∃ text, newContent = .ok text ∧ text ≠ content ∧ result = ⟨content, text⟩ := by
  unfold finish
  cases newContent with
  | error e => exact iff_of_false (fun h => by cases h) (fun ⟨_, h, _⟩ => by cases h)
  | ok text =>
    dsimp only
    split
    · rename_i hsame
      refine iff_of_false (fun h => by cases h) ?_
      rintro ⟨_, ⟨rfl⟩, hdiffers, -⟩
      exact hdiffers hsame.symm
    · rename_i hdiffers
      rw [Except.ok.injEq]
      constructor
      · rintro rfl
        exact ⟨text, rfl, fun hsame => hdiffers hsame.symm, rfl⟩
      · rintro ⟨_, ⟨rfl⟩, -, rfl⟩
        rfl

theorem lines_of_ok (base : JsString) (matchedEdits : List MatchedEdit) (newContent : JsString)
    (h : applyReplacementsPreservingUnchangedLines content base matchedEdits = .ok newContent) :
    (splitLinesWithEndings content).length = (splitLinesWithEndings base).length := by
  unfold applyReplacementsPreservingUnchangedLines getLineSpans at h
  dsimp only at h
  rw [length_lineSpansFrom] at h
  split at h
  · cases h
  · rename_i hsame
    exact not_not.mp hsame

theorem replaceMatched_ok_iff (matchedEdits : List MatchedEdit) (hsorted : matchedEdits.Pairwise byMatchIndex)
    (hordered : Ordered (matchedEdits.map MatchedEdit.splice))
    (hin : ∀ edit ∈ matchedEdits, edit.splice.stop ≤ (replacementBaseContent nfkc content edits).length) (text : JsString) :
    replaceMatched nfkc content edits matchedEdits = .ok text ↔
      SameLines nfkc content edits ∧ text = replaced nfkc content edits (matchedEdits.map MatchedEdit.splice) := by
  unfold replaceMatched SameLines
  cases hused : usedFuzzyMatch nfkc content edits with
  | false =>
    rw [if_neg Bool.false_ne_true, replace_exact nfkc content edits _ hordered hin hused, Except.ok.injEq]
    exact ⟨fun h => ⟨fun h' => (by cases h'), h.symm⟩, fun h => h.2.symm⟩
  | true =>
    rw [if_pos rfl]
    constructor
    · intro h
      have hlines := lines_of_ok content _ _ _ h
      unfold replacementBaseContent at hlines
      rw [hused, if_pos rfl] at hlines
      rw [replace_fuzzy nfkc content edits _ hsorted hordered hin hused hlines, Except.ok.injEq] at h
      exact ⟨fun _ => hlines, h.symm⟩
    · rintro ⟨hlines, rfl⟩
      exact replace_fuzzy nfkc content edits _ hsorted hordered hin hused (hlines rfl)

/-- Whether ranges overlap shows once they are sorted. -/
theorem findOverlap_iff (found : List MatchedEdit) (hpos : ∀ edit ∈ found, 0 < edit.matchLength) :
    findOverlap (found.insertionSort byMatchIndex) = none ↔ (found.map MatchedEdit.splice).Pairwise Splice.Apart := by
  have hperm := (perm_insertionSort byMatchIndex found).map MatchedEdit.splice
  constructor
  · intro hnone
    exact hperm.pairwise ((findOverlap_none _ hnone).imp (fun h => Or.inl h)) Splice.Apart.symm
  · intro hapart
    exact findOverlap_of_apart _ (pairwise_insertionSort byMatchIndex found)
      (hperm.symm.pairwise hapart Splice.Apart.symm) (fun edit hmem => hpos edit ((mem_insertionSort byMatchIndex).mp hmem))

theorem applyMatched_ok_iff (found : List MatchedEdit) (hpos : ∀ edit ∈ found, 0 < edit.matchLength)
    (hin : ∀ edit ∈ found, edit.splice.stop ≤ (replacementBaseContent nfkc content edits).length) (result : AppliedEditsResult) :
    applyMatched nfkc content edits found = .ok result ↔
      (found.map MatchedEdit.splice).Pairwise Splice.Apart ∧ SameLines nfkc content edits ∧
        replaced nfkc content edits (found.map MatchedEdit.splice) ≠ content ∧
        result = ⟨content, replaced nfkc content edits (found.map MatchedEdit.splice)⟩ := by
  have hperm := (perm_insertionSort byMatchIndex found).map MatchedEdit.splice
  unfold applyMatched
  rw [← findOverlap_iff found hpos]
  cases hfound : findOverlap (found.insertionSort byMatchIndex) with
  | some e => exact iff_of_false (fun h => by cases h) (fun h => by cases h.1)
  | none =>
    have hrangesPos : ∀ s ∈ (found.insertionSort byMatchIndex).map MatchedEdit.splice, 0 < s.length := by
      intro s hs
      obtain ⟨edit, hmem, rfl⟩ := mem_map.mp hs
      exact hpos edit ((mem_insertionSort byMatchIndex).mp hmem)
    have hordered : Ordered ((found.insertionSort byMatchIndex).map MatchedEdit.splice) :=
      ⟨findOverlap_none _ hfound, hrangesPos⟩
    have hreplaced := replaced_perm nfkc content edits _ _ hperm (hordered.1.imp (fun h => Or.inl h)) hrangesPos
    dsimp only
    rw [finish_ok_iff, ← hreplaced]
    simp only [replaceMatched_ok_iff nfkc content edits _ (pairwise_insertionSort byMatchIndex found) hordered
      (fun edit hmem => hin edit ((mem_insertionSort byMatchIndex).mp hmem))]
    constructor
    · rintro ⟨_, ⟨hlines, rfl⟩, hrest⟩
      exact ⟨trivial, hlines, hrest⟩
    · rintro ⟨-, hlines, hrest⟩
      exact ⟨_, ⟨hlines, rfl⟩, hrest⟩

theorem apply_eq : applyEditsToNormalizedContent nfkc content edits =
    match (edits.map normalizeEdit).findIdx? (fun edit => edit.oldText.isEmpty) with
    | some i => .error (.emptyOldText i (edits.map normalizeEdit).length)
    | none =>
      match matchEdits nfkc (replacementBaseContent nfkc content (edits.map normalizeEdit)) (edits.map normalizeEdit).length 0
          (edits.map normalizeEdit) with
      | .error e => .error e
      | .ok found => applyMatched nfkc content (edits.map normalizeEdit) found := rfl

end Call

theorem noneEmpty_iff :
    edits.findIdx? (fun edit => edit.oldText.isEmpty) = none ↔ ∀ edit ∈ edits, edit.oldText ≠ [] := by
  rw [findIdx?_eq_none_iff]
  simp only [isEmpty_eq_false_iff]

theorem matched_bounds (ranges : List (Splice UInt16))
    (h : List.Forall₂ (fun edit range => MatchedAt nfkc content edits edit range ∧ Unambiguous nfkc content edit) edits ranges) :
    ∀ range ∈ ranges, 0 < range.length ∧ range.stop ≤ (replacementBaseContent nfkc content edits).length := by
  have hall : ∀ (es : List Edit) (rs : List (Splice UInt16)), List.Forall₂
      (fun edit range => MatchedAt nfkc content edits edit range ∧ Unambiguous nfkc content edit) es rs →
      ∀ range ∈ rs, 0 < range.length ∧ range.stop ≤ (replacementBaseContent nfkc content edits).length := by
    intro es rs hes
    induction hes with
    | nil => simp
    | cons hfirst _ ih =>
      intro range hmem
      rcases mem_cons.mp hmem with rfl | hmem
      · exact ⟨hfirst.1.pos, hfirst.1.le⟩
      · exact ih range hmem
  exact hall edits ranges h

theorem apply_ok_iff (hnormal : ∀ edit ∈ edits, normalizeForFuzzyMatch nfkc (normalizeToLF edit.oldText) ≠ [])
    (result : AppliedEditsResult) :
    applyEditsToNormalizedContent nfkc content edits = .ok result ↔
      ∃ ranges, Accepts nfkc content (edits.map normalizeEdit) ranges ∧
        result = ⟨content, replaced nfkc content (edits.map normalizeEdit) ranges⟩ := by
  have hnormal' : ∀ edit ∈ edits.map normalizeEdit, normalizeForFuzzyMatch nfkc edit.oldText ≠ [] := by
    intro edit hmem
    obtain ⟨given, hgiven, rfl⟩ := mem_map.mp hmem
    exact hnormal given hgiven
  rw [apply_eq]
  generalize edits.map normalizeEdit = edits at hnormal'
  constructor
  · intro h
    split at h
    · cases h
    · rename_i hnone
      have hold := (noneEmpty_iff edits).mp hnone
      split at h
      · cases h
      · rename_i found hfound
        have hmatched := (matched_iff nfkc content edits hold hnormal' _).mp (matchEdits_ok nfkc _ _ 0 edits found hfound)
        have hbounds := matched_bounds nfkc content edits _ hmatched
        obtain ⟨hapart, hlines, hdiffers, hresult⟩ := (applyMatched_ok_iff nfkc content edits found
          (fun edit hmem => (hbounds _ (mem_map_of_mem hmem)).1) (fun edit hmem => (hbounds _ (mem_map_of_mem hmem)).2)
          result).mp h
        exact ⟨_, ⟨hmatched, hapart, hlines, hdiffers⟩, hresult⟩
  · rintro ⟨ranges, haccepts, rfl⟩
    have hbounds := matched_bounds nfkc content edits ranges haccepts.matched
    have hold : ∀ edit ∈ edits, edit.oldText ≠ [] := by
      intro edit hmem
      obtain ⟨range, hrange⟩ : ∃ range, MatchedAt nfkc content edits edit range := by
        obtain ⟨i, hi, rfl⟩ := getElem_of_mem hmem
        have hlength := haccepts.matched.length_eq
        exact ⟨ranges[i], (haccepts.matched.get hi (by omega)).1⟩
      exact hrange.old_ne_nil
    obtain ⟨found, hfound, rfl⟩ := matchEdits_of_ranges nfkc _ edits.length 0 edits ranges
      ((matched_iff nfkc content edits hold hnormal' ranges).mpr haccepts.matched)
    rw [(noneEmpty_iff edits).mpr hold]
    dsimp only
    rw [hfound]
    exact (applyMatched_ok_iff nfkc content edits found (fun edit hmem => (hbounds _ (mem_map_of_mem hmem)).1)
      (fun edit hmem => (hbounds _ (mem_map_of_mem hmem)).2) _).mpr
      ⟨haccepts.apart, haccepts.sameLines, haccepts.differs, rfl⟩

/-! ## In any order -/

variable (edits edits' : List Edit)

theorem usedFuzzyMatch_perm (h : edits.Perm edits') :
    usedFuzzyMatch nfkc content edits = usedFuzzyMatch nfkc content edits' := by
  unfold usedFuzzyMatch
  exact h.any_eq

theorem accepts_perm (h : edits.Perm edits') (ranges : List (Splice UInt16))
    (haccepts : Accepts nfkc content edits ranges) : ∃ ranges', Accepts nfkc content edits' ranges' ∧
      replaced nfkc content edits' ranges' = replaced nfkc content edits ranges := by
  have hused := usedFuzzyMatch_perm nfkc content edits edits' h
  have hsame : ∀ edit range, MatchedAt nfkc content edits edit range → MatchedAt nfkc content edits' edit range := by
    intro edit range hmatched
    have hbase : replacementBaseContent nfkc content edits = replacementBaseContent nfkc content edits' := by
      unfold replacementBaseContent
      rw [hused]
    refine ⟨hmatched.text, hmatched.pos, ?_⟩
    rw [← hbase, ← hused]
    exact hmatched.found
  have hpos : ∀ range ∈ ranges, 0 < range.length := fun range hmem =>
    (matched_bounds nfkc content edits ranges haccepts.matched range hmem).1
  have hmatched := haccepts.matched
  obtain ⟨ranges', hmatched', hperm⟩ : ∃ ranges', List.Forall₂
      (fun edit range => MatchedAt nfkc content edits edit range ∧ Unambiguous nfkc content edit) edits' ranges' ∧
      ranges'.Perm ranges := by
    have hcomp := List.forall₂_comp_perm_eq_perm_comp_forall₂
      (r := fun edit range => MatchedAt nfkc content edits edit range ∧ Unambiguous nfkc content edit)
    have hex : Relation.Comp List.Perm (List.Forall₂
        (fun edit range => MatchedAt nfkc content edits edit range ∧ Unambiguous nfkc content edit)) edits' ranges :=
      ⟨edits, h.symm, hmatched⟩
    rw [← hcomp] at hex
    exact hex
  have hreplaced : replaced nfkc content edits' ranges' = replaced nfkc content edits ranges := by
    rw [replaced_perm nfkc content edits ranges ranges' hperm.symm haccepts.apart hpos]
    unfold replaced
    rw [hused]
  refine ⟨ranges', ⟨hmatched'.imp (fun edit range hboth => ⟨hsame edit range hboth.1, hboth.2⟩),
    hperm.symm.pairwise haccepts.apart Splice.Apart.symm, ?_, ?_⟩, hreplaced⟩
  · unfold SameLines
    rw [← hused]
    exact haccepts.sameLines
  · rw [hreplaced]
    exact haccepts.differs

theorem apply_perm (h : edits.Perm edits')
    (hnormal : ∀ edit ∈ edits, normalizeForFuzzyMatch nfkc (normalizeToLF edit.oldText) ≠ [])
    (result : AppliedEditsResult) :
    applyEditsToNormalizedContent nfkc content edits = .ok result →
      applyEditsToNormalizedContent nfkc content edits' = .ok result := by
  intro hok
  have hnormal' : ∀ edit ∈ edits', normalizeForFuzzyMatch nfkc (normalizeToLF edit.oldText) ≠ [] :=
    fun edit hmem => hnormal edit (h.mem_iff.mpr hmem)
  obtain ⟨ranges, haccepts, rfl⟩ := (apply_ok_iff nfkc content edits hnormal result).mp hok
  obtain ⟨ranges', haccepts', hsame⟩ := accepts_perm nfkc content _ _ (h.map normalizeEdit) ranges haccepts
  exact (apply_ok_iff nfkc content edits' hnormal' _).mpr ⟨ranges', haccepts', by rw [hsame]⟩

/-! ## The whole call -/

/-- Where an edit lands: at a place of its old text in the base or, where some edit needs a fuzzy match and the old text is
nowhere, of its normalized form. -/
structure LandsAt (content : JsString) (edits : List Edit) (edit : Edit) (matched : JsString) (range : Splice UInt16) :
    Prop where
  text : range.text = edit.newText
  pos : 0 < range.length
  source : matched = edit.oldText ∨
    usedFuzzyMatch nfkc content edits = true ∧
      (∀ i, ¬ OccursAt edit.oldText (replacementBaseContent nfkc content edits) i) ∧
      matched = normalizeForFuzzyMatch nfkc edit.oldText
  place : OccursAt matched (replacementBaseContent nfkc content edits) range.start
  length : range.length = matched.length

/-- No two places of the normalized old text in the normalized content; and the one of the matched text in the base is the
only one where both are normalized. -/
structure Unique (content : JsString) (edits : List Edit) (edit : Edit) (matched : JsString) (range : Splice UInt16) :
    Prop where
  normalized : ∀ i j, OccursAt (normalizeForFuzzyMatch nfkc edit.oldText) (normalizeForFuzzyMatch nfkc content) i →
    OccursAt (normalizeForFuzzyMatch nfkc edit.oldText) (normalizeForFuzzyMatch nfkc content) j → i = j
  only : normalizeForFuzzyMatch nfkc matched = matched →
    normalizeForFuzzyMatch nfkc (replacementBaseContent nfkc content edits) = replacementBaseContent nfkc content edits →
    ∀ i, OccursAt matched (replacementBaseContent nfkc content edits) i ↔ i = range.start

/-- The matched text has one place in the base, and the normalized one in the normalized content. -/
structure OnePlace (content : JsString) (edits : List Edit) (edit : Edit) (range : Splice UInt16) : Prop where
  base : ∃ matched, LandsAt nfkc content edits edit matched range ∧
    ∀ i, OccursAt matched (replacementBaseContent nfkc content edits) i ↔ i = range.start
  normalized : ∃ i, ∀ j, OccursAt (normalizeForFuzzyMatch nfkc edit.oldText) (normalizeForFuzzyMatch nfkc content) j ↔ j = i

section Places

variable {nfkc : Nfkc} {content : JsString} {edits : List Edit} {edit : Edit} {range : Splice UInt16}

theorem MatchedAt.landsAt (h : MatchedAt nfkc content edits edit range) :
    ∃ matched, LandsAt nfkc content edits edit matched range := by
  rcases h.found with ⟨hat, hlength⟩ | ⟨hused, hnone, hat, hlength⟩
  · exact ⟨_, h.text, h.pos, .inl rfl, ((firstIndex_eq_some _ _ _).mp hat).1, hlength⟩
  · exact ⟨_, h.text, h.pos, .inr ⟨hused, (firstIndex_eq_none _ _).mp hnone, rfl⟩,
      ((firstIndex_eq_some _ _ _).mp hat).1, hlength⟩

/-- The only place is the first. -/
theorem OnePlace.matchedAt (h : OnePlace nfkc content edits edit range) : MatchedAt nfkc content edits edit range := by
  obtain ⟨matched, hlands, honly⟩ := h.base
  have hfirst : firstIndex matched (replacementBaseContent nfkc content edits) = some range.start := by
    refine (firstIndex_eq_some _ _ _).mpr ⟨hlands.place, fun j hj hat => ?_⟩
    have := (honly j).mp hat
    omega
  refine ⟨hlands.text, hlands.pos, ?_⟩
  rcases hlands.source with rfl | ⟨hused, hnone, rfl⟩
  · exact .inl ⟨hfirst, hlands.length⟩
  · exact .inr ⟨hused, (firstIndex_eq_none _ _).mpr hnone, hfirst, hlands.length⟩

theorem OnePlace.unambiguous (h : OnePlace nfkc content edits edit range)
    (hnormal : normalizeForFuzzyMatch nfkc edit.oldText ≠ []) : Unambiguous nfkc content edit := by
  obtain ⟨k, hk⟩ := h.normalized
  intro i j hi hj
  have hlength := length_pos_iff.mpr hnormal
  have h1 := (hk i).mp hi
  have h2 := (hk j).mp hj
  omega

/-- A text that does not overlap itself and has no two places apart has no two places. -/
theorem LandsAt.unique {matched : JsString} (h : LandsAt nfkc content edits edit matched range)
    (hunambiguous : Unambiguous nfkc content edit) (hself : ¬ Overlaps (normalizeForFuzzyMatch nfkc edit.oldText)) :
    Unique nfkc content edits edit matched range := by
  have hone : ∀ i j, OccursAt (normalizeForFuzzyMatch nfkc edit.oldText) (normalizeForFuzzyMatch nfkc content) i →
      OccursAt (normalizeForFuzzyMatch nfkc edit.oldText) (normalizeForFuzzyMatch nfkc content) j → i = j :=
    fun i j hi hj => OccursAt.eq_of_near hself hi hj (hunambiguous j i hj hi) (hunambiguous i j hi hj)
  refine ⟨hone, fun hmatched hbase i => ⟨fun hat => ?_, ?_⟩⟩
  · -- the matched text is the normalized one, and the base is the normalized content
    have hnormalized : normalizeForFuzzyMatch nfkc edit.oldText = matched := by
      rcases h.source with rfl | ⟨-, -, rfl⟩
      · exact hmatched
      · rfl
    rw [hnormalized, ← normalize_base nfkc content edits, hbase] at hone
    exact hone i range.start hat h.place
  · rintro rfl
    exact h.place

end Places

/-- What a call returns is the replacement of the places of its edits all at once; the order of the edits does not matter;
and edits with one place each that keep apart are accepted. -/
theorem applyEdits_exact (content : JsString) (edits : List Edit)
    (hnormal : ∀ edit ∈ edits, normalizeForFuzzyMatch nfkc (normalizeToLF edit.oldText) ≠ []) :
    (∀ result, applyEditsToNormalizedContent nfkc content edits = .ok result → ∃ ranges : List (Splice UInt16),
        List.Forall₂ (fun edit range => ∃ matched, LandsAt nfkc content (edits.map normalizeEdit) edit matched range ∧
          (¬ Overlaps (normalizeForFuzzyMatch nfkc edit.oldText) →
            Unique nfkc content (edits.map normalizeEdit) edit matched range)) (edits.map normalizeEdit) ranges ∧
        ranges.Pairwise Splice.Apart ∧
        result = ⟨content, replaced nfkc content (edits.map normalizeEdit) ranges⟩) ∧
    (∀ edits', edits.Perm edits' → ∀ result, applyEditsToNormalizedContent nfkc content edits = .ok result ↔
      applyEditsToNormalizedContent nfkc content edits' = .ok result) ∧
    (∀ ranges : List (Splice UInt16),
      List.Forall₂ (OnePlace nfkc content (edits.map normalizeEdit)) (edits.map normalizeEdit) ranges →
      ranges.Pairwise Splice.Apart → SameLines nfkc content (edits.map normalizeEdit) →
      replaced nfkc content (edits.map normalizeEdit) ranges ≠ content →
      applyEditsToNormalizedContent nfkc content edits =
        .ok ⟨content, replaced nfkc content (edits.map normalizeEdit) ranges⟩) := by
  refine ⟨?_, ?_, ?_⟩
  · intro result h
    obtain ⟨ranges, haccepts, hresult⟩ := (apply_ok_iff nfkc content edits hnormal result).mp h
    refine ⟨ranges, haccepts.matched.imp (fun edit range hboth => ?_), haccepts.apart, hresult⟩
    obtain ⟨matched, hlands⟩ := hboth.1.landsAt
    exact ⟨matched, hlands, hlands.unique hboth.2⟩
  · intro edits' hperm result
    exact ⟨apply_perm nfkc content edits edits' hperm hnormal result, apply_perm nfkc content edits' edits hperm.symm
      (fun edit hmem => hnormal edit (hperm.mem_iff.mpr hmem)) result⟩
  · intro ranges hone hapart hlines hdiffers
    refine (apply_ok_iff nfkc content edits hnormal _).mpr ⟨ranges, ⟨?_, hapart, hlines, hdiffers⟩, rfl⟩
    refine forall₂_mem_left _ _ hone (fun edit hmem range hat => ⟨hat.matchedAt, hat.unambiguous ?_⟩)
    obtain ⟨given, hgiven, rfl⟩ := mem_map.mp hmem
    exact hnormal given hgiven

/-! ## Samples -/

/-- A blank ends the first two lines, and quotes in the second are curly. -/
def sampleContent : JsString := js "a \nsay " ++ [0x2018] ++ js "hi" ++ [0x2019] ++ js " \nfoo\n"

def sampleEdits : List Edit := [⟨js "foo", js "bar"⟩, ⟨js "say 'hi'", js "bye"⟩]

def sampleRanges : List (Splice UInt16) := [⟨11, 3, js "bar"⟩, ⟨2, 8, js "bye"⟩]

theorem sample_onePlace : List.Forall₂ (OnePlace Nfkc.plain sampleContent (sampleEdits.map normalizeEdit))
    (sampleEdits.map normalizeEdit) sampleRanges := by
  refine .cons ⟨⟨js "foo", ⟨rfl, by decide, .inl rfl, by decide +kernel, rfl⟩, ?_⟩, 11, ?_⟩
    (.cons ⟨⟨js "say 'hi'", ⟨rfl, by decide, .inl rfl, by decide +kernel, rfl⟩, ?_⟩, 2, ?_⟩ .nil)
  · exact occursAt_iff_of_le (by decide +kernel) (by decide +kernel)
  · exact occursAt_iff_of_le (by decide +kernel) (by decide +kernel)
  · exact occursAt_iff_of_le (by decide +kernel) (by decide +kernel)
  · exact occursAt_iff_of_le (by decide +kernel) (by decide +kernel)

/-- One edit is found as it is and one by a fuzzy match: the first line, which none touches, keeps its blank. -/
theorem applyEdits_exact_quotes :
    usedFuzzyMatch Nfkc.plain sampleContent (sampleEdits.map normalizeEdit) = true ∧
    applyEditsToNormalizedContent Nfkc.plain sampleContent sampleEdits = .ok ⟨sampleContent, js "a \nbye\nbar\n"⟩ ∧
    applyEditsToNormalizedContent Nfkc.plain sampleContent sampleEdits.reverse =
      .ok ⟨sampleContent, js "a \nbye\nbar\n"⟩ ∧
    ∃ ranges : List (Splice UInt16),
      List.Forall₂ (fun edit range => ∃ matched,
        LandsAt Nfkc.plain sampleContent (sampleEdits.map normalizeEdit) edit matched range ∧
        Unique Nfkc.plain sampleContent (sampleEdits.map normalizeEdit) edit matched range)
        (sampleEdits.map normalizeEdit) ranges ∧
      ranges.Pairwise Splice.Apart := by
  have hnormal : ∀ edit ∈ sampleEdits, normalizeForFuzzyMatch Nfkc.plain (normalizeToLF edit.oldText) ≠ [] := by
    decide +kernel
  obtain ⟨hreturned, horder, haccepted⟩ := applyEdits_exact Nfkc.plain sampleContent sampleEdits hnormal
  have hreplaced : replaced Nfkc.plain sampleContent (sampleEdits.map normalizeEdit) sampleRanges =
      js "a \nbye\nbar\n" := by decide +kernel
  have hok := haccepted sampleRanges sample_onePlace (pairwise_pair.mpr (.inr (by decide)))
    (by unfold SameLines; decide +kernel) (by decide +kernel)
  rw [hreplaced] at hok
  obtain ⟨ranges, hall, hapart, -⟩ := hreturned _ hok
  refine ⟨by decide +kernel, hok, (horder _ (reverse_perm _).symm _).mp hok, ranges, ?_, hapart⟩
  refine forall₂_mem_left _ _ hall (fun edit hmem range hlands => ?_)
  obtain ⟨matched, hat, hunique⟩ := hlands
  have hself : ∀ edit ∈ sampleEdits.map normalizeEdit,
      ¬ Overlaps (normalizeForFuzzyMatch Nfkc.plain edit.oldText) := by
    decide +kernel
  exact ⟨matched, hat, hunique (hself edit hmem)⟩

/-- A straight quote that stands once in the text is refused where a curly one becomes straight too; so is a fuzzy match in
a text whose last line is blank and not terminated. -/
theorem quote_refused : (∃ i, ∀ j, OccursAt ([39] : JsString) [39, 10, 0x2019] j ↔ j = i) ∧
    applyEditsToNormalizedContent Nfkc.plain [39, 10, 0x2019] [⟨[39], [97]⟩] = .error (.duplicate 0 1 2) ∧
    applyEditsToNormalizedContent Nfkc.plain [0x2019, 10, 32] [⟨[39], [97]⟩] = .error .lineCount :=
  ⟨⟨0, occursAt_iff_of_le (by decide) (by decide)⟩, by decide, by decide⟩

end PiAgent.Tools
