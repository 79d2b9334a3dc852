import PiAgent.Tools.EditDiffLines

/-! # What edits are matched -/

namespace PiAgent.Tools

open List Durable
open Ai (isWhitespace)

/-! ## Cleaning again -/

variable (text : JsString) (line : JsString)

theorem newline_notMem_splitOn (h : line ∈ text.splitOn newline) : newline ∉ line := by
  induction text generalizing line with
  | nil =>
    rw [splitOn_nil, mem_singleton] at h
    rw [h]
    simp
  | cons c text ih =>
    rw [splitOn_cons_eq_if_modifyHead] at h
    split at h
    · rcases mem_cons.mp h with rfl | h
      · simp
      · exact ih line h
    · rename_i hc
      obtain ⟨first, lines, hsplit⟩ := exists_cons_of_ne_nil (splitOn_ne_nil newline text)
      rw [hsplit, modifyHead_cons] at h
      rw [hsplit] at ih
      rcases mem_cons.mp h with rfl | h
      · rw [mem_cons, not_or]
        refine ⟨?_, ih first mem_cons_self⟩
        rintro rfl
        simp at hc
      · exact ih line (mem_cons_of_mem _ h)

theorem splitOn_map (f : UInt16 → UInt16) (hf : ∀ c, f c = newline ↔ c = newline) (text : JsString) :
    (text.map f).splitOn newline = (text.splitOn newline).map (List.map f) := by
  induction text with
  | nil => rfl
  | cons c text ih =>
    rw [map_cons, splitOn_cons_eq_if_modifyHead, splitOn_cons_eq_if_modifyHead, ih]
    have hc : (f c == newline) = (c == newline) := by
      rw [Bool.eq_iff_iff, beq_iff_eq, beq_iff_eq]
      exact hf c
    rw [hc]
    split
    · rfl
    · obtain ⟨first, lines, hsplit⟩ := exists_cons_of_ne_nil (splitOn_ne_nil newline text)
      rw [hsplit]
      rfl

theorem joinLines_map (f : UInt16 → UInt16) (hf : f newline = newline) (lines : List JsString) :
    (joinLines lines).map f = joinLines (lines.map (List.map f)) := by
  unfold joinLines
  induction lines with
  | nil => rfl
  | cons line lines ih =>
    cases lines with
    | nil => simp
    | cons next rest =>
      rw [map_cons, map_cons, intercalate_cons_cons, intercalate_cons_cons, map_append,
        map_append, ih, map_singleton, hf, map_cons]

theorem trimEnd_start : trimEnd line <+: line := by
  unfold trimEnd
  rw [← reverse_suffix, reverse_reverse]
  exact dropWhile_suffix _

theorem trimEnd_of_last (h : ∀ c, line.getLast? = some c → isWhitespace c = false) : trimEnd line = line := by
  unfold trimEnd
  rcases line.eq_nil_or_concat' with rfl | ⟨init, c, rfl⟩
  · rfl
  · rw [reverse_append, reverse_singleton, singleton_append, dropWhile_cons_of_neg]
    · simp
    · rw [h c (getLast?_concat)]
      exact Bool.false_ne_true

variable (c : UInt16)

theorem trimEnd_last (h : (trimEnd line).getLast? = some c) : isWhitespace c = false := by
  unfold trimEnd at h
  rw [getLast?_reverse] at h
  have hhead := head?_dropWhile_not isWhitespace line.reverse
  rw [h] at hhead
  simpa using hhead

theorem asciiUnit_newline : asciiUnit c = newline ↔ c = newline := by
  unfold asciiUnit
  split_ifs with h1 h2 h3 h4
  · exact iff_of_false (by decide) (by rintro rfl; revert h1; decide)
  · exact iff_of_false (by decide) (by rintro rfl; revert h2; decide)
  · exact iff_of_false (by decide) (by rintro rfl; revert h3; decide)
  · exact iff_of_false (by decide) (by rintro rfl; revert h4; decide)
  · exact Iff.rfl

theorem asciiUnit_or : asciiUnit c = c ∨ asciiUnit c ∈ [39, 34, 45, 32] := by
  unfold asciiUnit
  split_ifs <;> simp

theorem asciiUnit_again : asciiUnit (asciiUnit c) = asciiUnit c := by
  rcases asciiUnit_or c with h | h
  · rw [h, h]
  · have hkept : ∀ d ∈ ([39, 34, 45, 32] : JsString), asciiUnit d = d := by
      intro d hd
      simp only [mem_cons, not_mem_nil, or_false] at hd
      rcases hd with rfl | rfl | rfl | rfl <;> rfl
    exact hkept _ h

theorem asciiUnit_whitespace (h : isWhitespace c = false) : isWhitespace (asciiUnit c) = false := by
  unfold asciiUnit
  split_ifs with h1 h2 h3 h4
  · decide
  · decide
  · decide
  · exfalso
    unfold isWhitespace at h
    simp only [Bool.or_eq_false_iff] at h
    obtain ⟨⟨-, hrange⟩, hmem⟩ := h
    rcases h4 with h4 | h4
    · simp only [mem_cons, not_mem_nil, or_false] at h4
      rcases h4 with rfl | rfl | rfl | rfl <;> simp at hmem
    · simp only [Bool.and_eq_false_iff, decide_eq_false_iff_not] at hrange
      rcases hrange with hrange | hrange
      · refine hrange (UInt16.le_trans ?_ h4.1)
        decide
      · exact hrange h4.2
  · exact h

theorem clean_clean : clean (clean text) = clean text := by
  have hsplit : (clean text).splitOn newline = ((text.splitOn newline).map trimEnd).map (List.map asciiUnit) := by
    unfold clean
    rw [splitOn_map asciiUnit asciiUnit_newline]
    congr 1
    refine splitOn_intercalate newline (fun line hmem => ?_) (by simp [splitOn_ne_nil])
    obtain ⟨whole, hwhole, rfl⟩ := mem_map.mp hmem
    exact fun hin => newline_notMem_splitOn text whole hwhole ((trimEnd_start whole).subset hin)
  have htrim : (((text.splitOn newline).map trimEnd).map (List.map asciiUnit)).map trimEnd =
      ((text.splitOn newline).map trimEnd).map (List.map asciiUnit) := by
    rw [map_map, map_map, map_map]
    refine map_congr_left (fun line _ => trimEnd_of_last _ (fun c hlast => ?_))
    rw [getLast?_map, Option.map_eq_some_iff] at hlast
    obtain ⟨d, hd, rfl⟩ := hlast
    exact asciiUnit_whitespace d (trimEnd_last line d hd)
  have hunfold : clean (clean text) = (joinLines (((clean text).splitOn newline).map trimEnd)).map asciiUnit := rfl
  rw [hunfold, hsplit, htrim, ← joinLines_map asciiUnit ((asciiUnit_newline newline).mpr rfl), map_map]
  unfold clean
  congr 1
  funext c
  exact asciiUnit_again c

def Nfkc.plain : Nfkc := ⟨id, fun _ => rfl⟩

variable (nfkc : Nfkc)

theorem normalizeForFuzzyMatch_again :
    normalizeForFuzzyMatch nfkc (normalizeForFuzzyMatch nfkc text) = normalizeForFuzzyMatch nfkc text := by
  unfold normalizeForFuzzyMatch
  rw [nfkc.clean, clean_clean]

end PiAgent.Tools
