import PiAgent.Tools.OutputAccumulatorProofs

/-! # When a snapshot shows the tail of the output -/

namespace PiAgent.Tools.OutputAccumulator

open List Durable Env Utf8

def Shows (acc : OutputAccumulator) (text : JsString) : Prop :=
  let whole := truncateTail text acc.maxLines acc.maxBytes
  acc.truncation.content = whole.content ∧ acc.truncation.truncated = whole.truncated ∧
    acc.truncation.totalLines = whole.totalLines ∧ acc.truncation.totalBytes = whole.totalBytes

/-- The kept text begins inside a line, and what comes after that line is nothing, or fits and ends with a newline. -/
def ShortRest (acc : OutputAccumulator) : Prop :=
  acc.tailStartsAtLineBoundary = false ∧ newline ∈ acc.tailText ∧ Fits acc.maxLines acc.maxBytes acc.getSnapshotText ∧
    (acc.getSnapshotText = [] ∨ endsWithNewline acc.getSnapshotText = true)

variable (text : JsString)

theorem firstNewline_cases : (newline ∉ text ∧ text.idxOf? newline = none) ∨
    ∃ first rest, text = first ++ newline :: rest ∧ newline ∉ first ∧ text.idxOf? newline = some first.length := by
  rcases hindex : text.idxOf? newline with _ | index
  · exact .inl ⟨idxOf?_eq_none_iff.mp hindex, rfl⟩
  · obtain ⟨hlt, hget, hbefore⟩ := idxOf?_eq_some_iff.mp hindex
    refine .inr ⟨text.take index, text.drop (index + 1), ?_, ?_, ?_⟩
    · have heq : text[index] = newline := by simpa using hget
      rw [← heq, getElem_cons_drop, List.take_append_drop]
    · intro hmem
      obtain ⟨j, hj, heq⟩ := getElem_of_mem hmem
      rw [length_take] at hj
      rw [getElem_take] at heq
      have := hbefore j (by omega)
      simp [heq] at this
    · rw [length_take, Nat.min_eq_left (by omega)]

theorem Tracks.totals {acc : OutputAccumulator} {text : List Char} (h : Tracks acc text) :
    acc.truncation.truncated = (truncateTail (textOf text) acc.maxLines acc.maxBytes).truncated ∧
      acc.truncation.totalLines = (truncateTail (textOf text) acc.maxLines acc.maxBytes).totalLines ∧
      acc.truncation.totalBytes = (truncateTail (textOf text) acc.maxLines acc.maxBytes).totalBytes := by
  have hlines : acc.totalLines = (splitLinesForCounting (textOf text)).length := by
    rw [h.totalLines, h.completedLines, h.hasOpenLine, length_lines, count_textOf]
    congr 1
    by_cases hends : textOf text = [] ∨ endsWithNewline (textOf text) = true
    · rw [if_pos hends]
      rcases hends with hends | hends <;> simp [hends]
    · rw [if_neg hends, if_pos]
      rw [not_or] at hends
      simpa using hends
  have hbytes : acc.totalDecodedBytes = utf8ByteLength (textOf text) := h.totalDecodedBytes.trans (utf8ByteLength_textOf text).symm
  unfold truncation truncateTail
  dsimp only
  rw [hlines, hbytes]
  split
  · rename_i hfits
    refine ⟨?_, rfl, rfl⟩
    dsimp only
    rw [Bool.or_eq_false_iff]
    simpa using hfits
  · rename_i hno
    refine ⟨?_, rfl, rfl⟩
    dsimp only
    rw [Bool.or_eq_true]
    simp only [decide_eq_true_eq]
    omega

theorem content_lines (maxLines maxBytes : ℕ) (before content : JsString) (init : List JsString) (line : JsString)
    (hbefore : endsWithNewline before = true) (hlines : splitLinesForCounting before = init ++ [line]) (hne : content ≠ [])
    (hlong : maxBytes < utf8ByteLength line + (1 + utf8ByteLength (joinLines (splitLinesForCounting content))))
    (hwhole : ¬ Fits maxLines maxBytes (before ++ content)) :
    (truncateTail content maxLines maxBytes).content = (truncateTail (before ++ content) maxLines maxBytes).content ↔
      ¬ (Fits maxLines maxBytes content ∧ endsWithNewline content = true) := by
  rw [truncateTail_long _ _ _ hwhole, tailLines_append maxLines maxBytes before content init line hbefore hlines hne hlong]
  by_cases hfits : Fits maxLines maxBytes content
  · rw [truncateTail_fits _ _ _ hfits, tailLines_fits _ _ _ hfits, eq_comm, joinLines_eq_iff]
    simp [hfits]
  · rw [truncateTail_long _ _ _ hfits]
    simp [hfits]

theorem lastLine_ne_nil (init : List JsString) (last : JsString) (hne : text ≠ [])
    (hends : endsWithNewline text = false) (h : text.splitOn newline = init ++ [last]) : last ≠ [] := by
  obtain ⟨body, c, rfl⟩ := text.eq_nil_or_concat'.resolve_left hne
  obtain ⟨init', last', first, more, -, hc, hsplit⟩ := splitOn_append body [c]
  have hno : c ≠ newline := by
    rintro rfl
    simp [endsWithNewline] at hends
  have hone : [c].splitOn newline = [[c]] := by
    rw [splitOn_eq_splitOnP, splitOnP_eq_singleton (by simpa using hno)]
  rw [hone] at hc
  obtain ⟨rfl, rfl⟩ := List.cons.inj hc
  rw [hsplit] at h
  obtain ⟨-, hlast⟩ := append_inj' h rfl
  rw [← (List.cons.inj hlast).1]
  simp

theorem utf8ByteLength_pos (h : text ≠ []) : 0 < utf8ByteLength text := by
  rw [← size_scalars]
  refine size_pos _ ?_
  cases text with
  | nil => exact absurd rfl h
  | cons c rest =>
    cases rest with
    | nil => simp [scalars]
    | cons next rest =>
      unfold scalars
      split <;> simp

theorem utf8ByteLength_parts (last first : JsString) (tail : List Char) (h : first <+: textOf tail) :
    utf8ByteLength (last ++ first) = utf8ByteLength last + utf8ByteLength first := by
  have happend := utf8ByteLength_append last first
  rw [splitsPair_textOf last first tail h, if_neg Bool.false_ne_true] at happend
  exact happend

theorem splitOn_last (a b : JsString) (h : newline ∉ b) : ∃ init last, a.splitOn newline = init ++ [last] ∧
    (a ++ b).splitOn newline = init ++ [last ++ b] := by
  obtain ⟨init, last, first, more, ha, hb, hsplit⟩ := splitOn_append a b
  have hone : b.splitOn newline = [b] := by
    rw [splitOn_eq_splitOnP, splitOnP_eq_singleton]
    intro c hmem
    rw [beq_eq_false_iff_ne]
    rintro rfl
    exact h hmem
  rw [hone] at hb
  obtain ⟨rfl, rfl⟩ := List.cons.inj hb
  exact ⟨init, last, ha, hsplit⟩

section Window

variable {acc : OutputAccumulator} {text before tail : List Char} (htext : text = before ++ tail)
  (htail : acc.tailText = textOf tail) (hne : before ≠ []) (hlong : acc.maxBytes < utf8ByteLength (textOf tail))

include htext hlong in
theorem long_text : ¬ Fits acc.maxLines acc.maxBytes (textOf text) := by
  rintro ⟨-, hbytes⟩
  rw [utf8ByteLength_textOf, htext, size_append] at hbytes
  rw [utf8ByteLength_textOf] at hlong
  omega

include htext htail hne hlong in
theorem content_wholeLines (hstarts : acc.tailStartsAtLineBoundary = true)
    (hends : acc.tailStartsAtLineBoundary = endsWithNewline (textOf before)) :
    acc.truncation.content = (truncateTail (textOf text) acc.maxLines acc.maxBytes).content := by
  have hsnapshot : acc.getSnapshotText = textOf tail := by
    unfold getSnapshotText
    rw [if_pos hstarts, htail]
  obtain ⟨init, line, hlines⟩ := (splitLinesForCounting (textOf before)).eq_nil_or_concat'.resolve_left
    (splitLines_ne_nil _ (by rwa [Ne, textOf_eq_nil]))
  have hjoin := joinLines_lines (textOf tail)
  have hsome : textOf tail ≠ [] := by
    rintro hnil
    rw [hnil] at hlong
    cases hlong
  have hwhole := long_text htext hlong
  rw [htext, textOf_append] at hwhole ⊢
  show (truncateTail acc.getSnapshotText acc.maxLines acc.maxBytes).content = _
  rw [hsnapshot]
  refine (content_lines acc.maxLines acc.maxBytes _ _ init line (hends.symm.trans hstarts) hlines hsome ?_ hwhole).mpr ?_
  · split at hjoin <;> omega
  · rintro ⟨⟨-, hbytes⟩, -⟩
    omega

include htext htail hlong in
theorem content_oneLine (hmax : 1 ≤ acc.maxLines) (hstarts : acc.tailStartsAtLineBoundary = false)
    (hno : newline ∉ acc.tailText) (hindex : acc.tailText.idxOf? newline = none) :
    acc.truncation.content = (truncateTail (textOf text) acc.maxLines acc.maxBytes).content := by
  have hsnapshot : acc.getSnapshotText = textOf tail := by
    unfold getSnapshotText
    rw [hstarts, if_neg Bool.false_ne_true, hindex, htail]
  rw [htail] at hno
  have hsome : textOf tail ≠ [] := by
    rintro hnil
    rw [hnil] at hlong
    cases hlong
  have hunended : ∀ a : JsString, endsWithNewline (a ++ textOf tail) = false := by
    intro a
    rw [endsWithNewline_append _ _ hsome, Bool.eq_false_iff]
    exact fun hlast => hno (mem_of_getLast? (of_decide_eq_true hlast))
  have hsplit : ∀ a : JsString, splitLinesForCounting (a ++ textOf tail) = (a ++ textOf tail).splitOn newline := by
    intro a
    unfold splitLinesForCounting
    rw [isEmpty_eq_false_iff.mpr (by simp [hsome]), if_neg Bool.false_ne_true]
    dsimp only
    rw [hunended, if_neg Bool.false_ne_true]
  obtain ⟨init, last, -, hlines⟩ := splitOn_last (textOf before) (textOf tail) hno
  obtain ⟨init', last', hnil, hlines'⟩ := splitOn_last [] (textOf tail) hno
  rw [splitOn_nil] at hnil
  obtain ⟨rfl, hlast'⟩ := append_inj' (show [] ++ [[]] = init' ++ [last'] from hnil) rfl
  rw [← (List.cons.inj hlast').1] at hlines'
  have hbytes := utf8ByteLength_parts last (textOf tail) tail (prefix_refl _)
  have hwhole := long_text htext hlong
  have hpart : ¬ Fits acc.maxLines acc.maxBytes (textOf tail) := fun hfits => absurd hfits.2 (by omega)
  show (truncateTail acc.getSnapshotText acc.maxLines acc.maxBytes).content = _
  rw [hsnapshot, truncateTail_long _ _ _ hwhole, truncateTail_long _ _ _ hpart, htext, textOf_append,
    tailLines_long _ _ _ init _ ((hsplit _).trans hlines) hmax (by omega),
    tailLines_long _ _ (textOf tail) [] _ ((hsplit []).trans hlines') hmax (by rwa [nil_append]),
    truncateString_append _ last _ hlong, nil_append]

include htext htail hne in
theorem content_rest (hmin : 4 ≤ acc.maxBytes) (hmax : 1 ≤ acc.maxLines)
    (hsize : 2 * acc.maxBytes ≤ utf8ByteLength (textOf tail) + 3) (hstarts : acc.tailStartsAtLineBoundary = false)
    (hends : acc.tailStartsAtLineBoundary = endsWithNewline (textOf before)) (first rest : JsString)
    (hparts : textOf tail = first ++ newline :: rest) (hno : newline ∉ first)
    (hindex : acc.tailText.idxOf? newline = some first.length) :
    acc.truncation.content = (truncateTail (textOf text) acc.maxLines acc.maxBytes).content ↔
      ¬ (Fits acc.maxLines acc.maxBytes rest ∧ (rest = [] ∨ endsWithNewline rest = true)) := by
  have hsnapshot : acc.getSnapshotText = rest := by
    unfold getSnapshotText
    rw [hstarts, if_neg Bool.false_ne_true, hindex, htail, hparts]
    simp
  have hwhole := long_text htext (show acc.maxBytes < utf8ByteLength (textOf tail) by omega)
  -- the line the kept text begins in
  obtain ⟨init, last, hlast, hlines⟩ := splitOn_last (textOf before) first hno
  have hlastNe := lastLine_ne_nil (textOf before) init last (by rwa [Ne, textOf_eq_nil]) (hends.symm.trans hstarts) hlast
  have hlastPos := utf8ByteLength_pos last hlastNe
  have hline := utf8ByteLength_parts last first tail ⟨newline :: rest, hparts.symm⟩
  have hbytes := utf8ByteLength_line first rest
  have hjoin := joinLines_lines rest
  rw [← hparts] at hbytes
  have hbefore : endsWithNewline (textOf before ++ first ++ [newline]) = true := by simp [endsWithNewline]
  have hbeforeLines : splitLinesForCounting (textOf before ++ first ++ [newline]) = init ++ [last ++ first] := by
    rcases splitLinesForCounting_cases (textOf before ++ first ++ [newline]) with ⟨hnil, -⟩ | ⟨body, heq, hsplit⟩ | ⟨-, hno', -⟩
    · simp at hnil
    · rw [hsplit, ← append_cancel_right heq, hlines]
    · rw [hbefore] at hno'
      cases hno'
  have hall : textOf text = (textOf before ++ first ++ [newline]) ++ rest := by
    rw [htext, textOf_append, hparts]
    simp
  show (truncateTail acc.getSnapshotText acc.maxLines acc.maxBytes).content = _ ↔ _
  rw [hsnapshot]
  rcases Decidable.em (rest = []) with rfl | hrest
  · -- nothing is left to show
    have hfits : Fits acc.maxLines acc.maxBytes [] := ⟨Nat.zero_le _, Nat.zero_le _⟩
    have hrestBytes : utf8ByteLength [] = 0 := rfl
    rw [truncateTail_fits _ _ _ hfits, truncateTail_long _ _ _ hwhole, hall, append_nil,
      tailLines_long _ _ _ init _ hbeforeLines hmax (by omega)]
    have hcut := truncateString_ne_nil acc.maxBytes (last ++ first) hmin (by omega)
    refine iff_of_false (fun heq => hcut ?_) (fun hno => hno ⟨hfits, .inl rfl⟩)
    unfold Durable.joinLines at heq
    rw [intercalate_singleton] at heq
    exact heq.symm
  · rw [hall] at hwhole ⊢
    rw [content_lines _ _ _ rest init _ hbefore hbeforeLines hrest (by split at hjoin <;> omega) hwhole]
    simp [hrest]

end Window

theorem Tracks.content {acc : OutputAccumulator} {text : List Char} (h : Tracks acc text) (hmin : 4 ≤ acc.maxBytes)
    (hmax : 1 ≤ acc.maxLines) :
    acc.truncation.content = (truncateTail (textOf text) acc.maxLines acc.maxBytes).content ↔ ¬ ShortRest acc := by
  obtain ⟨before, tail, htext, htail, -, ⟨rfl, hstarts⟩ | ⟨hne, hends, hsize⟩⟩ := h.tail
  · -- nothing was dropped
    have hsnapshot : acc.getSnapshotText = textOf text := by
      unfold getSnapshotText
      rw [if_pos hstarts, htail, htext]
      rfl
    refine iff_of_true ?_ (fun hshort => ?_)
    · show (truncateTail acc.getSnapshotText acc.maxLines acc.maxBytes).content = _
      rw [hsnapshot]
    · rw [hshort.1] at hstarts
      cases hstarts
  · rw [← utf8ByteLength_textOf] at hsize
    rcases hstarts : acc.tailStartsAtLineBoundary with _ | _
    · rcases firstNewline_cases acc.tailText with ⟨hno, hindex⟩ | ⟨first, rest, hparts, hno, hindex⟩
      · refine iff_of_true (content_oneLine htext htail (by omega) hmax hstarts hno hindex) (fun hshort => hno hshort.2.1)
      · have hsnapshot : acc.getSnapshotText = rest := by
          unfold getSnapshotText
          rw [hstarts, if_neg Bool.false_ne_true, hindex, hparts]
          simp
        rw [content_rest htext htail hne hmin hmax hsize hstarts hends first rest (htail.symm.trans hparts) hno hindex]
        unfold ShortRest
        rw [hsnapshot, hparts]
        simp [hstarts]
    · refine iff_of_true (content_wholeLines htext htail hne (by omega) hstarts hends) (fun hshort => ?_)
      rw [hshort.1] at hstarts
      cases hstarts

/-- In every run, whatever chunks the output comes in: a snapshot shows the content and the counts of the text decoded so
far unless the rest it looks at is short, and the temp file has all the bytes. -/
theorem snapshot_exact (maxLines maxBytes : ℕ) (hbytes : 4 ≤ maxBytes) (hlines : 1 ≤ maxLines) (ops : List Op) :
    let acc := (new maxLines maxBytes).run ops
    (Shows acc (decodedText ops) ∧ ∀ content, acc.tempFile = some content → content = (appended ops).flatten) ↔
      ¬ ShortRest acc := by
  intro acc
  obtain ⟨htracks, hmaxLines, hmaxBytes, -, -, hfile⟩ := reached_run maxLines maxBytes ops
  have hcontent := htracks.content (by rw [hmaxBytes]; exact hbytes) (by rw [hmaxLines]; exact hlines)
  have hwritten : ∀ content, acc.tempFile = some content → content = (appended ops).flatten := by
    intro content hsome
    rw [← hfile, show ((new maxLines maxBytes).run ops).tempFile = some content from hsome]
    rfl
  exact ⟨fun hshows => hcontent.mp hshows.1.1, fun hno => ⟨⟨hcontent.mpr hno, htracks.totals⟩, hwritten⟩⟩

/-- A long line that has not ended yet, in two chunks. -/
theorem snapshot_exact_openLine :
    Shows ((new 10 4).run [.append (List.replicate 12 97), .append (List.replicate 12 98)])
      (decodedText [.append (List.replicate 12 97), .append (List.replicate 12 98)]) := by
  refine ((snapshot_exact 10 4 (by decide) (by decide)
    [.append (List.replicate 12 97), .append (List.replicate 12 98)]).mpr ?_).1
  rintro ⟨-, hmem, -⟩
  revert hmem
  decide +kernel

/-- A long line that has ended: nothing is shown of it. -/
theorem longLine_hidden : ((new 10 4).run [.append (List.replicate 16 97 ++ [10])]).truncation.content = [] ∧
      ¬ Shows ((new 10 4).run [.append (List.replicate 16 97 ++ [10])])
        (decodedText [.append (List.replicate 16 97 ++ [10])]) := by
  refine ⟨by decide +kernel, fun hshows => ?_⟩
  have hcontent := hshows.1
  revert hcontent
  decide +kernel

end PiAgent.Tools.OutputAccumulator
