import PiAgent.Durable.Text

/-!
# Truncation from the head

`truncateHead` and `truncateHeadOf` of `truncate.ts`. A text is cut to whole leading lines
within a number of lines and of bytes.
-/

namespace PiAgent.Durable

open Option List

inductive Limit where
  | lines
  | bytes
  deriving DecidableEq

structure TruncationResult where
  content : JsString
  truncated : Bool
  truncatedBy : Option Limit
  totalLines : ℕ
  totalBytes : ℕ
  outputLines : ℕ
  outputBytes : ℕ
  lastLinePartial : Bool
  firstLineExceedsLimit : Bool
  maxLines : ℕ
  maxBytes : ℕ
  deriving DecidableEq

def collectLines (maxLines maxBytes : ℕ) : List JsString → ℕ → ℕ → List JsString × Bool
  | [], _, _ => ([], false)
  | line :: rest, i, outputBytesCount =>
    if i < maxLines then
      let lineBytes := utf8ByteLength line + (if 0 < i then 1 else 0)
      if outputBytesCount + lineBytes > maxBytes then ([], true)
      else
        let (outputLines, byBytes) := collectLines maxLines maxBytes rest (i + 1) (outputBytesCount + lineBytes)
        (line :: outputLines, byBytes)
    else ([], false)

def truncateHeadOf (maxLines maxBytes : ℕ) (content : JsString) (totalLines totalBytes : ℕ) : Option TruncationResult :=
  let lines := splitLinesForCounting content
  if totalLines ≤ maxLines ∧ totalBytes ≤ maxBytes then
    some { content := content, truncated := false, truncatedBy := none, totalLines := totalLines, totalBytes := totalBytes
           outputLines := totalLines, outputBytes := totalBytes, lastLinePartial := false, firstLineExceedsLimit := false
           maxLines := maxLines, maxBytes := maxBytes }
  else
    match lines.head? with
    | none => none
    | some firstLine =>
      if utf8ByteLength firstLine > maxBytes then
        some { content := [], truncated := true, truncatedBy := some .bytes, totalLines := totalLines
               totalBytes := totalBytes, outputLines := 0, outputBytes := 0, lastLinePartial := false
               firstLineExceedsLimit := true, maxLines := maxLines, maxBytes := maxBytes }
      else
        let (outputLines, byBytes) := collectLines maxLines maxBytes lines 0 0
        let outputContent := joinLines outputLines
        some { content := outputContent, truncated := true
               truncatedBy := some (if byBytes then .bytes else if outputLines.length < totalLines then .lines else .bytes)
               totalLines := totalLines, totalBytes := totalBytes, outputLines := outputLines.length
               outputBytes := utf8ByteLength outputContent, lastLinePartial := false, firstLineExceedsLimit := false
               maxLines := maxLines, maxBytes := maxBytes }

def truncateHead (maxLines maxBytes : ℕ) (content : JsString) : Option TruncationResult :=
  truncateHeadOf maxLines maxBytes content (splitLinesForCounting content).length (utf8ByteLength content)

/-! ## The collected lines -/

variable (maxLines maxBytes : ℕ)

variable (lines : List JsString) (i count : ℕ)

theorem collectLines_spec (hcount : count ≤ maxBytes) :
    ∃ k ≤ lines.length, (collectLines maxLines maxBytes lines i count).1 = lines.take k ∧
      count + linesBytes i (lines.take k) ≤ maxBytes ∧ (k = 0 ∨ i + k ≤ maxLines) ∧
      ((collectLines maxLines maxBytes lines i count).2 = true → k < lines.length ∧ i + k < maxLines ∧
        maxBytes < count + linesBytes i (lines.take (k + 1))) ∧
      ((collectLines maxLines maxBytes lines i count).2 = false → k = lines.length ∨ maxLines ≤ i + k) := by
  induction lines generalizing i count with
  | nil => exact ⟨0, le_refl _, rfl, by simpa [linesBytes] using hcount, Or.inl rfl, (fun h => by cases h), fun _ => Or.inl rfl⟩
  | cons line rest ih =>
    unfold collectLines
    by_cases hi : i < maxLines
    · rw [if_pos hi]
      simp only
      by_cases hbytes : count + (utf8ByteLength line + if 0 < i then 1 else 0) > maxBytes
      · rw [if_pos hbytes]
        refine ⟨0, Nat.zero_le _, rfl, by simpa [linesBytes] using hcount, Or.inl rfl, ?_, (fun h => by cases h)⟩
        intro _
        refine ⟨Nat.succ_pos _, hi, ?_⟩
        simpa [linesBytes] using hbytes
      · rw [if_neg hbytes]
        obtain ⟨k, hk, hout, hfits, hlines, hby, hnot⟩ := ih (i + 1) _ (not_lt.mp hbytes)
        refine ⟨k + 1, Nat.succ_le_succ hk, ?_, ?_, Or.inr ?_, ?_, ?_⟩
        · simp only [hout, take_succ_cons]
        · rw [take_succ_cons]
          unfold linesBytes
          omega
        · omega
        · intro h
          obtain ⟨hlt, hmax, hover⟩ := hby h
          refine ⟨Nat.succ_lt_succ hlt, by omega, ?_⟩
          rw [take_succ_cons]
          unfold linesBytes
          omega
        · intro h
          rcases hnot h with rfl | hmax
          · exact Or.inl rfl
          · exact Or.inr (by omega)
    · rw [if_neg hi]
      exact ⟨0, Nat.zero_le _, rfl, by simpa [linesBytes] using hcount, Or.inl rfl, (fun h => by cases h),
        fun _ => Or.inr (by omega)⟩

theorem collectLines_take :
    collectLines maxLines maxBytes (lines.take (maxLines - i)) i count = collectLines maxLines maxBytes lines i count := by
  induction lines generalizing i count with
  | nil => rw [take_nil]
  | cons line rest ih =>
    by_cases hi : i < maxLines
    · rw [show maxLines - i = (maxLines - (i + 1)) + 1 by omega, take_succ_cons]
      unfold collectLines
      rw [if_pos hi, if_pos hi]
      simp only
      rw [ih]
    · rw [show maxLines - i = 0 by omega, take_zero]
      unfold collectLines
      rw [if_neg hi]

theorem collectLines_more (init : List JsString) (last more : JsString) (others : List JsString) (i count : ℕ)
    (h : (collectLines maxLines maxBytes (init ++ [last]) i count).1.length < init.length + 1) :
    collectLines maxLines maxBytes (init ++ (last ++ more) :: others) i count =
      collectLines maxLines maxBytes (init ++ [last]) i count := by
  induction init generalizing i count with
  | nil =>
    have hle := utf8ByteLength_le_append last more
    simp only [nil_append] at h ⊢
    unfold collectLines at h ⊢
    by_cases hi : i < maxLines
    · rw [if_pos hi] at h ⊢
      rw [if_pos hi]
      simp only at h ⊢
      by_cases hbytes : count + (utf8ByteLength last + if 0 < i then 1 else 0) > maxBytes
      · rw [if_pos hbytes, if_pos (by omega)]
      · rw [if_neg hbytes] at h
        simp [collectLines] at h
    · rw [if_neg hi, if_neg hi]
  | cons line init ih =>
    rw [cons_append, cons_append]
    rw [cons_append] at h
    unfold collectLines at h ⊢
    by_cases hi : i < maxLines
    · rw [if_pos hi] at h ⊢
      rw [if_pos hi]
      simp only at h ⊢
      by_cases hbytes : count + (utf8ByteLength line + if 0 < i then 1 else 0) > maxBytes
      · rw [if_pos hbytes, if_pos hbytes]
      · rw [if_neg hbytes] at h ⊢
        rw [if_neg hbytes, ih]
        simpa using h
    · rw [if_neg hi, if_neg hi]

/-! ## Prefixes -/

variable (content more : JsString)

theorem lines_append (hc : content ≠ []) : ∃ init last rest others, splitLinesForCounting content = init ++ [last] ∧
      splitLinesForCounting (content ++ more) = init ++ (last ++ rest) :: others ∧
      (endsWithNewline content = true → rest = []) := by
  rcases splitLinesForCounting_cases content with ⟨hnil, -⟩ | ⟨body, rfl, hlines⟩ | ⟨-, hends, hlines⟩
  · exact absurd hnil hc
  · obtain ⟨init, last, hbody⟩ : ∃ init last, body.splitOn newline = init ++ [last] := by
      obtain ⟨init, last, _, _, h, -, -⟩ := splitOn_append body []
      exact ⟨init, last, h⟩
    have hsplit : ((body ++ [newline]) ++ more).splitOn newline = init ++ last :: more.splitOn newline := by
      rw [append_assoc, singleton_append, splitOn_append_cons_self, hbody, append_assoc]
      rfl
    rcases splitLinesForCounting_cases ((body ++ [newline]) ++ more) with ⟨hnil, -⟩ | ⟨whole, heq, hwhole⟩ | ⟨-, -, hwhole⟩
    · simp at hnil
    · rw [heq, splitOn_append_cons_self] at hsplit
      obtain ⟨before, hbefore⟩ : ∃ before, more.splitOn newline = before ++ [[]] := by
        have hlast := congrArg List.getLast? hsplit
        obtain ⟨before, final, hfinal⟩ : ∃ before final, more.splitOn newline = before ++ [final] := by
          obtain ⟨before, final, _, _, h, -, -⟩ := splitOn_append more []
          exact ⟨before, final, h⟩
        have hshape : init ++ last :: (before ++ [final]) = (init ++ last :: before) ++ [final] := by simp
        rw [hfinal, hshape, getLast?_concat, splitOn_nil, getLast?_concat] at hlast
        exact ⟨before, by rw [hfinal, ← some.inj hlast]⟩
      refine ⟨init, last, [], before, hlines.trans hbody, ?_, fun _ => rfl⟩
      rw [hwhole, append_nil]
      refine append_cancel_right (show _ ++ [[]] = _ ++ [[]] from ?_)
      rw [show [([] : JsString)] = List.splitOn newline [] from rfl, hsplit, hbefore]
      simp
    · refine ⟨init, last, [], more.splitOn newline, hlines.trans hbody, ?_, fun _ => rfl⟩
      rw [hwhole, hsplit, append_nil]
  · obtain ⟨init, last, first, others, hcontent, hmore, hsplit⟩ := splitOn_append content more
    rcases splitLinesForCounting_cases (content ++ more) with ⟨hnil, -⟩ | ⟨whole, heq, hwhole⟩ | ⟨-, -, hwhole⟩
    · exact absurd (append_eq_nil_iff.mp hnil).1 hc
    · rw [heq, splitOn_append_cons_self] at hsplit
      have hothers : others ≠ [] := by
        rintro rfl
        have hm : more ≠ [] := by
          rintro rfl
          rw [append_nil] at heq
          rw [heq] at hends
          simp [endsWithNewline] at hends
        have hlength := congrArg List.length hmore
        rw [length_splitOn, length_singleton] at hlength
        have hcount : more.count newline = 0 := by omega
        have hlast := congrArg List.getLast? heq
        rw [getLast?_append_of_ne_nil content hm, getLast?_concat] at hlast
        exact count_eq_zero.mp hcount (mem_of_getLast? hlast)
      obtain ⟨before, final, rfl⟩ : ∃ before final, others = before ++ [final] :=
        ⟨_, _, (dropLast_append_getLast hothers).symm⟩
      refine ⟨init, last, first, before, hlines.trans hcontent, ?_, fun h => absurd h (by rw [hends]; exact Bool.false_ne_true)⟩
      rw [hwhole]
      have hcancel : whole.splitOn newline ++ [[]] = (init ++ (last ++ first) :: before) ++ [final] := by
        rw [show [([] : JsString)] = List.splitOn newline [] from rfl, hsplit]
        simp
      exact (append_inj' hcancel rfl).1
    · exact ⟨init, last, first, others, hlines.trans hcontent, hwhole.trans hsplit,
        fun h => absurd h (by rw [hends]; exact Bool.false_ne_true)⟩

theorem joinLines_lines (content : JsString) :
    utf8ByteLength (joinLines (splitLinesForCounting content)) + (if endsWithNewline content then 1 else 0) =
      utf8ByteLength content := by
  rcases splitLinesForCounting_cases content with ⟨rfl, hlines⟩ | ⟨body, rfl, hlines⟩ | ⟨-, hends, hlines⟩
  · rfl
  · have hline := utf8ByteLength_line body []
    have hends : endsWithNewline (body ++ [newline]) = true := by simp [endsWithNewline]
    rw [hlines, joinLines_splitOn, hends, if_pos rfl, hline]
    rfl
  · rw [hlines, joinLines_splitOn, hends, if_neg Bool.false_ne_true, Nat.add_zero]

theorem length_lines (content : JsString) : (splitLinesForCounting content).length =
      content.count newline + (if content = [] ∨ endsWithNewline content = true then 0 else 1) := by
  rcases splitLinesForCounting_cases content with ⟨rfl, hlines⟩ | ⟨body, rfl, hlines⟩ | ⟨hne, hends, hlines⟩
  · rfl
  · have hends : endsWithNewline (body ++ [newline]) = true := by simp [endsWithNewline]
    rw [hlines, length_splitOn, if_pos (Or.inr hends), count_append]
    simp
  · rw [hlines, length_splitOn, if_neg (by rw [hends]; simp [hne])]

/-! ## The same result -/

theorem truncateHeadOf_congr (content content' : JsString) (totalLines totalBytes : ℕ)
    (hfits : ¬(totalLines ≤ maxLines ∧ totalBytes ≤ maxBytes))
    (hfirst : (splitLinesForCounting content).head?.map (fun line => decide (utf8ByteLength line > maxBytes)) =
      (splitLinesForCounting content').head?.map (fun line => decide (utf8ByteLength line > maxBytes)))
    (hcollect : collectLines maxLines maxBytes (splitLinesForCounting content) 0 0 =
      collectLines maxLines maxBytes (splitLinesForCounting content') 0 0) :
    truncateHeadOf maxLines maxBytes content totalLines totalBytes =
      truncateHeadOf maxLines maxBytes content' totalLines totalBytes := by
  unfold truncateHeadOf
  simp only
  rw [if_neg hfits, if_neg hfits, hcollect]
  cases h : (splitLinesForCounting content).head? with
  | none =>
    rw [h, map_none] at hfirst
    rw [map_eq_none_iff.mp hfirst.symm]
  | some line =>
    rw [h, map_some] at hfirst
    obtain ⟨line', h', heq⟩ := map_eq_some_iff.mp hfirst.symm
    rw [h']
    have hiff : utf8ByteLength line > maxBytes ↔ utf8ByteLength line' > maxBytes := by simpa using heq.symm
    simp only [hiff]

theorem truncateHeadOf_long (h : maxBytes + 1 < utf8ByteLength content) :
    truncateHeadOf maxLines maxBytes content (splitLinesForCounting (content ++ more)).length
      (utf8ByteLength (content ++ more)) = truncateHead maxLines maxBytes (content ++ more) := by
  have hle := utf8ByteLength_le_append content more
  have hne : content ≠ [] := by
    rintro rfl
    simp [utf8ByteLength] at h
  obtain ⟨init, last, rest, others, hlines, hwhole, hrest⟩ := lines_append content more hne
  have hjoined := joinLines_lines content
  have hlong : maxBytes < linesBytes 0 (init ++ [last]) := by
    rw [linesBytes_zero, ← hlines]
    split at hjoined <;> omega
  refine truncateHeadOf_congr maxLines maxBytes content (content ++ more) _ _ (by omega) ?_ ?_
  · rw [hlines, hwhole]
    cases init with
    | cons line init => rfl
    | nil =>
      have hline := utf8ByteLength_le_append last rest
      simp only [nil_append, linesBytes] at hlong
      rw [if_neg (lt_irrefl 0)] at hlong
      simp only [nil_append, head?_cons, map_some, Option.some.injEq, decide_eq_decide]
      omega
  · rw [hlines, hwhole]
    refine (collectLines_more maxLines maxBytes init last rest others 0 0 ?_).symm
    obtain ⟨k, hk, hout, hbytes, -, -, -⟩ := collectLines_spec maxLines maxBytes (init ++ [last]) 0 0 (Nat.zero_le _)
    rw [hout, length_take]
    rw [length_append, length_singleton] at hk ⊢
    by_contra hno
    have hall : k = init.length + 1 := by omega
    rw [hall, take_of_length_le (by simp)] at hbytes
    omega

theorem truncateHeadOf_lines (hpos : 0 < maxLines) (h : maxLines ≤ content.count newline) :
    truncateHeadOf maxLines maxBytes content (splitLinesForCounting (content ++ more)).length
      (utf8ByteLength (content ++ more)) = truncateHead maxLines maxBytes (content ++ more) := by
  by_cases hmore : more = []
  · subst hmore
    rw [append_nil]
    rfl
  have hne : content ≠ [] := by
    rintro rfl
    simp at h
    omega
  have htotal : maxLines < (splitLinesForCounting (content ++ more)).length := by
    rw [length_lines, count_append]
    by_cases hends : endsWithNewline (content ++ more) = true
    · have hmem : newline ∈ more := by
        rw [endsWithNewline_append content more hmore] at hends
        exact mem_of_getLast? (of_decide_eq_true hends)
      have := count_pos_iff.mpr hmem
      omega
    · rw [if_neg (by simp [hne, hends])]
      omega
  obtain ⟨init, last, rest, others, hlines, hwhole, hrest⟩ := lines_append content more hne
  have hlength := length_lines content
  rw [hlines, length_append, length_singleton] at hlength
  have htake : (init ++ [last]).take maxLines = (init ++ (last ++ rest) :: others).take maxLines := by
    by_cases hends : endsWithNewline content = true
    · have hsame : init ++ (last ++ rest) :: others = (init ++ [last]) ++ others := by
        rw [hrest hends, append_nil]
        simp
      rw [if_pos (Or.inr hends)] at hlength
      have hle : maxLines ≤ (init ++ [last]).length := by
        rw [length_append, length_singleton]
        omega
      rw [hsame, take_append_of_le_length hle]
    · rw [if_neg (by simp [hne, hends])] at hlength
      rw [take_append_of_le_length (by omega), take_append_of_le_length (by omega)]
  refine truncateHeadOf_congr maxLines maxBytes content (content ++ more) _ _ (by omega) ?_ ?_
  · have hhead := congrArg List.head? htake
    rw [head?_take, head?_take, if_neg (by omega), if_neg (by omega)] at hhead
    rw [hlines, hwhole, hhead]
  · rw [hlines, hwhole, ← collectLines_take maxLines maxBytes (init ++ [last]),
      ← collectLines_take maxLines maxBytes (init ++ (last ++ rest) :: others), Nat.sub_zero, htake]

/-! ## The longest run of lines -/

theorem linesBytes_take_mono {j k : ℕ} (h : j ≤ k) : linesBytes 0 (lines.take j) ≤ linesBytes 0 (lines.take k) := by
  obtain ⟨d, rfl⟩ := Nat.exists_eq_add_of_le h
  rw [take_add, linesBytes_append]
  exact Nat.le_add_right _ _

def firstLineExceeds (text : JsString) : Bool :=
  (splitLinesForCounting text).head?.any (fun line => decide (maxBytes < utf8ByteLength line))

variable (text : JsString)

theorem firstLineExceeds_le (h : firstLineExceeds maxBytes text = true) :
    maxBytes < utf8ByteLength (joinLines ((splitLinesForCounting text).take 1)) ∧ maxBytes < utf8ByteLength text := by
  unfold firstLineExceeds at h
  have hjoined := joinLines_lines text
  rw [← linesBytes_zero] at hjoined
  cases hlines : splitLinesForCounting text with
  | nil =>
    rw [hlines] at h
    cases h
  | cons line rest =>
    rw [hlines] at h hjoined
    have hover : maxBytes < utf8ByteLength line := by simpa using h
    rw [← linesBytes_zero]
    simp only [take_succ_cons, take_zero]
    unfold linesBytes at hjoined ⊢
    omega

/-- `text` as it may be returned: whole, or the longest run of its first lines, with what stopped it. -/
structure HeadOf (text : JsString) (r : TruncationResult) : Prop where
  whole : (splitLinesForCounting text).length ≤ maxLines → utf8ByteLength text ≤ maxBytes →
    r.content = text ∧ r.truncated = false ∧ r.truncatedBy = none ∧
      r.outputLines = (splitLinesForCounting text).length ∧ r.outputBytes = utf8ByteLength text
  cut : ¬((splitLinesForCounting text).length ≤ maxLines ∧ utf8ByteLength text ≤ maxBytes) →
    r.truncated = true ∧ r.content = joinLines ((splitLinesForCounting text).take r.outputLines) ∧
      r.outputBytes = utf8ByteLength r.content ∧ r.outputLines ≤ (splitLinesForCounting text).length ∧
      r.outputLines ≤ maxLines ∧ r.outputBytes ≤ maxBytes ∧
      ∀ k ≤ (splitLinesForCounting text).length, k ≤ maxLines →
        utf8ByteLength (joinLines ((splitLinesForCounting text).take k)) ≤ maxBytes → k ≤ r.outputLines
  reported : ¬((splitLinesForCounting text).length ≤ maxLines ∧ utf8ByteLength text ≤ maxBytes) →
    (r.truncatedBy = some .lines ∧ r.outputLines = maxLines ∧ maxLines < (splitLinesForCounting text).length) ∨
    (r.truncatedBy = some .bytes ∧ (r.outputLines < (splitLinesForCounting text).length →
        maxBytes < utf8ByteLength (joinLines ((splitLinesForCounting text).take (r.outputLines + 1)))) ∧
      (r.outputLines = (splitLinesForCounting text).length → maxBytes < utf8ByteLength text))
  totals : r.totalLines = (splitLinesForCounting text).length ∧ r.totalBytes = utf8ByteLength text
  firstLine : r.firstLineExceedsLimit = firstLineExceeds maxBytes text

theorem lines_ne_nil (h : text ≠ []) : ∃ line rest, splitLinesForCounting text = line :: rest := by
  obtain ⟨init, last, -, -, hlines, -, -⟩ := lines_append text [] h
  cases init with
  | nil => exact ⟨last, [], hlines⟩
  | cons line init => exact ⟨line, init ++ [last], hlines⟩

theorem truncateHead_spec :
    ∃ r, truncateHead maxLines maxBytes text = some r ∧ HeadOf maxLines maxBytes text r := by
  unfold truncateHead truncateHeadOf
  simp only
  by_cases hfits : (splitLinesForCounting text).length ≤ maxLines ∧ utf8ByteLength text ≤ maxBytes
  · rw [if_pos hfits]
    refine ⟨_, rfl, ⟨fun _ _ => ⟨rfl, rfl, rfl, rfl, rfl⟩, fun h => absurd hfits h, fun h => absurd hfits h, ⟨rfl, rfl⟩, ?_⟩⟩
    by_contra hno
    have hexceeds : firstLineExceeds maxBytes text = true := by simpa using Ne.symm hno
    have := (firstLineExceeds_le maxBytes text hexceeds).2
    omega
  rw [if_neg hfits]
  have hne : text ≠ [] := by
    rintro rfl
    exact hfits ⟨Nat.zero_le _, Nat.zero_le _⟩
  obtain ⟨line, rest, hlines⟩ := lines_ne_nil text hne
  have hexceeds : firstLineExceeds maxBytes text = decide (maxBytes < utf8ByteLength line) := by
    unfold firstLineExceeds
    rw [hlines]
    rfl
  rw [show (splitLinesForCounting text).head? = some line by rw [hlines]; rfl]
  simp only
  by_cases hover : utf8ByteLength line > maxBytes
  · rw [if_pos hover]
    obtain ⟨hone, -⟩ := firstLineExceeds_le maxBytes text (by rw [hexceeds]; exact decide_eq_true hover)
    refine ⟨_, rfl, ⟨fun hl hb => absurd ⟨hl, hb⟩ hfits, fun _ => ⟨rfl, rfl, rfl, Nat.zero_le _, Nat.zero_le _, Nat.zero_le _, ?_⟩,
      fun _ => Or.inr ⟨rfl, fun _ => hone, ?_⟩, ⟨rfl, rfl⟩, (hexceeds.trans (decide_eq_true hover)).symm⟩⟩
    · intro k _ _ hk
      by_contra hpos
      have hmono := linesBytes_take_mono (splitLinesForCounting text) (show 1 ≤ k by omega)
      rw [linesBytes_zero, linesBytes_zero] at hmono
      omega
    · intro hzero
      rw [hlines] at hzero
      cases hzero
  · rw [if_neg hover]
    obtain ⟨k, hk, hout, hbytes, hmax, hby, hnot⟩ :=
      collectLines_spec maxLines maxBytes (splitLinesForCounting text) 0 0 (Nat.zero_le _)
    rw [Nat.zero_add] at hbytes hmax
    have hlength : ((splitLinesForCounting text).take k).length = k := by rw [length_take, min_eq_left hk]
    have hkmax : k ≤ maxLines := by omega
    have hjoined := joinLines_lines text
    have hstop : ∀ j ≤ (splitLinesForCounting text).length, j ≤ maxLines →
        utf8ByteLength (joinLines ((splitLinesForCounting text).take j)) ≤ maxBytes → j ≤ k := by
      intro j hj hjmax hjbytes
      by_contra hlt
      cases hstopped : (collectLines maxLines maxBytes (splitLinesForCounting text) 0 0).2 with
      | true =>
        obtain ⟨-, -, hover'⟩ := hby hstopped
        have hmono := linesBytes_take_mono (splitLinesForCounting text) (show k + 1 ≤ j by omega)
        rw [linesBytes_zero] at hmono
        rw [linesBytes_zero] at hmono hover'
        omega
      | false =>
        have := hnot hstopped
        omega
    rw [hout, hlength]
    refine ⟨_, rfl, ⟨fun hl hb => absurd ⟨hl, hb⟩ hfits, fun _ => ⟨rfl, rfl, rfl, hk, hkmax, ?_, hstop⟩, fun _ => ?_, ⟨rfl, rfl⟩,
      (hexceeds.trans (decide_eq_false hover)).symm⟩⟩
    · rw [linesBytes_zero] at hbytes
      exact hbytes
    · cases hstopped : (collectLines maxLines maxBytes (splitLinesForCounting text) 0 0).2 with
      | true =>
        obtain ⟨hlt, -, hover'⟩ := hby hstopped
        rw [linesBytes_zero, Nat.zero_add] at hover'
        exact Or.inr ⟨rfl, fun _ => hover', fun heq => absurd heq (by simp only; omega)⟩
      | false =>
        rcases Nat.lt_or_ge k (splitLinesForCounting text).length with hlt | hge
        · have hmaxed : k = maxLines := by
            have := hnot hstopped
            omega
          refine Or.inl ⟨?_, hmaxed, hmaxed ▸ hlt⟩
          simp only [Bool.false_eq_true, if_false]
          rw [if_pos hlt]
        · refine Or.inr ⟨?_, fun hlt => absurd hlt (by simp only; omega), fun _ => ?_⟩
          · simp only [Bool.false_eq_true, if_false]
            rw [if_neg (by omega)]
          · -- all lines are kept, so it was the newline at the end
            by_contra hno
            exact hfits ⟨by omega, by omega⟩

theorem truncateHeadOf_none (hmore : more ≠ []) :
    truncateHeadOf 0 maxBytes content (splitLinesForCounting (content ++ more)).length (utf8ByteLength (content ++ more)) =
        truncateHead 0 maxBytes (content ++ more) ↔
      content ≠ [] ∧ firstLineExceeds maxBytes content = firstLineExceeds maxBytes (content ++ more) := by
  have hne : content ++ more ≠ [] := fun h => hmore (append_eq_nil_iff.mp h).2
  obtain ⟨line, rest, hwhole⟩ := lines_ne_nil (content ++ more) hne
  have hfits : ¬((splitLinesForCounting (content ++ more)).length ≤ 0 ∧ utf8ByteLength (content ++ more) ≤ maxBytes) := by
    rw [hwhole]
    simp
  have hnone : ∀ lines : List JsString, collectLines 0 maxBytes lines 0 0 = ([], false) := by
    intro lines
    cases lines <;> rfl
  refine ⟨?_, ?_⟩
  · intro heq
    have hcontent : content ≠ [] := by
      rintro rfl
      obtain ⟨r, hr, -⟩ := truncateHead_spec 0 maxBytes ([] ++ more)
      rw [hr] at heq
      unfold truncateHeadOf at heq
      simp only at heq
      rw [if_neg hfits] at heq
      cases heq
    refine ⟨hcontent, ?_⟩
    obtain ⟨line', rest', hlines⟩ := lines_ne_nil content hcontent
    unfold truncateHead truncateHeadOf at heq
    simp only at heq
    rw [if_neg hfits, if_neg hfits, hlines, hwhole] at heq
    unfold firstLineExceeds
    rw [hlines, hwhole]
    simp only [head?_cons, any_some, decide_eq_decide]
    simp only [head?_cons] at heq
    by_cases h' : utf8ByteLength line' > maxBytes
    · by_cases h : utf8ByteLength line > maxBytes
      · exact iff_of_true h' h
      · rw [if_pos h', if_neg h] at heq
        simp at heq
    · by_cases h : utf8ByteLength line > maxBytes
      · rw [if_neg h', if_pos h] at heq
        simp at heq
      · exact iff_of_false h' h
  · rintro ⟨hcontent, hexceeds⟩
    obtain ⟨line', rest', hlines⟩ := lines_ne_nil content hcontent
    refine truncateHeadOf_congr 0 maxBytes content (content ++ more) _ _ hfits ?_ ((hnone _).trans (hnone _).symm)
    unfold firstLineExceeds at hexceeds
    rw [hlines, hwhole] at hexceeds ⊢
    simpa using hexceeds

/-- A prefix that is the whole text, or longer than the bytes, or has all lines that may be kept, gives what the whole
text gives, except that without any line to keep it must be told from the prefix whether the first line is too long; and what
a text gives is itself, or its longest run of first lines. -/
theorem truncateHeadOf_prefix (content more : JsString)
    (h : more = [] ∨ maxBytes + 1 < utf8ByteLength content ∨ maxLines ≤ content.count newline) :
    (truncateHeadOf maxLines maxBytes content (splitLinesForCounting (content ++ more)).length
        (utf8ByteLength (content ++ more)) = truncateHead maxLines maxBytes (content ++ more) ↔
      0 < maxLines ∨ more = [] ∨ maxBytes + 1 < utf8ByteLength content ∨
        (content ≠ [] ∧ firstLineExceeds maxBytes content = firstLineExceeds maxBytes (content ++ more))) ∧
    ∃ r, truncateHead maxLines maxBytes (content ++ more) = some r ∧ HeadOf maxLines maxBytes (content ++ more) r := by
  refine ⟨?_, truncateHead_spec maxLines maxBytes (content ++ more)⟩
  rcases h with rfl | hlong | hlines
  · refine iff_of_true ?_ (Or.inr (Or.inl rfl))
    rw [append_nil]
    rfl
  · exact iff_of_true (truncateHeadOf_long maxLines maxBytes content more hlong) (Or.inr (Or.inr (Or.inl hlong)))
  · rcases Nat.eq_zero_or_pos maxLines with rfl | hpos
    · by_cases hmore : more = []
      · subst hmore
        refine iff_of_true ?_ (Or.inr (Or.inl rfl))
        rw [append_nil]
        rfl
      · by_cases hlong : maxBytes + 1 < utf8ByteLength content
        · exact iff_of_true (truncateHeadOf_long 0 maxBytes content more hlong) (Or.inr (Or.inr (Or.inl hlong)))
        · rw [truncateHeadOf_none maxBytes content more hmore]
          simp [hmore, hlong]
    · exact iff_of_true (truncateHeadOf_lines maxLines maxBytes content more hpos hlines) (Or.inl hpos)

/-- No line may be kept; the empty prefix has as many newlines as that, and has no first line. -/
theorem empty_prefix_throws : (0 ≤ ([] : JsString).count newline ∧
      truncateHeadOf 0 10 [] (splitLinesForCounting ([] ++ js "a")).length (utf8ByteLength ([] ++ js "a")) = none ∧
      truncateHead 0 10 ([] ++ js "a") ≠ none) := by
  decide

theorem truncateHeadOf_prefix_two :
    truncateHeadOf 1 10 (js "a\n") (splitLinesForCounting (js "a\n" ++ js "b")).length
        (utf8ByteLength (js "a\n" ++ js "b")) = truncateHead 1 10 (js "a\n" ++ js "b") := by
  have hexact := truncateHeadOf_prefix 1 10 (js "a\n") (js "b") (Or.inr (Or.inr (by decide)))
  exact hexact.1.mpr (Or.inl (by decide))

end PiAgent.Durable
