import PiAgent.Durable.Truncate
import PiAgent.Env.Encoding

/-!
# Truncation from the tail

`truncateTail` of the coding agent's `truncate.ts`: the last lines of a text within a number of
lines and of bytes, or the end of the last line where that alone is too long.
-/

namespace PiAgent.Tools

open List Durable Env Utf8

def truncateStringToBytesFromEnd (str : JsString) (maxBytes : ℕ) : JsString :=
  let buf := encodeText str
  if buf.length ≤ maxBytes then str else decodeText (buf.drop (boundaryAfter buf (buf.length - maxBytes)))

/-- What the loop of `truncateTail` has when it ends. -/
structure Collected where
  outputLines : List JsString
  outputBytesCount : ℕ
  truncatedBy : Limit
  lastLinePartial : Bool
  deriving DecidableEq

/-- The loop of `truncateTail`, over the lines from the last on. -/
def collectTail (maxLines maxBytes : ℕ) : List JsString → List JsString → ℕ → Collected
  | [], outputLines, count => ⟨outputLines, count, .lines, false⟩
  | line :: rest, outputLines, count =>
    if outputLines.length < maxLines then
      let lineBytes := utf8ByteLength line + (if outputLines.isEmpty then 0 else 1)
      if count + lineBytes > maxBytes then
        if outputLines.isEmpty then
          let truncatedLine := truncateStringToBytesFromEnd line maxBytes
          ⟨[truncatedLine], utf8ByteLength truncatedLine, .bytes, true⟩
        else ⟨outputLines, count, .bytes, false⟩
      else collectTail maxLines maxBytes rest (line :: outputLines) (count + lineBytes)
    else ⟨outputLines, count, .lines, false⟩

def truncateTail (content : JsString) (maxLines maxBytes : ℕ) : TruncationResult :=
  let totalBytes := utf8ByteLength content
  let lines := splitLinesForCounting content
  let totalLines := lines.length
  if totalLines ≤ maxLines ∧ totalBytes ≤ maxBytes then
    { content := content, truncated := false, truncatedBy := none, totalLines := totalLines, totalBytes := totalBytes
      outputLines := totalLines, outputBytes := totalBytes, lastLinePartial := false, firstLineExceedsLimit := false
      maxLines := maxLines, maxBytes := maxBytes }
  else
    let collected := collectTail maxLines maxBytes lines.reverse [] 0
    let outputContent := joinLines collected.outputLines
    { content := outputContent, truncated := true
      truncatedBy := some (if collected.outputLines.length ≥ maxLines ∧ collected.outputBytesCount ≤ maxBytes then .lines
        else collected.truncatedBy)
      totalLines := totalLines, totalBytes := totalBytes, outputLines := collected.outputLines.length
      outputBytes := utf8ByteLength outputContent, lastLinePartial := collected.lastLinePartial
      firstLineExceedsLimit := false, maxLines := maxLines, maxBytes := maxBytes }

/-! ## The loop -/

variable (maxLines maxBytes : ℕ)

theorem joinLines_cons (line : JsString) (lines : List JsString) : utf8ByteLength (joinLines (line :: lines)) =
      utf8ByteLength line + (if lines.isEmpty then 0 else 1 + utf8ByteLength (joinLines lines)) := by
  cases lines with
  | nil =>
    unfold Durable.joinLines
    rw [intercalate_singleton]
    rfl
  | cons next rest =>
    rw [joinLines_cons_cons, utf8ByteLength_line, isEmpty_cons, if_neg Bool.false_ne_true]
    omega

def Counted (outputLines : List JsString) (count : ℕ) : Prop := count = utf8ByteLength (joinLines outputLines)

theorem Counted.cons {outputLines : List JsString} {count : ℕ} (h : Counted outputLines count) (line : JsString) :
    Counted (line :: outputLines) (count + (utf8ByteLength line + (if outputLines.isEmpty then 0 else 1))) := by
  unfold Counted at h ⊢
  rw [joinLines_cons, h]
  cases outputLines with
  | nil =>
    simp only [isEmpty_nil, if_true]
    exact Nat.zero_add _
  | cons next rest =>
    simp only [isEmpty_cons, Bool.false_eq_true, if_false]
    omega

theorem collectTail_fits (lines outputLines : List JsString) (count : ℕ) (h : Counted outputLines count)
    (hlines : lines.length + outputLines.length ≤ maxLines)
    (hbytes : utf8ByteLength (joinLines (lines.reverse ++ outputLines)) ≤ maxBytes) :
    (collectTail maxLines maxBytes lines outputLines count).outputLines = lines.reverse ++ outputLines := by
  induction lines generalizing outputLines count with
  | nil => rfl
  | cons line rest ih =>
    have hnext := h.cons line
    rw [reverse_cons, append_assoc, singleton_append] at hbytes ⊢
    rw [length_cons] at hlines
    -- what is collected with this line is the end of what is
    have hpart : count + (utf8ByteLength line + (if outputLines.isEmpty then 0 else 1)) ≤ maxBytes := by
      have hle : ∀ before : List JsString, utf8ByteLength (joinLines (line :: outputLines)) ≤
          utf8ByteLength (joinLines (before ++ line :: outputLines)) := by
        intro before
        induction before with
        | nil => exact le_refl _
        | cons first before ihb =>
          rw [cons_append, joinLines_cons first, if_neg (by simp)]
          omega
      have := hle rest.reverse
      unfold Counted at hnext
      omega
    unfold collectTail
    rw [if_pos (by omega)]
    dsimp only
    rw [if_neg (by omega)]
    exact ih (line :: outputLines) _ hnext (by rw [length_cons]; omega) hbytes

theorem collectTail_more (lines outputLines : List JsString) (count : ℕ) (first : JsString) (others : List JsString)
    (h : Counted outputLines count) (hne : lines.reverse ++ outputLines ≠ [])
    (hlong : maxBytes < utf8ByteLength (joinLines (first :: (lines.reverse ++ outputLines)))) :
    (collectTail maxLines maxBytes (lines ++ first :: others) outputLines count).outputLines =
      (collectTail maxLines maxBytes lines outputLines count).outputLines := by
  induction lines generalizing outputLines count with
  | nil =>
    rw [reverse_nil, nil_append] at hne hlong
    rw [nil_append]
    have hempty : outputLines.isEmpty = false := isEmpty_eq_false_iff.mpr hne
    have hnext := h.cons first
    unfold Counted at hnext
    unfold collectTail
    split
    · dsimp only
      rw [if_pos (by omega), hempty, if_neg Bool.false_ne_true]
    · rfl
  | cons line rest ih =>
    rw [reverse_cons, append_assoc, singleton_append] at hne hlong
    rw [cons_append]
    have hnext := h.cons line
    unfold collectTail
    dsimp only
    generalize utf8ByteLength line + (if outputLines.isEmpty then 0 else 1) = lineBytes at hnext ⊢
    split
    · split
      · split <;> rfl
      · exact ih (line :: outputLines) _ hnext hne hlong
    · rfl

/-! ## What truncation from the tail reads -/

variable (maxLines maxBytes : ℕ)

def Fits (content : JsString) : Prop := (splitLinesForCounting content).length ≤ maxLines ∧ utf8ByteLength content ≤ maxBytes

instance instDecidableFits (content : JsString) : Decidable (Fits maxLines maxBytes content) := instDecidableAnd

def tailLines (content : JsString) : List JsString :=
  (collectTail maxLines maxBytes (splitLinesForCounting content).reverse [] 0).outputLines

variable (content : JsString)

theorem truncateTail_fits (h : Fits maxLines maxBytes content) :
    (truncateTail content maxLines maxBytes).content = content := by
  unfold Fits at h
  unfold truncateTail
  dsimp only
  rw [if_pos h]

theorem truncateTail_long (h : ¬ Fits maxLines maxBytes content) :
    (truncateTail content maxLines maxBytes).content = joinLines (tailLines maxLines maxBytes content) := by
  unfold Fits at h
  unfold truncateTail
  dsimp only
  rw [if_neg h]
  rfl

theorem counted_nil : Counted [] 0 := rfl

theorem tailLines_fits (h : Fits maxLines maxBytes content) :
    tailLines maxLines maxBytes content = splitLinesForCounting content := by
  have hjoin := joinLines_lines content
  unfold Fits at h
  unfold tailLines
  have hall : utf8ByteLength (joinLines ((splitLinesForCounting content).reverse.reverse ++ [])) ≤ maxBytes := by
    rw [reverse_reverse, append_nil]
    omega
  rw [collectTail_fits maxLines maxBytes _ [] 0 counted_nil (by simpa using h.1) hall, reverse_reverse, append_nil]

theorem joinLines_eq_iff :
    joinLines (splitLinesForCounting content) = content ↔ endsWithNewline content = false := by
  have hjoin := joinLines_lines content
  refine ⟨fun heq => ?_, fun hends => ?_⟩
  · rw [heq] at hjoin
    rcases hends : endsWithNewline content with _ | _
    · rfl
    · rw [hends, if_pos rfl] at hjoin
      omega
  · rcases splitLinesForCounting_cases content with ⟨rfl, hlines⟩ | ⟨body, rfl, -⟩ | ⟨-, -, hlines⟩
    · rfl
    · simp [endsWithNewline] at hends
    · rw [hlines, joinLines_splitOn]

theorem splitLines_append (a b : JsString) (h : a = [] ∨ endsWithNewline a = true) :
    splitLinesForCounting (a ++ b) = splitLinesForCounting a ++ splitLinesForCounting b := by
  rcases splitLinesForCounting_cases a with ⟨rfl, hlines⟩ | ⟨body, rfl, hlines⟩ | ⟨hne, hends, -⟩
  · rw [hlines]
    rfl
  · rcases Decidable.em (b = []) with rfl | hb
    · rw [append_nil, show splitLinesForCounting [] = [] from rfl, append_nil]
    · have hb' : b.isEmpty = false := isEmpty_eq_false_iff.mpr hb
      unfold splitLinesForCounting at hlines ⊢
      rw [hlines, hb', isEmpty_eq_false_iff.mpr (by simp), endsWithNewline_append _ _ hb]
      simp only [Bool.false_eq_true, if_false]
      rw [append_assoc, singleton_append, splitOn_append_cons_self]
      split
      · exact dropLast_append_of_ne_nil (splitOn_ne_nil newline b)
      · rfl
  · rcases h with rfl | h
    · exact absurd rfl hne
    · rw [hends] at h
      cases h

theorem splitLines_ne_nil (h : content ≠ []) : splitLinesForCounting content ≠ [] := by
  rcases splitLinesForCounting_cases content with ⟨hnil, -⟩ | ⟨body, -, hlines⟩ | ⟨-, -, hlines⟩
  · exact absurd hnil h
  · rw [hlines]
    exact splitOn_ne_nil newline body
  · rw [hlines]
    exact splitOn_ne_nil newline content

theorem tailLines_append (before content : JsString) (init : List JsString) (line : JsString)
    (hbefore : endsWithNewline before = true) (hlines : splitLinesForCounting before = init ++ [line]) (hne : content ≠ [])
    (hlong : maxBytes < utf8ByteLength line + (1 + utf8ByteLength (joinLines (splitLinesForCounting content)))) :
    tailLines maxLines maxBytes (before ++ content) = tailLines maxLines maxBytes content := by
  have hsome := splitLines_ne_nil content hne
  unfold tailLines
  rw [splitLines_append _ _ (.inr hbefore), hlines, append_assoc, reverse_append, singleton_append,
    reverse_cons, append_assoc, singleton_append]
  refine collectTail_more maxLines maxBytes _ [] 0 line init.reverse counted_nil ?_ ?_
  · simpa using hsome
  · rw [reverse_reverse, append_nil, joinLines_cons, if_neg (by simpa using hsome)]
    exact hlong

/-! ## The end of one line -/

theorem truncateString_append (a : JsString) (chars : List Char) (h : maxBytes < utf8ByteLength (textOf chars)) :
    truncateStringToBytesFromEnd (a ++ textOf chars) maxBytes = truncateStringToBytesFromEnd (textOf chars) maxBytes := by
  have hbytes : encodeText (a ++ textOf chars) = encodeText a ++ encodeText (textOf chars) := by
    unfold encodeText
    rw [scalars_append _ _ (splitsPair_textOf a _ chars (prefix_refl _)), encode_append]
  rw [← length_encodeText] at h
  unfold truncateStringToBytesFromEnd
  dsimp only
  rw [hbytes, length_append, if_neg (by omega), if_neg (by omega), Nat.add_sub_assoc (by omega), boundaryAfter_append,
    drop_append, drop_eq_nil_of_le (by omega), nil_append, Nat.add_sub_cancel_left]

theorem truncateString_ne_nil (str : JsString) (hmin : 4 ≤ maxBytes) (h : maxBytes < utf8ByteLength str) :
    truncateStringToBytesFromEnd str maxBytes ≠ [] := by
  rw [← length_encodeText] at h
  have hle := boundaryAfter_le (scalars str) ((encodeText str).length - maxBytes)
  have hboundary := boundary_boundaryAfter (scalars str) ((encodeText str).length - maxBytes) (Nat.sub_le _ _)
  obtain ⟨a, b, hsplit, ha⟩ := hboundary.split
  change boundaryAfter (encodeText str) _ ≤ _ at hle
  change _ = boundaryAfter (encodeText str) _ at ha
  have hbytes : encodeText str = encode a ++ encode b := by
    unfold encodeText
    rw [hsplit, encode_append]
  unfold truncateStringToBytesFromEnd
  dsimp only
  rw [if_neg (by omega), ← ha, hbytes, drop_left, decodeText_encode, Ne, textOf_eq_nil]
  rintro rfl
  have hlength := congrArg List.length hbytes
  rw [length_append] at hlength
  simp only [encode_nil, length_nil] at hlength
  omega

theorem tailLines_long (init : List JsString) (line : JsString)
    (hlines : splitLinesForCounting content = init ++ [line]) (hmax : 1 ≤ maxLines) (h : maxBytes < utf8ByteLength line) :
    tailLines maxLines maxBytes content = [truncateStringToBytesFromEnd line maxBytes] := by
  unfold tailLines
  rw [hlines, reverse_append, reverse_singleton, singleton_append]
  unfold collectTail
  rw [if_pos (by rw [length_nil]; omega)]
  dsimp only
  rw [if_pos (by rw [isEmpty_nil, if_pos rfl]; omega), isEmpty_nil, if_pos rfl]

end PiAgent.Tools
