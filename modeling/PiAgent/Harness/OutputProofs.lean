import PiAgent.Harness.Output
import Mathlib.Tactic.Ring

/-! # The window of a text and of its end -/

namespace PiAgent.Harness.Output

open Env Durable Utf8

/-! ## Bytes before the window -/

theorem lineStart_le (bytes : List UInt8) (maxLines n lines : ℕ) : lineStart bytes maxLines n lines ≤ n := by
  induction n generalizing lines with
  | zero => exact le_refl _
  | succ n ih =>
    have h1 := ih lines
    have h2 := ih (lines + 1)
    unfold lineStart
    split_ifs <;> omega

theorem count_take_succ (bytes : List UInt8) (n : ℕ) :
    (bytes.take (n + 1)).count NEWLINE = (bytes.take n).count NEWLINE + (if bytes[n]? = some NEWLINE then 1 else 0) := by
  rw [List.take_add_one, List.count_append]
  congr 1
  rcases hget : bytes[n]? with _ | byte
  · simp
  · simp [List.count_singleton]

theorem lineStart_append (before bytes : List UInt8) (maxLines n lines : ℕ) (hn : n ≤ bytes.length)
    (hlines : lines ≤ maxLines) :
    (lineStart (before ++ bytes) maxLines (before.length + n) lines = before.length + lineStart bytes maxLines n lines ∧
      0 < lineStart bytes maxLines n lines) ∨
    (lineStart (before ++ bytes) maxLines (before.length + n) lines ≤ before.length ∧
      lineStart bytes maxLines n lines = 0 ∧ lines + (bytes.take n).count NEWLINE ≤ maxLines) := by
  induction n generalizing lines with
  | zero => exact .inr ⟨lineStart_le _ _ _ _, rfl, by simpa using hlines⟩
  | succ n ih =>
    have hget : (before ++ bytes)[before.length + n]? = bytes[n]? := by
      rw [List.getElem?_append_right (by omega), Nat.add_sub_cancel_left]
    rw [← Nat.add_assoc, count_take_succ]
    unfold lineStart
    rw [hget]
    split
    · split
      · exact .inl ⟨by omega, by omega⟩
      · rcases ih (lines + 1) (by omega) (by omega) with h | ⟨h1, h2, h3⟩
        · exact .inl h
        · exact .inr ⟨h1, h2, by omega⟩
    · exact ih lines (by omega) hlines

theorem indexOfNewline_append (before bytes : List UInt8) (start : ℕ) :
    indexOfNewline (before ++ bytes) (before.length + start) = (indexOfNewline bytes start).map (before.length + ·) := by
  unfold indexOfNewline
  rw [List.drop_append, List.drop_eq_nil_of_le (by omega), List.nil_append, Nat.add_sub_cancel_left, Option.map_map]
  congr 1
  funext index
  exact Nat.add_assoc _ _ _

theorem tailStart_append (limits : OutputLimits) (before bytes : List UInt8)
    (h : limits.maxBytes < bytes.length ∨ limits.maxLines < bytes.count NEWLINE) :
    tailStart (before ++ bytes) limits = before.length + tailStart bytes limits := by
  have hne : bytes ≠ [] := by
    rintro rfl
    simp at h
  unfold tailStart
  split
  · exact List.length_append
  · rename_i hlimits
    dsimp only
    rw [List.getLast?_append_of_ne_nil _ hne, List.length_append]
    have hpos : 0 < bytes.length := List.length_pos_iff.mpr hne
    have hlast : ∃ last, last ≤ bytes.length ∧ bytes.count NEWLINE ≤ (bytes.take last).count NEWLINE + 1 ∧
        (if bytes.getLast? = some NEWLINE then bytes.length - 1 else bytes.length) = last ∧
        (if bytes.getLast? = some NEWLINE then before.length + bytes.length - 1 else before.length + bytes.length) =
          before.length + last := by
      split
      · refine ⟨bytes.length - 1, by omega, ?_, rfl, by omega⟩
        have hcount := count_take_succ bytes (bytes.length - 1)
        rw [Nat.sub_add_cancel hpos, List.take_length] at hcount
        rw [hcount]
        split <;> omega
      · exact ⟨bytes.length, le_refl _, by rw [List.take_length]; omega, rfl, rfl⟩
    obtain ⟨last, hle, hcount, h1, h2⟩ := hlast
    rw [h1, h2]
    -- where the window begins by lines, it is too long on both sides or on none
    have hstart : (before.length + bytes.length - lineStart (before ++ bytes) limits.maxLines (before.length + last) 1 >
          limits.maxBytes ↔ bytes.length - lineStart bytes limits.maxLines last 1 > limits.maxBytes) ∧
        (¬ bytes.length - lineStart bytes limits.maxLines last 1 > limits.maxBytes →
          lineStart (before ++ bytes) limits.maxLines (before.length + last) 1 =
            before.length + lineStart bytes limits.maxLines last 1) := by
      rcases lineStart_append before bytes limits.maxLines last 1 hle (by omega) with ⟨heq, -⟩ | ⟨hout, hzero, hfew⟩
      · rw [heq]
        exact ⟨by omega, fun _ => rfl⟩
      · rw [hzero]
        exact ⟨by omega, fun hno => absurd hno (by omega)⟩
    rcases Nat.lt_or_ge limits.maxBytes (bytes.length - lineStart bytes limits.maxLines last 1) with hlong | hshort
    · rw [if_pos hlong, if_pos (hstart.1.mpr hlong)]
      rw [show before.length + bytes.length - limits.maxBytes = before.length + (bytes.length - limits.maxBytes) by omega,
        show before.length + (bytes.length - limits.maxBytes) - 1 = before.length + (bytes.length - limits.maxBytes - 1) by
          omega, indexOfNewline_append]
      rcases indexOfNewline bytes (bytes.length - limits.maxBytes - 1) with _ | newline
      · exact boundaryAfter_append before bytes _
      · rw [Option.map_some]
        dsimp only
        split
        · rw [if_pos (by omega)]
          omega
        · rw [if_neg (by omega)]
          exact boundaryAfter_append before bytes _
    · rw [if_neg (fun hno => absurd (hstart.1.mp hno) (by omega)), if_neg (by omega)]
      exact hstart.2 (by omega)

/-! ## Windows of texts -/

def Margin (limits : OutputLimits) (text : List Char) : Prop :=
  limits.maxBytes < Utf8.size text ∨ limits.maxLines < Env.newlines text

variable {text : List Char} {b : OutputBuffer}

theorem Margin.append {limits : OutputLimits} (h : Margin limits text) (more : List Char) :
    Margin limits (text ++ more) := by
  unfold Margin at h ⊢
  rw [size_append, newlines_append]
  omega

theorem Margin.ne_nil {limits : OutputLimits} (h : Margin limits text) : text ≠ [] := by
  rintro rfl
  unfold Margin at h
  simp at h

def window (limits : OutputLimits) (text : List Char) : List UInt8 :=
  (encode text).drop (tailStart (encode text) limits)

theorem window_append (limits : OutputLimits) (before text : List Char) (h : before = [] ∨ Margin limits text) :
    window limits (before ++ text) = window limits text := by
  rcases h with rfl | h
  · rfl
  · have hbytes : limits.maxBytes < (encode text).length ∨ limits.maxLines < (encode text).count NEWLINE := by
      rw [length_encode, count_encode_newline]
      exact h
    unfold window
    rw [encode_append, tailStart_append limits _ _ hbytes, List.drop_append, List.drop_eq_nil_of_le (by omega),
      List.nil_append, Nat.add_sub_cancel_left]

theorem lineCount_encode (text : List Char) :
    lineCount (encode text) = lines (Env.newlines text) ((textOf text).isEmpty || Durable.endsWithNewline (textOf text)) := by
  have hends : Durable.endsWithNewline (textOf text) = decide ((encode text).getLast? = some NEWLINE) := by
    unfold Durable.endsWithNewline
    rw [decide_eq_decide, (getLast_newline text).1, (getLast_newline text).2]
  unfold lineCount lines
  rw [count_encode_newline, hends]
  rcases text.eq_nil_or_concat' with rfl | ⟨init, c, rfl⟩
  · rfl
  · have h1 : (encode (init ++ [c])).isEmpty = false := by
      rw [List.isEmpty_eq_false_iff, ← List.length_pos_iff, length_encode]
      exact size_pos _ (by simp)
    have h2 : (textOf (init ++ [c])).isEmpty = false := by
      rw [List.isEmpty_eq_false_iff, Ne, textOf_eq_nil]
      simp
    rw [h1, h2, Bool.false_or]
    simp only [Bool.false_eq_true, if_false, decide_eq_true_eq]

theorem boundOutput_tail (limits : OutputLimits) (h : limits.retain = .tail) (text : List Char) :
    boundOutput (textOf text) limits =
      { text := decodeText (window limits text)
        bytes := (window limits text).length
        droppedBytes := (Utf8.size text : ℤ) - (window limits text).length
        droppedLines := (lineCount (encode text) : ℤ) - lineCount (window limits text) } := by
  unfold boundOutput
  rw [h, encodeText_textOf]
  dsimp only
  rw [show (encode text).drop (tailStart (encode text) limits) = window limits text from rfl, length_encode]
  congr 1
  split
  · rename_i hall
    rw [← length_encode] at hall
    rw [show window limits text = encode text from (List.drop_suffix _ _).eq_of_length hall, decodeText_encode]
  · rfl

def bounded (text : JsString) (limits : OutputLimits) : BoundedOutput :=
  let slice := boundOutput text limits
  ⟨sanitizeOutput slice.text, slice.droppedBytes, slice.droppedLines⟩

/-! ## The buffer -/

def chunkOf (part : List Char) : Chunk :=
  ⟨textOf part, utf8ByteLength (textOf part), countNewlines (textOf part)⟩

structure Retains (b : OutputBuffer) (text : List Char) : Prop where
  tail : b.limits.retain = .tail
  decoder : b.decoder = .new
  full : b.full = false
  totalBytes : b.totalBytes = Utf8.size text
  totalNewlines : b.totalNewlines = Env.newlines text
  endsWithNewline : b.endsWithNewline = ((textOf text).isEmpty || Durable.endsWithNewline (textOf text))
  stored : ∃ (before : List Char) (parts : List (List Char)), text = before ++ parts.flatten ∧ b.chunks = parts.map chunkOf ∧
    b.storedBytes = Utf8.size parts.flatten ∧ b.storedNewlines = Env.newlines parts.flatten ∧
    (before = [] ∨ Margin b.limits parts.flatten)

theorem retains_new (limits : OutputLimits) (h : limits.retain = .tail) : Retains (.new limits) [] :=
  ⟨h, rfl, rfl, rfl, rfl, rfl, [], [], rfl, rfl, rfl, rfl, .inl rfl⟩

theorem chunkOf_bytes (part : List Char) : (chunkOf part).bytes = Utf8.size part := utf8ByteLength_textOf part

theorem chunkOf_newlines (part : List Char) : (chunkOf part).newlines = Env.newlines part := count_textOf part

theorem dropChunks_spec (limits : OutputLimits) (before : List Char) (parts : List (List Char))
    (h : before = [] ∨ Margin limits parts.flatten) :
    ∃ (before' : List Char) (parts' : List (List Char)), before ++ parts.flatten = before' ++ parts'.flatten ∧
      dropChunks limits (parts.map chunkOf) (Utf8.size parts.flatten) (Env.newlines parts.flatten) =
        (parts'.map chunkOf, Utf8.size parts'.flatten, Env.newlines parts'.flatten) ∧
      (before' = [] ∨ Margin limits parts'.flatten) := by
  induction parts generalizing before with
  | nil => exact ⟨before, [], rfl, rfl, h⟩
  | cons first parts ih =>
    cases parts with
    | nil => exact ⟨before, [first], rfl, rfl, h⟩
    | cons second rest =>
      have hbytes : Utf8.size (first :: second :: rest).flatten - (chunkOf first).bytes =
          Utf8.size (second :: rest).flatten := by
        rw [List.flatten_cons, size_append, chunkOf_bytes, Nat.add_sub_cancel_left]
      have hnewlines : Env.newlines (first :: second :: rest).flatten - (chunkOf first).newlines =
          Env.newlines (second :: rest).flatten := by
        rw [List.flatten_cons, newlines_append, chunkOf_newlines, Nat.add_sub_cancel_left]
      rw [List.map_cons, List.map_cons]
      unfold dropChunks
      rw [hbytes, hnewlines]
      dsimp only
      split
      · exact ⟨before, first :: second :: rest, rfl, rfl, h⟩
      · rename_i hmore
        have hmargin : Margin limits (second :: rest).flatten := by
          unfold Margin
          omega
        obtain ⟨before', parts', heq, hdrop, hrest⟩ := ih (before ++ first) (.inr hmargin)
        rw [List.map_cons] at hdrop
        refine ⟨before', parts', ?_, hdrop, hrest⟩
        rw [← heq, List.flatten_cons, List.append_assoc]

theorem Retains.accept (h : Retains b text) (more : List Char) :
    Retains (b.accept (textOf more)).1 (text ++ more) := by
  obtain ⟨htail, hdecoder, hfull, hbytes, hnewlines, hends, before, parts, htext, hchunks, hsb, hsn, hmargin⟩ := h
  rcases more.eq_nil_or_concat' with rfl | ⟨init, c, hmore⟩
  · rw [List.append_nil]
    exact ⟨htail, hdecoder, hfull, hbytes, hnewlines, hends, before, parts, htext, hchunks, hsb, hsn, hmargin⟩
  · have hne : more ≠ [] := by rw [hmore]; simp
    have hempty : (textOf more).isEmpty = false := by simpa using hne
    have hmargin' : before = [] ∨ Margin b.limits (parts ++ [more]).flatten := by
      rw [List.flatten_append, List.flatten_singleton]
      exact hmargin.imp id (fun hm => hm.append more)
    obtain ⟨before', parts', heq, hdrop, hrest⟩ := dropChunks_spec b.limits before (parts ++ [more]) hmargin'
    have hdrop' : dropChunks b.limits (b.chunks ++ [chunkOf more]) (b.storedBytes + utf8ByteLength (textOf more))
        (b.storedNewlines + countNewlines (textOf more)) =
          (parts'.map chunkOf, Utf8.size parts'.flatten, Env.newlines parts'.flatten) := by
      rw [← hdrop, hchunks, hsb, hsn, utf8ByteLength_textOf, List.map_append, List.flatten_append,
        List.flatten_singleton, size_append, newlines_append]
      congr 2
      exact count_textOf more
    unfold OutputBuffer.accept
    rw [hempty, if_neg Bool.false_ne_true]
    dsimp only
    rw [hfull, if_neg Bool.false_ne_true, htail]
    dsimp only
    rw [show Chunk.mk (textOf more) (utf8ByteLength (textOf more)) (countNewlines (textOf more)) = chunkOf more from rfl,
      hdrop']
    refine ⟨htail, hdecoder, rfl, ?_, ?_, ?_, before', parts', ?_, rfl, rfl, rfl, hrest⟩
    · rw [size_append, ← hbytes, ← utf8ByteLength_textOf more]
    · rw [newlines_append, ← hnewlines, ← count_textOf more]
      rfl
    · exact (terminated_append text more hne).symm
    · rw [← heq, htext, List.flatten_append, List.flatten_singleton, List.append_assoc]

def skipOf (text : List Char) : ShellOutputSkip :=
  ⟨Utf8.size text, Env.newlines text, Durable.endsWithNewline (textOf text)⟩

theorem Retains.skip (h : Retains b text) (omitted more : List Char) (hne : omitted ≠ [])
    (hmargin : Margin b.limits more) :
    Retains ((b.skip (skipOf omitted)).accept (textOf more)).1 (text ++ omitted ++ more) := by
  have hpos := size_pos omitted hne
  have hmore : more ≠ [] := hmargin.ne_nil
  have hempty : (textOf more).isEmpty = false := by simpa using hmore
  unfold OutputBuffer.skip OutputBuffer.accept
  rw [if_neg (show ¬ (skipOf omitted).bytes = 0 from Nat.ne_of_gt hpos), hempty, if_neg Bool.false_ne_true]
  dsimp only
  rw [h.full, if_neg Bool.false_ne_true, h.tail]
  refine ⟨h.tail, h.decoder, rfl, ?_, ?_, ?_, text ++ omitted, [more], ?_, rfl, ?_, ?_, .inr ?_⟩
  · rw [size_append, size_append, ← h.totalBytes, ← utf8ByteLength_textOf more]
    rfl
  · rw [newlines_append, newlines_append, ← h.totalNewlines, ← count_textOf more]
    rfl
  · exact (terminated_append (text ++ omitted) more hmore).symm
  · rw [List.flatten_singleton]
  · rw [List.flatten_singleton]
    exact (Nat.zero_add _).trans (utf8ByteLength_textOf more)
  · rw [List.flatten_singleton]
    exact (Nat.zero_add _).trans (count_textOf more)
  · rw [List.flatten_singleton]
    exact hmargin

theorem flush_new : flush .new = [] := rfl

theorem Retains.restart (h : Retains b text) (started : Bool) :
    Retains { b with decoder := .new, started := started } text :=
  ⟨h.1, rfl, h.3, h.4, h.5, h.6, h.7⟩

theorem Retains.push (h : Retains b text) (more : List Char) :
    Retains (b.push (.text (textOf more)) none).1 (text ++ more) := by
  unfold OutputBuffer.push
  dsimp only
  rw [if_pos rfl, if_pos rfl, h.2, flush_new, textOf_nil, List.nil_append]
  exact (h.restart _).accept more

theorem Retains.pushSkipped (h : Retains b text) (omitted more : List Char) (hne : omitted ≠ [])
    (hmargin : Margin b.limits more) :
    Retains (b.push (.text (textOf more)) (some (skipOf omitted))).1 (text ++ omitted ++ more) := by
  unfold OutputBuffer.push
  dsimp only
  rw [if_pos rfl, if_pos rfl, h.2, flush_new, textOf_nil, h.1]
  exact (h.restart _).skip omitted more hne hmargin

theorem stored_parts (parts : List (List Char)) : (parts.map chunkOf).flatMap Chunk.text = textOf parts.flatten := by
  induction parts with
  | nil => rfl
  | cons part parts ih =>
    rw [List.map_cons, List.flatMap_cons, ih, List.flatten_cons, textOf_append]
    rfl

theorem Retains.snapshot (h : Retains b text) : b.snapshot.1 = bounded (textOf text) b.limits := by
  obtain ⟨htail, -, -, hbytes, hnewlines, hends, before, parts, htext, hchunks, -, hsn, hmargin⟩ := h
  have hstored : b.stored = textOf parts.flatten := by
    unfold OutputBuffer.stored
    rw [hchunks, stored_parts]
  have hwindow : window b.limits text = window b.limits parts.flatten := by
    rw [htext, window_append _ _ _ hmargin]
  unfold OutputBuffer.snapshot bounded
  dsimp only
  rw [hstored, boundOutput_tail _ htail, boundOutput_tail _ htail, hwindow, hbytes, hnewlines, hends, hsn, ← lineCount_encode,
    ← lineCount_encode]
  dsimp only
  congr 1
  ring

theorem push_limits (b : OutputBuffer) (chunk : Piece) (skipped : Option ShellOutputSkip) :
    (b.push chunk skipped).1.limits = b.limits := by
  have haccept : ∀ (b : OutputBuffer) text, (b.accept text).1.limits = b.limits := by
    intro b text
    unfold OutputBuffer.accept
    split
    · rfl
    · dsimp only
      split
      · rfl
      · split <;> rfl
  have hskip : ∀ (b : OutputBuffer) skipped, (b.skip skipped).limits = b.limits := by
    intro b skipped
    unfold OutputBuffer.skip
    split <;> rfl
  unfold OutputBuffer.push
  dsimp only
  split
  · exact haccept _ _
  · split
    · rfl
    · rw [haccept, hskip, haccept]

end PiAgent.Harness.Output
