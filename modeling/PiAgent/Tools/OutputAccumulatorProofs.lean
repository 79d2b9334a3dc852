import Mathlib.Data.List.Induction
import PiAgent.Tools.OutputAccumulator

/-! # What an accumulator keeps -/

namespace PiAgent.Tools.OutputAccumulator

open List Durable Env Utf8

/-- A kept text is all of the text, or more than a window of it, and it is known whether a line starts with it. -/
def Kept (maxBytes : ℕ) (before tail : List Char) (startsAtLineBoundary : Bool) : Prop :=
  before = [] ∧ startsAtLineBoundary = true ∨
    before ≠ [] ∧ startsAtLineBoundary = endsWithNewline (textOf before) ∧ 2 * maxBytes ≤ Utf8.size tail + 3

theorem Kept.append {maxBytes : ℕ} {before tail : List Char} {starts : Bool} (h : Kept maxBytes before tail starts)
    (more : List Char) : Kept maxBytes before (tail ++ more) starts := by
  refine h.imp id (fun ⟨hne, hstarts, hsize⟩ => ⟨hne, hstarts, ?_⟩)
  rw [size_append]
  omega

structure Tracks (acc : OutputAccumulator) (text : List Char) : Prop where
  maxRollingBytes : acc.maxRollingBytes = max (acc.maxBytes * 2) 1
  totalDecodedBytes : acc.totalDecodedBytes = Utf8.size text
  completedLines : acc.completedLines = newlines text
  hasOpenLine : acc.hasOpenLine = !((textOf text).isEmpty || endsWithNewline (textOf text))
  totalLines : acc.totalLines = acc.completedLines + (if acc.hasOpenLine then 1 else 0)
  tail : ∃ before tail : List Char, text = before ++ tail ∧ acc.tailText = textOf tail ∧ acc.tailBytes = Utf8.size tail ∧
    Kept acc.maxBytes before tail acc.tailStartsAtLineBoundary

theorem tracks_new (maxLines maxBytes : ℕ) : Tracks (new maxLines maxBytes) [] :=
  ⟨rfl, rfl, rfl, rfl, rfl, [], [], rfl, rfl, rfl, .inl ⟨rfl, rfl⟩⟩

variable (acc : OutputAccumulator)

theorem trimTail_spec (before tail : List Char) (htail : acc.tailText = textOf tail)
    (hrolling : acc.maxRollingBytes = max (acc.maxBytes * 2) 1)
    (h : Kept acc.maxBytes before tail acc.tailStartsAtLineBoundary) :
    ∃ (before' tail' : List Char) (starts : Bool), before ++ tail = before' ++ tail' ∧ acc.trimTail = { acc with
        tailStartsAtLineBoundary := starts, tailText := textOf tail', tailBytes := Utf8.size tail' } ∧
      Kept acc.maxBytes before' tail' starts := by
  have hlength := length_encode tail
  unfold trimTail
  dsimp only
  rw [htail, encodeText_textOf]
  split
  · exact ⟨before, tail, acc.tailStartsAtLineBoundary, rfl, by rw [← htail, hlength], h⟩
  · rename_i hlong
    -- the cut is at a character, and not at the start
    have hboundary := boundary_boundaryAfter tail ((encode tail).length - acc.maxRollingBytes) (Nat.sub_le _ _)
    have hmax := boundaryAfter_le tail ((encode tail).length - acc.maxRollingBytes)
    have hmin := le_boundaryAfter (encode tail) ((encode tail).length - acc.maxRollingBytes)
    obtain ⟨dropped, kept, rfl, hdropped⟩ := hboundary.split
    rw [← hdropped] at hmax hmin ⊢
    rw [encode_append, drop_left, decodeText_encode, utf8ByteLength_textOf]
    rw [encode_append, length_append] at hmax hmin hlong hlength
    have hpos : 0 < (encode dropped).length := by omega
    have hne : dropped ≠ [] := by
      rintro rfl
      simp at hpos
    refine ⟨before ++ dropped, kept, _, (append_assoc _ _ _).symm, rfl, .inr ⟨by simp [hne], ?_, ?_⟩⟩
    · rw [if_neg (by omega), textOf_append, endsWithNewline_append _ _ (by rwa [Ne, textOf_eq_nil])]
      have hlast : (encode dropped ++ encode kept)[(encode dropped).length - 1]? = (encode dropped).getLast? := by
        rw [getElem?_append_left (by omega), getLast?_eq_getElem?]
      unfold endsWithNewline
      rw [hlast, decide_eq_decide, (getLast_newline dropped).1, (getLast_newline dropped).2]
    · rw [← length_encode kept]
      omega

theorem afterLastNewline_isEmpty (text : JsString) (h : text ≠ []) :
    (afterLastNewline text).isEmpty = endsWithNewline text := by
  obtain ⟨init, last, rfl⟩ := text.eq_nil_or_concat'.resolve_left h
  unfold afterLastNewline endsWithNewline
  rw [reverse_append, reverse_singleton, singleton_append, getLast?_concat]
  by_cases hlast : last = newline
  · rw [takeWhile_cons_of_neg (by simpa using hlast)]
    simpa using hlast
  · rw [takeWhile_cons_of_pos (by simpa using hlast)]
    simp [hlast]

variable {acc : OutputAccumulator} {text : List Char}

theorem Tracks.appendDecodedText (h : Tracks acc text) (more : List Char) :
    Tracks (acc.appendDecodedText (textOf more)) (text ++ more) := by
  obtain ⟨hrolling, hbytes, hcompleted, hopen, hlines, before, tail, htext, htail, htailBytes, hkept⟩ := h
  rcases Decidable.em (more = []) with rfl | hne
  · rw [append_nil]
    exact ⟨hrolling, hbytes, hcompleted, hopen, hlines, before, tail, htext, htail, htailBytes, hkept⟩
  · have hmore : textOf more ≠ [] := by rwa [Ne, textOf_eq_nil]
    unfold OutputAccumulator.appendDecodedText
    rw [isEmpty_eq_false_iff.mpr hmore, if_neg Bool.false_ne_true]
    dsimp only
    -- the kept text, trimmed or not
    obtain ⟨before', tail', starts, heq, hroll, hkept'⟩ : ∃ (before' tail' : List Char) (starts : Bool),
        text ++ more = before' ++ tail' ∧
        (if acc.tailBytes + utf8ByteLength (textOf more) > acc.maxRollingBytes * 2 then
          trimTail { acc with totalDecodedBytes := acc.totalDecodedBytes + utf8ByteLength (textOf more)
                              tailText := acc.tailText ++ textOf more
                              tailBytes := acc.tailBytes + utf8ByteLength (textOf more) }
        else { acc with totalDecodedBytes := acc.totalDecodedBytes + utf8ByteLength (textOf more)
                        tailText := acc.tailText ++ textOf more
                        tailBytes := acc.tailBytes + utf8ByteLength (textOf more) }) =
          { acc with totalDecodedBytes := acc.totalDecodedBytes + utf8ByteLength (textOf more)
                     tailStartsAtLineBoundary := starts, tailText := textOf tail', tailBytes := Utf8.size tail' } ∧
        Kept acc.maxBytes before' tail' starts := by
      have htail' : acc.tailText ++ textOf more = textOf (tail ++ more) := by rw [htail, textOf_append]
      split
      · obtain ⟨before', tail', starts, heq, htrim, hkept'⟩ := trimTail_spec
          { acc with totalDecodedBytes := acc.totalDecodedBytes + utf8ByteLength (textOf more)
                     tailText := acc.tailText ++ textOf more, tailBytes := acc.tailBytes + utf8ByteLength (textOf more) }
          before (tail ++ more) htail' hrolling (hkept.append more)
        exact ⟨before', tail', starts, by rw [htext, append_assoc, heq], htrim, hkept'⟩
      · refine ⟨before, tail ++ more, acc.tailStartsAtLineBoundary, by rw [htext, append_assoc], ?_, hkept.append more⟩
        rw [htail', size_append, htailBytes, utf8ByteLength_textOf]
    rw [hroll]
    have hends := terminated_append text more hne
    have hcount : (textOf more).count newline = newlines more := count_textOf more
    have hsize : acc.totalDecodedBytes + utf8ByteLength (textOf more) = Utf8.size (text ++ more) := by
      rw [size_append, hbytes, utf8ByteLength_textOf]
    split
    · rename_i hzero
      refine ⟨hrolling, hsize, ?_, ?_, rfl, before', tail', heq, rfl, rfl, hkept'⟩
      · rw [newlines_append, ← hcount, hzero, hcompleted]
        rfl
      · have hno : endsWithNewline (textOf more) = false := by
          rw [Bool.eq_false_iff]
          intro hlast
          exact count_eq_zero.mp hzero (mem_of_getLast? (of_decide_eq_true hlast))
        rw [hends, hno]
        rfl
    · refine ⟨hrolling, hsize, ?_, ?_, rfl, before', tail', heq, rfl, rfl, hkept'⟩
      · rw [newlines_append, ← hcount, hcompleted]
      · rw [hends]
        dsimp only
        rw [afterLastNewline_isEmpty _ hmore]

/-! ## Runs -/

def files (acc : OutputAccumulator) : ℕ × ℕ × TextDecoder × List (List UInt8) × Bool × Option (List UInt8) :=
  (acc.maxLines, acc.maxBytes, acc.decoder, acc.rawChunks, acc.finished, acc.tempFile)

variable (acc : OutputAccumulator)

theorem files_appendDecodedText (text : JsString) : files (acc.appendDecodedText text) = files acc := by
  have htrim : ∀ acc : OutputAccumulator, files acc.trimTail = files acc := by
    intro acc
    unfold trimTail
    dsimp only
    split <;> rfl
  have hif : ∀ (p : Prop) [Decidable p] (a b : OutputAccumulator), files a = files acc → files b = files acc →
      files (if p then a else b) = files acc := by
    intro p _ a b ha hb
    split
    · exact ha
    · exact hb
  unfold OutputAccumulator.appendDecodedText
  refine hif _ _ _ rfl ?_
  dsimp only
  have hroll := hif (acc.tailBytes + utf8ByteLength text > acc.maxRollingBytes * 2) _ _ (htrim
    { acc with totalDecodedBytes := acc.totalDecodedBytes + utf8ByteLength text, tailText := acc.tailText ++ text
               tailBytes := acc.tailBytes + utf8ByteLength text }) (show files
    { acc with totalDecodedBytes := acc.totalDecodedBytes + utf8ByteLength text, tailText := acc.tailText ++ text
               tailBytes := acc.tailBytes + utf8ByteLength text } = files acc from rfl)
  split <;> exact hroll

structure Reached (maxLines maxBytes : ℕ) (acc : OutputAccumulator) (ops : List Op) : Prop where
  tracks : Tracks acc (decodedChars ops)
  maxLines : acc.maxLines = maxLines
  maxBytes : acc.maxBytes = maxBytes
  finished : acc.finished = ops.any isFinish
  decoder : acc.finished = false → acc.decoder = TextDecoder.new.next (appended ops).flatten
  file : acc.tempFile.getD acc.rawChunks.flatten = (appended ops).flatten

variable {acc : OutputAccumulator}

theorem Tracks.written {text : List Char} (h : Tracks acc text) (rawChunks : List (List UInt8))
    (tempFile : Option (List UInt8)) : Tracks { acc with rawChunks := rawChunks, tempFile := tempFile } text :=
  ⟨h.maxRollingBytes, h.totalDecodedBytes, h.completedLines, h.hasOpenLine, h.totalLines, h.tail⟩

theorem Tracks.decoded {text : List Char} (h : Tracks acc text) (decoder : TextDecoder)
    (totalRawBytes : ℕ) (finished : Bool) :
    Tracks { acc with decoder := decoder, totalRawBytes := totalRawBytes, finished := finished } text :=
  ⟨h.maxRollingBytes, h.totalDecodedBytes, h.completedLines, h.hasOpenLine, h.totalLines, h.tail⟩

theorem ensureTempFile_spec (acc : OutputAccumulator) : ∃ rawChunks content, acc.ensureTempFile =
    { acc with rawChunks := rawChunks, tempFile := some content } ∧ content = acc.tempFile.getD acc.rawChunks.flatten := by
  unfold ensureTempFile
  split
  · rename_i content hfile
    exact ⟨acc.rawChunks, content, by rw [← hfile], by rw [hfile]; rfl⟩
  · rename_i hfile
    exact ⟨[], acc.rawChunks.flatten, rfl, by rw [hfile]; rfl⟩

theorem appended_concat (ops : List Op) (op : Op) : appended (ops ++ [op]) = appended ops ++
    (if ops.any isFinish then [] else match op with
      | .append data => [data]
      | _ => []) := by
  induction ops with
  | nil => cases op <;> rfl
  | cons first ops ih =>
    cases first with
    | append data => exact congrArg (data :: ·) ih
    | finish => rfl
    | snapshot persist => exact ih

variable {maxLines maxBytes : ℕ}

section

variable {acc : OutputAccumulator} {ops : List Op} (h : Reached maxLines maxBytes acc ops)
include h

theorem reached_finished (hfinished : acc.finished = true) (op : Op) :
    Reached maxLines maxBytes acc (ops ++ [op]) := by
  obtain ⟨htracks, hlines, hbytes, hany, hdecoder, hfile⟩ := h
  have hsome : ops.any isFinish = true := hany.symm.trans hfinished
  have happended : appended (ops ++ [op]) = appended ops := by
    rw [appended_concat, hsome, if_pos rfl, append_nil]
  have hdecoded : decodedChars (ops ++ [op]) = decodedChars ops := by
    unfold decodedChars
    rw [happended, any_append, hsome, Bool.true_or]
  refine ⟨hdecoded ▸ htracks, hlines, hbytes, ?_, fun hno => ?_, happended ▸ hfile⟩
  · rw [any_append, hsome, Bool.true_or, hfinished]
  · rw [hfinished] at hno
    cases hno

theorem reached_ensureTempFile : Reached maxLines maxBytes acc.ensureTempFile ops := by
  obtain ⟨rawChunks, content, heq, hcontent⟩ := ensureTempFile_spec acc
  rw [heq]
  exact ⟨h.tracks.written _ _, h.maxLines, h.maxBytes, h.finished, h.decoder, hcontent.trans h.file⟩

end

theorem write_spec (acc : OutputAccumulator) (data : List UInt8) : ∃ rawChunks tempFile,
    acc.write data = { acc with rawChunks := rawChunks, tempFile := tempFile } ∧
      tempFile.getD rawChunks.flatten = acc.tempFile.getD acc.rawChunks.flatten ++ data := by
  unfold write
  split
  · obtain ⟨rawChunks, content, heq, hcontent⟩ := ensureTempFile_spec acc
    dsimp only
    rw [heq]
    exact ⟨rawChunks, some (content ++ data), rfl, congrArg (· ++ data) hcontent⟩
  · rename_i hno
    have hnone : acc.tempFile = none := by
      rw [Bool.or_eq_true, not_or] at hno
      simpa using hno.1
    split
    · exact ⟨acc.rawChunks ++ [data], acc.tempFile, rfl, by rw [hnone]; simp⟩
    · rename_i hempty
      have hdata : data = [] := length_eq_zero_iff.mp (by omega)
      exact ⟨acc.rawChunks, acc.tempFile, rfl, by rw [hdata, append_nil]⟩

section

variable {acc : OutputAccumulator} {ops : List Op} (h : Reached maxLines maxBytes acc ops)
include h

theorem received_spec (hfinished : acc.finished = false) (data : List UInt8) :
    Tracks (acc.received data) (decodedChars ops ++ acc.decoder.decode data) ∧
      files (acc.received data) = (maxLines, maxBytes, acc.decoder.next data, acc.rawChunks, false, acc.tempFile) := by
  refine ⟨(h.tracks.decoded (acc.decoder.next data) (acc.totalRawBytes + data.length) acc.finished).appendDecodedText _, ?_⟩
  unfold received
  rw [files_appendDecodedText, ← h.maxLines, ← h.maxBytes, ← hfinished]
  rfl

theorem reached_append (data : List UInt8) :
    Reached maxLines maxBytes (acc.step (.append data)) (ops ++ [.append data]) := by
  show Reached maxLines maxBytes ((acc.append data).getD acc) (ops ++ [.append data])
  unfold OutputAccumulator.append
  rcases hfinished : acc.finished with _ | _
  · have hnone : ops.any isFinish = false := h.finished.symm.trans hfinished
    have happended : (appended (ops ++ [.append data])).flatten = (appended ops).flatten ++ data := by
      rw [appended_concat, hnone, if_neg Bool.false_ne_true, flatten_append, flatten_singleton]
    have hdecoded : decodedChars (ops ++ [.append data]) = decodedChars ops ++ acc.decoder.decode data := by
      unfold decodedChars
      rw [happended, any_append, hnone, h.decoder hfinished, TextDecoder.decode_append]
      simp [isFinish]
    obtain ⟨htracks, hfiles⟩ := received_spec h hfinished data
    obtain ⟨rawChunks, tempFile, hwrite, hwritten⟩ := write_spec (acc.received data) data
    unfold files at hfiles
    simp only [Prod.mk.injEq] at hfiles
    obtain ⟨hlines, hbytes, hdecoder, hchunks, hfin, hfile⟩ := hfiles
    rw [if_neg Bool.false_ne_true, Option.getD_some, hwrite]
    refine ⟨hdecoded ▸ htracks.written rawChunks tempFile, hlines, hbytes, ?_, fun _ => ?_, ?_⟩
    · rw [any_append, hnone]
      exact hfin
    · rw [happended, TextDecoder.next_append, ← h.decoder hfinished]
      exact hdecoder
    · rw [happended, ← h.file, ← hfile, ← hchunks]
      exact hwritten
  · rw [if_pos rfl]
    exact reached_finished h hfinished _

theorem reached_finish : Reached maxLines maxBytes (acc.step .finish) (ops ++ [.finish]) := by
  show Reached maxLines maxBytes acc.finish (ops ++ [.finish])
  unfold OutputAccumulator.finish
  rcases hfinished : acc.finished with _ | _
  · have hnone : ops.any isFinish = false := h.finished.symm.trans hfinished
    have happended : appended (ops ++ [.finish]) = appended ops := by
      rw [appended_concat, hnone, if_neg Bool.false_ne_true, append_nil]
    have hdecoded : decodedChars (ops ++ [.finish]) = decodedChars ops ++ acc.decoder.finish := by
      unfold decodedChars
      rw [happended, any_append, hnone, h.decoder hfinished]
      simp [isFinish]
    have hfiles : files acc.flushed = (maxLines, maxBytes, .new, acc.rawChunks, true, acc.tempFile) := by
      unfold flushed
      rw [files_appendDecodedText, ← h.maxLines, ← h.maxBytes]
      rfl
    have htracks : Tracks acc.flushed (decodedChars ops ++ acc.decoder.finish) :=
      (h.tracks.decoded .new acc.totalRawBytes true).appendDecodedText _
    unfold files at hfiles
    simp only [Prod.mk.injEq] at hfiles
    obtain ⟨hlines, hbytes, -, hchunks, hfin, hfile⟩ := hfiles
    have hflushed : Reached maxLines maxBytes acc.flushed (ops ++ [.finish]) := by
      refine ⟨hdecoded ▸ htracks, hlines, hbytes, ?_, fun hno => ?_, ?_⟩
      · rw [hfin, any_append]
        simp [isFinish]
      · rw [hfin] at hno
        cases hno
      · rw [happended, hfile, hchunks]
        exact h.file
    rw [if_neg Bool.false_ne_true]
    split
    · exact reached_ensureTempFile hflushed
    · exact hflushed
  · rw [if_pos rfl]
    exact reached_finished h hfinished _

theorem reached_snapshot (persist : Bool) :
    Reached maxLines maxBytes (acc.step (.snapshot persist)) (ops ++ [.snapshot persist]) := by
  have happended : appended (ops ++ [.snapshot persist]) = appended ops := by
    rw [appended_concat]
    split <;> exact append_nil _
  have hany : (ops ++ [Op.snapshot persist]).any isFinish = ops.any isFinish := by
    rw [any_append]
    exact Bool.or_false _
  have hdecoded : decodedChars (ops ++ [.snapshot persist]) = decodedChars ops := by
    unfold decodedChars
    rw [happended, hany]
  have hsame : ∀ acc, Reached maxLines maxBytes acc ops → Reached maxLines maxBytes acc (ops ++ [.snapshot persist]) :=
    fun acc h => ⟨hdecoded ▸ h.tracks, h.maxLines, h.maxBytes, hany ▸ h.finished, happended ▸ h.decoder, happended ▸ h.file⟩
  show Reached maxLines maxBytes (if persist && acc.truncation.truncated then acc.ensureTempFile else acc) _
  split
  · exact hsame _ (reached_ensureTempFile h)
  · exact hsame _ h

end

theorem reached_run (maxLines maxBytes : ℕ) (ops : List Op) :
    Reached maxLines maxBytes ((new maxLines maxBytes).run ops) ops := by
  induction ops using List.reverseRecOn with
  | nil => exact ⟨tracks_new maxLines maxBytes, rfl, rfl, rfl, fun _ => rfl, rfl⟩
  | append_singleton ops op ih =>
    unfold run at ih ⊢
    rw [foldl_append, foldl_cons, foldl_nil]
    cases op with
    | append data => exact reached_append ih data
    | finish => exact reached_finish ih
    | snapshot persist => exact reached_snapshot ih persist

end PiAgent.Tools.OutputAccumulator
