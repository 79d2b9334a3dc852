import PiAgent.Env.ScanBytes

/-! # A line scan is exact -/

namespace PiAgent.Env

open Utf8 hiding feed flush

open Decoding (new feed flush)

/-! ## A range of lines -/

variable {δ : Type} [Decoding δ]

/-- The range of the lines from `first` up to `endLine`, after some bytes: not begun, open or ended. The bytes from the
start of line `first` on are `mark`, which is not decoded, and those that were decoded. -/
structure Tracks (first : ℕ) (endLine : Option ℕ) (mark bytes : List UInt8) (decoder : Option δ) (total : ℕ)
    (stop : Option ℕ) : Prop where
  before : (lines bytes).length ≤ first → decoder = none ∧ total = 0 ∧ stop = none
  during : first < (lines bytes).length → (∀ e, endLine = some e → (lines bytes).length ≤ e) → stop = none ∧
    ∃ body, bytes.drop (lineStart bytes first) = mark ++ body ∧ decoder = some (feed new body).1 ∧
      total = size (feed (new : δ) body).2
  after : first < (lines bytes).length → ∀ e, endLine = some e → e < (lines bytes).length → decoder = none ∧
    stop = some (lineEnd bytes (e - 1)) ∧
      ∃ body, (bytes.take (lineEnd bytes (e - 1))).drop (lineStart bytes first) = mark ++ body ∧ total = size (decode body)

theorem drop_snoc (bytes : List UInt8) (byte : UInt8) (k : ℕ) (h : k ≤ bytes.length) :
    (bytes ++ [byte]).drop k = bytes.drop k ++ [byte] := by
  rw [List.drop_append_of_le_length h]

theorem take_snoc (bytes : List UInt8) (byte : UInt8) (k : ℕ) (h : k ≤ bytes.length) :
    (bytes ++ [byte]).take k = bytes.take k := by
  rw [List.take_append_of_le_length h]

section Range

variable [LawfulDecoding δ]

theorem feed_snoc (body : List UInt8) (byte : UInt8) : feed (new : δ) (body ++ [byte]) =
    ((feed (feed new body).1 [byte]).1, (feed (new : δ) body).2 ++ (feed (feed (new : δ) body).1 [byte]).2) :=
  LawfulDecoding.feed_append new body [byte]

theorem size_decode (body : List UInt8) :
    size (decode body) = size (feed (new : δ) body).2 + size (flush (feed (new : δ) body).1) := by
  rw [← @LawfulDecoding.decode δ _ _ body, size_append]

variable (first : ℕ) (endLine : Option ℕ) (mark bytes : List UInt8) (decoder : Option δ) (total : ℕ)
  (stop : Option ℕ)

section

variable (h : Tracks first endLine mark bytes decoder total stop)
include h

theorem Tracks.byte (hvalid : ∀ e, endLine = some e → first < e) (byte : UInt8) (hbyte : byte ≠ NEWLINE) :
    Tracks first endLine mark (bytes ++ [byte]) (decoder.map (fun d => (feed d [byte]).1))
      (total + decoder.elim 0 (fun d => size (feed d [byte]).2)) stop := by
  have hlen := length_lines_byte bytes byte hbyte
  refine ⟨fun hn => ?_, fun hn he => ?_, fun hn e he hend => ?_⟩
  · rw [hlen] at hn
    obtain ⟨rfl, rfl, rfl⟩ := h.before hn
    exact ⟨rfl, rfl, rfl⟩
  · rw [hlen] at hn
    obtain ⟨rfl, body, hbody, rfl, rfl⟩ := h.during hn (fun e heq => hlen ▸ he e heq)
    refine ⟨rfl, body ++ [byte], ?_, ?_, ?_⟩
    · rw [lineStart_byte bytes byte hbyte first hn, drop_snoc _ _ _ (lineStart_le bytes first hn), hbody, List.append_assoc]
    · rw [feed_snoc]
      rfl
    · rw [feed_snoc, size_append]
      rfl
  · rw [hlen] at hn hend
    obtain ⟨rfl, rfl, body, hbody, rfl⟩ := h.after hn e he hend
    have hpos := hvalid e he
    have hstop : lineEnd (bytes ++ [byte]) (e - 1) = lineEnd bytes (e - 1) := by
      unfold lineEnd
      rw [lineStart_byte bytes byte hbyte _ (by omega)]
    refine ⟨rfl, by rw [hstop], body, ?_, rfl⟩
    rw [hstop, lineStart_byte bytes byte hbyte first hn, take_snoc _ _ _ (lineEnd_le bytes _ (by omega)), hbody]

theorem Tracks.newline (hvalid : ∀ e, endLine = some e → first < e) (hmark : first ≠ 0 → mark = []) :
    Tracks first endLine mark (bytes ++ [NEWLINE])
      (if (lines bytes).length = first then some new
        else if endLine = some (lines bytes).length then none else decoder.map (fun d => (feed d [NEWLINE]).1))
      (if endLine = some (lines bytes).length then total + decoder.elim 0 (fun d => size (flush d))
        else total + decoder.elim 0 (fun d => size (feed d [NEWLINE]).2))
      (if endLine = some (lines bytes).length then some bytes.length else stop) := by
  have hlen := length_lines_newline bytes
  have hpos := length_lines_pos bytes
  refine ⟨fun hn => ?_, fun hn he => ?_, fun hn e he hend => ?_⟩
  · rw [hlen] at hn
    obtain ⟨rfl, rfl, rfl⟩ := h.before (by omega)
    have hno : endLine ≠ some (lines bytes).length := fun heq => by
      have := hvalid _ heq
      omega
    rw [if_neg (by omega), if_neg hno, if_neg hno, if_neg hno]
    exact ⟨rfl, rfl, rfl⟩
  · rw [hlen] at hn he
    have hno : endLine ≠ some (lines bytes).length := fun heq => by
      have := he _ heq
      omega
    rw [if_neg hno, if_neg hno, if_neg hno]
    by_cases hbegin : (lines bytes).length = first
    · obtain ⟨rfl, rfl, rfl⟩ := h.before (le_of_eq hbegin)
      refine ⟨rfl, [], ?_, ?_, by rw [LawfulDecoding.feed_nil]; rfl⟩
      · rw [hmark (by omega), ← hbegin, lineStart_newline bytes _ (le_refl _), lineStart_length,
          List.drop_eq_nil_of_le (by simp)]
        rfl
      · rw [if_pos hbegin, LawfulDecoding.feed_nil]
    · obtain ⟨rfl, body, hbody, rfl, rfl⟩ := h.during (by omega) (fun e heq => by have := he e heq; omega)
      refine ⟨rfl, body ++ [NEWLINE], ?_, ?_, ?_⟩
      · rw [lineStart_newline bytes first (by omega), drop_snoc _ _ _ (lineStart_le bytes first (by omega)), hbody,
          List.append_assoc]
      · rw [feed_snoc, if_neg hbegin]
        rfl
      · rw [feed_snoc, size_append]
        rfl
  · rw [hlen] at hn hend
    have hfirst := hvalid e he
    have hstop : lineEnd (bytes ++ [NEWLINE]) (e - 1) = lineEnd bytes (e - 1) := by
      unfold lineEnd
      rw [lineStart_newline bytes _ (by omega)]
    rw [hstop, lineStart_newline bytes first (by omega), take_snoc _ _ _ (lineEnd_le bytes _ (by omega)),
      if_neg (by omega)]
    by_cases hclose : e = (lines bytes).length
    · subst hclose
      obtain ⟨rfl, body, hbody, rfl, rfl⟩ := h.during hfirst (fun e' heq => by
        rw [he] at heq
        exact le_of_eq (Option.some.inj heq))
      rw [if_pos he, if_pos he, if_pos he, lineEnd_last, List.take_length]
      refine ⟨rfl, rfl, body, hbody, ?_⟩
      exact (size_decode body).symm
    · have hno : endLine ≠ some (lines bytes).length := fun heq => by
        rw [he] at heq
        exact hclose (Option.some.inj heq)
      obtain ⟨rfl, rfl, body, hbody, rfl⟩ := h.after (by omega) e he (by omega)
      rw [if_neg hno, if_neg hno, if_neg hno]
      exact ⟨rfl, rfl, body, hbody, rfl⟩

theorem Tracks.close (hfirst : first < (lines bytes).length) (last : ℕ)
    (hlast : last = endLine.elim ((lines bytes).length - 1) (fun e => min (e - 1) ((lines bytes).length - 1))) :
    ∃ body, (bytes.take (lineEnd bytes last)).drop (lineStart bytes first) = mark ++ body ∧
      (stop.getD bytes.length) = lineEnd bytes last ∧
      (if stop.isNone then total + decoder.elim 0 (fun d => size (flush d)) else total) = size (decode body) := by
  by_cases hopen : ∀ e, endLine = some e → (lines bytes).length ≤ e
  · obtain ⟨rfl, body, hbody, rfl, rfl⟩ := h.during hfirst hopen
    have heq : last = (lines bytes).length - 1 := by
      rw [hlast]
      cases hend : endLine with
      | none => rfl
      | some e => exact min_eq_right (by have := hopen e hend; omega)
    rw [heq, lineEnd_last, List.take_length]
    refine ⟨body, hbody, rfl, ?_⟩
    exact (size_decode body).symm
  · rw [not_forall] at hopen
    obtain ⟨e, hopen⟩ := hopen
    rw [Classical.not_imp] at hopen
    obtain ⟨he, hlt⟩ := hopen
    obtain ⟨rfl, rfl, body, hbody, rfl⟩ := h.after hfirst e he (by omega)
    have heq : last = e - 1 := by
      rw [hlast, he]
      exact min_eq_left (by omega)
    rw [heq]
    exact ⟨body, hbody, rfl, rfl⟩

end

end Range

/-! ## A scanner after some bytes -/

def markOf (first : ℕ) (mark : List UInt8) : List UInt8 := if first = 0 then mark else []

structure Scanned (first : ℕ) (endLine : Option ℕ) (mark bytes : List UInt8) (s : LineScanner δ) : Prop where
  begins : s.startLine = first
  ends : s.endLine = endLine
  head : s.head = none
  bom : s.bom = true → 3 ≤ bytes.length
  newlines : s.newlines + 1 = (lines bytes).length
  lineStart : s.lineStart = lineStart bytes s.newlines
  start : s.start = if first < (lines bytes).length then some (Env.lineStart bytes first) else none
  lastLineStart : s.lastLineStart = endLine.bind (fun e =>
    if e ≤ (lines bytes).length then some (Env.lineStart bytes (e - 1)) else none)
  selection : Tracks first endLine (markOf first mark) bytes s.selection s.selectedBytes s.stop
  firstLine : Tracks first (some (first + 1)) (markOf first mark) bytes s.firstLine s.firstLineBytes s.firstLineEnd

theorem LineScanner.newlineAt_eq (s : LineScanner δ) (p : ℕ) (hfed : (s.bom && decide (p < 3)) = false) :
    s.newlineAt p = { s with
      newlines := s.newlines + 1
      lineStart := p + 1
      start := if s.newlines + 1 = s.startLine then some (p + 1) else s.start
      lastLineStart := if s.endLine = some (s.newlines + 2) then some (p + 1) else s.lastLineStart
      selection :=
        if s.newlines + 1 = s.startLine then some Decoding.new
        else if s.endLine = some (s.newlines + 1) then none else s.selection.map (fun d => (Decoding.feed d [NEWLINE]).1)
      selectedBytes :=
        if s.endLine = some (s.newlines + 1) then s.selectedBytes + s.selection.elim 0 (fun d => size (Decoding.flush d))
        else s.selectedBytes + s.selection.elim 0 (fun d => size (Decoding.feed d [NEWLINE]).2)
      stop := if s.endLine = some (s.newlines + 1) then some p else s.stop
      firstLine :=
        if s.newlines + 1 = s.startLine then some Decoding.new
        else if s.newlines = s.startLine then none else s.firstLine.map (fun d => (Decoding.feed d [NEWLINE]).1)
      firstLineBytes :=
        if s.newlines = s.startLine then s.firstLineBytes + s.firstLine.elim 0 (fun d => size (Decoding.flush d))
        else s.firstLineBytes + s.firstLine.elim 0 (fun d => size (Decoding.feed d [NEWLINE]).2)
      firstLineEnd := if s.newlines = s.startLine then some p else s.firstLineEnd } := by
  unfold newlineAt
  by_cases h1 : s.newlines = s.startLine
  · have h3 : ¬ s.newlines + 1 = s.startLine := by omega
    by_cases h2 : s.endLine = some (s.newlines + 1)
    · simp [h1, h2, hfed, endFirstLine, endSelection, feedByte, decode, isLastLine]
    · by_cases h4 : s.endLine = some (s.newlines + 2)
      · simp [h1, h4, hfed, endFirstLine, feedByte, decode, isLastLine]
      · simp only [h1] at h2 h4
        simp [h1, h2, h4, hfed, endFirstLine, feedByte, decode, isLastLine]
  · by_cases h2 : s.endLine = some (s.newlines + 1)
    · by_cases h3 : s.newlines + 1 = s.startLine
      · simp [h2, h3.symm, hfed, endSelection, feedByte, decode, isLastLine, begin]
      · simp [h1, h2, h3, hfed, endSelection, feedByte, decode, isLastLine]
    · by_cases h3 : s.newlines + 1 = s.startLine
      · by_cases h4 : s.endLine = some (s.newlines + 2)
        · simp [h3.symm, h4, hfed, feedByte, decode, isLastLine, begin]
        · simp [h2, h3.symm, h4, hfed, feedByte, decode, isLastLine, begin]
      · by_cases h4 : s.endLine = some (s.newlines + 2)
        · simp [h1, h3, h4, hfed, feedByte, decode, isLastLine]
        · simp [h1, h2, h3, h4, hfed, feedByte, decode, isLastLine]

section Scan

variable (first : ℕ) (endLine : Option ℕ) (mark bytes : List UInt8) (s : LineScanner δ)

theorem scanBytes_position (p : ℕ) (more : List UInt8) : (s.scanBytes p more).position = s.position := by
  have hbyte : ∀ (s : LineScanner δ) p byte, (s.scanByte p byte).position = s.position := by
    intro s p byte
    unfold LineScanner.scanByte LineScanner.newlineAt LineScanner.feedByte
    dsimp only
    split_ifs <;> rfl
  induction more generalizing s p with
  | nil => rfl
  | cons byte more ih => exact (ih _ _).trans (hbyte s p byte)

theorem Scanned.position (h : Scanned first endLine mark bytes s) (n : ℕ) :
    Scanned first endLine mark bytes { s with position := n } :=
  ⟨h.begins, h.ends, h.head, h.bom, h.newlines, h.lineStart, h.start, h.lastLineStart, h.selection, h.firstLine⟩

variable [LawfulDecoding δ]

section

variable (h : Scanned first endLine mark bytes s) (hvalid : ∀ e, endLine = some e → first < e)
include h hvalid

theorem Scanned.byte (byte : UInt8) (hbyte : byte ≠ NEWLINE) :
    Scanned first endLine mark (bytes ++ [byte]) (s.scanByte bytes.length byte) := by
  have hlen := length_lines_byte bytes byte hbyte
  have hfed : s.scanByte bytes.length byte = s.decode size [byte] := by
    unfold LineScanner.scanByte LineScanner.feedByte
    rw [if_neg hbyte, if_neg]
    intro hmark
    obtain ⟨hbom, hlt⟩ := Bool.and_eq_true_iff.mp hmark
    have hge := h.bom hbom
    have := of_decide_eq_true hlt
    omega
  rw [hfed]
  refine ⟨h.begins, h.ends, h.head, fun hbom => ?_, ?_, ?_, ?_, ?_,
    h.selection.byte _ _ _ _ _ _ _ hvalid byte hbyte,
    h.firstLine.byte _ _ _ _ _ _ _ (fun e he => by cases he; omega) byte hbyte⟩
  · have := h.bom hbom
    rw [List.length_append]
    omega
  · rw [hlen]
    exact h.newlines
  · have hn := h.newlines
    rw [show (s.decode size [byte]).newlines = s.newlines from rfl, lineStart_byte bytes byte hbyte _ (by omega)]
    exact h.lineStart
  · rw [hlen, show (s.decode size [byte]).start = s.start from rfl, h.start]
    split
    · rename_i hlt
      rw [lineStart_byte bytes byte hbyte first hlt]
    · rfl
  · rw [hlen, show (s.decode size [byte]).lastLineStart = s.lastLineStart from rfl, h.lastLineStart]
    congr 1
    funext e
    split
    · rename_i hle
      have hpos := length_lines_pos bytes
      rw [lineStart_byte bytes byte hbyte _ (by omega)]
    · rfl

theorem Scanned.newline :
    Scanned first endLine mark (bytes ++ [NEWLINE]) (s.scanByte bytes.length NEWLINE) := by
  have hlen := length_lines_newline bytes
  have hn := h.newlines
  have hfed : (s.bom && decide (bytes.length < 3)) = false := by
    cases hbom : s.bom with
    | false => rfl
    | true =>
      have hge := h.bom hbom
      rw [Bool.true_and, decide_eq_false_iff_not]
      omega
  have hmark : first ≠ 0 → markOf first mark = [] := fun hne => if_neg hne
  have hselection := h.selection.newline _ _ _ _ _ _ _ hvalid hmark
  have hfirst := h.firstLine.newline _ _ _ _ _ _ _ (fun e he => by cases he; omega) hmark
  rw [← hn] at hselection hfirst
  have hone : (some (first + 1) = some (s.newlines + 1)) = (s.newlines = first) := by
    rw [Option.some.injEq]
    exact propext ⟨fun heq => by omega, fun heq => by omega⟩
  simp only [hone] at hfirst
  unfold LineScanner.scanByte
  rw [if_pos rfl, s.newlineAt_eq _ hfed]
  refine ⟨h.begins, h.ends, h.head, fun hbom => ?_, ?_, ?_, ?_, ?_, ?_, ?_⟩
  · have hge := h.bom hbom
    rw [List.length_append]
    omega
  · rw [hlen, ← hn]
  · dsimp only
    rw [lineStart_newline bytes _ (by omega), hn, lineStart_length]
  · dsimp only
    rw [hlen, h.begins, h.start, ← hn]
    by_cases hbegin : s.newlines + 1 = first
    · rw [if_pos hbegin, if_pos (by omega), ← hbegin, hn, lineStart_newline bytes _ (le_refl _), lineStart_length]
    · rw [if_neg hbegin]
      split
      · rw [if_pos (by omega), lineStart_newline bytes _ (by omega)]
      · rw [if_neg (by omega)]
  · dsimp only
    rw [h.ends, h.lastLineStart, hlen, ← hn]
    cases hend : endLine with
    | none => simp
    | some e =>
      rw [Option.bind_some, Option.bind_some]
      by_cases hlast : e = s.newlines + 2
      · rw [if_pos (congrArg some hlast), if_pos (by omega), hlast, show s.newlines + 2 - 1 = (lines bytes).length by omega,
          lineStart_newline bytes _ (le_refl _), lineStart_length]
      · rw [if_neg (fun heq => hlast (Option.some.inj heq))]
        split
        · rw [if_pos (by omega), lineStart_newline bytes _ (by omega)]
        · rw [if_neg (by omega)]
  · dsimp only
    rw [h.ends, h.begins]
    exact hselection
  · dsimp only
    rw [h.begins]
    exact hfirst

theorem Scanned.scanByte (byte : UInt8) :
    Scanned first endLine mark (bytes ++ [byte]) (s.scanByte bytes.length byte) := by
  by_cases hbyte : byte = NEWLINE
  · subst hbyte
    exact h.newline _ _ _ _ _ hvalid
  · exact h.byte _ _ _ _ _ hvalid byte hbyte

theorem Scanned.scanBytes (more : List UInt8) :
    Scanned first endLine mark (bytes ++ more) (s.scanBytes bytes.length more) := by
  induction more generalizing bytes s with
  | nil => rwa [List.append_nil]
  | cons byte more ih =>
    have hnext := ih (bytes ++ [byte]) _ (h.scanByte _ _ _ _ _ hvalid byte)
    rw [List.append_assoc, List.length_append] at hnext
    exact hnext

end

theorem Scanned.process (h : Scanned first endLine mark bytes s) (hvalid : ∀ e, endLine = some e → first < e)
    (hposition : s.position = bytes.length) (chunk : List UInt8) :
    Scanned first endLine mark (bytes ++ chunk) (s.process size chunk) ∧
      (s.process size chunk).position = (bytes ++ chunk).length := by
  have hscan := h.scanBytes _ _ _ _ _ hvalid chunk
  unfold LineScanner.process
  rw [LineScanner.processFrom_eq, hposition, List.drop_zero, Nat.add_zero]
  refine ⟨hscan.position _ _ _ _ _ _, ?_⟩
  dsimp only
  rw [scanBytes_position, hposition, List.length_append]

end Scan

end PiAgent.Env
