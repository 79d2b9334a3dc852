import Mathlib.Data.List.Induction
import PiAgent.Env.LineScan

/-!
# Scanning byte by byte

Where the lines of some bytes start, how that changes with one byte more, and that a chunk is
scanned as its bytes one after the other.
-/

namespace PiAgent.Env

open List Utf8

/-! ## Lines of bytes -/

def lines (bytes : List UInt8) : List (List UInt8) := bytes.splitOn NEWLINE

def lineStart (bytes : List UInt8) (i : ℕ) : ℕ := (((lines bytes).take i).map (fun line => line.length + 1)).sum

def lineEnd (bytes : List UInt8) (i : ℕ) : ℕ := lineStart bytes (i + 1) - 1

theorem lines_append (a b : List UInt8) : lines (a ++ NEWLINE :: b) = lines a ++ lines b := by
  unfold lines
  rw [splitOn_eq_splitOnP, splitOnP_append_cons _ _ (by simp), ← splitOn_eq_splitOnP,
    ← splitOn_eq_splitOnP]

variable (bytes : List UInt8)

theorem lines_plain (h : NEWLINE ∉ bytes) : lines bytes = [bytes] := by
  unfold lines
  rw [splitOn_eq_splitOnP, splitOnP_eq_singleton]
  intro byte hmem
  rw [beq_eq_false_iff_ne]
  rintro rfl
  exact h hmem

theorem lines_newline : lines (bytes ++ [NEWLINE]) = lines bytes ++ [[]] := by
  rw [lines_append]
  rfl

variable (byte : UInt8)

theorem lines_byte (hbyte : byte ≠ NEWLINE) :
    ∃ front last, lines bytes = front ++ [last] ∧ lines (bytes ++ [byte]) = front ++ [last ++ [byte]] := by
  induction hn : bytes.length using Nat.strongRecOn generalizing bytes with
  | ind n ih =>
    by_cases hmem : NEWLINE ∈ bytes
    · obtain ⟨a, b, rfl⟩ := append_of_mem hmem
      obtain ⟨front, last, hlines, hmore⟩ := ih b.length (by simp at hn; omega) b rfl
      refine ⟨lines a ++ front, last, ?_, ?_⟩
      · rw [lines_append, hlines, append_assoc]
      · rw [append_assoc, cons_append, lines_append, hmore, append_assoc]
    · refine ⟨[], bytes, lines_plain bytes hmem, lines_plain _ ?_⟩
      simpa [hmem] using hbyte.symm

theorem length_lines_newline : (lines (bytes ++ [NEWLINE])).length = (lines bytes).length + 1 := by
  rw [lines_newline, length_append]
  rfl

theorem length_lines_byte (hbyte : byte ≠ NEWLINE) : (lines (bytes ++ [byte])).length = (lines bytes).length := by
  obtain ⟨front, last, hlines, hmore⟩ := lines_byte bytes byte hbyte
  rw [hlines, hmore, length_append, length_append]
  rfl

theorem length_lines_pos : 0 < (lines bytes).length :=
  length_pos_iff.mpr (splitOnP_ne_nil _ _)

variable (i : ℕ)

theorem lineStart_newline (h : i ≤ (lines bytes).length) :
    lineStart (bytes ++ [NEWLINE]) i = lineStart bytes i := by
  unfold lineStart
  rw [lines_newline, take_append_of_le_length h]

theorem lineStart_byte (hbyte : byte ≠ NEWLINE) (i : ℕ)
    (h : i < (lines bytes).length) : lineStart (bytes ++ [byte]) i = lineStart bytes i := by
  obtain ⟨front, last, hlines, hmore⟩ := lines_byte bytes byte hbyte
  rw [hlines, length_append, length_singleton] at h
  unfold lineStart
  rw [hlines, hmore, take_append_of_le_length (by omega), take_append_of_le_length (by omega)]

theorem lineStart_length : lineStart bytes (lines bytes).length = bytes.length + 1 := by
  induction bytes using List.reverseRecOn with
  | nil => rfl
  | append_singleton bytes byte ih =>
    unfold lineStart at ih ⊢
    rw [take_length] at ih ⊢
    by_cases hbyte : byte = NEWLINE
    · subst hbyte
      rw [lines_newline, map_append, sum_append, ih]
      simp
    · obtain ⟨front, last, hlines, hmore⟩ := lines_byte bytes byte hbyte
      rw [hlines] at ih
      rw [hmore]
      simp only [map_append, sum_append, map_cons, map_nil, sum_cons, sum_nil,
        length_append, length_singleton] at ih ⊢
      omega

theorem lineStart_succ (h : i < (lines bytes).length) : lineStart bytes i < lineStart bytes (i + 1) := by
  unfold lineStart
  rw [take_succ_eq_append_getElem h]
  simp only [map_append, sum_append, map_cons, map_nil, sum_cons, sum_nil]
  omega

theorem lineStart_mono (i j : ℕ) (hij : i ≤ j) (hj : j ≤ (lines bytes).length) :
    lineStart bytes i ≤ lineStart bytes j := by
  induction j, hij using Nat.le_induction with
  | base => exact le_refl _
  | succ j _ ih =>
    have hstep := lineStart_succ bytes j hj
    have hrest := ih (by omega)
    omega

theorem lineStart_le (h : i < (lines bytes).length) : lineStart bytes i ≤ bytes.length := by
  have hmono := lineStart_mono bytes (i + 1) _ h (le_refl _)
  have hstep := lineStart_succ bytes i h
  rw [lineStart_length] at hmono
  omega

theorem lineEnd_le (h : i < (lines bytes).length) : lineEnd bytes i ≤ bytes.length := by
  have hmono := lineStart_mono bytes (i + 1) _ h (le_refl _)
  rw [lineStart_length] at hmono
  unfold lineEnd
  omega

theorem lineEnd_last : lineEnd bytes ((lines bytes).length - 1) = bytes.length := by
  have hpos := length_lines_pos bytes
  unfold lineEnd
  rw [Nat.sub_add_cancel hpos, lineStart_length]
  omega

/-! ## One byte -/

namespace LineScanner

variable {δ : Type} [Decoding δ]

def feedByte (s : LineScanner δ) (p : ℕ) (byte : UInt8) : LineScanner δ :=
  if s.bom && p < 3 then s else s.decode size [byte]

def feedBytes (s : LineScanner δ) (p : ℕ) : List UInt8 → LineScanner δ
  | [] => s
  | byte :: bytes => feedBytes (s.feedByte p byte) (p + 1) bytes

def newlineAt (s : LineScanner δ) (p : ℕ) : LineScanner δ :=
  let line := s.newlines
  let s := if line = s.startLine then s.endFirstLine size p else s
  let s := if s.isLastLine line then s.endSelection size p else s
  let s := s.feedByte p NEWLINE
  let s := { s with newlines := s.newlines + 1, lineStart := p + 1 }
  let s := if s.newlines = s.startLine then s.begin s.lineStart else s
  if s.isLastLine s.newlines then { s with lastLineStart := some s.lineStart } else s

def scanByte (s : LineScanner δ) (p : ℕ) (byte : UInt8) : LineScanner δ :=
  if byte = NEWLINE then s.newlineAt p else s.feedByte p byte

def scanBytes (s : LineScanner δ) (p : ℕ) : List UInt8 → LineScanner δ
  | [] => s
  | byte :: bytes => scanBytes (s.scanByte p byte) (p + 1) bytes

variable (s : LineScanner δ)

theorem scanBytes_append (p : ℕ) (a b : List UInt8) :
    s.scanBytes p (a ++ b) = (s.scanBytes p a).scanBytes (p + a.length) b := by
  induction a generalizing s p with
  | nil => rfl
  | cons byte a ih =>
    rw [cons_append, scanBytes, ih, scanBytes, length_cons, Nat.add_assoc, Nat.add_comm 1]

theorem scanBytes_plain (p : ℕ) (bytes : List UInt8) (h : NEWLINE ∉ bytes) : s.scanBytes p bytes = s.feedBytes p bytes := by
  induction bytes generalizing s p with
  | nil => rfl
  | cons byte bytes ih =>
    rw [mem_cons, not_or] at h
    rw [scanBytes, feedBytes, scanByte, if_neg (Ne.symm h.1), ih _ _ h.2]

variable [LawfulDecoding δ]

theorem decode_nil : s.decode size [] = s := by
  cases s with
  | mk startLine endLine position newlines lineStart start stop firstLineEnd lastLineStart selectedBytes firstLineBytes
      selection firstLine head bom =>
    cases selection <;> cases firstLine <;> simp [decode, LawfulDecoding.feed_nil]

theorem decode_append (a b : List UInt8) : s.decode size (a ++ b) = (s.decode size a).decode size b := by
  cases s with
  | mk startLine endLine position newlines lineStart start stop firstLineEnd lastLineStart selectedBytes firstLineBytes
      selection firstLine head bom =>
    cases selection <;> cases firstLine <;> simp [decode, LawfulDecoding.feed_append, Nat.add_assoc]

variable (p : ℕ)

theorem feedBytes_eq (bytes : List UInt8) :
    s.feedBytes p bytes = s.decode size (if s.bom then bytes.drop (3 - p) else bytes) := by
  induction bytes generalizing s p with
  | nil => simp [feedBytes, decode_nil]
  | cons byte bytes ih =>
    unfold feedBytes
    rw [ih]
    unfold feedByte
    cases hbom : s.bom with
    | false =>
      rw [if_neg (by simp)]
      rw [show (s.decode size [byte]).bom = s.bom from rfl, hbom, if_neg Bool.false_ne_true, if_neg Bool.false_ne_true,
        ← decode_append]
      rfl
    | true =>
      by_cases hp : p < 3
      · rw [if_pos (by simpa using hp), hbom, if_pos rfl, if_pos rfl, show 3 - p = (3 - (p + 1)) + 1 by omega,
          drop_succ_cons]
      · rw [if_neg (by simpa using hp)]
        rw [show (s.decode size [byte]).bom = s.bom from rfl, hbom, if_pos rfl, if_pos rfl, show 3 - (p + 1) = 0 by omega,
          show 3 - p = 0 by omega, ← decode_append]
        rfl

variable (chunk : List UInt8)

theorem feed_eq (base lo hi : ℕ) :
    s.feed size chunk base lo hi = s.feedBytes (base + lo) ((chunk.take hi).drop lo) := by
  rw [feedBytes_eq]
  unfold feed
  have hnone : ∀ k, hi ≤ k → (chunk.take hi).drop k = [] := fun k hk =>
    drop_eq_nil_of_le ((length_take_le _ _).trans hk)
  by_cases hmark : (s.bom && decide (base + lo < 3)) = true
  · rw [if_pos hmark]
    obtain ⟨hbom, hbase⟩ := Bool.and_eq_true_iff.mp hmark
    have hlt : base + lo < 3 := of_decide_eq_true hbase
    rw [hbom, if_pos rfl, drop_drop, show lo + (3 - (base + lo)) = 3 - base by omega]
    dsimp only
    split
    · rw [hnone _ (by omega), decode_nil]
    · rw [min_eq_right (by omega)]
  · rw [if_neg hmark]
    have hdrop : (if s.bom = true then ((chunk.take hi).drop lo).drop (3 - (base + lo)) else (chunk.take hi).drop lo)
        = (chunk.take hi).drop lo := by
      split
      · rename_i hbom
        have hge : ¬ base + lo < 3 := by simpa [hbom] using hmark
        rw [show 3 - (base + lo) = 0 by omega, drop_zero]
      · rfl
    rw [hdrop]
    dsimp only
    split
    · rename_i hle
      rw [hnone lo hle, decode_nil]
    · rfl

theorem passNewline_eq (base lo index : ℕ) (hat : chunk[index]? = some NEWLINE) :
    s.passNewline size chunk base lo index =
      (s.feedBytes (base + lo) ((chunk.take index).drop lo)).newlineAt (base + index) := by
  have hone : (chunk.take (index + 1)).drop index = [NEWLINE] := by
    obtain ⟨hlt, hget⟩ := List.getElem?_eq_some_iff.mp hat
    rw [take_succ_eq_append_getElem hlt, hget, drop_append, length_take, min_eq_left (by omega),
      Nat.sub_self, drop_eq_nil_of_le (length_take_le _ _)]
    rfl
  unfold passNewline newlineAt
  rw [feed_eq]
  simp only [feed_eq, hone]
  rfl

theorem processFrom_eq (base lo : ℕ) :
    s.processFrom size chunk base lo = s.scanBytes (base + lo) (chunk.drop lo) := by
  induction hn : chunk.length - lo using Nat.strongRecOn generalizing s lo with
  | ind n ih =>
    unfold processFrom
    split
    · rename_i hno
      have hplain : NEWLINE ∉ chunk.drop lo := by
        simpa [indexOfNewline] using hno
      rw [feed_eq, take_length, scanBytes_plain _ _ _ hplain]
    · rename_i index hindex
      obtain ⟨hlo, hlt⟩ := indexOfNewline_lt chunk lo index hindex
      obtain ⟨i, hi, rfl⟩ := Option.map_eq_some_iff.mp hindex
      obtain ⟨hbound, hat, hbefore⟩ := idxOf?_eq_some_iff.mp hi
      rw [getElem_drop] at hat
      have hget : chunk[lo + i]? = some NEWLINE := List.getElem?_eq_some_iff.mpr ⟨hlt, hat⟩
      have hsplit : chunk.drop lo = (chunk.take (lo + i)).drop lo ++ NEWLINE :: chunk.drop (lo + i + 1) := by
        rw [drop_take, Nat.add_sub_cancel_left]
        calc chunk.drop lo = (chunk.drop lo).take i ++ (chunk.drop lo).drop i := (List.take_append_drop i _).symm
          _ = (chunk.drop lo).take i ++ NEWLINE :: chunk.drop (lo + i + 1) := by
            rw [drop_drop, drop_eq_getElem_cons hlt, hat]
      have hplain : NEWLINE ∉ (chunk.take (lo + i)).drop lo := by
        rw [drop_take, Nat.add_sub_cancel_left]
        intro hmem
        obtain ⟨j, hj, hjat⟩ := getElem_of_mem hmem
        rw [length_take] at hj
        rw [getElem_take] at hjat
        exact hbefore j (by omega) hjat
      have hlen : ((chunk.take (lo + i)).drop lo).length = i := by
        rw [length_drop, length_take]
        omega
      rw [ih _ (by omega) _ (lo + i + 1) rfl, passNewline_eq _ _ _ _ _ hget, hsplit, scanBytes_append,
        scanBytes_plain _ _ _ hplain, hlen, scanBytes, scanByte, if_pos rfl]
      rw [Nat.add_assoc base lo i, Nat.add_assoc base (lo + i) 1]

end LineScanner

end PiAgent.Env
