import Mathlib.Logic.Function.Basic
import PiAgent.Lib.Utf8

/-!
# Encoding UTF-8

What is encoded is decoded again, and where the characters begin in encoded bytes.
-/

namespace PiAgent.Utf8

open List

def encode (text : List Char) : List UInt8 := text.flatMap String.utf8EncodeChar

@[simp] theorem encode_nil : encode [] = [] := rfl

variable (c : Char) (text : List Char)

@[simp] theorem encode_cons : encode (c :: text) = String.utf8EncodeChar c ++ encode text := rfl

@[simp] theorem encode_append (a b : List Char) : encode (a ++ b) = encode a ++ encode b := flatMap_append

theorem length_encode : (encode text).length = size text := by
  induction text with
  | nil => rfl
  | cons c text ih =>
    rw [encode_cons, length_append, ih, String.length_utf8EncodeChar]
    simp [size]

theorem size_cons : size (c :: text) = c.utf8Size + size text := by
  simp [size]

theorem size_pos (h : text ≠ []) : 0 < size text := by
  obtain ⟨c, rest, rfl⟩ := exists_cons_of_ne_nil h
  have := c.utf8Size_pos
  rw [size_cons]
  omega

/-! ## Decoding -/

variable (n : ℕ)

theorem toNat_byte (h : n < 256) : (UInt8.ofNat n).toNat = n := UInt8.toNat_ofNat_of_lt h

theorem step_first (hn : n < 256) : step .new (.ofNat n) = lead n := by
  unfold step
  rw [toNat_byte n hn]
  exact if_pos rfl

theorem step_inside (codePoint needed lower upper n : ℕ) (hn : n < 256) (hneeded : needed ≠ 0) (hlower : lower ≤ n)
    (hupper : n ≤ upper) :
    step ⟨codePoint, needed, lower, upper⟩ (.ofNat n) =
      if needed = 1 then (.new, [Char.ofNat (codePoint * 64 + (n - 0x80))])
      else (⟨codePoint * 64 + (n - 0x80), needed - 1, 0x80, 0xBF⟩, []) := by
  unfold step
  rw [toNat_byte n hn]
  dsimp only
  rw [if_neg hneeded, if_neg (by omega)]

theorem step_last (codePoint lower upper n : ℕ) (c : Char) (hn : n < 256) (hlower : lower ≤ n) (hupper : n ≤ upper)
    (hc : codePoint * 64 + (n - 0x80) = c.toNat) : step ⟨codePoint, 1, lower, upper⟩ (.ofNat n) = (.new, [c]) := by
  rw [step_inside _ _ _ _ n hn Nat.one_ne_zero hlower hupper, if_pos rfl, hc, Char.ofNat_toNat]

theorem step_middle (codePoint needed lower upper n : ℕ) (hn : n < 256) (hneeded : 2 ≤ needed) (hlower : lower ≤ n)
    (hupper : n ≤ upper) :
    step ⟨codePoint, needed, lower, upper⟩ (.ofNat n) = (⟨codePoint * 64 + (n - 0x80), needed - 1, 0x80, 0xBF⟩, []) := by
  rw [step_inside _ _ _ _ n hn (by omega) hlower hupper, if_neg (by omega)]

theorem lead_two (h : 0xC2 ≤ n) (hn : n ≤ 0xDF) : lead n = (⟨n - 0xC0, 1, 0x80, 0xBF⟩, []) := by
  unfold lead
  rw [if_neg (by omega), if_pos ⟨h, hn⟩]

theorem lead_three (h : 0xE0 ≤ n) (hn : n ≤ 0xEF) :
    lead n = (⟨n - 0xE0, 2, if n = 0xE0 then 0xA0 else 0x80, if n = 0xED then 0x9F else 0xBF⟩, []) := by
  unfold lead
  rw [if_neg (by omega), if_neg (by omega), if_pos ⟨h, hn⟩]

theorem lead_four (h : 0xF0 ≤ n) (hn : n ≤ 0xF4) :
    lead n = (⟨n - 0xF0, 3, if n = 0xF0 then 0x90 else 0x80, if n = 0xF4 then 0x8F else 0xBF⟩, []) := by
  unfold lead
  rw [if_neg (by omega), if_neg (by omega), if_neg (by omega), if_pos ⟨h, hn⟩]

theorem feed_utf8EncodeChar : feed .new (String.utf8EncodeChar c) = (.new, [c]) := by
  have hvalid : c.toNat < 0xD800 ∨ 0xDFFF < c.toNat ∧ c.toNat < 0x110000 := c.valid
  unfold String.utf8EncodeChar
  rw [show c.val.toNat = c.toNat from rfl]
  dsimp only
  split
  · rename_i hascii
    unfold feed feed
    rw [step_first _ (by omega), show lead c.toNat = (.new, [Char.ofNat c.toNat]) from if_pos hascii, Char.ofNat_toNat]
    rfl
  · split
    · unfold feed feed feed
      rw [step_first _ (by omega), lead_two _ (by omega) (by omega)]
      dsimp only
      rw [step_last _ _ _ _ c (by omega) (by omega) (by omega) (by omega)]
      rfl
    · split
      · unfold feed feed feed feed
        rw [step_first _ (by omega), lead_three _ (by omega) (by omega)]
        dsimp only
        rw [step_middle _ _ _ _ (c.toNat / 64 % 64 + 0x80) (by omega) (by omega) (by split <;> omega) (by split <;> omega)]
        dsimp only
        rw [step_last _ _ _ _ c (by omega) (by omega) (by omega) (by omega)]
        rfl
      · unfold feed feed feed feed feed
        rw [step_first _ (by omega), lead_four _ (by omega) (by omega)]
        dsimp only
        rw [step_middle _ _ _ _ (c.toNat / 4096 % 64 + 0x80) (by omega) (by omega) (by split <;> omega)
          (by split <;> omega)]
        dsimp only
        rw [step_middle _ _ _ _ (c.toNat / 64 % 64 + 0x80) (by omega) (by omega) (by omega) (by omega)]
        dsimp only
        rw [step_last _ _ _ _ c (by omega) (by omega) (by omega) (by omega)]
        rfl

theorem feed_encode : feed .new (encode text) = (.new, text) := by
  induction text with
  | nil => rfl
  | cons c text ih =>
    rw [encode_cons, feed_append, feed_utf8EncodeChar]
    dsimp only
    rw [ih]
    rfl

theorem decode_encode : decode (encode text) = text := by
  unfold decode
  rw [feed_encode]
  exact append_nil _

/-! ## Where characters begin -/

/-- `(byte & 0xc0) === 0x80` -/
def isContinuation (byte : UInt8) : Bool := byte &&& 0xC0 == 0x80

theorem isContinuation_iff (byte : UInt8) : isContinuation byte = true ↔ 0x80 ≤ byte.toNat ∧ byte.toNat ≤ 0xBF := by
  have hall : ∀ n : Fin 256, isContinuation (UInt8.ofNat n.val) = true ↔ 0x80 ≤ n.val ∧ n.val ≤ 0xBF := by
    decide +kernel
  have h := hall ⟨byte.toNat, byte.toNat_lt⟩
  rwa [UInt8.ofNat_toNat] at h

theorem isContinuation_more : isContinuation (.ofNat (n % 64 + 0x80)) = true := by
  rw [isContinuation_iff, toNat_byte _ (by omega)]
  omega

theorem isContinuation_first (hn : n < 256) (h : n ≤ 0x7F ∨ 0xC0 ≤ n) : isContinuation (.ofNat n) = false := by
  rw [← Bool.not_eq_true, isContinuation_iff, toNat_byte n hn]
  omega

theorem utf8EncodeChar_shape : ∃ first rest, String.utf8EncodeChar c = first :: rest ∧
    isContinuation first = false ∧ (∀ byte ∈ rest, isContinuation byte = true) ∧
    (first.toNat = c.toNat ∨ 0xC0 ≤ first.toNat) := by
  unfold String.utf8EncodeChar
  rw [show c.val.toNat = c.toNat from rfl]
  dsimp only
  split
  · exact ⟨_, _, rfl, isContinuation_first _ (by omega) (by omega), by simp, .inl (toNat_byte _ (by omega))⟩
  · split
    · refine ⟨_, _, rfl, isContinuation_first _ (by omega) (by omega), ?_, .inr (by rw [toNat_byte _ (by omega)]; omega)⟩
      simp only [forall_mem_singleton]
      exact isContinuation_more _
    · split
      · refine ⟨_, _, rfl, isContinuation_first _ (by omega) (by omega), ?_, .inr (by rw [toNat_byte _ (by omega)]; omega)⟩
        simp only [forall_mem_cons]
        exact ⟨isContinuation_more _, isContinuation_more _, by simp⟩
      · refine ⟨_, _, rfl, isContinuation_first _ (by omega) (by omega), ?_, .inr (by rw [toNat_byte _ (by omega)]; omega)⟩
        simp only [forall_mem_cons]
        exact ⟨isContinuation_more _, isContinuation_more _, isContinuation_more _, by simp⟩

/-- An index at which no character is in the middle. -/
def Boundary (bytes : List UInt8) (i : ℕ) : Prop :=
  i ≤ bytes.length ∧ ∀ byte, bytes[i]? = some byte → isContinuation byte = false

variable (i : ℕ)

theorem Boundary.split (h : Boundary (encode text) i) : ∃ a b, text = a ++ b ∧ (encode a).length = i := by
  induction text generalizing i with
  | nil => exact ⟨[], [], rfl, (Nat.le_zero.mp h.1).symm⟩
  | cons c text ih =>
    obtain ⟨hle, hbyte⟩ := h
    rw [encode_cons] at hle hbyte
    obtain ⟨first, rest, hshape, -, hrest, -⟩ := utf8EncodeChar_shape c
    rcases Nat.eq_zero_or_pos i with hzero | hpos
    · exact ⟨[], c :: text, rfl, hzero.symm⟩
    · rcases Nat.lt_or_ge i (String.utf8EncodeChar c).length with hin | hout
      · -- a byte inside of the character continues it
        have hget : (String.utf8EncodeChar c ++ encode text)[i]? = some (String.utf8EncodeChar c)[i] := by
          rw [getElem?_append_left hin, getElem?_eq_getElem hin]
        have hmem : (String.utf8EncodeChar c)[i] ∈ rest := by
          obtain ⟨j, rfl⟩ := Nat.exists_eq_add_of_lt hpos
          simp only [hshape, Nat.zero_add, getElem_cons_succ]
          exact getElem_mem _
        have hfalse := hbyte _ hget
        rw [hrest _ hmem] at hfalse
        cases hfalse
      · rw [length_append] at hle
        have hrec : Boundary (encode text) (i - (String.utf8EncodeChar c).length) := by
          refine ⟨by omega, fun byte hget => hbyte byte ?_⟩
          rw [getElem?_append_right hout]
          exact hget
        obtain ⟨a, b, rfl, hlength⟩ := ih _ hrec
        refine ⟨c :: a, b, rfl, ?_⟩
        rw [encode_cons, length_append, hlength]
        omega

theorem boundary_split (a b : List Char) : Boundary (encode (a ++ b)) (encode a).length := by
  rw [encode_append]
  refine ⟨by simp, fun byte hget => ?_⟩
  rw [getElem?_append_right (le_refl _), Nat.sub_self] at hget
  cases b with
  | nil => cases hget
  | cons c b =>
    obtain ⟨first, rest, hshape, hfirst, -, -⟩ := utf8EncodeChar_shape c
    rw [encode_cons, hshape] at hget
    cases hget
    exact hfirst

/-- The last index at or before an index at which no character is in the middle. -/
def boundaryBefore (bytes : List UInt8) : ℕ → ℕ
  | 0 => 0
  | i + 1 => if isContinuation (bytes[i + 1]?.getD 0) then boundaryBefore bytes i else i + 1

/-- The first index at or after an index at which no character is in the middle. -/
def boundaryAfter (bytes : List UInt8) (i : ℕ) : ℕ := i + ((bytes.drop i).takeWhile isContinuation).length

theorem boundaryBefore_le (bytes : List UInt8) (i : ℕ) : boundaryBefore bytes i ≤ i := by
  induction i with
  | zero => exact le_refl _
  | succ i ih =>
    unfold boundaryBefore
    split <;> omega

theorem le_boundaryAfter (bytes : List UInt8) (i : ℕ) : i ≤ boundaryAfter bytes i := Nat.le_add_right _ _

theorem boundary_zero : Boundary (encode text) 0 := boundary_split [] text

theorem boundary_boundaryBefore (h : i ≤ (encode text).length) :
    Boundary (encode text) (boundaryBefore (encode text) i) := by
  induction i with
  | zero => exact boundary_zero text
  | succ i ih =>
    unfold boundaryBefore
    split
    · exact ih (by omega)
    · rename_i hno
      refine ⟨h, fun byte hget => ?_⟩
      rw [hget] at hno
      exact Bool.eq_false_iff.mpr hno

theorem getElem?_length_takeWhile {α : Type} (p : α → Bool) (l : List α) :
    l[(l.takeWhile p).length]? = (l.dropWhile p).head? := by
  induction l with
  | nil => rfl
  | cons a l ih =>
    rw [takeWhile_cons, dropWhile_cons]
    split
    · rw [length_cons, getElem?_cons_succ, ih]
    · rfl

theorem boundary_boundaryAfter (h : i ≤ (encode text).length) :
    Boundary (encode text) (boundaryAfter (encode text) i) := by
  unfold boundaryAfter
  have hlength := (List.takeWhile_prefix isContinuation (l := (encode text).drop i)).length_le
  rw [length_drop] at hlength
  refine ⟨by omega, fun byte hget => ?_⟩
  have hhead := head?_dropWhile_not isContinuation ((encode text).drop i)
  rw [← getElem?_length_takeWhile, getElem?_drop, hget] at hhead
  simpa using hhead

theorem boundaryAfter_append (a b : List UInt8) (i : ℕ) : boundaryAfter (a ++ b) (a.length + i) = a.length + boundaryAfter b i := by
  unfold boundaryAfter
  rw [drop_append, drop_eq_nil_of_le (by omega), nil_append, Nat.add_sub_cancel_left]
  omega

theorem boundaryAfter_le : boundaryAfter (encode text) i ≤ i + 3 := by
  induction text generalizing i with
  | nil => simp [boundaryAfter]
  | cons c text ih =>
    obtain ⟨first, rest, hshape, hfirst, hrest, -⟩ := utf8EncodeChar_shape c
    have hlength : (first :: rest).length ≤ 4 := by
      rw [← hshape, String.length_utf8EncodeChar]
      exact c.utf8Size_le_four
    rw [encode_cons, hshape]
    rcases Nat.lt_or_ge i (first :: rest).length with hin | hout
    · rcases i with _ | i
      · simp [boundaryAfter, hfirst]
      · -- the rest of this character, and the next one begins
        have hnext : ((encode text).takeWhile isContinuation) = [] := by
          cases text with
          | nil => rfl
          | cons d text =>
            obtain ⟨next, more, hnext, hno, -, -⟩ := utf8EncodeChar_shape d
            rw [encode_cons, hnext, cons_append, takeWhile_cons_of_neg (by rw [hno]; exact Bool.false_ne_true)]
        unfold boundaryAfter
        rw [drop_append_of_le_length (by omega), drop_succ_cons,
          takeWhile_append_of_pos (fun byte hmem => hrest byte (mem_of_mem_drop hmem)), hnext, append_nil,
          length_drop]
        rw [length_cons] at hlength
        omega
    · obtain ⟨j, rfl⟩ := Nat.exists_eq_add_of_le hout
      rw [boundaryAfter_append]
      have := ih j
      omega

/-! ## ASCII in encoded bytes -/

theorem count_encode (byte : UInt8) (hascii : byte.toNat ≤ 0x7F) (text : List Char) :
    (encode text).count byte = text.count (Char.ofNat byte.toNat) := by
  induction text with
  | nil => rfl
  | cons c text ih =>
    rw [encode_cons, count_append, ih, count_cons, Nat.add_comm]
    congr 1
    obtain ⟨first, rest, hshape, -, hrest, hfirst⟩ := utf8EncodeChar_shape c
    have hnone : rest.count byte = 0 := by
      refine count_eq_zero.mpr (fun hmem => ?_)
      have := (isContinuation_iff byte).mp (hrest byte hmem)
      omega
    rw [hshape, count_cons, hnone, Nat.zero_add]
    have hofNat : (Char.ofNat byte.toNat).toNat = byte.toNat := toNat_ofNat _ (by unfold Nat.isValidChar; omega)
    have hiff : first = byte ↔ c = Char.ofNat byte.toNat := by
      refine ⟨fun heq => ?_, fun heq => ?_⟩
      · subst heq
        rcases hfirst with hsame | hbig
        · rw [hsame, Char.ofNat_toNat]
        · omega
      · have hc : c.toNat = byte.toNat := by rw [heq, hofNat]
        have hone : String.utf8EncodeChar c = [.ofNat c.toNat] := if_pos (show c.toNat ≤ 0x7F by omega)
        rw [hone, hc, UInt8.ofNat_toNat] at hshape
        exact (List.cons.inj hshape).1.symm
    simp [hiff]

end PiAgent.Utf8
