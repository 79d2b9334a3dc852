import Mathlib.Algebra.Ring.Nat
import Mathlib.Algebra.BigOperators.Group.List.Basic

/-!
# Streaming UTF-8

The UTF-8 decoder of the WHATWG encoding standard, byte by byte: an invalid sequence becomes
U+FFFD by the maximal-subpart rule. An ASCII byte always ends what was incomplete, so what
is decoded on both sides of it does not depend on the other side.
-/

namespace PiAgent.Utf8

open List

/-- The code point so far, how many bytes it still needs, and the bounds of the next one. -/
structure Decoder where
  codePoint : ℕ
  needed : ℕ
  lower : ℕ
  upper : ℕ
  deriving DecidableEq

def Decoder.new : Decoder := ⟨0, 0, 0x80, 0xBF⟩

def replacement : Char := Char.ofNat 0xFFFD

def lead (byte : ℕ) : Decoder × List Char :=
  if byte ≤ 0x7F then (.new, [Char.ofNat byte])
  else if 0xC2 ≤ byte ∧ byte ≤ 0xDF then (⟨byte - 0xC0, 1, 0x80, 0xBF⟩, [])
  else if 0xE0 ≤ byte ∧ byte ≤ 0xEF then
    (⟨byte - 0xE0, 2, if byte = 0xE0 then 0xA0 else 0x80, if byte = 0xED then 0x9F else 0xBF⟩, [])
  else if 0xF0 ≤ byte ∧ byte ≤ 0xF4 then
    (⟨byte - 0xF0, 3, if byte = 0xF0 then 0x90 else 0x80, if byte = 0xF4 then 0x8F else 0xBF⟩, [])
  else (.new, [replacement])

/-- One byte. A byte that cannot continue a character is taken again as the first of the next. -/
def step (d : Decoder) (byte : UInt8) : Decoder × List Char :=
  if d.needed = 0 then lead byte.toNat
  else if byte.toNat < d.lower ∨ d.upper < byte.toNat then
    ((lead byte.toNat).1, replacement :: (lead byte.toNat).2)
  else if d.needed = 1 then (.new, [Char.ofNat (d.codePoint * 64 + (byte.toNat - 0x80))])
  else (⟨d.codePoint * 64 + (byte.toNat - 0x80), d.needed - 1, 0x80, 0xBF⟩, [])

/-- Decoding a chunk in the middle of a stream. -/
def feed (d : Decoder) : List UInt8 → Decoder × List Char
  | [] => (d, [])
  | byte :: bytes => ((feed (step d byte).1 bytes).1, (step d byte).2 ++ (feed (step d byte).1 bytes).2)

def flush (d : Decoder) : List Char := if d.needed = 0 then [] else [replacement]

def decode (bytes : List UInt8) : List Char := (feed .new bytes).2 ++ flush (feed .new bytes).1

def size (text : List Char) : ℕ := (text.map Char.utf8Size).sum

@[simp] theorem size_nil : size [] = 0 := rfl

@[simp] theorem size_append (a b : List Char) : size (a ++ b) = size a + size b := by
  simp [size]

variable (d : Decoder)

theorem feed_append (a b : List UInt8) :
    feed d (a ++ b) = ((feed (feed d a).1 b).1, (feed d a).2 ++ (feed (feed d a).1 b).2) := by
  induction a generalizing d with
  | nil => rfl
  | cons byte a ih => simp only [cons_append, feed, ih, append_assoc]

/-! ## Decoders that were fed -/

/-- What holds of a decoder in the middle of a stream: its next character is a scalar value and no ASCII. -/
structure Decoder.Ok (d : Decoder) : Prop where
  lower : 0x80 ≤ d.lower
  upper : d.upper ≤ 0xBF
  needed : d.needed ≤ 3
  one : d.needed = 1 → 2 ≤ d.codePoint ∧ d.codePoint ≤ 0x43FF ∧ (d.codePoint < 0x360 ∨ 0x37F < d.codePoint)
  two : d.needed = 2 →
    d.codePoint ≤ 15 ∧ (d.codePoint = 0 → 0xA0 ≤ d.lower) ∧ (d.codePoint = 13 → d.upper ≤ 0x9F) ∨
      16 ≤ d.codePoint ∧ d.codePoint ≤ 0x10F
  three : d.needed = 3 → d.codePoint ≤ 4 ∧ (d.codePoint = 0 → 0x90 ≤ d.lower) ∧ (d.codePoint = 4 → d.upper ≤ 0x8F)

theorem ok_new : Decoder.new.Ok := by
  constructor <;> simp [Decoder.new]

theorem ok_lead (byte : ℕ) : (lead byte).1.Ok := by
  unfold lead
  split
  · exact ok_new
  · split
    · constructor <;> grind
    · split
      · constructor <;> grind
      · split
        · constructor <;> grind
        · exact ok_new

theorem ok_step (h : d.Ok) (byte : UInt8) : (step d byte).1.Ok := by
  unfold step
  split
  · exact ok_lead _
  · split
    · exact ok_lead _
    · rename_i hrange
      split
      · exact ok_new
      · obtain ⟨hlower, hupper, hneeded, -, htwo, hthree⟩ := h
        constructor <;> simp only <;> omega

theorem ok_feed (h : d.Ok) (bytes : List UInt8) : (feed d bytes).1.Ok := by
  induction bytes generalizing d with
  | nil => exact h
  | cons byte bytes ih => exact ih _ (ok_step d h byte)

theorem scalar_of_ok (h : d.Ok) (byte : ℕ) (hneeded : d.needed = 1) (hlower : d.lower ≤ byte)
    (hupper : byte ≤ d.upper) :
    (d.codePoint * 64 + (byte - 0x80)).isValidChar ∧ 0x80 ≤ d.codePoint * 64 + (byte - 0x80) := by
  obtain ⟨hlow, hup, -, hone, -, -⟩ := h
  obtain ⟨hmin, hmax, hgap⟩ := hone hneeded
  unfold Nat.isValidChar
  omega

theorem toNat_ofNat (n : ℕ) (h : n.isValidChar) : (Char.ofNat n).toNat = n := by
  rw [Char.ofNat, dif_pos h]
  rfl

/-! ## ASCII -/

theorem step_ascii (h : d.Ok) (byte : UInt8) (hascii : byte.toNat ≤ 0x7F) :
    step d byte = (.new, flush d ++ [Char.ofNat byte.toNat]) := by
  have hlead : lead byte.toNat = (.new, [Char.ofNat byte.toNat]) := if_pos hascii
  have hlower := h.lower
  unfold step flush
  split
  · rw [hlead]
    rfl
  · rw [if_pos (Or.inl (by omega)), hlead]
    rfl

theorem decode_ascii (a b : List UInt8) (byte : UInt8) (hascii : byte.toNat ≤ 0x7F) :
    decode (a ++ byte :: b) = decode a ++ Char.ofNat byte.toNat :: decode b := by
  unfold decode
  rw [feed_append]
  simp only [feed]
  rw [step_ascii _ (ok_feed _ ok_new a) byte hascii]
  simp

theorem mem_step (h : d.Ok) (byte : UInt8) (c : Char) (hc : c ∈ (step d byte).2) :
    c.toNat = byte.toNat ∨ 0x80 ≤ c.toNat := by
  have hlead : ∀ c ∈ (lead byte.toNat).2, c.toNat = byte.toNat ∨ 0x80 ≤ c.toNat := by
    intro c hc
    unfold lead at hc
    split at hc
    · rename_i hascii
      rw [mem_singleton.mp hc]
      exact .inl (toNat_ofNat _ (by unfold Nat.isValidChar; omega))
    · split at hc
      · cases hc
      · split at hc
        · cases hc
        · split at hc
          · cases hc
          · rw [mem_singleton.mp hc]
            exact .inr (by decide)
  unfold step at hc
  split at hc
  · exact hlead c hc
  · split at hc
    · rcases mem_cons.mp hc with rfl | hc
      · exact .inr (by decide)
      · exact hlead c hc
    · rename_i hrange
      split at hc
      · rename_i hneeded
        obtain ⟨hvalid, hmin⟩ := scalar_of_ok d h byte.toNat hneeded (by omega) (by omega)
        rw [mem_singleton.mp hc, toNat_ofNat _ hvalid]
        exact .inr hmin
      · cases hc

theorem mem_feed (h : d.Ok) (bytes : List UInt8) (c : Char) (hc : c ∈ (feed d bytes).2) :
    (∃ byte ∈ bytes, c.toNat = byte.toNat) ∨ 0x80 ≤ c.toNat := by
  induction bytes generalizing d with
  | nil => cases hc
  | cons byte bytes ih =>
    rcases mem_append.mp hc with hc | hc
    · exact (mem_step d h byte c hc).imp (fun heq => ⟨byte, mem_cons_self, heq⟩) id
    · exact (ih _ (ok_step d h byte) hc).imp
        (fun ⟨other, hmem, heq⟩ => ⟨other, mem_cons_of_mem _ hmem, heq⟩) id

theorem mem_decode (bytes : List UInt8) (c : Char) (hc : c ∈ decode bytes) :
    (∃ byte ∈ bytes, c.toNat = byte.toNat) ∨ 0x80 ≤ c.toNat := by
  rcases mem_append.mp hc with hc | hc
  · exact mem_feed _ ok_new bytes c hc
  · unfold flush at hc
    split at hc
    · cases hc
    · rw [mem_singleton.mp hc]
      exact .inr (by decide)

theorem splitOn_decode (sep : UInt8) (hascii : sep.toNat ≤ 0x7F) (bytes : List UInt8) :
    (decode bytes).splitOn (Char.ofNat sep.toNat) = (bytes.splitOn sep).map decode := by
  have hsep : (Char.ofNat sep.toNat).toNat = sep.toNat := toNat_ofNat _ (by unfold Nat.isValidChar; omega)
  induction hn : bytes.length using Nat.strongRecOn generalizing bytes with
  | ind n ih =>
    by_cases hmem : sep ∈ bytes
    · obtain ⟨a, b, rfl⟩ := append_of_mem hmem
      have hlen : (a ++ sep :: b).length = a.length + (b.length + 1) := by simp
      rw [decode_ascii a b sep hascii, splitOn_eq_splitOnP, splitOn_eq_splitOnP,
        splitOnP_append_cons _ _ (by simp), splitOnP_append_cons _ _ (by simp), map_append,
        ← splitOn_eq_splitOnP, ← splitOn_eq_splitOnP, ← splitOn_eq_splitOnP, ← splitOn_eq_splitOnP,
        ih a.length (by omega) a rfl, ih b.length (by omega) b rfl]
    · have hno : ∀ byte ∈ bytes, (byte == sep) = false := fun byte hb => by
        simpa using fun heq : byte = sep => hmem (heq ▸ hb)
      have hnoChar : ∀ c ∈ decode bytes, (c == Char.ofNat sep.toNat) = false := by
        intro c hc
        rw [beq_eq_false_iff_ne]
        rintro rfl
        rcases mem_decode bytes _ hc with ⟨byte, hb, heq⟩ | hbig
        · rw [hsep] at heq
          exact hmem (UInt8.toNat.inj heq ▸ hb)
        · omega
      rw [splitOn_eq_splitOnP, splitOn_eq_splitOnP, splitOnP_eq_singleton hno, splitOnP_eq_singleton hnoChar]
      rfl

end PiAgent.Utf8
