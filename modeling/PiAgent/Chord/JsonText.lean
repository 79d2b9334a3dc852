import Mathlib.Data.Nat.Digits.Defs
import PiAgent.Chord.Json
import PiAgent.Lib.Unambiguous

/-!
# The text of JSON strings and integers

`JSON.stringify` of a string: short escapes, `\u` escapes in lower-case hex for the
other control characters and for a surrogate without its partner.
-/

namespace PiAgent

open List

def hexDigit (n : ℕ) : UInt16 := if n < 10 then (48 + n).toUInt16 else (87 + n).toUInt16

def isHighSurrogate (u : UInt16) : Bool := 0xD800 ≤ u && u ≤ 0xDBFF

def isLowSurrogate (u : UInt16) : Bool := 0xDC00 ≤ u && u ≤ 0xDFFF

/-- `\uhhhh` -/
def unicodeEscape (u : UInt16) : JsString :=
  [92, 117, hexDigit (u.toNat / 4096), hexDigit (u.toNat / 256 % 16), hexDigit (u.toNat / 16 % 16),
    hexDigit (u.toNat % 16)]

/-- The letters of the short escapes, by code unit. -/
def shortEscape (u : UInt16) : Option UInt16 :=
  if u = 34 then some 34 else if u = 92 then some 92 else if u = 8 then some 98 else if u = 12 then some 102
  else if u = 10 then some 110 else if u = 13 then some 114 else if u = 9 then some 116 else none

/-- One code unit that is not half of a surrogate pair. -/
def quoteUnit (u : UInt16) : JsString :=
  match shortEscape u with
  | some e => [92, e]
  | none => if u < 32 || isHighSurrogate u || isLowSurrogate u then unicodeEscape u else [u]

def quoteBody : JsString → JsString
  | [] => []
  | [u] => quoteUnit u
  | u :: v :: rest =>
    if isHighSurrogate u && isLowSurrogate v then u :: v :: quoteBody rest
    else quoteUnit u ++ quoteBody (v :: rest)

/-- `JSON.stringify` of a string. -/
def quote (s : JsString) : JsString := 34 :: (quoteBody s ++ [34])

/-! ## Reading a string back -/

def unhex (c : UInt16) : ℕ := if c < 58 then c.toNat - 48 else c.toNat - 87

def unescape (e : UInt16) : Option UInt16 :=
  if e = 34 then some 34 else if e = 92 then some 92 else if e = 98 then some 8 else if e = 102 then some 12
  else if e = 110 then some 10 else if e = 114 then some 13 else if e = 116 then some 9 else none

/-- The string up to the closing quote, and what follows it. -/
def unquoteBody : JsString → Option (JsString × JsString)
  | 92 :: 117 :: a :: b :: c :: d :: rest =>
    (unquoteBody rest).map
      (fun p => ((unhex a * 4096 + unhex b * 256 + unhex c * 16 + unhex d).toUInt16 :: p.1, p.2))
  | 92 :: e :: rest => (unescape e).bind (fun u => (unquoteBody rest).map (fun p => (u :: p.1, p.2)))
  | 34 :: rest => some ([], rest)
  | u :: rest => (unquoteBody rest).map (fun p => (u :: p.1, p.2))
  | [] => none

variable (n : ℕ)

theorem unhex_hexDigit (h : n < 16) : unhex (hexDigit n) = n := by
  have hall : ∀ m : Fin 16, unhex (hexDigit m) = m := by decide
  exact hall ⟨n, h⟩

theorem unescape_shortEscape (u e : UInt16) (h : shortEscape u = some e) : unescape e = some u ∧ e ≠ 117 := by
  unfold shortEscape at h
  split_ifs at h <;> obtain rfl := Option.some.inj h <;> subst_vars <;> decide

variable (u : UInt16)

theorem shortEscape_none (h : shortEscape u = none) : u ≠ 34 ∧ u ≠ 92 := by
  constructor <;> rintro rfl <;> simp [shortEscape] at h

variable (r : JsString)

theorem unquoteBody_plain (hq : u ≠ 34) (hb : u ≠ 92) :
    unquoteBody (u :: r) = (unquoteBody r).map (fun p => (u :: p.1, p.2)) := by
  rw [unquoteBody.eq_def]
  split <;> simp_all

theorem unquoteBody_short (u e : UInt16) (r : JsString) (h : shortEscape u = some e) :
    unquoteBody (92 :: e :: r) = (unquoteBody r).map (fun p => (u :: p.1, p.2)) := by
  obtain ⟨he, hne⟩ := unescape_shortEscape u e h
  rw [unquoteBody.eq_2 _ _ (fun _ _ _ _ _ h' _ => hne h'), he, Option.bind_some]

theorem unquoteBody_unicode :
    unquoteBody (unicodeEscape u ++ r) = (unquoteBody r).map (fun p => (u :: p.1, p.2)) := by
  have hu := u.toNat_lt
  have hval : (u.toNat / 4096 * 4096 + u.toNat / 256 % 16 * 256 + u.toNat / 16 % 16 * 16 + u.toNat % 16).toUInt16
      = u := by
    rw [show u.toNat / 4096 * 4096 + u.toNat / 256 % 16 * 256 + u.toNat / 16 % 16 * 16 + u.toNat % 16 = u.toNat
      by omega]
    simp
  simp only [unicodeEscape, cons_append, nil_append, unquoteBody]
  rw [unhex_hexDigit _ (by omega), unhex_hexDigit _ (by omega), unhex_hexDigit _ (by omega),
    unhex_hexDigit _ (by omega), hval]

theorem unquoteBody_unit : unquoteBody (quoteUnit u ++ r) = (unquoteBody r).map (fun p => (u :: p.1, p.2)) := by
  unfold quoteUnit
  split
  · next e he => exact unquoteBody_short u e r he
  · next hn =>
    split
    · exact unquoteBody_unicode u r
    · obtain ⟨hq, hb⟩ := shortEscape_none u hn
      exact unquoteBody_plain u r hq hb

theorem surrogate_plain (h : isHighSurrogate u = true ∨ isLowSurrogate u = true) : u ≠ 34 ∧ u ≠ 92 := by
  constructor <;> rintro rfl <;> simp [isHighSurrogate, isLowSurrogate] at h

theorem unquoteBody_quoteBody (s r : JsString) : unquoteBody (quoteBody s ++ 34 :: r) = some (s, r) := by
  fun_induction quoteBody s with
  | case1 => rfl
  | case2 u => rw [unquoteBody_unit]; rfl
  | case3 u v rest h ih =>
    -- A surrogate pair stands as it is.
    rw [Bool.and_eq_true] at h
    obtain ⟨hu, hu'⟩ := surrogate_plain u (Or.inl h.1)
    obtain ⟨hv, hv'⟩ := surrogate_plain v (Or.inr h.2)
    rw [cons_append, cons_append, unquoteBody_plain u _ hu hu', unquoteBody_plain v _ hv hv', ih]
    rfl
  | case4 u v rest h ih => rw [append_assoc, unquoteBody_unit, ih]; rfl

theorem quote_unambiguous : Unambiguous quote (fun _ => True) := by
  refine Unambiguous.of_read (fun t => unquoteBody t.tail) (fun s r => ?_)
  rw [quote, cons_append, append_assoc]
  exact unquoteBody_quoteBody s r

/-! ## Decimal integers -/

/-- The decimal text of a natural number, as `String(n)` has it below 10^21. -/
def decimal (n : ℕ) : JsString :=
  if n = 0 then [48] else (Nat.digits 10 n).reverse.map (fun d => (48 + d).toUInt16)

theorem digit_lt (d : ℕ) (h : d < 10) : isDigit (48 + d).toUInt16 = true ∧ ((48 + d).toUInt16).toNat = 48 + d := by
  have hall : ∀ m : Fin 10, isDigit (48 + m.1).toUInt16 = true ∧ ((48 + m.1).toUInt16).toNat = 48 + m.1 := by decide
  exact hall ⟨d, h⟩

theorem isDigit_of_mem_decimal (c : UInt16) (h : c ∈ decimal n) : isDigit c = true := by
  unfold decimal at h
  split at h
  · obtain rfl := mem_singleton.mp h
    decide
  · simp only [mem_map, mem_reverse] at h
    obtain ⟨d, hd, rfl⟩ := h
    exact (digit_lt d (Nat.digits_lt_base (by omega) hd)).1

theorem decimal_ne_nil : decimal n ≠ [] := by
  unfold decimal
  split
  · simp
  · next h => simpa [Nat.digits_eq_nil_iff_eq_zero] using h

theorem decimal_value : Nat.ofDigits 10 ((decimal n).reverse.map (fun c => c.toNat - 48)) = n := by
  unfold decimal
  split
  · next h => subst h; decide
  · rw [← map_reverse, reverse_reverse, map_map]
    have hid : (Nat.digits 10 n).map ((fun c : UInt16 => c.toNat - 48) ∘ fun d => (48 + d).toUInt16)
        = Nat.digits 10 n := by
      conv_rhs => rw [← map_id (Nat.digits 10 n)]
      refine map_congr_left (fun d hd => ?_)
      have := (digit_lt d (Nat.digits_lt_base (by omega) hd)).2
      simp only [Function.comp_apply, this, id_eq]
      omega
    rw [hid, Nat.ofDigits_digits]

theorem decimal_injective : Function.Injective decimal := by
  intro m n h
  rw [← decimal_value m, h, decimal_value n]

theorem decimal_unambiguous : Unambiguous decimal (fun c => isDigit c = false) :=
  .of_no_stop decimal_injective (fun n c hc => by simp [isDigit_of_mem_decimal n c hc])

end PiAgent
