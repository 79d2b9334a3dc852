import PiAgent.Env.LineScan
import PiAgent.Lib.Utf8Encode

/-! # UTF-16 texts in UTF-8 -/

namespace PiAgent.Env

open List Durable Utf8

def unitChar (c : UInt16) : Char := if isHigh c || isLow c then replacement else Char.ofNat c.toNat

def pairChar (high low : UInt16) : Char :=
  Char.ofNat (0x10000 + (high.toNat - 0xD800) * 0x400 + (low.toNat - 0xDC00))

def scalars : JsString → List Char
  | [] => []
  | [c] => [unitChar c]
  | c :: next :: rest =>
    if isHigh c && isLow next then pairChar c next :: scalars rest else unitChar c :: scalars (next :: rest)

def encodeText (text : JsString) : List UInt8 := encode (scalars text)

def decodeText (bytes : List UInt8) : JsString := textOf (decode bytes)

/-! ## Decoded texts -/

@[simp] theorem textOf_nil : textOf [] = [] := rfl

variable (c : Char) (chars : List Char)

theorem textOf_cons : textOf (c :: chars) = utf16 c ++ textOf chars := rfl

variable (a b : List Char)

@[simp] theorem textOf_append : textOf (a ++ b) = textOf a ++ textOf b := flatMap_append

theorem utf16_cases : (∃ u, utf16 c = [u] ∧ isHigh u = false ∧ isLow u = false ∧ u.toNat = c.toNat) ∨
    (∃ high low, utf16 c = [high, low] ∧ isHigh high = true ∧ isLow low = true ∧ pairChar high low = c) := by
  have hvalid : c.toNat < 0xD800 ∨ 0xDFFF < c.toNat ∧ c.toNat < 0x110000 := c.valid
  unfold utf16
  rcases Nat.lt_or_ge c.toNat 0x10000 with hsmall | hbig
  · rw [if_pos hsmall]
    have hunit : c.toNat.toUInt16.toNat = c.toNat := by simp; omega
    refine .inl ⟨_, rfl, ?_, ?_, hunit⟩
    · rw [← Bool.not_eq_true, isHigh_iff, hunit]
      omega
    · rw [← Bool.not_eq_true, isLow_iff, hunit]
      omega
  · rw [if_neg (by omega)]
    have hhigh : (0xD800 + (c.toNat - 0x10000) / 0x400).toUInt16.toNat = 0xD800 + (c.toNat - 0x10000) / 0x400 := by
      simp; omega
    have hlow : (0xDC00 + (c.toNat - 0x10000) % 0x400).toUInt16.toNat = 0xDC00 + (c.toNat - 0x10000) % 0x400 := by
      simp; omega
    refine .inr ⟨_, _, rfl, ?_, ?_, ?_⟩
    · rw [isHigh_iff, hhigh]
      omega
    · rw [isLow_iff, hlow]
      omega
    · unfold pairChar
      rw [hhigh, hlow, show 0x10000 + (0xD800 + (c.toNat - 0x10000) / 0x400 - 0xD800) * 0x400 +
        (0xDC00 + (c.toNat - 0x10000) % 0x400 - 0xDC00) = c.toNat by omega, Char.ofNat_toNat]

theorem utf16_ne_nil : utf16 c ≠ [] := by
  rcases utf16_cases c with ⟨u, h, -⟩ | ⟨high, low, h, -⟩
  · rw [h]; simp
  · rw [h]; simp

@[simp] theorem textOf_eq_nil : textOf chars = [] ↔ chars = [] := by
  unfold textOf
  rw [flatMap_eq_nil_iff]
  refine ⟨fun h => eq_nil_iff_forall_not_mem.mpr (fun c hmem => utf16_ne_nil c (h c hmem)), ?_⟩
  rintro rfl
  simp

theorem scalars_cons_plain (u : UInt16) (rest : JsString) (h : isHigh u = false) :
    scalars (u :: rest) = unitChar u :: scalars rest := by
  cases rest with
  | nil => rfl
  | cons next rest =>
    unfold scalars
    rw [h, Bool.false_and, if_neg Bool.false_ne_true]
    cases rest <;> rfl

theorem scalars_textOf : scalars (textOf chars) = chars := by
  induction chars with
  | nil => rfl
  | cons c chars ih =>
    rw [textOf_cons]
    rcases utf16_cases c with ⟨u, h, hhigh, hlow, hu⟩ | ⟨high, low, h, hhigh, hlow, hpair⟩
    · rw [h, singleton_append, scalars_cons_plain _ _ hhigh, ih]
      unfold unitChar
      rw [hhigh, hlow, hu]
      simp
    · rw [h]
      show scalars (high :: low :: textOf chars) = c :: chars
      unfold scalars
      rw [hhigh, hlow, Bool.and_self, if_pos rfl, hpair, ih]

theorem encodeText_textOf : encodeText (textOf chars) = encode chars := by
  unfold encodeText
  rw [scalars_textOf]

theorem decodeText_encode : decodeText (encode chars) = textOf chars := by
  unfold decodeText
  rw [decode_encode]

/-! ## All texts -/

theorem scalars_append (a b : JsString) (h : splitsPair a b = false) : scalars (a ++ b) = scalars a ++ scalars b := by
  induction a using scalars.induct with
  | case1 => rfl
  | case2 c =>
    cases b with
    | nil => rfl
    | cons d b =>
      have hpair : (isHigh c && isLow d) = false := h
      show scalars (c :: d :: b) = _
      rw [scalars.eq_3 c d b, hpair, if_neg Bool.false_ne_true]
      rfl
  | case3 c next rest hpair ih =>
    have hsplit : splitsPair rest b = false := by
      cases rest with
      | nil => rfl
      | cons d rest =>
        unfold splitsPair at h ⊢
        rwa [getLast?_cons_cons, getLast?_cons_cons] at h
    show scalars (c :: next :: (rest ++ b)) = _
    rw [scalars, if_pos hpair, ih hsplit, scalars, if_pos hpair]
    rfl
  | case4 c next rest hpair ih =>
    have hsplit : splitsPair (next :: rest) b = false := by
      unfold splitsPair at h ⊢
      rwa [getLast?_cons_cons] at h
    show scalars (c :: next :: (rest ++ b)) = _
    rw [scalars, if_neg hpair, scalars, if_neg hpair]
    exact congrArg (unitChar c :: ·) (ih hsplit)

theorem splitsPair_textOf (a b : JsString) (chars : List Char) (h : b <+: textOf chars) : splitsPair a b = false := by
  unfold splitsPair
  obtain ⟨more, hmore⟩ := h
  have hlow : b.head?.any isLow = false := by
    cases b with
    | nil => rfl
    | cons u b =>
      cases chars with
      | nil => cases hmore
      | cons c chars =>
        rw [textOf_cons] at hmore
        show isLow u = false
        rcases utf16_cases c with ⟨v, hc, -, hno, -⟩ | ⟨high, low, hc, hhigh, -, -⟩
        · rw [hc] at hmore
          rw [show u = v from (List.cons.inj hmore).1]
          exact hno
        · rw [hc] at hmore
          rw [show u = high from (List.cons.inj hmore).1]
          exact isHigh_isLow _ hhigh
  rw [hlow, Bool.and_false]

theorem utf8Size_unitChar (c : UInt16) : (unitChar c).utf8Size = unitBytes c := by
  unfold unitChar
  rcases hsur : (isHigh c || isLow c) with _ | _
  · rw [if_neg Bool.false_ne_true]
    have hvalid : c.toNat.isValidChar := by
      have hlt := c.toNat_lt
      rw [← Bool.not_eq_true, Bool.or_eq_true, isHigh_iff, isLow_iff] at hsur
      unfold Nat.isValidChar
      omega
    have hlt := c.toNat_lt
    rw [utf8Size_cases, toNat_ofNat _ hvalid, unitBytes_eq]
    split_ifs <;> omega
  · rw [if_pos rfl, unitBytes_surrogate c (Bool.or_eq_true_iff.mp hsur)]
    rfl

theorem utf8Size_pairChar (high low : UInt16) (hhigh : isHigh high = true) (hlow : isLow low = true) :
    (pairChar high low).utf8Size = 4 := by
  rw [isHigh_iff] at hhigh
  rw [isLow_iff] at hlow
  have hvalid : (0x10000 + (high.toNat - 0xD800) * 0x400 + (low.toNat - 0xDC00)).isValidChar := by
    unfold Nat.isValidChar
    omega
  unfold pairChar
  rw [utf8Size_cases, toNat_ofNat _ hvalid, if_neg (by omega), if_neg (by omega), if_neg (by omega)]

theorem size_scalars (text : JsString) : Utf8.size (scalars text) = utf8ByteLength text := by
  induction text using scalars.induct with
  | case1 => rfl
  | case2 c => exact utf8Size_unitChar c
  | case3 c next rest hpair ih =>
    obtain ⟨hhigh, hlow⟩ := Bool.and_eq_true_iff.mp hpair
    rw [scalars, if_pos hpair, size_cons, ih, utf8Size_pairChar c next hhigh hlow, utf8ByteLength, if_pos hpair]
  | case4 c next rest hpair ih =>
    rw [scalars, if_neg hpair, size_cons, ih, utf8Size_unitChar, utf8ByteLength, if_neg hpair]

theorem length_encodeText (text : JsString) : (encodeText text).length = utf8ByteLength text := by
  unfold encodeText
  rw [length_encode, size_scalars]

/-! ## Newlines -/

theorem utf16_newline : (c = Char.ofNat 10 ∧ utf16 c = [newline] ∧ String.utf8EncodeChar c = [NEWLINE]) ∨
    (c ≠ Char.ofNat 10 ∧ newline ∉ utf16 c ∧ NEWLINE ∉ String.utf8EncodeChar c) := by
  rcases Decidable.em (c = Char.ofNat 10) with heq | hne
  · subst heq
    exact .inl ⟨rfl, by decide, by decide⟩
  · refine .inr ⟨hne, ?_, ?_⟩
    · rcases utf16_cases c with ⟨u, h, -, -, hu⟩ | ⟨high, low, h, hhigh, hlow, -⟩
      · rw [h, mem_singleton]
        rintro rfl
        refine hne ?_
        rw [← Char.ofNat_toNat c, ← hu]
        rfl
      · rw [h]
        simp only [mem_cons, not_mem_nil, or_false, not_or]
        refine ⟨?_, ?_⟩
        · rintro rfl
          exact absurd hhigh (by decide)
        · rintro rfl
          exact absurd hlow (by decide)
    · have hcount := count_encode NEWLINE (by decide) [c]
      rw [encode_cons, encode_nil, append_nil] at hcount
      refine count_eq_zero.mp (hcount.trans (count_eq_zero.mpr ?_))
      rw [mem_singleton]
      exact fun heq => hne heq.symm

def newlines (chars : List Char) : ℕ := chars.count (Char.ofNat 10)

@[simp] theorem newlines_nil : newlines [] = 0 := rfl

@[simp] theorem newlines_append : newlines (a ++ b) = newlines a + newlines b := count_append

theorem count_textOf : (textOf chars).count newline = newlines chars := by
  induction chars with
  | nil => rfl
  | cons c chars ih =>
    rw [textOf_cons, count_append, ih]
    unfold newlines
    rcases utf16_newline c with ⟨rfl, h, -⟩ | ⟨hne, h, -⟩
    · rw [h, count_singleton_self, count_cons_self]
      omega
    · rw [count_eq_zero.mpr h, count_cons_of_ne hne]
      omega

theorem count_encode_newline : (encode chars).count NEWLINE = newlines chars :=
  count_encode NEWLINE (by decide) chars

theorem getLast_newline : ((textOf chars).getLast? = some newline ↔ chars.getLast? = some (Char.ofNat 10)) ∧
    ((encode chars).getLast? = some NEWLINE ↔ chars.getLast? = some (Char.ofNat 10)) := by
  rcases chars.eq_nil_or_concat' with rfl | ⟨init, c, rfl⟩
  · exact ⟨by simp, by simp⟩
  · rw [textOf_append, encode_append, getLast?_concat]
    show ((textOf init ++ (utf16 c ++ [])).getLast? = some newline ↔ _) ∧
      ((encode init ++ (String.utf8EncodeChar c ++ [])).getLast? = some NEWLINE ↔ _)
    rw [append_nil, append_nil]
    rcases utf16_newline c with ⟨rfl, h, henc⟩ | ⟨hne, h, henc⟩
    · rw [h, henc]
      simp
    · refine ⟨⟨fun hlast => ?_, fun heq => absurd (Option.some.inj heq) hne⟩,
        ⟨fun hlast => ?_, fun heq => absurd (Option.some.inj heq) hne⟩⟩
      · rw [getLast?_append_of_ne_nil _ (utf16_ne_nil c)] at hlast
        exact absurd (mem_of_getLast? hlast) h
      · obtain ⟨first, rest, hshape, -⟩ := utf8EncodeChar_shape c
        rw [getLast?_append_of_ne_nil _ (by rw [hshape]; simp)] at hlast
        exact absurd (mem_of_getLast? hlast) henc

theorem terminated_append (h : b ≠ []) :
    ((textOf (a ++ b)).isEmpty || endsWithNewline (textOf (a ++ b))) = endsWithNewline (textOf b) := by
  have hne : textOf b ≠ [] := by rwa [Ne, textOf_eq_nil]
  rw [textOf_append, endsWithNewline_append _ _ hne]
  simp [hne]

end PiAgent.Env
