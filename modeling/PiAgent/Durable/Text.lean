import PiAgent.Chord.Json
import Mathlib.Data.List.Basic

/-!
# UTF-8 sizes and lines of a text

Texts are UTF-16 code units. A high surrogate and the low surrogate after it are one
character of four bytes; a lone surrogate takes three, as U+FFFD does.
-/

namespace PiAgent.Durable

open List

def isHigh (c : UInt16) : Bool := 0xd800 ≤ c && c ≤ 0xdbff

def isLow (c : UInt16) : Bool := 0xdc00 ≤ c && c ≤ 0xdfff

def unitBytes (c : UInt16) : ℕ := if c ≤ 0x7f then 1 else if c ≤ 0x7ff then 2 else 3

def utf8ByteLength : JsString → ℕ
  | [] => 0
  | [c] => unitBytes c
  | c :: next :: rest =>
    if isHigh c && isLow next then 4 + utf8ByteLength rest else unitBytes c + utf8ByteLength (next :: rest)

def newline : UInt16 := 10

/-- `content.endsWith("\n")` -/
def endsWithNewline (content : JsString) : Bool := content.getLast? = some newline

/-! ## Sizes -/

variable (c : UInt16)

theorem isHigh_iff : isHigh c = true ↔ 0xD800 ≤ c.toNat ∧ c.toNat ≤ 0xDBFF := by
  simp [isHigh, UInt16.le_iff_toNat_le]

theorem isLow_iff : isLow c = true ↔ 0xDC00 ≤ c.toNat ∧ c.toNat ≤ 0xDFFF := by
  simp [isLow, UInt16.le_iff_toNat_le]

theorem unitBytes_eq : unitBytes c = if c.toNat ≤ 0x7F then 1 else if c.toNat ≤ 0x7FF then 2 else 3 := by
  simp [unitBytes, UInt16.le_iff_toNat_le]

theorem isHigh_isLow (h : isHigh c = true) : isLow c = false := by
  rw [isHigh_iff] at h
  rw [← Bool.not_eq_true, isLow_iff]
  omega

theorem unitBytes_surrogate (h : isHigh c = true ∨ isLow c = true) : unitBytes c = 3 := by
  rw [isHigh_iff, isLow_iff] at h
  rw [unitBytes_eq, if_neg (by omega), if_neg (by omega)]

theorem utf8ByteLength_cons (rest : JsString) (h : isHigh c = false) :
    utf8ByteLength (c :: rest) = unitBytes c + utf8ByteLength rest := by
  cases rest with
  | nil => rfl
  | cons next rest =>
    unfold utf8ByteLength
    rw [h, Bool.false_and, if_neg Bool.false_ne_true]
    cases rest <;> rfl

/-- Whether a text ends and the next begins inside one character. -/
def splitsPair (a b : JsString) : Bool := a.getLast?.any isHigh && b.head?.any isLow

variable (a b : JsString)

theorem utf8ByteLength_append :
    utf8ByteLength (a ++ b) + (if splitsPair a b then 2 else 0) = utf8ByteLength a + utf8ByteLength b := by
  induction a using utf8ByteLength.induct with
  | case1 => simp [splitsPair, utf8ByteLength]
  | case2 c =>
    cases b with
    | nil => simp [splitsPair, utf8ByteLength]
    | cons d b =>
      show utf8ByteLength (c :: d :: b) + (if (isHigh c && isLow d) = true then 2 else 0) = unitBytes c + utf8ByteLength (d :: b)
      rw [utf8ByteLength]
      by_cases hpair : (isHigh c && isLow d) = true
      · rw [if_pos hpair, if_pos hpair]
        obtain ⟨hc, hd⟩ := Bool.and_eq_true_iff.mp hpair
        have hhigh : isHigh d = false := by
          by_contra hno
          rw [isHigh_isLow d (by simpa using hno)] at hd
          cases hd
        rw [utf8ByteLength_cons d b hhigh, unitBytes_surrogate c (Or.inl hc), unitBytes_surrogate d (Or.inr hd)]
        omega
      · rw [if_neg hpair, if_neg hpair]
        rfl
  | case3 c next rest hpair ih =>
    have hsplit : splitsPair (c :: next :: rest) b = splitsPair rest b := by
      unfold splitsPair
      cases rest with
      | nil =>
        have hlow := (Bool.and_eq_true_iff.mp hpair).2
        have hhigh : isHigh next = false := by
          by_contra hno
          rw [isHigh_isLow next (by simpa using hno)] at hlow
          cases hlow
        simp [hhigh]
      | cons d rest => simp [getLast?_cons_cons]
    show utf8ByteLength (c :: next :: (rest ++ b)) + _ = _
    rw [hsplit, utf8ByteLength, if_pos hpair, utf8ByteLength, if_pos hpair]
    omega
  | case4 c next rest hpair ih =>
    have hsplit : splitsPair (c :: next :: rest) b = splitsPair (next :: rest) b := by
      unfold splitsPair
      rw [getLast?_cons_cons]
    show utf8ByteLength (c :: next :: (rest ++ b)) + _ = _
    rw [hsplit, utf8ByteLength, if_neg hpair, utf8ByteLength, if_neg hpair]
    rw [cons_append] at ih
    omega

theorem utf8ByteLength_le_append : utf8ByteLength a ≤ utf8ByteLength (a ++ b) := by
  have happend := utf8ByteLength_append a b
  by_cases hsplit : splitsPair a b = true
  · rw [if_pos hsplit] at happend
    -- the rest begins with a low surrogate
    cases b with
    | nil => simp [splitsPair] at hsplit
    | cons d b =>
      have hlow : isLow d = true := (Bool.and_eq_true_iff.mp hsplit).2
      have hhigh : isHigh d = false := by
        by_contra hno
        rw [isHigh_isLow d (by simpa using hno)] at hlow
        cases hlow
      rw [utf8ByteLength_cons d b hhigh, unitBytes_surrogate d (Or.inr hlow)] at happend
      omega
  · rw [if_neg hsplit] at happend
    omega

theorem utf8ByteLength_newline (b : JsString) : utf8ByteLength (newline :: b) = 1 + utf8ByteLength b :=
  utf8ByteLength_cons newline b rfl

theorem utf8ByteLength_line : utf8ByteLength (a ++ newline :: b) = utf8ByteLength a + 1 + utf8ByteLength b := by
  have happend := utf8ByteLength_append a (newline :: b)
  have hno : splitsPair a (newline :: b) = false := by
    unfold splitsPair
    rw [show (newline :: b).head?.any isLow = false from rfl, Bool.and_false]
  rw [hno, if_neg Bool.false_ne_true, utf8ByteLength_newline] at happend
  omega

/-! ## Lines -/

/-- `content.split("\n")`, and the end of the text ends no line. -/
def splitLinesForCounting (content : JsString) : List JsString :=
  if content.isEmpty then []
  else
    let lines := content.splitOn newline
    if endsWithNewline content then lines.dropLast else lines

/-- `lines.join("\n")` -/
def joinLines (lines : List JsString) : JsString := [newline].intercalate lines

theorem splitOn_append : ∃ init last first more, a.splitOn newline = init ++ [last] ∧
    b.splitOn newline = first :: more ∧ (a ++ b).splitOn newline = init ++ (last ++ first) :: more := by
  induction a with
  | nil =>
    obtain ⟨first, more, hb⟩ := exists_cons_of_ne_nil (splitOn_ne_nil newline b)
    exact ⟨[], [], first, more, rfl, hb, hb⟩
  | cons c a ih =>
    obtain ⟨init, last, first, more, ha, hb, hab⟩ := ih
    by_cases hc : (c == newline) = true
    · refine ⟨[] :: init, last, first, more, ?_, hb, ?_⟩
      · rw [splitOn_cons_eq_if_modifyHead, if_pos hc, ha]
        rfl
      · rw [cons_append, splitOn_cons_eq_if_modifyHead, if_pos hc, hab]
        rfl
    · rw [cons_append, splitOn_cons_eq_if_modifyHead, if_neg hc, splitOn_cons_eq_if_modifyHead, if_neg hc, ha, hab]
      cases init with
      | nil => exact ⟨[], c :: last, first, more, rfl, hb, rfl⟩
      | cons line init => exact ⟨(c :: line) :: init, last, first, more, rfl, hb, rfl⟩

variable (content : JsString)

theorem length_splitOn : (content.splitOn newline).length = content.count newline + 1 := by
  induction content with
  | nil => rfl
  | cons c content ih =>
    rw [splitOn_cons_eq_if_modifyHead, count_cons]
    split
    · rw [length_cons, ih]
    · rw [length_modifyHead, ih]

theorem joinLines_splitOn : joinLines (content.splitOn newline) = content :=
  intercalate_splitOn newline

theorem endsWithNewline_append (h : b ≠ []) : endsWithNewline (a ++ b) = endsWithNewline b := by
  unfold endsWithNewline
  rw [getLast?_append_of_ne_nil a h]

theorem splitLinesForCounting_cases : (content = [] ∧ splitLinesForCounting content = []) ∨
    (∃ body, content = body ++ [newline] ∧ splitLinesForCounting content = body.splitOn newline) ∨
    (content ≠ [] ∧ endsWithNewline content = false ∧ splitLinesForCounting content = content.splitOn newline) := by
  rcases content.eq_nil_or_concat' with rfl | ⟨body, last, rfl⟩
  · exact Or.inl ⟨rfl, rfl⟩
  · refine Or.inr ?_
    have hne : (body ++ [last]).isEmpty = false := by simp
    have hends : endsWithNewline (body ++ [last]) = decide (last = newline) := by
      unfold endsWithNewline
      simp
    unfold splitLinesForCounting
    rw [hne, if_neg Bool.false_ne_true, hends]
    by_cases hlast : last = newline
    · subst hlast
      refine Or.inl ⟨body, rfl, ?_⟩
      rw [decide_eq_true rfl, if_pos rfl, splitOn_append_cons_self]
      exact dropLast_concat
    · refine Or.inr ⟨by simp, by simpa using hlast, ?_⟩
      rw [decide_eq_false hlast, if_neg Bool.false_ne_true]

/-! ## Sizes of lines -/

/-- The bytes of lines with the newlines before them; `i` is the index of the first. -/
def linesBytes : ℕ → List JsString → ℕ
  | _, [] => 0
  | i, line :: rest => utf8ByteLength line + (if 0 < i then 1 else 0) + linesBytes (i + 1) rest

theorem joinLines_cons_cons (line next : JsString) (rest : List JsString) :
    joinLines (line :: next :: rest) = line ++ newline :: joinLines (next :: rest) := by
  unfold joinLines
  rw [intercalate_cons_cons, append_assoc]
  rfl

theorem linesBytes_succ (i : ℕ) (line : JsString) (rest : List JsString) :
    linesBytes (i + 1) (line :: rest) = 1 + utf8ByteLength (joinLines (line :: rest)) := by
  induction rest generalizing i line with
  | nil =>
    unfold joinLines
    rw [intercalate_singleton]
    unfold linesBytes linesBytes
    rw [if_pos (Nat.succ_pos i)]
    omega
  | cons next rest ih =>
    rw [joinLines_cons_cons, utf8ByteLength_line]
    unfold linesBytes
    rw [ih (i + 1) next, if_pos (Nat.succ_pos i)]
    omega

theorem linesBytes_zero (lines : List JsString) : linesBytes 0 lines = utf8ByteLength (joinLines lines) := by
  cases lines with
  | nil => rfl
  | cons line rest =>
    cases rest with
    | nil =>
      unfold joinLines
      rw [intercalate_singleton]
      rfl
    | cons next rest =>
      rw [joinLines_cons_cons, utf8ByteLength_line]
      unfold linesBytes
      rw [linesBytes_succ 0 next rest, if_neg (lt_irrefl 0)]
      omega

theorem linesBytes_append (i : ℕ) (a b : List JsString) :
    linesBytes i (a ++ b) = linesBytes i a + linesBytes (i + a.length) b := by
  induction a generalizing i with
  | nil => simp [linesBytes]
  | cons line a ih =>
    show utf8ByteLength line + (if 0 < i then 1 else 0) + linesBytes (i + 1) (a ++ b) =
      utf8ByteLength line + (if 0 < i then 1 else 0) + linesBytes (i + 1) a + linesBytes (i + (a.length + 1)) b
    rw [ih, show i + 1 + a.length = i + (a.length + 1) by omega]
    omega

end PiAgent.Durable
