import Mathlib.Data.List.TakeWhile
import PiAgent.Lib.Drain
import PiAgent.Tui.StdinBuffer

/-! # Terminal input as a stream -/

namespace PiAgent.Tui.Stdin

open List Durable

/-! ## Reply headers -/

def Plain (c : UInt16) : Prop := 32 ≤ c

instance instDecidablePlain (c : UInt16) : Decidable (Plain c) := inferInstanceAs (Decidable (32 ≤ c))

theorem Plain.ne {c : UInt16} (h : Plain c) (d : UInt16) (hd : d < 32) : c ≠ d := by
  rintro rfl
  exact absurd h (UInt16.not_le.mpr hd)

theorem plain_of_isDigit {c : UInt16} (h : isDigit c = true) : Plain c := by
  unfold isDigit at h
  simp only [Bool.and_eq_true, decide_eq_true_eq] at h
  exact UInt16.le_trans (by decide) h.1

theorem plain_of_isLower {c : UInt16} (h : isLower c = true) : Plain c := by
  unfold isLower at h
  simp only [Bool.and_eq_true, decide_eq_true_eq] at h
  exact UInt16.le_trans (by decide) h.1

def Settled (test : JsString → Bool) (text : JsString) : Prop :=
  ∃ h, h <+: text ∧ (∀ c ∈ h, Plain c) ∧ ∀ more, test (h ++ more) = true

theorem settled_cons (test test' : JsString → Bool) (c : UInt16) (rest : JsString) (hc : Plain c)
    (h : Settled test' rest) (htest : ∀ text, test' text = true → test (c :: text) = true) : Settled test (c :: rest) := by
  obtain ⟨front, hprefix, hplain, hmore⟩ := h
  refine ⟨c :: front, cons_prefix_cons.mpr ⟨rfl, hprefix⟩, fun d hd => ?_, fun more => htest _ (hmore more)⟩
  rcases mem_cons.mp hd with rfl | hd
  · exact hc
  · exact hplain d hd

theorem settled_isPrefix_of (front text : JsString) (hplain : ∀ c ∈ front, Plain c) (h : front.isPrefixOf text = true) :
    Settled front.isPrefixOf text :=
  ⟨front, isPrefixOf_iff_prefix.mp h, hplain, fun _ => isPrefixOf_iff_prefix.mpr (prefix_append _ _)⟩

theorem graphicsPairs_settled (inDigits : Bool) (text : JsString) (h : graphicsPairs inDigits text = true) :
    Settled (graphicsPairs inDigits) text := by
  induction hn : text.length using Nat.strongRecOn generalizing inDigits text with
  | ind n ih =>
    subst hn
    cases inDigits with
    | true =>
      cases text with
      | nil => cases h
      | cons c rest =>
        unfold graphicsPairs at h
        split at h
        · rename_i hdigit
          refine settled_cons _ _ c rest (plain_of_isDigit hdigit) (ih _ (Nat.lt_succ_self _) true rest h rfl) (fun text ht => ?_)
          unfold graphicsPairs
          rw [if_pos hdigit]
          exact ht
        · rename_i hno
          split at h
          · rename_i hend
            subst hend
            exact ⟨[59], cons_prefix_cons.mpr ⟨rfl, nil_prefix⟩, by simp [Plain], fun more => rfl⟩
          · rename_i hno'
            split at h
            · rename_i hcomma
              subst hcomma
              refine settled_cons _ _ 44 rest (by decide) (ih _ (Nat.lt_succ_self _) false rest h rfl) (fun text ht => ?_)
              unfold graphicsPairs
              rw [if_neg hno, if_neg hno', if_pos rfl]
              exact ht
            · cases h
    | false =>
      unfold graphicsPairs at h
      split at h
      · cases ‹false = true›
      · cases ‹false = true›
      · rename_i letter digit rest _
        simp only [Bool.and_eq_true] at h
        obtain ⟨⟨hletter, hdigit⟩, hrest⟩ := h
        have hinner := ih rest.length (by simp; omega) true rest hrest rfl
        obtain ⟨front, hprefix, hplain, hmore⟩ := hinner
        refine ⟨letter :: 61 :: digit :: front, ?_, ?_, fun more => ?_⟩
        · exact cons_prefix_cons.mpr ⟨rfl, cons_prefix_cons.mpr ⟨rfl, cons_prefix_cons.mpr ⟨rfl, hprefix⟩⟩⟩
        · intro c hc
          simp only [mem_cons] at hc
          rcases hc with rfl | rfl | rfl | hc
          · exact plain_of_isLower hletter
          · decide
          · exact plain_of_isDigit hdigit
          · exact hplain c hc
        · show (isLower letter && isDigit digit && graphicsPairs true (front ++ more)) = true
          rw [hletter, hdigit, hmore more]
          rfl
      · cases h

theorem colorIndex_settled (text : JsString) (h : colorIndex text = true) : Settled colorIndex text := by
  unfold colorIndex at h
  dsimp only at h
  simp only [Bool.and_eq_true, decide_eq_true_eq, beq_iff_eq] at h
  obtain ⟨⟨hpos, hthree⟩, hsemi⟩ := h
  have hdigits : ∀ c ∈ text.takeWhile isDigit, isDigit c = true := fun c hc => mem_takeWhile_imp hc
  have hsplit : text = text.takeWhile isDigit ++ text.drop (text.takeWhile isDigit).length := by
    conv_lhs => rw [← takeWhile_append_dropWhile (p := isDigit) (l := text)]
    congr 1
    have := congrArg (List.drop (text.takeWhile isDigit).length) (takeWhile_append_dropWhile (p := isDigit) (l := text))
    rw [drop_left] at this
    exact this
  generalize text.takeWhile isDigit = digits at *
  obtain ⟨rest, hrest⟩ : ∃ rest, text.drop digits.length = 59 :: rest := by
    cases hdrop : text.drop digits.length with
    | nil =>
      rw [hdrop] at hsemi
      cases hsemi
    | cons c rest =>
      rw [hdrop, head?_cons, Option.some.injEq] at hsemi
      exact ⟨rest, by rw [hsemi]⟩
  refine ⟨digits ++ [59], ?_, ?_, fun more => ?_⟩
  · rw [hsplit, hrest]
    exact ⟨rest, by simp⟩
  · intro c hc
    rcases mem_append.mp hc with hc | hc
    · exact plain_of_isDigit (hdigits c hc)
    · rw [mem_singleton.mp hc]
      decide
  · have htake : (digits ++ [59] ++ more).takeWhile isDigit = digits := by
      rw [append_assoc, takeWhile_append_of_pos hdigits]
      simp [isDigit]
    unfold colorIndex
    dsimp only
    rw [htake, append_assoc, drop_left]
    simp only [Bool.and_eq_true, decide_eq_true_eq]
    exact ⟨⟨hpos, hthree⟩, rfl⟩

theorem isReplyHeader_settled (text : JsString) (h : isReplyHeader text = true) :
    ∃ front, ESC :: front <+: text ∧ (∀ c ∈ front, Plain c) ∧ 2 ≤ front.length ∧
      ∀ more, isReplyHeader (ESC :: (front ++ more)) = true := by
  unfold isReplyHeader at h
  split at h
  · rename_i rest
    simp only [Bool.or_eq_true, Bool.and_eq_true, beq_iff_eq] at h
    have hbuild : ∀ test : JsString → Bool, Settled test rest → (∀ t, test t = true → isReplyHeader (ESC :: 93 :: t) = true) →
        (∀ t, test t = true → t ≠ []) →
        ∃ front, ESC :: front <+: ESC :: 93 :: rest ∧ (∀ c ∈ front, Plain c) ∧ 2 ≤ front.length ∧
          ∀ more, isReplyHeader (ESC :: (front ++ more)) = true := by
      rintro test ⟨front, hprefix, hplain, hmore⟩ htest hne
      refine ⟨93 :: front, cons_prefix_cons.mpr ⟨rfl, cons_prefix_cons.mpr ⟨rfl, hprefix⟩⟩, fun c hc => ?_, ?_,
        fun more => htest _ (hmore more)⟩
      · rcases mem_cons.mp hc with rfl | hc
        · decide
        · exact hplain c hc
      · have hfront := hne _ (by simpa using hmore [])
        have := length_pos_iff.mpr hfront
        rw [length_cons]
        omega
    have hprefixNe : ∀ front : JsString, front ≠ [] → ∀ t, front.isPrefixOf t = true → t ≠ [] := by
      intro front hfront t ht hnil
      rw [hnil, isPrefixOf_iff_prefix, prefix_nil] at ht
      exact hfront ht
    rcases h with ((h | h) | h) | h
    · refine hbuild _ (settled_isPrefix_of _ rest (by simp [Plain]) h) (fun t ht => ?_) (hprefixNe _ (by simp))
      show (_ || _ || _ || _) = true
      rw [ht]
      simp
    · refine hbuild _ (settled_isPrefix_of _ rest (by simp [Plain]) h) (fun t ht => ?_) (hprefixNe _ (by simp))
      show (_ || _ || _ || _) = true
      rw [ht]
      simp
    · obtain ⟨⟨h4, hsemi⟩, hcolor⟩ := h
      obtain ⟨rest, rfl⟩ : ∃ more, rest = 52 :: 59 :: more := by
        match rest, h4, hsemi with
        | a :: b :: more, h4, hsemi => exact ⟨more, by simp_all⟩
      refine hbuild (fun t => t.head? == some 52 && t.tail.head? == some 59 && colorIndex (t.drop 2)) ?_ (fun t ht => ?_) ?_
      · refine settled_cons _ (fun t => t.head? == some 59 && colorIndex (t.drop 1)) 52 _ (by decide) ?_ (fun t ht => ?_)
        · refine settled_cons _ colorIndex 59 _ (by decide) (colorIndex_settled _ hcolor) (fun t ht => ?_)
          simpa using ht
        · simpa using ht
      · show (_ || _ || _ || _) = true
        rw [ht]
        simp
      · rintro t ht rfl
        cases ht
    · refine hbuild _ (settled_isPrefix_of _ rest (by simp [Plain]) h) (fun t ht => ?_) (hprefixNe _ (by simp))
      show (_ || _ || _ || _) = true
      rw [ht]
      simp
  · rename_i rest
    obtain ⟨front, hprefix, hplain, hmore⟩ := settled_isPrefix_of _ rest (by simp [Plain]) h
    refine ⟨80 :: [62, 124], ?_, by simp [Plain], by decide, fun more => rfl⟩
    exact cons_prefix_cons.mpr ⟨rfl, cons_prefix_cons.mpr ⟨rfl, isPrefixOf_iff_prefix.mp h⟩⟩
  · rename_i rest
    obtain ⟨front, hprefix, hplain, hmore⟩ := graphicsPairs_settled false rest h
    refine ⟨95 :: 71 :: front, ?_, fun c hc => ?_, by simp, fun more => hmore more⟩
    · exact cons_prefix_cons.mpr ⟨rfl, cons_prefix_cons.mpr ⟨rfl, cons_prefix_cons.mpr ⟨rfl, hprefix⟩⟩⟩
    · simp only [mem_cons] at hc
      rcases hc with rfl | rfl | hc
      · decide
      · decide
      · exact hplain c hc
  · cases h

/-! ## Scanning -/

theorem isControlString_cases (data : JsString) (h : isControlString data = true) :
    ∃ c rest, data = ESC :: c :: rest ∧ (c = 93 ∨ c = 80 ∨ c = 95) := by
  unfold isControlString at h
  simp only [Bool.or_eq_true, isPrefixOf_iff_prefix] at h
  rcases h with (h | h) | h
  · obtain ⟨rest, rfl⟩ := h
    exact ⟨93, rest, rfl, .inl rfl⟩
  · obtain ⟨rest, rfl⟩ := h
    exact ⟨80, rest, rfl, .inr (.inl rfl)⟩
  · obtain ⟨rest, rfl⟩ := h
    exact ⟨95, rest, rfl, .inr (.inr rfl)⟩

theorem endsWithST_last (data : JsString) (h : endsWithST data = true) : data.getLast? = some BACKSLASH := by
  unfold endsWithST at h
  rw [isSuffixOf_iff_suffix] at h
  obtain ⟨front, rfl⟩ := h
  rw [getLast?_append]
  rfl

section

variable (c : UInt16) (rest : JsString) (hc : c = 93 ∨ c = 80 ∨ c = 95)
include hc

theorem isCompleteSequence_string (hst : endsWithST (ESC :: c :: rest) = false)
    (hbel : (ESC :: c :: rest).getLast? ≠ some BEL) : isCompleteSequence (ESC :: c :: rest) = .incomplete := by
  have hosc : isCompleteOscSequence (ESC :: c :: rest) = .incomplete := by
    unfold isCompleteOscSequence
    rw [hst, decide_eq_false hbel]
    rfl
  have hstring : isCompleteString (ESC :: c :: rest) = .incomplete := by
    unfold isCompleteString
    rw [hst]
    rfl
  rcases hc with rfl | rfl | rfl
  · exact hosc
  · exact hstring
  · exact hstring

theorem string_plain (hplain : ∀ d ∈ rest, Plain d) : isCompleteSequence (ESC :: c :: rest) = .incomplete := by
  have hplain' : ∀ d ∈ c :: rest, Plain d := by
    intro d hd
    rcases mem_cons.mp hd with rfl | hd
    · rcases hc with rfl | rfl | rfl <;> decide
    · exact hplain d hd
  refine isCompleteSequence_string c rest hc ?_ (fun hlast => ?_)
  · cases hends : endsWithST (ESC :: c :: rest) with
    | false => rfl
    | true =>
      exfalso
      unfold endsWithST at hends
      rw [isSuffixOf_iff_suffix] at hends
      obtain ⟨front, hfront⟩ := hends
      cases front with
      | nil =>
        have hback : BACKSLASH = c := (List.cons.inj (List.cons.inj hfront).2).1
        rw [← hback] at hc
        revert hc
        decide
      | cons a front =>
        obtain ⟨-, hrest⟩ := List.cons.inj hfront
        have hmem : ESC ∈ c :: rest := by
          rw [← hrest]
          simp
        exact (hplain' ESC hmem).ne ESC (by decide) rfl
  · rw [getLast?_cons_cons] at hlast
    exact (hplain' BEL (mem_of_getLast? hlast)).ne BEL (by decide) rfl

theorem string_escape (hlast : (ESC :: c :: rest).getLast? = some ESC) :
    isCompleteSequence (ESC :: c :: rest) = .incomplete := by
  refine isCompleteSequence_string c rest hc ?_ ?_
  · cases hends : endsWithST (ESC :: c :: rest) with
    | false => rfl
    | true =>
      have hback := endsWithST_last _ hends
      rw [hlast] at hback
      cases hback
  · rw [hlast]
    decide

end

theorem scan_append (remaining more : JsString) (terminalReply : Bool)
    (hreply : terminalReply = true → isControlString remaining = true) (hdouble : remaining ≠ [ESC, ESC]) (extra fuel k : ℕ)
    (hk : 1 ≤ k) (hfuel : k + fuel = remaining.length + 1) (hne : scan remaining terminalReply fuel k ≠ .incomplete) :
    scan (remaining ++ more) terminalReply (fuel + extra) k = scan remaining terminalReply fuel k := by
  induction fuel generalizing k with
  | zero => exact absurd rfl hne
  | succ fuel ih =>
    have hle : k ≤ remaining.length := by omega
    have hbefore : (remaining ++ more)[k - 1]? = remaining[k - 1]? := getElem?_append_left (by omega)
    have htake : (remaining ++ more).take k = remaining.take k := take_append_of_le_length hle
    rw [show fuel + 1 + extra = fuel + extra + 1 by omega]
    unfold scan at hne ⊢
    rw [hbefore, htake]
    split
    · rfl
    · rename_i hcancel
      rw [if_neg hcancel] at hne
      rcases Nat.eq_or_lt_of_le hle with hend | hin
      · -- at the end of the text nothing can be told of an escape
        have hno : (terminalReply && decide (k > 2) && decide (remaining[k - 1]? = some ESC) && decide (k < remaining.length) &&
            decide (remaining[k]? ≠ some BACKSLASH)) = false := by
          rw [decide_eq_false (show ¬ k < remaining.length by omega), Bool.and_false, Bool.false_and]
        rw [hno, if_neg Bool.false_ne_true] at hne ⊢
        rw [hend, take_length] at hne ⊢
        split
        · rename_i hesc
          exfalso
          simp only [Bool.and_eq_true, decide_eq_true_eq] at hesc
          obtain ⟨⟨⟨⟨hr, -⟩, hlast⟩, -⟩, -⟩ := hesc
          obtain ⟨c, rest, hctl, hc⟩ := isControlString_cases remaining (hreply hr)
          have hincomplete := string_escape c rest hc (by rw [← hctl, getLast?_eq_getElem?]; exact hlast)
          rw [hctl, hincomplete] at hne
          dsimp only at hne
          rw [show fuel = 0 by omega] at hne
          exact hne rfl
        · cases hstatus : isCompleteSequence remaining with
          | complete =>
            dsimp only
            rw [if_neg (fun h => hdouble h.1), if_neg (fun h => hdouble h.1)]
          | incomplete =>
            rw [hstatus] at hne
            dsimp only at hne
            rw [show fuel = 0 by omega] at hne
            exact absurd rfl hne
          | notEscape => rfl
      · have hafter : (remaining ++ more)[k]? = remaining[k]? := getElem?_append_left hin
        have hlt : k < (remaining ++ more).length := by
          rw [length_append]
          omega
        rw [hafter, decide_eq_true hlt, decide_eq_true hin]
        rw [decide_eq_true hin] at hne
        split
        · rfl
        · rename_i hesc
          rw [if_neg hesc] at hne
          cases hstatus : isCompleteSequence (remaining.take k) with
          | complete => rfl
          | notEscape => rfl
          | incomplete =>
            rw [hstatus] at hne
            exact ih (k + 1) (by omega) (by omega) hne

theorem scan_plain (c : UInt16) (rest : JsString) (hc : c = 93 ∨ c = 80 ∨ c = 95) (hplain : ∀ d ∈ rest, Plain d)
    (fuel k : ℕ) (hk : 1 ≤ k) : scan (ESC :: c :: rest) false fuel k = .incomplete := by
  induction fuel generalizing k with
  | zero => rfl
  | succ fuel ih =>
    have hcandidate : isCompleteSequence ((ESC :: c :: rest).take k) = .incomplete := by
      obtain ⟨k, rfl⟩ := Nat.exists_eq_add_of_le' hk
      rcases k with _ | k
      · rfl
      · exact string_plain c (rest.take k) hc (fun d hd => hplain d (mem_of_mem_take hd))
    unfold scan
    rw [Bool.false_and, Bool.false_and, if_neg Bool.false_ne_true, Bool.false_and, Bool.false_and, Bool.false_and,
      if_neg Bool.false_ne_true, hcandidate]
    exact ih (k + 1) (by omega)

theorem isControlString_of_header (text : JsString) (h : isReplyHeader text = true) : isControlString text = true := by
  unfold isReplyHeader at h
  split at h
  · rfl
  · rfl
  · rfl
  · cases h

theorem isControlString_append (text more : JsString) (h : isControlString text = true) :
    isControlString (text ++ more) = true := by
  obtain ⟨c, rest, rfl, hc⟩ := isControlString_cases text h
  rcases hc with rfl | rfl | rfl <;> rfl

theorem isReplyHeader_append (text more : JsString) (h : isReplyHeader text = true) : isReplyHeader (text ++ more) = true := by
  obtain ⟨front, ⟨rest, hrest⟩, -, -, hmore⟩ := isReplyHeader_settled text h
  have hlater := hmore (rest ++ more)
  rwa [← append_assoc, ← cons_append, ← cons_append, hrest] at hlater

theorem scanEscape_append (remaining more : JsString) (hdouble : remaining ≠ [ESC, ESC])
    (hne : scanEscape remaining ≠ .incomplete) : scanEscape (remaining ++ more) = scanEscape remaining := by
  have hsame : (isControlString (remaining ++ more) && isReplyHeader (remaining ++ more)) =
      (isControlString remaining && isReplyHeader remaining) := by
    cases hheader : isReplyHeader remaining with
    | true =>
      have hcontrol := isControlString_of_header remaining hheader
      rw [isReplyHeader_append remaining more hheader, hcontrol, isControlString_append remaining more hcontrol]
    | false =>
      rw [Bool.and_false]
      cases hlater : isReplyHeader (remaining ++ more) with
      | false => rw [Bool.and_false]
      | true =>
        -- the header is not yet complete, so the scan of what is there is not either
        exfalso
        obtain ⟨front, hprefix, hplain, hlength, hmore⟩ := isReplyHeader_settled _ hlater
        rcases Nat.le_total (ESC :: front).length remaining.length with hshort | hlong
        · obtain ⟨rest, hrest⟩ := prefix_of_prefix_length_le hprefix (prefix_append _ _) hshort
          have hnow := hmore rest
          rw [← cons_append, hrest, hheader] at hnow
          cases hnow
        · have hinside := prefix_of_prefix_length_le (prefix_append remaining more) hprefix hlong
          apply hne
          unfold scanEscape
          rw [hheader, Bool.and_false]
          have hfull := hmore []
          rw [append_nil] at hfull
          obtain ⟨c, inner, heq, hc⟩ := isControlString_cases _ (isControlString_of_header _ hfull)
          obtain ⟨-, rfl⟩ := List.cons.inj heq
          obtain ⟨tail, htail⟩ := hinside
          match remaining, htail with
          | [], _ => rfl
          | [a], htail =>
            obtain ⟨rfl, -⟩ := List.cons.inj htail
            rfl
          | a :: b :: rest, htail =>
            obtain ⟨hesc, htail1⟩ := List.cons.inj htail
            obtain ⟨hb, htail2⟩ := List.cons.inj htail1
            rw [hesc, hb]
            refine scan_plain c rest hc (fun d hd => hplain d ?_) _ 1 (Nat.le_refl 1)
            rw [← htail2]
            exact mem_cons_of_mem _ (mem_append_left _ hd)
  unfold scanEscape at hne ⊢
  rw [hsame]
  have happend := scan_append remaining more (isControlString remaining && isReplyHeader remaining)
    (fun h => (Bool.and_eq_true_iff.mp h).1) hdouble more.length remaining.length 1 (Nat.le_refl 1) (by omega) hne
  rw [length_append]
  exact happend

theorem scan_bounds (remaining : JsString) (terminalReply : Bool) (fuel k : ℕ) (hk : 1 ≤ k)
    (hfuel : k + fuel = remaining.length + 1) :
    (∀ n, scan remaining terminalReply fuel k = .cancelled n → 2 ≤ n ∧ n ≤ remaining.length) ∧
      ∀ n, scan remaining terminalReply fuel k = .sequence n → 1 ≤ n ∧ n ≤ remaining.length := by
  induction fuel generalizing k with
  | zero => exact ⟨fun n h => (by cases h), fun n h => (by cases h)⟩
  | succ fuel ih =>
    unfold scan
    split
    · rename_i hcancel
      simp only [Bool.and_eq_true, decide_eq_true_eq] at hcancel
      refine ⟨fun n h => ?_, fun n h => (by cases h)⟩
      obtain rfl := Scanned.cancelled.inj h
      omega
    · split
      · rename_i hcancel
        simp only [Bool.and_eq_true, decide_eq_true_eq] at hcancel
        refine ⟨fun n h => ?_, fun n h => (by cases h)⟩
        obtain rfl := Scanned.cancelled.inj h
        omega
      · split
        · split
          · exact ⟨fun n h => (by cases h), fun n h => (by cases h)⟩
          · refine ⟨fun n h => (by cases h), fun n h => ?_⟩
            obtain rfl := Scanned.sequence.inj h
            omega
        · exact ih (k + 1) (by omega) (by omega)
        · refine ⟨fun n h => (by cases h), fun n h => ?_⟩
          obtain rfl := Scanned.sequence.inj h
          omega

/-! ## The reader -/

inductive Piece where
  | data (sequence : JsString)
  | cancelled (reply : JsString)
  | paste (content : JsString)
  deriving DecidableEq

def Piece.text : Piece → JsString
  | .data sequence => sequence
  | .cancelled reply => reply
  | .paste content => BRACKETED_PASTE_START ++ content ++ BRACKETED_PASTE_END

def nextPiece (text : JsString) : Next UInt16 Piece Empty :=
  if BRACKETED_PASTE_START <+: text then
    match firstIndex BRACKETED_PASTE_END (text.drop BRACKETED_PASTE_START.length) with
    | none => .more
    | some endIndex =>
      .item (.paste ((text.drop BRACKETED_PASTE_START.length).take endIndex))
        ((text.drop BRACKETED_PASTE_START.length).drop (endIndex + BRACKETED_PASTE_END.length))
  else
    match text with
    | [] => .more
    | c :: rest =>
      if c = ESC then
        if c :: rest = [ESC, ESC] then .more
        else
          match scanEscape (c :: rest) with
          | .incomplete => .more
          | .cancelled length => .item (.cancelled ((c :: rest).take length)) ((c :: rest).drop length)
          | .sequence length => .item (.data ((c :: rest).take length)) ((c :: rest).drop length)
          | .escape => .item (.data [ESC]) rest
      else .item (.data [c]) rest

theorem length_pasteStart : BRACKETED_PASTE_START.length = 6 := rfl

theorem length_pasteEnd : BRACKETED_PASTE_END.length = 6 := rfl

theorem scanEscape_cancelled (text : JsString) (n : ℕ) (h : scanEscape text = .cancelled n) : 2 ≤ n ∧ n ≤ text.length :=
  (scan_bounds text _ text.length 1 (Nat.le_refl 1) (by omega)).1 n h

theorem scanEscape_sequence (text : JsString) (n : ℕ) (h : scanEscape text = .sequence n) : 1 ≤ n ∧ n ≤ text.length :=
  (scan_bounds text _ text.length 1 (Nat.le_refl 1) (by omega)).2 n h

theorem nextPiece_text (text : JsString) (piece : Piece) (rest : JsString) (h : nextPiece text = .item piece rest) :
    piece.text ++ rest = text ∧ piece.text ≠ [] := by
  unfold nextPiece at h
  split at h
  · rename_i hstart
    split at h
    · cases h
    · rename_i endIndex hend
      obtain ⟨rfl, rfl⟩ := Next.item.inj h
      obtain ⟨tail, rfl⟩ := hstart
      rw [drop_left] at hend ⊢
      have hsplit := ((firstIndex_eq_some _ _ _).mp hend).1.split
      refine ⟨?_, by simp [Piece.text, BRACKETED_PASTE_START]⟩
      unfold Piece.text
      rw [append_assoc, append_assoc]
      congr 1
      rw [← append_assoc]
      exact hsplit.symm
  · split at h
    · cases h
    · rename_i c rest'
      split at h
      · rename_i hesc
        split at h
        · cases h
        · split at h
          · cases h
          · rename_i n hn
            obtain ⟨rfl, rfl⟩ := Next.item.inj h
            have := scanEscape_cancelled _ n hn
            exact ⟨List.take_append_drop n _, by simp [Piece.text]; omega⟩
          · rename_i n hn
            obtain ⟨rfl, rfl⟩ := Next.item.inj h
            have := scanEscape_sequence _ n hn
            exact ⟨List.take_append_drop n _, by simp [Piece.text]; omega⟩
          · obtain ⟨rfl, rfl⟩ := Next.item.inj h
            exact ⟨by rw [hesc]; rfl, by simp [Piece.text]⟩
      · obtain ⟨rfl, rfl⟩ := Next.item.inj h
        exact ⟨rfl, by simp [Piece.text]⟩

theorem pasteStart_incomplete (text : JsString) (h : text <+: BRACKETED_PASTE_START) (hne : text ≠ BRACKETED_PASTE_START) :
    nextPiece text = .more := by
  rw [prefix_iff_eq_take] at h
  have hlength : text.length < 6 := by
    rcases Nat.lt_or_ge text.length 6 with hlt | hge
    · exact hlt
    · rw [take_of_length_le (by rw [length_pasteStart]; exact hge)] at h
      exact absurd h hne
  rw [h]
  match text.length, hlength with
  | 0, _ => rfl
  | 1, _ => rfl
  | 2, _ => rfl
  | 3, _ => rfl
  | 4, _ => rfl
  | 5, _ => rfl

theorem nextPiece_append (text more : JsString) (piece : Piece) (rest : JsString) (h : nextPiece text = .item piece rest) :
    nextPiece (text ++ more) = .item piece (rest ++ more) := by
  have hstartIff : BRACKETED_PASTE_START <+: text ++ more ↔ BRACKETED_PASTE_START <+: text := by
    refine ⟨fun hstart => ?_, fun hstart => hstart.trans (prefix_append _ _)⟩
    rcases Nat.le_total BRACKETED_PASTE_START.length text.length with hshort | hlong
    · exact prefix_of_prefix_length_le hstart (prefix_append _ _) hshort
    · have hinside := prefix_of_prefix_length_le (prefix_append text more) hstart hlong
      rcases eq_or_ne text BRACKETED_PASTE_START with heq | hne
      · rw [heq]
      · rw [pasteStart_incomplete text hinside hne] at h
        cases h
  unfold nextPiece at h ⊢
  split at h
  · rename_i hstart
    rw [if_pos (hstartIff.mpr hstart)]
    obtain ⟨tail, rfl⟩ := hstart
    rw [drop_left] at h
    rw [append_assoc, drop_left]
    split at h
    · cases h
    · rename_i endIndex hend
      obtain ⟨rfl, rfl⟩ := Next.item.inj h
      have hle := ((firstIndex_eq_some _ _ _).mp hend).1.le
      rw [firstIndex_append _ _ more _ hend]
      dsimp only
      rw [take_append_of_le_length (by omega), drop_append_of_le_length hle]
  · rename_i hstart
    rw [if_neg (fun h => hstart (hstartIff.mp h))]
    cases text with
    | nil => cases h
    | cons c inner =>
      rw [cons_append]
      dsimp only at h ⊢
      split at h
      · rename_i hesc
        rw [if_pos hesc]
        split at h
        · cases h
        · rename_i hdouble
          have hne : scanEscape (c :: inner) ≠ .incomplete := by
            intro hincomplete
            rw [hincomplete] at h
            cases h
          have hscan := scanEscape_append (c :: inner) more hdouble hne
          rw [cons_append] at hscan
          have hdouble' : c :: (inner ++ more) ≠ [ESC, ESC] := by
            intro heq
            have hlength := congrArg List.length heq
            simp only [length_cons, length_append, length_nil] at hlength
            cases inner with
            | nil => exact hne (by rw [hesc]; decide)
            | cons d inner =>
              -- nothing came after the two escapes
              have hmore : more = [] := length_eq_zero_iff.mp (by simp only [length_cons] at hlength; omega)
              rw [hmore, append_nil] at heq
              exact hdouble heq
          rw [if_neg hdouble', hscan]
          split at h
          · cases h
          · rename_i n hn
            obtain ⟨rfl, rfl⟩ := Next.item.inj h
            have hle := (scanEscape_cancelled _ n hn).2
            rw [← cons_append, take_append_of_le_length hle, drop_append_of_le_length hle]
          · rename_i n hn
            obtain ⟨rfl, rfl⟩ := Next.item.inj h
            have hle := (scanEscape_sequence _ n hn).2
            rw [← cons_append, take_append_of_le_length hle, drop_append_of_le_length hle]
          · obtain ⟨rfl, rfl⟩ := Next.item.inj h
            rfl
      · rename_i hesc
        rw [if_neg hesc]
        obtain ⟨rfl, rfl⟩ := Next.item.inj h
        rfl

def pieces : Reader UInt16 Piece Empty where
  next := nextPiece
  shrinks text piece rest h := by
    obtain ⟨htext, hne⟩ := nextPiece_text text piece rest h
    have hlength := congrArg List.length htext
    have := length_pos_iff.mpr hne
    rw [length_append] at hlength
    omega
  item_append := nextPiece_append
  stop_append _ _ error _ := error.elim

end PiAgent.Tui.Stdin
