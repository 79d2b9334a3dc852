import PiAgent.Tui.StdinReader

/-! # Terminal input in chunks -/

namespace PiAgent.Tui

open List Durable
open Stdin StdinBuffer

/-! ## The pieces of a text -/

def leftIn : ℕ → JsString → JsString
  | 0, text => text
  | fuel + 1, text =>
    match nextPiece text with
    | .item _ rest => leftIn fuel rest
    | _ => text

/-- What of a text is no whole piece yet. -/
def left (text : JsString) : JsString := leftIn text.length text

def items (text : JsString) : List Piece := (pieces.drain text).items

variable (text : JsString)

variable (fuel : ℕ)

theorem drain_leftIn (text : JsString) (h : text.length ≤ fuel) :
    (pieces.drain text).rest = .ok (leftIn fuel text) := by
  induction fuel generalizing text with
  | zero =>
    obtain rfl := length_eq_zero_iff.mp (Nat.le_zero.mp h)
    rw [pieces.drain_more [] rfl]
    rfl
  | succ fuel ih =>
    unfold leftIn
    cases hnext : nextPiece text with
    | more => rw [pieces.drain_more text hnext]
    | stop e => exact e.elim
    | item piece rest =>
      have hshorter := pieces.shrinks text piece rest hnext
      rw [pieces.drain_item text piece rest hnext]
      exact ih rest (by omega)

theorem drain_rest_ok : (pieces.drain text).rest = .ok (left text) := drain_leftIn _ text (Nat.le_refl _)

variable (rest : JsString)

theorem left_eq (h : (pieces.drain text).rest = .ok rest) : left text = rest :=
  Except.ok.inj ((drain_rest_ok text).symm.trans h)

theorem items_more (h : nextPiece text = .more) : items text = [] ∧ left text = text := by
  have hdrain := pieces.drain_more text h
  refine ⟨?_, left_eq text text (by rw [hdrain])⟩
  unfold items
  rw [hdrain]

theorem items_item (piece : Piece) (rest : JsString) (h : nextPiece text = .item piece rest) :
    items text = piece :: items rest ∧ left text = left rest := by
  have hdrain := pieces.drain_item text piece rest h
  refine ⟨?_, left_eq text (left rest) (by rw [hdrain]; exact drain_rest_ok rest)⟩
  unfold items
  rw [hdrain]

theorem items_append (x y : JsString) :
    items (x ++ y) = items x ++ items (left x ++ y) ∧ left (x ++ y) = left (left x ++ y) := by
  have happend := pieces.drain_append x y
  unfold Reader.feed at happend
  rw [drain_rest_ok x] at happend
  have hleft : left (x ++ y) = left (left x ++ y) := by
    have h1 := drain_rest_ok (x ++ y)
    rw [happend] at h1
    dsimp only at h1
    rw [drain_rest_ok (left x ++ y)] at h1
    exact (Except.ok.inj h1).symm
  refine ⟨?_, hleft⟩
  show (pieces.drain (x ++ y)).items = _
  rw [happend]
  rfl

theorem items_text : (items text).flatMap Piece.text ++ left text = text :=
  pieces.flatMap_items Piece.text (fun x value rest h => (nextPiece_text x value rest h).1) text (left text)
    (drain_rest_ok text)

theorem nextPiece_left : nextPiece (left text) = .more := by
  induction hn : text.length using Nat.strongRecOn generalizing text with
  | ind n ih =>
    subst hn
    cases hnext : nextPiece text with
    | more => rw [(items_more text hnext).2, hnext]
    | stop e => exact e.elim
    | item piece rest =>
      rw [(items_item text piece rest hnext).2]
      exact ih rest.length (pieces.shrinks text piece rest hnext) rest rfl

/-- The pieces that come out when a chunk ends here: two escapes are one. -/
def whole (text : JsString) : List Piece :=
  if left text = [ESC, ESC] then items text ++ [.data [ESC, ESC]] else items text

def remainder (text : JsString) : JsString := if left text = [ESC, ESC] then [] else left text

theorem whole_item (piece : Piece) (rest : JsString) (h : nextPiece text = .item piece rest) :
    whole text = piece :: whole rest ∧ remainder text = remainder rest := by
  obtain ⟨hitems, hleft⟩ := items_item text piece rest h
  unfold whole remainder
  rw [hitems, hleft]
  refine ⟨?_, rfl⟩
  split <;> rfl

theorem whole_more (h : nextPiece text = .more) (hdouble : text ≠ [ESC, ESC]) :
    whole text = [] ∧ remainder text = text := by
  obtain ⟨hitems, hleft⟩ := items_more text h
  unfold whole remainder
  rw [hitems, hleft, if_neg hdouble, if_neg hdouble]
  exact ⟨rfl, rfl⟩

theorem whole_double : whole [ESC, ESC] = [.data [ESC, ESC]] ∧ remainder [ESC, ESC] = [] := by
  obtain ⟨hitems, hleft⟩ := items_more [ESC, ESC] rfl
  unfold whole remainder
  rw [hitems, hleft]
  exact ⟨rfl, rfl⟩

theorem whole_nil : whole [] = [] ∧ remainder [] = [] := whole_more [] rfl (by decide)

theorem whole_text : (whole text).flatMap Piece.text ++ remainder text = text := by
  have htext := items_text text
  unfold whole remainder
  split
  · rename_i hends
    rw [hends] at htext
    rw [flatMap_append, append_nil]
    exact htext
  · exact htext


theorem scanEscape_double (h : ∀ c ∈ rest.head?, opensSequence c = false) :
    scanEscape (ESC :: ESC :: rest) = .sequence 2 := by
  have hno : ((ESC :: ESC :: rest)[2]?).any opensSequence = false := by
    cases rest with
    | nil => rfl
    | cons c rest => exact h c rfl
  unfold scanEscape
  rw [show isControlString (ESC :: ESC :: rest) = false from rfl, Bool.false_and, length_cons, length_cons]
  show (if [ESC, ESC] = [ESC, ESC] ∧ ((ESC :: ESC :: rest)[2]?).any opensSequence = true then Scanned.escape
    else .sequence 2) = _
  rw [if_neg (by rw [hno]; simp)]

theorem nextPiece_double (hne : rest ≠ []) (h : ∀ c ∈ rest.head?, opensSequence c = false) :
    nextPiece (ESC :: ESC :: rest) = .item (.data [ESC, ESC]) rest := by
  unfold nextPiece
  rw [if_neg (by
    rintro ⟨tail, htail⟩
    have hsecond := (List.cons.inj (List.cons.inj htail).2).1
    revert hsecond
    decide)]
  dsimp only
  rw [if_pos rfl, if_neg (by simpa using hne), scanEscape_double rest h]
  rfl

/-- A text that goes on: what is out stays out, unless two escapes turn out to be the first of one and the second of
another sequence. -/
theorem whole_append (x y : JsString)
    (hcut : left x = [ESC, ESC] → y ≠ [] ∧ ∀ c ∈ y.head?, opensSequence c = false) :
    whole (x ++ y) = whole x ++ whole (remainder x ++ y) ∧ remainder (x ++ y) = remainder (remainder x ++ y) := by
  obtain ⟨hitems, hleft⟩ := items_append x y
  have hwhole : whole (x ++ y) = items x ++ whole (left x ++ y) := by
    unfold whole
    rw [hitems, hleft]
    split
    · rw [append_assoc]
    · rfl
  have hremainder : remainder (x ++ y) = remainder (left x ++ y) := by
    unfold remainder
    rw [hleft]
  rw [hwhole, hremainder]
  rcases eq_or_ne (left x) [ESC, ESC] with hends | hends
  · obtain ⟨hne, hopens⟩ := hcut hends
    obtain ⟨hw, hr⟩ := whole_item _ _ _ (nextPiece_double y hne hopens)
    have hx : whole x = items x ++ [.data [ESC, ESC]] ∧ remainder x = [] := by
      unfold whole remainder
      rw [hends]
      exact ⟨rfl, rfl⟩
    rw [hends, hx.1, hx.2, append_assoc]
    exact ⟨congrArg (items x ++ ·) hw, hr⟩
  · have hx : whole x = items x ∧ remainder x = left x := by
      unfold whole remainder
      rw [if_neg hends, if_neg hends]
      exact ⟨rfl, rfl⟩
    rw [hx.1, hx.2]
    exact ⟨rfl, rfl⟩

/-! ## Outcomes -/

def emitPieces : Option ℕ → List Piece → List StdinEvent × Option ℕ
  | pending, [] => ([], pending)
  | pending, .data sequence :: rest =>
    let first := emitDataSequence pending sequence
    let after := emitPieces first.2 rest
    (first.1 ++ after.1, after.2)
  | pending, .cancelled _ :: rest => emitPieces pending rest
  | _, .paste content :: rest =>
    let after := emitPieces none rest
    (.paste content :: after.1, after.2)

/-- What comes of a text: the events of its pieces and what is kept of it. -/
def outcome (pending : Option ℕ) (text : JsString) : List StdinEvent × StdinBuffer :=
  let emitted := emitPieces pending (whole text)
  if BRACKETED_PASTE_START <+: remainder text then
    (emitted.1, ⟨[], true, (remainder text).drop BRACKETED_PASTE_START.length, none⟩)
  else (emitted.1, ⟨remainder text, false, [], emitted.2⟩)

variable (pending : Option ℕ)

theorem emitPieces_data (sequence : JsString) (rest : List Piece) :
    emitPieces pending (.data sequence :: rest) =
      ((emitDataSequence pending sequence).1 ++ (emitPieces (emitDataSequence pending sequence).2 rest).1,
        (emitPieces (emitDataSequence pending sequence).2 rest).2) := rfl

theorem emitPieces_cancelled (reply : JsString) (rest : List Piece) :
    emitPieces pending (.cancelled reply :: rest) = emitPieces pending rest := by
  cases pending <;> rfl

theorem emitPieces_paste (content : JsString) (rest : List Piece) :
    emitPieces pending (.paste content :: rest) = (.paste content :: (emitPieces none rest).1, (emitPieces none rest).2) := by
  cases pending <;> rfl

theorem emitPieces_append (a b : List Piece) :
    emitPieces pending (a ++ b) =
      ((emitPieces pending a).1 ++ (emitPieces (emitPieces pending a).2 b).1, (emitPieces (emitPieces pending a).2 b).2) := by
  induction a generalizing pending with
  | nil => rfl
  | cons piece a ih =>
    rw [cons_append]
    cases piece with
    | data sequence =>
      rw [emitPieces_data, emitPieces_data, ih, append_assoc]
    | cancelled reply =>
      rw [emitPieces_cancelled, emitPieces_cancelled, ih]
    | paste content =>
      rw [emitPieces_paste, emitPieces_paste, ih]
      rfl

theorem outcome_append (ps : List Piece) (text text' : JsString) (hwhole : whole text = ps ++ whole text')
    (hremainder : remainder text = remainder text') :
    outcome pending text = ((emitPieces pending ps).1 ++ (outcome (emitPieces pending ps).2 text').1,
      (outcome (emitPieces pending ps).2 text').2) := by
  unfold outcome
  rw [hwhole, hremainder, emitPieces_append]
  dsimp only
  split <;> rfl

/-! ## Text without a paste -/

def NoStart (text : JsString) : Prop := ∀ i, ¬ OccursAt BRACKETED_PASTE_START text i

theorem NoStart.of_append {a b : JsString} (h : NoStart (a ++ b)) : NoStart b := by
  intro i hi
  exact h (a.length + i) ((occursAt_append_right _ a b i).mpr hi)

theorem NoStart.not_prefix {text : JsString} (h : NoStart text) : ¬ BRACKETED_PASTE_START <+: text :=
  fun hpre => h 0 ((occursAt_zero _ _).mpr hpre)

variable (c : UInt16)

theorem nextPiece_noStart (rest : JsString) (h : NoStart (c :: rest)) : nextPiece (c :: rest) =
    if c = ESC then
      if c :: rest = [ESC, ESC] then .more
      else
        match scanEscape (c :: rest) with
        | .incomplete => .more
        | .cancelled length => .item (.cancelled ((c :: rest).take length)) ((c :: rest).drop length)
        | .sequence length => .item (.data ((c :: rest).take length)) ((c :: rest).drop length)
        | .escape => .item (.data [ESC]) rest
    else .item (.data [c]) rest := by
  unfold nextPiece
  exact if_neg h.not_prefix

/-- The loop over the buffer takes off the pieces one by one. -/
theorem extractFrom_item (rest : JsString) (hno : NoStart (c :: rest)) (piece : Piece)
    (after : JsString) (h : nextPiece (c :: rest) = .item piece after) :
    (∃ sequence, piece = .data sequence ∧
      extractFrom (fuel + 1) (c :: rest) = (sequence :: (extractFrom fuel after).1, (extractFrom fuel after).2)) ∨
    ∃ reply, piece = .cancelled reply ∧ extractFrom (fuel + 1) (c :: rest) = extractFrom fuel after := by
  rw [nextPiece_noStart c rest hno] at h
  rw [extractFrom]
  by_cases hesc : c = ESC
  · rw [if_pos hesc] at h ⊢
    by_cases hdouble : c :: rest = [ESC, ESC]
    · rw [if_pos hdouble] at h
      cases h
    · rw [if_neg hdouble] at h
      generalize scanEscape (c :: rest) = scanned at h ⊢
      cases scanned with
      | incomplete => cases h
      | cancelled length =>
        obtain ⟨rfl, rfl⟩ := Next.item.inj h
        exact .inr ⟨_, rfl, rfl⟩
      | sequence length =>
        obtain ⟨rfl, rfl⟩ := Next.item.inj h
        exact .inl ⟨_, rfl, rfl⟩
      | escape =>
        obtain ⟨rfl, rfl⟩ := Next.item.inj h
        exact .inl ⟨_, rfl, rfl⟩
  · rw [if_neg hesc] at h ⊢
    obtain ⟨rfl, rfl⟩ := Next.item.inj h
    exact .inl ⟨_, rfl, rfl⟩

theorem extractFrom_more (rest : JsString) (hno : NoStart (c :: rest))
    (h : nextPiece (c :: rest) = .more) (hdouble : c :: rest ≠ [ESC, ESC]) :
    extractFrom (fuel + 1) (c :: rest) = ([], c :: rest) := by
  rw [nextPiece_noStart c rest hno] at h
  rw [extractFrom]
  by_cases hesc : c = ESC
  · rw [if_pos hesc, if_neg hdouble] at h
    rw [if_pos hesc]
    generalize scanEscape (c :: rest) = scanned at h ⊢
    cases scanned with
    | incomplete => rfl
    | cancelled length => cases h
    | sequence length => cases h
    | escape => cases h
  · rw [if_neg hesc] at h
    cases h

/-- Two escapes at the end come out at once. -/
theorem extractFrom_double : extractFrom (fuel + 1) [ESC, ESC] = ([[ESC, ESC]], []) := by
  rw [extractFrom, if_pos rfl, scanEscape_double [] (by simp)]
  cases fuel <;> rfl

theorem extractFrom_whole (text : JsString) (hfuel : text.length ≤ fuel) (hno : NoStart text)
    (pending : Option ℕ) :
    emitSequences pending (extractFrom fuel text).1 = emitPieces pending (whole text) ∧
      (extractFrom fuel text).2 = remainder text := by
  induction fuel generalizing text pending with
  | zero =>
    obtain rfl := length_eq_zero_iff.mp (Nat.le_zero.mp hfuel)
    rw [whole_nil.1, whole_nil.2]
    exact ⟨by cases pending <;> rfl, rfl⟩
  | succ fuel ih =>
    cases text with
    | nil =>
      rw [whole_nil.1, whole_nil.2]
      exact ⟨by cases pending <;> rfl, rfl⟩
    | cons c rest =>
      cases hnext : nextPiece (c :: rest) with
      | stop e => exact e.elim
      | more =>
        rcases eq_or_ne (c :: rest) [ESC, ESC] with hdouble | hdouble
        · rw [hdouble, extractFrom_double, whole_double.1, whole_double.2]
          exact ⟨rfl, rfl⟩
        · obtain ⟨hwhole, hremainder⟩ := whole_more _ hnext hdouble
          rw [extractFrom_more fuel c rest hno hnext hdouble, hwhole, hremainder]
          exact ⟨by cases pending <;> rfl, rfl⟩
      | item piece after =>
        obtain ⟨hwhole, hremainder⟩ := whole_item _ _ _ hnext
        have hshorter := pieces.shrinks _ piece after hnext
        have hafter : NoStart after := by
          rw [← (nextPiece_text _ piece after hnext).1] at hno
          exact hno.of_append
        rw [hwhole, hremainder]
        rcases extractFrom_item fuel c rest hno piece after hnext with ⟨sequence, rfl, heq⟩ | ⟨reply, rfl, heq⟩
        · obtain ⟨hemit, hrest⟩ := ih after (by omega) hafter (emitDataSequence pending sequence).2
          rw [heq, emitPieces_data, ← hemit]
          exact ⟨rfl, hrest⟩
        · rw [heq, emitPieces_cancelled]
          exact ih after (by omega) hafter pending

/-! ## Text before a paste -/

/-- What comes before a paste is made of whole pieces, or of these and a terminal reply that the paste cancels. -/
def BeforePaste (text : JsString) : Prop :=
  remainder text = [] ∨ isReplyHeader (remainder text) = true ∧ (remainder text).getLast? ≠ some ESC

instance instDecidableBeforePaste (text : JsString) : Decidable (BeforePaste text) :=
  inferInstanceAs (Decidable (_ ∨ _ ∧ _))

/-- A scan that comes to the end of a text goes on where more text follows. -/
theorem scan_past (remaining more : JsString) (terminalReply : Bool) (hlast : remaining.getLast? ≠ some ESC)
    (extra fuel k : ℕ) (hk : 1 ≤ k) (hfuel : k + fuel = remaining.length + 1)
    (h : scan remaining terminalReply fuel k = .incomplete) :
    scan (remaining ++ more) terminalReply (fuel + extra) k =
      scan (remaining ++ more) terminalReply extra (remaining.length + 1) := by
  induction fuel generalizing k with
  | zero => rw [Nat.zero_add, show k = remaining.length + 1 by omega]
  | succ fuel ih =>
    have hle : k ≤ remaining.length := by omega
    have hbefore : (remaining ++ more)[k - 1]? = remaining[k - 1]? := getElem?_append_left (by omega)
    have htake : (remaining ++ more).take k = remaining.take k := take_append_of_le_length hle
    rw [show fuel + 1 + extra = fuel + extra + 1 by omega]
    rw [scan] at h
    rw [scan, hbefore, htake]
    split at h
    · cases h
    · rename_i hcancel
      rw [if_neg hcancel]
      split at h
      · cases h
      · rename_i hescape
        have hno : ¬ (terminalReply && decide (k > 2) && decide (remaining[k - 1]? = some ESC) &&
            decide (k < (remaining ++ more).length) && decide ((remaining ++ more)[k]? ≠ some BACKSLASH)) = true := by
          simp only [Bool.and_eq_true, decide_eq_true_eq] at hescape ⊢
          rintro ⟨⟨⟨⟨hreply, h2⟩, hesc⟩, -⟩, hback⟩
          rcases Nat.lt_or_ge k remaining.length with hlt | hge
          · rw [getElem?_append_left hlt] at hback
            exact hescape ⟨⟨⟨⟨hreply, h2⟩, hesc⟩, hlt⟩, hback⟩
          · rw [getLast?_eq_getElem?, show remaining.length = k by omega] at hlast
            exact hlast hesc
        rw [if_neg hno]
        split at h
        · split at h <;> cases h
        · exact ih (k + 1) (by omega) (by omega) h
        · cases h

theorem nextPiece_reply (reply rest : JsString) (hmore : nextPiece reply = .more) (hheader : isReplyHeader reply = true)
    (hlast : reply.getLast? ≠ some ESC) :
    nextPiece (reply ++ (BRACKETED_PASTE_START ++ rest)) = .item (.cancelled reply) (BRACKETED_PASTE_START ++ rest) := by
  have hcontrol := isControlString_of_header reply hheader
  obtain ⟨c, inner, rfl, hc⟩ := isControlString_cases reply hcontrol
  have hstart : ∀ text, ¬ BRACKETED_PASTE_START <+: ESC :: c :: text := by
    rintro text ⟨tail, htail⟩
    have hsecond := (List.cons.inj (List.cons.inj htail).2).1
    rcases hc with rfl | rfl | rfl <;> cases hsecond
  have hdouble : ∀ text, ESC :: c :: text ≠ [ESC, ESC] := by
    intro text heq
    have hsecond := (List.cons.inj (List.cons.inj heq).2).1
    rcases hc with rfl | rfl | rfl <;> cases hsecond
  have hscan : scanEscape (ESC :: c :: inner) = .incomplete := by
    unfold nextPiece at hmore
    rw [if_neg (hstart inner)] at hmore
    dsimp only at hmore
    rw [if_pos rfl, if_neg (hdouble inner)] at hmore
    split at hmore
    · assumption
    · cases hmore
    · cases hmore
    · cases hmore
  -- the escape of the paste start is where the reply ends
  have hends : scanEscape (ESC :: c :: inner ++ (BRACKETED_PASTE_START ++ rest)) =
      .cancelled (ESC :: c :: inner).length := by
    unfold scanEscape at hscan ⊢
    rw [hcontrol, hheader, Bool.true_and] at hscan
    rw [isControlString_append _ _ hcontrol, isReplyHeader_append _ _ hheader, Bool.true_and, length_append,
      scan_past _ _ true hlast _ _ 1 (Nat.le_refl 1) (by omega) hscan]
    have hat : (ESC :: c :: inner ++ (BRACKETED_PASTE_START ++ rest))[(ESC :: c :: inner).length]? = some ESC := by
      rw [getElem?_append_right (Nat.le_refl _), Nat.sub_self]
      rfl
    have hafter : (ESC :: c :: inner ++ (BRACKETED_PASTE_START ++ rest))[(ESC :: c :: inner).length + 1]? = some 91 := by
      rw [getElem?_append_right (Nat.le_add_right (ESC :: c :: inner).length 1), Nat.add_sub_cancel_left]
      rfl
    rw [show (BRACKETED_PASTE_START ++ rest).length = rest.length + 5 + 1 by simp [BRACKETED_PASTE_START], scan,
      Nat.add_sub_cancel, hat, hafter, if_neg (by simp [ESC, CAN, SUB]), if_pos (by simp [BACKSLASH, BRACKETED_PASTE_START])]
  have hcons : ESC :: c :: inner ++ (BRACKETED_PASTE_START ++ rest) =
      ESC :: c :: (inner ++ (BRACKETED_PASTE_START ++ rest)) := rfl
  unfold nextPiece
  rw [hcons] at hends ⊢
  rw [if_neg (hstart _)]
  dsimp only
  rw [if_pos rfl, if_neg (hdouble _), hends, ← hcons]
  dsimp only
  rw [take_left, drop_left]

/-- The pieces of a text that a paste follows. -/
theorem whole_before (front : JsString) (hbefore : BeforePaste front) :
    ∃ ps, (∀ pending, emitPieces pending ps = emitPieces pending (whole front)) ∧
      ∀ text, whole (front ++ (BRACKETED_PASTE_START ++ text)) = ps ++ whole (BRACKETED_PASTE_START ++ text) ∧
        remainder (front ++ (BRACKETED_PASTE_START ++ text)) = remainder (BRACKETED_PASTE_START ++ text) := by
  have happend : ∀ text, whole (front ++ (BRACKETED_PASTE_START ++ text)) =
        whole front ++ whole (remainder front ++ (BRACKETED_PASTE_START ++ text)) ∧
      remainder (front ++ (BRACKETED_PASTE_START ++ text)) =
        remainder (remainder front ++ (BRACKETED_PASTE_START ++ text)) := by
    refine fun text => whole_append _ _ (fun _ => ⟨by simp [BRACKETED_PASTE_START], ?_⟩)
    intro c hc
    obtain rfl := Option.some.inj hc
    rfl
  rcases hbefore with hnothing | ⟨hheader, hlast⟩
  · refine ⟨whole front, fun _ => rfl, fun text => ?_⟩
    have htext := happend text
    rw [hnothing] at htext
    exact htext
  · have hmore : nextPiece (remainder front) = .more := by
      unfold remainder
      split
      · rfl
      · exact nextPiece_left front
    refine ⟨whole front ++ [.cancelled (remainder front)], fun pending => ?_, fun text => ?_⟩
    · rw [emitPieces_append, emitPieces_cancelled]
      exact Prod.ext (append_nil _) rfl
    · obtain ⟨hwhole, hremainder⟩ := happend text
      obtain ⟨hw, hr⟩ := whole_item _ _ _ (nextPiece_reply (remainder front) text hmore hheader hlast)
      rw [hwhole, hremainder, hw, hr, append_assoc]
      exact ⟨rfl, rfl⟩

/-! ## Text with pastes -/

/-- Wherever a paste start stands, it is pasted itself or what comes before it is whole. -/
def PastesOk (text : JsString) : Prop :=
  ∀ i, OccursAt BRACKETED_PASTE_START text i →
    BRACKETED_PASTE_START <+: remainder (text.take i) ∨ BeforePaste (text.take i)

variable (i : ℕ)

theorem pasteStart_places (h : OccursAt BRACKETED_PASTE_START (BRACKETED_PASTE_START ++ text) i) :
    i = 0 ∨ ∃ k, i = BRACKETED_PASTE_START.length + k := by
  rcases Nat.lt_or_ge i 6 with hlt | hge
  · left
    have hprefix := h.2
    match i, hlt with
    | 0, _ => rfl
    | 1, _ => exact absurd (List.cons_prefix_cons.mp hprefix).1 (by decide)
    | 2, _ => exact absurd (List.cons_prefix_cons.mp hprefix).1 (by decide)
    | 3, _ => exact absurd (List.cons_prefix_cons.mp hprefix).1 (by decide)
    | 4, _ => exact absurd (List.cons_prefix_cons.mp hprefix).1 (by decide)
    | 5, _ => exact absurd (List.cons_prefix_cons.mp hprefix).1 (by decide)
  · exact .inr ⟨i - 6, by rw [length_pasteStart]; omega⟩

theorem pastesOk_paste (front text : JsString) (hbefore : BeforePaste front)
    (h : PastesOk (front ++ (BRACKETED_PASTE_START ++ text))) : PastesOk (BRACKETED_PASTE_START ++ text) := by
  intro i hi
  rcases pasteStart_places text i hi with rfl | ⟨k, rfl⟩
  · exact .inr (.inl whole_nil.2)
  · have hthere := h _ ((occursAt_append_right _ front _ _).mpr hi)
    obtain ⟨ps, -, hmore⟩ := whole_before front hbefore
    rw [take_length_add_append, take_length_add_append] at hthere
    unfold BeforePaste at hthere
    rw [(hmore (text.take k)).2] at hthere
    rw [take_length_add_append]
    exact hthere

theorem nextPiece_paste (endIndex : ℕ) (h : firstIndex BRACKETED_PASTE_END text = some endIndex) :
    nextPiece (BRACKETED_PASTE_START ++ text) =
      .item (.paste (text.take endIndex)) (text.drop (endIndex + BRACKETED_PASTE_END.length)) := by
  unfold nextPiece
  rw [if_pos (prefix_append _ _), drop_left, h]

theorem nextPiece_open (h : firstIndex BRACKETED_PASTE_END text = none) :
    nextPiece (BRACKETED_PASTE_START ++ text) = .more := by
  unfold nextPiece
  rw [if_pos (prefix_append _ _), drop_left, h]

theorem firstIndex_take (pattern text : JsString) (i : ℕ) (h : firstIndex pattern text = some i) :
    firstIndex pattern (text.take (i + pattern.length)) = some i := by
  obtain ⟨hat, hfirst⟩ := (firstIndex_eq_some _ _ _).mp h
  have hle := hat.le
  have hsplit := List.take_append_drop (i + pattern.length) text
  refine (firstIndex_eq_some _ _ _).mpr ⟨?_, fun j hj hj' => hfirst j hj ?_⟩
  · rw [← hsplit] at hat
    exact hat.of_append (by rw [length_take]; omega)
  · rw [← hsplit]
    exact hj'.append _

theorem pastesOk_rest (endIndex : ℕ) (hend : firstIndex BRACKETED_PASTE_END text = some endIndex)
    (h : PastesOk (BRACKETED_PASTE_START ++ text)) : PastesOk (text.drop (endIndex + BRACKETED_PASTE_END.length)) := by
  intro i hi
  have hsplit := List.take_append_drop (endIndex + BRACKETED_PASTE_END.length) text
  have hfirst := firstIndex_take _ _ _ hend
  have hle := ((firstIndex_eq_some _ _ _).mp hend).1.le
  generalize htail : text.drop (endIndex + BRACKETED_PASTE_END.length) = tail at hi hsplit ⊢
  generalize hhead : text.take (endIndex + BRACKETED_PASTE_END.length) = head at hsplit hfirst
  have hlength : head.length = endIndex + BRACKETED_PASTE_END.length := by
    rw [← hhead, length_take, Nat.min_eq_left hle]
  have hthere := h (BRACKETED_PASTE_START.length + (head.length + i)) (by
    rw [← hsplit]
    exact (occursAt_append_right _ _ _ _).mpr ((occursAt_append_right _ _ _ _).mpr hi))
  have hpaste := nextPiece_paste (head ++ tail.take i) endIndex (firstIndex_append _ _ _ _ hfirst)
  rw [← hlength, drop_left] at hpaste
  rw [← hsplit, take_length_add_append, take_length_add_append] at hthere
  unfold BeforePaste at hthere
  rw [(whole_item _ _ _ hpaste).2] at hthere
  exact hthere

theorem outcome_open (text : JsString) (h : nextPiece (BRACKETED_PASTE_START ++ text) = .more) :
    outcome pending (BRACKETED_PASTE_START ++ text) = ([], ⟨[], true, text, none⟩) := by
  obtain ⟨hwhole, hremainder⟩ := whole_more _ h (by simp [BRACKETED_PASTE_START])
  unfold outcome
  rw [hwhole, hremainder]
  dsimp only
  rw [if_pos (prefix_append _ _), drop_left]
  cases pending <;> rfl

theorem noStart_before (h : firstIndex BRACKETED_PASTE_START text = some i) :
    NoStart (text.take i) := by
  obtain ⟨hat, hfirst⟩ := (firstIndex_eq_some _ _ _).mp h
  intro j hj
  have hle := hj.le
  have hi := hat.1
  rw [length_take, length_pasteStart] at hle
  refine hfirst j (by omega) ?_
  rw [← List.take_append_drop i text]
  exact hj.append _

theorem NoStart.remainder {text : JsString} (h : NoStart text) : ¬ BRACKETED_PASTE_START <+: remainder text := by
  intro hprefix
  rw [← whole_text text] at h
  exact h.of_append.not_prefix hprefix

/-- A call that finds no paste start. -/
theorem processText_plain (text : JsString)
    (h : firstIndex BRACKETED_PASTE_START text = none) :
    processText (fuel + 1) false pending text = outcome pending text := by
  have hno : NoStart text := (firstIndex_eq_none _ _).mp h
  obtain ⟨hemit, hrest⟩ := extractFrom_whole text.length text (Nat.le_refl _) hno pending
  rw [processText, h]
  dsimp only
  unfold extractCompleteSequences outcome
  rw [hemit, hrest, if_neg hno.remainder]

/-- A call that finds one: what comes before the paste is emitted, and the paste and what follows are read. -/
theorem processText_start (front text : JsString) (hno : NoStart front)
    (hfirst : firstIndex BRACKETED_PASTE_START (front ++ (BRACKETED_PASTE_START ++ text)) = some front.length)
    (hbefore : BeforePaste front)
    (hpaste : ∀ pending, processText fuel true none text = outcome pending (BRACKETED_PASTE_START ++ text)) :
    processText (fuel + 1) false pending (front ++ (BRACKETED_PASTE_START ++ text)) =
      outcome pending (front ++ (BRACKETED_PASTE_START ++ text)) := by
  obtain ⟨ps, hemitted, hmore⟩ := whole_before front hbefore
  obtain ⟨hwhole, hremainder⟩ := hmore text
  have hemit := (extractFrom_whole front.length front (Nat.le_refl _) hno pending).1
  rw [processText, hfirst, outcome_append pending ps _ _ hwhole hremainder]
  dsimp only
  unfold extractCompleteSequences
  rw [take_left, hemit, hemitted, ← hpaste, ← append_assoc, ← length_append, drop_left]

theorem processText_outcome :
    (∀ pending text, text.length < fuel → PastesOk text → processText fuel false pending text = outcome pending text) ∧
    ∀ text, text.length < fuel → PastesOk (BRACKETED_PASTE_START ++ text) →
      ∀ pending, processText fuel true none text = outcome pending (BRACKETED_PASTE_START ++ text) := by
  induction fuel with
  | zero => exact ⟨fun _ _ h => absurd h (Nat.not_lt_zero _), fun _ h => absurd h (Nat.not_lt_zero _)⟩
  | succ fuel ih =>
    obtain ⟨ihNormal, ihPaste⟩ := ih
    refine ⟨fun pending text hlt hok => ?_, fun text hlt hok pending => ?_⟩
    · cases hstart : firstIndex BRACKETED_PASTE_START text with
      | none => exact processText_plain fuel pending text hstart
      | some i =>
        have hno := noStart_before text i hstart
        have hat := ((firstIndex_eq_some _ _ _).mp hstart).1
        have hbefore : BeforePaste (text.take i) := (hok i hat).resolve_left hno.remainder
        have hsplit := hat.split
        have hle := hat.le
        have hfront : (text.take i).length = i := length_take_of_le hat.1
        have htail := length_drop (i := i + BRACKETED_PASTE_START.length) (l := text)
        generalize text.take i = front at hno hbefore hsplit hfront
        generalize text.drop (i + BRACKETED_PASTE_START.length) = tail at hsplit htail
        rw [append_assoc] at hsplit
        rw [hsplit, ← hfront] at hstart
        rw [length_pasteStart] at hle htail
        rw [hsplit] at hok ⊢
        exact processText_start fuel pending front tail hno hstart hbefore
          (ihPaste tail (by omega) (pastesOk_paste front tail hbefore hok))
    · cases hend : firstIndex BRACKETED_PASTE_END text with
      | none =>
        rw [processText, hend, outcome_open pending text (nextPiece_open text hend)]
      | some endIndex =>
        have hle := ((firstIndex_eq_some _ _ _).mp hend).1.le
        have hrest := ihNormal none _ (by rw [length_drop]; rw [length_pasteEnd] at hle ⊢; omega)
          (pastesOk_rest text endIndex hend hok)
        obtain ⟨hwhole, hremainder⟩ := whole_item _ _ _ (nextPiece_paste text endIndex hend)
        rw [outcome_append pending [.paste (text.take endIndex)] _ _ hwhole hremainder, emitPieces_paste, processText, hend]
        dsimp only
        split
        · rw [hrest]
          rfl
        · rename_i hnothing
          rw [length_eq_zero_iff.mp (Nat.eq_zero_of_not_pos hnothing)]
          unfold outcome
          rw [whole_nil.1, whole_nil.2]
          rfl

/-! ## Chunks -/

/-- What is kept, and the start marker of a paste that is not over. -/
def StdinBuffer.pendingText (st : StdinBuffer) : JsString :=
  if st.pasteMode then BRACKETED_PASTE_START ++ st.pasteBuffer else st.buffer

/-- The condition on a step, where `next` is the chunk of the next step: pastes are not cut off escapes, and two escapes not
off what begins a sequence. -/
def StdinBuffer.StepOk (st : StdinBuffer) (chunk : JsString) (next : Option JsString) : Prop :=
  PastesOk (st.pendingText ++ chunk) ∧
    (left (st.pendingText ++ chunk) = [ESC, ESC] → ∀ chunk' ∈ next, ∀ c ∈ chunk'.head?, opensSequence c = false)

/-- Every step of a run meets the condition. -/
def StdinBuffer.RunOk : StdinBuffer → List JsString → Prop
  | _, [] => True
  | st, chunk :: rest => st.StepOk chunk rest.head? ∧ RunOk (st.process chunk).2 rest

theorem pendingText_outcome (text : JsString) :
    (outcome pending text).2.pendingText = remainder text := by
  unfold outcome
  dsimp only
  split
  · rename_i hstart
    obtain ⟨tail, htail⟩ := hstart
    unfold StdinBuffer.pendingText
    rw [← htail, if_pos rfl, drop_left]
  · rfl

/-- A step reads what was kept and the chunk, with the key that a character may repeat. -/
theorem process_outcome (before : Option ℕ) (input chunk : JsString) (hne : chunk ≠ [])
    (hok : PastesOk (remainder input ++ chunk)) :
    (outcome before input).2.process chunk = outcome (emitPieces before (whole input)).2 (remainder input ++ chunk) := by
  unfold process
  rw [isEmpty_eq_false_iff.mpr hne, Bool.false_and, if_neg Bool.false_ne_true]
  by_cases hstart : BRACKETED_PASTE_START <+: remainder input
  · have hstate : (outcome before input).2 = ⟨[], true, (remainder input).drop BRACKETED_PASTE_START.length, none⟩ := by
      unfold outcome
      dsimp only
      rw [if_pos hstart]
    obtain ⟨tail, htail⟩ := hstart
    rw [hstate, ← htail, drop_left]
    rw [← htail, append_assoc] at hok
    rw [append_assoc]
    exact (processText_outcome _).2 (tail ++ chunk) (Nat.lt_succ_self _) hok _
  · have hstate : (outcome before input).2 = ⟨remainder input, false, [], (emitPieces before (whole input)).2⟩ := by
      unfold outcome
      dsimp only
      rw [if_neg hstart]
    rw [hstate]
    exact (processText_outcome _).1 _ (remainder input ++ chunk) (Nat.lt_succ_self _) hok

theorem outcome_fst (text : JsString) :
    (outcome pending text).1 = (emitPieces pending (whole text)).1 := by
  unfold outcome
  dsimp only
  split <;> rfl

section

variable (input chunk : JsString) (hne : chunk ≠ [])
    (hcut : left input = [ESC, ESC] → ∀ c ∈ chunk.head?, opensSequence c = false)
include hne hcut

/-- What a step adds to what was read before. -/
theorem outcome_chunk (hok : PastesOk (remainder input ++ chunk)) :
    outcome none (input ++ chunk) = ((outcome none input).1 ++ ((outcome none input).2.process chunk).1,
      ((outcome none input).2.process chunk).2) := by
  obtain ⟨hwhole, hremainder⟩ := whole_append input chunk (fun h => ⟨hne, hcut h⟩)
  rw [process_outcome none input chunk hne hok, outcome_append none (whole input) _ _ hwhole hremainder,
    outcome_fst none input]

theorem left_append : left (input ++ chunk) = left (remainder input ++ chunk) := by
  rw [(items_append input chunk).2]
  unfold remainder
  split
  · rename_i hends
    rw [hends]
    exact (items_item _ _ _ (nextPiece_double chunk hne (hcut hends))).2
  · rfl

end

theorem run_outcome (chunks : List JsString) (input : JsString) (hne : ∀ chunk ∈ chunks, chunk ≠ [])
    (hok : RunOk (outcome none input).2 chunks)
    (hcut : left input = [ESC, ESC] → ∀ chunk ∈ chunks.head?, ∀ c ∈ chunk.head?, opensSequence c = false) :
    outcome none (input ++ chunks.flatten) =
      ((outcome none input).1 ++ (run (outcome none input).2 chunks).1, (run (outcome none input).2 chunks).2) := by
  induction chunks generalizing input with
  | nil =>
    rw [flatten_nil, append_nil]
    exact Prod.ext (append_nil _).symm rfl
  | cons chunk rest ih =>
    obtain ⟨⟨hpastes, hnext⟩, hrest⟩ := hok
    rw [pendingText_outcome] at hpastes hnext
    have hchunk := hne chunk mem_cons_self
    have hcut' := fun h => hcut h chunk rfl
    have hstep := outcome_chunk input chunk hchunk hcut' hpastes
    have hstate : ((outcome none input).2.process chunk).2 = (outcome none (input ++ chunk)).2 := by
      rw [hstep]
    rw [hstate] at hrest
    have hrun := ih (input ++ chunk) (fun c hc => hne c (mem_cons_of_mem _ hc)) hrest (fun h => by
      rw [left_append input chunk hchunk hcut'] at h
      exact hnext h)
    have hcons : run (outcome none input).2 (chunk :: rest) = (((outcome none input).2.process chunk).1 ++
        (run ((outcome none input).2.process chunk).2 rest).1, (run ((outcome none input).2.process chunk).2 rest).2) := rfl
    rw [flatten_cons, ← append_assoc, hrun, hcons, hstate]
    refine Prod.ext ?_ rfl
    dsimp only
    rw [hstep, append_assoc]

/-! ## Cancelled replies -/

theorem scan_cancelled (remaining : JsString) (terminalReply : Bool) (fuel k n : ℕ)
    (h : scan remaining terminalReply fuel k = .cancelled n) :
    terminalReply = true ∧ (2 < n ∧ (remaining[n - 1]? = some CAN ∨ remaining[n - 1]? = some SUB) ∨
      2 ≤ n ∧ remaining[n]? = some ESC) := by
  induction fuel generalizing k with
  | zero => cases h
  | succ fuel ih =>
    unfold scan at h
    split at h
    · rename_i hcancel
      obtain rfl := Scanned.cancelled.inj h
      simp only [Bool.and_eq_true, Bool.or_eq_true, decide_eq_true_eq] at hcancel
      exact ⟨hcancel.1.1, .inl ⟨hcancel.1.2, hcancel.2⟩⟩
    · split at h
      · rename_i hcancel
        obtain rfl := Scanned.cancelled.inj h
        simp only [Bool.and_eq_true, decide_eq_true_eq] at hcancel
        obtain ⟨⟨⟨⟨hreply, hk⟩, hesc⟩, -⟩, -⟩ := hcancel
        exact ⟨hreply, .inr ⟨by omega, hesc⟩⟩
      · split at h
        · split at h <;> cases h
        · exact ih (k + 1) h
        · cases h

/-- A terminal reply that CAN or SUB ends, or the escape of what follows. -/
def IsCancelledReply (reply after : JsString) : Prop :=
  isReplyHeader reply = true ∧ (reply.getLast? = some CAN ∨ reply.getLast? = some SUB ∨ after.head? = some ESC)

theorem scanEscape_reply (n : ℕ) (h : scanEscape text = .cancelled n) :
    IsCancelledReply (text.take n) (text.drop n) := by
  have hbounds := scanEscape_cancelled text n h
  obtain ⟨hreply, hend⟩ := scan_cancelled text _ _ 1 n h
  obtain ⟨front, hpre, hplain, hlength, hmore⟩ := isReplyHeader_settled text (Bool.and_eq_true_iff.mp hreply).2
  -- what ends the reply is not in its header
  have hat : ∀ m, 1 ≤ m → m ≤ front.length → ∀ c, text[m]? = some c → Plain c := by
    intro m h1 h2 c hc
    obtain ⟨tail, htail⟩ := hpre
    rw [← htail, cons_append] at hc
    obtain ⟨m, rfl⟩ := Nat.exists_eq_add_of_le' h1
    rw [getElem?_cons_succ, getElem?_append_left (by omega)] at hc
    exact hplain c (mem_of_getElem? hc)
  have hheader : front.length + 1 ≤ n := by
    by_contra hshort
    rcases hend with ⟨h2, hc⟩ | ⟨h2, hc⟩
    · rcases hc with hc | hc
      · exact (hat (n - 1) (by omega) (by omega) _ hc).ne CAN (by decide) rfl
      · exact (hat (n - 1) (by omega) (by omega) _ hc).ne SUB (by decide) rfl
    · exact (hat n (by omega) (by omega) _ hc).ne ESC (by decide) rfl
  refine ⟨?_, ?_⟩
  · have hinside : ESC :: front <+: text.take n :=
      prefix_take_iff.mpr ⟨hpre, by rw [length_cons]; exact hheader⟩
    obtain ⟨tail, htail⟩ := hinside
    rw [← htail]
    exact hmore tail
  · have hlast : (text.take n).getLast? = text[n - 1]? := by
      rw [getLast?_eq_getElem?, length_take, Nat.min_eq_left hbounds.2, getElem?_take_of_lt (by omega)]
    rw [hlast, head?_drop]
    rcases hend with ⟨-, hc | hc⟩ | ⟨-, hc⟩
    · exact .inl hc
    · exact .inr (.inl hc)
    · exact .inr (.inr hc)

def CancelledReplies : List Piece → JsString → Prop
  | [], _ => True
  | piece :: more, rest =>
    (∀ reply, piece = .cancelled reply → IsCancelledReply reply (more.flatMap Piece.text ++ rest)) ∧
      CancelledReplies more rest

theorem nextPiece_cancelled (text reply rest : JsString) (h : nextPiece text = .item (.cancelled reply) rest) :
    IsCancelledReply reply rest := by
  unfold nextPiece at h
  split at h
  · split at h
    · cases h
    · obtain ⟨hpiece, -⟩ := Next.item.inj h
      cases hpiece
  · split at h
    · cases h
    · split at h
      · split at h
        · cases h
        · split at h
          · cases h
          · rename_i n hn
            obtain ⟨hpiece, rfl⟩ := Next.item.inj h
            obtain rfl := Piece.cancelled.inj hpiece
            exact scanEscape_reply _ n hn
          · obtain ⟨hpiece, -⟩ := Next.item.inj h
            cases hpiece
          · obtain ⟨hpiece, -⟩ := Next.item.inj h
            cases hpiece
      · obtain ⟨hpiece, -⟩ := Next.item.inj h
        cases hpiece

theorem whole_cancelled : CancelledReplies (whole text) (remainder text) := by
  induction hn : text.length using Nat.strongRecOn generalizing text with
  | ind n ih =>
    subst hn
    cases hnext : nextPiece text with
    | stop e => exact e.elim
    | more =>
      rcases eq_or_ne text [ESC, ESC] with rfl | hdouble
      · rw [whole_double.1]
        exact ⟨fun reply h => (by cases h), trivial⟩
      · rw [(whole_more text hnext hdouble).1]
        trivial
    | item piece rest =>
      obtain ⟨hwhole, hremainder⟩ := whole_item text piece rest hnext
      rw [hwhole, hremainder]
      refine ⟨fun reply hreply => ?_, ih rest.length (pieces.shrinks text piece rest hnext) rest rfl⟩
      rw [hreply] at hnext
      rw [whole_text rest]
      exact nextPiece_cancelled text reply rest hnext

/-! ## Repeated keys -/

/-- The events of pieces, where `last` is the event just before: a cancelled reply has none, and of the data only a character
that repeats the Kitty key of the event just before is dropped, once. -/
inductive Emits : Option StdinEvent → List Piece → List StdinEvent → Prop where
  | nil (last : Option StdinEvent) : Emits last [] []
  | data (last : Option StdinEvent) (sequence : JsString) (ps : List Piece) (events : List StdinEvent)
      (h : Emits (some (.data sequence)) ps events) : Emits last (.data sequence :: ps) (.data sequence :: events)
  | paste (last : Option StdinEvent) (content : JsString) (ps : List Piece) (events : List StdinEvent)
      (h : Emits (some (.paste content)) ps events) : Emits last (.paste content :: ps) (.paste content :: events)
  | cancelled (last : Option StdinEvent) (reply : JsString) (ps : List Piece) (events : List StdinEvent)
      (h : Emits last ps events) : Emits last (.cancelled reply :: ps) events
  | repeated (key : JsString) (c : UInt16) (ps : List Piece) (events : List StdinEvent)
      (hkey : parseUnmodifiedKittyPrintableCodepoint key = some c.toNat) (h : Emits none ps events) :
      Emits (some (.data key)) (.data [c] :: ps) events

/-- The key that a character may repeat. -/
def pendingOf : Option StdinEvent → Option ℕ
  | some (.data sequence) => parseUnmodifiedKittyPrintableCodepoint sequence
  | _ => none

theorem emitDataSequence_cases (sequence : JsString) :
    emitDataSequence pending sequence = ([.data sequence], parseUnmodifiedKittyPrintableCodepoint sequence) ∨
      ∃ c, sequence = [c] ∧ pending = some c.toNat ∧ emitDataSequence pending sequence = ([], none) := by
  unfold emitDataSequence
  split
  · rename_i c codepoint
    split
    · rename_i hsame
      exact .inr ⟨c, rfl, congrArg some hsame.symm, rfl⟩
    · exact .inl rfl
  · exact .inl rfl

theorem emitPieces_shows (last : Option StdinEvent) (ps : List Piece) :
    Emits last ps (emitPieces (pendingOf last) ps).1 := by
  induction ps generalizing last with
  | nil =>
    have hnil : (emitPieces (pendingOf last) []).1 = [] := by cases pendingOf last <;> rfl
    rw [hnil]
    exact .nil last
  | cons piece ps ih =>
    cases piece with
    | paste content =>
      rw [emitPieces_paste]
      exact .paste last content ps _ (ih (some (.paste content)))
    | cancelled reply =>
      rw [emitPieces_cancelled]
      exact .cancelled last reply ps _ (ih last)
    | data sequence =>
      rw [emitPieces_data]
      rcases emitDataSequence_cases (pendingOf last) sequence with heq | ⟨c, rfl, hkey, heq⟩
      · rw [heq]
        exact .data last sequence ps _ (ih (some (.data sequence)))
      · rw [heq]
        match last, hkey with
        | some (.data key), hkey => exact .repeated key c ps _ hkey (ih none)

/-! ## A whole run -/

/-- Runs on the same input whose steps all meet the condition emit the same and keep the same; and what they emit and keep is
the input, without cancelled replies and repeated keys. -/
theorem run_exact (chunks : List JsString) (hne : ∀ chunk ∈ chunks, chunk ≠ []) (hok : RunOk init chunks) :
    (∀ chunks', (∀ chunk ∈ chunks', chunk ≠ []) → RunOk init chunks' → chunks'.flatten = chunks.flatten →
      run init chunks' = run init chunks) ∧
    ∃ ps, Emits none ps (run init chunks).1 ∧
      ps.flatMap Piece.text ++ (run init chunks).2.pendingText = chunks.flatten ∧
      CancelledReplies ps (run init chunks).2.pendingText := by
  have hinit : outcome none [] = ([], init) := by
    unfold outcome
    rw [whole_nil.1, whole_nil.2]
    rfl
  have hread : ∀ cs : List JsString, (∀ chunk ∈ cs, chunk ≠ []) → RunOk init cs → run init cs = outcome none cs.flatten := by
    intro cs hne hok
    have hrun := run_outcome cs [] hne (by rw [hinit]; exact hok) (fun h => by
      rw [(items_more [] rfl).2] at h
      cases h)
    rw [nil_append, hinit, nil_append] at hrun
    exact hrun.symm
  refine ⟨fun chunks' hne' hok' hsame => ?_, whole chunks.flatten, ?_, ?_, ?_⟩
  · rw [hread chunks hne hok, hread chunks' hne' hok', hsame]
  · rw [hread chunks hne hok, outcome_fst]
    exact emitPieces_shows none _
  · rw [hread chunks hne hok, pendingText_outcome, whole_text]
  · rw [hread chunks hne hok, pendingText_outcome]
    exact whole_cancelled _

instance instDecidablePastesOk (text : JsString) : Decidable (PastesOk text) :=
  decidable_of_iff (∀ i ≤ text.length, OccursAt BRACKETED_PASTE_START text i →
      BRACKETED_PASTE_START <+: remainder (text.take i) ∨ BeforePaste (text.take i))
    ⟨fun h i hi => h i hi.1 hi, fun h i _ hi => h i hi⟩

/-- The Kitty key `a` and the character it is repeated by, a reply that a paste cancels, the paste, and two escapes. -/
def sample : JsString :=
  ESC :: js "[97ua" ++ ESC :: js "]11;rgb" ++ BRACKETED_PASTE_START ++ js "x" ++ BRACKETED_PASTE_END ++ [ESC, ESC] ++ js "[A"

theorem run_exact_sample :
    run init [sample.take 3, (sample.drop 3).take 13, sample.drop 16] = run init [sample] ∧
      (run init [sample]).1 = [.data (ESC :: js "[97u"), .paste (js "x"), .data [ESC], .data (ESC :: js "[A")] ∧
      (∃ ps, Emits none ps (run init [sample]).1 ∧
        ps.flatMap Piece.text ++ (run init [sample]).2.pendingText = sample ∧
        CancelledReplies ps (run init [sample]).2.pendingText) := by
  have hok : RunOk init [sample] := ⟨⟨by decide +kernel, by decide +kernel⟩, trivial⟩
  have hok' : RunOk init [sample.take 3, (sample.drop 3).take 13, sample.drop 16] :=
    ⟨⟨by decide +kernel, by decide +kernel⟩, ⟨by decide +kernel, by decide +kernel⟩,
      ⟨by decide +kernel, by decide +kernel⟩, trivial⟩
  obtain ⟨hsame, hshown⟩ := run_exact [sample] (by decide) hok
  rw [flatten_singleton] at hshown
  exact ⟨hsame _ (by decide +kernel) hok' (by decide +kernel), by decide +kernel, hshown⟩

/-- Two escapes and what opens a sequence come out in two ways, and an escape before a paste is lost. -/
theorem escape_cut : (run init [[ESC, ESC], [91, 65]]).1 = [.data [ESC, ESC], .data [91], .data [65]] ∧
    (run init [[ESC, ESC, 91, 65]]).1 = [.data [ESC], .data [ESC, 91, 65]] ∧
    run init [ESC :: (BRACKETED_PASTE_START ++ [120] ++ BRACKETED_PASTE_END)] = ([.paste [120]], init) :=
  ⟨by decide, by decide, by decide⟩

end PiAgent.Tui
