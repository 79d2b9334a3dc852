import PiAgent.Tui.WordWrap

/-! # Chunks cover the line -/

namespace PiAgent.Tui

open Option List Durable

variable (text : JsString) (p q : ℕ)

variable (p : ℕ)

theorem slice_length : slice text p text.length = text.drop p := by
  unfold slice
  rw [take_length]

theorem slice_slice (p q a b : ℕ) (hpq : p ≤ q) (hb : b ≤ q - p) :
    slice (slice text p q) a b = slice text (p + a) (p + b) := by
  unfold slice
  rw [take_drop, take_take, drop_drop, Nat.min_eq_left (by omega)]

theorem slice_append (p q r : ℕ) (hpq : p ≤ q) (hqr : q ≤ r) :
    slice text p q ++ slice text q r = slice text p r := by
  unfold slice
  obtain ⟨k, rfl⟩ := Nat.exists_eq_add_of_le hqr
  rw [take_add, drop_append, drop_append]
  congr 1
  rcases Nat.lt_or_ge text.length q with hshort | hlong
  · rw [drop_eq_nil_of_le (Nat.le_of_lt hshort), take_nil, drop_nil, drop_nil, append_nil,
      drop_eq_nil_of_le (by rw [length_take]; omega)]
  · rw [length_take, Nat.min_eq_left hlong, Nat.sub_self, drop_zero, Nat.sub_eq_zero_of_le hpq, drop_zero,
      drop_eq_nil_of_le (by rw [length_take]; omega), nil_append]

/-! ## Segments and chunks -/

inductive Spread (line : JsString) : ℕ → List SegmentData → Prop where
  | nil (p : ℕ) (h : p ≤ line.length) : Spread line p []
  | cons (p : ℕ) (seg : SegmentData) (rest : List SegmentData) (hle : p ≤ seg.index) (hne : seg.segment ≠ [])
      (htext : seg.segment = slice line seg.index (seg.index + seg.segment.length))
      (hstop : seg.index + seg.segment.length ≤ line.length)
      (hrest : Spread line (seg.index + seg.segment.length) rest) : Spread line p (seg :: rest)

/-- Chunks from one place of a line to another: not empty, contiguous, with the text of their ranges. -/
def CoversTo (line : JsString) : ℕ → ℕ → List TextChunk → Prop
  | p, q, [] => p = q
  | p, q, chunk :: rest =>
    chunk.startIndex = p ∧ p < chunk.endIndex ∧ chunk.endIndex ≤ line.length ∧ chunk.text = slice line p chunk.endIndex ∧
      CoversTo line chunk.endIndex q rest

variable (line : JsString)

theorem coversTo_append (p q r : ℕ) (as bs : List TextChunk) (h1 : CoversTo line p q as)
    (h2 : CoversTo line q r bs) : CoversTo line p r (as ++ bs) := by
  induction as generalizing p with
  | nil =>
    obtain rfl := h1
    exact h2
  | cons chunk as ih =>
    obtain ⟨hstart, hlt, hle, htext, hrest⟩ := h1
    exact ⟨hstart, hlt, hle, htext, ih _ hrest⟩

variable (p q : ℕ)

theorem coversTo_single (hlt : p < q) (hle : q ≤ line.length) :
    CoversTo line p q [⟨slice line p q, p, q⟩] := ⟨rfl, hlt, hle, rfl, rfl⟩

variable (chunks : List TextChunk)

theorem coversTo_last (last : TextChunk) (h : CoversTo line p q (chunks ++ [last])) :
    CoversTo line p last.startIndex chunks ∧ last.startIndex < q ∧ p ≤ last.startIndex ∧ last.endIndex = q ∧
      last.text = slice line last.startIndex q := by
  induction chunks generalizing p with
  | nil =>
    obtain ⟨hstart, hlt, -, htext, hend⟩ := h
    have hend : last.endIndex = q := hend
    exact ⟨hstart.symm, by omega, by omega, hend, by rw [htext, hstart, hend]⟩
  | cons chunk chunks ih =>
    obtain ⟨hstart, hlt, hle, htext, hrest⟩ := h
    obtain ⟨h1, h2, h3, h4, h5⟩ := ih _ hrest
    exact ⟨⟨hstart, hlt, hle, htext, h1⟩, h2, by omega, h4, h5⟩

variable (seg : SegmentData)

theorem coversTo_shift (p q : ℕ) (chunks : List TextChunk)
    (htext : seg.segment = slice line seg.index (seg.index + seg.segment.length))
    (hstop : seg.index + seg.segment.length ≤ line.length) (h : CoversTo seg.segment p q chunks) :
    CoversTo line (seg.index + p) (seg.index + q) (chunks.map (TextChunk.shift seg.index)) := by
  induction chunks generalizing p with
  | nil => exact congrArg (seg.index + ·) h
  | cons chunk chunks ih =>
    obtain ⟨hstart, hlt, hle, hslice, hrest⟩ := h
    refine ⟨congrArg (seg.index + ·) hstart, Nat.add_lt_add_left hlt _, Nat.le_trans (Nat.add_le_add_left hle _) hstop, ?_,
      ih _ hrest⟩
    show chunk.text = _
    rw [hslice, htext, slice_slice line seg.index _ p chunk.endIndex (Nat.le_add_right _ _) (by omega)]
    rfl

/-! ## One step -/

variable (chars : Characters)

/-- The open chunk begins before the end of the line and not after the next segment; the wrap opportunity lies between. -/
structure Opened (line : JsString) (st : WrapState) (segs : List SegmentData) : Prop where
  lt : st.chunkStart < line.length
  le : ∀ seg ∈ segs.head?, st.chunkStart ≤ seg.index
  opp : ∀ w, st.wrapOppIndex = some w → st.chunkStart < w ∧ ∀ seg ∈ segs.head?, w ≤ seg.index

variable (st : WrapState)

theorem forceBreak_covers (charIndex : ℕ) (hle : st.chunkStart ≤ charIndex) (hlt : charIndex < line.length) :
    CoversTo line st.chunkStart (forceBreak line st charIndex).2.chunkStart (forceBreak line st charIndex).1 ∧
      (forceBreak line st charIndex).2.chunkStart ≤ charIndex := by
  unfold forceBreak
  split
  · rename_i h
    exact ⟨coversTo_single line _ _ h (Nat.le_of_lt hlt), Nat.le_refl _⟩
  · exact ⟨rfl, hle⟩

variable (maxWidth : ℕ)

theorem overflow_covers (st : WrapState) (charIndex gWidth : ℕ)
    (hle : st.chunkStart ≤ charIndex) (hlt : charIndex < line.length)
    (hopp : ∀ w, st.wrapOppIndex = some w → st.chunkStart < w ∧ w ≤ charIndex) :
    CoversTo line st.chunkStart (overflow line maxWidth st charIndex gWidth).2.chunkStart
        (overflow line maxWidth st charIndex gWidth).1 ∧
      (overflow line maxWidth st charIndex gWidth).2.chunkStart ≤ charIndex ∧
      ∀ w, (overflow line maxWidth st charIndex gWidth).2.wrapOppIndex = some w →
        (overflow line maxWidth st charIndex gWidth).2.chunkStart < w := by
  have hforce := forceBreak_covers line st charIndex hle hlt
  have hnone : (forceBreak line st charIndex).2.wrapOppIndex = none := by
    unfold forceBreak
    split <;> rfl
  unfold overflow
  split
  · split
    · rename_i w hw
      obtain ⟨h1, h2⟩ := hopp w hw
      split
      · exact ⟨coversTo_single line _ _ h1 (Nat.le_of_lt (Nat.lt_of_le_of_lt h2 hlt)), h2, fun w h => by cases h⟩
      · exact ⟨hforce.1, hforce.2, fun w h => by rw [hnone] at h; cases h⟩
    · exact ⟨hforce.1, hforce.2, fun w h => by rw [hnone] at h; cases h⟩
  · exact ⟨rfl, hle, fun w hw => (hopp w hw).1⟩

theorem advance_chunkStart (seg : SegmentData) (next : Option SegmentData) :
    (advance chars st seg next).chunkStart = st.chunkStart := by
  unfold advance
  dsimp only
  split
  · split <;> rfl
  · rfl

theorem advance_opp (seg : SegmentData) (next : Option SegmentData) (w : ℕ)
    (h : (advance chars st seg next).wrapOppIndex = some w) :
    st.wrapOppIndex = some w ∨ ∃ seg' ∈ next, w = seg'.index := by
  unfold advance at h
  dsimp only at h
  split at h
  · rename_i seg'
    split at h
    · exact .inr ⟨seg', rfl, (some.inj h).symm⟩
    · exact .inl h
  · exact .inl h

def Rewraps (rewrap : JsString → Option (List TextChunk)) (segment : JsString) : Prop :=
  ∃ chunks, rewrap segment = some chunks ∧ chunks ≠ [] ∧ CoversTo segment 0 segment.length chunks

section

variable (rewrap : JsString → Option (List TextChunk)) (line : JsString) (maxWidth : ℕ) (st : WrapState) (p : ℕ)

theorem wrapStep_covers (seg : SegmentData) (rest : List SegmentData) (hspread : Spread line p (seg :: rest))
    (hrewrap : maxWidth < chars.visibleWidth seg.segment → Rewraps rewrap seg.segment)
    (hopened : Opened line st (seg :: rest)) :
    ∃ pushed st', wrapStep chars rewrap line maxWidth st seg rest.head? = some (pushed, st') ∧
      CoversTo line st.chunkStart st'.chunkStart pushed ∧ Opened line st' rest ∧
      st'.chunkStart < seg.index + seg.segment.length := by
  cases hspread with
  | cons _ _ _ hle hne htext hstop hrest =>
    have hlength := length_pos_iff.mpr hne
    have hafter : ∀ next ∈ rest.head?, seg.index + seg.segment.length ≤ next.index := by
      intro next hnext
      cases hrest with
      | nil => cases hnext
      | cons _ _ _ hle' =>
        obtain rfl := some.inj hnext
        exact hle'
    obtain ⟨hcovers, hstart, hopp⟩ := overflow_covers line maxWidth st seg.index (chars.visibleWidth seg.segment)
      (hopened.le seg rfl) (by omega) (fun w hw => ⟨(hopened.opp w hw).1, (hopened.opp w hw).2 seg rfl⟩)
    have hoppLe : ∀ w, (overflow line maxWidth st seg.index (chars.visibleWidth seg.segment)).2.wrapOppIndex = some w →
        w ≤ seg.index := by
      intro w hw
      have hkept : st.wrapOppIndex = some w := by
        unfold overflow forceBreak at hw
        split at hw
        · split at hw
          · split at hw
            · cases hw
            · split at hw <;> cases hw
          · split at hw <;> cases hw
        · exact hw
      exact (hopened.opp w hkept).2 seg rfl
    unfold wrapStep
    dsimp only
    split
    · rename_i hwide
      obtain ⟨chunks, hchunks, hsome, hsub⟩ := hrewrap hwide
      obtain ⟨init, last, rfl⟩ := eq_nil_or_concat' chunks |>.resolve_left hsome
      rw [hchunks]
      dsimp only
      rw [getLast?_concat, dropLast_concat]
      dsimp only
      obtain ⟨hinit, hlast, -, -, -⟩ := coversTo_last seg.segment 0 seg.segment.length init last hsub
      refine ⟨_, _, rfl, ?_, ⟨by dsimp only; omega, fun next hnext => ?_, fun w hw => by cases hw⟩, by dsimp only; omega⟩
      · -- the chunk before the segment is closed
        have hclosed : (overflow line maxWidth st seg.index (chars.visibleWidth seg.segment)).2.chunkStart = seg.index := by
          unfold overflow
          rw [if_pos (by omega)]
          have hforced : (forceBreak line st seg.index).2.chunkStart = seg.index := by
            have := hopened.le seg rfl
            unfold forceBreak
            split
            · rfl
            · dsimp only
              omega
          split
          · rw [if_neg (by omega)]
            exact hforced
          · exact hforced
        rw [hclosed] at hcovers
        exact coversTo_append line _ _ _ _ _ hcovers (coversTo_shift line seg 0 last.startIndex init htext hstop hinit)
      · have := hafter next hnext
        dsimp only
        omega
    · refine ⟨_, _, rfl, ?_, ⟨?_, ?_, ?_⟩, ?_⟩
      · rw [advance_chunkStart]
        exact hcovers
      · rw [advance_chunkStart]
        omega
      · intro next hnext
        rw [advance_chunkStart]
        have := hafter next hnext
        omega
      · intro w hw
        rw [advance_chunkStart]
        rcases advance_opp chars _ seg rest.head? w hw with hold | ⟨next, hnext, rfl⟩
        · refine ⟨hopp w hold, fun next hnext => ?_⟩
          have h1 := hoppLe w hold
          have h2 := hafter next hnext
          omega
        · have h1 := hafter next hnext
          refine ⟨by omega, fun next' hnext' => ?_⟩
          rw [mem_unique hnext hnext']
      · rw [advance_chunkStart]
        omega

theorem wrapSegments_covers (segs : List SegmentData) (hspread : Spread line p segs)
    (hrewrap : ∀ seg ∈ segs, maxWidth < chars.visibleWidth seg.segment → Rewraps rewrap seg.segment)
    (hopened : Opened line st segs) :
    ∃ chunks, wrapSegments chars rewrap line maxWidth st segs = some chunks ∧ chunks ≠ [] ∧
      CoversTo line st.chunkStart line.length chunks := by
  induction segs generalizing p st with
  | nil =>
    refine ⟨_, rfl, by simp, rfl, hopened.lt, Nat.le_refl _, ?_, rfl⟩
    exact (slice_length line st.chunkStart).symm
  | cons seg rest ih =>
    obtain ⟨pushed, st', hstep, hcovers, hopened', -⟩ := wrapStep_covers chars rewrap line maxWidth st p seg rest hspread
      (hrewrap seg mem_cons_self) hopened
    have hrest : Spread line (seg.index + seg.segment.length) rest := by
      cases hspread with
      | cons _ _ _ _ _ _ _ hrest => exact hrest
    obtain ⟨chunks, hchunks, hsome, hcovers'⟩ := ih st' _ hrest (fun s hs => hrewrap s (mem_cons_of_mem _ hs)) hopened'
    unfold wrapSegments
    rw [hstep]
    dsimp only
    rw [hchunks]
    refine ⟨_, rfl, fun hnil => hsome (append_eq_nil_iff.mp hnil).2, coversTo_append line _ _ _ _ _ hcovers hcovers'⟩

end

/-! ## A line -/

def GraphemesFit (maxWidth : ℕ) (segs : List SegmentData) : Prop :=
  ∀ seg ∈ segs, maxWidth < chars.visibleWidth seg.segment →
    ∀ grapheme ∈ chars.graphemes seg.segment, chars.visibleWidth grapheme.segment ≤ maxWidth

theorem opened_start (hline : line ≠ []) (segs : List SegmentData) : Opened line ⟨0, 0, none, 0⟩ segs :=
  ⟨length_pos_iff.mpr hline, fun _ _ => Nat.zero_le _, fun w h => by cases h⟩

variable (fuel : ℕ)

theorem wordWrapLine_wide (line : JsString) (maxWidth : ℕ) (pre : Option (List SegmentData)) (hline : line ≠ [])
    (hpos : 0 < maxWidth) (hwide : maxWidth < chars.visibleWidth line) :
    wordWrapLine chars (fuel + 1) line maxWidth pre =
      wrapSegments chars (fun grapheme => wordWrapLine chars fuel grapheme maxWidth none) line maxWidth ⟨0, 0, none, 0⟩
        (pre.getD (chars.graphemes line)) := by
  have hempty : (line.isEmpty || decide (maxWidth = 0)) = false := by
    simp only [Bool.or_eq_false_iff, isEmpty_eq_false_iff, decide_eq_false_iff_not]
    exact ⟨hline, by omega⟩
  show (if (line.isEmpty || decide (maxWidth = 0)) = true then _ else _) = _
  rw [hempty, if_neg Bool.false_ne_true, if_neg (by omega)]

theorem rewraps_of_fits (segment : JsString) (maxWidth : ℕ) (hne : segment ≠ []) (hpos : 0 < maxWidth)
    (hwide : maxWidth < chars.visibleWidth segment) (hspread : Spread segment 0 (chars.graphemes segment))
    (hfits : ∀ grapheme ∈ chars.graphemes segment, chars.visibleWidth grapheme.segment ≤ maxWidth) :
    Rewraps (fun grapheme => wordWrapLine chars (fuel + 1) grapheme maxWidth none) segment := by
  obtain ⟨chunks, hchunks, hsome, hcovers⟩ := wrapSegments_covers chars
    (fun grapheme => wordWrapLine chars fuel grapheme maxWidth none) segment maxWidth ⟨0, 0, none, 0⟩ 0
    (chars.graphemes segment) hspread (fun seg hseg hover => absurd (hfits seg hseg) (by omega)) (opened_start segment hne _)
  refine ⟨chunks, ?_, hsome, hcovers⟩
  dsimp only
  rw [wordWrapLine_wide chars fuel segment maxWidth none hne hpos hwide]
  exact hchunks

theorem spread_mem (p : ℕ) (segs : List SegmentData) (h : Spread line p segs) (seg : SegmentData)
    (hmem : seg ∈ segs) : seg.segment ≠ [] := by
  induction h with
  | nil => cases hmem
  | cons _ _ _ _ hne _ _ _ ih =>
    rcases mem_cons.mp hmem with rfl | hmem
    · exact hne
    · exact ih hmem

theorem wordWrapLine_covers (line : JsString) (maxWidth : ℕ) (segs : List SegmentData) (hline : line ≠ [])
    (hpos : 0 < maxWidth) (hgraphemes : ∀ text, Spread text 0 (chars.graphemes text)) (hspread : Spread line 0 segs)
    (hfits : maxWidth < chars.visibleWidth line → GraphemesFit chars maxWidth segs) :
    ∃ chunks, wordWrapLine chars (fuel + 2) line maxWidth (some segs) = some chunks ∧ chunks ≠ [] ∧
      CoversTo line 0 line.length chunks := by
  rcases Nat.lt_or_ge maxWidth (chars.visibleWidth line) with hwide | hfit
  · rw [wordWrapLine_wide chars (fuel + 1) line maxWidth _ hline hpos hwide]
    refine wrapSegments_covers chars _ line maxWidth _ 0 segs hspread (fun seg hseg hover => ?_) (opened_start line hline _)
    exact rewraps_of_fits chars fuel seg.segment maxWidth (spread_mem line 0 segs hspread seg hseg) hpos hover
      (hgraphemes _) (hfits hwide seg hseg hover)
  · refine ⟨[⟨line, 0, line.length⟩], ?_, by simp, rfl, length_pos_iff.mpr hline, Nat.le_refl _, ?_, rfl⟩
    · unfold wordWrapLine
      rw [if_neg (by simp [hline]; omega), if_pos hfit]
    · rw [slice_length, drop_zero]

/-! ## More fuel -/

theorem wrapSegments_mono (rewrap rewrap' : JsString → Option (List TextChunk))
    (hmono : ∀ segment chunks, rewrap segment = some chunks → rewrap' segment = some chunks) (line : JsString) (maxWidth : ℕ)
    (st : WrapState) (segs : List SegmentData) (chunks : List TextChunk)
    (h : wrapSegments chars rewrap line maxWidth st segs = some chunks) :
    wrapSegments chars rewrap' line maxWidth st segs = some chunks := by
  induction segs generalizing st chunks with
  | nil => exact h
  | cons seg rest ih =>
    have hstep : ∀ r, wrapStep chars rewrap line maxWidth st seg rest.head? = some r →
        wrapStep chars rewrap' line maxWidth st seg rest.head? = some r := by
      intro r hr
      unfold wrapStep at hr ⊢
      dsimp only at hr ⊢
      split at hr
      · rename_i hwide
        rw [if_pos hwide]
        split at hr
        · cases hr
        · rename_i subChunks hsub
          rw [hmono _ _ hsub]
          exact hr
      · rename_i hfits
        rw [if_neg hfits]
        exact hr
    unfold wrapSegments at h ⊢
    split at h
    · cases h
    · rename_i pushed st' hrun
      rw [hstep _ hrun]
      obtain ⟨more, hmore, rfl⟩ := map_eq_some_iff.mp h
      dsimp only
      rw [ih st' more hmore, map_some]

theorem wordWrapLine_mono (line : JsString) (maxWidth : ℕ) (pre : Option (List SegmentData))
    (chunks : List TextChunk) (h : wordWrapLine chars fuel line maxWidth pre = some chunks) :
    wordWrapLine chars (fuel + 1) line maxWidth pre = some chunks := by
  induction fuel generalizing line pre chunks with
  | zero => cases h
  | succ fuel ih =>
    unfold wordWrapLine at h ⊢
    split at h
    · rename_i hempty
      rw [if_pos hempty]
      exact h
    · rename_i hempty
      rw [if_neg hempty]
      split at h
      · rename_i hfit
        rw [if_pos hfit]
        exact h
      · rename_i hwide
        rw [if_neg hwide]
        exact wrapSegments_mono chars _ _ (fun segment chunks hsub => ih segment none chunks hsub) line maxWidth _ _ chunks h

theorem wordWrapLine_le (fuel more : ℕ) (line : JsString) (maxWidth : ℕ) (pre : Option (List SegmentData))
    (chunks : List TextChunk) (h : wordWrapLine chars fuel line maxWidth pre = some chunks) :
    wordWrapLine chars (fuel + more) line maxWidth pre = some chunks := by
  induction more with
  | zero => exact h
  | succ more ih => exact wordWrapLine_mono chars _ line maxWidth pre chunks ih

end PiAgent.Tui
