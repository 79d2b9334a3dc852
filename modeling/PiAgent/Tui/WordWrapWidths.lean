import PiAgent.Tui.WordWrapProofs

/-!
# Chunks fit in their lines

The widths of graphemes and markers add up to at most the width the loop keeps, so no chunk is
wider than a line.
-/

namespace PiAgent.Tui

open Option List Durable

variable (chars : Characters)

inductive Tiles (line : JsString) : ℕ → List SegmentData → Prop where
  | nil : Tiles line line.length []
  | cons (p : ℕ) (seg : SegmentData) (rest : List SegmentData) (hindex : seg.index = p) (hne : seg.segment ≠ [])
      (htext : seg.segment = slice line seg.index (seg.index + seg.segment.length))
      (hrest : Tiles line (seg.index + seg.segment.length) rest) : Tiles line p (seg :: rest)

variable (line : JsString) (p : ℕ) (segs : List SegmentData)

theorem tiles_spread (h : Tiles line p segs) : p ≤ line.length ∧ Spread line p segs := by
  induction h with
  | nil => exact ⟨Nat.le_refl _, .nil _ (Nat.le_refl _)⟩
  | cons p seg rest hindex hne htext _ ih =>
    exact ⟨by omega, .cons p seg rest (Nat.le_of_eq hindex.symm) hne htext ih.1 ih.2⟩

def Boundary (line : JsString) (segs : List SegmentData) (p : ℕ) : Prop :=
  p = line.length ∨ ∃ seg ∈ segs, p = seg.index ∨ ∃ grapheme ∈ chars.graphemes seg.segment, p = seg.index + grapheme.index

structure Subadditive (line : JsString) (boundary : ℕ → Prop) : Prop where
  empty : chars.visibleWidth [] = 0
  add : ∀ p q r, boundary p → boundary q → boundary r → p ≤ q → q ≤ r → r ≤ line.length →
    chars.visibleWidth (slice line p r) ≤ chars.visibleWidth (slice line p q) + chars.visibleWidth (slice line q r)

theorem slice_self (text : JsString) (p : ℕ) : slice text p p = [] := by
  unfold slice
  exact drop_eq_nil_of_le (by rw [length_take]; exact Nat.min_le_left _ _)

/-! ## One step -/

section Step

variable (line : JsString) (maxWidth : ℕ) (boundary : ℕ → Prop)

/-- The width that is kept is at least that of the open chunk up to a place, also where it is cut at the wrap opportunity. -/
structure Measured (st : WrapState) (p : ℕ) : Prop where
  start : boundary st.chunkStart
  le : st.chunkStart ≤ p
  width : chars.visibleWidth (slice line st.chunkStart p) ≤ st.currentWidth
  opp : ∀ w, st.wrapOppIndex = some w → boundary w ∧ w ≤ p ∧ chars.visibleWidth (slice line st.chunkStart w) ≤ maxWidth ∧
    chars.visibleWidth (slice line w p) + st.wrapOppWidth ≤ st.currentWidth

structure Narrow (st : WrapState) (p : ℕ) : Prop where
  measured : Measured chars line maxWidth boundary st p
  max : st.currentWidth ≤ maxWidth
  zero : p ≤ st.chunkStart → st.currentWidth = 0

def ChunksFit (offset : ℕ) (chunks : List TextChunk) : Prop :=
  ∀ chunk ∈ chunks, chars.visibleWidth chunk.text ≤ maxWidth ∧ boundary (offset + chunk.startIndex)

variable {line maxWidth boundary}

theorem chunksFit_single (p q : ℕ) (hp : boundary p) (h : chars.visibleWidth (slice line p q) ≤ maxWidth) :
    ChunksFit chars maxWidth boundary 0 [⟨slice line p q, p, q⟩] := by
  intro chunk hmem
  rw [mem_singleton.mp hmem]
  exact ⟨h, by rwa [Nat.zero_add]⟩

theorem forceBreak_fits (hempty : chars.visibleWidth [] = 0) (st : WrapState) (p gWidth : ℕ)
    (h : Narrow chars line maxWidth boundary st p) (hp : boundary p) (hfit : gWidth ≤ maxWidth) :
    Measured chars line maxWidth boundary (forceBreak line st p).2 p ∧
      (forceBreak line st p).2.currentWidth + gWidth ≤ maxWidth := by
  unfold forceBreak
  split
  · refine ⟨⟨hp, Nat.le_refl _, ?_, fun w hw => by cases hw⟩, by dsimp only; omega⟩
    rw [slice_self, hempty]
  · rename_i hno
    have hzero := h.zero (by omega)
    refine ⟨⟨h.measured.start, h.measured.le, h.measured.width, fun w hw => by cases hw⟩, by dsimp only; omega⟩

theorem forceBreak_chunks (st : WrapState) (p : ℕ) (h : Narrow chars line maxWidth boundary st p) :
    ChunksFit chars maxWidth boundary 0 (forceBreak line st p).1 := by
  unfold forceBreak
  split
  · exact chunksFit_single chars _ _ h.measured.start (Nat.le_trans h.measured.width h.max)
  · intro chunk hmem
    cases hmem

theorem overflow_chunks (st : WrapState) (p gWidth : ℕ) (h : Narrow chars line maxWidth boundary st p) :
    ChunksFit chars maxWidth boundary 0 (overflow line maxWidth st p gWidth).1 := by
  unfold overflow
  split
  · split
    · rename_i w hw
      split
      · exact chunksFit_single chars _ _ h.measured.start (h.measured.opp w hw).2.2.1
      · exact forceBreak_chunks chars st p h
    · exact forceBreak_chunks chars st p h
  · intro chunk hmem
    cases hmem

theorem overflow_fits (hempty : chars.visibleWidth [] = 0) (st : WrapState) (p gWidth : ℕ)
    (h : Narrow chars line maxWidth boundary st p) (hp : boundary p) (hfit : gWidth ≤ maxWidth) :
    Measured chars line maxWidth boundary (overflow line maxWidth st p gWidth).2 p ∧
      (overflow line maxWidth st p gWidth).2.currentWidth + gWidth ≤ maxWidth := by
  unfold overflow
  split
  · split
    · rename_i w hw
      obtain ⟨hb, hle, -, hafter⟩ := h.measured.opp w hw
      split
      · rename_i hviable
        exact ⟨⟨hb, hle, by dsimp only; omega, fun w hw => by cases hw⟩, hviable⟩
      · exact forceBreak_fits chars hempty st p gWidth h hp hfit
    · exact forceBreak_fits chars hempty st p gWidth h hp hfit
  · exact ⟨h.measured, by dsimp only; omega⟩

theorem advance_fits (hadd : Subadditive chars line boundary) (st : WrapState) (seg : SegmentData) (next : Option SegmentData)
    (hp : boundary seg.index) (hq : boundary (seg.index + seg.segment.length)) (hne : seg.segment ≠ [])
    (htext : seg.segment = slice line seg.index (seg.index + seg.segment.length))
    (hstop : seg.index + seg.segment.length ≤ line.length)
    (hnext : ∀ seg' ∈ next, seg'.index = seg.index + seg.segment.length)
    (h : Measured chars line maxWidth boundary st seg.index)
    (hroom : st.currentWidth + chars.visibleWidth seg.segment ≤ maxWidth) :
    Narrow chars line maxWidth boundary (advance chars st seg next) (seg.index + seg.segment.length) := by
  have hlength := length_pos_iff.mpr hne
  have hle := h.le
  have hgrow : ∀ w, boundary w → w ≤ seg.index →
      chars.visibleWidth (slice line w (seg.index + seg.segment.length)) ≤
        chars.visibleWidth (slice line w seg.index) + chars.visibleWidth seg.segment := by
    intro w hw hle
    have hsum := hadd.add w seg.index (seg.index + seg.segment.length) hw hp hq hle (Nat.le_add_right _ _) hstop
    rwa [← htext] at hsum
  have hopen := hgrow st.chunkStart h.start h.le
  have hwidth := h.width
  -- the opportunity so far stays one
  have hkept : ∀ w, st.wrapOppIndex = some w → boundary w ∧ w ≤ seg.index + seg.segment.length ∧
      chars.visibleWidth (slice line st.chunkStart w) ≤ maxWidth ∧
      chars.visibleWidth (slice line w (seg.index + seg.segment.length)) + st.wrapOppWidth ≤
        st.currentWidth + chars.visibleWidth seg.segment := by
    intro w hw
    obtain ⟨hb, hwle, hbefore, hafter⟩ := h.opp w hw
    have := hgrow w hb hwle
    exact ⟨hb, by omega, hbefore, by omega⟩
  unfold advance
  dsimp only
  split
  · rename_i seg'
    split
    · refine ⟨⟨h.start, by dsimp only; omega, by dsimp only; omega, ?_⟩, hroom, fun hback => by dsimp only at hback; omega⟩
      intro w hw
      dsimp only at hw ⊢
      obtain rfl := some.inj hw
      rw [hnext seg' rfl, slice_self, hadd.empty]
      exact ⟨hq, Nat.le_refl _, by omega, by omega⟩
    · exact ⟨⟨h.start, by dsimp only; omega, by dsimp only; omega, hkept⟩, hroom, fun hback => by dsimp only at hback; omega⟩
  · exact ⟨⟨h.start, by dsimp only; omega, by dsimp only; omega, hkept⟩, hroom, fun hback => by dsimp only at hback; omega⟩

end Step

/-! ## The loop -/

variable (boundary : ℕ → Prop)

theorem tiles_boundary (p : ℕ) (segs : List SegmentData) (h : Tiles line p segs)
    (hsegs : ∀ seg ∈ segs, boundary seg.index) (hend : boundary line.length) : boundary p := by
  cases h with
  | nil => exact hend
  | cons _ seg rest hindex =>
    rw [← hindex]
    exact hsegs seg mem_cons_self

theorem tiles_next (h : Tiles line p segs) : ∀ seg ∈ segs.head?, seg.index = p := by
  intro seg hseg
  cases h with
  | nil => cases hseg
  | cons _ _ _ hindex =>
    obtain rfl := some.inj hseg
    exact hindex

theorem wrapSegments_fits (rewrap : JsString → Option (List TextChunk)) (line : JsString) (maxWidth : ℕ)
    (boundary : ℕ → Prop) (hadd : Subadditive chars line boundary) (hend : boundary line.length) (st : WrapState) (p : ℕ)
    (segs : List SegmentData) (htiles : Tiles line p segs) (hsegs : ∀ seg ∈ segs, boundary seg.index)
    (hrewrap : ∀ seg ∈ segs, maxWidth < chars.visibleWidth seg.segment → ∀ chunks, rewrap seg.segment = some chunks →
      CoversTo seg.segment 0 seg.segment.length chunks ∧ ChunksFit chars maxWidth boundary seg.index chunks)
    (hnarrow : Narrow chars line maxWidth boundary st p) (chunks : List TextChunk)
    (h : wrapSegments chars rewrap line maxWidth st segs = some chunks) : ChunksFit chars maxWidth boundary 0 chunks := by
  induction segs generalizing p st chunks with
  | nil =>
    cases htiles
    obtain rfl := some.inj h
    rw [← slice_length]
    exact chunksFit_single chars _ _ hnarrow.measured.start (Nat.le_trans hnarrow.measured.width hnarrow.max)
  | cons seg rest ih =>
    cases htiles with
    | cons _ _ _ hindex hne htext hrest =>
      have hp : boundary seg.index := hsegs seg mem_cons_self
      have hsegs' : ∀ s ∈ rest, boundary s.index := fun s hs => hsegs s (mem_cons_of_mem _ hs)
      have hq := tiles_boundary line boundary _ rest hrest hsegs' hend
      have hstop := (tiles_spread line _ rest hrest).1
      have hlength := length_pos_iff.mpr hne
      obtain rfl := hindex
      have hpushed := overflow_chunks chars st seg.index (chars.visibleWidth seg.segment) hnarrow
      have hstep : ∀ pushed st', wrapStep chars rewrap line maxWidth st seg rest.head? = some (pushed, st') →
          ChunksFit chars maxWidth boundary 0 pushed ∧
            Narrow chars line maxWidth boundary st' (seg.index + seg.segment.length) := by
        intro pushed st' hrun
        unfold wrapStep at hrun
        dsimp only at hrun
        split at hrun
        · rename_i hwide
          split at hrun
          · cases hrun
          · rename_i subChunks hsub
            split at hrun
            · cases hrun
            · rename_i last hlast
              obtain ⟨hcovers, hfit⟩ := hrewrap seg mem_cons_self hwide subChunks hsub
              obtain ⟨init, rfl⟩ := getLast?_eq_some_iff.mp hlast
              rw [dropLast_concat] at hrun
              obtain ⟨rfl, rfl⟩ := Prod.mk.inj (some.inj hrun)
              obtain ⟨-, hlt, -, -, hslice⟩ := coversTo_last seg.segment 0 _ init last hcovers
              obtain ⟨hwidth, hb⟩ := hfit last (by simp)
              have htail : slice line (seg.index + last.startIndex) (seg.index + seg.segment.length) = last.text := by
                rw [hslice]
                conv_rhs => rw [htext]
                rw [slice_slice line seg.index _ _ _ (Nat.le_add_right _ _) (by rw [← htext]; omega), ← htext]
              refine ⟨fun chunk hmem => ?_, ⟨⟨hb, by dsimp only; omega, ?_, fun w hw => by cases hw⟩, hwidth,
                fun hback => by dsimp only at hback; omega⟩⟩
              · rcases mem_append.mp hmem with hmem | hmem
                · exact hpushed chunk hmem
                · obtain ⟨inner, hinner, rfl⟩ := mem_map.mp hmem
                  obtain ⟨h1, h2⟩ := hfit inner (mem_append_left _ hinner)
                  exact ⟨h1, by rw [Nat.zero_add]; exact h2⟩
              · dsimp only
                rw [htail]
        · rename_i hfits
          obtain ⟨rfl, rfl⟩ := Prod.mk.inj (some.inj hrun)
          obtain ⟨hmeasured, hroom⟩ := overflow_fits chars hadd.empty st seg.index (chars.visibleWidth seg.segment) hnarrow hp
            (by omega)
          exact ⟨hpushed, advance_fits chars hadd _ seg rest.head? hp hq hne htext hstop (tiles_next line _ rest hrest) hmeasured
            hroom⟩
      unfold wrapSegments at h
      split at h
      · cases h
      · rename_i pushed st' hrun
        obtain ⟨hfit, hnarrow'⟩ := hstep pushed st' hrun
        obtain ⟨more, hmore, rfl⟩ := map_eq_some_iff.mp h
        have hrest' := ih st' _ hrest hsegs' (fun s hs => hrewrap s (mem_cons_of_mem _ hs)) hnarrow' more hmore
        intro chunk hmem
        rcases mem_append.mp hmem with hmem | hmem
        · exact hfit chunk hmem
        · exact hrest' chunk hmem

theorem narrow_start (maxWidth : ℕ) (boundary : ℕ → Prop) (hempty : chars.visibleWidth [] = 0)
    (h : boundary 0) : Narrow chars line maxWidth boundary ⟨0, 0, none, 0⟩ 0 := by
  refine ⟨⟨h, Nat.le_refl _, ?_, fun w hw => by cases hw⟩, Nat.zero_le _, fun _ => rfl⟩
  rw [slice_self, hempty]

/-! ## A line -/

theorem subadditive_segment (hadd : Subadditive chars line boundary)
    (seg : SegmentData) (htext : seg.segment = slice line seg.index (seg.index + seg.segment.length))
    (hstop : seg.index + seg.segment.length ≤ line.length) :
    Subadditive chars seg.segment (fun p => boundary (seg.index + p)) := by
  refine ⟨hadd.empty, fun p q r hp hq hr hpq hqr hle => ?_⟩
  have hslice : ∀ a b, b ≤ seg.segment.length → slice seg.segment a b = slice line (seg.index + a) (seg.index + b) := by
    intro a b hb
    conv_lhs => rw [htext]
    exact slice_slice line seg.index _ a b (Nat.le_add_right _ _) (by omega)
  rw [hslice p r hle, hslice p q (by omega), hslice q r hle]
  exact hadd.add _ _ _ hp hq hr (by omega) (by omega) (by omega)

theorem tiles_mem (h : Tiles line p segs) (seg : SegmentData)
    (hmem : seg ∈ segs) : seg.segment ≠ [] ∧ seg.segment = slice line seg.index (seg.index + seg.segment.length) ∧
      seg.index + seg.segment.length ≤ line.length ∧ ∃ rest, Tiles line (seg.index + seg.segment.length) rest ∧
        ∀ next ∈ rest, next ∈ segs := by
  induction h with
  | nil => cases hmem
  | cons _ first rest _ hne htext hrest ih =>
    rcases mem_cons.mp hmem with rfl | hmem
    · exact ⟨hne, htext, (tiles_spread line _ rest hrest).1, rest, hrest, fun next hnext => mem_cons_of_mem _ hnext⟩
    · obtain ⟨h1, h2, h3, more, h4, h5⟩ := ih hmem
      exact ⟨h1, h2, h3, more, h4, fun next hnext => mem_cons_of_mem _ (h5 next hnext)⟩

theorem wordWrapLine_fits (fuel : ℕ) (line : JsString) (maxWidth : ℕ) (segs : List SegmentData) (hline : line ≠ [])
    (hpos : 0 < maxWidth) (hgraphemes : ∀ text, Tiles text 0 (chars.graphemes text)) (htiles : Tiles line 0 segs)
    (hadd : Subadditive chars line (Boundary chars line segs))
    (hfits : maxWidth < chars.visibleWidth line → GraphemesFit chars maxWidth segs) (chunks : List TextChunk)
    (h : wordWrapLine chars (fuel + 2) line maxWidth (some segs) = some chunks) :
    ∀ chunk ∈ chunks, chars.visibleWidth chunk.text ≤ maxWidth := by
  rcases Nat.lt_or_ge maxWidth (chars.visibleWidth line) with hwide | hfit
  · rw [wordWrapLine_wide chars (fuel + 1) line maxWidth _ hline hpos hwide] at h
    have hsegs : ∀ seg ∈ segs, Boundary chars line segs seg.index := fun seg hmem => .inr ⟨seg, hmem, .inl rfl⟩
    have hend : Boundary chars line segs line.length := .inl rfl
    have hall := wrapSegments_fits chars _ line maxWidth _ hadd hend _ 0 segs htiles hsegs ?_
      (narrow_start chars line maxWidth _ hadd.empty (tiles_boundary line _ 0 segs htiles hsegs hend)) chunks h
    · exact fun chunk hmem => (hall chunk hmem).1
    · intro seg hmem hover subChunks hsub
      obtain ⟨hne, htext, hstop, rest, hrest, hsub'⟩ := tiles_mem line 0 segs htiles seg hmem
      have hinner := hgraphemes seg.segment
      obtain ⟨chunks', hchunks', -, hcovers⟩ := rewraps_of_fits chars fuel seg.segment maxWidth hne hpos hover
        (tiles_spread _ 0 _ hinner).2 (hfits hwide seg hmem hover)
      dsimp only at hchunks'
      rw [hsub] at hchunks'
      obtain rfl := some.inj hchunks'
      refine ⟨hcovers, ?_⟩
      rw [wordWrapLine_wide chars fuel seg.segment maxWidth none hne hpos hover] at hsub
      have hinnerSegs : ∀ g ∈ chars.graphemes seg.segment, Boundary chars line segs (seg.index + g.index) :=
        fun g hg => .inr ⟨seg, hmem, .inr ⟨g, hg, rfl⟩⟩
      have hinnerEnd : Boundary chars line segs (seg.index + seg.segment.length) :=
        tiles_boundary line _ _ rest hrest (fun next hnext => hsegs next (hsub' next hnext)) hend
      have hfit := wrapSegments_fits chars _ seg.segment maxWidth (fun p => Boundary chars line segs (seg.index + p))
        (subadditive_segment chars line _ hadd seg htext hstop) hinnerEnd _ 0 (chars.graphemes seg.segment) hinner hinnerSegs
        (fun g hg hg' => absurd (hfits hwide seg hmem hover g hg) (by omega))
        (narrow_start chars seg.segment maxWidth _ hadd.empty
          (tiles_boundary seg.segment (fun p => Boundary chars line segs (seg.index + p)) 0 _ hinner hinnerSegs hinnerEnd))
        subChunks hsub
      intro chunk hchunk
      obtain ⟨h1, h2⟩ := hfit chunk hchunk
      rw [Nat.zero_add] at h2
      exact ⟨h1, h2⟩
  · unfold wordWrapLine at h
    rw [if_neg (by simp [hline]; omega), if_pos hfit] at h
    obtain rfl := some.inj h
    intro chunk hmem
    rw [mem_singleton.mp hmem]
    exact hfit

end PiAgent.Tui
