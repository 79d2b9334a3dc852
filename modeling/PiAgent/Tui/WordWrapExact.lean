import PiAgent.Tui.WordWrapLayout

/-! # Wrapping is a partition -/

namespace PiAgent.Tui

open Option List Durable

variable (chars : Characters)

/-! ## More fuel for the editor -/

section Fuel

variable (segment : JsString → List SegmentData) (state : EditorState) (width : ℕ)

theorem lineChunks_le (fuel more : ℕ) (line : JsString) (chunks : List TextChunk)
    (h : lineChunks chars segment fuel width line = some chunks) :
    lineChunks chars segment (fuel + more) width line = some chunks := by
  unfold lineChunks at h ⊢
  split at h
  · rename_i hfit
    rw [if_pos hfit]
    exact h
  · rename_i hwide
    rw [if_neg hwide]
    exact wordWrapLine_le chars fuel more line width _ chunks h

theorem layoutFrom_le (fuel more i : ℕ) (lines : List JsString) (layout : List LayoutLine)
    (h : layoutFrom chars segment fuel state width i lines = some layout) :
    layoutFrom chars segment (fuel + more) state width i lines = some layout := by
  induction lines generalizing i layout with
  | nil => exact h
  | cons line lines ih =>
    unfold layoutFrom at h ⊢
    rw [layoutLine_eq] at h ⊢
    split at h
    · cases h
    · rename_i here hhere
      obtain ⟨chunks, hchunks, rfl⟩ := map_eq_some_iff.mp hhere
      obtain ⟨rest, hrest, rfl⟩ := map_eq_some_iff.mp h
      rw [lineChunks_le chars segment width fuel more line chunks hchunks, map_some]
      dsimp only
      rw [ih (i + 1) rest hrest, map_some]

theorem layoutText_le (fuel more : ℕ) (layout : List LayoutLine) (h : layoutText chars segment fuel state width = some layout) :
    layoutText chars segment (fuel + more) state width = some layout := by
  unfold layoutText at h ⊢
  split at h
  · rename_i hblank
    rw [if_pos hblank]
    exact h
  · rename_i hblank
    rw [if_neg hblank]
    exact layoutFrom_le chars segment state width fuel more 0 _ layout h

theorem buildFrom_le (hempty : chars.visibleWidth [] = 0) (fuel more i : ℕ) (lines : List JsString) (visual : List VisualLine)
    (h : buildFrom chars segment fuel width i lines = some visual) :
    buildFrom chars segment (fuel + more) width i lines = some visual := by
  induction lines generalizing i visual with
  | nil => exact h
  | cons line lines ih =>
    unfold buildFrom at h ⊢
    rw [visualLinesOf_eq chars segment _ width hempty] at h ⊢
    split at h
    · cases h
    · rename_i here hhere
      obtain ⟨chunks, hchunks, rfl⟩ := map_eq_some_iff.mp hhere
      obtain ⟨rest, hrest, rfl⟩ := map_eq_some_iff.mp h
      rw [lineChunks_le chars segment width fuel more line chunks hchunks, map_some]
      dsimp only
      rw [ih (i + 1) rest hrest, map_some]

end Fuel

/-! ## Lines and the editor -/

/-- A line that is not empty is cut into chunks that cover it and fit, an empty one is an empty chunk, and the one layout line
with the cursor is the visual line that navigation finds. -/
theorem wordWrap_exact (hgraphemes : ∀ text, Tiles text 0 (chars.graphemes text)) (hempty : chars.visibleWidth [] = 0) :
    (∀ line maxWidth segs, line ≠ [] → 0 < maxWidth → Tiles line 0 segs →
      Subadditive chars line (Boundary chars line segs) →
      (maxWidth < chars.visibleWidth line → GraphemesFit chars maxWidth segs) →
      ∃ chunks, (∀ fuel, wordWrapLine chars (fuel + 2) line maxWidth (some segs) = some chunks) ∧
        chunks ≠ [] ∧ CoversTo line 0 line.length chunks ∧ ∀ chunk ∈ chunks, chars.visibleWidth chunk.text ≤ maxWidth) ∧
    (∀ fuel maxWidth segs, wordWrapLine chars (fuel + 1) [] maxWidth segs = some [⟨[], 0, 0⟩]) ∧
    (∀ segment width (state : EditorState), 0 < width → state.InBounds →
      (∀ line ∈ state.lines, Spread line 0 (segment line) ∧
        (width < chars.visibleWidth line → GraphemesFit chars width (segment line))) →
      ∃ layout visual, (∀ fuel, layoutText chars segment (fuel + 2) state width = some layout) ∧
        (∀ fuel, buildVisualLineMap chars segment (fuel + 2) state width = some visual) ∧
        CursorAt layout (findCurrentVisualLine state visual)) := by
  refine ⟨?_, fun fuel maxWidth segs => rfl, ?_⟩
  · intro line maxWidth segs hline hpos htiles hadd hfits
    obtain ⟨chunks, hchunks, hsome, hcovers⟩ := wordWrapLine_covers chars 0 line maxWidth segs hline hpos
      (fun text => (tiles_spread text 0 _ (hgraphemes text)).2) (tiles_spread line 0 segs htiles).2 hfits
    refine ⟨chunks, fun fuel => ?_, hsome, hcovers,
      wordWrapLine_fits chars 0 line maxWidth segs hline hpos hgraphemes htiles hadd hfits chunks hchunks⟩
    rw [Nat.add_comm]
    exact wordWrapLine_le chars 2 fuel line maxWidth _ chunks hchunks
  · intro segment width state hpos hstate hlines
    obtain ⟨layout, visual, hlayout, hvisual, hcursor⟩ := layout_cursor chars hgraphemes hempty segment 0 width hpos state hstate
      hlines
    refine ⟨layout, visual, fun fuel => ?_, fun fuel => ?_, hcursor⟩
    · rw [Nat.add_comm]
      exact layoutText_le chars segment state width 2 fuel layout hlayout
    · rw [Nat.add_comm]
      exact buildFrom_le chars segment width hempty 2 fuel 0 _ visual hvisual

/-! ## Texts of single code units -/

def unitSegments : ℕ → JsString → List SegmentData
  | _, [] => []
  | i, c :: rest => ⟨[c], i⟩ :: unitSegments (i + 1) rest

def unitWidth (c : UInt16) : ℕ := if c ≥ 0x1100 then 2 else 1

def unitCharacters : Characters := ⟨fun text => (text.map unitWidth).sum, unitSegments 0, fun _ => false⟩

theorem tiles_units (before text : JsString) : Tiles (before ++ text) before.length (unitSegments before.length text) := by
  induction text generalizing before with
  | nil =>
    rw [append_nil]
    exact .nil
  | cons c rest ih =>
    refine .cons _ _ _ rfl (by simp) ?_ ?_
    · show [c] = slice (before ++ c :: rest) before.length (before.length + 1)
      unfold slice
      rw [take_append, take_of_length_le (Nat.le_succ _), Nat.add_sub_cancel_left, take_succ_cons, take_zero,
        drop_left]
    · have hnext := ih (before ++ [c])
      rw [append_assoc, length_append] at hnext
      exact hnext

theorem unit_subadditive (line : JsString) (boundary : ℕ → Prop) : Subadditive unitCharacters line boundary := by
  refine ⟨rfl, fun p q r _ _ _ hpq hqr _ => Nat.le_of_eq ?_⟩
  rw [← slice_append line p q r hpq hqr]
  show ((slice line p q ++ slice line q r).map unitWidth).sum = _
  rw [map_append, sum_append]
  rfl

/-- `abc d` in words. -/
def letterWords : List SegmentData := [⟨[97, 98, 99], 0⟩, ⟨[32], 3⟩, ⟨[100], 4⟩]

def letterLine : JsString := [97, 98, 99, 32, 100]

def letterSegments (line : JsString) : List SegmentData := if line = letterLine then letterWords else unitSegments 0 line

/-- The cursor at the end of the line, and an empty line below. -/
def letterState : EditorState := ⟨[letterLine, []], 0, 5⟩

/-- A word that is wider than the lines. -/
theorem wordWrap_exact_letters :
    (∃ chunks, (∀ fuel, wordWrapLine unitCharacters (fuel + 2) letterLine 2 (some letterWords) = some chunks) ∧
      chunks ≠ [] ∧ CoversTo letterLine 0 5 chunks ∧ ∀ chunk ∈ chunks, unitCharacters.visibleWidth chunk.text ≤ 2) ∧
    ∃ layout visual, (∀ fuel, layoutText unitCharacters letterSegments (fuel + 2) letterState 2 = some layout) ∧
      (∀ fuel, buildVisualLineMap unitCharacters letterSegments (fuel + 2) letterState 2 = some visual) ∧
      CursorAt layout (findCurrentVisualLine letterState visual) := by
  have htiles : ∀ text, Tiles text 0 (unitCharacters.graphemes text) := fun text => tiles_units [] text
  have hwords : Tiles letterLine 0 letterWords :=
    .cons 0 _ _ rfl (by decide) rfl (.cons 3 _ _ rfl (by decide) rfl (.cons 4 _ _ rfl (by decide) rfl .nil))
  have hfits : GraphemesFit unitCharacters 2 letterWords := by
    unfold GraphemesFit
    decide
  obtain ⟨hlines, -, heditor⟩ := wordWrap_exact unitCharacters htiles rfl
  refine ⟨hlines letterLine 2 _ (by decide) (by decide) hwords (unit_subadditive _ _) (fun _ => hfits), ?_⟩
  refine heditor letterSegments 2 letterState (by decide) ⟨letterLine, rfl, by decide⟩ (fun line hmem => ?_)
  rcases mem_cons.mp hmem with rfl | hmem
  · exact ⟨(tiles_spread _ 0 _ hwords).2, fun _ => hfits⟩
  · rw [mem_singleton.mp hmem]
    exact ⟨(tiles_spread _ 0 _ (htiles [])).2, fun h => absurd h (by decide)⟩

/-- A wide character in lines of one column is wrapped again and again; an empty line has an empty chunk. -/
theorem wide_never_wraps : (∀ fuel, wordWrapLine unitCharacters fuel [0x4E2D] 1 (some [⟨[0x4E2D], 0⟩]) = none) ∧
      wordWrapLine unitCharacters 1 [] 1 (some []) = some [⟨[], 0, 0⟩] := by
  have hall : ∀ fuel pre, pre.getD (unitCharacters.graphemes [0x4E2D]) = [⟨[0x4E2D], 0⟩] →
      wordWrapLine unitCharacters fuel [0x4E2D] 1 pre = none := by
    intro fuel
    induction fuel with
    | zero => exact fun _ _ => rfl
    | succ fuel ih =>
      intro pre hpre
      rw [wordWrapLine_wide unitCharacters fuel [0x4E2D] 1 pre (by decide) (by decide) (by decide), hpre]
      have hagain := ih none rfl
      unfold wrapSegments wrapStep
      dsimp only
      rw [if_pos (by decide), hagain]
  exact ⟨fun fuel => hall fuel _ rfl, rfl⟩

end PiAgent.Tui
