import PiAgent.Tui.MainScreen

/-! # What the routes draw -/

namespace PiAgent.Tui

open Option List Terminal

/-! ## Finding -/

theorem find_last (p : ℕ → Bool) (n k : ℕ) (h : (List.range n).reverse.find? p = some k) :
    p k = true ∧ k < n ∧ ∀ i, k < i → i < n → p i = false := by
  induction n with
  | zero => cases h
  | succ n ih =>
    rw [range_succ, reverse_append, reverse_singleton, singleton_append, find?_cons] at h
    split at h
    · rename_i hp
      cases h
      exact ⟨hp, by omega, fun i hlo hhi => by omega⟩
    · rename_i hp
      obtain ⟨hk, hlt, hlast⟩ := ih h
      refine ⟨hk, by omega, fun i hlo hhi => ?_⟩
      by_cases heq : i = n
      · rw [heq, hp]
      · exact hlast i hlo (by omega)

structure RangeOf (old new : List JsString) (first last : ℕ) : Prop where
  order : first ≤ last
  bound : last < max new.length old.length
  before : ∀ i, i < first → old.getD i [] = new.getD i []
  after : ∀ i, last < i → old.getD i [] = new.getD i []
  grown : old.length < new.length → last = new.length - 1 ∧ first ≤ old.length

theorem getD_beyond (lines : List JsString) (i : ℕ) (h : lines.length ≤ i) : lines.getD i [] = [] := by
  rw [getD_eq_getElem?_getD, getElem?_eq_none h]
  rfl

variable (old new : List JsString)

theorem unchanged_of_not (i : ℕ) (h : lineChanged old new i = false) : old.getD i [] = new.getD i [] := by
  unfold lineChanged at h
  rwa [decide_eq_false_iff_not, not_not] at h

theorem changedRange_none (h : changedRange old new = none) :
    new.length ≤ old.length ∧ ∀ i, old.getD i [] = new.getD i [] := by
  unfold changedRange at h
  dsimp only at h
  split at h
  · cases h
  rename_i hlength
  refine ⟨by omega, fun i => ?_⟩
  split at h
  · cases h
  rename_i hnone
  by_cases hi : i < max new.length old.length
  · refine unchanged_of_not old new i ?_
    cases hfirst : (List.range (max new.length old.length)).find? (lineChanged old new) with
    | none => exact Bool.not_eq_true _ ▸ find?_eq_none.mp hfirst i (mem_range.mpr hi)
    | some first =>
      cases hlast : (List.range (max new.length old.length)).reverse.find? (lineChanged old new) with
      | none =>
        exact Bool.not_eq_true _ ▸ find?_eq_none.mp hlast i (mem_reverse.mpr (mem_range.mpr hi))
      | some last => exact absurd hlast (hnone first last hfirst)
  · rw [getD_beyond old i (by omega), getD_beyond new i (by omega)]

theorem changedRange_some (hfull : ∀ line ∈ new, line ≠ []) (first last : ℕ)
    (h : changedRange old new = some (first, last)) : RangeOf old new first last := by
  unfold changedRange at h
  dsimp only at h
  have hout : ∀ i, max new.length old.length ≤ i → old.getD i [] = new.getD i [] := by
    intro i hi
    rw [getD_beyond old i (by omega), getD_beyond new i (by omega)]
  split at h
  · rename_i hlength
    obtain ⟨rfl, rfl⟩ := Prod.mk.inj (some.inj h)
    -- the first line that is appended is not empty, so it has changed
    have hchanged : lineChanged old new old.length = true := by
      unfold lineChanged
      rw [decide_eq_true_eq, getD_beyond old _ (le_refl _), getD_eq_getElem?_getD,
        getElem?_eq_getElem hlength, getD_some]
      exact Ne.symm (hfull _ (getElem_mem hlength))
    cases hfirst : (List.range (max new.length old.length)).find? (lineChanged old new) with
    | none =>
      have hno := find?_eq_none.mp hfirst old.length (mem_range.mpr (by omega))
      exact absurd hchanged hno
    | some first =>
      obtain ⟨-, -, hbefore⟩ := find?_range_eq_some.mp hfirst
      have hle : first ≤ old.length := by
        by_contra hgt
        have := hbefore old.length (by omega)
        rw [hchanged] at this
        cases this
      rw [getD_some]
      refine ⟨by omega, by omega, fun i hi => unchanged_of_not old new i ?_, fun i hi => hout i (by omega),
        fun _ => ⟨rfl, hle⟩⟩
      have := hbefore i hi
      rwa [Bool.not_eq_true'] at this
  · rename_i hlength
    split at h
    · rename_i first' last' hfirst hlast
      obtain ⟨rfl, rfl⟩ := Prod.mk.inj (some.inj h)
      obtain ⟨hp, -, hbefore⟩ := find?_range_eq_some.mp hfirst
      obtain ⟨hq, hlt, hafter⟩ := find_last _ _ _ hlast
      refine ⟨?_, hlt, fun i hi => unchanged_of_not old new i ?_, fun i hi => ?_, fun hgrown => absurd hgrown hlength⟩
      · by_contra hgt
        have := hbefore last' (by omega)
        rw [hq] at this
        cases this
      · have := hbefore i hi
        rwa [Bool.not_eq_true'] at this
      · by_cases hin : i < max new.length old.length
        · exact unchanged_of_not old new i (hafter i hi hin)
        · exact hout i (by omega)
    · cases h

/-! ## The lines of a frame -/

section Pages

variable {Cell : Type} (T : Text Cell)

variable (lines : List JsString)

section

variable (height : ℕ) (pos : CursorPos) (h : (extractCursorPosition T lines height).1 = some pos)
include height h

theorem extractCursorPosition_row : pos.row < lines.length := by
  unfold extractCursorPosition at h
  dsimp only at h
  split at h
  · cases h
  · rename_i row hrow
    cases h
    exact (find_last _ _ _ hrow).2.1

theorem extractCursorPosition_bottom : lines.length - height ≤ pos.row := by
  unfold extractCursorPosition at h
  dsimp only at h
  split at h
  · cases h
  · rename_i row hrow
    cases h
    have hp := (find_last _ _ _ hrow).1
    rw [Bool.and_eq_true, decide_eq_true_eq] at hp
    exact hp.1

end

theorem extractCursorPosition_length (height : ℕ) :
    (extractCursorPosition T lines height).2.length = lines.length := by
  unfold extractCursorPosition
  dsimp only
  split
  · rfl
  · exact length_set ..

variable (rendered : List JsString)

theorem frameLines_length (height : ℕ) : (frameLines T rendered height).2.length = rendered.length := by
  unfold frameLines applyLineResets
  rw [length_map, extractCursorPosition_length]

theorem frameLines_row (height : ℕ) (pos : CursorPos) (h : (frameLines T rendered height).1 = some pos) :
    pos.row < (frameLines T rendered height).2.length ∧
      (frameLines T rendered height).2.length - height ≤ pos.row := by
  rw [frameLines_length]
  exact ⟨extractCursorPosition_row T rendered height pos h, extractCursorPosition_bottom T rendered height pos h⟩

theorem frameLines_ne_nil (height : ℕ) : ∀ line ∈ (frameLines T rendered height).2, line ≠ [] := by
  intro line hmem
  unfold frameLines applyLineResets at hmem
  obtain ⟨text, -, rfl⟩ := mem_map.mp hmem
  unfold SEGMENT_RESET
  simp

theorem cells_nil : T.cells [] = [] := by
  rw [← length_eq_zero_iff, ← Nat.le_zero, ← T.visibleWidth_nil]
  exact T.cells_width []

def page (lines : List JsString) : ℕ → ℕ → Option Cell := fun i c => (T.cells (lines.getD i []))[c]?

theorem page_beyond (i : ℕ) (h : lines.length ≤ i) : page T lines i = fun _ => none := by
  funext c
  unfold page
  rw [getD_beyond lines i h, cells_nil]
  rfl

theorem page_nil : page T [] = fun _ _ => none := by
  funext i
  exact page_beyond T [] i (Nat.zero_le i)

theorem page_congr (lines lines' : List JsString) (i : ℕ) (h : lines.getD i [] = lines'.getD i []) :
    page T lines i = page T lines' i := by
  unfold page
  rw [h]

/-! ## Rows -/

variable (lines : List JsString) (width : ℕ) (start : ℕ → ℕ → Option Cell) (i : ℕ)

theorem fills_fresh (hwidth : T.visibleWidth (lines.getD i []) ≤ width) (hblank : start i = fun _ => none) :
    Fills T.cells width start (page T lines) i [.print (lines.getD i [])] := by
  intro t sheet top htw hcol hsheet h
  refine View.print T.cells t sheet top i h _ hcol ?_ ?_
  · rw [htw]
    exact (T.cells_width _).trans hwidth
  · rw [hsheet i (le_refl _), hblank]

theorem fills_line (hwidth : T.visibleWidth (lines.getD i []) ≤ width) :
    Fills T.cells width start (page T lines) i [.clearLine, .print (lines.getD i [])] := by
  intro t sheet top htw hcol hsheet h
  have hclear := View.clearLine T.cells t sheet top i h
  have hprint := View.print T.cells _ _ top i hclear (lines.getD i []) hcol
    (htw ▸ (T.cells_width _).trans hwidth) (Function.update_self ..)
  rw [Function.update_idem] at hprint
  exact hprint

theorem fills_clear (hbeyond : lines.length ≤ i) : Fills T.cells width start (page T lines) i [.clearLine] := by
  intro t sheet top htw hcol hsheet h
  rw [page_beyond T lines i hbeyond]
  exact View.clearLine T.cells t sheet top i h

end Pages

section Moves

variable {Cell : Type} (T : Text Cell) (t : Term Cell) (sheet : ℕ → ℕ → Option Cell) (top at' : ℕ)

theorem moveRows_view (h : View t sheet top at') (target : ℕ) (hlo : top ≤ target) (hhi : target < top + t.height) :
    View (t.run T.cells (moveRows ((target : ℤ) - at'))) sheet top target := by
  unfold moveRows
  split
  · have hdown := View.down T.cells t sheet top at' h ((target : ℤ) - at').toNat (by omega) (by omega)
    rw [show at' + ((target : ℤ) - at').toNat = target by omega] at hdown
    exact hdown
  · split
    · have hup := View.up T.cells t sheet top at' h (-((target : ℤ) - at')).toNat (by omega) (by omega)
      rw [show at' - (-((target : ℤ) - at')).toNat = target by omega] at hup
      exact hup
    · rw [Term.run_nil, show target = at' by omega]
      exact h

theorem clearRows_view (lines : List JsString) (n : ℕ) (hn : 0 < n) (hbeyond : lines.length ≤ at')
    (h : View t sheet top at') (hin : at' + n ≤ top + t.height) :
    View (t.run T.cells (clearRows n)) (patch sheet (page T lines) at' n) top (at' + n - 1) ∧
      (t.run T.cells (clearRows n)).col = 0 := by
  induction n generalizing t sheet at' with
  | zero => exact absurd hn (lt_irrefl _)
  | succ n ih =>
    have hclear := View.clearLine T.cells _ sheet top at' (View.cr T.cells t sheet top at' h)
    rw [← page_beyond T lines at' hbeyond] at hclear
    cases n with
    | zero =>
      refine ⟨?_, rfl⟩
      rw [← patch_succ, patch_zero]
      exact hclear
    | succ n =>
      have hdown := View.down T.cells _ _ top at' hclear 1 (by omega) (by
        change at' + 1 < top + t.height
        omega)
      obtain ⟨hrest, hcol⟩ := ih _ _ (at' + 1) (by omega) (by omega) hdown (by
        change at' + 1 + (n + 1) ≤ top + t.height
        omega)
      rw [patch_succ] at hrest
      rw [show at' + (n + 1 + 1) - 1 = at' + 1 + (n + 1) - 1 by omega]
      exact ⟨hrest, hcol⟩

end Moves

/-! ## Between two frames -/

section Routes

variable {Cell : Type} (T : Text Cell) (o : Options)

structure Synced (t : Term Cell) (s : RenderState) : Prop where
  view : View t (page T s.previousLines) s.previousViewportTop s.hardwareCursorRow
  width : t.width = s.previousWidth
  height : t.height = s.previousHeight
  positive : 0 < s.previousWidth
  fits : s.previousLines.length ≤ s.previousViewportTop + t.height
  reach : s.previousViewportTop = 0 ∨ s.previousViewportTop < s.previousLines.length
  home : s.previousLines = [] → s.hardwareCursorRow = 0 ∧ t.col = 0

structure Drawn (t : Term Cell) (s : RenderState) (lines : List JsString) : Prop where
  synced : Synced T t s
  same : page T s.previousLines = page T lines
  fits : lines.length ≤ s.previousViewportTop + t.height

def InWindow (cursorPos : Option CursorPos) (top total : ℕ) : Prop :=
  ∀ pos, cursorPos = some pos → top ≤ pos.row ∧ pos.row < total

variable (s : RenderState) (cursorPos : Option CursorPos)

theorem positionHardwareCursor_top (total : ℕ) :
    ∃ row, (positionHardwareCursor o s cursorPos total).2 = { s with hardwareCursorRow := row } := by
  unfold positionHardwareCursor
  split
  · exact ⟨s.hardwareCursorRow, rfl⟩
  · split
    · exact ⟨s.hardwareCursorRow, rfl⟩
    · exact ⟨_, rfl⟩

variable (t : Term Cell)

theorem position_view (sheet : ℕ → ℕ → Option Cell) (s : RenderState) (cursorPos : Option CursorPos)
    (total : ℕ) (h : View t sheet s.previousViewportTop s.hardwareCursorRow)
    (htotal : total ≤ s.previousViewportTop + t.height) (hin : InWindow cursorPos s.previousViewportTop total) :
    View (t.run T.cells (positionHardwareCursor o s cursorPos total).1) sheet s.previousViewportTop
      (positionHardwareCursor o s cursorPos total).2.hardwareCursorRow := by
  unfold positionHardwareCursor
  split
  · exact h
  · rename_i pos
    obtain ⟨hlo, hhi⟩ := hin pos rfl
    rw [if_neg (by omega)]
    dsimp only
    rw [Term.run_append, min_eq_left (by omega)]
    exact View.column T.cells _ _ _ _ (moveRows_view T t sheet _ _ h pos.row hlo (by omega)) (pos.col + 1)

theorem position_none (s : RenderState) (cursorPos : Option CursorPos) :
    t.run T.cells (positionHardwareCursor o s cursorPos 0).1 = t ∧
      (positionHardwareCursor o s cursorPos 0).2 = s := by
  unfold positionHardwareCursor
  split <;> exact ⟨rfl, rfl⟩

/-- A route is done when its rows are drawn and the cursor row is tracked; then the hardware cursor is moved. -/
theorem finish (s : RenderState) (lines : List JsString) (width height : ℕ)
    (cursorPos : Option CursorPos) (hview : View t (page T lines) s.previousViewportTop s.hardwareCursorRow)
    (hwidth : t.width = width) (hheight : t.height = height) (hpositive : 0 < width)
    (hfits : lines.length ≤ s.previousViewportTop + t.height)
    (hreach : s.previousViewportTop = 0 ∨ s.previousViewportTop < lines.length)
    (hhome : lines = [] → s.hardwareCursorRow = 0 ∧ t.col = 0)
    (hin : InWindow cursorPos s.previousViewportTop lines.length) :
    Drawn T (t.run T.cells (positionHardwareCursor o s cursorPos lines.length).1)
      ((positionHardwareCursor o s cursorPos lines.length).2.stored lines width height) lines := by
  have hpositioned := position_view T o t _ s cursorPos lines.length hview hfits hin
  obtain ⟨row, hstate⟩ := positionHardwareCursor_top o s cursorPos lines.length
  have hdrawn : Synced T (t.run T.cells (positionHardwareCursor o s cursorPos lines.length).1)
      ((positionHardwareCursor o s cursorPos lines.length).2.stored lines width height) := by
    refine ⟨?_, ?_, ?_, hpositive, ?_, ?_, fun hnil => ?_⟩
    · rw [hstate] at hpositioned ⊢
      exact hpositioned
    · rw [Term.run_width]
      exact hwidth
    · rw [Term.run_height]
      exact hheight
    · rw [hstate, Term.run_height]
      exact hfits
    · rw [hstate]
      exact hreach
    · have hnil' : lines = [] := hnil
      subst hnil'
      obtain ⟨hterm, hsame⟩ := position_none T o t s cursorPos
      obtain ⟨hrow, hcol⟩ := hhome rfl
      refine ⟨?_, ?_⟩
      · change (positionHardwareCursor o s cursorPos 0).2.hardwareCursorRow = 0
        rw [hsame, hrow]
      · change (t.run T.cells (positionHardwareCursor o s cursorPos 0).1).col = 0
        rw [hterm, hcol]
  refine ⟨hdrawn, rfl, ?_⟩
  rw [hstate, Term.run_height]
  exact hfits

/-! ## A full redraw -/

theorem drawRows_fresh (lines : List JsString) (t : Term Cell) (h : View t (fun _ _ => none) 0 0) (hcol : t.col = 0)
    (hwide : ∀ i, T.visibleWidth (lines.getD i []) ≤ t.width) :
    View (t.run T.cells (drawRows [] lines 0 lines.length)) (page T lines) (max t.height lines.length - t.height)
      (lines.length - 1) := by
  cases lines with
  | nil =>
    rw [page_nil, length_nil, Nat.max_zero, Nat.sub_self]
    exact h
  | cons line rest =>
    have hlength : (line :: rest).length = rest.length + 1 := rfl
    have hrows := fill_rows T.cells (fun _ _ => none) (page T (line :: rest))
      (fun i => [] ++ [.print ((line :: rest).getD i [])]) 0 (line :: rest).length (by omega) t 0 h hcol
      (fun i _ _ => fills_fresh T (line :: rest) t.width _ i (hwide i) rfl)
    have hall : patch (fun _ _ => none) (page T (line :: rest)) 0 (line :: rest).length = page T (line :: rest) := by
      funext i
      unfold patch
      by_cases hi : i < (line :: rest).length
      · rw [if_pos (by omega)]
      · rw [if_neg (by omega), page_beyond T _ i (by omega)]
    rw [hall, Nat.zero_add] at hrows
    rw [show max t.height (line :: rest).length - t.height = max 0 ((line :: rest).length - t.height) by omega]
    exact hrows

theorem fullRender_drawn (s : RenderState) (width height : ℕ) (cursorPos : Option CursorPos)
    (lines : List JsString) (clear : Bool)
    (hstart : clear = false → View t (fun _ _ => none) 0 0 ∧ t.col = 0)
    (hwidth : t.width = width) (hheight : t.height = height) (hpositive : 0 < width) (htall : 0 < height)
    (hwide : ∀ i, T.visibleWidth (lines.getD i []) ≤ width)
    (hcursor : ∀ pos, cursorPos = some pos → pos.row < lines.length ∧ lines.length - height ≤ pos.row) :
    Drawn T (t.run T.cells (fullRender o s width height cursorPos lines clear).1)
      (fullRender o s width height cursorPos lines clear).2 lines := by
  obtain ⟨t₁, hrun, hview, hcol, hw, hh⟩ : ∃ t₁, t.run T.cells ([.mode "?2026h"] ++
      (if clear = true then [.clearAndHome] else [])) = t₁ ∧ View t₁ (fun _ _ => none) 0 0 ∧ t₁.col = 0 ∧
      t₁.width = width ∧ t₁.height = height := by
    cases clear with
    | true => exact ⟨_, rfl, View.clearAndHome T.cells t (by omega), rfl, hwidth, hheight⟩
    | false =>
      obtain ⟨hview, hcol⟩ := hstart rfl
      exact ⟨t, rfl, hview, hcol, hwidth, hheight⟩
  have hrows := drawRows_fresh T lines t₁ hview hcol (fun i => hw ▸ hwide i)
  unfold fullRender
  dsimp only
  rw [Term.run_append, Term.run_append, Term.run_append, hrun]
  refine finish T o _ _ lines width height cursorPos ?_ ?_ ?_ hpositive ?_ ?_ (fun hnil => ?_) (fun pos hpos => ?_)
  · dsimp only
    rw [← hh]
    exact hrows
  · rw [Term.run_width, Term.run_width, hw]
  · rw [Term.run_height, Term.run_height, hh]
  · rw [Term.run_height, Term.run_height, hh]
    dsimp only
    omega
  · dsimp only
    omega
  · subst hnil
    exact ⟨rfl, hcol⟩
  · obtain ⟨hrow, hbottom⟩ := hcursor pos hpos
    dsimp only
    exact ⟨by omega, hrow⟩

end Routes

end PiAgent.Tui
