import PiAgent.Tui.MainScreenProofs

/-! # The screen after a frame -/

namespace PiAgent.Tui

open Terminal

section Routes

variable {Cell : Type} (T : Text Cell) (o : Options)

/-! ## Deleted lines -/

theorem drawDeleted_drawn (t : Term Cell) (s : RenderState) (hs : Synced T t s) (cursorPos : Option CursorPos)
    (lines : List JsString) (htall : 0 < t.height) (hshrinks : lines.length < s.previousLines.length)
    (hsame : ∀ i, i < lines.length → s.previousLines.getD i [] = lines.getD i [])
    (htarget : s.previousViewportTop ≤ lines.length - 1)
    (hin : InWindow cursorPos s.previousViewportTop lines.length) :
    Drawn T (t.run T.cells (drawDeleted o s t.width t.height cursorPos lines).1)
      (drawDeleted o s t.width t.height cursorPos lines).2 lines := by
  have hfits := hs.fits
  have hpositive := hs.width ▸ hs.positive
  have hall : patch (page T s.previousLines) (page T lines) lines.length
      (s.previousLines.length - lines.length) = page T lines := by
    funext i
    unfold patch
    by_cases hi : i < lines.length
    · rw [if_neg (by omega), page_congr T _ _ i (hsame i hi)]
    · by_cases hold : i < s.previousLines.length
      · rw [if_pos (by omega)]
      · rw [if_neg (by omega), page_beyond T _ i (by omega), page_beyond T _ i (by omega)]
  -- the cursor is moved to the last line that stays
  have hmoved := View.cr T.cells _ _ _ _
    (moveRows_view T t _ _ _ hs.view (lines.length - 1) htarget (by omega))
  have hmovedHeight : (Term.apply T.cells (t.run T.cells
      (moveRows (((lines.length - 1 : ℕ) : ℤ) - s.hardwareCursorRow))) .cr).height = t.height :=
    Term.run_height T.cells t _
  -- and from there to the first one that goes
  obtain ⟨t₁, hrun, hview, hheight, hwidth, hcol⟩ : ∃ t₁,
      t.run T.cells (moveRows (((lines.length - 1 : ℕ) : ℤ) - s.hardwareCursorRow) ++ [.cr] ++
        (if 0 < (if lines.length = 0 then 0 else 1) then [.down (if lines.length = 0 then 0 else 1)] else [])) = t₁ ∧
      View t₁ (page T s.previousLines) s.previousViewportTop lines.length ∧ t₁.height = t.height ∧
      t₁.width = t.width ∧ t₁.col = 0 := by
    by_cases hempty : lines.length = 0
    · rw [if_pos hempty, if_neg (lt_irrefl 0), List.append_nil]
      refine ⟨_, rfl, ?_, Term.run_height T.cells t _, Term.run_width T.cells t _, by rw [Term.run_append]; rfl⟩
      rw [Term.run_append]
      exact View.at_row _ _ _ _ _ hmoved (by omega)
    · rw [if_neg hempty, if_pos Nat.one_pos]
      refine ⟨_, rfl, ?_, Term.run_height T.cells t _, Term.run_width T.cells t _,
        by rw [Term.run_append, Term.run_append]; rfl⟩
      have hdown := View.down T.cells _ _ _ _ hmoved 1 Nat.one_pos (by rw [hmovedHeight]; omega)
      rw [show lines.length - 1 + 1 = lines.length by omega] at hdown
      rw [Term.run_append, Term.run_append]
      exact hdown
  obtain ⟨hcleared, hclearedCol⟩ := clearRows_view T t₁ _ _ _ lines (s.previousLines.length - lines.length)
    (by omega) (le_refl _) hview (by rw [hheight]; omega)
  rw [hall] at hcleared
  obtain ⟨t₂, hback, hview₂, hheight₂, hwidth₂, hcol₂⟩ : ∃ t₂,
      (t₁.run T.cells (clearRows (s.previousLines.length - lines.length))).run T.cells
        (if 0 < s.previousLines.length - lines.length - 1 + (if lines.length = 0 then 0 else 1) then
          [.up (s.previousLines.length - lines.length - 1 + (if lines.length = 0 then 0 else 1))] else []) = t₂ ∧
      View t₂ (page T lines) s.previousViewportTop (lines.length - 1) ∧ t₂.height = t.height ∧
      t₂.width = t.width ∧ t₂.col = 0 := by
    by_cases hmove : 0 < s.previousLines.length - lines.length - 1 + (if lines.length = 0 then 0 else 1)
    · rw [if_pos hmove]
      refine ⟨_, rfl, ?_, (Term.run_height T.cells _ _).trans ((Term.run_height T.cells _ _).trans hheight),
        (Term.run_width T.cells _ _).trans ((Term.run_width T.cells _ _).trans hwidth), hclearedCol⟩
      have hup := View.up T.cells _ _ _ _ hcleared _ hmove (by split <;> omega)
      rw [show lines.length + (s.previousLines.length - lines.length) - 1 -
        (s.previousLines.length - lines.length - 1 + (if lines.length = 0 then 0 else 1)) = lines.length - 1 by
          split <;> omega] at hup
      exact hup
    · rw [if_neg hmove]
      refine ⟨_, rfl, ?_, (Term.run_height T.cells _ _).trans ((Term.run_height T.cells _ _).trans hheight),
        (Term.run_width T.cells _ _).trans ((Term.run_width T.cells _ _).trans hwidth), hclearedCol⟩
      rw [Term.run_nil]
      have hone : lines.length + (s.previousLines.length - lines.length) - 1 = lines.length - 1 := by
        split at hmove <;> omega
      rw [hone] at hcleared
      exact hcleared
  have hdone := finish T o t₂
    { s with cursorRow := lines.length - 1, hardwareCursorRow := lines.length - 1 } lines t.width t.height cursorPos
    hview₂ hwidth₂ hheight₂ hpositive (by rw [hheight₂]; dsimp only; omega) (by dsimp only; omega)
    (fun hnil => by subst hnil; exact ⟨rfl, hcol₂⟩) hin
  have hfinal : t.run T.cells (drawDeleted o s t.width t.height cursorPos lines).1 =
      t₂.run T.cells (positionHardwareCursor o
        { s with cursorRow := lines.length - 1, hardwareCursorRow := lines.length - 1 } cursorPos lines.length).1 := by
    unfold drawDeleted
    dsimp only
    rw [if_pos hshrinks, ← hback, ← hrun]
    simp only [Term.run_append, Term.run_cons, Term.run_nil]
    rfl
  have hstate : (drawDeleted o s t.width t.height cursorPos lines).2 =
      (positionHardwareCursor o { s with cursorRow := lines.length - 1, hardwareCursorRow := lines.length - 1 }
        cursorPos lines.length).2.stored lines t.width t.height := by
    unfold drawDeleted
    dsimp only
    rw [if_pos hshrinks]
  rw [hfinal, hstate]
  exact hdone

/-! ## A changed range -/

theorem range_start (t : Term Cell) (s : RenderState) (hs : Synced T t s) (first : ℕ) (append : Bool)
    (hlo : s.previousViewportTop ≤ first) (hhi : first ≤ s.previousLines.length)
    (happend : append = true ↔ first = s.previousLines.length) (hfirst : append = true → 0 < first) :
    View (t.run T.cells (moveRows (((if append = true then first - 1 else first : ℕ) : ℤ) - s.hardwareCursorRow) ++
        [if append = true then .crlf else .cr])) (page T s.previousLines)
        (max s.previousViewportTop (first + 1 - t.height)) first ∧
      (t.run T.cells (moveRows (((if append = true then first - 1 else first : ℕ) : ℤ) - s.hardwareCursorRow) ++
        [if append = true then .crlf else .cr])).col = 0 := by
  have hfits := hs.fits
  have hreach := hs.reach
  have hbottom := View.bottom t _ _ _ hs.view
  rw [Term.run_append]
  cases append with
  | true =>
    have hpos := hfirst rfl
    have hend := happend.mp rfl
    have hmoved := moveRows_view T t _ _ _ hs.view (first - 1) (by omega) (by omega)
    have hnext := View.crlf T.cells _ _ _ _ hmoved
    rw [Term.run_height, show first - 1 + 2 - t.height = first + 1 - t.height by omega,
      show first - 1 + 1 = first by omega] at hnext
    exact ⟨hnext, Term.lineFeed_col _⟩
  | false =>
    have hend : first ≠ s.previousLines.length := fun heq => by cases happend.mpr heq
    have hmoved := moveRows_view T t _ _ _ hs.view first hlo (by omega)
    rw [max_eq_left (by omega)]
    exact ⟨View.cr T.cells _ _ _ _ hmoved, rfl⟩

/-- The rows of the range, over the old ones; the window follows the last of them. -/
theorem range_rows (t : Term Cell) (s : RenderState) (hs : Synced T t s) (lines : List JsString) (first n : ℕ)
    (append : Bool) (hn : 0 < n) (hlo : s.previousViewportTop ≤ first) (hhi : first ≤ s.previousLines.length)
    (happend : append = true ↔ first = s.previousLines.length) (hfirst : append = true → 0 < first)
    (hwide : ∀ i, T.visibleWidth (lines.getD i []) ≤ t.width) :
    View (t.run T.cells (moveRows (((if append = true then first - 1 else first : ℕ) : ℤ) - s.hardwareCursorRow) ++
        [if append = true then .crlf else .cr] ++ drawRows [.clearLine] lines first n))
      (patch (page T s.previousLines) (page T lines) first n) (max s.previousViewportTop (first + n - t.height))
      (first + n - 1) := by
  obtain ⟨hstart, hcol⟩ := range_start T t s hs first append hlo hhi happend hfirst
  have hrows := fill_rows T.cells (page T s.previousLines) (page T lines)
    (fun i => [.clearLine] ++ [.print (lines.getD i [])]) first n hn _ _ hstart hcol
    (fun i _ _ => fills_line T lines _ _ i (by rw [Term.run_width]; exact hwide i))
  rw [Term.run_height, show max (max s.previousViewportTop (first + 1 - t.height)) (first + n - t.height) =
    max s.previousViewportTop (first + n - t.height) by omega] at hrows
  rw [Term.run_append]
  exact hrows

theorem patch_changed (old new : List JsString) (first last : ℕ) (h : RangeOf old new first last) (i : ℕ)
    (hout : ¬ (first ≤ i ∧ i < min last (new.length - 1) + 1)) (hlines : i < new.length ∨ old.length ≤ i) :
    page T old i = page T new i := by
  by_cases hbefore : i < first
  · exact page_congr T old new i (h.before i hbefore)
  · by_cases hafter : last < i
    · exact page_congr T old new i (h.after i hafter)
    · rw [page_beyond T old i (by omega), page_beyond T new i (by omega)]

theorem drawChanged_drawn (t : Term Cell) (s : RenderState) (hs : Synced T t s) (cursorPos : Option CursorPos)
    (lines : List JsString) (first last : ℕ) (htall : 0 < t.height) (hold : s.previousLines ≠ [])
    (hrange : RangeOf s.previousLines lines first last) (hfirst : first < lines.length)
    (htop : s.previousViewportTop ≤ first) (hwide : ∀ i, T.visibleWidth (lines.getD i []) ≤ t.width)
    (hcursor : ∀ pos, cursorPos = some pos → s.previousViewportTop ≤ pos.row ∧ pos.row < lines.length ∧
      lines.length - t.height ≤ pos.row) :
    Drawn T (t.run T.cells (drawChanged o s t.width t.height cursorPos lines first last).1)
      (drawChanged o s t.width t.height cursorPos lines first last).2 lines := by
  have hfits := hs.fits
  have hpositive := hs.width ▸ hs.positive
  have holdLength := List.length_pos_of_ne_nil hold
  have horder := hrange.order
  have hgrown := hrange.grown
  have hbound := hrange.bound
  have hle : first ≤ s.previousLines.length := by
    by_cases hlength : s.previousLines.length < lines.length
    · exact (hgrown hlength).2
    · omega
  unfold drawChanged
  dsimp only
  generalize hdef : decide (s.previousLines.length < lines.length ∧ first = s.previousLines.length ∧ 0 < first) = append
  have happend : append = true ↔ first = s.previousLines.length := by
    rw [← hdef, decide_eq_true_eq]
    omega
  have hscroll : decide (s.previousViewportTop + t.height - 1 < if append = true then first - 1 else first) = false := by
    rw [decide_eq_false_iff_not]
    by_cases ha : append = true
    · rw [if_pos ha]
      have hend := happend.mp ha
      omega
    · rw [if_neg ha]
      have hend : first ≠ s.previousLines.length := fun heq => ha (happend.mpr heq)
      omega
  have hrows := range_rows T t s hs lines first (min last (lines.length - 1) + 1 - first) append (by omega) htop hle
    happend (fun ha => by have := happend.mp ha; omega) hwide
  rw [show first + (min last (lines.length - 1) + 1 - first) - t.height = min last (lines.length - 1) + 1 - t.height by
    omega, show first + (min last (lines.length - 1) + 1 - first) - 1 = min last (lines.length - 1) by omega] at hrows
  obtain ⟨t₂, hrun, hwidth, hheight⟩ : ∃ t₂, t.run T.cells
      (moveRows (((if append = true then first - 1 else first : ℕ) : ℤ) - s.hardwareCursorRow) ++
        [if append = true then .crlf else .cr] ++
        drawRows [.clearLine] lines first (min last (lines.length - 1) + 1 - first)) = t₂ ∧
      t₂.width = t.width ∧ t₂.height = t.height := ⟨_, rfl, Term.run_width .., Term.run_height ..⟩
  rw [hrun] at hrows
  rw [hscroll]
  by_cases hshrinks : lines.length < s.previousLines.length
  · have hdown : View (t₂.run T.cells (if 0 < lines.length - 1 - min last (lines.length - 1) then
        [.down (lines.length - 1 - min last (lines.length - 1))] else [])) (patch (page T s.previousLines) (page T lines)
          first (min last (lines.length - 1) + 1 - first)) s.previousViewportTop (lines.length - 1) := by
      rw [max_eq_left (by omega)] at hrows
      by_cases hmove : 0 < lines.length - 1 - min last (lines.length - 1)
      · rw [if_pos hmove]
        exact View.at_row _ _ _ _ _ (View.down T.cells _ _ _ _ hrows _ hmove (by omega)) (by omega)
      · rw [if_neg hmove]
        exact View.at_row _ _ _ _ _ hrows (by omega)
    have hclear := fill_next T.cells _ (page T lines) (fun _ => [.clearLine]) (s.previousLines.length - lines.length)
      _ _ _ _ hdown (fun j _ => rfl) (fun i hi _ => fills_clear T lines _ _ i (by omega))
    rw [Term.run_height, hheight, max_eq_left (by omega), show lines.length - 1 + 1 = lines.length by omega] at hclear
    have hup := View.up T.cells _ _ _ _ hclear (s.previousLines.length - lines.length) (by omega) (by omega)
    rw [show lines.length - 1 + (s.previousLines.length - lines.length) - (s.previousLines.length - lines.length) =
      lines.length - 1 by omega] at hup
    have hall : patch (patch (page T s.previousLines) (page T lines) first (min last (lines.length - 1) + 1 - first))
        (page T lines) lines.length (s.previousLines.length - lines.length) = page T lines := by
      funext i
      unfold patch
      split
      · rfl
      · split
        · rfl
        · exact patch_changed T _ _ first last hrange i (by omega) (by omega)
    rw [hall] at hup
    have hdone := finish T o _
      { s with
        cursorRow := lines.length - 1
        hardwareCursorRow := lines.length - 1
        maxLinesRendered := max s.maxLinesRendered lines.length
        previousViewportTop := max s.previousViewportTop (lines.length - 1 + 1 - t.height) }
      lines t.width t.height cursorPos (by dsimp only; rw [max_eq_left (by omega)]; exact hup)
      ((Term.apply_size T.cells _ _).1.trans (by simp only [Term.run_width, hwidth]))
      ((Term.apply_size T.cells _ _).2.trans (by simp only [Term.run_height, hheight])) hpositive
      (by rw [(Term.apply_size T.cells _ _).2]; simp only [Term.run_height, hheight]; omega) (by dsimp only; omega)
      (fun hnil => by subst hnil; cases hfirst)
      (fun pos hpos => by obtain ⟨hlo, hhi, hbottom⟩ := hcursor pos hpos; exact ⟨by dsimp only; omega, hhi⟩)
    rw [decide_eq_true hshrinks]
    simp only [Term.run_append, Term.run_cons, Term.run_nil] at hrun
    simp only [if_true, Bool.false_eq_true, if_false, Term.run_append, Term.run_cons, Term.run_nil, Term.apply_mode, hrun]
    exact hdone
  · have hall : patch (page T s.previousLines) (page T lines) first (min last (lines.length - 1) + 1 - first) =
        page T lines := by
      funext i
      unfold patch
      split
      · rfl
      · exact patch_changed T _ _ first last hrange i (by omega) (by omega)
    rw [hall] at hrows
    have hdone := finish T o _
      { s with
        cursorRow := lines.length - 1
        hardwareCursorRow := min last (lines.length - 1)
        maxLinesRendered := max s.maxLinesRendered lines.length
        previousViewportTop := max s.previousViewportTop (min last (lines.length - 1) + 1 - t.height) }
      lines t.width t.height cursorPos hrows hwidth hheight hpositive
      (by dsimp only; omega) (by dsimp only; omega)
      (fun hnil => by subst hnil; cases hfirst)
      (fun pos hpos => by obtain ⟨hlo, hhi, hbottom⟩ := hcursor pos hpos; exact ⟨by dsimp only; omega, hhi⟩)
    rw [decide_eq_false hshrinks]
    simp only [Term.run_append, Term.run_cons, Term.run_nil] at hrun
    simp only [Bool.false_eq_true, if_false, Term.run_append, Term.run_cons, Term.run_nil, Term.apply_mode, hrun]
    exact hdone

/-! ## Routes -/

def RouteOf (s : RenderState) (width height : ℕ) (lines : List JsString) : Route → Prop
  | .full true => True
  | .full false => (s.previousWidth ≠ 0 → s.previousWidth = width) ∧ (s.previousHeight ≠ 0 → s.previousHeight = height) ∧
      s.previousLines = []
  | .unchanged => (s.previousWidth ≠ 0 → s.previousWidth = width) ∧ (s.previousHeight ≠ 0 → s.previousHeight = height) ∧
      changedRange s.previousLines lines = none
  | .deleted => (s.previousWidth ≠ 0 → s.previousWidth = width) ∧ (s.previousHeight ≠ 0 → s.previousHeight = height) ∧
      ∃ first last, changedRange s.previousLines lines = some (first, last) ∧ lines.length ≤ first ∧
        (lines.length < s.previousLines.length → s.previousViewportTop ≤ lines.length - 1)
  | .changed first last => (s.previousWidth ≠ 0 → s.previousWidth = width) ∧
      (s.previousHeight ≠ 0 → s.previousHeight = height) ∧ s.previousLines ≠ [] ∧
      changedRange s.previousLines lines = some (first, last) ∧ first < lines.length ∧ s.previousViewportTop ≤ first

theorem route_of (s : RenderState) (width height : ℕ) (lines : List JsString) :
    RouteOf s width height lines (route o s width height lines) := by
  unfold route
  dsimp only
  split
  · rename_i hsame
    obtain ⟨hnil, hwidth, hheight⟩ := hsame
    exact ⟨fun h => not_not.mp (fun hne => hwidth ⟨h, hne⟩), fun h => not_not.mp (fun hne => hheight ⟨h, hne⟩), hnil⟩
  rename_i hfirst
  split
  · trivial
  rename_i hwidth
  split
  · trivial
  rename_i hheight
  have hsameWidth : s.previousWidth ≠ 0 → s.previousWidth = width := fun h => not_not.mp (fun hne => hwidth ⟨h, hne⟩)
  have hsameHeight : s.previousHeight ≠ 0 → s.previousHeight = height :=
    fun h => not_not.mp (fun hne => hheight ⟨h, hne⟩)
  split
  · trivial
  split
  · rename_i hnone
    exact ⟨hsameWidth, hsameHeight, hnone⟩
  · rename_i first last hsome
    split
    · rename_i hdeleted
      split
      · trivial
      · rename_i hstays
        exact ⟨hsameWidth, hsameHeight, first, last, hsome, hdeleted, fun hlt => by omega⟩
    · rename_i hin
      split
      · trivial
      · rename_i htop
        exact ⟨hsameWidth, hsameHeight, fun hnil => hfirst ⟨hnil, hwidth, hheight⟩, hsome, by omega, by omega⟩

/-! ## One frame -/

structure Fits (f : Frame) : Prop where
  width : 0 < f.width
  height : 0 < f.height
  lines : ∀ line ∈ (frameLines T f.rendered f.height).2, T.visibleWidth line ≤ f.width

structure Resized (t : Term Cell) (f : Frame) (t' : Term Cell) : Prop where
  width : t'.width = f.width
  height : t'.height = f.height
  same : t.width = f.width → t.height = f.height → t' = t

/-- The frame is redrawn in full, or the cursor marker that is found, if any, is not above the window. -/
def MarkerInWindow (s : RenderState) (f : Frame) : Prop :=
  route o s f.width f.height (frameLines T f.rendered f.height).2 = .full true ∨
    ∀ pos, (frameLines T f.rendered f.height).1 = some pos → s.previousViewportTop ≤ pos.row

theorem fits_wide (f : Frame) (h : Fits T f) (i : ℕ) :
    T.visibleWidth ((frameLines T f.rendered f.height).2.getD i []) ≤ f.width := by
  rw [List.getD_eq_getElem?_getD]
  cases hget : (frameLines T f.rendered f.height).2[i]? with
  | none => exact T.visibleWidth_nil.le.trans (Nat.zero_le _)
  | some line => exact h.lines line (List.mem_of_getElem? hget)

theorem doRender_drawn (t t' : Term Cell) (s s' : RenderState) (f : Frame) (ops : List (Op JsString))
    (hs : Synced T t s) (hf : Fits T f) (hresized : Resized t f t') (hmarker : MarkerInWindow T o s f)
    (hok : doRender T o s f = .ok (ops, s')) :
    Drawn T (t'.run T.cells ops) s' (frameLines T f.rendered f.height).2 := by
  have hcursor := frameLines_row T f.rendered f.height
  have hfull := frameLines_ne_nil T f.rendered f.height
  have hwide := fits_wide T f hf
  have hroute := route_of o s f.width f.height (frameLines T f.rendered f.height).2
  have hpositiveHeight : 0 < t.height := lt_of_le_of_lt (Nat.zero_le _) hs.view.inside
  have hkeep : (s.previousWidth ≠ 0 → s.previousWidth = f.width) →
      (s.previousHeight ≠ 0 → s.previousHeight = f.height) → t' = t ∧ t.width = f.width ∧ t.height = f.height := by
    intro hwidth hheight
    have hw : t.width = f.width := hs.width.trans (hwidth (Nat.pos_iff_ne_zero.mp hs.positive))
    have hh : t.height = f.height := hs.height.trans (hheight (by rw [← hs.height]; omega))
    exact ⟨hresized.same hw hh, hw, hh⟩
  have hwindow : route o s f.width f.height (frameLines T f.rendered f.height).2 ≠ .full true →
      ∀ pos, (frameLines T f.rendered f.height).1 = some pos → s.previousViewportTop ≤ pos.row :=
    fun hno => hmarker.resolve_left hno
  unfold doRender at hok
  dsimp only at hok
  generalize (frameLines T f.rendered f.height).2 = lines at *
  generalize (frameLines T f.rendered f.height).1 = cursorPos at *
  generalize hr : route o s f.width f.height lines = r at *
  cases r with
  | full clear =>
    cases hok
    cases clear with
    | true =>
      exact fullRender_drawn T o t' s f.width f.height cursorPos lines true (fun hno => by cases hno) hresized.width
        hresized.height hf.width hf.height hwide hcursor
    | false =>
      obtain ⟨hwidth, hheight, hnil⟩ := hroute
      obtain ⟨rfl, hw, hh⟩ := hkeep hwidth hheight
      refine fullRender_drawn T o t' s f.width f.height cursorPos lines false (fun _ => ?_) hw hh hf.width hf.height
        hwide hcursor
      obtain ⟨hrow, hcol⟩ := hs.home hnil
      have hview := hs.view
      have htop : s.previousViewportTop = 0 := by
        have hreach := hs.reach
        rw [hnil, List.length_nil] at hreach
        omega
      rw [hnil, page_nil, htop, hrow] at hview
      exact ⟨hview, hcol⟩
  | unchanged =>
    cases hok
    obtain ⟨hwidth, hheight, hnone⟩ := hroute
    obtain ⟨rfl, hw, hh⟩ := hkeep hwidth hheight
    obtain ⟨hlength, hsame⟩ := changedRange_none _ _ hnone
    have hpage : page T s.previousLines = page T lines := by
      funext i
      exact page_congr T _ _ i (hsame i)
    have hfits := hs.fits
    have hview := position_view T o t' _ s cursorPos lines.length hs.view (by omega)
      (fun pos hpos => ⟨hwindow (fun hno => by cases hno) pos hpos, (hcursor pos hpos).1⟩)
    obtain ⟨row, hstate⟩ := positionHardwareCursor_top o s cursorPos lines.length
    refine ⟨⟨?_, ?_, ?_, ?_, ?_, ?_, fun hnil => ?_⟩, ?_, ?_⟩
    · rw [hstate] at hview ⊢
      exact hview
    · rw [Term.run_width, hstate]
      exact hs.width
    · rw [Term.run_height]
      exact hh
    · rw [hstate]
      exact hs.positive
    · rw [Term.run_height, hstate]
      exact hfits
    · rw [hstate]
      exact hs.reach
    · rw [hstate] at hnil
      have hnil' : s.previousLines = [] := hnil
      have hempty : lines.length = 0 := by
        rw [hnil', List.length_nil] at hlength
        omega
      rw [hempty]
      obtain ⟨hterm, hsameState⟩ := position_none T o t' s cursorPos
      rw [hterm, hsameState]
      exact hs.home hnil'
    · rw [hstate]
      exact hpage
    · rw [Term.run_height, hstate]
      exact hlength.trans hfits
  | deleted =>
    cases hok
    obtain ⟨hwidth, hheight, first, last, hsome, hdeleted, htarget⟩ := hroute
    obtain ⟨rfl, hw, hh⟩ := hkeep hwidth hheight
    have hrange := changedRange_some _ _ hfull first last hsome
    have horder := hrange.order
    have hbound := hrange.bound
    have hgrown := hrange.grown
    have hshrinks : lines.length < s.previousLines.length := by
      by_contra hno
      by_cases hmore : s.previousLines.length < lines.length
      · have := hgrown hmore
        omega
      · omega
    have hdrawn := drawDeleted_drawn T o t' s hs cursorPos lines hpositiveHeight hshrinks
      (fun i hi => hrange.before i (by omega)) (htarget hshrinks)
      (fun pos hpos => ⟨hwindow (fun hno => by cases hno) pos hpos, (hcursor pos hpos).1⟩)
    rw [hw, hh] at hdrawn
    exact hdrawn
  | changed first last =>
    obtain ⟨hwidth, hheight, hold, hsome, hfirst, htop⟩ := hroute
    obtain ⟨rfl, hw, hh⟩ := hkeep hwidth hheight
    dsimp only at hok
    split at hok
    · cases hok
    cases hok
    have hdrawn := drawChanged_drawn T o t' s hs cursorPos lines first last hpositiveHeight hold
      (changedRange_some _ _ hfull first last hsome) hfirst htop (fun i => hw ▸ hwide i)
      (fun pos hpos => ⟨hwindow (fun hno => by cases hno) pos hpos, (hcursor pos hpos).1, hh ▸ (hcursor pos hpos).2⟩)
    rw [hw, hh] at hdrawn
    exact hdrawn

/-! ## Runs -/

/-- Frames that are rendered one after the other, from an empty screen on, and what the last one leaves. -/
inductive Renders (P : RenderState → Frame → Prop) : Term Cell → RenderState → Frame → Prop where
  | first (f : Frame) (ops : List (Op JsString)) (s' : RenderState) (hf : Fits T f) (hp : P .initial f)
    (hok : doRender T o .initial f = .ok (ops, s')) :
    Renders P ((Term.blank Cell f.width f.height).run T.cells ops) s' f
  | next (t t' : Term Cell) (s s' : RenderState) (g f : Frame) (ops : List (Op JsString)) (h : Renders P t s g)
    (hf : Fits T f) (hresized : Resized t f t') (hp : P s f) (hok : doRender T o s f = .ok (ops, s')) :
    Renders P (t'.run T.cells ops) s' f

structure Shows (t : Term Cell) (s : RenderState) (f : Frame) : Prop where
  height : t.height = f.height
  rows : ∀ r < t.height, ∀ c,
    t.grid r c = page T (frameLines T f.rendered f.height).2 (s.previousViewportTop + r) c
  visible : ∀ i < f.rendered.length, f.rendered.length - t.height ≤ i → s.previousViewportTop ≤ i →
    i - s.previousViewportTop < t.height
  cursor : (t.row : ℤ) = (s.hardwareCursorRow : ℤ) - s.previousViewportTop

theorem shows_of_drawn (t : Term Cell) (s : RenderState) (f : Frame) (hheight : t.height = f.height)
    (h : Drawn T t s (frameLines T f.rendered f.height).2) : Shows T t s f := by
  have hview := h.synced.view
  have hrow := hview.row
  have hfits := h.fits
  rw [frameLines_length] at hfits
  refine ⟨hheight, fun r hr c => ?_, fun i hi _ htop => by omega, by omega⟩
  rw [hview.shown r hr c, h.same]

theorem first_drawn (f : Frame) (ops : List (Op JsString)) (s' : RenderState) (hf : Fits T f)
    (hok : doRender T o .initial f = .ok (ops, s')) :
    Drawn T ((Term.blank Cell f.width f.height).run T.cells ops) s' (frameLines T f.rendered f.height).2 := by
  have hroute : route o .initial f.width f.height (frameLines T f.rendered f.height).2 = .full false := by
    unfold route
    exact if_pos ⟨rfl, fun h => h.1 rfl, fun h => h.1 rfl⟩
  unfold doRender at hok
  dsimp only at hok
  rw [hroute] at hok
  cases hok
  exact fullRender_drawn T o _ _ f.width f.height _ _ false
    (fun _ => ⟨⟨rfl, hf.height, fun _ _ _ => rfl, fun _ _ => rfl⟩, rfl⟩) rfl rfl hf.width hf.height (fits_wide T f hf)
    (frameLines_row T f.rendered f.height)

theorem renders_drawn (t : Term Cell) (s : RenderState) (f : Frame) (h : Renders T o (MarkerInWindow T o) t s f) :
    t.height = f.height ∧ Drawn T t s (frameLines T f.rendered f.height).2 := by
  induction h with
  | first f ops s' hf hp hok => exact ⟨Term.run_height .., first_drawn T o f ops s' hf hok⟩
  | next t t' s s' g f ops h hf hresized hp hok ih =>
    exact ⟨(Term.run_height ..).trans hresized.height,
      doRender_drawn T o t t' s s' f ops ih.2.synced hf hresized hp hok⟩

/-! ## The marker above the window -/

theorem position_row (s : RenderState) (pos : CursorPos) (total : ℕ) (h : pos.row < total) :
    (positionHardwareCursor o s (some pos) total).2.hardwareCursorRow = pos.row := by
  unfold positionHardwareCursor
  dsimp only
  rw [if_neg (by omega)]
  exact min_eq_left (by omega)

/-- Without a full redraw the tracked row is the marker's, and the window does not go up. -/
theorem tracked_row (s s' : RenderState) (f : Frame) (ops : List (Op JsString)) (pos : CursorPos)
    (hcursor : (frameLines T f.rendered f.height).1 = some pos)
    (hno : ∀ clear, route o s f.width f.height (frameLines T f.rendered f.height).2 ≠ .full clear)
    (hok : doRender T o s f = .ok (ops, s')) :
    s'.hardwareCursorRow = pos.row ∧ s.previousViewportTop ≤ s'.previousViewportTop := by
  have hrow := (frameLines_row T f.rendered f.height pos hcursor).1
  unfold doRender at hok
  dsimp only at hok
  rw [hcursor] at hok
  have hpositioned : ∀ drawn : RenderState, s.previousViewportTop ≤ drawn.previousViewportTop →
      (positionHardwareCursor o drawn (some pos) (frameLines T f.rendered f.height).2.length).2.hardwareCursorRow =
        pos.row ∧ s.previousViewportTop ≤ (positionHardwareCursor o drawn (some pos)
          (frameLines T f.rendered f.height).2.length).2.previousViewportTop := by
    intro drawn hle
    refine ⟨position_row o drawn pos _ hrow, ?_⟩
    obtain ⟨row, hstate⟩ := positionHardwareCursor_top o drawn (some pos) (frameLines T f.rendered f.height).2.length
    rw [hstate]
    exact hle
  split at hok
  · rename_i clear hfull
    exact absurd hfull (hno clear)
  · cases hok
    exact hpositioned s (le_refl _)
  · cases hok
    split
    · exact hpositioned _ (le_refl _)
    · exact hpositioned _ (le_refl _)
  · split at hok
    · cases hok
    · cases hok
      refine hpositioned _ (le_trans ?_ (le_max_left _ _))
      split <;> split <;> omega

theorem marker_of_shows (t t' : Term Cell) (s s' : RenderState) (f : Frame) (ops : List (Op JsString))
    (hs : Synced T t s) (hok : doRender T o s f = .ok (ops, s')) (h : Shows T (t'.run T.cells ops) s' f) :
    MarkerInWindow T o s f := by
  by_contra hno
  unfold MarkerInWindow at hno
  push Not at hno
  obtain ⟨hfull, pos, hcursor, habove⟩ := hno
  have hroute := route_of o s f.width f.height (frameLines T f.rendered f.height).2
  have hdrawn : ∀ clear, route o s f.width f.height (frameLines T f.rendered f.height).2 ≠ .full clear := by
    intro clear heq
    cases clear with
    | true => exact hfull heq
    | false =>
      rw [heq] at hroute
      have hreach := hs.reach
      rw [hroute.2.2, List.length_nil] at hreach
      omega
  obtain ⟨hrow, htop⟩ := tracked_row T o s s' f ops pos hcursor hdrawn hok
  have htracked := h.cursor
  omega

/-- Every frame of a run whose markers are in the window is shown; the next one is when its marker is, too. -/
theorem mainScreen_exact (t : Term Cell) (s : RenderState) (g : Frame)
    (h : Renders T o (MarkerInWindow T o) t s g) :
    Shows T t s g ∧ ∀ (t' : Term Cell) (s' : RenderState) (f : Frame) (ops : List (Op JsString)), Fits T f →
      Resized t f t' → doRender T o s f = .ok (ops, s') → (Shows T (t'.run T.cells ops) s' f ↔ MarkerInWindow T o s f) := by
  obtain ⟨hheight, hdrawn⟩ := renders_drawn T o t s g h
  refine ⟨shows_of_drawn T t s g hheight hdrawn, fun t' s' f ops hf hresized hok => ⟨fun hshows => ?_, fun hmarker => ?_⟩⟩
  · exact marker_of_shows T o t t' s s' f ops hdrawn.synced hok hshows
  · exact shows_of_drawn T _ s' f ((Term.run_height ..).trans hresized.height)
      (doRender_drawn T o t t' s s' f ops hdrawn.synced hf hresized hmarker hok)

end Routes

/-! ## A marker above the window -/

def plain : Text UInt16 where
  visibleWidth := fun line => (line.takeWhile (fun unit => decide (unit ≠ 0x1b))).length
  normalizeTerminalOutput := id
  cells := fun line => line.takeWhile (fun unit => decide (unit ≠ 0x1b))
  visibleWidth_nil := rfl
  cells_width := fun _ => le_refl _

def shown : Options := ⟨false, true⟩

def longFrame : Frame := ⟨5, 3, [[0x61], [0x62], [0x63], [0x64], [0x65]]⟩

def markedFrame : Frame := ⟨5, 3, [[0x61], CURSOR_MARKER ++ [0x62], [0x63], [0x64]]⟩

def drawnBy (s : RenderState) (f : Frame) : List (Op JsString) × RenderState :=
  match doRender plain shown s f with
  | .ok drawn => drawn
  | .error _ => ([], s)

theorem longFrame_fits : Fits plain longFrame := ⟨by decide, by decide, by decide⟩

theorem markedFrame_fits : Fits plain markedFrame := ⟨by decide, by decide, by decide⟩

def longScreen : Term UInt16 := (Term.blank UInt16 5 3).run plain.cells (drawnBy .initial longFrame).1

theorem longFrame_renders (P : RenderState → Frame → Prop) (h : P .initial longFrame) :
    Renders plain shown P longScreen (drawnBy .initial longFrame).2 longFrame :=
  .first longFrame _ _ longFrame_fits h rfl

def changedFrame : Frame := ⟨5, 3, [[0x61], [0x62], [0x63], CURSOR_MARKER ++ [0x78], [0x65]]⟩

theorem changedFrame_fits : Fits plain changedFrame := ⟨by decide, by decide, by decide⟩

def changedScreen : Term UInt16 := longScreen.run plain.cells (drawnBy (drawnBy .initial longFrame).2 changedFrame).1

theorem mainScreen_exact_long :
    Shows plain longScreen (drawnBy .initial longFrame).2 longFrame ∧
      Shows plain changedScreen (drawnBy (drawnBy .initial longFrame).2 changedFrame).2 changedFrame ∧
      ¬ Shows plain (longScreen.run plain.cells (drawnBy (drawnBy .initial longFrame).2 markedFrame).1)
        (drawnBy (drawnBy .initial longFrame).2 markedFrame).2 markedFrame := by
  obtain ⟨hfirst, hnext⟩ := mainScreen_exact plain shown _ _ _
    (longFrame_renders _ (.inr (fun _ _ => Nat.zero_le _)))
  refine ⟨hfirst, (hnext longScreen _ _ _ changedFrame_fits ⟨rfl, rfl, fun _ _ => rfl⟩ rfl).mpr ?_, fun hshows => ?_⟩
  · exact .inr (fun pos hpos => by cases hpos; decide)
  · rcases (hnext longScreen _ _ _ markedFrame_fits ⟨rfl, rfl, fun _ _ => rfl⟩ rfl).mp hshows with hfull | hmarker
    · exact absurd hfull (by decide)
    · exact absurd (hmarker _ rfl) (by decide)

theorem marker_above_window : ¬ ∀ t s f, Renders plain shown (fun _ _ => True) t s f → Shows plain t s f := by
  intro h
  have hshows := h _ _ _ (.next longScreen longScreen (drawnBy .initial longFrame).2
    (drawnBy (drawnBy .initial longFrame).2 markedFrame).2 longFrame markedFrame
    (drawnBy (drawnBy .initial longFrame).2 markedFrame).1 (longFrame_renders _ trivial) markedFrame_fits
    ⟨rfl, rfl, fun _ _ => rfl⟩ trivial rfl)
  exact absurd hshows.cursor (by decide)

end PiAgent.Tui
