import Mathlib.Data.List.Basic
import Mathlib.Logic.Function.Basic
import Mathlib.Order.Lattice

/-!
# Terminals

A grid of cells with a cursor, what the control sequences do to it, and the grid as a window
on an endless sheet of rows that is blank below the window.
-/

namespace PiAgent.Terminal

open Function List

/-! ## The grid -/

structure Term (Cell : Type) where
  width : ℕ
  height : ℕ
  grid : ℕ → ℕ → Option Cell
  row : ℕ
  col : ℕ

/-- What a program writes: texts and control sequences. -/
inductive Op (Text : Type) where
  | print (text : Text)
  | cr
  | crlf
  | up (n : ℕ)
  | down (n : ℕ)
  | column (n : ℕ)
  | clearLine
  | clearAndHome
  /-- A sequence without effect on rows and cursor. -/
  | mode (name : String)

namespace Term

variable {Cell Text : Type}

def blank (Cell : Type) (width height : ℕ) : Term Cell := ⟨width, height, fun _ _ => none, 0, 0⟩

/-- One row down; at the bottom the rows scroll. -/
def lineFeed (t : Term Cell) : Term Cell :=
  if t.row + 1 < t.height then { t with row := t.row + 1 }
  else { t with grid := fun r => if r + 1 < t.height then t.grid (r + 1) else fun _ => none }

/-- One cell at the cursor; past the last column it is the first one of the next row. -/
def put (t : Term Cell) (cell : Cell) : Term Cell :=
  let t := if t.col < t.width then t else { t.lineFeed with col := 0 }
  { t with grid := update t.grid t.row (update (t.grid t.row) t.col (some cell)), col := t.col + 1 }

def apply (cells : Text → List Cell) (t : Term Cell) : Op Text → Term Cell
  | .print text => (cells text).foldl put t
  | .cr => { t with col := 0 }
  | .crlf => { t with col := 0 }.lineFeed
  | .up n => { t with row := t.row - max 1 n }
  | .down n => { t with row := min (t.row + max 1 n) (t.height - 1) }
  | .column n => { t with col := min (n - 1) (t.width - 1) }
  | .clearLine => { t with grid := update t.grid t.row (fun _ => none) }
  | .clearAndHome => { t with grid := fun _ _ => none, row := 0, col := 0 }
  | .mode _ => t

def run (cells : Text → List Cell) (t : Term Cell) (ops : List (Op Text)) : Term Cell := ops.foldl (apply cells) t

variable (cells : Text → List Cell) (t : Term Cell)

@[simp] theorem run_nil : t.run cells [] = t := rfl

@[simp] theorem run_cons (op : Op Text) (ops : List (Op Text)) :
    t.run cells (op :: ops) = (t.apply cells op).run cells ops := rfl

@[simp] theorem run_append (a b : List (Op Text)) :
    t.run cells (a ++ b) = (t.run cells a).run cells b := foldl_append

@[simp] theorem apply_mode (name : String) : t.apply cells (.mode name) = t := rfl

/-! ## Sizes -/

@[simp] theorem lineFeed_width : t.lineFeed.width = t.width := by
  unfold lineFeed
  split <;> rfl

@[simp] theorem lineFeed_height : t.lineFeed.height = t.height := by
  unfold lineFeed
  split <;> rfl

@[simp] theorem lineFeed_col : t.lineFeed.col = t.col := by
  unfold lineFeed
  split <;> rfl

@[simp] theorem put_width (cell : Cell) : (t.put cell).width = t.width := by
  unfold put
  split <;> simp

@[simp] theorem put_height (cell : Cell) : (t.put cell).height = t.height := by
  unfold put
  split <;> simp

theorem puts_size (text : List Cell) (t : Term Cell) :
    (text.foldl put t).width = t.width ∧ (text.foldl put t).height = t.height := by
  induction text generalizing t with
  | nil => exact ⟨rfl, rfl⟩
  | cons cell text ih =>
    obtain ⟨hwidth, hheight⟩ := ih (t.put cell)
    exact ⟨hwidth.trans (put_width t cell), hheight.trans (put_height t cell)⟩

theorem apply_size (op : Op Text) : (t.apply cells op).width = t.width ∧ (t.apply cells op).height = t.height := by
  cases op with
  | print text => exact puts_size (cells text) t
  | crlf => exact ⟨lineFeed_width _, lineFeed_height _⟩
  | _ => exact ⟨rfl, rfl⟩

variable (ops : List (Op Text))

theorem run_size (t : Term Cell) : (t.run cells ops).width = t.width ∧ (t.run cells ops).height = t.height := by
  induction ops generalizing t with
  | nil => exact ⟨rfl, rfl⟩
  | cons op ops ih =>
    obtain ⟨hwidth, hheight⟩ := ih (t.apply cells op)
    obtain ⟨hw, hh⟩ := apply_size cells t op
    exact ⟨hwidth.trans hw, hheight.trans hh⟩

@[simp] theorem run_width : (t.run cells ops).width = t.width := (run_size cells ops t).1

@[simp] theorem run_height : (t.run cells ops).height = t.height := (run_size cells ops t).2

theorem puts_row (text : List Cell) (t : Term Cell) (h : t.col + text.length ≤ t.width) :
    (text.foldl put t).row = t.row ∧ ∀ r c, (text.foldl put t).grid r c =
      if r = t.row ∧ t.col ≤ c ∧ c < t.col + text.length then text[c - t.col]? else t.grid r c := by
  induction text generalizing t with
  | nil =>
    refine ⟨rfl, fun r c => ?_⟩
    rw [if_neg (by rw [length_nil]; omega)]
    rfl
  | cons cell text ih =>
    have hlength : (cell :: text).length = text.length + 1 := rfl
    have hput : t.put cell =
        { t with grid := update t.grid t.row (update (t.grid t.row) t.col (some cell)), col := t.col + 1 } := by
      unfold put
      rw [if_pos (by omega)]
    obtain ⟨hrow, hgrid⟩ := ih (t.put cell) (by rw [hput]; dsimp only; omega)
    rw [foldl_cons]
    refine ⟨by rw [hrow, hput], fun r c => ?_⟩
    rw [hgrid r c, hput]
    dsimp only
    by_cases hr : r = t.row
    · subst hr
      rw [update_self]
      by_cases hc : c = t.col
      · subst hc
        rw [if_neg (by omega), if_pos (by omega), update_self, Nat.sub_self]
        rfl
      · rw [update_of_ne hc]
        by_cases hin : t.col + 1 ≤ c ∧ c < t.col + 1 + text.length
        · rw [if_pos ⟨rfl, hin⟩, if_pos (by omega), show c - t.col = c - (t.col + 1) + 1 by omega]
          rfl
        · rw [if_neg (by omega), if_neg (by omega)]
    · rw [if_neg (fun h => hr h.1), if_neg (fun h => hr h.1), update_of_ne hr]

end Term

/-! ## A window on a sheet -/

variable {Cell Text : Type}

/-- The rows from `top` on are shown, the cursor is in row `at'` of the sheet, and nothing is below the window. -/
structure View (t : Term Cell) (sheet : ℕ → ℕ → Option Cell) (top at' : ℕ) : Prop where
  row : top + t.row = at'
  inside : t.row < t.height
  shown : ∀ r < t.height, ∀ c, t.grid r c = sheet (top + r) c
  below : ∀ i, top + t.height ≤ i → sheet i = fun _ => none

namespace View

variable (cells : Text → List Cell) (t : Term Cell) (sheet : ℕ → ℕ → Option Cell) (top at' : ℕ)

theorem bottom (h : View t sheet top at') : at' < top + t.height := by
  have hrow := h.row
  have hinside := h.inside
  omega

theorem at_row (row : ℕ) (h : View t sheet top at') (heq : at' = row) : View t sheet top row := heq ▸ h

section

variable (h : View t sheet top at')
include h

theorem cr : View (t.apply cells .cr) sheet top at' :=
  ⟨h.row, h.inside, h.shown, h.below⟩

theorem column (n : ℕ) : View (t.apply cells (.column n)) sheet top at' :=
  ⟨h.row, h.inside, h.shown, h.below⟩

theorem crlf : View (t.apply cells .crlf) sheet (max top (at' + 2 - t.height)) (at' + 1) := by
  have hrow := h.row
  have hinside := h.inside
  unfold Term.apply Term.lineFeed
  dsimp only
  by_cases hlast : t.row + 1 < t.height
  · rw [if_pos hlast, max_eq_left (by omega)]
    exact ⟨by dsimp only; omega, hlast, h.shown, h.below⟩
  · rw [if_neg hlast, max_eq_right (by omega), show at' + 2 - t.height = top + 1 by omega]
    refine ⟨by dsimp only; omega, hinside, fun r hr c => ?_, fun i hi => h.below i (by dsimp only at hi; omega)⟩
    dsimp only at hr ⊢
    split
    · rename_i hnext
      rw [h.shown (r + 1) hnext c, show top + (r + 1) = top + 1 + r by omega]
    · rw [h.below (top + 1 + r) (by omega)]

theorem down (n : ℕ) (hn : 0 < n) (hin : at' + n < top + t.height) :
    View (t.apply cells (.down n)) sheet top (at' + n) := by
  have hrow := h.row
  refine ⟨?_, ?_, h.shown, h.below⟩
  · change top + min (t.row + max 1 n) (t.height - 1) = at' + n
    omega
  · change min (t.row + max 1 n) (t.height - 1) < t.height
    omega

theorem up (n : ℕ) (hn : 0 < n) (hin : top + n ≤ at') : View (t.apply cells (.up n)) sheet top (at' - n) := by
  have hrow := h.row
  have hinside := h.inside
  refine ⟨?_, ?_, h.shown, h.below⟩
  · change top + (t.row - max 1 n) = at' - n
    omega
  · change t.row - max 1 n < t.height
    omega

theorem clearLine : View (t.apply cells .clearLine) (update sheet at' (fun _ => none)) top at' := by
  have hbottom := bottom t sheet top at' h
  refine ⟨h.row, h.inside, fun r hr c => ?_, fun i hi => ?_⟩
  · change update t.grid t.row (fun _ => none) r c = _
    by_cases heq : r = t.row
    · rw [heq, update_self, h.row, update_self]
    · rw [update_of_ne heq, update_of_ne (by have := h.row; omega), h.shown r hr c]
  · rw [update_of_ne (by have : top + t.height ≤ i := hi; omega)]
    exact h.below i hi

theorem print (text : Text) (hcol : t.col = 0) (hwidth : (cells text).length ≤ t.width)
    (hblank : sheet at' = fun _ => none) :
    View (t.apply cells (.print text)) (update sheet at' (fun c => (cells text)[c]?)) top at' := by
  have hbottom := bottom t sheet top at' h
  obtain ⟨hrow, hgrid⟩ := Term.puts_row (cells text) t (by omega)
  obtain ⟨-, hheight⟩ := Term.puts_size (cells text) t
  refine ⟨by rw [← h.row]; exact congrArg _ hrow, ?_, fun r hr c => ?_, fun i hi => ?_⟩
  · change ((cells text).foldl Term.put t).row < ((cells text).foldl Term.put t).height
    rw [hrow, hheight]
    exact h.inside
  · have hr' : r < t.height := hheight ▸ hr
    refine (hgrid r c).trans ?_
    rw [hcol, Nat.zero_add, Nat.sub_zero]
    by_cases heq : r = t.row
    · rw [heq, h.row, update_self]
      split
      · rfl
      · rename_i hout
        rw [getElem?_eq_none (by omega), h.shown t.row h.inside c, h.row, hblank]
    · rw [if_neg (fun hin => heq hin.1), update_of_ne (by have := h.row; omega), h.shown r hr' c]
  · have hi' : top + t.height ≤ i := hheight ▸ hi
    rw [update_of_ne (by omega)]
    exact h.below i hi'

end

theorem clearAndHome (hheight : 0 < t.height) : View (t.apply cells .clearAndHome) (fun _ _ => none) 0 0 :=
  ⟨rfl, hheight, fun _ _ _ => rfl, fun _ _ => rfl⟩

end View

/-! ## Filling rows -/

/-- Some rows of a sheet in place of those of another. -/
def patch (sheet page : ℕ → ℕ → Option Cell) (first n : ℕ) : ℕ → ℕ → Option Cell :=
  fun i => if first ≤ i ∧ i < first + n then page i else sheet i

theorem patch_zero (sheet page : ℕ → ℕ → Option Cell) (first : ℕ) : patch sheet page first 0 = sheet := by
  funext i
  unfold patch
  rw [if_neg (by omega)]

theorem patch_succ (sheet page : ℕ → ℕ → Option Cell) (first n : ℕ) :
    patch (update sheet first (page first)) page (first + 1) n = patch sheet page first (n + 1) := by
  funext i
  unfold patch
  by_cases hin : first + 1 ≤ i ∧ i < first + 1 + n
  · rw [if_pos hin, if_pos (by omega)]
  · rw [if_neg hin]
    by_cases heq : i = first
    · rw [heq, update_self, if_pos (by omega)]
    · rw [update_of_ne heq, if_neg (by omega)]

/-- Some sequences put a row of the page where the cursor is, when the rows from there on are those of a sheet. -/
def Fills (cells : Text → List Cell) (width : ℕ) (start page : ℕ → ℕ → Option Cell) (i : ℕ) (ops : List (Op Text)) :
    Prop :=
  ∀ (t : Term Cell) (sheet : ℕ → ℕ → Option Cell) (top : ℕ), t.width = width → t.col = 0 →
    (∀ j, i ≤ j → sheet j = start j) → View t sheet top i →
      View (t.run cells ops) (update sheet i (page i)) top i

section

variable (cells : Text → List Cell) (start page : ℕ → ℕ → Option Cell) (rowOps : ℕ → List (Op Text))

theorem fill_next (n : ℕ) (t : Term Cell) (sheet : ℕ → ℕ → Option Cell) (top at' : ℕ) (h : View t sheet top at')
    (hsheet : ∀ j, at' + 1 ≤ j → sheet j = start j)
    (hfill : ∀ i, at' + 1 ≤ i → i < at' + 1 + n → Fills cells t.width start page i (rowOps i)) :
    View (t.run cells ((List.range' (at' + 1) n).flatMap (fun i => .crlf :: rowOps i)))
      (patch sheet page (at' + 1) n) (max top (at' + 1 + n - t.height)) (at' + n) := by
  induction n generalizing t sheet top at' with
  | zero =>
    rw [patch_zero, max_eq_left (by have := View.bottom t sheet top at' h; omega)]
    exact h
  | succ n ih =>
    rw [range'_succ, flatMap_cons, Term.run_append, Term.run_cons]
    have hnext := View.crlf cells t sheet top at' h
    have hcol : (t.apply cells .crlf).col = 0 := Term.lineFeed_col _
    obtain ⟨hwidth, hheight⟩ := Term.apply_size cells t .crlf
    have hrow := hfill (at' + 1) (le_refl _) (by omega) (t.apply cells .crlf) sheet _ hwidth hcol hsheet hnext
    have hrest := ih ((t.apply cells .crlf).run cells (rowOps (at' + 1))) _ _ (at' + 1) hrow (fun j hj => ?_)
      (fun i hi hlt => ?_)
    · rw [patch_succ, Term.run_height, hheight] at hrest
      rw [show max top (at' + 1 + (n + 1) - t.height) =
        max (max top (at' + 2 - t.height)) (at' + 1 + 1 + n - t.height) by omega, show at' + (n + 1) = at' + 1 + n by omega]
      exact hrest
    · rw [update_of_ne (by omega)]
      exact hsheet j (by omega)
    · rw [Term.run_width, hwidth]
      exact hfill i (by omega) (by omega)

theorem fill_rows (first n : ℕ) (hn : 0 < n) (t : Term Cell) (top : ℕ) (h : View t start top first)
    (hcol : t.col = 0) (hfill : ∀ i, first ≤ i → i < first + n → Fills cells t.width start page i (rowOps i)) :
    View (t.run cells ((List.range' first n).flatMap (fun i => (if first < i then [.crlf] else []) ++ rowOps i)))
      (patch start page first n) (max top (first + n - t.height)) (first + n - 1) := by
  obtain ⟨n, rfl⟩ : ∃ m, n = m + 1 := ⟨n - 1, by omega⟩
  rw [range'_succ, flatMap_cons, Term.run_append, if_neg (lt_irrefl _), nil_append]
  have hfirst := hfill first (le_refl _) (by omega) t start top rfl hcol (fun _ _ => rfl) h
  have hops : (List.range' (first + 1) n).flatMap (fun i => (if first < i then [.crlf] else []) ++ rowOps i) =
      (List.range' (first + 1) n).flatMap (fun i => .crlf :: rowOps i) := by
    refine flatMap_congr (fun i hi => ?_)
    obtain ⟨hle, -⟩ := mem_range'_1.mp hi
    rw [if_pos (by omega)]
    rfl
  have hrest := fill_next cells start page rowOps n (t.run cells (rowOps first)) _ top first hfirst
    (fun j hj => update_of_ne (by omega) _ _)
    (fun i hi hlt => by rw [Term.run_width]; exact hfill i (by omega) (by omega))
  rw [patch_succ, Term.run_height] at hrest
  rw [hops, show first + (n + 1) - t.height = first + 1 + n - t.height by omega, show first + (n + 1) - 1 = first + n by omega]
  exact hrest

end

end PiAgent.Terminal
