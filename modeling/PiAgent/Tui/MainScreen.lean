import PiAgent.Chord.Json
import PiAgent.Lib.Terminal

/-!
# The main screen

`TuiMainScreen.doRender`: how a frame of text lines is drawn over the frame before it. Frames
have no images and no overlays, and the session is not one of Termux.
-/

namespace PiAgent.Tui

open Terminal

/-- The widths of texts, and the cells a terminal draws of a text. -/
structure Text (Cell : Type) where
  visibleWidth : JsString → ℕ
  normalizeTerminalOutput : JsString → JsString
  cells : JsString → List Cell
  visibleWidth_nil : visibleWidth [] = 0
  /-- A terminal draws a text no wider than `visibleWidth` says. -/
  cells_width : ∀ line, (cells line).length ≤ visibleWidth line

/-- `"\x1b_pi:c\x07"` -/
def CURSOR_MARKER : JsString := [0x1b, 0x5f, 0x70, 0x69, 0x3a, 0x63, 0x07]

/-- `"\x1b[0m\x1b]8;;\x07"` -/
def SEGMENT_RESET : JsString := [0x1b, 0x5b, 0x30, 0x6d, 0x1b, 0x5d, 0x38, 0x3b, 0x3b, 0x07]

/-- `line.indexOf(part)` -/
def indexOf (line part : JsString) : Option ℕ :=
  (List.range (line.length + 1)).find? (fun i => part.isPrefixOf (line.drop i))

/-! ## The lines of a frame -/

structure CursorPos where
  row : ℕ
  col : ℕ
deriving DecidableEq

section Lines

variable {Cell : Type} (T : Text Cell)

def extractCursorPosition (lines : List JsString) (height : ℕ) : Option CursorPos × List JsString :=
  let viewportTop := lines.length - height
  match (List.range lines.length).reverse.find?
      (fun row => decide (viewportTop ≤ row) && (indexOf (lines.getD row []) CURSOR_MARKER).isSome) with
  | none => (none, lines)
  | some row =>
    let line := lines.getD row []
    let markerIndex := (indexOf line CURSOR_MARKER).getD 0
    (some ⟨row, T.visibleWidth (line.take markerIndex)⟩,
      lines.set row (line.take markerIndex ++ line.drop (markerIndex + CURSOR_MARKER.length)))

def applyLineResets (lines : List JsString) : List JsString :=
  lines.map (fun line => T.normalizeTerminalOutput line ++ SEGMENT_RESET)

/-- What `doRender` makes of the rendered lines before it compares them. -/
def frameLines (rendered : List JsString) (height : ℕ) : Option CursorPos × List JsString :=
  let extracted := extractCursorPosition T rendered height
  (extracted.1, applyLineResets T extracted.2)

end Lines

/-! ## State -/

/-- `TuiMainScreenRenderState` -/
structure RenderState where
  previousLines : List JsString
  previousWidth : ℕ
  previousHeight : ℕ
  cursorRow : ℕ
  hardwareCursorRow : ℕ
  maxLinesRendered : ℕ
  previousViewportTop : ℕ

def RenderState.initial : RenderState := ⟨[], 0, 0, 0, 0, 0, 0⟩

structure Options where
  clearOnShrink : Bool
  showHardwareCursor : Bool

/-- A frame: the size of the terminal, and the lines of `resolveFakeCursors(this.render(width))`. -/
structure Frame where
  width : ℕ
  height : ℕ
  rendered : List JsString

/-! ## Drawing -/

def moveRows (lineDiff : ℤ) : List (Op JsString) :=
  if 0 < lineDiff then [.down lineDiff.toNat]
  else if lineDiff < 0 then [.up (-lineDiff).toNat]
  else []

def positionHardwareCursor (o : Options) (s : RenderState) (cursorPos : Option CursorPos) (totalLines : ℕ) :
    List (Op JsString) × RenderState :=
  match cursorPos with
  | none => ([.mode "?25l"], s)
  | some pos =>
    if totalLines = 0 then ([.mode "?25l"], s)
    else
      let targetRow := min pos.row (totalLines - 1)
      (moveRows ((targetRow : ℤ) - s.hardwareCursorRow) ++
          [.column (pos.col + 1), .mode (if o.showHardwareCursor then "?25h" else "?25l")],
        { s with hardwareCursorRow := targetRow })

/-- What every route stores of the frame in the end. -/
def RenderState.stored (s : RenderState) (lines : List JsString) (width height : ℕ) : RenderState :=
  { s with previousLines := lines, previousWidth := width, previousHeight := height }

/-- Lines from one index on, below each other; each after some sequences of its row. -/
def drawRows (before : List (Op JsString)) (lines : List JsString) (first n : ℕ) : List (Op JsString) :=
  (List.range' first n).flatMap
    (fun i => (if first < i then [.crlf] else []) ++ (before ++ [.print (lines.getD i [])]))

def fullRender (o : Options) (s : RenderState) (width height : ℕ) (cursorPos : Option CursorPos)
    (newLines : List JsString) (clear : Bool) : List (Op JsString) × RenderState :=
  let drawn : RenderState :=
    { s with
      cursorRow := newLines.length - 1
      hardwareCursorRow := newLines.length - 1
      maxLinesRendered := if clear then newLines.length else max s.maxLinesRendered newLines.length
      previousViewportTop := max height newLines.length - height }
  let positioned := positionHardwareCursor o drawn cursorPos newLines.length
  ([.mode "?2026h"] ++ (if clear then [.clearAndHome] else []) ++ drawRows [] newLines 0 newLines.length ++
      [.mode "?2026l"] ++ positioned.1,
    positioned.2.stored newLines width height)

/-- A line that is missing counts as an empty one. -/
def lineChanged (previousLines newLines : List JsString) (i : ℕ) : Bool :=
  decide (previousLines.getD i [] ≠ newLines.getD i [])

/-- `firstChanged` and `lastChanged` -/
def changedRange (previousLines newLines : List JsString) : Option (ℕ × ℕ) :=
  let indices := List.range (max newLines.length previousLines.length)
  let firstChanged := indices.find? (lineChanged previousLines newLines)
  let lastChanged := indices.reverse.find? (lineChanged previousLines newLines)
  if previousLines.length < newLines.length then
    some (firstChanged.getD previousLines.length, newLines.length - 1)
  else
    match firstChanged, lastChanged with
    | some first, some last => some (first, last)
    | _, _ => none

inductive Route where
  | full (clear : Bool)
  | unchanged
  | deleted
  | changed (first last : ℕ)
deriving DecidableEq

/-- The way `doRender` takes, by its checks in their order. -/
def route (o : Options) (s : RenderState) (width height : ℕ) (newLines : List JsString) : Route :=
  let widthChanged := s.previousWidth ≠ 0 ∧ s.previousWidth ≠ width
  let heightChanged := s.previousHeight ≠ 0 ∧ s.previousHeight ≠ height
  if s.previousLines = [] ∧ ¬ widthChanged ∧ ¬ heightChanged then .full false
  else if widthChanged then .full true
  else if heightChanged then .full true
  else if o.clearOnShrink = true ∧ newLines.length < s.maxLinesRendered then .full true
  else
    match changedRange s.previousLines newLines with
    | none => .unchanged
    | some (first, last) =>
      if newLines.length ≤ first then
        if newLines.length < s.previousLines.length ∧ (newLines.length - 1 < s.previousViewportTop ∨
            height < s.previousLines.length - newLines.length) then .full true
        else .deleted
      else if first < s.previousViewportTop then .full true
      else .changed first last

/-- `\r`, clear, and down to the next one. -/
def clearRows : ℕ → List (Op JsString)
  | 0 => []
  | 1 => [.cr, .clearLine]
  | n + 2 => [.cr, .clearLine, .down 1] ++ clearRows (n + 1)

def drawDeleted (o : Options) (s : RenderState) (width height : ℕ) (cursorPos : Option CursorPos)
    (newLines : List JsString) : List (Op JsString) × RenderState :=
  let targetRow := newLines.length - 1
  let extraLines := s.previousLines.length - newLines.length
  let clearStartOffset := if newLines.length = 0 then 0 else 1
  let moveBack := extraLines - 1 + clearStartOffset
  let drawn : List (Op JsString) × RenderState :=
    if newLines.length < s.previousLines.length then
      ([.mode "?2026h"] ++ moveRows ((targetRow : ℤ) - s.hardwareCursorRow) ++ [.cr] ++
          (if 0 < clearStartOffset then [.down clearStartOffset] else []) ++ clearRows extraLines ++
          (if 0 < moveBack then [.up moveBack] else []) ++ [.mode "?2026l"],
        { s with cursorRow := targetRow, hardwareCursorRow := targetRow })
    else ([], s)
  let positioned := positionHardwareCursor o drawn.2 cursorPos newLines.length
  (drawn.1 ++ positioned.1, positioned.2.stored newLines width height)

/-- The lines of a range are drawn anew. -/
def drawChanged (o : Options) (s : RenderState) (width height : ℕ) (cursorPos : Option CursorPos)
    (newLines : List JsString) (first last : ℕ) : List (Op JsString) × RenderState :=
  let appendStart := decide (s.previousLines.length < newLines.length ∧ first = s.previousLines.length ∧ 0 < first)
  let prevViewportBottom := s.previousViewportTop + height - 1
  let moveTargetRow := if appendStart then first - 1 else first
  let scroll := moveTargetRow - prevViewportBottom
  let currentScreenRow := min (height - 1) (s.hardwareCursorRow - s.previousViewportTop)
  let moveToBottom := height - 1 - currentScreenRow
  let scrolled := decide (prevViewportBottom < moveTargetRow)
  let scrollOps : List (Op JsString) :=
    if scrolled then (if 0 < moveToBottom then [.down moveToBottom] else []) ++ List.replicate scroll .crlf else []
  let viewportTop := if scrolled then s.previousViewportTop + scroll else s.previousViewportTop
  let hardwareCursorRow := if scrolled then moveTargetRow else s.hardwareCursorRow
  let renderEnd := min last (newLines.length - 1)
  let shrinks := decide (newLines.length < s.previousLines.length)
  let moveDown := newLines.length - 1 - renderEnd
  let extraLines := s.previousLines.length - newLines.length
  let shrinkOps : List (Op JsString) :=
    if shrinks then
      (if 0 < moveDown then [.down moveDown] else []) ++
        (List.range' newLines.length extraLines).flatMap (fun _ => [.crlf, .clearLine]) ++ [.up extraLines]
    else []
  let finalCursorRow := if shrinks then newLines.length - 1 else renderEnd
  let drawn : RenderState :=
    { s with
      cursorRow := newLines.length - 1
      hardwareCursorRow := finalCursorRow
      maxLinesRendered := max s.maxLinesRendered newLines.length
      previousViewportTop := max viewportTop (finalCursorRow + 1 - height) }
  let positioned := positionHardwareCursor o drawn cursorPos newLines.length
  ([.mode "?2026h"] ++ scrollOps ++ moveRows ((moveTargetRow : ℤ) - hardwareCursorRow) ++
      [if appendStart then .crlf else .cr] ++ drawRows [.clearLine] newLines first (renderEnd + 1 - first) ++
      shrinkOps ++ [.mode "?2026l"] ++ positioned.1,
    positioned.2.stored newLines width height)

/-- `Rendered line … exceeds terminal width …` -/
inductive RenderError where
  | tooWide (line : ℕ)
deriving DecidableEq

/-- `doRender`: what is written, and the state afterwards. -/
def doRender {Cell : Type} (T : Text Cell) (o : Options) (s : RenderState) (f : Frame) :
    Except RenderError (List (Op JsString) × RenderState) :=
  let frame := frameLines T f.rendered f.height
  match route o s f.width f.height frame.2 with
  | .full clear => .ok (fullRender o s f.width f.height frame.1 frame.2 clear)
  | .unchanged =>
    let positioned := positionHardwareCursor o s frame.1 frame.2.length
    .ok (positioned.1, { positioned.2 with previousHeight := f.height })
  | .deleted => .ok (drawDeleted o s f.width f.height frame.1 frame.2)
  | .changed first last =>
    match (List.range' first (min last (frame.2.length - 1) + 1 - first)).find?
        (fun i => decide (f.width < T.visibleWidth (frame.2.getD i []))) with
    | some i => .error (.tooWide i)
    | none => .ok (drawChanged o s f.width f.height frame.1 frame.2 first last)

end PiAgent.Tui
