import PiAgent.Ai.StreamingJson
import PiAgent.Durable.Text

/-!
# Wrapping a line of the editor

`wordWrapLine` of `editor.ts`, with the layout of the text and the map of its visual lines. What
the host and Unicode's tables say of characters is a parameter: the segmentation into graphemes,
the width of a text in the terminal and where CJK allows a break. A call that does not return has
no value with any fuel.
-/

namespace PiAgent.Tui

open Durable
open Ai (isWhitespace)

/-- `Intl.SegmentData` -/
structure SegmentData where
  segment : JsString
  index : ℕ
  deriving DecidableEq

structure TextChunk where
  text : JsString
  startIndex : ℕ
  endIndex : ℕ
  deriving DecidableEq

structure Characters where
  visibleWidth : JsString → ℕ
  /-- `graphemeSegmenter.segment` -/
  graphemes : JsString → List SegmentData
  /-- `cjkBreakRegex.test` -/
  cjkBreak : JsString → Bool

/-- `text.slice(start, stop)` -/
def slice (text : JsString) (start stop : ℕ) : JsString := (text.take stop).drop start

/-! ## Paste markers -/

/-- What `\d+` leaves of a text. -/
def afterDigits (text : JsString) : Option JsString :=
  match text.takeWhile isDigit with
  | [] => none
  | _ => some (text.dropWhile isDigit)

/-- `[paste #` -/
def markerStart : JsString := [91, 112, 97, 115, 116, 101, 32, 35]

/-- ` +` -/
def plus : JsString := [32, 43]

/-- ` lines]` -/
def linesEnd : JsString := [32, 108, 105, 110, 101, 115, 93]

/-- ` chars]` -/
def charsEnd : JsString := [32, 99, 104, 97, 114, 115, 93]

/-- `PASTE_MARKER_SINGLE`: `^\[paste #(\d+)( (\+\d+ lines|\d+ chars))?\]$` -/
def PASTE_MARKER_SINGLE (text : JsString) : Bool :=
  if markerStart.isPrefixOf text then
    match afterDigits (text.drop markerStart.length) with
    | none => false
    | some rest =>
      rest == [93] || (plus.isPrefixOf rest && afterDigits (rest.drop 2) == some linesEnd) ||
        (rest.head? == some 32 && afterDigits rest.tail == some charsEnd)
  else false

def isPasteMarker (segment : JsString) : Bool := segment.length ≥ 10 && PASTE_MARKER_SINGLE segment

def isWhitespaceChar (char : JsString) : Bool := char.any isWhitespace

/-! ## Wrapping -/

variable (chars : Characters)

/-- The variables of the loop; no wrap opportunity is -1. -/
structure WrapState where
  currentWidth : ℕ
  chunkStart : ℕ
  wrapOppIndex : Option ℕ
  wrapOppWidth : ℕ
  deriving DecidableEq

/-- No viable wrap opportunity: a break at the current position. -/
def forceBreak (line : JsString) (st : WrapState) (charIndex : ℕ) : List TextChunk × WrapState :=
  if st.chunkStart < charIndex then
    ([⟨slice line st.chunkStart charIndex, st.chunkStart, charIndex⟩],
      { st with chunkStart := charIndex, currentWidth := 0, wrapOppIndex := none })
  else ([], { st with wrapOppIndex := none })

/-- The overflow check before advancing. -/
def overflow (line : JsString) (maxWidth : ℕ) (st : WrapState) (charIndex gWidth : ℕ) : List TextChunk × WrapState :=
  if st.currentWidth + gWidth > maxWidth then
    match st.wrapOppIndex with
    | some wrapOppIndex =>
      if st.currentWidth - st.wrapOppWidth + gWidth ≤ maxWidth then
        ([⟨slice line st.chunkStart wrapOppIndex, st.chunkStart, wrapOppIndex⟩],
          { st with chunkStart := wrapOppIndex, currentWidth := st.currentWidth - st.wrapOppWidth, wrapOppIndex := none })
      else forceBreak line st charIndex
    | none => forceBreak line st charIndex
  else ([], st)

/-- A line break is allowed between two graphemes. -/
def isWrapOpportunity (grapheme next : JsString) : Bool :=
  if !isPasteMarker grapheme && isWhitespaceChar grapheme then isPasteMarker next || !isWhitespaceChar next
  else !isWhitespaceChar next &&
    ((!isPasteMarker grapheme && chars.cjkBreak grapheme) || (!isPasteMarker next && chars.cjkBreak next))

def advance (st : WrapState) (seg : SegmentData) (next : Option SegmentData) : WrapState :=
  let currentWidth := st.currentWidth + chars.visibleWidth seg.segment
  match next with
  | some next =>
    if isWrapOpportunity chars seg.segment next.segment then
      { st with currentWidth := currentWidth, wrapOppIndex := some next.index, wrapOppWidth := currentWidth }
    else { st with currentWidth := currentWidth }
  | none => { st with currentWidth := currentWidth }

def TextChunk.shift (offset : ℕ) (chunk : TextChunk) : TextChunk :=
  ⟨chunk.text, offset + chunk.startIndex, offset + chunk.endIndex⟩

/-- The body of the loop; `rewrap` is the call for a segment that is wider than a line. -/
def wrapStep (rewrap : JsString → Option (List TextChunk)) (line : JsString) (maxWidth : ℕ) (st : WrapState)
    (seg : SegmentData) (next : Option SegmentData) : Option (List TextChunk × WrapState) :=
  let gWidth := chars.visibleWidth seg.segment
  let after := overflow line maxWidth st seg.index gWidth
  if gWidth > maxWidth then
    match rewrap seg.segment with
    | none => none
    | some subChunks =>
      match subChunks.getLast? with
      | none => none
      | some last =>
        some (after.1 ++ subChunks.dropLast.map (TextChunk.shift seg.index),
          { after.2 with
            chunkStart := seg.index + last.startIndex, currentWidth := chars.visibleWidth last.text, wrapOppIndex := none })
  else some (after.1, advance chars after.2 seg next)

def wrapSegments (rewrap : JsString → Option (List TextChunk)) (line : JsString) (maxWidth : ℕ) :
    WrapState → List SegmentData → Option (List TextChunk)
  | st, [] => some [⟨line.drop st.chunkStart, st.chunkStart, line.length⟩]
  | st, seg :: rest =>
    match wrapStep chars rewrap line maxWidth st seg rest.head? with
    | none => none
    | some (pushed, st) => (wrapSegments rewrap line maxWidth st rest).map (pushed ++ ·)

def wordWrapLine : ℕ → JsString → ℕ → Option (List SegmentData) → Option (List TextChunk)
  | 0, _, _, _ => none
  | fuel + 1, line, maxWidth, preSegmented =>
    if line.isEmpty || maxWidth = 0 then some [⟨[], 0, 0⟩]
    else if chars.visibleWidth line ≤ maxWidth then some [⟨line, 0, line.length⟩]
    else
      wrapSegments chars (fun grapheme => wordWrapLine fuel grapheme maxWidth none) line maxWidth ⟨0, 0, none, 0⟩
        (preSegmented.getD (chars.graphemes line))

/-! ## The lines of the editor -/

structure EditorState where
  lines : List JsString
  cursorLine : ℕ
  cursorCol : ℕ
  deriving DecidableEq

structure LayoutLine where
  text : JsString
  hasCursor : Bool
  cursorPos : Option ℕ
  deriving DecidableEq

def layoutChunk (state : EditorState) (isCurrentLine isLastChunk : Bool) (chunk : TextChunk) : LayoutLine :=
  if isCurrentLine then
    if isLastChunk then
      if state.cursorCol ≥ chunk.startIndex then ⟨chunk.text, true, some (state.cursorCol - chunk.startIndex)⟩
      else ⟨chunk.text, false, none⟩
    else if state.cursorCol ≥ chunk.startIndex && state.cursorCol < chunk.endIndex then
      ⟨chunk.text, true, some (min (state.cursorCol - chunk.startIndex) chunk.text.length)⟩
    else ⟨chunk.text, false, none⟩
  else ⟨chunk.text, false, none⟩

def layoutChunks (state : EditorState) (isCurrentLine : Bool) : List TextChunk → List LayoutLine
  | [] => []
  | chunk :: rest => layoutChunk state isCurrentLine rest.isEmpty chunk :: layoutChunks state isCurrentLine rest

def layoutLine (segment : JsString → List SegmentData) (fuel : ℕ) (state : EditorState) (contentWidth : ℕ) (i : ℕ)
    (line : JsString) : Option (List LayoutLine) :=
  if chars.visibleWidth line ≤ contentWidth then
    if i = state.cursorLine then some [⟨line, true, some state.cursorCol⟩] else some [⟨line, false, none⟩]
  else
    (wordWrapLine chars fuel line contentWidth (some (segment line))).map (layoutChunks state (i = state.cursorLine))

def layoutFrom (segment : JsString → List SegmentData) (fuel : ℕ) (state : EditorState) (contentWidth : ℕ) :
    ℕ → List JsString → Option (List LayoutLine)
  | _, [] => some []
  | i, line :: lines =>
    match layoutLine chars segment fuel state contentWidth i line with
    | none => none
    | some here => (layoutFrom segment fuel state contentWidth (i + 1) lines).map (here ++ ·)

def layoutText (segment : JsString → List SegmentData) (fuel : ℕ) (state : EditorState) (contentWidth : ℕ) :
    Option (List LayoutLine) :=
  if state.lines = [] ∨ state.lines = [[]] then some [⟨[], true, some 0⟩]
  else layoutFrom chars segment fuel state contentWidth 0 state.lines

structure VisualLine where
  logicalLine : ℕ
  startCol : ℕ
  length : ℕ
  deriving DecidableEq

def visualLinesOf (segment : JsString → List SegmentData) (fuel : ℕ) (width : ℕ) (i : ℕ) (line : JsString) :
    Option (List VisualLine) :=
  if line.length = 0 then some [⟨i, 0, 0⟩]
  else if chars.visibleWidth line ≤ width then some [⟨i, 0, line.length⟩]
  else
    (wordWrapLine chars fuel line width (some (segment line))).map
      (List.map (fun chunk => ⟨i, chunk.startIndex, chunk.endIndex - chunk.startIndex⟩))

def buildFrom (segment : JsString → List SegmentData) (fuel : ℕ) (width : ℕ) : ℕ → List JsString → Option (List VisualLine)
  | _, [] => some []
  | i, line :: lines =>
    match visualLinesOf chars segment fuel width i line with
    | none => none
    | some here => (buildFrom segment fuel width (i + 1) lines).map (here ++ ·)

def buildVisualLineMap (segment : JsString → List SegmentData) (fuel : ℕ) (state : EditorState) (width : ℕ) :
    Option (List VisualLine) :=
  buildFrom chars segment fuel width 0 state.lines

/-- The place lies in a visual line; after its end only in the last one of the logical line. -/
def VisualLine.contains (vl : VisualLine) (next : Option VisualLine) (line col : ℕ) : Bool :=
  vl.logicalLine = line && col ≥ vl.startCol &&
    (col - vl.startCol < vl.length ||
      ((next.map VisualLine.logicalLine ≠ some vl.logicalLine) && col - vl.startCol = vl.length))

def findFrom (line col : ℕ) : ℕ → List VisualLine → Option ℕ
  | _, [] => none
  | i, vl :: rest => if vl.contains rest.head? line col then some i else findFrom line col (i + 1) rest

def findVisualLineAt (visualLines : List VisualLine) (line col : ℕ) : ℕ :=
  (findFrom line col 0 visualLines).getD (visualLines.length - 1)

def findCurrentVisualLine (state : EditorState) (visualLines : List VisualLine) : ℕ :=
  findVisualLineAt visualLines state.cursorLine state.cursorCol

end PiAgent.Tui
