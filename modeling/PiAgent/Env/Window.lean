import PiAgent.Env.Encoding

/-!
# The output window of the daemon

`window.rs`: undelivered output of a command is held, and text followed by more than the
caller's window is replaced by counts. Strings are scalar values, and their lengths are in
UTF-8. When output is delivered is up to the caller.
-/

namespace PiAgent.Env

structure Window where
  max_bytes : ℕ
  max_lines : ℕ
  deriving DecidableEq

namespace Window

open Utf8

structure Skipped where
  bytes : ℕ
  newlines : ℕ
  ends_with_newline : Bool
  deriving DecidableEq

inductive Stream where
  | stdout
  | stderr
  deriving DecidableEq

/-- One output event: its stream, text, and the output omitted right before it. -/
structure Event where
  stream : Stream
  text : List Char
  skipped : Option Skipped
  deriving DecidableEq

structure Pending where
  window : Window
  segments : List (Stream × List Char)
  bytes : ℕ
  newlines : ℕ
  skipped : Option Skipped
  deriving DecidableEq

def newline_count (text : List Char) : ℕ := (encode text).count NEWLINE

def ends_with_newline (text : List Char) : Bool := text.getLast? = some (Char.ofNat 10)

def Pending.new (window : Window) : Pending := ⟨window, [], 0, 0, none⟩

/-- Whether the text after a cut still proves the cut text is outside the window. -/
def proves (window : Window) (bytes newlines : ℕ) : Bool := bytes > window.max_bytes || newlines > window.max_lines

/-! ## Trimming -/

/-- The first loop of `trim`: whole segments, while what comes after them proves them outside. -/
def trimSegments (window : Window) :
    List (Stream × List Char) → ℕ → ℕ → List Char → List (Stream × List Char) × ℕ × ℕ × List Char
  | first :: second :: rest, bytes, newlines, removed =>
    if proves window (bytes - (encode first.2).length) (newlines - newline_count first.2) then
      trimSegments window (second :: rest) (bytes - (encode first.2).length) (newlines - newline_count first.2)
        (removed ++ first.2)
    else (first :: second :: rest, bytes, newlines, removed)
  | segments, bytes, newlines, removed => (segments, bytes, newlines, removed)

def positions (bytes : List UInt8) : List ℕ := (List.range bytes.length).filter (fun index => bytes[index]? = some NEWLINE)

/-- Where `trim` cuts the first segment. -/
def cutOf (window : Window) (first : List UInt8) (rest_bytes rest_newlines : ℕ) : ℕ :=
  -- By bytes: keep more than `max_bytes` overall.
  let keep_bytes := window.max_bytes + 1 - rest_bytes
  let cut := if first.length > keep_bytes then boundaryBefore first (first.length - keep_bytes) else 0
  -- By lines: keep more than `max_lines` newlines overall, starting at a newline of this segment.
  let keep_newlines := window.max_lines + 1 - rest_newlines
  if keep_newlines > 0 then
    let positions := positions first
    if positions.length ≥ keep_newlines then max cut (positions[positions.length - keep_newlines]?.getD 0) else cut
  else first.length

/-- `first.drain(..cut)`: what is drained, and what is left. -/
def drain (text : List Char) (cut : ℕ) : List Char × List Char :=
  (decode ((encode text).take cut), decode ((encode text).drop cut))

def addSkipped (skipped : Option Skipped) (removed : List Char) : Option Skipped :=
  if removed.isEmpty then skipped
  else
    let skipped := skipped.getD ⟨0, 0, false⟩
    some { bytes := skipped.bytes + (encode removed).length, newlines := skipped.newlines + newline_count removed
           ends_with_newline := ends_with_newline removed }

/-- Replace the longest prefix whose remainder still proves exclusion by counts. -/
def Pending.trim (p : Pending) : Pending :=
  let (segments, bytes, newlines, removed) := trimSegments p.window p.segments p.bytes p.newlines []
  match segments with
  -- `push` holds a segment
  | [] => p
  | (stream, first) :: rest =>
    let rest_bytes := bytes - (encode first).length
    let rest_newlines := newlines - newline_count first
    let cut := cutOf p.window (encode first) rest_bytes rest_newlines
    if cut > 0 then
      let (taken, left) := drain first cut
      { p with segments := if left.isEmpty then rest else (stream, left) :: rest, bytes := bytes - (encode taken).length
               newlines := newlines - newline_count taken, skipped := addSkipped p.skipped (removed ++ taken) }
    else
      { p with segments := (stream, first) :: rest, bytes := bytes, newlines := newlines
               skipped := addSkipped p.skipped removed }

/-! ## Text in, events out -/

/-- Text of the stream that came last is one segment with it. -/
def pushSegment (segments : List (Stream × List Char)) (stream : Stream) (text : List Char) : List (Stream × List Char) :=
  match segments.getLast? with
  | some (last, existing) =>
    if last = stream then segments.dropLast ++ [(last, existing ++ text)] else segments ++ [(stream, text)]
  | none => segments ++ [(stream, text)]

def Pending.push (p : Pending) (stream : Stream) (text : List Char) : Pending :=
  if text.isEmpty then p
  else
    let p := { p with segments := pushSegment p.segments stream text, bytes := p.bytes + (encode text).length
                      newlines := p.newlines + newline_count text }
    if p.bytes > 4 * (p.window.max_bytes + 1) ∨ p.newlines > 4 * (p.window.max_lines + 1) then p.trim else p

/-- One event carrying the skip and all text after it, or one event per segment. -/
def Pending.take (p : Pending) : Pending × List Event :=
  ({ p with segments := [], bytes := 0, newlines := 0, skipped := none },
    match p.skipped with
    | some skipped => [⟨(p.segments.getLast?.map Prod.fst).getD .stdout, p.segments.flatMap Prod.snd, some skipped⟩]
    | none => p.segments.map (fun segment => ⟨segment.1, segment.2, none⟩))

/-! ## Runs -/

/-- What happens to the pending output of a command. -/
inductive Op where
  | push (stream : Stream) (text : List Char)
  | take
  deriving DecidableEq

def Pending.step (p : Pending) : Op → Pending × List Event
  | .push stream text => (p.push stream text, [])
  | .take => p.take

def Pending.run (p : Pending) : List Op → Pending × List Event
  | [] => (p, [])
  | op :: ops => (((p.step op).1.run ops).1, (p.step op).2 ++ ((p.step op).1.run ops).2)

theorem run_push (p : Pending) (stream : Stream) (text : List Char) (ops : List Op) :
    p.run (.push stream text :: ops) = (p.push stream text).run ops := rfl

theorem run_take (p : Pending) (ops : List Op) :
    p.run (.take :: ops) = ((p.take.1.run ops).1, p.take.2 ++ (p.take.1.run ops).2) := rfl

def pushed : List Op → List (List Char)
  | [] => []
  | .push _ text :: ops => text :: pushed ops
  | .take :: ops => pushed ops

end Window

end PiAgent.Env
