import PiAgent.Chord.Delta.Apply
import PiAgent.Lib.Run

/-!
# Committed watches

`CommittedWatch` of `observation.ts`. Committed frames wait for a listener that is called for
one frame at a time; the tasks of the event loop are inputs of their own.
-/

namespace PiAgent.Durable.Watch

open Delta

def MAX_PENDING_WATCH_FRAMES : ℕ := 100

/-- A frame. `upTo` is how many commits came up to it, and `replaced` that it replaces those before. -/
structure Frame where
  value : JsonValue
  ops : List Op
  upTo : ℕ
  replaced : Bool

inductive WatchEnd where
  | stopped
  | cancelled
  | sessionClosed
  | sessionFailed
  | listenerError
  | retired
  deriving DecidableEq

/-- What happens between the watch and its listener. -/
inductive Call where
  | began (frame : Frame)
  | returned
  | threw

/-- A watch, with the commits it was told and the calls of its listener so far. -/
structure CommittedWatch where
  value : JsonValue
  pending : List Frame
  started : Bool
  scheduled : Bool
  running : Option Frame
  retired : Bool
  ended : Option WatchEnd
  commits : List (JsonValue × List Op)
  calls : List Call

def isNull : JsonValue → Bool
  | .prim .null => true
  | _ => false

namespace CommittedWatch

def new (value : JsonValue) : CommittedWatch where
  value := value
  pending := []
  started := false
  scheduled := false
  running := none
  retired := false
  ended := none
  commits := []
  calls := []

/-- `#terminate` -/
def terminate (w : CommittedWatch) (reason : WatchEnd) : CommittedWatch :=
  if w.ended.isSome then w else { w with ended := some reason, pending := [] }

/-- `#schedule` -/
def schedule (w : CommittedWatch) : CommittedWatch :=
  if w.scheduled || w.running.isSome || w.ended.isSome then w else { w with scheduled := true }

/-- `start`; where it throws, nothing changes. -/
def start (w : CommittedWatch) : CommittedWatch :=
  if w.started || w.ended.isSome then w
  else
    let w := { w with started := true }
    if w.pending.isEmpty then w else w.schedule

/-- The frames that wait after a commit; `replacement` is what `#replace?.()` gives, unless it is null. -/
def queue (w : CommittedWatch) (value : JsonValue) (ops : List Op) (replacement : Option JsonValue) : List Frame :=
  if MAX_PENDING_WATCH_FRAMES ≤ w.pending.length then
    let replacement := (replacement.filter (fun value => !isNull value)).getD value
    [⟨replacement, [.r replacement], w.commits.length + 1, true⟩]
  else w.pending ++ [⟨value, ops, w.commits.length + 1, false⟩]

def advance (w : CommittedWatch) (value : JsonValue) (ops : List Op) (replacement : Option JsonValue) : CommittedWatch :=
  if w.ended.isSome || w.retired then w
  else
    let w := { w with
      retired := isNull value
      pending := w.queue value ops replacement
      commits := w.commits ++ [(value, ops)] }
    if w.started then w.schedule else w

/-- The `finally` of `#drain`. -/
def finish (w : CommittedWatch) : CommittedWatch :=
  let w := { w with running := none }
  if w.ended.isNone && !w.pending.isEmpty then w.schedule else w

/-- One turn of the loop of `#drain`, up to the call of the listener. -/
def next (w : CommittedWatch) : CommittedWatch :=
  if w.ended.isSome then w.finish
  else
    match w.pending with
    | [] => w.finish
    | frame :: rest =>
      { w with pending := rest, value := frame.value, running := some frame, calls := w.calls ++ [.began frame] }

def turn (w : CommittedWatch) : CommittedWatch :=
  if w.scheduled then
    let w := { w with scheduled := false }
    if w.running.isSome || w.ended.isSome || !w.started then w else w.next
  else w

/-- The promise of the listener settles. -/
def settle (w : CommittedWatch) (threw : Bool) : CommittedWatch :=
  match w.running with
  | none => w
  | some frame =>
    let w := { w with calls := w.calls ++ [if threw then Call.threw else Call.returned] }
    if threw then (w.terminate .listenerError).finish
    else if isNull frame.value then (w.terminate .retired).finish
    else w.next

end CommittedWatch

inductive Input where
  | advance (value : JsonValue) (ops : List Op) (replacement : Option JsonValue)
  | start
  | stop
  | cancel
  | closeSession (failed : Bool)
  | turn
  | settle (threw : Bool)

def CommittedWatch.step (w : CommittedWatch) : Input → CommittedWatch
  | .advance value ops replacement => w.advance value ops replacement
  | .start => w.start
  | .stop => w.terminate .stopped
  | .cancel => w.terminate .cancelled
  | .closeSession failed => w.terminate (if failed then .sessionFailed else .sessionClosed)
  | .turn => w.turn
  | .settle threw => w.settle threw

/-- A watch created at a value, and what is done with it in any order. -/
def watch (value : JsonValue) : Machine CommittedWatch Input Unit where
  start := .new value
  step := fun w input => (w.step input, ())

end PiAgent.Durable.Watch
