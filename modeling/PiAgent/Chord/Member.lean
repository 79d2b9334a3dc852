import PiAgent.Chord.Delta.ApplyEqv
import PiAgent.Lib.Run

/-!
# State members of a handle

`MemberReadable` of `record.ts` over one source of a live handle, with the source's
`Fanout` and the publication queue. A delivery takes two ways through the queue: from
the source to the member, and from the member to its listeners. `V` is a value as `===`
sees it, and `L` a listener. Of the source's listeners only the member's are kept, and
of the member's only those of `events`.

A listener runs program code, so that anything may happen between two deliveries, and
inside `events`: after the first snapshot, and while the member subscribes upstream.
What is still to be done there stands on a stack.
-/

namespace PiAgent.Members

open Function Delta

variable {V L : Type}

/-- `rev` is not in the code: the number of writes until the event's value. -/
inductive Event (V : Type) where
  | ops (ops : List Op) (value : V) (rev : ℕ)
  | reset (value : V) (rev : ℕ)

def Event.value : Event V → V
  | .ops _ value _ => value
  | .reset value _ => value

def Event.rev : Event V → ℕ
  | .ops _ _ rev => rev
  | .reset _ rev => rev

/-- A task of the queue, with the listeners it has still to call. An upstream listener is a number. -/
inductive Task (V L : Type) where
  | source (listeners : List ℕ) (event : Event V)
  | member (listeners : List L) (event : Event V)

/-- What goes on when a call of program code returns. -/
inductive Frame (L : Type) where
  | snapped (l : L)
  | subscribed (upstream : ℕ)

/-- `fold` and `rev` are not in the code: for a subscribed listener, the value that its events make, and how many
writes are in it. -/
structure State (V L : Type) where
  value : V
  writes : ℕ
  fanout : List ℕ
  upstreams : ℕ
  bound : Bool
  upstream : Option ℕ
  seen : Option V
  events : List L
  queue : List (Task V L)
  stack : List (Frame L)
  fold : L → JsonValue
  rev : L → ℕ

inductive Step (V L : Type) where
  | write (value : V) (ops : List Op)
  | events (l : L)
  | unsubscribe (l : L)
  | deliver
  | ret

section Member

variable (json : V → JsonValue)

def foldEvent (current : JsonValue) : Event V → JsonValue
  | .ops ops _ _ =>
    match apply current ops with
    | .ok next => next
    | .error _ => current
  | .reset value _ => json value

variable [DecidableEq V] [DecidableEq L]

/-- `bind`. The upstream listener is called at once, with a snapshot of the source. -/
def State.bind (w : State V L) : State V L :=
  let listening := !w.events.isEmpty
  if listening = w.bound then w
  else
    let w := { w with fanout := w.fanout.filter (fun u => some u ≠ w.upstream), upstream := none, bound := listening }
    if !listening then w
    else
      let u := w.upstreams
      let w := { w with fanout := w.fanout ++ [u], upstreams := u + 1 }
      if some w.value = w.seen then { w with upstream := some u }
      else
        { w with seen := some w.value, queue := w.queue ++ [.member w.events (.reset w.value w.writes)],
                 stack := .subscribed u :: w.stack }

/-- The call of an upstream listener that has had its first event. -/
def State.forward (w : State V L) (event : Event V) : State V L :=
  { w with seen := some event.value, queue := w.queue ++ [.member w.events event] }

def State.deliver (w : State V L) : State V L :=
  match w.queue with
  | [] => w
  | .source [] _ :: queue => { w with queue := queue }
  | .source (u :: us) event :: queue =>
    let w := { w with queue := .source us event :: queue }
    if u ∈ w.fanout then w.forward event else w
  | .member [] _ :: queue => { w with queue := queue }
  | .member (l :: ls) event :: queue =>
    let w := { w with queue := .member ls event :: queue }
    if l ∈ w.events then
      { w with fold := update w.fold l (foldEvent json (w.fold l) event), rev := update w.rev l event.rev }
    else w

def State.step (w : State V L) : Step V L → State V L
  | .write value ops =>
    { w with value := value, writes := w.writes + 1,
             queue := w.queue ++ [.source w.fanout (.ops ops value (w.writes + 1))] }
  | .events l =>
    { w with events := if l ∈ w.events then w.events else w.events ++ [l], seen := some w.value,
             fold := update w.fold l (json w.value), rev := update w.rev l w.writes,
             stack := .snapped l :: w.stack }
  | .unsubscribe l => { w with events := w.events.erase l }.bind
  | .deliver => w.deliver json
  | .ret =>
    match w.stack with
    | [] => w
    | .snapped _ :: stack => { w with stack := stack }.bind
    | .subscribed u :: stack => { w with stack := stack, upstream := some u }

def machine (initial : V) : Machine (State V L) (Step V L) Unit where
  start :=
    { value := initial, writes := 0, fanout := [], upstreams := 0, bound := false, upstream := none, seen := none,
      events := [], queue := [], stack := [], fold := fun _ => .prim .null, rev := fun _ => 0 }
  step w s := (w.step json s, ())

/-- The batch of a write takes the source's value to the new one, up to the order of keys. -/
def Exact (w : State V L) : Step V L → Prop
  | .write value ops => ∃ next, apply (json w.value) ops = .ok next ∧ next.Eqv (json value)
  | _ => True

/-! ## When a subscription is safe -/

/-- The listener takes part in a delivery that is queued. -/
def Task.names (l : L) : Task V L → Prop
  | .source _ _ => False
  | .member listeners _ => l ∈ listeners

/-- An upstream listener that is still subscribed takes part in a delivery that is queued. -/
def Task.heard (fanout : List ℕ) : Task V L → Prop
  | .source listeners _ => ∃ u ∈ listeners, u ∈ fanout
  | .member _ _ => False

def Frame.subscribing : Frame L → Bool
  | .snapped _ => false
  | .subscribed _ => true

/-- What a call of `events` needs. -/
structure Safe (w : State V L) (l : L) : Prop where
  /-- The listener is not subscribed, and no delivery from an earlier subscription of it is left. -/
  fresh : l ∉ w.events ∧ ∀ task ∈ w.queue, ¬ task.names l
  /-- The member has heard of every write that it will hear of. -/
  heard : ∀ task ∈ w.queue, ¬ task.heard w.fanout
  /-- Without an upstream listener, the others have the source's value. -/
  seen : w.fanout = [] → w.events = [] ∨ w.seen = some w.value
  /-- The member is not in the middle of a subscription that it has already given up. -/
  bound : w.bound = true ∨ ∀ frame ∈ w.stack, frame.subscribing = false

def SafeStep (w : State V L) : Step V L → Prop
  | .events l => Safe w l
  | _ => True

end Member

end PiAgent.Members
