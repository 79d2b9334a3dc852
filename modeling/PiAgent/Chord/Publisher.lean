import Mathlib.Logic.Function.Basic
import PiAgent.Lib.Run

/-!
# Publication of a replicated state

`StateSubscriber` and `ReplicatedStatePublisher` of `state.ts`. Listeners call the
publisher again while it calls them, so the calls that have not returned are part of the
state: what runs next is the top of the stack, and the code of listeners where that is a
call of one.
-/

namespace PiAgent.Replicated

inductive DeliveryKind where
  | hydrate
  | update
deriving DecidableEq

/-- `StateDelivery`, with the fields of its `delivery`. -/
structure StateDelivery (T κ : Type) where
  value : T
  context : κ
  kind : DeliveryKind
  sequence : ℕ

/-- `StateSubscriber`. The last four fields say what has happened. They are not in the code. -/
structure Subscriber (T κ : Type) where
  pending : List (StateDelivery T κ)
  running : Bool
  started : Bool
  closed : Bool
  /-- The sequence at which it was subscribed. -/
  hydrated : ℕ
  /-- What the listener was called with. -/
  delivered : List (StateDelivery T κ)
  /-- The listener gave a promise that is not settled. -/
  awaited : Bool
  /-- `push` found the queue full. -/
  overflowed : Bool

structure Publication (T κ : Type) where
  value : T
  sequence : ℕ
  context : κ

variable {T κ : Type}

namespace Subscriber

def new (hydrated : ℕ) : Subscriber T κ :=
  { pending := [], running := false, started := false, closed := false, hydrated := hydrated, delivered := [],
    awaited := false, overflowed := false }

def push (x : Subscriber T κ) (frame : StateDelivery T κ) : Subscriber T κ :=
  if x.closed then x
  else if x.pending.length = 100 then
    let hydration := if x.started then [] else x.pending.take 1
    { x with pending := hydration ++ [frame], overflowed := true }
  else { x with pending := x.pending ++ [frame] }

def clear (x : Subscriber T κ) : Subscriber T κ := { x with pending := [] }

def close (x : Subscriber T κ) : Subscriber T κ := { x with closed := true }.clear

end Subscriber

/-! ## Calls that have not returned -/

inductive Frame (T κ : Type) where
  /-- `publish`, before it takes the next publication. -/
  | publishing
  /-- `publish`, with the listeners that the publication has not reached. -/
  | delivering (publication : Publication T κ) (rest : List (ℕ × ℕ))
  /-- `drain`, before it takes the next delivery. -/
  | draining (i : ℕ)
  /-- A call of the listener, from `drain`. -/
  | listener (i : ℕ)
  /-- A call of the reporter of errors, from `drain`. -/
  | reporting (i : ℕ)
  /-- A call of the reporter of errors, for a promise that was rejected. -/
  | rejecting (i : ℕ)

def Frame.isCall : Frame T κ → Bool
  | .listener _ => true
  | .reporting _ => true
  | .rejecting _ => true
  | _ => false

/-- The subscriber whose callback the frame belongs to. -/
def Frame.owner : Frame T κ → Option ℕ
  | .publishing => none
  | .delivering _ _ => none
  | .draining i => some i
  | .listener i => some i
  | .reporting i => some i
  | .rejecting i => some i

/-- `ReplicatedStatePublisher`. Subscribers have numbers. `listeners` maps them to sequences. -/
structure Publisher (T κ : Type) where
  listeners : List (ℕ × ℕ)
  publications : List (Publication T κ)
  value : T
  sequence : ℕ
  delivering : Bool
  subscribers : ℕ → Subscriber T κ
  /-- The number of the next subscriber. -/
  next : ℕ
  stack : List (Frame T κ)
  /-- The values of all sequences. Not in the code. -/
  published : List T

namespace Publisher

def new (initial : T) : Publisher T κ :=
  { listeners := [], publications := [], value := initial, sequence := 0, delivering := false,
    subscribers := fun _ => Subscriber.new 0, next := 0, stack := [], published := [initial] }

def set (s : Publisher T κ) (i : ℕ) (x : Subscriber T κ) : Publisher T κ :=
  { s with subscribers := Function.update s.subscribers i x }

/-- `drain`, up to its loop. -/
def drain (s : Publisher T κ) (i : ℕ) : Publisher T κ :=
  if (s.subscribers i).running || (s.subscribers i).closed then s
  else { s.set i { s.subscribers i with running := true } with stack := .draining i :: s.stack }

def resume (s : Publisher T κ) (i : ℕ) : Publisher T κ :=
  (s.set i { s.subscribers i with running := false }).drain i

def subscribe (background : κ) (s : Publisher T κ) : Publisher T κ :=
  let hydration := { value := s.value, context := background, kind := .hydrate, sequence := s.sequence }
  ({ s with listeners := s.listeners ++ [(s.next, s.sequence)], next := s.next + 1 }.set s.next
    ((Subscriber.new s.sequence).push hydration)).drain s.next

/-- What `subscribe` returns. -/
def unsubscribe (s : Publisher T κ) (i : ℕ) : Publisher T κ :=
  { s.set i (s.subscribers i).close with listeners := s.listeners.filter (fun l => l.1 ≠ i) }

/-- `publish`, up to its loop. -/
def publish (s : Publisher T κ) (value : T) (context : κ) : Publisher T κ :=
  let s :=
    { s with
      value := value
      sequence := s.sequence + 1
      publications := s.publications ++ [{ value := value, sequence := s.sequence + 1, context := context }]
      published := s.published ++ [value] }
  if s.delivering then s else { s with delivering := true, stack := .publishing :: s.stack }

/-- The next step of `publish` or `drain`. -/
def tick (s : Publisher T κ) : Publisher T κ :=
  match s.stack with
  | .publishing :: stack =>
    match s.publications with
    | [] => { s with delivering := false, stack := stack }
    | p :: publications =>
      { s with publications := publications, stack := .delivering p s.listeners :: .publishing :: stack }
  | .delivering _ [] :: stack => { s with stack := stack }
  | .delivering p ((i, hydratedSequence) :: rest) :: stack =>
    let s := { s with stack := .delivering p rest :: stack }
    if p.sequence ≤ hydratedSequence then s
    else
      (s.set i ((s.subscribers i).push
        { value := p.value, context := p.context, kind := .update, sequence := p.sequence })).drain i
  | .draining i :: stack =>
    let x := s.subscribers i
    match x.pending with
    | [] => { s.set i { x with running := false } with stack := stack }
    | frame :: pending =>
      { s.set i { x with pending := pending, started := true, delivered := x.delivered ++ [frame] } with
        stack := .listener i :: stack }
  | _ => s

/-- What other code does, and `tick`. Settled promises are seen when no call is under way. -/
inductive Event (T κ : Type) where
  | tick
  | publish (value : T) (context : κ)
  | subscribe
  | unsubscribe (i : ℕ)
  /-- The listener returns something that is no promise. -/
  | returned
  | promised
  | threw
  /-- The reporter of errors returns or throws. -/
  | reported
  | resolved (i : ℕ)
  | rejected (i : ℕ)

/-- Other code runs: that of listeners and reporters, or any when no call is under way. -/
def isOutside (s : Publisher T κ) : Bool :=
  match s.stack with
  | [] => true
  | frame :: _ => frame.isCall

def step (background : κ) (s : Publisher T κ) : Event T κ → Publisher T κ
  | .tick => s.tick
  | .publish value context => if s.isOutside then s.publish value context else s
  | .subscribe => if s.isOutside then s.subscribe background else s
  | .unsubscribe i => if s.isOutside && decide (i < s.next) then s.unsubscribe i else s
  | .returned =>
    match s.stack with
    | .listener i :: stack => { s with stack := .draining i :: stack }
    | _ => s
  | .promised =>
    match s.stack with
    | .listener i :: stack => { s.set i { s.subscribers i with awaited := true } with stack := stack }
    | _ => s
  | .threw =>
    match s.stack with
    | .listener i :: stack => { s with stack := .reporting i :: stack }
    | _ => s
  | .reported =>
    match s.stack with
    | .reporting i :: stack => { s with stack := .draining i :: stack }
    | .rejecting i :: stack => { s with stack := stack }.resume i
    | _ => s
  | .resolved i =>
    if s.stack.isEmpty && decide (i < s.next) && (s.subscribers i).awaited then
      (s.set i { s.subscribers i with awaited := false }).resume i
    else s
  | .rejected i =>
    if s.stack.isEmpty && decide (i < s.next) && (s.subscribers i).awaited then
      { s.set i { s.subscribers i with awaited := false } with stack := [.rejecting i] }
    else s

end Publisher

/-- Any code around a publisher: the inputs are what that code does, and when the publisher's own goes on. -/
def machine (initial : T) (background : κ) : Machine (Publisher T κ) (Publisher.Event T κ) Unit where
  start := Publisher.new initial
  step := fun s event => (s.step background event, ())

end PiAgent.Replicated
