import PiAgent.Chord.Delta.ApplyEqv
import PiAgent.Chord.Delta.Codec
import PiAgent.Lib.Run

/-!
# State over a link

One subscription: the feed of `Connection.#onSub` on the side of the provider, and
`RemoteReadable` on the side of the consumer. The link delivers in order.
-/

namespace PiAgent.Remote

open Delta

/-- What a readable tells a listener. `none` is `undefined`. -/
inductive StateEvent where
  | snap (value : Option JsonValue)
  | reset (value : Option JsonValue)
  | ops (ops : List Op) (value : Option JsonValue)

inductive StateFrame where
  | snap (value : JsonValue)
  | reset (value : JsonValue)
  | ops (wire : List WireOp)
  | error (message : String)

/-- `applyImmutable`, also on `undefined`: then only a replacement can come first. -/
def applyImmutable (root : Option JsonValue) : List Op → Except DeltaError (Option JsonValue)
  | [] => .ok root
  | op :: ops =>
    match root, op with
    | some root, op => (apply root (op :: ops)).map some
    | none, .r value => (apply value ops).map some
    | none, .edit path e => do
      assertValidOp (.edit path e)
      throw (.path path)

/-! ## Provider -/

/-- A snapshot or a reset. `outcome` is what `validateSnapshot` throws, if anything. -/
def sendValue (stream : Encoder) (outcome : Option String) (frame : JsonValue → StateFrame) :
    Option JsonValue → Encoder × List StateFrame
  | none => (stream, [])
  | some value =>
    match outcome with
    | some message => (stream, [.error message])
    | none => (encoder, [frame value])

/-- The listener that `#onSub` gives to the provider's readable. -/
def send (stream : Encoder) (outcome : Option String) : StateEvent → Encoder × List StateFrame
  | .ops ops _ =>
    let (stream, wire) := stream.encode ops
    (stream, [.ops wire])
  | .snap value => sendValue stream outcome .snap value
  | .reset value => sendValue stream outcome .reset value

/-! ## Consumer -/

structure Replica where
  value : Option JsonValue
  decoder : Decoder

/-- `threw` is an error that `#receive` does not catch. The link reports it and goes on. -/
inductive Received where
  | event (event : StateEvent)
  | reported (message : String)
  | threw (error : DeltaError)

def receive (r : Replica) : StateFrame → Replica × Received
  | .error message => (r, .reported message)
  | .snap value => ({ value := some value, decoder := decoder }, .event (.reset (some value)))
  | .reset value => ({ value := some value, decoder := decoder }, .event (.reset (some value)))
  | .ops wire =>
    let (dec, decoded) := r.decoder.decode wire
    match decoded with
    | .error e => ({ r with decoder := dec }, .threw e)
    | .ok ops =>
      match applyImmutable r.value ops with
      | .error e => ({ r with decoder := dec }, .threw e)
      | .ok value => ({ value := value, decoder := dec }, .event (.ops ops value))

def consumer : Machine Replica StateFrame Received :=
  { start := { value := none, decoder := decoder }, step := receive }

/-! ## Both sides -/

/-- The last four fields say what has happened. They are not in the code. -/
structure World where
  value : Option JsonValue
  stream : Encoder
  link : List StateFrame
  replica : Replica
  published : List JsonValue
  /-- The last value of the provider that was not `undefined`. -/
  latest : Option JsonValue
  /-- The last snapshot or reset with a value passed validation. -/
  accepted : Bool
  /-- The provider's present value can be had from what was sent. -/
  inStep : Bool
  /-- Something was sent that gives the replica a value. -/
  sent : Bool

inductive Step where
  | publish (event : StateEvent) (outcome : Option String)
  | process

def World.publish (w : World) (event : StateEvent) (outcome : Option String) : World :=
  let (stream, frames) := send w.stream outcome event
  let w := { w with stream := stream, link := w.link ++ frames }
  match event with
  | .snap none => { w with value := none, inStep := false }
  | .reset none => { w with value := none, inStep := false }
  | .snap (some value) =>
    { w with value := some value, published := value :: w.published, latest := some value,
             accepted := outcome.isNone, inStep := outcome.isNone, sent := w.sent || outcome.isNone }
  | .reset (some value) =>
    { w with value := some value, published := value :: w.published, latest := some value,
             accepted := outcome.isNone, inStep := outcome.isNone, sent := w.sent || outcome.isNone }
  | .ops ops value =>
    { w with value := value, published := value.toList ++ w.published, latest := value.or w.latest,
             inStep := w.inStep || isBase ops, sent := w.sent || isBase ops }

def World.step (w : World) : Step → World × Option Received
  | .publish event outcome => (w.publish event outcome, none)
  | .process =>
    match w.link with
    | [] => (w, none)
    | frame :: link =>
      let (replica, received) := receive w.replica frame
      ({ w with link := link, replica := replica }, some received)

def machine : Machine World Step (Option Received) where
  start :=
    { value := none, stream := encoder, link := [], replica := consumer.start, published := [], latest := none,
      accepted := false, inStep := false, sent := false }
  step := World.step

/-- The batch takes the provider's value to its next one, up to the order of keys. -/
def Exact (w : World) : Step → Prop
  | .publish (.ops ops value) _ => ∃ v, applyImmutable w.value ops = .ok v ∧ Option.Rel JsonValue.Eqv v value
  | _ => True

/-- A batch that is not empty and does not begin with a replacement comes only when the provider's value was sent,
or when nothing was. -/
def Streamable (w : World) : Step → Prop
  | .publish (.ops ops _) _ => ops = [] ∨ isBase ops = true ∨ w.inStep = true ∨ w.sent = false
  | _ => True

end PiAgent.Remote
