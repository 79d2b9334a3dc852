import PiAgent.Chord.JsonText
import PiAgent.Lib.Drain
import PiAgent.Lib.Occurrence

/-!
# Frames between a connection and its daemon

`connection.ts` and the daemon's `frame.rs`: length-prefixed frames
`u32 length | u8 type | u32 id | u32 jsonLength | json | payload`, written and read on both
sides. What the JSON libraries make of a text is a parameter.
-/

namespace PiAgent.Env.Frames

abbrev Bytes := List UInt8

/-! ## Numbers in frames -/

def writeUInt32BE (n : ℕ) : Bytes :=
  [(n / 2 ^ 24 % 256).toUInt8, (n / 2 ^ 16 % 256).toUInt8, (n / 2 ^ 8 % 256).toUInt8, (n % 256).toUInt8]

def readUInt8 (bytes : Bytes) (offset : ℕ) : UInt8 := bytes.getD offset 0

def readUInt32BE (bytes : Bytes) (offset : ℕ) : ℕ :=
  ((((readUInt8 bytes offset).toNat * 256 + (readUInt8 bytes (offset + 1)).toNat) * 256 +
    (readUInt8 bytes (offset + 2)).toNat) * 256) + (readUInt8 bytes (offset + 3)).toNat

def MAX_FRAME : ℕ := 16 * 1024 * 1024

def RESULT : UInt8 := 2

def ERROR : UInt8 := 3

def EVENT : UInt8 := 4

structure Frame where
  type : UInt8
  id : UInt32
  json : JsonValue
  payload : Bytes

/-! ## The client -/

/-- `Buffer.from(JSON.stringify(json), "utf8")`, and `JSON.parse(buffer.toString("utf8"))` where it does not throw. -/
structure ClientJson where
  stringify : JsonValue → Bytes
  parse : Bytes → Option JsonValue

/-- `serde_json::to_vec` and `serde_json::from_slice`, where they do not fail. -/
structure DaemonJson where
  toVec : JsonValue → Option Bytes
  fromSlice : Bytes → Option JsonValue
  /-- No JSON is an empty text. -/
  empty : fromSlice [] = none

section WellFormed

/-- `value.toWellFormed()` -/
def toWellFormed : JsString → JsString
  | [] => []
  | [u] => if isHighSurrogate u || isLowSurrogate u then [0xFFFD] else [u]
  | u :: v :: rest =>
    if isHighSurrogate u && isLowSurrogate v then u :: v :: toWellFormed rest
    else (if isHighSurrogate u || isLowSurrogate u then 0xFFFD else u) :: toWellFormed (v :: rest)

mutual

/-- The replacer of `JSON.stringify`: it changes string values, and no keys. -/
def wellFormed : JsonValue → JsonValue
  | .prim (.str s) => .prim (.str (toWellFormed s))
  | .prim p => .prim p
  | .arr items => .arr (wellFormedItems items)
  | .obj fields => .obj (wellFormedFields fields)

def wellFormedItems : List JsonValue → List JsonValue
  | [] => []
  | item :: items => wellFormed item :: wellFormedItems items

def wellFormedFields : List (JsString × JsonValue) → List (JsString × JsonValue)
  | [] => []
  | (key, value) :: fields => (key, wellFormed value) :: wellFormedFields fields

end

end WellFormed

/-- A frame around the bytes of its JSON. -/
def encode (type : UInt8) (id : UInt32) (text payload : Bytes) : Bytes :=
  writeUInt32BE (9 + text.length + payload.length) ++ type :: (writeUInt32BE id.toNat ++ writeUInt32BE text.length) ++
    text ++ payload

/-- `frame` of the client; a length that is no u32 throws. -/
def frame (J : ClientJson) (f : Frame) : Option Bytes :=
  let body := J.stringify (wellFormed f.json)
  if 9 + body.length + f.payload.length < 2 ^ 32 then some (encode f.type f.id body f.payload) else none

inductive Failure where
  | remote (fields : JsonValue)
  | lost (message : String)

/-- What a session does to others: the frames it hands to `#dispatch`, and what that does to its requests. -/
inductive Effect where
  | dispatch (frame : Frame)
  | event (id : ℕ) (json : JsonValue) (payload : Bytes)
  | resolve (id : ℕ) (json : JsonValue) (payload : Bytes)
  | reject (id : ℕ) (failure : Failure)

/-- The token of a session: 16 random bytes in hex. -/
structure Token where
  digits : Bytes
  length : digits.length = 32
  hex : ∀ b ∈ digits, (48 ≤ b ∧ b ≤ 57) ∨ (97 ≤ b ∧ b ≤ 102)

/-- The UTF-8 of `PI-ENV ` -/
def syncWord : Bytes := [80, 73, 45, 69, 78, 86, 32]

def syncLine (token : Token) : Bytes := syncWord ++ token.digits ++ [10]

/-- One running daemon, and the IDs of requests. `pending` holds the requests that wait, and whether they want
events. -/
structure Session where
  token : Token
  nextId : ℕ
  pending : List (ℕ × Bool)
  chunks : List Bytes
  buffered : ℕ
  synced : Bool
  live : Bool

namespace Session

def new (token : Token) (nextId : ℕ) : Session :=
  { token := token, nextId := nextId, pending := [], chunks := [], buffered := 0, synced := false, live := true }

/-- The first `length` buffered bytes. The chunks are joined where the first is shorter. -/
def peek (s : Session) (length : ℕ) : Session × Bytes :=
  let chunks := if (s.chunks.headD []).length < length then [s.chunks.flatten] else s.chunks
  ({ s with chunks := chunks }, (chunks.headD []).take length)

/-- The loop of `consume`. -/
def consumeChunks : List Bytes → ℕ → List Bytes
  | chunks, 0 => chunks
  | [], _ + 1 => []
  | first :: rest, length + 1 =>
    if first.length ≤ length + 1 then consumeChunks rest (length + 1 - first.length) else first.drop (length + 1) :: rest

def consume (s : Session) (length : ℕ) : Session :=
  { s with chunks := consumeChunks s.chunks length, buffered := s.buffered - length }

def corrupt : Failure := .lost "Corrupt frame from pi-env"

/-- `#teardown` -/
def teardown (s : Session) (failure : Failure) : Session × List Effect :=
  if s.live then
    ({ s with live := false, pending := [] }, s.pending.map (fun request => .reject request.1 failure))
  else (s, [])

/-- `#dispatch` -/
def dispatch (s : Session) (f : Frame) : Session × List Effect :=
  let id := f.id.toNat
  match s.pending.find? (fun request => request.1 = id) with
  | none => (s, [])
  | some request =>
    if f.type = EVENT then (s, if request.2 then [.event id f.json f.payload] else [])
    else if f.type ≠ RESULT ∧ f.type ≠ ERROR then (s, [])
    else
      ({ s with pending := s.pending.filter (fun request => request.1 ≠ id) },
        [if f.type = RESULT then .resolve id f.json f.payload else .reject id (.remote f.json)])

/-- The JSON of a frame's body, where it is an object. -/
def readJson (J : ClientJson) (body : Bytes) : Option JsonValue :=
  let jsonLength := readUInt32BE body 5
  if 9 + jsonLength > body.length then none
  else
    match J.parse ((body.drop 9).take jsonLength) with
    | some (.obj fields) => some (.obj fields)
    | _ => none

def frameOf (body : Bytes) (json : JsonValue) : Frame :=
  { type := readUInt8 body 0, id := (readUInt32BE body 1).toUInt32, json := json
    payload := body.drop (9 + readUInt32BE body 5) }

/-- The `while` loop of `#onData`. -/
def receive (J : ClientJson) : ℕ → Session → Session × List Effect
  | 0, s => (s, [])
  | fuel + 1, s =>
    if !s.live || s.buffered < 4 then (s, [])
    else
      let (s, head) := s.peek 4
      let length := readUInt32BE head 0
      if length < 9 || length > MAX_FRAME then s.teardown corrupt
      else if s.buffered < 4 + length then (s, [])
      else
        let (s, whole) := s.peek (4 + length)
        let body := whole.drop 4
        match readJson J body with
        | none => s.teardown corrupt
        | some json =>
          let (s, effects) := (s.consume (4 + length)).dispatch (frameOf body json)
          let (s, later) := receive J fuel s
          (s, .dispatch (frameOf body json) :: effects ++ later)

/-- What waits for the sync line: everything before it is skipped. -/
def sync (s : Session) : Session × Bool :=
  let marker := syncLine s.token
  let (s, all) := s.peek s.buffered
  match firstIndex marker all with
  | none => (if s.buffered > 1024 * 1024 then s.consume (s.buffered - marker.length) else s, false)
  | some index => ({ s.consume (index + marker.length) with synced := true }, true)

def push (s : Session) (chunk : Bytes) : Session :=
  { s with chunks := s.chunks ++ [chunk], buffered := s.buffered + chunk.length }

/-- `#onData`. Each frame takes more than one byte, so there is fuel for all of them. -/
def onData (J : ClientJson) (s : Session) (chunk : Bytes) : Session × List Effect :=
  if !s.live then (s, [])
  else
    let s := s.push chunk
    if s.synced then receive J (s.buffered + 1) s
    else
      let (s, found) := s.sync
      if found then receive J (s.buffered + 1) s else (s, [])

/-- `#send`: a request gets the next ID; a dead session refuses it. -/
def send (s : Session) (onEvent : Bool) : Session × List Effect :=
  if s.live then ({ s with nextId := s.nextId + 1, pending := s.pending ++ [(s.nextId, onEvent)] }, [])
  else (s, [])

inductive Input where
  | data (chunk : Bytes)
  | request (onEvent : Bool)

def step (J : ClientJson) (s : Session) : Input → Session × List Effect
  | .data chunk => s.onData J chunk
  | .request onEvent => s.send onEvent

def run (J : ClientJson) : Session → List Input → Session × List Effect
  | s, [] => (s, [])
  | s, input :: inputs =>
    let (s, effects) := s.step J input
    let (s, later) := run J s inputs
    (s, effects ++ later)

end Session

/-! ## The daemon -/

/-- What `read_frame` gives: the end of the input, an error, or a frame and the input after it. -/
inductive Read where
  | eof
  | error
  | frame (f : Frame) (rest : Bytes)

/-- `read_frame`. A JSON text that is not read leaves `Value::Null`. -/
def read_frame (D : DaemonJson) (input : Bytes) : Read :=
  if input.length < 4 then .eof
  else
    let length := readUInt32BE (input.take 4) 0
    if length < 9 || MAX_FRAME < length then .error
    else if (input.drop 4).length < length then .error
    else
      let body := (input.drop 4).take length
      let jsonLength := readUInt32BE body 5
      if 9 + jsonLength > length then .error
      else
        let json :=
          if jsonLength = 0 then .obj []
          else (D.fromSlice ((body.drop 9).take jsonLength)).getD (.prim .null)
        .frame { type := readUInt8 body 0, id := (readUInt32BE body 1).toUInt32, json := json
                 payload := body.drop (9 + jsonLength) } ((input.drop 4).drop length)

/-- `write_frame`, where it does not fail. -/
def write_frame (D : DaemonJson) (f : Frame) : Option Bytes :=
  match D.toVec f.json with
  | none => none
  | some json => if MAX_FRAME < 9 + json.length + f.payload.length then none else some (encode f.type f.id json f.payload)

end PiAgent.Env.Frames
