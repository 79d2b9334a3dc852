import PiAgent.Chord.Delta.Op
import PiAgent.Lib.Run

/-!
# Wire operations of any shape

What comes over a boundary is not typed: the validators and the decoder of
`delta/index.ts`, on any JavaScript value.
-/

namespace PiAgent.Delta.Raw

/-- Any JavaScript value, as far as the checks can tell it from others. -/
inductive JsValue where
  | undefined
  | prim (p : Primitive)
  /-- `NaN`, or an infinity. -/
  | notFinite
  | arr (items : List JsValue)
  | obj (fields : List (JsString × JsValue))
  /-- A function, a symbol or a bigint. -/
  | other

inductive DecodeError where
  | typeError (message : String)
  | unknownVerb (verb : JsValue)
  | unsafePath (segment : JsValue)
  | path (path : List JsValue)
  | pathId (id : ℚ)

abbrev Checked := Except DecodeError Unit

def check (holds : Bool) (message : String) : Checked := if holds then .ok () else .error (.typeError message)

/-- `Number.isInteger(value) && value >= 0` -/
def isIndex : JsValue → Bool
  | .prim (.num n) => n.den == 1 && 0 ≤ n
  | _ => false

def isString : JsValue → Bool
  | .prim (.str _) => true
  | _ => false

def isArray : JsValue → Bool
  | .arr _ => true
  | _ => false

inductive Verb where
  | r
  | s
  | d
  | a
  | t
  | p
  | m
  | define
deriving DecidableEq

def Verb.text : Verb → JsString
  | .r => js "r"
  | .s => js "s"
  | .d => js "d"
  | .a => js "a"
  | .t => js "t"
  | .p => js "p"
  | .m => js "m"
  | .define => js "#"

def Verb.all : List Verb := [.r, .s, .d, .a, .t, .p, .m, .define]

def verbOf : JsValue → Option Verb
  | .prim (.str text) => Verb.all.find? (fun verb => verb.text = text)
  | _ => none

def Verb.value (verb : Verb) : JsValue := .prim (.str verb.text)

/-! ## Validators -/

def isSafeSegment : JsValue → Bool
  | .prim (.str text) => text ∉ reservedSegments
  | segment => isIndex segment

def assertSafePath : List JsValue → Checked
  | [] => .ok ()
  | segment :: rest => if isSafeSegment segment then assertSafePath rest else .error (.unsafePath segment)

def assertPathArg (path : JsValue) (nonEmpty : Bool) : Checked :=
  match path with
  | .arr path => do
    check (!(nonEmpty && path.isEmpty)) "path is empty"
    assertSafePath path
  | _ => .error (.typeError "path is not an array")

/-- `seen` holds the indices that came before. -/
def checkPermutation (length : ℕ) (seen : List ℚ) : List JsValue → Checked
  | [] => .ok ()
  | .prim (.num n) :: rest =>
    if n.den ≠ 1 ∨ n < 0 ∨ (length : ℚ) ≤ n ∨ n ∈ seen then .error (.typeError "m permutation is not a bijection")
    else checkPermutation length (n :: seen) rest
  | _ :: _ => .error (.typeError "m permutation is not a bijection")

def assertPermutation : JsValue → Checked
  | .arr items => checkPermutation items.length [] items
  | _ => .error (.typeError "m permutation is not an array")

/-- The checks of a decoded operation, by its verb and the rest of its tuple. -/
def assertValidArgs : Verb → List JsValue → Checked
  | .r, [_] => .ok ()
  | .r, _ => .error (.typeError "r arity")
  | .s, [path, _] => assertPathArg path true
  | .s, _ => .error (.typeError "s arity")
  | .d, [path] => assertPathArg path true
  | .d, _ => .error (.typeError "d arity")
  | .a, [path, text] => do
    check (isString text) "a shape"
    assertPathArg path true
  | .a, _ => .error (.typeError "a shape")
  | .t, [path, count] => do
    check (isIndex count) "t shape"
    assertPathArg path true
  | .t, _ => .error (.typeError "t shape")
  | .p, [path, index, remove, items] => do
    assertPathArg path false
    check (isIndex index) "p index"
    check (isIndex remove) "p remove"
    check (isArray items) "p items"
  | .p, _ => .error (.typeError "p arity")
  | .m, [path, permutation] => do
    assertPathArg path false
    assertPermutation permutation
  | .m, _ => .error (.typeError "m arity")
  | .define, _ => .error (.unknownVerb Verb.define.value)

def assertValidOp : JsValue → Checked
  | .arr (verb :: args) =>
    match verbOf verb with
    | none => .error (.unknownVerb verb)
    | some verb => assertValidArgs verb args
  | _ => .error (.typeError "op is not a tuple")

/-- `okRef`: a path, or the ID of one. -/
def okRef : JsValue → Checked
  | .prim (.num n) => check (isIndex (.prim (.num n))) "bad path id"
  | .notFinite => .error (.typeError "bad path id")
  | .arr path => assertSafePath path
  | _ => .error (.typeError "path is not an array")

def isUndefined : JsValue → Bool
  | .undefined => true
  | _ => false

def assertSplice (index remove items : JsValue) : Checked := do
  check (isIndex index) "p index"
  check (isIndex remove) "p remove"
  check (isArray items) "p items"

def assertValidWireArgs : Verb → List JsValue → Checked
  | .r, [_] => .ok ()
  | .r, _ => .error (.typeError "r arity")
  | .s, [ref, _] => okRef ref
  | .s, [_] => .ok ()
  | .s, _ => .error (.typeError "s arity")
  | .d, [ref] => okRef ref
  | .d, [] => .ok ()
  | .d, _ => .error (.typeError "d arity")
  | .a, [ref, text] => do
    okRef ref
    check (isString text) "a value"
  | .a, [text] => check (isString text) "a value"
  | .a, _ => .error (.typeError "a arity")
  | .t, [ref, count] => do
    okRef ref
    check (isIndex count) "t count"
  | .t, [count] => check (isIndex count) "t count"
  | .t, _ => .error (.typeError "t arity")
  | .p, [ref, index, remove, items] => do
    check (!isUndefined items) "p arity"
    okRef ref
    assertSplice index remove items
  | .p, [index, remove, items] => do
    check (!isUndefined items) "p arity"
    assertSplice index remove items
  | .p, _ => .error (.typeError "p arity")
  | .m, [ref, permutation] => do
    okRef ref
    assertPermutation permutation
  | .m, [permutation] => assertPermutation permutation
  | .m, _ => .error (.typeError "m arity")
  | .define, [id, .arr path] => do
    check (isIndex id) "# shape"
    assertSafePath path
  | .define, _ => .error (.typeError "# shape")

def assertValidWireOp : JsValue → Checked
  | .arr (verb :: args) =>
    match verbOf verb with
    | none => .error (.unknownVerb verb)
    | some verb => assertValidWireArgs verb args
  | _ => .error (.typeError "op is not a tuple")

/-! ## Decoder -/

/-- The dictionary of a decoder, which every batch and every failure leaves behind. -/
abbrev Paths := List (ℚ × List JsValue)

/-- A decoder in the middle of a batch: the dictionary, and the last path of the batch. -/
structure Decoding where
  paths : Paths
  previous : Option (List JsValue)

def isShort (verb : Verb) (args : List JsValue) : Bool :=
  match verb with
  | .d => args.length == 0
  | .p => args.length == 3
  | _ => args.length == 1

/-- The path an operation names: inline, by its ID, or the one before. -/
def pathOf (st : Decoding) (short : Bool) (args : List JsValue) : Except DecodeError (List JsValue) :=
  if short then
    match st.previous with
    | none => .error (.path [])
    | some path => .ok path
  else
    match args.head? with
    | some (.prim (.num id)) =>
      match Assoc.get? st.paths id with
      | none => .error (.pathId id)
      | some path => .ok path
    | some (.arr path) => .ok path
    -- the check refuses every other reference
    | _ => .error (.path [])

def decodeEdit (st : Decoding) (verb : Verb) (args : List JsValue) : Except DecodeError
    (Decoding × Option JsValue) :=
  let short := isShort verb args
  match pathOf st short args with
  | .error e => .error e
  | .ok path =>
    if verb ≠ .p ∧ verb ≠ .m ∧ path.isEmpty then .error (.path path)
    else
      .ok ({ st with previous := if short then st.previous else some path },
        some (.arr (verb.value :: .arr path :: (if short then args else args.tail))))

def decodeVerb (st : Decoding) : Verb → List JsValue → Except DecodeError (Decoding × Option JsValue)
  | .define, args =>
    match args with
    | [.prim (.num id), .arr path] =>
      (assertSafePath path).map (fun _ => ({ st with paths := Assoc.set st.paths id path }, none))
    -- the check refuses every other definition
    | _ => .ok (st, none)
  | .r, args => .ok ({ paths := [], previous := none }, some (.arr (Verb.r.value :: args)))
  | verb, args => decodeEdit st verb args

/-- One operation of a batch, with what it puts out. -/
def decodeOp (st : Decoding) (op : JsValue) : Except DecodeError (Decoding × Option JsValue) :=
  match assertValidWireOp op, op with
  | .error e, _ => .error e
  | .ok _, .arr (verb :: args) =>
    match verbOf verb with
    | none => .ok (st, none)
    | some verb => decodeVerb st verb args
  | .ok _, _ => .ok (st, none)

/-- The operations of a batch. A failure keeps what the dictionary holds by then. -/
def decodeOps (st : Decoding) : List JsValue → Paths × Except DecodeError (List JsValue)
  | [] => (st.paths, .ok [])
  | op :: wire =>
    match decodeOp st op with
    | .error e => (st.paths, .error e)
    | .ok (st, out) =>
      let (paths, rest) := decodeOps st wire
      (paths, rest.map (fun ops => out.toList ++ ops))

/-- `decoder().decode`: the previous path is scoped to the batch. -/
def decode (paths : Paths) (wire : List JsValue) : Paths × Except DecodeError (List JsValue) :=
  decodeOps { paths := paths, previous := none } wire

def decoder : Machine Paths (List JsValue) (Except DecodeError (List JsValue)) := { start := [], step := decode }

end PiAgent.Delta.Raw
