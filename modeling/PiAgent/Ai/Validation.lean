import PiAgent.Ai.StreamingJson

/-!
# Validation of tool arguments

The coercion of `validation.ts`. The compiled validator is `check`, which says what the keywords of
JSON Schema say. Arguments are JSON; what an object inherits are functions, which `in` finds too.
-/

namespace PiAgent.Ai.Validation

/-! ## Values -/

inductive Value where
  | prim (p : Primitive)
  | arr (items : List Value)
  | obj (fields : List (JsString × Value))
  /-- A function of `Object.prototype`. -/
  | native (name : JsString)

def INHERITED : List JsString :=
  ["constructor", "__defineGetter__", "__defineSetter__", "hasOwnProperty", "__lookupGetter__", "__lookupSetter__",
    "isPrototypeOf", "propertyIsEnumerable", "toString", "valueOf", "__proto__", "toLocaleString"].map js

/-- `object[key]` if `key in object`. -/
def member (fields : List (JsString × Value)) (key : JsString) : Option Value :=
  (Assoc.get? fields key).or (if INHERITED.contains key then some (.native key) else none)

def isNull : Value → Bool
  | .prim .null => true
  | _ => false

mutual

def isCloneable : Value → Bool
  | .prim _ => true
  | .arr items => areCloneable items
  | .obj fields => fieldsCloneable fields
  | .native _ => false

def areCloneable : List Value → Bool
  | [] => true
  | item :: items => isCloneable item && areCloneable items

def fieldsCloneable : List (JsString × Value) → Bool
  | [] => true
  | (_, value) :: fields => isCloneable value && fieldsCloneable fields

end

mutual

/-- `JSON.stringify(a) === JSON.stringify(b)` up to the order of keys, as `enum` compares. -/
def same : Value → Value → Bool
  | .prim p, .prim q => p = q
  | .arr xs, .arr ys => sameItems xs ys
  | .obj fs, .obj gs => fs.length = gs.length && sameFields fs gs
  | .native a, .native b => a = b
  | _, _ => false

def sameItems : List Value → List Value → Bool
  | [], [] => true
  | x :: xs, y :: ys => same x y && sameItems xs ys
  | _, _ => false

def sameFields : List (JsString × Value) → List (JsString × Value) → Bool
  | [], _ => true
  | (key, x) :: fs, gs => (match Assoc.get? gs key with | none => false | some y => same x y) && sameFields fs gs

end

/-! ## Schemas -/

inductive SchemaType where
  | number
  | integer
  | boolean
  | string
  | null
  | array
  | object
  deriving DecidableEq

/-- `minimum`, `minLength` and the like. -/
inductive Bound where
  | minimum (n : ℚ)
  | maximum (n : ℚ)
  | exclusiveMinimum (n : ℚ)
  | exclusiveMaximum (n : ℚ)
  | minLength (n : ℕ)
  | maxLength (n : ℕ)
  | minItems (n : ℕ)
  | maxItems (n : ℕ)
  | minProperties (n : ℕ)
  | maxProperties (n : ℕ)

mutual

/-- A schema without references. An empty list stands for a keyword that is not there. -/
inductive Schema where
  | mk (types : List SchemaType) (properties : List (JsString × Schema)) (required : List JsString) (items : Items)
      (prefixItems : List Schema) (additionalProperties : Additional) (patternProperties : List (JsString × Schema))
      (enum : List Value) (bounds : List Bound) (allOf anyOf oneOf : List Schema)

inductive Items where
  | absent
  | all (schema : Schema)
  | each (schemas : List Schema)

inductive Additional where
  | absent
  | bool (allowed : Bool)
  | schema (schema : Schema)

end

/-- Texts of numbers and lengths of texts are JavaScript's, a pattern is a regular expression, and
`convert` is what `Value.Convert` leaves in the arguments. -/
structure Runtime where
  numberText : ℚ → JsString
  /-- `Number(text)` where it is finite. -/
  toNumber : JsString → Option ℚ
  textLength : JsString → ℕ
  test : JsString → JsString → Bool
  convert : Schema → Value → Value

def matchesJsonType : Value → SchemaType → Bool
  | .prim (.num _), .number => true
  | .prim (.num n), .integer => n.den = 1
  | .prim (.bool _), .boolean => true
  | .prim (.str _), .string => true
  | .prim .null, .null => true
  | .arr _, .array => true
  | .obj _, .object => true
  | _, _ => false

/-! ## The validator -/

variable (R : Runtime)

def meets : Value → Bound → Bool
  | .prim (.num n), .minimum m => m ≤ n
  | .prim (.num n), .maximum m => n ≤ m
  | .prim (.num n), .exclusiveMinimum m => m < n
  | .prim (.num n), .exclusiveMaximum m => n < m
  | .prim (.str s), .minLength m => m ≤ R.textLength s
  | .prim (.str s), .maxLength m => R.textLength s ≤ m
  | .arr items, .minItems m => m ≤ items.length
  | .arr items, .maxItems m => items.length ≤ m
  | .obj fields, .minProperties m => m ≤ fields.length
  | .obj fields, .maxProperties m => fields.length ≤ m
  | _, _ => true

/-- Whether no `properties` and no pattern names the key. -/
def isAdditional (properties patterns : List (JsString × Schema)) (key : JsString) : Bool :=
  !(properties.any (fun p => p.1 = key)) && !(patterns.any (fun p => R.test p.1 key))

mutual

def check : Schema → Value → Bool
  | .mk types properties required items prefixItems additional patterns enum bounds allOf anyOf oneOf, value =>
    (types.isEmpty || types.any (matchesJsonType value)) &&
      (enum.isEmpty || enum.any (same value)) &&
      bounds.all (meets R value) &&
      checkAll allOf value &&
      (anyOf.isEmpty || 1 ≤ checkCount anyOf value) &&
      (oneOf.isEmpty || checkCount oneOf value = 1) &&
      (match value with
      | .obj fields =>
        required.all (Assoc.has fields) &&
          checkProperties properties fields &&
          checkPatterns patterns fields &&
          checkAdditional additional (fields.filter (fun p => isAdditional R properties patterns p.1))
      | .arr values => checkEach prefixItems values && checkItems items prefixItems.length values
      | _ => true)

def checkAll : List Schema → Value → Bool
  | [], _ => true
  | schema :: rest, value => check schema value && checkAll rest value

def checkCount : List Schema → Value → ℕ
  | [], _ => 0
  | schema :: rest, value => (if check schema value then 1 else 0) + checkCount rest value

def checkProperties : List (JsString × Schema) → List (JsString × Value) → Bool
  | [], _ => true
  | (key, schema) :: rest, fields =>
    (match Assoc.get? fields key with
    | none => true
    | some value => check schema value) && checkProperties rest fields

def checkPatterns : List (JsString × Schema) → List (JsString × Value) → Bool
  | [], _ => true
  | (pattern, schema) :: rest, fields =>
    fields.all (fun p => !R.test pattern p.1 || check schema p.2) && checkPatterns rest fields

def checkAdditional : Additional → List (JsString × Value) → Bool
  | .absent, _ => true
  | .bool allowed, fields => allowed || fields.isEmpty
  | .schema schema, fields => fields.all (fun p => check schema p.2)

def checkEach : List Schema → List Value → Bool
  | schema :: schemas, value :: values => check schema value && checkEach schemas values
  | _, _ => true

def checkItems : Items → ℕ → List Value → Bool
  | .absent, _, _ => true
  | .all schema, count, values => (values.drop count).all (check schema)
  | .each schemas, _, values => checkEach schemas values

end

/-! ## Coercion -/

def coercePrimitiveByType : Primitive → SchemaType → Primitive
  | .null, .number => .num 0
  | .str s, .number => if s.all isWhitespace then .str s else ((R.toNumber s).map Primitive.num).getD (.str s)
  | .bool b, .number => .num (if b then 1 else 0)
  | .null, .integer => .num 0
  | .str s, .integer =>
    if s.all isWhitespace then .str s
    else
      match R.toNumber s with
      | some n => if n.den = 1 then .num n else .str s
      | none => .str s
  | .bool b, .integer => .num (if b then 1 else 0)
  | .null, .boolean => .bool false
  | .str s, .boolean => if s = js "true" then .bool true else if s = js "false" then .bool false else .str s
  | .num n, .boolean => if n = 1 then .bool true else if n = 0 then .bool false else .num n
  | .null, .string => .str []
  | .num n, .string => .str (R.numberText n)
  | .bool b, .string => .str (js (if b then "true" else "false"))
  | .str [], .null => .null
  | .num n, .null => if n = 0 then .null else .num n
  | .bool false, .null => .null
  | p, _ => p

/-- The first type that changes the value; a value that matches one of several types is kept. -/
def coerceByTypes (types : List SchemaType) : Value → Value
  | .prim p =>
    if 1 < types.length ∧ types.any (matchesJsonType (.prim p)) = true then .prim p
    else .prim (((types.map (coercePrimitiveByType R p)).find? (fun candidate => candidate ≠ p)).getD p)
  | value => value

inductive Failure where
  /-- `structuredClone` of a function. -/
  | dataClone
  | invalid
  deriving DecidableEq

def structuredClone (value : Value) : Except Failure Value :=
  if isCloneable value then .ok value else .error .dataClone

mutual

def coerceWithJsonSchema : Schema → Value → Except Failure Value
  | .mk types properties _ items _ additional _ _ _ allOf anyOf oneOf, value => do
    let value ← coerceAll allOf value
    let value ← (if 1 ≤ checkCount R anyOf value then .ok value else coerceWithUnionSchema anyOf value)
    let value ← (if 1 ≤ checkCount R oneOf value then .ok value else coerceWithUnionSchema oneOf value)
    match coerceByTypes R types value with
    | .obj fields =>
      if types.contains .object then do
        let fields ← coerceProperties properties fields
        let fields ← coerceAdditional additional (properties.map Prod.fst) fields
        return .obj fields
      else return .obj fields
    | .arr values => if types.contains .array then return .arr (← coerceItems items values) else return .arr values
    | value => return value

def coerceAll : List Schema → Value → Except Failure Value
  | [], value => .ok value
  | schema :: rest, value => do coerceAll rest (← coerceWithJsonSchema schema value)

/-- The members in turn, each on a clone; a value that some member accepts as it is does not come here. -/
def coerceWithUnionSchema : List Schema → Value → Except Failure Value
  | [], value => .ok value
  | schema :: rest, value => do
    let coerced ← coerceWithJsonSchema schema (← structuredClone value)
    if check R schema coerced then return coerced else coerceWithUnionSchema rest value

def coerceProperties : List (JsString × Schema) → List (JsString × Value) → Except Failure (List (JsString × Value))
  | [], fields => .ok fields
  | (key, schema) :: rest, fields =>
    match member fields key with
    | none => coerceProperties rest fields
    | some value => do coerceProperties rest (Assoc.set fields key (← coerceWithJsonSchema schema value))

def coerceAdditional : Additional → List JsString → List (JsString × Value) →
    Except Failure (List (JsString × Value))
  | .schema schema, defined, fields =>
    fields.mapM (fun p => do
      if defined.contains p.1 then return p
      else return (p.1, ← coerceWithJsonSchema schema p.2))
  | _, _, fields => .ok fields

def coerceItems : Items → List Value → Except Failure (List Value)
  | .absent, values => .ok values
  | .all schema, values => values.mapM (coerceWithJsonSchema schema)
  | .each schemas, values => coerceEach schemas values

def coerceEach : List Schema → List Value → Except Failure (List Value)
  | schema :: schemas, value :: values => do
    return (← coerceWithJsonSchema schema value) :: (← coerceEach schemas values)
  | _, values => .ok values

end

mutual

/-- Properties that are null, not required and not allowed to be null are removed. -/
def normalizeOptionalNulls : Schema → Value → Value
  | .mk _ _ _ items _ _ _ _ _ _ _ _, .arr values => .arr (normalizeItems items values)
  | .mk _ properties required _ _ _ _ _ _ _ _ _, .obj fields =>
    .obj (normalizeProperties properties required fields)
  | _, value => value

def normalizeItems : Items → List Value → List Value
  | .absent, values => values
  | .all schema, values => values.map (normalizeOptionalNulls schema)
  | .each schemas, values => normalizeEach schemas values

def normalizeEach : List Schema → List Value → List Value
  | schema :: schemas, value :: values => normalizeOptionalNulls schema value :: normalizeEach schemas values
  | _, values => values

def normalizeProperties : List (JsString × Schema) → List JsString → List (JsString × Value) →
    List (JsString × Value)
  | [], _, fields => fields
  | (key, schema) :: rest, required, fields =>
    -- a function that is inherited is neither null nor changed
    match Assoc.get? fields key with
    | none => normalizeProperties rest required fields
    | some value =>
      if isNull value && !required.contains key && !check R schema (.prim .null) then
        normalizeProperties rest required (Assoc.del fields key)
      else normalizeProperties rest required (Assoc.set fields key (normalizeOptionalNulls schema value))

end

/-! ## Tool calls -/

structure Tool where
  parameters : Schema
  /-- Built by TypeBox, so that no coercion follows the conversion. -/
  typeBox : Bool

structure ToolCall where
  arguments : Value

/-- `Value.Convert(schema, args)`: what it returns is not used, and a primitive has no place to write to. -/
def convertInPlace (schema : Schema) : Value → Value
  | .prim p => .prim p
  | .native name => .native name
  | args => R.convert schema args

/-- What is returned or thrown, and the call afterwards: only a clone of its arguments is written to. -/
def validateToolArguments (tool : Tool) (toolCall : ToolCall) : Except Failure Value × ToolCall :=
  let outcome : Except Failure Value := do
    let args ← structuredClone toolCall.arguments
    let args := convertInPlace R tool.parameters (normalizeOptionalNulls R tool.parameters args)
    let accept (args : Value) : Except Failure Value :=
      if check R tool.parameters args then .ok args else .error .invalid
    if tool.typeBox then accept args
    else
      let coerced ← coerceWithJsonSchema R tool.parameters args
      match args with
      | .prim _ | .native _ =>
        -- `coerced !== args`: what a primitive is coerced to is not written back
        if same coerced args then accept args
        else if check R tool.parameters coerced then return coerced
        else return args
      -- an array or an object takes the entries of what it is coerced to, which is one of its kind and length
      | _ => accept coerced
  (outcome, toolCall)

end PiAgent.Ai.Validation
