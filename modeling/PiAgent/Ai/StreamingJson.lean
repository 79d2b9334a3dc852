import PiAgent.Chord.JsonText

/-!
# JSON that is still streaming

`parseStreamingJson` of `json-parse.ts` reads a JSON text that may be incomplete, and
gives an object in any case. What `JSON.parse` and `partial-json` make of a text, and
the text of a number, are parameters.
-/

namespace PiAgent.Ai

/-! ## Texts -/

/-- `\s`, as `trim` has it. -/
def isWhitespace (u : UInt16) : Bool :=
  (9 ≤ u && u ≤ 13) || (0x2000 ≤ u && u ≤ 0x200A) || u ∈ [32, 0xA0, 0x1680, 0x2028, 0x2029, 0x202F, 0x205F, 0x3000, 0xFEFF]

def isControlCharacter (u : UInt16) : Bool := u ≤ 0x1F

def escapeControlCharacter (u : UInt16) : JsString :=
  match shortEscape u with
  | some e => [92, e]
  | none => unicodeEscape u

def isHexDigit (u : UInt16) : Bool := (48 ≤ u && u ≤ 57) || (65 ≤ u && u ≤ 70) || (97 ≤ u && u ≤ 102)

/-- The letters a backslash may stand before in a string. -/
def validEscapes : JsString := [34, 92, 47, 98, 102, 110, 114, 116, 117]

/-- The loop of `repairJson`, in a string or outside of one. -/
def repairFrom : Bool → JsString → JsString
  | _, [] => []
  | false, c :: rest => c :: repairFrom (c == 34) rest
  | true, 92 :: [] => [92, 92]
  | true, 92 :: 117 :: a :: b :: c :: d :: rest =>
    if isHexDigit a && isHexDigit b && isHexDigit c && isHexDigit d then
      92 :: 117 :: a :: b :: c :: d :: repairFrom true rest
    else 92 :: 117 :: repairFrom true (a :: b :: c :: d :: rest)
  | true, 92 :: e :: rest =>
    if e ∈ validEscapes then 92 :: e :: repairFrom true rest else 92 :: 92 :: repairFrom true (e :: rest)
  | true, c :: rest =>
    if c = 34 then c :: repairFrom false rest
    else (if isControlCharacter c then escapeControlCharacter c else [c]) ++ repairFrom true rest

def repairJson (json : JsString) : JsString := repairFrom false json

/-! ## Readers and the writer -/

/-- What the readers of JSON texts give, `none` where they throw, and how a number is written. -/
structure JsonTexts where
  numberText : ℚ → JsString
  jsonParse : JsString → Option JsonValue
  /-- `parse` of `partial-json`; no value is `null`. -/
  partialParse : JsString → Option JsonValue

namespace JsonTexts

variable (P : JsonTexts)

def primitiveText : Primitive → JsString
  | .null => js "null"
  | .bool b => if b then js "true" else js "false"
  | .num n => P.numberText n
  | .str s => quote s

mutual

/-- `JSON.stringify` -/
def stringify : JsonValue → JsString
  | .prim p => P.primitiveText p
  | .arr items => 91 :: (itemsText items ++ [93])
  | .obj fields => 123 :: (fieldsText fields ++ [125])

def itemsText : List JsonValue → JsString
  | [] => []
  | [item] => stringify item
  | item :: items => stringify item ++ 44 :: itemsText items

def fieldsText : List (JsString × JsonValue) → JsString
  | [] => []
  | [field] => fieldText field
  | field :: fields => fieldText field ++ 44 :: fieldsText fields

def fieldText : JsString × JsonValue → JsString
  | (key, value) => quote key ++ 58 :: stringify value

end

def parseJsonWithRepair (json : JsString) : Option JsonValue :=
  match P.jsonParse json with
  | some value => some value
  | none => if repairJson json ≠ json then P.jsonParse (repairJson json) else none

/-- `result ?? {}` -/
def orEmpty : JsonValue → JsonValue
  | .prim .null => .obj []
  | value => value

def parseStreamingJson (partialJson : JsString) : JsonValue :=
  if partialJson.all isWhitespace then .obj []
  else
    match P.parseJsonWithRepair partialJson with
    | some value => value
    | none =>
      match P.partialParse partialJson with
      | some result => orEmpty result
      | none =>
        match P.partialParse (repairJson partialJson) with
        | some result => orEmpty result
        | none => .obj []

@[simp] theorem parseStreamingJson_nil : P.parseStreamingJson [] = .obj [] := rfl

/-- A value that its text gives back, as JSON values do. -/
def IsJson (value : JsonValue) : Prop := P.parseStreamingJson (P.stringify value) = value

end JsonTexts

end PiAgent.Ai
