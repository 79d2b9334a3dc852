import PiAgent.Chord.JsonText

/-!
# Contract coverage

`fits` of `schema.ts`: structural subtyping of JSON schemas as data. A schema is
`undefined` or a JSON value. `new RegExp(pattern, "u").test(name)` is a parameter.
-/

namespace PiAgent.Schemas

open List Assoc JsonValue

/-- The own keys of an object, each with its value. -/
abbrev Schema := List (JsString × JsonValue)

def asSchema : Option JsonValue → Schema
  | some (.obj fields) => fields
  | some (.arr items) => items.zipIdx.map (fun p => (decimal p.2, p.1))
  | some (.prim (.bool false)) => [(js "not", .obj [])]
  | _ => []

/-- Equality of the canonical texts: `undefined` and `null` have one text, and the order of keys has no part. -/
def deepEqual (a b : Option JsonValue) : Bool := equalJson (a.getD null) (b.getD null)

def CONSTRAINTS : List JsString :=
  [js "minLength", js "maxLength", js "pattern", js "format", js "minimum", js "maximum",
    js "exclusiveMinimum", js "exclusiveMaximum", js "multipleOf", js "minItems", js "maxItems",
    js "uniqueItems", js "minProperties", js "maxProperties"]

/-- Keywords `fits` reasons about. -/
def KNOWN : List JsString :=
  CONSTRAINTS ++ [js "type", js "properties", js "required", js "additionalProperties", js "patternProperties",
    js "items", js "additionalItems", js "const", js "enum", js "anyOf", js "parameters", js "returnType"]

def ANNOTATIONS : List JsString :=
  [js "title", js "description", js "default", js "examples", js "$id", js "$schema", js "$comment",
    js "readOnly", js "writeOnly", js "deprecated"]

def withoutAnnotations (schema : Schema) : Schema := schema.filter (fun p => p.1 ∉ ANNOTATIONS)

/-- The keywords `fits` looks at. -/
def keywords (schema : Option JsonValue) : Schema := withoutAnnotations (asSchema schema)

/-- The names every object inherits: `key in object` is true of them. -/
def prototypeNames : List JsString :=
  [js "constructor", js "__proto__", js "hasOwnProperty", js "isPrototypeOf", js "propertyIsEnumerable",
    js "toLocaleString", js "toString", js "valueOf", js "__defineGetter__", js "__defineSetter__",
    js "__lookupGetter__", js "__lookupSetter__"]

/-- `key in object` -/
def isIn (key : JsString) (schema : Schema) : Bool := has schema key || prototypeNames.contains key

/-- `typeof value === "object"` -/
def isObject : Option JsonValue → Bool
  | some (.prim .null) | some (.arr _) | some (.obj _) => true
  | _ => false

/-- `value === false` -/
def isFalse : Option JsonValue → Bool
  | some (.prim (.bool false)) => true
  | _ => false

/-- `value !== undefined && typeof value !== "boolean"` -/
def isSchemaKeyword : Option JsonValue → Bool
  | none | some (.prim (.bool _)) => false
  | _ => true

def stringOf : JsonValue → Option JsString
  | .prim (.str s) => some s
  | _ => none

/-- `value ?? []`, of a value that is an array when it is there. -/
def listOf : Option JsonValue → List JsonValue
  | some (.arr items) => items
  | _ => []

/-- `value ?? []`, of an array of strings. -/
def stringsOf (value : Option JsonValue) : List JsString := (listOf value).filterMap stringOf

def typesOf (schema : Schema) : Option (List JsString) :=
  match get? schema (js "type") with
  | some (.prim (.str s)) => some [s]
  | some (.arr items) => some (items.filterMap stringOf)
  | _ => none

/-- The schemas under the names of `properties` and the like. -/
def schemasOf (schema : Schema) (keyword : JsString) : Schema := asSchema (get? schema keyword)

/-! ## The check, over the check of the parts -/

section Step

variable (test : JsString → JsString → Bool) (fits : Option JsonValue → Option JsonValue → Bool)

def objectFits (sub sup : Schema) : Bool :=
  let subProperties := schemasOf sub (js "properties")
  let supProperties := schemasOf sup (js "properties")
  let subAdditional := get? sub (js "additionalProperties")
  let supPatterns := schemasOf sup (js "patternProperties")
  let subPatterns := schemasOf sub (js "patternProperties")
  (stringsOf (get? sup (js "required"))).all
      (fun key => (stringsOf (get? sub (js "required"))).contains key) &&
  supProperties.all (fun p =>
    if isIn p.1 subProperties then fits (get? subProperties p.1) (some p.2)
    else !isObject subAdditional || fits subAdditional (some p.2)) &&
  (!isFalse (get? sup (js "additionalProperties")) ||
    isFalse subAdditional && subProperties.all (fun p => isIn p.1 supProperties)) &&
  (supPatterns.isEmpty || (isFalse subAdditional || !subPatterns.isEmpty) && supPatterns.all (fun p =>
      subProperties.all (fun q => isIn q.1 supProperties || !test p.1 q.1 || fits (some q.2) (some p.2)) &&
      (subPatterns.isEmpty || isIn p.1 subPatterns && fits (get? subPatterns p.1) (some p.2))) &&
    subPatterns.all (fun p => isIn p.1 supPatterns))

def arrayFits (sub sup : Schema) : Bool :=
  match get? sub (js "items"), get? sup (js "items") with
  | some (.arr subItems), some (.arr supItems) =>
    subItems.length == supItems.length && subItems.zipIdx.all (fun p => fits (some p.1) supItems[p.2]?)
  | _, some (.arr _) => false
  | some (.arr subItems), supItems => subItems.all (fun item => fits (some item) supItems)
  | subItems, supItems => fits subItems supItems

/-- A function that accepts fewer parameters is fine; each shared parameter is contravariant. -/
def functionFits (sub sup : Schema) : Bool :=
  let subParameters := listOf (get? sub (js "parameters"))
  let supParameters := listOf (get? sup (js "parameters"))
  decide (subParameters.length ≤ supParameters.length) &&
  subParameters.zipIdx.all (fun p => fits supParameters[p.2]? (some p.1)) &&
  fits (get? sub (js "returnType")) (get? sup (js "returnType"))

/-- The loop over the constraints: each one of `sup` is one of `sub`, with an equal argument. -/
def constraintsFit (sub sup : Schema) : Bool :=
  CONSTRAINTS.all (fun key => !has sup key || deepEqual (get? sub key) (get? sup key))

def typesFit (subTypes supTypes : List JsString) : Bool :=
  subTypes.all (fun type =>
    supTypes.contains type || (type == js "integer" && supTypes.contains (js "number")))

/-- `"const" in schema || Array.isArray(schema.enum)` -/
def hasValues (schema : Schema) : Bool :=
  match get? schema (js "const"), get? schema (js "enum") with
  | some _, _ | _, some (.arr _) => true
  | _, _ => false

/-- The values a schema with `const` or `enum` allows. -/
def valuesOf (schema : Schema) : Option (List JsonValue) :=
  match get? schema (js "const"), get? schema (js "enum") with
  | some value, _ => some [value]
  | none, some (.arr values) => some values
  | none, _ => none

/-- What is left of `fits` for a `sup` without `anyOf`, `const` and `enum`. -/
def typedFits (sub sup : Schema) : Bool :=
  constraintsFit sub sup &&
  match typesOf sup, typesOf sub with
  | some supTypes, some subTypes =>
    typesFit subTypes supTypes &&
    (hasValues sub || (!subTypes.contains (js "object") || objectFits test fits sub sup) &&
      (!subTypes.contains (js "array") || arrayFits fits sub sup) &&
      (!subTypes.contains (js "function") || functionFits fits sub sup))
  | _, _ => false

/-- `fits` for a `sup` without `anyOf`. -/
def plainFits (sub sup : Schema) : Bool :=
  match get? sup (js "const"), get? sup (js "enum") with
  | some value, _ =>
    has sub (js "const") && deepEqual (get? sub (js "const")) (some value)
  | none, some (.arr allowed) =>
    match valuesOf sub with
    | some values => values.all (fun item => allowed.any (fun value => deepEqual (some value) (some item)))
    | none => false
  | none, _ => typedFits test fits sub sup

/-- `fits` from the line that looks at `anyOf`. -/
def unionFits (sub sup : Schema) : Bool :=
  match get? sub (js "anyOf"), get? sup (js "anyOf") with
  | some (.arr branches), _ => branches.all (fun branch => fits (some branch) (some (.obj sup)))
  | _, some (.arr branches) => branches.any (fun branch => fits (some (.obj sub)) (some branch))
  | _, _ => plainFits test fits sub sup

/-- `fits`, its calls of itself going to the argument. -/
def fitsStep (subSchema supSchema : Option JsonValue) : Bool :=
  let sub := keywords subSchema
  let sup := keywords supSchema
  if sup.isEmpty then true
  else if deepEqual (some (.obj sub)) (some (.obj sup)) then true
  else if sup.any (fun p => p.1 ∉ KNOWN) then false
  else if isSchemaKeyword (get? sup (js "additionalProperties")) then false
  else unionFits test fits sub sup

end Step

/-! ## The recursion ends -/

mutual

def weight : JsonValue → ℕ
  | .prim _ => 3
  | .arr items => 1 + itemsWeight items
  | .obj fields => 1 + fieldsWeight fields

def itemsWeight : List JsonValue → ℕ
  | [] => 0
  | x :: xs => 1 + weight x + itemsWeight xs

def fieldsWeight : Schema → ℕ
  | [] => 0
  | (_, v) :: fields => 1 + weight v + fieldsWeight fields

end

/-- What `undefined` weighs does not exceed the weight of any schema. -/
def load : Option JsonValue → ℕ
  | none => 1
  | some v => weight v

variable (v : JsonValue)

theorem weight_pos : 1 ≤ weight v := by
  cases v <;> simp only [weight] <;> omega

theorem weight_lt_arr (xs : List JsonValue) (x : JsonValue) (h : x ∈ xs) : weight x < weight (.arr xs) := by
  simp only [weight]
  induction xs with
  | nil => simp at h
  | cons y xs ih =>
    simp only [itemsWeight]
    rcases mem_cons.mp h with rfl | h
    · omega
    · have := ih h
      omega

theorem weight_lt_obj (fields : Schema) (k : JsString) (v : JsonValue) (h : (k, v) ∈ fields) :
    weight v + 1 < weight (.obj fields) := by
  simp only [weight]
  induction fields with
  | nil => simp at h
  | cons p fields ih =>
    obtain ⟨j, w⟩ := p
    simp only [fieldsWeight]
    rcases mem_cons.mp h with h | h
    · cases h
      omega
    · have := ih h
      omega

theorem fieldsWeight_filter (fields : Schema) (keep : JsString × JsonValue → Bool) :
    fieldsWeight (fields.filter keep) ≤ fieldsWeight fields := by
  induction fields with
  | nil => simp
  | cons p fields ih =>
    rw [filter_cons]
    split
    · simp only [fieldsWeight]
      omega
    · simp only [fieldsWeight]
      omega

theorem fieldsWeight_indexed (xs : List JsonValue) (i : ℕ) :
    fieldsWeight ((xs.zipIdx i).map (fun p => (decimal p.2, p.1))) = itemsWeight xs := by
  induction xs generalizing i with
  | nil => rfl
  | cons x xs ih => simp [zipIdx_cons, fieldsWeight, itemsWeight, ih]

variable (s : Option JsonValue)

theorem weight_asSchema : weight (.obj (asSchema s)) ≤ load s := by
  match s with
  | none => simp [asSchema, weight, fieldsWeight, load]
  | some (.obj fields) => simp [asSchema, load]
  | some (.arr items) => simp [asSchema, load, weight, fieldsWeight_indexed]
  | some (.prim (.bool false)) => simp [asSchema, load, weight, fieldsWeight]
  | some (.prim (.bool true)) => simp [asSchema, load, weight, fieldsWeight]
  | some (.prim .null) => simp [asSchema, load, weight, fieldsWeight]
  | some (.prim (.num _)) => simp [asSchema, load, weight, fieldsWeight]
  | some (.prim (.str _)) => simp [asSchema, load, weight, fieldsWeight]

theorem weight_keywords : weight (.obj (keywords s)) ≤ load s := by
  refine le_trans ?_ (weight_asSchema s)
  have := fieldsWeight_filter (asSchema s) (fun p => p.1 ∉ ANNOTATIONS)
  simp only [weight, keywords, withoutAnnotations] at this ⊢
  omega

variable (schema : Schema)

theorem load_get? (k : JsString) : load (get? schema k) ≤ weight (.obj schema) := by
  cases h : get? schema k with
  | none => exact weight_pos _
  | some v =>
    have := weight_lt_obj schema k v (mem_of_get? schema k v h)
    simp only [load]
    omega

theorem load_get?_lt (k : JsString) (h : schema ≠ []) : load (get? schema k) < weight (.obj schema) := by
  cases hk : get? schema k with
  | none =>
    obtain ⟨p, rest, rfl⟩ := exists_cons_of_ne_nil h
    simp only [load, weight, fieldsWeight]
    omega
  | some v =>
    have := weight_lt_obj schema k v (mem_of_get? schema k v hk)
    simp only [load]
    omega

theorem weight_mem_schemasOf (keyword k : JsString) (v : JsonValue)
    (h : (k, v) ∈ schemasOf schema keyword) : weight v < weight (.obj schema) := by
  have h₁ := weight_lt_obj _ k v h
  have h₂ := weight_asSchema (get? schema keyword)
  have h₃ := load_get? schema keyword
  unfold schemasOf at h₁
  omega

theorem load_get?_schemasOf (keyword k : JsString) :
    load (get? (schemasOf schema keyword) k) ≤ weight (.obj schema) := by
  have h₁ := load_get? (schemasOf schema keyword) k
  have h₂ := weight_asSchema (get? schema keyword)
  have h₃ := load_get? schema keyword
  unfold schemasOf at h₁ ⊢
  omega

theorem weight_mem_arr (keyword : JsString) (items : List JsonValue) (x : JsonValue)
    (h : get? schema keyword = some (.arr items)) (hx : x ∈ items) : weight x < weight (.obj schema) := by
  have h₁ := weight_lt_arr items x hx
  have h₂ := weight_lt_obj schema keyword _ (mem_of_get? schema keyword _ h)
  omega

theorem weight_mem_listOf (keyword : JsString) (x : JsonValue)
    (h : x ∈ listOf (get? schema keyword)) : weight x < weight (.obj schema) := by
  unfold listOf at h
  split at h
  · exact weight_mem_arr schema keyword _ x (by assumption) h
  · simp at h

theorem all_congr_mem {α : Type} (l : List α) (p q : α → Bool) (h : ∀ a ∈ l, p a = q a) : l.all p = l.all q := by
  induction l with
  | nil => rfl
  | cons a l ih =>
    rw [all_cons, all_cons, h a (by simp), ih (fun b hb => h b (by simp [hb]))]

theorem any_congr_mem {α : Type} (l : List α) (p q : α → Bool) (h : ∀ a ∈ l, p a = q a) : l.any p = l.any q := by
  induction l with
  | nil => rfl
  | cons a l ih =>
    rw [any_cons, any_cons, h a (by simp), ih (fun b hb => h b (by simp [hb]))]

variable (test : JsString → JsString → Bool)

section Congr

variable (f g : Option JsonValue → Option JsonValue → Bool)

/-- The two checks give one answer on every pair that weighs less than `n`. -/
def Agree (n : ℕ) : Prop := ∀ a b, load a + load b < n → f a b = g a b

variable (sub sup : Schema)

theorem objectFits_congr (h : Agree f g (weight (.obj sub) + weight (.obj sup))) :
    objectFits test f sub sup = objectFits test g sub sup := by
  have hsup : ∀ keyword p, p ∈ schemasOf sup keyword → load (some p.2) < weight (.obj sup) :=
    fun keyword p hp => weight_mem_schemasOf sup keyword p.1 p.2 hp
  have hproperties := all_congr_mem (schemasOf sup (js "properties"))
    (fun p => if isIn p.1 (schemasOf sub (js "properties")) then
        f (get? (schemasOf sub (js "properties")) p.1) (some p.2)
      else !isObject (get? sub (js "additionalProperties")) ||
        f (get? sub (js "additionalProperties")) (some p.2))
    (fun p => if isIn p.1 (schemasOf sub (js "properties")) then
        g (get? (schemasOf sub (js "properties")) p.1) (some p.2)
      else !isObject (get? sub (js "additionalProperties")) ||
        g (get? sub (js "additionalProperties")) (some p.2))
    (by
      intro p hp
      have hp := hsup _ p hp
      have h₁ := load_get?_schemasOf sub (js "properties") p.1
      have h₂ := load_get? sub (js "additionalProperties")
      simp only [h _ (some p.2) (by omega : load (get? (schemasOf sub (js "properties")) p.1) +
        load (some p.2) < _), h _ (some p.2) (by omega : load (get? sub (js "additionalProperties")) +
        load (some p.2) < _)])
  have hpatterns := all_congr_mem (schemasOf sup (js "patternProperties"))
    (fun p => (schemasOf sub (js "properties")).all
        (fun q => isIn q.1 (schemasOf sup (js "properties")) || !test p.1 q.1 || f (some q.2) (some p.2)) &&
      ((schemasOf sub (js "patternProperties")).isEmpty || isIn p.1 (schemasOf sub (js "patternProperties")) &&
        f (get? (schemasOf sub (js "patternProperties")) p.1) (some p.2)))
    (fun p => (schemasOf sub (js "properties")).all
        (fun q => isIn q.1 (schemasOf sup (js "properties")) || !test p.1 q.1 || g (some q.2) (some p.2)) &&
      ((schemasOf sub (js "patternProperties")).isEmpty || isIn p.1 (schemasOf sub (js "patternProperties")) &&
        g (get? (schemasOf sub (js "patternProperties")) p.1) (some p.2)))
    (by
      intro p hp
      have hp := hsup _ p hp
      have h₁ := load_get?_schemasOf sub (js "patternProperties") p.1
      refine congrArg₂ and (all_congr_mem _ _ _ (fun q hq => ?_)) ?_
      · have hq := weight_mem_schemasOf sub _ q.1 q.2 hq
        simp only [h (some q.2) (some p.2) (by simp only [load] at hp ⊢; omega)]
      · simp only [h _ (some p.2) (by omega : load (get? (schemasOf sub (js "patternProperties")) p.1) +
          load (some p.2) < _)])
  unfold objectFits
  simp only [hproperties, hpatterns]

section

variable (hne : sup ≠ []) (h : Agree f g (weight (.obj sub) + weight (.obj sup)))
include hne h

theorem arrayFits_congr : arrayFits f sub sup = arrayFits g sub sup := by
  have hsub := load_get? sub (js "items")
  have hsup := load_get?_lt sup (js "items") hne
  unfold arrayFits
  split
  · rename_i subItems supItems hs ht
    refine congrArg₂ and rfl (all_congr_mem _ _ _ (fun p hp => ?_))
    have hp := weight_mem_arr sub _ subItems p.1 hs (fst_mem_of_mem_zipIdx hp)
    refine h _ _ ?_
    cases hi : supItems[p.2]? with
    | none =>
      have := weight_pos (.obj sup)
      simp only [load]
      omega
    | some t =>
      have := weight_mem_arr sup _ supItems t ht (mem_of_getElem? hi)
      simp only [load]
      omega
  · rfl
  · rename_i hs _
    refine all_congr_mem _ _ _ (fun item hitem => h _ _ ?_)
    have : load (some item) < weight (.obj sub) := weight_mem_arr sub _ _ item hs hitem
    omega
  · exact h _ _ (by omega)

theorem functionFits_congr : functionFits f sub sup = functionFits g sub sup := by
  have hsub := load_get? sub (js "returnType")
  have hsup := load_get?_lt sup (js "returnType") hne
  unfold functionFits
  refine congrArg₂ and (congrArg₂ and rfl (all_congr_mem _ _ _ (fun p hp => ?_))) (h _ _ (by omega))
  have hp := weight_mem_listOf sub _ p.1 (fst_mem_of_mem_zipIdx hp)
  refine h _ _ ?_
  cases hi : (listOf (get? sup (js "parameters")))[p.2]? with
  | none =>
    have := weight_pos (.obj sup)
    simp only [load]
    omega
  | some t =>
    have := weight_mem_listOf sup _ t (mem_of_getElem? hi)
    simp only [load]
    omega

theorem plainFits_congr : plainFits test f sub sup = plainFits test g sub sup := by
  unfold plainFits typedFits
  rw [objectFits_congr test f g sub sup h, arrayFits_congr f g sub sup hne h, functionFits_congr f g sub sup hne h]

theorem unionFits_congr : unionFits test f sub sup = unionFits test g sub sup := by
  unfold unionFits
  split
  · rename_i hb
    refine all_congr_mem _ _ _ (fun branch hbranch => h _ _ ?_)
    have := weight_mem_arr sub _ _ branch hb hbranch
    simp only [load]
    omega
  · rename_i hb _
    refine any_congr_mem _ _ _ (fun branch hbranch => h _ _ ?_)
    have := weight_mem_arr sup _ _ branch hb hbranch
    simp only [load]
    omega
  · exact plainFits_congr test f g sub sup hne h

end

theorem fitsStep_congr (a b : Option JsonValue) (h : Agree f g (load a + load b)) :
    fitsStep test f a b = fitsStep test g a b := by
  have hsub := weight_keywords a
  have hsup := weight_keywords b
  unfold fitsStep
  by_cases hne : keywords b = []
  · simp [hne]
  · simp only [unionFits_congr test f g (keywords a) _ hne (fun x y hxy => h x y (by omega))]

end Congr

def fitsWith : ℕ → Option JsonValue → Option JsonValue → Bool
  | 0 => fun _ _ => false
  | n + 1 => fitsStep test (fitsWith n)

def fits (sub sup : Option JsonValue) : Bool := fitsWith test (load sub + load sup) sub sup

theorem load_pos : 1 ≤ load s := by
  cases s with
  | none => exact le_rfl
  | some v => exact weight_pos v

theorem fitsWith_stable (m n : ℕ) (a b : Option JsonValue) (hm : load a + load b ≤ m) (hn : load a + load b ≤ n) :
    fitsWith test m a b = fitsWith test n a b := by
  induction m generalizing n a b with
  | zero =>
    have := load_pos a
    omega
  | succ m ih =>
    cases n with
    | zero =>
      have := load_pos a
      omega
    | succ n => exact fitsStep_congr test _ _ a b (fun x y hxy => ih n x y (by omega) (by omega))

theorem fits_eq (a b : Option JsonValue) : fits test a b = fitsStep test (fits test) a b := by
  have hpos := load_pos a
  obtain ⟨n, hn⟩ : ∃ n, load a + load b = n + 1 := ⟨load a + load b - 1, by omega⟩
  have h : fitsStep test (fitsWith test n) a b = fitsStep test (fits test) a b :=
    fitsStep_congr test _ _ a b (fun x y hxy => fitsWith_stable test _ _ x y (by omega) le_rfl)
  unfold fits
  rw [hn]
  exact h

end PiAgent.Schemas
