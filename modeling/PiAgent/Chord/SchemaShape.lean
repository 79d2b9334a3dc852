import Mathlib.Logic.Relation
import PiAgent.Chord.SchemaMeaning

/-!
# The schemas TypeBox produces, and the pairs `fits` compares
-/

namespace PiAgent.Schemas

open Assoc JsonValue

/-! ## Shape -/

inductive Part : Option JsonValue → Option JsonValue → Prop
  | branch (s : Option JsonValue) (branches : List JsonValue) (branch : JsonValue)
      (h : get? (keywords s) (js "anyOf") = some (.arr branches)) (hm : branch ∈ branches) :
      Part s (some branch)
  | property (s : Option JsonValue) (name : JsString) (t : JsonValue)
      (h : get? (propertiesOf (keywords s)) name = some t) : Part s (some t)
  | pattern (s : Option JsonValue) (pattern : JsString) (t : JsonValue)
      (h : get? (patternsOf (keywords s)) pattern = some t) : Part s (some t)
  | additional (s : Option JsonValue) : Part s (get? (keywords s) (js "additionalProperties"))
  | item (s : Option JsonValue) (i : ℕ) : Part s (itemSchema (keywords s) i)

/-- The keywords of one object, record, union, literal, tuple or array of TypeBox, or of a primitive type. -/
structure Shaped (schema : Schema) : Prop where
  known : ∀ p ∈ schema, p.1 ∈ KNOWN
  union : ∀ v, get? schema (js "anyOf") = some v →
    (∃ branches, v = .arr branches) ∧ ∀ p ∈ schema, p.1 = js "anyOf" ∨ p.1 ∈ CONSTRAINTS
  required : ∀ name ∈ stringsOf (get? schema (js "required")), has (propertiesOf schema) name = true
  record : patternsOf schema = [] ∨ propertiesOf schema = [] ∧ ∃ p, patternsOf schema = [p]
  tuple : ∀ items, get? schema (js "items") = some (.arr items) →
    get? schema (js "additionalItems") = some (.prim (.bool false))
  const : ∀ v, get? schema (js "const") = some v → ∃ p, v = .prim p
  enum : ∀ values, get? schema (js "enum") = some (.arr values) → ∀ v ∈ values, ∃ p, v = .prim p
  arguments : ∀ keyword ∈ CONSTRAINTS, ∀ v, get? schema keyword = some v → ∃ p, v = .prim p ∧ p ≠ .null
  additional : ∀ v, get? schema (js "additionalProperties") = some v →
    (∃ b, v = .prim (.bool b)) ∨ ∃ fields, v = .obj fields
  types : ∀ types, typesOf schema = some types → js "function" ∉ types ∧
    (js "object" ∈ types → has schema (js "properties") = true ∨ has schema (js "patternProperties") = true)

/-- A schema as TypeBox produces it, without function types. -/
structure Produced (s : Option JsonValue) : Prop where
  wf : ∀ v, s = some v → Wf v
  shaped : ∀ t, Relation.ReflTransGen Part s t → t ≠ some (.prim (.bool false)) → Shaped (keywords t)

section Pairs

variable (test : JsString → JsString → Bool) (accepts : JsString → Primitive → Primitive → Prop)

/-- Every value of `a`, without the fields unknown to `a`, is a value of `b`. -/
def Covers (a b : Option JsonValue) : Prop :=
  ∀ v w, Valid test accepts a v → Strip test accepts a v w → Valid test accepts b w

/-! ## The pairs of schemas that an accepting `fits` comes to -/

def Identical (a b : Option JsonValue) : Prop :=
  deepEqual (some (.obj (keywords a))) (some (.obj (keywords b))) = true

instance (a b : Option JsonValue) : Decidable (Identical a b) := inferInstanceAs (Decidable (_ = true))

inductive Asks : Option JsonValue × Option JsonValue → Option JsonValue × Option JsonValue → Prop
  | left (a b : Option JsonValue) (hne : ¬ Identical a b) (branches : List JsonValue) (branch : JsonValue)
      (h : get? (keywords a) (js "anyOf") = some (.arr branches)) (hm : branch ∈ branches) :
      Asks (a, b) (some branch, some (.obj (keywords b)))
  | right (a b : Option JsonValue) (hne : ¬ Identical a b) (branches : List JsonValue) (branch : JsonValue)
      (h : get? (keywords b) (js "anyOf") = some (.arr branches))
      (hm : branches.find? (fun branch => fits test (some (.obj (keywords a))) (some branch)) = some branch) :
      Asks (a, b) (some (.obj (keywords a)), some branch)
  | property (a b : Option JsonValue) (hne : ¬ Identical a b) (name : JsString) (s t : JsonValue)
      (hs : get? (propertiesOf (keywords a)) name = some s)
      (ht : get? (propertiesOf (keywords b)) name = some t) : Asks (a, b) (some s, some t)
  | additional (a b : Option JsonValue) (hne : ¬ Identical a b) (name : JsString) (t : JsonValue)
      (hs : get? (propertiesOf (keywords a)) name = none)
      (ho : isObject (get? (keywords a) (js "additionalProperties")) = true)
      (ht : get? (propertiesOf (keywords b)) name = some t) :
      Asks (a, b) (get? (keywords a) (js "additionalProperties"), some t)
  | named (a b : Option JsonValue) (hne : ¬ Identical a b) (name pattern : JsString) (s t : JsonValue)
      (hs : get? (propertiesOf (keywords a)) name = some s)
      (ht : get? (patternsOf (keywords b)) pattern = some t) (hm : test pattern name = true) :
      Asks (a, b) (some s, some t)
  | pattern (a b : Option JsonValue) (hne : ¬ Identical a b) (pattern : JsString) (s t : JsonValue)
      (hs : get? (patternsOf (keywords a)) pattern = some s)
      (ht : get? (patternsOf (keywords b)) pattern = some t) : Asks (a, b) (some s, some t)
  | item (a b : Option JsonValue) (hne : ¬ Identical a b) (i : ℕ)
      (h : ∀ items, get? (keywords a) (js "items") = some (.arr items) → i < items.length) :
      Asks (a, b) (itemSchema (keywords a) i, itemSchema (keywords b) i)
  /-- A name that `in` finds in every object, so that what is compared is an inherited function, as no schema. -/
  | inherited (a b : Option JsonValue) (hne : ¬ Identical a b) (name : JsString) (t : JsonValue)
      (hn : name ∈ prototypeNames) (ht : get? (propertiesOf (keywords b)) name = some t ∨
        get? (patternsOf (keywords b)) name = some t) : Asks (a, b) (none, some t)
  /-- A pair that `objectFits` passes over. -/
  | optional (a b : Option JsonValue) (hne : ¬ Identical a b) (pattern name : JsString) (s t : JsonValue)
      (hs : get? (patternsOf (keywords a)) pattern = some s)
      (ht : get? (propertiesOf (keywords b)) name = some t) (hm : test pattern name = true) :
      Asks (a, b) (some s, some t)

/-! ## What `fits` does not look at -/

/-- The schemas a union comes down to. -/
inductive Member : Option JsonValue → Option JsonValue → Prop
  | plain (s : Option JsonValue) (h : ∀ branches, get? (keywords s) (js "anyOf") ≠ some (.arr branches)) : Member s s
  | branch (s : Option JsonValue) (branches : List JsonValue) (branch : JsonValue) (t : Option JsonValue)
      (h : get? (keywords s) (js "anyOf") = some (.arr branches)) (hm : branch ∈ branches)
      (ht : Member (some branch) t) : Member s t

/-- The schema knows every field of its values. -/
def Knowing (s : Option JsonValue) : Prop :=
  isFalse (get? (keywords s) (js "additionalProperties")) = true ∨ ∀ name, knows test (keywords s) name = true

/-- Removing the fields `a` does not know leaves as many as `b` asks for, and no items alike. -/
structure Keeps (a b : Option JsonValue) : Prop where
  minProperties : ∀ n, get? (keywords b) (js "minProperties") = some (.num n) → ∀ t, Member a t →
    Knowing test t ∨ n ≤ (stringsOf (get? (keywords t) (js "required"))).dedup.length
  uniqueItems : get? (keywords b) (js "uniqueItems") = some (.prim (.bool true)) →
    ∀ t, Relation.ReflTransGen Part a t → Knowing test t

structure Harmless (a b : Option JsonValue) : Prop where
  /-- A pattern of `a` that matches a property of `b`. -/
  optional : ∀ pattern s name t, get? (patternsOf (keywords a)) pattern = some s →
    get? (propertiesOf (keywords b)) name = some t → test pattern name = true → name ∉ prototypeNames →
    fits test (some s) (some t) = true
  /-- A property of `a` that a pattern of `b` matches, where `in` finds its name in every object. -/
  inherited : ∀ name s pattern t, get? (propertiesOf (keywords a)) name = some s →
    get? (patternsOf (keywords b)) pattern = some t → test pattern name = true → name ∈ prototypeNames →
    fits test (some s) (some t) = true
  /-- A closed `b`, and the names of `a` that are not looked up in it, or that `in` finds in every object. -/
  closed : isFalse (get? (keywords b) (js "additionalProperties")) = true → ∀ name,
    (has (propertiesOf (keywords a)) name = true ∧ name ∈ prototypeNames ∨
      ∃ pattern s, get? (patternsOf (keywords a)) pattern = some s ∧ test pattern name = true ∧
        (patternsOf (keywords b) = [] ∨ pattern ∈ prototypeNames)) → ¬ IsAdditional test (keywords b) name
  /-- Constraints beside the `anyOf` of `b`. -/
  siblings : has (keywords b) (js "anyOf") = true → has (keywords a) (js "anyOf") = false →
    ∀ keyword ∈ CONSTRAINTS, ∀ p, get? (keywords b) keyword = some (.prim p) →
    get? (keywords a) keyword = some (.prim p)
  /-- The keywords beside the `const` or `enum` of `b`. -/
  literals : ∀ values, valuesOf (keywords b) = some values → ∀ value ∈ values, Valid test accepts b value
  keeps : Keeps test a b

/-- No pair that `fits` accepts on its way has an interaction it does not look at. -/
def Clear (a b : Option JsonValue) : Prop :=
  ∀ p, Relation.ReflTransGen (Asks test) (a, b) p → fits test p.1 p.2 = true →
    (Identical p.1 p.2 → ∀ t, Relation.ReflTransGen Part p.1 t → Keeps test t t) ∧
    (¬ Identical p.1 p.2 → Harmless test accepts p.1 p.2)

end Pairs

end PiAgent.Schemas
