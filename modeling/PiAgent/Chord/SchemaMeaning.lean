import PiAgent.Chord.Schema

/-!
# What a schema says of a value

The JSON Schema meaning of the keywords `fits` reasons about, and what is left of a
value when the fields its schema does not know are removed.
-/

namespace PiAgent.Schemas

open List Assoc JsonValue

def hasType (type : JsString) : JsonValue → Prop
  | .prim .null => type = js "null"
  | .prim (.bool _) => type = js "boolean"
  | .prim (.num n) => type = js "number" ∨ type = js "integer" ∧ n.den = 1
  | .prim (.str _) => type = js "string"
  | .arr _ => type = js "array"
  | .obj _ => type = js "object"

def item? : JsonValue → ℕ → Option JsonValue
  | .arr items, i => items[i]?
  | _, _ => none

def field? : JsonValue → JsString → Option JsonValue
  | .obj fields, name => get? fields name
  | _, _ => none

def itemSchema (schema : Schema) (i : ℕ) : Option JsonValue :=
  match get? schema (js "items") with
  | some (.arr items) => items[i]?.or (get? schema (js "additionalItems"))
  | item => item

abbrev propertiesOf (schema : Schema) : Schema := schemasOf schema (js "properties")

abbrev patternsOf (schema : Schema) : Schema := schemasOf schema (js "patternProperties")

section Meaning

-- `test pattern name`: the pattern matches. `accepts keyword argument p`: the primitive meets the constraint.
variable (test : JsString → JsString → Bool) (accepts : JsString → Primitive → Primitive → Prop)

def Meets (keyword : JsString) (argument : Primitive) : JsonValue → Prop
  | .prim p => accepts keyword argument p
  | .arr items =>
    (keyword = js "minItems" → ∀ n, argument = .num n → n ≤ items.length) ∧
    (keyword = js "maxItems" → ∀ n, argument = .num n → items.length ≤ n) ∧
    (keyword = js "uniqueItems" → argument = .bool true → items.Pairwise (fun x y => ¬ Eqv x y))
  | .obj fields =>
    (keyword = js "minProperties" → ∀ n, argument = .num n → n ≤ fields.length) ∧
    (keyword = js "maxProperties" → ∀ n, argument = .num n → fields.length ≤ n)

def IsAdditional (schema : Schema) (name : JsString) : Prop :=
  get? (propertiesOf schema) name = none ∧
  ∀ pattern s, get? (patternsOf schema) pattern = some s → test pattern name = false

/-- What the keywords of a schema ask of a value, over what the schemas in it ask of their values. -/
structure Holds (valid : Option JsonValue → JsonValue → Prop) (schema : Schema) (v : JsonValue) : Prop where
  type : ∀ types, typesOf schema = some types → ∃ type ∈ types, hasType type v
  const : ∀ value, get? schema (js "const") = some value → Eqv value v
  enum : ∀ values, get? schema (js "enum") = some (.arr values) → ∃ value ∈ values, Eqv value v
  constraints : ∀ keyword ∈ CONSTRAINTS, ∀ argument,
    get? schema keyword = some (.prim argument) → Meets accepts keyword argument v
  not : ∀ s, get? schema (js "not") = some s → ¬ valid (some s) v
  anyOf : ∀ branches, get? schema (js "anyOf") = some (.arr branches) →
    ∃ branch ∈ branches, valid (some branch) v
  items : ∀ i x, item? v i = some x → valid (itemSchema schema i) x
  required : ∀ fields, v = .obj fields →
    ∀ name ∈ stringsOf (get? schema (js "required")), has fields name = true
  properties : ∀ name x, field? v name = some x → valid (get? (propertiesOf schema) name) x
  patterns : ∀ name x, field? v name = some x → ∀ pattern s,
    get? (patternsOf schema) pattern = some s → test pattern name = true → valid (some s) x
  additional : ∀ name x, field? v name = some x → IsAdditional test schema name →
    valid (get? schema (js "additionalProperties")) x

/-- The value is valid under the schema. Every value a keyword asks about, with its schema, weighs less. -/
def Valid (s : Option JsonValue) (v : JsonValue) : Prop :=
  Holds test accepts (fun t x => ∃ _ : weight x + load t < weight v + load s, Valid t x) (keywords s) v
termination_by weight v + load s

/-! ## Removing the fields a schema does not know -/

def knows (schema : Schema) (name : JsString) : Bool :=
  (!has schema (js "properties") && !has schema (js "patternProperties")) ||
  has (propertiesOf schema) name ||
  (patternsOf schema).any (fun p => test p.1 name) ||
  isObject (get? schema (js "additionalProperties"))

def fieldSchema (schema : Schema) (name : JsString) : Option JsonValue :=
  match get? (propertiesOf schema) name with
  | some s => some s
  | none =>
    match (patternsOf schema).find? (fun p => test p.1 name) with
    | some p => some p.2
    | none => get? schema (js "additionalProperties")

/-- One level of the removal. Of a union, the fields that a branch knows are kept, for a branch the value is
valid under. -/
def StripsTo (valid : Option JsonValue → JsonValue → Prop)
    (strip : Option JsonValue → JsonValue → JsonValue → Prop) (schema : Schema) (v w : JsonValue) : Prop :=
  match get? schema (js "anyOf") with
  | some (.arr branches) => ∃ branch ∈ branches, valid (some branch) v ∧ strip (some branch) v w
  | _ =>
    match v with
    | .prim p => w = .prim p
    | .arr items => ∃ items', w = .arr items' ∧ items'.length = items.length ∧
        ∀ i x y, items[i]? = some x → items'[i]? = some y → strip (itemSchema schema i) x y
    | .obj fields => ∃ fields', w = .obj fields' ∧
        keys fields' = (keys fields).filter (knows test schema) ∧
        ∀ name x y, get? fields name = some x → get? fields' name = some y →
          strip (fieldSchema test schema name) x y

def Strip (s : Option JsonValue) (v w : JsonValue) : Prop :=
  StripsTo test (Valid test accepts)
    (fun t x y => ∃ _ : weight x + load t < weight v + load s, Strip t x y) (keywords s) v w
termination_by weight v + load s

theorem weight_item? (v : JsonValue) (i : ℕ) (x : JsonValue) (h : item? v i = some x) : weight x < weight v := by
  unfold item? at h
  split at h
  · exact weight_lt_arr _ x (mem_of_getElem? h)
  · cases h

theorem weight_field? (v : JsonValue) (name : JsString) (x : JsonValue) (h : field? v name = some x) :
    weight x < weight v := by
  unfold field? at h
  split at h
  · have := weight_lt_obj _ name x (mem_of_get? _ name x h)
    omega
  · cases h

theorem load_itemSchema (schema : Schema) (i : ℕ) : load (itemSchema schema i) ≤ weight (.obj schema) := by
  unfold itemSchema
  split
  · rename_i items h
    cases hi : items[i]? with
    | none => exact load_get? schema _
    | some t => exact le_of_lt (weight_mem_arr schema _ items t h (mem_of_getElem? hi))
  · exact load_get? schema _

theorem load_fieldSchema (schema : Schema) (name : JsString) :
    load (fieldSchema test schema name) ≤ weight (.obj schema) := by
  unfold fieldSchema
  split
  · rename_i s h
    have := load_get?_schemasOf schema (js "properties") name
    rwa [h] at this
  · split
    · rename_i p h
      exact le_of_lt (weight_mem_schemasOf schema _ p.1 p.2 (mem_of_find?_eq_some h))
    · exact load_get? schema _

theorem load_lt_of_get? (schema : Schema) (keyword : JsString) (s : JsonValue)
    (h : get? schema keyword = some s) : load (some s) < weight (.obj schema) := by
  have := weight_lt_obj schema keyword s (mem_of_get? schema keyword s h)
  simp only [load]
  omega

theorem load_pattern (schema : Schema) (pattern : JsString) (s : JsonValue)
    (h : get? (patternsOf schema) pattern = some s) : load (some s) < weight (.obj schema) :=
  weight_mem_schemasOf schema _ pattern s (mem_of_get? _ pattern s h)

/-! ## The two definitions, unfolded -/

theorem Holds.congr {p q : Option JsonValue → JsonValue → Prop} {schema : Schema} {v : JsonValue}
    (hpq : ∀ t x, weight x + load t < weight v + weight (.obj schema) → (p t x ↔ q t x))
    (h : Holds test accepts p schema v) : Holds test accepts q schema v where
  type := h.type
  const := h.const
  enum := h.enum
  constraints := h.constraints
  not := by
    intro s hs hq
    have := load_lt_of_get? schema _ s hs
    exact h.not s hs ((hpq _ _ (by omega)).mpr hq)
  anyOf := by
    intro branches hb
    obtain ⟨branch, hmem, hv⟩ := h.anyOf branches hb
    have : load (some branch) < _ := weight_mem_arr schema _ branches branch hb hmem
    exact ⟨branch, hmem, (hpq _ _ (by omega)).mp hv⟩
  items := by
    intro i x hx
    have := weight_item? v i x hx
    have := load_itemSchema schema i
    exact (hpq _ _ (by omega)).mp (h.items i x hx)
  required := h.required
  properties := by
    intro name x hx
    have := weight_field? v name x hx
    have : load (get? (propertiesOf schema) name) ≤ _ := load_get?_schemasOf schema _ name
    exact (hpq _ _ (by omega)).mp (h.properties name x hx)
  patterns := by
    intro name x hx pattern s hs ht
    have := weight_field? v name x hx
    have := load_pattern schema pattern s hs
    exact (hpq _ _ (by omega)).mp (h.patterns name x hx pattern s hs ht)
  additional := by
    intro name x hx hn
    have := weight_field? v name x hx
    have := load_get? schema (js "additionalProperties")
    exact (hpq _ _ (by omega)).mp (h.additional name x hx hn)

theorem valid_iff (s : Option JsonValue) (v : JsonValue) :
    Valid test accepts s v ↔ Holds test accepts (Valid test accepts) (keywords s) v := by
  have hle := weight_keywords s
  rw [Valid]
  constructor
  · exact Holds.congr test accepts (fun t x hlt => ⟨fun h => h.2, fun h => ⟨by omega, h⟩⟩)
  · exact Holds.congr test accepts (fun t x hlt => ⟨fun h => ⟨by omega, h⟩, fun h => h.2⟩)

theorem StripsTo.congr {valid : Option JsonValue → JsonValue → Prop}
    {p q : Option JsonValue → JsonValue → JsonValue → Prop} {schema : Schema} {v w : JsonValue}
    (hpq : ∀ t x y, weight x + load t < weight v + weight (.obj schema) → (p t x y → q t x y))
    (h : StripsTo test valid p schema v w) : StripsTo test valid q schema v w := by
  unfold StripsTo at h ⊢
  split
  · rename_i branches hb
    simp only [hb] at h
    obtain ⟨branch, hmem, hv, hs⟩ := h
    have : load (some branch) < _ := weight_mem_arr schema _ branches branch hb hmem
    exact ⟨branch, hmem, hv, hpq _ _ _ (by omega) hs⟩
  · rename_i hb
    split at h
    · exact absurd (by assumption) (hb _)
    · split
      · exact h
      · obtain ⟨items', hw, hl, hs⟩ := h
        refine ⟨items', hw, hl, fun i x y hx hy => hpq _ _ _ ?_ (hs i x y hx hy)⟩
        have := weight_lt_arr _ x (mem_of_getElem? hx)
        have := load_itemSchema schema i
        omega
      · obtain ⟨fields', hw, hk, hs⟩ := h
        refine ⟨fields', hw, hk, fun name x y hx hy => hpq _ _ _ ?_ (hs name x y hx hy)⟩
        have := weight_lt_obj _ name x (mem_of_get? _ name x hx)
        have := load_fieldSchema test schema name
        omega

theorem strip_iff (s : Option JsonValue) (v w : JsonValue) : Strip test accepts s v w ↔
      StripsTo test (Valid test accepts) (Strip test accepts) (keywords s) v w := by
  have hle := weight_keywords s
  rw [Strip]
  constructor
  · exact StripsTo.congr test (fun t x y _ h => h.2)
  · exact StripsTo.congr test (fun t x y hlt h => ⟨by omega, h⟩)

end Meaning

/-! ## Equal schemas -/

theorem get?_withoutAnnotations (schema : Schema) (k : JsString) :
    get? (withoutAnnotations schema) k = if k ∈ ANNOTATIONS then none else get? schema k := by
  unfold withoutAnnotations
  rw [get?_filter schema (fun k => k ∉ ANNOTATIONS)]
  by_cases hk : k ∈ ANNOTATIONS <;> simp [hk]

theorem keywords_obj_keywords (s : Option JsonValue) : keywords (some (.obj (keywords s))) = keywords s := by
  simp [keywords, asSchema, withoutAnnotations, filter_filter]

theorem rel_indexed (xs ys : List JsonValue) (h : List.Forall₂ Eqv xs ys) (i : ℕ) (k : JsString) :
    Option.Rel Eqv (get? ((xs.zipIdx i).map (fun p => (decimal p.2, p.1))) k)
      (get? ((ys.zipIdx i).map (fun p => (decimal p.2, p.1))) k) := by
  induction h generalizing i with
  | nil => exact .none
  | cons hxy _ ih =>
    simp only [zipIdx_cons, map_cons, get?_cons]
    split
    · exact .some hxy
    · exact ih (i + 1)

theorem rel_asSchema (s t : Option JsonValue) (h : Option.Rel Eqv s t) (k : JsString) :
    Option.Rel Eqv (get? (asSchema s) k) (get? (asSchema t) k) := by
  cases h with
  | none => exact .none
  | @some x y h =>
    cases x with
    | prim p =>
      obtain rfl := (eqv_prim_iff p y).mp h
      cases get? (asSchema (some (prim p))) k with
      | none => exact .none
      | some v => exact .some (eqv_refl v)
    | arr xs =>
      cases y with
      | arr ys => exact rel_indexed xs ys ((eqv_arr_iff xs ys).mp h) 0 k
      | prim q => cases h
      | obj gs => cases h
    | obj fs =>
      cases y with
      | obj gs => exact (eqv_obj_iff fs gs).mp h k
      | prim q => cases h
      | arr ys => cases h

def Alike (a b : Schema) : Prop := ∀ k, Option.Rel Eqv (get? a k) (get? b k)

theorem alike_keywords (s t : Option JsonValue) (h : Option.Rel Eqv s t) : Alike (keywords s) (keywords t) := by
  intro k
  unfold keywords
  rw [get?_withoutAnnotations, get?_withoutAnnotations]
  split
  · exact .none
  · exact rel_asSchema s t h k

namespace Alike

variable {a b : Schema} (h : Alike a b)

include h

theorem symm : Alike b a := by
  intro k
  have := h k
  revert this
  cases get? a k <;> cases get? b k <;> rintro ⟨⟩
  · exact .none
  · exact .some (eqv_symm (by assumption))

theorem exists_right (k : JsString) (v : JsonValue) (hv : get? a k = some v) :
    ∃ w, get? b k = some w ∧ Eqv v w := by
  have := h k
  rw [hv] at this
  generalize get? b k = x at this
  cases this
  exact ⟨_, rfl, by assumption⟩

theorem prim_right (k : JsString) (p : Primitive) (hv : get? a k = some (.prim p)) : get? b k = some (.prim p) := by
  obtain ⟨w, hw, he⟩ := h.exists_right k _ hv
  rw [hw, (eqv_prim_iff p w).mp he]

theorem arr_right (k : JsString) (xs : List JsonValue) (hv : get? a k = some (.arr xs)) :
    ∃ ys, get? b k = some (.arr ys) ∧ List.Forall₂ Eqv xs ys := by
  obtain ⟨w, hw, he⟩ := h.exists_right k _ hv
  cases he with
  | arr _ ys hl hs => exact ⟨ys, hw, (eqv_arr_iff xs ys).mp (.arr xs ys hl hs)⟩

theorem schemasOf (k : JsString) : Alike (schemasOf a k) (schemasOf b k) := by
  intro name
  exact rel_asSchema _ _ (h k) name

end Alike

theorem stringOf_eqv (x y : JsonValue) (h : Eqv x y) : stringOf x = stringOf y := by
  cases h <;> rfl

theorem strings_eqv (xs ys : List JsonValue) (h : List.Forall₂ Eqv xs ys) :
    xs.filterMap stringOf = ys.filterMap stringOf := by
  induction h with
  | nil => rfl
  | cons hxy _ ih => simp only [filterMap_cons, stringOf_eqv _ _ hxy, ih]

theorem stringsOf_rel (s t : Option JsonValue) (h : Option.Rel Eqv s t) : stringsOf s = stringsOf t := by
  cases h with
  | none => rfl
  | some h =>
    cases h with
    | prim p => rfl
    | obj => rfl
    | arr xs ys hl hs => exact strings_eqv xs ys ((eqv_arr_iff xs ys).mp (.arr xs ys hl hs))

theorem typesOf_alike (a b : Schema) (h : Alike a b) : typesOf a = typesOf b := by
  have hr := h (js "type")
  unfold typesOf
  revert hr
  cases get? a (js "type") <;> cases get? b (js "type") <;> rintro ⟨⟩
  · rfl
  · rename_i he
    cases he with
    | prim p => rfl
    | obj => rfl
    | arr xs ys hl hs => exact congrArg some (strings_eqv xs ys ((eqv_arr_iff xs ys).mp (.arr xs ys hl hs)))

theorem rel_itemSchema (a b : Schema) (h : Alike a b) (i : ℕ) :
    Option.Rel Eqv (itemSchema a i) (itemSchema b i) := by
  have hi := h (js "items")
  have ha := h (js "additionalItems")
  unfold itemSchema
  revert hi
  cases get? a (js "items") <;> cases get? b (js "items") <;> rintro ⟨⟩
  · exact .none
  · rename_i he
    cases he with
    | prim p => exact .some (.prim p)
    | obj fs gs hk hs => exact .some (.obj fs gs hk hs)
    | arr xs ys hl hs =>
      simp only
      by_cases hx : i < xs.length
      · rw [getElem?_eq_getElem hx, getElem?_eq_getElem (by omega : i < ys.length)]
        exact .some (hs i hx (by omega))
      · rw [getElem?_eq_none (by omega), getElem?_eq_none (by omega)]
        exact ha

section Equal

variable (test : JsString → JsString → Bool) (accepts : JsString → Primitive → Primitive → Prop)

theorem exists_mem_forall₂ {R : JsonValue → JsonValue → Prop} {xs ys : List JsonValue} (h : List.Forall₂ R xs ys)
    (x : JsonValue) (hx : x ∈ xs) : ∃ y ∈ ys, R x y := by
  induction h with
  | nil => simp at hx
  | cons hxy _ ih =>
    rcases mem_cons.mp hx with rfl | hx
    · exact ⟨_, by simp, hxy⟩
    · obtain ⟨y, hy, hr⟩ := ih hx
      exact ⟨y, by simp [hy], hr⟩

theorem isAdditional_alike (a b : Schema) (h : Alike a b) (name : JsString) (hn : IsAdditional test b name) :
    IsAdditional test a name := by
  refine ⟨?_, fun pattern s hs => ?_⟩
  · have := h.schemasOf (js "properties") name
    rw [show get? (schemasOf b (js "properties")) name = none from hn.1] at this
    cases hx : get? (propertiesOf a) name with
    | none => rfl
    | some s =>
      rw [show get? (schemasOf a (js "properties")) name = some s from hx] at this
      cases this
  · obtain ⟨t, ht, _⟩ := (h.schemasOf (js "patternProperties")).exists_right pattern s hs
    exact hn.2 pattern t ht

theorem Holds.alike {p q : Option JsonValue → JsonValue → Prop} {a b : Schema} {v : JsonValue} (hab : Alike a b)
    (hpq : ∀ t u x, Option.Rel Eqv t u → weight x + load t + load u <
      weight v + weight (.obj a) + weight (.obj b) → (p t x ↔ q u x))
    (h : Holds test accepts p a v) : Holds test accepts q b v where
  type := by
    rw [← typesOf_alike a b hab]
    exact h.type
  const := by
    intro value hv
    obtain ⟨w, hw, he⟩ := hab.symm.exists_right _ value hv
    exact eqv_trans he (h.const w hw)
  enum := by
    intro values hv
    obtain ⟨ws, hw, he⟩ := hab.symm.arr_right _ values hv
    obtain ⟨w, hwm, hwv⟩ := h.enum ws hw
    obtain ⟨value, hmem, hvw⟩ := exists_mem_forall₂ he.flip w hwm
    exact ⟨value, hmem, eqv_trans hvw hwv⟩
  constraints := by
    intro keyword hk argument ha
    exact h.constraints keyword hk argument (hab.symm.prim_right keyword argument ha)
  not := by
    intro s hs hq
    obtain ⟨t, ht, he⟩ := hab.symm.exists_right _ s hs
    have := load_lt_of_get? a _ t ht
    have := load_lt_of_get? b _ s hs
    exact h.not t ht ((hpq _ _ _ (.some (eqv_symm he)) (by omega)).mpr hq)
  anyOf := by
    intro branches hb
    obtain ⟨branches', hb', he⟩ := hab.symm.arr_right _ branches hb
    obtain ⟨branch', hm', hv⟩ := h.anyOf branches' hb'
    obtain ⟨branch, hm, heq⟩ := exists_mem_forall₂ he.flip branch' hm'
    have : load (some branch') < _ := weight_mem_arr a _ branches' branch' hb' hm'
    have : load (some branch) < _ := weight_mem_arr b _ branches branch hb hm
    exact ⟨branch, hm, (hpq _ _ _ (.some (eqv_symm heq)) (by omega)).mp hv⟩
  items := by
    intro i x hx
    have := weight_item? v i x hx
    have := load_itemSchema a i
    have := load_itemSchema b i
    exact (hpq _ _ _ (rel_itemSchema a b hab i) (by omega)).mp (h.items i x hx)
  required := by
    rw [← stringsOf_rel _ _ (hab (js "required"))]
    exact h.required
  properties := by
    intro name x hx
    have := weight_field? v name x hx
    have : load (get? (propertiesOf a) name) ≤ _ := load_get?_schemasOf a _ name
    have : load (get? (propertiesOf b) name) ≤ _ := load_get?_schemasOf b _ name
    exact (hpq (get? (propertiesOf a) name) (get? (propertiesOf b) name) _ (hab.schemasOf _ name)
      (by omega)).mp (h.properties name x hx)
  patterns := by
    intro name x hx pattern s hs ht
    obtain ⟨t, hat, he⟩ := (hab.symm.schemasOf (js "patternProperties")).exists_right pattern s hs
    have := weight_field? v name x hx
    have := load_pattern a pattern t hat
    have := load_pattern b pattern s hs
    exact (hpq _ _ _ (.some (eqv_symm he)) (by omega)).mp (h.patterns name x hx pattern t hat ht)
  additional := by
    intro name x hx hn
    have := weight_field? v name x hx
    have := load_get? a (js "additionalProperties")
    have := load_get? b (js "additionalProperties")
    exact (hpq _ _ _ (hab _) (by omega)).mp (h.additional name x hx (isAdditional_alike test a b hab name hn))

theorem valid_alike (s t : Option JsonValue) (v : JsonValue) (h : Alike (keywords s) (keywords t)) :
    Valid test accepts s v ↔ Valid test accepts t v := by
  induction hn : weight v + load s + load t using Nat.strong_induction_on generalizing s t v with
  | _ n ih =>
    subst hn
    have hs := weight_keywords s
    have ht := weight_keywords t
    rw [valid_iff, valid_iff]
    constructor
    · exact Holds.alike test accepts h
        (fun t' u' x hr hlt => ih _ (by omega) t' u' x (alike_keywords t' u' hr) rfl)
    · refine Holds.alike test accepts h.symm (fun t' u' x hr hlt => ?_)
      exact (ih _ (by omega) t' u' x (alike_keywords t' u' hr) rfl)

end Equal

end PiAgent.Schemas
