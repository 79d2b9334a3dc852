import PiAgent.Ai.Validation

/-! # What coercion keeps -/

namespace PiAgent.Ai.Validation

open List Assoc

theorem Schema.ind {P : Schema → Prop}
    (mk : ∀ types properties required items prefixItems additional patterns enum bounds allOf anyOf oneOf,
      (∀ p ∈ properties, P p.2) → (∀ schema, items = .all schema → P schema) →
      (∀ schemas, items = .each schemas → ∀ schema ∈ schemas, P schema) →
      (∀ schema, additional = .schema schema → P schema) → (∀ schema ∈ allOf, P schema) →
      (∀ schema ∈ anyOf, P schema) → (∀ schema ∈ oneOf, P schema) →
      P (.mk types properties required items prefixItems additional patterns enum bounds allOf anyOf oneOf))
    (schema : Schema) : P schema :=
  @Schema.rec P (fun items => (∀ schema, items = .all schema → P schema) ∧
      ∀ schemas, items = .each schemas → ∀ schema ∈ schemas, P schema)
    (fun additional => ∀ schema, additional = .schema schema → P schema)
    (fun properties => ∀ p ∈ properties, P p.2) (fun schemas => ∀ schema ∈ schemas, P schema) (fun p => P p.2)
    (fun types properties required items prefixItems additional patterns enum bounds allOf anyOf oneOf
        hproperties hitems _ hadditional _ hallOf hanyOf honeOf =>
      mk types properties required items prefixItems additional patterns enum bounds allOf anyOf oneOf
        hproperties hitems.1 hitems.2 hadditional hallOf hanyOf honeOf)
    ⟨by simp, by simp⟩ (fun schema h => ⟨by rintro _ ⟨⟩; exact h, by simp⟩)
    (fun schemas h => ⟨by simp, by rintro _ ⟨⟩; exact h⟩)
    (by simp) (by simp) (fun schema h => by rintro _ ⟨⟩; exact h)
    (by simp) (fun p rest hp hrest => by simpa using ⟨hp, fun key schema => hrest (key, schema)⟩)
    (by simp) (fun schema rest hschema hrest => by simpa using ⟨hschema, hrest⟩)
    (fun _ _ h => h) schema

variable (R : Runtime)

/-! ## Where coercion and validator agree -/

def PastPrefix : Items → List Schema → List Value → Prop
  | .all _, prefixItems, values => prefixItems = [] ∨ values = []
  | _, _, _ => True

mutual

def NullSafe : Schema → Value → Prop
  | .mk _ _ _ items prefixItems _ _ _ _ _ _ _, .arr values =>
    PastPrefix items prefixItems values ∧ NullSafeItems items values
  | .mk _ properties _ _ _ _ _ _ _ _ _ _, .obj fields => NullSafeProperties properties fields
  | _, _ => True

def NullSafeItems : Items → List Value → Prop
  | .absent, _ => True
  | .all schema, values => ∀ value ∈ values, NullSafe schema value
  | .each schemas, values => NullSafeEach schemas values

def NullSafeEach : List Schema → List Value → Prop
  | schema :: schemas, value :: values => NullSafe schema value ∧ NullSafeEach schemas values
  | _, _ => True

def NullSafeProperties : List (JsString × Schema) → List (JsString × Value) → Prop
  | [], _ => True
  | (key, schema) :: rest, fields =>
    (∀ value, get? fields key = some value → NullSafe schema value) ∧ NullSafeProperties rest fields

end

mutual

/-- Nor does the coercion, nor a key that a pattern names with `additionalProperties`, nor an inherited function. -/
def CoerceSafe : Schema → Value → Prop
  | .mk types properties _ items prefixItems additional patterns _ _ allOf _ _, value =>
    CoerceSafeAll allOf value ∧
      match value with
      | .obj fields => types.contains .object = true →
          CoerceSafeProperties properties fields ∧
            CoerceSafeAdditional additional patterns (fields.filter (fun p => !(properties.map Prod.fst).contains p.1))
      | .arr values => types.contains .array = true →
          PastPrefix items prefixItems values ∧ CoerceSafeItems items values
      | _ => True

def CoerceSafeAll : List Schema → Value → Prop
  | [], _ => True
  | schema :: rest, value => CoerceSafe schema value ∧ CoerceSafeAll rest value

def CoerceSafeProperties : List (JsString × Schema) → List (JsString × Value) → Prop
  | [], _ => True
  | (key, schema) :: rest, fields =>
    (∀ value, member fields key = some value → get? fields key = some value ∧ CoerceSafe schema value) ∧
      CoerceSafeProperties rest fields

def CoerceSafeAdditional : Additional → List (JsString × Schema) → List (JsString × Value) → Prop
  | .schema schema, patterns, fields =>
    ∀ p ∈ fields, patterns.any (fun q => R.test q.1 p.1) = false ∧ CoerceSafe schema p.2
  | _, _, _ => True

def CoerceSafeItems : Items → List Value → Prop
  | .absent, _ => True
  | .all schema, values => ∀ value ∈ values, CoerceSafe schema value
  | .each schemas, values => CoerceSafeEach schemas values

def CoerceSafeEach : List Schema → List Value → Prop
  | schema :: schemas, value :: values => CoerceSafe schema value ∧ CoerceSafeEach schemas values
  | _, _ => True

end

/-! ## Nulls -/

variable (fields : List (JsString × Value))

theorem set_same (key : JsString) (value : Value) (h : get? fields key = some value) :
    set fields key value = fields := by
  obtain ⟨front, rest, rfl, hfront⟩ := exists_split fields key value h
  rw [set_middle _ _ _ _ _ hfront]

variable (schemas : List Schema) (values : List Value)

def Leaves (schema : Schema) : Prop :=
  ∀ value, check R schema value = true → NullSafe schema value → normalizeOptionalNulls R schema value = value

theorem normalizeEach_valid (ih : ∀ schema ∈ schemas, Leaves R schema)
    (hcheck : checkEach R schemas values = true) (hsafe : NullSafeEach schemas values) :
    normalizeEach R schemas values = values := by
  induction schemas generalizing values with
  | nil => unfold normalizeEach; rfl
  | cons schema schemas ihEach =>
    cases values with
    | nil => unfold normalizeEach; rfl
    | cons value values =>
      unfold checkEach at hcheck
      unfold NullSafeEach at hsafe
      obtain ⟨hvalue, hvalues⟩ := Bool.and_eq_true_iff.mp hcheck
      unfold normalizeEach
      rw [ih schema mem_cons_self value hvalue hsafe.1,
        ihEach values (fun other hother => ih other (mem_cons_of_mem schema hother)) hvalues hsafe.2]

theorem normalizeProperties_valid (properties : List (JsString × Schema)) (required : List JsString)
    (fields : List (JsString × Value))
    (ih : ∀ p ∈ properties, Leaves R p.2)
    (hcheck : checkProperties R properties fields = true) (hsafe : NullSafeProperties properties fields) :
    normalizeProperties R properties required fields = fields := by
  induction properties with
  | nil => unfold normalizeProperties; rfl
  | cons p rest ihRest =>
    obtain ⟨key, schema⟩ := p
    unfold checkProperties at hcheck
    unfold NullSafeProperties at hsafe
    obtain ⟨hvalue, hrest⟩ := Bool.and_eq_true_iff.mp hcheck
    have hdone := ihRest (fun other hother => ih other (mem_cons_of_mem _ hother)) hrest hsafe.2
    unfold normalizeProperties
    cases hget : get? fields key with
    | none => exact hdone
    | some value =>
      rw [hget] at hvalue
      have hkept : (isNull value && !required.contains key && !check R schema (.prim .null)) = false := by
        cases hnull : isNull value with
        | false => rfl
        | true =>
          obtain rfl : value = .prim .null := by
            unfold isNull at hnull
            split at hnull
            · rfl
            · cases hnull
          simp only at hvalue
          rw [hvalue, Bool.not_true, Bool.and_false]
      simp only
      rw [hkept, ih (key, schema) mem_cons_self value hvalue (hsafe.1 value hget), set_same fields key value hget]
      exact hdone

variable (items : Items)

theorem checkItems_past (prefixItems : List Schema) (values : List Value)
    (h : PastPrefix items prefixItems values) :
    checkItems R items prefixItems.length values = checkItems R items 0 values := by
  unfold PastPrefix at h
  split at h
  · rcases h with rfl | rfl
    · rfl
    · unfold checkItems
      simp
  · cases items with
    | absent => rfl
    | all schema => rename_i hnot; exact absurd rfl (hnot schema)
    | each schemas => rfl

theorem normalizeItems_valid (values : List Value) (ihAll : ∀ schema, items = .all schema → Leaves R schema)
    (ihEach : ∀ schemas, items = .each schemas → ∀ schema ∈ schemas, Leaves R schema)
    (hcheck : checkItems R items 0 values = true) (hsafe : NullSafeItems items values) :
    normalizeItems R items values = values := by
  cases items with
  | absent => unfold normalizeItems; rfl
  | all schema =>
    unfold checkItems at hcheck
    unfold NullSafeItems at hsafe
    unfold normalizeItems
    rw [drop_zero, all_eq_true] at hcheck
    have hsame := map_congr_left fun value hvalue => ihAll schema rfl value (hcheck value hvalue) (hsafe value hvalue)
    exact hsame.trans (map_id _)
  | each schemas =>
    unfold checkItems at hcheck
    unfold NullSafeItems at hsafe
    unfold normalizeItems
    exact normalizeEach_valid R schemas values (ihEach schemas rfl) hcheck hsafe

variable (schema : Schema) (value : Value)

theorem normalizeOptionalNulls_valid (hcheck : check R schema value = true)
    (hsafe : NullSafe schema value) : normalizeOptionalNulls R schema value = value := by
  induction schema using Schema.ind generalizing value with
  | mk types properties required items prefixItems additional patterns enum bounds allOf anyOf oneOf
      hproperties hall heach _ _ _ _ =>
    unfold check at hcheck
    simp only [Bool.and_eq_true] at hcheck
    obtain ⟨-, hkind⟩ := hcheck
    cases value with
    | prim p => unfold normalizeOptionalNulls; rfl
    | native name => unfold normalizeOptionalNulls; rfl
    | arr values =>
      unfold NullSafe at hsafe
      simp only [Bool.and_eq_true] at hkind
      rw [checkItems_past R items prefixItems values hsafe.1] at hkind
      unfold normalizeOptionalNulls
      rw [normalizeItems_valid R items values hall heach hkind.2 hsafe.2]
    | obj fields =>
      unfold NullSafe at hsafe
      simp only [Bool.and_eq_true] at hkind
      unfold normalizeOptionalNulls
      rw [normalizeProperties_valid R properties required fields hproperties hkind.1.1.2 hsafe]

/-! ## Coercion -/

theorem coercePrimitiveByType_matches (p : Primitive) (type : SchemaType)
    (h : matchesJsonType (.prim p) type = true) :
    coercePrimitiveByType R p type = p := by
  cases p <;> cases type <;> first | rfl | cases h

theorem coerceByTypes_valid (types : List SchemaType) (value : Value)
    (h : (types.isEmpty || types.any (matchesJsonType value)) = true) : coerceByTypes R types value = value := by
  unfold coerceByTypes
  split
  · next p =>
    split
    · rfl
    · next hone =>
      -- no more than one type, and the value is of it
      have hnone : (types.map (coercePrimitiveByType R p)).find? (fun candidate => candidate ≠ p) = none := by
        match types with
        | [] => rfl
        | [type] =>
          have hmatches : matchesJsonType (.prim p) type = true := by simpa using h
          rw [map_singleton, coercePrimitiveByType_matches R p type hmatches]
          simp
        | _ :: _ :: _ => exact absurd ⟨by simp, by simpa using h⟩ hone
      rw [hnone, Option.getD_none]
  · rfl

theorem mapM_valid {α : Type} (f : α → Except Failure α) (items : List α) (h : ∀ a ∈ items, f a = .ok a) :
    items.mapM f = .ok items := by
  induction items with
  | nil => rfl
  | cons a rest ih =>
    rw [mapM_cons, h a mem_cons_self, ih fun b hb => h b (mem_cons_of_mem a hb)]
    rfl

theorem union_valid (h : schemas.isEmpty = true ∨ 1 ≤ checkCount R schemas value) :
    (if 1 ≤ checkCount R schemas value then Except.ok value else coerceWithUnionSchema R schemas value) = .ok value := by
  split
  · rfl
  · next hnone =>
    rcases h with hempty | hsome
    · obtain rfl := List.isEmpty_iff.mp hempty
      unfold coerceWithUnionSchema
      rfl
    · exact absurd hsome hnone

def Keeps (schema : Schema) : Prop :=
  ∀ value, check R schema value = true → CoerceSafe R schema value → coerceWithJsonSchema R schema value = .ok value

theorem coerceAll_valid (ih : ∀ schema ∈ schemas, Keeps R schema)
    (hcheck : checkAll R schemas value = true) (hsafe : CoerceSafeAll R schemas value) :
    coerceAll R schemas value = .ok value := by
  induction schemas with
  | nil => unfold coerceAll; rfl
  | cons schema rest ihRest =>
    unfold checkAll at hcheck
    unfold CoerceSafeAll at hsafe
    obtain ⟨hschema, hrest⟩ := Bool.and_eq_true_iff.mp hcheck
    unfold coerceAll
    rw [ih schema mem_cons_self value hschema hsafe.1]
    exact ihRest (fun other hother => ih other (mem_cons_of_mem schema hother)) hrest hsafe.2

theorem coerceEach_valid (ih : ∀ schema ∈ schemas, Keeps R schema)
    (hcheck : checkEach R schemas values = true) (hsafe : CoerceSafeEach R schemas values) :
    coerceEach R schemas values = .ok values := by
  induction schemas generalizing values with
  | nil => unfold coerceEach; rfl
  | cons schema schemas ihEach =>
    cases values with
    | nil => unfold coerceEach; rfl
    | cons value values =>
      unfold checkEach at hcheck
      unfold CoerceSafeEach at hsafe
      obtain ⟨hvalue, hvalues⟩ := Bool.and_eq_true_iff.mp hcheck
      unfold coerceEach
      rw [ih schema mem_cons_self value hvalue hsafe.1,
        ihEach values (fun other hother => ih other (mem_cons_of_mem schema hother)) hvalues hsafe.2]
      rfl

theorem coerceItems_valid (values : List Value) (ihAll : ∀ schema, items = .all schema → Keeps R schema)
    (ihEach : ∀ schemas, items = .each schemas → ∀ schema ∈ schemas, Keeps R schema)
    (hcheck : checkItems R items 0 values = true) (hsafe : CoerceSafeItems R items values) :
    coerceItems R items values = .ok values := by
  cases items with
  | absent => unfold coerceItems; rfl
  | all schema =>
    unfold checkItems at hcheck
    unfold CoerceSafeItems at hsafe
    unfold coerceItems
    rw [drop_zero, all_eq_true] at hcheck
    exact mapM_valid _ values fun value hvalue => ihAll schema rfl value (hcheck value hvalue) (hsafe value hvalue)
  | each schemas =>
    unfold checkItems at hcheck
    unfold CoerceSafeItems at hsafe
    unfold coerceItems
    exact coerceEach_valid R schemas values (ihEach schemas rfl) hcheck hsafe

theorem coerceProperties_valid (properties : List (JsString × Schema)) (fields : List (JsString × Value))
    (ih : ∀ p ∈ properties, Keeps R p.2) (hcheck : checkProperties R properties fields = true)
    (hsafe : CoerceSafeProperties R properties fields) : coerceProperties R properties fields = .ok fields := by
  induction properties with
  | nil => unfold coerceProperties; rfl
  | cons p rest ihRest =>
    obtain ⟨key, schema⟩ := p
    unfold checkProperties at hcheck
    unfold CoerceSafeProperties at hsafe
    obtain ⟨hvalue, hrest⟩ := Bool.and_eq_true_iff.mp hcheck
    have hdone := ihRest (fun other hother => ih other (mem_cons_of_mem _ hother)) hrest hsafe.2
    unfold coerceProperties
    cases hmember : member fields key with
    | none => exact hdone
    | some value =>
      obtain ⟨hget, hkeeps⟩ := hsafe.1 value hmember
      rw [hget] at hvalue
      simp only
      rw [ih (key, schema) mem_cons_self value hvalue hkeeps]
      show coerceProperties R rest (set fields key value) = .ok fields
      rw [set_same fields key value hget]
      exact hdone

theorem coerceAdditional_valid (additional : Additional) (properties patterns : List (JsString × Schema))
    (fields : List (JsString × Value)) (ih : ∀ schema, additional = .schema schema → Keeps R schema)
    (hcheck : checkAdditional R additional (fields.filter (fun p => isAdditional R properties patterns p.1)) = true)
    (hsafe : CoerceSafeAdditional R additional patterns
        (fields.filter (fun p => !(properties.map Prod.fst).contains p.1))) :
    coerceAdditional R additional (properties.map Prod.fst) fields = .ok fields := by
  cases additional with
  | absent => unfold coerceAdditional; rfl
  | bool allowed => unfold coerceAdditional; rfl
  | schema schema =>
    unfold checkAdditional at hcheck
    unfold CoerceSafeAdditional at hsafe
    unfold coerceAdditional
    refine mapM_valid _ fields fun p hp => ?_
    split
    · rfl
    · next hdefined =>
      have hdefined : (properties.map Prod.fst).contains p.1 = false := by simpa using hdefined
      obtain ⟨hpattern, hkeeps⟩ := hsafe p (mem_filter.mpr ⟨hp, by rw [hdefined]; rfl⟩)
      have hadditional : isAdditional R properties patterns p.1 = true := by
        have hnot : p.1 ∉ properties.map Prod.fst := by simpa using hdefined
        unfold isAdditional
        rw [hpattern, Bool.not_false, Bool.and_true, Bool.not_eq_true', any_eq_false]
        intro q hq heq
        exact hnot (mem_map.mpr ⟨q, hq, of_decide_eq_true heq⟩)
      have hvalid := all_eq_true.mp hcheck p (mem_filter.mpr ⟨hp, hadditional⟩)
      rw [ih schema rfl p.2 hvalid hkeeps]
      rfl

theorem coerceWithJsonSchema_valid : Keeps R schema := by
  induction schema using Schema.ind with
  | mk types properties required items prefixItems additional patterns enum bounds allOf anyOf oneOf
      hproperties hall heach hadditional hallOf _ _ =>
    intro value hcheck hsafe
    unfold check at hcheck
    unfold CoerceSafe at hsafe
    simp only [Bool.and_eq_true] at hcheck
    obtain ⟨⟨⟨⟨⟨⟨htypes, -⟩, -⟩, hcheckAll⟩, hanyOf⟩, honeOf⟩, hkind⟩ := hcheck
    have hany := union_valid R anyOf value (by simpa using hanyOf)
    have hone := union_valid R oneOf value (by
      rcases Bool.or_eq_true_iff.mp honeOf with hempty | hcount
      · exact Or.inl hempty
      · exact Or.inr (Nat.le_of_eq (of_decide_eq_true hcount).symm))
    unfold coerceWithJsonSchema
    rw [coerceAll_valid R allOf value hallOf hcheckAll hsafe.1]
    simp only [bind, Except.bind]
    rw [hany]
    simp only
    rw [hone]
    simp only
    rw [coerceByTypes_valid R types value htypes]
    cases value with
    | prim p => rfl
    | native name => rfl
    | obj fields =>
      simp only [Bool.and_eq_true] at hkind
      simp only
      split
      · next hobject =>
        obtain ⟨hsafeProperties, hsafeAdditional⟩ := hsafe.2 hobject
        rw [coerceProperties_valid R properties fields hproperties hkind.1.1.2 hsafeProperties]
        simp only
        rw [coerceAdditional_valid R additional properties patterns fields hadditional hkind.2 hsafeAdditional]
        rfl
      · rfl
    | arr values =>
      simp only [Bool.and_eq_true] at hkind
      simp only
      split
      · next harray =>
        obtain ⟨hpast, hsafeItems⟩ := hsafe.2 harray
        rw [checkItems_past R items prefixItems values hpast] at hkind
        rw [coerceItems_valid R items values hall heach hkind.2 hsafeItems]
        rfl
      · rfl

/-! ## Primitives -/

/-- A value of one of several types is kept, and the first type that changes it is taken. -/
def typed (types : List SchemaType) (p : Primitive) : Primitive :=
  if 1 < types.length ∧ types.any (matchesJsonType (.prim p)) = true then p
  else ((types.map (coercePrimitiveByType R p)).find? (fun candidate => candidate ≠ p)).getD p

mutual

/-- What the types of a schema make of a primitive: those of `allOf` in turn, of a member of each union unless some
member accepts it, and its own. -/
def made : Schema → Primitive → Primitive
  | .mk types _ _ _ _ _ _ _ _ allOf anyOf oneOf, p =>
    let p := madeAll allOf p
    let p := if 1 ≤ checkCount R anyOf (.prim p) then p else madeOne anyOf p
    let p := if 1 ≤ checkCount R oneOf (.prim p) then p else madeOne oneOf p
    typed R types p

def madeAll : List Schema → Primitive → Primitive
  | [], p => p
  | schema :: rest, p => madeAll rest (made schema p)

def madeOne : List Schema → Primitive → Primitive
  | [], p => p
  | schema :: rest, p => if check R schema (.prim (made schema p)) then made schema p else madeOne rest p

end

theorem coerceByTypes_prim (types : List SchemaType) (p : Primitive) :
    coerceByTypes R types (.prim p) = .prim (typed R types p) := by
  unfold coerceByTypes typed
  dsimp only
  split <;> rfl

theorem coerceWithUnionSchema_prim (schemas : List Schema) (p : Primitive)
    (ih : ∀ schema ∈ schemas, ∀ q, coerceWithJsonSchema R schema (.prim q) = .ok (.prim (made R schema q))) :
    coerceWithUnionSchema R schemas (.prim p) = .ok (.prim (madeOne R schemas p)) := by
  induction schemas with
  | nil => rfl
  | cons schema rest ihRest =>
    have hclone : structuredClone (.prim p) = .ok (.prim p) := rfl
    unfold coerceWithUnionSchema madeOne
    rw [hclone]
    simp only [bind, Except.bind]
    rw [ih schema mem_cons_self p]
    dsimp only
    split
    · rfl
    · exact ihRest fun other hother => ih other (mem_cons_of_mem schema hother)

theorem coerceAll_prim (schemas : List Schema) (p : Primitive)
    (ih : ∀ schema ∈ schemas, ∀ q, coerceWithJsonSchema R schema (.prim q) = .ok (.prim (made R schema q))) :
    coerceAll R schemas (.prim p) = .ok (.prim (madeAll R schemas p)) := by
  induction schemas generalizing p with
  | nil => rfl
  | cons schema rest ihRest =>
    unfold coerceAll madeAll
    rw [ih schema mem_cons_self p]
    exact ihRest (made R schema p) fun other hother => ih other (mem_cons_of_mem schema hother)

/-- Nothing is thrown over a primitive, and it stays one. -/
theorem coerceWithJsonSchema_prim (p : Primitive) :
    coerceWithJsonSchema R schema (.prim p) = .ok (.prim (made R schema p)) := by
  induction schema using Schema.ind generalizing p with
  | mk types properties required items prefixItems additional patterns enum bounds allOf anyOf oneOf
      _ _ _ _ hallOf hanyOf honeOf =>
    have hunion : ∀ schemas : List Schema, (∀ schema ∈ schemas, ∀ q,
        coerceWithJsonSchema R schema (.prim q) = .ok (.prim (made R schema q))) → ∀ q,
        (if 1 ≤ checkCount R schemas (.prim q) then Except.ok (Value.prim q)
          else coerceWithUnionSchema R schemas (.prim q)) =
        .ok (.prim (if 1 ≤ checkCount R schemas (.prim q) then q else madeOne R schemas q)) := by
      intro schemas ih q
      split
      · rfl
      · exact coerceWithUnionSchema_prim R schemas q ih
    unfold coerceWithJsonSchema made
    rw [coerceAll_prim R allOf p hallOf]
    simp only [bind, Except.bind]
    rw [hunion anyOf hanyOf]
    simp only
    rw [hunion oneOf honeOf]
    simp only
    rw [coerceByTypes_prim]
    rfl

theorem coerceSafe_prim (p : Primitive) : CoerceSafe R schema (.prim p) := by
  induction schema using Schema.ind with
  | mk types properties required items prefixItems additional patterns enum bounds allOf anyOf oneOf
      _ _ _ _ hallOf _ _ =>
    unfold CoerceSafe
    refine ⟨?_, trivial⟩
    induction allOf with
    | nil => trivial
    | cons schema rest ih =>
      exact ⟨hallOf schema mem_cons_self, ih fun other hother => hallOf other (mem_cons_of_mem schema hother)⟩

theorem made_valid (p : Primitive) (h : check R schema (.prim p) = true) : made R schema p = p := by
  have hkeeps := coerceWithJsonSchema_valid R schema (.prim p) h (coerceSafe_prim R schema p)
  rw [coerceWithJsonSchema_prim] at hkeeps
  exact Value.prim.inj (Except.ok.inj hkeeps)

/-! ## Tool calls -/

def isObject : Value → Bool
  | .arr _ | .obj _ => true
  | _ => false

/-- What is returned is valid. -/
def Returned (tool : Tool) (toolCall : ToolCall) : Prop :=
  ∀ value, (validateToolArguments R tool toolCall).1 = .ok value → check R tool.parameters value = true

/-- What is promised of a call: what is returned is valid, valid arguments are returned, and its own are kept. -/
structure Sound (tool : Tool) (toolCall : ToolCall) : Prop where
  valid : Returned R tool toolCall
  kept : check R tool.parameters toolCall.arguments = true →
    (validateToolArguments R tool toolCall).1 = .ok toolCall.arguments
  untouched : (validateToolArguments R tool toolCall).2 = toolCall

structure Converts (schema : Schema) : Prop where
  valid : ∀ value, check R schema value = true → R.convert schema value = value
  inPlace : ∀ value, isObject value = true → isObject (R.convert schema value) = true

/-- What a primitive is made into is the primitive or is valid. -/
def PrimitiveSafe (schema : Schema) : Value → Prop
  | .prim p => made R schema p = p ∨ check R schema (.prim (made R schema p)) = true
  | _ => True

/-- Where the arguments are valid, coercion and validator agree on the schemas. -/
structure Agreeing (tool : Tool) (toolCall : ToolCall) : Prop where
  nulls : check R tool.parameters toolCall.arguments = true → NullSafe tool.parameters toolCall.arguments
  coerced : check R tool.parameters toolCall.arguments = true → tool.typeBox = false →
    CoerceSafe R tool.parameters toolCall.arguments

theorem isObject_normalizeOptionalNulls : isObject (normalizeOptionalNulls R schema value) = isObject value := by
  cases schema
  cases value <;> unfold normalizeOptionalNulls <;> rfl

def converted (tool : Tool) (value : Value) : Value :=
  convertInPlace R tool.parameters (normalizeOptionalNulls R tool.parameters value)

theorem isObject_converted (tool : Tool) (hconvert : Converts R tool.parameters) (h : isObject value = true) :
    isObject (converted R tool value) = true := by
  unfold converted
  rw [← isObject_normalizeOptionalNulls R tool.parameters] at h
  generalize normalizeOptionalNulls R tool.parameters value = args at h ⊢
  unfold convertInPlace
  cases args with
  | prim p => cases h
  | native name => cases h
  | arr values => exact hconvert.inPlace _ h
  | obj fields => exact hconvert.inPlace _ h

theorem converted_prim (tool : Tool) (p : Primitive) : converted R tool (.prim p) = .prim p := by
  unfold converted
  cases tool.parameters
  unfold normalizeOptionalNulls
  rfl

variable (tool : Tool) (toolCall : ToolCall)

theorem converted_valid (hconvert : Converts R tool.parameters)
    (h : Agreeing R tool toolCall) (hvalid : check R tool.parameters toolCall.arguments = true) :
    converted R tool toolCall.arguments = toolCall.arguments := by
  unfold converted
  rw [normalizeOptionalNulls_valid R tool.parameters toolCall.arguments hvalid (h.nulls hvalid)]
  unfold convertInPlace
  split
  · next h => exact h.symm
  · next h => exact h.symm
  · exact hconvert.valid _ hvalid

theorem returned_typeBox (hjson : isCloneable toolCall.arguments = true)
    (htypeBox : tool.typeBox = true) : (validateToolArguments R tool toolCall).1 =
      if check R tool.parameters (converted R tool toolCall.arguments) then
        .ok (converted R tool toolCall.arguments)
      else .error .invalid := by
  unfold validateToolArguments structuredClone
  simp only [hjson, htypeBox, if_true]
  rfl

theorem returned_object (hjson : isCloneable toolCall.arguments = true) (htypeBox : tool.typeBox = false)
    (hobject : isObject (converted R tool toolCall.arguments) = true) :
    (validateToolArguments R tool toolCall).1 =
      (coerceWithJsonSchema R tool.parameters (converted R tool toolCall.arguments)).bind (fun coerced =>
        if check R tool.parameters coerced then .ok coerced else .error .invalid) := by
  unfold validateToolArguments structuredClone
  unfold converted at hobject ⊢
  simp only [hjson, htypeBox, if_true, bind, Except.bind]
  cases hargs : convertInPlace R tool.parameters (normalizeOptionalNulls R tool.parameters toolCall.arguments) with
  | prim p => rw [hargs] at hobject; cases hobject
  | native name => rw [hargs] at hobject; cases hobject
  | arr values => rfl
  | obj fields => rfl

theorem returned_prim (p : Primitive) (h : toolCall.arguments = .prim p) (htypeBox : tool.typeBox = false) :
    (validateToolArguments R tool toolCall).1 =
      if made R tool.parameters p = p then
        if check R tool.parameters (.prim p) then .ok (.prim p) else .error .invalid
      else if check R tool.parameters (.prim (made R tool.parameters p)) then .ok (.prim (made R tool.parameters p))
      else .ok (.prim p) := by
  have hconverted := converted_prim R tool p
  unfold converted at hconverted
  have hclone : structuredClone (.prim p) = .ok (.prim p) := rfl
  have hsame : same (.prim (made R tool.parameters p)) (.prim p) = decide (made R tool.parameters p = p) := by
    unfold same
    rfl
  unfold validateToolArguments
  rw [h, hclone]
  simp only [htypeBox, bind, Except.bind]
  rw [hconverted, coerceWithJsonSchema_prim]
  simp only [hsame, decide_eq_true_eq]
  rfl

theorem valid_of_accept (args value : Value) (schema : Schema)
    (h : (if check R schema args then Except.ok args else .error Failure.invalid) = .ok value) :
    check R schema value = true := by
  split at h
  · next hchecked =>
    obtain rfl := Except.ok.inj h
    exact hchecked
  · cases h

theorem returned_of_typeBox (hjson : isCloneable toolCall.arguments = true) (htypeBox : tool.typeBox = true) :
    Returned R tool toolCall := by
  intro value hvalue
  rw [returned_typeBox R tool toolCall hjson htypeBox] at hvalue
  exact valid_of_accept R _ value tool.parameters hvalue

theorem returned_of_object (hjson : isCloneable toolCall.arguments = true) (htypeBox : tool.typeBox = false)
    (hconvert : Converts R tool.parameters) (hobject : isObject toolCall.arguments = true) :
    Returned R tool toolCall := by
  intro value hvalue
  rw [returned_object R tool toolCall hjson htypeBox (isObject_converted R _ tool hconvert hobject)] at hvalue
  cases hcoerced : coerceWithJsonSchema R tool.parameters (converted R tool toolCall.arguments) with
  | error failure =>
    rw [hcoerced] at hvalue
    cases hvalue
  | ok coerced =>
    rw [hcoerced] at hvalue
    exact valid_of_accept R coerced value tool.parameters hvalue

/-- A primitive that is made into something else that is not valid comes back as it was, and that is not valid
either. -/
theorem returned_prim_iff (p : Primitive) (h : toolCall.arguments = .prim p) (htypeBox : tool.typeBox = false) :
    Returned R tool toolCall ↔ PrimitiveSafe R tool.parameters (.prim p) := by
  unfold Returned PrimitiveSafe
  rw [returned_prim R tool toolCall p h htypeBox]
  by_cases hsame : made R tool.parameters p = p
  · rw [if_pos hsame]
    exact ⟨fun _ => .inl hsame, fun _ value hvalue => valid_of_accept R _ value tool.parameters hvalue⟩
  rw [if_neg hsame]
  by_cases hmade : check R tool.parameters (.prim (made R tool.parameters p)) = true
  · rw [if_pos hmade]
    refine ⟨fun _ => .inr hmade, fun _ value hvalue => ?_⟩
    obtain rfl := Except.ok.inj hvalue
    exact hmade
  · rw [if_neg hmade]
    refine ⟨fun hvalid => ?_, fun hsafe => ?_⟩
    · exact absurd (made_valid R tool.parameters p (hvalid _ rfl)) hsame
    · exact absurd hsafe (not_or_intro hsame hmade)

theorem returned_iff (hjson : isCloneable toolCall.arguments = true) (hconvert : Converts R tool.parameters) :
    Returned R tool toolCall ↔ tool.typeBox = true ∨ PrimitiveSafe R tool.parameters toolCall.arguments := by
  cases htypeBox : tool.typeBox with
  | true => exact ⟨fun _ => .inl rfl, fun _ => returned_of_typeBox R tool toolCall hjson htypeBox⟩
  | false =>
    simp only [Bool.false_eq_true, false_or]
    cases harguments : toolCall.arguments with
    | prim p => exact returned_prim_iff R tool toolCall p harguments htypeBox
    | native name =>
      rw [harguments] at hjson
      cases hjson
    | arr values =>
      exact ⟨fun _ => trivial, fun _ => returned_of_object R tool toolCall hjson htypeBox hconvert
        (by rw [harguments]; rfl)⟩
    | obj fields =>
      exact ⟨fun _ => trivial, fun _ => returned_of_object R tool toolCall hjson htypeBox hconvert
        (by rw [harguments]; rfl)⟩

theorem returned_valid (hjson : isCloneable toolCall.arguments = true) (hconvert : Converts R tool.parameters)
    (h : Agreeing R tool toolCall) (hvalid : check R tool.parameters toolCall.arguments = true) :
    (validateToolArguments R tool toolCall).1 = .ok toolCall.arguments := by
  have hconverted := converted_valid R tool toolCall hconvert h hvalid
  cases htypeBox : tool.typeBox with
  | true => rw [returned_typeBox R tool toolCall hjson htypeBox, hconverted, if_pos hvalid]
  | false =>
    cases hobject : isObject toolCall.arguments with
    | true =>
      have hkeeps := coerceWithJsonSchema_valid R tool.parameters _ hvalid (h.coerced hvalid htypeBox)
      rw [returned_object R tool toolCall hjson htypeBox (hconverted.symm ▸ hobject), hconverted, hkeeps]
      exact if_pos hvalid
    | false =>
      cases harguments : toolCall.arguments with
      | prim p =>
        rw [harguments] at hvalid
        rw [returned_prim R tool toolCall p harguments htypeBox, if_pos (made_valid R tool.parameters p hvalid),
          if_pos hvalid]
      | native name => rw [harguments] at hjson; cases hjson
      | arr values => rw [harguments] at hobject; cases hobject
      | obj fields => rw [harguments] at hobject; cases hobject

/-- What is returned is valid just where a primitive is made into itself or something valid, and all that is promised
holds where moreover coercion and validator agree. -/
theorem validateToolArguments_sound (tool : Tool) (toolCall : ToolCall)
    (hjson : isCloneable toolCall.arguments = true) (hconvert : Converts R tool.parameters) :
    (Returned R tool toolCall ↔ tool.typeBox = true ∨ PrimitiveSafe R tool.parameters toolCall.arguments) ∧
      (tool.typeBox = true ∨ PrimitiveSafe R tool.parameters toolCall.arguments → Agreeing R tool toolCall →
        Sound R tool toolCall) := by
  have hreturned := returned_iff R tool toolCall hjson hconvert
  exact ⟨hreturned, fun hsafe h => ⟨hreturned.mpr hsafe, returned_valid R tool toolCall hjson hconvert h, rfl⟩⟩

/-! ## A key that a pattern names -/

/-- One number is written and read, every key matches every pattern, and nothing is converted. -/
def plainRuntime : Runtime where
  numberText n := if n = 5 then js "5" else js "?"
  toNumber text := if text = js "5" then some 5 else none
  textLength := List.length
  test _ _ := true
  convert _ value := value

def ofType (type : SchemaType) : Schema := .mk [type] [] [] .absent [] .absent [] [] [] [] [] []

def patternTool : Tool :=
  ⟨.mk [.object] [] [] .absent [] (.schema (ofType .number)) [(js "^x", ofType .string)] [] [] [] [] [], false⟩

def patternCall : ToolCall := ⟨.obj [(js "x", .prim (.str (js "5")))]⟩

theorem plainRuntime_converts : Converts plainRuntime schema := ⟨fun _ _ => rfl, fun _ h => h⟩

theorem pattern_key_rejected : Converts plainRuntime patternTool.parameters ∧
    isCloneable patternCall.arguments = true ∧
    ¬Sound plainRuntime patternTool patternCall := by
  refine ⟨plainRuntime_converts _, rfl, fun h => ?_⟩
  have hkept := h.kept (by decide)
  have hthrown : (validateToolArguments plainRuntime patternTool patternCall).1 = .error .invalid := rfl
  rw [hthrown] at hkept
  cases hkept

def plainTool : Tool :=
  ⟨.mk [.object] [(js "n", ofType .number),
      (js "tags", .mk [.array] [] [] (.all (ofType .string)) [] .absent [] [] [] [] [] []),
      (js "choice", .mk [] [] [] .absent [] .absent [] [] [] [] [ofType .number, ofType .string] [])]
    [js "n"] .absent [] .absent [] [] [] [] [] [], false⟩

def plainCall : ToolCall :=
  ⟨.obj [(js "n", .prim (.num 5)), (js "tags", .arr [.prim (.str (js "a"))]), (js "choice", .prim (.str (js "5")))]⟩

/-- A number that is at least `least`. -/
def numberTool (least : ℚ) : Tool := ⟨.mk [.number] [] [] .absent [] .absent [] [] [.minimum least] [] [] [], false⟩

def textCall : ToolCall := ⟨.prim (.str (js "5"))⟩

theorem at_some {found : Option Value} (value : Value) {P : Value → Prop} (h : found = some value) (hvalue : P value) :
    ∀ other, found = some other → P other := by
  intro other hother
  rw [h] at hother
  exact Option.some.inj hother ▸ hvalue

theorem plainCall_agreeing : Agreeing plainRuntime plainTool plainCall := by
  have htexts : ∀ value ∈ [Value.prim (.str (js "a"))], CoerceSafe plainRuntime (ofType .string) value := by
    intro value hvalue
    rw [mem_singleton.mp hvalue]
    exact coerceSafe_prim plainRuntime _ _
  refine ⟨fun _ => ?_, fun _ _ => ?_⟩
  · refine ⟨at_some (.prim (.num 5)) rfl trivial, at_some (.arr [.prim (.str (js "a"))]) rfl ⟨.inl rfl, ?_⟩,
      at_some (.prim (.str (js "5"))) rfl trivial, trivial⟩
    intro value hvalue
    rw [mem_singleton.mp hvalue]
    trivial
  · refine ⟨trivial, fun _ => ⟨⟨?_, ?_, ?_, trivial⟩, trivial⟩⟩
    · exact at_some (.prim (.num 5)) rfl ⟨rfl, coerceSafe_prim plainRuntime _ _⟩
    · exact at_some (.arr [.prim (.str (js "a"))]) rfl ⟨rfl, trivial, fun _ => ⟨.inl rfl, htexts⟩⟩
    · exact at_some (.prim (.str (js "5"))) rfl ⟨rfl, coerceSafe_prim plainRuntime _ _⟩

theorem validateToolArguments_sound_plain :
    Sound plainRuntime plainTool plainCall ∧
      Sound plainRuntime (numberTool 1) textCall ∧
      (validateToolArguments plainRuntime (numberTool 1) textCall).1 = .ok (.prim (.num 5)) ∧
      ¬ Returned plainRuntime (numberTool 10) textCall := by
  have hmade : ∀ least, made plainRuntime (numberTool least).parameters (.str (js "5")) = .num 5 := fun _ => rfl
  refine ⟨?_, ?_, ?_, ?_⟩
  · exact (validateToolArguments_sound plainRuntime plainTool plainCall rfl (plainRuntime_converts _)).2 (.inr trivial)
      plainCall_agreeing
  · have hinvalid : check plainRuntime (numberTool 1).parameters textCall.arguments = false := by decide +kernel
    refine (validateToolArguments_sound plainRuntime (numberTool 1) textCall rfl (plainRuntime_converts _)).2
      (.inr (.inr (by decide +kernel))) ⟨fun h => ?_, fun h => ?_⟩
    · rw [hinvalid] at h
      cases h
    · rw [hinvalid] at h
      cases h
  · rw [returned_prim plainRuntime (numberTool 1) textCall (.str (js "5")) rfl rfl, hmade, if_neg (by decide),
      if_pos (by decide +kernel)]
  · rw [(validateToolArguments_sound plainRuntime (numberTool 10) textCall rfl (plainRuntime_converts _)).1]
    rintro (h | h | h)
    · cases h
    · rw [hmade] at h
      cases h
    · rw [hmade] at h
      exact absurd h (by decide +kernel)

end PiAgent.Ai.Validation
