import PiAgent.Chord.SchemaSound

/-! # Contract coverage is sound -/

namespace PiAgent.Schemas

open Option List Assoc JsonValue

section Coverage

variable (test : JsString → JsString → Bool) (accepts : JsString → Primitive → Primitive → Prop)

theorem arrayFits_spec (fits : Option JsonValue → Option JsonValue → Bool) (sub sup : Schema)
    (h : arrayFits fits sub sup = true) (i : ℕ)
    (hi : ∀ items, get? sub (js "items") = some (.arr items) → i < items.length) :
    fits (itemSchema sub i) (itemSchema sup i) = true := by
  unfold arrayFits at h
  split at h
  · rename_i subItems supItems hs ht
    have hlt := hi subItems hs
    rw [Bool.and_eq_true, beq_iff_eq] at h
    have hsub : itemSchema sub i = some subItems[i] := by
      unfold itemSchema
      rw [hs]
      simp [hlt]
    have hsup : itemSchema sup i = supItems[i]? := by
      unfold itemSchema
      rw [ht]
      simp [show i < supItems.length by omega]
    have := all_eq_true.mp h.2 (subItems[i], i) (mk_mem_zipIdx_iff_getElem?.mpr (by simp [hlt]))
    rw [hsub, hsup]
    exact this
  · cases h
  · rename_i subItems hs ht
    have hlt := hi subItems hs
    have hsub : itemSchema sub i = some subItems[i] := by
      unfold itemSchema
      rw [hs]
      simp [hlt]
    have hsup : itemSchema sup i = get? sup (js "items") := by
      unfold itemSchema
      split
      · exact absurd (by assumption) (ht _)
      · rfl
    rw [hsub, hsup]
    exact all_eq_true.mp h subItems[i] (getElem_mem hlt)
  · rename_i hs ht _
    have hsub : itemSchema sub i = get? sub (js "items") := by
      unfold itemSchema
      split
      · exact absurd (by assumption) (hs _)
      · rfl
    have hsup : itemSchema sup i = get? sup (js "items") := by
      unfold itemSchema
      split
      · exact absurd (by assumption) (ht _)
      · rfl
    rw [hsub, hsup]
    exact h

theorem load_itemSchema_lt (schema : Schema) (i : ℕ) (hne : schema ≠ []) :
    load (itemSchema schema i) < weight (.obj schema) := by
  unfold itemSchema
  split
  · rename_i items h
    cases hi : items[i]? with
    | none => exact load_get?_lt schema _ hne
    | some t => exact weight_mem_arr schema _ items t h (mem_of_getElem? hi)
  · exact load_get?_lt schema _ hne

theorem isFalse_not_isObject (s : Option JsonValue) (h : isFalse s = true) : ¬ isObject s = true := by
  unfold isFalse at h
  split at h
  · simp [isObject]
  · cases h

theorem values_of_hasValues (schema : Schema) (h : hasValues schema = true) :
    ∃ values, valuesOf schema = some values := by
  unfold hasValues at h
  unfold valuesOf
  cases hc : get? schema (js "const") with
  | some x => exact ⟨_, rfl⟩
  | none =>
    rw [hc] at h
    split at h
    · rename_i hnone
      cases hnone
    · rename_i he _
      rw [he]
      exact ⟨_, rfl⟩
    · cases h

theorem shaped_nil : Shaped [] := by
  refine ⟨by simp, by simp, by simp [stringsOf, listOf], .inl rfl, by simp, by simp, by simp, by simp, by simp, ?_⟩
  simp [typesOf]

theorem parts_none (t : Option JsonValue) (h : Relation.ReflTransGen Part none t) : t = none := by
  induction h with
  | refl => rfl
  | tail _ hp ih =>
    subst ih
    cases hp with
    | branch branches branch hb hm => cases hb
    | property name u hu => cases hu
    | pattern pattern u hu => cases hu
    | additional => rfl
    | item i => rfl

theorem produced_none : Produced none := by
  refine ⟨fun _ hv => (nomatch hv), fun t ht _ => ?_⟩
  rw [parts_none t ht]
  exact shaped_nil

theorem strip_none (v : JsonValue) : Strip test accepts none v v := by
  induction hn : weight v using Nat.strong_induction_on generalizing v with
  | _ n ih =>
    subst hn
    rw [strip_iff]
    cases v with
    | prim p => exact rfl
    | arr items =>
      refine ⟨items, rfl, rfl, fun i x y hx hy => ?_⟩
      obtain rfl := some.inj (hx.symm.trans hy)
      exact ih _ (weight_lt_arr items x (mem_of_getElem? hx)) x rfl
    | obj fields =>
      refine ⟨fields, rfl, (filter_eq_self.mpr fun _ _ => rfl).symm, fun name x y hx hy => ?_⟩
      obtain rfl := some.inj (hx.symm.trans hy)
      have := weight_lt_obj fields name x (mem_of_get? fields name x hx)
      exact ih _ (by omega) x rfl

section

variable {s t : Option JsonValue} (h : Part s t)
include h

theorem Part.load_lt (hne : keywords s ≠ []) : load t < weight (.obj (keywords s)) := by
  cases h with
  | branch branches branch h hm => exact weight_mem_arr _ _ branches branch h hm
  | property name t h => exact weight_mem_schemasOf _ _ name t (mem_of_get? _ name t h)
  | pattern pattern t h => exact load_pattern _ pattern t h
  | additional => exact load_get?_lt _ _ hne
  | item i => exact load_itemSchema_lt _ i hne

theorem Part.load_le : load t ≤ weight (.obj (keywords s)) := by
  by_cases hne : keywords s = []
  · cases h with
    | additional => exact load_get? _ _
    | item i => exact load_itemSchema _ i
    | branch branches branch h hm => simp [hne] at h
    | property name t h => simp [hne, propertiesOf, schemasOf, asSchema] at h
    | pattern pattern t h => simp [hne, patternsOf, schemasOf, asSchema] at h
  · exact le_of_lt (h.load_lt hne)

end

structure Compared (a b : Option JsonValue) : Prop where
  left : Produced a
  right : Produced b
  shapeLeft : Shaped (keywords a)
  shapeRight : Shaped (keywords b)
  different : ¬ Identical a b
  nonempty : keywords b ≠ []
  harmless : Harmless test accepts a b
  parts : ∀ s t, Asks test (a, b) (s, t) → Produced s → Produced t → load s + load t < load a + load b →
    fits test s t = true → Covers test accepts s t

namespace Compared

variable {test accepts} {a b : Option JsonValue} (c : Compared test accepts a b)

include c

/-- A pair of parts that the comparison comes to. -/
theorem part {s t : Option JsonValue} (hask : Asks test (a, b) (s, t)) (hs : Part a s) (ht : Part b t)
    (hfit : fits test s t = true) : Covers test accepts s t := by
  have ha := weight_keywords a
  have hb := weight_keywords b
  have hs' := hs.load_le
  have ht' := ht.load_lt c.nonempty
  exact c.parts s t hask (c.left.part hs) (c.right.part ht) (by omega) hfit

theorem outer (v w : JsonValue) (hv : Valid test accepts a v) (hw : Strip test accepts a v w)
    (hfit : typedFits test (fits test) (keywords a) (keywords b) = true)
    (hconst : get? (keywords b) (js "const") = none)
    (henum : ∀ values, get? (keywords b) (js "enum") ≠ some (.arr values))
    (hplain : ∀ branches, get? (keywords b) (js "anyOf") ≠ some (.arr branches)) :
    Outer accepts (keywords b) w := by
  have hkind := strip_sameKind test accepts a v w hw
  have hold := (valid_iff test accepts a v).mp hv
  unfold typedFits at hfit
  rw [Bool.and_eq_true] at hfit
  refine ⟨?_, ?_, ?_, ?_, c.shapeRight.known, hplain⟩
  · intro types ht
    rw [ht] at hfit
    cases hs : typesOf (keywords a) with
    | none => simp [hs] at hfit
    | some subTypes =>
      rw [hs] at hfit
      obtain ⟨type, hm, htype⟩ := hold.type subTypes hs
      have hfits : typesFit subTypes types = true := (Bool.and_eq_true_iff.mp hfit.2).1
      exact typesFit_spec subTypes types hfits type hm w (hasType_sameKind type v w hkind htype)
  · intro value hval
    rw [hconst] at hval
    cases hval
  · intro values hval
    exact absurd hval (henum values)
  · intro keyword hk p hp
    have hsub := constraintsFit_spec (keywords a) (keywords b) c.shapeRight hfit.1 keyword hk p hp
    exact meets_sameKind accepts keyword p v w hkind (hold.constraints keyword hk p hsub)
      (fun hm => c.harmless.keeps.meets test accepts c.left.shaped hv hw keyword hm p hp
        (hold.constraints keyword hk p hsub))

theorem arr_covers (items items' : List JsonValue) (hv : Valid test accepts a (.arr items))
    (hl : items'.length = items.length)
    (hstrip : ∀ i x y, items[i]? = some x → items'[i]? = some y →
      Strip test accepts (itemSchema (keywords a) i) x y)
    (hfit : arrayFits (fits test) (keywords a) (keywords b) = true)
    (hout : Outer accepts (keywords b) (.arr items')) : Valid test accepts b (.arr items') := by
  have hold := (valid_iff test accepts a _).mp hv
  rw [valid_iff]
  refine hout.arr test accepts (fun i y hy => ?_)
  obtain ⟨x, hx⟩ : ∃ x, items[i]? = some x := by
    have := (List.getElem?_eq_some_iff.mp hy).1
    exact ⟨_, getElem?_eq_getElem (by omega)⟩
  have hvx := hold.items i x hx
  -- a tuple is closed, so there is no item past its end
  have hi : ∀ ss, get? (keywords a) (js "items") = some (.arr ss) → i < ss.length := by
    intro ss hss
    by_contra hge
    have hfalse : itemSchema (keywords a) i = some (.prim (.bool false)) := by
      unfold itemSchema
      rw [hss]
      simp [getElem?_eq_none (not_lt.mp hge), c.shapeLeft.tuple ss hss]
    rw [hfalse] at hvx
    exact not_valid_false test accepts x hvx
  exact c.part (.item a b c.different i hi) (.item a i) (.item b i) (arrayFits_spec _ _ _ hfit i hi) x y hvx
    (hstrip i x y hx hy)

/-- What `in` finds in every object is compared as no schema at all, so `b` takes every value there. -/
theorem inherited_valid (name : JsString) (t : JsonValue) (hn : name ∈ prototypeNames)
    (ht : get? (propertiesOf (keywords b)) name = some t ∨ get? (patternsOf (keywords b)) name = some t)
    (hf : fits test none (some t) = true) (y : JsonValue) : Valid test accepts (some t) y := by
  have hpart : Part b (some t) := by
    rcases ht with ht | ht
    · exact .property b name t ht
    · exact .pattern b name t ht
  have hlb := weight_keywords b
  have hlt := hpart.load_lt c.nonempty
  have hnone : load none ≤ load a := load_pos a
  refine c.parts none _ (.inherited a b c.different name t hn ht) produced_none (c.right.part hpart) (by omega) hf y y
    (valid_of_empty test accepts none rfl y) (strip_none test accepts y)

theorem known_cases (fields : List (JsString × JsonValue)) (hv : Valid test accepts a (.obj fields))
    (htypes : (typesOf (keywords a)).isSome) (name : JsString) (hk : knows test (keywords a) name = true) :
    (∃ s, get? (propertiesOf (keywords a)) name = some s) ∨
    (∃ pattern s, get? (patternsOf (keywords a)) pattern = some s ∧ test pattern name = true) ∨
    isObject (get? (keywords a) (js "additionalProperties")) = true ∧ IsAdditional test (keywords a) name := by
  have hold := (valid_iff test accepts a _).mp hv
  obtain ⟨types, htypes⟩ := isSome_iff_exists.mp htypes
  obtain ⟨type, hm, ht⟩ := hold.type types htypes
  obtain rfl : type = js "object" := ht
  cases hs : get? (propertiesOf (keywords a)) name with
  | some s => exact .inl ⟨s, rfl⟩
  | none =>
    right
    by_cases hpat : ∃ pattern s, get? (patternsOf (keywords a)) pattern = some s ∧ test pattern name = true
    · exact .inl hpat
    · right
      have hadd : IsAdditional test (keywords a) name := by
        refine ⟨hs, fun pattern s hp => ?_⟩
        by_contra ht
        exact hpat ⟨pattern, s, hp, by simpa using ht⟩
      refine ⟨?_, hadd⟩
      unfold knows at hk
      simp only [Bool.or_eq_true, Bool.and_eq_true, Bool.not_eq_true'] at hk
      rcases hk with ((hno | hprop) | hany) | ho
      · rcases (c.shapeLeft.types types htypes).2 hm with h | h
        · rw [hno.1] at h
          cases h
        · rw [hno.2] at h
          cases h
      · rw [has, hs] at hprop
        cases hprop
      · exfalso
        obtain ⟨p, hp, ht⟩ := any_eq_true.mp hany
        rcases c.shapeLeft.record with hnil | ⟨-, q, hq⟩
        · rw [hnil] at hp
          simp at hp
        · rw [hq, mem_singleton] at hp
          subst hp
          exact hpat ⟨p.1, p.2, by rw [hq]; exact get?_cons_self _ _ _, ht⟩
      · exact ho

section Object

variable (fields fields' : List (JsString × JsonValue)) (hv : Valid test accepts a (.obj fields))
  (hk : keys fields' = (keys fields).filter (knows test (keywords a)))
  (hstrip : ∀ name x y, get? fields name = some x → get? fields' name = some y →
    Strip test accepts (fieldSchema test (keywords a) name) x y)
include hv hk hstrip

/-- Every field that is left comes from a field of the value, and is known. -/
theorem field_covers (name : JsString) (y : JsonValue) (hy : get? fields' name = some y) :
    knows test (keywords a) name = true ∧
      ∀ s t, fieldSchema test (keywords a) name = s → Covers test accepts s t → Valid test accepts t y := by
  have hold := (valid_iff test accepts a _).mp hv
  obtain ⟨hkn, x, hx⟩ := field_of_kept test _ fields fields' hk name y hy
  refine ⟨hkn, fun s t hs hcov => ?_⟩
  subst hs
  exact hcov x y (valid_fieldSchema test accepts _ _ hold c.shapeLeft.record name x hx) (hstrip name x y hx hy)

variable (htypes : (typesOf (keywords a)).isSome) (hfit : ObjectFits test (fits test) (keywords a) (keywords b))
include htypes hfit

theorem property_covers (name : JsString) (y t : JsonValue) (hy : get? fields' name = some y)
    (ht : get? (propertiesOf (keywords b)) name = some t) : Valid test accepts (some t) y := by
  obtain ⟨hkn, hcov⟩ := c.field_covers fields fields' hv hk hstrip name y hy
  have hinherited : get? (propertiesOf (keywords a)) name = none → name ∈ prototypeNames →
      Valid test accepts (some t) y := by
    intro hnone hn
    have hf := hfit.properties name t ht (by simp [isIn, hn])
    rw [hnone] at hf
    exact c.inherited_valid name t hn (.inl ht) hf y
  rcases c.known_cases fields hv htypes name hkn with ⟨s, hs⟩ | ⟨pattern, s, hs, hm⟩ | ⟨ho, had⟩
  · have hf := hfit.properties name t ht (by simp [isIn, has, hs])
    rw [hs] at hf
    refine hcov (some s) (some t) (by unfold fieldSchema; rw [hs]) ?_
    exact c.part (.property a b c.different name s t hs ht) (.property a name s hs) (.property b name t ht) hf
  · by_cases hn : name ∈ prototypeNames
    · refine hinherited ?_ hn
      rcases c.shapeLeft.record with hnil | ⟨hnil, -⟩
      · rw [hnil] at hs
        cases hs
      · rw [hnil]
        rfl
    · refine hcov (some s) (some t) (fieldSchema_pattern test _ name pattern s c.shapeLeft.record hs hm) ?_
      exact c.part (.optional a b c.different pattern name s t hs ht hm) (.pattern a pattern s hs)
        (.property b name t ht) (c.harmless.optional pattern s name t hs ht hm hn)
  · by_cases hn : name ∈ prototypeNames
    · exact hinherited had.1 hn
    have hf := hfit.additional name t ht (by simp [isIn, has, had.1, hn]) ho
    refine hcov _ (some t) (fieldSchema_additional test _ name c.shapeLeft.record had) ?_
    exact c.part (.additional a b c.different name t had.1 ho ht) (.additional a) (.property b name t ht) hf

theorem pattern_covers (name : JsString) (y : JsonValue) (hy : get? fields' name = some y) (pattern : JsString)
    (t : JsonValue) (ht : get? (patternsOf (keywords b)) pattern = some t) (hm : test pattern name = true) :
    Valid test accepts (some t) y := by
  obtain ⟨hkn, hcov⟩ := c.field_covers fields fields' hv hk hstrip name y hy
  have hne : patternsOf (keywords b) ≠ [] := by
    intro hnil
    rw [hnil] at ht
    cases ht
  have hprops : propertiesOf (keywords b) = [] := by
    rcases c.shapeRight.record with h | h
    · exact absurd h hne
    · exact h.1
  have hpattern : patternsOf (keywords a) ≠ [] → Valid test accepts (some t) y := by
    intro hnea
    obtain ⟨hin, hf⟩ := hfit.patterns pattern t ht hnea
    cases hs : get? (patternsOf (keywords a)) pattern with
    | none =>
      rw [hs] at hf
      exact c.inherited_valid pattern t (by simpa [isIn, has, hs] using hin) (.inr ht) hf y
    | some s =>
    rw [hs] at hf
    refine hcov (some s) (some t) (fieldSchema_pattern test _ name pattern s c.shapeLeft.record hs hm) ?_
    exact c.part (.pattern a b c.different pattern s t hs ht) (.pattern a pattern s hs) (.pattern b pattern t ht) hf
  rcases c.known_cases fields hv htypes name hkn with ⟨s, hs⟩ | ⟨q, u, hu, -⟩ | ⟨ho, -⟩
  · have hf : fits test (some s) (some t) = true := by
      by_cases hn : name ∈ prototypeNames
      · exact c.harmless.inherited name s pattern t hs ht hm hn
      · exact hfit.named pattern t ht name s hs (by simp [isIn, hprops, has, hn]) hm
    refine hcov (some s) (some t) (by unfold fieldSchema; rw [hs]) ?_
    exact c.part (.named a b c.different name pattern s t hs ht hm) (.property a name s hs) (.pattern b pattern t ht) hf
  · refine hpattern (fun hnil => ?_)
    rw [hnil] at hu
    cases hu
  · refine hpattern ?_
    rcases hfit.bounded hne with hfalse | hnea
    · exact absurd ho (isFalse_not_isObject _ hfalse)
    · exact hnea

/-- No field of a closed object is additional. -/
theorem closed_covers (name : JsString) (y : JsonValue) (hy : get? fields' name = some y)
    (hfalse : isFalse (get? (keywords b) (js "additionalProperties")) = true) :
    ¬ IsAdditional test (keywords b) name := by
  intro hn
  obtain ⟨hkn, -⟩ := c.field_covers fields fields' hv hk hstrip name y hy
  obtain ⟨hsub, hnames⟩ := hfit.closed hfalse
  rcases c.known_cases fields hv htypes name hkn with ⟨s, hs⟩ | ⟨q, u, hu, hm⟩ | ⟨ho, -⟩
  · have hin := hnames name s hs
    have hproto : name ∈ prototypeNames := by simpa [isIn, has, hn.1] using hin
    exact c.harmless.closed hfalse name (.inl ⟨by simp [has, hs], hproto⟩) hn
  · refine c.harmless.closed hfalse name (.inr ⟨q, u, hu, hm, ?_⟩) hn
    by_cases hnil : patternsOf (keywords b) = []
    · exact .inl hnil
    · have hin := hfit.covered hnil q u hu
      cases hq : get? (patternsOf (keywords b)) q with
      | none => exact .inr (by simpa [isIn, has, hq] using hin)
      | some t =>
        rw [hn.2 q t hq] at hm
        cases hm
  · exact isFalse_not_isObject _ hsub ho

theorem obj_covers (hadd : isSchemaKeyword (get? (keywords b) (js "additionalProperties")) = false)
    (hout : Outer accepts (keywords b) (.obj fields')) : Valid test accepts b (.obj fields') := by
  have hold := (valid_iff test accepts a _).mp hv
  rw [valid_iff]
  refine hout.obj test accepts ?_ ?_ ?_ ?_
  · intro name hn
    have hsub := hfit.required name hn
    exact has_of_known test _ fields fields' hk name (hold.required fields rfl name hsub)
      (knows_of_property test _ name (c.shapeLeft.required name hsub))
  · exact fun name y hy t ht => c.property_covers fields fields' hv hk hstrip htypes hfit name y t hy ht
  · exact fun name y hy => c.pattern_covers fields fields' hv hk hstrip htypes hfit name y hy
  · intro name y hy hn
    by_cases hfalse : isFalse (get? (keywords b) (js "additionalProperties")) = true
    · exact absurd hn (c.closed_covers fields fields' hv hk hstrip htypes hfit name y hy hfalse)
    · -- `additionalProperties` is absent or `true`
      refine valid_of_empty test accepts _ ?_ y
      revert hadd hfalse
      rcases get? (keywords b) (js "additionalProperties") with _ | (_ | (_ | _) | _ | _) | _ | _
      all_goals simp [isSchemaKeyword, isFalse, keywords, asSchema, withoutAnnotations]

end Object

theorem prim_of_values (v : JsonValue) (hv : Valid test accepts a v) (values : List JsonValue)
    (hs : valuesOf (keywords a) = some values) : ∃ p, v = .prim p ∧ .prim p ∈ values := by
  have hold := (valid_iff test accepts a v).mp hv
  unfold valuesOf at hs
  split at hs
  · rename_i value hc
    cases hs
    obtain ⟨p, rfl⟩ := c.shapeLeft.const value hc
    exact ⟨p, (eqv_prim_iff p v).mp (hold.const _ hc), by simp⟩
  · rename_i vs hc he
    cases hs
    obtain ⟨value, hm, heq⟩ := hold.enum _ he
    obtain ⟨p, rfl⟩ := c.shapeLeft.enum _ he value hm
    exact ⟨p, (eqv_prim_iff p v).mp heq, hm⟩
  · cases hs

theorem typed_covers (v w : JsonValue) (hv : Valid test accepts a v) (hw : Strip test accepts a v w)
    (hplain : ∀ branches, get? (keywords a) (js "anyOf") ≠ some (.arr branches))
    (hfit : typedFits test (fits test) (keywords a) (keywords b) = true)
    (hadd : isSchemaKeyword (get? (keywords b) (js "additionalProperties")) = false)
    (hout : Outer accepts (keywords b) w) : Valid test accepts b w := by
  have hold := (valid_iff test accepts a v).mp hv
  rw [strip_iff] at hw
  unfold StripsTo at hw
  split at hw
  · exact absurd (by assumption) (hplain _)
  unfold typedFits at hfit
  rw [Bool.and_eq_true] at hfit
  have hfit := hfit.2
  split at hfit
  · rename_i supTypes subTypes hsup hsub
    rw [Bool.and_eq_true, Bool.or_eq_true, Bool.and_eq_true, Bool.and_eq_true] at hfit
    have hvalues : v.isContainer = true → hasValues (keywords a) = true → False := by
      intro hcont hval
      obtain ⟨values, hs⟩ := values_of_hasValues (keywords a) hval
      obtain ⟨p, rfl, -⟩ := c.prim_of_values v hv values hs
      cases hcont
    have htypes : (typesOf (keywords a)).isSome := by
      rw [hsub]
      rfl
    obtain ⟨type, hm, ht⟩ := hold.type subTypes hsub
    cases v with
    | prim p =>
      obtain rfl : w = .prim p := hw
      rw [valid_iff]
      exact hout.prim test accepts
    | arr items =>
      obtain ⟨items', rfl, hl, hstrip⟩ := hw
      obtain rfl : type = js "array" := ht
      rcases hfit.2 with hval | hparts
      · exact (hvalues rfl hval).elim
      · have harr := hparts.1.2
        rw [contains_iff_mem.mpr hm] at harr
        exact c.arr_covers items items' hv hl hstrip (by simpa using harr) hout
    | obj fields =>
      obtain ⟨fields', rfl, hk, hstrip⟩ := hw
      obtain rfl : type = js "object" := ht
      rcases hfit.2 with hval | hparts
      · exact (hvalues rfl hval).elim
      · have hobj := hparts.1.1
        rw [contains_iff_mem.mpr hm] at hobj
        exact c.obj_covers fields fields' hv hk hstrip htypes
          (objectFits_spec test _ _ _ (by simpa using hobj)) hadd hout
  · cases hfit

theorem plain_covers (hplain : ∀ branches, get? (keywords a) (js "anyOf") ≠ some (.arr branches))
    (hplain' : ∀ branches, get? (keywords b) (js "anyOf") ≠ some (.arr branches))
    (hfit : plainFits test (fits test) (keywords a) (keywords b) = true)
    (hadd : isSchemaKeyword (get? (keywords b) (js "additionalProperties")) = false) :
    Covers test accepts a b := by
  intro v w hv hw
  have hkind := strip_sameKind test accepts a v w hw
  unfold plainFits at hfit
  split at hfit
  · rename_i value hc
    rw [Bool.and_eq_true] at hfit
    obtain ⟨x, hx⟩ := isSome_iff_exists.mp hfit.1
    have hvals : valuesOf (keywords a) = some [x] := by
      unfold valuesOf
      rw [hx]
    obtain ⟨p, rfl, hm⟩ := c.prim_of_values v hv [x] hvals
    obtain rfl := mem_singleton.mp hm
    obtain rfl : w = .prim p := hkind
    have heq := hfit.2
    rw [hx] at heq
    have hvalue : value = .prim p := by
      cases value with
      | prim q =>
        have : p = q := by simpa [deepEqual, equalJson] using heq
        rw [this]
      | arr items => simp [deepEqual, equalJson] at heq
      | obj fields => simp [deepEqual, equalJson] at heq
    refine c.harmless.literals [value] ?_ _ (by simp [hvalue])
    unfold valuesOf
    rw [hc]
  · rename_i allowed hc he
    split at hfit
    · rename_i values hvals
      obtain ⟨p, rfl, hm⟩ := c.prim_of_values v hv values hvals
      obtain rfl : w = .prim p := hkind
      obtain ⟨value, hmem, heq⟩ := any_eq_true.mp (all_eq_true.mp hfit _ hm)
      have hvalue := equalJson_prim value p heq
      subst hvalue
      refine c.harmless.literals allowed ?_ _ hmem
      unfold valuesOf
      rw [hc, he]
    · cases hfit
  · rename_i hc he
    have hout := c.outer v w hv hw hfit hc (fun values hval => he values hval) hplain'
    exact c.typed_covers v w hv hw hplain hfit hadd hout

theorem union_covers (hb : b ≠ some (.prim (.bool false))) (ha : a ≠ some (.prim (.bool false)))
    (hfit : unionFits test (fits test) (keywords a) (keywords b) = true)
    (hadd : isSchemaKeyword (get? (keywords b) (js "additionalProperties")) = false) :
    Covers test accepts a b := by
  have hla := weight_keywords a
  have hlb := weight_keywords b
  unfold unionFits at hfit
  split at hfit
  · rename_i branches hbr
    intro v w hv hw
    rw [strip_iff] at hw
    unfold StripsTo at hw
    rw [hbr] at hw
    obtain ⟨branch, hm, hvb, hwb⟩ := hw
    have hlt : load (some branch) < _ := weight_mem_arr _ _ branches branch hbr hm
    have hle : load (some (.obj (keywords b))) = weight (.obj (keywords b)) := rfl
    have hcov := c.parts _ _ (.left a b c.different branches branch hbr hm)
      (c.left.part (.branch a branches branch hbr hm)) (c.right.keywords hb) (by omega)
      (all_eq_true.mp hfit branch hm)
    exact (valid_congr test accepts _ b (keywords_obj_keywords b) w).mp (hcov v w hvb hwb)
  · rename_i branches hbr hna
    obtain ⟨branch, hfind⟩ := isSome_iff_exists.mp (find?_isSome.mpr (any_eq_true.mp hfit))
    have hm := mem_of_find?_eq_some hfind
    have hlt : load (some branch) < _ := weight_mem_arr _ _ branches branch hbr hm
    have hle : load (some (.obj (keywords a))) = weight (.obj (keywords a)) := rfl
    have hcov := c.parts _ _ (.right a b c.different branches branch hbr hfind) (c.left.keywords ha)
      (c.right.part (.branch b branches branch hbr hm)) (by omega) (by simpa using find?_some hfind)
    intro v w hv hw
    have hbranch := hcov v w ((valid_congr test accepts _ a (keywords_obj_keywords a) v).mpr hv)
      ((strip_congr test accepts _ a (keywords_obj_keywords a) v w).mpr hw)
    rw [valid_iff]
    refine holds_union test accepts (keywords b) w c.shapeRight (by simp [has, hbr]) ?_ ?_
    · intro branches' hb'
      rw [hbr] at hb'
      cases hb'
      exact ⟨branch, hm, hbranch⟩
    · intro keyword hk p hp
      have hnone : has (keywords a) (js "anyOf") = false := by
        cases hx : get? (keywords a) (js "anyOf") with
        | none => simp [has, hx]
        | some x =>
          obtain ⟨bs, rfl⟩ := (c.shapeLeft.union x hx).1
          exact absurd hx (hna bs)
      have hsub := c.harmless.siblings (by simp [has, hbr]) hnone keyword hk p hp
      exact meets_sameKind accepts keyword p v w (strip_sameKind test accepts a v w hw)
        (((valid_iff test accepts a v).mp hv).constraints keyword hk p hsub)
        (fun hmem => c.harmless.keeps.meets test accepts c.left.shaped hv hw keyword hmem p hp
          (((valid_iff test accepts a v).mp hv).constraints keyword hk p hsub))
  · rename_i hna hnb
    exact c.plain_covers (fun bs h => hna bs h) (fun bs h => hnb bs h) hfit hadd

end Compared

theorem Clear.ask {a b s t : Option JsonValue} (h : Clear test accepts a b) (hask : Asks test (a, b) (s, t)) :
    Clear test accepts s t :=
  fun p hp => h p (Relation.ReflTransGen.head hask hp)

/-- If `fits` accepts, and no pair that it compares has an interaction it does not look at, every value of `sub`
without the fields unknown to `sub` is a value of `sup`. -/
theorem fits_covers (sub sup : Option JsonValue) (hsub : Produced sub) (hsup : Produced sup)
    (hclear : Clear test accepts sub sup) (h : fits test sub sup = true) : Covers test accepts sub sup := by
  induction hn : load sub + load sup using Nat.strong_induction_on generalizing sub sup with
  | _ n ih =>
    subst hn
    obtain ⟨hsteady, hharmless⟩ := hclear (sub, sup) .refl h
    by_cases hne : keywords sup = []
    · exact fun v w _ _ => valid_of_empty test accepts sup hne w
    by_cases hid : Identical sub sup
    · exact covers_of_identical test accepts sub sup hsub hsup hid (hsteady hid)
    by_cases hfalse : sub = some (.prim (.bool false))
    · subst hfalse
      exact fun v w hv _ => absurd hv (not_valid_false test accepts v)
    rw [fits_eq] at h
    unfold fitsStep at h
    simp only [List.isEmpty_iff, hne, if_false] at h
    rw [if_neg (show ¬ deepEqual (some (.obj (keywords sub))) (some (.obj (keywords sup))) = true from hid)] at h
    split at h
    · cases h
    · rename_i hknown
      split at h
      · cases h
      · rename_i hadd
        have hsupFalse : sup ≠ some (.prim (.bool false)) := by
          rintro rfl
          exact hknown (by decide)
        have c : Compared test accepts sub sup := by
          refine ⟨hsub, hsup, hsub.shaped sub .refl hfalse, hsup.shaped sup .refl hsupFalse, hid, hne,
            hharmless hid, fun s t hask hs ht hlt hfit => ?_⟩
          exact ih _ hlt s t hs ht (hclear.ask test accepts hask) hfit rfl
        exact c.union_covers hsupFalse hfalse h (by simpa using hadd)

end Coverage

/-! ## Schemas given in full -/

section Checks

variable (test : JsString → JsString → Bool) (accepts : JsString → Primitive → Primitive → Prop)

def plainKeywords : List JsString :=
  [js "type", js "properties", js "required", js "additionalProperties", js "patternProperties", js "anyOf"]

def isPlain (schema : Schema) : Bool := schema.all (fun p => plainKeywords.contains p.1)

theorem get?_plain {schema : Schema} (h : isPlain schema = true) {k : JsString} (hk : k ∉ plainKeywords) :
    get? schema k = none := by
  cases hv : get? schema k with
  | none => rfl
  | some v => exact absurd (contains_iff_mem.mp (all_eq_true.mp h _ (mem_of_get? schema k v hv))) hk

/-- `Shaped`, of the keywords of objects, records, unions and primitive types. -/
def shapedCheck (schema : Schema) : Bool :=
  isPlain schema &&
    (match get? schema (js "anyOf") with
    | none => true
    | some (.arr _) => schema.length == 1
    | _ => false) &&
    (stringsOf (get? schema (js "required"))).all (has (propertiesOf schema)) &&
    ((patternsOf schema).isEmpty || (propertiesOf schema).isEmpty && (patternsOf schema).length == 1) &&
    (match get? schema (js "additionalProperties") with
    | none | some (.prim (.bool _)) => true
    | _ => false) &&
    ((typesOf schema).all (fun types => !types.contains (js "function") && (!types.contains (js "object") ||
      has schema (js "properties") || has schema (js "patternProperties"))))

theorem shaped_of_check {schema : Schema} (h : shapedCheck schema = true) : Shaped schema := by
  unfold shapedCheck at h
  simp only [Bool.and_eq_true] at h
  obtain ⟨⟨⟨⟨⟨hplain, hunion⟩, hrequired⟩, hrecord⟩, hadditional⟩, htypes⟩ := h
  have hnone : ∀ {k v}, get? schema k = some v → k ∉ plainKeywords → False := by
    intro k v hv hk
    rw [get?_plain hplain hk] at hv
    cases hv
  have hconstraint : ∀ k ∈ CONSTRAINTS, k ∉ plainKeywords := by decide
  have hknown : ∀ k ∈ plainKeywords, k ∈ KNOWN := by decide
  refine ⟨?_, ?_, ?_, ?_, ?_, ?_, ?_, ?_, ?_, ?_⟩
  · exact fun p hp => hknown _ (contains_iff_mem.mp (all_eq_true.mp hplain p hp))
  · intro v hv
    rw [hv] at hunion
    cases v with
    | prim p => cases hunion
    | obj fields => cases hunion
    | arr branches =>
      refine ⟨⟨branches, rfl⟩, fun p hp => .inl ?_⟩
      obtain ⟨q, rfl⟩ := length_eq_one_iff.mp (beq_iff_eq.mp hunion)
      rw [mem_singleton.mp hp]
      exact (congrArg Prod.fst (mem_singleton.mp (mem_of_get? _ _ _ hv))).symm
  · exact fun name hn => all_eq_true.mp hrequired name hn
  · rcases Bool.or_eq_true_iff.mp hrecord with hnil | hone
    · exact .inl (List.isEmpty_iff.mp hnil)
    · obtain ⟨hprops, hlen⟩ := Bool.and_eq_true_iff.mp hone
      exact .inr ⟨List.isEmpty_iff.mp hprops, length_eq_one_iff.mp (beq_iff_eq.mp hlen)⟩
  · exact fun items hv => (hnone hv (by decide)).elim
  · exact fun v hv => (hnone hv (by decide)).elim
  · exact fun values hv => (hnone hv (by decide)).elim
  · exact fun keyword hk v hv => (hnone hv (hconstraint keyword hk)).elim
  · intro v hv
    rw [hv] at hadditional
    split at hadditional
    · cases ‹some v = none›
    · rename_i b heq
      exact .inl ⟨b, some.inj heq⟩
    · cases hadditional
  · intro types ht
    rw [ht] at htypes
    simpa [Classical.or_iff_not_imp_left] using htypes

/-- The parts of a schema; what is not there has none. -/
def partsOf (s : Option JsonValue) : List JsonValue :=
  listOf (get? (keywords s) (js "anyOf")) ++ (propertiesOf (keywords s)).map Prod.snd ++
    (patternsOf (keywords s)).map Prod.snd ++ (get? (keywords s) (js "additionalProperties")).toList

theorem part_mem {s t : Option JsonValue} (hs : isPlain (keywords s) = true) (h : Part s t) :
    t = none ∨ ∃ v ∈ partsOf s, t = some v := by
  cases h with
  | branch branches branch hb hm => exact .inr ⟨branch, by simp [partsOf, hb, listOf, hm], rfl⟩
  | property name u hu =>
    have hu := @mem_map_of_mem _ _ _ _ Prod.snd (mem_of_get? _ name u hu)
    exact .inr ⟨u, by simp only [partsOf, mem_append]; exact .inl (.inl (.inr hu)), rfl⟩
  | pattern name u hu =>
    have hu := @mem_map_of_mem _ _ _ _ Prod.snd (mem_of_get? _ name u hu)
    exact .inr ⟨u, by simp only [partsOf, mem_append]; exact .inl (.inr hu), rfl⟩
  | additional =>
    cases hv : get? (keywords s) (js "additionalProperties") with
    | none => exact .inl rfl
    | some v => exact .inr ⟨v, by simp [partsOf, hv], rfl⟩
  | item i =>
    left
    unfold itemSchema
    rw [get?_plain hs (by decide)]

def producedCheck : ℕ → JsonValue → Bool
  | 0, _ => false
  | n + 1, v => shapedCheck (keywords (some v)) && (partsOf (some v)).all (producedCheck n)

theorem shapedCheck_parts {n : ℕ} {v : JsonValue} (h : producedCheck n v = true) (t : Option JsonValue)
    (ht : Relation.ReflTransGen Part (some v) t) : shapedCheck (keywords t) = true := by
  induction n generalizing v with
  | zero => cases h
  | succ n ih =>
    obtain ⟨hshaped, hall⟩ := Bool.and_eq_true_iff.mp h
    have hplain : isPlain (keywords (some v)) = true := by
      unfold shapedCheck at hshaped
      simp only [Bool.and_eq_true] at hshaped
      exact hshaped.1.1.1.1.1
    rcases Relation.ReflTransGen.cases_head ht with rfl | ⟨u, hu, ht⟩
    · exact hshaped
    · rcases part_mem hplain hu with rfl | ⟨w, hw, rfl⟩
      · rw [parts_none t ht]
        rfl
      · exact ih (all_eq_true.mp hall w hw) ht

theorem produced_of_check {n : ℕ} {v : JsonValue} (hw : Wf v) (h : producedCheck n v = true) : Produced (some v) :=
  ⟨fun _ hv => some.inj hv ▸ hw, fun t ht _ => shaped_of_check (shapedCheck_parts h t ht)⟩

/-- A superset of the pairs that `Asks` names. -/
def asksOf (a b : Option JsonValue) : List (Option JsonValue × Option JsonValue) :=
  (partsOf a).map (fun s => (some s, some (.obj (keywords b)))) ++
    (partsOf b).map (fun t => (some (.obj (keywords a)), some t)) ++
    (partsOf a).flatMap (fun s => (partsOf b).map (fun t => (some s, some t)))

/-- No name of `a` is one that every object inherits. -/
def ownNames (a : Option JsonValue) : Bool :=
  (propertiesOf (keywords a) ++ patternsOf (keywords a)).all (fun p => !prototypeNames.contains p.1)

def harmlessCheck (a b : Option JsonValue) : Bool :=
  (patternsOf (keywords a)).all (fun p =>
      (propertiesOf (keywords b)).all (fun q => !test p.1 q.1 || fits test (some p.2) (some q.2))) &&
    (!isFalse (get? (keywords b) (js "additionalProperties")) && (patternsOf (keywords b)).isEmpty ||
      ownNames a && ((patternsOf (keywords a)).isEmpty || !(patternsOf (keywords b)).isEmpty))

def clearCheck : ℕ → Option JsonValue → Option JsonValue → Bool
  | 0, _, _ => false
  | n + 1, a, b => a.all (producedCheck n) && b.all (producedCheck n) && ownNames b &&
      (decide (Identical a b) || (!fits test a b || harmlessCheck test a b) &&
        (asksOf a b).all (fun p => clearCheck n p.1 p.2))

variable {test}

theorem ownNames_get? {a : Option JsonValue} (h : ownNames a = true) {name : JsString} (hn : name ∈ prototypeNames) :
    get? (propertiesOf (keywords a)) name = none ∧ get? (patternsOf (keywords a)) name = none := by
  have hall : ∀ p ∈ propertiesOf (keywords a) ++ patternsOf (keywords a), p.1 ≠ name := by
    intro p hp heq
    have := all_eq_true.mp h p hp
    rw [heq] at this
    simp [hn] at this
  have hnone : ∀ schema : Schema, (∀ p ∈ schema, p.1 ≠ name) → get? schema name = none := by
    intro schema hs
    cases hv : get? schema name with
    | none => rfl
    | some v => exact absurd rfl (hs _ (mem_of_get? schema name v hv))
  exact ⟨hnone _ (fun p hp => hall p (mem_append_left _ hp)), hnone _ (fun p hp => hall p (mem_append_right _ hp))⟩

theorem keeps_plain {a b : Option JsonValue} (h : isPlain (keywords b) = true) : Keeps test a b := by
  refine ⟨fun n hn => ?_, fun hu => ?_⟩
  · rw [get?_plain h (by decide)] at hn
    cases hn
  · rw [get?_plain h (by decide)] at hu
    cases hu

theorem harmless_of_check {a b : Option JsonValue} (hb : isPlain (keywords b) = true)
    (h : harmlessCheck test a b = true) : Harmless test accepts a b := by
  unfold harmlessCheck at h
  simp only [Bool.and_eq_true, Bool.or_eq_true, Bool.not_eq_true', List.isEmpty_iff] at h
  obtain ⟨hoptional, hclosed⟩ := h
  have hconstraint : ∀ k ∈ CONSTRAINTS, k ∉ plainKeywords := by decide
  refine ⟨?_, ?_, ?_, ?_, ?_, keeps_plain hb⟩
  · intro pattern s name t hs ht hm _
    have := all_eq_true.mp (all_eq_true.mp hoptional _ (mem_of_get? _ _ _ hs)) _ (mem_of_get? _ _ _ ht)
    simpa [hm] using this
  · intro name s pattern t hs ht _ hn
    rcases hclosed with ⟨-, hnil⟩ | ⟨hown, -⟩
    · rw [hnil] at ht
      cases ht
    · rw [(ownNames_get? hown hn).1] at hs
      cases hs
  · intro hf name hname
    rcases hclosed with ⟨hopen, -⟩ | ⟨hown, hpatterns⟩
    · rw [hf] at hopen
      cases hopen
    rcases hname with ⟨hhas, hn⟩ | ⟨pattern, s, hs, -, hnil | hn⟩
    · rw [has, (ownNames_get? hown hn).1] at hhas
      cases hhas
    · rcases hpatterns with hnone | hsome
      · rw [hnone] at hs
        cases hs
      · rw [hnil] at hsome
        cases hsome
    · rw [(ownNames_get? hown hn).2] at hs
      cases hs
  · intro _ _ keyword hk p hp
    rw [get?_plain hb (hconstraint keyword hk)] at hp
    cases hp
  · intro values hv
    unfold valuesOf at hv
    rw [get?_plain hb (by decide), get?_plain hb (by decide)] at hv
    cases hv

theorem asks_mem {a b : Option JsonValue} (ha : isPlain (keywords a) = true) (hb : isPlain (keywords b) = true)
    (hown : ownNames b = true) {q : Option JsonValue × Option JsonValue} (h : Asks test (a, b) q) :
    ¬ Identical a b ∧ (q = (none, none) ∨ q ∈ asksOf a b) := by
  have hparts : ∀ {s t : Option JsonValue}, Part a s → Part b t → s ≠ none → t ≠ none → (s, t) ∈ asksOf a b := by
    intro s t hs ht hsn htn
    rcases part_mem ha hs with rfl | ⟨u, hu, rfl⟩
    · exact absurd rfl hsn
    rcases part_mem hb ht with rfl | ⟨v, hv, rfl⟩
    · exact absurd rfl htn
    exact mem_append_right _ (mem_flatMap.mpr ⟨u, hu, mem_map_of_mem hv⟩)
  cases h with
  | left _ _ hne branches branch hbr hm =>
    exact ⟨hne, .inr (mem_append_left _ (mem_append_left _ (mem_map_of_mem (by simp [partsOf, hbr, listOf, hm]))))⟩
  | right _ _ hne branches branch hbr hm =>
    have hm := mem_of_find?_eq_some hm
    exact ⟨hne, .inr (mem_append_left _ (mem_append_right _ (mem_map_of_mem (by simp [partsOf, hbr, listOf, hm]))))⟩
  | property _ _ hne name s t hs ht =>
    exact ⟨hne, .inr (hparts (.property a name s hs) (.property b name t ht) (some_ne_none _) (some_ne_none _))⟩
  | additional _ _ hne name t hs ho ht =>
    refine ⟨hne, .inr (hparts (.additional a) (.property b name t ht) ?_ (some_ne_none _))⟩
    intro hnone
    rw [hnone] at ho
    cases ho
  | named _ _ hne name pattern s t hs ht =>
    exact ⟨hne, .inr (hparts (.property a name s hs) (.pattern b pattern t ht) (some_ne_none _) (some_ne_none _))⟩
  | pattern _ _ hne pattern s t hs ht =>
    exact ⟨hne, .inr (hparts (.pattern a pattern s hs) (.pattern b pattern t ht) (some_ne_none _) (some_ne_none _))⟩
  | item _ _ hne i hi =>
    refine ⟨hne, .inl ?_⟩
    unfold itemSchema
    rw [get?_plain ha (by decide), get?_plain hb (by decide)]
  | inherited _ _ hne name t hn ht =>
    rw [(ownNames_get? hown hn).1, (ownNames_get? hown hn).2] at ht
    rcases ht with ht | ht <;> cases ht
  | optional _ _ hne pattern name s t hs ht =>
    exact ⟨hne, .inr (hparts (.pattern a pattern s hs) (.property b name t ht) (some_ne_none _) (some_ne_none _))⟩

theorem plain_parts {n : ℕ} {a : Option JsonValue} (h : a.all (producedCheck n) = true) (t : Option JsonValue)
    (ht : Relation.ReflTransGen Part a t) : isPlain (keywords t) = true := by
  have hshaped : shapedCheck (keywords t) = true := by
    cases a with
    | none =>
      rw [parts_none t ht]
      rfl
    | some v => exact shapedCheck_parts h t ht
  unfold shapedCheck at hshaped
  simp only [Bool.and_eq_true] at hshaped
  exact hshaped.1.1.1.1.1

theorem clear_of_check {n : ℕ} {a b : Option JsonValue} (h : clearCheck test n a b = true) :
    Clear test accepts a b := by
  intro p hp hf
  induction n generalizing a b with
  | zero => cases h
  | succ n ih =>
    unfold clearCheck at h
    simp only [Bool.and_eq_true, Bool.or_eq_true, Bool.not_eq_true', decide_eq_true_eq] at h
    obtain ⟨⟨⟨ha, hb⟩, hown⟩, hpair⟩ := h
    rcases Relation.ReflTransGen.cases_head hp with rfl | ⟨q, hq, hp⟩
    · refine ⟨fun _ t ht => keeps_plain (plain_parts ha t ht), fun hne => ?_⟩
      rcases hpair with hid | ⟨hno | hharmless, -⟩
      · exact absurd hid hne
      · rw [hno] at hf
        cases hf
      · exact harmless_of_check accepts (plain_parts hb _ .refl) hharmless
    · obtain ⟨hne, rfl | hq⟩ := asks_mem (plain_parts ha _ .refl) (plain_parts hb _ .refl) hown hq
      · have hid : Identical none none := by decide
        obtain rfl : p = (none, none) := by
          rcases Relation.ReflTransGen.cases_head hp with rfl | ⟨r, hr, -⟩
          · rfl
          · cases hr <;> exact absurd hid (by assumption)
        refine ⟨fun _ t ht => keeps_plain ?_, fun hno => absurd hid hno⟩
        rw [parts_none t ht]
        rfl
      · rcases hpair with hid | ⟨-, hall⟩
        · exact absurd hid hne
        · exact ih (all_eq_true.mp hall q hq) hp

variable (test) in
theorem outer_plain {schema : Schema} {types : List JsString} {type : JsString} {w : JsonValue}
    (h : isPlain schema = true) (ht : typesOf schema = some types) (hm : type ∈ types) (hw : hasType type w)
    (hany : get? schema (js "anyOf") = none) : Outer accepts schema w := by
  have hconstraint : ∀ k ∈ CONSTRAINTS, k ∉ plainKeywords := by decide
  have hknown : ∀ k ∈ plainKeywords, k ∈ KNOWN := by decide
  refine ⟨fun types' ht' => ?_, ?_, ?_, ?_, ?_, ?_⟩
  · exact ⟨type, some.inj (ht.symm.trans ht') ▸ hm, hw⟩
  · simp [get?_plain h (show js "const" ∉ plainKeywords by decide)]
  · simp [get?_plain h (show js "enum" ∉ plainKeywords by decide)]
  · intro keyword hk p hp
    rw [get?_plain h (hconstraint keyword hk)] at hp
    cases hp
  · exact fun p hp => hknown _ (contains_iff_mem.mp (all_eq_true.mp h p hp))
  · simp [hany]

end Checks

/-! ## Objects, records and unions -/

def typeSchema (type : String) : JsonValue := .obj [(js "type", .str (js type))]

def recordOf (schema : JsonValue) : JsonValue :=
  .obj [(js "type", .str (js "object")), (js "patternProperties", .obj [(js "^.*$", schema)])]

def unionOf (types : List String) : JsonValue := .obj [(js "anyOf", .arr (types.map typeSchema))]

def objectOf (properties : List (JsString × JsonValue)) (keywords : List (JsString × JsonValue)) : JsonValue :=
  .obj ((js "type", .str (js "object")) :: (js "properties", .obj properties) :: keywords)

/-- The pattern of a record matches every name. -/
def anyName (pattern _name : JsString) : Bool := pattern == js "^.*$"

def consumer : JsonValue :=
  objectOf [(js "id", unionOf ["string", "integer"]), (js "tags", recordOf (typeSchema "string")),
    (js "valueOf", typeSchema "string")] [(js "required", .arr [.str (js "id")])]

def provider : JsonValue :=
  objectOf [(js "id", unionOf ["string", "number"]), (js "tags", recordOf (unionOf ["string", "null"])),
    (js "limit", typeSchema "number")] [(js "required", .arr [.str (js "id")])]

theorem fits_covers_objects : Covers anyName (fun _ _ _ => True) (some consumer) (some provider) := by
  have hwf : Wf consumer ∧ Wf provider := by
    simp only [consumer, provider, objectOf, unionOf, recordOf, typeSchema, wf_obj_iff, wf_arr_iff, forall_mem_cons,
      map_cons, map_nil]
    simp [Wf.prim, Assoc.keys]
    decide
  exact fits_covers anyName _ (some consumer) (some provider) (produced_of_check (n := 9) hwf.1 (by decide +kernel))
    (produced_of_check (n := 9) hwf.2 (by decide +kernel)) (clear_of_check (n := 9) _ (by decide +kernel))
    (by decide +kernel)

/-! ## A record for an object with an optional field -/

def stringRecord : JsonValue := recordOf (typeSchema "string")

def optionalNumber : JsonValue := objectOf [(js "a", typeSchema "number")] []

variable (test : JsString → JsString → Bool) (accepts : JsString → Primitive → Primitive → Prop)

theorem valid_type (type : String) (p : Primitive) :
    Valid test accepts (some (typeSchema type)) (.prim p) ↔ hasType (js type) (.prim p) := by
  rw [valid_iff]
  refine ⟨fun h => ?_, fun h => (outer_plain accepts rfl rfl (mem_singleton_self _) h rfl).prim test accepts⟩
  obtain ⟨t, hm, htype⟩ := h.type [js type] rfl
  rwa [mem_singleton.mp hm] at htype

/-- `fits` takes the record for the object, and a string under the name of the number passes. -/
theorem record_for_optional :
    ¬ ∀ (test : JsString → JsString → Bool) (accepts : JsString → Primitive → Primitive → Prop)
      (sub sup : Option JsonValue), Produced sub → Produced sup → fits test sub sup = true →
      Covers test accepts sub sup := by
  intro hall
  have hwf : Wf stringRecord ∧ Wf optionalNumber := by
    simp only [stringRecord, optionalNumber, objectOf, recordOf, typeSchema, wf_obj_iff, forall_mem_cons]
    simp [Wf.prim, Assoc.keys]
    decide
  have hcov := hall anyName (fun _ _ _ => True) (some stringRecord) (some optionalNumber)
    (produced_of_check (n := 9) hwf.1 (by decide +kernel)) (produced_of_check (n := 9) hwf.2 (by decide +kernel))
    (by decide +kernel)
  have hfield : ∀ (n : JsString) (y : JsonValue), get? [(js "a", JsonValue.str (js "x"))] n = some y →
      n = js "a" ∧ y = .str (js "x") := by
    intro n y h
    rw [get?_cons] at h
    split at h
    · rename_i hn
      exact ⟨hn.symm, (some.inj h).symm⟩
    · cases h
  have hpattern : ∀ pattern t, get? (patternsOf (keywords (some stringRecord))) pattern = some t →
      pattern = js "^.*$" ∧ t = typeSchema "string" := by
    intro pattern t h
    have hm : (pattern, t) ∈ [(js "^.*$", typeSchema "string")] := mem_of_get? _ pattern t h
    exact Prod.mk.inj (mem_singleton.mp hm)
  have hvalid : Valid anyName (fun _ _ _ => True) (some stringRecord) (.obj [(js "a", .str (js "x"))]) := by
    rw [valid_iff]
    refine (outer_plain _ rfl rfl (mem_singleton_self (js "object")) (show hasType _ (.obj _) from rfl) rfl).obj
      anyName _ (fun _ hn => ?_)
      (fun n y _ t ht => ?_) (fun n y hy pattern t ht _ => ?_) (fun n y _ hadd => ?_)
    · cases hn
    · cases ht
    · rw [(hpattern pattern t ht).2, (hfield n y hy).2, valid_type]
      exact (rfl : js "string" = js "string")
    · have := hadd.2 (js "^.*$") (typeSchema "string") rfl
      cases this
  have hstrip : Strip anyName (fun _ _ _ => True) (some stringRecord)
      (.obj [(js "a", .str (js "x"))]) (.obj [(js "a", .str (js "x"))]) := by
    rw [strip_iff]
    refine ⟨_, rfl, by rfl, fun n x y hx hy => ?_⟩
    obtain ⟨rfl, rfl⟩ := hfield n x hx
    obtain ⟨-, rfl⟩ := hfield _ y hy
    rw [strip_iff]
    rfl
  have hbad := (valid_iff _ _ _ _).mp (hcov _ _ hvalid hstrip)
  have hnumber := hbad.properties (js "a") (.str (js "x")) rfl
  have hschema : get? (propertiesOf (keywords (some optionalNumber))) (js "a") = some (typeSchema "number") := rfl
  rw [hschema, valid_type] at hnumber
  exact absurd (show js "number" = js "string" from hnumber) (by decide)

end PiAgent.Schemas
