import Mathlib.Data.List.Dedup
import PiAgent.Chord.SchemaShape

/-! # Contract coverage is sound -/

namespace PiAgent.Schemas

open List Assoc JsonValue

section Sound

variable (test : JsString → JsString → Bool) (accepts : JsString → Primitive → Primitive → Prop)

/-! ## Schemas with the same keywords -/

theorem valid_congr (s t : Option JsonValue) (h : keywords s = keywords t) (v : JsonValue) :
    Valid test accepts s v ↔ Valid test accepts t v := by
  rw [valid_iff, valid_iff, h]

theorem strip_congr (s t : Option JsonValue) (h : keywords s = keywords t) (v w : JsonValue) :
    Strip test accepts s v w ↔ Strip test accepts t v w := by
  rw [strip_iff, strip_iff, h]

variable (s : Option JsonValue)

theorem valid_of_empty (h : keywords s = []) (v : JsonValue) : Valid test accepts s v := by
  induction hn : weight v using Nat.strong_induction_on generalizing s v with
  | _ n ih =>
    subst hn
    have hnone : ∀ x, weight x < weight v → Valid test accepts none x := fun x hx => ih _ hx none rfl x rfl
    rw [valid_iff, h]
    refine ⟨?_, ?_, ?_, ?_, ?_, ?_, ?_, ?_, ?_, ?_, ?_⟩
    · simp [typesOf]
    · simp
    · simp
    · simp
    · simp
    · simp
    · exact fun i x hx => hnone x (weight_item? v i x hx)
    · simp [stringsOf, listOf]
    · exact fun name x hx => hnone x (weight_field? v name x hx)
    · intro name x _ pattern t ht
      simp [schemasOf, asSchema] at ht
    · exact fun name x hx _ => hnone x (weight_field? v name x hx)

/-! ## What removing fields leaves -/

def SameKind : JsonValue → JsonValue → Prop
  | .prim p, w => w = .prim p
  | .arr items, w => ∃ items', w = .arr items' ∧ items'.length = items.length
  | .obj fields, w => ∃ fields', w = .obj fields' ∧ List.Sublist (keys fields') (keys fields)

variable (v w : JsonValue)

theorem strip_sameKind (h : Strip test accepts s v w) : SameKind v w := by
  induction hn : load s using Nat.strong_induction_on generalizing s with
  | _ n ih =>
    subst hn
    have hs := weight_keywords s
    rw [strip_iff] at h
    unfold StripsTo at h
    split at h
    · rename_i branches hb
      obtain ⟨branch, hm, -, hstrip⟩ := h
      have : load (some branch) < _ := weight_mem_arr _ _ branches branch hb hm
      exact ih _ (by omega) (some branch) hstrip rfl
    · cases v with
      | prim p => exact h
      | arr items =>
        obtain ⟨items', hw, hl, -⟩ := h
        exact ⟨items', hw, hl⟩
      | obj fields =>
        obtain ⟨fields', hw, hk, -⟩ := h
        refine ⟨fields', hw, ?_⟩
        rw [hk]
        exact filter_sublist

theorem hasType_sameKind (type : JsString) (v w : JsonValue) (h : SameKind v w) (ht : hasType type v) :
    hasType type w := by
  cases v with
  | prim p =>
    obtain rfl : w = .prim p := h
    exact ht
  | arr items =>
    obtain ⟨items', rfl, -⟩ := h
    exact ht
  | obj fields =>
    obtain ⟨fields', rfl, -⟩ := h
    exact ht

theorem meets_sameKind (keyword : JsString) (p : Primitive) (v w : JsonValue) (h : SameKind v w)
    (hm : Meets accepts keyword p v)
    (hk : keyword ∈ [js "minProperties", js "uniqueItems"] → Meets accepts keyword p w) :
    Meets accepts keyword p w := by
  by_cases hmem : keyword ∈ [js "minProperties", js "uniqueItems"]
  · exact hk hmem
  · simp only [mem_cons, not_mem_nil, or_false, not_or] at hmem
    cases v with
    | prim q =>
      obtain rfl : w = .prim q := h
      exact hm
    | arr items =>
      obtain ⟨items', rfl, hl⟩ := h
      refine ⟨?_, ?_, fun hu => absurd hu hmem.2⟩
      · rw [hl]
        exact hm.1
      · rw [hl]
        exact hm.2.1
    | obj fields =>
      obtain ⟨fields', rfl, hs⟩ := h
      refine ⟨fun hp => absurd hp hmem.1, fun hp n hn => ?_⟩
      have hlen : fields'.length ≤ fields.length := by simpa [Assoc.keys] using hs.length_le
      have hle := hm.2 hp n hn
      have hcast : (fields'.length : ℚ) ≤ (fields.length : ℚ) := by exact_mod_cast hlen
      exact le_trans hcast hle

/-! ## One level of a value -/

theorem not_valid_false (v : JsonValue) : ¬ Valid test accepts (some (.prim (.bool false))) v := by
  intro h
  have hk : keywords (some (.prim (.bool false))) = [(js "not", .obj [])] := by rfl
  rw [valid_iff, hk] at h
  exact h.not (.obj []) (get?_cons_self _ _ _) (valid_of_empty test accepts _ rfl v)

variable (schema : Schema)

theorem valid_fieldSchema (v : JsonValue) (h : Holds test accepts (Valid test accepts) schema v)
    (hrec : patternsOf schema = [] ∨ propertiesOf schema = [] ∧ ∃ p, patternsOf schema = [p])
    (name : JsString) (x : JsonValue) (hx : field? v name = some x) :
    Valid test accepts (fieldSchema test schema name) x := by
  unfold fieldSchema
  split
  · rename_i s hs
    have := h.properties name x hx
    rwa [hs] at this
  · rename_i hs
    split
    · rename_i p hp
      have hm := mem_of_find?_eq_some hp
      have ht : test p.1 name = true := by simpa using find?_some hp
      refine h.patterns name x hx p.1 p.2 ?_ ht
      rcases hrec with hnil | ⟨-, q, hq⟩
      · rw [hnil] at hm
        simp at hm
      · rw [hq] at hm ⊢
        rw [mem_singleton.mp hm]
        exact get?_cons_self _ _ _
    · rename_i hp
      refine h.additional name x hx ⟨hs, fun pattern s ht => ?_⟩
      have := find?_eq_none.mp hp (pattern, s) (mem_of_get? _ pattern s ht)
      simpa using this

theorem fieldSchema_pattern (name pattern : JsString) (s : JsonValue)
    (hrec : patternsOf schema = [] ∨ propertiesOf schema = [] ∧ ∃ p, patternsOf schema = [p])
    (hs : get? (patternsOf schema) pattern = some s) (ht : test pattern name = true) :
    fieldSchema test schema name = some s := by
  rcases hrec with hnil | ⟨hprops, p, hp⟩
  · rw [hnil] at hs
    simp at hs
  · have hmem := mem_of_get? _ pattern s hs
    rw [hp, mem_singleton] at hmem
    unfold fieldSchema
    rw [hprops, hp, ← hmem]
    simp [ht]

theorem fieldSchema_additional (name : JsString)
    (hrec : patternsOf schema = [] ∨ propertiesOf schema = [] ∧ ∃ p, patternsOf schema = [p])
    (h : IsAdditional test schema name) :
    fieldSchema test schema name = get? schema (js "additionalProperties") := by
  unfold fieldSchema
  rw [h.1]
  have hfind : (patternsOf schema).find? (fun p => test p.1 name) = none := by
    rcases hrec with hnil | ⟨-, p, hp⟩
    · rw [hnil]
      rfl
    · have := h.2 p.1 p.2 (by rw [hp]; exact get?_cons_self _ _ _)
      rw [hp]
      simp [this]
  simp only [hfind]

section

variable (fields fields' : List (JsString × JsonValue))
    (hk : keys fields' = (keys fields).filter (knows test schema)) (name : JsString)
include hk

theorem field_of_kept (y : JsonValue) (hy : get? fields' name = some y) :
    knows test schema name = true ∧ ∃ x, get? fields name = some x := by
  have hmem : name ∈ keys fields' := (has_iff fields' name).mp (by simp [has, hy])
  rw [hk, mem_filter, ← has_iff, has, Option.isSome_iff_exists] at hmem
  exact ⟨hmem.2, hmem.1⟩

theorem has_of_known (hf : has fields name = true) (hn : knows test schema name = true) :
    has fields' name = true := by
  rw [has_iff, hk, mem_filter]
  exact ⟨(has_iff fields name).mp hf, hn⟩

end

theorem knows_of_property (name : JsString) (h : has (propertiesOf schema) name = true) :
    knows test schema name = true := by
  simp [knows, h]

theorem get?_eq_none_of_known (h : ∀ p ∈ schema, p.1 ∈ KNOWN) (k : JsString) (hk : k ∉ KNOWN) :
    get? schema k = none := by
  cases hv : get? schema k with
  | none => rfl
  | some v => exact absurd (h _ (mem_of_get? schema k v hv)) hk

theorem holds_union (w : JsonValue) (hshape : Shaped schema) (hunion : has schema (js "anyOf") = true)
    (hany : ∀ branches, get? schema (js "anyOf") = some (.arr branches) →
      ∃ branch ∈ branches, Valid test accepts (some branch) w)
    (hc : ∀ keyword ∈ CONSTRAINTS, ∀ p, get? schema keyword = some (.prim p) → Meets accepts keyword p w) :
    Holds test accepts (Valid test accepts) schema w := by
  obtain ⟨v, hv⟩ := Option.isSome_iff_exists.mp hunion
  have hkeys := (hshape.union v hv).2
  have hnone : ∀ k, k ≠ js "anyOf" → k ∉ CONSTRAINTS → get? schema k = none := by
    intro k hne hk
    cases hg : get? schema k with
    | none => rfl
    | some x =>
      rcases hkeys _ (mem_of_get? schema k x hg) with h | h
      · exact absurd h hne
      · exact absurd h hk
  have hempty : ∀ x, Valid test accepts none x := valid_of_empty test accepts none rfl
  have hitems := hnone (js "items") (by decide) (by decide)
  have hprops := hnone (js "properties") (by decide) (by decide)
  have hpats := hnone (js "patternProperties") (by decide) (by decide)
  have hadd := hnone (js "additionalProperties") (by decide) (by decide)
  refine ⟨?_, ?_, ?_, hc, ?_, hany, ?_, ?_, ?_, ?_, ?_⟩
  · simp [typesOf, hnone (js "type") (by decide) (by decide)]
  · simp [hnone (js "const") (by decide) (by decide)]
  · simp [hnone (js "enum") (by decide) (by decide)]
  · simp [hnone (js "not") (by decide) (by decide)]
  · intro i x _
    simp only [itemSchema, hitems]
    exact hempty x
  · simp [hnone (js "required") (by decide) (by decide), stringsOf, listOf]
  · intro name x _
    simp only [schemasOf, hprops, asSchema, get?_nil]
    exact hempty x
  · intro name x _ pattern s hs
    simp [schemasOf, hpats, asSchema] at hs
  · intro name x _ _
    rw [hadd]
    exact hempty x

structure Outer (schema : Schema) (w : JsonValue) : Prop where
  type : ∀ types, typesOf schema = some types → ∃ type ∈ types, hasType type w
  const : ∀ value, get? schema (js "const") = some value → Eqv value w
  enum : ∀ values, get? schema (js "enum") = some (.arr values) → ∃ value ∈ values, Eqv value w
  constraints : ∀ keyword ∈ CONSTRAINTS, ∀ p, get? schema keyword = some (.prim p) →
    Meets accepts keyword p w
  known : ∀ p ∈ schema, p.1 ∈ KNOWN
  plain : ∀ branches, get? schema (js "anyOf") ≠ some (.arr branches)

namespace Outer

variable {schema : Schema}

theorem not {w : JsonValue} (h : Outer accepts schema w) (s : JsonValue)
    (hs : get? schema (js "not") = some s) : ¬ Valid test accepts (some s) w := by
  rw [get?_eq_none_of_known schema h.known (js "not") (by decide)] at hs
  cases hs

theorem prim {p : Primitive} (h : Outer accepts schema (.prim p)) :
    Holds test accepts (Valid test accepts) schema (.prim p) := by
  refine ⟨h.type, h.const, h.enum, h.constraints, h.not test accepts, fun bs hb => absurd hb (h.plain bs),
    ?_, ?_, ?_, ?_, ?_⟩
  · intro i x hx
    cases hx
  · intro fields hf
    cases hf
  · intro name x hx
    cases hx
  · intro name x hx
    cases hx
  · intro name x hx
    cases hx

theorem arr {items : List JsonValue} (h : Outer accepts schema (.arr items))
    (hitems : ∀ i y, items[i]? = some y → Valid test accepts (itemSchema schema i) y) :
    Holds test accepts (Valid test accepts) schema (.arr items) := by
  refine ⟨h.type, h.const, h.enum, h.constraints, h.not test accepts, fun bs hb => absurd hb (h.plain bs),
    hitems, ?_, ?_, ?_, ?_⟩
  · intro fields hf
    cases hf
  · intro name x hx
    cases hx
  · intro name x hx
    cases hx
  · intro name x hx
    cases hx

theorem obj {fields : List (JsString × JsonValue)} (h : Outer accepts schema (.obj fields))
    (hrequired : ∀ name ∈ stringsOf (get? schema (js "required")), has fields name = true)
    (hproperties : ∀ name y, get? fields name = some y → ∀ t,
      get? (propertiesOf schema) name = some t → Valid test accepts (some t) y)
    (hpatterns : ∀ name y, get? fields name = some y → ∀ pattern t,
      get? (patternsOf schema) pattern = some t → test pattern name = true → Valid test accepts (some t) y)
    (hadditional : ∀ name y, get? fields name = some y → IsAdditional test schema name →
      Valid test accepts (get? schema (js "additionalProperties")) y) :
    Holds test accepts (Valid test accepts) schema (.obj fields) := by
  refine ⟨h.type, h.const, h.enum, h.constraints, h.not test accepts, fun bs hb => absurd hb (h.plain bs),
    ?_, ?_, ?_, hpatterns, hadditional⟩
  · intro i x hx
    cases hx
  · intro fs hf name hn
    cases hf
    exact hrequired name hn
  · intro name y hy
    cases ht : get? (propertiesOf schema) name with
    | none => exact valid_of_empty test accepts none rfl y
    | some t => exact hproperties name y hy t ht

end Outer

section

variable (hs : Shaped schema) (v : JsonValue) (hv : Holds test accepts (Valid test accepts) schema v)
include hs hv

theorem prim_of_const (value : JsonValue) (hc : get? schema (js "const") = some value) : ∃ p, v = .prim p := by
  obtain ⟨p, rfl⟩ := hs.const value hc
  exact ⟨p, (eqv_prim_iff p v).mp (hv.const _ hc)⟩

theorem prim_of_enum (values : List JsonValue) (he : get? schema (js "enum") = some (.arr values)) :
    ∃ p, v = .prim p := by
  obtain ⟨value, hm, heq⟩ := hv.enum values he
  obtain ⟨p, rfl⟩ := hs.enum values he value hm
  exact ⟨p, (eqv_prim_iff p v).mp heq⟩

end

theorem outer_of_stripped (hs : Shaped schema) (v w : JsonValue)
    (hv : Holds test accepts (Valid test accepts) schema v) (hk : SameKind v w) (hc : v.isContainer = true)
    (hplain : ∀ branches, get? schema (js "anyOf") ≠ some (.arr branches))
    (hkeeps : ∀ keyword ∈ [js "minProperties", js "uniqueItems"], ∀ p,
      get? schema keyword = some (.prim p) → Meets accepts keyword p w) :
    Outer accepts schema w where
  type := by
    intro types ht
    obtain ⟨type, hm, htype⟩ := hv.type types ht
    exact ⟨type, hm, hasType_sameKind type v w hk htype⟩
  const := by
    intro value hval
    obtain ⟨p, rfl⟩ := prim_of_const test accepts schema hs v hv value hval
    cases hc
  enum := by
    intro values hval
    obtain ⟨p, rfl⟩ := prim_of_enum test accepts schema hs v hv values hval
    cases hc
  constraints := by
    intro keyword hkw p hp
    exact meets_sameKind accepts keyword p v w hk (hv.constraints keyword hkw p hp)
      (fun hmem => hkeeps keyword hmem p hp)
  known := hs.known
  plain := hplain

/-! ## What is kept -/

variable {s}

theorem Member.reach {t : Option JsonValue} (h : Member s t) : Relation.ReflTransGen Part s t := by
  induction h with
  | plain s h => exact .refl
  | branch s branches branch t h hm _ ih => exact .head (.branch s branches branch h hm) ih

variable {v w}

theorem strip_member (hv : Valid test accepts s v) (hw : Strip test accepts s v w) :
    ∃ t, Member s t ∧ (∀ branches, get? (keywords t) (js "anyOf") ≠ some (.arr branches)) ∧
      Valid test accepts t v ∧ Strip test accepts t v w := by
  induction hn : load s using Nat.strong_induction_on generalizing s with
  | _ n ih =>
    subst hn
    by_cases hplain : ∀ branches, get? (keywords s) (js "anyOf") ≠ some (.arr branches)
    · exact ⟨s, .plain s hplain, hplain, hv, hw⟩
    simp only [ne_eq, not_forall, not_not] at hplain
    obtain ⟨branches, hb⟩ := hplain
    rw [strip_iff] at hw
    unfold StripsTo at hw
    rw [hb] at hw
    obtain ⟨branch, hm, hvb, hwb⟩ := hw
    have hs := weight_keywords s
    have : load (some branch) < _ := weight_mem_arr _ _ branches branch hb hm
    obtain ⟨t, ht, h⟩ := ih _ (by omega) hvb hwb rfl
    exact ⟨t, .branch s branches branch t hb hm ht, h⟩

theorem part_fieldSchema (hrec : patternsOf (keywords s) = [] ∨ propertiesOf (keywords s) = [] ∧
      ∃ p, patternsOf (keywords s) = [p]) (name : JsString) : Part s (fieldSchema test (keywords s) name) := by
  unfold fieldSchema
  split
  · rename_i t ht
    exact .property s name t ht
  · split
    · rename_i p hp
      have hm := mem_of_find?_eq_some hp
      refine .pattern s p.1 p.2 ?_
      rcases hrec with hnil | ⟨-, q, hq⟩
      · rw [hnil] at hm
        simp at hm
      · rw [hq] at hm ⊢
        rw [mem_singleton.mp hm]
        exact get?_cons_self _ _ _
    · exact .additional s

variable {fields fields' : List (JsString × JsonValue)}

theorem kept_fields (hk : Knowing test s) (hv : Valid test accepts s (.obj fields))
    (h : keys fields' = (keys fields).filter (knows test (keywords s))) : keys fields' = keys fields := by
  rw [h, filter_eq_self]
  intro name hname
  obtain ⟨x, hx⟩ := Option.isSome_iff_exists.mp ((has_iff fields name).mpr hname)
  rcases hk with hclosed | hall
  · by_contra hno
    have hadd : IsAdditional test (keywords s) name := by
      refine ⟨?_, fun pattern u hu => ?_⟩
      · by_contra hsome
        exact hno (knows_of_property test _ name (Option.isSome_iff_ne_none.mpr hsome))
      · by_contra htest
        have hany : (patternsOf (keywords s)).any (fun p => test p.1 name) = true :=
          any_eq_true.mpr ⟨(pattern, u), mem_of_get? _ pattern u hu, by simpa using htest⟩
        exact hno (by simp [knows, hany])
    have hvalid := ((valid_iff test accepts s _).mp hv).additional name x hx hadd
    unfold isFalse at hclosed
    split at hclosed
    · rename_i hfalse
      rw [hfalse] at hvalid
      exact not_valid_false test accepts x hvalid
    · cases hclosed
  · exact hall name

def ShapedParts (s : Option JsonValue) : Prop :=
  ∀ t, Relation.ReflTransGen Part s t → t ≠ some (.prim (.bool false)) → Shaped (keywords t)

theorem ShapedParts.shaped {t : Option JsonValue} (h : ShapedParts s) (ht : Relation.ReflTransGen Part s t)
    (hv : Valid test accepts t v) : Shaped (keywords t) :=
  h t ht (fun hfalse => not_valid_false test accepts v (hfalse ▸ hv))

theorem strip_eqv (hs : ShapedParts s) (hk : ∀ t, Relation.ReflTransGen Part s t → Knowing test t)
    (hv : Valid test accepts s v) (hw : Strip test accepts s v w) : Eqv v w := by
  induction hn : weight v + load s using Nat.strong_induction_on generalizing s v w with
  | _ n ih =>
    subst hn
    have hle := weight_keywords s
    have hshape := hs.shaped test accepts .refl hv
    have hpart : ∀ t x y, Part s t → weight x + load t < weight v + load s → Valid test accepts t x →
        Strip test accepts t x y → Eqv x y :=
      fun t x y ht hlt hx hy => ih _ hlt (fun u hu => hs u (.head ht hu)) (fun u hu => hk u (.head ht hu)) hx hy rfl
    have hold := (valid_iff test accepts s v).mp hv
    rw [strip_iff] at hw
    unfold StripsTo at hw
    split at hw
    · rename_i branches hb
      obtain ⟨branch, hm, hvb, hwb⟩ := hw
      have hlt : load (some branch) < _ := weight_mem_arr _ _ branches branch hb hm
      exact hpart _ v w (.branch s branches branch hb hm) (by omega) hvb hwb
    · cases v with
      | prim p =>
        obtain rfl : w = .prim p := hw
        exact eqv_refl _
      | arr items =>
        obtain ⟨items', rfl, hl, hstrip⟩ := hw
        refine .arr _ _ hl.symm (fun i hx hy => ?_)
        have hlt := weight_lt_arr items _ (getElem_mem hx)
        have := load_itemSchema (keywords s) i
        exact hpart _ _ _ (.item s i) (by omega) (hold.items i _ (getElem?_eq_getElem hx))
          (hstrip i _ _ (getElem?_eq_getElem hx) (getElem?_eq_getElem hy))
      | obj fields =>
        obtain ⟨fields', rfl, hkeys, hstrip⟩ := hw
        have hall := kept_fields test accepts (hk s .refl) hv hkeys
        refine .obj _ _ (fun k => by rw [hall]) (fun name x y hx hy => ?_)
        have hlt := weight_lt_obj fields name x (mem_of_get? fields name x hx)
        have := load_fieldSchema test (keywords s) name
        exact hpart _ x y (part_fieldSchema test hshape.record name) (by omega)
          (valid_fieldSchema test accepts _ _ hold hshape.record name x hx) (hstrip name x y hx hy)

theorem Keeps.meets {a b : Option JsonValue} (h : Keeps test a b) (hs : ShapedParts a)
    (hv : Valid test accepts a v) (hw : Strip test accepts a v w) (keyword : JsString)
    (hk : keyword ∈ [js "minProperties", js "uniqueItems"]) (p : Primitive)
    (hp : get? (keywords b) keyword = some (.prim p)) (hm : Meets accepts keyword p v) : Meets accepts keyword p w := by
  have hkind := strip_sameKind test accepts a v w hw
  cases v with
  | prim q =>
    obtain rfl : w = .prim q := hkind
    exact hm
  | arr items =>
    obtain ⟨items', rfl, hl⟩ := hkind
    refine ⟨fun hmin => ?_, fun hmax => ?_, fun hunique harg => ?_⟩
    · rw [hl]
      exact hm.1 hmin
    · rw [hl]
      exact hm.2.1 hmax
    · subst hunique harg
      have heqv := (eqv_arr_iff _ _).mp (strip_eqv test accepts hs (h.uniqueItems hp) hv hw)
      have hpair := pairwise_iff_getElem.mp (hm.2.2 rfl rfl)
      refine pairwise_iff_getElem.mpr (fun i j hi hj hij heq => ?_)
      have hget := (List.forall₂_iff_get.mp heqv).2
      exact hpair i j (by omega) (by omega) hij
        (eqv_trans (hget i (by omega) hi) (eqv_trans heq (eqv_symm (hget j (by omega) hj))))
  | obj fields =>
    obtain ⟨t, hmem, hplain, hvt, hwt⟩ := strip_member test accepts hv hw
    have hshape := hs.shaped test accepts hmem.reach hvt
    have hold := (valid_iff test accepts t _).mp hvt
    rw [strip_iff] at hwt
    unfold StripsTo at hwt
    split at hwt
    · exact absurd (by assumption) (hplain _)
    obtain ⟨fields', rfl, hkeys, -⟩ := hwt
    have hlength : ∀ fs : List (JsString × JsonValue), (keys fs).length = fs.length := fun fs => by simp [Assoc.keys]
    refine ⟨fun hmin n hn => ?_, fun hmax n hn => ?_⟩
    · subst hmin hn
      rcases h.minProperties n hp t hmem with hknow | hreq
      · rw [← hlength, kept_fields test accepts hknow hvt hkeys, hlength]
        exact hm.1 rfl n rfl
      · refine le_trans hreq (Nat.cast_le.mpr ?_)
        rw [← hlength]
        -- every required name is in the value, and known
        refine ((nodup_dedup _).subperm (fun name hname => ?_)).length_le
        have hname := mem_dedup.mp hname
        exact (has_iff _ _).mp (has_of_known test _ fields fields' hkeys name (hold.required fields rfl name hname)
          (knows_of_property test _ name (hshape.required name hname)))
    · obtain ⟨fields'', heq, hsub⟩ := hkind
      cases heq
      have hlen : (fields'.length : ℚ) ≤ fields.length := by
        rw [← hlength, ← hlength fields]
        exact_mod_cast hsub.length_le
      exact le_trans hlen (hm.2 hmax n hn)

/-! ## A schema and its own values -/

def Steady (s : Option JsonValue) : Prop := ShapedParts s ∧ ∀ t, Relation.ReflTransGen Part s t → Keeps test t t

theorem Steady.part {t : Option JsonValue} (h : Steady test s) (hp : Part s t) : Steady test t :=
  ⟨fun u hu => h.1 u (.head hp hu), fun u hu => h.2 u (.head hp hu)⟩

theorem strip_valid (hs : Steady test s)
    (hv : Valid test accepts s v) (hw : Strip test accepts s v w) : Valid test accepts s w := by
  induction hn : weight v + load s using Nat.strong_induction_on generalizing s v w with
  | _ n ih =>
    subst hn
    have hle := weight_keywords s
    have hshape := hs.1.shaped test accepts .refl hv
    have hkind := strip_sameKind test accepts s v w hw
    have hconstraint : ∀ k ∈ [js "minProperties", js "uniqueItems"], k ∈ CONSTRAINTS := by decide
    have hkeep : ∀ keyword ∈ [js "minProperties", js "uniqueItems"], ∀ p,
        get? (keywords s) keyword = some (.prim p) → Meets accepts keyword p w :=
      fun keyword hm p hp => (hs.2 s .refl).meets test accepts hs.1 hv hw keyword hm p hp
        (((valid_iff test accepts s v).mp hv).constraints keyword (hconstraint keyword hm) p hp)
    rw [valid_iff] at hv ⊢
    rw [strip_iff] at hw
    unfold StripsTo at hw
    split at hw
    · rename_i branches hb
      obtain ⟨branch, hm, hvb, hwb⟩ := hw
      have hlt : load (some branch) < _ := weight_mem_arr _ _ branches branch hb hm
      have hbranch := ih _ (by omega) (hs.part test (.branch s branches branch hb hm)) hvb hwb rfl
      refine holds_union test accepts (keywords s) w hshape (by simp [has, hb]) ?_ ?_
      · intro branches' hb'
        rw [hb] at hb'
        cases hb'
        exact ⟨branch, hm, hbranch⟩
      · intro keyword hkw p hp
        exact meets_sameKind accepts keyword p v w hkind (hv.constraints keyword hkw p hp)
          (fun hmem => hkeep keyword hmem p hp)
    · rename_i hplain
      cases v with
      | prim p =>
        obtain rfl : w = .prim p := hw
        exact hv
      | arr items =>
        obtain ⟨items', rfl, hl, hstrip⟩ := hw
        refine (outer_of_stripped test accepts _ hshape _ _ hv hkind rfl
          (fun bs hb => hplain bs hb) hkeep).arr test accepts ?_
        intro i y hy
        obtain ⟨x, hx⟩ : ∃ x, items[i]? = some x := by
          have := (List.getElem?_eq_some_iff.mp hy).1
          exact ⟨_, getElem?_eq_getElem (by omega)⟩
        have hlt := weight_lt_arr items x (mem_of_getElem? hx)
        have := load_itemSchema (keywords s) i
        exact ih _ (by omega) (hs.part test (.item s i)) (hv.items i x hx) (hstrip i x y hx hy) rfl
      | obj fields =>
        obtain ⟨fields', rfl, hk, hstrip⟩ := hw
        have hfield : ∀ name y, get? fields' name = some y → Part s (fieldSchema test (keywords s) name) →
            Valid test accepts (fieldSchema test (keywords s) name) y := by
          intro name y hy hpart
          obtain ⟨-, x, hx⟩ := field_of_kept test _ fields fields' hk name y hy
          have hlt := weight_lt_obj fields name x (mem_of_get? fields name x hx)
          have := load_fieldSchema test (keywords s) name
          exact ih _ (by omega) (hs.part test hpart)
            (valid_fieldSchema test accepts _ _ hv hshape.record name x hx) (hstrip name x y hx hy) rfl
        refine (outer_of_stripped test accepts _ hshape _ _ hv hkind rfl
          (fun bs hb => hplain bs hb) hkeep).obj test accepts ?_ ?_ ?_ ?_
        · intro name hn
          exact has_of_known test _ fields fields' hk name (hv.required fields rfl name hn)
            (knows_of_property test _ name (hshape.required name hn))
        · intro name y hy t ht
          have hf : fieldSchema test (keywords s) name = some t := by
            unfold fieldSchema
            rw [ht]
          have := hfield name y hy (by rw [hf]; exact .property s name t ht)
          rwa [hf] at this
        · intro name y hy pattern t ht hm
          have hf := fieldSchema_pattern test _ name pattern t hshape.record ht hm
          have := hfield name y hy (by rw [hf]; exact .pattern s pattern t ht)
          rwa [hf] at this
        · intro name y hy hadd
          have hf := fieldSchema_additional test _ name hshape.record hadd
          have := hfield name y hy (by rw [hf]; exact .additional s)
          rwa [hf] at this

end Sound

end PiAgent.Schemas
