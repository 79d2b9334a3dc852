import PiAgent.Chord.SchemaProofs

/-!
# What an accepting `fits` says, case by case
-/

namespace PiAgent.Schemas

open Option List Assoc JsonValue

section Sound

variable (test : JsString → JsString → Bool) (accepts : JsString → Primitive → Primitive → Prop)

/-! ## Well-formed schemas -/

theorem keys_indexed (items : List JsonValue) (i : ℕ) : keys ((items.zipIdx i).map (fun p => (decimal p.2, p.1))) =
      (List.range' i items.length).map decimal := by
  induction items generalizing i with
  | nil => rfl
  | cons x items ih =>
    simp only [zipIdx_cons, map_cons, length_cons, range'_succ]
    unfold Assoc.keys at ih ⊢
    rw [map_cons, ih]

theorem wf_asSchema (s : Option JsonValue) (h : ∀ v, s = some v → Wf v) : Wf (.obj (asSchema s)) := by
  unfold asSchema
  split
  · exact h _ rfl
  · rename_i items
    have hw := (wf_arr_iff items).mp (h _ rfl)
    refine (wf_obj_iff _).mpr ⟨?_, ?_⟩
    · rw [keys_indexed]
      exact (nodup_range').map decimal_injective
    · intro p hp
      obtain ⟨q, hq, rfl⟩ := mem_map.mp hp
      exact hw q.1 (fst_mem_of_mem_zipIdx hq)
  · refine (wf_obj_iff _).mpr ⟨by simp [Assoc.keys], ?_⟩
    intro p hp
    rw [mem_singleton.mp hp]
    exact (wf_obj_iff []).mpr ⟨by simp [Assoc.keys], by simp⟩
  · exact (wf_obj_iff []).mpr ⟨by simp [Assoc.keys], by simp⟩

theorem wf_keywords (s : Option JsonValue) (h : ∀ v, s = some v → Wf v) : Wf (.obj (keywords s)) := by
  obtain ⟨hn, hv⟩ := (wf_obj_iff _).mp (wf_asSchema s h)
  unfold keywords withoutAnnotations
  refine (wf_obj_iff _).mpr ⟨?_, fun p hp => hv p (mem_of_mem_filter hp)⟩
  exact hn.sublist (List.Sublist.map Prod.fst filter_sublist)

theorem wf_get? (fields : Schema) (h : Wf (.obj fields)) (k : JsString) (v : JsonValue)
    (hv : get? fields k = some v) : Wf v :=
  ((wf_obj_iff fields).mp h).2 _ (mem_of_get? fields k v hv)

theorem wf_schemasOf (schema : Schema) (h : Wf (.obj schema)) (keyword k : JsString) (v : JsonValue)
    (hv : get? (schemasOf schema keyword) k = some v) : Wf v :=
  wf_get? _ (wf_asSchema _ (fun w hw => wf_get? schema h keyword w hw)) k v hv

theorem wf_item (schema : Schema) (h : Wf (.obj schema)) (keyword : JsString) (items : List JsonValue)
    (hi : get? schema keyword = some (.arr items)) (x : JsonValue) (hx : x ∈ items) : Wf x :=
  (wf_arr_iff items).mp (wf_get? schema h keyword _ hi) x hx

theorem wf_part (s t : Option JsonValue) (h : Part s t) (hs : ∀ v, s = some v → Wf v) (w : JsonValue)
    (hw : t = some w) : Wf w := by
  have hk := wf_keywords s hs
  cases h with
  | branch branches branch hb hm =>
    cases hw
    exact wf_item _ hk _ branches hb w hm
  | property name u hu =>
    cases hw
    exact wf_schemasOf _ hk _ name w hu
  | pattern pattern u hu =>
    cases hw
    exact wf_schemasOf _ hk _ pattern w hu
  | additional => exact wf_get? _ hk _ w hw
  | item i =>
    unfold itemSchema at hw
    split at hw
    · rename_i items hi
      cases hx : items[i]? with
      | none =>
        rw [hx] at hw
        exact wf_get? _ hk _ w hw
      | some x =>
        rw [hx] at hw
        cases hw
        exact wf_item _ hk _ items hi _ (mem_of_getElem? hx)
    · exact wf_get? _ hk _ w hw

theorem Produced.part {s t : Option JsonValue} (h : Produced s) (hp : Part s t) : Produced t where
  wf := wf_part s t hp h.wf
  shaped := fun u hu hne => h.shaped u (Relation.ReflTransGen.head hp hu) hne

theorem Part.of_keywords {s t : Option JsonValue} (h : Part (some (.obj (keywords s))) t) : Part s t := by
  have hk := keywords_obj_keywords s
  cases h with
  | branch branches branch hb hm => exact .branch s branches branch (hk ▸ hb) hm
  | property name u hu => exact .property s name u (hk ▸ hu)
  | pattern pattern u hu => exact .pattern s pattern u (hk ▸ hu)
  | additional =>
    rw [hk]
    exact .additional s
  | item i =>
    rw [hk]
    exact .item s i

theorem Produced.keywords {s : Option JsonValue} (h : Produced s) (hne : s ≠ some (.prim (.bool false))) :
    Produced (some (.obj (keywords s))) where
  wf := by
    intro v hv
    cases hv
    exact wf_keywords s h.wf
  shaped := by
    intro t ht htne
    rcases Relation.ReflTransGen.cases_head ht with rfl | ⟨u, hu, ht⟩
    · rw [keywords_obj_keywords]
      exact h.shaped s .refl hne
    · exact h.shaped t (Relation.ReflTransGen.head hu.of_keywords ht) htne

/-! ## Identical schemas -/

theorem alike_of_identical (a b : Option JsonValue) (ha : Produced a) (hb : Produced b) (h : Identical a b) :
    Alike (keywords a) (keywords b) := by
  have heq := (equalJson_iff _ _ (wf_keywords a ha.wf) (wf_keywords b hb.wf)).mp h
  exact (eqv_obj_iff _ _).mp heq

theorem covers_of_identical (a b : Option JsonValue) (ha : Produced a) (hb : Produced b) (h : Identical a b)
    (hkeeps : ∀ t, Relation.ReflTransGen Part a t → Keeps test t t) : Covers test accepts a b := by
  intro v w hv hw
  have hself := strip_valid test accepts ⟨ha.shaped, hkeeps⟩ hv hw
  exact (valid_alike test accepts a b w (alike_of_identical a b ha hb h)).mp hself

/-! ## The loops of `fits` -/

theorem equalJson_prim (x : JsonValue) (p : Primitive) (h : equalJson x (.prim p) = true) : x = .prim p := by
  cases x with
  | prim q =>
    have : q = p := by simpa [equalJson] using h
    rw [this]
  | arr items => simp [equalJson] at h
  | obj fields => simp [equalJson] at h

theorem constraintsFit_spec (sub sup : Schema) (hs : Shaped sup) (h : constraintsFit sub sup = true)
    (keyword : JsString) (hk : keyword ∈ CONSTRAINTS) (p : Primitive)
    (hp : get? sup keyword = some (.prim p)) : get? sub keyword = some (.prim p) := by
  have hfit := all_eq_true.mp h keyword hk
  obtain ⟨q, hq, hne⟩ := hs.arguments keyword hk _ hp
  cases hq
  simp only [has, hp, isSome_some, Bool.not_true, Bool.false_or, deepEqual, getD_some] at hfit
  have heq := equalJson_prim _ p hfit
  cases hsub : get? sub keyword with
  | none =>
    rw [hsub] at heq
    simp only [getD_none, JsonValue.prim.injEq] at heq
    exact absurd heq.symm hne
  | some x =>
    rw [hsub] at heq
    simp only [getD_some] at heq
    rw [heq]

theorem typesFit_spec (subTypes supTypes : List JsString) (h : typesFit subTypes supTypes = true)
    (type : JsString) (hm : type ∈ subTypes) (v : JsonValue) (ht : hasType type v) :
    ∃ type' ∈ supTypes, hasType type' v := by
  have hfit := all_eq_true.mp h type hm
  simp only [Bool.or_eq_true, Bool.and_eq_true, beq_iff_eq, contains_iff_mem] at hfit
  rcases hfit with hsup | ⟨rfl, hnum⟩
  · exact ⟨type, hsup, ht⟩
  · refine ⟨js "number", hnum, ?_⟩
    cases v with
    | prim p =>
      cases p with
      | num n => exact .inl rfl
      | null => exact absurd (show js "integer" = js "null" from ht) (by decide)
      | bool b => exact absurd (show js "integer" = js "boolean" from ht) (by decide)
      | str s => exact absurd (show js "integer" = js "string" from ht) (by decide)
    | arr items => exact absurd (show js "integer" = js "array" from ht) (by decide)
    | obj fields => exact absurd (show js "integer" = js "object" from ht) (by decide)

structure ObjectFits (fits : Option JsonValue → Option JsonValue → Bool) (sub sup : Schema) : Prop where
  required : ∀ name ∈ stringsOf (get? sup (js "required")),
    name ∈ stringsOf (get? sub (js "required"))
  properties : ∀ name t, get? (propertiesOf sup) name = some t →
    isIn name (propertiesOf sub) = true → fits (get? (propertiesOf sub) name) (some t) = true
  additional : ∀ name t, get? (propertiesOf sup) name = some t →
    isIn name (propertiesOf sub) = false → isObject (get? sub (js "additionalProperties")) = true →
    fits (get? sub (js "additionalProperties")) (some t) = true
  closed : isFalse (get? sup (js "additionalProperties")) = true →
    isFalse (get? sub (js "additionalProperties")) = true ∧
    ∀ name s, get? (propertiesOf sub) name = some s → isIn name (propertiesOf sup) = true
  bounded : patternsOf sup ≠ [] →
    isFalse (get? sub (js "additionalProperties")) = true ∨ patternsOf sub ≠ []
  named : ∀ pattern t, get? (patternsOf sup) pattern = some t → ∀ name s,
    get? (propertiesOf sub) name = some s → isIn name (propertiesOf sup) = false →
    test pattern name = true → fits (some s) (some t) = true
  patterns : ∀ pattern t, get? (patternsOf sup) pattern = some t → patternsOf sub ≠ [] →
    isIn pattern (patternsOf sub) = true ∧ fits (get? (patternsOf sub) pattern) (some t) = true
  covered : patternsOf sup ≠ [] → ∀ pattern s, get? (patternsOf sub) pattern = some s →
    isIn pattern (patternsOf sup) = true

theorem objectFits_spec (fits : Option JsonValue → Option JsonValue → Bool) (sub sup : Schema)
    (h : objectFits test fits sub sup = true) : ObjectFits test fits sub sup := by
  unfold objectFits at h
  simp only [Bool.and_eq_true] at h
  obtain ⟨⟨⟨hreq, hprops⟩, hclosed⟩, hpats⟩ := h
  have hprop : ∀ name t, get? (propertiesOf sup) name = some t → _ :=
    fun name t ht => all_eq_true.mp hprops (name, t) (mem_of_get? _ name t ht)
  have hpat : patternsOf sup ≠ [] →
      ((isFalse (get? sub (js "additionalProperties")) || !(patternsOf sub).isEmpty) = true ∧
      (patternsOf sup).all (fun p =>
        (propertiesOf sub).all (fun q => isIn q.1 (propertiesOf sup) || !test p.1 q.1 || fits (some q.2) (some p.2)) &&
        ((patternsOf sub).isEmpty || isIn p.1 (patternsOf sub) &&
          fits (get? (patternsOf sub) p.1) (some p.2))) = true) ∧
      (patternsOf sub).all (fun p => isIn p.1 (patternsOf sup)) = true := by
    intro hne
    rw [Bool.or_eq_true, Bool.and_eq_true, Bool.and_eq_true] at hpats
    rcases hpats with hnil | hpats
    · exact absurd (List.isEmpty_iff.mp hnil) hne
    · exact hpats
  have hne_of : ∀ pattern t, get? (patternsOf sup) pattern = some t → patternsOf sup ≠ [] := by
    intro pattern t ht hnil
    rw [hnil] at ht
    cases ht
  have hone : ∀ pattern t, get? (patternsOf sup) pattern = some t → _ :=
    fun pattern t ht => all_eq_true.mp (hpat (hne_of pattern t ht)).1.2 (pattern, t)
      (mem_of_get? _ pattern t ht)
  refine ⟨?_, ?_, ?_, ?_, ?_, ?_, ?_, ?_⟩
  · intro name hn
    simpa using all_eq_true.mp hreq name hn
  · intro name t ht hin
    have := hprop name t ht
    rwa [if_pos hin] at this
  · intro name t ht hin ho
    have := hprop name t ht
    rw [if_neg (by simp [hin]), ho] at this
    simpa using this
  · intro hf
    rw [hf] at hclosed
    simp only [Bool.not_true, Bool.false_or, Bool.and_eq_true] at hclosed
    exact ⟨hclosed.1, fun name s hs =>
      all_eq_true.mp hclosed.2 (name, s) (mem_of_get? _ name s hs)⟩
  · intro hne
    have := (hpat hne).1.1
    simpa [Bool.or_eq_true] using this
  · intro pattern t ht name s hs hin hm
    have hp := hone pattern t ht
    rw [Bool.and_eq_true] at hp
    have hq := all_eq_true.mp hp.1 (name, s) (mem_of_get? _ name s hs)
    simpa [hin, hm] using hq
  · intro pattern t ht hne
    have hp := hone pattern t ht
    rw [Bool.and_eq_true, Bool.or_eq_true, Bool.and_eq_true] at hp
    rcases hp.2 with hnil | hp
    · exact absurd (List.isEmpty_iff.mp hnil) hne
    · exact hp
  · intro hne pattern s hs
    exact all_eq_true.mp (hpat hne).2 (pattern, s) (mem_of_get? _ pattern s hs)

end Sound

end PiAgent.Schemas
