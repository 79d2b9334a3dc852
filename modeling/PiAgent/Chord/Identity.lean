import PiAgent.Chord.CanonicalJson
import PiAgent.Chord.Schema

/-!
# Record identity

`canonicalIdentity` of `schema.ts`: the canonical text of an input without the
properties that equal their default.
-/

namespace PiAgent.Schemas

open List Assoc JsonValue

def protoKey : JsString := js "__proto__"

/-- `"default" in property && deepEqual(property.default, item)` -/
def isDefault (property : Schema) (item : JsonValue) : Bool :=
  match get? property (js "default") with
  | none => false
  | some value => deepEqual (some value) (some item)

/-- The schema of an item: its own in a list of items, the one of all items otherwise. -/
def schemaOfItem (schema : Schema) (index : ℕ) : Schema :=
  match get? schema (js "items") with
  | some (.arr items) => asSchema items[index]?
  | items => asSchema items

/-- `asSchema(properties[key])`. What a name inherits from the prototype of objects declares nothing. -/
def schemaOfProperty (properties : Schema) (key : JsString) : Schema := asSchema (get? properties key)

mutual

def stripDefaults (schema : Schema) : JsonValue → JsonValue
  | .prim p => .prim p
  | .arr items => .arr (stripItems schema 0 items)
  | .obj fields => .obj (stripFields (schemasOf schema (js "properties")) fields)

def stripItems (schema : Schema) (index : ℕ) : List JsonValue → List JsonValue
  | [] => []
  | item :: items => stripDefaults (schemaOfItem schema index) item :: stripItems schema (index + 1) items

/-- An assignment to `result.__proto__` is one to the prototype, and makes no property. -/
def stripFields (properties : Schema) : List (JsString × JsonValue) → List (JsString × JsonValue)
  | [] => []
  | (key, item) :: fields =>
    let property := schemaOfProperty properties key
    if isDefault property item || key = protoKey then stripFields properties fields
    else (key, stripDefaults property item) :: stripFields properties fields

end

/-- The identity of an input, with the schema that it was normalized by. -/
def canonicalIdentity (N : NumberTexts) (schema value : JsonValue) : JsString :=
  N.canonicalJson (stripDefaults (asSchema (some schema)) value)

/-! ## Inputs with all defaults -/

mutual

/-- Each property whose schema declares a default is there. -/
def Present (schema : Schema) : JsonValue → Prop
  | .prim _ => True
  | .arr items => PresentItems schema 0 items
  | .obj fields =>
    (∀ key, has (schemaOfProperty (schemasOf schema (js "properties")) key) (js "default") = true →
      has fields key = true) ∧ PresentFields (schemasOf schema (js "properties")) fields

def PresentItems (schema : Schema) (index : ℕ) : List JsonValue → Prop
  | [] => True
  | item :: items => Present (schemaOfItem schema index) item ∧ PresentItems schema (index + 1) items

def PresentFields (properties : Schema) : List (JsString × JsonValue) → Prop
  | [] => True
  | (key, item) :: fields => Present (schemaOfProperty properties key) item ∧ PresentFields properties fields

end

variable (properties : Schema) (fields : List (JsString × JsonValue))

theorem presentFields_mem (h : PresentFields properties fields)
    (p : JsString × JsonValue) (hp : p ∈ fields) : Present (schemaOfProperty properties p.1) p.2 := by
  induction fields with
  | nil => simp at hp
  | cons q fields ih =>
    obtain ⟨hq, hrest⟩ := h
    rcases mem_cons.mp hp with rfl | hp
    · exact hq
    · exact ih hrest hp

/-! ## What an identity does not tell apart -/

mutual

/-- The inputs agree on everything but own properties named `__proto__`. -/
def agree (schema : Schema) : JsonValue → JsonValue → Bool
  | .prim p, .prim q => p = q
  | .arr xs, .arr ys => agreeItems schema 0 xs ys
  | .obj fs, .obj gs =>
    agreeFields (schemasOf schema (js "properties")) fs gs && gs.all (fun q => q.1 = protoKey || has fs q.1)
  | _, _ => false

def agreeItems (schema : Schema) (index : ℕ) : List JsonValue → List JsonValue → Bool
  | [], [] => true
  | x :: xs, y :: ys => agree (schemaOfItem schema index) x y && agreeItems schema (index + 1) xs ys
  | _, _ => false

/-- A property that equals its default agrees with one that does. -/
def agreeFields (properties : Schema) : List (JsString × JsonValue) → List (JsString × JsonValue) → Bool
  | [], _ => true
  | (key, x) :: fs, gs =>
    (key = protoKey || match get? gs key with
      | none => false
      | some y =>
        let property := schemaOfProperty properties key
        if isDefault property x || isDefault property y then isDefault property x && isDefault property y
        else agree property x y) && agreeFields properties fs gs

end

def agreeProperty (property : Schema) (x y : JsonValue) : Prop :=
  isDefault property x = isDefault property y ∧ (isDefault property x = false → agree property x y = true)

theorem agreeFields_iff (fs gs : List (JsString × JsonValue)) :
    agreeFields properties fs gs = true ↔ ∀ p ∈ fs, p.1 ≠ protoKey →
      ∃ y, get? gs p.1 = some y ∧ agreeProperty (schemaOfProperty properties p.1) p.2 y := by
  induction fs with
  | nil => simp [agreeFields]
  | cons p fs ih =>
    obtain ⟨key, x⟩ := p
    rw [agreeFields, Bool.and_eq_true, ih]
    simp only [mem_cons, forall_eq_or_imp]
    refine and_congr_left (fun _ => ?_)
    cases hy : get? gs key with
    | none => simp
    | some y =>
      simp only [Bool.or_eq_true, decide_eq_true_eq, Option.some.injEq, exists_eq_left', agreeProperty]
      by_cases hkey : key = protoKey
      · simp [hkey]
      · simp only [hkey, false_or, ne_eq, not_false_eq_true, forall_const]
        cases hx : isDefault (schemaOfProperty properties key) x <;>
          cases hyd : isDefault (schemaOfProperty properties key) y <;> simp

theorem get?_stripFields (hn : (keys fields).Nodup) (key : JsString) :
    get? (stripFields properties fields) key =
      if key = protoKey then none
      else (get? fields key).bind (fun x =>
        if isDefault (schemaOfProperty properties key) x then none
        else some (stripDefaults (schemaOfProperty properties key) x)) := by
  induction fields with
  | nil => simp [stripFields]
  | cons p fields ih =>
    obtain ⟨k, x⟩ := p
    obtain ⟨hk, hn⟩ := nodup_cons.mp hn
    have ih := ih hn
    have hnone : k = key → get? fields key = none := by
      rintro rfl
      exact (get?_eq_none_iff fields k).mpr hk
    unfold stripFields
    simp only
    split
    · rename_i hskip
      rw [ih, get?]
      by_cases hkey : k = key
      · subst hkey
        rw [hnone rfl]
        simp only [Bool.or_eq_true, decide_eq_true_eq] at hskip
        rcases hskip with hd | hp
        · simp [hd]
        · simp [hp]
      · simp [hkey]
    · rename_i hskip
      simp only [Bool.or_eq_true, decide_eq_true_eq, not_or, Bool.not_eq_true] at hskip
      rw [get?, get?, ih]
      by_cases hkey : k = key
      · subst hkey
        simp [hskip.1, hskip.2]
      · simp [hkey]

/-! ## Stripped inputs are well formed -/

theorem keys_stripFields : (keys (stripFields properties fields)).Sublist (keys fields) := by
  induction fields with
  | nil => exact List.Sublist.refl _
  | cons p fields ih =>
    obtain ⟨k, x⟩ := p
    unfold stripFields
    simp only
    split
    · exact ih.cons _
    · exact ih.cons_cons _

theorem mem_stripFields (p : JsString × JsonValue) (hp : p ∈ stripFields properties fields) :
    ∃ x, (p.1, x) ∈ fields ∧ p.2 = stripDefaults (schemaOfProperty properties p.1) x := by
  induction fields with
  | nil => simp [stripFields] at hp
  | cons q fields ih =>
    obtain ⟨k, x⟩ := q
    unfold stripFields at hp
    simp only at hp
    split at hp
    · obtain ⟨y, hy, hv⟩ := ih hp
      exact ⟨y, mem_cons_of_mem _ hy, hv⟩
    · rcases mem_cons.mp hp with rfl | hp
      · exact ⟨x, mem_cons_self .., rfl⟩
      · obtain ⟨y, hy, hv⟩ := ih hp
        exact ⟨y, mem_cons_of_mem _ hy, hv⟩

theorem stripItems_wf (items : List JsonValue) (ih : ∀ x ∈ items, ∀ schema, Wf (stripDefaults schema x))
    (schema : Schema)
    (index : ℕ) : ∀ y ∈ stripItems schema index items, Wf y := by
  induction items generalizing index with
  | nil => simp [stripItems]
  | cons x items ihl =>
    intro y hy
    rcases mem_cons.mp hy with rfl | hy
    · exact ih x (by simp) _
    · exact ihl (fun z hz => ih z (by simp [hz])) (index + 1) y hy

theorem stripDefaults_wf (v : JsonValue) (hv : v.Wf) (schema : Schema) : Wf (stripDefaults schema v) := by
  induction v using JsonValue.ind generalizing schema with
  | prim p => exact .prim p
  | arr xs ih =>
    rw [stripDefaults, wf_arr_iff]
    rw [wf_arr_iff] at hv
    exact stripItems_wf xs (fun x hx schema => ih x hx (hv x hx) schema) schema 0
  | obj fs ih =>
    rw [stripDefaults, wf_obj_iff]
    rw [wf_obj_iff] at hv
    refine ⟨(keys_stripFields _ fs).nodup hv.1, fun p hp => ?_⟩
    obtain ⟨x, hx, hval⟩ := mem_stripFields _ fs p hp
    rw [hval]
    exact ih _ hx (hv.2 _ hx) _

/-! ## Identities and inputs -/

variable (xs : List JsonValue)

theorem stripItems_eqv_iff (ih : ∀ x ∈ xs, ∀ schema w, w.Wf → Present schema x → Present schema w →
      (Eqv (stripDefaults schema x) (stripDefaults schema w) ↔ agree schema x w = true))
    (schema : Schema) (index : ℕ) (ys : List JsonValue) (hy : ∀ y ∈ ys, y.Wf) (px : PresentItems schema index xs)
    (py : PresentItems schema index ys) :
    List.Forall₂ Eqv (stripItems schema index xs) (stripItems schema index ys) ↔
        agreeItems schema index xs ys = true := by
  induction xs generalizing index ys with
  | nil => cases ys <;> simp [stripItems, agreeItems]
  | cons x xs ihl =>
    cases ys with
    | nil => simp [stripItems, agreeItems]
    | cons y ys =>
      obtain ⟨px, pxs⟩ := px
      obtain ⟨py, pys⟩ := py
      rw [stripItems, stripItems, List.forall₂_cons, agreeItems, Bool.and_eq_true,
        ih x (by simp) _ y (hy y (by simp)) px py,
        ihl (fun z hz => ih z (by simp [hz])) (index + 1) ys (fun z hz => hy z (by simp [hz])) pxs pys]

variable (property : Schema)

theorem has_default_of_isDefault (x : JsonValue) (h : isDefault property x = true) :
    has property (js "default") = true := by
  unfold isDefault at h
  split at h
  · cases h
  · rename_i hd
    simp [has, hd]

def kept (property : Schema) (x : JsonValue) : Option JsonValue :=
  if isDefault property x then none else some (stripDefaults property x)

theorem kept_rel (a b : Option JsonValue) (ha : ∀ x, a = some x → isDefault property x = true → ∃ y, b = some y)
    (hb : ∀ y, b = some y → isDefault property y = true → ∃ x, a = some x)
    (ih : ∀ x y, a = some x → b = some y →
      (Eqv (stripDefaults property x) (stripDefaults property y) ↔ agree property x y = true)) :
    Option.Rel Eqv (a.bind (kept property)) (b.bind (kept property)) ↔
      (∀ x, a = some x → ∃ y, b = some y ∧ agreeProperty property x y) ∧ (b.isSome = true → a.isSome = true) := by
  cases a with
  | none =>
    cases b with
    | none => simp
    | some y =>
      have hy : isDefault property y = false := by
        cases hd : isDefault property y with
        | false => rfl
        | true =>
          obtain ⟨x, hx⟩ := hb y rfl hd
          cases hx
      simp [kept, hy]
  | some x =>
    cases b with
    | none =>
      have hx : isDefault property x = false := by
        cases hd : isDefault property x with
        | false => rfl
        | true =>
          obtain ⟨y, hy⟩ := ha x rfl hd
          cases hy
      simp [kept, hx]
    | some y =>
      have ih := ih x y rfl rfl
      cases hx : isDefault property x <;> cases hy : isDefault property y <;> simp [kept, agreeProperty, hx, hy, ih]

theorem stripFields_eqv_iff (fs gs : List (JsString × JsonValue))
    (ih : ∀ p ∈ fs, ∀ schema w, w.Wf → Present schema p.2 → Present schema w →
      (Eqv (stripDefaults schema p.2) (stripDefaults schema w) ↔ agree schema p.2 w = true))
    (properties : Schema) (hf : (keys fs).Nodup) (hg : Wf (.obj gs))
    (pf : (∀ key, has (schemaOfProperty properties key) (js "default") = true → has fs key = true) ∧
      PresentFields properties fs)
    (pg : (∀ key, has (schemaOfProperty properties key) (js "default") = true → has gs key = true) ∧
      PresentFields properties gs) :
    Eqv (.obj (stripFields properties fs)) (.obj (stripFields properties gs)) ↔
      (agreeFields properties fs gs && gs.all (fun q => q.1 = protoKey || has fs q.1)) = true := by
  rw [wf_obj_iff] at hg
  have hkey : ∀ key, key ≠ protoKey →
      (Option.Rel Eqv (get? (stripFields properties fs) key) (get? (stripFields properties gs) key) ↔
        (∀ x, get? fs key = some x → ∃ y, get? gs key = some y ∧
          agreeProperty (schemaOfProperty properties key) x y) ∧
              (has gs key = true → has fs key = true)) := by
    intro key hne
    rw [get?_stripFields properties fs hf, get?_stripFields properties gs hg.1, if_neg hne, if_neg hne]
    refine kept_rel (schemaOfProperty properties key) _ _ ?_ ?_ ?_
    · exact fun x _ hd => Option.isSome_iff_exists.mp (pg.1 key (has_default_of_isDefault _ x hd))
    · exact fun y _ hd => Option.isSome_iff_exists.mp (pf.1 key (has_default_of_isDefault _ y hd))
    · intro x y hx hy
      have hxm := mem_of_get? fs key x hx
      have hym := mem_of_get? gs key y hy
      exact ih _ hxm _ y (hg.2 _ hym) (presentFields_mem properties fs pf.2 _ hxm)
          (presentFields_mem properties gs pg.2 _ hym)
  rw [eqv_obj_iff, Bool.and_eq_true, agreeFields_iff, all_eq_true]
  simp only [Bool.or_eq_true, decide_eq_true_eq]
  constructor
  · intro h
    refine ⟨fun p hp hne => ((hkey p.1 hne).mp (h p.1)).1 p.2 (get?_of_mem fs p.1 p.2 hf hp), fun q hq => ?_⟩
    by_cases hne : q.1 = protoKey
    · exact .inl hne
    · refine .inr (((hkey q.1 hne).mp (h q.1)).2 ?_)
      rw [has, get?_of_mem gs q.1 q.2 hg.1 hq]
      rfl
  · rintro ⟨hfields, hall⟩ key
    by_cases hne : key = protoKey
    · rw [get?_stripFields properties fs hf, get?_stripFields properties gs hg.1, if_pos hne, if_pos hne]
      exact .none
    · refine (hkey key hne).mpr ⟨fun x hx => hfields _ (mem_of_get? fs key x hx) hne, fun hgs => ?_⟩
      obtain ⟨y, hy⟩ := Option.isSome_iff_exists.mp hgs
      exact (hall _ (mem_of_get? gs key y hy)).resolve_left hne

theorem stripDefaults_eqv_iff (v w : JsonValue) (schema : Schema) (hv : v.Wf) (hw : w.Wf) (pv : Present schema v)
    (pw : Present schema w) : Eqv (stripDefaults schema v) (stripDefaults schema w) ↔ agree schema v w = true := by
  induction v using JsonValue.ind generalizing schema w with
  | prim p =>
    cases w with
    | prim q =>
      rw [stripDefaults, stripDefaults, eqv_prim_iff, agree, decide_eq_true_eq]
      simp [eq_comm]
    | arr ys => exact ⟨fun h => (by cases h), fun h => by simp [agree] at h⟩
    | obj gs => exact ⟨fun h => (by cases h), fun h => by simp [agree] at h⟩
  | arr xs ih =>
    cases w with
    | prim q => exact ⟨fun h => (by cases h), fun h => by simp [agree] at h⟩
    | obj gs => exact ⟨fun h => (by cases h), fun h => by simp [agree] at h⟩
    | arr ys =>
      rw [wf_arr_iff] at hv hw
      rw [stripDefaults, stripDefaults, eqv_arr_iff, agree]
      exact stripItems_eqv_iff xs
          (fun x hx schema w hww pxx pww => ih x hx w schema (hv x hx) hww pxx pww) schema 0 ys hw pv pw
  | obj fs ih =>
    cases w with
    | prim q => exact ⟨fun h => (by cases h), fun h => by simp [agree] at h⟩
    | arr ys => exact ⟨fun h => (by cases h), fun h => by simp [agree] at h⟩
    | obj gs =>
      rw [wf_obj_iff] at hv
      rw [stripDefaults, stripDefaults, agree]
      exact stripFields_eqv_iff fs gs
          (fun p hp schema w hww pxx pww => ih p hp w schema (hv.2 p hp) hww pxx pww) _ hv.1 hw pv pw

/-! ## Inputs without the key -/

/-- No object of the value has an own property named `__proto__`. -/
inductive Plain : JsonValue → Prop
  | prim (p : Primitive) : Plain (.prim p)
  | arr (xs : List JsonValue) (h : ∀ x ∈ xs, Plain x) : Plain (.arr xs)
  | obj (fs : List (JsString × JsonValue)) (hk : protoKey ∉ keys fs) (h : ∀ p ∈ fs, Plain p.2) : Plain
      (.obj fs)

/-- Every value of a schema is well formed. -/
def WfSchema (schema : Schema) : Prop := ∀ p ∈ schema, p.2.Wf

theorem asSchema_wf (s : Option JsonValue) (hs : ∀ v ∈ s, v.Wf) : WfSchema (asSchema s) := by
  unfold asSchema
  split
  · exact ((wf_obj_iff _).mp (hs _ rfl)).2
  · intro p hp
    obtain ⟨q, hq, rfl⟩ := mem_map.mp hp
    exact (wf_arr_iff _).mp (hs _ rfl) q.1 (fst_mem_of_mem_zipIdx hq)
  · intro p hp
    obtain rfl := mem_singleton.mp hp
    exact .obj [] (by simp [Assoc.keys]) (by simp)
  · intro p hp
    simp at hp

variable (schema : Schema)

theorem get?_wf (h : WfSchema schema) (key : JsString) : ∀ v ∈ get? schema key, v.Wf :=
  fun v hv => h _ (mem_of_get? schema key v hv)

theorem schemaOfProperty_wf (h : WfSchema schema) (key : JsString) :
    WfSchema (schemaOfProperty (schemasOf schema (js "properties")) key) :=
  asSchema_wf _ (get?_wf _ (asSchema_wf _ (get?_wf schema h _)) key)

theorem schemaOfItem_wf (h : WfSchema schema) (index : ℕ) : WfSchema (schemaOfItem schema index) := by
  have hitems := get?_wf schema h (js "items")
  unfold schemaOfItem
  split
  · rename_i items hget
    rw [hget] at hitems
    refine asSchema_wf _ (fun v hv => ?_)
    exact (wf_arr_iff items).mp (hitems _ rfl) v (mem_of_getElem? hv)
  · exact asSchema_wf _ hitems

theorem eqv_of_isDefault (h : WfSchema property) (x y : JsonValue) (hx : x.Wf) (hy : y.Wf)
    (hdx : isDefault property x = true) (hdy : isDefault property y = true) : Eqv x y := by
  unfold isDefault at hdx hdy
  split at hdx
  · cases hdx
  · rename_i value hvalue
    rw [hvalue] at hdy
    have hwf := h _ (mem_of_get? property _ value hvalue)
    exact eqv_trans (eqv_symm ((equalJson_iff value x hwf hx).mp hdx)) ((equalJson_iff value y hwf hy).mp hdy)

theorem agreeItems_eqv (ih : ∀ x ∈ xs, ∀ schema w, WfSchema schema → w.Wf → Plain w → agree schema x w = true → Eqv x w)
        (schema : Schema)
    (hs : WfSchema schema) (index : ℕ) (ys : List JsonValue) (hy : ∀ y ∈ ys, y.Wf ∧ Plain y)
    (h : agreeItems schema index xs ys = true) : List.Forall₂ Eqv xs ys := by
  induction xs generalizing index ys with
  | nil =>
    cases ys with
    | nil => exact .nil
    | cons y ys => simp [agreeItems] at h
  | cons x xs ihl =>
    cases ys with
    | nil => simp [agreeItems] at h
    | cons y ys =>
      rw [agreeItems, Bool.and_eq_true] at h
      obtain ⟨hyw, hyp⟩ := hy y (by simp)
      exact .cons (ih x (by simp) _ y (schemaOfItem_wf schema hs index) hyw hyp h.1)
        (ihl (fun z hz => ih z (by simp [hz])) (index + 1) ys (fun z hz => hy z (by simp [hz])) h.2)

theorem plain_obj_iff (fs : List (JsString × JsonValue)) :
    Plain (.obj fs) ↔ protoKey ∉ keys fs ∧ ∀ p ∈ fs, Plain p.2 :=
  ⟨fun h => by cases h; exact ⟨‹_›, ‹_›⟩, fun h => .obj fs h.1 h.2⟩

theorem plain_arr_iff : Plain (.arr xs) ↔ ∀ x ∈ xs, Plain x :=
  ⟨fun h => by cases h; assumption, .arr xs⟩

theorem eqv_of_agree (v w : JsonValue) (schema : Schema) (hs : WfSchema schema) (hv : v.Wf) (hw : w.Wf)
    (lv : Plain v)
    (lw : Plain w) (h : agree schema v w = true) : Eqv v w := by
  induction v using JsonValue.ind generalizing schema w with
  | prim p =>
    cases w with
    | prim q =>
      rw [agree, decide_eq_true_eq] at h
      exact h ▸ eqv_refl _
    | arr ys => simp [agree] at h
    | obj gs => simp [agree] at h
  | arr xs ih =>
    cases w with
    | prim q => simp [agree] at h
    | obj gs => simp [agree] at h
    | arr ys =>
      rw [wf_arr_iff] at hv hw
      rw [plain_arr_iff] at lv lw
      rw [eqv_arr_iff]
      rw [agree] at h
      exact agreeItems_eqv xs
          (fun x hx schema w hs hww lww hag => ih x hx w schema hs (hv x hx) hww (lv x hx) lww hag) schema hs 0
        ys (fun y hy => ⟨hw y hy, lw y hy⟩) h
  | obj fs ih =>
    cases w with
    | prim q => simp [agree] at h
    | arr ys => simp [agree] at h
    | obj gs =>
      rw [wf_obj_iff] at hv hw
      rw [plain_obj_iff] at lv lw
      rw [agree, Bool.and_eq_true, agreeFields_iff, all_eq_true] at h
      obtain ⟨hfields, hall⟩ := h
      have hne : ∀ {l : List (JsString × JsonValue)} {key x}, protoKey ∉ keys l → (key, x) ∈ l →
          key ≠ protoKey := by
        rintro l key x hl hmem rfl
        exact hl (mem_map_of_mem hmem)
      rw [eqv_obj_iff]
      intro key
      cases hx : get? fs key with
      | none =>
        cases hy : get? gs key with
        | none => exact .none
        | some y =>
          have hmem := mem_of_get? gs key y hy
          have := hall _ hmem
          simp [hne lw.1 hmem, has, hx] at this
      | some x =>
        have hmem := mem_of_get? fs key x hx
        obtain ⟨y, hy, hdef, hag⟩ := hfields _ hmem (hne lv.1 hmem)
        have hymem := mem_of_get? gs key y hy
        have hps := schemaOfProperty_wf schema hs key
        rw [hy]
        cases hd : isDefault (schemaOfProperty (schemasOf schema (js "properties")) key) x with
        | true =>
          rw [hd] at hdef
          exact .some (eqv_of_isDefault _ hps x y (hv.2 _ hmem) (hw.2 _ hymem) hd hdef.symm)
        | false =>
          exact .some (ih _ hmem y _ hps (hv.2 _ hmem) (hw.2 _ hymem) (lv.2 _ hmem) (lw.2 _ hymem) (hag hd))

/-! ## The result -/

theorem canonicalIdentity_eq_iff (N : NumberTexts) (schema v w : JsonValue) (hv : v.Wf) (hw : w.Wf)
    (pv : Present (asSchema (some schema)) v) (pw : Present (asSchema (some schema)) w) :
    canonicalIdentity N schema v = canonicalIdentity N schema w ↔ agree (asSchema (some schema)) v w = true := by
  unfold canonicalIdentity
  rw [N.canonicalJson_eq_iff _ _ (stripDefaults_wf v hv _) (stripDefaults_wf w hw _)]
  exact stripDefaults_eqv_iff v w _ hv hw pv pw

/-- The identity tells two inputs apart if they do not agree, or are equal. Inputs without own properties named
`__proto__` are so. -/
theorem canonicalIdentity_injective_iff (N : NumberTexts) (schema v w : JsonValue) (hs : schema.Wf) (hv : v.Wf)
    (hw : w.Wf)
    (pv : Present (asSchema (some schema)) v) (pw : Present (asSchema (some schema)) w) :
    ((canonicalIdentity N schema v = canonicalIdentity N schema w → Eqv v w) ↔
        (agree (asSchema (some schema)) v w = true → Eqv v w)) ∧
      (Plain v → Plain w → agree (asSchema (some schema)) v w = true → Eqv v w) := by
  rw [canonicalIdentity_eq_iff N schema v w hv hw pv pw]
  refine ⟨Iff.rfl, fun lv lw => eqv_of_agree v w _ (asSchema_wf _ ?_) hv hw lv lw⟩
  intro u hu
  obtain rfl := Option.some.inj hu
  exact hs

/-- `{ type: "object", patternProperties: { "^.*$": { type: "number" } } }` -/
def numberRecord : JsonValue :=
  .obj [(js "type", .prim (.str (js "object"))),
    (js "patternProperties", .obj [(js "^.*$", .obj [(js "type", .prim (.str (js "number")))])])]

theorem numberRecord_present (h : ∀ p ∈ fields, ∃ n, p.2 = .prim (.num n)) :
    Present (asSchema (some numberRecord)) (.obj fields) := by
  have hprops : schemasOf (asSchema (some numberRecord)) (js "properties") = [] := by rfl
  rw [Present, hprops]
  refine ⟨fun key hd => ?_, ?_⟩
  · cases hd
  · induction fields with
    | nil => exact trivial
    | cons p fields ih =>
      obtain ⟨key, x⟩ := p
      obtain ⟨n, rfl⟩ := h (key, x) (by simp)
      exact ⟨trivial, ih (fun q hq => h q (by simp [hq]))⟩

/-- `JSON.parse('{"__proto__":1}')` has the identity of `{}`. -/
theorem canonicalIdentity_proto : ((JsonValue.obj [(protoKey, .prim (.num 1))]).Wf ∧ (JsonValue.obj []).Wf ∧
      Present (asSchema (some numberRecord)) (.obj [(protoKey, .prim (.num 1))]) ∧
      Present (asSchema (some numberRecord)) (.obj [])) ∧
    canonicalIdentity NumberTexts.fractions numberRecord (.obj [(protoKey, .prim (.num 1))])
      = canonicalIdentity NumberTexts.fractions numberRecord (.obj []) ∧
    ¬ Eqv (.obj [(protoKey, .prim (.num 1))]) (.obj []) := by
  refine ⟨⟨?_, ?_, ?_, ?_⟩, by rfl, ?_⟩
  · rw [wf_obj_iff]
    refine ⟨by simp [Assoc.keys], fun p hp => ?_⟩
    obtain rfl := mem_singleton.mp hp
    exact .prim _
  · exact (wf_obj_iff _).mpr ⟨by simp [Assoc.keys], by simp⟩
  · exact numberRecord_present _ (by simp)
  · exact numberRecord_present _ (by simp)
  · intro h
    have hkey := (eqv_obj_iff _ _).mp h protoKey
    simp [get?] at hkey

/-- `{ type: "object", properties: { limit: { type: "number", default: 10 } } }` -/
def limitSchema : JsonValue :=
  .obj [(js "type", .prim (.str (js "object"))), (js "properties", .obj [(js "limit",
    .obj [(js "type", .prim (.str (js "number"))), (js "default", .prim (.num 10))])])]

def limited (key : String) : JsonValue := .obj [(js "limit", .prim (.num 10)), (js key, .prim (.num 1))]

theorem limited_present (key : String) : Present (asSchema (some limitSchema)) (limited key) := by
  rw [limited, Present]
  refine ⟨fun name hd => ?_, trivial, trivial, trivial⟩
  by_cases hname : js "limit" = name
  · simp [has, get?, hname]
  · have hnone : schemaOfProperty (schemasOf (asSchema (some limitSchema)) (js "properties")) name = [] := by
      show asSchema (get? [(js "limit", _)] name) = []
      rw [get?_cons_ne _ _ _ _ hname]
      rfl
    rw [hnone] at hd
    cases hd

/-- Two inputs with the default and another field each. -/
theorem canonicalIdentity_injective_iff_numbers :
    agree (asSchema (some limitSchema)) (limited "a") (limited "b") = false ∧
    canonicalIdentity NumberTexts.fractions limitSchema (limited "a") ≠
      canonicalIdentity NumberTexts.fractions limitSchema (limited "b") := by
  have hfalse : agree (asSchema (some limitSchema)) (limited "a") (limited "b") = false := by decide +kernel
  have hwf : limitSchema.Wf ∧ (limited "a").Wf ∧ (limited "b").Wf := by
    simp only [limitSchema, limited, wf_obj_iff, forall_mem_cons]
    simp [Wf.prim, Assoc.keys]
    decide
  refine ⟨hfalse, fun h => ?_⟩
  have heqv := (canonicalIdentity_injective_iff NumberTexts.fractions limitSchema (limited "a") (limited "b") hwf.1
    hwf.2.1 hwf.2.2 (limited_present "a") (limited_present "b")).1.mpr (fun hagree => by simp [hfalse] at hagree) h
  have hkey := (eqv_obj_iff _ _).mp heqv (js "a")
  simp [get?, show js "limit" ≠ js "a" by decide, show js "b" ≠ js "a" by decide] at hkey

end PiAgent.Schemas
