import PiAgent.Chord.Delta.DiffSound

/-!
# `diffRevisions`

Arrays, objects and whole revisions, on top of regions and strings.
-/

namespace PiAgent.Delta

open List Assoc Shared JsonValue

variable {heap : ℕ → JsonValue}

structure WholeRel (x y : Shared) (path : Path) (b b' : Batch) : Prop where
  full : b.overflowed = true → b'.overflowed = true
  same : x.value.Eqv y.value → b' = b
  emits : ∀ place : Place, place.Ok → place.path = path →
    Emits (place.plug x.value) (ValueAt place y.value) b b'

variable {x y : Shared} {path : Path}

theorem WholeRel.toValueRel {b b' : Batch} (h : WholeRel x y path b b') : ValueRel x y path b b' :=
  ⟨h.full, h.same, fun place frame hok hpath => h.emits (place ++ [frame]) hok hpath⟩

theorem WholeRel.refl (h : x.value.Eqv y.value) (b : Batch) : WholeRel x y path b b :=
  ⟨id, fun _ => rfl, fun _ _ _ => .nothing ⟨x.value, rfl, h⟩⟩

theorem WholeRel.of_full {b : Batch} (h : b.overflowed = true) : WholeRel x y path b b :=
  ⟨id, fun _ => rfl, fun _ _ _ => ⟨id, fun ho => by rw [h] at ho; cases ho⟩⟩

theorem Ends.mono {f : Batch → ℕ → Option Batch} {rel rel' : Batch → Batch → Prop} (h : Ends f rel)
    (himp : ∀ b b', rel b b' → rel' b b') : Ends f rel' := by
  obtain ⟨N, h⟩ := h
  refine ⟨N, fun b => ?_⟩
  obtain ⟨b', hf, hrel⟩ := h b
  exact ⟨b', hf, himp b b' hrel⟩

/-! ## Arrays -/

theorem permute_eqv (xs ys : List Shared) (hx : ∀ x ∈ xs, Labelled heap x) (hy : ∀ y ∈ ys, Labelled heap y)
    (order : List ℕ) (h : List.Forall₂ (fun i k => (xs.map identity)[i]? = some k) order (ys.map identity)) :
    List.Forall₂ Eqv (permute (xs.map value) order) (ys.map value) := by
  induction order generalizing ys with
  | nil =>
    cases ys with
    | nil => exact .nil
    | cons y ys => cases h
  | cons i order ih =>
    cases ys with
    | nil => cases h
    | cons y ys =>
      rw [map_cons, List.forall₂_cons] at h
      obtain ⟨x, hxi, hid⟩ : ∃ x, xs[i]? = some x ∧ x.identity = y.identity := by
        rw [getElem?_map, Option.map_eq_some_iff] at h
        exact h.1
      have heqv : x.value.Eqv y.value :=
        eqv_of_same x y (hx x (mem_of_getElem? hxi)) (hy y (by simp)) (by simp [same, hid])
      have hrest := ih ys (fun y hy' => hy y (by simp [hy'])) h.2
      simp only [permute, filterMap_cons, getElem?_map, hxi, Option.map_some, map_cons] at hrest ⊢
      exact .cons heqv hrest

theorem diffArray_ends (i j : ℕ) (xs ys : List Shared) (hx : Labelled heap (.arr i xs)) (hy : Labelled heap (.arr j ys))
    (hpairs : PairsOk xs ys) (path : Path) :
    Ends (diffArray (.arr i xs) (.arr j ys) xs ys path) (WholeRel (.arr i xs) (.arr j ys) path) := by
  by_cases heq : (Shared.arr i xs).same (.arr j ys) || equalJson (.arr i xs) (.arr j ys)
  · have heqv : (Shared.arr i xs).value.Eqv (Shared.arr j ys).value := by
      rw [Bool.or_eq_true] at heq
      rcases heq with h | h
      · exact eqv_of_same _ _ hx hy h
      · exact (equalJson_iff _ _ hx hy).mp h
    exact (Ends.pure id (WholeRel.refl heqv)).succ (fun b steps => by rw [diffArray, if_pos heq]; rfl)
      (fun _ _ h => h)
  · have hne : ¬ (Shared.arr i xs).value.Eqv (Shared.arr j ys).value := fun h =>
      heq (by rw [(equalJson_iff _ _ hx hy).mpr h, Bool.or_true])
    obtain ⟨order, hperm, hstep⟩ := diffArray_order (.arr i xs) (.arr j ys) xs ys path heq
    cases order with
    | some order =>
      obtain ⟨hisperm, hlen, hfor⟩ := permutation_spec _ _ order (hperm order rfl)
      refine (Ends.pure (fun b => b.emit (.edit path (.m order))) (fun b => ?_)).succ hstep (fun _ _ h => h)
      refine ⟨emit_full b _, fun h => absurd h hne, fun place hok hpath => ?_⟩
      rw [length_map] at hlen
      have happly := applyOp_permute place hok (xs.map value) order hisperm (by simp [hlen])
      rw [hpath, ← value_arr i] at happly
      refine (emits_emit _ _ path _ b happly).mono ?_
      rintro v rfl
      refine ⟨_, rfl, ?_⟩
      rw [value_arr, eqv_arr_iff]
      exact permute_eqv xs ys hx.items hy.items order hfor
    | none =>
      refine (regionOk_of_pairsOk xs ys hpairs path 0).succ hstep (fun b b' h => ?_)
      refine ⟨h.full, fun he => absurd he hne, fun place hok hpath => ?_⟩
      have := h.emits place [] [] hok hpath rfl
      simp only [nil_append, append_nil] at this
      rw [value_arr]
      refine this.mono ?_
      rintro v ⟨mid, rfl, hmid⟩
      refine ⟨.arr mid, by simp, ?_⟩
      rwa [value_arr, eqv_arr_iff]

/-! ## Objects -/

/-- Every field of `todo` is in the object at the place, and its other fields are those of `cur`. -/
def FieldsAt (place : Place) (cur : List (JsString × JsonValue)) (todo : List (JsString × Shared)) (v : JsonValue) :
    Prop :=
  ∃ cur', v = place.plug (.obj cur') ∧ (keys cur').Nodup ∧
    (∀ k y, get? todo k = some y → ∃ y', get? cur' k = some y' ∧ y'.Eqv y.value) ∧
    ∀ k, get? todo k = none → get? cur' k = get? cur k

structure FieldsRel (fs todo : List (JsString × Shared)) (path : Path) (b b' : Batch) : Prop where
  full : b.overflowed = true → b'.overflowed = true
  same : (∀ k y, get? todo k = some y → ∃ x, get? fs k = some x ∧ x.value.Eqv y.value) → b' = b
  emits : ∀ (place : Place) cur, place.Ok → place.path = path → (keys cur).Nodup →
    (∀ k ∈ keys todo, get? cur k = (get? fs k).map value) →
    Emits (place.plug (.obj cur)) (FieldsAt place cur todo) b b'

structure PropertyRel (x? : Option Shared) (key : JsString) (y : Shared) (path : Path) (b b' : Batch) : Prop where
  full : b.overflowed = true → b'.overflowed = true
  same : (∃ x, x? = some x ∧ x.value.Eqv y.value) → b' = b
  emits : ∀ (place : Place) cur, place.Ok → place.path = path → get? cur key = x?.map value →
    Emits (place.plug (.obj cur))
      (fun v => ∃ y', v = place.plug (.obj (set cur key y')) ∧ y'.Eqv y.value) b b'

def diffProperty (x? : Option Shared) (key : JsString) (y : Shared) (path : Path) (b : Batch) (steps : ℕ) :
    Option Batch :=
  match x? with
  | some x => diffValue x y (path ++ [.key key]) b steps
  | none => some (emitSet (path ++ [.key key]) y b)

theorem diffProperty_ends (x? : Option Shared) (key : JsString) (y : Shared) (path : Path) (hkey : key ∉ reservedSegments)
    (hvalue : ∀ x, x? = some x → ValueOk x y) :
    Ends (diffProperty x? key y path) (PropertyRel x? key y path) := by
  cases x? with
  | none =>
    show Ends (fun b _ => some (emitSet (path ++ [.key key]) y b)) (PropertyRel none key y path)
    refine Ends.pure _ (fun b => ?_)
    refine ⟨?_, by simp, fun place cur hok hpath _ => ?_⟩
    · rw [emitSet, if_neg (by simp)]
      exact emit_full b _
    · rw [emitSet, if_neg (by simp)]
      have happly := applyOp_setProperty place hok cur key y.value hkey
      rw [hpath] at happly
      refine (emits_emit _ _ _ _ b happly).mono ?_
      rintro v rfl
      exact ⟨y.value, rfl, eqv_refl _⟩
  | some x =>
    have hends := hvalue x rfl (path ++ [.key key]) (by simp)
    refine hends.mono (fun b b' h => (?_ : PropertyRel (some x) key y path b b'))
    refine ⟨h.full, ?_, fun place cur hok hpath hcur => ?_⟩
    · rintro ⟨x', hx', he⟩
      obtain rfl := Option.some.inj hx'
      exact h.same he
    · obtain ⟨pre, post, rfl, hpre⟩ := exists_split cur key x.value hcur
      have hplace : Place.Ok (place ++ [.field pre key post]) := by simpa using ⟨hok, hpre, hkey⟩
      have := h.emits place (.field pre key post) hplace (by simp [Frame.seg, hpath])
      simp only [Place.plug_append, Place.plug_cons, Place.plug_nil, Frame.fill] at this
      refine this.mono ?_
      rintro v ⟨y', rfl, hy'⟩
      refine ⟨y', ?_, hy'⟩
      rw [set_middle pre post key _ y' hpre]
      simp [Frame.fill]

theorem FieldsRel.of_full {fs todo : List (JsString × Shared)} {path : Path} (b : Batch) (h : b.overflowed = true) :
    FieldsRel fs todo path b b :=
  ⟨id, fun _ => rfl, fun _ _ _ _ _ _ => ⟨id, fun ho => by rw [h] at ho; cases ho⟩⟩

theorem diffFields_ends (fs todo : List (JsString × Shared)) (path : Path) (hn : (keys todo).Nodup)
    (hsafe : ∀ k ∈ keys todo, k ∉ reservedSegments)
    (hvalue : ∀ p ∈ todo, ∀ x, get? fs p.1 = some x → ValueOk x p.2) :
    Ends (diffFields fs todo path) (FieldsRel fs todo path) := by
  induction todo with
  | nil =>
    have hrefl : ∀ b, FieldsRel fs [] path b b := fun b =>
      ⟨id, fun _ => rfl, fun place cur _ _ hcur _ => .nothing ⟨cur, rfl, hcur, by simp, by simp⟩⟩
    refine (Ends.pure id hrefl).of_open (fun b steps ho => ?_) (fun b steps ho => ?_) FieldsRel.of_full
    · rw [diffFields, if_pos ho]
    · rw [diffFields, if_neg (by simp [ho])]; rfl
  | cons p todo ih =>
    obtain ⟨key, y⟩ := p
    simp only [Assoc.keys, map_cons, nodup_cons] at hn
    have hkey : key ∉ reservedSegments := hsafe key (by simp [Assoc.keys])
    have e₁ := diffProperty_ends (get? fs key) key y path hkey (hvalue (key, y) (by simp))
    have e₂ := ih hn.2 (fun k hk => hsafe k (by simp [Assoc.keys] at hk ⊢; tauto))
      (fun p hp => hvalue p (by simp [hp]))
    have hget : ∀ k, k ≠ key → get? ((key, y) :: todo) k = get? todo k :=
      fun k hk => get?_cons_ne key k y todo (Ne.symm hk)
    have hnone : get? todo key = none := (get?_eq_none_iff todo key).mpr hn.1
    have hjoin := e₁.bind (FieldsRel fs ((key, y) :: todo) path) e₂ ?_
    · refine hjoin.of_open (fun b steps ho => ?_) (fun b steps ho => ?_) FieldsRel.of_full
      · rw [diffFields, if_pos ho]
      · rw [diffFields, if_neg (by simp [ho])]
        simp only [diffProperty]
        cases get? fs key <;> rfl
    · intro b b₁ b' h₁ h₂
      refine ⟨fun ho => h₂.full (h₁.full ho), fun hall => ?_, fun place cur hok hpath hcur hcurfs => ?_⟩
      · obtain ⟨x, hx, he⟩ := hall key y (by simp)
        have hb₁ : b₁ = b := h₁.same ⟨x, hx, he⟩
        rw [← hb₁]
        refine h₂.same (fun k y' hk => hall k y' ?_)
        rwa [hget k (by rintro rfl; rw [hnone] at hk; cases hk)]
      · refine (h₁.emits place cur hok hpath (hcurfs key (by simp [Assoc.keys]))).comp h₂.full ?_
        rintro v ⟨y', rfl, hy'⟩
        have hstep := h₂.emits place (set cur key y') hok hpath (nodup_keys_set cur key y' hcur)
          (fun k hk => by
            rw [get?_set_ne _ _ _ _ (by rintro rfl; exact hn.1 hk)]
            exact hcurfs k (by simp [Assoc.keys] at hk ⊢; tauto))
        refine hstep.mono ?_
        rintro v ⟨cur', rfl, hcur', hset, hkeep⟩
        refine ⟨cur', rfl, hcur', fun k w hk => ?_, fun k hk => ?_⟩
        · by_cases hkk : k = key
          · subst hkk
            obtain rfl : y = w := by simpa using hk
            exact ⟨y', by rw [hkeep k hnone, get?_set_self], hy'⟩
          · rw [hget k hkk] at hk
            exact hset k w hk
        · have hkk : k ≠ key := by rintro rfl; simp at hk
          rw [hget k hkk] at hk
          rw [hkeep k hk, get?_set_ne _ _ _ _ (Ne.symm hkk)]

structure DeleteRel (ks : List JsString) (gs : List (JsString × Shared)) (path : Path) (b b' : Batch) : Prop where
  full : b.overflowed = true → b'.overflowed = true
  same : (∀ k ∈ ks, has gs k = true) → b' = b
  emits : ∀ (place : Place) cur, place.Ok → place.path = path → (keys cur).Nodup →
    Emits (place.plug (.obj cur)) (fun v => ∃ cur', v = place.plug (.obj cur') ∧ (keys cur').Nodup ∧
      ∀ k, get? cur' k = if k ∈ ks ∧ has gs k = false then none else get? cur k) b b'

theorem deleteFields_rel (ks : List JsString) (gs : List (JsString × Shared)) (path : Path)
    (hsafe : ∀ k ∈ ks, k ∉ reservedSegments) (b : Batch) :
    DeleteRel ks gs path b (ks.foldl (fun b key => if b.overflowed || has gs key then b
      else b.emit (.edit (path ++ [.key key]) .d)) b) := by
  induction ks generalizing b with
  | nil => exact ⟨id, fun _ => rfl, fun place cur _ _ hcur => .nothing ⟨cur, rfl, hcur, by simp⟩⟩
  | cons key ks ih =>
    rw [foldl_cons]
    have ih := ih (fun k hk => hsafe k (by simp [hk]))
    by_cases hb : b.overflowed = true
    · have hskip : (if (b.overflowed || has gs key) = true then b
          else b.emit (.edit (path ++ [.key key]) .d)) = b := by rw [if_pos (by simp [hb])]
      rw [hskip]
      have hfull := (ih b).full hb
      refine ⟨fun _ => hfull, fun hall => (ih b).same (fun k hk => hall k (by simp [hk])), fun _ _ _ _ _ => ?_⟩
      exact ⟨fun _ => hfull, fun ho => by rw [hfull] at ho; cases ho⟩
    by_cases hg : has gs key = true
    · rw [if_pos (by simp [hg])]
      refine ⟨(ih b).full, fun hall => (ih b).same (fun k hk => hall k (by simp [hk])), fun place cur hok hpath hcur => ?_⟩
      refine ((ih b).emits place cur hok hpath hcur).mono ?_
      rintro v ⟨cur', rfl, hcur', hget⟩
      refine ⟨cur', rfl, hcur', fun k => ?_⟩
      rw [hget k]
      by_cases hk : k = key
      · subst hk; simp [hg]
      · simp [hk]
    · rw [if_neg (by simp [hb, hg])]
      refine ⟨fun ho => absurd ho hb, fun hall => absurd (hall key (by simp)) hg, fun place cur hok hpath hcur => ?_⟩
      have happly := applyOp_deleteProperty place hok cur key (hsafe key (by simp))
      rw [hpath] at happly
      refine (emits_emit _ _ _ _ b happly).comp (ih _).full ?_
      rintro v rfl
      refine ((ih _).emits place _ hok hpath (nodup_keys_del cur key hcur)).mono ?_
      rintro v ⟨cur', rfl, hcur', hget⟩
      refine ⟨cur', rfl, hcur', fun k => ?_⟩
      rw [hget k, get?_del]
      by_cases hk : key = k
      · subst hk; simp [hg]
      · simp [hk, Ne.symm hk]

theorem diffObject_ends (i j : ℕ) (fs gs : List (JsString × Shared)) (hx : Labelled heap (.obj i fs))
    (hy : Labelled heap (.obj j gs)) (hsafe : ∀ k ∈ keys fs ++ keys gs, k ∉ reservedSegments)
    (hvalue : ∀ p ∈ gs, ∀ x, get? fs p.1 = some x → ValueOk x p.2) (path : Path) :
    Ends (diffObject (.obj i fs) (.obj j gs) fs gs path) (WholeRel (.obj i fs) (.obj j gs) path) := by
  have e₁ := diffFields_ends fs gs path hy.fields.1 (fun k hk => hsafe k (by simp [hk])) hvalue
  have e₂ := Ends.pure (fun b => deleteFields fs gs path b)
    (deleteFields_rel (keys fs) gs path (fun k hk => hsafe k (by simp [hk])))
  have hreserved : ¬ (keys fs ++ keys gs).any (· ∈ reservedSegments) = true := by
    rw [any_eq_true]
    rintro ⟨k, hk, hr⟩
    exact hsafe k hk (by simpa using hr)
  refine (e₁.bind (WholeRel (.obj i fs) (.obj j gs) path) e₂ ?_).succ (fun b steps => ?_) (fun _ _ h => h)
  · intro b b₁ b' h₁ h₂
    refine ⟨fun ho => h₂.full (h₁.full ho), fun heqv => ?_, fun place hok hpath => ?_⟩
    · rw [value_obj, value_obj, eqv_obj_iff] at heqv
      have hrel : ∀ k, Option.Rel (fun x y : Shared => x.value.Eqv y.value) (get? fs k) (get? gs k) := by
        intro k
        have := heqv k
        rw [get?_map_value, get?_map_value] at this
        revert this
        cases get? fs k <;> cases get? gs k <;> rintro ⟨⟩
        · exact .none
        · exact .some ‹_›
      have hb₁ : b₁ = b := by
        refine h₁.same (fun k y hk => ?_)
        have := hrel k
        rw [hk] at this
        cases hf : get? fs k with
        | none => rw [hf] at this; cases this
        | some x => rw [hf] at this; cases this; exact ⟨x, rfl, ‹_›⟩
      rw [← hb₁]
      refine h₂.same (fun k hk => ?_)
      rw [← has_iff, has] at hk
      have := hrel k
      rw [has]
      revert this hk
      cases get? fs k <;> cases get? gs k <;> rintro hk ⟨⟩ <;> simp at hk ⊢
    · have hcur : (keys (fs.map (fun p => (p.1, value p.2)))).Nodup := by
        rw [keys_map_value]; exact hx.fields.1
      rw [value_obj]
      refine (h₁.emits place _ hok hpath hcur (fun k _ => get?_map_value fs k)).comp h₂.full ?_
      rintro v ⟨cur, rfl, hcur, hset, hkeep⟩
      refine (h₂.emits place cur hok hpath hcur).mono ?_
      rintro v ⟨cur', rfl, -, hget⟩
      refine ⟨.obj cur', rfl, ?_⟩
      rw [value_obj, eqv_obj_iff]
      intro k
      rw [hget k, get?_map_value]
      cases hgk : get? gs k with
      | some y =>
        obtain ⟨y', hy', he⟩ := hset k y hgk
        rw [if_neg (by simp [has, hgk]), hy']
        exact .some he
      | none =>
        rw [hkeep k hgk, get?_map_value]
        by_cases hk : k ∈ keys fs
        · rw [if_pos ⟨hk, by simp [has, hgk]⟩]
          exact .none
        · rw [if_neg (fun h => hk h.1), (get?_eq_none_iff fs k).mpr hk]
          exact .none
  · rw [diffObject, if_neg hreserved]
    rfl

/-! ## Values -/

variable (x y : Shared) (path : Path)

theorem valueRel_emitSet (hpath : path ≠ []) (hne : ¬ x.value.Eqv y.value) (b : Batch) :
    ValueRel x y path b (emitSet path y b) := by
  refine ⟨?_, fun h => absurd h hne, fun place frame hok hp => ?_⟩
  · rw [emitSet, if_neg (by simpa using hpath)]
    exact emit_full b _
  · subst hp
    refine (emits_emitSet place frame hok x.value y b).mono ?_
    rintro v rfl
    exact ⟨y.value, rfl, eqv_refl _⟩

theorem valueRel_emitString (s t : JsString) (path : Path) (hne : s ≠ t) (b : Batch) :
    ValueRel (.prim (.str s)) (.prim (.str t)) path b (emitString s t path b) := by
  refine ⟨fun ho => ?_, fun h => ?_, fun place frame hok hp => ?_⟩
  · have hemit : ∀ op, b.emit op = b := fun op => by rw [Batch.emit, if_pos ho]
    unfold emitString
    simp only [hemit]
    split_ifs <;> exact ho
  · rw [value_prim, value_prim, eqv_prim_iff] at h
    cases h
    exact absurd rfl hne
  · subst hp
    refine (emits_emitString place frame hok s t b).mono ?_
    rintro v rfl
    exact ⟨_, rfl, eqv_refl _⟩

def comparable : Shared → Shared → Bool
  | .prim (.str _), .prim (.str _) => true
  | .arr _ _, .arr _ _ => true
  | .obj _ _, .obj _ _ => true
  | _, _ => false

variable (b : Batch) (steps : ℕ)

theorem diffValue_incomparable (h : comparable x y = false) (hsame : x.same y = false) (ho : b.overflowed = false) :
    diffValue x y path b (steps + 1) = some (emitSet path y b) := by
  have hopen : ¬ (x.same y || b.overflowed) = true := by simp [hsame, ho]
  refine (diffValue.eq_def x y path b (steps + 1)).trans ((if_neg hopen).trans ?_)
  split <;> first | rfl | simp [comparable] at h

theorem not_eqv_of_incomparable (h : comparable x y = false) (hsame : x.same y = false) :
    ¬ x.value.Eqv y.value := by
  intro he
  cases x <;> cases y <;> rw [value] at he <;> rw [value] at he <;> cases he
  · rename_i p
    simp [same] at hsame
  · simp [comparable] at h
  · simp [comparable] at h

def mergeable : Shared → Shared → Bool
  | .arr _ _, .arr _ _ => true
  | .obj _ fs, .obj _ gs => !(keys fs ++ keys gs).any (· ∈ reservedSegments)
  | _, _ => false

def ChildrenOk (heap : ℕ → JsonValue) : Shared → Prop
  | .prim _ => True
  | .arr _ xs => ∀ x ∈ xs, ∀ y, Labelled heap y → ValueOk x y
  | .obj _ fs => ∀ p ∈ fs, ∀ y, Labelled heap y → ValueOk p.2 y

theorem eqv_of_same_value (hx : Labelled heap x) (hy : Labelled heap y) (h : sameValue x y = true) :
    x.value.Eqv y.value :=
  (sameValue_iff x y hx hy).mp h

theorem diffValue_closed (h : (x.same y || b.overflowed) = true) : diffValue x y path b (steps + 1) = some b :=
  (diffValue.eq_def x y path b (steps + 1)).trans (if_pos h)

theorem diffValue_ends_same (hsame : x.same y = true) (rel : Batch → Batch → Prop)
    (hrel : ∀ b, rel b b) : Ends (diffValue x y path) rel :=
  (Ends.pure id hrel).succ (fun b steps => diffValue_closed x y path b steps (by simp [hsame])) (fun _ _ h => h)

theorem diffValue_ends_open (rel : Batch → Batch → Prop)
    (g : Batch → ℕ → Option Batch) (hg : Ends g rel) (hrel : ∀ b, b.overflowed = true → rel b b)
    (hstep : ∀ b steps, b.overflowed = false → diffValue x y path b (steps + 1) = g b steps) :
    Ends (diffValue x y path) rel :=
  hg.of_open (fun b steps ho => diffValue_closed x y path b steps (by simp [ho])) hstep hrel

theorem diffValue_ends_mergeable (hx : Labelled heap x) (hy : Labelled heap y)
    (hchildren : ChildrenOk heap x) (h : mergeable x y = true) (path : Path) :
    Ends (diffValue x y path) (WholeRel x y path) := by
  cases hsame : x.same y with
  | true => exact diffValue_ends_same x y path hsame _ (WholeRel.refl (eqv_of_same x y hx hy hsame))
  | false =>
    cases x with
    | prim p => cases y <;> simp [mergeable] at h
    | arr i xs =>
      cases y with
      | prim q => simp [mergeable] at h
      | obj j gs => simp [mergeable] at h
      | arr j ys =>
        have hpairs : PairsOk xs ys := fun x hx' y hy' =>
          ⟨hchildren x hx' y (hy.items y hy'), eqv_of_same_value x y (hx.items x hx') (hy.items y hy')⟩
        refine diffValue_ends_open _ _ path _ _ (diffArray_ends i j xs ys hx hy hpairs path)
          (fun b => WholeRel.of_full) (fun b steps ho => ?_)
        rw [diffValue, if_neg (by simp [hsame, ho])]
    | obj i fs =>
      cases y with
      | prim q => simp [mergeable] at h
      | arr j ys => simp [mergeable] at h
      | obj j gs =>
        have hsafe : ∀ k ∈ keys fs ++ keys gs, k ∉ reservedSegments := by
          intro k hk hr
          have : ((keys fs ++ keys gs).any (· ∈ reservedSegments)) = true :=
            any_eq_true.mpr ⟨k, hk, by simpa using hr⟩
          rw [mergeable, this] at h
          cases h
        have hvalue : ∀ p ∈ gs, ∀ x, get? fs p.1 = some x → ValueOk x p.2 := fun p hp x hxp =>
          hchildren _ (mem_of_get? fs p.1 x hxp) p.2 (hy.fields.2 p hp)
        refine diffValue_ends_open _ _ path _ _ (diffObject_ends i j fs gs hx hy hsafe hvalue path)
          (fun b => WholeRel.of_full) (fun b steps ho => ?_)
        rw [diffValue, if_neg (by simp [hsame, ho])]

theorem diffValue_ends_whole (hx : Labelled heap x) (hy : Labelled heap y)
    (h : mergeable x y = false) (hsame : x.same y = false) (path : Path) (rel : Batch → Batch → Prop)
    (hfull : ∀ b, b.overflowed = true → rel b b) (hequal : x.value.Eqv y.value → ∀ b, rel b b)
    (hset : ¬ x.value.Eqv y.value → ∀ b, rel b (emitSet path y b))
    (hstring : path ≠ [] → ∀ s t, s ≠ t → x = .prim (.str s) → y = .prim (.str t) →
      ∀ b, rel b (emitString s t path b)) : Ends (diffValue x y path) rel := by
  cases hc : comparable x y with
  | false =>
    have hne := not_eqv_of_incomparable x y hc hsame
    exact diffValue_ends_open x y path rel _ (Ends.pure (emitSet path y) (hset hne)) hfull
      (fun b steps ho => diffValue_incomparable x y path b steps hc hsame ho)
  | true =>
    unfold comparable at hc
    split at hc
    · next s t =>
      have hst : s ≠ t := by
        rintro rfl
        simp [same] at hsame
      have hne : ¬ (Shared.prim (.str s)).value.Eqv (Shared.prim (.str t)).value := by
        rw [value_prim, value_prim, eqv_prim_iff]
        intro he
        cases he
        exact hst rfl
      have hstep : ∀ b steps, b.overflowed = false →
          diffValue (.prim (.str s)) (.prim (.str t)) path b (steps + 1) =
            some (if path.isEmpty then emitSet path (.prim (.str t)) b else emitString s t path b) := by
        intro b steps ho
        rw [diffValue, if_neg (by simp [hsame, ho])]
        split_ifs <;> rfl
      refine diffValue_ends_open _ _ path rel _ (Ends.pure _ (fun b => ?_)) hfull hstep
      cases path with
      | nil => exact hset hne b
      | cons seg path => exact hstring (by simp) s t hst rfl rfl b
    · simp [mergeable] at h
    · next i fs j gs =>
      have hreserved : (keys fs ++ keys gs).any (· ∈ reservedSegments) = true := by
        rw [mergeable, Bool.not_eq_false'] at h
        exact h
      have hends : Ends (diffObject (.obj i fs) (.obj j gs) fs gs path) rel := by
        refine (Ends.pure (fun b => if equalJson (.obj i fs) (.obj j gs) then b else emitSet path (.obj j gs) b)
          (fun b => ?_)).succ (fun b steps => ?_) (fun _ _ h => h)
        · split
          · next he => exact hequal ((equalJson_iff _ _ hx hy).mp he) b
          · next he => exact hset (fun h => he ((equalJson_iff _ _ hx hy).mpr h)) b
        · rw [diffObject, if_pos hreserved]
          split_ifs <;> rfl
      refine diffValue_ends_open _ _ path rel _ hends hfull (fun b steps ho => ?_)
      rw [diffValue, if_neg (by simp [hsame, ho])]
    · cases hc

theorem ValueRel.of_full {x y : Shared} {path : Path} {b : Batch} (h : b.overflowed = true) :
    ValueRel x y path b b :=
  ⟨id, fun _ => rfl, fun _ _ _ _ => ⟨id, fun ho => by rw [h] at ho; cases ho⟩⟩

theorem valueOk_of_children (hx : Labelled heap x) (hy : Labelled heap y)
    (hchildren : ChildrenOk heap x) : ValueOk x y := by
  intro path hpath
  cases hm : mergeable x y with
  | true => exact (diffValue_ends_mergeable x y hx hy hchildren hm path).mono (fun _ _ h => h.toValueRel)
  | false =>
    cases hsame : x.same y with
    | true => exact diffValue_ends_same x y path hsame _ (ValueRel.refl (eqv_of_same x y hx hy hsame))
    | false =>
      refine diffValue_ends_whole x y hx hy hm hsame path _ (fun b => ValueRel.of_full) (fun he b => .refl he b)
        (fun hne b => valueRel_emitSet x y path hpath hne b) ?_
      rintro - s t hst rfl rfl b
      exact valueRel_emitString s t path hst b

theorem childrenOk (x : Shared) (hx : Labelled heap x) : ChildrenOk heap x := by
  induction x using Shared.ind with
  | prim p => trivial
  | arr i xs ih => exact fun x hmem y hy => valueOk_of_children x y (hx.items x hmem) hy (ih x hmem (hx.items x hmem))
  | obj i fs ih =>
    exact fun p hp y hy => valueOk_of_children p.2 y (hx.fields.2 p hp) hy (ih p hp (hx.fields.2 p hp))

/-! ## Revisions -/

def RootRel (x y : Shared) (b b' : Batch) : Prop :=
  b.overflowed = false → b.operations = [] →
    (x.value.Eqv y.value → b' = b) ∧
      (b'.overflowed = false → b'.operations = [.r y.value] ∨
          (∀ op ∈ b'.operations, op.Valid ∧ isReplace op = false) ∧
            ∃ v, apply x.value b'.operations = .ok v ∧ v.Eqv y.value)

theorem diffValue_ends_root (hx : Labelled heap x) (hy : Labelled heap y) :
    Ends (diffValue x y []) (RootRel x y) := by
  have hrefl : x.value.Eqv y.value → ∀ b, RootRel x y b b := by
    intro he b _ hb
    refine ⟨fun _ => rfl, fun _ => Or.inr ?_⟩
    rw [hb]
    exact ⟨by simp, x.value, rfl, he⟩
  cases hm : mergeable x y with
  | true =>
    refine (diffValue_ends_mergeable x y hx hy (childrenOk x hx) hm []).mono (fun b b' h _ hb => ?_)
    refine ⟨h.same, fun ho => Or.inr ?_⟩
    obtain ⟨ops, final, hops, hvalid, happly, v, hfinal, hv⟩ := (h.emits [] Place.ok_nil rfl).ops ho
    obtain rfl : final = v := hfinal
    rw [hb, nil_append] at hops
    rw [hops]
    exact ⟨hvalid, final, happly, hv⟩
  | false =>
    cases hsame : x.same y with
    | true => exact diffValue_ends_same x y [] hsame _ (hrefl (eqv_of_same x y hx hy hsame))
    | false =>
      refine diffValue_ends_whole x y hx hy hm hsame [] _ (fun b ho hopen => ?_) hrefl (fun hne b ho hb => ?_)
        (fun h => absurd rfl h)
      · rw [ho] at hopen; cases hopen
      · refine ⟨fun he => absurd he hne, fun _ => Or.inl ?_⟩
        simp [emitSet, Batch.emit, ho, hb, maxDeltaOperations]

variable (numberText : ℚ → JsString)

theorem diffRevisions_cases (before after : Shared) (steps : ℕ) (b : Batch)
    (h : diffValue before after [] { operations := [], overflowed := false } steps = some b) :
    diffRevisions numberText before after steps = some [.r after.value] ∧
        (b.overflowed = true ∨ b.operations ≠ []) ∨
      diffRevisions numberText before after steps = some b.operations ∧ b.overflowed = false := by
  rw [diffRevisions, h]
  cases ho : b.overflowed with
  | true => exact Or.inl ⟨by simp [ho], Or.inl rfl⟩
  | false =>
    simp only [Option.bind_eq_bind, Option.bind_some, ho, Bool.false_eq_true, if_false]
    split_ifs with h₁ h₂ h₃
    · exact Or.inr ⟨rfl, trivial⟩
    · exact Or.inr ⟨rfl, trivial⟩
    · refine Or.inl ⟨rfl, Or.inr ?_⟩
      rintro hnil
      simp [hnil] at h₁
    · exact Or.inr ⟨rfl, trivial⟩

/-- From some number of steps on there is one batch. It is valid, it changes the old revision into a value equal to
the new one, a replacement stands in it only alone, and it is empty for equal revisions. -/
theorem diffRevisions_sound (before after : Shared) (hb : Labelled heap before) (ha : Labelled heap after) :
    ∃ N ops, (∀ steps, N ≤ steps → diffRevisions numberText before after steps = some ops) ∧
      (∀ op ∈ ops, assertValidOp op = .ok ()) ∧
      (∃ v, apply before.value ops = .ok v ∧ v.Eqv after.value) ∧
      (∀ op ∈ ops, isReplace op = true → ops = [op]) ∧
      (before.value.Eqv after.value → ops = []) := by
  obtain ⟨N, hN⟩ := diffValue_ends_root before after hb ha
  obtain ⟨b, hb', hrel⟩ := hN { operations := [], overflowed := false }
  obtain ⟨hsame, hops⟩ := hrel rfl rfl
  have hr : ∃ v, apply before.value [.r after.value] = .ok v ∧ v.Eqv after.value := ⟨after.value, rfl, eqv_refl _⟩
  have hcases := diffRevisions_cases numberText before after N b (hb' N le_rfl)
  -- The result does not depend on the steps: only `diffValue` looks at them.
  have hconst : ∀ steps, N ≤ steps →
      diffRevisions numberText before after steps = diffRevisions numberText before after N := by
    intro steps hs
    rw [diffRevisions, diffRevisions, hb' steps hs, hb' N le_rfl]
  rcases hcases with ⟨hres, hwhy⟩ | ⟨hres, ho⟩
  · refine ⟨N, [.r after.value], fun steps hs => (hconst steps hs).trans hres, by simp [assertValidOp], hr, by simp, ?_⟩
    intro he
    rw [hsame he] at hwhy
    simp at hwhy
  · refine ⟨N, b.operations, fun steps hs => (hconst steps hs).trans hres, ?_⟩
    rcases hops ho with hone | ⟨hvalid, happly⟩
    · rw [hone]
      refine ⟨by simp [assertValidOp], hr, by simp, fun he => ?_⟩
      rw [hsame he] at hone
      cases hone
    · refine ⟨fun op hop => (assertValidOp_iff op).mpr (hvalid op hop).1, happly, fun op hop hrep => ?_, fun he => ?_⟩
      · rw [(hvalid op hop).2] at hrep
        cases hrep
      · rw [hsame he]

/-! An array of two revisions that share its first object. -/

def sampleItem : Shared := .obj 2 [(js "id", .prim (.num 7))]

def sampleBefore : Shared := .obj 0 [(js "items", .arr 1 [sampleItem, .prim .null, .prim (.str (js "on"))])]

def sampleAfter : Shared := .obj 3 [(js "items", .arr 4 [.prim .null, sampleItem, .prim (.str (js "only"))])]

def sampleHeap : ℕ → JsonValue
  | 0 => sampleBefore.value
  | 1 => .arr [sampleItem.value, .null, str (js "on")]
  | 2 => sampleItem.value
  | 3 => sampleAfter.value
  | _ => .arr [.null, sampleItem.value, str (js "only")]

theorem labelled_sampleItem : Labelled sampleHeap sampleItem :=
  .obj 2 _ (eqv_refl _) (by decide) (by simp [Labelled.prim])

theorem labelled_sampleBefore : Labelled sampleHeap sampleBefore := by
  refine .obj 0 _ (eqv_refl _) (by decide) (fun p hp => ?_)
  obtain rfl := mem_singleton.mp hp
  exact .arr 1 _ (eqv_refl _) (by simp [Labelled.prim, labelled_sampleItem])

theorem labelled_sampleAfter : Labelled sampleHeap sampleAfter := by
  refine .obj 3 _ (eqv_refl _) (by decide) (fun p hp => ?_)
  obtain rfl := mem_singleton.mp hp
  exact .arr 4 _ (eqv_refl _) (by simp [Labelled.prim, labelled_sampleItem])

theorem diffRevisions_sound_sample : ∃ N ops, (∀ steps, N ≤ steps →
        diffRevisions (fun n => decimal n.num.natAbs) sampleBefore sampleAfter steps = some ops) ∧
      (∀ op ∈ ops, assertValidOp op = .ok ()) ∧
      (∃ v, apply sampleBefore.value ops = .ok v ∧ v.Eqv sampleAfter.value) ∧
      (∀ op ∈ ops, isReplace op = true → ops = [op]) ∧
      (sampleBefore.value.Eqv sampleAfter.value → ops = []) :=
  diffRevisions_sound (fun n => decimal n.num.natAbs) sampleBefore sampleAfter labelled_sampleBefore
    labelled_sampleAfter

end PiAgent.Delta
