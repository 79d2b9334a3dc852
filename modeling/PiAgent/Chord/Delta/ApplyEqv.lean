import PiAgent.Chord.Delta.Apply

/-! # Operations do not see the order of keys -/

namespace PiAgent.Delta

open Assoc JsonValue

def Respects (f : JsonValue → Except DeltaError JsonValue) : Prop :=
  ∀ v w v', v.Eqv w → f v = .ok v' → ∃ w', f w = .ok w' ∧ v'.Eqv w'

/-! ## Lists and maps -/

variable {xs ys : List JsonValue}

section

variable (h : List.Forall₂ Eqv xs ys) (i : ℕ)
include h

theorem forall₂_getElem? : Option.Rel Eqv xs[i]? ys[i]? := by
  induction h generalizing i with
  | nil => exact .none
  | cons hxy _ ih =>
    cases i with
    | zero => exact .some hxy
    | succ i => exact ih i

theorem forall₂_set {x y : JsonValue} (hxy : x.Eqv y) : List.Forall₂ Eqv (xs.set i x) (ys.set i y) := by
  induction h generalizing i with
  | nil => exact .nil
  | cons hab hrest ih =>
    cases i with
    | zero => exact .cons hxy hrest
    | succ i => exact .cons hab (ih i)

theorem forall₂_eraseIdx : List.Forall₂ Eqv (xs.eraseIdx i) (ys.eraseIdx i) := by
  induction h generalizing i with
  | nil => exact .nil
  | cons hab hrest ih =>
    cases i with
    | zero => exact hrest
    | succ i => exact .cons hab (ih i)

end

theorem forall₂_refl (xs : List JsonValue) : List.Forall₂ Eqv xs xs :=
  List.forall₂_same.mpr (fun x _ => eqv_refl x)

theorem forall₂_splice (h : List.Forall₂ Eqv xs ys) (start deleteCount : ℕ)
    (items : List JsonValue) : List.Forall₂ Eqv (splice xs start deleteCount items) (splice ys start deleteCount items) :=
  List.rel_append (List.rel_append (List.forall₂_take start h) (forall₂_refl items))
    (List.forall₂_drop (start + deleteCount) h)

theorem forall₂_permute (h : List.Forall₂ Eqv xs ys) (permutation : List ℕ) :
    List.Forall₂ Eqv (permute xs permutation) (permute ys permutation) := by
  induction permutation with
  | nil => exact .nil
  | cons i permutation ih =>
    simp only [permute, List.filterMap_cons] at ih ⊢
    have hi := forall₂_getElem? h i
    revert hi
    cases xs[i]? <;> cases ys[i]? <;> intro hi <;> cases hi
    · exact ih
    · next hxy => exact .cons hxy ih

variable {fs gs : List (JsString × JsonValue)}

theorem eqv_set (h : (obj fs).Eqv (obj gs)) (k : JsString) {x y : JsonValue}
    (hxy : x.Eqv y) : (obj (set fs k x)).Eqv (obj (set gs k y)) := by
  rw [eqv_obj_iff] at h ⊢
  intro j
  rw [get?_set, get?_set]
  split
  · exact .some hxy
  · exact h j

theorem eqv_del (h : (obj fs).Eqv (obj gs)) (k : JsString) : (obj (del fs k)).Eqv (obj (del gs k)) := by
  rw [eqv_obj_iff] at h ⊢
  intro j
  rw [get?_del, get?_del]
  split
  · exact .none
  · exact h j

/-! ## Edits -/

theorem except_map_ok {α β : Type} {x : Except DeltaError α} {f : α → β} {b : β} (h : x.map f = .ok b) :
    ∃ a, x = .ok a ∧ f a = b := by
  cases x with
  | error e => cases h
  | ok a => exact ⟨a, rfl, by simpa [Except.map] using h⟩

theorem modifyAt_respects (full : Path) (f : JsonValue → Except DeltaError JsonValue) (hf : Respects f) (path : Path) :
    Respects (modifyAt full f path) := by
  induction path with
  | nil => exact hf
  | cons seg path ih =>
    intro v w v' hvw h
    cases v with
    | prim p => simp [modifyAt] at h
    | arr xs =>
      obtain ⟨ys, rfl⟩ : ∃ ys, w = .arr ys := by cases hvw; exact ⟨_, rfl⟩
      have hxs := (eqv_arr_iff xs ys).mp hvw
      cases seg with
      | key k => simp [modifyAt] at h
      | index i =>
        simp only [modifyAt] at h ⊢
        have hi := forall₂_getElem? hxs i
        revert h hi
        cases xs[i]? <;> cases ys[i]? <;> intro h hi <;> cases hi
        · cases h
        · next x y hxy =>
          obtain ⟨x', hx', rfl⟩ := except_map_ok h
          obtain ⟨y', hy', hxy'⟩ := ih x y x' hxy hx'
          exact ⟨.arr (ys.set i y'), by dsimp only; rw [hy']; rfl, (eqv_arr_iff _ _).mpr (forall₂_set hxs i hxy')⟩
    | obj fs =>
      obtain ⟨gs, rfl⟩ : ∃ gs, w = .obj gs := by cases hvw; exact ⟨_, rfl⟩
      have hk := (eqv_obj_iff fs gs).mp hvw seg.property
      simp only [modifyAt] at h ⊢
      revert h hk
      cases get? fs seg.property <;> cases get? gs seg.property <;> intro h hk <;> cases hk
      · cases h
      · next x y hxy =>
        obtain ⟨x', hx', rfl⟩ := except_map_ok h
        obtain ⟨y', hy', hxy'⟩ := ih x y x' hxy hx'
        exact ⟨.obj (set gs seg.property y'), by dsimp only; rw [hy']; rfl, eqv_set hvw _ hxy'⟩

variable (path : Path) (e : Edit)

theorem onArray_respects : Respects (e.onArray path) := by
  intro v w v' hvw h
  cases v with
  | prim p => cases e <;> cases h
  | obj fs => cases e <;> cases h
  | arr xs =>
    obtain ⟨ys, rfl⟩ : ∃ ys, w = .arr ys := by cases hvw; exact ⟨_, rfl⟩
    have hxs := (eqv_arr_iff xs ys).mp hvw
    cases e with
    | p index remove items =>
      simp only [Edit.onArray, Except.ok.injEq] at h ⊢
      refine ⟨_, rfl, ?_⟩
      rw [← h, eqv_arr_iff, insertChunks_splice, insertChunks_splice]
      exact forall₂_splice hxs index remove items
    | m permutation =>
      simp only [Edit.onArray] at h ⊢
      rw [← hxs.length_eq]
      split at h
      · cases h
      · next hlen =>
        obtain rfl := Except.ok.inj h
        rw [if_neg hlen]
        exact ⟨_, rfl, (eqv_arr_iff _ _).mpr (forall₂_permute hxs permutation)⟩
    | s value => cases h
    | d => cases h
    | a text => cases h
    | t count => cases h

theorem newValue_respects {current current' : Option JsonValue}
    (hc : Option.Rel Eqv current current') (new : Option JsonValue) (h : e.newValue path current = .ok new) :
    e.newValue path current' = .ok new := by
  have hstr : ∀ c, current = some (.prim (.str c)) → current' = some (.prim (.str c)) := by
    rintro c rfl
    cases hc with
    | some hv => rw [(eqv_prim_iff _ _).mp hv]
  cases e with
  | a text =>
    simp only [Edit.newValue] at h
    split at h
    · simp only [Edit.newValue, hstr _ rfl]; exact h
    · cases h
  | t count =>
    simp only [Edit.newValue] at h
    split at h
    · simp only [Edit.newValue, hstr _ rfl]; exact h
    · cases h
  | _ => exact h

theorem onItem_respects {xs ys : List JsonValue} (hxs : List.Forall₂ Eqv xs ys) (i : ℕ)
    (v' : JsonValue) (h : e.onItem path xs i = .ok v') : ∃ w', e.onItem path ys i = .ok w' ∧ v'.Eqv w' := by
  unfold Edit.onItem at h ⊢
  rw [← hxs.length_eq]
  split at h
  · cases h
  · next hle =>
    rw [if_neg hle]
    cases hnew : e.newValue path xs[i]? with
    | error err => simp [hnew, bind, Except.bind] at h
    | ok new =>
      rw [newValue_respects path e (forall₂_getElem? hxs i) new hnew]
      simp only [hnew, bind, Except.bind] at h ⊢
      cases new with
      | some value =>
        obtain rfl := Except.ok.inj h
        refine ⟨_, rfl, (eqv_arr_iff _ _).mpr ?_⟩
        split
        · exact forall₂_set hxs i (eqv_refl value)
        · exact List.rel_append hxs (forall₂_refl [value])
      | none =>
        dsimp only at h ⊢
        split at h
        · cases h
        · next hlt =>
          obtain rfl := Except.ok.inj h
          rw [if_neg hlt]
          exact ⟨_, rfl, (eqv_arr_iff _ _).mpr (forall₂_eraseIdx hxs i)⟩

theorem onProperty_respects {fs gs : List (JsString × JsonValue)}
    (hfs : (obj fs).Eqv (obj gs)) (key : JsString) (v' : JsonValue) (h : e.onProperty path fs key = .ok v') :
    ∃ w', e.onProperty path gs key = .ok w' ∧ v'.Eqv w' := by
  unfold Edit.onProperty at h ⊢
  cases hnew : e.newValue path (get? fs key) with
  | error err => simp [hnew, bind, Except.bind] at h
  | ok new =>
    rw [newValue_respects path e ((eqv_obj_iff fs gs).mp hfs key) new hnew]
    simp only [hnew, bind, Except.bind] at h ⊢
    cases new with
    | some value =>
      obtain rfl := Except.ok.inj h
      exact ⟨_, rfl, eqv_set hfs key (eqv_refl value)⟩
    | none =>
      obtain rfl := Except.ok.inj h
      exact ⟨_, rfl, eqv_del hfs key⟩

theorem onParent_respects (key : Seg) (e : Edit) : Respects (e.onParent path key) := by
  intro v w v' hvw h
  cases v with
  | prim p => cases h
  | arr xs =>
    obtain ⟨ys, rfl⟩ : ∃ ys, w = .arr ys := by cases hvw; exact ⟨_, rfl⟩
    cases key with
    | key k => cases h
    | index i => exact onItem_respects path e ((eqv_arr_iff xs ys).mp hvw) i v' h
  | obj fs =>
    obtain ⟨gs, rfl⟩ : ∃ gs, w = .obj gs := by cases hvw; exact ⟨_, rfl⟩
    exact onProperty_respects path e hvw key.property v' h

/-! ## Batches -/

theorem applyOp_respects (op : Op) : Respects (fun root => applyOp root op) := by
  intro v w v' hvw h
  simp only [applyOp, except_bind_ok] at h ⊢
  obtain ⟨hvalid, h⟩ := h
  cases op with
  | r value =>
    obtain rfl := Except.ok.inj h
    exact ⟨_, ⟨hvalid, rfl⟩, eqv_refl _⟩
  | edit path e =>
    simp only [Edit.applyAt] at h ⊢
    split at h
    · next hslot =>
      cases hlast : path.getLast? with
      | none => rw [hlast] at h; cases h
      | some key =>
        rw [hlast] at h
        obtain ⟨w', hw', he⟩ := modifyAt_respects path.dropLast _ (onParent_respects path key e) _ v w v' hvw h
        exact ⟨w', ⟨hvalid, by rw [if_pos hslot]; exact hw'⟩, he⟩
    · next hslot =>
      obtain ⟨w', hw', he⟩ := modifyAt_respects path _ (onArray_respects path e) path v w v' hvw h
      exact ⟨w', ⟨hvalid, by rw [if_neg hslot]; exact hw'⟩, he⟩

theorem apply_respects (ops : List Op) : Respects (fun root => apply root ops) := by
  induction ops with
  | nil =>
    intro v w v' hvw h
    obtain rfl := Except.ok.inj h
    exact ⟨w, rfl, hvw⟩
  | cons op ops ih =>
    intro v w v' hvw h
    cases hop : applyOp v op with
    | error e => simp [apply, hop, bind, Except.bind] at h
    | ok v₁ =>
      dsimp only at h ⊢
      rw [apply_cons v v₁ op ops hop] at h
      obtain ⟨w₁, hw₁, he₁⟩ := applyOp_respects op v w v₁ hvw hop
      rw [apply_cons w w₁ op ops hw₁]
      exact ih v₁ w₁ v' he₁ h

end PiAgent.Delta
