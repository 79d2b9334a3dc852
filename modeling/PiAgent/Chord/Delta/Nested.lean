import PiAgent.Chord.Delta.Apply

/-! # Operations moved down into a tree -/

namespace PiAgent.Delta

open JsonValue

theorem modifyAt_full (full full' : Path) (f f' : JsonValue → Except DeltaError JsonValue)
    (hf : ∀ x y, f x = .ok y → f' x = .ok y) (path : Path) (node w : JsonValue)
    (h : modifyAt full f path node = .ok w) : modifyAt full' f' path node = .ok w := by
  have hmap : ∀ (x x' : Except DeltaError JsonValue) (g : JsonValue → JsonValue) (w : JsonValue),
      (∀ y, x = .ok y → x' = .ok y) → x.map g = .ok w → x'.map g = .ok w := by
    intro x x' g w hx hm
    cases x with
    | error e => cases hm
    | ok y =>
      rw [hx y rfl]
      exact hm
  induction path generalizing node w with
  | nil => exact hf node w h
  | cons seg rest ih =>
    cases node with
    | prim p => cases seg <;> cases h
    | arr xs =>
      cases seg with
      | key k => cases h
      | index i =>
        rw [modifyAt] at h ⊢
        split at h
        · cases h
        · exact hmap _ _ _ w (fun y hy => ih _ y hy) h
    | obj fs =>
      cases seg with
      | key k =>
        rw [modifyAt] at h ⊢
        split at h
        · cases h
        · exact hmap _ _ _ w (fun y hy => ih _ y hy) h
      | index i =>
        rw [modifyAt] at h ⊢
        split at h
        · cases h
        · exact hmap _ _ _ w (fun y hy => ih _ y hy) h

variable (path path' : Path) (e : Edit)

theorem onArray_full (v w : JsonValue) (h : e.onArray path v = .ok w) : e.onArray path' v = .ok w := by
  cases e <;> cases v <;> try cases h
  · rfl
  · simp only [Edit.onArray] at h ⊢
    split at h
    · cases h
    · rename_i hlen
      rw [if_neg hlen]
      exact h

theorem newValue_full (current new : Option JsonValue) (e : Edit)
    (h : e.newValue path current = .ok new) : e.newValue path' current = .ok new := by
  cases e with
  | a text =>
    simp only [Edit.newValue] at h ⊢
    split at h
    · exact h
    · cases h
  | t count =>
    simp only [Edit.newValue] at h ⊢
    split at h
    · exact h
    · cases h
  | s value => exact h
  | d => exact h
  | p index remove items => exact h
  | m permutation => exact h

theorem onParent_full (key : Seg) (e : Edit) (v w : JsonValue)
    (h : e.onParent path key v = .ok w) : e.onParent path' key v = .ok w := by
  cases v with
  | prim p => cases h
  | arr xs =>
    cases key with
    | key k => cases h
    | index i =>
      simp only [Edit.onParent, Edit.onItem] at h ⊢
      split at h
      · cases h
      · rename_i hi
        rw [if_neg hi]
        cases hnew : e.newValue path xs[i]? with
        | error err =>
          rw [hnew] at h
          cases h
        | ok new =>
          rw [newValue_full path path' _ new e hnew]
          rw [hnew] at h
          cases new with
          | some value => exact h
          | none =>
            simp only [bind, Except.bind] at h ⊢
            split at h
            · cases h
            · rename_i hlen
              rw [if_neg hlen]
              exact h
  | obj fs =>
    simp only [Edit.onParent, Edit.onProperty] at h ⊢
    cases hnew : e.newValue path (Assoc.get? fs key.property) with
    | error err =>
      rw [hnew] at h
      cases h
    | ok new =>
      rw [newValue_full path path' _ new e hnew]
      rw [hnew] at h
      cases new <;> exact h

theorem applyOp_edit_valid (root v : JsonValue) (path : Path) (e : Edit) (h : applyOp root (.edit path e) = .ok v) :
    (Op.edit path e).Valid := by
  rw [← assertValidOp_iff]
  cases hv : assertValidOp (.edit path e) with
  | ok u => rfl
  | error err =>
    simp only [applyOp, hv, bind, Except.bind] at h
    cases h

theorem applyOp_nested (place : Place) (hok : place.Ok) (u v : JsonValue) (path : Path) (e : Edit)
    (h : applyOp u (.edit path e) = .ok v) :
    applyOp (place.plug u) (.edit (place.path ++ path) e) = .ok (place.plug v) := by
  have hvalid := applyOp_edit_valid u v path e h
  have hvalid' : (Op.edit (place.path ++ path) e).Valid := by
    refine ⟨(safePath_append _ _).mpr ⟨place.safePath hok, hvalid.1⟩, fun hs hnil => ?_, hvalid.2.2⟩
    exact hvalid.2.1 hs (List.append_eq_nil_iff.mp hnil).2
  rw [applyOp_valid u path e hvalid] at h
  rw [applyOp_valid _ _ e hvalid']
  unfold Edit.applyAt at h ⊢
  split at h
  · rename_i hslot
    rw [if_pos hslot]
    have hne := hvalid.2.1 hslot
    rw [List.getLast?_append_of_ne_nil _ hne, List.dropLast_append_of_ne_nil hne]
    cases hlast : path.getLast? with
    | none => exact absurd (List.getLast?_eq_none_iff.mp hlast) hne
    | some key =>
      rw [hlast] at h
      simp only at h ⊢
      rw [modifyAt_plug _ _ place _ _ hok, modifyAt_full _ _ _ _ (onParent_full _ _ key e) _ u v h]
      rfl
  · rename_i hslot
    rw [if_neg hslot]
    rw [modifyAt_plug _ _ place _ _ hok, modifyAt_full _ _ _ _ (onArray_full _ _ e) _ u v h]
    rfl

end PiAgent.Delta
