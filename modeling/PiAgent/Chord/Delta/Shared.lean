import PiAgent.Chord.Json

/-!
# Trees whose containers have an identity

Two revisions of a value share the containers that did not change, and `===` on
containers is a comparison of identities. `heap` is the meaning of an identity: the
value that stands behind it.
-/

namespace PiAgent.Delta

open List Assoc

inductive Shared where
  | prim (p : Primitive)
  | arr (id : ℕ) (items : List Shared)
  | obj (id : ℕ) (fields : List (JsString × Shared))

namespace Shared

instance : Inhabited Shared := ⟨.prim .null⟩

theorem ind {P : Shared → Prop} (prim : ∀ p, P (.prim p)) (arr : ∀ id xs, (∀ x ∈ xs, P x) → P (.arr id xs))
    (obj : ∀ id (fs : List (JsString × Shared)), (∀ p ∈ fs, P p.2) → P (.obj id fs)) (v : Shared) : P v :=
  @Shared.rec P (fun xs => ∀ x ∈ xs, P x) (fun fs => ∀ p ∈ fs, P p.2) (fun p => P p.2) prim
    (fun id xs h => arr id xs h) (fun id fs h => obj id fs h) (by simp)
    (fun _ _ h t => by simpa using ⟨h, t⟩) (by simp)
    (fun p _ h t => by intro q hq; rcases mem_cons.mp hq with rfl | hq; exacts [h, t q hq])
    (fun _ _ h => h) v

mutual

/-- The JSON value, without identities. -/
def value : Shared → JsonValue
  | .prim p => .prim p
  | .arr _ items => .arr (values items)
  | .obj _ fields => .obj (fieldValues fields)

def values : List Shared → List JsonValue
  | [] => []
  | x :: xs => value x :: values xs

def fieldValues : List (JsString × Shared) → List (JsString × JsonValue)
  | [] => []
  | (k, v) :: fs => (k, value v) :: fieldValues fs

end

mutual

def size : Shared → ℕ
  | .prim _ => 1
  | .arr _ items => 1 + sizes items
  | .obj _ fields => 1 + fieldSizes fields

def sizes : List Shared → ℕ
  | [] => 0
  | x :: xs => size x + sizes xs

def fieldSizes : List (JsString × Shared) → ℕ
  | [] => 0
  | (_, v) :: fs => size v + fieldSizes fs

end

theorem values_eq (xs : List Shared) : values xs = xs.map value := by
  induction xs with
  | nil => rfl
  | cons x xs ih => rw [values, ih, map_cons]

variable (fs : List (JsString × Shared))

theorem fieldValues_eq : fieldValues fs = fs.map (fun p => (p.1, value p.2)) := by
  induction fs with
  | nil => rfl
  | cons p fs ih => rw [fieldValues, ih, map_cons]

def isContainer : Shared → Bool
  | .prim _ => false
  | _ => true

/-- What `===` compares: the value of a primitive, the identity of a container. -/
inductive Identity where
  | prim (p : Primitive)
  | container (id : ℕ)
deriving DecidableEq

def identity : Shared → Identity
  | .prim p => .prim p
  | .arr id _ => .container id
  | .obj id _ => .container id

/-- `left === right` -/
def same (left right : Shared) : Bool := left.identity = right.identity

mutual

def equalJson : Shared → Shared → Bool
  | .prim p, .prim q => p = q
  | .arr i xs, .arr j ys => i = j || equalItems xs ys
  | .obj i fs, .obj j gs => i = j || (fs.length == gs.length && equalFields fs gs)
  | .arr i _, .obj j _ => i = j
  | .obj i _, .arr j _ => i = j
  | _, _ => false

def equalItems : List Shared → List Shared → Bool
  | [], [] => true
  | x :: xs, y :: ys => equalJson x y && equalItems xs ys
  | _, _ => false

def equalFields : List (JsString × Shared) → List (JsString × Shared) → Bool
  | [], _ => true
  | (k, v) :: fs, gs =>
    (match get? gs k with
      | some w => equalJson v w
      | none => false) && equalFields fs gs

end

def sameValue (left right : Shared) : Bool := left.same right || equalJson left right

/-! ## Trees that an environment of identities explains -/

/-- No object has a key twice, and every container has the value of its identity. -/
inductive Labelled (heap : ℕ → JsonValue) : Shared → Prop
  | prim (p : Primitive) : Labelled heap (.prim p)
  | arr (id : ℕ) (xs : List Shared) (hid : (heap id).Eqv (value (.arr id xs))) (h : ∀ x ∈ xs, Labelled heap x) :
      Labelled heap (.arr id xs)
  | obj (id : ℕ) (fs : List (JsString × Shared)) (hid : (heap id).Eqv (value (.obj id fs)))
      (hn : (keys fs).Nodup) (h : ∀ p ∈ fs, Labelled heap p.2) : Labelled heap (.obj id fs)

variable {heap : ℕ → JsonValue}

theorem Labelled.items {id : ℕ} {xs : List Shared} (h : Labelled heap (.arr id xs)) : ∀ x ∈ xs, Labelled heap x := by
  cases h; assumption

theorem Labelled.fields {id : ℕ} {fs : List (JsString × Shared)} (h : Labelled heap (.obj id fs)) :
    (keys fs).Nodup ∧ ∀ p ∈ fs, Labelled heap p.2 := by
  cases h; exact ⟨‹_›, ‹_›⟩

theorem value_prim (p : Primitive) : value (.prim p) = .prim p := rfl

theorem value_arr (id : ℕ) (xs : List Shared) : value (.arr id xs) = .arr (xs.map value) := by
  rw [value, values_eq]

theorem value_obj (id : ℕ) (fs : List (JsString × Shared)) :
    value (.obj id fs) = .obj (fs.map (fun p => (p.1, value p.2))) := by
  rw [value, fieldValues_eq]

theorem keys_map_value : keys (fs.map (fun p => (p.1, value p.2))) = keys fs := by
  simp [Assoc.keys, Function.comp_def]

theorem get?_map_value (k : JsString) : get? (fs.map (fun p => (p.1, value p.2))) k = (get? fs k).map value :=
  get?_map value fs k

variable (x y : Shared)

theorem eqv_of_same (hx : Labelled heap x) (hy : Labelled heap y) (h : x.same y = true) : x.value.Eqv y.value := by
  have h : x.identity = y.identity := by simpa [same] using h
  have hid : ∀ v : Shared, Labelled heap v → ∀ id, v.identity = .container id → (heap id).Eqv v.value := by
    intro v hv id hi
    cases hv with
    | prim p => simp [identity] at hi
    | arr i xs hid => obtain rfl : i = id := by simpa [identity] using hi
                      exact hid
    | obj i fs hid => obtain rfl : i = id := by simpa [identity] using hi
                      exact hid
  cases hi : x.identity with
  | container id => exact JsonValue.eqv_trans (JsonValue.eqv_symm (hid x hx id hi)) (hid y hy id (h ▸ hi))
  | prim p =>
    have hp : ∀ v : Shared, v.identity = .prim p → v = .prim p := by
      intro v hv
      cases v <;> simp_all [identity]
    rw [hp x hi, hp y (h ▸ hi)]
    exact JsonValue.eqv_refl _

/-! ## `equalJson` is equality of values -/

theorem equalItems_iff (xs ys : List Shared) :
    equalItems xs ys = true ↔ List.Forall₂ (fun x y => equalJson x y = true) xs ys := by
  induction xs generalizing ys with
  | nil => cases ys <;> simp [equalItems]
  | cons x xs ih => cases ys <;> simp [equalItems, ih]

theorem equalFields_iff (fs gs : List (JsString × Shared)) :
    equalFields fs gs = true ↔ ∀ p ∈ fs, ∃ w, get? gs p.1 = some w ∧ equalJson p.2 w = true := by
  induction fs with
  | nil => simp [equalFields]
  | cons p fs ih =>
    obtain ⟨k, v⟩ := p
    rw [equalFields, Bool.and_eq_true, ih, forall_mem_cons]
    cases get? gs k <;> simp

theorem equalJson_iff (hx : Labelled heap x) (hy : Labelled heap y) :
    equalJson x y = true ↔ x.value.Eqv y.value := by
  induction x using ind generalizing y with
  | prim p =>
    rw [value_prim, JsonValue.eqv_prim_iff]
    cases y <;> simp [equalJson, value_prim, value_arr, value_obj, eq_comm]
  | arr i xs ih =>
    cases y with
    | prim q =>
      rw [value_prim, value_arr]
      exact ⟨fun h => by simp [equalJson] at h, fun h => by cases h⟩
    | obj j gs =>
      have hsame : equalJson (.arr i xs) (.obj j gs) = same (.arr i xs) (.obj j gs) := by
        simp [equalJson, same, identity]
      rw [hsame]
      refine ⟨eqv_of_same _ _ hx hy, fun h => ?_⟩
      rw [value_arr, value_obj] at h
      cases h
    | arr j ys =>
      rw [equalJson, Bool.or_eq_true, equalItems_iff]
      have hxs := hx.items
      have hys := hy.items
      have hiff : List.Forall₂ (fun x y => equalJson x y = true) xs ys ↔ (value (.arr i xs)).Eqv (value (.arr j ys)) := by
        rw [value_arr, value_arr, JsonValue.eqv_arr_iff, List.forall₂_map_left_iff, List.forall₂_map_right_iff,
          List.forall₂_iff_get, List.forall₂_iff_get]
        refine and_congr_right (fun hl => ?_)
        refine forall_congr' (fun i => forall_congr' (fun h₁ => forall_congr' (fun h₂ => ?_)))
        exact ih _ (getElem_mem h₁) _ (hxs _ (getElem_mem h₁)) (hys _ (getElem_mem h₂))
      rw [hiff]
      constructor
      · rintro (h | h)
        · exact eqv_of_same _ _ hx hy (by simpa [same, identity] using h)
        · exact h
      · exact Or.inr
  | obj i fs ih =>
    cases y with
    | prim q =>
      rw [value_prim, value_obj]
      exact ⟨fun h => by simp [equalJson] at h, fun h => by cases h⟩
    | arr j ys =>
      have hsame : equalJson (.obj i fs) (.arr j ys) = same (.obj i fs) (.arr j ys) := by
        simp [equalJson, same, identity]
      rw [hsame]
      refine ⟨eqv_of_same _ _ hx hy, fun h => ?_⟩
      rw [value_arr, value_obj] at h
      cases h
    | obj j gs =>
      rw [equalJson, Bool.or_eq_true, Bool.and_eq_true, beq_iff_eq, equalFields_iff]
      obtain ⟨hfn, hfs⟩ := hx.fields
      obtain ⟨hgn, hgs⟩ := hy.fields
      have hiff : (fs.length = gs.length ∧ ∀ p ∈ fs, ∃ w, get? gs p.1 = some w ∧ equalJson p.2 w = true) ↔
          (value (.obj i fs)).Eqv (value (.obj j gs)) := by
        rw [value_obj, value_obj, ← JsonValue.eqv_obj_iff_length _ _ (by rwa [keys_map_value])
          (by rwa [keys_map_value]), length_map, length_map, forall_mem_map]
        refine and_congr_right (fun _ => forall_congr' (fun p => forall_congr' (fun hp => ?_)))
        rw [get?_map_value]
        cases hw : get? gs p.1 with
        | none => simp
        | some w =>
          have hwl := hgs _ (mem_of_get? gs _ w hw)
          simpa using ih p hp w (hfs p hp) hwl
      rw [hiff]
      constructor
      · rintro (h | h)
        · exact eqv_of_same _ _ hx hy (by simpa [same, identity] using h)
        · exact h
      · exact Or.inr

theorem sameValue_iff (hx : Labelled heap x) (hy : Labelled heap y) :
    sameValue x y = true ↔ x.value.Eqv y.value := by
  rw [sameValue, Bool.or_eq_true, equalJson_iff x y hx hy]
  constructor
  · rintro (h | h)
    · exact eqv_of_same x y hx hy h
    · exact h
  · exact Or.inr

end Shared

end PiAgent.Delta
