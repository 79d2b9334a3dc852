import Mathlib.Data.List.Perm.Subperm
import Mathlib.Data.Rat.Defs
import PiAgent.Lib.Assoc

/-!
# Strict JSON

The values of `json.ts`. Strings are UTF-16 code units, as in JavaScript. Numbers
are finite doubles, so they are rationals; 0 and -0 are one number, as for `===`.
An object keeps its keys in a list. The order is insertion order: JavaScript moves
integer keys to the front, and no result here depends on the order.
-/

namespace PiAgent

open Option List Assoc

abbrev JsString := List UInt16

instance instLawfulBEqJsString : LawfulBEq JsString := inferInstance

/-- The UTF-16 code units of one character. -/
def utf16 (c : Char) : JsString :=
  if c.toNat < 0x10000 then [c.toNat.toUInt16]
  else [(0xD800 + (c.toNat - 0x10000) / 0x400).toUInt16, (0xDC00 + (c.toNat - 0x10000) % 0x400).toUInt16]

def js (s : String) : JsString := s.toList.flatMap utf16

def isDigit (u : UInt16) : Bool := 48 ≤ u && u ≤ 57

inductive Primitive where
  | null
  | bool (b : Bool)
  | num (n : ℚ)
  | str (s : JsString)
deriving DecidableEq

inductive JsonValue where
  | prim (p : Primitive)
  | arr (items : List JsonValue)
  | obj (fields : List (JsString × JsonValue))

namespace JsonValue

abbrev null : JsonValue := .prim .null
abbrev num (n : ℚ) : JsonValue := .prim (.num n)
abbrev str (s : JsString) : JsonValue := .prim (.str s)

instance : Inhabited JsonValue := ⟨null⟩

theorem ind {P : JsonValue → Prop} (prim : ∀ p, P (.prim p)) (arr : ∀ xs, (∀ x ∈ xs, P x) → P (.arr xs))
    (obj : ∀ fs : List (JsString × JsonValue), (∀ p ∈ fs, P p.2) → P (.obj fs)) (v : JsonValue) : P v :=
  @JsonValue.rec P (fun xs => ∀ x ∈ xs, P x) (fun fs => ∀ p ∈ fs, P p.2) (fun p => P p.2) prim
    (fun xs h => arr xs h) (fun fs h => obj fs h) (by simp)
    (fun _ _ h t => by simpa using ⟨h, t⟩) (by simp)
    (fun p _ h t => by intro q hq; rcases mem_cons.mp hq with rfl | hq; exacts [h, t q hq])
    (fun _ _ h => h) v

/-- `value !== null && typeof value === "object"`. -/
def isContainer : JsonValue → Bool
  | .prim _ => false
  | _ => true

/-! ## Well-formed trees: no object has a key twice -/

inductive Wf : JsonValue → Prop
  | prim (p : Primitive) : Wf (.prim p)
  | arr (xs : List JsonValue) (h : ∀ x ∈ xs, Wf x) : Wf (.arr xs)
  | obj (fs : List (JsString × JsonValue)) (hn : (keys fs).Nodup) (h : ∀ p ∈ fs, Wf p.2) : Wf (.obj fs)

theorem wf_arr_iff (xs : List JsonValue) : Wf (.arr xs) ↔ ∀ x ∈ xs, Wf x :=
  ⟨fun h => by cases h; assumption, .arr xs⟩

theorem wf_obj_iff (fs : List (JsString × JsonValue)) : Wf (.obj fs) ↔ (keys fs).Nodup ∧ ∀ p ∈ fs, Wf p.2 :=
  ⟨fun h => by cases h; exact ⟨‹_›, ‹_›⟩, fun h => .obj fs h.1 h.2⟩

/-! ## Equality up to the order of object keys -/

inductive Eqv : JsonValue → JsonValue → Prop
  | prim (p : Primitive) : Eqv (.prim p) (.prim p)
  | arr (xs ys : List JsonValue) (hl : xs.length = ys.length)
      (h : ∀ i (hx : i < xs.length) (hy : i < ys.length), Eqv xs[i] ys[i]) : Eqv (.arr xs) (.arr ys)
  | obj (fs gs : List (JsString × JsonValue)) (hk : ∀ k, k ∈ keys fs ↔ k ∈ keys gs)
      (h : ∀ k v w, get? fs k = some v → get? gs k = some w → Eqv v w) : Eqv (.obj fs) (.obj gs)

theorem eqv_arr_iff (xs ys : List JsonValue) : Eqv (.arr xs) (.arr ys) ↔ List.Forall₂ Eqv xs ys := by
  constructor
  · rintro ⟨⟩
    rename_i hl h
    exact List.forall₂_iff_get.mpr ⟨hl, fun i hx hy => h i hx hy⟩
  · intro h
    exact .arr xs ys h.length_eq (fun i hx hy => (List.forall₂_iff_get.mp h).2 i hx hy)

variable (fs gs : List (JsString × JsonValue))

theorem eqv_obj_iff : Eqv (.obj fs) (.obj gs) ↔ ∀ k, Option.Rel Eqv (get? fs k) (get? gs k) := by
  constructor
  · rintro ⟨⟩ k
    rename_i hk h
    have hk := hk k
    rw [← has_iff, ← has_iff, has, has] at hk
    cases hf : get? fs k <;> cases hg : get? gs k <;> simp only [hf, hg] at hk
    · exact .none
    · simp at hk
    · simp at hk
    · exact .some (h k _ _ hf hg)
  · intro h
    refine .obj fs gs (fun k => ?_) (fun k v w hv hw => ?_)
    · rw [← has_iff, ← has_iff, has, has]
      have := h k
      revert this
      cases get? fs k <;> cases get? gs k <;> rintro ⟨⟩ <;> simp
    · have := h k
      rw [hv, hw] at this
      cases this; assumption

theorem eqv_refl (v : JsonValue) : Eqv v v := by
  induction v using ind with
  | prim p => exact .prim p
  | arr xs ih => exact .arr xs xs rfl (fun i hx _ => ih _ (getElem_mem hx))
  | obj fs ih =>
    refine .obj fs fs (fun _ => Iff.rfl) (fun k v w hv hw => ?_)
    obtain rfl : v = w := by rw [hv] at hw; exact some.inj hw
    exact ih _ (mem_of_get? fs k v hv)

theorem eqv_symm {v w : JsonValue} (h : Eqv v w) : Eqv w v := by
  induction h with
  | prim p => exact .prim p
  | arr xs ys hl _ ih => exact .arr ys xs hl.symm (fun i hx hy => ih i hy hx)
  | obj fs gs hk _ ih => exact .obj gs fs (fun k => (hk k).symm) (fun k v w hv hw => ih k w v hw hv)

theorem eqv_trans {u v w : JsonValue} (h : Eqv u v) (h' : Eqv v w) : Eqv u w := by
  induction h generalizing w with
  | prim p => exact h'
  | arr xs ys hl _ ih =>
    cases h' with
    | arr _ zs hl' h' =>
      exact .arr xs zs (hl.trans hl') (fun i hx hz => ih i hx (hl ▸ hx) (h' i (hl ▸ hx) hz))
  | obj fs gs hk _ ih =>
    cases h' with
    | obj _ hs hk' h' =>
      refine .obj fs hs (fun k => (hk k).trans (hk' k)) (fun k v w hv hw => ?_)
      have hg : k ∈ keys gs := by
        rw [← hk, ← has_iff, has, hv]; rfl
      rw [← has_iff, has] at hg
      obtain ⟨u, hu⟩ := isSome_iff_exists.mp hg
      exact ih k v u hv hu (h' k u w hu hw)

theorem eqv_prim_iff (p : Primitive) (v : JsonValue) : Eqv (.prim p) v ↔ v = .prim p :=
  ⟨fun h => by cases h; rfl, fun h => h ▸ .prim p⟩

/-! ## The decision, as the code makes it -/

mutual

/-- `equalJson` and `equalTrustedJson`, on values without identity. -/
def equalJson : JsonValue → JsonValue → Bool
  | .prim p, .prim q => p = q
  | .arr xs, .arr ys => equalItems xs ys
  | .obj fs, .obj gs => fs.length == gs.length && equalFields fs gs
  | _, _ => false

def equalItems : List JsonValue → List JsonValue → Bool
  | [], [] => true
  | x :: xs, y :: ys => equalJson x y && equalItems xs ys
  | _, _ => false

/-- Every key on the left is on the right, with an equal value. -/
def equalFields : List (JsString × JsonValue) → List (JsString × JsonValue) → Bool
  | [], _ => true
  | (k, v) :: fs, gs =>
    (match get? gs k with
      | some w => equalJson v w
      | none => false) && equalFields fs gs

end

theorem equalFields_iff :
    equalFields fs gs = true ↔ ∀ p ∈ fs, ∃ w, get? gs p.1 = some w ∧ equalJson p.2 w = true := by
  induction fs with
  | nil => simp [equalFields]
  | cons p fs ih =>
    obtain ⟨k, v⟩ := p
    rw [equalFields, Bool.and_eq_true, ih, forall_mem_cons]
    cases get? gs k <;> simp

theorem equalItems_iff (xs ys : List JsonValue) :
    equalItems xs ys = true ↔ List.Forall₂ (fun x y => equalJson x y = true) xs ys := by
  induction xs generalizing ys with
  | nil => cases ys <;> simp [equalItems]
  | cons x xs ih => cases ys <;> simp [equalItems, ih]

theorem keys_subset_of_length (hf : (keys fs).Nodup)
    (hl : fs.length = gs.length) (h : keys fs ⊆ keys gs) : keys gs ⊆ keys fs := by
  have hsub : List.Subperm (keys fs) (keys gs) := hf.subperm h
  have := hsub.perm_of_length_le (by simp [Assoc.keys, hl])
  exact this.symm.subset

theorem eqv_obj_iff_length (hf : (keys fs).Nodup) (hg : (keys gs).Nodup) :
    (fs.length = gs.length ∧ ∀ p ∈ fs, ∃ w, get? gs p.1 = some w ∧ Eqv p.2 w) ↔ Eqv (.obj fs) (.obj gs) := by
  constructor
  · rintro ⟨hl, h⟩
    have hsub : keys fs ⊆ keys gs := by
      intro k hk
      obtain ⟨p, hp, rfl⟩ := mem_map.mp hk
      obtain ⟨w, hw, -⟩ := h p hp
      exact mem_map.mpr ⟨_, mem_of_get? gs _ w hw, rfl⟩
    refine .obj fs gs (fun k => ⟨fun hk => hsub hk, fun hk => keys_subset_of_length fs gs hf hl hsub hk⟩) ?_
    intro k v w hv hw
    obtain ⟨w', hw', he⟩ := h _ (mem_of_get? fs k v hv)
    obtain rfl : w' = w := some.inj (hw'.symm.trans hw)
    exact he
  · rintro ⟨⟩
    rename_i hk h
    refine ⟨?_, fun p hp => ?_⟩
    · have : (keys fs).Perm (keys gs) := (perm_ext_iff_of_nodup hf hg).mpr hk
      simpa [Assoc.keys] using this.length_eq
    · have hkey : p.1 ∈ keys gs := (hk p.1).mp (mem_map_of_mem hp)
      rw [← has_iff, has] at hkey
      obtain ⟨w, hw⟩ := isSome_iff_exists.mp hkey
      exact ⟨w, hw, h _ _ _ (get?_of_mem fs p.1 p.2 hf hp) hw⟩

theorem equalJson_iff (v w : JsonValue) (hv : Wf v) (hw : Wf w) : equalJson v w = true ↔ Eqv v w := by
  induction v using ind generalizing w with
  | prim p =>
    rw [eqv_prim_iff]
    cases w <;> simp [equalJson, eq_comm]
  | arr xs ih =>
    cases w with
    | prim q => exact ⟨fun h => by simp [equalJson] at h, fun h => by cases h⟩
    | obj gs => exact ⟨fun h => by simp [equalJson] at h, fun h => by cases h⟩
    | arr ys =>
      rw [wf_arr_iff] at hv hw
      rw [equalJson, equalItems_iff, eqv_arr_iff, List.forall₂_iff_get, List.forall₂_iff_get]
      refine and_congr_right (fun hl => ?_)
      refine forall_congr' (fun i => forall_congr' (fun hx => forall_congr' (fun hy => ?_)))
      exact ih _ (getElem_mem hx) _ (hv _ (getElem_mem hx)) (hw _ (getElem_mem hy))
  | obj fs ih =>
    cases w with
    | prim q => exact ⟨fun h => by simp [equalJson] at h, fun h => by cases h⟩
    | arr ys => exact ⟨fun h => by simp [equalJson] at h, fun h => by cases h⟩
    | obj gs =>
      obtain ⟨hfn, hfw⟩ := (wf_obj_iff fs).mp hv
      obtain ⟨hgn, hgw⟩ := (wf_obj_iff gs).mp hw
      rw [equalJson, Bool.and_eq_true, beq_iff_eq, equalFields_iff, ← eqv_obj_iff_length fs gs hfn hgn]
      refine and_congr_right (fun _ => forall_congr' (fun p => forall_congr' (fun hp => ?_)))
      refine exists_congr (fun w => and_congr_right (fun hw => ?_))
      exact ih p hp w (hfw p hp) (hgw _ (mem_of_get? gs _ w hw))

end JsonValue

end PiAgent
