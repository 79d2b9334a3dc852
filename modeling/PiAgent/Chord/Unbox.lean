import PiAgent.Chord.Cell
import PiAgent.Chord.Delta.Nested

/-! # Operations out of the box -/

namespace PiAgent.Cells

open Option Delta JsonValue

def box (value : JsonValue) : JsonValue := .obj [(js "v", value)]

theorem unboxOp_eq_some (op op' : Op) (h : unboxOp op = some op') :
    ∃ seg path e, op = .edit (seg :: path) e ∧ op' = .edit path e ∧ (e.onSlot = true → path ≠ []) := by
  unfold unboxOp at h
  split at h
  · cases h
  · cases h
  · rename_i seg path e
    split at h
    · cases h
    · rename_i hslot
      obtain rfl := some.inj h
      refine ⟨seg, path, e, rfl, rfl, ?_⟩
      rintro hs rfl
      exact hslot (by simp [hs])

theorem modifyAt_box (full full' : Path) (f f' : JsonValue → Except DeltaError JsonValue)
    (hf : ∀ x y, f x = .ok y → f' x = .ok y) (seg : Seg) (path : Path) (b w : JsonValue)
    (h : modifyAt full f (seg :: path) (box b) = .ok w) : ∃ a, w = box a ∧ modifyAt full' f' path b = .ok a := by
  have hget : ∀ x, Assoc.get? [(js "v", b)] seg.property = some x → seg.property = js "v" ∧ x = b := by
    intro x hx
    simp only [Assoc.get?_cons, Assoc.get?_nil] at hx
    split at hx
    · rename_i hv
      exact ⟨hv.symm, (some.inj hx).symm⟩
    · cases hx
  have hwalk : modifyAt full f (seg :: path) (box b) =
      (Assoc.get? [(js "v", b)] seg.property).elim (.error (.path full))
        (fun x => (modifyAt full f path x).map (fun y => .obj (Assoc.set [(js "v", b)] seg.property y))) := by
    cases seg <;> simp only [box, modifyAt, Seg.property] <;> cases Assoc.get? [(js "v", b)] _ <;> rfl
  rw [hwalk] at h
  cases hx : Assoc.get? [(js "v", b)] seg.property with
  | none =>
    rw [hx] at h
    cases h
  | some x =>
    rw [hx, Option.elim_some] at h
    obtain ⟨hv, rfl⟩ := hget x hx
    cases hm : modifyAt full f path x with
    | error e =>
      rw [hm] at h
      cases h
    | ok a =>
      rw [hm] at h
      refine ⟨a, ?_, modifyAt_full full full' f f' hf path x a hm⟩
      obtain rfl := Except.ok.inj h
      simp [box, hv, Assoc.set]

theorem applyOp_unboxed (b w : JsonValue) (op op' : Op) (hop : unboxOp op = some op')
    (h : applyOp (box b) op = .ok w) : ∃ a, w = box a ∧ applyOp b op' = .ok a := by
  obtain ⟨seg, path, e, rfl, rfl, hne⟩ := unboxOp_eq_some op op' hop
  have hvalid := applyOp_edit_valid (box b) w (seg :: path) e h
  have hvalid' : (Op.edit path e).Valid := ⟨(safePath_cons seg path).mp hvalid.1 |>.2, hne, hvalid.2.2⟩
  rw [applyOp_valid _ _ e hvalid] at h
  rw [applyOp_valid _ _ e hvalid']
  unfold Edit.applyAt at h ⊢
  split at h
  · rename_i hslot
    have hpath := hne hslot
    rw [if_pos hslot]
    rw [List.getLast?_cons_of_ne_nil hpath, List.dropLast_cons_of_ne_nil hpath] at h
    cases hlast : path.getLast? with
    | none => exact absurd (List.getLast?_eq_none_iff.mp hlast) hpath
    | some key =>
      rw [hlast] at h
      exact modifyAt_box _ _ _ _ (onParent_full _ _ key e) seg path.dropLast b w h
  · rename_i hslot
    rw [if_neg hslot]
    exact modifyAt_box _ _ _ _ (onArray_full _ _ e) seg path b w h

theorem apply_unboxed (b w : JsonValue) (ops unboxed : List Op) (hops : ops.mapM unboxOp = some unboxed)
    (h : apply (box b) ops = .ok w) : ∃ a, w = box a ∧ apply b unboxed = .ok a := by
  induction ops generalizing b unboxed with
  | nil =>
    obtain rfl : unboxed = [] := by simpa using hops.symm
    exact ⟨b, (Except.ok.inj h).symm, rfl⟩
  | cons op ops ih =>
    obtain ⟨op', hop, rest, hrest, rfl⟩ : ∃ op', unboxOp op = some op' ∧
        ∃ rest, ops.mapM unboxOp = some rest ∧ op' :: rest = unboxed := by
      simpa [List.mapM_cons, bind_eq_some_iff] using hops
    cases happ : applyOp (box b) op with
    | error e => simp [apply, happ, bind, Except.bind] at h
    | ok w₁ =>
      obtain ⟨a₁, rfl, ha₁⟩ := applyOp_unboxed b w₁ op op' hop happ
      rw [apply_cons _ _ _ _ happ] at h
      rw [apply_cons _ _ _ _ ha₁]
      exact ih a₁ rest hrest h

theorem unboxed_no_replace (ops unboxed : List Op) (hops : ops.mapM unboxOp = some unboxed) :
    ∀ op ∈ unboxed, isReplace op = false := by
  induction ops generalizing unboxed with
  | nil =>
    obtain rfl : unboxed = [] := by simpa using hops.symm
    simp
  | cons op ops ih =>
    obtain ⟨op', hop, rest, hrest, rfl⟩ : ∃ op', unboxOp op = some op' ∧
        ∃ rest, ops.mapM unboxOp = some rest ∧ op' :: rest = unboxed := by
      simpa [List.mapM_cons, bind_eq_some_iff] using hops
    obtain ⟨seg, path, e, -, rfl, -⟩ := unboxOp_eq_some op op' hop
    intro o ho
    rcases List.mem_cons.mp ho with rfl | ho
    · rfl
    · exact ih rest hrest o ho

/-! ## The result -/

/-- Unboxing preserves what a batch does, and replaces the value at once or not at all. -/
theorem unbox_preserves (b a : JsonValue) (ops : List Op) (h : apply (box b) ops = .ok (box a)) :
    apply b (unbox ops a) = .ok a ∧ (unbox ops a = [.r a] ∨ ∀ op ∈ unbox ops a, isReplace op = false) := by
  unfold unbox
  cases hops : ops.mapM unboxOp with
  | none =>
    rw [getD_none]
    exact ⟨apply_singleton b a (.r a) (applyOp_r b a), .inl rfl⟩
  | some unboxed =>
    obtain ⟨a', heq, happ⟩ := apply_unboxed b (box a) ops unboxed hops h
    obtain rfl : a = a' := by simpa [box] using heq
    exact ⟨happ, .inr (unboxed_no_replace ops unboxed hops)⟩

def belowValue : List Op :=
    [.edit [.key (js "v"), .key (js "x")] (.a (js "b")), .edit [.key (js "v"), .key (js "y")] .d]

theorem unbox_preserves_below :
    apply (.obj [(js "x", str (js "a"))]) (unbox belowValue (.obj [(js "x", str (js "ab"))]))
        = .ok (.obj [(js "x", str (js "ab"))])
      ∧ (unbox belowValue (.obj [(js "x", str (js "ab"))]) = [.r (.obj [(js "x", str (js "ab"))])] ∨
        ∀ op ∈ unbox belowValue (.obj [(js "x", str (js "ab"))]), isReplace op = false) :=
  unbox_preserves (.obj [(js "x", str (js "a"))]) (.obj [(js "x", str (js "ab"))]) belowValue rfl

end PiAgent.Cells
