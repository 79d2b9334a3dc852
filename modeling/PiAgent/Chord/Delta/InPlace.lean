import PiAgent.Chord.Delta.HeapTrees

/-! # Replay in place -/

namespace PiAgent.Delta.Heap

open Shared

def jsonOp (op : OpOf Shared) : Op := (op.map value).toOp

structure Ready (h : Heap) (t : Shared) (waiting : List Shared) : Prop where
  stored : Stored h t
  nodup : t.ids.Nodup
  waits : ∀ v ∈ waiting, Stored h v
  waitsNodup : (waiting.flatMap ids).Nodup
  apart : ∀ a ∈ waiting.flatMap ids, a ∉ t.ids

def Refines (h : Heap) (t : Shared) (op : OpOf Shared) (result : Except DeltaError (Heap × Ref)) : Prop :=
  (∀ w, Delta.applyOp t.value (jsonOp op) = .ok w →
    ∃ h' t', result = .ok (h', t'.ref) ∧ t'.value = w ∧ Becomes h h' t t' (op.values.flatMap ids)) ∧
  ∀ e, Delta.applyOp t.value (jsonOp op) = .error e → ∃ e, result = .error e

theorem refines_error {h : Heap} {t : Shared} {op : OpOf Shared} {err : DeltaError} (err' : DeltaError)
    (hfail : Delta.applyOp t.value (jsonOp op) = .error err) : Refines h t op (.error err') := by
  refine ⟨fun w hw => ?_, fun _ _ => ⟨err', rfl⟩⟩
  rw [hfail] at hw
  cases hw

theorem refines_ok {h h' : Heap} {t t' : Shared} {op : OpOf Shared} {r : Ref}
    (hok : Delta.applyOp t.value (jsonOp op) = .ok t'.value) (hr : r = t'.ref)
    (hb : Becomes h h' t t' (op.values.flatMap ids)) : Refines h t op (.ok (h', r)) := by
  subst hr
  refine ⟨fun w hw => ⟨h', t', rfl, ?_, hb⟩, fun err hfail => ?_⟩
  · exact Except.ok.inj (hok.symm.trans hw)
  · rw [hok] at hfail
    cases hfail

variable {μ : Type} (f : Shared → μ) (path : Path) (e : EditOf Shared)

theorem assertValid_map : (e.map f).assertValid path = e.assertValid path := by
  cases e <;> rfl

theorem onSlot_map : (e.map f).onSlot = e.onSlot := by
  cases e <;> rfl

theorem target_map : (e.map f).target path = e.target path := by
  unfold EditOf.target
  rw [onSlot_map]

theorem refines_r (h : Heap) (t v : Shared) (hr : Ready h t [v]) : Refines h t (.r v) (.ok (h, v.ref)) := by
  refine ⟨fun w hw => ⟨h, v, rfl, ?_, ?_⟩, fun e he => by cases he⟩
  · exact Except.ok.inj hw
  · refine ⟨hr.waits v (by simp), by simpa using hr.waitsNodup, ?_, fun _ _ _ _ => rfl, Nat.le_refl _⟩
    intro a ha
    exact .inr (.inl (by simpa [OpOf.values] using ha))

theorem applyOp_edit (root : JsonValue) (hvalid : e.assertValid path = .ok ()) :
    ∃ f : JsonValue → Except DeltaError JsonValue,
      Delta.applyOp root (jsonOp (.edit path e)) = modifyAt (e.target path) f (e.target path) root ∧
        (∀ c : Container Shared, f (c.map value).toJson =
            ((e.change path c).map (Container.map value)).map Container.toJson) ∧
          ∀ p, ∃ err, f (.prim p) = .error err := by
  have hv : assertValidOp (jsonOp (.edit path e)) = .ok () := by
    rw [jsonOp, OpOf.map, OpOf.toOp, EditOf.assertValid_toOp, assertValid_map, hvalid]
  have happ : Delta.applyOp root (jsonOp (.edit path e)) = (e.map value).toEdit.applyAt path root := by
    unfold Delta.applyOp
    rw [hv]
    rfl
  rw [happ, Edit.applyAt, EditOf.onSlot_toEdit, onSlot_map]
  unfold EditOf.change
  cases hslot : e.onSlot with
  | true =>
    cases hkey : path.getLast? with
    | none =>
      have hpath : path = [] := List.getLast?_eq_none_iff.mp hkey
      simp [EditOf.assertValid, hslot, hpath, assertPathArg, bind, Except.bind] at hvalid
    | some key =>
      refine ⟨(e.map value).toEdit.onParent path key, ?_, fun c => ?_, fun p => ⟨_, rfl⟩⟩
      · simp only [EditOf.target, hslot, if_true]
      · simp only [if_true]
        rw [EditOf.onParent_toEdit, EditOf.onParent_map value text_value ofText_value]
  | false =>
    refine ⟨(e.map value).toEdit.onArray path, ?_, fun c => ?_, fun p => ?_⟩
    · simp only [EditOf.target, hslot, Bool.false_eq_true, if_false]
    · simp only [Bool.false_eq_true, if_false]
      rw [EditOf.onArray_toEdit, EditOf.onArray_map]
    · cases e <;> exact ⟨_, rfl⟩

theorem applyOp_at (t : Shared) (hvalid : e.assertValid path = .ok ())
    (put : Shared → Shared) (id : ℕ) (c : Container Shared) (hw : Walk t (e.target path) (Shared.mk id c) put) :
    (∀ c', e.change path c = .ok c' →
        Delta.applyOp t.value (jsonOp (.edit path e)) = .ok (put (Shared.mk id c')).value) ∧
      ∀ err, e.change path c = .error err → ∃ err, Delta.applyOp t.value (jsonOp (.edit path e)) = .error err := by
  obtain ⟨f, happ, hf, -⟩ := applyOp_edit path e t.value hvalid
  rw [happ]
  constructor
  · intro c' hc'
    refine hw.modifyAt_ok _ f _ ?_
    rw [value_mk, hf, hc', value_mk]
    rfl
  · intro err herr
    refine hw.modifyAt_error _ f ⟨err, ?_⟩
    rw [value_mk, hf, herr]
    rfl

theorem applyOp_nowhere (t : Shared) (hvalid : e.assertValid path = .ok ())
    (hno : ∀ id c put, ¬ Walk t (e.target path) (Shared.mk id c) put) :
    ∃ err, Delta.applyOp t.value (jsonOp (.edit path e)) = .error err := by
  obtain ⟨f, happ, -, hprim⟩ := applyOp_edit path e t.value hvalid
  rw [happ]
  rcases walk_or_error (e.target path) t with ⟨s, put, hw⟩ | ⟨herr, -⟩
  · rcases eq_prim_or_mk s with ⟨p, rfl⟩ | ⟨id, c, rfl⟩
    · exact hw.modifyAt_error _ f (hprim p)
    · exact absurd hw (hno id c put)
  · exact herr _ f

theorem resolve_walk (h : Heap) (t : Shared) (path : Path) (id : ℕ) (c : Container Shared) (put : Shared → Shared)
    (hs : Stored h t) (hw : Walk t path (Shared.mk id c) put) :
    resolve h path t.ref = .ok id ∧ h[id]? = some (c.map ref) := by
  obtain ⟨hres, hstored⟩ := hw.resolveValue h path hs
  refine ⟨?_, ((stored_mk_iff h id c).mp hstored).1⟩
  rw [resolve, hres, ref_mk]

theorem resolve_nowhere (h : Heap) (t : Shared) (path : Path) (hs : Stored h t)
    (hno : ∀ id c put, ¬ Walk t path (Shared.mk id c) put) : ∃ e, resolve h path t.ref = .error e := by
  rcases walk_or_error path t with ⟨s, put, hw⟩ | ⟨-, herr⟩
  · rcases eq_prim_or_mk s with ⟨p, rfl⟩ | ⟨id, c, rfl⟩
    · rw [resolve, (hw.resolveValue h path hs).1]
      exact ⟨_, rfl⟩
    · exact absurd hw (hno id c put)
  · obtain ⟨e, he⟩ := herr h path hs
    rw [resolve, he]
    exact ⟨e, rfl⟩

theorem change_ref (c : Container Shared) :
    (e.map ref).change path (c.map ref) = (e.change path c).map (Container.map ref) :=
  EditOf.change_map ref text_ref ofText_ref path e c

theorem Ready.change {h : Heap} {t : Shared} {path : Path} {e : EditOf Shared} {put : Shared → Shared} {id : ℕ}
    {c c' : Container Shared} (hr : Ready h t e.values) (hvalid : e.assertValid path = .ok ())
    (hw : Walk t (e.target path) (Shared.mk id c) put) (hc : e.change path c = .ok c') :
    Becomes h (h.set id (c'.map ref)) t (put (Shared.mk id c')) (e.values.flatMap ids) ∧
      (put (Shared.mk id c')).ref = t.ref := by
  obtain ⟨hn, hsub⟩ := hw.nodup hr.nodup
  have hstored := (hw.resolveValue h [] hr.stored).2
  obtain ⟨new, dropped, hnew, hperm⟩ := EditOf.change_brings path e c c' hvalid hc
  have hnewids : ∀ a ∈ new.flatMap ids, a ∈ e.values.flatMap ids := by
    rcases hnew with rfl | rfl | ⟨text, rfl⟩
    · exact fun a ha => ha
    · simp
    · exact fun a ha => by simp [HasText.ofText, ids] at ha
  have hnewn : (new.flatMap ids).Nodup ∧ ∀ v ∈ new, Stored h v := by
    rcases hnew with rfl | rfl | ⟨text, rfl⟩
    · exact ⟨hr.waitsNodup, hr.waits⟩
    · simp
    · refine ⟨by simp [HasText.ofText, ids], fun v hv => ?_⟩
      obtain rfl := List.mem_singleton.mp hv
      exact .prim _
  have hset := becomes_set hstored hn hnewn.2 hnewn.1
    (fun a ha hc => hr.apart a (hnewids a ha) (hsub a hc)) hperm
  have hset' : Becomes h (h.set id (c'.map ref)) (Shared.mk id c) (Shared.mk id c') (e.values.flatMap ids) := by
    refine ⟨hset.stored, hset.nodup, fun a ha => ?_, fun a ha hat hae => hset.frame a ha hat
        (fun hn => hae (hnewids a hn)),
      hset.length⟩
    rcases hset.ids a ha with h | h | h
    · exact .inl h
    · exact .inr (.inl (hnewids a h))
    · exact .inr (.inr h)
  exact hset'.walk hw hr.stored hr.nodup hr.apart (by simp)

theorem assertValid_jsonOp : assertValidOp (jsonOp (.edit path e)) = e.assertValid path := by
  rw [jsonOp, OpOf.map, OpOf.toOp, EditOf.assertValid_toOp, assertValid_map]

theorem applyOp_invalid (root : JsonValue) (path : Path) (e : EditOf Shared) (err : DeltaError)
    (h : e.assertValid path = .error err) : Delta.applyOp root (jsonOp (.edit path e)) = .error err := by
  unfold Delta.applyOp
  rw [assertValid_jsonOp, h]
  rfl

theorem applyEdit_refines (h : Heap) (t : Shared) (path : Path) (e : EditOf Shared) (hr : Ready h t e.values)
    (hvalid : e.assertValid path = .ok ()) : Refines h t (.edit path e) (applyEdit h t.ref path (e.map ref)) := by
  unfold applyEdit
  rw [target_map]
  by_cases hw : ∃ id c put, Walk t (e.target path) (Shared.mk id c) put
  · obtain ⟨id, c, put, hw⟩ := hw
    obtain ⟨hres, hget⟩ := resolve_walk h t _ id c put hr.stored hw
    obtain ⟨hok, herr⟩ := applyOp_at path e t hvalid put id c hw
    simp only [hres, hget, change_ref]
    cases hc : e.change path c with
    | error err =>
      obtain ⟨err', hfail⟩ := herr err hc
      exact refines_error err hfail
    | ok c' =>
      obtain ⟨hb, href⟩ := hr.change hvalid hw hc
      exact refines_ok (hok c' hc) href.symm hb
  · have hno : ∀ id c put, ¬ Walk t (e.target path) (Shared.mk id c) put := fun id c put h => hw ⟨id, c, put, h⟩
    obtain ⟨err, hfail⟩ := applyOp_nowhere path e t hvalid hno
    obtain ⟨err', hres⟩ := resolve_nowhere h t _ hr.stored hno
    simp only [hres]
    exact refines_error err' hfail

theorem applyOp_refines (h : Heap) (t : Shared) (op : OpOf Shared) (hr : Ready h t op.values) :
    Refines h t op (applyOp h t.ref (op.map ref)) := by
  cases op with
  | r v => exact refines_r h t v hr
  | edit path e =>
    have hmap : ((OpOf.edit path e).map ref).assertValid = e.assertValid path := assertValid_map ref path e
    unfold applyOp
    cases hvalid : e.assertValid path with
    | error err =>
      rw [hmap, hvalid]
      exact refines_error err (applyOp_invalid t.value path e err hvalid)
    | ok u =>
      rw [hmap, hvalid]
      exact applyEdit_refines h t path e hr hvalid

end PiAgent.Delta.Heap
