import PiAgent.Chord.Delta.Heap

/-! # Trees in a heap -/

namespace PiAgent.Delta

open List

namespace Shared

mutual

def ids : Shared → List ℕ
  | .prim _ => []
  | .arr id items => id :: itemIds items
  | .obj id fields => id :: fieldIds fields

def itemIds : List Shared → List ℕ
  | [] => []
  | x :: xs => ids x ++ itemIds xs

def fieldIds : List (JsString × Shared) → List ℕ
  | [] => []
  | (_, v) :: fs => ids v ++ fieldIds fs

end

theorem itemIds_eq (xs : List Shared) : itemIds xs = xs.flatMap ids := by
  induction xs with
  | nil => rfl
  | cons x xs ih => rw [itemIds, ih, flatMap_cons]

theorem fieldIds_eq (fs : List (JsString × Shared)) : fieldIds fs = (fs.map Prod.snd).flatMap ids := by
  induction fs with
  | nil => rfl
  | cons p fs ih => rw [fieldIds, ih, map_cons, flatMap_cons]

def ref : Shared → Heap.Ref
  | .prim p => .prim p
  | .arr id _ => .addr id
  | .obj id _ => .addr id

variable (id : ℕ) (c : Container Shared)

@[simp] theorem ref_mk : (mk id c).ref = .addr id := by
  cases c <;> rfl

@[simp] theorem ids_mk : (mk id c).ids = id :: c.members.flatMap ids := by
  cases c with
  | arr xs => rw [mk, ids, itemIds_eq]; rfl
  | obj fs => rw [mk, ids, fieldIds_eq]; rfl

@[simp] theorem value_mk : (mk id c).value = (c.map value).toJson := by
  cases c with
  | arr xs => exact value_arr id xs
  | obj fs => exact value_obj id fs

theorem mk_inj (id id' : ℕ) (c c' : Container Shared) (h : mk id c = mk id' c') : id = id' ∧ c = c' := by
  cases c <;> cases c' <;> cases h <;> exact ⟨rfl, rfl⟩

variable (t : Shared)

theorem eq_prim_or_mk : (∃ p, t = .prim p) ∨ ∃ id c, t = mk id c := by
  cases t with
  | prim p => exact .inl ⟨p, rfl⟩
  | arr id xs => exact .inr ⟨id, .arr xs, rfl⟩
  | obj id fs => exact .inr ⟨id, .obj fs, rfl⟩

theorem text_ref : HasText.text? t.ref = HasText.text? t := by
  rcases t with (- | - | - | c) | - | - <;> rfl

theorem text_value : HasText.text? t.value = HasText.text? t := by
  rcases t with (- | - | - | c) | - | - <;> rfl

theorem ofText_ref (text : JsString) : (HasText.ofText text : Shared).ref = HasText.ofText text := rfl

theorem ofText_value (text : JsString) : (HasText.ofText text : Shared).value = HasText.ofText text := rfl

end Shared

namespace Heap

open Shared

inductive Stored (h : Heap) : Shared → Prop
  | prim (p : Primitive) : Stored h (.prim p)
  | mk (id : ℕ) (c : Container Shared) (hc : h[id]? = some (c.map ref)) (hm : ∀ x ∈ c.members, Stored h x) :
    Stored h (Shared.mk id c)

theorem stored_mk_iff (h : Heap) (id : ℕ) (c : Container Shared) :
    Stored h (Shared.mk id c) ↔ h[id]? = some (c.map ref) ∧ ∀ x ∈ c.members, Stored h x := by
  constructor
  · intro hs
    generalize ht : Shared.mk id c = t at hs
    cases hs with
    | prim p => cases c <;> cases ht
    | mk id' c' hc hm =>
      obtain ⟨rfl, rfl⟩ := mk_inj _ _ _ _ ht
      exact ⟨hc, hm⟩
  · rintro ⟨hc, hm⟩
    exact .mk id c hc hm

theorem Stored.lt {h : Heap} {t : Shared} (hs : Stored h t) : ∀ a ∈ t.ids, a < h.length := by
  induction hs with
  | prim p => simp [ids]
  | mk id c hc hm ih =>
    intro a ha
    rw [ids_mk] at ha
    rcases mem_cons.mp ha with rfl | ha
    · exact (List.getElem?_eq_some_iff.mp hc).1
    · obtain ⟨x, hx, ha⟩ := mem_flatMap.mp ha
      exact ih x hx a ha

theorem Stored.frame {h h' : Heap} {t : Shared} (hs : Stored h t) (hf : ∀ a ∈ t.ids, h'[a]? = h[a]?) :
    Stored h' t := by
  induction hs with
  | prim p => exact .prim p
  | mk id c hc hm ih =>
    refine .mk id c ?_ (fun x hx => ih x hx (fun a ha => hf a ?_))
    · rw [hf id (by simp), hc]
    · rw [ids_mk]
      exact mem_cons_of_mem _ (mem_flatMap.mpr ⟨x, hx, ha⟩)

/-! ## Walks in a tree -/

theorem Stored.child {h : Heap} {id : ℕ} {c : Container Shared} {seg : Seg} {x : Shared}
    (hs : Stored h (Shared.mk id c)) (hx : c.child [] seg = .ok x) : Stored h x := by
  obtain ⟨others, hperm, -⟩ := Container.members_child [] seg c x hx
  exact ((stored_mk_iff h id c).mp hs).2 x (hperm.mem_iff.mpr (mem_cons_self ..))

theorem child_mapped {β : Type} (f : Shared → β) (full : Path) (seg : Seg) (c : Container Shared) (x : Shared)
    (hx : c.child [] seg = .ok x) : (c.map f).child full seg = .ok (f x) := by
  rw [Container.child_map, Container.child_full [] full seg c x hx]
  rfl

inductive Walk : Shared → Path → Shared → (Shared → Shared) → Prop
  | nil (t : Shared) : Walk t [] t id
  | cons (id : ℕ) (c : Container Shared) (seg : Seg) (rest : Path) (x s : Shared) (put : Shared → Shared)
      (hx : c.child [] seg = .ok x) (h : Walk x rest s put) :
    Walk (Shared.mk id c) (seg :: rest) s (fun s' => Shared.mk id (c.put seg (put s')))

variable {t s : Shared} {path : Path} {put : Shared → Shared}

theorem Walk.resolveValue (h : Walk t path s put) (hp : Heap) (full : Path) (hs : Stored hp t) :
    resolveValue hp full path t.ref = .ok s.ref ∧ Stored hp s := by
  induction h with
  | nil t => exact ⟨rfl, hs⟩
  | cons id c seg rest x s put hx h ih =>
    have hc := ((stored_mk_iff hp id c).mp hs).1
    obtain ⟨hres, hstored⟩ := ih (hs.child hx)
    refine ⟨?_, hstored⟩
    simp only [Heap.resolveValue, ref_mk, deref, hc, child_mapped ref full seg c x hx, hres]

section

variable (h : Walk t path s put) (full : Path) (f : JsonValue → Except DeltaError JsonValue)
include h

theorem Walk.modifyAt_ok (s' : Shared) (hf : f s.value = .ok s'.value) :
    modifyAt full f path t.value = .ok (put s').value := by
  induction h with
  | nil t => exact hf
  | cons id c seg rest x s put hx h ih =>
    simp only [value_mk, Container.modifyAt_cons, child_mapped value full seg c x hx, ih hf, Container.put_map]
    rfl

theorem Walk.modifyAt_error (hf : ∃ e, f s.value = .error e) : ∃ e, modifyAt full f path t.value = .error e := by
  induction h with
  | nil t => exact hf
  | cons id c seg rest x s put hx h ih =>
    obtain ⟨e, he⟩ := ih hf
    simp only [value_mk, Container.modifyAt_cons, child_mapped value full seg c x hx, he]
    exact ⟨e, rfl⟩

end

theorem walk_or_error (path : Path) (t : Shared) : (∃ s put, Walk t path s put) ∨
      (∀ full f, ∃ e, modifyAt full f path t.value = .error e) ∧
        ∀ hp full, Stored hp t → ∃ e, resolveValue hp full path t.ref = .error e := by
  induction path generalizing t with
  | nil => exact .inl ⟨t, id, .nil t⟩
  | cons seg rest ih =>
    rcases eq_prim_or_mk t with ⟨p, rfl⟩ | ⟨id, c, rfl⟩
    · refine .inr ⟨fun full f => ?_, fun hp full _ => ⟨_, rfl⟩⟩
      cases seg <;> exact ⟨_, rfl⟩
    · cases hx : c.child [] seg with
      | error e =>
        have hnone : ∀ full, ∃ e, c.child full seg = .error e := by
          intro full
          cases hc : c.child full seg with
          | error e => exact ⟨e, rfl⟩
          | ok x =>
            rw [Container.child_full full [] seg c x hc] at hx
            cases hx
        refine .inr ⟨fun full f => ?_, fun hp full hs => ?_⟩
        · obtain ⟨e, he⟩ := hnone full
          simp only [value_mk, Container.modifyAt_cons, Container.child_map, he]
          exact ⟨e, rfl⟩
        · obtain ⟨e, he⟩ := hnone full
          have hc := ((stored_mk_iff hp id c).mp hs).1
          simp only [resolveValue, ref_mk, deref, hc, Container.child_map, he]
          exact ⟨e, rfl⟩
      | ok x =>
        rcases ih x with ⟨s, put, hw⟩ | ⟨hmodify, hresolve⟩
        · exact .inl ⟨s, _, .cons id c seg rest x s put hx hw⟩
        · refine .inr ⟨fun full f => ?_, fun hp full hs => ?_⟩
          · obtain ⟨e, he⟩ := hmodify full f
            simp only [value_mk, Container.modifyAt_cons, Container.child_map,
              Container.child_full [] full seg c x hx]
            exact ⟨e, by simp [Except.map, he]⟩
          · have hc := ((stored_mk_iff hp id c).mp hs).1
            obtain ⟨e, he⟩ := hresolve hp full (hs.child hx)
            simp only [resolveValue, ref_mk, deref, hc, Container.child_map,
              Container.child_full [] full seg c x hx]
            exact ⟨e, by simp [Except.map, he]⟩

theorem Walk.of_container {id : ℕ} {c : Container Shared} (h : Walk t path (Shared.mk id c) put) :
    ∃ id' c', t = Shared.mk id' c' := by
  cases h with
  | nil => exact ⟨id, c, rfl⟩
  | cons id' c' seg rest x s put hx h => exact ⟨id', c', rfl⟩

theorem Walk.relabel {id b : ℕ} {c cs : Container Shared} (h : Walk (Shared.mk id c) path (Shared.mk b cs) put)
    (id' : ℕ) :
    ∃ b' put', Walk (Shared.mk id' c) path (Shared.mk b' cs) put' := by
  generalize ht : Shared.mk id c = t at h
  generalize hs : Shared.mk b cs = s at h
  cases h with
  | nil =>
    obtain ⟨-, rfl⟩ := mk_inj _ _ _ _ (ht.trans hs.symm)
    exact ⟨id', _, .nil _⟩
  | cons id₁ c₁ seg rest x s put hx h =>
    obtain ⟨-, rfl⟩ := mk_inj _ _ _ _ ht
    subst hs
    exact ⟨b, _, .cons id' c seg rest x _ put hx h⟩

theorem Walk.cons_inv {id : ℕ} {c : Container Shared} {seg : Seg} {rest : Path}
    (h : Walk (Shared.mk id c) (seg :: rest) s put) : ∃ x put', c.child [] seg = .ok x ∧ Walk x rest s put' := by
  generalize ht : Shared.mk id c = t at h
  cases h with
  | cons id₁ c₁ seg rest x s put hx h =>
    obtain ⟨-, rfl⟩ := mk_inj _ _ _ _ ht
    exact ⟨x, put, hx, h⟩

theorem Walk.concat_inv {key : Seg} (h : Walk t (path ++ [key]) s put) :
    ∃ b c put', Walk t path (Shared.mk b c) put' ∧ c.child [] key = .ok s := by
  induction path generalizing t put with
  | nil =>
    cases h with
    | cons id c seg rest x s put hx h =>
      cases h
      exact ⟨id, c, _, .nil _, hx⟩
  | cons seg path ih =>
    cases h with
    | cons id c seg rest x s put hx h =>
      obtain ⟨b, c', put', hw, hkey⟩ := ih h
      exact ⟨b, c', _, .cons id c seg path x _ put' hx hw, hkey⟩

theorem Walk.concat {key : Seg} {b : ℕ} {c : Container Shared} (h : Walk t path (Shared.mk b c) put)
    (hkey : c.child [] key = .ok s) : Walk t (path ++ [key]) s (fun s' => put (Shared.mk b (c.put key s'))) := by
  generalize hp : Shared.mk b c = p at h
  induction h with
  | nil t =>
    subst hp
    exact .cons b c key [] s s id hkey (.nil s)
  | cons id c₁ seg rest x p put hx h ih => exact .cons id c₁ seg _ x s _ hx (ih hp)

theorem Walk.put_value (h : Walk t path s put) (s₁ s₂ : Shared) (hv : s₁.value = s₂.value) :
    (put s₁).value = (put s₂).value := by
  induction h with
  | nil t => exact hv
  | cons id c seg rest x s put hx h ih => rw [value_mk, value_mk, Container.put_map, Container.put_map, ih]

/-! ## Changes of a tree in a heap -/

/-- The heap `h` with the tree `t` becomes `h'` with `t'`. `extra` are containers that join the tree. -/
structure Becomes (h h' : Heap) (t t' : Shared) (extra : List ℕ) : Prop where
  stored : Stored h' t'
  nodup : t'.ids.Nodup
  ids : ∀ a ∈ t'.ids, a ∈ t.ids ∨ a ∈ extra ∨ h.length ≤ a
  frame : ∀ a < h.length, a ∉ t.ids → a ∉ extra → h'[a]? = h[a]?
  length : h.length ≤ h'.length

theorem Becomes.refl (h : Heap) (t : Shared) (hs : Stored h t) (hn : t.ids.Nodup) : Becomes h h t t [] where
  stored := hs
  nodup := hn
  ids := fun _ ha => .inl ha
  frame := fun _ _ _ _ => rfl
  length := Nat.le_refl _

theorem Becomes.trans {h h₁ h₂ : Heap} {t t₁ t₂ : Shared} {e₁ e₂ : List ℕ} (hb₁ : Becomes h h₁ t t₁ e₁)
    (hb₂ : Becomes h₁ h₂ t₁ t₂ e₂) (e : List ℕ) (he₁ : ∀ a ∈ e₁, a ∈ e) (he₂ : ∀ a ∈ e₂, a ∈ e ∨ h.length ≤ a) :
    Becomes h h₂ t t₂ e where
  stored := hb₂.stored
  nodup := hb₂.nodup
  ids := by
    intro a ha
    have hlen := hb₁.length
    rcases hb₂.ids a ha with ha | ha | ha
    · rcases hb₁.ids a ha with ha | ha | ha
      · exact .inl ha
      · exact .inr (.inl (he₁ a ha))
      · exact .inr (.inr ha)
    · exact .inr (he₂ a ha)
    · exact .inr (.inr (Nat.le_trans hlen ha))
  frame := by
    intro a ha hat hae
    have hlen := hb₁.length
    rw [hb₂.frame a (by omega) ?_ ?_, hb₁.frame a ha hat (fun h => hae (he₁ a h))]
    · intro ha₁
      rcases hb₁.ids a ha₁ with h | h | h
      · exact hat h
      · exact hae (he₁ a h)
      · omega
    · intro ha₂
      rcases he₂ a ha₂ with h | h
      · exact hae h
      · omega
  length := Nat.le_trans hb₁.length hb₂.length

theorem Becomes.alloc (h : Heap) (t : Shared) (c : Container Ref) (hs : Stored h t) (hn : t.ids.Nodup) :
    Becomes h (h ++ [c]) t t [] where
  stored := hs.frame (fun a ha => getElem?_append_left (hs.lt a ha))
  nodup := hn
  ids := fun _ ha => .inl ha
  frame := fun _ ha _ _ => getElem?_append_left ha
  length := by simp

section

variable (id : ℕ) (c : Container Shared) (x : Shared) (rest : List Shared) (hperm : c.members.Perm (x :: rest))
include hperm

theorem nodup_mk :
    (Shared.mk id c).ids.Nodup ↔
      id ∉ x.ids ∧ id ∉ rest.flatMap ids ∧ x.ids.Nodup ∧ (rest.flatMap ids).Nodup ∧
        ∀ a ∈ x.ids, a ∉ rest.flatMap ids := by
  have hp : (c.members.flatMap ids).Perm (x.ids ++ rest.flatMap ids) := by
    simpa using hperm.flatMap_right ids
  rw [ids_mk, nodup_cons, hp.mem_iff, hp.nodup_iff, nodup_append, mem_append, not_or, and_assoc]
  refine and_congr_right
      (fun _ => and_congr_right (fun _ => and_congr_right (fun _ => and_congr_right (fun _ => ?_))))
  exact ⟨fun h a ha hb => h a ha a hb rfl, fun h a ha b hb hab => h a ha (hab ▸ hb)⟩

theorem mem_ids_mk (a : ℕ) : a ∈ (Shared.mk id c).ids ↔ a = id ∨ a ∈ x.ids ∨ a ∈ rest.flatMap ids := by
  have hp : (c.members.flatMap ids).Perm (x.ids ++ rest.flatMap ids) := by
    simpa using hperm.flatMap_right ids
  rw [ids_mk, mem_cons, hp.mem_iff, mem_append]

end

section

variable {h h' : Heap} {id : ℕ} {c : Container Shared} {seg : Seg} {x x' : Shared} {extra : List ℕ}
include h h'

theorem becomes_member (hs : Stored h (Shared.mk id c)) (hn : (Shared.mk id c).ids.Nodup)
    (hx : c.child [] seg = .ok x) (hd : ∀ a ∈ extra, a ∉ (Shared.mk id c).ids) (hstored : Stored h' x')
    (hnodup : x'.ids.Nodup) (hids : ∀ a ∈ x'.ids, a ∈ x.ids ∨ a ∈ extra ∨ h.length ≤ a)
    (hid : h'[id]? = some ((c.put seg x').map ref))
    (hframe : ∀ a < h.length, a ≠ id → a ∉ x.ids → a ∉ extra → h'[a]? = h[a]?) (hlen : h.length ≤ h'.length) :
    Becomes h h' (Shared.mk id c) (Shared.mk id (c.put seg x')) extra := by
  obtain ⟨rest, hperm, hput⟩ := Container.members_child [] seg c x hx
  obtain ⟨-, hm⟩ := (stored_mk_iff h id c).mp hs
  obtain ⟨hidx, hidrest, hxn, hrestn, hdisj⟩ := (nodup_mk id c x rest hperm).mp hn
  have hlt := hs.lt
  have hmem := mem_ids_mk id c x rest hperm
  have hmem' := mem_ids_mk id (c.put seg x') x' rest (hput x')
  have hrestids : ∀ a ∈ rest.flatMap Shared.ids, a < h.length ∧ a ≠ id ∧ a ∉ x.ids ∧ a ∉ extra := by
    intro a ha
    refine ⟨hlt a ((hmem a).mpr (.inr (.inr ha))), ?_, fun hax => hdisj a hax ha, fun hae => ?_⟩
    · rintro rfl
      exact hidrest ha
    · exact hd a hae ((hmem a).mpr (.inr (.inr ha)))
  have hidlt : id < h.length := hlt id ((hmem id).mpr (.inl rfl))
  refine ⟨.mk id _ hid ?_, ?_, ?_, ?_, hlen⟩
  · intro y hy
    rcases mem_cons.mp ((hput x').mem_iff.mp hy) with rfl | hy
    · exact hstored
    · refine (hm y (hperm.mem_iff.mpr (mem_cons_of_mem _ hy))).frame (fun a ha => ?_)
      obtain ⟨h₁, h₂, h₃, h₄⟩ := hrestids a (mem_flatMap.mpr ⟨y, hy, ha⟩)
      exact hframe a h₁ h₂ h₃ h₄
  · refine (nodup_mk id _ x' rest (hput x')).mpr ⟨?_, hidrest, hnodup, hrestn, ?_⟩
    · intro ha
      rcases hids id ha with ha | ha | ha
      · exact hidx ha
      · exact hd id ha ((hmem id).mpr (.inl rfl))
      · omega
    · intro a ha harest
      obtain ⟨h₁, h₂, h₃, h₄⟩ := hrestids a harest
      rcases hids a ha with ha | ha | ha
      · exact h₃ ha
      · exact h₄ ha
      · omega
  · intro a ha
    rcases (hmem' a).mp ha with rfl | ha | ha
    · exact .inl ((hmem a).mpr (.inl rfl))
    · rcases hids a ha with ha | ha
      · exact .inl ((hmem a).mpr (.inr (.inl ha)))
      · exact .inr ha
    · exact .inl ((hmem a).mpr (.inr (.inr ha)))
  · intro a halt ha hae
    rw [hmem, not_or, not_or] at ha
    exact hframe a halt ha.1 ha.2.1 hae

theorem Becomes.member (hb : Becomes h h' x x' extra) (hs : Stored h (Shared.mk id c))
    (hn : (Shared.mk id c).ids.Nodup) (hx : c.child [] seg = .ok x) (hd : ∀ a ∈ extra, a ∉ (Shared.mk id c).ids)
    (href : x'.ref = x.ref) : Becomes h h' (Shared.mk id c) (Shared.mk id (c.put seg x')) extra := by
  obtain ⟨rest, hperm, -⟩ := Container.members_child [] seg c x hx
  have hidx := ((nodup_mk id c x rest hperm).mp hn).1
  have hidlt : id < h.length := hs.lt id (by simp)
  refine becomes_member hs hn hx hd hb.stored hb.nodup hb.ids ?_
      (fun a halt _ hax hae => hb.frame a halt hax hae) hb.length
  rw [hb.frame id hidlt hidx (fun he => hd id he (by simp)), ((stored_mk_iff h id c).mp hs).1, Container.put_map,
      href,
    ← Container.put_map, Container.put_self [] seg c x hx]

end

theorem nodup_child {id : ℕ} {c : Container Shared} {seg : Seg} {x : Shared} (hn : (Shared.mk id c).ids.Nodup)
    (hx : c.child [] seg = .ok x) :
    id ∉ x.ids ∧ x.ids.Nodup ∧ ∀ a ∈ x.ids, a ∈ (Shared.mk id c).ids := by
  obtain ⟨others, hperm, -⟩ := Container.members_child [] seg c x hx
  obtain ⟨hid, -, hxn, -⟩ := (nodup_mk id c x others hperm).mp hn
  exact ⟨hid, hxn, fun a ha => (mem_ids_mk id c x others hperm a).mpr (.inr (.inl ha))⟩

theorem Becomes.walk {h h' : Heap} {s' : Shared} {extra : List ℕ} (hw : Walk t path s put)
    (hb : Becomes h h' s s' extra)
    (hs : Stored h t) (hn : t.ids.Nodup) (hd : ∀ a ∈ extra, a ∉ t.ids) (href : s'.ref = s.ref) :
    Becomes h h' t (put s') extra ∧ (put s').ref = t.ref := by
  induction hw with
  | nil t => exact ⟨hb, href⟩
  | cons id c seg rest x s put hx hw ih =>
    obtain ⟨-, hxn, hsub⟩ := nodup_child hn hx
    obtain ⟨hbx, hrefx⟩ := ih hb (hs.child hx) hxn (fun a ha hax => hd a ha (hsub a hax)) href
    exact ⟨hbx.member hs hn hx hd hrefx, by simp⟩

theorem Walk.nodup (hw : Walk t path s put) (hn : t.ids.Nodup) : s.ids.Nodup ∧ ∀ a ∈ s.ids, a ∈ t.ids := by
  induction hw with
  | nil t => exact ⟨hn, fun _ ha => ha⟩
  | cons id c seg rest x s put hx hw ih =>
    obtain ⟨-, hxn, hmem⟩ := nodup_child hn hx
    obtain ⟨hsn, hsub⟩ := ih hxn
    exact ⟨hsn, fun a ha => hmem a (hsub a ha)⟩

theorem becomes_set {h : Heap} {a : ℕ} {c c' : Container Shared} {new dropped : List Shared}
    (hs : Stored h (Shared.mk a c)) (hn : (Shared.mk a c).ids.Nodup) (hnew : ∀ v ∈ new, Stored h v)
    (hnewn : (new.flatMap ids).Nodup) (hd : ∀ b ∈ new.flatMap ids, b ∉ (Shared.mk a c).ids)
    (hperm : (c.members ++ new).Perm (c'.members ++ dropped)) :
    Becomes h (h.set a (c'.map ref)) (Shared.mk a c) (Shared.mk a c') (new.flatMap ids) := by
  obtain ⟨hc, hm⟩ := (stored_mk_iff h a c).mp hs
  have hp : (c.members.flatMap ids ++ new.flatMap ids).Perm (c'.members.flatMap ids ++ dropped.flatMap ids) := by
    simpa using hperm.flatMap_right ids
  rw [ids_mk] at hn hd
  obtain ⟨hane, hcn⟩ := nodup_cons.mp hn
  have hnodup : (c.members.flatMap ids ++ new.flatMap ids).Nodup := by
    refine nodup_append.mpr ⟨hcn, hnewn, ?_⟩
    rintro b hb _ hb' rfl
    exact hd b hb' (mem_cons_of_mem _ hb)
  have hmem : ∀ b ∈ c'.members.flatMap ids, b ∈ c.members.flatMap ids ∨ b ∈ new.flatMap ids := by
    intro b hb
    exact mem_append.mp (hp.mem_iff.mpr (mem_append_left _ hb))
  have hane' : ∀ b ∈ c'.members.flatMap ids, b ≠ a := by
    rintro b hb rfl
    rcases hmem b hb with hb | hb
    · exact hane hb
    · exact hd b hb (by simp)
  have hidlt : a < h.length := (List.getElem?_eq_some_iff.mp hc).1
  refine ⟨.mk a c' (by simp [hidlt]) ?_, ?_, ?_, ?_, by simp⟩
  · intro x hx
    have hxstored : Stored h x := by
      rcases mem_append.mp (hperm.mem_iff.mpr (mem_append_left _ hx)) with hx | hx
      · exact hm x hx
      · exact hnew x hx
    refine hxstored.frame (fun b hb => getElem?_set_ne ?_)
    exact (hane' b (mem_flatMap.mpr ⟨x, hx, hb⟩)).symm
  · rw [ids_mk]
    refine nodup_cons.mpr ⟨fun ha => hane' a ha rfl, ?_⟩
    exact (nodup_append.mp (hp.nodup_iff.mp hnodup)).1
  · intro b hb
    rw [ids_mk] at hb ⊢
    rcases mem_cons.mp hb with rfl | hb
    · exact .inl (by simp)
    · rcases hmem b hb with hb | hb
      · exact .inl (mem_cons_of_mem _ hb)
      · exact .inr (.inl hb)
  · intro b _ hb _
    rw [ids_mk] at hb
    refine getElem?_set_ne ?_
    rintro rfl
    exact hb (by simp)

end Heap

end PiAgent.Delta
