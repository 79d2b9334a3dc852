import PiAgent.Chord.Delta.Copies

/-! # Immutable replay is replay in place -/

namespace PiAgent.Delta.Heap

open Option List Shared

/-! ## Replay on copies -/

variable {h h' : Heap} {waiting : List Shared}

theorem Becomes.ready {t t' : Shared} {extra : List ℕ} (hb : Becomes h h' t t' extra) (hr : Ready h t waiting)
    (hd : ∀ a ∈ waiting.flatMap Shared.ids, a ∉ extra) : Ready h' t' waiting where
  stored := hb.stored
  nodup := hb.nodup
  waits := by
    intro v hv
    have hsub : ∀ a ∈ v.ids, a ∈ waiting.flatMap Shared.ids := fun a ha => mem_flatMap.mpr ⟨v, hv, ha⟩
    exact (hr.waits v hv).frame (fun a ha =>
      hb.frame a ((hr.waits v hv).lt a ha) (hr.apart a (hsub a ha)) (hd a (hsub a ha)))
  waitsNodup := hr.waitsNodup
  apart := by
    intro a ha hat
    obtain ⟨v, hv, hav⟩ := mem_flatMap.mp ha
    rcases hb.ids a hat with h | h | h
    · exact hr.apart a ha h
    · exact hd a ha h
    · exact absurd ((hr.waits v hv).lt a hav) (by omega)

theorem Refines.after {t t' : Shared} {op : OpOf Shared} {result : Except DeltaError (Heap × Ref)}
    (hb : Becomes h h' t t' []) (hv : t'.value = t.value) (hr : Refines h' t' op result) :
    Refines h t op result := by
  rw [Refines, hv] at hr
  refine ⟨fun w hw => ?_, hr.2⟩
  obtain ⟨h'', t'', hok, hw'', hb'⟩ := hr.1 w hw
  exact ⟨h'', t'', hok, hw'', hb.trans hb' _ (by simp) (fun a ha => .inl ha)⟩

def outcome (result : Except DeltaError (Replay × Ref)) : Except DeltaError (Heap × Ref) :=
  result.map (fun p => (p.1.heap, p.2))

variable (st : Replay) (t : Shared) (path : Path)

theorem copyAndApply_refines (e : EditOf Shared) (hr : Ready st.heap t e.values)
    (hvalid : e.assertValid path = .ok ()) :
    Refines st.heap t (.edit path e)
        (outcome (copyAndApply st t.ref (.edit path (e.map ref)) (e.target path))) := by
  unfold copyAndApply
  by_cases hw : ∃ b cs put, Walk t (e.target path) (Shared.mk b cs) put
  · obtain ⟨b, cs, put, hw⟩ := hw
    obtain ⟨st', t', b', put', hok, hb, hv, -⟩ := copyContainers_spec st t _ b cs put hr.stored hr.nodup hw
    have happ := applyOp_refines st'.heap t' (.edit path e) (hb.ready hr (by simp))
    have hmap : outcome ((applyOp st'.heap t'.ref (.edit path (e.map ref))).map
        (fun p => ({ st' with heap := p.1 }, p.2)))
        = applyOp st'.heap t'.ref (.edit path (e.map ref)) := by
      unfold outcome
      cases applyOp st'.heap t'.ref (.edit path (e.map ref)) <;> rfl
    simp only [hok, hmap]
    exact happ.after hb hv
  · have hno : ∀ b cs put, ¬ Walk t (e.target path) (Shared.mk b cs) put := fun b cs put h => hw ⟨b, cs, put, h⟩
    obtain ⟨err, herr⟩ := copyContainers_nowhere st t _ hr.stored hr.nodup hno
    obtain ⟨err', hfail⟩ := applyOp_nowhere path e t hvalid hno
    simp only [herr]
    exact refines_error err hfail

/-! ## Appends -/

theorem child_deref {t : Shared} {c : Container Ref} (hs : Stored h t) (hd : deref h t.ref = some c) :
    ∃ id cs, t = Shared.mk id cs ∧ c = cs.map ref := by
  rcases eq_prim_or_mk t with ⟨p, rfl⟩ | ⟨id, cs, rfl⟩
  · cases hd
  · rw [ref_mk, deref, ((stored_mk_iff h id cs).mp hs).1] at hd
    exact ⟨id, cs, rfl, (some.inj hd).symm⟩

theorem plainWalk_child {t : Shared} {c : Container Ref} {seg : Seg} {rest : Path} {x r : Ref} (hs : Stored h t)
    (hd : deref h t.ref = some c) (hx : c.child [] seg = .ok x) (hr : plainWalk h rest x = some r)
    (ih : ∀ t, Stored h t → plainWalk h rest t.ref = some r → ∃ s put, Walk t rest s put ∧ s.ref = r) :
    ∃ s put, Walk t (seg :: rest) s put ∧ s.ref = r := by
  obtain ⟨id, cs, rfl, rfl⟩ := child_deref hs hd
  rw [Container.child_map] at hx
  cases hcs : cs.child [] seg with
  | error e =>
    rw [hcs] at hx
    cases hx
  | ok y =>
    rw [hcs] at hx
    obtain rfl := Except.ok.inj hx
    obtain ⟨s, put, hw, hsr⟩ := ih y (hs.child hcs) hr
    exact ⟨s, _, .cons id cs seg rest y s put hcs hw, hsr⟩

theorem plainWalk_walk (h : Heap) (path : Path) (t : Shared) (r : Ref) (hs : Stored h t)
    (hr : plainWalk h path t.ref = some r) : ∃ s put, Walk t path s put ∧ s.ref = r := by
  induction path generalizing t with
  | nil => exact ⟨t, id, .nil t, some.inj hr⟩
  | cons seg rest ih =>
    cases seg with
    | key k =>
      unfold plainWalk at hr
      split at hr
      · rename_i fs hd
        split at hr
        · cases hr
        · obtain ⟨x, hx, hr⟩ := bind_eq_some_iff.mp hr
          exact plainWalk_child hs hd (x := x) (by simp [Container.child, Seg.property, hx]) hr ih
      · cases hr
    | index i =>
      unfold plainWalk at hr
      split at hr
      · rename_i xs hd
        obtain ⟨x, hx, hr⟩ := bind_eq_some_iff.mp hr
        exact plainWalk_child hs hd (x := x) (by simp [Container.child, hx]) hr ih
      · cases hr

theorem appendTarget_spec (index deleteCount : ℕ) (xs : List Ref)
    (hs : Stored st.heap t) (h : appendTarget st t.ref path index deleteCount = some xs) :
    deleteCount = 0 ∧ ∃ a ys put, Walk t path (Shared.mk a (.arr ys)) put ∧ xs = ys.map ref ∧
        index = ys.length := by
  unfold appendTarget at h
  split at h
  · cases h
  · rename_i hcount
    refine ⟨by omega, ?_⟩
    split at h
    · rename_i a hwalk
      obtain ⟨s, put, hw, hsr⟩ := plainWalk_walk st.heap path t _ hs hwalk
      obtain ⟨-, hstored⟩ := hw.resolveValue st.heap [] hs
      split at h
      · rename_i items hitems
        split at h
        · cases h
        · rename_i hnew
          obtain rfl := some.inj h
          have hd : deref st.heap s.ref = some (.arr items) := by
            rw [hsr]
            exact hitems
          obtain ⟨id, cs, rfl, hcs⟩ := child_deref hstored hd
          cases cs with
          | obj fs => cases hcs
          | arr ys =>
            obtain rfl : items = ys.map ref := Container.arr.inj hcs
            refine ⟨id, ys, put, hw, rfl, ?_⟩
            simp only [not_or, not_not, length_map] at hnew
            exact hnew.2
      · cases h
    · cases h

theorem splice_append {α : Type} (xs items : List α) : splice xs xs.length 0 items = xs ++ items := by
  simp [splice]

theorem appended_tree {a fresh : ℕ} {ys items : List Shared} (hys : ∀ y ∈ ys, Stored h' y)
    (hyn : (Shared.mk a (.arr ys)).ids.Nodup) (hitems : ∀ y ∈ items, Stored h' y) (hin : (items.flatMap ids).Nodup)
    (hapart : ∀ b ∈ items.flatMap ids, b ∉ (Shared.mk a (.arr ys)).ids)
    (hlt : ∀ b ∈ (Shared.mk a (.arr ys)).ids, b < fresh) (hilt : ∀ b ∈ items.flatMap ids, b < fresh)
    (hget : h'[fresh]? = some (.arr ((ys ++ items).map ref))) :
    Stored h' (Shared.mk fresh (.arr (ys ++ items))) ∧ (Shared.mk fresh (.arr (ys ++ items))).ids.Nodup ∧
      ∀ b ∈ (Shared.mk fresh (.arr (ys ++ items))).ids,
        b ∈ (Shared.mk a (.arr ys)).ids ∨ b ∈ fresh :: items.flatMap ids := by
  rw [ids_mk, Container.members] at hyn hapart hlt
  rw [ids_mk, ids_mk, Container.members, Container.members, flatMap_append]
  refine ⟨.mk fresh (.arr (ys ++ items)) hget ?_, ?_, ?_⟩
  · intro y hy
    rcases mem_append.mp hy with hy | hy
    · exact hys y hy
    · exact hitems y hy
  · refine nodup_cons.mpr ⟨fun hf => ?_, nodup_append.mpr ⟨(nodup_cons.mp hyn).2, hin, ?_⟩⟩
    · rcases mem_append.mp hf with hf | hf
      · exact Nat.lt_irrefl _ (hlt fresh (mem_cons_of_mem _ hf))
      · exact Nat.lt_irrefl _ (hilt fresh hf)
    · rintro b hb _ hb' rfl
      exact hapart b hb' (mem_cons_of_mem _ hb)
  · intro b hb
    rcases mem_cons.mp hb with rfl | hb
    · exact .inr (by simp)
    · rcases mem_append.mp hb with hb | hb
      · exact .inl (mem_cons_of_mem _ hb)
      · exact .inr (mem_cons_of_mem _ hb)

theorem applyOp_append (ys items : List Shared) (a : ℕ) (put : Shared → Shared)
    (hvalid : (EditOf.p ys.length 0 items).assertValid path = .ok ()) (hw : Walk t path (Shared.mk a (.arr ys)) put)
    (fresh : ℕ) :
    Delta.applyOp t.value (jsonOp (.edit path (.p ys.length 0 items)))
      = .ok (put (Shared.mk fresh (.arr (ys ++ items)))).value := by
  have hchange : (EditOf.p ys.length 0 items).change path (.arr ys) = .ok (.arr (ys ++ items)) := by
    change Except.ok (Container.arr (insertChunks chunkSize (splice ys ys.length 0 []) ys.length items)) = _
    rw [insertChunks_splice, splice_append]
  rw [(applyOp_at path _ t hvalid put a (.arr ys) hw).1 _ hchange]
  refine congrArg Except.ok (hw.put_value _ _ ?_)
  rw [value_mk, value_mk]

theorem appendCopy_refines (ys items : List Shared) (a : ℕ) (put : Shared → Shared)
    (hr : Ready st.heap t items) (hvalid : (EditOf.p ys.length 0 items).assertValid path = .ok ())
    (hw : Walk t path (Shared.mk a (.arr ys)) put) :
    Refines st.heap t (.edit path (.p ys.length 0 items))
      (outcome (appendCopy st t.ref path (ys.map ref) (items.map ref))) := by
  have happ := applyOp_append t path ys items a put hvalid hw st.heap.length
  have halloc := Becomes.alloc st.heap t (.arr (ys.map ref ++ items.map ref)) hr.stored hr.nodup
  have hr₁ := halloc.ready hr (by simp)
  have hilt : ∀ b ∈ items.flatMap ids, b < st.heap.length := by
    intro b hb
    obtain ⟨v, hv, hbv⟩ := mem_flatMap.mp hb
    exact (hr.waits v hv).lt b hbv
  obtain ⟨hsn, hsub⟩ := hw.nodup hr.nodup
  have hslt : ∀ b ∈ (Shared.mk a (.arr ys)).ids, b < st.heap.length := fun b hb => hr.stored.lt b (hsub b hb)
  have hget : (st.heap ++ [.arr (ys.map ref ++ items.map ref)])[st.heap.length]? =
      some (.arr ((ys ++ items).map ref)) := by
    rw [getElem?_concat_length, map_append]
  unfold appendCopy
  simp only [Replay.alloc]
  cases hkey : path.getLast? with
  | none =>
    obtain rfl : path = [] := getLast?_eq_none_iff.mp hkey
    cases hw
    have hys := ((stored_mk_iff _ a (.arr ys)).mp hr₁.stored).2
    obtain ⟨hstored, hnodup, hids⟩ := appended_tree hys hsn hr₁.waits hr.waitsNodup hr.apart hslt hilt hget
    refine refines_ok happ rfl
        ⟨hstored, hnodup, fun b hb => ?_, fun b hb _ _ => halloc.frame b hb ?_ (by simp), halloc.length⟩
    · rcases hids b hb with hb | hb
      · exact .inl hb
      · rcases mem_cons.mp hb with rfl | hb
        · exact .inr (.inr (Nat.le_refl _))
        · exact .inr (.inl hb)
    · assumption
  | some key =>
    obtain ⟨pre, rfl⟩ : ∃ pre, path = pre ++ [key] := by
      have hne : path ≠ [] := by
        rintro rfl
        cases hkey
      exact ⟨path.dropLast, by rw [← dropLast_append_getLast? key hkey, dropLast_concat]⟩
    rw [dropLast_concat]
    obtain ⟨b, cs, put₁, hw₁, hchild⟩ := hw.concat_inv
    obtain ⟨st₂, t₂, b₂, put₂, hok, hb₂, hv₂, hw₂⟩ := copyContainers_spec
      { heap := st.heap ++ [.arr (ys.map ref ++ items.map ref)]
        owned := st.heap.length :: st.owned } t pre b cs put₁
      halloc.stored hr.nodup hw₁
    have hr₂ := hb₂.ready hr₁ (by simp)
    obtain ⟨hres, hget₂⟩ := resolve_walk st₂.heap t₂ pre b₂ cs put₂ hb₂.stored hw₂
    simp only [hok, hres, hget₂]
    have hfresh : st.heap.length ∉ t₂.ids := by
      intro h
      rcases hb₂.ids _ h with h | h | h
      · exact Nat.lt_irrefl _ (hr.stored.lt _ h)
      · simp at h
      · simp at h
    obtain ⟨hpn, hpsub⟩ := hw₂.nodup hb₂.nodup
    have hpstored := (hw₂.resolveValue st₂.heap [] hb₂.stored).2
    have hsstored := hpstored.child hchild
    have hb₂s : b₂ ∉ (Shared.mk a (.arr ys)).ids := (nodup_child hpn hchild).1
    have hb₂t : b₂ ∈ t₂.ids := hpsub b₂ (by simp)
    have hkeep : ∀ i, i ≠ b₂ →
        (st₂.heap.set b₂ ((cs.map ref).put key (.addr st.heap.length)))[i]? = st₂.heap[i]? :=
      fun i hi => getElem?_set_ne hi.symm
    have hys : ∀ y ∈ ys, Stored (st₂.heap.set b₂ ((cs.map ref).put key (.addr st.heap.length))) y := by
      intro y hy
      refine (((stored_mk_iff _ a (.arr ys)).mp hsstored).2 y hy).frame (fun i hi => hkeep i ?_)
      rintro rfl
      exact hb₂s (by rw [ids_mk]; exact mem_cons_of_mem _ (mem_flatMap.mpr ⟨y, hy, hi⟩))
    have hitems : ∀ y ∈ items, Stored (st₂.heap.set b₂ ((cs.map ref).put key (.addr st.heap.length))) y := by
      intro y hy
      refine (hr₂.waits y hy).frame (fun i hi => hkeep i ?_)
      rintro rfl
      exact hr₂.apart i (mem_flatMap.mpr ⟨y, hy, hi⟩) hb₂t
    have hgetFresh : (st₂.heap.set b₂ ((cs.map ref).put key (.addr st.heap.length)))[st.heap.length]?
        = some (.arr ((ys ++ items).map ref)) := by
      rw [hkeep st.heap.length (fun h => hfresh (h ▸ hb₂t)), hb₂.frame _ (by simp)
          (fun h => Nat.lt_irrefl _ (hr.stored.lt _ h)) (by simp)]
      exact hget
    obtain ⟨hstored, hnodup, hids⟩ := appended_tree hys hsn hitems hr.waitsNodup
      (fun i hi h => hr.apart i hi (hsub i h)) hslt hilt hgetFresh
    have hextra : ∀ i ∈ st.heap.length :: items.flatMap ids, i ∉ t₂.ids := by
      intro i hi h
      rcases mem_cons.mp hi with rfl | hi
      · exact hfresh h
      · exact hr₂.apart i hi h
    have hput := becomes_member hpstored hpn hchild (fun i hi h => hextra i hi (hpsub i h)) hstored hnodup
      (fun i hi => (hids i hi).imp_right .inl)
      (by rw [getElem?_set_self (hpstored.lt b₂ (by simp)), Container.put_map, ref_mk])
      (fun i _ hi _ _ => hkeep i hi) (by simp)
    obtain ⟨hfinal, href⟩ := hput.walk hw₂ hb₂.stored hb₂.nodup hextra (by simp)
    have happ₂ := applyOp_append t₂ (pre ++ [key]) ys items a _ hvalid (hw₂.concat hchild) st.heap.length
    rw [hv₂] at happ₂
    refine refines_ok happ₂ href.symm ?_
    refine (halloc.trans hb₂ [] (by simp) (by simp)).trans hfinal _ (by simp) ?_
    intro i hi
    rcases mem_cons.mp hi with rfl | hi
    · exact .inr (Nat.le_refl _)
    · exact .inl hi

theorem replayOp_refines (op : OpOf Shared) (hr : Ready st.heap t op.values) :
    Refines st.heap t op (outcome (replayOp st t.ref (op.map ref))) := by
  cases op with
  | r v => exact refines_r st.heap t v hr
  | edit path e =>
    have hmap : ((OpOf.edit path e).map ref).assertValid = e.assertValid path := assertValid_map ref path e
    unfold replayOp
    cases hvalid : e.assertValid path with
    | error err =>
      rw [hmap, hvalid]
      exact refines_error err (applyOp_invalid t.value path e err hvalid)
    | ok u =>
      rw [hmap, hvalid]
      have hcopy := copyAndApply_refines st t path e hr hvalid
      rw [← target_map ref] at hcopy
      cases e with
      | p index remove items =>
        simp only [OpOf.map, EditOf.map]
        split
        · rename_i xs hxs
          obtain ⟨rfl, a, ys, put, hw, rfl, rfl⟩ := appendTarget_spec st t path index remove xs hr.stored hxs
          exact appendCopy_refines st t path ys items a put hr hvalid hw
        · exact hcopy
      | _ => exact hcopy

/-! ## Runs -/

def RefinesAll (t : Shared) (ops : List (OpOf Shared)) (waiting : List Shared)
    (result : Except DeltaError (Heap × Ref)) :
    Prop :=
  (∀ w, Delta.apply t.value (ops.map jsonOp) = .ok w →
    ∃ h' t', result = .ok (h', t'.ref) ∧ t'.value = w ∧ Ready h' t' waiting) ∧
  ∀ e, Delta.apply t.value (ops.map jsonOp) = .error e → ∃ e, result = .error e

theorem Ready.split {t : Shared} {vs : List Shared} (hr : Ready h t (vs ++ waiting)) :
    Ready h t vs ∧ Ready h t waiting ∧ ∀ a ∈ waiting.flatMap ids, a ∉ vs.flatMap ids := by
  obtain ⟨hs, hn, hw, hwn, hap⟩ := hr
  rw [flatMap_append] at hwn hap
  obtain ⟨hvn, hrest, hdisj⟩ := nodup_append.mp hwn
  refine ⟨⟨hs, hn, fun v hv => hw v (mem_append_left _ hv), hvn, fun a ha => hap a (mem_append_left _ ha)⟩,
    ⟨hs, hn, fun v hv => hw v (mem_append_right _ hv), hrest, fun a ha => hap a (mem_append_right _ ha)⟩,
        ?_⟩
  exact fun a ha hb => hdisj a hb a ha rfl

theorem runOps_refines {σ : Type} (heap : σ → Heap) (step : σ → Ref → OpOf Ref → Except DeltaError (σ × Ref))
    (hstep : ∀ st t op, Ready (heap st) t op.values →
      Refines (heap st) t op ((step st t.ref (op.map ref)).map (fun p => (heap p.1, p.2))))
    (ops : List (OpOf Shared)) (waiting : List Shared) (st : σ) (t : Shared)
    (hr : Ready (heap st) t (ops.flatMap OpOf.values ++ waiting)) :
    RefinesAll t ops waiting ((runOps step st t.ref (ops.map (OpOf.map ref))).map (fun p => (heap p.1, p.2))) := by
  induction ops generalizing st t with
  | nil =>
    refine ⟨fun w hw => ⟨heap st, t, rfl, Except.ok.inj hw, hr⟩, fun e he => by cases he⟩
  | cons op ops ih =>
    rw [flatMap_cons, append_assoc] at hr
    obtain ⟨hrop, hrrest, hdisj⟩ := hr.split
    obtain ⟨hok, herr⟩ := hstep st t op hrop
    simp only [map_cons, runOps, RefinesAll]
    cases happ : Delta.applyOp t.value (jsonOp op) with
    | error e =>
      obtain ⟨e', he'⟩ := herr e happ
      have hfail : Delta.apply t.value (jsonOp op :: ops.map jsonOp) = .error e := by
        simp [Delta.apply, happ, bind, Except.bind]
      rw [hfail]
      refine ⟨fun w hw => by simp at hw, fun _ _ => ?_⟩
      cases hs : step st t.ref (op.map ref) with
      | error e => exact ⟨e, rfl⟩
      | ok p =>
        rw [hs] at he'
        cases he'
    | ok w₁ =>
      obtain ⟨h', t', hres, hv, hb⟩ := hok w₁ happ
      rw [Delta.apply_cons _ _ _ _ happ, ← hv]
      cases hs : step st t.ref (op.map ref) with
      | error e =>
        rw [hs] at hres
        cases hres
      | ok p =>
        obtain ⟨st', r'⟩ := p
        rw [hs] at hres
        obtain ⟨rfl, rfl⟩ := Prod.mk.inj (Except.ok.inj hres)
        exact ih st' t' (hb.ready hrrest hdisj)

theorem applyOps_refines (h : Heap) (t : Shared) (ops : List (OpOf Shared)) (waiting : List Shared)
    (hr : Ready h t (ops.flatMap OpOf.values ++ waiting)) :
    RefinesAll t ops waiting (applyOps h t.ref (ops.map (OpOf.map ref))) := by
  have := runOps_refines id applyOp (fun st t op hr => by
    have := applyOp_refines st t op hr
    cases hs : applyOp st t.ref (op.map ref) <;> rw [hs] at this <;> exact this) ops waiting h t hr
  unfold applyOps
  cases hs : runOps applyOp h t.ref (ops.map (OpOf.map ref)) <;> rw [hs] at this <;> exact this

theorem replayBatches_flatten (root : Ref) (batches : List (List (OpOf Ref))) :
    replayBatches st root batches = runOps replayOp st root batches.flatten := by
  have happend : ∀ (ops rest : List (OpOf Ref)) (st : Replay) (root : Ref), runOps replayOp st root (ops ++ rest) =
      (runOps replayOp st root ops).bind (fun p => runOps replayOp p.1 p.2 rest) := by
    intro ops rest
    induction ops with
    | nil => intro st root; rfl
    | cons op ops ih =>
      intro st root
      simp only [cons_append, runOps]
      cases replayOp st root op with
      | error e => rfl
      | ok p => exact ih p.1 p.2
  induction batches generalizing st root with
  | nil => rfl
  | cons ops batches ih =>
    rw [flatten_cons, happend, replayBatches]
    cases runOps replayOp st root ops with
    | error e => rfl
    | ok p => exact ih p.1 p.2

theorem applyImmutableBatches_refines (h : Heap) (t : Shared) (batches : List (List (OpOf Shared)))
    (waiting : List Shared)
    (hr : Ready h t (batches.flatten.flatMap OpOf.values ++ waiting)) :
    RefinesAll t batches.flatten waiting
        (applyImmutableBatches h t.ref (batches.map (List.map (OpOf.map ref)))) := by
  have := runOps_refines Replay.heap replayOp replayOp_refines batches.flatten waiting
      { heap := h, owned := [] } t hr
  unfold applyImmutableBatches
  rw [replayBatches_flatten, ← map_flatten]
  exact this

theorem apply_append_error (root : JsonValue) (ops rest : List Op) (e : DeltaError)
    (h : Delta.apply root ops = .error e) :
    Delta.apply root (ops ++ rest) = .error e := by
  induction ops generalizing root with
  | nil => cases h
  | cons op ops ih =>
    simp only [cons_append, Delta.apply] at h ⊢
    cases hop : Delta.applyOp root op with
    | error e' =>
      rw [hop] at h
      exact h
    | ok root' =>
      rw [hop] at h
      exact ih root' h

theorem applyEach_refines (h : Heap) (t : Shared) (batches : List (List (OpOf Shared))) (waiting : List Shared)
    (hr : Ready h t (batches.flatten.flatMap OpOf.values ++ waiting)) :
    RefinesAll t batches.flatten waiting (applyEach h t.ref (batches.map (List.map (OpOf.map ref)))) := by
  induction batches generalizing h t with
  | nil => exact ⟨fun w hw => ⟨h, t, rfl, Except.ok.inj hw, hr⟩, fun e he => by cases he⟩
  | cons ops batches ih =>
    rw [flatten_cons, flatMap_append, append_assoc] at hr
    obtain ⟨hok, herr⟩ := applyImmutableBatches_refines h t [ops] (batches.flatten.flatMap OpOf.values ++ waiting)
      (by simpa using hr)
    simp only [flatten_cons, flatten_nil, append_nil, map_cons, map_nil] at hok herr
    unfold RefinesAll
    simp only [map_cons, flatten_cons, map_append, applyEach, applyImmutable]
    cases happ : Delta.apply t.value (ops.map jsonOp) with
    | error e =>
      obtain ⟨e', he'⟩ := herr e happ
      rw [apply_append_error _ _ _ e happ, he']
      exact ⟨fun w hw => (by cases hw), fun _ _ => ⟨e', rfl⟩⟩
    | ok w₁ =>
      obtain ⟨h', t', hres, hv, hready⟩ := hok w₁ happ
      rw [Delta.apply_append _ _ _ _ happ, ← hv, hres]
      exact ih h' t' hready

/-! ## The result -/

def Reads (h : Heap) (r : Ref) (w : JsonValue) : Prop := ∃ t, Stored h t ∧ t.ref = r ∧ t.value = w

def Gives (result : Except DeltaError (Heap × Ref)) (w : JsonValue) : Prop :=
  ∃ h r, result = .ok (h, r) ∧ Reads h r w

theorem map_eq_of_map_eq {α β γ : Type} (r : α → β) (v : α → γ) (xs ys : List α)
    (h : ∀ x ∈ xs, ∀ y ∈ ys, r x = r y → v x = v y) (hr : xs.map r = ys.map r) : xs.map v = ys.map v := by
  induction xs generalizing ys with
  | nil =>
    obtain rfl : ys = [] := by simpa using hr.symm
    rfl
  | cons x xs ih =>
    cases ys with
    | nil => cases hr
    | cons y ys =>
      obtain ⟨hxy, hrest⟩ := List.cons.inj hr
      rw [map_cons, map_cons, h x (by simp) y (by simp) hxy,
        ih ys (fun x hx y hy => h x (mem_cons_of_mem _ hx) y (mem_cons_of_mem _ hy)) hrest]

theorem members_unique {c c' : Container Shared}
    (ih : ∀ x ∈ c.members, ∀ y, Stored h y → x.ref = y.ref → x.value = y.value) (hs : ∀ y ∈ c'.members, Stored h y)
    (href : c.map ref = c'.map ref) : c.map value = c'.map value := by
  cases c with
  | arr xs =>
    cases c' with
    | obj gs => cases href
    | arr ys =>
      exact congrArg Container.arr
        (map_eq_of_map_eq ref value xs ys (fun x hx y hy => ih x hx y (hs y hy)) (Container.arr.inj href))
  | obj fs =>
    cases c' with
    | arr ys => cases href
    | obj gs =>
      refine congrArg Container.obj (map_eq_of_map_eq _ _ fs gs (fun p hp q hq hpq => ?_) (Container.obj.inj href))
      obtain ⟨hkey, hval⟩ := Prod.mk.inj hpq
      rw [hkey, ih p.2 (mem_map_of_mem hp) q.2 (hs q.2 (mem_map_of_mem hq)) hval]

theorem Stored.value_unique {t t' : Shared} (hs : Stored h t) (hs' : Stored h t') (href : t.ref = t'.ref) :
    t.value = t'.value := by
  induction hs generalizing t' with
  | prim p =>
    rcases eq_prim_or_mk t' with ⟨q, rfl⟩ | ⟨id', c', rfl⟩
    · obtain rfl : p = q := by simpa [ref] using href
      rfl
    · rw [ref_mk] at href
      cases href
  | mk id c hc hm ih =>
    rcases eq_prim_or_mk t' with ⟨q, rfl⟩ | ⟨id', c', rfl⟩
    · rw [ref_mk] at href
      cases href
    · obtain rfl : id = id' := by simpa using href
      obtain ⟨hc', hm'⟩ := (stored_mk_iff h id c').mp hs'
      rw [hc] at hc'
      rw [value_mk, value_mk, members_unique (fun x hx y hy hxy => ih x hx hy hxy) hm' (some.inj hc')]

theorem RefinesAll.gives {t : Shared} {ops : List (OpOf Shared)} {result : Except DeltaError (Heap × Ref)}
    (h : RefinesAll t ops waiting result) (w : JsonValue) :
    Gives result w ↔ Delta.apply t.value (ops.map jsonOp) = .ok w := by
  constructor
  · rintro ⟨h', r, hres, t', hs, href, hv⟩
    cases happ : Delta.apply t.value (ops.map jsonOp) with
    | error e =>
      obtain ⟨e', he'⟩ := h.2 e happ
      rw [hres] at he'
      cases he'
    | ok w' =>
      obtain ⟨h₁, t₁, hres₁, hv₁, hready⟩ := h.1 w' happ
      rw [hres] at hres₁
      obtain ⟨rfl, rfl⟩ := Prod.mk.inj (Except.ok.inj hres₁)
      rw [← hv₁, ← hv, hs.value_unique hready.stored href]
  · intro happ
    obtain ⟨h', t', hres, hv, hready⟩ := h.1 w happ
    exact ⟨h', t'.ref, hres, t', hready.stored, rfl, hv⟩

/-- Replay of all batches on copies, batch by batch on copies, and in place on a private deep copy: the same
outcome. -/
theorem immutable_replay (h h' : Heap) (t t' : Shared) (batches : List (List (OpOf Shared)))
    (ops' : List (OpOf Shared))
    (hr : Ready h t (batches.flatten.flatMap OpOf.values)) (hcopy : Ready h' t' (ops'.flatMap OpOf.values))
    (hv : t'.value = t.value) (hops : ops'.map jsonOp = batches.flatten.map jsonOp) (w : JsonValue) :
    (Gives (applyImmutableBatches h t.ref (batches.map (List.map (OpOf.map ref)))) w ↔
        Gives (applyOps h' t'.ref (ops'.map (OpOf.map ref))) w) ∧
      (Gives (applyEach h t.ref (batches.map (List.map (OpOf.map ref)))) w ↔
        Gives (applyOps h' t'.ref (ops'.map (OpOf.map ref))) w) ∧
      (Gives (applyOps h' t'.ref (ops'.map (OpOf.map ref))) w ↔
        Delta.apply t.value (batches.flatten.map jsonOp) = .ok w) := by
  have hplace := (applyOps_refines h' t' ops' [] (by simpa using hcopy)).gives w
  rw [hv, hops] at hplace
  have hbatches := (applyImmutableBatches_refines h t batches [] (by simpa using hr)).gives w
  have heach := (applyEach_refines h t batches [] (by simpa using hr)).gives w
  exact ⟨hbatches.trans hplace.symm, heach.trans hplace.symm, hplace⟩

def sampleTree : Shared := Shared.mk 0 (.obj [(js "0", Shared.mk 1 (.arr []))])

def sampleHeap : Heap := [.obj [(js "0", .addr 1)], .arr []]

def sampleBatches : List (List (OpOf Shared)) :=
  [[.edit [.index 0] (.p 0 0 [.prim (.num 1)])],
      [.edit [.key (js "0")] (.p 1 0 [.prim (.num 2)]), .edit [.key (js "1")] .d]]

theorem ready_sample : Ready sampleHeap sampleTree (sampleBatches.flatten.flatMap OpOf.values) := by
  refine ⟨.mk 0 _ rfl ?_, by decide, ?_, by decide, by decide⟩
  · intro x hx
    obtain rfl := mem_singleton.mp hx
    have hmembers : ∀ x ∈ (Container.arr ([] : List Shared)).members, Stored sampleHeap x := by simp
        [Container.members]
    exact .mk 1 (.arr []) rfl hmembers
  · intro v hv
    have hv : v = .prim (.num 1) ∨ v = .prim (.num 2) := by simpa
        [sampleBatches, OpOf.values, EditOf.values] using hv
    rcases hv with rfl | rfl <;> exact .prim _

theorem immutable_replay_sample :
    Gives (applyImmutableBatches sampleHeap sampleTree.ref (sampleBatches.map (List.map (OpOf.map ref))))
      (.obj [(js "0", .arr [.num 1, .num 2])]) :=
  have h := immutable_replay sampleHeap sampleHeap sampleTree sampleTree sampleBatches sampleBatches.flatten ready_sample
    ready_sample rfl rfl (.obj [(js "0", .arr [.num 1, .num 2])])
  h.1.mpr (h.2.2.mpr rfl)

end PiAgent.Delta.Heap
