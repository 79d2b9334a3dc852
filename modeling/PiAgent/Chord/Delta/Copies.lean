import PiAgent.Chord.Delta.InPlace

/-! # Copies along a path -/

namespace PiAgent.Delta.Heap

open List Shared

theorem child_ref {c : Container Shared} {seg : Seg} {x : Shared} (full : Path) (hx : c.child [] seg = .ok x) :
    (c.map ref).child full seg = .ok x.ref ∧ (c.map ref).hasOwn seg = true := by
  have hchild := child_mapped ref full seg c x hx
  exact ⟨hchild, Container.hasOwn_of_child full seg _ _ hchild⟩

theorem becomes_copy {h : Heap} {id ix : ℕ} {c cx : Container Shared} {seg : Seg} (hs : Stored h (Shared.mk id c))
    (hn : (Shared.mk id c).ids.Nodup) (hx : c.child [] seg = .ok (Shared.mk ix cx)) :
    Becomes h ((h ++ [cx.map ref]).set id ((c.map ref).put seg (.addr h.length))) (Shared.mk id c)
        (Shared.mk id (c.put seg (Shared.mk h.length cx))) [] ∧
      (Shared.mk id (c.put seg (Shared.mk h.length cx))).value = (Shared.mk id c).value := by
  have hc := ((stored_mk_iff h id c).mp hs).1
  have hxs := (stored_mk_iff h ix cx).mp (hs.child hx)
  obtain ⟨hidx, hxn, -⟩ := nodup_child hn hx
  have hidlt : id < h.length := (List.getElem?_eq_some_iff.mp hc).1
  have hsub : ∀ a ∈ cx.members.flatMap ids, a ∈ (Shared.mk ix cx).ids := fun a ha => by
    rw [ids_mk]
    exact mem_cons_of_mem _ ha
  have hlt : ∀ a ∈ cx.members.flatMap ids, a < h.length := fun a ha =>
    (hs.child hx).lt a (hsub a ha)
  have hkeep : ∀ a < h.length, a ≠ id →
      ((h ++ [cx.map ref]).set id ((c.map ref).put seg (.addr h.length)))[a]? = h[a]? := by
    intro a ha hne
    rw [getElem?_set_ne hne.symm, getElem?_append_left ha]
  refine ⟨becomes_member hs hn hx (by simp) (.mk h.length cx ?_ ?_) ?_ ?_ ?_ (fun a ha hne _ _ => hkeep a ha hne)
      (by simp), ?_⟩
  · rw [getElem?_set_ne (Nat.ne_of_lt hidlt), getElem?_concat_length]
  · intro y hy
    refine (hxs.2 y hy).frame (fun a ha => hkeep a (hlt a (mem_flatMap.mpr ⟨y, hy, ha⟩)) ?_)
    rintro rfl
    exact hidx (hsub a (mem_flatMap.mpr ⟨y, hy, ha⟩))
  · rw [ids_mk] at hxn ⊢
    exact nodup_cons.mpr ⟨fun ha => Nat.lt_irrefl _ (hlt _ ha), (nodup_cons.mp hxn).2⟩
  · intro a ha
    rw [ids_mk] at ha
    rcases mem_cons.mp ha with rfl | ha
    · exact .inr (.inr (Nat.le_refl _))
    · exact .inl (hsub a ha)
  · rw [getElem?_set_self (by simp; omega), Container.put_map, ref_mk]
  · have hvalue : (c.map value).child [] seg = .ok (Shared.mk ix cx).value := by
      rw [Container.child_map, hx]
      rfl
    have hsame : (Shared.mk h.length cx).value = (Shared.mk ix cx).value := by rw [value_mk, value_mk]
    rw [value_mk, value_mk, Container.put_map, hsame, Container.put_self [] seg _ _ hvalue]

theorem put_value {id : ℕ} {c : Container Shared} {seg : Seg} {x x' : Shared} (hx : c.child [] seg = .ok x)
    (hv : x'.value = x.value) : (Shared.mk id (c.put seg x')).value = (Shared.mk id c).value := by
  have hvalue : (c.map value).child [] seg = .ok x.value := by
    rw [Container.child_map, hx]
    rfl
  rw [value_mk, value_mk, Container.put_map, hv, Container.put_self [] seg _ _ hvalue]

theorem copyWalk_spec (full path : Path) (st : Replay) (id b : ℕ) (c cs : Container Shared) (put : Shared → Shared)
    (hs : Stored st.heap (Shared.mk id c)) (hn : (Shared.mk id c).ids.Nodup)
    (hw : Walk (Shared.mk id c) path (Shared.mk b cs) put) :
    ∃ st' c' b' put', copyWalk full path st id = .ok st' ∧
      Becomes st.heap st'.heap (Shared.mk id c) (Shared.mk id c') [] ∧
      (Shared.mk id c').value = (Shared.mk id c).value ∧ Walk (Shared.mk id c') path (Shared.mk b' cs) put' := by
  induction path generalizing st id b c put with
  | nil => exact ⟨st, c, b, put, rfl, Becomes.refl _ _ hs hn, rfl, hw⟩
  | cons seg rest ih =>
    obtain ⟨x, put₁, hx, hw⟩ := hw.cons_inv
    obtain ⟨ix, cx, rfl⟩ := hw.of_container
    have hc := ((stored_mk_iff st.heap id c).mp hs).1
    have hxs := hs.child hx
    have hxn := (nodup_child hn hx).2.1
    obtain ⟨hchild, hown⟩ := child_ref full hx
    rw [ref_mk] at hchild
    unfold copyWalk
    simp only [hc, hown, Bool.not_true, Bool.false_eq_true, if_false, hchild]
    split
    · obtain ⟨st', c', b', put', hok, hb, hv, hw'⟩ := ih st ix b cx put₁ hxs hxn hw
      exact ⟨st', _, b', _, hok, hb.member hs hn hx (by simp) (by simp), put_value hx hv,
        .cons id _ seg rest _ _ put' (Container.child_put [] seg c _ _ hx) hw'⟩
    · simp only [((stored_mk_iff st.heap ix cx).mp hxs).1, Replay.alloc]
      obtain ⟨hcopy, hvcopy⟩ := becomes_copy hs hn hx
      obtain ⟨b₁, put₂, hw₁⟩ := hw.relabel st.heap.length
      have hx₁ := Container.child_put [] seg c _ (Shared.mk st.heap.length cx) hx
      have hs₁ := hcopy.stored.child hx₁
      have hn₁ := (nodup_child hcopy.nodup hx₁).2.1
      obtain ⟨st', c', b', put', hok, hb, hv, hw'⟩ := ih
        { heap := (st.heap ++ [cx.map ref]).set id ((c.map ref).put seg (.addr st.heap.length)),
          owned := st.heap.length :: st.owned } st.heap.length b₁ cx put₂ hs₁ hn₁ hw₁
      have hb' := hb.member hcopy.stored hcopy.nodup hx₁ (by simp) (by simp)
      have hwalk := Walk.cons id _ seg rest _ _ put'
          (Container.child_put [] seg _ _ (Shared.mk st.heap.length c') hx₁) hw'
      exact ⟨st', _, b', _, hok, hcopy.trans hb' [] (by simp) (by simp), (put_value hx₁ hv).trans hvcopy, hwalk⟩

theorem copyWalk_nowhere (full path : Path) (st : Replay) (id : ℕ) (c : Container Shared)
    (hs : Stored st.heap (Shared.mk id c)) (hn : (Shared.mk id c).ids.Nodup)
    (hno : ∀ b cs put, ¬ Walk (Shared.mk id c) path (Shared.mk b cs) put) : ∃ e,
        copyWalk full path st id = .error e := by
  induction path generalizing st id c with
  | nil => exact absurd (.nil _) (hno id c _)
  | cons seg rest ih =>
    have hc := ((stored_mk_iff st.heap id c).mp hs).1
    unfold copyWalk
    simp only [hc]
    split
    · exact ⟨_, rfl⟩
    · cases hx : c.child [] seg with
      | error e =>
        cases hfull : (c.map ref).child full seg with
        | error e => exact ⟨e, rfl⟩
        | ok r =>
          have := Container.child_full full [] seg _ r hfull
          rw [Container.child_map, hx] at this
          cases this
      | ok x =>
        have hnox : ∀ b cs put, ¬ Walk x rest (Shared.mk b cs) put :=
          fun b cs put hw => hno b cs _ (.cons id c seg rest x _ put hx hw)
        obtain ⟨hchild, -⟩ := child_ref full hx
        rw [hchild]
        have hxs := hs.child hx
        have hxn := (nodup_child hn hx).2.1
        rcases eq_prim_or_mk x with ⟨p, rfl⟩ | ⟨ix, cx, rfl⟩
        · exact ⟨_, rfl⟩
        · simp only [ref_mk]
          split
          · exact ih st ix cx hxs hxn hnox
          · simp only [((stored_mk_iff st.heap ix cx).mp hxs).1, Replay.alloc]
            obtain ⟨hcopy, -⟩ := becomes_copy hs hn hx
            have hx₁ := Container.child_put [] seg c _ (Shared.mk st.heap.length cx) hx
            refine ih _ st.heap.length cx (hcopy.stored.child hx₁) (nodup_child hcopy.nodup hx₁).2.1 (fun b cs put hw => ?_)
            obtain ⟨b', put', hw'⟩ := hw.relabel ix
            exact hnox b' cs put' hw'

theorem becomes_root {h : Heap} {id : ℕ} {c : Container Shared} (hs : Stored h (Shared.mk id c))
    (hn : (Shared.mk id c).ids.Nodup) : Becomes h (h ++ [c.map ref]) (Shared.mk id c) (Shared.mk h.length c)
        [] := by
  have halloc := Becomes.alloc h _ (c.map ref) hs hn
  have hlt : ∀ a ∈ c.members.flatMap ids, a < h.length := fun a ha => hs.lt a (by rw [ids_mk]; simp [ha])
  have hm := ((stored_mk_iff _ id c).mp halloc.stored).2
  refine ⟨.mk _ c getElem?_concat_length hm, ?_, ?_, halloc.frame, halloc.length⟩
  · rw [ids_mk] at hn ⊢
    exact nodup_cons.mpr ⟨fun ha => Nat.lt_irrefl _ (hlt _ ha), (nodup_cons.mp hn).2⟩
  · intro a ha
    rw [ids_mk] at ha ⊢
    rcases mem_cons.mp ha with rfl | ha
    · exact .inr (.inr (Nat.le_refl _))
    · exact .inl (mem_cons_of_mem _ ha)

theorem copyContainers_spec (st : Replay) (t : Shared) (path : Path) (b : ℕ) (cs : Container Shared)
    (put : Shared → Shared) (hs : Stored st.heap t) (hn : t.ids.Nodup) (hw : Walk t path (Shared.mk b cs) put) :
    ∃ st' t' b' put', copyContainers st t.ref path = .ok (st', t'.ref) ∧ Becomes st.heap st'.heap t t' [] ∧
      t'.value = t.value ∧ Walk t' path (Shared.mk b' cs) put' := by
  obtain ⟨id, c, rfl⟩ := hw.of_container
  unfold copyContainers
  simp only [ref_mk]
  split
  · obtain ⟨st', c', b', put', hok, hb, hv, hw'⟩ := copyWalk_spec path path st id b c cs put hs hn hw
    exact ⟨st', _, b', put', by rw [hok, ref_mk]; rfl, hb, hv, hw'⟩
  · simp only [((stored_mk_iff st.heap id c).mp hs).1, Replay.alloc]
    have hcopy := becomes_root hs hn
    obtain ⟨b₁, put₁, hw₁⟩ := hw.relabel st.heap.length
    obtain ⟨st', c', b', put', hok, hb, hv, hw'⟩ := copyWalk_spec path path
      { heap := st.heap ++ [c.map ref], owned := st.heap.length :: st.owned } st.heap.length b₁ c cs put₁
      hcopy.stored hcopy.nodup hw₁
    refine ⟨st', _, b', put', by rw [hok, ref_mk]; rfl, hcopy.trans hb [] (by simp) (by simp), hv.trans ?_, hw'⟩
    rw [value_mk, value_mk]

theorem copyContainers_nowhere (st : Replay) (t : Shared) (path : Path) (hs : Stored st.heap t) (hn : t.ids.Nodup)
    (hno : ∀ b cs put, ¬ Walk t path (Shared.mk b cs) put) : ∃ e, copyContainers st t.ref path = .error e := by
  rcases eq_prim_or_mk t with ⟨p, rfl⟩ | ⟨id, c, rfl⟩
  · exact ⟨_, rfl⟩
  · unfold copyContainers
    simp only [ref_mk]
    split
    · obtain ⟨e, he⟩ := copyWalk_nowhere path path st id c hs hn hno
      exact ⟨e, by rw [he]; rfl⟩
    · simp only [((stored_mk_iff st.heap id c).mp hs).1, Replay.alloc]
      have hcopy := becomes_root hs hn
      obtain ⟨e, he⟩ := copyWalk_nowhere path path
          { heap := st.heap ++ [c.map ref], owned := st.heap.length :: st.owned }
        st.heap.length c hcopy.stored hcopy.nodup (fun b cs put hw => by
          obtain ⟨b', put', hw'⟩ := hw.relabel id
          exact hno b' cs put' hw')
      exact ⟨e, by rw [he]; rfl⟩

end PiAgent.Delta.Heap
