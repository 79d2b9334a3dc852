import PiAgent.Chord.Delta.Diff

/-! # A computed batch is sound -/

namespace PiAgent.Delta

open List Shared JsonValue

/-! ## Strings -/

theorem probeOverlap_spec (tail b : JsString) (probe maxCandidates n : ℕ)
    (h : probeOverlap tail b probe maxCandidates = some n) :
    n ≤ tail.length ∧ n ≤ b.length ∧ tail.drop (tail.length - n) = b.take n := by
  obtain ⟨k, hk, rfl⟩ := Option.map_eq_some_iff.mp h
  have hmem := mem_of_find?_eq_some hk
  have htrue := find?_some hk
  have hle : k ≤ tail.length := by
    have := mem_of_mem_take hmem
    rw [occurrences, mem_filter, mem_range] at this
    omega
  rw [Bool.and_eq_true, decide_eq_true_eq, beq_iff_eq] at htrue
  refine ⟨Nat.sub_le _ _, htrue.1, ?_⟩
  rw [Nat.sub_sub_self hle]
  exact htrue.2

theorem overlap_spec (a b : JsString) (scan probe maxCandidates : ℕ) : let n := overlap a b scan probe maxCandidates
    n ≤ a.length ∧ n ≤ b.length ∧ a.drop (a.length - n) = b.take n := by
  have hzero : 0 ≤ a.length ∧ 0 ≤ b.length ∧ a.drop (a.length - 0) = b.take 0 := by simp
  -- The tail that is searched is a suffix of `a`.
  have htail : ∀ n, ∃ d, (if a.length > scan then a.drop (a.length - scan) else a) = a.drop d ∧ d ≤ a.length ∧
      (n ≤ (a.drop d).length → (a.drop d).drop ((a.drop d).length - n) = a.drop (a.length - n)) := by
    intro n
    split
    · refine ⟨a.length - scan, rfl, Nat.sub_le _ _, fun hn => ?_⟩
      rw [length_drop] at hn
      rw [drop_drop, length_drop]
      congr 1
      omega
    · exact ⟨0, rfl, Nat.zero_le _, fun _ => by simp⟩
  have hprobe : ∀ probe' n, probeOverlap (if a.length > scan then a.drop (a.length - scan) else a) b probe'
      maxCandidates = some n → n ≤ a.length ∧ n ≤ b.length ∧ a.drop (a.length - n) = b.take n := by
    intro probe' n hn
    obtain ⟨d, hd, hda, hdrop⟩ := htail n
    rw [hd] at hn
    obtain ⟨h1, h2, h3⟩ := probeOverlap_spec _ b probe' maxCandidates n hn
    rw [hdrop h1] at h3
    rw [length_drop] at h1
    exact ⟨by omega, h2, h3⟩
  intro n
  dsimp only [n, overlap]
  split
  · exact hzero
  · split
    · next n hn => exact hprobe _ n hn
    · split
      · exact hzero
      · cases hn : probeOverlap _ b 1 maxCandidates with
        | none => exact hzero
        | some n => exact hprobe 1 n hn

/-! ## What a part of the batch does -/

/-- `b'` is `b` with operations that take `start` to a value of `post`, unless the batch is full. -/
structure Emits (start : JsonValue) (post : JsonValue → Prop) (b b' : Batch) : Prop where
  full : b.overflowed = true → b'.overflowed = true
  ops : b'.overflowed = false → ∃ ops final, b'.operations = b.operations ++ ops ∧
    (∀ op ∈ ops, op.Valid ∧ isReplace op = false) ∧ apply start ops = .ok final ∧ post final

namespace Emits

variable {start : JsonValue} {post post' : JsonValue → Prop} {b b₁ b' : Batch}

theorem nothing (h : post start) : Emits start post b b :=
  ⟨id, fun _ => ⟨[], start, by simp, by simp, rfl, h⟩⟩

theorem mono (h : Emits start post b b') (himp : ∀ v, post v → post' v) : Emits start post' b b' := by
  refine ⟨h.full, fun ho => ?_⟩
  obtain ⟨ops, final, hops, hvalid, happly, hpost⟩ := h.ops ho
  exact ⟨ops, final, hops, hvalid, happly, himp final hpost⟩

theorem comp (h : Emits start post b b₁) (hfull : b₁.overflowed = true → b'.overflowed = true)
    (h' : ∀ v, post v → Emits v post' b₁ b') : Emits start post' b b' := by
  refine ⟨fun ho => hfull (h.full ho), fun ho => ?_⟩
  have ho₁ : b₁.overflowed = false := by
    cases hb : b₁.overflowed with
    | false => rfl
    | true => rw [hfull hb] at ho; exact ho
  obtain ⟨ops, mid, hops, hvalid, happly, hpost⟩ := h.ops ho₁
  obtain ⟨ops', final, hops', hvalid', happly', hpost'⟩ := (h' mid hpost).ops ho
  refine ⟨ops ++ ops', final, by rw [hops', hops, append_assoc], fun op hop => ?_, ?_, hpost'⟩
  · rcases mem_append.mp hop with hop | hop
    · exact hvalid op hop
    · exact hvalid' op hop
  · rw [apply_append start mid ops ops' happly, happly']

end Emits

theorem emit_full (b : Batch) (op : Op) (h : b.overflowed = true) : (b.emit op).overflowed = true := by
  rw [Batch.emit, if_pos h]
  exact h

theorem emits_emit (start final : JsonValue) (path : Path) (e : Edit) (b : Batch)
    (h : applyOp start (.edit path e) = .ok final) : Emits start (· = final) b (b.emit (.edit path e)) := by
  refine ⟨emit_full b _, fun ho => ?_⟩
  unfold Batch.emit at ho ⊢
  split at ho
  · next hb => rw [hb] at ho; cases ho
  · next hb =>
    split at ho
    · cases ho
    · next hlen =>
      have hvalid : (Op.edit path e).Valid := by
        rw [← assertValidOp_iff]
        cases hv : assertValidOp (.edit path e) with
        | ok u => rfl
        | error err => simp [applyOp, hv, bind, Except.bind] at h
      rw [if_neg hb, if_neg hlen]
      exact ⟨[.edit path e], final, rfl, by simpa using ⟨hvalid, rfl⟩, apply_singleton _ _ _ h, rfl⟩

section Emit

variable (place : Place) (frame : Frame) (hok : (place ++ [frame]).Ok)
include hok

theorem emits_emitSet (x : JsonValue) (y : Shared) (b : Batch) :
    Emits ((place ++ [frame]).plug x) (· = (place ++ [frame]).plug y.value) b
      (emitSet (place ++ [frame]).path y b) := by
  rw [Place.ok_append, Place.ok_singleton] at hok
  simp only [Place.path_append, Place.path_singleton, Place.plug_append, Place.plug_cons, Place.plug_nil, emitSet]
  rw [if_neg (by simp)]
  exact emits_emit _ _ _ _ b (applyOp_setSlot place hok.1 frame x y.value hok.2)

theorem emits_emitString (s t : JsString) (b : Batch) :
    Emits ((place ++ [frame]).plug (str s)) (· = (place ++ [frame]).plug (str t)) b
      (emitString s t (place ++ [frame]).path b) := by
  rw [Place.ok_append, Place.ok_singleton] at hok
  simp only [Place.path_append, Place.path_singleton, Place.plug_append, Place.plug_cons, Place.plug_nil, emitString]
  split_ifs with h1 h2 h3 h4
  · subst h1; exact .nothing rfl
  · refine emits_emit _ _ _ _ b (applyOp_string place hok.1 frame _ s t hok.2 trivial rfl (fun path => ?_))
    have : s ++ t.drop s.length = t := by
      conv_rhs => rw [← List.take_append_drop s.length t, h2.2]
    simp [Edit.newValue, this]
  · exact emits_emit _ _ _ _ b (applyOp_setSlot place hok.1 frame _ _ hok.2)
  all_goals
    obtain ⟨hs, ht, hoverlap⟩ := overlap_spec s t defaultOverlapScan defaultProbe defaultMaxCandidates
    generalize overlap s t defaultOverlapScan defaultProbe defaultMaxCandidates = shared at *
    have htruncate := emits_emit _ _ _ _ b (applyOp_string place hok.1 frame (.t (s.length - shared)) s (t.take shared)
      hok.2 trivial rfl (fun path => by simp [Edit.newValue, hoverlap]))
  · refine htruncate.comp (emit_full _ _) ?_
    rintro v rfl
    refine emits_emit _ _ _ _ _ (applyOp_string place hok.1 frame _ _ t hok.2 trivial rfl (fun path => ?_))
    simp [Edit.newValue]
  · rwa [take_of_length_le (by omega)] at htruncate

end Emit

/-! ## Functions that end, with what they did to the batch -/

/-- With enough steps the function ends, and its batch stands in the relation to the one it began with. -/
def Ends (f : Batch → ℕ → Option Batch) (rel : Batch → Batch → Prop) : Prop :=
  ∃ N, ∀ b, ∃ b', (∀ steps, N ≤ steps → f b steps = some b') ∧ rel b b'

variable {f g : Batch → ℕ → Option Batch} {path : Path} {after before : List Shared} {out : ℕ}

theorem Ends.succ {rel rel' : Batch → Batch → Prop} (h : Ends f rel)
    (hstep : ∀ b steps, g b (steps + 1) = f b steps) (himp : ∀ b b', rel b b' → rel' b b') : Ends g rel' := by
  obtain ⟨N, h⟩ := h
  refine ⟨N + 1, fun b => ?_⟩
  obtain ⟨b', hf, hrel⟩ := h b
  refine ⟨b', fun steps hs => ?_, himp b b' hrel⟩
  obtain ⟨m, rfl⟩ : ∃ m, steps = m + 1 := ⟨steps - 1, by omega⟩
  rw [hstep, hf m (by omega)]

theorem Ends.pure (g : Batch → Batch) {rel : Batch → Batch → Prop} (hrel : ∀ b, rel b (g b)) :
    Ends (fun b _ => some (g b)) rel :=
  ⟨0, fun b => ⟨g b, fun _ _ => rfl, hrel b⟩⟩

theorem Ends.bind {r₁ r₂ : Batch → Batch → Prop} (rel : Batch → Batch → Prop) (hf : Ends f r₁) (hg : Ends g r₂)
    (himp : ∀ b b₁ b', r₁ b b₁ → r₂ b₁ b' → rel b b') :
    Ends (fun b steps => (f b steps).bind (fun b => g b steps)) rel := by
  obtain ⟨N, hf⟩ := hf
  obtain ⟨M, hg⟩ := hg
  refine ⟨max N M, fun b => ?_⟩
  obtain ⟨b₁, hf, h₁⟩ := hf b
  obtain ⟨b', hg, h₂⟩ := hg b₁
  refine ⟨b', fun steps hs => ?_, himp b b₁ b' h₁ h₂⟩
  dsimp only
  rw [hf steps (by omega), Option.bind_some, hg steps (by omega)]

theorem Ends.of_open {rel : Batch → Batch → Prop} (h : Ends g rel)
    (hfull : ∀ b steps, b.overflowed = true → f b (steps + 1) = some b)
    (hopen : ∀ b steps, b.overflowed = false → f b (steps + 1) = g b steps)
    (hrel : ∀ b, b.overflowed = true → rel b b) : Ends f rel := by
  obtain ⟨N, h⟩ := h
  refine ⟨N + 1, fun b => ?_⟩
  cases hb : b.overflowed with
  | true =>
    refine ⟨b, fun steps hs => ?_, hrel b hb⟩
    obtain ⟨m, rfl⟩ : ∃ m, steps = m + 1 := ⟨steps - 1, by omega⟩
    exact hfull b m hb
  | false =>
    obtain ⟨b', hg, hb'⟩ := h b
    refine ⟨b', fun steps hs => ?_, hb'⟩
    obtain ⟨m, rfl⟩ : ∃ m, steps = m + 1 := ⟨steps - 1, by omega⟩
    rw [hopen b m hb, hg m (by omega)]

/-! ## Arrays -/

def ValueAt (place : Place) (y : JsonValue) (v : JsonValue) : Prop := ∃ y', v = place.plug y' ∧ y'.Eqv y

def ItemsAt (place : Place) (pre : List JsonValue) (after : List Shared) (post : List JsonValue) (v : JsonValue) :
    Prop :=
  ∃ mid, v = place.plug (.arr (pre ++ mid ++ post)) ∧ List.Forall₂ Eqv mid (after.map value)

structure ValueRel (x y : Shared) (path : Path) (b b' : Batch) : Prop where
  full : b.overflowed = true → b'.overflowed = true
  same : x.value.Eqv y.value → b' = b
  emits : ∀ place frame, Place.Ok (place ++ [frame]) → Place.path (place ++ [frame]) = path →
    Emits (Place.plug (place ++ [frame]) x.value) (ValueAt (place ++ [frame]) y.value) b b'

structure RegionRel (before after : List Shared) (path : Path) (out : ℕ) (b b' : Batch) : Prop where
  full : b.overflowed = true → b'.overflowed = true
  emits : ∀ (place : Place) pre post, place.Ok → place.path = path → pre.length = out →
    Emits (place.plug (.arr (pre ++ before.map value ++ post))) (ItemsAt place pre after post) b b'

def ValueOk (x y : Shared) : Prop := ∀ path, path ≠ [] → Ends (diffValue x y path) (ValueRel x y path)

def RegionOk (before after : List Shared) : Prop :=
  ∀ path out, Ends (diffArrayRegion before after path out) (RegionRel before after path out)

theorem emits_item {place : Place} {pre : List JsonValue} (post : List JsonValue) {x y : Shared} {b b' : Batch}
    (hok : place.Ok) (hpath : place.path ++ [.index pre.length] = path) (h : ValueRel x y path b b') :
    Emits (place.plug (.arr (pre ++ x.value :: post)))
      (fun v => ∃ y', v = place.plug (.arr (pre ++ y' :: post)) ∧ y'.Eqv y.value) b b' := by
  have hplace : Place.Ok (place ++ [.item pre post]) := by simpa using ⟨hok, trivial⟩
  have := h.emits place (.item pre post) hplace (by simpa [Frame.seg] using hpath)
  simp only [Place.plug_append, Place.plug_cons, Place.plug_nil, Frame.fill] at this
  refine this.mono ?_
  rintro v ⟨y', rfl, hy'⟩
  exact ⟨y', by simp [Frame.fill], hy'⟩

theorem RegionRel.of_full {b : Batch} (h : b.overflowed = true) : RegionRel before after path out b b :=
  ⟨id, fun _ _ _ _ _ _ => ⟨id, fun ho => by rw [h] at ho; cases ho⟩⟩

theorem RegionRel.widen {p p' s s' : List Shared} {b b' : Batch}
    (h : RegionRel before after path (out + p.length) b b') (hp : List.Forall₂ Eqv (p.map value) (p'.map value))
    (hs : List.Forall₂ Eqv (s.map value) (s'.map value)) :
    RegionRel (p ++ before ++ s) (p' ++ after ++ s') path out b b' := by
  refine ⟨h.full, fun place pre post hok hpath hout => ?_⟩
  have := h.emits place (pre ++ p.map value) (s.map value ++ post) hok hpath (by simp [hout])
  simp only [map_append, append_assoc] at this ⊢
  refine this.mono ?_
  rintro v ⟨mid, rfl, hmid⟩
  refine ⟨p.map value ++ mid ++ s.map value, by simp, ?_⟩
  simp only [map_append, append_assoc]
  exact rel_append hp (rel_append hmid hs)

/-! ### The finders -/

theorem skipCommon_spec (before after : List Shared) :
    ∃ p p', before = p ++ (skipCommon before after).2.1 ∧ after = p' ++ (skipCommon before after).2.2 ∧
      p.length = (skipCommon before after).1 ∧ List.Forall₂ (fun x y => sameValue x y = true) p p' := by
  fun_induction skipCommon before after with
  | case1 x before y after h count before' after' hrec ih =>
    obtain ⟨p, p', hb, ha, hl, hall⟩ := ih
    rw [hrec] at hb ha hl
    exact ⟨x :: p, y :: p', by rw [cons_append, ← hb], by rw [cons_append, ← ha], by simp [hl], .cons h hall⟩
  | case2 => exact ⟨[], [], rfl, rfl, rfl, .nil⟩
  | case3 => exact ⟨[], [], rfl, rfl, rfl, .nil⟩

theorem skipCommonSuffix_spec (before after : List Shared) :
    ∃ s s', before = (skipCommonSuffix before after).1 ++ s ∧ after = (skipCommonSuffix before after).2 ++ s' ∧
      List.Forall₂ (fun x y => sameValue x y = true) s s' := by
  obtain ⟨p, p', hb, ha, -, hall⟩ := skipCommon_spec before.reverse after.reverse
  refine ⟨p.reverse, p'.reverse, ?_, ?_, List.forall₂_reverse_iff.mpr hall⟩
  · simp only [skipCommonSuffix]
    rw [← reverse_append, ← hb, reverse_reverse]
  · simp only [skipCommonSuffix]
    rw [← reverse_append, ← ha, reverse_reverse]

theorem increasing_diagonal (n : ℕ) (is : List ℕ) (hsorted : is.Pairwise (· < ·)) (hlt : ∀ i ∈ is, i < n) (low : ℕ)
    (hlow : ∀ i ∈ is, low ≤ i) : Increasing (low, low) (n, n) (is.map (fun i => (i, i))) := by
  induction is generalizing low with
  | nil => trivial
  | cons i is ih =>
    rw [pairwise_cons] at hsorted
    refine ⟨⟨hlow i (by simp), hlow i (by simp)⟩, ⟨hlt i (by simp), hlt i (by simp)⟩, ?_⟩
    exact ih hsorted.2 (fun j hj => hlt j (by simp [hj])) (i + 1) (fun j hj => hsorted.1 j hj)

theorem increasing_positionalMatches (before after : List Shared) :
    Increasing (0, 0) (before.length, before.length) (positionalMatches before after) := by
  refine increasing_diagonal before.length _ (pairwise_lt_range.sublist filter_sublist) (fun i hi => ?_) 0
    (fun _ _ => Nat.zero_le _)
  exact mem_range.mp (mem_filter.mp hi).1

theorem increasing_getD (low high : ℕ × ℕ) (f : Option (List ArrayMatch))
    (h : ∀ ms, f = some ms → Increasing low high ms) : Increasing low high (f.getD []) := by
  cases f with
  | none => trivial
  | some ms => exact h ms rfl

theorem increasing_regionMatches (before after : List Shared) :
    Increasing (0, 0) (before.length, after.length) (regionMatches before after) := by
  have hpositional : Increasing (0, 0) (before.length, after.length)
      (if before.length = after.length then positionalMatches before after else []) := by
    split
    · next hl => rw [← hl]; exact increasing_positionalMatches before after
    · trivial
  have hsubsequence : Increasing (0, 0) (before.length, after.length)
      ((identitySubsequence (before.map identity) (after.map identity)).getD []) := by
    refine increasing_getD _ _ _ (fun ms hms => ?_)
    simpa using increasing_identitySubsequence (before.map identity) (after.map identity) ms hms
  have hanchors : Increasing (0, 0) (before.length, after.length)
      (identityAnchors (before.map identity) (after.map identity)) := by
    simpa using increasing_identityAnchors (before.map identity) (after.map identity)
  rw [regionMatches]
  generalize (if before.length = after.length then positionalMatches before after else []) = positional at *
  generalize (identitySubsequence (before.map identity) (after.map identity)).getD [] = subsequence at *
  generalize identityAnchors (before.map identity) (after.map identity) = anchors at *
  dsimp only
  split_ifs
  · exact hpositional
  · exact hsubsequence
  · exact hanchors
  · exact increasing_getD _ _ _ (fun ms hms => increasing_lcsMatches _ before after _ ms hms)

/-! ### The loop over the matches -/

theorem RegionRel.join {before' after' : List Shared} {x y : Shared} {b b₁ b₂ b' : Batch}
    (h₁ : RegionRel before after path out b b₁) (h₂ : ValueRel x y (path ++ [.index (out + after.length)]) b₁ b₂)
    (h₃ : RegionRel before' after' path (out + after.length + 1) b₂ b') :
    RegionRel (before ++ x :: before') (after ++ y :: after') path out b b' := by
  refine ⟨fun ho => h₃.full (h₂.full (h₁.full ho)), fun place pre post hok hpath hout => ?_⟩
  have e₁ := h₁.emits place pre (x.value :: before'.map value ++ post) hok hpath hout
  simp only [map_append, map_cons, append_assoc, cons_append] at e₁ ⊢
  refine e₁.comp (fun ho => h₃.full (h₂.full ho)) ?_
  rintro v ⟨mid, rfl, hmid⟩
  have hlen : (pre ++ mid).length = out + after.length := by
    rw [length_append, hout, hmid.length_eq, length_map]
  have e₂ := emits_item (before'.map value ++ post) hok (by rw [hlen, hpath]) h₂
  refine e₂.comp h₃.full ?_
  rintro v ⟨y', rfl, hy'⟩
  have e₃ := h₃.emits place (pre ++ mid ++ [y']) post hok hpath (by rw [length_append, hlen]; rfl)
  simp only [append_assoc, singleton_append] at e₃ ⊢
  refine e₃.mono ?_
  rintro v ⟨mid', rfl, hmid'⟩
  refine ⟨mid ++ y' :: mid', by simp, ?_⟩
  rw [map_append, map_cons]
  exact rel_append hmid (.cons hy' hmid')

theorem ValueRel.refl {x y : Shared} (h : x.value.Eqv y.value) (b : Batch) : ValueRel x y path b b :=
  ⟨id, fun _ => rfl, fun _ _ _ _ => .nothing ⟨x.value, rfl, h⟩⟩

theorem split_at (xs : List Shared) (i : ℕ) (h : i < xs.length) :
    xs = xs.take i ++ xs.getD i default :: xs.drop (i + 1) := by
  have hget : xs.getD i default = xs[i] := by simp [h]
  rw [hget, getElem_cons_drop, List.take_append_drop]

def PairsOk (before after : List Shared) : Prop :=
  ∀ x ∈ before, ∀ y ∈ after, ValueOk x y ∧ (sameValue x y = true → x.value.Eqv y.value)

theorem PairsOk.subset {before' after' : List Shared} (h : PairsOk before after) (hb : before' ⊆ before)
    (ha : after' ⊆ after) : PairsOk before' after' :=
  fun x hx y hy => h x (hb hx) y (ha hy)

theorem processArrayMatches_ends (L : ℕ)
    (hregion : ∀ before after, PairsOk before after → before.length < L → RegionOk before after)
    (found : List ArrayMatch) (before after : List Shared) (path : Path) (beforeAt afterAt out : ℕ)
    (hpairs : PairsOk before after)
    (hinc : Increasing (beforeAt, afterAt) (beforeAt + before.length, afterAt + after.length) found)
    (hlen : before.length ≤ L) (hnil : found = [] → before.length < L) :
    Ends (fun b => processArrayMatches before after path beforeAt afterAt out b found)
      (RegionRel before after path out) := by
  induction found generalizing before after beforeAt afterAt out with
  | nil =>
    refine Ends.of_open (hregion before after hpairs (hnil rfl) path out) (fun b steps ho => ?_)
      (fun b steps ho => ?_) (fun b ho => .of_full ho)
    · rw [processArrayMatches, if_pos ho]
    · rw [processArrayMatches, if_neg (by simp [ho])]
  | cons m found ih =>
    obtain ⟨beforeMatch, afterMatch⟩ := m
    obtain ⟨⟨hlb, hla⟩, ⟨hhb, hha⟩, hrest⟩ := hinc
    dsimp only at hlb hla hhb hha
    have hbi : beforeMatch - beforeAt < before.length := by omega
    have hai : afterMatch - afterAt < after.length := by omega
    have hbs := split_at before _ hbi
    have has := split_at after _ hai
    generalize hb₁ : before.take (beforeMatch - beforeAt) = before₁ at *
    generalize hb₂ : before.drop (beforeMatch - beforeAt + 1) = before₂ at *
    generalize hx : before.getD (beforeMatch - beforeAt) default = x at *
    generalize ha₁ : after.take (afterMatch - afterAt) = after₁ at *
    generalize ha₂ : after.drop (afterMatch - afterAt + 1) = after₂ at *
    generalize hy : after.getD (afterMatch - afterAt) default = y at *
    have hl₁ : before₁.length = beforeMatch - beforeAt := by rw [← hb₁, length_take]; omega
    have hl₂ : after₁.length = afterMatch - afterAt := by rw [← ha₁, length_take]; omega
    have hl₃ : before₂.length = before.length - (beforeMatch - beforeAt + 1) := by rw [← hb₂, length_drop]
    have hl₄ : after₂.length = after.length - (afterMatch - afterAt + 1) := by rw [← ha₂, length_drop]
    have hxy := hpairs x (by rw [hbs]; simp) y (by rw [has]; simp)
    have e₁ := hregion before₁ after₁ (hpairs.subset (by rw [hbs]; simp) (by rw [has]; simp)) (by omega) path out
    have e₂ : Ends (fun b steps => if sameValue x y then some b
        else diffValue x y (path ++ [.index (out + after₁.length)]) b steps)
        (ValueRel x y (path ++ [.index (out + after₁.length)])) := by
      split
      · next hs => exact Ends.pure id (ValueRel.refl (hxy.2 hs))
      · exact hxy.1 _ (by simp)
    have e₃ := ih before₂ after₂ (beforeMatch + 1) (afterMatch + 1) (out + after₁.length + 1)
      (hpairs.subset (by rw [hbs]; intro z hz; simp [hz]) (by rw [has]; intro z hz; simp [hz]))
      (by convert hrest using 2 <;> omega) (by omega) (fun _ => by omega)
    have hrest := e₂.bind (fun b b' => ∃ b₂, ValueRel x y _ b b₂ ∧ RegionRel before₂ after₂ path _ b₂ b') e₃
      (fun b b₁ b' h₂ h₃ => ⟨b₁, h₂, h₃⟩)
    have hjoin := e₁.bind (RegionRel before after path out) hrest
      (fun b b₁ b' h₁ ⟨b₂, h₂, h₃⟩ => by rw [hbs, has]; exact h₁.join h₂ h₃)
    refine Ends.of_open hjoin (fun b steps ho => ?_) (fun b steps ho => ?_) (fun b ho => .of_full ho)
    · rw [processArrayMatches, if_pos ho]
    · rw [processArrayMatches, if_neg (by simp [ho])]
      simp only [hb₁, hb₂, hx, ha₁, ha₂, hy, hl₂]
      cases sameValue x y <;> rfl

/-! ### Regions -/

theorem regionRel_splice (before after : List Shared) (path : Path) (out : ℕ) (b : Batch) :
    RegionRel before after path out b (b.emit (.edit path (.p out before.length (values after)))) := by
  refine ⟨emit_full b _, fun place pre post hok hpath hout => ?_⟩
  have h := applyOp_splice place hok pre (before.map value) post (after.map value)
  rw [hpath, hout, length_map] at h
  rw [values_eq]
  refine (emits_emit _ _ path _ b h).mono ?_
  rintro v rfl
  exact ⟨after.map value, rfl, List.forall₂_same.mpr (fun x _ => eqv_refl x)⟩

theorem RegionRel.refl (h : List.Forall₂ Eqv (before.map value) (after.map value)) (b : Batch) :
    RegionRel before after path out b b :=
  ⟨id, fun _ _ _ _ _ _ => .nothing ⟨before.map value, rfl, h⟩⟩

theorem RegionRel.single {x y : Shared} {b b' : Batch} (h : ValueRel x y (path ++ [.index out]) b b') :
    RegionRel [x] [y] path out b b' := by
  have hnil : RegionRel ([] : List Shared) [] path out b b := .refl .nil b
  have hjoin : RegionRel ([] ++ x :: []) ([] ++ y :: []) path out b b' := hnil.join h (.refl .nil b')
  exact hjoin

theorem eqv_of_sameValues (hsame : ∀ x ∈ before, ∀ y ∈ after, sameValue x y = true → x.value.Eqv y.value)
    (h : List.Forall₂ (fun x y => sameValue x y = true) before after) :
    List.Forall₂ Eqv (before.map value) (after.map value) := by
  rw [List.forall₂_map_left_iff, List.forall₂_map_right_iff]
  rw [List.forall₂_iff_get] at h ⊢
  exact ⟨h.1, fun i hx hy => hsame _ (getElem_mem hx) _ (getElem_mem hy) (h.2 i hx hy)⟩

def trimmed (before after : List Shared) : ℕ × List Shared × List Shared :=
  let (skipped, before, after) := skipCommon before after
  (skipped, skipCommonSuffix before after)

theorem trimmed_spec (before after : List Shared) (hpairs : PairsOk before after) :
    ∃ p p' s s', before = p ++ (trimmed before after).2.1 ++ s ∧ after = p' ++ (trimmed before after).2.2 ++ s' ∧
      p.length = (trimmed before after).1 ∧ List.Forall₂ Eqv (p.map value) (p'.map value) ∧
      List.Forall₂ Eqv (s.map value) (s'.map value) := by
  obtain ⟨p, p', hb, ha, hl, hp⟩ := skipCommon_spec before after
  obtain ⟨s, s', hb', ha', hs⟩ := skipCommonSuffix_spec (skipCommon before after).2.1 (skipCommon before after).2.2
  have hbefore : before = p ++ (trimmed before after).2.1 ++ s := by
    rw [append_assoc]
    exact hb.trans (congrArg (p ++ ·) hb')
  have hafter : after = p' ++ (trimmed before after).2.2 ++ s' := by
    rw [append_assoc]
    exact ha.trans (congrArg (p' ++ ·) ha')
  refine ⟨p, p', s, s', hbefore, hafter, hl, eqv_of_sameValues (fun x hx y hy => ?_) hp,
    eqv_of_sameValues (fun x hx y hy => ?_) hs⟩
  · exact (hpairs x (by rw [hbefore]; simp [hx]) y (by rw [hafter]; simp [hy])).2
  · exact (hpairs x (by rw [hbefore]; simp [hx]) y (by rw [hafter]; simp [hy])).2

def diffTrimmed (before after : List Shared) (path : Path) (out : ℕ) (b : Batch) (steps : ℕ) : Option Batch :=
  if before.isEmpty && after.isEmpty then some b
  else if before.isEmpty || after.isEmpty then
    some (b.emit (.edit path (.p out before.length (values after))))
  else
    let found := regionMatches before after
    if !found.isEmpty then processArrayMatches before after path 0 0 out b found steps
    else match before, after with
      | [x], [y] => diffValue x y (path ++ [.index out]) b steps
      | _, _ => some (b.emit (.edit path (.p out before.length (values after))))

theorem diffArrayRegion_succ (before after : List Shared) (path : Path) (out : ℕ) (b : Batch) (steps : ℕ)
    (h : b.overflowed = false) :
    diffArrayRegion before after path out b (steps + 1)
      = diffTrimmed (trimmed before after).2.1 (trimmed before after).2.2 path (out + (trimmed before after).1) b
          steps := by
  rw [diffArrayRegion, if_neg (by simp [h])]
  rfl

theorem diffTrimmed_ends (before after : List Shared) (hpairs : PairsOk before after)
    (hregion : ∀ before' after', PairsOk before' after' → before'.length < before.length → RegionOk before' after')
    (path : Path) (out : ℕ) :
    Ends (fun b => diffTrimmed before after path out b) (RegionRel before after path out) := by
  have hsplice := Ends.pure _ (regionRel_splice before after path out)
  unfold diffTrimmed
  dsimp only
  split_ifs with h₁ h₂ h₃
  · rw [Bool.and_eq_true, List.isEmpty_iff, List.isEmpty_iff] at h₁
    obtain ⟨rfl, rfl⟩ := h₁
    exact Ends.pure id (RegionRel.refl .nil)
  · exact hsplice
  · have hinc := increasing_regionMatches before after
    refine processArrayMatches_ends before.length hregion _ before after path 0 0 out hpairs (by simpa using hinc)
      le_rfl (fun hnil => ?_)
    rw [hnil] at h₃
    simp at h₃
  · split
    · next x y =>
      obtain ⟨N, hN⟩ := (hpairs x (by simp) y (by simp)).1 (path ++ [.index out]) (by simp)
      refine ⟨N, fun b => ?_⟩
      obtain ⟨b', hb', hrel⟩ := hN b
      exact ⟨b', hb', .single hrel⟩
    · exact hsplice

theorem regionOk_of_pairsOk (before after : List Shared) (h : PairsOk before after) : RegionOk before after := by
  induction hn : before.length using Nat.strong_induction_on generalizing before after with
  | _ n ih =>
    intro path out
    obtain ⟨p, p', s, s', hb, ha, hl, hp, hs⟩ := trimmed_spec before after h
    have hsub : PairsOk (trimmed before after).2.1 (trimmed before after).2.2 :=
      h.subset (by intro z hz; rw [hb]; simp [hz]) (by intro z hz; rw [ha]; simp [hz])
    have hle : (trimmed before after).2.1.length ≤ n := by
      rw [← hn]
      conv_rhs => rw [hb]
      simp only [length_append]
      omega
    have hends := diffTrimmed_ends _ _ hsub (fun b' a' hok hlt => ih b'.length (by omega) b' a' hok rfl) path
      (out + (trimmed before after).1)
    obtain ⟨N, hN⟩ := hends
    have hwide : Ends (fun b => diffTrimmed (trimmed before after).2.1 (trimmed before after).2.2 path
        (out + (trimmed before after).1) b) (RegionRel before after path out) := by
      refine ⟨N, fun b => ?_⟩
      obtain ⟨b', hb', hrel⟩ := hN b
      rw [← hl] at hrel
      refine ⟨b', hb', ?_⟩
      have := hrel.widen hp hs
      rwa [← hb, ← ha] at this
    refine hwide.of_open (fun b steps ho => ?_) (fun b steps ho => ?_) (fun b ho => .of_full ho)
    · rw [diffArrayRegion, if_pos ho]
    · exact diffArrayRegion_succ before after path out b steps ho

end PiAgent.Delta
