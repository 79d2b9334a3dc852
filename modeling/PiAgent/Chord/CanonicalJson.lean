import Mathlib.Data.List.Lex
import Mathlib.Data.List.Sort
import PiAgent.Chord.JsonText

/-!
# Canonical JSON

`canonicalJson` of `schema.ts`: object keys are sorted, so values that differ only in
the order of their keys have one text. No other two values have.
-/

namespace PiAgent

open List Assoc JsonValue

/-- A character of the text of a number. -/
def isNumberChar (c : UInt16) : Bool := isDigit c || c = 45 || c = 43 || c = 46 || c = 101

/-- How the engine writes numbers. The text of a number reads back as the number. -/
structure NumberTexts where
  text : ℚ → JsString
  injective : Function.Injective text
  nonempty : ∀ n, text n ≠ []
  chars : ∀ n, ∀ c ∈ text n, isNumberChar c = true

namespace NumberTexts

/-- Integers in decimal, other numbers as their numerator and denominator. -/
def fraction (q : ℚ) : JsString :=
  (if q.num < 0 then [45] else []) ++ (decimal q.num.natAbs ++ if q.den = 1 then [] else 101 :: decimal q.den)

theorem fraction_injective : Function.Injective fraction := by
  intro p q h
  unfold fraction at h
  have hstops : ∀ d : ℕ, Stops (fun c => isDigit c = false) (if d = 1 then [] else 101 :: decimal d) := by
    intro d
    split
    · exact stops_nil _
    · exact (stops_cons _ _ _).mpr (by decide)
  have hminus : ∀ n (r s : JsString), 45 :: r ≠ decimal n ++ s := by
    intro n r s heq
    obtain ⟨c, u, hc⟩ := exists_cons_of_ne_nil (decimal_ne_nil n)
    have hdigit := isDigit_of_mem_decimal n c (by simp [hc])
    rw [hc] at heq
    rw [← (List.cons.inj heq).1] at hdigit
    exact absurd hdigit (by decide)
  have hden : ∀ d e : ℕ, (if d = 1 then [] else 101 :: decimal d) = (if e = 1 then [] else 101 :: decimal e) →
      d = e := by
    intro d e heq
    split at heq <;> split at heq
    · omega
    · cases heq
    · cases heq
    · exact decimal_injective (List.cons.inj heq).2
  have hsplit : (p.num < 0 ↔ q.num < 0) ∧ p.num.natAbs = q.num.natAbs ∧ p.den = q.den := by
    by_cases hp : p.num < 0 <;> by_cases hq : q.num < 0 <;>
      simp only [hp, hq, if_true, if_false, nil_append] at h
    · obtain ⟨hnum, hrest⟩ := decimal_unambiguous _ _ _ _ (hstops _) (hstops _) (List.cons.inj h).2
      exact ⟨by simp [hp, hq], hnum, hden _ _ hrest⟩
    · exact absurd h (hminus _ _ _)
    · exact absurd h.symm (hminus _ _ _)
    · obtain ⟨hnum, hrest⟩ := decimal_unambiguous _ _ _ _ (hstops _) (hstops _) h
      exact ⟨by simp [hp, hq], hnum, hden _ _ hrest⟩
  obtain ⟨hsign, hnum, hden⟩ := hsplit
  exact Rat.ext (by omega) hden

/-- A way to write numbers that writes the integers as the engine does. -/
def fractions : NumberTexts where
  text := fraction
  injective := fraction_injective
  nonempty := by
    intro q h
    simp only [fraction, append_eq_nil_iff] at h
    exact decimal_ne_nil _ h.2.1
  chars := by
    intro q c hc
    have hdigit : ∀ n, c ∈ decimal n → isNumberChar c = true := by
      intro n hn
      simp [isNumberChar, isDigit_of_mem_decimal n c hn]
    simp only [fraction, mem_append] at hc
    rcases hc with hc | hc | hc
    · split at hc
      · obtain rfl := mem_singleton.mp hc
        decide
      · cases hc
    · exact hdigit _ hc
    · split at hc
      · cases hc
      · rcases mem_cons.mp hc with rfl | hc
        · decide
        · exact hdigit _ hc

variable (N : NumberTexts)

def primitiveText : Primitive → JsString
  | .null => js "null"
  | .bool b => if b then js "true" else js "false"
  | .num n => N.text n
  | .str s => quote s

/-- `keys.sort()`: by code units. -/
def keyLe {α : Type} (p q : JsString × α) : Bool := p.1.map UInt16.toNat ≤ q.1.map UInt16.toNat

mutual

def canonicalJson : JsonValue → JsString
  | .prim p => N.primitiveText p
  | .arr items => 91 :: separated 44 93 (itemTexts items)
  | .obj fields => 123 :: separated 44 125
      (((fieldTexts fields).mergeSort keyLe).map (fun p => quote p.1 ++ 58 :: p.2))

def itemTexts : List JsonValue → List JsString
  | [] => []
  | x :: xs => canonicalJson x :: itemTexts xs

def fieldTexts : List (JsString × JsonValue) → List (JsString × JsString)
  | [] => []
  | (k, v) :: fs => (k, canonicalJson v) :: fieldTexts fs

end

theorem itemTexts_eq (xs : List JsonValue) : N.itemTexts xs = xs.map N.canonicalJson := by
  induction xs with
  | nil => rfl
  | cons x xs ih => rw [itemTexts, ih, map_cons]

variable (fs : List (JsString × JsonValue))

theorem fieldTexts_eq : N.fieldTexts fs = fs.map (fun p => (p.1, N.canonicalJson p.2)) := by
  induction fs with
  | nil => rfl
  | cons p fs ih => rw [fieldTexts, ih, map_cons]

/-! ## Sorted keys -/

variable {α : Type}

theorem keyLe_trans (p q r : JsString × α) (hpq : keyLe p q = true) (hqr : keyLe q r = true) :
    keyLe p r = true := by
  simp only [keyLe, decide_eq_true_eq] at hpq hqr ⊢
  exact le_trans hpq hqr

theorem keyLe_total (p q : JsString × α) : (keyLe p q || keyLe q p) = true := by
  simp only [keyLe, Bool.or_eq_true, decide_eq_true_eq]
  exact le_total _ _

theorem keyLe_antisymm (p q : JsString × α) (hpq : keyLe p q = true) (hqp : keyLe q p = true) : p.1 = q.1 := by
  simp only [keyLe, decide_eq_true_eq] at hpq hqp
  exact (map_injective_iff.mpr (fun _ _ h => UInt16.toNat_inj.mp h)) (le_antisymm hpq hqp)

def sortKeys {α : Type} (fs : List (JsString × α)) : List (JsString × α) := fs.mergeSort keyLe

theorem sortKeys_perm (fs : List (JsString × α)) : (sortKeys fs).Perm fs := mergeSort_perm fs keyLe

theorem sortKeys_sorted (fs : List (JsString × α)) : (sortKeys fs).Pairwise (fun p q => keyLe p q = true) :=
  pairwise_mergeSort keyLe_trans keyLe_total fs

variable (fs gs : List (JsString × α))

theorem sortKeys_of_perm (hn : (keys gs).Nodup) (hp : fs.Perm gs) : sortKeys fs = sortKeys gs := by
  refine ((sortKeys_perm fs).trans (hp.trans (sortKeys_perm gs).symm)).eq_of_pairwise ?_ (sortKeys_sorted fs)
    (sortKeys_sorted gs)
  intro p q hpf hqg hpq hqp
  have hkey := keyLe_antisymm p q hpq hqp
  have hpg : (p.1, p.2) ∈ gs := hp.mem_iff.mp ((sortKeys_perm fs).mem_iff.mp hpf)
  have hqg : (q.1, q.2) ∈ gs := (sortKeys_perm gs).mem_iff.mp hqg
  have hget := get?_of_mem gs p.1 p.2 hn hpg
  rw [hkey, get?_of_mem gs q.1 q.2 hn hqg] at hget
  exact Prod.ext hkey (Option.some.inj hget).symm

theorem get?_perm (hn : (keys gs).Nodup) (hp : fs.Perm gs) (k : JsString) : get? fs k = get? gs k := by
  have hnf : (keys fs).Nodup := (hp.map Prod.fst).nodup_iff.mpr hn
  refine Option.ext (fun v => ⟨fun h => ?_, fun h => ?_⟩)
  · exact get?_of_mem gs k v hn (hp.mem_iff.mp (mem_of_get? fs k v h))
  · exact get?_of_mem fs k v hnf (hp.mem_iff.mpr (mem_of_get? gs k v h))

theorem perm_of_get? (hf : (keys fs).Nodup) (hg : (keys gs).Nodup)
    (h : ∀ k, get? fs k = get? gs k) : fs.Perm gs := by
  refine (perm_ext_iff_of_nodup (List.Nodup.of_map Prod.fst hf) (List.Nodup.of_map Prod.fst hg)).mpr
      (fun p => ?_)
  constructor
  · intro hp
    refine mem_of_get? gs p.1 p.2 ?_
    rw [← h p.1]
    exact get?_of_mem fs p.1 p.2 hf hp
  · intro hp
    refine mem_of_get? fs p.1 p.2 ?_
    rw [h p.1]
    exact get?_of_mem gs p.1 p.2 hg hp

theorem canonicalJson_obj (fs : List (JsString × JsonValue)) : N.canonicalJson (.obj fs) =
    123 :: separated 44 125 ((sortKeys fs).map (fun p => quote p.1 ++ 58 :: N.canonicalJson p.2)) := by
  have hsort : (sortKeys fs).map (fun p => (p.1, N.canonicalJson p.2))
      = (fs.map (fun p => (p.1, N.canonicalJson p.2))).mergeSort keyLe := by
    unfold sortKeys
    exact map_mergeSort (fun _ _ _ _ => rfl)
  rw [canonicalJson, fieldTexts_eq, ← hsort, map_map]
  rfl

/-! ## The text says what the value is -/

def isStop (c : UInt16) : Prop := isNumberChar c = false

theorem stop_comma : isStop 44 := by simp [isStop, isNumberChar, isDigit]

theorem stop_bracket : isStop 93 := by simp [isStop, isNumberChar, isDigit]

theorem stop_brace : isStop 125 := by simp [isStop, isNumberChar, isDigit]

theorem number_unambiguous : Unambiguous N.text isStop :=
  Unambiguous.of_no_stop N.injective (fun n c hc => by simp [isStop, N.chars n c hc])

inductive Kind where
  | null
  | bool (b : Bool)
  | num
  | str
  | arr
  | obj
deriving DecidableEq

def kindOf : JsonValue → Kind
  | .prim .null => .null
  | .prim (.bool b) => .bool b
  | .prim (.num _) => .num
  | .prim (.str _) => .str
  | .arr _ => .arr
  | .obj _ => .obj

/-- The kind of a value, from the first character of its text. -/
def startKind (c : UInt16) : Kind :=
  if isNumberChar c then .num
  else if c = 110 then .null
  else if c = 116 then .bool true
  else if c = 102 then .bool false
  else if c = 34 then .str
  else if c = 91 then .arr
  else .obj

theorem canonicalJson_start (v : JsonValue) : ∃ c r, N.canonicalJson v = c :: r ∧ startKind c = kindOf v ∧
    c ≠ 93 := by
  rcases v with (- | (- | -) | n | s) | xs | fs
  · exact ⟨_, _, rfl, rfl, by decide⟩
  · exact ⟨_, _, rfl, rfl, by decide⟩
  · exact ⟨_, _, rfl, rfl, by decide⟩
  · obtain ⟨c, r, hc⟩ := exists_cons_of_ne_nil (N.nonempty n)
    have hchar := N.chars n c (by simp [hc])
    refine ⟨c, r, hc, by rw [startKind, hchar]; rfl, ?_⟩
    rintro rfl
    exact absurd hchar (by decide)
  · exact ⟨_, _, rfl, rfl, by decide⟩
  · exact ⟨_, _, by rw [canonicalJson], rfl, by decide⟩
  · exact ⟨_, _, by rw [canonicalJson], rfl, by decide⟩

variable (v w : JsonValue)

theorem kind_eq (r s : JsString) (h : N.canonicalJson v ++ r = N.canonicalJson w ++ s) : kindOf v = kindOf w := by
  obtain ⟨c, u, hc, hk, -⟩ := N.canonicalJson_start v
  obtain ⟨c', u', hc', hk', -⟩ := N.canonicalJson_start w
  rw [hc, hc'] at h
  rw [← hk, ← hk', (List.cons.inj h).1]

def SameValue (v w : JsonValue) : Prop := v.Wf → w.Wf → Eqv v w

theorem prim_readsAt (p : Primitive) : ReadsAt isStop N.canonicalJson SameValue (.prim p) := by
  intro w r s hr hs heq
  have hkind := N.kind_eq (.prim p) w r s heq
  rcases p with - | b | n | a
  · rcases w with (- | b' | m | b') | ys | gs <;> cases hkind
    exact ⟨fun _ _ => eqv_refl _, append_cancel_left heq⟩
  · rcases w with (- | b' | m | b') | ys | gs <;> cases hkind
    exact ⟨fun _ _ => eqv_refl _, append_cancel_left heq⟩
  · rcases w with (- | b' | m | b') | ys | gs <;> try cases hkind
    obtain ⟨rfl, hrs⟩ := N.number_unambiguous n m r s hr hs heq
    exact ⟨fun _ _ => eqv_refl _, hrs⟩
  · rcases w with (- | b' | m | b') | ys | gs <;> try cases hkind
    obtain ⟨rfl, hrs⟩ := quote_unambiguous a b' r s (fun _ _ => trivial) (fun _ _ => trivial) heq
    exact ⟨fun _ _ => eqv_refl _, hrs⟩

theorem arr_readsAt (xs : List JsonValue) (ih : ∀ x ∈ xs, ReadsAt isStop N.canonicalJson SameValue x) :
    ReadsAt isStop N.canonicalJson SameValue (.arr xs) := by
  intro w r s hr hs heq
  have hkind := N.kind_eq (.arr xs) w r s heq
  rcases w with (- | b | m | b) | ys | gs <;> try cases hkind
  rw [canonicalJson, canonicalJson, itemTexts_eq, itemTexts_eq] at heq
  have hstart : ∀ a, ∃ c r, N.canonicalJson a = c :: r ∧ c ≠ 93 := by
    intro a
    obtain ⟨c, u, hc, -, hne⟩ := N.canonicalJson_start a
    exact ⟨c, u, hc, hne⟩
  obtain ⟨hall, hrs⟩ := separated_at N.canonicalJson SameValue stop_comma stop_bracket
      (by decide) hstart xs ih ys r s
    (List.cons.inj heq).2
  refine ⟨fun hx hy => (eqv_arr_iff xs ys).mpr ?_, hrs⟩
  rw [wf_arr_iff] at hx hy
  refine List.forall₂_iff_get.mpr ⟨hall.length_eq, fun i hi hj => ?_⟩
  exact (List.forall₂_iff_get.mp hall).2 i hi hj (hx _ (getElem_mem hi)) (hy _ (getElem_mem hj))

def fieldText (p : JsString × JsonValue) : JsString := quote p.1 ++ 58 :: N.canonicalJson p.2

theorem field_readsAt (p : JsString × JsonValue) (ih : ReadsAt isStop N.canonicalJson SameValue p.2) :
    ReadsAt isStop N.fieldText (fun p q => p.1 = q.1 ∧ SameValue p.2 q.2) p := by
  intro q r s hr hs heq
  simp only [fieldText, append_assoc] at heq
  obtain ⟨hkey, heq⟩ := quote_unambiguous p.1 q.1 _ _ (fun _ _ => trivial) (fun _ _ => trivial) heq
  obtain ⟨hval, hrs⟩ := ih q.2 r s hr hs (List.cons.inj heq).2
  exact ⟨⟨hkey, hval⟩, hrs⟩

theorem forall₂_get? (fs gs : List (JsString × JsonValue)) (R : JsonValue → JsonValue → Prop)
    (h : List.Forall₂ (fun p q => p.1 = q.1 ∧ R p.2 q.2) fs gs) (k : JsString) :
    Option.Rel R (get? fs k) (get? gs k) := by
  induction h with
  | nil => exact .none
  | cons hpq _ ih =>
    rename_i p q fs gs
    obtain ⟨hkey, hval⟩ := hpq
    rw [get?, get?, hkey]
    split
    · exact .some hval
    · exact ih

theorem obj_readsAt (fs : List (JsString × JsonValue))
    (ih : ∀ p ∈ fs, ReadsAt isStop N.canonicalJson SameValue p.2) :
    ReadsAt isStop N.canonicalJson SameValue (.obj fs) := by
  intro w r s hr hs heq
  have hkind := N.kind_eq (.obj fs) w r s heq
  rcases w with (- | b | m | b) | ys | gs <;> try cases hkind
  rw [canonicalJson_obj, canonicalJson_obj] at heq
  obtain ⟨hall, hrs⟩ := separated_at N.fieldText (fun p q => p.1 = q.1 ∧ SameValue p.2 q.2) stop_comma stop_brace
      (by decide)
    (fun a => ⟨34, _, rfl, by decide⟩) (sortKeys fs)
    (fun p hp => N.field_readsAt p (ih p ((sortKeys_perm fs).mem_iff.mp hp))) (sortKeys gs) r s
        (List.cons.inj heq).2
  refine ⟨fun hf hg => (eqv_obj_iff fs gs).mpr (fun k => ?_), hrs⟩
  rw [wf_obj_iff] at hf hg
  have hget := forall₂_get? _ _ SameValue hall k
  rw [get?_perm _ _ hf.1 (sortKeys_perm fs), get?_perm _ _ hg.1 (sortKeys_perm gs)] at hget
  have hwf : ∀ v, get? fs k = some v → v.Wf := fun v hv => hf.2 _ (mem_of_get? fs k v hv)
  have hwg : ∀ v, get? gs k = some v → v.Wf := fun v hv => hg.2 _ (mem_of_get? gs k v hv)
  generalize get? fs k = a at hget hwf
  generalize get? gs k = b at hget hwg
  cases hget with
  | none => exact .none
  | some h => exact .some (h (hwf _ rfl) (hwg _ rfl))

theorem canonicalJson_readsAt (v : JsonValue) : ReadsAt isStop N.canonicalJson SameValue v := by
  induction v using JsonValue.ind with
  | prim p => exact N.prim_readsAt p
  | arr xs ih => exact N.arr_readsAt xs ih
  | obj fs ih => exact N.obj_readsAt fs ih

/-! ## Equal values have one text -/

theorem canonicalJson_of_eqv (hv : v.Wf) (hw : w.Wf) (h : Eqv v w) : N.canonicalJson v = N.canonicalJson w := by
  induction v using JsonValue.ind generalizing w with
  | prim p =>
    cases h
    rfl
  | arr xs ih =>
    cases w with
    | prim p => cases h
    | obj gs => cases h
    | arr ys =>
      rw [eqv_arr_iff] at h
      rw [wf_arr_iff] at hv hw
      have htexts : xs.map N.canonicalJson = ys.map N.canonicalJson := by
        refine ext_getElem (by simpa using h.length_eq) (fun i hi hj => ?_)
        rw [getElem_map, getElem_map]
        rw [length_map] at hi hj
        exact ih _ (getElem_mem hi) _ (hv _ (getElem_mem hi)) (hw _ (getElem_mem hj))
          ((List.forall₂_iff_get.mp h).2 i hi hj)
      rw [canonicalJson, canonicalJson, itemTexts_eq, itemTexts_eq, htexts]
  | obj fs ih =>
    cases w with
    | prim p => cases h
    | arr ys => cases h
    | obj gs =>
      rw [eqv_obj_iff] at h
      rw [wf_obj_iff] at hv hw
      have hkeys : ∀ l : List (JsString × JsonValue),
          keys (l.map (fun p => (p.1, N.canonicalJson p.2))) = keys l := by
        intro l
        simp [Assoc.keys]
      have hget : ∀ k, (get? fs k).map N.canonicalJson = (get? gs k).map N.canonicalJson := by
        intro k
        have hk := h k
        have hmf := mem_of_get? fs k
        have hmg := mem_of_get? gs k
        generalize get? fs k = a at hk hmf
        generalize get? gs k = b at hk hmg
        cases hk with
        | none => rfl
        | some hxy =>
          have hx := hmf _ rfl
          have hy := hmg _ rfl
          exact congrArg some (ih _ hx _ (hv.2 _ hx) (hw.2 _ hy) hxy)
      have hperm := perm_of_get? (fs.map (fun p => (p.1, N.canonicalJson p.2)))
          (gs.map (fun p => (p.1, N.canonicalJson p.2)))
        (by rw [hkeys]; exact hv.1) (by rw [hkeys]; exact hw.1) (fun k => by
          rw [get?_map, get?_map, hget k])
      have hsort := sortKeys_of_perm _ _ (by rw [hkeys]; exact hw.1) hperm
      unfold sortKeys at hsort
      rw [canonicalJson, canonicalJson, fieldTexts_eq, fieldTexts_eq, hsort]

theorem canonicalJson_eq_iff (hv : v.Wf) (hw : w.Wf) : N.canonicalJson v = N.canonicalJson w ↔ Eqv v w := by
  refine ⟨fun h => ?_, N.canonicalJson_of_eqv v w hv hw⟩
  exact (N.canonicalJson_readsAt v w [] [] (stops_nil _) (stops_nil _) (by rw [h])).1 hv hw

end NumberTexts

end PiAgent
