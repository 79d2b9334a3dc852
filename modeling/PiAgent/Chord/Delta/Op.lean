import Mathlib.Data.List.Perm.Subperm
import Mathlib.Data.List.Range
import PiAgent.Chord.JsonText

/-!
# Operations and paths

The vocabulary of `delta/index.ts` and its checks. An operation that carries a path
is the path with an `Edit`, one edit for each verb.
-/

namespace PiAgent.Delta

open List

/-- A path segment. A number in a path is a non-negative integer; the check refuses every other. -/
inductive Seg where
  | key (k : JsString)
  | index (i : ℕ)
deriving DecidableEq

abbrev Path := List Seg

inductive Edit where
  | s (value : JsonValue)
  | d
  | a (text : JsString)
  | t (count : ℕ)
  | p (index remove : ℕ) (items : List JsonValue)
  | m (permutation : List ℕ)

inductive Op where
  | r (value : JsonValue)
  | edit (path : Path) (e : Edit)

inductive DeltaError where
  | typeError (message : String)
  | unsafePath (segment : Seg)
  | path (path : Path)
  | pathId (id : ℕ)
deriving DecidableEq

/-- `s`, `d`, `a` and `t` name a slot of the container they change. `p` and `m` name the array itself. -/
def Edit.onSlot : Edit → Bool
  | .p .. | .m .. => false
  | _ => true

def isReplace : Op → Bool
  | .r _ => true
  | .edit .. => false

/-- The batch begins with a replacement. -/
def isBase : List Op → Bool
  | [] => false
  | op :: _ => isReplace op

/-! ## Checks -/

def reservedSegments : List JsString := [js "__proto__", js "constructor", js "prototype"]

def assertSafePath : Path → Except DeltaError Unit
  | [] => .ok ()
  | .key k :: rest => if k ∈ reservedSegments then .error (.unsafePath (.key k)) else assertSafePath rest
  | .index _ :: rest => assertSafePath rest

def assertPathArg (path : Path) (nonEmpty : Bool) : Except DeltaError Unit :=
  if nonEmpty && path.isEmpty then .error (.typeError "path is empty") else assertSafePath path

/-- `seen` holds the indices that came before. -/
def checkPermutation (length : ℕ) (seen : List ℕ) : List ℕ → Except DeltaError Unit
  | [] => .ok ()
  | i :: rest =>
    if length ≤ i ∨ i ∈ seen then .error (.typeError "m permutation is not a bijection")
    else checkPermutation length (i :: seen) rest

def assertPermutation (permutation : List ℕ) : Except DeltaError Unit :=
  checkPermutation permutation.length [] permutation

def Edit.assertPayload : Edit → Except DeltaError Unit
  | .m permutation => assertPermutation permutation
  | _ => .ok ()

def assertValidOp : Op → Except DeltaError Unit
  | .r _ => .ok ()
  | .edit path e => do
    assertPathArg path e.onSlot
    e.assertPayload

/-! ## What the checks accept -/

def SafeSeg : Seg → Prop
  | .key k => k ∉ reservedSegments
  | .index _ => True

def SafePath (path : Path) : Prop := ∀ seg ∈ path, SafeSeg seg

def IsPermutation (permutation : List ℕ) : Prop := permutation.Perm (List.range permutation.length)

def Edit.ValidPayload : Edit → Prop
  | .m permutation => IsPermutation permutation
  | _ => True

def Op.Valid : Op → Prop
  | .r _ => True
  | .edit path e => SafePath path ∧ (e.onSlot = true → path ≠ []) ∧ e.ValidPayload

@[simp] theorem safePath_nil : SafePath [] := by simp [SafePath]

@[simp] theorem safePath_cons (seg : Seg) (path : Path) : SafePath (seg :: path) ↔ SafeSeg seg ∧ SafePath path := by
  simp [SafePath]

@[simp] theorem safePath_append (path path' : Path) : SafePath (path ++ path') ↔ SafePath path ∧ SafePath path' := by
  simp [SafePath, or_imp, forall_and]

theorem assertSafePath_iff (path : Path) : assertSafePath path = .ok () ↔ SafePath path := by
  induction path with
  | nil => simp [assertSafePath]
  | cons seg path ih =>
    cases seg with
    | key k =>
      rw [assertSafePath, safePath_cons, SafeSeg]
      split
      · next h => simp [h]
      · next h => simp [h, ih]
    | index i => rw [assertSafePath, ih]; simp [SafeSeg]

theorem checkPermutation_iff (length : ℕ) (seen permutation : List ℕ) :
    checkPermutation length seen permutation = .ok () ↔
      permutation.Nodup ∧ ∀ i ∈ permutation, i < length ∧ i ∉ seen := by
  induction permutation generalizing seen with
  | nil => simp [checkPermutation]
  | cons i rest ih =>
    rw [checkPermutation]
    split
    · next h =>
      simp only [reduceCtorEq, mem_cons, forall_eq_or_imp, false_iff, not_and]
      rintro - ⟨hi, hs⟩
      rcases h with h | h
      · exact absurd hi (by omega)
      · exact absurd h hs
    · next h =>
      rw [not_or, not_le] at h
      rw [ih, nodup_cons]
      constructor
      · rintro ⟨hn, hall⟩
        refine ⟨⟨fun hi => (hall i hi).2 (by simp), hn⟩, fun j hj => ?_⟩
        rcases mem_cons.mp hj with rfl | hj
        · exact h
        · exact ⟨(hall j hj).1, fun hs => (hall j hj).2 (by simp [hs])⟩
      · rintro ⟨⟨hi, hn⟩, hall⟩
        refine ⟨hn, fun j hj => ⟨(hall j (by simp [hj])).1, ?_⟩⟩
        rw [mem_cons, not_or]
        exact ⟨fun e => hi (e ▸ hj), (hall j (by simp [hj])).2⟩

theorem assertPermutation_iff (permutation : List ℕ) :
    assertPermutation permutation = .ok () ↔ IsPermutation permutation := by
  rw [assertPermutation, checkPermutation_iff, IsPermutation]
  constructor
  · rintro ⟨hn, hall⟩
    have hsub : permutation ⊆ List.range permutation.length := fun i hi => mem_range.mpr (hall i hi).1
    exact (hn.subperm hsub).perm_of_length_le (by simp)
  · intro h
    refine ⟨h.nodup_iff.mpr nodup_range, fun i hi => ?_⟩
    exact ⟨mem_range.mp (h.mem_iff.mp hi), by simp⟩

theorem assertPathArg_iff (path : Path) (nonEmpty : Bool) :
    assertPathArg path nonEmpty = .ok () ↔ SafePath path ∧ (nonEmpty = true → path ≠ []) := by
  rw [assertPathArg]
  cases nonEmpty <;> cases path <;> simp [assertSafePath_iff]

theorem assertPayload_iff (e : Edit) : e.assertPayload = .ok () ↔ e.ValidPayload := by
  cases e <;> simp [Edit.assertPayload, Edit.ValidPayload, assertPermutation_iff]

theorem except_bind_ok {ε α : Type} (x : Except ε Unit) (y : Except ε α) (z : α) :
    (x >>= fun _ => y) = .ok z ↔ x = .ok () ∧ y = .ok z := by
  cases x <;> simp [bind, Except.bind]

theorem assertValidOp_iff (op : Op) : assertValidOp op = .ok () ↔ op.Valid := by
  cases op with
  | r value => simp [assertValidOp, Op.Valid]
  | edit path e =>
    rw [assertValidOp, except_bind_ok, assertPathArg_iff, assertPayload_iff, Op.Valid, and_assoc]

/-! ## Path keys -/

def segText : Seg → JsString
  | .key k => quote k
  | .index i => decimal i

/-- `JSON.stringify(path)` -/
def pathKey (path : Path) : JsString := 91 :: separated 44 93 (path.map segText)

theorem segText_unambiguous : Unambiguous segText (fun c => isDigit c = false) := by
  -- A key begins with a quote and an index with a digit.
  have hmixed : ∀ k i (r s : JsString), quote k ++ r ≠ decimal i ++ s := by
    intro k i r s heq
    obtain ⟨c, t, hc⟩ := exists_cons_of_ne_nil (decimal_ne_nil i)
    rw [hc, quote] at heq
    have hd := isDigit_of_mem_decimal i c (by simp [hc])
    rw [← (List.cons.inj heq).1] at hd
    exact absurd hd (by decide)
  intro a b r s hr hs heq
  cases a with
  | key k =>
    cases b with
    | key l =>
      obtain ⟨rfl, h⟩ := (quote_unambiguous.mono (fun _ _ => trivial)) k l r s hr hs heq
      exact ⟨rfl, h⟩
    | index j => exact absurd heq (hmixed k j r s)
  | index i =>
    cases b with
    | key l => exact absurd heq.symm (hmixed l i s r)
    | index j =>
      obtain ⟨rfl, h⟩ := decimal_unambiguous i j r s hr hs heq
      exact ⟨rfl, h⟩

theorem segText_start (seg : Seg) : ∃ c r, segText seg = c :: r ∧ c ≠ 93 := by
  cases seg with
  | key k => exact ⟨34, _, rfl, by decide⟩
  | index i =>
    obtain ⟨c, r, hc⟩ := exists_cons_of_ne_nil (decimal_ne_nil i)
    refine ⟨c, r, hc, ?_⟩
    rintro rfl
    exact absurd (isDigit_of_mem_decimal i 93 (by simp [hc])) (by decide)

theorem pathKey_injective : Function.Injective pathKey := by
  intro p q h
  have := segText_unambiguous.separated 44 93 (by decide) (by decide) (by decide) segText_start
  exact this.injective (List.cons.inj h).2

end PiAgent.Delta
