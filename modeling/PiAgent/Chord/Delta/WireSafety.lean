import PiAgent.Chord.Delta.WireOps

/-!
# What the decoder puts out is safe

Whatever arrives, an operation that leaves the decoder passes the check of decoded
operations, so its path and its permutation are what the applier expects.
-/

namespace PiAgent.Delta.Raw

open Option List

/-! ## What the checks accept -/

def SafeSegment : JsValue → Prop
  | .prim (.str text) => text ∉ reservedSegments
  | segment => ∃ i : ℕ, segment = .prim (.num i)

def SafePath (path : List JsValue) : Prop := ∀ segment ∈ path, SafeSegment segment

def IsBijection (items : List JsValue) : Prop :=
  ∃ permutation : List ℕ, items = permutation.map (fun i : ℕ => .prim (.num i)) ∧ IsPermutation permutation

inductive SafeArgs : Verb → List JsValue → Prop
  | r (value : JsValue) : SafeArgs .r [value]
  | s (path : List JsValue) (value : JsValue) (h : SafePath path) (hne : path ≠ []) : SafeArgs .s [.arr path, value]
  | d (path : List JsValue) (h : SafePath path) (hne : path ≠ []) : SafeArgs .d [.arr path]
  | a (path : List JsValue) (text : JsString) (h : SafePath path) (hne : path ≠ []) :
      SafeArgs .a [.arr path, .prim (.str text)]
  | t (path : List JsValue) (count : ℕ) (h : SafePath path) (hne : path ≠ []) :
      SafeArgs .t [.arr path, .prim (.num count)]
  | p (path : List JsValue) (index remove : ℕ) (items : List JsValue) (h : SafePath path) :
      SafeArgs .p [.arr path, .prim (.num index), .prim (.num remove), .arr items]
  | m (path items : List JsValue) (h : SafePath path) (hp : IsBijection items) : SafeArgs .m [.arr path, .arr items]

def SafeOp (op : JsValue) : Prop := ∃ verb args, op = .arr (verb.value :: args) ∧ SafeArgs verb args

theorem check_iff (holds : Bool) (message : String) : check holds message = .ok () ↔ holds = true := by
  unfold check
  cases holds <;> simp

theorem checked_bind (x y : Checked) : (do x; y) = .ok () ↔ x = .ok () ∧ y = .ok () := except_bind_ok x y ()

variable (value : JsValue)

theorem isIndex_iff : isIndex value = true ↔ ∃ i : ℕ, value = .prim (.num i) := by
  unfold isIndex
  split
  · rename_i n
    simp only [Bool.and_eq_true, beq_iff_eq, decide_eq_true_eq, JsValue.prim.injEq, Primitive.num.injEq]
    constructor
    · rintro ⟨hden, hpos⟩
      refine ⟨n.num.toNat, ?_⟩
      have hnum : (0 : ℤ) ≤ n.num := Rat.num_nonneg.mpr hpos
      have hn : n = (n.num : ℚ) := (Rat.den_eq_one_iff n).mp hden |>.symm
      conv_lhs => rw [hn]
      rw [← Int.cast_natCast, Int.toNat_of_nonneg hnum]
    · rintro ⟨i, rfl⟩
      exact ⟨Rat.den_natCast i, Nat.cast_nonneg i⟩
  · rename_i hno
    simp only [Bool.false_eq_true, false_iff, not_exists]
    rintro i rfl
    exact hno _ rfl

theorem isString_iff : isString value = true ↔ ∃ text, value = .prim (.str text) := by
  unfold isString
  split <;> simp_all

theorem isArray_iff : isArray value = true ↔ ∃ items, value = .arr items := by
  unfold isArray
  split <;> simp_all

theorem isSafeSegment_iff (segment : JsValue) : isSafeSegment segment = true ↔ SafeSegment segment := by
  unfold isSafeSegment
  split
  · simp [SafeSegment]
  · rename_i hno
    rw [isIndex_iff]
    unfold SafeSegment
    split
    · rename_i text
      exact absurd rfl (hno text)
    · rfl

theorem assertSafePath_iff (path : List JsValue) : assertSafePath path = .ok () ↔ SafePath path := by
  unfold SafePath
  induction path with
  | nil => simp [assertSafePath]
  | cons segment rest ih =>
    rw [forall_mem_cons, ← ih, assertSafePath, ← isSafeSegment_iff]
    split
    · next h => simp [h]
    · next h => simp [h]

theorem assertPathArg_iff (path : JsValue) (nonEmpty : Bool) : assertPathArg path nonEmpty = .ok () ↔
    ∃ segments, path = .arr segments ∧ SafePath segments ∧ (nonEmpty = true → segments ≠ []) := by
  unfold assertPathArg
  split
  · rename_i segments
    rw [checked_bind, check_iff, assertSafePath_iff]
    constructor
    · rintro ⟨hempty, hsafe⟩
      refine ⟨segments, rfl, hsafe, ?_⟩
      rintro rfl rfl
      simp at hempty
    · rintro ⟨segments', heq, hsafe, hne⟩
      obtain rfl := JsValue.arr.inj heq
      refine ⟨?_, hsafe⟩
      cases nonEmpty with
      | false => rfl
      | true => simpa using hne rfl
  · rename_i hno
    simp only [reduceCtorEq, false_iff, not_exists, not_and]
    intro segments heq
    exact absurd heq (hno segments)

theorem checkPermutation_iff (length : ℕ) (seen : List ℕ) (items : List JsValue) :
    checkPermutation length (seen.map (fun i : ℕ => (i : ℚ))) items = .ok () ↔
      ∃ permutation : List ℕ, items = permutation.map (fun i : ℕ => .prim (.num i)) ∧
        Delta.checkPermutation length seen permutation = .ok () := by
  induction items generalizing seen with
  | nil =>
    simp only [checkPermutation, true_iff]
    exact ⟨[], rfl, rfl⟩
  | cons item items ih =>
    constructor
    · intro h
      unfold checkPermutation at h
      split at h
      · rename_i heq
        cases heq
      · rename_i n rest heq
        obtain ⟨rfl, rfl⟩ := List.cons.inj heq
        split at h
        · cases h
        · rename_i hgood
          simp only [not_or, not_not, not_lt, not_le] at hgood
          obtain ⟨hden, hpos, hlt, hfresh⟩ := hgood
          obtain ⟨i, hi⟩ := (isIndex_iff (.prim (.num n))).mp (by simp [isIndex, hden, hpos])
          obtain rfl : n = (i : ℚ) := by simpa using hi
          obtain ⟨permutation, rfl, hrest⟩ := (ih (i :: seen)).mp (by simpa using h)
          refine ⟨i :: permutation, rfl, ?_⟩
          unfold Delta.checkPermutation
          have hin : i < length := by exact_mod_cast hlt
          have hnew : i ∉ seen := fun hmem => hfresh (mem_map.mpr ⟨i, hmem, rfl⟩)
          rw [if_neg (by simp [hnew]; omega)]
          exact hrest
      · cases h
    · rintro ⟨permutation, heq, h⟩
      cases permutation with
      | nil => cases heq
      | cons i permutation =>
        obtain ⟨rfl, rfl⟩ := List.cons.inj heq
        unfold Delta.checkPermutation at h
        split at h
        · cases h
        · rename_i hgood
          rw [not_or, not_le] at hgood
          unfold checkPermutation
          have hnew : (i : ℚ) ∉ seen.map (fun i : ℕ => (i : ℚ)) := by
            intro hmem
            obtain ⟨j, hj, hji⟩ := mem_map.mp hmem
            obtain rfl : j = i := by exact_mod_cast hji
            exact hgood.2 hj
          have hlt : ¬(length : ℚ) ≤ (i : ℚ) := by exact_mod_cast not_le.mpr hgood.1
          rw [if_neg (by simp [hnew, hlt])]
          exact (ih (i :: seen)).mpr ⟨permutation, rfl, h⟩

theorem assertPermutation_iff :
    assertPermutation value = .ok () ↔ ∃ items, value = .arr items ∧ IsBijection items := by
  unfold assertPermutation
  split
  · rename_i items
    have hchecked := checkPermutation_iff items.length [] items
    rw [map_nil] at hchecked
    rw [hchecked]
    constructor
    · rintro ⟨permutation, hitems, h⟩
      refine ⟨items, rfl, permutation, hitems, ?_⟩
      rw [← Delta.assertPermutation_iff, Delta.assertPermutation]
      simpa [hitems] using h
    · rintro ⟨items', heq, permutation, hitems, h⟩
      obtain rfl := JsValue.arr.inj heq
      refine ⟨permutation, hitems, ?_⟩
      rw [← Delta.assertPermutation_iff, Delta.assertPermutation] at h
      simpa [hitems] using h
  · rename_i hno
    simp only [reduceCtorEq, false_iff, not_exists, not_and]
    intro items heq
    exact absurd heq (hno items)

variable (verb : Verb)

theorem assertValidArgs_iff (args : List JsValue) : assertValidArgs verb args = .ok () ↔ SafeArgs verb args := by
  constructor
  · intro h
    unfold assertValidArgs at h
    split at h
    · exact .r _
    · cases h
    · obtain ⟨path, rfl, hsafe, hne⟩ := (assertPathArg_iff _ _).mp h
      exact .s path _ hsafe (hne rfl)
    · cases h
    · obtain ⟨path, rfl, hsafe, hne⟩ := (assertPathArg_iff _ _).mp h
      exact .d path hsafe (hne rfl)
    · cases h
    · rw [checked_bind, check_iff, isString_iff, assertPathArg_iff] at h
      obtain ⟨⟨text, rfl⟩, path, rfl, hsafe, hne⟩ := h
      exact .a path text hsafe (hne rfl)
    · cases h
    · rw [checked_bind, check_iff, isIndex_iff, assertPathArg_iff] at h
      obtain ⟨⟨count, rfl⟩, path, rfl, hsafe, hne⟩ := h
      exact .t path count hsafe (hne rfl)
    · cases h
    · rw [checked_bind, checked_bind, checked_bind, assertPathArg_iff, check_iff, check_iff, check_iff, isIndex_iff,
        isIndex_iff, isArray_iff] at h
      obtain ⟨⟨path, rfl, hsafe, -⟩, ⟨index, rfl⟩, ⟨remove, rfl⟩, items, rfl⟩ := h
      exact .p path index remove items hsafe
    · cases h
    · rw [checked_bind, assertPathArg_iff, assertPermutation_iff] at h
      obtain ⟨⟨path, rfl, hsafe, -⟩, items, rfl, hperm⟩ := h
      exact .m path items hsafe hperm
    · cases h
    · cases h
  · intro h
    cases h with
    | r value => rfl
    | s path value h hne => exact (assertPathArg_iff _ _).mpr ⟨path, rfl, h, fun _ => hne⟩
    | d path h hne => exact (assertPathArg_iff _ _).mpr ⟨path, rfl, h, fun _ => hne⟩
    | a path text h hne =>
      exact (checked_bind _ _).mpr ⟨rfl, (assertPathArg_iff _ _).mpr ⟨path, rfl, h, fun _ => hne⟩⟩
    | t path count h hne =>
      exact (checked_bind _ _).mpr ⟨(check_iff _ _).mpr ((isIndex_iff _).mpr ⟨count, rfl⟩),
        (assertPathArg_iff _ _).mpr ⟨path, rfl, h, fun _ => hne⟩⟩
    | p path index remove items h =>
      refine (checked_bind _ _).mpr ⟨(assertPathArg_iff _ _).mpr ⟨path, rfl, h, by simp⟩, ?_⟩
      refine (checked_bind _ _).mpr ⟨(check_iff _ _).mpr ((isIndex_iff _).mpr ⟨index, rfl⟩), ?_⟩
      exact (checked_bind _ _).mpr ⟨(check_iff _ _).mpr ((isIndex_iff _).mpr ⟨remove, rfl⟩), rfl⟩
    | m path items h hp =>
      exact (checked_bind _ _).mpr ⟨(assertPathArg_iff _ _).mpr ⟨path, rfl, h, by simp⟩,
        (assertPermutation_iff _).mpr ⟨items, rfl, hp⟩⟩

theorem verbOf_value : verbOf verb.value = some verb := by
  cases verb <;> decide

theorem verbOf_eq (h : verbOf value = some verb) : value = verb.value := by
  unfold verbOf at h
  split at h
  · have := find?_some h
    simp only [decide_eq_true_eq] at this
    rw [Verb.value, this]
  · cases h

theorem assertValidOp_iff (op : JsValue) : assertValidOp op = .ok () ↔ SafeOp op := by
  unfold SafeOp
  constructor
  · intro h
    unfold assertValidOp at h
    split at h
    · rename_i value args
      split at h
      · cases h
      · rename_i verb hverb
        exact ⟨verb, args, by rw [verbOf_eq value verb hverb], (assertValidArgs_iff verb args).mp h⟩
    · cases h
  · rintro ⟨verb, args, rfl, h⟩
    unfold assertValidOp
    simp only [verbOf_value]
    exact (assertValidArgs_iff verb args).mpr h

/-! ## One operation -/

theorem okRef_inline (path : List JsValue) : okRef (.arr path) = .ok () ↔ SafePath path := assertSafePath_iff path

section

variable (args path : List JsValue) (hverb : verb ≠ .r ∧ verb ≠ .define)
    (h : assertValidWireArgs verb args = .ok ())
include hverb h

theorem inline_safe (hlong : isShort verb args = false) (hhead : args.head? = some (.arr path)) : SafePath path := by
  unfold assertValidWireArgs at h
  split at h
  all_goals first
    | exact absurd rfl hverb.1
    | exact absurd rfl hverb.2
    | (simp [isShort] at hlong; done)
    | (simp at h; done)
    | skip
  · obtain rfl := some.inj hhead
    exact (okRef_inline path).mp h
  · obtain rfl := some.inj hhead
    exact (okRef_inline path).mp h
  · obtain rfl := some.inj hhead
    exact (okRef_inline path).mp ((checked_bind _ _).mp h).1
  · obtain rfl := some.inj hhead
    exact (okRef_inline path).mp ((checked_bind _ _).mp h).1
  · obtain rfl := some.inj hhead
    exact (okRef_inline path).mp ((checked_bind _ _).mp ((checked_bind _ _).mp h).2).1
  · obtain rfl := some.inj hhead
    exact (okRef_inline path).mp ((checked_bind _ _).mp h).1

theorem decoded_safe (hsafe : SafePath path) (hne : ¬(verb ≠ .p ∧ verb ≠ .m ∧ path.isEmpty = true)) :
    SafeArgs verb (.arr path :: (if isShort verb args then args else args.tail)) := by
  unfold assertValidWireArgs at h
  split at h
  all_goals first
    | exact absurd rfl hverb.1
    | exact absurd rfl hverb.2
    | (simp at h; done)
    | skip
  all_goals simp only [isShort, length_cons, length_nil, tail_cons] at hne ⊢
  · exact .s path _ hsafe (by simpa using hne)
  · exact .s path _ hsafe (by simpa using hne)
  · exact .d path hsafe (by simpa using hne)
  · exact .d path hsafe (by simpa using hne)
  · rw [checked_bind, check_iff, isString_iff] at h
    obtain ⟨-, text, rfl⟩ := h
    exact .a path text hsafe (by simpa using hne)
  · rw [check_iff, isString_iff] at h
    obtain ⟨text, rfl⟩ := h
    exact .a path text hsafe (by simpa using hne)
  · rw [checked_bind, check_iff, isIndex_iff] at h
    obtain ⟨-, count, rfl⟩ := h
    exact .t path count hsafe (by simpa using hne)
  · rw [check_iff, isIndex_iff] at h
    obtain ⟨count, rfl⟩ := h
    exact .t path count hsafe (by simpa using hne)
  · rw [checked_bind, checked_bind, assertSplice, checked_bind, checked_bind, check_iff, check_iff, check_iff,
        check_iff,
      isIndex_iff, isIndex_iff, isArray_iff] at h
    obtain ⟨-, -, ⟨index, rfl⟩, ⟨remove, rfl⟩, items, rfl⟩ := h
    exact .p path index remove items hsafe
  · rw [checked_bind, assertSplice, checked_bind, checked_bind, check_iff, check_iff, check_iff, check_iff,
      isIndex_iff, isIndex_iff, isArray_iff] at h
    obtain ⟨-, ⟨index, rfl⟩, ⟨remove, rfl⟩, items, rfl⟩ := h
    exact .p path index remove items hsafe
  · rw [checked_bind, assertPermutation_iff] at h
    obtain ⟨-, items, rfl, hperm⟩ := h
    exact .m path items hsafe hperm
  · rw [assertPermutation_iff] at h
    obtain ⟨items, rfl, hperm⟩ := h
    exact .m path items hsafe hperm

end

/-! ## Batches -/

def PathsSafe (paths : Paths) : Prop := ∀ id path, Assoc.get? paths id = some path → SafePath path

structure Good (st : Decoding) : Prop where
  paths : PathsSafe st.paths
  previous : ∀ path, st.previous = some path → SafePath path

theorem pathsSafe_nil : PathsSafe [] := by
  intro id path h
  simp [Assoc.get?] at h

theorem PathsSafe.set (paths : Paths) (h : PathsSafe paths) (id : ℚ) (path : List JsValue) (hsafe : SafePath path) :
    PathsSafe (Assoc.set paths id path) := by
  intro id' path' hget
  rw [Assoc.get?_set] at hget
  split at hget
  · obtain rfl := some.inj hget
    exact hsafe
  · exact h id' path' hget

theorem pathOf_safe (st : Decoding) (hst : Good st) (verb : Verb) (args path : List JsValue)
    (hverb : verb ≠ .r ∧ verb ≠ .define) (h : assertValidWireArgs verb args = .ok ())
    (hpath : pathOf st (isShort verb args) args = .ok path) : SafePath path := by
  unfold pathOf at hpath
  split at hpath
  · split at hpath
    · cases hpath
    · rename_i previous hprevious
      obtain rfl := Except.ok.inj hpath
      exact hst.previous _ hprevious
  · rename_i hlong
    split at hpath
    · split at hpath
      · cases hpath
      · rename_i resolved hresolved
        obtain rfl := Except.ok.inj hpath
        exact hst.paths _ _ hresolved
    · rename_i inline hhead
      obtain rfl := Except.ok.inj hpath
      exact inline_safe verb args _ hverb h (by simpa using hlong) hhead
    · cases hpath

variable (st st' : Decoding)

theorem decodeEdit_safe (hst : Good st) (verb : Verb) (args : List JsValue) (out : Option JsValue)
    (hverb : verb ≠ .r ∧ verb ≠ .define) (hvalid : assertValidWireArgs verb args = .ok ())
    (h : decodeEdit st verb args = .ok (st', out)) : Good st' ∧ ∀ o ∈ out, SafeOp o := by
  unfold decodeEdit at h
  cases hpath : pathOf st (isShort verb args) args with
  | error e => simp [hpath] at h
  | ok path =>
    simp only [hpath] at h
    have hsafe := pathOf_safe st hst verb args path hverb hvalid hpath
    split at h
    · cases h
    · rename_i hne
      obtain ⟨rfl, rfl⟩ := Prod.mk.inj (Except.ok.inj h)
      refine ⟨⟨hst.paths, ?_⟩, ?_⟩
      · intro previous hprevious
        simp only at hprevious
        split at hprevious
        · exact hst.previous previous hprevious
        · obtain rfl := some.inj hprevious
          exact hsafe
      · intro o ho
        obtain rfl := some.inj ho
        exact ⟨verb, _, rfl, decoded_safe verb args path hverb hvalid hsafe hne⟩

theorem decodeVerb_safe (hst : Good st) (verb : Verb) (args : List JsValue) (out : Option JsValue)
    (hvalid : assertValidWireArgs verb args = .ok ()) (h : decodeVerb st verb args = .ok (st', out)) :
    Good st' ∧ ∀ o ∈ out, SafeOp o := by
  unfold decodeVerb at h
  split at h
  · split at h
    · rename_i id path
      cases hsafe : assertSafePath path with
      | error e => simp [hsafe, Except.map] at h
      | ok u =>
        simp only [hsafe, Except.map, Except.ok.injEq, Prod.mk.injEq] at h
        obtain ⟨rfl, rfl⟩ := h
        exact ⟨⟨hst.paths.set _ _ _ ((assertSafePath_iff _).mp hsafe), hst.previous⟩, by simp⟩
    · obtain ⟨rfl, rfl⟩ := Prod.mk.inj (Except.ok.inj h)
      exact ⟨hst, by simp⟩
  · -- a replacement clears the dictionary
    obtain ⟨rfl, rfl⟩ := Prod.mk.inj (Except.ok.inj h)
    refine ⟨⟨pathsSafe_nil, by simp⟩, ?_⟩
    intro o ho
    obtain rfl := some.inj ho
    refine ⟨.r, _, rfl, ?_⟩
    rw [← assertValidArgs_iff]
    unfold assertValidWireArgs at hvalid
    unfold assertValidArgs
    split at hvalid <;> simp_all
  · rename_i hdefine hr
    exact decodeEdit_safe st st' hst verb args out ⟨hr, hdefine⟩ hvalid h

theorem decodeOp_safe (hst : Good st) (op : JsValue) (out : Option JsValue)
    (h : decodeOp st op = .ok (st', out)) : Good st' ∧ ∀ o ∈ out, SafeOp o := by
  unfold decodeOp at h
  split at h
  · cases h
  · rename_i verb args hvalid
    unfold assertValidWireOp at hvalid
    simp only at hvalid
    cases hverb : verbOf verb with
    | none => simp [hverb] at hvalid
    | some verb' =>
      simp only [hverb] at h hvalid
      exact decodeVerb_safe st st' hst verb' args out hvalid h
  · obtain ⟨rfl, rfl⟩ := Prod.mk.inj (Except.ok.inj h)
    exact ⟨hst, by simp⟩

theorem decodeOps_safe (wire : List JsValue) (st : Decoding) (hst : Good st) :
    PathsSafe (decodeOps st wire).1 ∧ ∀ ops, (decodeOps st wire).2 = .ok ops → ∀ op ∈ ops, SafeOp op := by
  induction wire generalizing st with
  | nil =>
    refine ⟨hst.paths, ?_⟩
    intro ops h
    obtain rfl := Except.ok.inj h
    simp
  | cons op wire ih =>
    unfold decodeOps
    cases hop : decodeOp st op with
    | error e => exact ⟨hst.paths, by simp⟩
    | ok p =>
      obtain ⟨st', out⟩ := p
      obtain ⟨hst', hout⟩ := decodeOp_safe st st' hst op out hop
      obtain ⟨hpaths, hrest⟩ := ih st' hst'
      refine ⟨hpaths, ?_⟩
      intro ops h o ho
      simp only at h
      cases hdecoded : (decodeOps st' wire).2 with
      | error e => simp [hdecoded, Except.map] at h
      | ok rest =>
        simp only [hdecoded, Except.map, Except.ok.injEq] at h
        subst h
        rcases mem_append.mp ho with ho | ho
        · exact hout o (mem_toList.mp ho)
        · exact hrest rest hdecoded o ho

theorem decoder_paths (earlier : List (List JsValue)) : PathsSafe (decoder.run earlier) :=
  decoder.runFrom_induction (P := PathsSafe)
    (fun paths wire h =>
        (decodeOps_safe wire { paths := paths, previous := none } ⟨h, by simp⟩).1) _ pathsSafe_nil earlier

/-! ## The result -/

/-- Whatever a decoder was given before, what it puts out of a batch passes the check of decoded operations. -/
theorem decode_safe (earlier : List (List JsValue)) (wire ops : List JsValue)
    (h : (decode (decoder.run earlier) wire).2 = .ok ops) : ∀ op ∈ ops, assertValidOp op = .ok () ∧ SafeOp op := by
  intro op hop
  have hsafe := (decodeOps_safe wire { paths := decoder.run earlier, previous := none }
    ⟨decoder_paths earlier, by simp⟩).2 ops h op hop
  exact ⟨(assertValidOp_iff op).mpr hsafe, hsafe⟩

/-- A batch that defines a path and fails, and one that names the path by its ID and then leaves it out. -/
def definition : List JsValue :=
  [.arr [Verb.define.value, .prim (.num 0), .arr [.prim (.str (js "xs"))]], .arr [Verb.d.value]]

def references : List JsValue :=
  [.arr [Verb.p.value, .prim (.num 0), .prim (.num 0), .prim (.num 1), .arr []], .arr [Verb.d.value]]

def referenced : List JsValue :=
  [.arr [Verb.p.value, .arr [.prim (.str (js "xs"))], .prim (.num 0), .prim (.num 1), .arr []],
    .arr [Verb.d.value, .arr [.prim (.str (js "xs"))]]]

theorem decode_safe_references : (decode (decoder.run [definition]) references).2 = .ok referenced ∧
      ∀ op ∈ referenced, assertValidOp op = .ok () ∧ SafeOp op :=
  ⟨rfl, decode_safe [definition] references referenced rfl⟩

end PiAgent.Delta.Raw
