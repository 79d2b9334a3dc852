import PiAgent.Chord.Delta.Op

/-!
# Applying operations

`apply` of `delta/index.ts`, on trees. The code changes its target in place; here a
changed tree is a new tree.
-/

namespace PiAgent.Delta

open List Assoc JsonValue

/-- The property a segment names on an object. -/
def Seg.property : Seg → JsString
  | .key k => k
  | .index i => decimal i

/-! ## Arrays -/

/-- `Array.prototype.splice`, with a start and a count that are not negative. -/
def splice {α : Type} (xs : List α) (start deleteCount : ℕ) (items : List α) : List α :=
  xs.take start ++ items ++ xs.drop (start + deleteCount)

def chunkSize : ℕ := 10000

/-- The items go in by chunks, each behind the one before. -/
def insertChunks {α : Type} (size : ℕ) (xs : List α) (index : ℕ) (items : List α) : List α :=
  (List.range ((items.length + size - 1) / size)).foldl
    (fun xs c => splice xs (index + c * size) 0 ((items.drop (c * size)).take size)) xs

/-- `new[i] = old[permutation[i]]` -/
def permute {α : Type} (xs : List α) (permutation : List ℕ) : List α := permutation.filterMap (fun i => xs[i]?)

/-! ## Walking down a path -/

/-- `resolve`, and what happens at its end. `full` is the path that an error names. -/
def modifyAt (full : Path) (f : JsonValue → Except DeltaError JsonValue) : Path → JsonValue → Except DeltaError JsonValue
  | [], node => f node
  | _ :: _, .prim _ => .error (.path full)
  | .key k :: _, .arr _ => .error (.unsafePath (.key k))
  | .index i :: rest, .arr xs =>
    match xs[i]? with
    | none => .error (.path full)
    | some x => (modifyAt full f rest x).map (fun y => .arr (xs.set i y))
  | seg :: rest, .obj fs =>
    match get? fs seg.property with
    | none => .error (.path full)
    | some x => (modifyAt full f rest x).map (fun y => .obj (set fs seg.property y))

/-! ## Edits -/

def Edit.onArray (path : Path) : Edit → JsonValue → Except DeltaError JsonValue
  | .p index remove items, .arr xs => .ok (.arr (insertChunks chunkSize (splice xs index remove []) index items))
  | .m permutation, .arr xs =>
    if xs.length ≠ permutation.length then .error (.path path) else .ok (.arr (permute xs permutation))
  | _, _ => .error (.path path)

/-- The value a slot has after the edit; `none` for a deleted one. -/
def Edit.newValue (path : Path) (current : Option JsonValue) : Edit → Except DeltaError (Option JsonValue)
  | .s value => .ok (some value)
  | .a text =>
    match current with
    | some (.prim (.str c)) => .ok (some (str (c ++ text)))
    | _ => .error (.path path)
  | .t count =>
    match current with
    | some (.prim (.str c)) => .ok (some (str (c.drop count)))
    | _ => .error (.path path)
  | _ => .ok none

def Edit.onItem (path : Path) (xs : List JsonValue) (i : ℕ) (e : Edit) : Except DeltaError JsonValue :=
  -- An index may name an item or the place behind the last one.
  if xs.length < i then .error (.unsafePath (.index i))
  else do
    match ← e.newValue path xs[i]? with
    | some value => return .arr (if i < xs.length then xs.set i value else xs ++ [value])
    | none => if xs.length ≤ i then throw (.path path) else return .arr (xs.eraseIdx i)

def Edit.onProperty (path : Path) (fs : List (JsString × JsonValue)) (key : JsString) (e : Edit) :
    Except DeltaError JsonValue := do
  match ← e.newValue path (get? fs key) with
  | some value => return .obj (set fs key value)
  | none => return .obj (del fs key)

def Edit.onParent (path : Path) (key : Seg) (e : Edit) : JsonValue → Except DeltaError JsonValue
  | .prim _ => .error (.path path.dropLast)
  | .arr xs =>
    match key with
    | .key k => .error (.unsafePath (.key k))
    | .index i => e.onItem path xs i
  | .obj fs => e.onProperty path fs key.property

/-! ## Operations and batches -/

def Edit.applyAt (path : Path) (e : Edit) (root : JsonValue) : Except DeltaError JsonValue :=
  if e.onSlot then
    match path.getLast? with
    | none => .error (.typeError "path is empty")
    | some key => modifyAt path.dropLast (e.onParent path key) path.dropLast root
  else modifyAt path (e.onArray path) path root

def applyOp (root : JsonValue) (op : Op) : Except DeltaError JsonValue := do
  assertValidOp op
  match op with
  | .r value => return value
  | .edit path e => e.applyAt path root

def apply (root : JsonValue) : List Op → Except DeltaError JsonValue
  | [] => .ok root
  | op :: ops => do
    let root ← applyOp root op
    apply root ops

@[simp] theorem apply_nil (root : JsonValue) : apply root [] = .ok root := rfl

theorem apply_cons (root root' : JsonValue) (op : Op) (ops : List Op) (h : applyOp root op = .ok root') :
    apply root (op :: ops) = apply root' ops := by
  simp [apply, h, bind, Except.bind]

theorem apply_append (root root' : JsonValue) (ops ops' : List Op) (h : apply root ops = .ok root') :
    apply root (ops ++ ops') = apply root' ops' := by
  induction ops generalizing root with
  | nil => cases h; rfl
  | cons op ops ih =>
    cases hop : applyOp root op with
    | error e => simp [apply, hop, bind, Except.bind] at h
    | ok root₁ =>
      rw [apply_cons root root₁ op ops hop] at h
      rw [cons_append, apply_cons root root₁ op _ hop]
      exact ih root₁ h

theorem apply_singleton (root root' : JsonValue) (op : Op) (h : applyOp root op = .ok root') :
    apply root [op] = .ok root' := by
  rw [apply_cons root root' op [] h, apply_nil]

theorem applyOp_valid (root : JsonValue) (path : Path) (e : Edit) (h : (Op.edit path e).Valid) :
    applyOp root (.edit path e) = e.applyAt path root := by
  simp [applyOp, (assertValidOp_iff _).mpr h, bind, Except.bind]

theorem applyOp_r (root value : JsonValue) : applyOp root (.r value) = .ok value := rfl

/-! ## Splices in chunks -/

section Splice

variable {α : Type}

theorem splice_nil (xs : List α) (index : ℕ) : splice xs index 0 [] = xs := by
  simp [splice]

theorem splice_splice (xs : List α) (index count : ℕ) (items items' : List α) (hc : items.length = count) :
    splice (splice xs index 0 items) (index + count) 0 items' = splice xs index 0 (items ++ items') := by
  subst hc
  simp only [splice, Nat.add_zero, append_assoc]
  rcases Nat.lt_or_ge xs.length index with h | h
  · have htake : xs.take index = xs := take_of_length_le (by omega)
    have hdrop : xs.drop index = [] := drop_eq_nil_of_le (by omega)
    have hlen : (xs ++ items).length ≤ index + items.length := by simp; omega
    rw [htake, hdrop, append_nil, take_of_length_le hlen, drop_eq_nil_of_le hlen]
    simp
  · have hlen : (xs.take index ++ items).length = index + items.length := by simp; omega
    rw [← append_assoc (xs.take index) items, ← hlen, take_left, drop_left]
    simp

theorem foldl_chunks (size : ℕ) (hs : 0 < size) (xs : List α) (index n : ℕ) (items : List α)
    (hn : n ≤ (items.length + size - 1) / size) :
    (List.range n).foldl (fun xs c => splice xs (index + c * size) 0 ((items.drop (c * size)).take size)) xs
      = splice xs index 0 (items.take (n * size)) := by
  induction n with
  | zero => simp [splice_nil]
  | succ n ih =>
    rw [range_succ, foldl_append, ih (by omega), foldl_cons, foldl_nil]
    -- Every chunk before the last is full.
    have hfull : n * size < items.length := by
      have : (n + 1) * size ≤ items.length + size - 1 := (Nat.le_div_iff_mul_le hs).mp hn
      rw [Nat.add_mul, Nat.one_mul] at this
      omega
    have hlen : (items.take (n * size)).length = n * size := by
      rw [length_take]
      omega
    rw [splice_splice xs index _ _ _ hlen, Nat.add_mul, Nat.one_mul, take_add]

theorem insertChunks_eq (size : ℕ) (hs : 0 < size) (xs : List α) (index : ℕ) (items : List α) :
    insertChunks size xs index items = splice xs index 0 items := by
  have hcover : items.length ≤ (items.length + size - 1) / size * size := by
    have := Nat.div_add_mod (items.length + size - 1) size
    have := Nat.mod_lt (items.length + size - 1) hs
    rw [Nat.mul_comm]
    omega
  rw [insertChunks, foldl_chunks size hs xs index _ items (Nat.le_refl _), take_of_length_le hcover]

theorem insertChunks_splice (xs : List α) (index remove : ℕ) (items : List α) :
    insertChunks chunkSize (splice xs index remove []) index items = splice xs index remove items := by
  rw [insertChunks_eq _ (by decide)]
  simp only [splice, Nat.add_zero, append_nil]
  rcases Nat.lt_or_ge xs.length index with h | h
  · have htake : xs.take index = xs := take_of_length_le (by omega)
    have hdrop : xs.drop (index + remove) = [] := drop_eq_nil_of_le (by omega)
    simp [htake, hdrop, drop_eq_nil_of_le (Nat.le_of_lt h)]
  · have hlen : (xs.take index).length = index := by simp; omega
    rw [take_append_of_le_length (by omega), drop_append_of_le_length (by omega)]
    simp [take_take]

theorem splice_middle (pre old post items : List α) :
    splice (pre ++ old ++ post) pre.length old.length items = pre ++ items ++ post := by
  rw [splice, append_assoc pre old post, take_left, ← append_assoc, ← length_append, drop_left]

end Splice

/-! ## Places in a tree -/

inductive Frame where
  | item (before after : List JsonValue)
  | field (before : List (JsString × JsonValue)) (key : JsString) (after : List (JsString × JsonValue))

def Frame.fill : Frame → JsonValue → JsonValue
  | .item before after, v => .arr (before ++ v :: after)
  | .field before key after, v => .obj (before ++ (key, v) :: after)

def Frame.seg : Frame → Seg
  | .item before _ => .index before.length
  | .field _ key _ => .key key

/-- The open field is the first with its key, and an operation may name it. -/
def Frame.Ok : Frame → Prop
  | .item .. => True
  | .field before key _ => key ∉ keys before ∧ key ∉ reservedSegments

/-- A place in a tree, from the root down. -/
abbrev Place := List Frame

namespace Place

def plug (place : Place) (v : JsonValue) : JsonValue := place.foldr Frame.fill v

def path (place : Place) : Path := place.map Frame.seg

def Ok (place : Place) : Prop := ∀ frame ∈ place, frame.Ok

@[simp] theorem plug_nil (v : JsonValue) : plug [] v = v := rfl

@[simp] theorem plug_cons (frame : Frame) (place : Place) (v : JsonValue) :
    plug (frame :: place) v = frame.fill (plug place v) := rfl

@[simp] theorem plug_append (place place' : Place) (v : JsonValue) :
    plug (place ++ place') v = plug place (plug place' v) := by
  simp [plug]

@[simp] theorem path_nil : path [] = [] := rfl

@[simp] theorem path_append (place place' : Place) : path (place ++ place') = path place ++ path place' := by
  simp [path]

@[simp] theorem path_singleton (frame : Frame) : path [frame] = [frame.seg] := rfl

@[simp] theorem ok_nil : Ok [] := by simp [Ok]

@[simp] theorem ok_append (place place' : Place) : Ok (place ++ place') ↔ Ok place ∧ Ok place' := by
  simp [Ok, or_imp, forall_and]

@[simp] theorem ok_singleton (frame : Frame) : Ok [frame] ↔ frame.Ok := by simp [Ok]

theorem safePath (place : Place) (h : place.Ok) : SafePath place.path := by
  intro seg hseg
  obtain ⟨frame, hframe, rfl⟩ := mem_map.mp hseg
  cases frame with
  | item before after => exact trivial
  | field before key after => exact (h _ hframe).2

end Place

theorem except_map_map {ε α β γ : Type} (f : α → β) (g : β → γ) (x : Except ε α) :
    (x.map f).map g = x.map (fun a => g (f a)) := by
  cases x <;> rfl

/-- What is done at the end of a path is done at the place, and the tree around it stays. -/
theorem modifyAt_plug (full : Path) (f : JsonValue → Except DeltaError JsonValue) (place : Place) (rest : Path)
    (v : JsonValue) (h : place.Ok) :
    modifyAt full f (place.path ++ rest) (place.plug v) = (modifyAt full f rest v).map place.plug := by
  induction place with
  | nil => simp [Except.map]; cases modifyAt full f rest v <;> rfl
  | cons frame place ih =>
    have ih := ih (fun fr hfr => h fr (by simp [hfr]))
    have hf : frame.Ok := h frame (by simp)
    cases frame with
    | item before after =>
      simp only [Place.path, map_cons, Frame.seg, cons_append, Place.plug_cons, Frame.fill, modifyAt]
      rw [getElem?_append_right (Nat.le_refl _), Nat.sub_self, getElem?_cons_zero]
      simp only [Place.path] at ih
      simp only [ih, except_map_map, set_append_right _ _ (Nat.le_refl _), Nat.sub_self, set_cons_zero]
      rfl
    | field before key after =>
      simp only [Place.path, map_cons, Frame.seg, cons_append, Place.plug_cons, Frame.fill, modifyAt, Seg.property]
      rw [get?_middle before after key _ hf.1]
      simp only [Place.path] at ih
      simp only [ih, except_map_map, set_middle before after key _ _ hf.1]
      rfl

/-! ## Operations at a place -/

section AtPlace

variable (place : Place) (hok : place.Ok)
include hok

theorem applyOp_onSlot (seg : Seg) (e : Edit) (c : JsonValue) (hslot : e.onSlot = true) (hseg : SafeSeg seg)
    (hpay : e.ValidPayload) :
    applyOp (place.plug c) (.edit (place.path ++ [seg]) e)
      = (e.onParent (place.path ++ [seg]) seg c).map place.plug := by
  have hv : (Op.edit (place.path ++ [seg]) e).Valid := by
    refine ⟨?_, fun _ => by simp, hpay⟩
    rw [safePath_append]
    exact ⟨place.safePath hok, by simpa using hseg⟩
  rw [applyOp_valid _ _ _ hv, Edit.applyAt, if_pos hslot]
  simp only [getLast?_concat, dropLast_concat]
  have := modifyAt_plug place.path (e.onParent (place.path ++ [seg]) seg) place [] c hok
  rwa [append_nil] at this

theorem applyOp_onArray (e : Edit) (c : JsonValue) (hslot : e.onSlot = false) (hpay : e.ValidPayload) :
    applyOp (place.plug c) (.edit place.path e) = (e.onArray place.path c).map place.plug := by
  have hv : (Op.edit place.path e).Valid := ⟨place.safePath hok, by simp [hslot], hpay⟩
  rw [applyOp_valid _ _ _ hv, Edit.applyAt, if_neg (by simp [hslot])]
  have := modifyAt_plug place.path (e.onArray place.path) place [] c hok
  rwa [append_nil] at this

theorem applyOp_splice (pre old post items : List JsonValue) :
    applyOp (place.plug (.arr (pre ++ old ++ post))) (.edit place.path (.p pre.length old.length items))
      = .ok (place.plug (.arr (pre ++ items ++ post))) := by
  rw [applyOp_onArray place hok (.p pre.length old.length items) _ rfl trivial, Edit.onArray, insertChunks_splice, splice_middle]
  rfl

theorem applyOp_permute (xs : List JsonValue) (permutation : List ℕ) (hp : IsPermutation permutation)
    (hl : xs.length = permutation.length) :
    applyOp (place.plug (.arr xs)) (.edit place.path (.m permutation))
      = .ok (place.plug (.arr (permute xs permutation))) := by
  rw [applyOp_onArray place hok (.m permutation) _ rfl hp, Edit.onArray, if_neg (by simp [hl])]
  rfl

theorem applyOp_setItem (before after : List JsonValue) (v w : JsonValue) :
    applyOp (place.plug (.arr (before ++ v :: after))) (.edit (place.path ++ [.index before.length]) (.s w))
      = .ok (place.plug (.arr (before ++ w :: after))) := by
  rw [applyOp_onSlot place hok (.index before.length) (.s w) _ rfl trivial trivial]
  simp [Edit.onParent, Edit.onItem, Edit.newValue, bind, Except.bind, pure, Except.pure, Except.map]

theorem applyOp_setProperty (fs : List (JsString × JsonValue)) (key : JsString) (w : JsonValue)
    (hk : key ∉ reservedSegments) :
    applyOp (place.plug (.obj fs)) (.edit (place.path ++ [.key key]) (.s w))
      = .ok (place.plug (.obj (set fs key w))) := by
  rw [applyOp_onSlot place hok (.key key) (.s w) _ rfl hk trivial]
  rfl

theorem applyOp_deleteProperty (fs : List (JsString × JsonValue)) (key : JsString) (hk : key ∉ reservedSegments) :
    applyOp (place.plug (.obj fs)) (.edit (place.path ++ [.key key]) .d)
      = .ok (place.plug (.obj (del fs key))) := by
  rw [applyOp_onSlot place hok (.key key) .d _ rfl hk trivial]
  rfl

/-- An edit of a string changes the value in the open slot of the frame, and nothing else. -/
theorem applyOp_string (frame : Frame) (e : Edit) (old new : JsString) (hframe : frame.Ok) (hpay : e.ValidPayload)
    (hslot : e.onSlot = true) (hnew : ∀ path, e.newValue path (some (str old)) = .ok (some (str new))) :
    applyOp (place.plug (frame.fill (str old))) (.edit (place.path ++ [frame.seg]) e)
      = .ok (place.plug (frame.fill (str new))) := by
  cases frame with
  | item before after =>
    rw [Frame.seg, applyOp_onSlot place hok (.index before.length) e _ hslot trivial hpay]
    simp [Frame.fill, Edit.onParent, Edit.onItem, hnew, bind, Except.bind, pure, Except.pure, Except.map]
  | field before key after =>
    rw [Frame.seg, applyOp_onSlot place hok (.key key) e _ hslot hframe.2 hpay]
    simp [Frame.fill, Edit.onParent, Edit.onProperty, Seg.property, get?_middle _ _ _ _ hframe.1,
      set_middle _ _ _ _ _ hframe.1, hnew, bind, Except.bind, pure, Except.pure, Except.map]

theorem applyOp_setSlot (frame : Frame) (v w : JsonValue) (hframe : frame.Ok) :
    applyOp (place.plug (frame.fill v)) (.edit (place.path ++ [frame.seg]) (.s w))
      = .ok (place.plug (frame.fill w)) := by
  cases frame with
  | item before after => exact applyOp_setItem place hok before after v w
  | field before key after =>
    rw [Frame.fill, Frame.seg, applyOp_setProperty place hok _ key w hframe.2,
      set_middle before after key v w hframe.1]
    rfl

end AtPlace

end PiAgent.Delta
