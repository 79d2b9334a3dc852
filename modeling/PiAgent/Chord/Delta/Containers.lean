import PiAgent.Chord.Delta.Apply
import PiAgent.Chord.Delta.Shared

/-!
# Operations on one container

The part of `apply` that changes a single array or object, whatever its members are:
values of a tree, or references into a heap.
-/

namespace PiAgent.Delta

open List Assoc

/-- An array or an object, without what its members are. -/
inductive Container (ν : Type) where
  | arr (items : List ν)
  | obj (fields : List (JsString × ν))

/-- Members that can be strings. -/
class HasText (ν : Type) where
  text? : ν → Option JsString
  ofText : JsString → ν

inductive EditOf (ν : Type) where
  | s (value : ν)
  | d
  | a (text : JsString)
  | t (count : ℕ)
  | p (index remove : ℕ) (items : List ν)
  | m (permutation : List ℕ)

inductive OpOf (ν : Type) where
  | r (value : ν)
  | edit (path : Path) (e : EditOf ν)

namespace Container

variable {ν μ : Type}

def map (f : ν → μ) : Container ν → Container μ
  | .arr xs => .arr (xs.map f)
  | .obj fs => .obj (fs.map (fun p => (p.1, f p.2)))

def members : Container ν → List ν
  | .arr xs => xs
  | .obj fs => fs.map Prod.snd

/-- `Object.hasOwn(container, segment)` -/
def hasOwn : Container ν → Seg → Bool
  | .arr xs, .index i => i < xs.length
  | .arr xs, .key k => k = js "length" || (List.range xs.length).any (fun i => decimal i = k)
  | .obj fs, seg => Assoc.has fs seg.property

/-- The member that a segment names, for a walk along `full`. -/
def child (full : Path) (seg : Seg) : Container ν → Except DeltaError ν
  | .arr xs =>
    match seg with
    | .key k => .error (.unsafePath (.key k))
    | .index i =>
      match xs[i]? with
      | none => .error (.path full)
      | some x => .ok x
  | .obj fs =>
    match get? fs seg.property with
    | none => .error (.path full)
    | some x => .ok x

/-- `Object.defineProperty(container, segment, …)`, for a member that is there. -/
def put (seg : Seg) (v : ν) : Container ν → Container ν
  | .arr xs =>
    match seg with
    | .key _ => .arr xs
    | .index i => .arr (xs.set i v)
  | .obj fs => .obj (Assoc.set fs seg.property v)

end Container

namespace EditOf

variable {ν μ : Type}

def onSlot : EditOf ν → Bool
  | .p .. | .m .. => false
  | _ => true

/-- The container that the edit changes. -/
def target (path : Path) (e : EditOf ν) : Path := if e.onSlot then path.dropLast else path

def values : EditOf ν → List ν
  | .s value => [value]
  | .p _ _ items => items
  | _ => []

def map (f : ν → μ) : EditOf ν → EditOf μ
  | .s value => .s (f value)
  | .d => .d
  | .a text => .a text
  | .t count => .t count
  | .p index remove items => .p index remove (items.map f)
  | .m permutation => .m permutation

def assertValid (path : Path) (e : EditOf ν) : Except DeltaError Unit := do
  assertPathArg path e.onSlot
  match e with
  | .m permutation => assertPermutation permutation
  | _ => .ok ()

def onArray (path : Path) : EditOf ν → Container ν → Except DeltaError (Container ν)
  | .p index remove items, .arr xs => .ok (.arr (insertChunks chunkSize (splice xs index remove []) index items))
  | .m permutation, .arr xs =>
    if xs.length ≠ permutation.length then .error (.path path) else .ok (.arr (permute xs permutation))
  | _, _ => .error (.path path)

variable [HasText ν] [HasText μ]

/-- The member a slot has after the edit; `none` for a deleted one. -/
def newValue (path : Path) (current : Option ν) : EditOf ν → Except DeltaError (Option ν)
  | .s value => .ok (some value)
  | .a text =>
    match current.bind HasText.text? with
    | some c => .ok (some (HasText.ofText (c ++ text)))
    | none => .error (.path path)
  | .t count =>
    match current.bind HasText.text? with
    | some c => .ok (some (HasText.ofText (c.drop count)))
    | none => .error (.path path)
  | _ => .ok none

def onParent (path : Path) (key : Seg) (e : EditOf ν) : Container ν → Except DeltaError (Container ν)
  | .arr xs =>
    match key with
    | .key k => .error (.unsafePath (.key k))
    | .index i =>
      if xs.length < i then .error (.unsafePath (.index i))
      else
        match e.newValue path xs[i]? with
        | .error err => .error err
        | .ok (some value) => .ok (.arr (if i < xs.length then xs.set i value else xs ++ [value]))
        | .ok none => if xs.length ≤ i then .error (.path path) else .ok (.arr (xs.eraseIdx i))
  | .obj fs =>
    match e.newValue path (get? fs key.property) with
    | .error err => .error err
    | .ok (some value) => .ok (.obj (Assoc.set fs key.property value))
    | .ok none => .ok (.obj (Assoc.del fs key.property))

/-- What the edit does to the container it changes. -/
def change (path : Path) (e : EditOf ν) (c : Container ν) : Except DeltaError (Container ν) :=
  if e.onSlot then
    match path.getLast? with
    | none => .error (.typeError "path is empty")
    | some key => e.onParent path key c
  else e.onArray path c

end EditOf

namespace OpOf

variable {ν μ : Type}

def map (f : ν → μ) : OpOf ν → OpOf μ
  | .r value => .r (f value)
  | .edit path e => .edit path (e.map f)

/-- The values that the operation brings. -/
def values : OpOf ν → List ν
  | .r value => [value]
  | .edit _ e => e.values

def assertValid : OpOf ν → Except DeltaError Unit
  | .r _ => .ok ()
  | .edit path e => e.assertValid path

end OpOf

/-! ## Trees -/

instance : HasText JsonValue where
  text? := fun v =>
    match v with
    | .prim (.str c) => some c
    | _ => none
  ofText := .str

instance : HasText Shared where
  text? := fun v =>
    match v with
    | .prim (.str c) => some c
    | _ => none
  ofText := fun text => .prim (.str text)

def Container.toJson : Container JsonValue → JsonValue
  | .arr xs => .arr xs
  | .obj fs => .obj fs

def Shared.mk (id : ℕ) : Container Shared → Shared
  | .arr xs => .arr id xs
  | .obj fs => .obj id fs

def EditOf.toEdit : EditOf JsonValue → Edit
  | .s value => .s value
  | .d => .d
  | .a text => .a text
  | .t count => .t count
  | .p index remove items => .p index remove items
  | .m permutation => .m permutation

def OpOf.toOp : OpOf JsonValue → Op
  | .r value => .r value
  | .edit path e => .edit path e.toEdit

/-! ## Fields -/

section Fields

variable {κ α β : Type} [DecidableEq κ]

theorem set_map (f : α → β) (l : List (κ × α)) (k : κ) (v : α) :
    (Assoc.set l k v).map (fun p => (p.1, f p.2)) = Assoc.set (l.map (fun p => (p.1, f p.2))) k (f v) := by
  induction l with
  | nil => rfl
  | cons p l ih =>
    simp only [Assoc.set, map_cons]
    split <;> simp [ih]

theorem del_map (f : α → β) (l : List (κ × α)) (k : κ) :
    (Assoc.del l k).map (fun p => (p.1, f p.2)) = Assoc.del (l.map (fun p => (p.1, f p.2))) k := by
  unfold Assoc.del
  rw [filter_map]
  rfl

variable (l : List (κ × α)) (k : κ)

theorem set_self (v : α) (h : get? l k = some v) : Assoc.set l k v = l := by
  obtain ⟨before, after, rfl, hbefore⟩ := exists_split l k v h
  exact Assoc.set_middle before after k v v hbefore

theorem set_values_perm (v : α) :
    ∃ dropped, (l.map Prod.snd ++ [v]).Perm ((Assoc.set l k v).map Prod.snd ++ dropped) := by
  induction l with
  | nil => exact ⟨[], by simp [Assoc.set]⟩
  | cons p l ih =>
    by_cases h : p.1 = k
    · refine ⟨[p.2], ?_⟩
      simp only [Assoc.set, h, if_true, map_cons, cons_append]
      exact (perm_append_singleton _ _).cons _ |>.trans (List.Perm.swap _ _ _) |>.trans
        ((perm_append_singleton _ _).symm.cons _)
    · obtain ⟨dropped, hperm⟩ := ih
      refine ⟨dropped, ?_⟩
      simp only [Assoc.set, h, if_false, map_cons, cons_append]
      exact hperm.cons _

theorem del_values_perm : ∃ dropped, (l.map Prod.snd).Perm ((Assoc.del l k).map Prod.snd ++ dropped) := by
  refine ⟨(l.filter (fun p => !decide (p.1 ≠ k))).map Prod.snd, ?_⟩
  rw [Assoc.del, ← map_append]
  exact (filter_append_perm _ l).symm.map _

end Fields

/-! ## Walks -/

namespace Container

variable {ν μ : Type}

theorem child_map (f : ν → μ) (full : Path) (seg : Seg) (c : Container ν) :
    (c.map f).child full seg = (c.child full seg).map f := by
  cases c with
  | arr xs =>
    cases seg with
    | key k => rfl
    | index i =>
      simp only [map, child, getElem?_map]
      cases xs[i]? <;> rfl
  | obj fs =>
    simp only [map, child, get?_map]
    cases get? fs seg.property <;> rfl

theorem put_map (f : ν → μ) (seg : Seg) (v : ν) (c : Container ν) :
    (c.put seg v).map f = (c.map f).put seg (f v) := by
  cases c with
  | arr xs =>
    cases seg with
    | key k => rfl
    | index i => simp [map, put, map_set]
  | obj fs => simp [map, put, Delta.set_map]

theorem child_full (full full' : Path) (seg : Seg) (c : Container ν) (x : ν) (h : c.child full seg = .ok x) :
    c.child full' seg = .ok x := by
  cases c with
  | arr xs =>
    cases seg with
    | key k => cases h
    | index i =>
      simp only [child] at h ⊢
      split at h
      · cases h
      · exact h
  | obj fs =>
    simp only [child] at h ⊢
    split at h
    · cases h
    · exact h

variable (full : Path) (seg : Seg) (c : Container ν) (x : ν)

theorem hasOwn_of_child (h : c.child full seg = .ok x) : c.hasOwn seg = true := by
  cases c with
  | arr xs =>
    cases seg with
    | key k => cases h
    | index i =>
      simp only [child] at h
      split at h
      · cases h
      · rename_i hx
        simpa [hasOwn] using (List.getElem?_eq_some_iff.mp hx).1
  | obj fs =>
    simp only [child] at h
    split at h
    · cases h
    · rename_i hx
      simp [hasOwn, Assoc.has, hx]

theorem child_put (x y : ν) (h : c.child full seg = .ok x) : (c.put seg y).child full seg = .ok y := by
  cases c with
  | arr xs =>
    cases seg with
    | key k => cases h
    | index i =>
      simp only [child] at h
      split at h
      · cases h
      · rename_i hx
        have hi := (List.getElem?_eq_some_iff.mp hx).1
        simp [child, put, hi]
  | obj fs => simp [child, put]

theorem put_self (h : c.child full seg = .ok x) : c.put seg x = c := by
  cases c with
  | arr xs =>
    cases seg with
    | key k => cases h
    | index i =>
      simp only [child] at h
      split at h
      · cases h
      · rename_i hx
        obtain rfl := Except.ok.inj h
        obtain ⟨hi, rfl⟩ := List.getElem?_eq_some_iff.mp hx
        simp [put]
  | obj fs =>
    simp only [child] at h
    split at h
    · cases h
    · rename_i hx
      obtain rfl := Except.ok.inj h
      simp [put, Delta.set_self fs _ _ hx]

theorem members_child (h : c.child full seg = .ok x) :
    ∃ rest, c.members.Perm (x :: rest) ∧ ∀ y, (c.put seg y).members.Perm (y :: rest) := by
  cases c with
  | arr xs =>
    cases seg with
    | key k => cases h
    | index i =>
      simp only [child] at h
      split at h
      · cases h
      · rename_i hx
        obtain rfl := Except.ok.inj h
        obtain ⟨hi, rfl⟩ := List.getElem?_eq_some_iff.mp hx
        refine ⟨xs.eraseIdx i, (getElem_cons_eraseIdx_perm hi).symm, fun y => ?_⟩
        have := getElem_cons_eraseIdx_perm (l := xs.set i y) (n := i) (by simpa using hi)
        simpa [put, members, eraseIdx_set_eq] using this.symm
  | obj fs =>
    simp only [child] at h
    split at h
    · cases h
    · rename_i hx
      obtain rfl := Except.ok.inj h
      obtain ⟨before, after, rfl, hbefore⟩ := exists_split fs _ _ hx
      refine ⟨(before ++ after).map Prod.snd, ?_, fun y => ?_⟩
      · simp [members]
      · simp [put, members, Assoc.set_middle _ _ _ _ _ hbefore]

theorem modifyAt_cons (f : JsonValue → Except DeltaError JsonValue) (seg : Seg) (rest : Path)
    (c : Container JsonValue) :
    modifyAt full f (seg :: rest) c.toJson =
      match c.child full seg with
      | .error e => .error e
      | .ok x => (modifyAt full f rest x).map (fun y => (c.put seg y).toJson) := by
  cases c with
  | arr xs =>
    cases seg with
    | key k => rfl
    | index i =>
      simp only [toJson, modifyAt, child]
      cases xs[i]? <;> rfl
  | obj fs =>
    cases seg <;> simp only [toJson, modifyAt, child, Seg.property] <;> cases get? fs _ <;> rfl

end Container

/-! ## Edits of the members -/

namespace EditOf

variable {ν μ : Type}

variable (f : ν → μ) (xs : List ν)

theorem splice_map (index remove : ℕ) (items : List ν) :
    (splice xs index remove items).map f = splice (xs.map f) index remove (items.map f) := by
  simp [splice]

theorem splice_perm (index remove : ℕ) (items : List ν) :
    ∃ dropped, (xs ++ items).Perm (splice xs index remove items ++ dropped) := by
  refine ⟨(xs.drop index).take remove, ?_⟩
  have hsplit : xs = xs.take index ++ ((xs.drop index).take remove ++ xs.drop (index + remove)) := by
    rw [← drop_drop, List.take_append_drop, List.take_append_drop]
  conv_lhs => rw [hsplit]
  unfold splice
  classical
  refine perm_iff_count.mpr (fun a => ?_)
  simp only [count_append]
  omega

theorem permute_perm (permutation : List ℕ) (hp : IsPermutation permutation)
    (hl : xs.length = permutation.length) : (permute xs permutation).Perm xs := by
  have hrange : permute xs (List.range xs.length) = xs := by
    clear hl hp
    unfold permute
    induction xs with
    | nil => rfl
    | cons x xs ih =>
      rw [length_cons, range_succ_eq_map, filterMap_cons_some (getElem?_cons_zero), filterMap_map]
      simpa using ih
  have := hp.filterMap (fun i => xs[i]?)
  rw [← hl] at this
  exact this.trans (List.Perm.of_eq hrange)

theorem set_perm (i : ℕ) (hi : i < xs.length) (v : ν) : ∃ dropped, (xs ++ [v]).Perm (xs.set i v ++ dropped) := by
  obtain ⟨rest, hxs, hset⟩ := Container.members_child [] (.index i) (.arr xs) xs[i] (by simp [Container.child, hi])
  refine ⟨[xs[i]], ?_⟩
  have hnew : (xs.set i v).Perm (v :: rest) := hset v
  have hold : xs.Perm (xs[i] :: rest) := hxs
  refine (hold.append_right [v]).trans (List.Perm.trans ?_ (hnew.symm.append_right [xs[i]]))
  exact (perm_append_singleton _ _).trans ((perm_append_singleton _ _).symm.cons _)

variable (path : Path) (e : EditOf ν)

theorem onArray_map (c : Container ν) :
    (e.map f).onArray path (c.map f) = (e.onArray path c).map (Container.map f) := by
  cases e <;> cases c <;> try rfl
  · simp only [map, Container.map, onArray, insertChunks_splice, splice_map, Except.map]
  · rename_i permutation xs
    simp only [map, Container.map, onArray, length_map]
    split
    · rfl
    · simp [permute, Except.map, Container.map, map_filterMap]

variable [HasText ν] [HasText μ]

section

variable (htext : ∀ v, HasText.text? (f v) = HasText.text? v)
    (hof : ∀ text, f (HasText.ofText text) = HasText.ofText text) (path : Path)
include htext hof

theorem newValue_map (current : Option ν) (e : EditOf ν) :
    (e.map f).newValue path (current.map f) = (e.newValue path current).map (Option.map f) := by
  have hcurrent : (current.map f).bind HasText.text? = current.bind HasText.text? := by
    cases current with
    | none => rfl
    | some v => exact htext v
  cases e with
  | a text =>
    simp only [map, newValue, hcurrent]
    cases current.bind HasText.text? with
    | none => rfl
    | some c => simp [Except.map, hof]
  | t count =>
    simp only [map, newValue, hcurrent]
    cases current.bind HasText.text? with
    | none => rfl
    | some c => simp [Except.map, hof]
  | _ => rfl

theorem onParent_map (key : Seg) (e : EditOf ν) (c : Container ν) :
    (e.map f).onParent path key (c.map f) = (e.onParent path key c).map (Container.map f) := by
  cases c with
  | arr xs =>
    cases key with
    | key k => rfl
    | index i =>
      simp only [Container.map, onParent, length_map, getElem?_map, newValue_map f htext hof]
      split
      · rfl
      · cases e.newValue path xs[i]? with
        | error err => rfl
        | ok new =>
          cases new with
          | none =>
            simp only [Except.map, Option.map_none]
            split
            · rfl
            · simp [Container.map, eraseIdx_map]
          | some v =>
            simp only [Except.map, Option.map_some, Container.map]
            split <;> simp [map_set]
  | obj fs =>
    simp only [Container.map, onParent, get?_map, newValue_map f htext hof]
    cases e.newValue path (get? fs key.property) with
    | error err => rfl
    | ok new =>
      cases new with
      | none => simp [Except.map, Container.map, Delta.del_map]
      | some v => simp [Except.map, Container.map, Delta.set_map]

theorem change_map (e : EditOf ν) (c : Container ν) :
    (e.map f).change path (c.map f) = (e.change path c).map (Container.map f) := by
  have hslot : (e.map f).onSlot = e.onSlot := by cases e <;> rfl
  unfold change
  rw [hslot]
  split
  · split
    · rfl
    · exact onParent_map f htext hof path _ e c
  · exact onArray_map f path e c

end

/-- The members after the edit are those before it and what it brings, less what it drops. -/
def Brings (e : EditOf ν) (c c' : Container ν) : Prop :=
  ∃ new dropped, (new = e.values ∨ new = [] ∨ ∃ text, new = [HasText.ofText text]) ∧
    (c.members ++ new).Perm (c'.members ++ dropped)

theorem newValue_values (current : Option ν) (e : EditOf ν) (v : ν)
    (h : e.newValue path current = .ok (some v)) : e.values = [v] ∨ ∃ text, v = HasText.ofText text := by
  unfold newValue at h
  split at h
  · obtain rfl := Option.some.inj (Except.ok.inj h)
    exact .inl rfl
  · split at h
    · obtain rfl := Option.some.inj (Except.ok.inj h)
      exact .inr ⟨_, rfl⟩
    · cases h
  · split at h
    · obtain rfl := Option.some.inj (Except.ok.inj h)
      exact .inr ⟨_, rfl⟩
    · cases h
  · cases h

theorem brings_of_value (current : Option ν) (e : EditOf ν) (v : ν) (c c' : Container ν)
    (h : e.newValue path current = .ok (some v))
        (hperm : ∃ dropped, (c.members ++ [v]).Perm (c'.members ++ dropped)) :
    e.Brings c c' := by
  obtain ⟨dropped, hperm⟩ := hperm
  refine ⟨[v], dropped, ?_, hperm⟩
  rcases newValue_values path current e v h with hv | ⟨text, rfl⟩
  · exact .inl hv.symm
  · exact .inr (.inr ⟨text, rfl⟩)

theorem onParent_brings (key : Seg) (e : EditOf ν) (c c' : Container ν) (h : e.onParent path key c = .ok c') :
    e.Brings c c' := by
  cases c with
  | arr xs =>
    cases key with
    | key k => cases h
    | index i =>
      simp only [onParent] at h
      split at h
      · cases h
      · rename_i hi
        split at h
        · cases h
        · rename_i v hv
          obtain rfl := Except.ok.inj h
          refine brings_of_value path _ e v _ _ hv ?_
          split
          · rename_i hlt
            exact set_perm xs i hlt v
          · exact ⟨[], by simp [Container.members]⟩
        · split at h
          · cases h
          · rename_i hlen
            obtain rfl := Except.ok.inj h
            refine ⟨[], [xs[i]], .inr (.inl rfl), ?_⟩
            simp only [Container.members, append_nil]
            exact (getElem_cons_eraseIdx_perm (by omega)).symm.trans (perm_append_singleton _ _).symm
  | obj fs =>
    simp only [onParent] at h
    split at h
    · cases h
    · rename_i v hv
      obtain rfl := Except.ok.inj h
      exact brings_of_value path _ e v _ _ hv (Delta.set_values_perm fs key.property v)
    · obtain rfl := Except.ok.inj h
      obtain ⟨dropped, hperm⟩ := Delta.del_values_perm fs key.property
      refine ⟨[], dropped, .inr (.inl rfl), ?_⟩
      simpa [Container.members] using hperm

theorem onArray_brings (c c' : Container ν) (hvalid : e.assertValid path = .ok ())
    (h : e.onArray path c = .ok c') : e.Brings c c' := by
  unfold onArray at h
  split at h
  · rename_i index remove items xs
    obtain rfl := Except.ok.inj h
    obtain ⟨dropped, hperm⟩ := splice_perm xs index remove items
    refine ⟨items, dropped, .inl rfl, ?_⟩
    rw [insertChunks_splice]
    exact hperm
  · rename_i permutation xs
    split at h
    · cases h
    · rename_i hlen
      obtain rfl := Except.ok.inj h
      have hp : IsPermutation permutation := by
        rw [assertValid, except_bind_ok] at hvalid
        exact (assertPermutation_iff permutation).mp hvalid.2
      refine ⟨[], [], .inl rfl, ?_⟩
      simpa [Container.members] using (permute_perm xs permutation hp (by omega)).symm
  · cases h

theorem change_brings (c c' : Container ν) (hvalid : e.assertValid path = .ok ())
    (h : e.change path c = .ok c') : e.Brings c c' := by
  unfold change at h
  split at h
  · split at h
    · cases h
    · exact onParent_brings path _ e c c' h
  · exact onArray_brings path e c c' hvalid h

/-! ## Edits of trees -/

theorem newValue_toEdit (current : Option JsonValue) (e : EditOf JsonValue) :
    e.toEdit.newValue path current = e.newValue path current := by
  cases e with
  | a text =>
    simp only [toEdit, Edit.newValue, newValue]
    rcases current with - | (- | - | - | c) | - | - <;> rfl
  | t count =>
    simp only [toEdit, Edit.newValue, newValue]
    rcases current with - | (- | - | - | c) | - | - <;> rfl
  | _ => rfl

theorem onParent_toEdit (key : Seg) (e : EditOf JsonValue) (c : Container JsonValue) :
    e.toEdit.onParent path key c.toJson = (e.onParent path key c).map Container.toJson := by
  cases c with
  | arr xs =>
    cases key with
    | key k => rfl
    | index i =>
      simp only [Container.toJson, Edit.onParent, Edit.onItem, onParent, newValue_toEdit]
      split
      · rfl
      · rcases e.newValue path xs[i]? with err | - | v
        · rfl
        · simp only [bind, Except.bind]
          split <;> rfl
        · rfl
  | obj fs =>
    simp only [Container.toJson, Edit.onParent, Edit.onProperty, onParent, newValue_toEdit]
    rcases e.newValue path (get? fs key.property) with err | - | v <;> rfl

variable (e : EditOf JsonValue)

theorem onArray_toEdit (c : Container JsonValue) :
    e.toEdit.onArray path c.toJson = (e.onArray path c).map Container.toJson := by
  cases e <;> cases c <;> try rfl
  simp only [toEdit, Container.toJson, Edit.onArray, onArray]
  split <;> rfl

theorem onSlot_toEdit : e.toEdit.onSlot = e.onSlot := by
  cases e <;> rfl

theorem assertValid_toOp : assertValidOp (.edit path e.toEdit) = e.assertValid path := by
  cases e <;> rfl

end EditOf

end PiAgent.Delta
