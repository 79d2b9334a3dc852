import Mathlib.Data.List.Basic
import Mathlib.Data.List.Nodup

/-!
# Insertion-ordered maps

A map that keeps the order in which its keys came in is a list of pairs. Writing
a key that is there keeps its place; a new key goes to the end.
-/

namespace PiAgent.Assoc

variable {κ α β : Type} [DecidableEq κ]

def get? (l : List (κ × α)) (k : κ) : Option α :=
  match l with
  | [] => none
  | (j, v) :: l => if j = k then some v else get? l k

def set (l : List (κ × α)) (k : κ) (v : α) : List (κ × α) :=
  match l with
  | [] => [(k, v)]
  | (j, w) :: l => if j = k then (j, v) :: l else (j, w) :: set l k v

def del (l : List (κ × α)) (k : κ) : List (κ × α) := l.filter (fun p => p.1 ≠ k)

def has (l : List (κ × α)) (k : κ) : Bool := (get? l k).isSome

def keys (l : List (κ × α)) : List κ := l.map Prod.fst

/-! ## Reading -/

@[simp] theorem get?_nil (k : κ) : get? ([] : List (κ × α)) k = none := rfl

theorem get?_cons (j k : κ) (v : α) (l : List (κ × α)) :
    get? ((j, v) :: l) k = if j = k then some v else get? l k := rfl

@[simp] theorem get?_cons_self (k : κ) (v : α) (l : List (κ × α)) : get? ((k, v) :: l) k = some v := by
  simp [get?]

theorem get?_cons_ne (j k : κ) (v : α) (l : List (κ × α)) (h : j ≠ k) :
    get? ((j, v) :: l) k = get? l k := by
  simp [get?, h]

theorem get?_append (l r : List (κ × α)) (k : κ) : get? (l ++ r) k = (get? l k).or (get? r k) := by
  induction l with
  | nil => simp
  | cons p l ih => obtain ⟨j, v⟩ := p; by_cases h : j = k <;> simp [get?, h, ih]

theorem mem_of_get? (l : List (κ × α)) (k : κ) (v : α) (h : get? l k = some v) : (k, v) ∈ l := by
  induction l with
  | nil => simp at h
  | cons p l ih =>
    obtain ⟨j, w⟩ := p
    by_cases hj : j = k
    · simp_all [get?]
    · exact List.mem_cons_of_mem _ (ih (by simpa [get?, hj] using h))

theorem get?_eq_none_iff (l : List (κ × α)) (k : κ) : get? l k = none ↔ k ∉ keys l := by
  induction l with
  | nil => simp [keys]
  | cons p l ih =>
    obtain ⟨j, v⟩ := p
    by_cases h : j = k
    · simp [get?, keys, h]
    · simp only [get?, h, if_false, ih, keys, List.map_cons, List.mem_cons, not_or]
      exact ⟨fun h' => ⟨fun e => h e.symm, h'⟩, fun h' => h'.2⟩

theorem has_iff (l : List (κ × α)) (k : κ) : has l k = true ↔ k ∈ keys l := by
  rw [has, Option.isSome_iff_ne_none, ne_eq, get?_eq_none_iff, not_not]

theorem get?_of_mem (l : List (κ × α)) (k : κ) (v : α) (hn : (keys l).Nodup) (h : (k, v) ∈ l) :
    get? l k = some v := by
  induction l with
  | nil => simp at h
  | cons p l ih =>
    obtain ⟨j, w⟩ := p
    simp only [keys, List.map_cons, List.nodup_cons] at hn
    rcases List.mem_cons.mp h with h | h
    · cases h; simp
    · have hj : j ≠ k := by
        rintro rfl
        exact hn.1 (List.mem_map_of_mem h)
      rw [get?_cons_ne _ _ _ _ hj]
      exact ih hn.2 h

theorem get?_map (f : α → β) (l : List (κ × α)) (k : κ) :
    get? (l.map (fun p => (p.1, f p.2))) k = (get? l k).map f := by
  induction l with
  | nil => rfl
  | cons p l ih => obtain ⟨j, v⟩ := p; by_cases h : j = k <;> simp [get?, h, ih]

/-! ## Writing -/

@[simp] theorem get?_set_self (l : List (κ × α)) (k : κ) (v : α) : get? (set l k v) k = some v := by
  induction l with
  | nil => simp [set]
  | cons p l ih => obtain ⟨j, w⟩ := p; by_cases h : j = k <;> simp [set, get?, h, ih]

theorem get?_set_ne (l : List (κ × α)) (j k : κ) (v : α) (h : j ≠ k) :
    get? (set l j v) k = get? l k := by
  induction l with
  | nil => simp [set, get?, h]
  | cons p l ih =>
    obtain ⟨i, w⟩ := p
    by_cases hi : i = j
    · subst hi; simp [set, get?, h]
    · by_cases hk : i = k
      · subst hk; simp [set, get?, hi]
      · simp [set, get?, hi, hk, ih]

theorem get?_set (l : List (κ × α)) (j k : κ) (v : α) :
    get? (set l j v) k = if j = k then some v else get? l k := by
  by_cases h : j = k
  · subst h; simp
  · simp [get?_set_ne _ _ _ _ h, h]

theorem get?_del (l : List (κ × α)) (j k : κ) :
    get? (del l j) k = if j = k then none else get? l k := by
  induction l with
  | nil => simp [del]
  | cons p l ih =>
    obtain ⟨i, w⟩ := p
    unfold del at ih ⊢
    by_cases hi : i = j
    · subst hi
      by_cases hk : i = k <;> simp_all [get?]
    · by_cases hk : j = k
      · subst hk; simp_all [get?]
      · by_cases hik : i = k <;> simp_all [get?]

theorem get?_filter (l : List (κ × α)) (keep : κ → Bool) (k : κ) :
    get? (l.filter (fun p => keep p.1)) k = if keep k then get? l k else none := by
  induction l with
  | nil => simp
  | cons p l ih =>
    obtain ⟨j, v⟩ := p
    rw [List.filter_cons]
    by_cases hj : j = k
    · subst hj
      by_cases hkeep : keep j = true <;> simp [hkeep, ih]
    · by_cases hkeep : keep j = true <;> simp [hkeep, ih, get?_cons_ne, hj]

@[simp] theorem get?_del_self (l : List (κ × α)) (k : κ) : get? (del l k) k = none := by
  simp [get?_del]

theorem get?_del_ne (l : List (κ × α)) (j k : κ) (h : j ≠ k) : get? (del l j) k = get? l k := by
  simp [get?_del, h]

theorem set_middle (l r : List (κ × α)) (k : κ) (v w : α) (h : k ∉ keys l) :
    set (l ++ (k, v) :: r) k w = l ++ (k, w) :: r := by
  induction l with
  | nil => simp [set]
  | cons p l ih =>
    obtain ⟨j, u⟩ := p
    simp only [keys, List.map_cons, List.mem_cons, not_or] at h
    simp [set, Ne.symm h.1, ih h.2]

theorem get?_middle (l r : List (κ × α)) (k : κ) (v : α) (h : k ∉ keys l) :
    get? (l ++ (k, v) :: r) k = some v := by
  rw [get?_append, (get?_eq_none_iff l k).mpr h]
  simp

theorem exists_split (l : List (κ × α)) (k : κ) (v : α) (h : get? l k = some v) :
    ∃ a b, l = a ++ (k, v) :: b ∧ k ∉ keys a := by
  induction l with
  | nil => simp at h
  | cons p l ih =>
    obtain ⟨j, w⟩ := p
    by_cases hj : j = k
    · subst hj
      obtain rfl : w = v := by simpa [get?] using h
      exact ⟨[], l, rfl, by simp [keys]⟩
    · obtain ⟨a, b, rfl, hk⟩ := ih (by simpa [get?, hj] using h)
      refine ⟨(j, w) :: a, b, rfl, ?_⟩
      simp only [keys, List.map_cons, List.mem_cons, not_or] at hk ⊢
      exact ⟨Ne.symm hj, hk⟩

theorem mem_keys_set (l : List (κ × α)) (j k : κ) (v : α) : k ∈ keys (set l j v) ↔ k = j ∨ k ∈ keys l := by
  rw [← has_iff, ← has_iff, has, has, get?_set]
  by_cases h : j = k
  · simp [h]
  · simp [h, Ne.symm h]

theorem nodup_keys_set (l : List (κ × α)) (k : κ) (v : α) (h : (keys l).Nodup) : (keys (set l k v)).Nodup := by
  induction l with
  | nil => simp [set, keys]
  | cons p l ih =>
    obtain ⟨j, w⟩ := p
    simp only [keys, List.map_cons, List.nodup_cons] at h
    by_cases hj : j = k
    · subst hj; simpa [set, keys] using h
    · have hmem : j ∉ keys (set l k v) := by
        rw [mem_keys_set]
        rintro (e | e)
        · exact hj e
        · exact h.1 e
      simp only [set, hj, if_false, keys, List.map_cons, List.nodup_cons]
      exact ⟨hmem, ih h.2⟩

theorem nodup_keys_del (l : List (κ × α)) (k : κ) (h : (keys l).Nodup) : (keys (del l k)).Nodup :=
  h.sublist ((List.filter_sublist).map Prod.fst)

theorem mem_keys_del (l : List (κ × α)) (j k : κ) : k ∈ keys (del l j) ↔ k ≠ j ∧ k ∈ keys l := by
  rw [← has_iff, ← has_iff, has, has, get?_del]
  by_cases h : j = k
  · simp [h]
  · simp [h, Ne.symm h]

end PiAgent.Assoc
