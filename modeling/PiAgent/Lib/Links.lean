import Mathlib.Algebra.BigOperators.Group.List.Basic
import Mathlib.Algebra.Ring.Nat
import Mathlib.Data.Fintype.Card
import Mathlib.Data.List.Count
import Mathlib.Data.Set.Finite.List
import Mathlib.Order.WellFounded
import Mathlib.Logic.Relation

/-!
# Following links

A walk along a link that each node has at most once, and a walk down the children of
nodes. Both have no memory of where they were, so both may go on forever: they get
fuel, and give nothing when it runs out.
-/

namespace PiAgent.Links

open Option List

variable {α : Type}

/-! ## One link after the other -/

/-- The nodes from `a?` on; `none` where the fuel runs out first. -/
def follow (next : α → Option α) : ℕ → Option α → Option (List α)
  | _, none => some []
  | 0, some _ => none
  | fuel + 1, some a => (follow next fuel (next a)).map (fun path => a :: path)

def Ends (next : α → Option α) (a? : Option α) : Prop := ∃ fuel path, follow next fuel a? = some path

variable (next : α → Option α) (fuel : ℕ)

@[simp] theorem follow_none : follow next fuel none = some [] := by
  cases fuel <;> rfl

variable (a : α) (path : List α)

theorem follow_cons (h : follow next fuel (some a) = some path) :
    ∃ fuel' rest, path = a :: rest ∧ follow next fuel' (next a) = some rest := by
  cases fuel with
  | zero => simp [follow] at h
  | succ fuel =>
    rw [follow, map_eq_some_iff] at h
    obtain ⟨rest, hrest, rfl⟩ := h
    exact ⟨fuel, rest, rfl, hrest⟩

theorem ends_none : Ends next none := ⟨0, [], rfl⟩

theorem ends_some_iff : Ends next (some a) ↔ Ends next (next a) := by
  constructor
  · rintro ⟨fuel, path, h⟩
    obtain ⟨fuel', rest, -, hrest⟩ := follow_cons next fuel a path h
    exact ⟨fuel', rest, hrest⟩
  · rintro ⟨fuel, path, h⟩
    exact ⟨fuel + 1, a :: path, by rw [follow, h]; rfl⟩

variable (a? : Option α)

theorem follow_succ (path : List α)
    (h : follow next fuel a? = some path) : follow next (fuel + 1) a? = some path := by
  induction fuel generalizing a? path with
  | zero =>
    cases a? with
    | none => exact h
    | some a => simp [follow] at h
  | succ fuel ih =>
    cases a? with
    | none => exact h
    | some a =>
      rw [follow, map_eq_some_iff] at h ⊢
      obtain ⟨rest, hrest, rfl⟩ := h
      exact ⟨rest, ih _ _ hrest, rfl⟩

variable (fuel fuel' : ℕ)

theorem follow_mono (a? : Option α) (path : List α) (hle : fuel ≤ fuel')
    (h : follow next fuel a? = some path) : follow next fuel' a? = some path := by
  induction hle with
  | refl => exact h
  | step _ ih => exact follow_succ next _ a? path ih

theorem follow_agree (a? : Option α) (path path' : List α)
    (h : follow next fuel a? = some path) (h' : follow next fuel' a? = some path') : path = path' := by
  have hmax := follow_mono next fuel (max fuel fuel') a? path (le_max_left _ _) h
  have hmax' := follow_mono next fuel' (max fuel fuel') a? path' (le_max_right _ _) h'
  rw [hmax] at hmax'
  exact some.inj hmax'

variable (fuel : ℕ)

theorem follow_from (a? : Option α) (before : List α) (b : α) (after : List α)
    (h : follow next fuel a? = some (before ++ b :: after)) :
    ∃ fuel', follow next fuel' (some b) = some (b :: after) := by
  induction before generalizing fuel a? with
  | nil =>
    cases a? with
    | none => simp at h
    | some a =>
      obtain ⟨_, rest, heq, -⟩ := follow_cons next fuel a _ h
      obtain ⟨rfl, rfl⟩ := List.cons.inj heq
      exact ⟨fuel, h⟩
  | cons c before ih =>
    cases a? with
    | none => simp at h
    | some a =>
      obtain ⟨fuel', rest, heq, hrest⟩ := follow_cons next fuel a _ h
      obtain ⟨-, rfl⟩ := List.cons.inj heq
      exact ih fuel' (next a) hrest

theorem follow_nodup (a? : Option α) (path : List α) (h : follow next fuel a? = some path) : path.Nodup := by
  induction path generalizing fuel a? with
  | nil => exact nodup_nil
  | cons b path ih =>
    have hb := follow_from next fuel a? [] b path h
    obtain ⟨fuel', hb⟩ := hb
    obtain ⟨fuel'', rest, heq, hrest⟩ := follow_cons next fuel' b _ hb
    obtain ⟨-, rfl⟩ := List.cons.inj heq
    refine nodup_cons.mpr ⟨?_, ih fuel'' _ hrest⟩
    intro hmem
    obtain ⟨before, after, rfl⟩ := append_of_mem hmem
    obtain ⟨fuel₂, hagain⟩ := follow_from next fuel'' _ before b after hrest
    have hlength := congrArg List.length (follow_agree next _ _ _ _ _ hb hagain)
    simp at hlength
    omega

theorem follow_links (a? : Option α) (before : List α) (a b : α) (after : List α)
    (h : follow next fuel a? = some (before ++ a :: b :: after)) : next a = some b := by
  obtain ⟨fuel', hfrom⟩ := follow_from next fuel a? before a (b :: after) h
  obtain ⟨fuel'', rest, heq, hrest⟩ := follow_cons next fuel' a _ hfrom
  obtain ⟨-, rfl⟩ := List.cons.inj heq
  cases hnext : next a with
  | none => simp [hnext] at hrest
  | some c =>
    rw [hnext] at hrest
    obtain ⟨_, _, heq, -⟩ := follow_cons next fuel'' c _ hrest
    rw [(List.cons.inj heq).1]

theorem not_ends_of_loop (h : Relation.TransGen (fun a b => next a = some b) a a) :
    ¬ Ends next (some a) := by
  rintro ⟨fuel, path, hfollow⟩
  have hreach : ∀ b, Relation.TransGen (fun a b => next a = some b) a b → b ∈ path.tail := by
    intro b hb
    induction hb with
    | single hnext =>
      obtain ⟨fuel', rest, rfl, hrest⟩ := follow_cons next fuel a path hfollow
      rw [hnext] at hrest
      obtain ⟨_, _, rfl, -⟩ := follow_cons next fuel' _ rest hrest
      exact mem_cons_self
    | @tail c d _ hnext ih =>
      obtain ⟨before, after, heq⟩ := append_of_mem ih
      obtain ⟨fuel', rest, rfl, -⟩ := follow_cons next fuel a path hfollow
      simp only [tail_cons] at heq ⊢
      subst heq
      obtain ⟨fuel₂, hfrom⟩ := follow_from next fuel (some a) (a :: before) c after hfollow
      obtain ⟨fuel₃, rest, heq, hrest⟩ := follow_cons next fuel₂ c _ hfrom
      obtain ⟨-, rfl⟩ := List.cons.inj heq
      rw [hnext] at hrest
      obtain ⟨_, _, rfl, -⟩ := follow_cons next fuel₃ d _ hrest
      simp
  have hnodup := follow_nodup next fuel _ path hfollow
  obtain ⟨_, rest, rfl, -⟩ := follow_cons next fuel a path hfollow
  exact (nodup_cons.mp hnodup).1 (hreach a h)

/-! ## Relations without loops on finitely many nodes -/

theorem wellFounded_of_loopless (nodes : List α) (r : α → α → Prop) (hmem : ∀ a b, r a b → b ∈ nodes)
    (hloop : ∀ a ∈ nodes, ¬ Relation.TransGen r a a) : WellFounded (fun b a => r a b) := by
  let below : {a // a ∈ nodes} → {a // a ∈ nodes} → Prop := fun b a => Relation.TransGen r a.1 b.1
  have : Finite {a // a ∈ nodes} := finite_toSet nodes
  have : IsTrans _ below := ⟨fun a b c hab hbc => Relation.TransGen.trans hbc hab⟩
  have : Std.Irrefl below := ⟨fun a h => hloop a.1 a.2 h⟩
  have hwf : WellFounded below := Finite.wellFounded_of_trans_of_irrefl below
  have hacc : ∀ a : {a // a ∈ nodes}, Acc (fun b a => r a b) a.1 := by
    intro a
    induction a using hwf.induction with
    | h a ih => exact ⟨_, fun b hb => ih ⟨b, hmem _ _ hb⟩ (.single hb)⟩
  exact ⟨fun a => ⟨_, fun b hb => hacc ⟨b, hmem _ _ hb⟩⟩⟩

theorem ends_of_acc (h : Acc (fun b a => next a = some b) a) : Ends next (some a) := by
  induction h with
  | intro a _ ih =>
    rw [ends_some_iff]
    cases hnext : next a with
    | none => exact ends_none next
    | some b => exact ih b hnext

/-! ## Down the children -/

/-- The nodes of the work list and all below them, each before its children; `none` where the fuel runs out. -/
def listing (children : α → List α) : ℕ → List α → Option (List α)
  | _, [] => some []
  | 0, _ :: _ => none
  | fuel + 1, a :: pending => (listing children fuel (children a ++ pending)).map (fun order => a :: order)

variable (children : α → List α)

theorem listing_succ (fuel : ℕ) (pending order : List α)
    (h : listing children fuel pending = some order) : listing children (fuel + 1) pending = some order := by
  induction fuel generalizing pending order with
  | zero =>
    cases pending with
    | nil => exact h
    | cons a pending => simp [listing] at h
  | succ fuel ih =>
    cases pending with
    | nil => exact h
    | cons a pending =>
      rw [listing, map_eq_some_iff] at h ⊢
      obtain ⟨rest, hrest, rfl⟩ := h
      exact ⟨rest, ih _ _ hrest, rfl⟩

theorem listing_mono (fuel fuel' : ℕ) (pending order : List α) (hle : fuel ≤ fuel')
    (h : listing children fuel pending = some order) : listing children fuel' pending = some order := by
  induction hle with
  | refl => exact h
  | step _ ih => exact listing_succ children _ pending order ih

theorem listing_append (fuel fuel' : ℕ) (pending pending' order order' : List α)
    (h : listing children fuel pending = some order) (h' : listing children fuel' pending' = some order') :
    listing children (fuel + fuel') (pending ++ pending') = some (order ++ order') := by
  induction fuel generalizing pending order with
  | zero =>
    cases pending with
    | nil =>
      obtain rfl : [] = order := some.inj h
      simpa using h'
    | cons a pending => simp [listing] at h
  | succ fuel ih =>
    cases pending with
    | nil =>
      obtain rfl : [] = order := some.inj h
      exact listing_mono children fuel' _ pending' order' (by omega) h'
    | cons a pending =>
      rw [listing, map_eq_some_iff] at h
      obtain ⟨rest, hrest, rfl⟩ := h
      rw [show fuel + 1 + fuel' = fuel + fuel' + 1 by omega, cons_append, listing, ← append_assoc,
        ih _ _ hrest]
      rfl

theorem listing_of_acc (pending : List α)
    (h : ∀ a ∈ pending, Acc (fun b a => b ∈ children a) a) : ∃ fuel order, listing children fuel pending = some order := by
  have hone : ∀ a, Acc (fun b a => b ∈ children a) a → ∃ fuel order, listing children fuel [a] = some order := by
    intro a ha
    induction ha with
    | intro a _ ih =>
      have hbelow : ∃ fuel order, listing children fuel (children a) = some order := by
        generalize children a = below at ih
        induction below with
        | nil => exact ⟨0, [], rfl⟩
        | cons b below ihbelow =>
          obtain ⟨fuel, order, hb⟩ := ih b mem_cons_self
          obtain ⟨fuel', order', hrest⟩ := ihbelow (fun c hc => ih c (mem_cons_of_mem _ hc))
          exact ⟨_, _, listing_append children fuel fuel' [b] below order order' hb hrest⟩
      obtain ⟨fuel, order, hbelow⟩ := hbelow
      exact ⟨fuel + 1, a :: order, by rw [listing, append_nil, hbelow]; rfl⟩
  induction pending with
  | nil => exact ⟨0, [], rfl⟩
  | cons a pending ih =>
    obtain ⟨fuel, order, ha⟩ := hone a (h a mem_cons_self)
    obtain ⟨fuel', order', hrest⟩ := ih (fun b hb => h b (mem_cons_of_mem _ hb))
    exact ⟨_, _, listing_append children fuel fuel' [a] pending order order' ha hrest⟩

theorem listing_count [BEq α] [LawfulBEq α] (children : α → List α) (fuel : ℕ) (pending order : List α)
    (h : listing children fuel pending = some order) (x : α) :
    order.count x = pending.count x + (order.map (fun a => (children a).count x)).sum := by
  induction fuel generalizing pending order with
  | zero =>
    cases pending with
    | nil =>
      obtain rfl : [] = order := some.inj h
      rfl
    | cons a pending => simp [listing] at h
  | succ fuel ih =>
    cases pending with
    | nil =>
      obtain rfl : [] = order := some.inj h
      rfl
    | cons a pending =>
      rw [listing, map_eq_some_iff] at h
      obtain ⟨rest, hrest, rfl⟩ := h
      have hcount := ih _ _ hrest
      rw [count_append] at hcount
      rw [count_cons, count_cons, hcount, map_cons, sum_cons]
      omega

theorem mem_listing (fuel : ℕ) (pending order : List α)
    (h : listing children fuel pending = some order) (x : α) (hx : x ∈ order) :
    ∃ a ∈ pending, Relation.ReflTransGen (fun p c => c ∈ children p) a x := by
  induction fuel generalizing pending order with
  | zero =>
    cases pending with
    | nil =>
      obtain rfl : [] = order := some.inj h
      simp at hx
    | cons a pending => simp [listing] at h
  | succ fuel ih =>
    cases pending with
    | nil =>
      obtain rfl : [] = order := some.inj h
      simp at hx
    | cons a pending =>
      rw [listing, map_eq_some_iff] at h
      obtain ⟨rest, hrest, rfl⟩ := h
      rcases mem_cons.mp hx with rfl | hx
      · exact ⟨x, mem_cons_self, .refl⟩
      · obtain ⟨b, hb, hreach⟩ := ih _ _ hrest hx
        rcases mem_append.mp hb with hb | hb
        · exact ⟨a, mem_cons_self, .head hb hreach⟩
        · exact ⟨b, mem_cons_of_mem _ hb, hreach⟩

end PiAgent.Links
