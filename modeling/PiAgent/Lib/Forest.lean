import Mathlib.Data.List.Nodup
import Mathlib.Data.Finset.Card
import Mathlib.Data.Finset.Range

/-!
# Walks down a forest

A walk down keeps the nodes it still has to look at on a work list. It meets the
children of every node it takes from the list, and puts those it enters on the list.
In a forest it takes every node at most once, so that as many steps as there are
nodes are enough.
-/

namespace PiAgent.Forest

open List

variable {N : Type}

/-- The nodes a walk down meets, in order. The work list is a stack. -/
def walk (children : N → List N) (enter : N → Bool) : ℕ → List N → List N
  | 0, _ => []
  | _ + 1, [] => []
  | fuel + 1, node :: pending =>
    children node ++ walk children enter fuel (((children node).filter enter).reverse ++ pending)

/-- `c` is below `n`, and every node between them is entered. -/
inductive Below (children : N → List N) (enter : N → Bool) (n : N) : N → Prop
  | child {c : N} (h : c ∈ children n) : Below children enter n c
  | step {m c : N} (h : Below children enter n m) (henter : enter m = true) (hc : c ∈ children m) :
      Below children enter n c

variable {children : N → List N} {enter : N → Bool}

theorem Below.head {n m c : N} (hm : m ∈ children n)
    (henter : enter m = true) (h : Below children enter m c) : Below children enter n c := by
  induction h with
  | child h => exact .step (.child hm) henter h
  | step _ he hc ih => exact .step ih he hc

theorem below_iff (children : N → List N) (enter : N → Bool) (n c : N) : Below children enter n c ↔
      c ∈ children n ∨ ∃ m ∈ children n, enter m = true ∧ Below children enter m c := by
  constructor
  · intro h
    induction h with
    | child h => exact Or.inl h
    | step _ he hc ih =>
      rcases ih with h | ⟨m, hm, hem, h⟩
      · exact Or.inr ⟨_, h, he, .child hc⟩
      · exact Or.inr ⟨m, hm, hem, .step h he hc⟩
  · rintro (h | ⟨m, hm, hem, h⟩)
    · exact .child h
    · exact h.head hm hem

theorem below_of_mem_walk (children : N → List N) (enter : N → Bool) (fuel : ℕ) (pending : List N) (c : N)
    (h : c ∈ walk children enter fuel pending) : ∃ n ∈ pending, Below children enter n c := by
  induction fuel generalizing pending with
  | zero => simp [walk] at h
  | succ fuel ih =>
    cases pending with
    | nil => simp [walk] at h
    | cons node pending =>
      rw [walk, mem_append] at h
      rcases h with h | h
      · exact ⟨node, mem_cons_self, .child h⟩
      · obtain ⟨n, hn, hb⟩ := ih _ h
        rw [mem_append, mem_reverse, mem_filter] at hn
        rcases hn with ⟨hn, he⟩ | hn
        · exact ⟨node, mem_cons_self, hb.head hn he⟩
        · exact ⟨n, mem_cons_of_mem _ hn, hb⟩

/-- A forest: children lie deeper, and no node is the child of two or twice of one. -/
structure IsForest (children : N → List N) (rank : N → ℕ) (count : ℕ) : Prop where
  deeper : ∀ p c, c ∈ children p → rank p < rank c
  bound : ∀ p c, c ∈ children p → rank c < count
  parent : ∀ p q c d, c ∈ children p → d ∈ children q → rank c = rank d → c = d ∧ p = q
  nodup : ∀ p, (children p).Nodup

variable {rank : N → ℕ} {count : ℕ}

theorem Below.deeper (hf : IsForest children rank count) {n c : N} (h : Below children enter n c) : rank n < rank c := by
  induction h with
  | child h => exact hf.deeper _ _ h
  | step _ _ hc ih => exact ih.trans (hf.deeper _ _ hc)

theorem Below.bound (hf : IsForest children rank count) {n c : N} (h : Below children enter n c) : rank c < count := by
  cases h with
  | child h => exact hf.bound _ _ h
  | step _ _ hc => exact hf.bound _ _ hc

theorem length_le_of_nodup (l : List ℕ) (count : ℕ) (hn : l.Nodup) (hb : ∀ n ∈ l, n < count) : l.length ≤ count := by
  have hsub : l.toFinset ⊆ Finset.range count := by
    intro n hmem
    exact Finset.mem_range.mpr (hb n (mem_toFinset.mp hmem))
  have hcard := Finset.card_le_card hsub
  rwa [toFinset_card_of_nodup hn, Finset.card_range] at hcard

/-- What a walk from `start` has taken and what waits: all distinct, and reached from what was taken. -/
structure Progress (children : N → List N) (rank : N → ℕ) (count : ℕ) (start : N) (taken pending : List N) : Prop where
  nodup : ((taken ++ pending).map rank).Nodup
  bound : ∀ x ∈ taken ++ pending, rank x < count
  reached : ∀ x ∈ taken ++ pending, x = start ∨ ∃ p ∈ taken, x ∈ children p
  below : ∀ x ∈ taken ++ pending, rank start ≤ rank x

theorem Progress.length_le {start : N} {taken pending : List N}
    (h : Progress children rank count start taken pending) : taken.length + pending.length ≤ count := by
  have hle := length_le_of_nodup _ count h.nodup (by
    intro n hn
    obtain ⟨x, hx, rfl⟩ := mem_map.mp hn
    exact h.bound x hx)
  simpa using hle

theorem Progress.fresh (hf : IsForest children rank count)
    {start node : N} {taken pending : List N} (h : Progress children rank count start taken (node :: pending))
    (c x : N) (hc : c ∈ children node) (hx : x ∈ taken ++ node :: pending) : rank c ≠ rank x := by
  intro he
  have hnode := h.below node (by simp)
  have hdeep := hf.deeper _ _ hc
  rcases h.reached x hx with rfl | ⟨p, hp, hxp⟩
  · omega
  · obtain ⟨-, rfl⟩ := hf.parent _ _ _ _ hc hxp he
    -- the node would have been taken before
    have hn := h.nodup
    rw [map_append, nodup_append] at hn
    exact hn.2.2 _ (mem_map_of_mem hp) _ (mem_map_of_mem mem_cons_self) rfl

theorem Progress.take (enter : N → Bool) {rank : N → ℕ} {count : ℕ}
    (hf : IsForest children rank count) {start node : N} {taken pending : List N}
    (h : Progress children rank count start taken (node :: pending)) :
    Progress children rank count start (taken ++ [node])
      (((children node).filter enter).reverse ++ pending) := by
  have hmem : ∀ x, x ∈ (taken ++ [node]) ++ (((children node).filter enter).reverse ++ pending) ↔
      x ∈ taken ++ node :: pending ∨ x ∈ (children node).filter enter := by
    intro x
    simp only [mem_append, mem_reverse, mem_cons, not_mem_nil, or_false]
    tauto
  refine ⟨?_, ?_, ?_, ?_⟩
  · have hperm : ((taken ++ [node]) ++ (((children node).filter enter).reverse ++ pending)).Perm
        ((children node).filter enter ++ (taken ++ node :: pending)) := by
      classical
      refine perm_iff_count.mpr ?_
      intro x
      simp only [count_append, count_reverse, count_cons, count_nil]
      omega
    rw [(hperm.map rank).nodup_iff, map_append, nodup_append]
    refine ⟨?_, h.nodup, ?_⟩
    · refine List.Nodup.map_on ?_ ((hf.nodup node).filter _)
      intro x hx y hy he
      exact (hf.parent _ _ _ _ (mem_of_mem_filter hx) (mem_of_mem_filter hy) he).1
    · intro a ha b hb
      obtain ⟨c, hc, rfl⟩ := mem_map.mp ha
      obtain ⟨x, hx, rfl⟩ := mem_map.mp hb
      exact h.fresh hf c x (mem_of_mem_filter hc) hx
  · intro x hx
    rcases (hmem x).mp hx with hx | hx
    · exact h.bound x hx
    · exact hf.bound _ _ (mem_of_mem_filter hx)
  · intro x hx
    rcases (hmem x).mp hx with hx | hx
    · rcases h.reached x hx with hs | ⟨p, hp, hxp⟩
      · exact Or.inl hs
      · exact Or.inr ⟨p, mem_append_left _ hp, hxp⟩
    · exact Or.inr ⟨node, by simp, mem_of_mem_filter hx⟩
  · intro x hx
    rcases (hmem x).mp hx with hx | hx
    · exact h.below x hx
    · exact (h.below node (by simp)).trans (hf.deeper _ _ (mem_of_mem_filter hx)).le

theorem walk_complete_from (hf : IsForest children rank count) (start : N) (fuel : ℕ) (taken pending : List N)
    (h : Progress children rank count start taken pending) (hfuel : count ≤ fuel + taken.length) (n c : N)
    (hn : n ∈ pending) (hb : Below children enter n c) : c ∈ walk children enter fuel pending := by
  induction fuel generalizing taken pending n with
  | zero =>
    have hlen := h.length_le
    have hpos := length_pos_of_mem hn
    omega
  | succ fuel ih =>
    cases pending with
    | nil => simp at hn
    | cons node pending =>
      have hnext := h.take enter hf
      have hfuel' : count ≤ fuel + (taken ++ [node]).length := by
        rw [length_append, length_singleton]
        omega
      rw [walk, mem_append]
      rcases mem_cons.mp hn with rfl | hn
      · rcases (below_iff _ _ _ _).mp hb with hc | ⟨m, hm, he, hb⟩
        · exact Or.inl hc
        · exact Or.inr (ih _ _ hnext hfuel' m (by simp [hm, he]) hb)
      · exact Or.inr (ih _ _ hnext hfuel' n (by simp [hn]) hb)

theorem mem_walk (enter : N → Bool) {rank : N → ℕ} {count : ℕ} (hf : IsForest children rank count) (start c : N) :
    c ∈ walk children enter count [start] ↔ Below children enter start c := by
  constructor
  · intro h
    obtain ⟨n, hn, hb⟩ := below_of_mem_walk _ _ _ _ _ h
    rwa [mem_singleton.mp hn] at hb
  · intro hb
    have hstart : rank start < count := (hb.deeper hf).trans (hb.bound hf)
    refine walk_complete_from hf start count [] [start] ⟨?_, ?_, ?_, ?_⟩ (by simp) start c (by simp) hb
    · simp
    · simpa using hstart
    · simp
    · simp

end PiAgent.Forest
