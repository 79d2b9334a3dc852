import Mathlib.Data.List.Basic
import Mathlib.Data.List.Nodup
import Mathlib.Data.Finset.Card
import Mathlib.Logic.Relation

/-!
# Gathering what can be reached

A depth-first walk that keeps the list of what it has seen, in order. The first
argument bounds the depth: the number of elements is enough.
-/

namespace PiAgent

open List

section Spec

variable {α : Type} (next : α → List α)

/-- What is new in `result` leads to nothing outside it. -/
def Closed (seen result : List α) : Prop := ∀ x ∈ result, x ∉ seen → next x ⊆ result

/-- `result` is what the walk may make of `seen` from `xs`. -/
structure Gathered (seen xs result : List α) : Prop where
  keeps : seen ⊆ result
  takes : xs ⊆ result
  closed : Closed next seen result
  nodup : seen.Nodup → result.Nodup
  reached : ∀ y ∈ result, y ∉ seen → ∃ x ∈ xs, Relation.ReflTransGen (fun a b => b ∈ next a) x y

theorem gathered_nil (seen : List α) : Gathered next seen [] seen :=
  ⟨List.Subset.refl _, nil_subset _, fun _ h hn => absurd h hn, id, fun _ h hn => absurd h hn⟩

theorem Gathered.skip {x : α} {seen xs result : List α} (h : Gathered next seen xs result) (hx : x ∈ seen) :
    Gathered next seen (x :: xs) result := by
  refine ⟨h.keeps, ?_, h.closed, h.nodup, fun y hy hn => ?_⟩
  · exact cons_subset.mpr ⟨h.keeps hx, h.takes⟩
  · obtain ⟨z, hz, hzy⟩ := h.reached y hy hn
    exact ⟨z, mem_cons_of_mem _ hz, hzy⟩

theorem Gathered.enter {x : α} {seen xs middle result : List α} (hx : x ∉ seen)
    (h : Gathered next (seen ++ [x]) (next x) middle) (h' : Gathered next middle xs result) :
    Gathered next seen (x :: xs) result := by
  have hmiddle : seen ⊆ middle := fun y hy => h.keeps (mem_append_left _ hy)
  have hxm : x ∈ middle := h.keeps (by simp)
  refine ⟨List.Subset.trans hmiddle h'.keeps, cons_subset.mpr ⟨h'.keeps hxm, h'.takes⟩, ?_, fun hn => ?_, fun y hy hn => ?_⟩
  · intro y hy hn
    by_cases hym : y ∈ middle
    · refine List.Subset.trans ?_ h'.keeps
      by_cases hyx : y = x
      · exact hyx ▸ h.takes
      · exact h.closed y hym (by simp [hn, hyx])
    · exact h'.closed y hy hym
  · refine h'.nodup (h.nodup ?_)
    rw [nodup_append]
    refine ⟨hn, nodup_singleton x, ?_⟩
    rintro a ha b hb rfl
    exact hx (mem_singleton.mp hb ▸ ha)
  · by_cases hym : y ∈ middle
    · by_cases hyx : y = x
      · exact ⟨x, mem_cons_self, hyx ▸ Relation.ReflTransGen.refl⟩
      · obtain ⟨z, hz, hzy⟩ := h.reached y hym (by simp [hn, hyx])
        exact ⟨x, mem_cons_self, Relation.ReflTransGen.head hz hzy⟩
    · obtain ⟨z, hz, hzy⟩ := h'.reached y hy hym
      exact ⟨z, mem_cons_of_mem _ hz, hzy⟩

end Spec

variable {α : Type} [DecidableEq α] (next : α → List α)

/-- Adds to `seen` the elements of `xs`, each followed by what it leads to. -/
def gather : ℕ → List α → List α → List α
  | 0, seen, _ => seen
  | n + 1, seen, xs => xs.foldl (fun seen x => if x ∈ seen then seen else gather n (seen ++ [x]) (next x)) seen

/-- The elements that have not been seen. -/
def unseen (all : Finset α) (seen : List α) : ℕ := (all.filter (· ∉ seen)).card

theorem unseen_lt {all : Finset α} {x : α} {seen : List α} (hall : x ∈ all) (hx : x ∉ seen) :
    unseen all (seen ++ [x]) < unseen all seen := by
  refine Finset.card_lt_card (Finset.ssubset_iff_subset_ne.mpr ⟨?_, fun he => ?_⟩)
  · intro y hy
    simp only [Finset.mem_filter, mem_append, mem_singleton, not_or] at hy ⊢
    exact ⟨hy.1, hy.2.1⟩
  · have : x ∈ all.filter (· ∉ seen) := Finset.mem_filter.mpr ⟨hall, hx⟩
    rw [← he] at this
    simp at this

theorem unseen_le {all : Finset α} {seen seen' : List α} (h : seen ⊆ seen') : unseen all seen' ≤ unseen all seen := by
  refine Finset.card_le_card (fun y hy => ?_)
  simp only [Finset.mem_filter] at hy ⊢
  exact ⟨hy.1, fun hs => hy.2 (h hs)⟩

theorem gather_gathered (all : Finset α) (hnext : ∀ x ∈ all, ∀ y ∈ next x, y ∈ all) (n : ℕ) :
    ∀ (xs seen : List α), (∀ x ∈ xs, x ∈ all) → unseen all seen < n → Gathered next seen xs (gather next n seen xs) := by
  induction n with
  | zero => intro xs seen _ h; omega
  | succ n ih =>
    intro xs
    induction xs with
    | nil => intro seen _ _; exact gathered_nil next seen
    | cons x xs ihxs =>
      intro seen hxs hn
      have hx : x ∈ all := hxs x mem_cons_self
      have hrest : ∀ y ∈ xs, y ∈ all := fun y hy => hxs y (mem_cons_of_mem _ hy)
      by_cases hs : x ∈ seen
      · simp only [gather, foldl_cons, if_pos hs]
        exact (ihxs seen hrest hn).skip next hs
      · simp only [gather, foldl_cons, if_neg hs]
        have hlt := unseen_lt hx hs
        have hin := ih (next x) (seen ++ [x]) (hnext x hx) (by omega)
        have hle : unseen all _ ≤ unseen all seen := unseen_le (fun y hy => hin.keeps (mem_append_left [x] hy))
        exact hin.enter next hs (ihxs _ hrest (by omega))

theorem mem_gather (all : Finset α) (hnext : ∀ x ∈ all, ∀ y ∈ next x, y ∈ all) (xs : List α) (hxs : ∀ x ∈ xs, x ∈ all)
    (n : ℕ) (hn : all.card < n) :
    (gather next n [] xs).Nodup ∧
      ∀ y, y ∈ gather next n [] xs ↔ ∃ x ∈ xs, Relation.ReflTransGen (fun a b => b ∈ next a) x y := by
  have h := gather_gathered next all hnext n xs [] hxs (by simpa [unseen] using hn)
  refine ⟨h.nodup nodup_nil, fun y => ⟨fun hy => h.reached y hy (by simp), ?_⟩⟩
  rintro ⟨x, hx, hxy⟩
  induction hxy with
  | refl => exact h.takes hx
  | tail _ hstep ih => exact h.closed _ ih (by simp) hstep

end PiAgent
