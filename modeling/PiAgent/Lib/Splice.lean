import Mathlib.Data.List.Flatten
import Mathlib.Data.List.Nodup

/-!
# Simultaneous replacement

Ranges of a list are replaced all at once: what comes out at a place is read off at that place,
so the order of the replacements does not matter. Replacing one range after the other, from
the last to the first, comes to the same.
-/

namespace PiAgent

open List

variable {α : Type}

/-- What stands in the place of so many elements from a place on. -/
structure Splice (α : Type) where
  start : ℕ
  length : ℕ
  text : List α

namespace Splice

def stop (s : Splice α) : ℕ := s.start + s.length

def covers (s : Splice α) (p : ℕ) : Bool := s.start ≤ p && p < s.stop

/-- The range has no element from one place to another. -/
def Outside (s : Splice α) (p q : ℕ) : Prop := s.stop ≤ p ∨ q ≤ s.start

/-- Ranges that have no element in common. -/
def Apart (s t : Splice α) : Prop := s.stop ≤ t.start ∨ t.stop ≤ s.start

theorem Apart.symm {s t : Splice α} (h : Apart s t) : Apart t s := Or.symm h

end Splice

open Splice

/-- The elements from a place on, with what the replacements make of them. -/
def spliced (ss : List (Splice α)) : ℕ → List α → List α
  | _, [] => []
  | p, a :: rest =>
    (ss.filter (fun s => s.start = p)).flatMap Splice.text ++ (if ss.any (covers · p) then [] else [a]) ++
      spliced ss (p + 1) rest

variable (ss : List (Splice α)) (p : ℕ)

theorem spliced_cons (a : α) (rest : List α) : spliced ss p (a :: rest) =
    (ss.filter (fun s => s.start = p)).flatMap Splice.text ++ (if ss.any (covers · p) then [] else [a]) ++
      spliced ss (p + 1) rest := rfl

theorem spliced_append (a b : List α) : spliced ss p (a ++ b) = spliced ss p a ++ spliced ss (p + a.length) b := by
  induction a generalizing p with
  | nil => rfl
  | cons x a ih =>
    rw [cons_append, spliced_cons, spliced_cons, ih, length_cons, append_assoc _ (spliced ss (p + 1) a),
      show p + 1 + a.length = p + (a.length + 1) by omega]

variable (ss ts : List (Splice α))

theorem spliced_congr (p : ℕ) (a : List α) (hstart : ∀ q, p ≤ q → q < p + a.length →
      (ss.filter (fun s => s.start = q)).flatMap Splice.text = (ts.filter (fun s => s.start = q)).flatMap Splice.text)
    (hcovers : ∀ q, p ≤ q → q < p + a.length → ss.any (covers · q) = ts.any (covers · q)) :
    spliced ss p a = spliced ts p a := by
  induction a generalizing p with
  | nil => rfl
  | cons x a ih =>
    rw [length_cons] at hstart hcovers
    rw [spliced_cons, spliced_cons, hstart p (Nat.le_refl _) (by omega), hcovers p (Nat.le_refl _) (by omega),
      ih (p + 1) (fun q h1 h2 => hstart q (by omega) (by omega)) (fun q h1 h2 => hcovers q (by omega) (by omega))]

variable (ss : List (Splice α))

theorem filter_outside (p q : ℕ) (hp : ∀ s ∈ ss, 0 < s.length ∧ s.Outside p q) (r : ℕ) (h1 : p ≤ r)
    (h2 : r < q) : ss.filter (fun s => s.start = r) = [] ∧ ss.any (covers · r) = false := by
  refine ⟨filter_eq_nil_iff.mpr (fun s hs => ?_), ?_⟩
  · obtain ⟨hpos, hout⟩ := hp s hs
    unfold Splice.Outside Splice.stop at hout
    simp only [decide_eq_true_eq]
    omega
  · rw [any_eq_false]
    intro s hs
    obtain ⟨hpos, hout⟩ := hp s hs
    unfold Splice.Outside at hout
    unfold covers
    simp only [Bool.and_eq_true, decide_eq_true_eq, not_and, Nat.not_lt]
    omega

theorem spliced_outside (before ss after : List (Splice α)) (p : ℕ) (a : List α)
    (hbefore : ∀ s ∈ before, 0 < s.length ∧ s.Outside p (p + a.length))
    (hafter : ∀ s ∈ after, 0 < s.length ∧ s.Outside p (p + a.length)) :
    spliced (before ++ ss ++ after) p a = spliced ss p a := by
  refine spliced_congr _ _ p a (fun q h1 h2 => ?_) (fun q h1 h2 => ?_)
  · rw [filter_append, filter_append, (filter_outside before p _ hbefore q h1 h2).1,
      (filter_outside after p _ hafter q h1 h2).1, nil_append, append_nil]
  · rw [any_append, any_append, (filter_outside before p _ hbefore q h1 h2).2,
      (filter_outside after p _ hafter q h1 h2).2, Bool.false_or, Bool.or_false]

variable (a : List α)

theorem spliced_nil : spliced [] p a = a := by
  induction a generalizing p with
  | nil => rfl
  | cons x a ih =>
    rw [spliced_cons, ih]
    rfl

theorem spliced_untouched (p : ℕ) (a : List α)
    (h : ∀ s ∈ ss, 0 < s.length ∧ s.Outside p (p + a.length)) : spliced ss p a = a := by
  have hout := spliced_outside ss [] [] p a h (by simp)
  rw [append_nil, append_nil] at hout
  rw [hout, spliced_nil]

theorem spliced_covered (s : Splice α) (ss : List (Splice α)) (p : ℕ) (a : List α) (hstart : s.start < p)
    (hstop : p + a.length ≤ s.stop) (hlater : ∀ t ∈ ss, s.stop ≤ t.start) : spliced (s :: ss) p a = [] := by
  induction a generalizing p with
  | nil => rfl
  | cons x a ih =>
    rw [length_cons] at hstop
    have hnone : (s :: ss).filter (fun t => t.start = p) = [] := by
      refine filter_eq_nil_iff.mpr (fun t ht => ?_)
      simp only [decide_eq_true_eq]
      rcases mem_cons.mp ht with rfl | ht
      · omega
      · have := hlater t ht
        omega
    have hin : (s :: ss).any (covers · p) = true := by
      rw [any_cons]
      have hcovers : s.covers p = true := by
        unfold covers
        simp only [Bool.and_eq_true, decide_eq_true_eq]
        omega
      rw [hcovers, Bool.true_or]
    rw [spliced_cons, hnone, hin, if_pos rfl, ih (p + 1) (by omega) (by omega)]
    rfl

/-! ## One after the other -/

/-- The replacements in a part of the list that begins at a place, from the last to the first. -/
def spliceAll (offset : ℕ) (ss : List (Splice α)) (a : List α) : List α :=
  ss.foldr (fun s a => a.take (s.start - offset) ++ s.text ++ a.drop (s.start - offset + s.length)) a

/-- Ranges in order, none of which is empty. -/
def Ordered (ss : List (Splice α)) : Prop := ss.Pairwise (fun s t => s.stop ≤ t.start) ∧ ∀ s ∈ ss, 0 < s.length

theorem spliceAll_append (offset : ℕ) (ss : List (Splice α)) (a b : List α) (h : ∀ s ∈ ss, offset + a.length ≤ s.start) :
    spliceAll offset ss (a ++ b) = a ++ spliceAll (offset + a.length) ss b := by
  induction ss with
  | nil => rfl
  | cons s ss ih =>
    have hs := h s mem_cons_self
    have hrec := ih (fun t ht => h t (mem_cons_of_mem _ ht))
    unfold spliceAll at hrec ⊢
    rw [foldr_cons, foldr_cons, hrec, take_append, drop_append, take_of_length_le (by omega),
      drop_eq_nil_of_le (by omega), nil_append, show s.start - offset - a.length = s.start - (offset + a.length) by omega,
      show s.start - offset + s.length - a.length = s.start - (offset + a.length) + s.length by omega]
    simp only [append_assoc]

/-- The first range: what comes before it, and what comes after it. -/
structure First (offset : ℕ) (s : Splice α) (ss : List (Splice α)) (before range : List α) : Prop where
  before : offset + before.length = s.start
  range : range.length = s.length
  pos : 0 < s.length
  later : ∀ t ∈ ss, s.stop ≤ t.start

variable {offset : ℕ} {s : Splice α} {ss : List (Splice α)} {before range : List α}

theorem First.stop (h : First offset s ss before range) : offset + (before ++ range).length = s.stop := by
  have hbefore := h.before
  have hrange := h.range
  unfold Splice.stop
  rw [length_append]
  omega

theorem spliceAll_first (h : First offset s ss before range) (after : List α) :
    spliceAll offset (s :: ss) (before ++ (range ++ after)) = before ++ (s.text ++ spliceAll s.stop ss after) := by
  have hbefore := h.before
  have hrange := h.range
  have hrest : spliceAll offset ss (before ++ (range ++ after)) = before ++ range ++ spliceAll s.stop ss after := by
    rw [← append_assoc, spliceAll_append offset ss _ _ (fun t ht => by rw [h.stop]; exact h.later t ht), h.stop]
  show (spliceAll offset ss (before ++ (range ++ after))).take (s.start - offset) ++ s.text ++
    (spliceAll offset ss (before ++ (range ++ after))).drop (s.start - offset + s.length) = _
  rw [hrest, show s.start - offset + s.length = (before ++ range).length by rw [length_append]; omega, drop_left,
    show s.start - offset = before.length by omega, append_assoc before, take_left, append_assoc]

theorem spliced_first (h : First offset s ss before range) (hpos : ∀ t ∈ ss, 0 < t.length) (after : List α) :
    spliced (s :: ss) offset (before ++ (range ++ after)) = before ++ (s.text ++ spliced ss s.stop after) := by
  have hbefore := h.before
  have hrange := h.range
  have hlength := h.pos
  have hstop : s.stop = s.start + s.length := rfl
  rw [spliced_append, spliced_append]
  congr 1
  · refine spliced_untouched _ _ _ (fun t ht => ?_)
    rcases mem_cons.mp ht with rfl | ht
    · exact ⟨hlength, .inr (by omega)⟩
    · have := h.later t ht
      exact ⟨hpos t ht, .inr (by omega)⟩
  · rw [hbefore]
    congr 1
    · -- the text comes out where the range begins
      obtain ⟨x, more, rfl⟩ := exists_cons_of_length_pos (show 0 < range.length by omega)
      rw [length_cons] at hrange
      have hfilter : (s :: ss).filter (fun t => t.start = s.start) = [s] := by
        rw [filter_cons_of_pos (by simp)]
        congr 1
        refine filter_eq_nil_iff.mpr (fun t ht => ?_)
        have := h.later t ht
        simp only [decide_eq_true_eq]
        omega
      have hcovers : (s :: ss).any (covers · s.start) = true := by
        rw [any_cons]
        have hin : s.covers s.start = true := by
          unfold covers
          simp only [Bool.and_eq_true, decide_eq_true_eq]
          omega
        rw [hin, Bool.true_or]
      rw [spliced_cons, hfilter, hcovers, if_pos rfl, spliced_covered s ss _ more (by omega) (by omega) h.later]
      simp
    · rw [show s.start + range.length = s.stop by omega]
      have hout := spliced_outside [s] ss [] s.stop after (fun t ht => ?_) (by simp)
      · rwa [append_nil] at hout
      · rw [mem_singleton.mp ht]
        exact ⟨hlength, .inl (Nat.le_refl _)⟩

theorem spliceAll_eq (offset : ℕ) (ss : List (Splice α)) (a : List α) (hordered : Ordered ss)
    (hin : ∀ s ∈ ss, offset ≤ s.start ∧ s.stop ≤ offset + a.length) : spliceAll offset ss a = spliced ss offset a := by
  induction ss generalizing offset a with
  | nil => exact (spliced_nil offset a).symm
  | cons s ss ih =>
    obtain ⟨hpairs, hpos⟩ := hordered
    obtain ⟨hlater, hpairs'⟩ := pairwise_cons.mp hpairs
    obtain ⟨hstart, hstop⟩ := hin s mem_cons_self
    have hlength := hpos s mem_cons_self
    have hpos' : ∀ t ∈ ss, 0 < t.length := fun t ht => hpos t (mem_cons_of_mem _ ht)
    obtain ⟨before, range, after, rfl, hfirst⟩ : ∃ before range after, a = before ++ (range ++ after) ∧
        First offset s ss before range := by
      unfold Splice.stop at hstop
      refine ⟨a.take (s.start - offset), (a.drop (s.start - offset)).take s.length,
        (a.drop (s.start - offset)).drop s.length, ?_, ?_, ?_, hlength, hlater⟩
      · rw [List.take_append_drop, List.take_append_drop]
      · rw [length_take]
        omega
      · rw [length_take, length_drop]
        omega
    rw [spliceAll_first hfirst, spliced_first hfirst hpos', ih s.stop after ⟨hpairs', hpos'⟩]
    intro t ht
    have hstop' := (hin t (mem_cons_of_mem _ ht)).2
    have hall := hfirst.stop
    rw [← append_assoc, length_append] at hstop'
    exact ⟨hlater t ht, by omega⟩

/-! ## In any order -/

variable (ss : List (Splice α))

theorem filter_start (hapart : ss.Pairwise Apart) (hpos : ∀ s ∈ ss, 0 < s.length) (p : ℕ) :
    (ss.filter (fun s => s.start = p)).length ≤ 1 := by
  induction ss with
  | nil => exact Nat.zero_le _
  | cons s ss ih =>
    obtain ⟨hfirst, hrest⟩ := pairwise_cons.mp hapart
    have hpos' : ∀ t ∈ ss, 0 < t.length := fun t ht => hpos t (mem_cons_of_mem _ ht)
    rw [filter_cons]
    split
    · rename_i hp
      have hnone : ss.filter (fun t => t.start = p) = [] := by
        refine filter_eq_nil_iff.mpr (fun t ht => ?_)
        have h1 := hfirst t ht
        have h2 := hpos s mem_cons_self
        have h3 := hpos' t ht
        unfold Splice.Apart Splice.stop at h1
        simp only [decide_eq_true_eq] at hp ⊢
        omega
      rw [hnone]
      exact Nat.le_refl _
    · exact ih hrest hpos'

theorem spliced_perm (ss ts : List (Splice α)) (h : ss.Perm ts) (hapart : ss.Pairwise Apart) (hpos : ∀ s ∈ ss, 0 < s.length)
    (p : ℕ) (a : List α) : spliced ss p a = spliced ts p a := by
  refine spliced_congr _ _ p a (fun q _ _ => ?_) (fun q _ _ => h.any_eq)
  have hperm := h.filter (fun s => s.start = q)
  have hshort := filter_start ss hapart hpos q
  congr 1
  generalize ss.filter (fun s => s.start = q) = as at hperm hshort
  generalize ts.filter (fun s => s.start = q) = bs at hperm
  match as, hshort with
  | [], _ => exact hperm.nil_eq
  | [s], _ => exact singleton_perm.mp hperm

/-! ## Line by line -/

/-- Some range has an element from one place to another. -/
def touched (ss : List (Splice α)) (p q : ℕ) : Bool := ss.any (fun s => s.start < q && p < s.stop)

/-- The blocks of two lists side by side: where a block of the one is touched, what the replacements make of it, elsewhere
the block of the other. -/
def weave (ss : List (Splice α)) : ℕ → List (List α) → List (List α) → List α
  | p, base :: bases, other :: others =>
    (if touched ss p (p + base.length) then spliced ss p base else other) ++ weave ss (p + base.length) bases others
  | _, _, _ => []

theorem weave_append (p : ℕ) (as bs cs ds : List (List α)) (h : as.length = cs.length) :
    weave ss p (as ++ bs) (cs ++ ds) = weave ss p as cs ++ weave ss (p + as.flatten.length) bs ds := by
  induction as generalizing p cs with
  | nil =>
    obtain rfl := length_eq_zero_iff.mp h.symm
    rfl
  | cons a as ih =>
    obtain ⟨c, cs, rfl⟩ := exists_cons_of_length_pos (show 0 < cs.length by rw [← h]; exact Nat.succ_pos _)
    rw [length_cons, length_cons] at h
    show _ ++ weave ss (p + a.length) (as ++ bs) (cs ++ ds) = _ ++ weave ss (p + a.length) as cs ++ _
    rw [ih (p + a.length) cs (by omega), flatten_cons, length_append, append_assoc,
      show p + a.length + as.flatten.length = p + (a.length + as.flatten.length) by omega]

theorem weave_untouched (p : ℕ) (as cs : List (List α)) (h : as.length = cs.length)
    (hout : ∀ s ∈ ss, s.Outside p (p + as.flatten.length)) : weave ss p as cs = cs.flatten := by
  induction as generalizing p cs with
  | nil =>
    obtain rfl := length_eq_zero_iff.mp h.symm
    rfl
  | cons a as ih =>
    obtain ⟨c, cs, rfl⟩ := exists_cons_of_length_pos (show 0 < cs.length by rw [← h]; exact Nat.succ_pos _)
    rw [length_cons, length_cons] at h
    rw [flatten_cons, length_append] at hout
    have hnone : touched ss p (p + a.length) = false := by
      unfold touched
      rw [any_eq_false]
      intro s hs
      have := hout s hs
      unfold Splice.Outside at this
      simp only [Bool.and_eq_true, decide_eq_true_eq, not_and, Nat.not_lt]
      omega
    show (if touched ss p (p + a.length) then spliced ss p a else c) ++ weave ss (p + a.length) as cs = _
    rw [hnone, if_neg Bool.false_ne_true, flatten_cons, ih (p + a.length) cs (by omega)]
    intro s hs
    have := hout s hs
    unfold Splice.Outside at this ⊢
    omega

theorem weave_touched (p : ℕ) (as cs : List (List α)) (h : as.length = cs.length)
    (hin : ∀ before a after, as = before ++ a :: after →
      touched ss (p + before.flatten.length) (p + before.flatten.length + a.length) = true) :
    weave ss p as cs = spliced ss p as.flatten := by
  induction as generalizing p cs with
  | nil =>
    obtain rfl := length_eq_zero_iff.mp h.symm
    rfl
  | cons a as ih =>
    obtain ⟨c, cs, rfl⟩ := exists_cons_of_length_pos (show 0 < cs.length by rw [← h]; exact Nat.succ_pos _)
    rw [length_cons, length_cons] at h
    have hfirst : touched ss p (p + a.length) = true := hin [] a as rfl
    show (if touched ss p (p + a.length) then spliced ss p a else c) ++ weave ss (p + a.length) as cs = _
    rw [hfirst, if_pos rfl, flatten_cons, spliced_append, ih (p + a.length) cs (by omega)]
    rintro before b after rfl
    have hnext := hin (a :: before) b after rfl
    rwa [flatten_cons, length_append, ← Nat.add_assoc] at hnext

theorem weave_perm (ss ts : List (Splice α)) (h : ss.Perm ts) (hapart : ss.Pairwise Apart) (hpos : ∀ s ∈ ss, 0 < s.length)
    (p : ℕ) (as cs : List (List α)) : weave ss p as cs = weave ts p as cs := by
  induction as generalizing p cs with
  | nil => rfl
  | cons a as ih =>
    cases cs with
    | nil => rfl
    | cons c cs =>
      unfold weave
      rw [ih, spliced_perm ss ts h hapart hpos, show touched ss p (p + a.length) = touched ts p (p + a.length) from h.any_eq]

end PiAgent
