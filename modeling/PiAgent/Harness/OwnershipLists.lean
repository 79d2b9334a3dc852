import PiAgent.Harness.Ownership
import Mathlib.Logic.Relation

/-! # Listing and unlisting -/

namespace PiAgent.Harness

open Durable

/-! ## Sets and maps -/

@[simp] theorem mem_add {α : Type} [DecidableEq α] (l : List α) (a b : α) : b ∈ add l a ↔ b = a ∨ b ∈ l := by
  unfold add
  split
  · rename_i h
    exact ⟨Or.inr, fun h' => h'.elim (fun e => e ▸ h) id⟩
  · simp [or_comm]

@[simp] theorem mem_discard {α : Type} [DecidableEq α] (l : List α) (a b : α) : b ∈ discard l a ↔ b ∈ l ∧ b ≠ a := by
  simp [discard]

theorem nodup_add {α : Type} [DecidableEq α] (l : List α) (a : α) (h : l.Nodup) : (add l a).Nodup := by
  unfold add
  split
  · exact h
  · rename_i hn
    rw [List.nodup_append]
    refine ⟨h, List.nodup_singleton a, ?_⟩
    rintro b hb c hc rfl
    exact hn (List.mem_singleton.mp hc ▸ hb)

theorem nodup_discard {α : Type} [DecidableEq α] (l : List α) (a : α) (h : l.Nodup) : (discard l a).Nodup := h.filter _

section Maps

variable {κ α : Type} [DecidableEq κ] [DecidableEq α]

section

variable (map : κ → List α)

@[simp] theorem addTo_self (key : κ) (a : α) : addTo map key a key = add (map key) a := by
  simp [addTo]

theorem addTo_ne (key k : κ) (a : α) (h : k ≠ key) : addTo map key a k = map k := by
  simp [addTo, h]

@[simp] theorem deleteFrom_self (key : κ) (a : α) : deleteFrom map key a key = discard (map key) a := by
  simp [deleteFrom]

theorem deleteFrom_ne (key k : κ) (a : α) (h : k ≠ key) : deleteFrom map key a k = map k := by
  simp [deleteFrom, h]

theorem mem_addTo (key k : κ) (a b : α) : b ∈ addTo map key a k ↔ (k = key ∧ b = a) ∨ b ∈ map k := by
  by_cases h : k = key
  · subst h
    simp
  · simp [addTo_ne _ _ _ _ h, h]

theorem mem_deleteFrom (key k : κ) (a b : α) : b ∈ deleteFrom map key a k ↔ b ∈ map k ∧ ¬(k = key ∧ b = a) := by
  by_cases h : k = key
  · subst h
    simp
  · simp [deleteFrom_ne _ _ _ _ h, h]

theorem nodup_addTo (key : κ) (a : α) (h : ∀ k, (map k).Nodup) (k : κ) : (addTo map key a k).Nodup := by
  by_cases hk : k = key
  · subst hk
    simpa using nodup_add _ _ (h k)
  · simpa [addTo_ne _ _ _ _ hk] using h k

theorem nodup_deleteFrom (key : κ) (a : α) (h : ∀ k, (map k).Nodup) (k : κ) :
    (deleteFrom map key a k).Nodup := by
  by_cases hk : k = key
  · subst hk
    simpa using nodup_discard _ _ (h k)
  · simpa [deleteFrom_ne _ _ _ _ hk] using h k

end

end Maps

namespace Ownership

/-! ## What listing changes -/

structure SameNodes (x y : Ownership) : Prop where
  live : y.live = x.live
  edges : y.edges = x.edges
  settled : y.settled = x.settled
  unloaded : y.unloaded = x.unloaded

theorem SameNodes.refl (x : Ownership) : SameNodes x x := ⟨rfl, rfl, rfl, rfl⟩

theorem SameNodes.trans {x y z : Ownership} (h : SameNodes x y) (h' : SameNodes y z) : SameNodes x z :=
  ⟨h'.live.trans h.live, h'.edges.trans h.edges, h'.settled.trans h.settled, h'.unloaded.trans h.unloaded⟩

section

variable {x y : Ownership} (h : SameNodes x y)
include h

theorem SameNodes.node (id : Id) : y.node id = x.node id := by
  simp [Ownership.node, h.live, h.settled]

theorem SameNodes.up (n : Node) : y.up n = x.up n := by
  cases n <;> simp [Ownership.up, h.node, h.edges]

theorem SameNodes.isLive (n : Node) : y.isLive n = x.isLive n := by
  cases n <;> simp [Ownership.isLive, h.live]

theorem SameNodes.needed (n : Node) (hb : y.below n = x.below n) : y.needed n = x.needed n := by
  simp [Ownership.needed, h.isLive, hb]

end

section

variable (x : Ownership)

theorem link_sameNodes (p n : Node) : SameNodes x (x.link p n) := ⟨rfl, rfl, rfl, rfl⟩

theorem unlink_sameNodes (p n : Node) : SameNodes x (x.unlink p n) := ⟨rfl, rfl, rfl, rfl⟩

theorem reroot_sameNodes (root : Id) : SameNodes x (x.reroot root) := ⟨rfl, rfl, rfl, rfl⟩

theorem link_below_ne (p n m : Node) (h : m ≠ p) : (x.link p n).below m = x.below m :=
  addTo_ne _ _ _ _ h

theorem unlink_below_ne (p n m : Node) (h : m ≠ p) : (x.unlink p n).below m = x.below m :=
  deleteFrom_ne _ _ _ _ h

theorem mem_link (p n m q : Node) : m ∈ (x.link p n).below q ↔ (q = p ∧ m = n) ∨ m ∈ x.below q :=
  mem_addTo _ _ _ _ _

theorem mem_unlink (p n m q : Node) : m ∈ (x.unlink p n).below q ↔ m ∈ x.below q ∧ ¬(q = p ∧ m = n) :=
  mem_deleteFrom _ _ _ _ _

theorem needed_iff_lists (n : Node) : x.needed n = true ↔ x.isLive n = true ∨ ∃ m, m ∈ x.below n := by
  simp only [needed, Bool.or_eq_true, Bool.not_eq_true', List.isEmpty_eq_false_iff_exists_mem]

end

def Queued (x : Ownership) (n : Node) : Prop := x.up n ≠ none → x.needed n = false → n ∈ x.dropQueue

def Flagged (x : Ownership) : Prop := x.dropQueue ≠ [] → x.sweepScheduled = true

section

variable (x : Ownership)

theorem dropIfUnneeded_sameNodes (n : Node) : SameNodes x (x.dropIfUnneeded n) := by
  unfold dropIfUnneeded
  split <;> exact ⟨rfl, rfl, rfl, rfl⟩

@[simp] theorem dropIfUnneeded_below (n : Node) : (x.dropIfUnneeded n).below = x.below := by
  unfold dropIfUnneeded
  split <;> rfl

@[simp] theorem dropIfUnneeded_roots (n : Node) : (x.dropIfUnneeded n).roots = x.roots := by
  unfold dropIfUnneeded
  split <;> rfl

theorem dropIfUnneeded_needed (n m : Node) : (x.dropIfUnneeded n).needed m = x.needed m :=
  (x.dropIfUnneeded_sameNodes n).needed m (by simp)

theorem mem_dropIfUnneeded (n m : Node) :
    m ∈ (x.dropIfUnneeded n).dropQueue ↔ m ∈ x.dropQueue ∨ (m = n ∧ x.needed n = false) := by
  unfold dropIfUnneeded
  split
  · rename_i h
    simp [h]
  · rename_i h
    simp [h, or_comm]

theorem dropIfUnneeded_queued (n m : Node) (h : m ≠ n → x.Queued m) : (x.dropIfUnneeded n).Queued m := by
  intro hup hneeded
  rw [(x.dropIfUnneeded_sameNodes n).up] at hup
  rw [dropIfUnneeded_needed] at hneeded
  rw [mem_dropIfUnneeded]
  by_cases hm : m = n
  · subst hm
    exact Or.inr ⟨rfl, hneeded⟩
  · exact Or.inl (h hm hup hneeded)

theorem dropIfUnneeded_flagged (n : Node) (h : x.Flagged) : (x.dropIfUnneeded n).Flagged := by
  unfold dropIfUnneeded
  split
  · exact h
  · exact fun _ => rfl

end

theorem relist_sameNodes (fuel : ℕ) (x : Ownership) (n : Node) : SameNodes x (relist fuel x n) := by
  induction fuel generalizing x n with
  | zero => exact .refl x
  | succ fuel ih =>
    unfold relist
    split
    · exact .refl x
    · split
      · exact x.reroot_sameNodes _
      · exact .refl x
    · split
      · exact .refl x
      · split
        · split
          · exact (x.link_sameNodes _ n).trans (ih _ _)
          · exact x.link_sameNodes _ n
        · dsimp only
          split
          · exact ((x.unlink_sameNodes _ n).trans (dropIfUnneeded_sameNodes _ _)).trans (ih _ _)
          · exact x.unlink_sameNodes _ n

theorem link_needed (x : Ownership) (p n m : Node) (h : x.needed m = true) : (x.link p n).needed m = true := by
  rw [needed_iff_lists] at h ⊢
  rcases h with h | ⟨c, hc⟩
  · exact Or.inl h
  · exact Or.inr ⟨c, (mem_link _ _ _ _ _).mpr (Or.inr hc)⟩

theorem relist_queued (fuel : ℕ) (x : Ownership) (n m : Node) (h : x.Queued m) : (relist fuel x n).Queued m := by
  induction fuel generalizing x n with
  | zero => exact h
  | succ fuel ih =>
    unfold relist
    split
    · exact h
    · split
      · exact h
      · exact h
    · split
      · exact h
      · rename_i p _ _
        split
        · have hnext : (x.link p n).Queued m := by
            intro hup hneeded
            refine h hup ?_
            by_contra hx
            rw [Bool.not_eq_false] at hx
            rw [x.link_needed p n m hx] at hneeded
            exact absurd hneeded (by simp)
          split
          · exact ih _ _ hnext
          · exact hnext
        · have hnext : m ≠ p → (x.unlink p n).Queued m := by
            intro hm hup hneeded
            refine h hup ?_
            rw [← hneeded]
            exact ((x.unlink_sameNodes p n).needed m (x.unlink_below_ne p n m hm)).symm
          dsimp only
          split
          · exact ih _ _ (dropIfUnneeded_queued _ _ _ hnext)
          · rename_i hne
            by_cases hm : m = p
            · intro _ hneeded
              subst hm
              simp only [needed, Bool.or_eq_false_iff, Bool.not_eq_false'] at hneeded
              exact absurd hneeded.2 hne
            · exact hnext hm

theorem relist_flagged (fuel : ℕ) (x : Ownership) (n : Node) (h : x.Flagged) : (relist fuel x n).Flagged := by
  induction fuel generalizing x n with
  | zero => exact h
  | succ fuel ih =>
    unfold relist
    split
    · exact h
    · split
      · exact h
      · exact h
    · split
      · exact h
      · split
        · split
          · exact ih _ _ h
          · exact h
        · dsimp only
          split
          · exact ih _ _ (dropIfUnneeded_flagged _ _ h)
          · exact h

theorem relist_nodup (fuel : ℕ) (x : Ownership) (n : Node) (h : ∀ p, (x.below p).Nodup) (p : Node) :
    ((relist fuel x n).below p).Nodup := by
  induction fuel generalizing x n with
  | zero => exact h p
  | succ fuel ih =>
    unfold relist
    split
    · exact h p
    · split
      · exact h p
      · exact h p
    · rename_i q _
      split
      · exact h p
      · split
        · have hnext : ∀ p, ((x.link q n).below p).Nodup := nodup_addTo x.below q n h
          split
          · exact ih _ _ hnext
          · exact hnext p
        · have hnext : ∀ p, ((x.unlink q n).below p).Nodup := nodup_deleteFrom x.below q n h
          dsimp only
          split
          · exact ih _ _ (by simpa using hnext)
          · exact hnext p

/-! ## Exact listing -/

structure Linked (x : Ownership) (n : Node) : Prop where
  below : ∀ p, n ∈ x.below p ↔ x.up n = some (some p) ∧ x.needed n = true
  root : ∀ c, n = .conversation c → (c ∈ x.roots ↔ x.up n = some none ∧ x.needed n = true)

structure Placed (x : Ownership) (n : Node) : Prop where
  below : ∀ p, n ∈ x.below p → x.up n = some (some p)
  root : ∀ c, n = .conversation c → c ∈ x.roots → x.up n = some none

theorem Linked.placed {x : Ownership} {n : Node} (h : x.Linked n) : x.Placed n :=
  ⟨fun p hp => ((h.below p).mp hp).1, fun c hc hr => ((h.root c hc).mp hr).1⟩

theorem Linked.of_eq {x y : Ownership} {n : Node} (h : x.Linked n) (hnodes : SameNodes x y)
    (hneeded : y.needed n = x.needed n) (hbelow : ∀ p, n ∈ y.below p ↔ n ∈ x.below p)
    (hroots : ∀ c, n = .conversation c → (c ∈ y.roots ↔ c ∈ x.roots)) : y.Linked n := by
  refine ⟨?_, ?_⟩
  · intro p
    rw [hbelow, h.below, hnodes.up, hneeded]
  · intro c hc
    rw [hroots c hc, h.root c hc, hnodes.up, hneeded]

theorem Placed.of_eq {x y : Ownership} {n : Node} (h : x.Placed n) (hnodes : SameNodes x y)
    (hbelow : ∀ p, n ∈ y.below p → n ∈ x.below p)
    (hroots : ∀ c, n = .conversation c → c ∈ y.roots → c ∈ x.roots) : y.Placed n := by
  refine ⟨?_, ?_⟩
  · intro p hp
    rw [hnodes.up]
    exact h.below p (hbelow p hp)
  · intro c hc hr
    rw [hnodes.up]
    exact h.root c hc (hroots c hc hr)

theorem dropIfUnneeded_linked (x : Ownership) (n m : Node) (h : x.Linked m) : (x.dropIfUnneeded n).Linked m :=
  h.of_eq (x.dropIfUnneeded_sameNodes n) (x.dropIfUnneeded_needed n m) (fun _ => by simp) (fun _ _ => by simp)

theorem reroot_linked (x : Ownership) (root : Id) (hup : x.up (.conversation root) = some none)
    (hstart : x.Placed (.conversation root)) (n : Node) (h : n ≠ .conversation root → x.Linked n) :
    (x.reroot root).Linked n := by
  by_cases hn : n = .conversation root
  · subst hn
    refine ⟨fun p => ⟨fun hp => ?_, fun hp => ?_⟩, fun c hc => ?_⟩
    · exact absurd (hup.symm.trans (hstart.below p hp)) (by simp)
    · exact absurd (hup.symm.trans hp.1) (by simp)
    · cases hc
      have hkeep : (x.reroot root).needed (.conversation root) = x.needed (.conversation root) := rfl
      rw [(x.reroot_sameNodes root).up, hup, hkeep]
      unfold reroot
      split <;> rename_i hneeded <;> simp [hneeded]
  · refine (h hn).of_eq (x.reroot_sameNodes root) rfl (fun _ => Iff.rfl) ?_
    rintro c rfl
    have hc : c ≠ root := fun hc => hn (hc ▸ rfl)
    unfold reroot
    split <;> simp [hc]

theorem Placed.not_root {x : Ownership} {n p : Node} (h : x.Placed n) (hup : x.up n = some (some p)) (c : Id)
    (hc : n = .conversation c) : c ∉ x.roots :=
  fun hr => absurd (hup.symm.trans (h.root c hc hr)) (by simp)

section Listing

variable {x : Ownership} {n p : Node} (hup : x.up n = some (some p)) (hne : p ≠ n) (hplaced : x.Placed n)

include hup hne hplaced

theorem link_self (hneeded : x.needed n = true) : (x.link p n).Linked n := by
  have hsame := x.link_sameNodes p n
  have hkeep : (x.link p n).needed n = true := x.link_needed p n n hneeded
  refine ⟨fun q => ?_, fun c hc => ⟨fun h => absurd h (hplaced.not_root hup c hc), fun h => ?_⟩⟩
  · rw [hsame.up, hup, hkeep, mem_link]
    constructor
    · rintro (⟨rfl, -⟩ | hq)
      · exact ⟨rfl, rfl⟩
      · exact ⟨hup.symm.trans (hplaced.below q hq), rfl⟩
    · rintro ⟨hq, -⟩
      exact Or.inl ⟨by simpa using hq.symm, rfl⟩
  · exact absurd ((hsame.up n).symm.trans h.1 |>.symm.trans hup) (by simp)

theorem unlink_self (hneeded : x.needed n = false) : (x.unlink p n).Linked n := by
  have hsame := x.unlink_sameNodes p n
  have hkeep : (x.unlink p n).needed n = false := by
    rw [hsame.needed n (x.unlink_below_ne p n n hne.symm), hneeded]
  refine ⟨fun q => ?_, fun c hc => ⟨fun h => absurd h (hplaced.not_root hup c hc), fun h => ?_⟩⟩
  · rw [hkeep, mem_unlink]
    constructor
    · rintro ⟨hq, hnot⟩
      have hq' := hup.symm.trans (hplaced.below q hq)
      exact absurd ⟨by simpa using hq'.symm, rfl⟩ hnot
    · simp
  · rw [hkeep] at h
    simp at h

end Listing

theorem link_other {x : Ownership} {n p m : Node} (hm : m ≠ n) (h : x.Linked m)
    (hp : m = p → (x.below p).isEmpty = false) : (x.link p n).Linked m := by
  refine h.of_eq (x.link_sameNodes p n) ?_ (fun q => by simp [mem_link, hm]) (fun _ _ => Iff.rfl)
  by_cases hmp : m = p
  · subst hmp
    have hold : x.needed m = true := by simp [needed, hp rfl]
    rw [hold, x.link_needed m n m hold]
  · exact (x.link_sameNodes p n).needed m (x.link_below_ne p n m hmp)

theorem unlink_other {x : Ownership} {n p m : Node} (hm : m ≠ n) (h : x.Linked m)
    (hp : m = p → ((x.unlink p n).below p).isEmpty = false) : (x.unlink p n).Linked m := by
  refine h.of_eq (x.unlink_sameNodes p n) ?_ (fun q => by simp [mem_unlink, hm]) (fun _ _ => Iff.rfl)
  by_cases hmp : m = p
  · subst hmp
    have hnew := hp rfl
    obtain ⟨c, hc⟩ := List.isEmpty_eq_false_iff_exists_mem.mp hnew
    have hold : x.needed m = true := (x.needed_iff_lists m).mpr (Or.inr ⟨c, ((mem_unlink _ _ _ _ _).mp hc).1⟩)
    rw [hold]
    simp [needed, hnew]
  · exact (x.unlink_sameNodes p n).needed m (x.unlink_below_ne p n m hmp)

theorem relist_linked (rank : Node → ℕ) (fuel : ℕ) (x : Ownership)
    (hrank : ∀ n p, x.up n = some (some p) → rank p < rank n) (start : Node) (hfuel : rank start < fuel)
    (hothers : ∀ n, n ≠ start → x.Linked n) (hstart : x.Placed start) (n : Node) : (relist fuel x start).Linked n := by
  induction fuel generalizing x start with
  | zero => omega
  | succ fuel ih =>
    unfold relist
    split
    · rename_i hup
      by_cases hn : n = start
      · subst hn
        refine ⟨fun p => ⟨fun h => ?_, fun h => ?_⟩, fun c hc => ⟨fun h => ?_, fun h => ?_⟩⟩
        · exact absurd (hup.symm.trans (hstart.below p h)) (by simp)
        · exact absurd (hup.symm.trans h.1) (by simp)
        · exact absurd (hup.symm.trans (hstart.root c hc h)) (by simp)
        · exact absurd (hup.symm.trans h.1) (by simp)
      · exact hothers n hn
    · rename_i hup
      split
      · exact x.reroot_linked _ hup hstart n (hothers n)
      · simp [up] at hup
    · rename_i p hup
      have hlt := hrank _ _ hup
      have hne : p ≠ start := by
        rintro rfl
        omega
      split
      · rename_i heq
        by_cases hn : n = start
        · subst hn
          refine ⟨fun q => ⟨fun hq => ?_, fun hq => ?_⟩,
            fun c hc => ⟨fun h => absurd h (hstart.not_root hup c hc), fun h => ?_⟩⟩
          · obtain rfl : p = q := by simpa [hup] using hstart.below q hq
            exact ⟨hup, by simpa [hq] using heq.symm⟩
          · obtain rfl : p = q := by simpa [hup] using hq.1
            simpa [hq.2] using heq
          · exact absurd (hup.symm.trans h.1) (by simp)
        · exact hothers n hn
      · split
        · rename_i hneeded
          have hself := link_self hup hne hstart hneeded
          split
          · -- the parent became needed
            refine ih (x.link p start) ?_ p (by omega) ?_ ?_
            · intro m q hq
              exact hrank m q (((x.link_sameNodes p start).up m).symm.trans hq)
            · intro m hm
              by_cases hms : m = start
              · exact hms ▸ hself
              · exact link_other hms (hothers m hms) (fun h => absurd h hm)
            · refine (hothers p hne).placed.of_eq (x.link_sameNodes p start) ?_ (fun _ _ h => h)
              intro q hq
              simpa [mem_link, hne] using hq
          · rename_i hnonempty
            by_cases hn : n = start
            · exact hn ▸ hself
            · exact link_other hn (hothers n hn) (fun _ => by simpa using hnonempty)
        · rename_i hneeded
          have hself := unlink_self hup hne hstart (by simpa using hneeded)
          dsimp only
          split
          · -- the parent lost its last listed node
            have hsame := (x.unlink_sameNodes p start).trans (dropIfUnneeded_sameNodes (x.unlink p start) p)
            refine ih _ ?_ p (by omega) ?_ ?_
            · intro m q hq
              exact hrank m q ((hsame.up m).symm.trans hq)
            · intro m hm
              refine dropIfUnneeded_linked _ _ _ ?_
              by_cases hms : m = start
              · exact hms ▸ hself
              · exact unlink_other hms (hothers m hms) (fun h => absurd h hm)
            · refine (hothers p hne).placed.of_eq hsame ?_ ?_
              · intro q hq
                rw [dropIfUnneeded_below, mem_unlink] at hq
                exact hq.1
              · intro c _ hr
                rw [dropIfUnneeded_roots] at hr
                exact hr
          · rename_i hnonempty
            by_cases hn : n = start
            · exact hn ▸ hself
            · exact unlink_other hn (hothers n hn) (fun _ => by simpa using hnonempty)

end Ownership

end PiAgent.Harness
