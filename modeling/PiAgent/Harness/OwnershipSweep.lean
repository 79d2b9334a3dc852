import PiAgent.Harness.OwnershipSound

/-! # Sweeps and chain loads -/

namespace PiAgent.Harness

open Durable

namespace Ownership

/-! ## Needed nodes -/

variable {x : Ownership}

theorem needed_of_hangs (hlinked : ∀ n, x.Linked n) {n p : Node} (h : x.Hangs n p)
    (hn : x.needed n = true) : x.needed p = true :=
  (x.needed_iff_lists p).mpr (Or.inr ⟨n, ((hlinked n).below p).mpr ⟨h, hn⟩⟩)

theorem needed_of_onChain (hlinked : ∀ n, x.Linked n) {n : Node} (h : x.OnChain n) : x.needed n = true := by
  obtain ⟨id, hid, hchain⟩ := h
  induction hchain with
  | refl => exact (x.needed_iff_lists _).mpr (Or.inl hid)
  | tail _ hstep ih => exact needed_of_hangs hlinked hstep ih

variable {store : Store}

section

variable {rank : Node → ℕ} (hg : store.Grounded rank) {x : Ownership} (h : Core store x) (n : Node)
include hg h

theorem onChain_of_needed (hn : x.needed n = true) : x.OnChain n := by
  induction hd : store.count - rank n using Nat.strong_induction_on generalizing n with
  | _ d ih =>
    rcases (x.needed_iff_lists n).mp hn with hlive | ⟨m, hm⟩
    · cases n with
      | task id => exact ⟨id, hlive, .refl⟩
      | conversation c => simp [isLive] at hlive
    · obtain ⟨hup, hneeded⟩ := ((h.linked m).below n).mp hm
      have hdeep := h.deeper hg m n hup
      have hbound := hg.bound m ((store.has_iff m).mpr ⟨_, h.up m _ hup⟩)
      obtain ⟨id, hid, hchain⟩ := ih _ (by omega) m hneeded rfl
      exact ⟨id, hid, hchain.tail hup⟩

theorem needed_iff_onChain : x.needed n = true ↔ x.OnChain n :=
  ⟨onChain_of_needed hg h n, needed_of_onChain h.linked⟩

end

/-! ## Sweeps -/

variable (x : Ownership)

theorem sweepNode_up (n m : Node) : (x.sweepNode n).up m = if m = n ∧ x.needed n = false then none else x.up m := by
  unfold sweepNode
  split
  · rename_i hempty
    cases n with
    | conversation c =>
      have hneeded : x.needed (.conversation c) = false := by simp [needed, isLive, hempty]
      cases m with
      | task j => simp [up, node]
      | conversation d =>
        by_cases hd : d = c
        · subst hd
          simp [up, hneeded]
        · simp [up, hd]
    | task id =>
      dsimp only
      split
      · rename_i hlive
        have hneeded : x.needed (.task id) = true := by simp [needed, isLive, hlive]
        simp [hneeded]
      · rename_i hlive
        have hneeded : x.needed (.task id) = false := by simp [needed, isLive, hempty, hlive]
        have hnone : x.live id = none := by simpa using hlive
        cases m with
        | conversation d => simp [up]
        | task j =>
          by_cases hj : j = id
          · subst hj
            simp [up, node, hnone, hneeded]
          · simp [up, node, hj]
  · rename_i hfull
    have hneeded : x.needed n = true := by simp [needed, hfull]
    simp [hneeded]

variable (n : Node)

theorem sweepNode_lists : (x.sweepNode n).live = x.live ∧ (x.sweepNode n).below = x.below ∧
      (x.sweepNode n).dropQueue = x.dropQueue ∧ (x.sweepNode n).sweepScheduled = x.sweepScheduled := by
  unfold sweepNode
  split
  · cases n with
    | conversation c => exact ⟨rfl, rfl, rfl, rfl⟩
    | task id =>
      dsimp only
      split <;> exact ⟨rfl, rfl, rfl, rfl⟩
  · exact ⟨rfl, rfl, rfl, rfl⟩

theorem sweepNode_needed (n m : Node) : (x.sweepNode n).needed m = x.needed m := by
  obtain ⟨hl, hb, -⟩ := x.sweepNode_lists n
  have hlive : (x.sweepNode n).isLive m = x.isLive m := by cases m <;> simp [isLive, hl]
  simp [needed, hlive, hb]

theorem sweepNode_node (id : Id) (nd : TaskNode) (h : (x.sweepNode n).node id = some nd) : x.node id = some nd := by
  unfold sweepNode at h
  split at h
  · cases n with
    | conversation c => exact h
    | task j =>
      dsimp only at h
      split at h
      · exact h
      · by_cases hj : id = j
        · subst hj
          rename_i hlive
          have hnone : x.live id = none := by simpa using hlive
          simp [node, hnone] at h
        · simpa [node, hj] using h
  · exact h

theorem sweepNode_edges (c : Id) (o : Option Id) (h : (x.sweepNode n).edges c = some o) : x.edges c = some o := by
  unfold sweepNode at h
  split at h
  · cases n with
    | conversation d =>
      by_cases hd : c = d
      · subst hd
        simp at h
      · simpa [hd] using h
    | task j =>
      dsimp only at h
      split at h <;> exact h
  · exact h

theorem sweepNode_unloaded (id : Id) :
    id ∈ (x.sweepNode n).unloaded ↔ id ∈ x.unloaded ∧ ¬(n = .task id ∧ x.needed n = false) := by
  unfold sweepNode
  split
  · rename_i hempty
    cases n with
    | conversation c => simp
    | task j =>
      dsimp only
      split
      · rename_i hlive
        have hneeded : x.needed (.task j) = true := by simp [needed, isLive, hlive]
        simp [hneeded]
      · rename_i hlive
        have hneeded : x.needed (.task j) = false := by simp [needed, isLive, hempty, hlive]
        simp [hneeded, eq_comm]
  · rename_i hfull
    have hneeded : x.needed n = true := by simp [needed, hfull]
    simp [hneeded]

variable {x : Ownership}

theorem sweepNode_roots (h : Core store x) (n : Node) (c : Id) : c ∈ (x.sweepNode n).roots ↔ c ∈ x.roots := by
  unfold sweepNode
  split
  · rename_i hempty
    cases n with
    | conversation d =>
      rw [mem_discard]
      refine ⟨And.left, fun hc => ⟨hc, ?_⟩⟩
      rintro rfl
      have := (((h.linked (.conversation c)).root c rfl).mp hc).2
      simp [needed, isLive, hempty] at this
    | task id =>
      dsimp only
      split <;> exact Iff.rfl
  · exact Iff.rfl

theorem Loaded.sweepNode (h : Core store x) (n : Node) {m : Node} (hl : x.Loaded m)
    (hm : x.needed m = true) : (x.sweepNode n).Loaded m := by
  have hkeep : ∀ m, x.needed m = true → (x.sweepNode n).up m = x.up m := by
    intro m hm
    rw [sweepNode_up, if_neg]
    rintro ⟨rfl, hn⟩
    simp [hm] at hn
  induction hl with
  | root hr => exact .root ((hkeep _ hm).trans hr)
  | step hs _ ih => exact .step ((hkeep _ hm).trans hs) (ih (needed_of_hangs h.linked hs hm))

theorem sweepNode_core (h : Core store x) (n : Node) : Core store (x.sweepNode n) := by
  obtain ⟨hl, hb, -⟩ := x.sweepNode_lists n
  refine { node := ?_, edge := ?_, apart := ?_, linked := ?_, nodup := ?_, unloaded := ?_, loaded := ?_ }
  · intro id nd hnd
    exact h.node id nd (x.sweepNode_node n id nd hnd)
  · intro c o ho
    exact h.edge c o (x.sweepNode_edges n c o ho)
  · intro id r hr
    rw [hl] at hr
    have hs := h.apart id r hr
    have hlive : (x.live id).isSome = true := by simp [hr]
    unfold Ownership.sweepNode
    split
    · cases n with
      | conversation c => exact hs
      | task j =>
        dsimp only
        split
        · exact hs
        · rename_i hj
          have hne : id ≠ j := by
            rintro rfl
            exact hj hlive
          simpa [hne] using hs
    · exact hs
  · intro m
    refine ⟨fun p => ?_, fun c hc => ?_⟩
    · rw [hb, (h.linked m).below, sweepNode_needed, sweepNode_up]
      constructor
      · rintro ⟨hup, hm⟩
        refine ⟨?_, hm⟩
        rw [if_neg]
        · exact hup
        · rintro ⟨rfl, hn⟩
          simp [hm] at hn
      · rintro ⟨hup, hm⟩
        split at hup
        · simp at hup
        · exact ⟨hup, hm⟩
    · rw [sweepNode_roots h, (h.linked m).root c hc, sweepNode_needed, sweepNode_up]
      constructor
      · rintro ⟨hup, hm⟩
        refine ⟨?_, hm⟩
        rw [if_neg]
        · exact hup
        · rintro ⟨rfl, hn⟩
          simp [hm] at hn
      · rintro ⟨hup, hm⟩
        split at hup
        · simp at hup
        · exact ⟨hup, hm⟩
  · intro p
    rw [hb]
    exact h.nodup p
  · intro id hid
    obtain ⟨hid, hnot⟩ := (x.sweepNode_unloaded n id).mp hid
    have hup : (x.sweepNode n).up (.task id) = x.up (.task id) := by
      rw [sweepNode_up, if_neg]
      rintro ⟨rfl, hn⟩
      exact hnot ⟨rfl, hn⟩
    have hnode := h.unloaded id hid
    simpa [up, Option.isSome_map] using congrArg Option.isSome hup |>.trans (by simpa [up] using hnode)
  · intro id hid hn
    rw [sweepNode_needed] at hn
    refine Loaded.sweepNode h n (h.loaded id ?_ hn) hn
    rw [knownTask, Bool.and_eq_true, Bool.not_eq_true', decide_eq_false_iff_not] at hid ⊢
    obtain ⟨nd, hnd⟩ := Option.isSome_iff_exists.mp hid.1
    refine ⟨by simp [x.sweepNode_node n id nd hnd], fun hmem => hid.2 ?_⟩
    rw [sweepNode_unloaded]
    refine ⟨hmem, ?_⟩
    rintro ⟨rfl, hn'⟩
    simp [hn] at hn'

def Pending (x : Ownership) (queue : List Node) : Prop := ∀ n, x.up n ≠ none → x.needed n = false → n ∈ queue

theorem foldl_sweepNode (queue : List Node) (x : Ownership) (h : Core store x) (hp : x.Pending queue) :
    Core store (queue.foldl sweepNode x) ∧ (queue.foldl sweepNode x).Pending [] := by
  induction queue generalizing x with
  | nil => exact ⟨h, hp⟩
  | cons n queue ih =>
    refine ih _ (sweepNode_core h n) ?_
    intro m hup hm
    rw [sweepNode_needed] at hm
    rw [sweepNode_up] at hup
    split at hup
    · exact absurd rfl hup
    · rename_i hnot
      refine (List.mem_cons.mp (hp m hup hm)).resolve_left ?_
      rintro rfl
      exact hnot ⟨rfl, hm⟩

theorem foldl_sweepNode_lists (queue : List Node) (x : Ownership) :
    (queue.foldl sweepNode x).live = x.live ∧ (queue.foldl sweepNode x).below = x.below ∧
      (queue.foldl sweepNode x).sweepScheduled = x.sweepScheduled := by
  induction queue generalizing x with
  | nil => exact ⟨rfl, rfl, rfl⟩
  | cons n queue ih =>
    obtain ⟨hl, hb, -, hs⟩ := x.sweepNode_lists n
    obtain ⟨hl', hb', hs'⟩ := ih (x.sweepNode n)
    exact ⟨hl'.trans hl, hb'.trans hb, hs'.trans hs⟩

variable (x : Ownership)

@[simp] theorem sweep_live : x.sweep.live = x.live := (foldl_sweepNode_lists _ x).1

variable {x : Ownership}

theorem sweep_sound_of_core (h : Core store x) (hq : ∀ n, x.Queued n) : Sound store x.sweep := by
  obtain ⟨hcore, hpending⟩ := foldl_sweepNode x.dropQueue x h hq
  have hsame : SameNodes (x.dropQueue.foldl sweepNode x) x.sweep := ⟨rfl, rfl, rfl, rfl⟩
  have hneeded : ∀ n, x.sweep.needed n = (x.dropQueue.foldl sweepNode x).needed n := fun n => hsame.needed n rfl
  have hloaded : ∀ id, x.sweep.knownTask id = true → x.sweep.needed (.task id) = true →
      x.sweep.Loaded (.task id) := by
    intro id hid hn
    rw [hneeded] at hn
    exact hsame.loaded (hcore.loaded id hid hn)
  refine { node := hcore.node, edge := hcore.edge, apart := hcore.apart, linked := ?_, nodup := hcore.nodup,
           unloaded := hcore.unloaded, loaded := hloaded, queued := ?_, flagged := ?_, chains := ?_ }
  · intro n
    exact (hcore.linked n).of_eq hsame (hneeded n) (fun _ => Iff.rfl) (fun _ _ => Iff.rfl)
  · intro n hup hn
    rw [hneeded] at hn
    rw [hsame.up] at hup
    exact absurd (hpending n hup hn) (by simp)
  · intro hne
    exact absurd rfl hne
  · intro id hid
    refine hloaded id hid ?_
    by_contra hn
    rw [Bool.not_eq_true, hneeded] at hn
    refine absurd (hpending (.task id) ?_ hn) (by simp)
    rw [knownTask, Bool.and_eq_true] at hid
    intro hnone
    rw [← hsame.up] at hnone
    have hnode : x.sweep.node id = none := by simpa [up] using hnone
    simp [hnode] at hid

theorem sweep_sound (h : Sound store x) : Sound store x.sweep :=
  sweep_sound_of_core h.toCore h.queued

theorem sweepJob_sound (h : Sound store x) : Sound store x.sweepJob := by
  have hsame : SameNodes x { x with sweepScheduled := false } := ⟨rfl, rfl, rfl, rfl⟩
  refine sweep_sound_of_core (x := { x with sweepScheduled := false }) { h.toCore with linked := ?_, loaded := ?_ } ?_
  · intro n
    exact (h.linked n).of_eq hsame rfl (fun _ => Iff.rfl) (fun _ _ => Iff.rfl)
  · intro id hid hn
    exact hsame.loaded (h.loaded id hid hn)
  · exact h.queued

end Ownership

end PiAgent.Harness
