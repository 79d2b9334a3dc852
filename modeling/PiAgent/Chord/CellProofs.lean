import Mathlib.Data.List.Sort
import PiAgent.Chord.Cell

/-! # Derivations without glitches -/

namespace PiAgent.Cells

open Option Function List Assoc Delta

variable {C D X : Type}

inductive DependsOn (r : Record C D X) (source : Ref C D X) : D → Prop where
  | direct (d : D) : source ∈ (r.derives d).sources → DependsOn r source d
  | through (d e : D) : DependsOn r source d → .derived d ∈ (r.derives e).sources → DependsOn r source e

variable [DecidableEq C] [DecidableEq D] [DecidableEq X]

variable (r : Record C D X) (source : Ref C D X)

theorem mem_dependents (d : D) : d ∈ r.dependents source ↔ source ∈ (r.derives d).sources := by
  simp [Record.dependents, r.complete d]

theorem visit_spec : (r.visit source).Nodup ∧ ∀ d, d ∈ r.visit source ↔ DependsOn r source d := by
  obtain ⟨hnodup, hmem⟩ := mem_gather (fun d => r.dependents (.derived d)) r.order.toFinset
    (fun _ _ e _ => by simpa using r.complete e) (r.dependents source) (fun e _ => by simpa using r.complete e)
    (r.order.length + 1) (Nat.lt_succ_of_le (toFinset_card_le _))
  refine ⟨hnodup, fun d => (hmem d).trans ⟨?_, fun h => ?_⟩⟩
  · rintro ⟨e, he, hed⟩
    induction hed with
    | refl => exact .direct e ((mem_dependents r source e).mp he)
    | tail _ hstep ih => exact .through _ _ ih ((mem_dependents r _ _).mp hstep)
  · induction h with
    | direct d h => exact ⟨d, (mem_dependents r source d).mpr h, .refl⟩
    | through d e _ hde ih =>
      obtain ⟨x, hx, hxd⟩ := ih
      exact ⟨x, hx, hxd.tail ((mem_dependents r _ e).mpr hde)⟩

/-! ## Evaluation -/

def InOrder (r : Record C D X) (ds : List D) : Prop :=
  ds.Pairwise (fun d e => .derived e ∉ (r.derives d).sources)

theorem visit_sorted :
    InOrder r ((r.visit source).mergeSort (fun a b => (r.derives a).seq ≤ (r.derives b).seq)) := by
  have hsorted : ((r.visit source).mergeSort (fun a b => (r.derives a).seq ≤ (r.derives b).seq)).Pairwise
      (fun a b => decide ((r.derives a).seq ≤ (r.derives b).seq) = true) :=
    pairwise_mergeSort (by simp only [decide_eq_true_eq]; omega)
      (by simp only [Bool.or_eq_true, decide_eq_true_eq]; omega) _
  refine hsorted.imp (fun {d e} hle hmem => ?_)
  have := r.ordered d e hmem
  simp only [decide_eq_true_eq] at hle
  omega

def reads (w : State C D X) (values : List (Ref C D X × Value)) (result : List (D × Value)) : Ref C D X → Value
  | .derived d => (get? result d).getD ((get? values (.derived d)).getD (w.get (.derived d)))
  | source => (get? values source).getD (w.get source)

/-- Every derivation is called once, with what its sources have in the end, and gives its new value. -/
structure Evaluated (r : Record C D X) (ds : List D) (final : Ref C D X → Value) (calls : List (D × List Value))
    (result : List (D × Value)) : Prop where
  called : calls.map Prod.fst = ds
  keys : keys result = ds
  args : ∀ p ∈ calls, p.2 = (r.derives p.1).sources.map final
  computed : ∀ p ∈ result, (r.derives p.1).compute ((r.derives p.1).sources.map final) = .ok p.2

variable (w : State C D X)

theorem reads_cons (values : List (Ref C D X × Value)) (rest : List (D × Value)) (d : D)
    (next : Value) (hd : d ∉ keys rest) :
    reads w (set values (.derived d) next) rest = reads w values ((d, next) :: rest) := by
  funext source
  cases source with
  | derived e =>
    by_cases he : d = e
    · subst he
      simp [reads, (get?_eq_none_iff _ _).mpr hd]
    · have hne : (Ref.derived d : Ref C D X) ≠ .derived e := fun h => he (Ref.derived.inj h)
      simp [reads, get?_cons_ne _ _ _ _ he, get?_set_ne _ _ _ _ hne]
  | cell c => simp [reads, get?_set_ne]
  | external x => simp [reads, get?_set_ne]

theorem evaluate_ok (ds : List D) :
    ∀ (values : List (Ref C D X × Value)) (result : List (D × Value)), ds.Nodup → InOrder r ds →
      (r.evaluate w ds values).2 = .ok result →
      Evaluated r ds (reads w values result) (r.evaluate w ds values).1 result := by
  induction ds with
  | nil =>
    intro values result _ _ h
    cases h
    exact ⟨rfl, rfl, by simp [Record.evaluate], by simp⟩
  | cons d ds ih =>
    intro values result hnodup horder h
    obtain ⟨hd, hnodup⟩ := nodup_cons.mp hnodup
    obtain ⟨hlater, horder⟩ := pairwise_cons.mp horder
    simp only [Record.evaluate] at h ⊢
    split at h
    · cases h
    next next hnext =>
    split at h
    · cases h
    next hvalid =>
    obtain ⟨rest, hrest, rfl⟩ : ∃ rest, (r.evaluate w ds (set values (.derived d) next)).2 = .ok rest ∧
        (d, next) :: rest = result := by
      cases hr : (r.evaluate w ds (set values (.derived d) next)).2 with
      | error e => rw [hr] at h; cases h
      | ok rest => rw [hr] at h; exact ⟨rest, rfl, by simpa [Except.map] using h⟩
    have hev := ih _ rest hnodup horder hrest
    have hfinal := reads_cons w values rest d next (by rw [hev.keys]; exact hd)
    rw [hfinal] at hev
    have hargs : (r.derives d).sources.map (fun source => (get? values source).getD (w.get source)) =
        (r.derives d).sources.map (reads w values ((d, next) :: rest)) := by
      refine map_congr_left (fun source hsource => ?_)
      cases source with
      | derived e =>
        have he : e ∉ keys ((d, next) :: rest) := by
          simp only [Assoc.keys, map_cons, mem_cons, not_or]
          refine ⟨?_, fun hmem => ?_⟩
          · rintro rfl
            exact lt_irrefl _ (r.ordered _ _ hsource)
          · exact hlater e (hev.keys ▸ hmem) hsource
        simp [reads, (get?_eq_none_iff _ _).mpr he]
      | _ => rfl
    refine ⟨by simp [hev.called], by simp [Assoc.keys, ← hev.keys], ?_, ?_⟩
    · intro p hp
      rcases mem_cons.mp hp with rfl | hp
      · exact hargs
      · exact hev.args p hp
    · intro p hp
      rcases mem_cons.mp hp with rfl | hp
      · exact hargs ▸ hnext
      · exact hev.computed p hp

/-! ## Publication -/

structure Untouched (w w' : State C D X) : Prop where
  cells : w'.cells = w.cells
  derives : w'.derives = w.derives
  externals : w'.externals = w.externals
  queue : w'.queue = w.queue

structure Updated (r : Record C D X) (w w' : State C D X) (c : C) (value : Shared) : Prop where
  written : w'.cells = update w.cells c value
  externals : w'.externals = w.externals
  computed : ∀ d, DependsOn r (.cell c) d →
    (r.derives d).compute ((r.derives d).sources.map w'.get) = .ok (w'.derives d)
  others : ∀ d, ¬ DependsOn r (.cell c) d → w'.derives d = w.derives d
  once : ∃ calls, w'.calls = w.calls ++ calls ∧ (calls.map Prod.fst).Nodup ∧
    (∀ d, d ∈ calls.map Prod.fst ↔ DependsOn r (.cell c) d) ∧
    ∀ p ∈ calls, p.2 = (r.derives p.1).sources.map w'.get

structure SameCells (w w' : State C D X) : Prop where
  cells : w'.cells = w.cells
  externals : w'.externals = w.externals
  calls : w'.calls = w.calls

variable (result : List (D × Value))

omit [DecidableEq C] [DecidableEq X] in
theorem install_all : ∀ w : State C D X, (keys result).Nodup →
      SameCells w (result.foldl (fun w p => r.install w p.1 p.2) w) ∧
      (result.foldl (fun w p => r.install w p.1 p.2) w).derives =
        fun d => (get? result d).getD (w.derives d) := by
  induction result with
  | nil => exact fun w _ => ⟨⟨rfl, rfl, rfl⟩, rfl⟩
  | cons p result ih =>
    obtain ⟨e, next⟩ := p
    intro w hnodup
    obtain ⟨hp, hnodup⟩ := nodup_cons.mp hnodup
    obtain ⟨hsame, hderives⟩ := ih (r.install w e next) hnodup
    refine ⟨⟨hsame.cells, hsame.externals, hsame.calls⟩, ?_⟩
    rw [foldl_cons, hderives]
    funext d
    by_cases hd : e = d
    · subst hd
      have hnone : get? result e = none := (get?_eq_none_iff _ _).mpr hp
      simp [hnone, Record.install]
    · simp [get?_cons, hd, Record.install, update_of_ne (Ne.symm hd)]

theorem evaluated_updated (w w' : State C D X) (c : C) (value : Shared) (ds : List D)
    (calls : List (D × List Value)) (result : List (D × Value)) (hnodup : ds.Nodup)
    (hds : ∀ d, d ∈ ds ↔ DependsOn r (.cell c) d)
    (hev : Evaluated r ds (reads w [(.cell c, some value)] result) calls result)
    (hcells : w'.cells = update w.cells c value) (hexternals : w'.externals = w.externals)
    (hderives : w'.derives = fun d => (get? result d).getD (w.derives d))
    (hcalls : w'.calls = w.calls ++ calls) : Updated r w w' c value := by
  have hget : w'.get = reads w [(.cell c, some value)] result := by
    funext source
    cases source with
    | cell e =>
      by_cases he : c = e
      · subst he
        simp [State.get, reads, hcells]
      · simp [State.get, reads, hcells, update_of_ne (Ne.symm he), get?_cons, he]
    | derived d => simp [State.get, reads, hderives, get?_cons]
    | external x => simp [State.get, reads, hexternals, get?_cons]
  refine ⟨hcells, hexternals, fun d hd => ?_, fun d hd => ?_, calls, hcalls, ?_, ?_, ?_⟩
  · obtain ⟨v, hv⟩ : ∃ v, get? result d = some v := by
      rw [← isSome_iff_exists]
      exact (has_iff result d).mpr (hev.keys ▸ (hds d).mpr hd)
    rw [hget, hderives, hev.computed _ (mem_of_get? _ _ _ hv)]
    simp [hv]
  · have : d ∉ keys result := by rw [hev.keys, hds]; exact hd
    simp [hderives, (get?_eq_none_iff _ _).mpr this]
  · rw [hev.called]; exact hnodup
  · rw [hev.called]; exact hds
  · rw [hget]; exact hev.args

theorem computeDependents_ok (changed : Ref C D X) (value : Value)
    (result : List (D × Value)) (h : (r.computeDependents w changed value).2 = .ok result) :
    ∃ ds, ds.Nodup ∧ (∀ d, d ∈ ds ↔ DependsOn r changed d) ∧
      Evaluated r ds (reads w [(changed, value)] result) (r.computeDependents w changed value).1 result := by
  obtain ⟨hnodup, hmem⟩ := visit_spec r changed
  have hperm := mergeSort_perm (r.visit changed) (fun a b => (r.derives a).seq ≤ (r.derives b).seq)
  refine ⟨_, hperm.nodup_iff.mpr hnodup, fun d => (hperm.mem_iff).trans (hmem d), ?_⟩
  exact evaluate_ok r w _ _ result (hperm.nodup_iff.mpr hnodup) (visit_sorted r changed) h

theorem publish_cases (c : C) (base : ℕ) (value : Shared) (prepared ops : List Op) :
    (∃ e, (r.publish w c base value prepared ops).2 = .error e ∧
      Untouched w (r.publish w c base value prepared ops).1) ∨
    ((r.publish w c base value prepared ops).2 = .ok () ∧ prepared = [] ∧
      Untouched w (r.publish w c base value prepared ops).1 ∧
      (r.publish w c base value prepared ops).1.calls = w.calls) ∨
    ((r.publish w c base value prepared ops).2 = .ok () ∧
      Updated r w (r.publish w c base value prepared ops).1 c value) := by
  unfold Record.publish
  split
  · next hempty =>
    split
    · exact Or.inl ⟨_, rfl, rfl, rfl, rfl, rfl⟩
    · exact Or.inr (Or.inl ⟨rfl, List.isEmpty_iff.mp hempty, ⟨rfl, rfl, rfl, rfl⟩, rfl⟩)
  · split
    · exact Or.inl ⟨_, rfl, rfl, rfl, rfl, rfl⟩
    · dsimp only
      split
      · exact Or.inl ⟨_, rfl, rfl, rfl, rfl, rfl⟩
      · next candidates hcandidates =>
        split
        · exact Or.inl ⟨_, rfl, rfl, rfl, rfl, rfl⟩
        · obtain ⟨ds, hnodup, hds, hev⟩ := computeDependents_ok r w _ _ _ hcandidates
          refine Or.inr (Or.inr ⟨rfl, ?_⟩)
          obtain ⟨hsame, hderives⟩ := install_all r candidates
            { w with cells := update w.cells c value, revisions := update w.revisions c (base + 1),
                     queue := w.queue ++
                       [⟨.cell c, if ops.isEmpty then unbox prepared value.value else ops, value⟩],
                     calls := w.calls ++ (r.computeDependents w (.cell c) value).1 }
            (by rw [hev.keys]; exact hnodup)
          exact evaluated_updated r w _ c value ds _ candidates hnodup hds hev hsame.cells hsame.externals hderives
            hsame.calls

/-! ## Every run -/

def Consistent (r : Record C D X) (w : State C D X) : Prop :=
  ∀ d, (r.derives d).compute ((r.derives d).sources.map w.get) = .ok (w.derives d)

omit [DecidableEq C] [DecidableEq D] [DecidableEq X] in
theorem Untouched.consistent {r : Record C D X} {w w' : State C D X} (h : Untouched w w') (hw : Consistent r w) :
    Consistent r w' := by
  have hget : w'.get = w.get := by
    funext source
    cases source <;> simp [State.get, h.cells, h.derives, h.externals]
  intro d
  rw [hget, h.derives]
  exact hw d

omit [DecidableEq D] [DecidableEq X] in
theorem Updated.consistent {r : Record C D X} {w w' : State C D X} {c : C} {value : Shared}
    (h : Updated r w w' c value) (hw : Consistent r w) : Consistent r w' := by
  intro d
  by_cases hd : DependsOn r (.cell c) d
  · exact h.computed d hd
  · have hsources : (r.derives d).sources.map w'.get = (r.derives d).sources.map w.get := by
      refine map_congr_left (fun source hsource => ?_)
      cases source with
      | cell e =>
        have he : e ≠ c := by
          rintro rfl
          exact hd (.direct d hsource)
        simp [State.get, h.written, update_of_ne he]
      | derived e => exact h.others e (fun he => hd (.through e d he hsource))
      | external x => simp [State.get, h.externals]
    rw [hsources, h.others d hd]
    exact hw d

def Step.target : Step C → Option C
  | .change c .. => some c
  | .replace c .. => some c
  | .deliver => none

def Step.written : Step C → Option Shared
  | .change _ _ _ (.mutated value _) => some value
  | .change _ _ _ (.returned value _) => some value
  | .replace _ _ value _ => some value
  | _ => none

def Step.Same (w : State C D X) : Step C → Prop
  | .change _ _ _ (.mutated _ ops) => ops = []
  | .change _ _ _ (.returned _ ops) => ops = []
  | .replace c _ value _ => (w.cells c).equalJson value = true
  | _ => False

theorem step_cases (s : Step C) (c : C) (hs : s.target = some c) :
    (∃ e, (r.step w s).2 = .error e ∧ Untouched w (r.step w s).1) ∨
    ((r.step w s).2 = .ok () ∧ s.Same w ∧ Untouched w (r.step w s).1 ∧ (r.step w s).1.calls = w.calls) ∨
    ∃ value, s.written = some value ∧ (r.step w s).2 = .ok () ∧ Updated r w (r.step w s).1 c value := by
  have hrefl : Untouched w w := ⟨rfl, rfl, rfl, rfl⟩
  cases s with
  | deliver => cases hs
  | change d guard base callback =>
    obtain rfl : d = c := some.inj hs
    simp only [Record.step, Record.change]
    cases guard with
    | error e => exact Or.inl ⟨e, rfl, hrefl⟩
    | ok =>
      cases callback with
      | threw message => exact Or.inl ⟨_, rfl, hrefl⟩
      | promise => exact Or.inl ⟨_, rfl, hrefl⟩
      | mutated value ops =>
        rcases publish_cases r w d base value ops [] with h | ⟨hok, hempty, h⟩ | ⟨hok, h⟩
        · exact Or.inl h
        · exact Or.inr (Or.inl ⟨hok, hempty, h⟩)
        · exact Or.inr (Or.inr ⟨value, rfl, hok, h⟩)
      | returned value ops =>
        dsimp only
        split
        · exact Or.inl ⟨_, rfl, hrefl⟩
        · rcases publish_cases r w d base value ops [] with h | ⟨hok, hempty, h⟩ | ⟨hok, h⟩
          · exact Or.inl h
          · exact Or.inr (Or.inl ⟨hok, hempty, h⟩)
          · exact Or.inr (Or.inr ⟨value, rfl, hok, h⟩)
  | replace d guard value diff =>
    obtain rfl : d = c := some.inj hs
    simp only [Record.step, Record.replace]
    cases guard with
    | error e => exact Or.inl ⟨e, rfl, hrefl⟩
    | ok =>
      dsimp only
      rcases publish_cases r w d (w.revisions d) value (replacementOps (w.cells d) value)
        (if diff.getD (sharesStructure (w.cells d) value) then r.diffRevisions (w.cells d) value else [])
        with h | ⟨hok, hempty, h⟩ | ⟨hok, h⟩
      · exact Or.inl h
      · refine Or.inr (Or.inl ⟨hok, ?_, h⟩)
        simpa [replacementOps, Step.Same] using hempty
      · exact Or.inr (Or.inr ⟨value, rfl, hok, h⟩)

theorem consistent_step (s : Step C) (hw : Consistent r w) : Consistent r (r.step w s).1 := by
  cases hs : s.target with
  | none =>
    cases s with
    | deliver => exact hw
    | change => cases hs
    | replace => cases hs
  | some c =>
    rcases step_cases r w s c hs with ⟨e, -, h⟩ | ⟨-, -, h, -⟩ | ⟨value, -, -, h⟩
    · exact h.consistent hw
    · exact h.consistent hw
    · exact h.consistent hw

/-- After any calls and deliveries, one more call fails, or changes nothing, or writes its cell and all that follows. -/
theorem write_atomic (r : Record C D X) (w₀ : State C D X) (h₀ : Consistent r w₀) (steps : List (Step C)) :
    let w := (r.machine w₀).run steps
    Consistent r w ∧ ∀ (s : Step C) (c : C), s.target = some c →
      (∃ e, (r.step w s).2 = .error e ∧ Untouched w (r.step w s).1) ∨
      ((r.step w s).2 = .ok () ∧ s.Same w ∧ Untouched w (r.step w s).1 ∧ (r.step w s).1.calls = w.calls) ∨
      ∃ value, s.written = some value ∧ (r.step w s).2 = .ok () ∧ Updated r w (r.step w s).1 c value :=
  ⟨(r.machine w₀).runFrom_induction (consistent_step r) w₀ h₀ steps, fun s c hs => step_cases r _ s c hs⟩

/-! A cell, a derivation that copies it, and one that copies the copy. -/

def sampleDerivation (key : String) (seq : ℕ) (source : Ref Unit Bool Empty) : Derivation Unit Bool Empty :=
  { key := key, seq := seq, sources := [source], fn := fun args => .value (args.headD none), schemas := [] }

def sampleRecord : Record Unit Bool Empty where
  dev := true
  diffRevisions _ after := [.r after.value]
  cells _ := { key := "count", schema := fun _ => none, schemas := [] }
  derives
    | false => sampleDerivation "copy" 1 (.cell ())
    | true => sampleDerivation "second" 2 (.derived false)
  order := [false, true]
  complete := by decide
  distinct := by decide
  ordered := by decide

def sampleState : State Unit Bool Empty where
  cells _ := .prim (.num 1)
  revisions _ := 0
  derives _ := some (.prim (.num 1))
  externals _ := none
  queue := []
  calls := []

theorem consistent_sample : Consistent sampleRecord sampleState := by
  intro d
  cases d <;> rfl

theorem write_atomic_sample :
    let w := (sampleRecord.machine sampleState).run [.replace () (.ok ()) (.prim (.num 2)) none]
    Consistent sampleRecord w ∧ ∀ (s : Step Unit) (c : Unit), s.target = some c →
      (∃ e, (sampleRecord.step w s).2 = .error e ∧ Untouched w (sampleRecord.step w s).1) ∨
      ((sampleRecord.step w s).2 = .ok () ∧ s.Same w ∧ Untouched w (sampleRecord.step w s).1 ∧
        (sampleRecord.step w s).1.calls = w.calls) ∨
      ∃ value, s.written = some value ∧ (sampleRecord.step w s).2 = .ok () ∧
        Updated sampleRecord w (sampleRecord.step w s).1 c value :=
  write_atomic sampleRecord sampleState consistent_sample [.replace () (.ok ()) (.prim (.num 2)) none]

/-- A `change` whose callback leaves the draft alone succeeds, and no derivation is called. -/
theorem unchanged_not_recomputed : ¬ ∀ s : Step Unit, s.target = some () →
      (∃ e, (sampleRecord.step sampleState s).2 = .error e ∧ Untouched sampleState (sampleRecord.step sampleState s).1) ∨
      ∃ value, s.written = some value ∧ (sampleRecord.step sampleState s).2 = .ok () ∧
        Updated sampleRecord sampleState (sampleRecord.step sampleState s).1 () value := by
  intro h
  rcases h (.change () (.ok ()) 0 (.mutated (.prim (.num 1)) [])) rfl with ⟨e, he, -⟩ | ⟨value, -, -, hupdated⟩
  · cases he
  · obtain ⟨calls, hcalls, -, hmem, -⟩ := hupdated.once
    have hnil : calls = [] := by simpa [Record.step, Record.change, Record.publish, sampleState] using hcalls.symm
    have := (hmem false).mpr (.direct false (by simp [sampleRecord, sampleDerivation]))
    simp [hnil] at this

end PiAgent.Cells
