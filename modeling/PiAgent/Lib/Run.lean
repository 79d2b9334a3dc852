import Mathlib.Data.List.Induction

/-!
# Runs of a machine that answers

A machine takes one input after the other. It moves to a new state and gives an
answer. What has happened is the list of inputs with their answers.
-/

namespace PiAgent

variable {σ ι ο : Type}

/-- A machine: its first state, and what it does with an input. -/
structure Machine (σ ι ο : Type) where
  start : σ
  step : σ → ι → σ × ο

namespace Machine

variable (m : Machine σ ι ο)

/-- The state after the inputs, from any state. -/
def runFrom (s : σ) : List ι → σ
  | [] => s
  | i :: is => runFrom (m.step s i).1 is

/-- The inputs with their answers, from any state. -/
def traceFrom (s : σ) : List ι → List (ι × ο)
  | [] => []
  | i :: is => (i, (m.step s i).2) :: traceFrom (m.step s i).1 is

def run (is : List ι) : σ := m.runFrom m.start is

def trace (is : List ι) : List (ι × ο) := m.traceFrom m.start is

variable (s : σ) (is js : List ι)

theorem runFrom_append : m.runFrom s (is ++ js) = m.runFrom (m.runFrom s is) js := by
  induction is generalizing s with
  | nil => rfl
  | cons i is ih => exact ih _

theorem run_append : m.run (is ++ js) = m.runFrom (m.run is) js := m.runFrom_append m.start is js

variable (is : List ι) (i : ι)

theorem run_snoc : m.run (is ++ [i]) = (m.step (m.run is) i).1 := by
  rw [run_append]
  rfl

theorem traceFrom_append (is js : List ι) :
    m.traceFrom s (is ++ js) = m.traceFrom s is ++ m.traceFrom (m.runFrom s is) js := by
  induction is generalizing s with
  | nil => rfl
  | cons i is ih =>
    simp only [List.cons_append, traceFrom, runFrom]
    rw [ih]

theorem trace_snoc : m.trace (is ++ [i]) = m.trace is ++ [(i, (m.step (m.run is) i).2)] :=
  m.traceFrom_append m.start is [i]

theorem invariant {P : List (ι × ο) → σ → Prop} (hstart : P [] m.start)
    (hstep : ∀ past s i, P past s → P (past ++ [(i, (m.step s i).2)]) (m.step s i).1) (is : List ι) :
    P (m.trace is) (m.run is) := by
  induction is using List.reverseRecOn with
  | nil => exact hstart
  | append_singleton is i ih =>
    rw [m.trace_snoc, m.run_snoc]
    exact hstep _ _ i ih

variable {P : σ → Prop}

theorem runFrom_induction (hstep : ∀ s i, P s → P (m.step s i).1) (s : σ) (h : P s) (is : List ι) :
    P (m.runFrom s is) := by
  induction is generalizing s with
  | nil => exact h
  | cons i is ih => exact ih _ (hstep s i h)

/-! ## What holds all along -/

/-- `P` holds in every state of the run. -/
def Always (P : σ → Prop) (s : σ) : List ι → Prop
  | [] => P s
  | i :: is => P s ∧ Always P (m.step s i).1 is

variable {m : Machine σ ι ο}

theorem Always.now {P : σ → Prop} {s : σ} {is : List ι} (h : m.Always P s is) : P s := by
  cases is with
  | nil => exact h
  | cons i is => exact h.1

theorem Always.last {P : σ → Prop} {s : σ} {is : List ι} (h : m.Always P s is) : P (m.runFrom s is) := by
  induction is generalizing s with
  | nil => exact h
  | cons i is ih => exact ih h.2

theorem always_snoc (P : σ → Prop) (s : σ) (is : List ι) (i : ι) :
    m.Always P s (is ++ [i]) ↔ m.Always P s is ∧ P (m.step (m.runFrom s is) i).1 := by
  induction is generalizing s with
  | nil => rfl
  | cons j is ih => simp only [List.cons_append, Always, runFrom, ih, and_assoc]

theorem Always.mono {P Q : σ → Prop} (hPQ : ∀ s, P s → Q s) {s : σ} {is : List ι}
    (h : m.Always P s is) : m.Always Q s is := by
  induction is generalizing s with
  | nil => exact hPQ s h
  | cons i is ih => exact ⟨hPQ s h.1, ih h.2⟩

/-- Every input is allowed in the state it comes in. -/
def Allowed (C : σ → ι → Prop) (s : σ) : List ι → Prop
  | [] => True
  | i :: is => C s i ∧ Allowed C (m.step s i).1 is

theorem always_of_allowed {C : σ → ι → Prop} {P : σ → Prop} (hstep : ∀ s i, P s → C s i → P (m.step s i).1)
    {s : σ} (h : P s) {is : List ι} (hC : m.Allowed C s is) : m.Always P s is := by
  induction is generalizing s with
  | nil => exact h
  | cons i is ih => exact ⟨h, ih (hstep s i h hC.1) hC.2⟩

theorem allowed_snoc (C : σ → ι → Prop) (s : σ) (is : List ι) (i : ι) :
    m.Allowed C s (is ++ [i]) ↔ m.Allowed C s is ∧ C (m.runFrom s is) i := by
  induction is generalizing s with
  | nil => simp [Allowed, runFrom]
  | cons j is ih => simp only [List.cons_append, Allowed, runFrom, ih, and_assoc]

theorem Allowed.at {C : σ → ι → Prop} {s : σ} {before after : List ι} {i : ι}
    (h : m.Allowed C s (before ++ i :: after)) : C (m.runFrom s before) i := by
  induction before generalizing s with
  | nil => exact h.1
  | cons j before ih => exact ih h.2

theorem Always.at {P : σ → Prop} {s : σ} {before after : List ι}
    (h : m.Always P s (before ++ after)) : P (m.runFrom s before) := by
  induction before generalizing s with
  | nil => exact h.now
  | cons j before ih => exact ih h.2

/-! ## Endless runs -/

/-- The state after the first `t` inputs of an endless schedule. -/
def along (s : σ) (inputs : ℕ → ι) : ℕ → σ
  | 0 => s
  | t + 1 => (m.step (along s inputs t) (inputs t)).1

theorem along_induction (hstep : ∀ s i, P s → P (m.step s i).1) (s : σ) (h : P s) (inputs : ℕ → ι)
    (t : ℕ) : P (m.along s inputs t) := by
  induction t with
  | zero => exact h
  | succ t ih => exact hstep _ _ ih

theorem along_mono {R : σ → σ → Prop} (hrefl : ∀ s, R s s) (htrans : ∀ a b c, R a b → R b c → R a c)
    (s : σ) (inputs : ℕ → ι) (hstep : ∀ t, R (m.along s inputs t) (m.along s inputs (t + 1))) (t u : ℕ) (h : t ≤ u) :
    R (m.along s inputs t) (m.along s inputs u) := by
  induction h with
  | refl => exact hrefl _
  | @step u _ ih => exact htrans _ _ _ ih (hstep u)

theorem along_until {Q : ι → Prop} (hstep : ∀ s i, P s → ¬ Q i → P (m.step s i).1) (s : σ)
    (inputs : ℕ → ι) (t u : ℕ) (htu : t ≤ u) (h : P (m.along s inputs t)) (hQ : Q (inputs u)) :
    ∃ v ≥ t, P (m.along s inputs v) ∧ Q (inputs v) := by
  induction hd : u - t generalizing t with
  | zero =>
    have heq : t = u := by omega
    subst heq
    exact ⟨t, Nat.le_refl _, h, hQ⟩
  | succ d ih =>
    by_cases hnow : Q (inputs t)
    · exact ⟨t, Nat.le_refl _, h, hnow⟩
    · obtain ⟨v, hv, hPv, hQv⟩ := ih (t + 1) (by omega) (hstep _ _ h hnow) (by omega)
      exact ⟨v, by omega, hPv, hQv⟩

end Machine

end PiAgent
