import Mathlib.Logic.Basic

/-!
# Programs that may throw, and rules for them

A program changes a state, and returns, throws, or is left waiting. A triple says what
holds after each of these.
-/

namespace PiAgent.Script

variable {σ α β : Type}

inductive Exit (α : Type) where
  | returned (value : α)
  | threw
  | waiting

def Prog (σ α : Type) : Type := σ → Exit α × σ

namespace Prog

def ret (a : α) : Prog σ α := fun s => (.returned a, s)

def andThen (x : Prog σ α) (f : α → Prog σ β) : Prog σ β := fun s =>
  match x s with
  | (.returned a, s') => f a s'
  | (.threw, s') => (.threw, s')
  | (.waiting, s') => (.waiting, s')

instance : Monad (Prog σ) where
  pure := ret
  bind := andThen

def get : Prog σ σ := fun s => (.returned s, s)

def modify (f : σ → σ) : Prog σ Unit := fun s => (.returned (), f s)

def throwing : Prog σ α := fun s => (.threw, s)

def waiting : Prog σ α := fun s => (.waiting, s)

/-- `try { x } catch { handler }` -/
def catching (x handler : Prog σ α) : Prog σ α := fun s =>
  match x s with
  | (.threw, s') => handler s'
  | result => result

/-- `try { x } finally { f }`, where `x` ends. -/
def finishing (x : Prog σ α) (f : σ → σ) : Prog σ α := fun s =>
  match x s with
  | (.returned a, s') => (.returned a, f s')
  | (.threw, s') => (.threw, f s')
  | (.waiting, s') => (.waiting, s')

end Prog

open Prog

/-- What holds of the end of a program: `Q` where it returned, `E` where it threw, `W` where it is left waiting. -/
def Ends (Q : α → σ → Prop) (E W : σ → Prop) : Exit α × σ → Prop
  | (.returned a, s) => Q a s
  | (.threw, s) => E s
  | (.waiting, s) => W s

/-- From where `P` holds, a program ends with `Q`, `E` or `W`. -/
def Triple (P : σ → Prop) (x : Prog σ α) (Q : α → σ → Prop) (E W : σ → Prop) : Prop := ∀ s, P s → Ends Q E W (x s)

section Rules

variable {P P' : σ → Prop} {Q Q' : α → σ → Prop} {R : β → σ → Prop} {E E' W W' : σ → Prop}

theorem Triple.ret {a : α} (h : ∀ s, P s → Q a s) : Triple P (pure a : Prog σ α) Q E W := fun s hs => h s hs

theorem Triple.get {Q : σ → σ → Prop} (h : ∀ s, P s → Q s s) : Triple P (Prog.get : Prog σ σ) Q E W := fun s hs => h s hs

theorem Triple.modify {Q : Unit → σ → Prop} (f : σ → σ) (h : ∀ s, P s → Q () (f s)) :
    Triple P (Prog.modify f) Q E W := fun s hs => h s hs

theorem Triple.throwing (h : ∀ s, P s → E s) : Triple P (Prog.throwing : Prog σ α) Q E W := fun s hs => h s hs

theorem Triple.waiting (h : ∀ s, P s → W s) : Triple P (Prog.waiting : Prog σ α) Q E W := fun s hs => h s hs

variable {x : Prog σ α}

theorem Triple.bind {f : α → Prog σ β} (hx : Triple P x Q E W) (hf : ∀ a, Triple (Q a) (f a) R E W) :
    Triple P (x >>= f) R E W := by
  intro s hs
  have hend := hx s hs
  show Ends R E W (andThen x f s)
  unfold andThen
  generalize x s = result at hend ⊢
  rcases result with ⟨_ | _ | _, s'⟩
  · exact hf _ s' hend
  · exact hend
  · exact hend

theorem Triple.mono (h : Triple P' x Q' E' W') (hp : ∀ s, P s → P' s) (hq : ∀ a s, Q' a s → Q a s)
    (he : ∀ s, E' s → E s) (hw : ∀ s, W' s → W s) : Triple P x Q E W := by
  intro s hs
  have hend := h s (hp s hs)
  generalize x s = result at hend ⊢
  rcases result with ⟨_ | _ | _, s'⟩
  · exact hq _ s' hend
  · exact he s' hend
  · exact hw s' hend

theorem Triple.pre (h : Triple P' x Q E W) (hp : ∀ s, P s → P' s) : Triple P x Q E W :=
  h.mono hp (fun _ _ h => h) (fun _ h => h) (fun _ h => h)

theorem Triple.post (h : Triple P x Q' E W) (hq : ∀ a s, Q' a s → Q a s) : Triple P x Q E W :=
  h.mono (fun _ h => h) hq (fun _ h => h) (fun _ h => h)

theorem Triple.catching {x handler : Prog σ α} (hx : Triple P x Q E' W) (hh : Triple E' handler Q E W) :
    Triple P (Prog.catching x handler) Q E W := by
  intro s hs
  have hend := hx s hs
  unfold Prog.catching
  generalize x s = result at hend ⊢
  rcases result with ⟨_ | _ | _, s'⟩
  · exact hend
  · exact hh s' hend
  · exact hend

theorem Triple.finishing {f : σ → σ} (hx : Triple P x (fun a s => Q a (f s)) (fun s => E (f s)) W) :
    Triple P (Prog.finishing x f) Q E W := by
  intro s hs
  have hend := hx s hs
  unfold Prog.finishing
  generalize x s = result at hend ⊢
  rcases result with ⟨_ | _ | _, s'⟩
  · exact hend
  · exact hend
  · exact hend

/-- An invariant that no end of a program breaks. -/
def Keeps (I : σ → Prop) (x : Prog σ α) : Prop := Triple I x (fun _ => I) I I

theorem Keeps.of_result {I : σ → Prop} {x : Prog σ α} (h : ∀ s, I s → I (x s).2) : Keeps I x := by
  intro s hs
  have hend := h s hs
  generalize x s = result at hend ⊢
  rcases result with ⟨_ | _ | _, s'⟩ <;> exact hend

theorem Keeps.result {I : σ → Prop} {x : Prog σ α} (h : Keeps I x) (s : σ) (hs : I s) : I (x s).2 := by
  have hend := h s hs
  generalize x s = result at hend ⊢
  rcases result with ⟨_ | _ | _, s'⟩ <;> exact hend

end Rules

end PiAgent.Script
