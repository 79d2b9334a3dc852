import Mathlib.Data.List.Forall2

/-!
# Texts that can be read back

A writer is unambiguous when what it wrote, in front of a stop symbol or of the
end, can be taken apart in one way only.
-/

namespace PiAgent

variable {α γ : Type}

/-- The rest of a text is empty or begins with a stop symbol. -/
def Stops (stop : γ → Prop) (rest : List γ) : Prop := ∀ c ∈ rest.head?, stop c

def Unambiguous (write : α → List γ) (stop : γ → Prop) : Prop :=
  ∀ a b r s, Stops stop r → Stops stop s → write a ++ r = write b ++ s → a = b ∧ r = s

theorem stops_nil (stop : γ → Prop) : Stops stop [] := by simp [Stops]

theorem stops_cons (stop : γ → Prop) (c : γ) (r : List γ) : Stops stop (c :: r) ↔ stop c := by simp [Stops]

namespace Unambiguous

variable {write : α → List γ} {stop : γ → Prop}

theorem injective (h : Unambiguous write stop) : Function.Injective write := by
  intro a b hab
  exact (h a b [] [] (stops_nil stop) (stops_nil stop) (by simp [hab])).1

theorem mono {stop' : γ → Prop} (h : Unambiguous write stop) (hs : ∀ c, stop' c → stop c) :
    Unambiguous write stop' :=
  fun a b r s hr hs' heq => h a b r s (fun c hc => hs c (hr c hc)) (fun c hc => hs c (hs' c hc)) heq

theorem of_read (read : List γ → Option (α × List γ)) (h : ∀ a r, read (write a ++ r) = some (a, r)) :
    Unambiguous write (fun _ => True) := by
  intro a b r s _ _ heq
  have := h a r
  rw [heq, h b s] at this
  simpa [eq_comm] using this

theorem of_no_stop (hinj : Function.Injective write) (h : ∀ a, ∀ c ∈ write a, ¬ stop c) :
    Unambiguous write stop := by
  have key : ∀ x y r s : List γ, (∀ c ∈ x, ¬ stop c) → (∀ c ∈ y, ¬ stop c) → Stops stop r → Stops stop s →
      x ++ r = y ++ s → x = y ∧ r = s := by
    intro x
    induction x with
    | nil =>
      intro y r s _ hy hr _ heq
      cases y with
      | nil => exact ⟨rfl, heq⟩
      | cons c y =>
        obtain rfl : r = c :: (y ++ s) := heq
        exact absurd ((stops_cons stop c _).mp hr) (hy c (by simp))
    | cons c x ih =>
      intro y r s hx hy hr hs heq
      cases y with
      | nil =>
        obtain rfl : s = c :: (x ++ r) := heq.symm
        exact absurd ((stops_cons stop c _).mp hs) (hx c (by simp))
      | cons d y =>
        simp only [List.cons_append, List.cons.injEq] at heq
        obtain ⟨rfl, heq⟩ := heq
        obtain ⟨rfl, rfl⟩ := ih y r s (fun e he => hx e (by simp [he])) (fun e he => hy e (by simp [he])) hr hs heq
        exact ⟨rfl, rfl⟩
  intro a b r s hr hs heq
  obtain ⟨hw, hrs⟩ := key _ _ r s (h a) (h b) hr hs heq
  exact ⟨hinj hw, hrs⟩

end Unambiguous

/-! ## Lists with a separator and an end -/

section Separated

variable (sep close : γ)

/-- What follows the first part: each part after a separator, and then the end. -/
def separatedTail : List (List γ) → List γ
  | [] => [close]
  | x :: xs => sep :: (x ++ separatedTail xs)

/-- The parts with `sep` between them, and `close` at the end. -/
def separated : List (List γ) → List γ
  | [] => [close]
  | x :: xs => x ++ separatedTail sep close xs

variable {sep close} {write : α → List γ} {stop : γ → Prop}

theorem stops_separatedTail (hsep : stop sep) (hclose : stop close) (xs : List (List γ)) (r : List γ) :
    Stops stop (separatedTail sep close xs ++ r) := by
  cases xs with
  | nil => exact (stops_cons stop close _).mpr hclose
  | cons x xs => exact (stops_cons stop sep _).mpr hsep

/-- Two texts that begin two inputs, which go on at a stop: what they say is related, and the rests are equal. -/
def ReadsAt (stop : γ → Prop) (write : α → List γ) (R : α → α → Prop) (a : α) : Prop :=
  ∀ b r s, Stops stop r → Stops stop s → write a ++ r = write b ++ s → R a b ∧ r = s

section

variable (write : α → List γ) (R : α → α → Prop) (hsep : stop sep) (hclose : stop close) (hne : sep ≠ close)
include hsep hclose hne

theorem separatedTail_at (xs : List α) (h : ∀ x ∈ xs, ReadsAt stop write R x) (ys : List α) (r s : List γ)
    (heq : separatedTail sep close (xs.map write) ++ r = separatedTail sep close (ys.map write) ++ s) :
    List.Forall₂ R xs ys ∧ r = s := by
  induction xs generalizing ys with
  | nil =>
    cases ys with
    | nil => exact ⟨.nil, (List.cons.inj heq).2⟩
    | cons y ys => exact absurd (List.cons.inj heq).1.symm hne
  | cons x xs ih =>
    cases ys with
    | nil => exact absurd (List.cons.inj heq).1 hne
    | cons y ys =>
      have heq := (List.cons.inj heq).2
      simp only [List.append_eq, List.append_assoc] at heq
      obtain ⟨hxy, hrest⟩ := h x (by simp) y _ _ (stops_separatedTail hsep hclose _ r)
        (stops_separatedTail hsep hclose _ s) heq
      obtain ⟨hxs, hrs⟩ := ih (fun z hz => h z (by simp [hz])) ys hrest
      exact ⟨.cons hxy hxs, hrs⟩

theorem separated_at (hstart : ∀ a, ∃ c r, write a = c :: r ∧ c ≠ close) (xs : List α)
    (h : ∀ x ∈ xs, ReadsAt stop write R x) (ys : List α) (r s : List γ)
    (heq : separated sep close (xs.map write) ++ r = separated sep close (ys.map write) ++ s) :
    List.Forall₂ R xs ys ∧ r = s := by
  -- The first symbol tells the empty list from every other one.
  have hfirst : ∀ a (t r s : List γ), write a ++ t ++ r ≠ close :: s := by
    intro a t r s heq
    obtain ⟨c, u, hc, hcc⟩ := hstart a
    rw [hc] at heq
    exact hcc (List.cons.inj heq).1
  cases xs with
  | nil =>
    cases ys with
    | nil => exact ⟨.nil, (List.cons.inj heq).2⟩
    | cons y ys => exact absurd heq.symm (hfirst y _ s _)
  | cons x xs =>
    cases ys with
    | nil => exact absurd heq (hfirst x _ r _)
    | cons y ys =>
      simp only [List.map_cons, separated, List.append_assoc] at heq
      obtain ⟨hxy, hrest⟩ := h x (by simp) y _ _ (stops_separatedTail hsep hclose _ r)
        (stops_separatedTail hsep hclose _ s) heq
      obtain ⟨hxs, hrs⟩ := separatedTail_at write R hsep hclose hne xs (fun z hz => h z (by simp [hz])) ys r s hrest
      exact ⟨.cons hxy hxs, hrs⟩

end

theorem Unambiguous.separated (sep close : γ) (h : Unambiguous write stop) (hsep : stop sep) (hclose : stop close)
    (hne : sep ≠ close) (hstart : ∀ a, ∃ c r, write a = c :: r ∧ c ≠ close) :
    Unambiguous (fun l : List α => PiAgent.separated sep close (l.map write)) (fun _ => True) := by
  intro l m r s _ _ heq
  obtain ⟨hlm, hrs⟩ := separated_at write Eq hsep hclose hne hstart l (fun x _ => h x) m r s heq
  exact ⟨by rwa [List.forall₂_eq_eq_eq] at hlm, hrs⟩

end Separated

end PiAgent
