import PiAgent.Ai.MessageFrame

/-! # Frames replay the stream -/

namespace PiAgent.Ai

open Function List

/-! ## Streams -/

structure Progress where
  message : AssistantMessage
  isOpen : ℕ → Bool
  finished : Bool

/-- What one event does to the partial message. Blocks start in order, and the text of a block is made of its
deltas; signatures, and the arguments of an open tool call, may change with any event of the block. -/
inductive Emits (P : JsonTexts) : Progress → Event → Progress → Prop
  | textStart (m m' : AssistantMessage) (opened : ℕ → Bool) (content : Prose) (ht : content.text = [])
      (hr : content.kind = .text → content.redacted = none) (h : m'.content = m.content ++ [.prose content]) :
      Emits P ⟨m, opened, false⟩ (.textStart content.kind m.content.length)
        ⟨m', update opened m.content.length true, false⟩
  | textDelta (m m' : AssistantMessage) (opened : ℕ → Bool) (k : ℕ) (delta : JsString) (old new : Prose)
      (ho : opened k = true) (hold : m.content[k]? = some (.prose old)) (hk : new.kind = old.kind)
      (ht : new.text = old.text ++ delta) (hr : new.kind = .text → new.redacted = none)
      (h : m'.content = m.content.set k (.prose new)) :
      Emits P ⟨m, opened, false⟩ (.textDelta old.kind k delta) ⟨m', opened, false⟩
  | textEnd (m m' : AssistantMessage) (opened : ℕ → Bool) (k : ℕ) (old new : Prose) (ho : opened k = true)
      (hold : m.content[k]? = some (.prose old)) (hk : new.kind = old.kind) (ht : new.text = old.text)
      (hr : new.kind = .text → new.redacted = none) (h : m'.content = m.content.set k (.prose new)) :
      Emits P ⟨m, opened, false⟩ (.textEnd old.kind k old.text) ⟨m', update opened k false, false⟩
  | toolcallStart (m m' : AssistantMessage) (opened : ℕ → Bool) (call : ToolCall) (hj : P.IsJson call.arguments)
      (h : m'.content = m.content ++ [.toolCall call]) :
      Emits P ⟨m, opened, false⟩ (.toolcallStart m.content.length)
        ⟨m', update opened m.content.length true, false⟩
  | toolcallDelta (m m' : AssistantMessage) (opened : ℕ → Bool) (k : ℕ) (delta : JsString) (old new : ToolCall)
      (ho : opened k = true) (hold : m.content[k]? = some (.toolCall old)) (hj : P.IsJson new.arguments)
      (h : m'.content = m.content.set k (.toolCall new)) :
      Emits P ⟨m, opened, false⟩ (.toolcallDelta k delta) ⟨m', opened, false⟩
  | toolcallEnd (m m' : AssistantMessage) (opened : ℕ → Bool) (k : ℕ) (old new : ToolCall) (ho : opened k = true)
      (hold : m.content[k]? = some (.toolCall old)) (hj : P.IsJson new.arguments)
      (h : m'.content = m.content.set k (.toolCall new)) :
      Emits P ⟨m, opened, false⟩ (.toolcallEnd k new) ⟨m', update opened k false, false⟩
  | done (m : AssistantMessage) (opened : ℕ → Bool) : Emits P ⟨m, opened, false⟩ .done ⟨m, opened, true⟩
  | error (m : AssistantMessage) (opened : ℕ → Bool) : Emits P ⟨m, opened, false⟩ .error ⟨m, opened, true⟩

inductive Runs (P : JsonTexts) : Progress → List (Event × AssistantMessage) → Progress → Prop
  | nil (p : Progress) : Runs P p [] p
  | cons {p p' p'' : Progress} {event : Event} {rest : List (Event × AssistantMessage)} (he : Emits P p event p')
      (h : Runs P p' rest p'') : Runs P p ((event, p'.message) :: rest) p''

def Stream (P : JsonTexts) (s : List (Event × AssistantMessage)) (p : Progress) : Prop :=
  ∃ m rest, m.content = [] ∧ s = (.start, m) :: rest ∧ Runs P ⟨m, fun _ => false, false⟩ rest p

/-- The first events of a stream, in order, each read with the partial message of that event or a later one. -/
def Consumes (s consumed : List (Event × AssistantMessage)) : Prop :=
  consumed.length ≤ s.length ∧ ∀ (i : ℕ) (event : Event) (live : AssistantMessage), consumed[i]? = some (event, live) →
    (∃ m, s[i]? = some (event, m)) ∧ ∃ (j : ℕ) (later : Event), i ≤ j ∧ s[j]? = some (later, live)

variable {P : JsonTexts}

theorem Runs.append {p p' p'' : Progress} {a b : List (Event × AssistantMessage)} (h : Runs P p a p')
    (h' : Runs P p' b p'') : Runs P p (a ++ b) p'' := by
  induction h with
  | nil => exact h'
  | cons he _ ih => exact .cons he (ih h')

theorem Runs.split {p p'' : Progress} (a : List (Event × AssistantMessage))
    {b : List (Event × AssistantMessage)} (h : Runs P p (a ++ b) p'') : ∃ p', Runs P p a p' ∧ Runs P p' b p'' := by
  induction a generalizing p with
  | nil => exact ⟨p, .nil p, h⟩
  | cons x a ih =>
    cases h with
    | cons he h =>
      obtain ⟨p', ha, hb⟩ := ih h
      exact ⟨p', .cons he ha, hb⟩

/-! ## What later events leave alone -/

structure Grows (p q : Progress) : Prop where
  prose : ∀ (k : ℕ) (content : Prose), p.message.content[k]? = some (.prose content) →
    ∃ content', q.message.content[k]? = some (.prose content') ∧ content'.kind = content.kind ∧ content.text <+: content'.text
  tool : ∀ (k : ℕ) (call : ToolCall), p.message.content[k]? = some (.toolCall call) →
    ∃ call', q.message.content[k]? = some (.toolCall call')
  closed : ∀ k, k < p.message.content.length → p.isOpen k = false →
    q.isOpen k = false ∧ q.message.content[k]? = p.message.content[k]?

theorem Grows.refl (p : Progress) : Grows p p :=
  ⟨fun _ content h => ⟨content, h, rfl, prefix_rfl⟩, fun _ call h => ⟨call, h⟩, fun _ _ h => ⟨h, rfl⟩⟩

variable {p q : Progress}

theorem Grows.lt (h : Grows p q) {k : ℕ} (hk : k < p.message.content.length) : k < q.message.content.length := by
  cases hb : p.message.content[k]? with
  | none =>
    have := List.getElem?_eq_none_iff.mp hb
    omega
  | some b =>
    cases b with
    | prose content =>
      obtain ⟨content', hc, -⟩ := h.prose k content hb
      exact (List.getElem?_eq_some_iff.mp hc).1
    | toolCall call =>
      obtain ⟨call', hc⟩ := h.tool k call hb
      exact (List.getElem?_eq_some_iff.mp hc).1

theorem Grows.trans {p q r : Progress} (h : Grows p q) (h' : Grows q r) : Grows p r := by
  refine ⟨?_, ?_, ?_⟩
  · intro k content hc
    obtain ⟨content', hc', hk', hp'⟩ := h.prose k content hc
    obtain ⟨content'', hc'', hk'', hp''⟩ := h'.prose k content' hc'
    exact ⟨content'', hc'', hk''.trans hk', hp'.trans hp''⟩
  · intro k call hc
    obtain ⟨call', hc'⟩ := h.tool k call hc
    exact h'.tool k call' hc'
  · intro k hk ho
    obtain ⟨ho', hc'⟩ := h.closed k hk ho
    obtain ⟨ho'', hc''⟩ := h'.closed k (h.lt hk) ho'
    exact ⟨ho'', hc''.trans hc'⟩

section

variable {m m' : AssistantMessage} {opened opened' : ℕ → Bool} {f f' : Bool}

theorem grows_of_append {b : Block} (h : m'.content = m.content ++ [b])
    (ho : ∀ k, k < m.content.length → opened' k = opened k) : Grows ⟨m, opened, f⟩ ⟨m', opened', f'⟩ := by
  have hget : ∀ k, k < m.content.length → m'.content[k]? = m.content[k]? := by
    intro k hk
    rw [h, getElem?_append_left hk]
  refine ⟨?_, ?_, ?_⟩
  · intro k content hc
    exact ⟨content, (hget k (List.getElem?_eq_some_iff.mp hc).1).trans hc, rfl, prefix_rfl⟩
  · intro k call hc
    exact ⟨call, (hget k (List.getElem?_eq_some_iff.mp hc).1).trans hc⟩
  · intro k hk hopen
    exact ⟨(ho k hk).trans hopen, hget k hk⟩

theorem grows_of_set {k : ℕ} {old new : Block} (hold : m.content[k]? = some old)
    (h : m'.content = m.content.set k new) (hopen : opened k = true) (ho : ∀ j, j ≠ k → opened' j = opened j)
    (hnew : (∃ c c', old = .prose c ∧ new = .prose c' ∧ c'.kind = c.kind ∧ c.text <+: c'.text) ∨
      ∃ c c', old = .toolCall c ∧ new = .toolCall c') : Grows ⟨m, opened, f⟩ ⟨m', opened', f'⟩ := by
  have hlt : k < m.content.length := (List.getElem?_eq_some_iff.mp hold).1
  have hself : m'.content[k]? = some new := by rw [h, getElem?_set_self hlt]
  have hother : ∀ j, j ≠ k → m'.content[j]? = m.content[j]? := by
    intro j hj
    rw [h, getElem?_set_ne (Ne.symm hj)]
  refine ⟨?_, ?_, ?_⟩
  · intro j content hc
    by_cases hj : j = k
    · subst hj
      have hc' : some old = some (.prose content) := hold.symm.trans hc
      obtain rfl := Option.some.inj hc'
      rcases hnew with ⟨c, c', hold', rfl, hkind, hpre⟩ | ⟨c, c', hold', -⟩
      · cases hold'
        exact ⟨c', hself, hkind, hpre⟩
      · cases hold'
    · exact ⟨content, (hother j hj).trans hc, rfl, prefix_rfl⟩
  · intro j call hc
    by_cases hj : j = k
    · subst hj
      have hc' : some old = some (.toolCall call) := hold.symm.trans hc
      obtain rfl := Option.some.inj hc'
      rcases hnew with ⟨c, c', hold', -⟩ | ⟨c, c', hold', rfl⟩
      · cases hold'
      · exact ⟨c', hself⟩
    · exact ⟨call, (hother j hj).trans hc⟩
  · intro j _ hclosed
    have hj : j ≠ k := by
      rintro rfl
      have hclosed' : opened j = false := hclosed
      simp [hopen] at hclosed'
    exact ⟨(ho j hj).trans hclosed, hother j hj⟩

end

theorem Emits.grows {event : Event} (h : Emits P p event q) : Grows p q := by
  cases h with
  | textStart m m' opened content ht hr h =>
    exact grows_of_append h (fun k hk => update_of_ne (Nat.ne_of_lt hk) _ _)
  | textDelta m m' opened k delta old new ho hold hk ht hr h =>
    exact grows_of_set hold h ho (fun _ _ => rfl)
      (Or.inl ⟨old, new, rfl, rfl, hk, by rw [ht]; exact prefix_append _ _⟩)
  | textEnd m m' opened k old new ho hold hk ht hr h =>
    exact grows_of_set hold h ho (fun j hj => update_of_ne hj _ _)
      (Or.inl ⟨old, new, rfl, rfl, hk, ht ▸ prefix_rfl⟩)
  | toolcallStart m m' opened call hj h =>
    exact grows_of_append h (fun k hk => update_of_ne (Nat.ne_of_lt hk) _ _)
  | toolcallDelta m m' opened k delta old new ho hold hj h =>
    exact grows_of_set hold h ho (fun _ _ => rfl) (Or.inr ⟨old, new, rfl, rfl⟩)
  | toolcallEnd m m' opened k old new ho hold hj h =>
    exact grows_of_set hold h ho (fun j hj => update_of_ne hj _ _) (Or.inr ⟨old, new, rfl, rfl⟩)
  | done => exact ⟨(Grows.refl _).prose, (Grows.refl _).tool, (Grows.refl _).closed⟩
  | error => exact ⟨(Grows.refl _).prose, (Grows.refl _).tool, (Grows.refl _).closed⟩

theorem Runs.grows {s : List (Event × AssistantMessage)} (h : Runs P p s q) : Grows p q := by
  induction h with
  | nil p => exact Grows.refl p
  | cons he _ ih => exact he.grows.trans ih

end PiAgent.Ai
