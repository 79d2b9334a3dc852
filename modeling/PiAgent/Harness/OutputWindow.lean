import PiAgent.Env.WindowProofs
import PiAgent.Harness.OutputProofs

/-!
# Windowed output

A tool call hands what the daemon delivers to its buffer. The daemon leaves text out, and the
buffer still shows the tail of everything the command wrote.
-/

namespace PiAgent.Harness.Output

open List Env Utf8

open Env.Window (Pending Op Event Skipped pushed Holds joined)

/-- What crosses the connection with an event. -/
def shellSkip (skipped : Skipped) : ShellOutputSkip := ⟨skipped.bytes, skipped.newlines, skipped.ends_with_newline⟩

/-- The events of a command as its tool call reports them. -/
def deliver (b : OutputBuffer) (events : List Event) : OutputBuffer :=
  events.foldl (fun b event => (b.push (.text (textOf event.text)) (event.skipped.map shellSkip)).1) b

def pushAll (b : OutputBuffer) (texts : List (List Char)) : OutputBuffer :=
  texts.foldl (fun b text => (b.push (.text (textOf text)) none).1) b

/-- The bytes an event delivers or counts as skipped. -/
def eventBytes (event : Event) : ℕ := (encode event.text).length + (event.skipped.map Skipped.bytes).getD 0

def eventNewlines (event : Event) : ℕ := Window.newline_count event.text + (event.skipped.map Skipped.newlines).getD 0

/-- The window of the daemon is the window of the buffer. -/
def windowOf (limits : OutputLimits) : Window := ⟨limits.maxBytes, limits.maxLines⟩

variable {b : OutputBuffer} {text : List Char}

theorem Retains.pushAll (h : Retains b text) (texts : List (List Char)) :
    Retains (Output.pushAll b texts) (text ++ texts.flatten) ∧ (Output.pushAll b texts).limits = b.limits := by
  unfold Output.pushAll
  induction texts generalizing b text with
  | nil => exact ⟨by simpa using h, rfl⟩
  | cons more texts ih =>
    obtain ⟨hrun, hlimits⟩ := ih (h.push more)
    rw [foldl_cons, flatten_cons, ← append_assoc]
    exact ⟨hrun, hlimits.trans (push_limits _ _ _)⟩

theorem skipOf_addSkipped (omitted : List Char) (h : omitted ≠ []) :
    (Window.addSkipped none omitted).map shellSkip = some (skipOf omitted) := by
  have hends : Window.ends_with_newline omitted = Durable.endsWithNewline (textOf omitted) := by
    unfold Window.ends_with_newline Durable.endsWithNewline
    rw [decide_eq_decide]
    exact (getLast_newline omitted).1.symm
  rw [Window.addSkipped_none omitted h, Option.map_some]
  unfold shellSkip skipOf
  rw [hends]

theorem Retains.take (h : Retains b text) {p : Pending} {omitted : List Char}
    (hp : Holds p omitted) (hwindow : p.window = windowOf b.limits) :
    Retains (deliver b p.take.2) (text ++ omitted ++ joined p.segments) ∧ (deliver b p.take.2).limits = b.limits ∧
      (p.take.2.map eventBytes).sum = size (omitted ++ joined p.segments) ∧
      (p.take.2.map eventNewlines).sum = newlines (omitted ++ joined p.segments) := by
  rcases Decidable.em (omitted = []) with rfl | hne
  · have hskipped : p.skipped = none := hp.skipped
    have hevents : p.take.2 = p.segments.map (fun segment => ⟨segment.1, segment.2, none⟩) := by
      unfold Window.Pending.take
      rw [hskipped]
    have hdeliver : deliver b p.take.2 = Output.pushAll b (p.segments.map Prod.snd) := by
      unfold deliver Output.pushAll
      rw [hevents, foldl_map, foldl_map]
      rfl
    obtain ⟨hrun, hlimits⟩ := h.pushAll (p.segments.map Prod.snd)
    rw [hdeliver, append_nil, nil_append, hevents, map_map, map_map]
    refine ⟨?_, hlimits, ?_, ?_⟩
    · rwa [← flatMap_def] at hrun
    · induction p.segments with
      | nil => rfl
      | cons segment segments ih =>
        rw [map_cons, sum_cons, ih, Window.joined_cons, size_append, ← length_encode segment.2]
        rfl
    · induction p.segments with
      | nil => rfl
      | cons segment segments ih =>
        rw [map_cons, sum_cons, ih, Window.joined_cons, newlines_append, ← count_encode_newline segment.2]
        rfl
  · have hskipped := hp.skipped
    have hevents : p.take.2 = [⟨(p.segments.getLast?.map Prod.fst).getD .stdout, joined p.segments,
        Window.addSkipped none omitted⟩] := by
      unfold Window.Pending.take
      rw [hskipped, Window.addSkipped_none omitted hne]
      rfl
    have hmargin : Margin b.limits (joined p.segments) := by
      have hproves := hp.proves.resolve_left hne
      rwa [hwindow] at hproves
    rw [hevents]
    unfold deliver
    rw [foldl_cons, foldl_nil]
    dsimp only
    rw [skipOf_addSkipped omitted hne]
    refine ⟨h.pushSkipped omitted _ hne hmargin, push_limits _ _ _, ?_, ?_⟩
    · rw [map_singleton, sum_singleton]
      unfold eventBytes
      rw [Window.addSkipped_none omitted hne, size_append, length_encode, Nat.add_comm]
      rfl
    · rw [map_singleton, sum_singleton]
      unfold eventNewlines
      rw [Window.addSkipped_none omitted hne, newlines_append, Window.newline_count_eq, Nat.add_comm]
      rfl

theorem deliver_append (b : OutputBuffer) (a events : List Event) : deliver b (a ++ events) = deliver (deliver b a) events :=
  foldl_append

theorem Retains.run (h : Retains b text) {p : Pending} {omitted : List Char}
    (hp : Holds p omitted) (hwindow : p.window = windowOf b.limits) (ops : List Op) :
    ∃ text' omitted', Retains (deliver b (p.run ops).2) text' ∧ (deliver b (p.run ops).2).limits = b.limits ∧
      Holds (p.run ops).1 omitted' ∧ (p.run ops).1.window = p.window ∧
      text' ++ omitted' ++ joined (p.run ops).1.segments = text ++ omitted ++ joined p.segments ++ (pushed ops).flatten ∧
      size text' = size text + ((p.run ops).2.map eventBytes).sum ∧
      newlines text' = newlines text + ((p.run ops).2.map eventNewlines).sum := by
  induction ops generalizing b text p omitted with
  | nil => exact ⟨text, omitted, h, rfl, hp, rfl, by simp [Window.Pending.run, pushed], rfl, rfl⟩
  | cons op ops ih =>
    cases op with
    | push stream more =>
      rw [Window.run_push]
      obtain ⟨omitted₁, hp₁, hwindow₁, hheld⟩ := hp.push stream more
      obtain ⟨text', omitted', hrun, hlimits, hp', hwindow', heq, hbytes, hnewlines⟩ := ih h hp₁ (hwindow₁.trans hwindow)
      refine ⟨text', omitted', hrun, hlimits, hp', hwindow'.trans hwindow₁, ?_, hbytes, hnewlines⟩
      refine heq.trans ?_
      rw [append_assoc text, hheld]
      rw [show pushed (.push stream more :: ops) = more :: pushed ops from rfl, flatten_cons]
      simp only [append_assoc]
    | take =>
      obtain ⟨htaken, hlimits₁, hsum, hsum'⟩ := h.take hp hwindow
      have hempty : Holds p.take.1 [] := ⟨rfl, rfl, rfl, .inl rfl⟩
      obtain ⟨text', omitted', hrun, hlimits, hp', hwindow', heq, hbytes, hnewlines⟩ :=
        ih htaken hempty (hwindow.trans (congrArg windowOf hlimits₁.symm))
      rw [Window.run_take]
      dsimp only
      rw [deliver_append]
      refine ⟨text', omitted', hrun, hlimits.trans hlimits₁, hp', hwindow', ?_, ?_, ?_⟩
      · refine heq.trans ?_
        show _ ++ [] ++ [] ++ (pushed ops).flatten = _
        rw [append_nil, append_nil]
        rfl
      · rw [hbytes, append_assoc, size_append, ← hsum, map_append, sum_append, Nat.add_assoc]
      · rw [hnewlines, append_assoc, newlines_append, ← hsum', map_append, sum_append, Nat.add_assoc]

theorem sum_lengths (texts : List (List Char)) : (texts.map (fun text => (encode text).length)).sum = size texts.flatten := by
  induction texts with
  | nil => rfl
  | cons text texts ih => rw [map_cons, sum_cons, ih, flatten_cons, size_append, length_encode]

theorem sum_newlines (texts : List (List Char)) : (texts.map Window.newline_count).sum = newlines texts.flatten := by
  induction texts with
  | nil => rfl
  | cons text texts ih =>
    rw [map_cons, sum_cons, ih, flatten_cons, newlines_append, Window.newline_count_eq]

theorem pushed_take (ops : List Op) : pushed (ops ++ [.take]) = pushed ops := by
  induction ops with
  | nil => rfl
  | cons op ops ih =>
    cases op with
    | push stream text => exact congrArg (text :: ·) ih
    | take => exact ih

theorem run_append (p : Pending) (a ops : List Op) :
    p.run (a ++ ops) = (((p.run a).1.run ops).1, (p.run a).2 ++ ((p.run a).1.run ops).2) := by
  induction a generalizing p with
  | nil => rfl
  | cons op a ih =>
    show ((((p.step op).1.run (a ++ ops)).1, (p.step op).2 ++ ((p.step op).1.run (a ++ ops)).2) : Pending × List Event) = _
    rw [ih]
    dsimp only
    rw [← append_assoc]
    rfl

/-- A command's output comes to the buffer through the window of the daemon, with deliveries in between and one at the
end. The buffer shows what it would of the output itself, and no byte or newline is lost. -/
theorem window_exact (maxBytes maxLines : ℕ) (ops : List Op) :
    let limits : OutputLimits := ⟨maxBytes, maxLines, .tail⟩
    let events := ((Pending.new ⟨maxBytes, maxLines⟩).run (ops ++ [.take])).2
    (deliver (.new limits) events).snapshot.1 = (Output.pushAll (.new limits) (pushed ops)).snapshot.1 ∧
      (events.map eventBytes).sum = ((pushed ops).map (fun text => (encode text).length)).sum ∧
      (events.map eventNewlines).sum = ((pushed ops).map Window.newline_count).sum := by
  intro limits events
  have htail : limits.retain = .tail := rfl
  obtain ⟨text', omitted', hrun, hlimits, hp, -, heq, hbytes, hnewlines⟩ :=
    (retains_new limits htail).run (Window.holds_new ⟨maxBytes, maxLines⟩) rfl (ops ++ [.take])
  obtain ⟨hall, hlimits'⟩ := (retains_new limits htail).pushAll (pushed ops)
  -- the last delivery leaves nothing held
  have hlast : ((Pending.new ⟨maxBytes, maxLines⟩).run (ops ++ [.take])).1.segments = [] ∧
      ((Pending.new ⟨maxBytes, maxLines⟩).run (ops ++ [.take])).1.skipped = none := by
    rw [run_append]
    exact ⟨rfl, rfl⟩
  have homitted : omitted' = [] := by
    by_contra hne
    have hskipped := hp.skipped
    rw [hlast.2, Window.addSkipped_none omitted' hne] at hskipped
    cases hskipped
  have htext : text' = (pushed ops).flatten := by
    rw [hlast.1, homitted, pushed_take] at heq
    simpa [Window.Pending.new] using heq
  rw [nil_append] at hall
  rw [htext] at hrun hbytes hnewlines
  refine ⟨?_, ?_, ?_⟩
  · rw [hrun.snapshot, hall.snapshot, hlimits, hlimits']
  · rw [sum_lengths, hbytes, size_nil, Nat.zero_add]
  · rw [sum_newlines, hnewlines, newlines_nil, Nat.zero_add]

end PiAgent.Harness.Output
