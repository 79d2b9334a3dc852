import PiAgent.Durable.Watch

/-! # Committed watches lose nothing -/

namespace PiAgent.Durable.Watch

open Delta

/-! ## Calls -/

def runningAfter : Option Frame → List Call → Option (Option Frame)
  | running, [] => some running
  | none, .began frame :: calls => runningAfter (some frame) calls
  | some _, .returned :: calls => runningAfter none calls
  | some _, .threw :: calls => runningAfter none calls
  | _, _ :: _ => none

theorem runningAfter_append (running : Option Frame) (a b : List Call) :
    runningAfter running (a ++ b) = (runningAfter running a).bind (fun running => runningAfter running b) := by
  induction a generalizing running with
  | nil => rfl
  | cons call a ih =>
    cases running <;> cases call <;> first | exact ih _ | rfl

def began? : Call → Option Frame
  | .began frame => some frame
  | _ => none

namespace CommittedWatch

def delivered (w : CommittedWatch) : List Frame := w.calls.filterMap began?

end CommittedWatch

/-! ## Flags -/

structure Flags (w : CommittedWatch) : Prop where
  serial : runningAfter none w.calls = some w.running
  wake : w.started = true → w.ended = none → w.pending ≠ [] → w.scheduled = true ∨ w.running.isSome = true
  apart : w.scheduled = true → w.running = none
  scheduledStarted : w.scheduled = true → w.started = true
  runningStarted : w.running.isSome = true → w.started = true
  dropped : w.ended.isSome = true → w.pending = []

theorem flags_new (value : JsonValue) : Flags (.new value) where
  serial := rfl
  wake := fun _ _ h => absurd rfl h
  apart := fun h => by cases h
  scheduledStarted := fun h => by cases h
  runningStarted := fun h => by cases h
  dropped := fun _ => rfl

theorem Flags.unscheduled (w : CommittedWatch) (h : Flags w) (hrunning : w.running.isSome = true) :
    w.scheduled = false := by
  by_contra hscheduled
  rw [h.apart (Bool.not_eq_false _ ▸ hscheduled)] at hrunning
  cases hrunning

structure Calm (w : CommittedWatch) : Prop where
  serial : runningAfter none w.calls = some w.running
  apart : w.scheduled = true → w.running = none
  scheduledStarted : w.scheduled = true → w.started = true
  runningStarted : w.running.isSome = true → w.started = true
  dropped : w.ended.isSome = true → w.pending = []

section

variable (w : CommittedWatch)

theorem Calm.schedule (h : Calm w) (hs : w.started = true) : Flags w.schedule := by
  unfold CommittedWatch.schedule
  split
  · rename_i hbusy
    refine ⟨h.serial, fun _ he _ => ?_, h.apart, h.scheduledStarted, h.runningStarted, h.dropped⟩
    simpa [he] using hbusy
  · rename_i hidle
    simp only [Bool.or_eq_true, not_or, Bool.not_eq_true, Option.isSome_eq_false_iff, Option.isNone_iff_eq_none] at hidle
    exact ⟨h.serial, fun _ _ _ => .inl rfl, fun _ => hidle.1.2, fun _ => hs, h.runningStarted, h.dropped⟩

theorem Flags.terminate (h : Flags w) (reason : WatchEnd) : Flags (w.terminate reason) := by
  unfold CommittedWatch.terminate
  split
  · exact h
  · exact ⟨h.serial, fun _ he _ => by simp at he, h.apart, h.scheduledStarted, h.runningStarted, fun _ => rfl⟩

theorem Flags.start (h : Flags w) : Flags w.start := by
  unfold CommittedWatch.start
  split
  · exact h
  · have hcalm : Calm { w with started := true } := ⟨h.serial, h.apart, fun _ => rfl, fun _ => rfl, h.dropped⟩
    dsimp only
    split
    · rename_i hempty
      exact ⟨h.serial, fun _ _ hp => absurd (List.isEmpty_iff.mp hempty) hp, h.apart, fun _ => rfl, fun _ => rfl, h.dropped⟩
    · exact hcalm.schedule _ rfl

theorem Flags.advance (h : Flags w) (value : JsonValue) (ops : List Op) (replacement : Option JsonValue) :
    Flags (w.advance value ops replacement) := by
  unfold CommittedWatch.advance
  split
  · exact h
  · rename_i hopen
    simp only [Bool.or_eq_true, not_or, Bool.not_eq_true] at hopen
    have hcalm : Calm { w with
        retired := isNull value
        pending := w.queue value ops replacement
        commits := w.commits ++ [(value, ops)] } :=
      ⟨h.serial, h.apart, h.scheduledStarted, h.runningStarted, fun he => absurd he (by simp [hopen.1])⟩
    dsimp only
    split
    · rename_i hs
      exact hcalm.schedule _ hs
    · rename_i hs
      exact ⟨h.serial, fun hs' => absurd hs' hs, h.apart, h.scheduledStarted, h.runningStarted, hcalm.dropped⟩

theorem flags_finish (hserial : runningAfter none w.calls = some none) (hs : w.started = true)
    (hd : w.ended.isSome = true → w.pending = []) : Flags w.finish := by
  unfold CommittedWatch.finish
  dsimp only
  have hcalm : Calm { w with running := none } := ⟨hserial, fun _ => rfl, fun _ => hs, fun _ => hs, hd⟩
  split
  · exact hcalm.schedule _ hs
  · rename_i hnot
    refine ⟨hserial, fun _ he hp => absurd ?_ hnot, fun _ => rfl, fun _ => hs, fun _ => hs, hd⟩
    simpa using And.intro he hp

theorem flags_next (hserial : runningAfter none w.calls = some none) (hs : w.started = true)
    (hscheduled : w.scheduled = false) (hd : w.ended.isSome = true → w.pending = []) : Flags w.next := by
  unfold CommittedWatch.next
  split
  · exact flags_finish w hserial hs hd
  · rename_i hopen
    split
    · exact flags_finish w hserial hs hd
    · rename_i frame rest hpending
      refine ⟨?_, fun _ _ _ => .inr rfl, fun h => ?_, fun _ => hs, fun _ => hs, fun he => absurd he hopen⟩
      · change runningAfter none (w.calls ++ [.began frame]) = _
        rw [runningAfter_append, hserial]
        rfl
      · rw [show w.scheduled = true from h] at hscheduled
        cases hscheduled

theorem Flags.turn (h : Flags w) : Flags w.turn := by
  unfold CommittedWatch.turn
  split
  · rename_i hscheduled
    have hrunning := h.apart hscheduled
    have hs := h.scheduledStarted hscheduled
    dsimp only
    split
    · rename_i hbusy
      refine ⟨h.serial, fun _ he _ => ?_, (fun hf => by cases hf), fun _ => hs, h.runningStarted, h.dropped⟩
      simp [hrunning, hs, show w.ended = none from he] at hbusy
    · exact flags_next _ (by rw [h.serial, hrunning]) hs rfl h.dropped
  · exact h

theorem flags_terminate_finish (reason : WatchEnd) (hserial : runningAfter none w.calls = some none)
    (hs : w.started = true) (hd : w.ended.isSome = true → w.pending = []) : Flags (w.terminate reason).finish := by
  unfold CommittedWatch.terminate
  split
  · exact flags_finish _ hserial hs hd
  · exact flags_finish _ hserial hs (fun _ => rfl)

theorem Flags.settle (h : Flags w) (threw : Bool) : Flags (w.settle threw) := by
  unfold CommittedWatch.settle
  split
  · exact h
  · rename_i frame hrunning
    have hs := h.runningStarted (by rw [hrunning]; rfl)
    have hscheduled := h.unscheduled w (by rw [hrunning]; rfl)
    have hserial : ∀ call, (call = .threw ∨ call = .returned) → runningAfter none (w.calls ++ [call]) = some none := by
      intro call hcall
      rw [runningAfter_append, h.serial, hrunning]
      rcases hcall with rfl | rfl <;> rfl
    cases threw with
    | true => exact flags_terminate_finish _ _ (hserial .threw (.inl rfl)) hs h.dropped
    | false =>
      dsimp only
      rw [if_neg Bool.false_ne_true]
      split
      · exact flags_terminate_finish _ _ (hserial .returned (.inr rfl)) hs h.dropped
      · exact flags_next _ (hserial .returned (.inr rfl)) hs hscheduled h.dropped

theorem Flags.step (h : Flags w) (input : Input) : Flags (w.step input) := by
  cases input with
  | advance value ops replacement => exact h.advance w value ops replacement
  | start => exact h.start
  | stop => exact h.terminate w _
  | cancel => exact h.terminate w _
  | closeSession failed => exact h.terminate w _
  | turn => exact h.turn
  | settle threw => exact h.settle w threw

end

/-! ## What one step does -/

structure Core where
  value : JsonValue
  pending : List Frame
  retired : Bool
  ended : Option WatchEnd
  commits : List (JsonValue × List Op)
  delivered : List Frame

def CommittedWatch.core (w : CommittedWatch) : Core :=
  ⟨w.value, w.pending, w.retired, w.ended, w.commits, w.delivered⟩

namespace Core

def LastNull (c : Core) : Prop := ∃ frame, c.delivered.getLast? = some frame ∧ isNull frame.value = true

def frames (c : Core) : List Frame := c.delivered ++ c.pending

def told (c : Core) : ℕ := (c.delivered.getLast?.map Frame.upTo).getD 0

end Core

def replacementOf (value : JsonValue) (replacement : Option JsonValue) : JsonValue :=
  (replacement.filter (fun value => !isNull value)).getD value

/-- A step changes nothing here, ends the watch, accepts a commit or delivers the first frame that waits. -/
inductive Moved (input : Input) (c : Core) : Core → Prop where
  | still : Moved input c c
  | ended (reason : WatchEnd) (hopen : c.ended = none) (hlast : reason = .retired → c.LastNull) :
    Moved input c { c with ended := some reason, pending := [] }
  | appended (value : JsonValue) (ops : List Op) (replacement : Option JsonValue)
    (hinput : input = .advance value ops replacement) (hopen : c.ended = none) (hlive : c.retired = false) :
    Moved input c { c with
      retired := isNull value
      pending := c.pending ++ [⟨value, ops, c.commits.length + 1, false⟩]
      commits := c.commits ++ [(value, ops)] }
  | overflowed (value : JsonValue) (ops : List Op) (replacement : Option JsonValue)
    (hinput : input = .advance value ops replacement) (hopen : c.ended = none) (hlive : c.retired = false) :
    Moved input c { c with
      retired := isNull value
      pending := [⟨replacementOf value replacement, [.r (replacementOf value replacement)], c.commits.length + 1, true⟩]
      commits := c.commits ++ [(value, ops)] }
  | delivered (frame : Frame) (rest : List Frame) (hopen : c.ended = none) (hpending : c.pending = frame :: rest) :
    Moved input c { c with value := frame.value, pending := rest, delivered := c.delivered ++ [frame] }

namespace CommittedWatch

section

variable (w : CommittedWatch)

@[simp] theorem core_schedule : w.schedule.core = w.core := by
  unfold schedule
  split <;> rfl

@[simp] theorem core_start : w.start.core = w.core := by
  unfold start
  split
  · rfl
  · dsimp only
    split
    · rfl
    · rw [core_schedule]
      rfl

@[simp] theorem core_finish : w.finish.core = w.core := by
  unfold finish
  dsimp only
  split
  · rw [core_schedule]
    rfl
  · rfl

theorem core_answered (call : Call) (hcall : began? call = none) :
    ({ w with calls := w.calls ++ [call] } : CommittedWatch).core = w.core := by
  simp [core, delivered, hcall]

theorem moved_terminate (input : Input) (reason : WatchEnd) (h : reason = .retired → w.core.LastNull) :
    Moved input w.core (w.terminate reason).core := by
  unfold terminate
  split
  · exact .still
  · rename_i hopen
    exact .ended reason (by simpa [core] using hopen) h

theorem moved_next (input : Input) : Moved input w.core w.next.core := by
  unfold next
  split
  · rw [core_finish]
    exact .still
  · rename_i hopen
    split
    · rw [core_finish]
      exact .still
    · rename_i frame rest hpending
      have hcore : ({ w with pending := rest, value := frame.value, running := some frame
                             calls := w.calls ++ [.began frame] } : CommittedWatch).core =
          { w.core with value := frame.value, pending := rest, delivered := w.core.delivered ++ [frame] } := by
        simp [core, delivered, began?]
      rw [hcore]
      exact .delivered frame rest (by simpa [core] using hopen) hpending

theorem moved_advance (value : JsonValue) (ops : List Op) (replacement : Option JsonValue) :
    Moved (.advance value ops replacement) w.core (w.advance value ops replacement).core := by
  unfold advance
  split
  · exact .still
  · rename_i hopen
    simp only [Bool.or_eq_true, not_or, Bool.not_eq_true, Option.isSome_eq_false_iff, Option.isNone_iff_eq_none] at hopen
    have hmoved : Moved (.advance value ops replacement) w.core ({ w with
        retired := isNull value
        pending := w.queue value ops replacement
        commits := w.commits ++ [(value, ops)] } : CommittedWatch).core := by
      unfold queue
      split
      · exact .overflowed value ops replacement rfl hopen.1 hopen.2
      · exact .appended value ops replacement rfl hopen.1 hopen.2
    dsimp only
    split
    · rw [core_schedule]
      exact hmoved
    · exact hmoved

theorem moved_turn : Moved .turn w.core w.turn.core := by
  unfold turn
  split
  · dsimp only
    split
    · exact .still
    · exact moved_next { w with scheduled := false } .turn
  · exact .still

end

end CommittedWatch

theorem getLast_of_running (calls : List Call) (frame : Frame) (h : runningAfter none calls = some (some frame)) :
    (calls.filterMap began?).getLast? = some frame := by
  induction calls using List.reverseRecOn with
  | nil => cases h
  | append_singleton calls call ih =>
    rw [runningAfter_append] at h
    obtain ⟨running, -, hlast⟩ := Option.bind_eq_some_iff.mp h
    cases running <;> cases call <;> cases hlast
    simp [began?]

section

variable (w : CommittedWatch) (h : Flags w)
include h

theorem Flags.last (frame : Frame) (hrunning : w.running = some frame) : w.delivered.getLast? = some frame :=
  getLast_of_running w.calls frame (by rw [h.serial, hrunning])

theorem moved_settle (threw : Bool) : Moved (.settle threw) w.core (w.settle threw).core := by
  unfold CommittedWatch.settle
  split
  · exact .still
  · rename_i frame hrunning
    cases threw with
    | true =>
      have hcore := w.core_answered .threw rfl
      simp only [if_true, CommittedWatch.core_finish]
      rw [← hcore]
      exact CommittedWatch.moved_terminate _ _ _ (fun hr => by cases hr)
    | false =>
      have hcore := w.core_answered .returned rfl
      dsimp only
      rw [if_neg Bool.false_ne_true, if_neg Bool.false_ne_true, ← hcore]
      split
      · rename_i hnull
        rw [CommittedWatch.core_finish]
        refine CommittedWatch.moved_terminate _ _ _ (fun _ => ?_)
        rw [hcore]
        exact ⟨frame, h.last w frame hrunning, hnull⟩
      · exact CommittedWatch.moved_next _ _

theorem moved_step (input : Input) : Moved input w.core (w.step input).core := by
  cases input with
  | advance value ops replacement => exact w.moved_advance value ops replacement
  | start =>
    rw [show w.step .start = w.start from rfl, w.core_start]
    exact .still
  | stop => exact w.moved_terminate _ _ (fun hr => by cases hr)
  | cancel => exact w.moved_terminate _ _ (fun hr => by cases hr)
  | closeSession failed => exact w.moved_terminate _ _ (fun hr => by cases failed <;> cases hr)
  | turn => exact w.moved_turn
  | settle threw => exact moved_settle w h threw

end

end PiAgent.Durable.Watch
