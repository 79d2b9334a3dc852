import PiAgent.Durable.WatchExact

/-! # Runs of a committed watch -/

namespace PiAgent.Durable.Watch

open Delta

/-! ## A delivered retirement -/

def Retires (w : CommittedWatch) : Prop :=
  ∀ frame, w.delivered.getLast? = some frame → isNull frame.value = true → w.running = some frame ∨ w.ended.isSome = true

structure Quiet (w w' : CommittedWatch) : Prop where
  delivered : w'.delivered = w.delivered
  running : w'.running = w.running
  ended : w.ended.isSome = true → w'.ended.isSome = true

theorem Quiet.retires (w w' : CommittedWatch) (h : Quiet w w') (hw : Retires w) : Retires w' := by
  intro frame hlast hnull
  rw [h.delivered] at hlast
  rw [h.running]
  exact (hw frame hlast hnull).imp id h.ended

section

variable (w : CommittedWatch)

theorem quiet_refl : Quiet w w := ⟨rfl, rfl, id⟩

theorem quiet_schedule : Quiet w w.schedule := by
  unfold CommittedWatch.schedule
  split <;> exact ⟨rfl, rfl, id⟩

theorem quiet_terminate (reason : WatchEnd) : Quiet w (w.terminate reason) := by
  unfold CommittedWatch.terminate
  split
  · exact quiet_refl w
  · exact ⟨rfl, rfl, fun _ => rfl⟩

theorem quiet_start : Quiet w w.start := by
  unfold CommittedWatch.start
  split
  · exact quiet_refl w
  · dsimp only
    split
    · exact ⟨rfl, rfl, id⟩
    · obtain ⟨hd, hr, he⟩ := quiet_schedule { w with started := true }
      exact ⟨hd, hr, he⟩

theorem quiet_advance (value : JsonValue) (ops : List Op) (replacement : Option JsonValue) :
    Quiet w (w.advance value ops replacement) := by
  unfold CommittedWatch.advance
  split
  · exact quiet_refl w
  · dsimp only
    split
    · obtain ⟨hd, hr, he⟩ := quiet_schedule { w with
        retired := isNull value
        pending := w.queue value ops replacement
        commits := w.commits ++ [(value, ops)] }
      exact ⟨hd, hr, he⟩
    · exact ⟨rfl, rfl, id⟩

theorem finish_ended : w.finish.ended = w.ended := congrArg Core.ended w.core_finish

theorem finish_delivered : w.finish.delivered = w.delivered := congrArg Core.delivered w.core_finish

theorem terminate_ended (reason : WatchEnd) : (w.terminate reason).ended.isSome = true := by
  unfold CommittedWatch.terminate
  split
  · assumption
  · rfl

theorem retires_next
    (hno : ∀ frame, w.delivered.getLast? = some frame → isNull frame.value = true → w.ended.isSome = true) :
    Retires w.next := by
  unfold CommittedWatch.next
  split
  · rename_i hended
    intro frame _ _
    rw [finish_ended]
    exact .inr hended
  · rename_i hopen
    split
    · intro frame hlast hnull
      rw [finish_delivered] at hlast
      exact absurd (hno frame hlast hnull) hopen
    · rename_i frame rest hpending
      intro last hlast hnull
      have heq : frame = last := by simpa [CommittedWatch.delivered, began?] using hlast
      exact .inl (congrArg some heq)

theorem retires_turn (hflags : Flags w) (h : Retires w) : Retires w.turn := by
  unfold CommittedWatch.turn
  split
  · rename_i hscheduled
    dsimp only
    split
    · exact Quiet.retires w _ ⟨rfl, rfl, id⟩ h
    · refine retires_next _ (fun frame hlast hnull => (h frame hlast hnull).resolve_left ?_)
      rw [hflags.apart hscheduled]
      exact Option.some_ne_none frame ∘ Eq.symm
  · exact h

theorem retires_settle (hflags : Flags w) (h : Retires w) (threw : Bool) : Retires (w.settle threw) := by
  unfold CommittedWatch.settle
  split
  · exact h
  · rename_i frame hrunning
    have hstopped : ∀ (w' : CommittedWatch) reason, Retires (w'.terminate reason).finish := by
      intro w' reason last _ _
      rw [finish_ended]
      exact .inr (terminate_ended w' reason)
    cases threw with
    | true => exact hstopped _ _
    | false =>
      dsimp only
      rw [if_neg Bool.false_ne_true]
      split
      · exact hstopped _ _
      · rename_i hnull
        refine retires_next _ (fun last hlast hlastNull => absurd hlastNull ?_)
        have hheard : w.delivered.getLast? = some last := by simpa [CommittedWatch.delivered, began?] using hlast
        rw [hflags.last w frame hrunning] at hheard
        rwa [← Option.some.inj hheard]

theorem retires_step (hflags : Flags w) (h : Retires w) (input : Input) : Retires (w.step input) := by
  cases input with
  | advance value ops replacement => exact (quiet_advance w value ops replacement).retires w _ h
  | start => exact (quiet_start w).retires w _ h
  | stop => exact (quiet_terminate w _).retires w _ h
  | cancel => exact (quiet_terminate w _).retires w _ h
  | closeSession failed => exact (quiet_terminate w _).retires w _ h
  | turn => exact retires_turn w hflags h
  | settle threw => exact retires_settle w hflags h threw

theorem settle_retires (frame : Frame) (hrunning : w.running = some frame) (hnull : isNull frame.value = true)
    (hopen : w.ended = none) : (w.settle false).ended = some .retired := by
  unfold CommittedWatch.settle
  rw [hrunning]
  simp only [Bool.false_eq_true, if_false, hnull, if_true, finish_ended, CommittedWatch.terminate, hopen,
    Option.isSome_none]

end

/-! ## Invariants of a run -/

structure Kept (w : CommittedWatch) : Prop where
  flags : Flags w
  tiled : Tiled w.core
  nulls : NullsLast w.core
  retires : Retires w
  retired : w.ended = some .retired → w.core.LastNull

theorem kept_new (value : JsonValue) : Kept (.new value) where
  flags := flags_new value
  tiled := ⟨rfl, fun _ => rfl, le_refl _⟩
  nulls := ⟨fun _ hf => absurd hf List.not_mem_nil, fun _ _ hf => absurd hf List.not_mem_nil⟩
  retires := fun _ hlast => by cases hlast
  retired := fun he => by cases he

theorem retired_step (input : Input) (c c' : Core) (hmoved : Moved input c c')
    (h : c.ended = some .retired → c.LastNull) (he : c'.ended = some .retired) : c'.LastNull := by
  cases hmoved with
  | still => exact h he
  | ended reason hopen hlast => exact hlast (Option.some.inj he)
  | appended value ops replacement hinput hopen hlive => exact h he
  | overflowed value ops replacement hinput hopen hlive => exact h he
  | delivered frame rest hopen hpending =>
    rw [show c.ended = some .retired from he] at hopen
    cases hopen

theorem kept_step (w : CommittedWatch) (h : Kept w) (input : Input) : Kept (w.step input) := by
  have hmoved := moved_step w h.flags input
  exact ⟨h.flags.step w input, tiled_step input _ _ hmoved h.tiled, nullsLast_step input _ _ hmoved h.nulls,
    retires_step w h.flags h.retires input, retired_step input _ _ hmoved h.retired⟩

theorem kept_run (value : JsonValue) (inputs : List Input) : Kept ((watch value).run inputs) :=
  (watch value).runFrom_induction (fun w input h => kept_step w h input) _ (kept_new value) inputs

theorem ended_step (input : Input) (c c' : Core) (hmoved : Moved input c c') (hended : c.ended.isSome = true) :
    c'.ended = c.ended ∧ c'.delivered = c.delivered := by
  cases hmoved with
  | still => exact ⟨rfl, rfl⟩
  | ended reason hopen hlast => simp [hopen] at hended
  | appended value ops replacement hinput hopen hlive => exact ⟨rfl, rfl⟩
  | overflowed value ops replacement hinput hopen hlive => exact ⟨rfl, rfl⟩
  | delivered frame rest hopen hpending => simp [hopen] at hended

theorem ended_run (value : JsonValue) (w : CommittedWatch) (h : Kept w) (hended : w.ended.isSome = true)
    (more : List Input) :
    ((watch value).runFrom w more).ended = w.ended ∧ ((watch value).runFrom w more).delivered = w.delivered := by
  induction more generalizing w with
  | nil => exact ⟨rfl, rfl⟩
  | cons input more ih =>
    obtain ⟨he, hd⟩ := ended_step input _ _ (moved_step w h.flags input) hended
    obtain ⟨he', hd'⟩ := ih (w.step input) (kept_step w h input) (by rw [show (w.step input).ended = w.ended from he]; exact hended)
    exact ⟨he'.trans he, hd'.trans hd⟩

theorem led_run (value : JsonValue) (inputs : List Input)
    (h : (watch value).Allowed (Coherent value) (.new value) inputs) : Led value ((watch value).run inputs).core := by
  have hall := (watch value).always_of_allowed (P := fun w => Kept w ∧ Led value w.core)
    (fun w input hw hc => ⟨kept_step w hw.1 input, led_step value input w _ (moved_step w hw.1.flags input) hw.2 hc⟩)
    ⟨kept_new value, ⟨rfl, fun _ => rfl, fun _ hr => by cases hr⟩⟩ h
  exact hall.last.2

/-! ## Every commit is told -/

structure Fair (value : JsonValue) (w : CommittedWatch) (schedule : ℕ → Input) : Prop where
  turns : ∀ t, ((watch value).along w schedule t).scheduled = true → ∃ u ≥ t, schedule u = .turn
  settles : ∀ t, ((watch value).along w schedule t).running.isSome = true → ∃ u ≥ t, ∃ threw, schedule u = .settle threw

structure Grown (w w' : CommittedWatch) : Prop where
  started : w.started = true → w'.started = true
  told : w.core.told ≤ w'.core.told
  commits : w.commits <+: w'.commits

theorem grown_refl (w : CommittedWatch) : Grown w w := ⟨id, le_refl _, List.prefix_refl _⟩

theorem grown_trans (a b c : CommittedWatch) (h : Grown a b) (h' : Grown b c) : Grown a c :=
  ⟨h'.started ∘ h.started, h.told.trans h'.told, h.commits.trans h'.commits⟩

section

variable (w : CommittedWatch)

theorem started_schedule : w.schedule.started = w.started := by
  unfold CommittedWatch.schedule
  split <;> rfl

theorem started_finish : w.finish.started = w.started := by
  unfold CommittedWatch.finish
  dsimp only
  split
  · rw [started_schedule]
  · rfl

theorem started_terminate (reason : WatchEnd) : (w.terminate reason).started = w.started := by
  unfold CommittedWatch.terminate
  split <;> rfl

theorem started_next : w.next.started = w.started := by
  unfold CommittedWatch.next
  split
  · exact started_finish w
  · split
    · exact started_finish w
    · rfl

theorem started_step (input : Input) (h : w.started = true) : (w.step input).started = true := by
  cases input with
  | advance value ops replacement =>
    unfold CommittedWatch.step CommittedWatch.advance
    simp only
    split
    · exact h
    · rw [started_schedule]
      exact h
  | start =>
    unfold CommittedWatch.step CommittedWatch.start
    simp [h]
  | stop => exact (started_terminate w _).trans h
  | cancel => exact (started_terminate w _).trans h
  | closeSession failed => exact (started_terminate w _).trans h
  | turn =>
    unfold CommittedWatch.step CommittedWatch.turn
    simp only
    split
    · split
      · exact h
      · exact (started_next _).trans h
    · exact h
  | settle threw =>
    unfold CommittedWatch.step CommittedWatch.settle
    simp only
    split
    · exact h
    · split
      · exact (started_finish _).trans ((started_terminate _ _).trans h)
      · split
        · exact (started_finish _).trans ((started_terminate _ _).trans h)
        · exact (started_next _).trans h

theorem grown_step (h : Kept w) (input : Input) : Grown w (w.step input) := by
  have hmoved := moved_step w h.flags input
  have hcore : ∀ c', Moved input w.core c' → w.core.told ≤ c'.told ∧ w.core.commits <+: c'.commits := by
    intro c' hm
    cases hm with
    | still => exact ⟨le_refl _, List.prefix_refl _⟩
    | ended reason hopen hlast => exact ⟨le_refl _, List.prefix_refl _⟩
    | appended value ops replacement hinput hopen hlive => exact ⟨le_refl _, List.prefix_append _ _⟩
    | overflowed value ops replacement hinput hopen hlive => exact ⟨le_refl _, List.prefix_append _ _⟩
    | delivered frame rest hopen hpending =>
      have hwaits := h.tiled.pending hopen
      rw [hpending] at hwaits
      refine ⟨?_, List.prefix_refl _⟩
      simpa [Core.told] using le_of_lt hwaits.1
  obtain ⟨htold, hcommits⟩ := hcore _ hmoved
  exact ⟨started_step w input, htold, hcommits⟩

theorem told_next (h : Tiled w.core) (hopen : w.ended = none) (hbehind : w.core.told < w.commits.length) :
    w.core.told < w.next.core.told := by
  have hwaits := h.pending hopen
  unfold CommittedWatch.next
  rw [if_neg (by simp [hopen])]
  split
  · rename_i hp
    rw [show w.core.pending = [] from hp] at hwaits
    exact absurd hbehind (not_lt.mpr (le_of_eq hwaits.symm))
  · rename_i frame rest hp
    rw [show w.core.pending = frame :: rest from hp] at hwaits
    have htold : ({ w with pending := rest, value := frame.value, running := some frame
                           calls := w.calls ++ [.began frame] } : CommittedWatch).core.told = frame.upTo := by
      simp [Core.told, CommittedWatch.core, CommittedWatch.delivered, began?]
    rw [htold]
    exact hwaits.1

theorem told_turn (h : Kept w) (hscheduled : w.scheduled = true) (hopen : w.ended = none)
    (hbehind : w.core.told < w.commits.length) : w.core.told < w.turn.core.told := by
  unfold CommittedWatch.turn
  have hidle := h.flags.apart hscheduled
  have hs := h.flags.scheduledStarted hscheduled
  rw [if_pos hscheduled]
  dsimp only
  rw [if_neg (by simp [hidle, hopen, hs])]
  exact told_next { w with scheduled := false } h.tiled hopen hbehind

theorem told_settle (h : Kept w) (hrunning : w.running.isSome = true) (hopen : w.ended = none)
    (hbehind : w.core.told < w.commits.length) (threw : Bool) :
    (w.settle threw).ended.isSome = true ∨ w.core.told < (w.settle threw).core.told := by
  unfold CommittedWatch.settle
  split
  · rename_i hno
    rw [hno] at hrunning
    cases hrunning
  · cases threw with
    | true => exact .inl (by simp only [if_true, finish_ended, terminate_ended])
    | false =>
      dsimp only
      rw [if_neg Bool.false_ne_true, if_neg Bool.false_ne_true]
      split
      · exact .inl (by simp only [finish_ended, terminate_ended])
      · have hcore := w.core_answered .returned rfl
        have hnext := told_next { w with calls := w.calls ++ [.returned] } (by rw [hcore]; exact h.tiled) hopen
          (by rw [hcore]; exact hbehind)
        rw [hcore] at hnext
        exact .inr hnext

theorem scheduled_step (h : Kept w) (hscheduled : w.scheduled = true) (input : Input) (hinput : input ≠ .turn) :
    (w.step input).scheduled = true := by
  cases input with
  | advance value ops replacement =>
    unfold CommittedWatch.step CommittedWatch.advance
    simp only
    split
    · exact hscheduled
    · split
      · unfold CommittedWatch.schedule
        split
        · exact hscheduled
        · rfl
      · exact hscheduled
  | start =>
    unfold CommittedWatch.step CommittedWatch.start
    simp [h.flags.scheduledStarted hscheduled, hscheduled]
  | stop | cancel | closeSession failed =>
    unfold CommittedWatch.step CommittedWatch.terminate
    simp only
    split <;> exact hscheduled
  | turn => exact absurd rfl hinput
  | settle threw =>
    unfold CommittedWatch.step CommittedWatch.settle
    simp [h.flags.apart hscheduled, hscheduled]

theorem running_step (h : Kept w) (hrunning : w.running.isSome = true) (input : Input)
    (hinput : ∀ threw, input ≠ .settle threw) : (w.step input).running.isSome = true := by
  have hquiet : ∀ w', Quiet w w' → w'.running.isSome = true := fun w' hq => by rwa [hq.running]
  cases input with
  | advance value ops replacement => exact hquiet _ (quiet_advance w value ops replacement)
  | start => exact hquiet _ (quiet_start w)
  | stop => exact hquiet _ (quiet_terminate w _)
  | cancel => exact hquiet _ (quiet_terminate w _)
  | closeSession failed => exact hquiet _ (quiet_terminate w _)
  | turn =>
    have hscheduled := h.flags.unscheduled w hrunning
    unfold CommittedWatch.step CommittedWatch.turn
    simpa [hscheduled] using hrunning
  | settle threw => exact absurd rfl (hinput threw)

end

section Eventually

variable (value : JsonValue) (w : CommittedWatch) (schedule : ℕ → Input)

theorem kept_along (h : Kept w) (t : ℕ) : Kept ((watch value).along w schedule t) :=
  (watch value).along_induction (fun w input hw => kept_step w hw input) w h schedule t

theorem grown_along (h : Kept w) (t u : ℕ) (htu : t ≤ u) :
    Grown ((watch value).along w schedule t) ((watch value).along w schedule u) :=
  (watch value).along_mono grown_refl grown_trans w schedule
    (fun t => grown_step _ (kept_along value w schedule h t) (schedule t)) t u htu

section

variable (h : Kept w) (hfair : Fair value w schedule)
include h hfair

theorem eventually_more (t : ℕ) (hstarted : ((watch value).along w schedule t).started = true)
    (hbehind : ((watch value).along w schedule t).core.told < ((watch value).along w schedule t).commits.length) :
    ∃ u ≥ t, ((watch value).along w schedule u).ended.isSome = true ∨
      ((watch value).along w schedule t).core.told < ((watch value).along w schedule u).core.told := by
  have hkept := kept_along value w schedule h
  have hgrown := fun u hu => grown_along value w schedule h t u hu
  by_cases hended : ((watch value).along w schedule t).ended.isSome = true
  · exact ⟨t, le_refl _, .inl hended⟩
  have hopen : ((watch value).along w schedule t).ended = none := by simpa using hended
  have hpending : ((watch value).along w schedule t).pending ≠ [] := by
    intro hp
    have hwaits := (hkept t).tiled.pending hopen
    rw [show ((watch value).along w schedule t).core.pending = [] from hp] at hwaits
    exact absurd hbehind (not_lt.mpr (le_of_eq hwaits.symm))
  -- when it is served, the watch has ended, has told more, or is still behind and tells more by that step
  have hserved : ∀ v ≥ t, (((watch value).along w schedule v).ended = none →
      ((watch value).along w schedule v).core.told < ((watch value).along w schedule v).commits.length →
      ((watch value).along w schedule (v + 1)).ended.isSome = true ∨
        ((watch value).along w schedule v).core.told < ((watch value).along w schedule (v + 1)).core.told) →
      ∃ u ≥ t, ((watch value).along w schedule u).ended.isSome = true ∨
        ((watch value).along w schedule t).core.told < ((watch value).along w schedule u).core.told := by
    intro v hv hserve
    by_cases hv' : ((watch value).along w schedule v).ended.isSome = true
    · exact ⟨v, hv, .inl hv'⟩
    by_cases hmore : ((watch value).along w schedule t).core.told < ((watch value).along w schedule v).core.told
    · exact ⟨v, hv, .inr hmore⟩
    have hlen := (hgrown v hv).commits.length_le
    have htold := (hgrown v hv).told
    refine ⟨v + 1, by omega, ?_⟩
    rcases hserve (by simpa using hv') (by omega) with he | ht
    · exact .inl he
    · exact .inr (by omega)
  rcases (hkept t).flags.wake hstarted hopen hpending with hscheduled | hrunning
  · obtain ⟨u, htu, hturn⟩ := hfair.turns t hscheduled
    obtain ⟨v, hv, ⟨hk, hsch⟩, hinput⟩ := (watch value).along_until (P := fun w => Kept w ∧ w.scheduled = true)
      (Q := fun input => input = .turn)
      (fun w input hw hno => ⟨kept_step w hw.1 input, scheduled_step w hw.1 hw.2 input hno⟩)
      w schedule t u htu ⟨hkept t, hscheduled⟩ hturn
    refine hserved v hv (fun hopen hbehind => .inr ?_)
    rw [show (watch value).along w schedule (v + 1) = ((watch value).along w schedule v).step (schedule v) from rfl, hinput]
    exact told_turn _ hk hsch hopen hbehind
  · obtain ⟨u, htu, threw, hsettle⟩ := hfair.settles t hrunning
    obtain ⟨v, hv, ⟨hk, hrun⟩, threw, hinput⟩ := (watch value).along_until
      (P := fun w => Kept w ∧ w.running.isSome = true) (Q := fun input => ∃ threw, input = .settle threw)
      (fun w input hw hno => ⟨kept_step w hw.1 input, running_step w hw.1 hw.2 input (fun threw he => hno ⟨threw, he⟩)⟩)
      w schedule t u htu ⟨hkept t, hrunning⟩ ⟨threw, hsettle⟩
    refine hserved v hv (fun hopen hbehind => ?_)
    rw [show (watch value).along w schedule (v + 1) = ((watch value).along w schedule v).step (schedule v) from rfl, hinput]
    exact told_settle _ hk hrun hopen hbehind threw

theorem eventually_told (k t : ℕ) (hstarted : ((watch value).along w schedule t).started = true)
    (hk : k < ((watch value).along w schedule t).commits.length) :
    ∃ u ≥ t, ((watch value).along w schedule u).ended.isSome = true ∨ k < ((watch value).along w schedule u).core.told := by
  induction hn : k + 1 - ((watch value).along w schedule t).core.told using Nat.strong_induction_on generalizing t with
  | _ n ih =>
    by_cases hdone : k < ((watch value).along w schedule t).core.told
    · exact ⟨t, le_refl _, .inr hdone⟩
    obtain ⟨u, hu, hended | hmore⟩ := eventually_more value w schedule h hfair t hstarted (by omega)
    · exact ⟨u, hu, .inl hended⟩
    · have hgrown := grown_along value w schedule h t u hu
      have hlen := hgrown.commits.length_le
      obtain ⟨v, hv, hend⟩ := ih _ (by omega) u (hgrown.started hstarted) (by omega) rfl
      exact ⟨v, by omega, hend⟩

theorem eventually_covered (hstarted : w.started = true) (k : ℕ) (hk : k < w.commits.length) :
    ∃ t, ((watch value).along w schedule t).ended.isSome = true ∨
      ∃ frame ∈ ((watch value).along w schedule t).delivered, Covers w.commits k frame := by
  obtain ⟨t, ht, hended | htold⟩ := eventually_told value w schedule h hfair k 0 hstarted hk
  · exact ⟨t, .inl hended⟩
  · obtain ⟨frame, hmem, hcovers⟩ :=
      tiles_covers _ _ _ k _ (kept_along value w schedule h t).tiled.delivered (Nat.zero_le _) htold
    refine ⟨t, .inr ⟨frame, hmem, ?_⟩⟩
    have hprefix : w.commits <+: ((watch value).along w schedule t).core.commits :=
      (grown_along value w schedule h 0 t ht).commits
    have hat : w.commits[k]? = ((watch value).along w schedule t).core.commits[k]? := by
      obtain ⟨rest, hrest⟩ := hprefix
      rw [← hrest, List.getElem?_append_left hk]
    unfold Covers
    rw [hat]
    exact hcovers

end

end Eventually

end PiAgent.Durable.Watch
