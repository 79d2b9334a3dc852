import PiAgent.Agent.Loop

/-! # What streams, tools and hooks leave alone -/

namespace PiAgent.Agent

open List Script Script.Prog

/-! ## Actions -/

def World.queues (s : World) : (QueueName → PendingMessageQueue) × List Ticket × ℕ := (s.queue, s.owed, s.nextTicket)

theorem act_queues (s t : World) (action : Action) (h : s.queues = t.queues) :
    (s.act action).queues = (t.act action).queues := by
  unfold World.queues at h ⊢
  obtain ⟨hq, ho, hn⟩ : s.queue = t.queue ∧ s.owed = t.owed ∧ s.nextTicket = t.nextTicket := by
    simpa using h
  cases action <;> simp [World.act, hq, ho, hn]

theorem foldl_act_queues (actions : List Action) (s t : World) (h : s.queues = t.queues) :
    (actions.foldl World.act s).queues = (actions.foldl World.act t).queues := by
  induction actions generalizing s t with
  | nil => exact h
  | cons action actions ih => exact ih _ _ (act_queues s t action h)

structure Kept (s t : World) : Prop where
  messages : t.messages = s.messages
  tools : t.tools = s.tools
  streamingMessage : t.streamingMessage = s.streamingMessage
  pendingToolCalls : t.pendingToolCalls = s.pendingToolCalls
  active : t.active = s.active
  skip : t.skipInitialSteeringPoll = s.skipInitialSteeringPoll
  context : t.context = s.context
  newMessages : t.newMessages = s.newMessages
  events : t.events = s.events
  requests : t.requests = s.requests
  lookups : t.lookups = s.lookups
  undelivered : t.undelivered = s.undelivered
  dropped : t.dropped = s.dropped
  drainedAll : t.drainedAll = s.drainedAll
  unreported : t.unreported = s.unreported

variable (s : World)

theorem Kept.refl : Kept s s := ⟨rfl, rfl, rfl, rfl, rfl, rfl, rfl, rfl, rfl, rfl, rfl, rfl, rfl, rfl, rfl⟩

theorem Kept.trans {s t u : World} (h : Kept s t) (h' : Kept t u) : Kept s u :=
  ⟨h'.messages.trans h.messages, h'.tools.trans h.tools, h'.streamingMessage.trans h.streamingMessage,
    h'.pendingToolCalls.trans h.pendingToolCalls, h'.active.trans h.active, h'.skip.trans h.skip,
    h'.context.trans h.context, h'.newMessages.trans h.newMessages, h'.events.trans h.events,
    h'.requests.trans h.requests, h'.lookups.trans h.lookups, h'.undelivered.trans h.undelivered,
    h'.dropped.trans h.dropped, h'.drainedAll.trans h.drainedAll, h'.unreported.trans h.unreported⟩

theorem act_kept (action : Action) : Kept s (s.act action) := by
  cases action <;> exact ⟨rfl, rfl, rfl, rfl, rfl, rfl, rfl, rfl, rfl, rfl, rfl, rfl, rfl, rfl, rfl⟩

theorem foldl_act_kept (actions : List Action) (s : World) : Kept s (actions.foldl World.act s) := by
  induction actions generalizing s with
  | nil => exact Kept.refl s
  | cons action actions ih => exact (act_kept s action).trans (ih _)

theorem await_spec {α : Type} (moment : ℕ → Moment α) (s : World) :
    ∃ t, Kept s t ∧ t.queues = ((moment s.clock).actions.foldl World.act s).queues ∧
      ((∃ a, (moment s.clock).answer = some a ∧ await moment s = (.returned a, t)) ∨
        ((moment s.clock).answer = none ∧ await moment s = (.threw, t))) := by
  have hclock : Kept s { s with clock := s.clock + 1 } :=
    ⟨rfl, rfl, rfl, rfl, rfl, rfl, rfl, rfl, rfl, rfl, rfl, rfl, rfl, rfl, rfl⟩
  refine ⟨(moment s.clock).actions.foldl World.act { s with clock := s.clock + 1 },
    hclock.trans (foldl_act_kept _ _), foldl_act_queues _ _ _ rfl, ?_⟩
  cases hanswer : (moment s.clock).answer with
  | some a =>
    refine Or.inl ⟨a, rfl, ?_⟩
    show settle (moment s.clock).answer _ = _
    rw [hanswer]
    rfl
  | none =>
    refine Or.inr ⟨rfl, ?_⟩
    show settle (moment s.clock).answer _ = _
    rw [hanswer]
    rfl

/-! ## Passive programs -/

/-- Between two states only the surroundings acted on the queues, and no queued message came; `looks` says whether
tools may have been looked up. -/
structure Passive (looks : Bool) (s t : World) : Prop where
  queues : ∃ actions : List Action, t.queues = (actions.foldl World.act s).queues
  messages : ∃ more, t.messages = s.messages ++ more ∧ tickets more = []
  tools : t.tools = s.tools
  contextTools : t.context.tools = s.context.tools
  requests : t.requests = s.requests
  lookups : ∃ k, t.lookups = s.lookups ++ List.replicate k (s.requests.length, s.context.tools) ∧ (looks = false → k = 0)
  skip : t.skipInitialSteeringPoll = s.skipInitialSteeringPoll
  undelivered : t.undelivered = s.undelivered
  dropped : t.dropped = s.dropped
  drainedAll : t.drainedAll = s.drainedAll
  unreported : t.unreported = s.unreported

variable {looks : Bool}

theorem Passive.of_eq {s t : World} (hq : t.queues = s.queues) (hm : t.messages = s.messages) (ht : t.tools = s.tools)
    (hc : t.context.tools = s.context.tools) (hr : t.requests = s.requests) (hl : t.lookups = s.lookups)
    (hs : t.skipInitialSteeringPoll = s.skipInitialSteeringPoll) (hu : t.undelivered = s.undelivered)
    (hd : t.dropped = s.dropped) (ha : t.drainedAll = s.drainedAll) (hn : t.unreported = s.unreported) :
    Passive looks s t :=
  ⟨⟨[], hq⟩, ⟨[], by rw [hm, append_nil], rfl⟩, ht, hc, hr, ⟨0, by rw [hl, replicate_zero, append_nil], fun _ => rfl⟩,
    hs, hu, hd, ha, hn⟩

theorem Passive.refl : Passive looks s s :=
  Passive.of_eq rfl rfl rfl rfl rfl rfl rfl rfl rfl rfl rfl

theorem Passive.trans {s t u : World} (h : Passive looks s t) (h' : Passive looks t u) : Passive looks s u := by
  obtain ⟨actions, hq⟩ := h.queues
  obtain ⟨actions', hq'⟩ := h'.queues
  obtain ⟨more, hm, ht⟩ := h.messages
  obtain ⟨more', hm', ht'⟩ := h'.messages
  obtain ⟨k, hl, hk⟩ := h.lookups
  obtain ⟨k', hl', hk'⟩ := h'.lookups
  refine ⟨⟨actions ++ actions', ?_⟩, ⟨more ++ more', ?_, ?_⟩, h'.tools.trans h.tools, h'.contextTools.trans h.contextTools,
    h'.requests.trans h.requests, ⟨k + k', ?_, fun hno => by rw [hk hno, hk' hno]⟩, h'.skip.trans h.skip,
    h'.undelivered.trans h.undelivered, h'.dropped.trans h.dropped, h'.drainedAll.trans h.drainedAll, h'.unreported.trans h.unreported⟩
  · rw [foldl_append, hq', foldl_act_queues actions' _ _ hq]
  · rw [hm', hm, append_assoc]
  · unfold tickets at ht ht' ⊢
    rw [filterMap_append, ht, ht', append_nil]
  · rw [hl', hl, h.requests, h.contextTools, append_assoc, replicate_append_replicate]

theorem Kept.passive {s t : World} (h : Kept s t) (hq : ∃ actions : List Action, t.queues = (actions.foldl World.act s).queues) :
    Passive looks s t :=
  ⟨hq, ⟨[], by rw [h.messages, append_nil], rfl⟩, h.tools, by rw [h.context], h.requests,
    ⟨0, by rw [h.lookups, replicate_zero, append_nil], fun _ => rfl⟩, h.skip, h.undelivered, h.dropped, h.drainedAll,
    h.unreported⟩

def IsPassive (looks : Bool) {α : Type} (x : Run α) : Prop := ∀ s, Passive looks s (x s).2

section Rules

variable {α β : Type}

theorem IsPassive.ret (a : α) : IsPassive looks (pure a : Run α) := fun s => Passive.refl s

theorem IsPassive.get : IsPassive looks (get : Run World) := fun s => Passive.refl s

theorem IsPassive.waiting : IsPassive looks (waiting : Run α) := fun s => Passive.refl s

theorem IsPassive.bind {x : Run α} {f : α → Run β} (hx : IsPassive looks x) (hf : ∀ a, IsPassive looks (f a)) :
    IsPassive looks (x >>= f) := by
  intro s
  show Passive looks s (andThen x f s).2
  unfold andThen
  have hpassive := hx s
  generalize x s = result at hpassive ⊢
  rcases result with ⟨_ | _ | _, t⟩
  · exact hpassive.trans (hf _ t)
  · exact hpassive
  · exact hpassive

theorem IsPassive.map {x : Run α} (f : α → β) (hx : IsPassive looks x) : IsPassive looks (f <$> x) :=
  hx.bind (fun a => IsPassive.ret (f a))

theorem IsPassive.await (moment : ℕ → Moment α) : IsPassive looks (await moment) := by
  intro s
  obtain ⟨t, hk, hq, ⟨a, -, heq⟩ | ⟨-, heq⟩⟩ := await_spec moment s <;>
  · rw [heq]
    exact hk.passive ⟨_, hq⟩

theorem IsPassive.modify {f : World → World} (h : ∀ s, Passive looks s (f s)) : IsPassive looks (Prog.modify f : Run Unit) := h

end Rules

def AgentEvent.Unticketed : AgentEvent → Prop
  | .messageEnd message => message.ticket = none
  | _ => True

variable (env : Environment)

theorem reduce_passive (event : AgentEvent) (h : event.Unticketed) : Passive looks s (s.reduce event) := by
  cases event with
  | messageEnd message =>
    have hnone : message.ticket = none := h
    refine ⟨⟨[], rfl⟩, ⟨[message], rfl, ?_⟩, rfl, rfl, rfl, ⟨0, (append_nil _).symm, fun _ => rfl⟩, rfl, ?_, rfl, rfl, rfl⟩
    · simp [tickets, hnone]
    · unfold World.reduce
      simp [hnone]
  | _ => exact Passive.of_eq rfl rfl rfl rfl rfl rfl rfl rfl rfl rfl rfl

theorem emit_passive (event : AgentEvent) (h : event.Unticketed) : IsPassive looks (emit env event) :=
  (IsPassive.modify (fun s => reduce_passive s event h)).bind (fun _ => IsPassive.await env.listeners)

theorem announce_passive (messages : List AgentMessage) (h : ∀ m ∈ messages, m.ticket = none) :
    IsPassive looks (announce env messages) := by
  induction messages with
  | nil => exact IsPassive.ret _
  | cons message rest ih =>
    unfold announce
    refine (emit_passive env (.messageStart message) trivial).bind (fun _ => ?_)
    refine (emit_passive env (.messageEnd message) (h message (mem_cons_self ..))).bind (fun _ => ?_)
    exact ih (fun m hm => h m (mem_cons_of_mem _ hm))

theorem pushMessage_passive (message : AgentMessage) : IsPassive looks (pushMessage message) :=
  IsPassive.modify (fun _ => Passive.of_eq rfl rfl rfl rfl rfl rfl rfl rfl rfl rfl rfl)

theorem replaceLast_passive (message : AgentMessage) : IsPassive looks (replaceLast message) :=
  IsPassive.modify (fun _ => Passive.of_eq rfl rfl rfl rfl rfl rfl rfl rfl rfl rfl rfl)

/-! ## Responses -/

theorem readEvents_passive (addedPartial : Bool) (events : List StreamEvent) :
    IsPassive looks (readEvents env addedPartial events) := by
  induction events generalizing addedPartial with
  | nil => exact (IsPassive.await _).bind (fun _ => IsPassive.ret _)
  | cons event rest ih =>
    unfold readEvents
    refine (IsPassive.await _).bind (fun _ => ?_)
    cases event with
    | start partialMessage =>
      show IsPassive looks (pushMessage _ >>= fun _ => emit env _ >>= fun _ => readEvents env true rest)
      refine (pushMessage_passive _).bind (fun _ => ?_)
      exact (emit_passive env (.messageStart (ofAssistant partialMessage)) trivial).bind (fun _ => ih true)
    | update partialMessage =>
      cases addedPartial with
      | false => exact ih false
      | true =>
        show IsPassive looks (replaceLast _ >>= fun _ => emit env _ >>= fun _ => readEvents env true rest)
        refine (replaceLast_passive _).bind (fun _ => ?_)
        exact (emit_passive env (.messageUpdate (ofAssistant partialMessage)) trivial).bind (fun _ => ih true)
    | done => exact IsPassive.ret _

theorem settleResponse_passive (addedPartial : Bool) (message : AssistantMessage) :
    IsPassive looks (settleResponse env addedPartial message) := by
  have hend : IsPassive looks (do
      emit env (.messageEnd (ofAssistant message))
      pure message) := (emit_passive env (.messageEnd (ofAssistant message)) rfl).bind (fun _ => IsPassive.ret _)
  cases addedPartial with
  | true => exact (replaceLast_passive (ofAssistant message)).bind (fun _ => hend)
  | false =>
    refine (pushMessage_passive (ofAssistant message)).bind (fun _ => ?_)
    exact (emit_passive env (.messageStart (ofAssistant message)) trivial).bind (fun _ => hend)

/-! ## Tools -/

variable (toolCalls : List ToolCall)

theorem failToolCalls_passive : IsPassive looks (failToolCallsFromTruncatedMessage env toolCalls) := by
  induction toolCalls with
  | nil => exact IsPassive.ret _
  | cons toolCall rest ih =>
    unfold failToolCallsFromTruncatedMessage
    refine (emit_passive env (.toolExecutionStart toolCall) trivial).bind (fun _ => ?_)
    refine (emit_passive env (.toolExecutionEnd _) trivial).bind (fun _ => ?_)
    refine (announce_passive env _ ?_).bind (fun _ => ih.bind (fun _ => IsPassive.ret _))
    intro m hm
    rw [mem_singleton.mp hm]
    rfl

variable (toolCall : ToolCall)

theorem prepareToolCall_passive : IsPassive true (prepareToolCall env toolCall) := by
  unfold prepareToolCall
  refine IsPassive.bind (IsPassive.modify (fun s => ?_)) (fun _ => ?_)
  · exact ⟨⟨[], rfl⟩, ⟨[], (append_nil _).symm, rfl⟩, rfl, rfl, rfl, ⟨1, rfl, fun h => nomatch h⟩, rfl, rfl, rfl, rfl, rfl⟩
  refine IsPassive.get.bind (fun s => ?_)
  cases s.context.tools.find? (fun tool => tool.declaration.name = toolCall.name) with
  | none => exact IsPassive.ret _
  | some tool =>
    refine (IsPassive.await _).bind (fun preflight => IsPassive.get.bind (fun s => ?_))
    cases preflight with
    | failed text => exact IsPassive.ret _
    | noHook => cases s.aborted <;> exact IsPassive.ret _
    | allowed => cases s.aborted <;> exact IsPassive.ret _
    | blocked reason terminate =>
      cases s.aborted <;> exact IsPassive.ret _

theorem finalize_passive (result : ToolResult) (isError : Bool) :
    IsPassive true (finalizeExecutedToolCall env toolCall result isError) := by
  unfold finalizeExecutedToolCall
  refine (IsPassive.await _).bind (fun after => ?_)
  cases after with
  | failed text => exact IsPassive.ret _
  | override result => cases result <;> exact IsPassive.ret _

theorem proceed_passive : IsPassive true (proceed env toolCall) := by
  unfold proceed
  refine (IsPassive.await _).bind (fun progress => ?_)
  cases progress with
  | update partialResult =>
    exact (emit_passive env (.toolExecutionUpdate toolCall partialResult) trivial).bind (fun _ => IsPassive.ret _)
  | returned result isError => exact (finalize_passive env toolCall result isError).map _
  | failed text => exact (finalize_passive env toolCall _ true).map _

variable (fuel : ℕ)

theorem executePrepared_passive : IsPassive true (executePreparedToolCall env toolCall fuel) := by
  induction fuel with
  | zero => exact IsPassive.waiting
  | succ fuel ih =>
    unfold executePreparedToolCall
    refine (proceed_passive env toolCall).bind (fun finalized => ?_)
    cases finalized with
    | none => exact ih
    | some finalized => exact IsPassive.ret _

theorem sequential_passive (toolCalls : List ToolCall) :
    IsPassive true (executeToolCallsSequential env fuel toolCalls) := by
  induction toolCalls with
  | nil => exact IsPassive.ret _
  | cons toolCall rest ih =>
    have hrest : ∀ finalized, IsPassive true (do
        emit env (.toolExecutionEnd finalized)
        announce env [ofToolResult (createToolResultMessage finalized)]
        let s ← get
        if s.aborted then pure [finalized]
        else
          let others ← executeToolCallsSequential env fuel rest
          pure (finalized :: others)) := by
      intro finalized
      refine (emit_passive env (.toolExecutionEnd finalized) trivial).bind (fun _ => ?_)
      refine (announce_passive env _ ?_).bind (fun _ => IsPassive.get.bind (fun s => ?_))
      · intro m hm
        rw [mem_singleton.mp hm]
        rfl
      · cases s.aborted with
        | true => exact IsPassive.ret _
        | false => exact ih.bind (fun _ => IsPassive.ret _)
    unfold executeToolCallsSequential
    refine (emit_passive env (.toolExecutionStart toolCall) trivial).bind (fun _ => ?_)
    refine (prepareToolCall_passive env toolCall).bind (fun preparation => ?_)
    cases preparation with
    | some finalized => exact hrest finalized
    | none => exact (executePrepared_passive env toolCall fuel).bind hrest

theorem prepareToolCalls_passive : IsPassive true (prepareToolCalls env toolCalls) := by
  induction toolCalls with
  | nil => exact IsPassive.ret _
  | cons toolCall rest ih =>
    have hrest : ∀ entry, IsPassive true (do
        let s ← get
        if s.aborted then pure [entry]
        else
          let others ← prepareToolCalls env rest
          pure (entry :: others)) := by
      intro entry
      refine IsPassive.get.bind (fun s => ?_)
      cases s.aborted with
      | true => exact IsPassive.ret _
      | false => exact ih.bind (fun _ => IsPassive.ret _)
    unfold prepareToolCalls
    refine (emit_passive env (.toolExecutionStart toolCall) trivial).bind (fun _ => ?_)
    refine (prepareToolCall_passive env toolCall).bind (fun preparation => ?_)
    cases preparation with
    | none => exact hrest _
    | some finalized => exact (emit_passive env (.toolExecutionEnd finalized) trivial).bind (fun _ => hrest _)

theorem startEntries_passive (entries : List Entry) : IsPassive true (startEntries env entries) := by
  induction entries with
  | nil => exact IsPassive.ret _
  | cons entry rest ih =>
    have hrest : ∀ entry, IsPassive true (do
        let others ← startEntries env rest
        pure (entry :: others)) := fun _ => ih.bind (fun _ => IsPassive.ret _)
    unfold startEntries
    refine IsPassive.get.bind (fun s => ?_)
    cases entry with
    | finalized outcome => exact hrest _
    | running toolCall =>
      cases s.aborted with
      | true => exact (emit_passive env (.toolExecutionEnd _) trivial).bind (fun _ => hrest _)
      | false => exact hrest _

theorem settleEntries_passive (entries : List Entry) : IsPassive true (settleEntries env fuel entries) := by
  induction fuel generalizing entries with
  | zero => exact IsPassive.waiting
  | succ fuel ih =>
    unfold settleEntries
    split
    · exact IsPassive.ret _
    · refine (IsPassive.await _).bind (fun i => ?_)
      split
      · rename_i toolCall _
        refine (proceed_passive env toolCall).bind (fun finalized => ?_)
        cases finalized with
        | none => exact ih _
        | some finalized => exact (emit_passive env (.toolExecutionEnd finalized) trivial).bind (fun _ => ih _)
      · exact ih _

theorem executeToolCalls_passive (toolCalls : List ToolCall) :
    IsPassive true (executeToolCalls env fuel toolCalls) := by
  unfold executeToolCalls
  refine IsPassive.get.bind (fun s => ?_)
  simp only
  split
  · exact sequential_passive env fuel toolCalls
  · unfold executeToolCallsParallel
    refine (prepareToolCalls_passive env toolCalls).bind (fun _ => (startEntries_passive env _).bind (fun _ => ?_))
    refine (settleEntries_passive env fuel _).bind (fun _ => (announce_passive env _ ?_).bind (fun _ => IsPassive.ret _))
    intro m hm
    obtain ⟨finalized, -, rfl⟩ := mem_map.mp hm
    rfl

theorem runTools_passive (message : AssistantMessage) : IsPassive true (runTools env fuel message) := by
  unfold runTools
  split
  · exact IsPassive.ret _
  · split
    · exact (failToolCalls_passive env _).bind (fun _ => IsPassive.ret _)
    · exact (executeToolCalls_passive env fuel _).bind (fun _ => IsPassive.ret _)

theorem endRun_passive : IsPassive looks (endRun env) := by
  unfold endRun
  exact IsPassive.get.bind (fun s => emit_passive env (.agentEnd s.newMessages) trivial)

end PiAgent.Agent
