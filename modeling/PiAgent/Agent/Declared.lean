import PiAgent.Agent.Passive
import PiAgent.Agent.ToolChangesProofs

/-!
# Requests declare the tools that are executed

Before a request the changes of the tools are declared, and what is awaited between that
and the request either leaves the context alone or replaces it.
-/

namespace PiAgent.Agent

open Option List Script Script.Prog

/-! ## What is asked of the surroundings -/

def Distinct (tools : List AgentTool) : Prop := (tools.map (fun tool => tool.declaration.name)).Nodup

/-- Contexts have no two tools of one name, and what is sent has the system messages of the transcript. -/
structure Environment.Orderly (env : Environment) : Prop where
  turn : ∀ n update context, (env.prepareNextTurn n).answer = some (some update) → update.context = some context →
    Distinct context.tools
  request : ∀ n context, (env.prepareRequest n).answer = some (some context) → Distinct context.tools
  toLlm : ∀ n toLlm, (env.toLlm n).answer = some toLlm → ∀ messages : List AgentMessage,
    (toLlm messages).filterMap AgentMessage.system? = messages.filterMap AgentMessage.system?

def Request.Declared (P : Ai.JsonTexts) (request : Request) : Prop :=
  Declares P request.transcript request.context.tools ↔
    ∀ context, request.replaced = some context → Declares P context.messages context.tools

def Looked (requests : List Request) (lookup : ℕ × List AgentTool) : Prop :=
  ∃ request, lookup.1 ≠ 0 ∧ requests[lookup.1 - 1]? = some request ∧ request.context.tools = lookup.2

/-! ## The invariant -/

structure Honest (P : Ai.JsonTexts) (s : World) : Prop where
  tools : Distinct s.tools
  contextTools : Distinct s.context.tools
  requests : ∀ request ∈ s.requests, request.Declared P
  lookups : ∀ lookup ∈ s.lookups, Looked s.requests lookup

def Armed (s : World) : Prop := Looked s.requests (s.requests.length, s.context.tools)

variable {P : Ai.JsonTexts}

variable {s t : World}

theorem Honest.congr (h : Honest P s) (ht : t.tools = s.tools) (hc : t.context.tools = s.context.tools)
    (hr : t.requests = s.requests) (hl : t.lookups = s.lookups) : Honest P t := by
  refine ⟨ht ▸ h.tools, hc ▸ h.contextTools, hr ▸ h.requests, ?_⟩
  rw [hl, hr]
  exact h.lookups

theorem Honest.passive (h : Honest P s) (hp : Passive false s t) : Honest P t := by
  obtain ⟨k, hl, hk⟩ := hp.lookups
  refine h.congr hp.tools hp.contextTools hp.requests ?_
  rw [hl, hk rfl, replicate_zero, append_nil]

theorem Armed.passive {looks : Bool} (h : Honest P s ∧ Armed s) (hp : Passive looks s t) :
    Honest P t ∧ Armed t := by
  obtain ⟨k, hl, -⟩ := hp.lookups
  refine ⟨⟨hp.tools ▸ h.1.tools, hp.contextTools ▸ h.1.contextTools, hp.requests ▸ h.1.requests, ?_⟩, ?_⟩
  · intro lookup hmem
    rw [hl, mem_append] at hmem
    rw [hp.requests]
    rcases hmem with hmem | hmem
    · exact h.1.lookups lookup hmem
    · rw [eq_of_mem_replicate hmem]
      exact h.2
  · unfold Armed
    rw [hp.requests, hp.contextTools]
    exact h.2

theorem Honest.kept (h : Honest P s) (hk : Kept s t) : Honest P t :=
  h.congr hk.tools (by rw [hk.context]) hk.requests hk.lookups

theorem IsPassive.honest {α : Type} {x : Run α} (hx : IsPassive false x) : Keeps (Honest P) x :=
  Keeps.of_result (fun s hs => hs.passive (hx s))

theorem IsPassive.armed {looks : Bool} {α : Type} {x : Run α} (hx : IsPassive looks x) :
    Keeps (fun s => Honest P s ∧ Armed s) x := Keeps.of_result (fun s hs => Armed.passive hs (hx s))

theorem await_keeps {I : World → Prop} (hI : ∀ s t, I s → Kept s t → I t) {α : Type} (moment : ℕ → Moment α) :
    Triple I (await moment) (fun a t => (∃ n, (moment n).answer = some a) ∧ I t) I I := by
  intro s hs
  obtain ⟨t, hk, -, ⟨a, ha, heq⟩ | ⟨-, heq⟩⟩ := await_spec moment s
  · rw [heq]
    exact ⟨⟨_, ha⟩, hI s t hs hk⟩
  · rw [heq]
    exact hI s t hs hk

variable (env : Environment)

theorem emit_honest (event : AgentEvent) : Keeps (Honest P) (emit env event) := by
  unfold emit
  refine Triple.bind (Q := fun _ => Honest P) (Triple.modify _ (fun s hs => ?_)) (fun _ => ?_)
  · cases event <;> exact hs.congr rfl rfl rfl rfl
  · exact (await_keeps (fun s t hs hk => hs.kept hk) env.listeners).post (fun _ _ h => h.2)

theorem announce_honest (messages : List AgentMessage) : Keeps (Honest P) (announce env messages) := by
  induction messages with
  | nil => exact Triple.ret (fun s hs => hs)
  | cons message rest ih =>
    unfold announce
    exact (emit_honest env _).bind (fun _ => (emit_honest env _).bind (fun _ => ih))

theorem drain_honest (name : QueueName) : Keeps (Honest P) (drain name) := by
  unfold drain
  refine Triple.bind (Triple.get (fun s hs => hs)) (fun s => ?_)
  refine Triple.bind (Q := fun _ => Honest P) (Triple.modify _ (fun t ht => ?_)) (fun _ => Triple.ret (fun _ ht => ht))
  exact ht.congr rfl rfl rfl rfl

theorem getSteeringMessages_honest : Keeps (Honest P) getSteeringMessages := by
  unfold getSteeringMessages
  refine Triple.bind (Triple.get (fun s hs => hs)) (fun s => ?_)
  cases s.skipInitialSteeringPoll with
  | true =>
    refine Triple.bind (Q := fun _ => Honest P) (Triple.modify _ (fun t ht => ?_)) (fun _ => Triple.ret (fun _ ht => ht))
    exact ht.congr rfl rfl rfl rfl
  | false => exact drain_honest .steering

/-! ## Turns -/

theorem deliver_context (messages : List AgentMessage) (context : AgentContext) :
    Triple (fun s => Honest P s ∧ s.context = context) (deliver env messages)
      (fun _ t => Honest P t ∧ t.context = ⟨context.messages ++ messages, context.tools⟩) (Honest P) (Honest P) := by
  induction messages generalizing context with
  | nil =>
    refine Triple.ret (fun s hs => ⟨hs.1, ?_⟩)
    rw [hs.2, append_nil]
  | cons message rest ih =>
    have hemit : ∀ event, Triple (fun s => Honest P s ∧ s.context = context) (emit env event)
        (fun _ t => Honest P t ∧ t.context = context) (Honest P) (Honest P) := by
      intro event
      unfold emit
      refine Triple.bind (Q := fun _ s => Honest P s ∧ s.context = context) (Triple.modify _ (fun s hs => ?_)) (fun _ => ?_)
      · cases event <;> exact ⟨hs.1.congr rfl rfl rfl rfl, hs.2⟩
      · refine (await_keeps (I := fun s => Honest P s ∧ s.context = context) ?_ env.listeners).mono (fun _ h => h)
          (fun _ _ h => h.2) (fun _ h => h.1) (fun _ h => h.1)
        exact fun s t hs hk => ⟨hs.1.kept hk, hk.context.trans hs.2⟩
    unfold deliver
    refine (hemit _).bind (fun _ => (hemit _).bind (fun _ => ?_))
    refine Triple.bind (Triple.modify (Q := fun _ t => Honest P t ∧
      t.context = ⟨context.messages ++ [message], context.tools⟩) _ (fun s hs => ?_)) (fun _ => ?_)
    · refine ⟨hs.1.congr rfl rfl rfl rfl, ?_⟩
      show AgentContext.mk _ _ = _
      rw [hs.2]
    · refine (ih ⟨context.messages ++ [message], context.tools⟩).post (fun _ t ht => ⟨ht.1, ht.2.trans ?_⟩)
      rw [append_assoc]
      rfl

theorem prepareTurn_honest (h : env.Orderly) (l : LoopState) : Keeps (Honest P) (prepareTurn env l) := by
  unfold prepareTurn
  split
  · refine (await_keeps (fun s t hs hk => hs.kept hk) env.prepareNextTurn).bind (fun snapshot => ?_)
    refine Triple.bind (Q := fun _ => Honest P) (Triple.modify _ (fun s hs => ?_)) (fun _ => ?_)
    · obtain ⟨⟨n, hn⟩, hs⟩ := hs
      refine ⟨hs.tools, ?_, hs.requests, hs.lookups⟩
      rcases snapshot with _ | ⟨_ | context, messages⟩
      · exact hs.contextTools
      · exact hs.contextTools
      · exact h.turn n _ context hn rfl
    · have hend : ∀ pendingMessages, Keeps (Honest P) (do
          emit env .turnStart
          pure (((snapshot.map TurnUpdate.messages).getD []).map unqueued ++ pendingMessages)) :=
        fun _ => (emit_honest env .turnStart).bind (fun _ => Triple.ret (fun s hs => hs))
      simp only
      split
      · exact getSteeringMessages_honest.bind hend
      · exact hend _
  · exact Triple.ret (fun s hs => hs)

structure Ready (P : Ai.JsonTexts) (replaced : Option AgentContext) (s : World) : Prop where
  honest : Honest P s
  declares : replaced = none → Declares P s.context.messages s.context.tools
  replaces : ∀ context, replaced = some context → s.context = context

theorem Declares.congr {messages messages' : List AgentMessage} {tools : List AgentTool}
    (h : messages'.filterMap AgentMessage.system? = messages.filterMap AgentMessage.system?) :
    Declares P messages' tools ↔ Declares P messages tools := by
  unfold Declares getCurrentTools
  rw [h]

theorem streamAssistantResponse_armed (h : env.Orderly) (replaced : Option AgentContext) :
    Triple (Ready P replaced) (streamAssistantResponse env replaced) (fun _ s => Honest P s ∧ Armed s) (Honest P)
      (Honest P) := by
  have hrest : ∀ x : Run AssistantMessage, IsPassive false x →
      Triple (fun s => Honest P s ∧ Armed s) x (fun _ s => Honest P s ∧ Armed s) (Honest P) (Honest P) :=
    fun x hx => (IsPassive.armed hx).mono (fun _ h => h) (fun _ _ h => h) (fun _ h => h.1) (fun _ h => h.1)
  unfold streamAssistantResponse
  have hready : ∀ s t, Ready P replaced s → Kept s t → Ready P replaced t := by
    intro s t hs hk
    refine ⟨hs.honest.kept hk, ?_, ?_⟩ <;> rw [hk.context]
    · exact hs.declares
    · exact hs.replaces
  refine Triple.bind ((await_keeps hready env.toLlm).mono (fun _ h => h) (fun _ _ h => h) (fun _ h => h.honest)
    (fun _ h => h.honest)) (fun toLlm => ?_)
  refine Triple.bind (Q := fun _ s => Honest P s ∧ Armed s) (Triple.modify _ (fun s hs => ?_)) (fun _ => ?_)
  · obtain ⟨⟨n, hn⟩, hs⟩ := hs
    refine ⟨⟨hs.honest.tools, hs.honest.contextTools, ?_, ?_⟩, ?_⟩
    · intro request hmem
      rcases mem_append.mp hmem with hmem | hmem
      · exact hs.honest.requests request hmem
      · rw [mem_singleton.mp hmem]
        unfold Request.Declared
        rw [Declares.congr (h.toLlm n toLlm hn _)]
        cases hreplaced : replaced with
        | none => exact ⟨(fun _ _ heq => nomatch heq), fun _ => hs.declares hreplaced⟩
        | some context =>
          rw [hs.replaces context hreplaced]
          exact ⟨(fun hd other heq => some.inj heq ▸ hd), fun hd => hd context rfl⟩
    · intro lookup hmem
      obtain ⟨request, hne, hget, htools⟩ := hs.honest.lookups lookup hmem
      refine ⟨request, hne, ?_, htools⟩
      obtain ⟨hlt, -⟩ := List.getElem?_eq_some_iff.mp hget
      rwa [getElem?_append_left hlt]
    · refine ⟨⟨toLlm s.context.messages, s.context, replaced⟩, ?_, ?_, rfl⟩
      · simp
      · simp
  · have hstream : IsPassive false (await env.streamFunction) := IsPassive.await env.streamFunction
    refine (hstream.armed.mono (fun _ h => h) (fun _ _ h => h) (fun _ h => h.1) (fun _ h => h.1)).bind (fun response => ?_)
    exact hrest _ ((readEvents_passive env false response.events).bind
      (fun addedPartial => settleResponse_passive env addedPartial response.result))

def Settled (P : Ai.JsonTexts) (s : World) : Prop := Honest P s ∧ Declares P s.context.messages s.context.tools

theorem Settled.kept (h : Settled P s) (hk : Kept s t) : Settled P t := by
  refine ⟨h.1.kept hk, ?_⟩
  rw [hk.context]
  exact h.2

theorem installContext_ready (h : env.Orderly) (requestUpdate : Option AgentContext) :
    Triple (fun s => (∃ n, (env.prepareRequest n).answer = some requestUpdate) ∧ Settled P s) (installContext requestUpdate)
      (fun _ => Ready P requestUpdate) (Honest P) (Honest P) := by
  refine Triple.modify _ (fun s hs => ?_)
  obtain ⟨⟨n, hn⟩, hs, hd⟩ := hs
  cases requestUpdate with
  | none => exact ⟨hs.congr rfl rfl rfl rfl, fun _ => hd, fun _ heq => nomatch heq⟩
  | some context =>
    refine ⟨⟨hs.tools, h.request n context hn, hs.requests, hs.lookups⟩, (fun heq => nomatch heq), ?_⟩
    intro other heq
    exact some.inj heq

theorem endRun_honest : Keeps (Honest P) (endRun env) := (endRun_passive env).honest

theorem turn_honest (h : env.Orderly) (fuel : ℕ) (l : LoopState) : Keeps (Honest env.texts) (turn env fuel l) := by
  have hawait : ∀ {α : Type} (moment : ℕ → Moment α), Keeps (Honest env.texts) (await moment) :=
    fun moment => (await_keeps (fun s t hs hk => hs.kept hk) moment).post (fun _ _ h => h.2)
  unfold turn
  refine (prepareTurn_honest env h l).bind (fun messages => ?_)
  refine Triple.bind (Triple.get (Q := fun s t => Honest env.texts s ∧ t = s) (fun s hs => ⟨hs, rfl⟩)) (fun s => ?_)
  refine Triple.bind (Q := fun _ => Settled env.texts) ?_ (fun _ => ?_)
  · rintro t ⟨hs, rfl⟩
    refine (deliver_context env _ t.context).post (fun _ u hu => ⟨hu.1, ?_⟩) t ⟨hs, rfl⟩
    rw [hu.2]
    exact declareToolChanges_declares env.texts _ t.context messages hs.contextTools
  refine Triple.bind ((await_keeps (fun s t hs hk => hs.kept hk) env.prepareRequest).mono (fun _ h => h) (fun _ _ h => h)
    (fun _ h => h.1) (fun _ h => h.1)) (fun requestUpdate => ?_)
  refine (installContext_ready env h requestUpdate).bind (fun _ => ?_)
  refine (streamAssistantResponse_armed env h requestUpdate).bind (fun message => ?_)
  refine Triple.bind (Q := fun _ s => Honest env.texts s ∧ Armed s) (Triple.modify _ (fun s hs => ?_)) (fun _ => ?_)
  · exact ⟨hs.1.congr rfl rfl rfl rfl, hs.2⟩
  simp only
  split
  · refine Triple.pre ?_ (fun s hs => hs.1)
    refine (hawait _).bind (fun _ => (emit_honest env _).bind (fun _ => ?_))
    exact (endRun_honest env).bind (fun _ => Triple.ret (fun s hs => hs))
  · refine ((runTools_passive env fuel message).armed.mono (fun _ h => h) (fun _ _ h => h.1) (fun _ h => h.1)
      (fun _ h => h.1)).bind (fun results => ?_)
    rcases results with ⟨finalizedCalls, terminate⟩
    refine Triple.bind (Q := fun _ => Honest env.texts) (Triple.modify _ (fun s hs => ?_)) (fun _ => ?_)
    · exact hs.congr rfl rfl rfl rfl
    refine (hawait _).bind (fun decision => (emit_honest env _).bind (fun _ => ?_))
    split
    · exact (endRun_honest env).bind (fun _ => Triple.ret (fun s hs => hs))
    · exact getSteeringMessages_honest.bind (fun _ => Triple.ret (fun s hs => hs))

/-! ## Runs -/

section

variable (h : env.Orderly) (fuel : ℕ)
include h

theorem loop_honest (l : LoopState) : Keeps (Honest env.texts) (loop env fuel l) := by
  induction fuel generalizing l with
  | zero => exact Triple.waiting (fun s hs => hs)
  | succ fuel ih =>
    unfold loop
    split
    · refine (turn_honest env h fuel l).bind (fun next => ?_)
      cases next with
      | none => exact Triple.ret (fun s hs => hs)
      | some l => exact ih l
    · refine (drain_honest .followUp).bind (fun followUpMessages => ?_)
      split
      · exact ih _
      · split
        · exact ih _
        · exact endRun_honest env

theorem runLoop_honest : Keeps (Honest env.texts) (runLoop env fuel) := by
  unfold runLoop
  exact getSteeringMessages_honest.bind (fun _ => loop_honest env h fuel _)

theorem runAgentLoop_honest (prompts : List AgentMessage) :
    Keeps (Honest env.texts) (runAgentLoop env fuel prompts) := by
  unfold runAgentLoop
  refine Triple.bind (Triple.get (fun s hs => hs)) (fun s => ?_)
  refine Triple.bind (Q := fun _ => Honest env.texts) (Triple.modify _ (fun t ht => ?_)) (fun _ => ?_)
  · exact ht.congr rfl rfl rfl rfl
  refine (emit_honest env .agentStart).bind (fun _ => (emit_honest env .turnStart).bind (fun _ => ?_))
  exact (announce_honest env _).bind (fun _ => runLoop_honest env h fuel)

theorem runAgentLoopContinue_honest : Keeps (Honest env.texts) (runAgentLoopContinue env fuel) := by
  unfold runAgentLoopContinue
  refine Triple.bind (Triple.get (fun s hs => hs)) (fun s => ?_)
  split
  · exact Triple.throwing (fun s hs => hs)
  · refine Triple.bind (Q := fun _ => Honest env.texts) (Triple.modify _ (fun t ht => ?_)) (fun _ => ?_)
    · exact ht.congr rfl rfl rfl rfl
    exact (emit_honest env .agentStart).bind (fun _ => (emit_honest env .turnStart).bind (fun _ => runLoop_honest env h fuel))

end

structure Resting (P : Ai.JsonTexts) (s : World) : Prop where
  tools : Distinct s.tools
  requests : ∀ request ∈ s.requests, request.Declared P
  lookups : ∀ lookup ∈ s.lookups, Looked s.requests lookup

theorem Honest.resting {s : World} (h : Honest P s) : Resting P s := ⟨h.tools, h.requests, h.lookups⟩

theorem handleRunFailure_honest : Keeps (Honest P) (handleRunFailure env) := by
  unfold handleRunFailure
  refine Triple.bind (Triple.get (fun s hs => hs)) (fun s => ?_)
  refine Triple.bind (Q := fun _ => Honest P) (Triple.modify _ (fun t ht => ?_)) (fun _ => ?_)
  · exact ht.congr rfl rfl rfl rfl
  · exact (announce_honest env _).bind (fun _ => (emit_honest env _).bind (fun _ => emit_honest env _))

theorem runWithLifecycle_resting (skip : Bool) (executor : Run Unit) (h : Keeps (Honest P) executor) :
    Keeps (Resting P) (runWithLifecycle env skip executor) := by
  unfold runWithLifecycle
  refine Triple.bind (Q := fun _ => Honest P) (Triple.modify _ (fun s hs => ?_)) (fun _ => ?_)
  · exact ⟨hs.tools, hs.tools, hs.requests, hs.lookups⟩
  have hrun : Keeps (Honest P) (catching executor (catching (handleRunFailure env) (do
      modify (fun s => { s with unreported := true })
      throwing))) := by
    refine Triple.catching h (Triple.catching (handleRunFailure_honest env) ?_)
    refine Triple.bind (Q := fun _ => Honest P) (Triple.modify _ (fun s hs => ?_)) (fun _ => Triple.throwing (fun s hs => hs))
    exact hs.congr rfl rfl rfl rfl
  refine Triple.finishing (hrun.mono (fun _ h => h) (fun _ s hs => ?_) (fun s hs => ?_) (fun s hs => hs.resting))
  · exact ⟨hs.tools, hs.requests, hs.lookups⟩
  · exact ⟨hs.tools, hs.requests, hs.lookups⟩

theorem drain_resting (name : QueueName) : Keeps (Resting P) (drain name) := by
  unfold drain
  refine Triple.bind (Triple.get (fun s hs => hs)) (fun s => ?_)
  refine Triple.bind (Q := fun _ => Resting P) (Triple.modify _ (fun t ht => ?_)) (fun _ => Triple.ret (fun _ ht => ht))
  exact ⟨ht.tools, ht.requests, ht.lookups⟩

theorem perform_resting (h : env.Orderly) (fuel : ℕ) (command : Command) :
    Keeps (Resting env.texts) (perform env fuel command) := by
  have hprompt : ∀ messages skip, Keeps (Resting env.texts) (runPromptMessages env fuel messages skip) :=
    fun messages skip => runWithLifecycle_resting env skip _ (runAgentLoop_honest env h fuel messages)
  cases command with
  | act action =>
    refine Triple.modify _ (fun s hs => ?_)
    have hk := act_kept s action
    refine ⟨hk.tools ▸ hs.tools, hk.requests ▸ hs.requests, ?_⟩
    rw [hk.requests, hk.lookups]
    exact hs.lookups
  | prompt bodies => exact hprompt _ false
  | «continue» =>
    unfold perform continueRun
    refine Triple.bind (Triple.get (fun s hs => hs)) (fun s => ?_)
    split
    · exact Triple.throwing (fun s hs => hs)
    · split
      · exact Triple.throwing (fun s hs => hs)
      · split
        · refine (drain_resting .steering).bind (fun queuedSteering => ?_)
          split
          · exact hprompt _ true
          · refine (drain_resting .followUp).bind (fun queuedFollowUps => ?_)
            split
            · exact hprompt _ false
            · exact Triple.throwing (fun s hs => hs)
        · exact runWithLifecycle_resting env false _ (runAgentLoopContinue_honest env h fuel)

theorem performAll_resting (h : env.Orderly) (fuel : ℕ) (commands : List Command) :
    Keeps (Resting env.texts) (performAll env fuel commands) := by
  induction commands with
  | nil => exact Triple.ret (fun s hs => hs)
  | cons command rest ih =>
    unfold performAll
    refine Triple.bind (Q := fun _ => Resting env.texts) ?_ (fun _ => ih)
    exact Triple.catching (perform_resting env h fuel command) (Triple.ret (fun s hs => hs))

/-- At every request the transcript declares the tools that are executed, each name once, unless `prepareRequest` has
put a context in place that does not declare its own; and where nothing changed no message is added. -/
theorem requests_declare (env : Environment) (h : env.Orderly) (fuel : ℕ) (commands : List Command) (s : World)
    (hs : Distinct s.tools) (hr : s.requests = []) (hl : s.lookups = []) :
    (∀ request ∈ ((performAll env fuel commands) s).2.requests,
      (Declares env.texts request.transcript request.context.tools ↔
        ∀ context, request.replaced = some context → Declares env.texts context.messages context.tools)) ∧
    (∀ lookup ∈ ((performAll env fuel commands) s).2.lookups,
      ∃ request, ((performAll env fuel commands) s).2.requests[lookup.1 - 1]? = some request ∧
        lookup.1 ≠ 0 ∧ request.context.tools = lookup.2) ∧
    ∀ now context pendingMessages, Distinct context.tools → Declares env.texts context.messages context.tools →
      (declareToolChanges env.texts now context pendingMessages).length = pendingMessages.length ∧
        ((∀ m ∈ pendingMessages, m.system? = none) →
          declareToolChanges env.texts now context pendingMessages = pendingMessages) := by
  have hstart : Resting env.texts s := by
    refine ⟨hs, ?_, ?_⟩
    · rw [hr]
      exact fun request hmem => nomatch hmem
    · rw [hl]
      exact fun lookup hmem => nomatch hmem
  have hend := (performAll_resting env h fuel commands).result s hstart
  refine ⟨hend.requests, ?_, ?_⟩
  · intro lookup hmem
    obtain ⟨request, hne, hget, htools⟩ := hend.lookups lookup hmem
    exact ⟨request, hget, hne, htools⟩
  · intro now context pendingMessages hn hd
    exact ⟨declareToolChanges_length env.texts now context pendingMessages hn hd,
      declareToolChanges_same env.texts now context pendingMessages hn hd⟩

/-! ## A request that declares nothing -/

def idle {α : Type} (answer : α) : ℕ → Moment α := fun _ => ⟨[], some answer⟩

def plainAnswer : AssistantMessage := ⟨[], .stop, none, .obj []⟩

def quiet (replaced : Option AgentContext) : Environment :=
  { texts := ⟨fun _ => [], fun _ => none, fun _ => none⟩, now := fun _ => 0, toolExecution := .parallel
    failure := fun _ _ => plainAnswer, listeners := idle (), prepareNextTurn := idle none
    prepareRequest := idle replaced, toLlm := idle (fun messages => messages)
    streamFunction := idle ⟨[], plainAnswer⟩, next := idle (), beforeToolCall := idle .noHook, schedule := idle 0
    progress := idle (.failed []), afterToolCall := idle (.override none), finishTurn := idle none }

theorem quiet_orderly (replaced : Option AgentContext) (h : ∀ context, replaced = some context → Distinct context.tools) :
    (quiet replaced).Orderly := by
  refine ⟨?_, ?_, ?_⟩
  · intro n update context heq _
    cases heq
  · intro n context heq
    exact h context (some.inj heq)
  · intro n toLlm heq messages
    cases heq
    rfl

def readTool : AgentTool := ⟨⟨js "read", [], .obj [], none⟩, none⟩

def chatting : World := newAgent [] [readTool] (fun _ => .oneAtATime)

/-- A context with the same tools and no messages is given for the first request. -/
theorem request_undeclared :
    (quiet (some ⟨[], [readTool]⟩)).Orderly ∧ Distinct chatting.tools ∧ chatting.requests = [] ∧
    ∃ request ∈ ((performAll (quiet (some ⟨[], [readTool]⟩)) 3 [.prompt [.other (.obj [])]]) chatting).2.requests,
      ¬ Declares (quiet (some ⟨[], [readTool]⟩)).texts request.transcript request.context.tools := by
  have hrequests : ((performAll (quiet (some ⟨[], [readTool]⟩)) 3 [.prompt [.other (.obj [])]]) chatting).2.requests =
      [⟨[], ⟨[], [readTool]⟩, some ⟨[], [readTool]⟩⟩] := rfl
  refine ⟨quiet_orderly _ ?_, ?_, rfl, ⟨[], ⟨[], [readTool]⟩, some ⟨[], [readTool]⟩⟩, ?_, ?_⟩
  · intro context heq
    cases heq
    simp [Distinct]
  · simp [Distinct, chatting, newAgent]
  · rw [hrequests]
    exact mem_singleton.mpr rfl
  · intro hdeclares
    exact absurd hdeclares.length_eq (by decide)

/-- A context whose messages declare its tools. -/
def readContext : AgentContext := ⟨[⟨.system ⟨none, [], [readTool.declaration], [], 0⟩, none⟩], [readTool]⟩

/-- It is given for both requests. -/
theorem requests_declare_read :
    let requests := ((performAll (quiet (some readContext)) 3 [.prompt [.other (.obj [])], .prompt [.other (.obj [])]])
      chatting).2.requests
    requests.map Request.replaced = [some readContext, some readContext] ∧
      ∀ request ∈ requests, Declares (quiet (some readContext)).texts request.transcript request.context.tools := by
  have htools : Distinct chatting.tools := by simp [Distinct, chatting, newAgent]
  have horderly : (quiet (some readContext)).Orderly := by
    refine quiet_orderly _ (fun context heq => ?_)
    obtain rfl := some.inj heq
    simp [Distinct, readContext]
  obtain ⟨hdeclares, -⟩ := requests_declare (quiet (some readContext)) horderly 3
    [.prompt [.other (.obj [])], .prompt [.other (.obj [])]] chatting htools rfl rfl
  have hreplaced : ((performAll (quiet (some readContext)) 3 [.prompt [.other (.obj [])], .prompt [.other (.obj [])]])
      chatting).2.requests.map Request.replaced = [some readContext, some readContext] := rfl
  refine ⟨hreplaced, fun request hmem => (hdeclares request hmem).mpr (fun context heq => ?_)⟩
  have hcontext := mem_map_of_mem (f := Request.replaced) hmem
  rw [hreplaced, heq] at hcontext
  obtain rfl : context = readContext := by simpa using hcontext
  exact .refl _

end PiAgent.Agent
