import PiAgent.Ai.TransformMessages

/-! # Transcripts for a provider are well paired -/

namespace PiAgent.Ai.Transform

open List

/-! ## Images -/

section Images

variable (placeholder : JsString) (content : List ContentBlock) (previous : Bool)

theorem replaceImages_imageless : ∀ block ∈ replaceImagesFrom placeholder previous content, block.isImage = false := by
  induction content generalizing previous with
  | nil => simp [replaceImagesFrom]
  | cons block content ih =>
    cases block with
    | image rest =>
      intro shown hmem
      rcases mem_append.mp hmem with hmem | hmem
      · split at hmem
        · cases hmem
        · rw [mem_singleton.mp hmem]
          rfl
      · exact ih _ shown hmem
    | text text rest =>
      intro shown hmem
      rcases mem_cons.mp hmem with rfl | hmem
      · rfl
      · exact ih _ shown hmem

theorem replaceImages_kept : (replaceImagesFrom placeholder previous content).filter (ContentBlock.saysOther placeholder) =
    content.filter (ContentBlock.saysOther placeholder) := by
  induction content generalizing previous with
  | nil => rfl
  | cons block content ih =>
    cases block with
    | image rest =>
      rw [filter_cons_of_neg (by simp [ContentBlock.saysOther]), ← ih true, replaceImagesFrom, filter_append]
      split
      · rfl
      · rw [filter_cons_of_neg (by simp [ContentBlock.saysOther])]
        rfl
    | text text rest =>
      rw [replaceImagesFrom, filter_cons, filter_cons, ih]

/-- A run of images is told of by one placeholder, before it or in its place. -/
theorem replaceImages_told (h : ∃ block ∈ content, block.isImage = true) :
    previous = true ∨ ∃ rest, .text placeholder rest ∈ replaceImagesFrom placeholder previous content := by
  induction content generalizing previous with
  | nil =>
    obtain ⟨block, hmem, -⟩ := h
    cases hmem
  | cons block content ih =>
    cases block with
    | image rest =>
      cases previous with
      | true => exact .inl rfl
      | false => exact .inr ⟨.obj [], mem_cons_self⟩
    | text text rest =>
      obtain ⟨image, hmem, himage⟩ := h
      rcases mem_cons.mp hmem with rfl | hmem
      · cases himage
      · rcases ih (decide (text = placeholder)) ⟨image, hmem, himage⟩ with htext | ⟨other, hother⟩
        · exact .inr ⟨rest, by rw [of_decide_eq_true htext]; exact mem_cons_self⟩
        · exact .inr ⟨other, mem_cons_of_mem _ hother⟩

theorem replaceImages_same (h : ∀ block ∈ content, block.isImage = false) :
    replaceImagesFrom placeholder previous content = content := by
  induction content generalizing previous with
  | nil => rfl
  | cons block content ih =>
    cases block with
    | image rest => cases h _ mem_cons_self
    | text text rest => exact congrArg _ (ih _ fun other hmem => h other (mem_cons_of_mem _ hmem))

theorem replaceImages_without : WithoutImages placeholder content (replaceImagesWithPlaceholder content placeholder) where
  imageless := replaceImages_imageless placeholder content false
  kept := replaceImages_kept placeholder content false
  told := fun block hmem himage =>
    (replaceImages_told placeholder content false ⟨block, hmem, himage⟩).resolve_left Bool.false_ne_true
  same := replaceImages_same placeholder content false

end Images

/-! ## Content -/

section Content

variable (target : Model)

/-- A message with its content there, and without images where the target does not accept them. -/
def prepare (message : Message) : Message :=
  if target.acceptsImages then normalizeContent message else downgradeMessage (normalizeContent message)

theorem prepare_all (messages : List Message) :
    downgradeUnsupportedImages target (messages.map normalizeContent) = messages.map (prepare target) := by
  unfold downgradeUnsupportedImages prepare
  split
  · rfl
  · rw [map_map]
    rfl

theorem prepare_system (message : SystemMessage) : prepare target (.system message) = .system message.sent := by
  unfold prepare
  split <;> rfl

theorem prepare_user (message : UserMessage) :
    ∃ sent, prepare target (.user message) = .user sent ∧ SentUser target message sent := by
  obtain ⟨content, rest⟩ := message
  unfold prepare
  split
  · rename_i himages
    match content with
    | none => exact ⟨_, rfl, .missing rest⟩
    | some (.text text) => exact ⟨_, rfl, .text text rest⟩
    | some (.blocks blocks) => exact ⟨_, rfl, .blocks blocks blocks rest (by rw [Shows, if_pos himages])⟩
  · rename_i himages
    match content with
    | none => exact ⟨_, rfl, .missing rest⟩
    | some (.text text) => exact ⟨_, rfl, .text text rest⟩
    | some (.blocks blocks) =>
      exact ⟨_, rfl, .blocks blocks _ rest (by rw [Shows, if_neg himages]; exact replaceImages_without _ blocks)⟩

theorem prepare_toolResult (message : ToolResultMessage) :
    ∃ shown, prepare target (.toolResult message) = .toolResult { message with content := some shown } ∧
      Shows target nonVisionToolImagePlaceholder (message.content.getD []) shown := by
  unfold prepare Shows
  split
  · exact ⟨_, rfl, rfl⟩
  · exact ⟨_, rfl, replaceImages_without _ _⟩

def withContent (message : AssistantMessage) : AssistantMessage := { message with content := some (message.content.getD []) }

theorem prepare_assistant (message : AssistantMessage) :
    prepare target (.assistant message) = .assistant (withContent message) := by
  unfold prepare
  split <;> rfl

theorem withContent_eq (message : AssistantMessage) (h : message.toolCalls ≠ []) : withContent message = message := by
  obtain ⟨content, api, provider, model, stopReason, rest⟩ := message
  cases content with
  | none => exact absurd rfl h
  | some content => rfl

end Content

/-! ## The first pass -/

section FirstPass

variable (target : Model) (normalizeToolCallId : Option (JsString → AssistantMessage → JsString))

variable (source : AssistantMessage)

theorem said_transformBlock (block : Block) :
    said (transformBlock target normalizeToolCallId source block) = said [block] := by
  unfold transformBlock
  cases block with
  | text text rest =>
    dsimp only
    split <;> rfl
  | toolCall call => rfl
  | thinking thinking thinkingSignature redacted rest =>
    dsimp only
    cases redacted with
    | true =>
      rw [if_pos rfl]
      split <;> simp [said]
    | false =>
      rw [if_neg Bool.false_ne_true]
      cases hblank : thinking.all isWhitespace with
      | true =>
        rw [if_pos rfl]
        split <;> simp_all [said]
      | false =>
        rw [if_neg Bool.false_ne_true]
        split
        · rfl
        · split <;> simp_all [said]

theorem callsOf_transformBlock (block : Block) :
    callsOf (transformBlock target normalizeToolCallId source block) =
      (callsOf [block]).map (transformToolCall target normalizeToolCallId source) := by
  unfold transformBlock
  cases block with
  | text text rest => dsimp only; split <;> rfl
  | thinking thinking thinkingSignature redacted rest =>
    dsimp only
    repeat' split
    all_goals rfl
  | toolCall call => rfl

theorem flatMap_transformBlock (content : List Block) :
    said (content.flatMap (transformBlock target normalizeToolCallId source)) = said content ∧
      callsOf (content.flatMap (transformBlock target normalizeToolCallId source)) =
        (callsOf content).map (transformToolCall target normalizeToolCallId source) := by
  induction content with
  | nil => exact ⟨rfl, rfl⟩
  | cons block content ih =>
    have hsaid : ∀ a b, said (a ++ b) = said a ++ said b := fun a b => flatMap_append
    have hcalls : ∀ a b, callsOf (a ++ b) = callsOf a ++ callsOf b := fun a b => filterMap_append
    rw [flatMap_cons, hsaid, hcalls, said_transformBlock, callsOf_transformBlock, ih.1, ih.2, ← map_append,
      ← hsaid, ← hcalls]
    exact ⟨rfl, rfl⟩

theorem sentAssistant (message : AssistantMessage) : SentAssistant target normalizeToolCallId message
    (transformAssistant target normalizeToolCallId (withContent message)) where
  rest := rfl
  speech := (flatMap_transformBlock target normalizeToolCallId (withContent message) (message.content.getD [])).1
  calls := by
    have hcalls := (flatMap_transformBlock target normalizeToolCallId (withContent message) (message.content.getD [])).2
    by_cases hnone : message.toolCalls = []
    · rw [hnone, map_nil]
      exact hcalls.trans (congrArg _ hnone)
    · rw [withContent_eq message hnone] at hcalls ⊢
      exact hcalls

variable {target normalizeToolCallId}

theorem SentAssistant.callIds {message sent : AssistantMessage}
    (h : SentAssistant target normalizeToolCallId message sent) :
    sent.callIds = message.callIds.map (outputId target normalizeToolCallId message) := by
  unfold AssistantMessage.callIds
  rw [h.calls, map_map, map_map]
  rfl

theorem get?_addRenamings (map : IdMap) (source : AssistantMessage) (id : JsString) :
    Assoc.get? (addRenamings target normalizeToolCallId map source) id =
      if id ∈ source.callIds ∧ outputId target normalizeToolCallId source id ≠ id then
        some (outputId target normalizeToolCallId source id)
      else Assoc.get? map id := by
  unfold addRenamings AssistantMessage.callIds
  generalize source.toolCalls = calls
  induction calls generalizing map with
  | nil => simp
  | cons call calls ih =>
    rw [foldl_cons, ih]
    by_cases hsame : outputId target normalizeToolCallId source call.id = call.id
    · have hcall : id = call.id → outputId target normalizeToolCallId source id = id := by
        rintro rfl
        exact hsame
      rw [if_pos hsame]
      refine if_congr ?_ rfl rfl
      simp only [map_cons, mem_cons]
      exact ⟨fun h => ⟨.inr h.1, h.2⟩, fun h => ⟨h.1.resolve_left fun heq => h.2 (hcall heq), h.2⟩⟩
    · rw [if_neg hsame, Assoc.get?_set]
      by_cases hid : id = call.id
      · subst hid
        simp [hsame]
      · simp [hid, Ne.symm hid]

/-- Every renaming in the map is that of a call of an earlier message. -/
def Recorded (target : Model) (normalizeToolCallId : Option (JsString → AssistantMessage → JsString))
    (earlier : List AssistantMessage) (map : IdMap) : Prop :=
  ∀ id renamed, Assoc.get? map id = some renamed → ∃ other ∈ earlier, id ∈ other.callIds ∧
    outputId target normalizeToolCallId other id = renamed ∧ renamed ≠ id

theorem addRenamings_withContent (map : IdMap) (source : AssistantMessage) :
    addRenamings target normalizeToolCallId map (withContent source) = addRenamings target normalizeToolCallId map source := by
  by_cases h : source.toolCalls = []
  · unfold addRenamings
    rw [show (withContent source).toolCalls = [] from h, h]
    rfl
  · rw [withContent_eq source h]

variable {earlier : List AssistantMessage} {map : IdMap}

theorem Recorded.next (h : Recorded target normalizeToolCallId earlier map)
    (source : AssistantMessage) : Recorded target normalizeToolCallId (source :: earlier)
      (addRenamings target normalizeToolCallId map (withContent source)) := by
  intro id renamed hget
  rw [addRenamings_withContent, get?_addRenamings] at hget
  split at hget
  · rename_i hcalled
    cases hget
    exact ⟨source, mem_cons_self, hcalled.1, rfl, hcalled.2⟩
  · obtain ⟨other, hmem, hother⟩ := h id renamed hget
    exact ⟨other, mem_cons_of_mem _ hmem, hother⟩

theorem mappedId_sent (h : Recorded target normalizeToolCallId earlier map) (source : AssistantMessage) (id : JsString)
    (hid : id ∈ source.callIds) (halike : SentAlike target normalizeToolCallId earlier source id) :
    mappedId (addRenamings target normalizeToolCallId map (withContent source)) id =
      outputId target normalizeToolCallId source id := by
  unfold mappedId SentAlike at *
  rw [addRenamings_withContent, get?_addRenamings]
  split at halike
  · rename_i hsame
    rw [if_neg (fun hrenamed => hrenamed.2 hsame)]
    -- the map has nothing for an ID that no earlier message renamed
    cases hget : Assoc.get? map id with
    | none => exact hsame.symm
    | some renamed =>
      obtain ⟨other, hmem, hcalled, hrenamed, hne⟩ := h id renamed hget
      exact absurd (hrenamed.symm.trans (halike other hmem hcalled)) hne
  · rename_i hrenamed
    rw [if_pos ⟨hid, hrenamed⟩]
    exact if_neg (by simpa using halike)

end FirstPass

/-! ## The messages of a turn -/

/-- The IDs of the results in a turn. -/
def resultIds (between : List Aside) : List JsString := (resultsOf between).map ToolResultMessage.toolCallId

section Between

variable {target : Model} {normalizeToolCallId : Option (JsString → AssistantMessage → JsString)}
  {between : List Aside} {rest : List Message} {calls answered : List JsString}

theorem paired_between (h : Paired calls answered (between.map Aside.message ++ rest)) :
    (∀ id ∈ resultIds between, id ∈ calls ∧ id ∉ answered) ∧ (resultIds between).Nodup ∧
      Paired calls ((resultIds between).reverse ++ answered) rest := by
  induction between generalizing answered with
  | nil => exact ⟨fun _ hid => absurd hid not_mem_nil, nodup_nil, h⟩
  | cons aside between ih =>
    cases aside with
    | system message => exact ih h
    | toolResult message =>
      obtain ⟨hcalled, hfresh, h⟩ := h
      obtain ⟨hids, hnodup, hrest⟩ := ih h
      refine ⟨fun id hid => ?_, nodup_cons.mpr ⟨fun hmem => ?_, hnodup⟩, ?_⟩
      · rcases mem_cons.mp hid with rfl | hid
        · exact ⟨hcalled, hfresh⟩
        · exact ⟨(hids id hid).1, fun hmem => (hids id hid).2 (mem_cons_of_mem _ hmem)⟩
      · exact (hids _ hmem).2 mem_cons_self
      · rw [show resultIds (.toolResult message :: between) = message.toolCallId :: resultIds between from rfl]
        simpa using hrest

theorem distinct_between (h : Distinct calls answered (between.map Aside.message ++ rest)) :
    Distinct calls ((resultIds between).reverse ++ answered) rest := by
  induction between generalizing answered with
  | nil => exact h
  | cons aside between ih =>
    cases aside with
    | system message => exact ih h
    | toolResult message =>
      rw [show resultIds (.toolResult message :: between) = message.toolCallId :: resultIds between from rfl]
      simpa using ih h

theorem namedAlike_between {earlier : List AssistantMessage} {source : AssistantMessage}
    (h : NamedAlike target normalizeToolCallId earlier (some source) (between.map Aside.message ++ rest)) :
    (∀ id ∈ resultIds between, SentAlike target normalizeToolCallId earlier source id) ∧
      NamedAlike target normalizeToolCallId earlier (some source) rest := by
  induction between with
  | nil => exact ⟨fun _ hid => absurd hid not_mem_nil, h⟩
  | cons aside between ih =>
    cases aside with
    | system message => exact ih h
    | toolResult message => exact ⟨forall_mem_cons.mpr ⟨h.1 source mem_cons_self, (ih h.2).1⟩, (ih h.2).2⟩

/-- The end of a turn: a user or an assistant message, or the end of the history. -/
inductive Fresh : List Message → Prop
  | nil : Fresh []
  | user (message : UserMessage) (rest : List Message) : Fresh (.user message :: rest)
  | assistant (message : AssistantMessage) (rest : List Message) : Fresh (.assistant message :: rest)

theorem exists_turn (messages : List Message) :
    ∃ (between : List Aside) (rest : List Message), messages = between.map Aside.message ++ rest ∧ Fresh rest := by
  induction messages with
  | nil => exact ⟨[], [], rfl, .nil⟩
  | cons message messages ih =>
    obtain ⟨between, rest, rfl, hfresh⟩ := ih
    cases message with
    | system message => exact ⟨.system message :: between, rest, rfl, hfresh⟩
    | toolResult message => exact ⟨.toolResult message :: between, rest, rfl, hfresh⟩
    | user message => exact ⟨[], _, rfl, .user message _⟩
    | assistant message => exact ⟨[], _, rfl, .assistant message _⟩

theorem Fresh.paired (hfresh : Fresh rest) (h : Paired calls answered rest) : Paired [] [] rest := by
  cases hfresh with
  | nil => trivial
  | user message rest => exact h
  | assistant message rest => exact h

theorem Fresh.distinct (hfresh : Fresh rest) (h : Distinct calls answered rest) :
    (calls.filter (fun id => id ∉ answered)).Nodup ∧ Distinct [] [] rest := by
  cases hfresh with
  | nil => exact ⟨h, nodup_nil⟩
  | user message rest => exact ⟨h.1, nodup_nil, h.2⟩
  | assistant message rest => exact ⟨h.1, nodup_nil, h.2⟩

end Between

/-! ## The second pass -/

section SecondPass

variable (target : Model) (normalizeToolCallId : Option (JsString → AssistantMessage → JsString)) (clock : ℕ → ℤ)

theorem addMissing_spec (existing : List JsString) (calls : List ToolCall) (result : List Message) :
    ∃ invented : List ToolResultMessage, addMissing clock existing calls result = result ++ invented.map .toolResult ∧
      invented.map ToolResultMessage.toolCallId = (calls.map ToolCall.id).filter (fun id => id ∉ existing) ∧
      ∀ r ∈ invented, ∃ call ∈ calls, ∃ timestamp, r = noResult call timestamp := by
  induction calls generalizing result with
  | nil => exact ⟨[], by simp [addMissing], rfl, by simp⟩
  | cons call calls ih =>
    unfold addMissing at ih ⊢
    rw [foldl_cons]
    by_cases hmem : call.id ∈ existing
    · obtain ⟨invented, hresult, hids, hcalls⟩ := ih result
      refine ⟨invented, by rw [if_pos hmem, hresult], ?_, fun r hr => ?_⟩
      · rw [hids, map_cons, filter_cons_of_neg (by simpa using hmem)]
      · obtain ⟨other, hother, hr⟩ := hcalls r hr
        exact ⟨other, mem_cons_of_mem _ hother, hr⟩
    · obtain ⟨invented, hresult, hids, hcalls⟩ := ih (result ++ [.toolResult (noResult call (clock result.length))])
      refine ⟨noResult call (clock result.length) :: invented, ?_, ?_, fun r hr => ?_⟩
      · rw [if_neg hmem, hresult]
        simp
      · rw [map_cons, hids, map_cons, filter_cons_of_pos (by simpa using hmem)]
        rfl
      · rcases mem_cons.mp hr with rfl | hr
        · exact ⟨call, mem_cons_self, _, rfl⟩
        · obtain ⟨other, hother, hr⟩ := hcalls r hr
          exact ⟨other, mem_cons_of_mem _ hother, hr⟩

variable (pass : Pass)

theorem close_open (hpending : pass.pendingToolCalls ≠ []) :
    ∃ invented : List ToolResultMessage, closePendingToolCalls clock pass =
        ⟨pass.result ++ invented.map .toolResult ++ pass.heldSystemMessages.map .system, [], [], []⟩ ∧
      invented.map ToolResultMessage.toolCallId =
        (pass.pendingToolCalls.map ToolCall.id).filter (fun id => id ∉ pass.existingToolResultIds) ∧
      ∀ r ∈ invented, ∃ call ∈ pass.pendingToolCalls, ∃ timestamp, r = noResult call timestamp := by
  obtain ⟨invented, hresult, hids, hcalls⟩ :=
    addMissing_spec clock pass.existingToolResultIds pass.pendingToolCalls pass.result
  refine ⟨invented, ?_, hids, hcalls⟩
  unfold closePendingToolCalls
  simp only [List.isEmpty_iff, if_neg hpending, hresult]

variable (result : List Message)

theorem close_closed : closePendingToolCalls clock ⟨result, [], [], []⟩ = ⟨result, [], [], []⟩ := by
  simp [closePendingToolCalls]

/-- Both passes over the rest of a history. -/
def finish (map : IdMap) (pass : Pass) (messages : List Message) : List Message :=
  (closePendingToolCalls clock
    ((firstPass target normalizeToolCallId map (messages.map (prepare target))).foldl (passMessage clock) pass)).result

variable (map : IdMap)

/-- The end of a turn closes it. -/
theorem finish_fresh (pass : Pass) (rest : List Message) (result : List Message) (hfresh : Fresh rest)
    (hclose : closePendingToolCalls clock pass = ⟨result, [], [], []⟩) :
    finish target normalizeToolCallId clock map pass rest =
      finish target normalizeToolCallId clock map ⟨result, [], [], []⟩ rest := by
  have hsame : closePendingToolCalls clock pass = closePendingToolCalls clock ⟨result, [], [], []⟩ := by
    rw [hclose, close_closed]
  unfold finish
  cases hfresh with
  | nil => exact congrArg Pass.result hsame
  | user message rest =>
    obtain ⟨sent, hsent, -⟩ := prepare_user target message
    rw [map_cons, hsent, firstPass, foldl_cons, foldl_cons, passMessage, passMessage, hsame]
  | assistant message rest =>
    rw [map_cons, prepare_assistant, firstPass, foldl_cons, foldl_cons, passMessage, passMessage, hsame]

theorem finish_assistant (result : List Message) (source : AssistantMessage) (rest : List Message) :
    finish target normalizeToolCallId clock map ⟨result, [], [], []⟩ (.assistant source :: rest) =
      finish target normalizeToolCallId clock (addRenamings target normalizeToolCallId map (withContent source))
        (if source.failed then ⟨result, [], [], []⟩
          else ⟨result ++ [.assistant (transformAssistant target normalizeToolCallId (withContent source))],
            (transformAssistant target normalizeToolCallId (withContent source)).toolCalls, [], []⟩) rest := by
  have hpass : passMessage clock ⟨result, [], [], []⟩
      (.assistant (transformAssistant target normalizeToolCallId (withContent source))) =
      if source.failed then ⟨result, [], [], []⟩
      else ⟨result ++ [.assistant (transformAssistant target normalizeToolCallId (withContent source))],
        (transformAssistant target normalizeToolCallId (withContent source)).toolCalls, [], []⟩ := by
    rw [passMessage, close_closed]
    refine if_congr Iff.rfl rfl ?_
    cases hcalls : (transformAssistant target normalizeToolCallId (withContent source)).toolCalls <;> rfl
  unfold finish
  rw [map_cons, prepare_assistant, firstPass, foldl_cons, hpass]

/-- The results of a turn are added under the IDs of their calls, and its system messages are held. -/
theorem finish_between (map : IdMap) (source : AssistantMessage) (between : List Aside) (rest : List Message) (pass : Pass)
    (hpending : pass.pendingToolCalls ≠ [])
    (hmapped : ∀ id ∈ resultIds between, mappedId map id = outputId target normalizeToolCallId source id) :
    ∃ results, List.Forall₂ (SentResult target normalizeToolCallId source) (resultsOf between) results ∧
      finish target normalizeToolCallId clock map pass (between.map Aside.message ++ rest) =
        finish target normalizeToolCallId clock map { pass with
          result := pass.result ++ results.map .toolResult
          existingToolResultIds := (results.map ToolResultMessage.toolCallId).reverse ++ pass.existingToolResultIds
          heldSystemMessages := pass.heldSystemMessages ++ (systemsOf between).map SystemMessage.sent } rest := by
  induction between generalizing pass with
  | nil => exact ⟨[], .nil, by simp [systemsOf]⟩
  | cons aside between ih =>
    unfold finish at ih ⊢
    cases aside with
    | system message =>
      obtain ⟨results, hresults, hfinish⟩ :=
        ih { pass with heldSystemMessages := pass.heldSystemMessages ++ [message.sent] } hpending hmapped
      refine ⟨results, hresults, ?_⟩
      rw [map_cons, cons_append, map_cons, Aside.message, prepare_system, firstPass, foldl_cons, passMessage,
        if_neg (by simpa using hpending), hfinish,
        show systemsOf (.system message :: between) = message :: systemsOf between from rfl]
      simp
    | toolResult message =>
      obtain ⟨shown, hprepare, hshown⟩ := prepare_toolResult target message
      have hsent : SentResult target normalizeToolCallId source message { message with
          toolCallId := mappedId map message.toolCallId, content := some shown } :=
        ⟨shown, hshown, by rw [hmapped message.toolCallId mem_cons_self]⟩
      obtain ⟨results, hresults, hfinish⟩ := ih { pass with
          existingToolResultIds := mappedId map message.toolCallId :: pass.existingToolResultIds
          result := pass.result ++ [.toolResult { message with
            toolCallId := mappedId map message.toolCallId, content := some shown }] }
        hpending (fun id hmem => hmapped id (mem_cons_of_mem _ hmem))
      refine ⟨_ :: results, .cons hsent hresults, ?_⟩
      rw [map_cons, cons_append, map_cons, Aside.message, hprepare, firstPass, foldl_cons, passMessage, hfinish,
        show systemsOf (.toolResult message :: between) = systemsOf between from rfl]
      simp

end SecondPass

/-! ## Every call is answered once -/

theorem answered_once (f : JsString → JsString) (calls answered : List JsString)
    (hinj : ∀ a ∈ calls, ∀ b ∈ calls, f a = f b → a = b) (hcalled : ∀ a ∈ answered, a ∈ calls) (hnodup : answered.Nodup)
    (hmissing : (calls.filter (fun a => a ∉ answered)).Nodup) (b : JsString) (hb : b ∈ calls.map f) :
    (answered.map f ++ (calls.map f).filter (fun b => b ∉ answered.map f)).count b = 1 := by
  have hmem : ∀ a ∈ calls, f a ∈ answered.map f ↔ a ∈ answered := by
    intro a ha
    refine ⟨fun h => ?_, fun h => mem_map.mpr ⟨a, h, rfl⟩⟩
    obtain ⟨other, hother, heq⟩ := mem_map.mp h
    rwa [← hinj other (hcalled other hother) a ha heq]
  have hfilter : (calls.map f).filter (fun b => b ∉ answered.map f) = (calls.filter (fun a => a ∉ answered)).map f := by
    rw [filter_map]
    exact congrArg _ (filter_congr fun a ha => by simp only [Function.comp_apply, hmem a ha])
  refine count_eq_one_of_mem (nodup_append.mpr ⟨?_, ?_, ?_⟩) ?_
  · exact hnodup.map_on fun a ha b hb => hinj a (hcalled a ha) b (hcalled b hb)
  · rw [hfilter]
    exact hmissing.map_on fun a ha b hb => hinj a (mem_filter.mp ha).1 b (mem_filter.mp hb).1
  · rintro a ha b hb rfl
    simpa [ha] using (mem_filter.mp hb).2
  · rw [mem_append, mem_filter]
    by_cases h : b ∈ answered.map f
    · exact .inl h
    · exact .inr ⟨hb, by simpa using h⟩

/-! ## The transcript -/

section Transcript

variable (target : Model) (normalizeToolCallId : Option (JsString → AssistantMessage → JsString)) (clock : ℕ → ℤ)

/-- What a history adds to a transcript outside of a turn. -/
def Adds (map : IdMap) (messages : List Message) : Prop :=
  ∀ result, ∃ out, finish target normalizeToolCallId clock map ⟨result, [], [], []⟩ messages = result ++ out ∧
    WellPaired out ∧ Sends target normalizeToolCallId messages out

theorem sentIds (source : AssistantMessage) (messages results : List ToolResultMessage)
    (h : List.Forall₂ (SentResult target normalizeToolCallId source) messages results) :
    results.map ToolResultMessage.toolCallId =
      (messages.map ToolResultMessage.toolCallId).map (outputId target normalizeToolCallId source) := by
  induction h with
  | nil => rfl
  | cons hsent _ ih =>
    obtain ⟨shown, -, rfl⟩ := hsent
    exact congrArg _ ih

/-- A message with calls, the rest of its turn, and what comes after. -/
theorem adds_turn (map : IdMap) (earlier : List AssistantMessage) (source : AssistantMessage) (between : List Aside)
    (rest : List Message) (hlive : source.failed = false) (hcalls : source.toolCalls ≠ [])
    (hrecorded : Recorded target normalizeToolCallId earlier map)
    (hinj : ∀ a ∈ source.callIds, ∀ b ∈ source.callIds,
      outputId target normalizeToolCallId source a = outputId target normalizeToolCallId source b → a = b)
    (hfresh : Fresh rest)
    (hpaired : Paired (awaited source) [] (between.map Aside.message ++ rest))
    (hdistinct : Distinct (awaited source) [] (between.map Aside.message ++ rest))
    (hnamed : NamedAlike target normalizeToolCallId earlier (some source) (between.map Aside.message ++ rest))
    (h : Adds target normalizeToolCallId clock (addRenamings target normalizeToolCallId map (withContent source)) rest) :
    Adds target normalizeToolCallId clock map (.assistant source :: (between.map Aside.message ++ rest)) := by
  intro result
  have hawaited : awaited source = source.callIds := by simp [awaited, hlive]
  rw [hawaited] at hpaired hdistinct
  obtain ⟨hcalled, hnodup, -⟩ := paired_between hpaired
  have hmissing := (hfresh.distinct (distinct_between hdistinct)).1
  have hsent := sentAssistant target normalizeToolCallId source
  have hmapped : ∀ id ∈ resultIds between,
      mappedId (addRenamings target normalizeToolCallId map (withContent source)) id =
        outputId target normalizeToolCallId source id := fun id hid =>
    mappedId_sent hrecorded source id (hcalled id hid).1 ((namedAlike_between hnamed).1 id hid)
  rw [finish_assistant, hlive, if_neg Bool.false_ne_true]
  generalize transformAssistant target normalizeToolCallId (withContent source) = sent at hsent ⊢
  have hpending : sent.toolCalls ≠ [] := by
    rw [hsent.calls]
    exact fun hnone => hcalls (map_eq_nil_iff.mp hnone)
  obtain ⟨results, hresults, hfinish⟩ := finish_between target normalizeToolCallId clock _ source between rest
    ⟨result ++ [.assistant sent], sent.toolCalls, [], []⟩ hpending hmapped
  obtain ⟨invented, hclose, hids, hinvented⟩ := close_open clock
    ⟨result ++ [.assistant sent] ++ results.map .toolResult, sent.toolCalls,
      (results.map ToolResultMessage.toolCallId).reverse ++ [],
      [] ++ (systemsOf between).map SystemMessage.sent⟩ hpending
  obtain ⟨out, hout, hpairedOut, hsends⟩ := h _
  rw [hfinish, finish_fresh target normalizeToolCallId clock _ _ rest _ hfresh hclose, hout]
  refine ⟨_, ?_, ?_, .turn source sent between results invented hlive hsent hresults hinvented hsends⟩
  · simp [Function.comp_def]
  · have hheld : ∀ systems : List SystemMessage, WellPaired (systems.map (.system ∘ SystemMessage.sent) ++ out) := by
      intro systems
      induction systems with
      | nil => exact hpairedOut
      | cons message systems ih => exact .system message.sent ih
    have hanswered := sentIds target normalizeToolCallId source _ _ hresults
    have hcount : (results ++ invented).map ToolResultMessage.toolCallId =
        (resultIds between).map (outputId target normalizeToolCallId source) ++
          (source.callIds.map (outputId target normalizeToolCallId source)).filter
            (fun id => id ∉ (resultIds between).map (outputId target normalizeToolCallId source)) := by
      rw [map_append, hanswered, hids, ← hsent.callIds]
      simp only [append_nil, mem_reverse, hanswered]
      rfl
    refine .assistant sent (results ++ invented) (fun call hcall => ?_) (fun answer hanswer => ?_) (hheld _)
    · rw [hcount]
      refine answered_once _ _ _ hinj (fun id hid => (hcalled id hid).1) hnodup (by simpa using hmissing) _ ?_
      rw [← hsent.callIds]
      exact mem_map.mpr ⟨call, hcall, rfl⟩
    · change answer.toolCallId ∈ sent.callIds
      have hmem : answer.toolCallId ∈ (results ++ invented).map ToolResultMessage.toolCallId := mem_map.mpr ⟨_, hanswer, rfl⟩
      rw [hcount, ← hsent.callIds] at hmem
      rcases mem_append.mp hmem with hmem | hmem
      · obtain ⟨id, hid, heq⟩ := mem_map.mp hmem
        rw [hsent.callIds]
        exact mem_map.mpr ⟨id, (hcalled id hid).1, heq⟩
      · exact (mem_filter.mp hmem).1

theorem adds_all (n : ℕ) (messages : List Message) (hn : messages.length ≤ n) (map : IdMap) (earlier : List AssistantMessage)
    (source : Option AssistantMessage) (hrecorded : Recorded target normalizeToolCallId (source.toList ++ earlier) map)
    (hpaired : Paired [] [] messages) (hdistinct : Distinct [] [] messages)
    (hinj : Injective target normalizeToolCallId messages)
    (hnamed : NamedAlike target normalizeToolCallId earlier source messages) :
    Adds target normalizeToolCallId clock map messages := by
  induction n generalizing messages map earlier source with
  | zero =>
    obtain rfl := length_eq_zero_iff.mp (Nat.le_zero.mp hn)
    exact fun result => ⟨[], by simp [finish, firstPass, close_closed], .nil, .nil⟩
  | succ n ih =>
    cases messages with
    | nil => exact fun result => ⟨[], by simp [finish, firstPass, close_closed], .nil, .nil⟩
    | cons message rest =>
      have hrest : rest.length ≤ n := by simpa using hn
      cases message with
      | toolResult message => cases hpaired.1
      | system message =>
        intro result
        obtain ⟨out, hout, hwell, hsends⟩ := ih rest hrest map earlier source hrecorded hpaired hdistinct hinj hnamed
          (result ++ [.system message.sent])
        refine ⟨.system message.sent :: out, ?_, .system _ hwell, .system message hsends⟩
        rw [finish, map_cons, prepare_system, firstPass, foldl_cons, passMessage]
        exact hout.trans (append_assoc _ _ _)
      | user message =>
        intro result
        obtain ⟨sent, hprepare, hsent⟩ := prepare_user target message
        obtain ⟨out, hout, hwell, hsends⟩ := ih rest hrest map earlier source hrecorded hpaired hdistinct.2 hinj hnamed
          (result ++ [.user sent])
        refine ⟨.user sent :: out, ?_, .user _ hwell, .user message sent hsent hsends⟩
        rw [finish, map_cons, hprepare, firstPass, foldl_cons, passMessage, close_closed]
        exact hout.trans (append_assoc _ _ _)
      | assistant next =>
        have hnext : Recorded target normalizeToolCallId ((some next).toList ++ (source.toList ++ earlier))
            (addRenamings target normalizeToolCallId map (withContent next)) := hrecorded.next next
        have hinjRest : Injective target normalizeToolCallId rest := fun other hmem => hinj other (mem_cons_of_mem _ hmem)
        cases hfailed : next.failed with
        | true =>
          have hawaited : awaited next = [] := by simp [awaited, hfailed]
          rw [Paired, hawaited] at hpaired
          rw [Distinct, hawaited] at hdistinct
          intro result
          obtain ⟨out, hout, hwell, hsends⟩ :=
            ih rest hrest _ (source.toList ++ earlier) (some next) hnext hpaired hdistinct.2 hinjRest hnamed result
          refine ⟨out, ?_, hwell, .failed next hfailed hsends⟩
          rw [finish_assistant, if_pos hfailed]
          exact hout
        | false =>
          by_cases hcalls : next.toolCalls = []
          · have hawaited : awaited next = [] := by simp [awaited, AssistantMessage.callIds, hcalls]
            rw [Paired, hawaited] at hpaired
            rw [Distinct, hawaited] at hdistinct
            intro result
            have hsent := sentAssistant target normalizeToolCallId next
            rw [finish_assistant, if_neg (by simp [hfailed]), hsent.calls, hcalls]
            obtain ⟨out, hout, hwell, hsends⟩ :=
              ih rest hrest _ (source.toList ++ earlier) (some next) hnext hpaired hdistinct.2 hinjRest hnamed
                (result ++ [.assistant (transformAssistant target normalizeToolCallId (withContent next))])
            refine ⟨_, hout.trans (append_assoc _ _ _), .assistant _ [] ?_ (by simp) hwell,
              .turn next _ [] [] [] hfailed hsent .nil (by simp) hsends⟩
            rw [hsent.calls, hcalls]
            simp
          · obtain ⟨between, after, rfl, hfresh⟩ := exists_turn rest
            have hafter : after.length ≤ n := by
              rw [length_append] at hrest
              omega
            refine adds_turn target normalizeToolCallId clock map _ next between after hfailed hcalls hrecorded
              (hinj next mem_cons_self) hfresh hpaired hdistinct.2 hnamed ?_
            exact ih after hafter _ (source.toList ++ earlier) (some next) hnext
              (hfresh.paired (paired_between hpaired).2.2)
              (hfresh.distinct (distinct_between hdistinct.2)).2
              (fun other hmem => hinjRest other (by rw [filterMap_append]; exact mem_append_right _ hmem))
              (namedAlike_between hnamed).2

end Transcript

/-- The transcript is well paired, and is what the messages are sent as. -/
theorem transformMessages_paired (target : Model) (normalizeToolCallId : Option (JsString → AssistantMessage → JsString))
    (clock : ℕ → ℤ) (messages : List Message) (hpaired : Paired [] [] messages)
    (hinj : Injective target normalizeToolCallId messages) (hdistinct : Distinct [] [] messages)
    (hnamed : NamedAlike target normalizeToolCallId [] none messages) :
    WellPaired (transformMessages target normalizeToolCallId clock messages) ∧
      Sends target normalizeToolCallId messages (transformMessages target normalizeToolCallId clock messages) := by
  have hadds := adds_all target normalizeToolCallId clock messages.length messages (le_refl _) [] [] none
    (fun id renamed hget => by cases hget) hpaired hdistinct hinj hnamed
  obtain ⟨out, hout, hwell, hsends⟩ := hadds []
  have htransform : transformMessages target normalizeToolCallId clock messages = out := by
    unfold transformMessages secondPass firstPassOf
    rw [prepare_all]
    exact hout
  rw [htransform]
  exact ⟨hwell, hsends⟩

/-! ## What a transcript that is well paired has -/

theorem not_wellPaired_toolResult (r : ToolResultMessage) (rest : List Message) : ¬ WellPaired (.toolResult r :: rest) := by
  intro h
  cases h

theorem WellPaired.called_first (m : AssistantMessage) (r : ToolResultMessage) (rest : List Message)
    (h : WellPaired (.assistant m :: .toolResult r :: rest)) : r.toolCallId ∈ m.toolCalls.map ToolCall.id := by
  generalize hall : Message.assistant m :: .toolResult r :: rest = all at h
  cases h with
  | nil => cases hall
  | system message h => cases hall
  | user message h => cases hall
  | assistant message results answered called h =>
    obtain ⟨hm, hrest⟩ := List.cons.inj hall
    obtain rfl := Message.assistant.inj hm
    cases results with
    | nil =>
      rw [map_nil, nil_append] at hrest
      rw [← hrest] at h
      exact absurd h (not_wellPaired_toolResult r rest)
    | cons first results =>
      obtain ⟨hfirst, -⟩ := List.cons.inj hrest
      obtain rfl := Message.toolResult.inj hfirst
      exact called r mem_cons_self

theorem WellPaired.answered_once (m : AssistantMessage) (r s : ToolResultMessage) (rest : List Message)
    (h : WellPaired (.assistant m :: .toolResult r :: .toolResult s :: rest)) : r.toolCallId ≠ s.toolCallId := by
  generalize hall : Message.assistant m :: .toolResult r :: .toolResult s :: rest = all at h
  cases h with
  | nil => cases hall
  | system message h => cases hall
  | user message h => cases hall
  | assistant message results answered called h =>
    obtain ⟨-, hrest⟩ := List.cons.inj hall
    match results with
    | [] =>
      rw [map_nil, nil_append] at hrest
      rw [← hrest] at h
      exact absurd h (not_wellPaired_toolResult r _)
    | [first] =>
      obtain ⟨-, hrest⟩ := List.cons.inj hrest
      change Message.toolResult s :: rest = _ at hrest
      subst hrest
      exact absurd h (not_wellPaired_toolResult s rest)
    | first :: second :: results =>
      obtain ⟨hfirst, hrest⟩ := List.cons.inj hrest
      obtain ⟨hsecond, -⟩ := List.cons.inj hrest
      obtain rfl := Message.toolResult.inj hfirst
      obtain rfl := Message.toolResult.inj hsecond
      intro heq
      obtain ⟨c, hc, hid⟩ := mem_map.mp (called r mem_cons_self)
      have hcount := answered c hc
      rw [hid, map_cons, map_cons, heq, count_cons_self, count_cons_self] at hcount
      omega

/-! ## Two messages with one ID -/

section Examples

def otherModel : Model := ⟨js "messages", js "p", js "b", true⟩

def textModel : Model := ⟨js "messages", js "p", js "b", false⟩

def underscored (id : JsString) (_ : AssistantMessage) : JsString := id.map (fun u => if u = 124 then 95 else u)

def call (id : JsString) : ToolCall := ⟨id, js "read", .obj [], none, .obj []⟩

def calling (model : JsString) (ids : List JsString) : AssistantMessage :=
  ⟨some (ids.map (.toolCall ∘ call)), js "messages", js "p", model, .toolUse, .obj []⟩

def answer (id : JsString) (content : List ContentBlock) : ToolResultMessage :=
  ⟨id, js "read", some content, false, 0, .obj []⟩

/-- The first message is of another model, so that its calls are renamed; one has no result, the other has images, and a
system message comes first. A failed message stands before a message of the target model. -/
def history : List Message :=
  [.user ⟨some (.blocks [.image (.obj []), .text (js "t") (.obj [])]), .obj []⟩,
    .assistant (calling (js "a") [js "x|1", js "y|2"]), .system ⟨some (.text (js "s")), .obj []⟩,
    .toolResult (answer (js "y|2") [.image (.obj []), .image (.obj []), .text (js "u") (.obj [])]), .user ⟨none, .obj []⟩,
    .assistant { calling (js "a") [js "z|3"] with stopReason := .error }, .assistant (calling (js "b") [js "w|4"]),
    .toolResult (answer (js "w|4") [])]

theorem transformMessages_history :
    WellPaired (transformMessages textModel (some underscored) (fun _ => 0) history) ∧
      Sends textModel (some underscored) history (transformMessages textModel (some underscored) (fun _ => 0) history) ∧
      ((transformMessages textModel (some underscored) (fun _ => 0) history).filterMap Message.toolResult?).map
        ToolResultMessage.toolCallId = [js "y_2", js "x_1", js "w|4"] := by
  obtain ⟨hwell, hsends⟩ := transformMessages_paired textModel (some underscored) (fun _ => 0) history (by decide)
    (by decide) (by decide) (by decide)
  exact ⟨hwell, hsends, by decide⟩

/-- The call of the second message, which is of the target model, has the ID the first was renamed from. -/
def reused : List Message :=
  [.assistant { calling (js "a") [js "x|1"] with stopReason := .error }, .assistant (calling (js "b") [js "x|1"]),
    .toolResult (answer (js "x|1") [])]

def answered : List Message := [.assistant (calling (js "a") [js "x|1"]), .toolResult (answer (js "x|1") [])]

def repeated : List Message := [.assistant (calling (js "b") [js "y", js "y"])]

def pictured : List Message :=
  [.assistant (calling (js "b") [js "y"]), .toolResult (answer (js "y") [.image (.obj [])])]

/-- An ID that was renamed before, a renaming to the empty ID, two calls with one ID and no result, and an image. -/
theorem pairing_breaks :
    (Paired [] [] reused ∧ Injective otherModel (some underscored) reused ∧ Distinct [] [] reused ∧
      ¬ WellPaired (transformMessages otherModel (some underscored) (fun _ => 0) reused)) ∧
    (Paired [] [] answered ∧ Injective otherModel (some fun _ _ => []) answered ∧ Distinct [] [] answered ∧
      ¬ WellPaired (transformMessages otherModel (some fun _ _ => []) (fun _ => 0) answered)) ∧
    (Paired [] [] repeated ∧ Injective otherModel none repeated ∧ NamedAlike otherModel none [] none repeated ∧
      ¬ WellPaired (transformMessages otherModel none (fun _ => 0) repeated)) ∧
    Paired [] [] pictured ∧ Injective textModel none pictured ∧ Distinct [] [] pictured ∧
      NamedAlike textModel none [] none pictured ∧
      (pictured.filterMap Message.toolResult?).map ToolResultMessage.content ≠
        ((transformMessages textModel none (fun _ => 0) pictured).filterMap Message.toolResult?).map
          ToolResultMessage.content := by
  refine ⟨⟨by decide, by decide, by decide, fun h => ?_⟩, ⟨by decide, by decide, by decide, fun h => ?_⟩,
    ⟨by decide, by decide, by decide, fun h => ?_⟩, by decide, by decide, by decide, by decide, fun h => ?_⟩
  · exact absurd (WellPaired.called_first _ _ _ h) (by decide)
  · exact absurd (WellPaired.called_first _ _ _ h) (by decide)
  · exact absurd rfl (WellPaired.answered_once _ _ _ _ h)
  · cases h

end Examples

end PiAgent.Ai.Transform
