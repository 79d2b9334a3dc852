import PiAgent.Ai.StreamingJson

/-!
# Transcripts

The messages of an agent, and what `transcript.ts` and `text.ts` replay from their
system messages: the current tools, and the current prompt.
-/

namespace PiAgent.Session

open List Assoc

/-! ## Messages -/

abbrev Time := ℤ

/-- A block of content. `rest` is what no function here reads of it. -/
inductive ContentBlock where
  | text (text : JsString) (rest : JsonValue)
  | image (rest : JsonValue)
  | thinking (thinking : JsString) (rest : JsonValue)
  | toolCall (id name : JsString) (arguments rest : JsonValue)

inductive Content where
  | text (text : JsString)
  | blocks (blocks : List ContentBlock)

structure Tool where
  name : JsString
  description : JsString
  parameters : JsonValue
  constrainedSampling : Option JsonValue

def toolJson (tool : Tool) : JsonValue :=
  .obj ([(js "name", .str tool.name), (js "description", .str tool.description), (js "parameters", tool.parameters)] ++
    (tool.constrainedSampling.map (fun config => (js "constrainedSampling", config))).toList)

/-- `SystemMessage`; sections and tools that are left out are empty. -/
structure SystemMessage where
  content : Option Content
  sections : List (JsString × Option JsString)
  toolsAdded : List Tool
  toolsRemoved : List JsString
  timestamp : Time

/-- An agent message. Old files may have messages without content. -/
inductive Message where
  | system (message : SystemMessage)
  | user (content : Option Content) (timestamp : Time)
  | assistant (content : Option Content) (provider model : JsString) (rest : JsonValue)
  | toolResult (content : Option Content) (toolCallId : JsString) (rest : JsonValue)
  | bashExecution (command output : JsString) (rest : JsonValue)
  | custom (customType : JsString) (content : Content) (display : Bool) (details : Option JsonValue) (timestamp : Time)
  | branchSummary (summary fromId : JsString) (timestamp : Time)
  | compactionSummary (summary : JsString) (tokensBefore : ℤ) (timestamp : Time)

namespace Message

def isSystem : Message → Bool
  | .system _ => true
  | _ => false

def system? : Message → Option SystemMessage
  | .system message => some message
  | _ => none

def isAssistant : Message → Bool
  | .assistant .. => true
  | _ => false

def isToolResult : Message → Bool
  | .toolResult .. => true
  | _ => false

end Message

/-! ## Text -/

/-- `parts.join(separator)` -/
def join (separator : JsString) (parts : List JsString) : JsString := List.intercalate separator parts

def contentText : Content → JsString
  | .text text => text
  | .blocks blocks =>
    join (js "\n") (blocks.filterMap (fun block =>
      match block with
      | .text text _ => some text
      | _ => none))

/-- The value of a key that is an array index. -/
def arrayIndex? (key : JsString) : Option ℕ :=
  if key = [48] then some 0
  else if key.head?.any (fun c => 49 ≤ c && c ≤ 57) && key.all (fun c => 48 ≤ c && c ≤ 57) then
    let n := key.foldl (fun n c => 10 * n + (c.toNat - 48)) 0
    if n < 2 ^ 32 - 1 then some n else none
  else none

section ObjectOrder

variable {α : Type}

def isIndex (field : JsString × α) : Bool := (arrayIndex? field.1).isSome

def indexLe (field other : JsString × α) : Bool := (arrayIndex? field.1).getD 0 ≤ (arrayIndex? other.1).getD 0

/-- `Object.entries(Object.fromEntries(fields))`: integer keys come first, in order. -/
def objectOrder (fields : List (JsString × α)) : List (JsString × α) :=
  (fields.filter isIndex).mergeSort indexLe ++ fields.filter (fun field => !isIndex field)

end ObjectOrder

def getSystemMessageText (message : SystemMessage) : JsString :=
  let parts := (message.content.map contentText).getD [] :: message.sections.filterMap Prod.snd
  join (js "\n\n") (parts.filter (fun part => !part.isEmpty))

/-! ## Replaying system messages -/

def systemMessages (messages : List Message) : List SystemMessage := messages.filterMap Message.system?

def applyTools (tools : List (JsString × Tool)) (message : SystemMessage) : List (JsString × Tool) :=
  message.toolsAdded.foldl (fun tools tool => Assoc.set tools tool.name tool)
    (message.toolsRemoved.foldl (fun tools name => Assoc.del tools name) tools)

def getCurrentTools (messages : List Message) : List Tool :=
  ((systemMessages messages).foldl applyTools []).map Prod.snd

def patchSection (sections : List (JsString × JsString)) (patch : JsString × Option JsString) :
    List (JsString × JsString) :=
  match patch.2 with
  | none => Assoc.del sections patch.1
  | some value => Assoc.set sections patch.1 value

def currentSections (messages : List SystemMessage) : List (JsString × JsString) :=
  messages.foldl (fun sections message => message.sections.foldl patchSection sections) []

def currentContent (messages : List SystemMessage) : List JsString :=
  (messages.map (fun message => (message.content.map contentText).getD [])).filter (fun text => !text.isEmpty)

def getCurrentSystemMessage (messages : List Message) : Option SystemMessage :=
  let systems := systemMessages messages
  let tools := getCurrentTools messages
  if systems.isEmpty && tools.isEmpty then none
  else some
    { content := some (.text (join (js "\n\n") (currentContent systems)))
      sections := objectOrder ((currentSections systems).map (fun field => (field.1, some field.2)))
      toolsAdded := tools
      toolsRemoved := []
      timestamp := (systems.head?.map SystemMessage.timestamp).getD 0 }

def getCurrentSystemPrompt (messages : List Message) : JsString :=
  match getCurrentSystemMessage messages with
  | some message => getSystemMessageText message
  | none => []

/-! ## A replayed message replays to itself -/

variable {α : Type} (fields : List (JsString × α))

theorem objectOrder_idem : objectOrder (objectOrder fields) = objectOrder fields := by
  have hindex : ∀ field ∈ (fields.filter isIndex).mergeSort indexLe, isIndex field = true := by
    intro field hf
    exact (mem_filter.mp ((mergeSort_perm _ _).mem_iff.mp hf)).2
  have hother : ∀ field ∈ fields.filter (fun field => !isIndex field), isIndex field = false := by
    intro field hf
    simpa using (mem_filter.mp hf).2
  have hsorted : ((fields.filter isIndex).mergeSort indexLe).Pairwise (fun a b => indexLe a b = true) :=
    pairwise_mergeSort (fun a b c hab hbc => by simp only [indexLe, decide_eq_true_eq] at *; omega)
      (fun a b => by simp only [indexLe, Bool.or_eq_true, decide_eq_true_eq]; omega) _
  unfold objectOrder
  generalize (fields.filter isIndex).mergeSort indexLe = sorted at hindex hsorted ⊢
  generalize fields.filter (fun field => !isIndex field) = rest at hother ⊢
  have h1 : sorted.filter isIndex = sorted := filter_eq_self.mpr hindex
  have h2 : rest.filter isIndex = [] := filter_eq_nil_iff.mpr (fun field hf => by simp [hother field hf])
  have h3 : sorted.filter (fun field => !isIndex field) = [] :=
    filter_eq_nil_iff.mpr (fun field hf => by simp [hindex field hf])
  have h4 : rest.filter (fun field => !isIndex field) = rest :=
    filter_eq_self.mpr (fun field hf => by simp [hother field hf])
  rw [filter_append, filter_append, h1, h2, h3, h4, append_nil, nil_append, mergeSort_of_pairwise hsorted]

theorem keys_objectOrder_perm : (objectOrder fields).Perm fields :=
  ((mergeSort_perm _ _).append_right _).trans (filter_append_perm isIndex fields)

theorem set_new (key : JsString) (value : α) (h : key ∉ Assoc.keys fields) :
    Assoc.set fields key value = fields ++ [(key, value)] := by
  induction fields with
  | nil => rfl
  | cons field fields ih =>
    obtain ⟨other, v⟩ := field
    have hne : other ≠ key := fun heq => h (heq ▸ mem_cons_self ..)
    have hrest : key ∉ Assoc.keys fields := fun hmem => h (mem_cons_of_mem _ hmem)
    rw [Assoc.set, if_neg hne, ih hrest, cons_append]

variable {α β : Type}

theorem foldl_set_new (name : β → JsString) (value : β → α) (items : List β) (fields : List (JsString × α))
    (hn : (Assoc.keys fields ++ items.map name).Nodup) :
    items.foldl (fun fields item => Assoc.set fields (name item) (value item)) fields =
      fields ++ items.map (fun item => (name item, value item)) := by
  induction items generalizing fields with
  | nil => simp
  | cons item items ih =>
    have hnew : name item ∉ Assoc.keys fields := by
      intro hmem
      have hdisjoint := (nodup_append.mp hn).2.2
      exact hdisjoint _ hmem _ (mem_cons_self ..) rfl
    have hset : Assoc.set fields (name item) (value item) = fields ++ [(name item, value item)] :=
      set_new fields (name item) (value item) hnew
    rw [foldl_cons, hset, ih, map_cons, append_assoc, singleton_append]
    simpa [Assoc.keys, append_assoc] using hn

structure ToolsWf (tools : List (JsString × Tool)) : Prop where
  keys : (Assoc.keys tools).Nodup
  names : ∀ entry ∈ tools, entry.1 = entry.2.name

theorem ToolsWf.set {tools : List (JsString × Tool)} (h : ToolsWf tools) (tool : Tool) :
    ToolsWf (Assoc.set tools tool.name tool) := by
  have hkeys := nodup_keys_set tools tool.name tool h.keys
  refine ⟨hkeys, ?_⟩
  rintro ⟨key, value⟩ hmem
  have hget : get? (Assoc.set tools tool.name tool) key = some value := get?_of_mem _ _ _ hkeys hmem
  by_cases hk : key = tool.name
  · subst hk
    rw [get?_set_self] at hget
    obtain rfl := Option.some.inj hget
    rfl
  · rw [get?_set_ne _ _ _ _ (Ne.symm hk)] at hget
    exact h.names _ (mem_of_get? _ _ _ hget)

theorem ToolsWf.del {tools : List (JsString × Tool)} (h : ToolsWf tools) (name : JsString) :
    ToolsWf (Assoc.del tools name) :=
  ⟨nodup_keys_del tools name h.keys, fun entry hmem => h.names entry (mem_filter.mp hmem).1⟩

theorem foldl_keeps (p : α → Prop) (f : α → β → α) (hf : ∀ a b, p a → p (f a b)) (items : List β) (a : α)
    (ha : p a) : p (items.foldl f a) := by
  induction items generalizing a with
  | nil => exact ha
  | cons b items ih => exact ih (f a b) (hf a b ha)

theorem toolsWf_current (messages : List Message) : ToolsWf ((systemMessages messages).foldl applyTools []) := by
  refine foldl_keeps ToolsWf applyTools ?_ _ _ ⟨nodup_nil, by simp⟩
  intro tools message h
  unfold applyTools
  exact foldl_keeps ToolsWf _ (fun _ tool ht => ht.set tool) _ _ (foldl_keeps ToolsWf _ (fun _ name ht => ht.del name) _ _ h)

variable (messages later : List Message) (message : SystemMessage)

theorem getCurrentTools_replay (hs : systemMessages later = [message]) (ha : message.toolsAdded = getCurrentTools messages)
    (hr : message.toolsRemoved = []) : getCurrentTools later = getCurrentTools messages := by
  obtain ⟨hkeys, hnames⟩ := toolsWf_current messages
  have hmap : (getCurrentTools messages).map Tool.name = Assoc.keys ((systemMessages messages).foldl applyTools []) := by
    unfold getCurrentTools Assoc.keys
    rw [map_map]
    exact map_congr_left (fun entry hmem => (hnames entry hmem).symm)
  have hset := foldl_set_new Tool.name (fun tool => tool) (getCurrentTools messages) []
    (by simpa [hmap, Assoc.keys] using hkeys)
  unfold getCurrentTools at hset ⊢
  rw [hs, foldl_cons, foldl_nil, applyTools, hr, ha, foldl_nil]
  unfold getCurrentTools
  rw [hset]
  simp

theorem nodup_currentSections (messages : List SystemMessage) : (Assoc.keys (currentSections messages)).Nodup := by
  refine foldl_keeps (fun sections => (Assoc.keys sections).Nodup) _ ?_ _ _ nodup_nil
  intro sections message h
  refine foldl_keeps (fun sections => (Assoc.keys sections).Nodup) _ ?_ _ _ h
  rintro sections ⟨name, value⟩ h
  cases value with
  | none => exact nodup_keys_del sections name h
  | some value => exact nodup_keys_set sections name value h

theorem currentSections_replay (sections : List (JsString × JsString))
    (hs : message.sections = sections.map (fun field => (field.1, some field.2))) (hn : (Assoc.keys sections).Nodup) :
    currentSections [message] = sections := by
  have hfold : ∀ (items acc : List (JsString × JsString)),
      (items.map (fun field => (field.1, some field.2))).foldl patchSection acc =
        items.foldl (fun acc field => Assoc.set acc field.1 field.2) acc := by
    intro items acc
    rw [foldl_map]
    rfl
  unfold currentSections
  rw [foldl_cons, foldl_nil, hs, hfold, foldl_set_new Prod.fst Prod.snd sections []]
  · simp
  · simpa [Assoc.keys] using hn

theorem objectOrder_map (f : α → β) (fields : List (JsString × α)) :
    objectOrder (fields.map (fun field => (field.1, f field.2))) =
      (objectOrder fields).map (fun field => (field.1, f field.2)) := by
  have hsort : ((fields.filter isIndex).mergeSort indexLe).map (fun field => (field.1, f field.2)) =
      ((fields.filter isIndex).map (fun field => (field.1, f field.2))).mergeSort indexLe :=
    map_mergeSort (fun _ _ _ _ => rfl)
  unfold objectOrder
  rw [filter_map, filter_map, map_append, hsort]
  rfl

theorem currentContent_replay (parts : List JsString)
    (hm : message.content = some (.text (join (js "\n\n") parts))) :
    join (js "\n\n") (currentContent [message]) = join (js "\n\n") parts := by
  unfold currentContent
  rw [map_singleton, hm]
  show join _ (List.filter _ [join (js "\n\n") parts]) = _
  generalize join (js "\n\n") parts = text
  cases text with
  | nil => rfl
  | cons u text => simp [join, List.intercalate]

theorem getCurrentSystemMessage_replay (time : Time) (hs : systemMessages later =
      ((getCurrentSystemMessage messages).map (fun message => { message with timestamp := time })).toList) :
    getCurrentSystemMessage later =
      (getCurrentSystemMessage messages).map (fun message => { message with timestamp := time }) ∧
    getCurrentTools later = getCurrentTools messages := by
  by_cases hnone : (systemMessages messages).isEmpty && (getCurrentTools messages).isEmpty
  · have hbefore : getCurrentSystemMessage messages = none := by
      unfold getCurrentSystemMessage
      rw [if_pos hnone]
    rw [hbefore] at hs ⊢
    have hlater : systemMessages later = [] := hs
    have htools : getCurrentTools later = [] := by simp [getCurrentTools, hlater]
    have htools' : getCurrentTools messages = [] := by
      simp only [Bool.and_eq_true, List.isEmpty_iff] at hnone
      exact hnone.2
    refine ⟨?_, htools.trans htools'.symm⟩
    simp [getCurrentSystemMessage, hlater, htools]
  · have hbefore : getCurrentSystemMessage messages = some
        { content := some (.text (join (js "\n\n") (currentContent (systemMessages messages))))
          sections := objectOrder ((currentSections (systemMessages messages)).map (fun field => (field.1, some field.2)))
          toolsAdded := getCurrentTools messages
          toolsRemoved := []
          timestamp := ((systemMessages messages).head?.map SystemMessage.timestamp).getD 0 } := by
      unfold getCurrentSystemMessage
      rw [if_neg hnone]
    rw [hbefore] at hs ⊢
    simp only [Option.map_some, Option.toList_some] at hs ⊢
    generalize hmessage : (SystemMessage.mk _ _ _ _ time) = message at hs ⊢
    have htools : getCurrentTools later = getCurrentTools messages :=
      getCurrentTools_replay messages later message hs (by rw [← hmessage]) (by rw [← hmessage])
    refine ⟨?_, htools⟩
    have hcontent := currentContent_replay message (currentContent (systemMessages messages)) (by rw [← hmessage])
    have hsections : currentSections [message] = objectOrder (currentSections (systemMessages messages)) := by
      refine currentSections_replay message _ ?_ ?_
      · rw [← hmessage]
        exact objectOrder_map some _
      · exact ((keys_objectOrder_perm _).map Prod.fst).nodup_iff.mpr (nodup_currentSections _)
    simp only [getCurrentSystemMessage, hs, htools, hcontent, hsections, objectOrder_map, objectOrder_idem]
    simp only [isEmpty_cons, Bool.false_and, Bool.false_eq_true, if_false, head?_cons, Option.map_some,
      Option.getD_some, ← hmessage, objectOrder_map]

theorem getCurrentSystemPrompt_replay (time : Time) (hs : systemMessages later =
      ((getCurrentSystemMessage messages).map (fun message => { message with timestamp := time })).toList) :
    getCurrentSystemPrompt later = getCurrentSystemPrompt messages := by
  unfold getCurrentSystemPrompt
  rw [(getCurrentSystemMessage_replay messages later time hs).1]
  cases getCurrentSystemMessage messages <;> rfl

end PiAgent.Session
