import PiAgent.Agent.ToolChanges

/-! # Declared tools are the executable tools -/

namespace PiAgent.Agent

open Option Assoc

open Session (Time Tool SystemMessage ToolsWf applyTools)

/-! ## Maps of tools -/

variable {tools : List (JsString × Tool)}

theorem ToolsWf.apply (h : ToolsWf tools) (message : SystemMessage) : ToolsWf (applyTools tools message) := by
  unfold applyTools
  exact Session.foldl_keeps ToolsWf _ (fun _ tool ht => ht.set tool) _ _
    (Session.foldl_keeps ToolsWf _ (fun _ name ht => ht.del name) _ _ h)

def toolsOf (messages : List AgentMessage) : List (JsString × Tool) :=
  (messages.filterMap AgentMessage.system?).foldl applyTools []

variable (messages : List AgentMessage)

theorem toolsWf_toolsOf : ToolsWf (toolsOf messages) :=
  Session.foldl_keeps ToolsWf _ (fun _ message h => ToolsWf.apply h message) _ _ ⟨List.nodup_nil, by simp⟩

theorem toolsOf_append (a b : List AgentMessage) :
    toolsOf (a ++ b) = (b.filterMap AgentMessage.system?).foldl applyTools (toolsOf a) := by
  unfold toolsOf
  rw [List.filterMap_append, List.foldl_append]

theorem toolMap_values (h : ToolsWf tools) : toolMap (tools.map Prod.snd) = tools := by
  have hnames : (tools.map Prod.snd).map Tool.name = keys tools := by
    unfold keys
    rw [List.map_map]
    exact List.map_congr_left (fun entry hmem => (h.names entry hmem).symm)
  have hset := Session.foldl_set_new Tool.name (fun tool => tool) (tools.map Prod.snd) []
    (by simpa [hnames, keys] using h.keys)
  unfold toolMap
  rw [hset, List.nil_append, List.map_map]
  refine (List.map_congr_left (fun entry hmem => ?_)).trans (List.map_id _)
  exact Prod.ext (h.names entry hmem).symm rfl

theorem toolMap_nodup {tools : List Tool} (h : (tools.map Tool.name).Nodup) :
    toolMap tools = tools.map (fun tool => (tool.name, tool)) := by
  have hset := Session.foldl_set_new Tool.name (fun tool => tool) tools [] (by simpa [keys] using h)
  unfold toolMap
  rw [hset, List.nil_append]

theorem get?_set_tools (added : List Tool) (tools : List (JsString × Tool)) (h : (added.map Tool.name).Nodup)
    (name : JsString) :
    (name ∉ added.map Tool.name →
      get? (added.foldl (fun tools tool => set tools tool.name tool) tools) name = get? tools name) ∧
    ∀ tool ∈ added, tool.name = name →
      get? (added.foldl (fun tools tool => set tools tool.name tool) tools) name = some tool := by
  induction added generalizing tools with
  | nil => exact ⟨fun _ => rfl, fun tool hmem => nomatch hmem⟩
  | cons first added ih =>
    rw [List.map_cons, List.nodup_cons] at h
    obtain ⟨hother, hself⟩ := ih (set tools first.name first) h.2
    rw [List.foldl_cons]
    refine ⟨?_, ?_⟩
    · intro hno
      rw [List.map_cons, List.mem_cons, not_or] at hno
      rw [hother hno.2, get?_set_ne _ _ _ _ (fun heq => hno.1 heq.symm)]
    · intro tool hmem hname
      rcases List.mem_cons.mp hmem with rfl | hmem
      · rw [hother (hname ▸ h.1), hname, get?_set_self]
      · exact hself tool hmem hname

theorem get?_del_tools (removed : List JsString) (tools : List (JsString × Tool)) (name : JsString) :
    get? (removed.foldl (fun tools name => del tools name) tools) name =
      if name ∈ removed then none else get? tools name := by
  induction removed generalizing tools with
  | nil => simp
  | cons first removed ih =>
    rw [List.foldl_cons, ih]
    by_cases hfirst : first = name
    · simp [hfirst]
    · have hne : ¬name = first := fun heq => hfirst heq.symm
      rw [get?_del_ne _ _ _ hfirst]
      simp [hne]

/-! ## Declarations -/

def declared (P : Ai.JsonTexts) (tools : List Tool) : List (JsString × JsString) :=
  tools.map (fun tool => (tool.name, declarationText P tool))

def Declares (P : Ai.JsonTexts) (messages : List AgentMessage) (tools : List AgentTool) : Prop :=
  (declared P (getCurrentTools messages)).Perm (declared P (tools.map AgentTool.declaration))

variable (P : Ai.JsonTexts)

theorem mem_declared_map {tools : List (JsString × Tool)} (h : ToolsWf tools) (name text : JsString) :
    (name, text) ∈ declared P (tools.map Prod.snd) ↔ (get? tools name).map (declarationText P) = some text := by
  unfold declared
  rw [List.map_map, List.mem_map]
  refine ⟨?_, ?_⟩
  · rintro ⟨entry, hmem, heq⟩
    obtain ⟨rfl, rfl⟩ := Prod.mk.inj heq
    have hget := get?_of_mem tools entry.1 entry.2 h.keys hmem
    show (get? tools entry.2.name).map (declarationText P) = _
    rw [← h.names entry hmem, hget]
    rfl
  · intro hget
    obtain ⟨tool, htool, rfl⟩ := map_eq_some_iff.mp hget
    have hmem := mem_of_get? tools name tool htool
    exact ⟨(name, tool), hmem, Prod.ext (h.names _ hmem).symm rfl⟩

theorem declared_perm {tools : List (JsString × Tool)} (h : ToolsWf tools) {current : List Tool}
    (hn : (current.map Tool.name).Nodup)
    (hget : ∀ name, (get? tools name).map (declarationText P) =
      (get? (toolMap current) name).map (declarationText P)) :
    (declared P (tools.map Prod.snd)).Perm (declared P current) := by
  have hwf : ToolsWf (toolMap current) := by
    rw [toolMap_nodup hn]
    refine ⟨?_, ?_⟩
    · unfold keys
      rw [List.map_map]
      exact hn
    · intro entry hmem
      obtain ⟨tool, -, rfl⟩ := List.mem_map.mp hmem
      rfl
  have hcurrent : (toolMap current).map Prod.snd = current := by
    rw [toolMap_nodup hn, List.map_map]
    exact List.map_id _
  have hnodup : ∀ {map : List (JsString × Tool)}, ToolsWf map → (declared P (map.map Prod.snd)).Nodup := by
    intro map hmap
    refine List.Nodup.of_map Prod.fst ?_
    unfold declared
    rw [List.map_map, List.map_map]
    have hkeys := hmap.keys
    unfold keys at hkeys
    refine (List.map_congr_left (fun entry hmem => ?_)) ▸ hkeys
    exact hmap.names entry hmem
  rw [← hcurrent]
  refine (List.perm_ext_iff_of_nodup (hnodup h) (hnodup hwf)).mpr ?_
  rintro ⟨name, text⟩
  rw [mem_declared_map P h, mem_declared_map P hwf, hget]

/-! ## Changes lead to the tools they are made for -/

theorem get?_toolMap {tools : List Tool} (h : (tools.map Tool.name).Nodup) (name : JsString) (tool : Tool) :
    get? (toolMap tools) name = some tool ↔ tool ∈ tools ∧ tool.name = name := by
  rw [toolMap_nodup h]
  refine ⟨?_, ?_⟩
  · intro hget
    obtain ⟨tool', hmem, heq⟩ := List.mem_map.mp (mem_of_get? _ _ _ hget)
    obtain ⟨rfl, rfl⟩ := Prod.mk.inj heq
    exact ⟨hmem, rfl⟩
  · rintro ⟨hmem, rfl⟩
    refine get?_of_mem _ _ _ ?_ (List.mem_map.mpr ⟨tool, hmem, rfl⟩)
    unfold keys
    rw [List.map_map]
    exact h

theorem get?_changed {tools : List (JsString × Tool)} (h : ToolsWf tools) {current : List Tool}
    (hn : (current.map Tool.name).Nodup) (message : SystemMessage) (name : JsString) :
    (get? (applyTools tools (withToolChanges message (getToolStateChanges P (tools.map Prod.snd) current))) name).map
        (declarationText P) = (get? (toolMap current) name).map (declarationText P) := by
  have hadded : ((getToolStateChanges P (tools.map Prod.snd) current).toolsAdded.map Tool.name).Nodup :=
    (List.filter_sublist.map _).nodup hn
  have hmemAdded : ∀ tool, tool ∈ (getToolStateChanges P (tools.map Prod.snd) current).toolsAdded ↔
      tool ∈ current ∧ differs P tools tool = true := by
    intro tool
    unfold getToolStateChanges
    rw [List.mem_filter, toolMap_values h]
  have hmemRemoved : name ∈ (getToolStateChanges P (tools.map Prod.snd) current).toolsRemoved ↔
      ∃ tool, get? tools name = some tool ∧ differs P (toolMap current) tool = true := by
    unfold getToolStateChanges
    rw [List.mem_map]
    refine ⟨?_, ?_⟩
    · rintro ⟨tool, hmem, rfl⟩
      obtain ⟨hmem, hdiffers⟩ := List.mem_filter.mp hmem
      obtain ⟨entry, hentry, rfl⟩ := List.mem_map.mp hmem
      refine ⟨entry.2, ?_, hdiffers⟩
      rw [← h.names entry hentry]
      exact get?_of_mem _ _ _ h.keys hentry
    · rintro ⟨tool, hget, hdiffers⟩
      have hmem := mem_of_get? _ _ _ hget
      exact ⟨tool, List.mem_filter.mpr ⟨List.mem_map.mpr ⟨_, hmem, rfl⟩, hdiffers⟩, (h.names _ hmem).symm⟩
  have hname : ∀ tool, get? tools name = some tool → tool.name = name :=
    fun tool hget => (h.names _ (mem_of_get? _ _ _ hget)).symm
  unfold applyTools withToolChanges
  simp only
  obtain ⟨hother, hself⟩ := get?_set_tools (getToolStateChanges P (tools.map Prod.snd) current).toolsAdded
    ((getToolStateChanges P (tools.map Prod.snd) current).toolsRemoved.foldl (fun tools name => del tools name) tools)
    hadded name
  cases hcurrent : get? (toolMap current) name with
  | none =>
    -- the tool is gone
    have hno : name ∉ (getToolStateChanges P (tools.map Prod.snd) current).toolsAdded.map Tool.name := by
      intro hmem
      obtain ⟨tool, htool, rfl⟩ := List.mem_map.mp hmem
      have hget := (get?_toolMap hn tool.name tool).mpr ⟨((hmemAdded tool).mp htool).1, rfl⟩
      rw [hcurrent] at hget
      cases hget
    rw [hother hno, get?_del_tools]
    split
    · rfl
    · rename_i hkept
      cases hget : get? tools name with
      | none => rfl
      | some tool =>
        refine absurd (hmemRemoved.mpr ⟨tool, hget, ?_⟩) hkept
        unfold differs
        rw [hname tool hget, hcurrent]
  | some tool =>
    obtain ⟨hmem, htool⟩ := (get?_toolMap hn name tool).mp hcurrent
    cases hdiffers : differs P tools tool with
    | true =>
      rw [hself tool ((hmemAdded tool).mpr ⟨hmem, hdiffers⟩) htool]
    | false =>
      -- it is declared as it is already
      have hno : name ∉ (getToolStateChanges P (tools.map Prod.snd) current).toolsAdded.map Tool.name := by
        intro hadd
        obtain ⟨tool', htool', hname'⟩ := List.mem_map.mp hadd
        obtain ⟨hmem', hdiffers'⟩ := (hmemAdded tool').mp htool'
        have hsame := (get?_toolMap hn name tool').mpr ⟨hmem', hname'⟩
        obtain rfl := some.inj (hcurrent.symm.trans hsame)
        rw [hdiffers] at hdiffers'
        cases hdiffers'
      unfold differs at hdiffers
      rw [htool] at hdiffers
      cases hget : get? tools name with
      | none =>
        rw [hget] at hdiffers
        cases hdiffers
      | some previous =>
        rw [hget] at hdiffers
        have hequal : declarationText P previous = declarationText P tool := by
          simpa [declarationsEqual] using hdiffers
        have hkept : name ∉ (getToolStateChanges P (tools.map Prod.snd) current).toolsRemoved := by
          intro hremoved
          obtain ⟨tool', hget', hdiffers'⟩ := hmemRemoved.mp hremoved
          obtain rfl := some.inj (hget.symm.trans hget')
          unfold differs at hdiffers'
          rw [hname _ hget, hcurrent] at hdiffers'
          simp [declarationsEqual, hequal] at hdiffers'
        rw [hother hno, get?_del_tools, if_neg hkept, hget, map_some, map_some, hequal]

theorem applyTools_unchanged (tools : List (JsString × Tool)) (message : SystemMessage) (ha : message.toolsAdded = [])
    (hr : message.toolsRemoved = []) : applyTools tools message = tools := by
  unfold applyTools
  rw [ha, hr]
  rfl

theorem withToolChanges_empty (message : SystemMessage) {changes : ToolStateChanges} (h : changes.isEmpty = true) :
    (withToolChanges message changes).toolsAdded = [] ∧ (withToolChanges message changes).toolsRemoved = [] := by
  unfold ToolStateChanges.isEmpty at h
  rw [Bool.and_eq_true, List.isEmpty_iff, List.isEmpty_iff] at h
  exact h

/-! ## Declaring changes -/

theorem splitLastSystem_none {messages : List AgentMessage} (h : splitLastSystem messages = none) :
    ∀ m ∈ messages, m.system? = none := by
  induction messages with
  | nil => simp
  | cons m rest ih =>
    unfold splitLastSystem at h
    split at h
    · cases h
    · rename_i hrest
      intro x hx
      rcases List.mem_cons.mp hx with rfl | hx
      · simpa using h
      · exact ih hrest x hx

theorem splitLastSystem_some {messages before after : List AgentMessage} {pending : AgentMessage}
    {message : SystemMessage} (h : splitLastSystem messages = some (before, pending, message, after)) :
    messages = before ++ pending :: after ∧ pending.system? = some message ∧ ∀ m ∈ after, m.system? = none := by
  induction messages generalizing before with
  | nil => cases h
  | cons m rest ih =>
    unfold splitLastSystem at h
    split at h
    · rename_i before' pending' message' after' hrest
      cases h
      obtain ⟨rfl, hm, hafter⟩ := ih hrest
      exact ⟨rfl, hm, hafter⟩
    · rename_i hrest
      obtain ⟨message', hm, heq⟩ := map_eq_some_iff.mp h
      cases heq
      exact ⟨rfl, hm, splitLastSystem_none hrest⟩

theorem filterMap_system_nil {messages : List AgentMessage} (h : ∀ m ∈ messages, m.system? = none) :
    messages.filterMap AgentMessage.system? = [] := List.filterMap_eq_nil_iff.mpr h

theorem toolsOf_last (a b : List AgentMessage) (pending : AgentMessage) (message : SystemMessage)
    (hm : pending.system? = some message) (hb : ∀ m ∈ b, m.system? = none) :
    toolsOf (a ++ pending :: b) = applyTools (toolsOf a) message := by
  rw [toolsOf_append, List.filterMap_cons_some hm, filterMap_system_nil hb]
  rfl

theorem declares_of_changes (messages : List AgentMessage) {later : List AgentMessage} {tools : List AgentTool}
    (hn : (tools.map (fun tool => tool.declaration.name)).Nodup) (message : SystemMessage)
    (hl : toolsOf later = applyTools (toolsOf messages) (withToolChanges message
      (getToolStateChanges P (getCurrentTools messages) (tools.map AgentTool.declaration)))) :
    Declares P later tools := by
  have hnames : ((tools.map AgentTool.declaration).map Tool.name).Nodup := by rwa [List.map_map]
  refine declared_perm P (toolsWf_toolsOf later) hnames (fun name => ?_)
  rw [hl]
  exact get?_changed P (toolsWf_toolsOf messages) hnames message name

variable (now : Time) (context : AgentContext) (pendingMessages : List AgentMessage)

theorem declareToolChanges_declares (hn : (context.tools.map (fun tool => tool.declaration.name)).Nodup) :
    Declares P (context.messages ++ declareToolChanges P now context pendingMessages) context.tools := by
  unfold declareToolChanges
  cases hsplit : splitLastSystem pendingMessages with
  | none =>
    have hno := splitLastSystem_none hsplit
    simp only
    split
    · rename_i hempty
      refine declares_of_changes P (context.messages ++ pendingMessages) hn ⟨none, [], [], [], 0⟩ ?_
      obtain ⟨ha, hr⟩ := withToolChanges_empty ⟨none, [], [], [], 0⟩ hempty
      rw [applyTools_unchanged _ _ ha hr]
    · refine declares_of_changes P (context.messages ++ pendingMessages) hn ⟨some (.text []), [], [], [], now⟩ ?_
      have hbase : toolsOf (context.messages ++ pendingMessages) = toolsOf context.messages := by
        rw [toolsOf_append, filterMap_system_nil hno]
        rfl
      rw [hbase, ← List.append_assoc, toolsOf_last _ _ _ _ rfl (fun m hm => hno m (List.mem_of_mem_drop hm)), toolsOf_append,
        filterMap_system_nil (fun m hm => hno m (List.mem_of_mem_take hm))]
      rfl
  | some parts =>
    obtain ⟨before, pending, message, after⟩ := parts
    obtain ⟨rfl, hm, hafter⟩ := splitLastSystem_some hsplit
    simp only
    -- the last system message is about to declare the changes from what comes before it
    have hbase : toolsOf (context.messages ++ (before ++
        { pending with body := .system (withToolChanges message noChanges) } :: after)) =
          toolsOf (context.messages ++ before) := by
      rw [← List.append_assoc, toolsOf_last _ _ _ _ rfl hafter, applyTools_unchanged _ _ rfl rfl]
    split
    · rename_i hempty
      rw [Bool.and_eq_true, Bool.and_eq_true, List.isEmpty_iff, List.isEmpty_iff] at hempty
      obtain ⟨⟨hchanges, hadded⟩, hremoved⟩ := hempty
      refine declares_of_changes P (context.messages ++ (before ++
        { pending with body := .system (withToolChanges message noChanges) } :: after)) hn message ?_
      obtain ⟨ha, hr⟩ := withToolChanges_empty message hchanges
      rw [applyTools_unchanged _ _ ha hr, hbase, ← List.append_assoc, toolsOf_last _ _ _ _ hm hafter,
        applyTools_unchanged _ _ hadded hremoved]
    · refine declares_of_changes P (context.messages ++ (before ++
        { pending with body := .system (withToolChanges message noChanges) } :: after)) hn message ?_
      rw [hbase, ← List.append_assoc, toolsOf_last _ _ _ _ rfl hafter]

theorem getToolStateChanges_declared (messages : List AgentMessage) {tools : List AgentTool}
    (hn : (tools.map (fun tool => tool.declaration.name)).Nodup) (h : Declares P messages tools) :
    (getToolStateChanges P (getCurrentTools messages) (tools.map AgentTool.declaration)).isEmpty = true := by
  have hnames : ((tools.map AgentTool.declaration).map Tool.name).Nodup := by rwa [List.map_map]
  have hwf := toolsWf_toolsOf messages
  have hsame : ∀ (a b : Tool), declarationText P a = declarationText P b → declarationsEqual P a b = true := by
    intro a b hab
    simpa [declarationsEqual] using hab
  unfold ToolStateChanges.isEmpty getToolStateChanges
  simp only [Bool.and_eq_true, List.isEmpty_iff, List.map_eq_nil_iff, List.filter_eq_nil_iff]
  refine ⟨?_, ?_⟩
  · intro tool hmem
    have hdeclared := h.mem_iff.mpr (List.mem_map.mpr ⟨tool, hmem, rfl⟩)
    obtain ⟨other, hget, htext⟩ := map_eq_some_iff.mp ((mem_declared_map P hwf tool.name _).mp hdeclared)
    unfold differs
    rw [show toolMap (getCurrentTools messages) = toolsOf messages from toolMap_values hwf, hget]
    simp [hsame other tool htext]
  · intro tool hmem
    have hdeclared := h.mem_iff.mp (List.mem_map.mpr ⟨tool, hmem, rfl⟩)
    obtain ⟨other, hother, heq⟩ := List.mem_map.mp hdeclared
    obtain ⟨hname, htext⟩ := Prod.mk.inj heq
    unfold differs
    rw [(get?_toolMap hnames tool.name other).mpr ⟨hother, hname⟩]
    simp [hsame other tool htext]

section

variable (hn : (context.tools.map (fun tool => tool.declaration.name)).Nodup)
    (hd : Declares P context.messages context.tools)
include hn hd

theorem declareToolChanges_same (hp : ∀ m ∈ pendingMessages, m.system? = none) :
    declareToolChanges P now context pendingMessages = pendingMessages := by
  have hnone : splitLastSystem pendingMessages = none := by
    cases hsplit : splitLastSystem pendingMessages with
    | none => rfl
    | some parts =>
      obtain ⟨before, pending, message, after⟩ := parts
      obtain ⟨rfl, hm, -⟩ := splitLastSystem_some hsplit
      rw [hp pending (by simp)] at hm
      cases hm
  have hcurrent : getCurrentTools (context.messages ++ pendingMessages) = getCurrentTools context.messages := by
    show (toolsOf _).map Prod.snd = _
    rw [toolsOf_append, filterMap_system_nil hp]
    rfl
  unfold declareToolChanges
  rw [hnone]
  simp only [hcurrent]
  rw [if_pos (getToolStateChanges_declared P context.messages hn hd)]

theorem declareToolChanges_length :
    (declareToolChanges P now context pendingMessages).length = pendingMessages.length := by
  cases hsplit : splitLastSystem pendingMessages with
  | none => rw [declareToolChanges_same P now context pendingMessages hn hd (splitLastSystem_none hsplit)]
  | some parts =>
    obtain ⟨before, pending, message, after⟩ := parts
    obtain ⟨rfl, -, -⟩ := splitLastSystem_some hsplit
    unfold declareToolChanges
    rw [hsplit]
    simp only
    split <;> simp

end

end PiAgent.Agent
