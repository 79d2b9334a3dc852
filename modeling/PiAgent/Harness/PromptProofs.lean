import PiAgent.Harness.PromptSections
import PiAgent.Harness.ContextProofs
import PiAgent.Agent.ToolChangesProofs

/-! # Planned prompt entries lead to what is desired -/

namespace PiAgent.Harness

open List Assoc Durable
open Session (Time Tool SystemMessage ToolsWf applyTools patchSection objectOrder)
open Agent (ToolStateChanges declared declarationText declarationsEqual toolMap)

/-! ## Tools -/

section Tools

variable (P : Ai.JsonTexts)

/-- Tools with names of their own that follow the same names and texts are declared alike. -/
theorem declared_eq (a b : List Tool) (hnames : a.map Tool.name = b.map Tool.name)
    (htexts : ∀ tool ∈ a, ∀ other ∈ b, tool.name = other.name → declarationText P tool = declarationText P other) :
    declared P a = declared P b := by
  induction a generalizing b with
  | nil =>
    cases b with
    | nil => rfl
    | cons other b => cases hnames
  | cons tool a ih =>
    cases b with
    | nil => cases hnames
    | cons other b =>
      obtain ⟨hname, hrest⟩ := List.cons.inj hnames
      have htail := ih b hrest (fun t ht o ho => htexts t (mem_cons_of_mem _ ht) o (mem_cons_of_mem _ ho))
      have htext := htexts tool mem_cons_self other mem_cons_self hname
      unfold declared at htail ⊢
      rw [map_cons, map_cons, htail, hname, htext]

theorem keepsTool_iff (desired : List Tool) (hd : (desired.map Tool.name).Nodup) (tool : Tool) :
    keepsTool P (toolMap desired) tool = true ↔
      ∃ next ∈ desired, next.name = tool.name ∧ declarationText P tool = declarationText P next := by
  unfold keepsTool
  cases hget : get? (toolMap desired) tool.name with
  | none =>
    simp only [Bool.false_eq_true, false_iff]
    rintro ⟨next, hmem, hname, -⟩
    rw [(Agent.get?_toolMap hd tool.name next).mpr ⟨hmem, hname⟩] at hget
    cases hget
  | some next =>
    obtain ⟨hmem, hname⟩ := (Agent.get?_toolMap hd tool.name next).mp hget
    simp only [declarationsEqual, decide_eq_true_eq]
    constructor
    · intro htext
      exact ⟨next, hmem, hname, htext⟩
    · rintro ⟨other, hother, hsame, htext⟩
      rw [(Agent.get?_toolMap hd tool.name other).mpr ⟨hother, hsame⟩] at hget
      rw [Option.some.inj hget] at htext
      exact htext

theorem toolsWf_map (tools : List (JsString × Tool)) (h : ToolsWf tools) :
    tools = (tools.map Prod.snd).map (fun tool => (tool.name, tool)) := by
  rw [map_map]
  refine ((map_congr_left (fun entry hmem => ?_)).trans (map_id _)).symm
  exact Prod.ext (h.names entry hmem).symm rfl

theorem foldl_del (removed : List JsString) (tools : List (JsString × Tool)) :
    removed.foldl (fun tools name => del tools name) tools =
      tools.filter (fun entry => !removed.contains entry.1) := by
  induction removed generalizing tools with
  | nil => simp
  | cons name removed ih =>
    rw [foldl_cons, ih]
    unfold del
    rw [filter_filter]
    refine filter_congr (fun entry _ => ?_)
    by_cases heq : entry.1 = name <;> simp [heq]

theorem applyTools_changes (tools : List (JsString × Tool)) (h : ToolsWf tools) (changes : ToolStateChanges)
    (hadded : (changes.toolsAdded.map Tool.name).Nodup)
    (hnew : ∀ tool ∈ changes.toolsAdded, ∀ other ∈ tools.map Prod.snd, other.name = tool.name →
      other.name ∈ changes.toolsRemoved) (message : SystemMessage) (ha : message.toolsAdded = changes.toolsAdded)
    (hr : message.toolsRemoved = changes.toolsRemoved) :
    (applyTools tools message).map Prod.snd =
      (tools.map Prod.snd).filter (fun tool => !changes.toolsRemoved.contains tool.name) ++ changes.toolsAdded := by
  have hkept : tools.filter (fun entry => !changes.toolsRemoved.contains entry.1) =
      ((tools.map Prod.snd).filter (fun tool => !changes.toolsRemoved.contains tool.name)).map
        (fun tool => (tool.name, tool)) := by
    conv_lhs => rw [toolsWf_map tools h]
    rw [filter_map]
    rfl
  unfold applyTools
  rw [ha, hr, foldl_del, Session.foldl_set_new Tool.name (fun tool => tool), map_append, hkept, map_map, map_map]
  · exact congrArg₂ (· ++ ·) (map_id _) (map_id _)
  · refine nodup_append.mpr ⟨(filter_sublist.map _).nodup h.keys, hadded, fun name hname other hother heq => ?_⟩
    obtain ⟨entry, hentry, rfl⟩ := mem_map.mp hname
    obtain ⟨tool, htool, rfl⟩ := mem_map.mp hother
    obtain ⟨hmem, hnot⟩ := mem_filter.mp hentry
    have hentryName := h.names entry hmem
    have hremoved := hnew tool htool entry.2 (mem_map_of_mem hmem) (by rw [← hentryName, heq])
    rw [← hentryName] at hremoved
    simp [hremoved] at hnot

variable (offered desired : List Tool) (ho : (offered.map Tool.name).Nodup) (hd : (desired.map Tool.name).Nodup)

include ho hd

theorem replayed_length : (offered.filter (keepsTool P (toolMap desired)) ++ desired.filter (fun tool =>
      !((offered.filter (keepsTool P (toolMap desired))).map Tool.name).contains tool.name)).length = desired.length := by
  have hperm : ((offered.filter (keepsTool P (toolMap desired))).map Tool.name).Perm ((desired.filter (fun tool =>
      ((offered.filter (keepsTool P (toolMap desired))).map Tool.name).contains tool.name)).map Tool.name) := by
    refine (perm_ext_iff_of_nodup ((filter_sublist.map _).nodup ho)
      ((filter_sublist.map _).nodup hd)).mpr (fun name => ?_)
    constructor
    · intro hmem
      obtain ⟨tool, htool, rfl⟩ := mem_map.mp hmem
      obtain ⟨next, hnext, hname, -⟩ := (keepsTool_iff P desired hd tool).mp (mem_filter.mp htool).2
      refine mem_map.mpr ⟨next, mem_filter.mpr ⟨hnext, ?_⟩, hname⟩
      rw [contains_iff_mem, hname]
      exact hmem
    · intro hmem
      obtain ⟨tool, htool, rfl⟩ := mem_map.mp hmem
      exact contains_iff_mem.mp (mem_filter.mp htool).2
  have hlength := hperm.length_eq
  rw [length_map, length_map] at hlength
  rw [length_append, hlength, ← length_append]
  exact (filter_append_perm _ desired).length_eq

/-- After the planned changes the desired tools are declared, in the desired order. -/
theorem planTools_declares (tools : List (JsString × Tool)) (h : ToolsWf tools) (heq : tools.map Prod.snd = offered)
    (message : SystemMessage) (ha : message.toolsAdded = (planTools P offered desired).toolsAdded)
    (hr : message.toolsRemoved = (planTools P offered desired).toolsRemoved) :
    declared P ((applyTools tools message).map Prod.snd) = declared P desired := by
  by_cases horder : (offered.filter (keepsTool P (toolMap desired)) ++ desired.filter (fun tool =>
      !((offered.filter (keepsTool P (toolMap desired))).map Tool.name).contains tool.name)).zipIdx.any
        (fun e => desired[e.2]?.map Tool.name ≠ some e.1.name) = true
  · -- All of them are removed and added again.
    have hplan : planTools P offered desired = { toolsRemoved := offered.map Tool.name, toolsAdded := desired } :=
      if_pos horder
    rw [hplan] at ha hr
    rw [applyTools_changes tools h { toolsRemoved := offered.map Tool.name, toolsAdded := desired } hd
      (fun tool _ other hother _ => mem_map_of_mem (heq ▸ hother)) message ha hr, heq]
    have hnone : offered.filter (fun tool => !(offered.map Tool.name).contains tool.name) = [] := by
      refine filter_eq_nil_iff.mpr (fun tool hmem => ?_)
      have : tool.name ∈ offered.map Tool.name := mem_map_of_mem hmem
      simp only [Bool.not_eq_true', Bool.not_eq_false, contains_iff_mem]
      exact this
    rw [hnone, nil_append]
  · have hplan : planTools P offered desired =
        { toolsRemoved := (offered.filter (fun tool =>
            !((offered.filter (keepsTool P (toolMap desired))).map Tool.name).contains tool.name)).map Tool.name
          toolsAdded := desired.filter (fun tool =>
            !((offered.filter (keepsTool P (toolMap desired))).map Tool.name).contains tool.name) } := if_neg horder
    rw [hplan] at ha hr
    have hkeptIff : ∀ tool ∈ offered, (tool.name ∈ (offered.filter (keepsTool P (toolMap desired))).map Tool.name ↔
        keepsTool P (toolMap desired) tool = true) := by
      intro tool hmem
      constructor
      · intro hname
        obtain ⟨other, hother, hsame⟩ := mem_map.mp hname
        obtain ⟨hmem', hkeeps⟩ := mem_filter.mp hother
        rwa [inj_on_of_nodup_map ho hmem' hmem hsame] at hkeeps
      · exact fun hkeeps => mem_map_of_mem (mem_filter.mpr ⟨hmem, hkeeps⟩)
    have hremoved : ∀ tool ∈ offered, (tool.name ∈ (offered.filter (fun tool =>
        !((offered.filter (keepsTool P (toolMap desired))).map Tool.name).contains tool.name)).map Tool.name ↔
          keepsTool P (toolMap desired) tool = false) := by
      intro tool hmem
      rw [← Bool.not_eq_true, ← hkeptIff tool hmem]
      constructor
      · intro hname
        obtain ⟨other, hother, hsame⟩ := mem_map.mp hname
        obtain ⟨hmem', hnot⟩ := mem_filter.mp hother
        rw [inj_on_of_nodup_map ho hmem' hmem hsame] at hnot
        rw [Bool.not_eq_true', ← Bool.not_eq_true, contains_iff_mem] at hnot
        exact hnot
      · intro hnot
        refine mem_map_of_mem (mem_filter.mpr ⟨hmem, ?_⟩)
        rw [Bool.not_eq_true', ← Bool.not_eq_true, contains_iff_mem]
        exact hnot
    rw [applyTools_changes tools h _ ((filter_sublist.map _).nodup hd) ?_ message ha hr, heq]
    · have hkept : offered.filter (fun tool => !((offered.filter (fun tool =>
          !((offered.filter (keepsTool P (toolMap desired))).map Tool.name).contains tool.name)).map Tool.name).contains
            tool.name) = offered.filter (keepsTool P (toolMap desired)) := by
        refine filter_congr (fun tool hmem => ?_)
        rw [Bool.eq_iff_iff, Bool.not_eq_true', ← Bool.not_eq_true, contains_iff_mem, hremoved tool hmem,
          Bool.not_eq_false]
      rw [hkept]
      have hnames := eq_of_zipIdx ((offered.filter (keepsTool P (toolMap desired)) ++ desired.filter (fun tool =>
        !((offered.filter (keepsTool P (toolMap desired))).map Tool.name).contains tool.name)).map Tool.name)
        (desired.map Tool.name) (by rw [length_map, length_map, replayed_length P offered desired ho hd])
        (by
          rw [any_eq_false]
          rintro ⟨name, index⟩ hmem
          rw [mem_zipIdx_iff_getElem?, getElem?_map] at hmem
          obtain ⟨tool, htool, rfl⟩ := Option.map_eq_some_iff.mp hmem
          rw [Bool.not_eq_true, any_eq_false] at horder
          have := horder (tool, index) (mem_zipIdx_iff_getElem?.mpr htool)
          simpa [getElem?_map] using this)
      refine declared_eq P _ _ hnames (fun tool htool other hother hname => ?_)
      rcases mem_append.mp htool with hk | ha'
      · obtain ⟨next, hnext, hnextName, htext⟩ := (keepsTool_iff P desired hd tool).mp (mem_filter.mp hk).2
        rw [inj_on_of_nodup_map hd hother hnext (hname.symm.trans hnextName.symm)]
        exact htext
      · rw [inj_on_of_nodup_map hd hother (mem_filter.mp ha').1 hname.symm]
    · intro tool htool other hother hname
      rw [heq] at hother
      rw [hremoved other hother, ← Bool.not_eq_true, ← hkeptIff other hother, hname]
      have hnot := (mem_filter.mp htool).2
      rw [Bool.not_eq_true', ← Bool.not_eq_true, contains_iff_mem] at hnot
      exact hnot

omit ho in
theorem planTools_none (heq : declared P offered = declared P desired) :
    (planTools P offered desired).toolsRemoved = [] ∧ (planTools P offered desired).toolsAdded = [] := by
  have hnames : offered.map Tool.name = desired.map Tool.name := by
    have := congrArg (List.map Prod.fst) heq
    unfold declared at this
    rwa [map_map, map_map] at this
  have hkept : offered.filter (keepsTool P (toolMap desired)) = offered := by
    refine filter_eq_self.mpr (fun tool hmem => (keepsTool_iff P desired hd tool).mpr ?_)
    have hdeclared : (tool.name, declarationText P tool) ∈ declared P desired := by
      rw [← heq]
      exact mem_map.mpr ⟨tool, hmem, rfl⟩
    obtain ⟨next, hnext, hpair⟩ := mem_map.mp hdeclared
    obtain ⟨hname, htext⟩ := Prod.mk.inj hpair
    exact ⟨next, hnext, hname, htext.symm⟩
  have hadded : desired.filter (fun tool => !(offered.map Tool.name).contains tool.name) = [] := by
    refine filter_eq_nil_iff.mpr (fun tool hmem => ?_)
    simp only [Bool.not_eq_true', Bool.not_eq_false, contains_iff_mem]
    rw [hnames]
    exact mem_map_of_mem hmem
  have hremoved : offered.filter (fun tool => !(offered.map Tool.name).contains tool.name) = [] := by
    refine filter_eq_nil_iff.mpr (fun tool hmem => ?_)
    simp only [Bool.not_eq_true', Bool.not_eq_false, contains_iff_mem]
    exact mem_map_of_mem hmem
  have horder : offered.zipIdx.any (fun e => desired[e.2]?.map Tool.name ≠ some e.1.name) = false := by
    rw [any_eq_false]
    rintro ⟨tool, index⟩ hmem
    have hget := mem_zipIdx_iff_getElem?.mp hmem
    have hat := congrArg (fun names => names[index]?) hnames
    simp only [getElem?_map] at hat
    rw [hget] at hat
    simp [← hat]
  unfold planTools
  simp only [hkept, hadded, append_nil, horder, hremoved]
  exact ⟨rfl, rfl⟩

end Tools

/-! ## System messages of a view -/

def systems (messages : List Message) : List SystemMessage := messages.filterMap Message.system?

theorem systems_append (a b : List Message) : systems (a ++ b) = systems a ++ systems b := filterMap_append

theorem systems_orderToolResults (messages : List Message) : systems (orderToolResults messages) = systems messages := by
  have hothers : ∀ messages : List Message, systems messages = (others messages).filterMap Message.system? := by
    intro messages
    unfold systems others
    rw [List.filterMap_filter]
    refine filterMap_congr (fun message _ => ?_)
    cases message <;> rfl
  rw [hothers, others_orderToolResults, ← hothers]

theorem systems_users (messages : List Message) (h : ∀ message ∈ messages, isUser message = true) :
    systems messages = [] := by
  refine filterMap_eq_nil_iff.mpr (fun message hmem => ?_)
  have hu := h message hmem
  cases message with
  | user m => rfl
  | system m => cases hu
  | assistant m => cases hu
  | toolResult m => cases hu

theorem systems_leadWithSystem (messages : List Message) : systems (leadWithSystem messages) = systems messages := by
  unfold leadWithSystem
  dsimp only
  split
  · rfl
  · split
    · rename_i m hget
      -- Before the system message there are only users.
      have husers : systems (messages.take (messages.findIdx (fun message => !isUser message))) = [] := by
        refine systems_users _ (fun message hmem => ?_)
        obtain ⟨i, hi, rfl⟩ := mem_iff_getElem.mp hmem
        rw [length_take] at hi
        rw [getElem_take]
        have hlt : i < messages.findIdx (fun message => !isUser message) := by omega
        simpa using not_of_lt_findIdx hlt
      obtain ⟨hlt, hat⟩ := List.getElem?_eq_some_iff.mp hget
      conv_rhs => rw [← List.take_append_drop (messages.findIdx (fun message => !isUser message)) messages,
        drop_eq_getElem_cons hlt, hat]
      change m :: systems (_ ++ _) = _
      rw [systems_append, systems_append, husers, nil_append, nil_append]
      rfl
    · rfl

/-- A view whose messages are derived from its contributions, with the system messages of `pi.system` entries only. -/
structure ViewOk (isSystem : EntryRecord → Bool) (view : ContextView) : Prop where
  lengths : view.contributions.length = view.entries.length
  messages : view.messages = leadWithSystem (orderToolResults view.contributions.flatten)
  systems : ∀ e ∈ view.entries.zip view.contributions, systems e.2 ≠ [] → isSystem e.1 = true

theorem systems_view (messages : List (List Message)) :
    systems (leadWithSystem (orderToolResults messages.flatten)) = messages.flatMap systems := by
  rw [systems_leadWithSystem, systems_orderToolResults]
  unfold systems
  rw [filterMap_flatten]
  rfl

/-! ## What planned entries do -/

def patchSections (sections : List (JsString × JsString)) (message : SystemMessage) : List (JsString × JsString) :=
  message.sections.foldl patchSection sections

theorem replaySections_eq (messages : List Message) : replaySections messages = (systems messages).foldl patchSections [] := rfl

theorem nodup_shown (messages : List Message) : (keys (replaySections messages)).Nodup :=
  Session.nodup_currentSections _

theorem toolsWf_systems (messages : List SystemMessage) : ToolsWf (messages.foldl applyTools []) :=
  Session.foldl_keeps ToolsWf _ (fun _ message h => Agent.ToolsWf.apply h message) _ _ ⟨nodup_nil, by simp⟩

def plannedEntries (sections : List SectionPatch) (changes : ToolStateChanges) (timestamp : Time) : List SystemDraft :=
  if changes.toolsRemoved.isEmpty && changes.toolsAdded.isEmpty then
    sections.map (fun patch => systemEntry patch noChanges timestamp)
  else if sections.isEmpty then [systemEntry [] changes timestamp]
  else
    sections.zipIdx.map (fun e => systemEntry e.1 (if e.2 = sections.length - 1 then changes else noChanges) timestamp)

structure Effect (sections : List SectionPatch) (changes : ToolStateChanges) (timestamp : Time)
    (planned : List SystemDraft) : Prop where
  sections : ∀ shown, (planned.map SystemDraft.message).foldl patchSections shown =
    sections.foldl (fun shown patch => patch.foldl patchSection shown) shown
  tools : ∀ tools, (planned.map SystemDraft.message).foldl applyTools tools =
    applyTools tools (systemEntry [] changes timestamp).message
  edits : planned.flatMap SystemDraft.edits = []

theorem plannedEntries_effect (sections : List SectionPatch) (changes : ToolStateChanges) (timestamp : Time)
    (hsections : sections = [] ∨ (∃ patch, sections = [patch]) ∨ ∃ first second, sections = [first, second]) :
    Effect sections changes timestamp (plannedEntries sections changes timestamp) := by
  unfold plannedEntries
  split
  · rename_i hempty
    rw [Bool.and_eq_true, List.isEmpty_iff, List.isEmpty_iff] at hempty
    have hnone : ∀ tools, applyTools tools (systemEntry [] changes timestamp).message = tools :=
      fun tools => Agent.applyTools_unchanged tools _ hempty.2 hempty.1
    rcases hsections with rfl | ⟨patch, rfl⟩ | ⟨first, second, rfl⟩
    · exact ⟨fun _ => rfl, fun tools => (hnone tools).symm, rfl⟩
    · exact ⟨fun _ => rfl, fun tools => (hnone tools).symm, rfl⟩
    · exact ⟨fun _ => rfl, fun tools => (hnone tools).symm, rfl⟩
  · rcases hsections with rfl | ⟨patch, rfl⟩ | ⟨first, second, rfl⟩
    · exact ⟨fun _ => rfl, fun _ => rfl, rfl⟩
    · exact ⟨fun _ => rfl, fun _ => rfl, rfl⟩
    · exact ⟨fun _ => rfl, fun _ => rfl, rfl⟩

theorem planSections_length (shown desired : List (JsString × JsString)) :
    planSections shown desired = [] ∨ (∃ patch, planSections shown desired = [patch]) ∨
      ∃ first second, planSections shown desired = [first, second] := by
  unfold planSections
  split
  · exact .inr (.inr ⟨_, _, rfl⟩)
  · dsimp only
    split
    · exact .inl rfl
    · exact .inr (.inl ⟨_, rfl⟩)

def Lands (shown desired : List (JsString × JsString)) : Prop :=
  if reorders shown desired = true then objectOrder desired = desired
  else objectOrder (newSections shown desired) = newSections shown desired ∧
    get? shown (js "__proto__") = get? desired (js "__proto__")

theorem planSections_iff (shown desired : List (JsString × JsString)) (hs : (keys shown).Nodup)
    (hd : (keys desired).Nodup) :
    (planSections shown desired).foldl (fun shown patch => patch.foldl patchSection shown) shown = desired ↔
      Lands shown desired := by
  unfold planSections Lands
  by_cases horder : reorders shown desired = true
  · rw [if_pos horder, if_pos horder, foldl_cons, foldl_cons, foldl_nil, fromEntries_removed shown hs,
      fromEntries_present desired hd]
  · rw [if_neg horder, if_neg horder, ← minimal_iff shown desired hs hd (Bool.not_eq_true _ ▸ horder)]
    dsimp only
    split
    · rename_i hempty
      rw [List.isEmpty_iff.mp hempty]
      rfl
    · rfl

theorem planSections_same (desired : List (JsString × JsString)) (hd : (keys desired).Nodup) :
    planSections desired desired = [] := by
  have hhas : ∀ key ∈ keys desired, has desired key = true := fun key hmem => (has_iff desired key).mpr hmem
  have hnew : newSections desired desired = [] := by
    refine filter_eq_nil_iff.mpr (fun field hmem => ?_)
    simp [hhas field.1 (mem_map_of_mem hmem)]
  have hchanged : desired.filter (fun field => get? desired field.1 ≠ some field.2) = [] := by
    refine filter_eq_nil_iff.mpr (fun field hmem => ?_)
    simp [get?_of_mem desired field.1 field.2 hd hmem]
  have horder : reorders desired desired = false := by
    have hall : (keys desired).filter (has desired) = keys desired :=
      filter_eq_self.mpr (fun key hmem => hhas key hmem)
    have hnone : (keys desired).filter (fun key => !has desired key) = [] :=
      filter_eq_nil_iff.mpr (fun key hmem => by simp [hhas key hmem])
    unfold reorders
    dsimp only
    rw [hall, hnone, append_nil, any_eq_false]
    rintro ⟨key, index⟩ hmem
    simp [mem_zipIdx_iff_getElem?.mp hmem]
  have hassigned : assigned (assignments desired desired) = [] := by
    unfold assignments
    rw [hnew, hchanged]
    simp [assigned, present, objectOrder]
  unfold planSections
  rw [if_neg (by rw [horder]; decide)]
  simp only [hassigned]
  rfl

/-! ## Convergence -/

section Converges

variable (P : Ai.JsonTexts) (isSystem : EntryRecord → Bool)

structure Recorded (view : ContextView) (planned : List SystemDraft) (records : List EntryRecord) : Prop where
  length : records.length = planned.length
  system : ∀ entry ∈ records, isSystem entry = true
  newer : ∀ entry ∈ records, ∀ head, view.head = some head → head.id < entry.id

structure Converges (desired : List (JsString × JsString)) (tools : List Tool) (after : ContextView) : Prop where
  sections : replaySections after.messages = desired
  declares : declared P (getCurrentTools after.messages) = declared P tools
  planned : ∀ timestamp, planSystemEntries P isSystem after desired tools timestamp = []

def landsWhen (view : ContextView) (desired : List (JsString × JsString)) : Prop :=
  if needsBaseline isSystem view = true then objectOrder desired = desired
  else Lands (replaySections view.messages) desired

variable (view : ContextView) (hview : ViewOk isSystem view) (desired : List (JsString × JsString)) (tools : List Tool)
  (timestamp : Time)

include hview

theorem systems_appendPlanned (planned : List SystemDraft) (records : List EntryRecord) :
    (planned.flatMap SystemDraft.edits = [] →
      systems (appendPlanned view planned records).messages = systems view.messages ++ planned.map SystemDraft.message) ∧
    (planned.flatMap SystemDraft.edits = (view.entries.filter isSystem).map (fun entry => ContextEdit.omit entry.id) →
      systems (appendPlanned view planned records).messages = planned.map SystemDraft.message) := by
  have hplanned : (planned.map (fun draft => [Message.system draft.message])).flatMap systems =
      planned.map SystemDraft.message := by
    rw [flatMap_map, map_eq_flatMap]
    rfl
  constructor
  · intro hedits
    unfold appendPlanned
    simp only [hedits, systems_view, flatMap_append, hplanned]
    rw [hview.messages, systems_view]
    have hkept : (view.entries.zip view.contributions).map
        (fun e => if (([] : List ContextEdit).map ContextEdit.target).contains e.1.id then [] else e.2) =
          view.contributions := map_snd_zip (le_of_eq hview.lengths)
    rw [hkept]
  · intro hedits
    unfold appendPlanned
    simp only [hedits, systems_view, flatMap_append, hplanned]
    have hnone : ((view.entries.zip view.contributions).map (fun e =>
        if (((view.entries.filter isSystem).map (fun entry => ContextEdit.omit entry.id)).map ContextEdit.target).contains
          e.1.id then [] else e.2)).flatMap systems = [] := by
      rw [flatMap_eq_nil_iff]
      intro messages hmem
      obtain ⟨e, he, rfl⟩ := mem_map.mp hmem
      split
      · rfl
      · rename_i hnot
        by_contra hsystems
        refine hnot (contains_iff_mem.mpr ?_)
        rw [map_map]
        exact mem_map.mpr ⟨e.1, mem_filter.mpr ⟨(of_mem_zip he).1, hview.systems e he hsystems⟩, rfl⟩
    rw [hnone, nil_append]

omit hview in
theorem needsBaseline_after (planned : List SystemDraft) (records : List EntryRecord)
    (hrecords : Recorded isSystem view planned records) (hplanned : needsBaseline isSystem view = true → planned ≠ []) :
    needsBaseline isSystem (appendPlanned view planned records) = false := by
  unfold needsBaseline at hplanned ⊢
  change (view.head.any fun head => !(view.entries ++ records).any _) = false
  cases hhead : view.head with
  | none => rfl
  | some head =>
    rw [hhead] at hplanned
    simp only [Option.any_some, Bool.not_eq_true', any_append, Bool.not_eq_false', Bool.or_eq_true] at hplanned ⊢
    by_cases hold : view.entries.any (fun entry => isSystem entry && decide (head.id < entry.id)) = true
    · exact .inl hold
    · have hsome := hplanned (Bool.not_eq_true _ ▸ hold)
      obtain ⟨entry, hentry⟩ := exists_mem_of_length_pos
        (hrecords.length ▸ length_pos_iff.mpr hsome : 0 < records.length)
      refine .inr (any_eq_true.mpr ⟨entry, hentry, ?_⟩)
      rw [hrecords.system entry hentry, Bool.true_and, decide_eq_true_eq]
      exact hrecords.newer entry hentry head hhead

theorem plan_effect (records : List EntryRecord) (hd : (keys desired).Nodup) (ht : (tools.map Tool.name).Nodup) :
    (replaySections (appendPlanned view (planSystemEntries P isSystem view desired tools timestamp) records).messages =
        desired ↔ landsWhen isSystem view desired) ∧
      declared P (getCurrentTools
        (appendPlanned view (planSystemEntries P isSystem view desired tools timestamp) records).messages) =
          declared P tools ∧
      (needsBaseline isSystem view = true → planSystemEntries P isSystem view desired tools timestamp ≠ []) := by
  obtain ⟨hextends, hreplaces⟩ := systems_appendPlanned isSystem view hview
    (planSystemEntries P isSystem view desired tools timestamp) records
  unfold landsWhen
  rw [replaySections_eq]
  unfold getCurrentTools
  change (_ ↔ _) ∧ declared P (((systems _).foldl applyTools []).map Prod.snd) = _ ∧ _
  by_cases hbaseline : needsBaseline isSystem view = true
  · rw [if_pos hbaseline]
    have hplan : planSystemEntries P isSystem view desired tools timestamp =
        [{ systemEntry (fromEntries (present desired)) { toolsRemoved := [], toolsAdded := tools } timestamp with
          edits := (view.entries.filter isSystem).map (fun entry => ContextEdit.omit entry.id) }] := if_pos hbaseline
    have hsystems := hreplaces (by rw [hplan]; exact append_nil _)
    rw [hsystems, hplan]
    refine ⟨?_, ?_, fun _ => cons_ne_nil _ _⟩
    · change (fromEntries (present desired)).foldl patchSection [] = desired ↔ _
      rw [fromEntries_present desired hd]
    · have happly := applyTools_changes [] ⟨nodup_nil, by simp⟩ { toolsRemoved := [], toolsAdded := tools } ht
        (fun tool _ other hother _ => absurd hother not_mem_nil)
        (systemEntry (fromEntries (present desired)) { toolsRemoved := [], toolsAdded := tools } timestamp).message rfl rfl
      exact congrArg (declared P) happly
  · rw [if_neg hbaseline]
    have hplan : planSystemEntries P isSystem view desired tools timestamp =
        plannedEntries (planSections (replaySections view.messages) desired)
          (planTools P (getCurrentTools view.messages) tools) timestamp := if_neg hbaseline
    have heffect := plannedEntries_effect (planSections (replaySections view.messages) desired)
      (planTools P (getCurrentTools view.messages) tools) timestamp (planSections_length _ _)
    rw [← hplan] at heffect
    rw [hextends heffect.edits, foldl_append, foldl_append, heffect.sections, heffect.tools]
    refine ⟨planSections_iff _ desired (nodup_shown view.messages) hd, ?_, fun h => absurd h hbaseline⟩
    have hwf := toolsWf_systems (systems view.messages)
    have hnames : ((getCurrentTools view.messages).map Tool.name).Nodup := by
      have hkeys := hwf.keys
      rw [toolsWf_map _ hwf] at hkeys
      unfold Assoc.keys at hkeys
      rwa [map_map] at hkeys
    exact planTools_declares P (getCurrentTools view.messages) tools hnames ht _ hwf rfl _ rfl rfl

omit hview in
theorem plan_again (hd : (keys desired).Nodup) (ht : (tools.map Tool.name).Nodup)
    (hbaseline : needsBaseline isSystem view = false) (hsections : replaySections view.messages = desired)
    (hdeclares : declared P (getCurrentTools view.messages) = declared P tools) (later : Time) :
    planSystemEntries P isSystem view desired tools later = [] := by
  obtain ⟨hremoved, hadded⟩ := planTools_none P _ tools ht hdeclares
  unfold planSystemEntries
  rw [if_neg (by rw [hbaseline]; decide)]
  simp only [hsections, planSections_same desired hd, hremoved, hadded]
  rfl

/-- The planned entries always declare the desired tools, and they lead to the desired sections, with nothing more to
plan, exactly where the keys of these keep their order in the patches and no `__proto__` is patched. -/
theorem planSystemEntries_converges (records : List EntryRecord) (hd : (keys desired).Nodup)
    (ht : (tools.map Tool.name).Nodup)
    (hrecords : Recorded isSystem view (planSystemEntries P isSystem view desired tools timestamp) records) :
    Converges P isSystem desired tools
        (appendPlanned view (planSystemEntries P isSystem view desired tools timestamp) records) ↔
      landsWhen isSystem view desired := by
  obtain ⟨hsections, hdeclares, hplanned⟩ := plan_effect P isSystem view hview desired tools timestamp records hd ht
  rw [← hsections]
  refine ⟨fun h => h.sections, fun hreplay => ⟨hreplay, hdeclares, fun later => ?_⟩⟩
  exact plan_again P isSystem _ desired tools hd ht (needsBaseline_after isSystem view _ records hrecords hplanned) hreplay
    hdeclares later

end Converges

/-! ## Sections named by numbers -/

def newView : ContextView := emptyView

def textsOf : Ai.JsonTexts := ⟨fun _ => [], fun _ => none, fun _ => none⟩

def promptRecord : EntryRecord := ⟨7, 1, none, .null⟩

theorem newView_ok : ViewOk (fun _ => true) newView := ⟨rfl, rfl, fun _ _ _ => rfl⟩

theorem planned_new (desired : List (JsString × JsString)) (tools : List Tool) (horder : reorders [] desired = false)
    (hkept : (kept (assignments [] desired)).length ≠ 0) (records : List EntryRecord) (hlength : records.length = 1) :
    Recorded (fun _ => true) newView (planSystemEntries textsOf (fun _ => true) newView desired tools 0) records := by
  have hpatch : (assigned (assignments [] desired)).isEmpty ≠ true := by
    rw [isEmpty_iff_length_eq_zero.ne]
    exact ((Session.keys_objectOrder_perm (kept (assignments [] desired))).length_eq).symm ▸ hkept
  have hsections : planSections (replaySections newView.messages) desired = [assigned (assignments [] desired)] := by
    show planSections [] desired = _
    unfold planSections
    rw [if_neg (by rw [horder]; decide)]
    exact if_neg hpatch
  refine ⟨hlength.trans ?_, fun _ _ => rfl, fun _ _ head hhead => by cases hhead⟩
  unfold planSystemEntries
  rw [if_neg (by decide), hsections]
  dsimp only
  split
  · rfl
  · rfl

def promptTools : List Tool := [⟨js "read", js "reads a file", .obj [], none⟩, ⟨js "edit", js "edits a file", .obj [], none⟩]

/-- A section after one whose key is a number stays there. -/
theorem planSystemEntries_converges_new : Recorded (fun _ => true) newView
      (planSystemEntries textsOf (fun _ => true) newView [(js "2", js "b"), (js "rules", js "a")] promptTools 0)
      [promptRecord] ∧
    Converges textsOf (fun _ => true) [(js "2", js "b"), (js "rules", js "a")] promptTools
      (appendPlanned newView
        (planSystemEntries textsOf (fun _ => true) newView [(js "2", js "b"), (js "rules", js "a")] promptTools 0)
        [promptRecord]) := by
  have hrecords := planned_new [(js "2", js "b"), (js "rules", js "a")] promptTools (by decide) (by decide) [promptRecord] rfl
  refine ⟨hrecords, (planSystemEntries_converges textsOf (fun _ => true) newView newView_ok
    [(js "2", js "b"), (js "rules", js "a")] promptTools 0 [promptRecord] (by decide) (by decide) hrecords).mpr ?_⟩
  refine ⟨(objectOrder_eq_iff _).mpr ?_, rfl⟩
  refine pairwise_cons.mpr ⟨fun other hmem hi => ?_, pairwise_singleton _ _⟩
  obtain rfl := mem_singleton.mp hmem
  revert hi
  decide

/-- A section that is desired before one whose key is a number comes after it. -/
theorem numbered_section_moves : ViewOk (fun _ => true) newView ∧ Recorded (fun _ => true) newView
      (planSystemEntries textsOf (fun _ => true) newView [(js "rules", js "a"), (js "2", js "b")] [] 0) [promptRecord] ∧
    ¬ Converges textsOf (fun _ => true) [(js "rules", js "a"), (js "2", js "b")] []
      (appendPlanned newView (planSystemEntries textsOf (fun _ => true) newView [(js "rules", js "a"), (js "2", js "b")] [] 0)
        [promptRecord]) := by
  refine ⟨newView_ok, planned_new _ _ (by decide) (by decide) [promptRecord] rfl, fun h => ?_⟩
  have hlands := ((plan_effect textsOf (fun _ => true) newView newView_ok [(js "rules", js "a"), (js "2", js "b")] [] 0
    [promptRecord] (by decide) nodup_nil).1).mp h.sections
  have hnew : (newSections [] [(js "rules", js "a"), (js "2", js "b")]).Pairwise Ordered := (objectOrder_eq_iff _).mp hlands.1
  have hindex := (pairwise_cons.mp hnew).1 (js "2", js "b") (by decide) (by decide)
  revert hindex
  decide

end PiAgent.Harness
