import PiAgent.Harness.Context

/-!
# System prompt entries

`planSystemEntries` of `prompt.ts` plans the `pi.system` entries that make the replayed
sections and tools of a context the desired ones.
-/

namespace PiAgent.Harness

open Durable
open Session (Time Tool SystemMessage)

/-! ## Replay -/

def Message.system? : Message → Option SystemMessage
  | .system message => some message
  | _ => none

def replaySections (messages : List Message) : List (JsString × JsString) :=
  Session.currentSections (messages.filterMap Message.system?)

def getCurrentTools (messages : List Message) : List Tool :=
  ((messages.filterMap Message.system?).foldl Session.applyTools []).map Prod.snd

/-! ## Plans -/

/-- A planned `pi.system` entry; edits that are left out are empty. -/
structure SystemDraft where
  message : SystemMessage
  edits : List ContextEdit

/-- Whether an offered tool is desired with the same declaration. -/
def keepsTool (P : Ai.JsonTexts) (wanted : List (JsString × Tool)) (tool : Tool) : Bool :=
  match Assoc.get? wanted tool.name with
  | none => false
  | some next => Agent.declarationsEqual P tool next

def planTools (P : Ai.JsonTexts) (offered desired : List Tool) : Agent.ToolStateChanges :=
  let kept := offered.filter (keepsTool P (Agent.toolMap desired))
  let keptNames := kept.map Tool.name
  let added := desired.filter (fun tool => !keptNames.contains tool.name)
  let replayed := kept ++ added
  if replayed.zipIdx.any (fun e => desired[e.2]?.map Tool.name ≠ some e.1.name) then
    { toolsRemoved := offered.map Tool.name, toolsAdded := desired }
  else
    { toolsRemoved := (offered.filter (fun tool => !keptNames.contains tool.name)).map Tool.name, toolsAdded := added }

/-- A patch, as `Object.entries` lists it. -/
abbrev SectionPatch := List (JsString × Option JsString)

/-- `Object.fromEntries` -/
def fromEntries (entries : SectionPatch) : SectionPatch := Session.objectOrder entries

/-- An object after assignments to distinct keys; assigning `__proto__` makes no property. -/
def assigned (assignments : SectionPatch) : SectionPatch :=
  Session.objectOrder (assignments.filter (fun field => field.1 ≠ js "__proto__"))

def present (sections : List (JsString × JsString)) : SectionPatch :=
  sections.map (fun field => (field.1, some field.2))

/-- Whether a minimal patch would leave another order. -/
def reorders (shown desired : List (JsString × JsString)) : Bool :=
  let patchedOrder := (Assoc.keys shown).filter (Assoc.has desired) ++
    (Assoc.keys desired).filter (fun key => !Assoc.has shown key)
  patchedOrder.zipIdx.any (fun e => (Assoc.keys desired)[e.2]? ≠ some e.1)

/-- The sections of a map that another one does not have. -/
def newSections (shown desired : List (JsString × JsString)) : List (JsString × JsString) :=
  desired.filter (fun field => !Assoc.has shown field.1)

/-- The assignments of the minimal patch, in order. -/
def assignments (shown desired : List (JsString × JsString)) : SectionPatch :=
  ((shown.filter (fun field => Assoc.get? desired field.1 ≠ some field.2)).map
    (fun field => (field.1, Assoc.get? desired field.1))) ++ present (newSections shown desired)

def planSections (shown desired : List (JsString × JsString)) : List SectionPatch :=
  if reorders shown desired then
    [fromEntries (shown.map (fun field => (field.1, none))), fromEntries (present desired)]
  else
    let patch := assigned (assignments shown desired)
    if patch.isEmpty then [] else [patch]

def noChanges : Agent.ToolStateChanges := Agent.noChanges

def systemEntry (sections : SectionPatch) (tools : Agent.ToolStateChanges) (timestamp : Time) : SystemDraft where
  message :=
    { content := some (.text [])
      sections := sections
      toolsAdded := tools.toolsAdded
      toolsRemoved := tools.toolsRemoved
      timestamp := timestamp }
  edits := []

section Plan

variable (P : Ai.JsonTexts) (isSystem : EntryRecord → Bool)

/-- A head marker with no later `pi.system` entry. -/
def needsBaseline (view : ContextView) : Bool :=
  view.head.any (fun head => !view.entries.any (fun entry => isSystem entry && head.id < entry.id))

def planSystemEntries (view : ContextView) (desired : List (JsString × JsString)) (tools : List Tool)
    (timestamp : Time) : List SystemDraft :=
  if needsBaseline isSystem view then
    let edits := (view.entries.filter isSystem).map (fun entry => ContextEdit.omit entry.id)
    [{ systemEntry (fromEntries (present desired)) { toolsRemoved := [], toolsAdded := tools } timestamp with
      edits := edits }]
  else
    let sections := planSections (replaySections view.messages) desired
    let changes := planTools P (getCurrentTools view.messages) tools
    if changes.toolsRemoved.isEmpty && changes.toolsAdded.isEmpty then
      sections.map (fun patch => systemEntry patch noChanges timestamp)
    else if sections.isEmpty then [systemEntry [] changes timestamp]
    else
      sections.zipIdx.map (fun e => systemEntry e.1 (if e.2 = sections.length - 1 then changes else noChanges) timestamp)

end Plan

/-! ## The context with the planned entries -/

/-- The view after the planned entries, with the entries that they omit. -/
def appendPlanned (view : ContextView) (planned : List SystemDraft) (records : List EntryRecord) : ContextView :=
  let omitted := (planned.flatMap SystemDraft.edits).map ContextEdit.target
  let contributions :=
    (view.entries.zip view.contributions).map (fun e => if omitted.contains e.1.id then [] else e.2) ++
      planned.map (fun draft => [Message.system draft.message])
  { head := view.head
    entries := view.entries ++ records
    contributions := contributions
    messages := leadWithSystem (orderToolResults contributions.flatten) }

end PiAgent.Harness
