import PiAgent.Session.Built

/-!
# Preparing a compaction

`prepareCompaction` of `compaction.ts`: where the projection of a branch is cut, and
which of its messages go into the summary. What it reports besides them (the tokens
before, the files touched) is left out.
-/

namespace PiAgent.Session

/-! ## Estimates -/

def estimateTextAndImageContentChars : Content → ℕ
  | .text text => text.length
  | .blocks blocks =>
    (blocks.map (fun block =>
      match block with
      | .text text _ => text.length
      | .image _ => 4800
      | _ => 0)).sum

def assistantChars (P : Ai.JsonTexts) : Content → ℕ
  | .text _ => 0
  | .blocks blocks =>
    (blocks.map (fun block =>
      match block with
      | .text text _ => text.length
      | .thinking thinking _ => thinking.length
      | .toolCall _ name arguments _ => name.length + (P.stringify arguments).length
      | .image _ => 0)).sum

def contentChars (content : Option Content) : ℕ := (content.map estimateTextAndImageContentChars).getD 0

/-- `estimateTokens`: a quarter of the characters, rounded up. -/
def estimateTokens (P : Ai.JsonTexts) (message : Message) : ℕ :=
  let chars :=
    match message with
    | .system m =>
      contentChars m.content + (m.sections.map (fun field => (field.2.map List.length).getD 0)).sum +
        (if m.toolsAdded.isEmpty then 0 else (P.stringify (.arr (m.toolsAdded.map toolJson))).length)
    | .user content _ => contentChars content
    | .assistant content _ _ _ => (content.map (assistantChars P)).getD 0
    | .toolResult content _ _ => contentChars content
    | .custom _ content _ _ _ => estimateTextAndImageContentChars content
    | .bashExecution command output _ => command.length + output.length
    | .branchSummary summary _ _ => summary.length
    | .compactionSummary summary _ _ => summary.length
  (chars + 3) / 4

def isCutPointMessage : Message → Bool
  | .user .. => true
  | .assistant .. => true
  | .bashExecution .. => true
  | .custom .. => true
  | .branchSummary .. => true
  | .compactionSummary .. => true
  | _ => false

def isTurnStartMessage : Message → Bool
  | .user .. => true
  | .bashExecution .. => true
  | .custom .. => true
  | .branchSummary .. => true
  | .compactionSummary .. => true
  | _ => false

/-! ## The cut -/

structure CutPointResult where
  firstKeptEntryIndex : ℕ
  turnStartIndex : Option ℕ
  isSplitTurn : Bool

namespace ProjectedSessionEntry

variable (e : ProjectedSessionEntry)

def isProjectedTurnStart : Bool := !e.sourceEntry.isCompaction && e.messages.any isTurnStartMessage

def isCutPoint : Bool := !e.sourceEntry.isCompaction && e.messages.any isCutPointMessage

def isContextEdit : Bool :=
  match e.sourceEntry.body with
  | .contextEdit .. => true
  | _ => false

def isIntrinsicallyVisible : Bool := !e.isContextEdit && !(sessionEntryToContextMessages e.sourceEntry).isEmpty

def isOmitted : Bool := e.isIntrinsicallyVisible && e.messages.isEmpty

def isAssistantEntry : Bool :=
  match e.sourceEntry.body with
  | .message m => m.isAssistant
  | _ => false

/-- A replacement of an entry that is not among the omitted ones. -/
def isExternalReplacement (omittedSuffixIds : List EntryId) : Bool :=
  match e.sourceEntry.body with
  | .contextEdit targetId (some _) => !omittedSuffixIds.contains targetId
  | _ => false

end ProjectedSessionEntry

/-- From `index` back to `startIndex`. -/
def findProjectedTurnStartIndex (entries : List ProjectedSessionEntry) (startIndex : ℕ) : ℕ → Option ℕ
  | 0 => if startIndex = 0 ∧ entries[0]?.any (·.isProjectedTurnStart) then some 0 else none
  | index + 1 =>
    if index + 1 < startIndex then none
    else if entries[index + 1]?.any (·.isProjectedTurnStart) then some (index + 1)
    else findProjectedTurnStartIndex entries startIndex index

/-- Newest first: where the tokens come to what is kept. -/
def exceedsAt (keepRecentTokens : ℚ) : ℕ → List (ℕ × ℕ) → Option ℕ
  | _, [] => none
  | accumulatedTokens, (i, messageTokens) :: older =>
    if messageTokens = 0 then exceedsAt keepRecentTokens accumulatedTokens older
    else if keepRecentTokens ≤ ((accumulatedTokens + messageTokens : ℕ) : ℚ) then some i
    else exceedsAt keepRecentTokens (accumulatedTokens + messageTokens) older

/-- Back over the entries that contribute nothing. -/
def skipBack (entries : List ProjectedSessionEntry) (startIndex : ℕ) : ℕ → ℕ
  | 0 => 0
  | cutIndex + 1 =>
    if startIndex < cutIndex + 1 ∧
        entries[cutIndex]?.any (fun previous => !previous.sourceEntry.isCompaction && previous.messages.isEmpty) then
      skipBack entries startIndex cutIndex
    else cutIndex + 1

/-- After the last visible input, only a recovery attempt that was omitted. -/
def isRecoveryOmissionSuffix (exceededBudget : Bool) (suffix : List ProjectedSessionEntry) : Bool :=
  let omittedSuffixIds := (suffix.filter (·.isOmitted)).map (fun e => e.sourceEntry.id)
  exceededBudget && !suffix.any (fun e => e.isExternalReplacement omittedSuffixIds) &&
    suffix.any (fun e => e.isAssistantEntry && e.isOmitted) &&
    suffix.all (fun e => !e.sourceEntry.isCompaction && (!e.isIntrinsicallyVisible || e.isOmitted))

/-- The first cut point from where the budget is exceeded, or the last there is. -/
def cutFrom (first : ℕ) (rest : List ℕ) : Option ℕ → ℕ
  | none => first
  | some i => ((first :: rest).find? (fun candidate => decide (i ≤ candidate))).getD ((first :: rest).getLast (by simp))

/-- `findProjectedCutPoint`, up to the end of the entries. -/
def findProjectedCutPoint (P : Ai.JsonTexts) (entries : List ProjectedSessionEntry) (startIndex : ℕ)
    (keepRecentTokens : ℚ) : CutPointResult :=
  let cutPoints := (List.range entries.length).filter
    (fun i => decide (startIndex ≤ i) && entries[i]?.any (·.isCutPoint))
  match cutPoints with
  | [] => { firstKeptEntryIndex := startIndex, turnStartIndex := none, isSplitTurn := false }
  | first :: rest =>
    let tokens := (entries.zipIdx.drop startIndex).map (fun (e, i) => (i, (e.messages.map (estimateTokens P)).sum))
    let exceeded := exceedsAt keepRecentTokens 0 tokens.reverse
    let cutIndex := cutFrom first rest exceeded
    let cutIndex :=
      if isRecoveryOmissionSuffix exceeded.isSome (entries.drop (cutIndex + 1)) then cutIndex + 1 else cutIndex
    let cutIndex := skipBack entries startIndex cutIndex
    let startsTurn := entries[cutIndex]?.any (·.isProjectedTurnStart)
    let turnStartIndex := if startsTurn then none else findProjectedTurnStartIndex entries startIndex cutIndex
    { firstKeptEntryIndex := cutIndex, turnStartIndex := turnStartIndex
      isSplitTurn := !startsTurn && turnStartIndex.isSome }

/-! ## What goes into the summary -/

structure CompactionPreparation where
  firstKeptEntryId : EntryId
  messagesToSummarize : List Message
  turnPrefixMessages : List Message
  isSplitTurn : Bool
  previousSummary : Option JsString

def getMessagesFromProjectedEntryForCompaction (e : ProjectedSessionEntry) : List Message :=
  if e.sourceEntry.isCompaction then [] else e.messages.filter (fun message => !message.isSystem)

/-- `entries.slice(from, to)` -/
def slice {α : Type} (l : List α) (start stop : ℕ) : List α := (l.take stop).drop start

def prepareCompaction (P : Ai.JsonTexts) (pathEntries : List Entry) (keepRecentTokens : ℚ) :
    Option CompactionPreparation :=
  if pathEntries.getLast?.any Entry.isCompaction then none
  else
    let projectedEntries := (buildSessionProjection pathEntries .omitted (buildEntryIndex pathEntries)).entries
    let prevCompaction := projectedEntries.zipIdx.find? (fun (e, _) => e.sourceEntry.isCompaction && !e.messages.isEmpty)
    let boundaryStart := (prevCompaction.map (fun (_, i) => i + 1)).getD 0
    let cutPoint := findProjectedCutPoint P projectedEntries boundaryStart keepRecentTokens
    match projectedEntries[cutPoint.firstKeptEntryIndex]? with
    | none => none
    | some firstKeptEntry =>
      let historyEnd :=
        if cutPoint.isSplitTurn then cutPoint.turnStartIndex.getD 0 else cutPoint.firstKeptEntryIndex
      let messagesToSummarize :=
        (slice projectedEntries boundaryStart historyEnd).flatMap getMessagesFromProjectedEntryForCompaction
      let turnPrefixMessages :=
        if cutPoint.isSplitTurn then
          (slice projectedEntries (cutPoint.turnStartIndex.getD 0) cutPoint.firstKeptEntryIndex).flatMap
            getMessagesFromProjectedEntryForCompaction
        else []
      if messagesToSummarize.isEmpty && turnPrefixMessages.isEmpty then none
      else some
        { firstKeptEntryId := firstKeptEntry.sourceEntry.id
          messagesToSummarize := messagesToSummarize
          turnPrefixMessages := turnPrefixMessages
          isSplitTurn := cutPoint.isSplitTurn
          previousSummary := prevCompaction.bind (fun (e, _) => e.sourceEntry.compaction?.map Compaction.summary) }

end PiAgent.Session
