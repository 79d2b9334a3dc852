import Mathlib.Data.List.Sort
import PiAgent.Ai.StreamingJson
import PiAgent.Durable.Text
import PiAgent.Lib.Occurrence
import PiAgent.Lib.Splice

/-!
# Edits of a file

`applyEditsToNormalizedContent` of `edit-diff.ts`, which the coding agent and the durable package
each have. Unicode's NFKC is a parameter, with what the code relies on. A search that finds
nothing is no value here, where the source has an index of -1.
-/

namespace PiAgent.Tools

open Durable
open Ai (isWhitespace)

structure Edit where
  oldText : JsString
  newText : JsString
  deriving DecidableEq

/-! ## Normalization -/

def CR : UInt16 := 13

/-- `text.replace(/\r\n/g, "\n")` -/
def replaceCrLf : JsString → JsString
  | [] => []
  | [c] => [c]
  | c :: next :: rest =>
    if c = CR ∧ next = newline then newline :: replaceCrLf rest else c :: replaceCrLf (next :: rest)

def normalizeToLF (text : JsString) : JsString := (replaceCrLf text).map (fun c => if c = CR then newline else c)

/-- `line.trimEnd()` -/
def trimEnd (line : JsString) : JsString := (line.reverse.dropWhile isWhitespace).reverse

/-- Quotes, dashes and spaces as ASCII. -/
def asciiUnit (c : UInt16) : UInt16 :=
  if c ∈ [0x2018, 0x2019, 0x201A, 0x201B] then 39
  else if c ∈ [0x201C, 0x201D, 0x201E, 0x201F] then 34
  else if c ∈ [0x2010, 0x2011, 0x2012, 0x2013, 0x2014, 0x2015, 0x2212] then 45
  else if c ∈ [0x00A0, 0x202F, 0x205F, 0x3000] ∨ (0x2002 ≤ c ∧ c ≤ 0x200A) then 32
  else c

/-- What `normalizeForFuzzyMatch` does after NFKC. -/
def clean (text : JsString) : JsString := (joinLines ((text.splitOn newline).map trimEnd)).map asciiUnit

/-- `text.normalize("NFKC")`: of what it made of a text, normalizing again changes nothing after `clean`. -/
structure Nfkc where
  normalize : JsString → JsString
  clean : ∀ text, normalize (clean (normalize text)) = clean (normalize text)

variable (nfkc : Nfkc)

def normalizeForFuzzyMatch (text : JsString) : JsString := clean (nfkc.normalize text)

/-! ## Lines -/

/-- `content.match(/[^\n]*\n|[^\n]+/g)` -/
def splitLinesWithEndings : JsString → List JsString
  | [] => []
  | c :: rest =>
    if c = newline then [c] :: splitLinesWithEndings rest
    else
      match splitLinesWithEndings rest with
      | [] => [[c]]
      | line :: lines => (c :: line) :: lines

/-- A line from one index to another; `stop` is the source's `end`. -/
structure LineSpan where
  start : ℕ
  stop : ℕ
  deriving DecidableEq

def lineSpansFrom : ℕ → List JsString → List LineSpan
  | _, [] => []
  | offset, line :: lines => ⟨offset, offset + line.length⟩ :: lineSpansFrom (offset + line.length) lines

def getLineSpans (content : JsString) : List LineSpan := lineSpansFrom 0 (splitLinesWithEndings content)

structure MatchedEdit where
  editIndex : ℕ
  matchIndex : ℕ
  matchLength : ℕ
  newText : JsString
  deriving DecidableEq

/-- What `applyEditsToNormalizedContent` throws. -/
inductive EditError where
  | emptyOldText (editIndex totalEdits : ℕ)
  | notFound (editIndex totalEdits : ℕ)
  | duplicate (editIndex totalEdits : ℕ) (occurrences : ℤ)
  | overlap (previous current : ℕ)
  | outside
  | lineCount
  | noChange (totalEdits : ℕ)
  deriving DecidableEq

structure LineRange where
  startLine : ℕ
  endLine : ℕ
  deriving DecidableEq

def getReplacementLineRange (lines : List LineSpan) (replacement : MatchedEdit) : Except EditError LineRange :=
  let replacementStart := replacement.matchIndex
  let replacementEnd := replacement.matchIndex + replacement.matchLength
  match lines.findIdx? (fun line => replacementStart ≥ line.start && replacementStart < line.stop) with
  | none => .error .outside
  | some startLine =>
    let endLine := startLine + ((lines.drop startLine).takeWhile (fun line => line.stop < replacementEnd)).length
    if endLine ≥ lines.length then .error .outside else .ok ⟨startLine, endLine + 1⟩

/-! ## Replacements -/

/-- `applyReplacements`, from the last replacement to the first. -/
def applyReplacements (content : JsString) (replacements : List MatchedEdit) (offset : ℕ) : JsString :=
  replacements.foldr (fun replacement result =>
    result.take (replacement.matchIndex - offset) ++ replacement.newText ++
      result.drop (replacement.matchIndex - offset + replacement.matchLength)) content

structure Group where
  startLine : ℕ
  endLine : ℕ
  replacements : List MatchedEdit
  deriving DecidableEq

/-- The groups of replacements in the same lines, given the last group so far. -/
def collectGroups (lines : List LineSpan) : Option Group → List MatchedEdit → Except EditError (List Group)
  | current, [] => .ok current.toList
  | current, replacement :: rest =>
    match getReplacementLineRange lines replacement with
    | .error e => .error e
    | .ok range =>
      match current with
      | none => collectGroups lines (some ⟨range.startLine, range.endLine, [replacement]⟩) rest
      | some group =>
        if range.startLine < group.endLine then
          collectGroups lines
            (some { group with endLine := max group.endLine range.endLine, replacements := group.replacements ++ [replacement] })
            rest
        else (collectGroups lines (some ⟨range.startLine, range.endLine, [replacement]⟩) rest).map (group :: ·)

/-- The loop over the groups, and what comes after them. -/
def assemble (originalLines : List JsString) (baseContent : JsString) (baseLines : List LineSpan) :
    ℕ → List Group → JsString
  | originalLineIndex, [] => (originalLines.drop originalLineIndex).flatten
  | originalLineIndex, group :: groups =>
    let groupStartOffset := (baseLines[group.startLine]?.map LineSpan.start).getD 0
    let groupEndOffset := (baseLines[group.endLine - 1]?.map LineSpan.stop).getD 0
    ((originalLines.take group.startLine).drop originalLineIndex).flatten ++
      applyReplacements ((baseContent.take groupEndOffset).drop groupStartOffset) group.replacements groupStartOffset ++
      assemble originalLines baseContent baseLines group.endLine groups

/-- `(a, b) => a.matchIndex - b.matchIndex` -/
def byMatchIndex (a b : MatchedEdit) : Prop := a.matchIndex ≤ b.matchIndex

instance instDecidableByMatchIndex : DecidableRel byMatchIndex :=
  fun a b => inferInstanceAs (Decidable (a.matchIndex ≤ b.matchIndex))

def applyReplacementsPreservingUnchangedLines (originalContent baseContent : JsString) (replacements : List MatchedEdit) :
    Except EditError JsString :=
  let originalLines := splitLinesWithEndings originalContent
  let baseLines := getLineSpans baseContent
  if originalLines.length ≠ baseLines.length then .error .lineCount
  else (collectGroups baseLines none (replacements.insertionSort byMatchIndex)).map
    (assemble originalLines baseContent baseLines 0)

/-! ## Matching -/

structure FuzzyMatch where
  index : ℕ
  matchLength : ℕ
  usedFuzzyMatch : Bool
  contentForReplacement : JsString

def fuzzyFindText (content oldText : JsString) : Option FuzzyMatch :=
  match firstIndex oldText content with
  | some exactIndex => some ⟨exactIndex, oldText.length, false, content⟩
  | none =>
    let fuzzyContent := normalizeForFuzzyMatch nfkc content
    let fuzzyOldText := normalizeForFuzzyMatch nfkc oldText
    (firstIndex fuzzyOldText fuzzyContent).map (fun fuzzyIndex => ⟨fuzzyIndex, fuzzyOldText.length, true, fuzzyContent⟩)

/-- `content.split(separator).length`; an empty separator gives the code units. -/
def splitLength (separator content : JsString) : ℕ :=
  if separator.isEmpty then content.length else countDisjoint separator 0 content + 1

def countOccurrences (content oldText : JsString) : ℤ :=
  (splitLength (normalizeForFuzzyMatch nfkc oldText) (normalizeForFuzzyMatch nfkc content) : ℤ) - 1

/-- The loop that matches every edit against the same content. -/
def matchEdits (base : JsString) (totalEdits : ℕ) : ℕ → List Edit → Except EditError (List MatchedEdit)
  | _, [] => .ok []
  | i, edit :: edits =>
    match fuzzyFindText nfkc base edit.oldText with
    | none => .error (.notFound i totalEdits)
    | some matchResult =>
      if countOccurrences nfkc base edit.oldText > 1 then
        .error (.duplicate i totalEdits (countOccurrences nfkc base edit.oldText))
      else (matchEdits base totalEdits (i + 1) edits).map (⟨i, matchResult.index, matchResult.matchLength, edit.newText⟩ :: ·)

/-- The first edits, in order of their places, that overlap. -/
def findOverlap : List MatchedEdit → Option EditError
  | previous :: current :: rest =>
    if previous.matchIndex + previous.matchLength > current.matchIndex then
      some (.overlap previous.editIndex current.editIndex)
    else findOverlap (current :: rest)
  | _ => none

structure AppliedEditsResult where
  baseContent : JsString
  newContent : JsString
  deriving DecidableEq

def normalizeEdit (edit : Edit) : Edit := ⟨normalizeToLF edit.oldText, normalizeToLF edit.newText⟩

def usedFuzzyMatch (content : JsString) (edits : List Edit) : Bool :=
  edits.any (fun edit => (fuzzyFindText nfkc content edit.oldText).any FuzzyMatch.usedFuzzyMatch)

def replacementBaseContent (content : JsString) (edits : List Edit) : JsString :=
  if usedFuzzyMatch nfkc content edits then normalizeForFuzzyMatch nfkc content else content

def applyEditsToNormalizedContent (normalizedContent : JsString) (edits : List Edit) : Except EditError AppliedEditsResult :=
  let normalizedEdits := edits.map normalizeEdit
  match normalizedEdits.findIdx? (fun edit => edit.oldText.isEmpty) with
  | some i => .error (.emptyOldText i normalizedEdits.length)
  | none =>
    let fuzzy := usedFuzzyMatch nfkc normalizedContent normalizedEdits
    let base := replacementBaseContent nfkc normalizedContent normalizedEdits
    match matchEdits nfkc base normalizedEdits.length 0 normalizedEdits with
    | .error e => .error e
    | .ok found =>
      let matchedEdits := found.insertionSort byMatchIndex
      match findOverlap matchedEdits with
      | some e => .error e
      | none =>
        let newContent :=
          if fuzzy then applyReplacementsPreservingUnchangedLines normalizedContent base matchedEdits
          else .ok (applyReplacements base matchedEdits 0)
        match newContent with
        | .error e => .error e
        | .ok newContent =>
          if normalizedContent = newContent then .error (.noChange normalizedEdits.length)
          else .ok ⟨normalizedContent, newContent⟩

end PiAgent.Tools
