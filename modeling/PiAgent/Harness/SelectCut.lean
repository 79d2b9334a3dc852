import PiAgent.Harness.Context

/-!
# The cut of a compaction

`selectCut` of `compaction.ts`. The cut never separates a tool result from its call.
-/

namespace PiAgent.Harness

open Durable

/-! ## Candidates -/

/-- The calls of the last assistant message before an entry. -/
def precedingCalls (contributions : List (List Message)) (index : ℕ) : List JsString :=
  match (contributions.take index).reverse.findSome? lastAssistant with
  | none => []
  | some assistant => assistant.toolCalls.map Agent.ToolCall.id

/-- The forward loop, from the first message of the entry on; whether it returns true. -/
def noResultFollows (calls : List JsString) : Bool → List Message → Bool
  | _, [] => true
  | first, .assistant _ :: rest => !first || noResultFollows calls false rest
  | _, .toolResult m :: rest => !calls.contains m.toolCallId && noResultFollows calls false rest
  | _, _ :: rest => noResultFollows calls false rest

def isCandidate (contributions : List (List Message)) (index : ℕ) : Bool :=
  match (contributions.getD index []).head? with
  | some (.assistant _) => true
  | some (.user _) =>
    let calls := precedingCalls contributions index
    calls.isEmpty || noResultFollows calls true (contributions.drop index).flatten
  | _ => false

/-! ## The cut -/

variable (estimateMessageTokens : Message → ℕ)

/-- The loop back from the tail: the entry at which `keepRecentTokens` are kept. -/
def keptIndex (contributions : List (List Message)) (start : ℕ) (keepRecentTokens : ℚ) : ℕ → ℕ → Option ℕ
  | 0, _ => none
  | index + 1, kept =>
    if index < start then none
    else
      let kept := kept + ((contributions.getD index []).map estimateMessageTokens).sum
      if kept < keepRecentTokens then keptIndex contributions start keepRecentTokens index kept else some index

def startOf (view : ContextView) : ℕ := if view.head.isNone then 0 else 1

def candidates (view : ContextView) : List ℕ :=
  (List.range view.contributions.length).filter
    (fun index => startOf view ≤ index && isCandidate view.contributions index)

def selectCut (view : ContextView) (keepRecentTokens : ℚ) : Option ℕ :=
  match keptIndex estimateMessageTokens view.contributions (startOf view) keepRecentTokens view.contributions.length 0 with
  | none => none
  | some index =>
    match ((candidates view).find? (fun candidate => index ≤ candidate)).or (candidates view).getLast? with
    | none => none
    | some cut =>
      if ((view.contributions.take cut).drop (startOf view)).any (fun messages => !messages.isEmpty) then some cut
      else none

def summarizedMessages (view : ContextView) (cut : ℕ) : List Message :=
  orderToolResults (view.contributions.take cut).flatten

/-! ## What the cut leaves together -/

theorem selectCut_candidate (view : ContextView) (keepRecentTokens : ℚ) (cut : ℕ)
    (h : selectCut estimateMessageTokens view keepRecentTokens = some cut) :
    isCandidate view.contributions cut = true := by
  have hmem : ∀ c ∈ candidates view, isCandidate view.contributions c = true := by
    intro c hc
    have := (List.mem_filter.mp hc).2
    rw [Bool.and_eq_true] at this
    exact this.2
  unfold selectCut at h
  split at h
  · cases h
  · rename_i index hindex
    split at h
    · cases h
    · rename_i found hfound
      split at h
      · obtain rfl := Option.some.inj h
        rcases Option.or_eq_some_iff.mp hfound with hfirst | ⟨-, hlast⟩
        · exact hmem found (List.mem_of_find?_eq_some hfirst)
        · exact hmem found (List.mem_of_getLast? hlast)
      · cases h

theorem lastAssistant_append (a b : List Message) :
    lastAssistant (a ++ b) = (lastAssistant b).or (lastAssistant a) := by
  unfold lastAssistant
  rw [List.reverse_append, List.findSome?_append]

theorem lastAssistant_flatten (parts : List (List Message)) :
    parts.reverse.findSome? lastAssistant = lastAssistant parts.flatten := by
  induction parts with
  | nil => rfl
  | cons part parts ih =>
    rw [List.reverse_cons, List.findSome?_append, ih, List.flatten_cons, lastAssistant_append]
    congr 1
    rw [List.findSome?_cons]
    cases lastAssistant part <;> rfl

theorem noResultFollows_none (calls : List JsString) (first : Bool) (messages : List Message)
    (h : noResultFollows calls first messages = true) (id : JsString) (hid : id ∈ calls) :
    resultFor id messages = none := by
  induction messages generalizing first with
  | nil => rfl
  | cons message messages ih =>
    cases message with
    | assistant m => rfl
    | system m => exact ih false h
    | user m => exact ih false h
    | toolResult m =>
      unfold noResultFollows at h
      obtain ⟨hnot, hrest⟩ := Bool.and_eq_true_iff.mp h
      have hne : m.toolCallId ≠ id := by
        intro heq
        rw [heq] at hnot
        simp [hid] at hnot
      unfold resultFor
      rw [if_neg hne]
      exact ih false hrest

theorem candidate_apart (contributions : List (List Message)) (index : ℕ) (h : isCandidate contributions index = true) :
    ∀ m ∈ lastAssistant (contributions.take index).flatten, ∀ call ∈ m.toolCalls,
      resultFor call.id (contributions.drop index).flatten = none := by
  intro m hm call hcall
  have hfirst : (contributions.getD index []).head? = (contributions.drop index).flatten.head? ∨
      (contributions.getD index []).head? = none := by
    rcases hget : contributions[index]? with _ | messages
    · exact .inr (by simp [hget])
    · rw [List.drop_eq_getElem_cons (List.getElem?_eq_some_iff.mp hget).1]
      obtain ⟨hlt, rfl⟩ := List.getElem?_eq_some_iff.mp hget
      rcases hempty : contributions[index] with _ | ⟨first, rest⟩
      · exact .inr (by simp [hlt, hempty])
      · exact .inl (by simp [hlt, hempty])
  unfold isCandidate at h
  rcases hhead : (contributions.getD index []).head? with _ | first
  · rw [hhead] at h
    cases h
  · have hflat : (contributions.drop index).flatten.head? = some first := by
      rcases hfirst with heq | hnone
      · exact heq ▸ hhead
      · rw [hnone] at hhead
        cases hhead
    rw [hhead] at h
    cases first with
    | system s => cases h
    | toolResult r => cases h
    | assistant a =>
      obtain ⟨rest, hrest⟩ := List.head?_eq_some_iff.mp hflat
      rw [hrest]
      rfl
    | user u =>
      have hcalls : precedingCalls contributions index = m.toolCalls.map Agent.ToolCall.id := by
        unfold precedingCalls
        rw [lastAssistant_flatten, Option.mem_def.mp hm]
      simp only [hcalls, Bool.or_eq_true] at h
      have hmem : call.id ∈ m.toolCalls.map Agent.ToolCall.id := List.mem_map_of_mem hcall
      rcases h with hempty | hnone
      · rw [List.isEmpty_iff.mp hempty] at hmem
        exact absurd hmem List.not_mem_nil
      · exact noResultFollows_none _ _ _ hnone call.id hmem

theorem cut_parts (view : ContextView) (keepRecentTokens : ℚ) (cut : ℕ)
    (h : selectCut estimateMessageTokens view keepRecentTokens = some cut) :
    orderToolResults view.contributions.flatten =
      summarizedMessages view cut ++ orderToolResults (view.contributions.drop cut).flatten := by
  unfold summarizedMessages
  rw [← orderToolResults_append _ _ (candidate_apart view.contributions cut
      (selectCut_candidate estimateMessageTokens view keepRecentTokens cut h)), ← List.flatten_append,
    List.take_append_drop]

/-- Tool results stay with their calls, in any messages and across any cut of a view. -/
theorem toolResults_paired :
    (∀ messages, Paired (orderToolResults messages) ∧ others (orderToolResults messages) = others messages ∧
      (SameNames messages → orderToolResults (orderToolResults messages) = orderToolResults messages)) ∧
    ∀ (view : ContextView) (keepRecentTokens : ℚ) (cut : ℕ),
      selectCut estimateMessageTokens view keepRecentTokens = some cut →
      orderToolResults view.contributions.flatten =
        summarizedMessages view cut ++ orderToolResults (view.contributions.drop cut).flatten :=
  ⟨fun messages => ⟨paired_orderToolResults messages, others_orderToolResults messages,
    orderToolResults_twice messages⟩, cut_parts estimateMessageTokens⟩

/-! ## Two calls with one id -/

/-- An assistant message that calls tools with the given ids and names. -/
def calling (calls : List (JsString × JsString)) : Message := .assistant
  { content := calls.map (fun call => .toolCall call.1 call.2 .null .null)
    stopReason := .toolUse
    errorMessage := none
    rest := .null
    timestamp := 0 }

def toolName? : Message → Option JsString
  | .toolResult m => some m.toolName
  | _ => none

/-- Ordered again, the second missing result takes the name of the first call with its id. -/
theorem ordered_twice_differs :
    orderToolResults (orderToolResults [calling [(js "1", js "read"), (js "1", js "bash")]]) ≠
      orderToolResults [calling [(js "1", js "read"), (js "1", js "bash")]] := by
  intro h
  have hnames := congrArg (List.filterMap toolName?) h
  revert hnames
  decide

/-! ## A late result -/

/-- A call whose result comes after the next question, in a view of four entries. -/
def lateView : ContextView where
  head := none
  entries := []
  contributions := [[calling [(js "1", js "read")]], [.user .null],
    [.toolResult ⟨⟨js "1", js "read", .text [], none, none, false⟩, 0⟩], [calling []]]
  messages := []

theorem toolResults_paired_late :
    (SameNames lateView.contributions.flatten ∧
      orderToolResults (orderToolResults lateView.contributions.flatten) = orderToolResults lateView.contributions.flatten) ∧
    selectCut (fun _ => 1) lateView 3 = some 3 ∧
    orderToolResults lateView.contributions.flatten =
      summarizedMessages lateView 3 ++ orderToolResults (lateView.contributions.drop 3).flatten := by
  have hnames : SameNames lateView.contributions.flatten := by
    refine ⟨fun call hcall other hother _ _ => ?_, fun call hcall => ?_, trivial⟩
    · rw [List.mem_singleton.mp (show call ∈ [⟨js "1", js "read", .null⟩] from hcall),
        List.mem_singleton.mp (show other ∈ [⟨js "1", js "read", .null⟩] from hother)]
    · exact absurd hcall List.not_mem_nil
  have hcut : selectCut (fun _ => 1) lateView 3 = some 3 := by decide +kernel
  exact ⟨⟨hnames, ((toolResults_paired (fun _ => 1)).1 _).2.2 hnames⟩, hcut,
    (toolResults_paired (fun _ => 1)).2 lateView 3 3 hcut⟩

end PiAgent.Harness
