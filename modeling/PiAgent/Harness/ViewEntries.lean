import PiAgent.Harness.View
import PiAgent.Durable.ForkPages

/-!
# The active transcript of a view

What is active among the visible entries, and that appending one entry edits it in place.
-/

namespace PiAgent.Harness

open List Durable Delta JsonValue

/-! ## What is active -/

/-- The newest entry with a head, among entries that are given oldest first. -/
def latestMarker (visible : List EntryRecord) : Option EntryRecord :=
  visible.reverse.find? (fun entry => entry.head.isSome)

/-- An entry without a head, from a bound on. -/
def activeFrom (bound : Id) (entry : EntryRecord) : Bool := entry.head.isNone && decide (bound ≤ entry.id)

/-- The newest marker and the entries without a head from its head on, or everything without a marker. -/
def activeOf (visible : List EntryRecord) : List EntryRecord :=
  match latestMarker visible with
  | none => visible
  | some marker => marker :: visible.filter (activeFrom (marker.head.getD 0))

section

variable (visible : List EntryRecord)

theorem latestMarker_append (entry : EntryRecord) :
    latestMarker (visible ++ [entry]) = if entry.head.isSome then some entry else latestMarker visible := by
  unfold latestMarker
  rw [reverse_append, reverse_singleton, singleton_append, find?_cons]
  cases entry.head <;> rfl

theorem latestMarker_none (h : latestMarker visible = none) : ∀ entry ∈ visible, entry.head = none := by
  intro entry hentry
  have := find?_eq_none.mp h entry (mem_reverse.mpr hentry)
  simpa using this

theorem latestMarker_some (marker : EntryRecord) (h : latestMarker visible = some marker) :
    marker ∈ visible ∧ ∃ target, marker.head = some target := by
  refine ⟨mem_reverse.mp (mem_of_find?_eq_some h), ?_⟩
  have := find?_some h
  exact Option.isSome_iff_exists.mp this

theorem latestMarker_eq (hs : visible.Pairwise (fun a b => a.id < b.id)) (marker : EntryRecord)
    (hm : marker ∈ visible) (hh : marker.head.isSome = true)
    (hmax : ∀ entry ∈ visible, entry.head.isSome = true → entry.id ≤ marker.id) :
    latestMarker visible = some marker := by
  induction visible using List.reverseRecOn with
  | nil => cases hm
  | append_singleton visible entry ih =>
    obtain ⟨hs₁, -, hs₂⟩ := pairwise_append.mp hs
    rw [latestMarker_append]
    rcases mem_append.mp hm with hm | hm
    · have hlt := hs₂ marker hm entry (by simp)
      have hnone : entry.head.isSome = false := by
        by_contra hsome
        exact absurd (hmax entry (by simp) (Bool.not_eq_false _ ▸ hsome)) (not_le_of_gt hlt)
      rw [hnone]
      exact ih hs₁ hm (fun e he => hmax e (mem_append_left _ he))
    · rw [← mem_singleton.mp hm, hh]
      rfl

end

/-! ## One more entry -/

/-- A marker's target is visible, and what it selects was active so far. -/
structure TargetOk (visible : List EntryRecord) (entry : EntryRecord) (target : Id) : Prop where
  selects : ∃ selected ∈ visible ++ [entry], selected.id = target
  active : ∀ marker, latestMarker visible = some marker → ∀ bound, marker.head = some bound →
    ∀ other ∈ visible, other.head = none → target ≤ other.id → bound ≤ other.id

/-- Every marker targets an entry that is not newer than itself. -/
def HeadsBack (visible : List EntryRecord) : Prop :=
  ∀ entry ∈ visible, ∀ target, entry.head = some target → target ≤ entry.id

theorem activeOf_plain (visible : List EntryRecord) (hback : HeadsBack visible) (entry : EntryRecord)
    (hnew : ∀ old ∈ visible, old.id < entry.id) (hh : entry.head = none) :
    activeOf (visible ++ [entry]) = activeOf visible ++ [entry] := by
  unfold activeOf
  rw [latestMarker_append, hh]
  simp only [Option.isSome_none, Bool.false_eq_true, if_false]
  cases hm : latestMarker visible with
  | none => rfl
  | some marker =>
    obtain ⟨hmem, target, htarget⟩ := latestMarker_some visible marker hm
    have hle : target ≤ entry.id := le_trans (hback marker hmem target htarget) (le_of_lt (hnew marker hmem))
    simp only [filter_append, cons_append]
    rw [filter_cons_of_pos (by simp [activeFrom, hh, htarget, hle]), filter_nil]

theorem drop_kept (entries : List EntryRecord) (hs : entries.Pairwise (fun a b => a.id < b.id))
    (hplain : ∀ entry ∈ entries, entry.head = none) (target : Id) :
    entries.drop (keptFrom entries target) = entries.filter (activeFrom target) := by
  induction entries with
  | nil => rfl
  | cons entry entries ih =>
    obtain ⟨hlt, hs'⟩ := pairwise_cons.mp hs
    obtain ⟨hh, hplain'⟩ := forall_mem_cons.mp hplain
    unfold keptFrom at ih ⊢
    rw [findIdx_cons]
    by_cases hle : target ≤ entry.id
    · have hall : ∀ e ∈ entry :: entries, activeFrom target e = true := by
        refine forall_mem_cons.mpr ⟨by simp [activeFrom, hh, hle], fun e he => ?_⟩
        simp [activeFrom, hplain' e he, le_trans hle (le_of_lt (hlt e he))]
      rw [filter_eq_self.mpr hall]
      simp [hh, hle]
    · rw [filter_cons_of_neg (by simp [activeFrom, hle])]
      simpa [hh, hle] using ih hs' hplain'

theorem activeOf_marker (visible : List EntryRecord) (hs : visible.Pairwise (fun a b => a.id < b.id))
    (entry : EntryRecord) (target : Id) (hh : entry.head = some target) (hok : TargetOk visible entry target) :
    activeOf (visible ++ [entry]) = entry :: (activeOf visible).drop (keptFrom (activeOf visible) target) := by
  have hnew : activeOf (visible ++ [entry]) = entry :: visible.filter (activeFrom target) := by
    unfold activeOf
    rw [latestMarker_append, hh]
    simp only [Option.isSome_some, if_true, hh, Option.getD_some, filter_append]
    rw [filter_cons_of_neg (by simp [activeFrom, hh]), filter_nil, append_nil]
  rw [hnew]
  congr 1
  unfold activeOf
  cases hm : latestMarker visible with
  | none => exact (drop_kept visible hs (latestMarker_none visible hm) target).symm
  | some marker =>
    obtain ⟨-, bound, hbound⟩ := latestMarker_some visible marker hm
    have hskip : keptFrom (marker :: visible.filter (activeFrom bound)) target =
        keptFrom (visible.filter (activeFrom bound)) target + 1 := by
      unfold keptFrom
      rw [findIdx_cons]
      simp [hbound]
    simp only [hbound, Option.getD_some]
    rw [hskip, drop_succ_cons, drop_kept _ (hs.filter _) (fun e he => ?_) target, filter_filter]
    · refine filter_congr (fun e he => ?_)
      by_cases ht : activeFrom target e = true
      · obtain ⟨hplain, hle⟩ := Bool.and_eq_true_iff.mp ht
        have := hok.active marker hm bound hbound e he (Option.isNone_iff_eq_none.mp hplain) (of_decide_eq_true hle)
        simp [activeFrom, hplain, this]
      · simp [ht]
    · have := (mem_filter.mp he).2
      exact Option.isNone_iff_eq_none.mp (Bool.and_eq_true_iff.mp this).1

/-! ## The entries of a publication -/

/-- The markers among new entries target what was visible and active when they came. -/
def TargetsOk : List EntryRecord → List EntryRecord → Prop
  | _, [] => True
  | visible, entry :: rest =>
    (∀ target, entry.head = some target → TargetOk visible entry target) ∧ TargetsOk (visible ++ [entry]) rest

section Entries

variable (entryJson : EntryRecord → JsonValue) (conversationJson : ConversationRecord → JsonValue)

theorem entriesPlace_ok (view : ConversationView) (docs : List (JsString × JsonValue)) :
    Place.Ok [.field [(js "conversation", conversationJson view.conversation)] (js "entries")
      [(js "docs", .obj docs)]] := by
  intro frame hframe
  rw [mem_singleton.mp hframe]
  refine ⟨?_, by decide⟩
  have h : ([js "conversation"] : List JsString).contains (js "entries") = false := by decide
  simpa [Assoc.keys] using h

theorem apply_entries (view : ConversationView) (before old after new : List EntryRecord) :
    applyOp (({ view with entries := before ++ old ++ after } : ConversationView).json entryJson conversationJson)
      (.edit entriesPath (.p before.length old.length (new.map entryJson))) =
      .ok (({ view with entries := before ++ new ++ after } : ConversationView).json entryJson conversationJson) := by
  have h := applyOp_splice _ (entriesPlace_ok conversationJson view view.docs) (before.map entryJson)
    (old.map entryJson) (after.map entryJson) (new.map entryJson)
  rw [length_map, length_map, ← map_append, ← map_append, ← map_append, ← map_append] at h
  exact h

theorem advanceEntry_active (visible : List EntryRecord)
    (hs : visible.Pairwise (fun a b => a.id < b.id)) (hback : HeadsBack visible) (progress : Progress)
    (entry : EntryRecord) (hnew : ∀ old ∈ visible, old.id < entry.id)
    (htarget : ∀ target, entry.head = some target → TargetOk visible entry target)
    (hactive : progress.entries = activeOf visible) :
    (advanceEntry entryJson progress entry).entries = activeOf (visible ++ [entry]) ∧
    ∃ op, (advanceEntry entryJson progress entry).entryOps = progress.entryOps ++ [op] ∧ ∀ view : ConversationView,
      applyOp (({ view with entries := progress.entries } : ConversationView).json entryJson conversationJson) op =
        .ok (({ view with entries := (advanceEntry entryJson progress entry).entries } : ConversationView).json
          entryJson conversationJson) := by
  unfold advanceEntry
  cases hh : entry.head with
  | none =>
    refine ⟨by rw [activeOf_plain visible hback entry hnew hh, ← hactive], _, rfl, fun view => ?_⟩
    have h := apply_entries entryJson conversationJson view progress.entries [] [] [entry]
    simpa using h
  | some target =>
    refine ⟨by rw [activeOf_marker visible hs entry target hh (htarget target hh), ← hactive], _, rfl, fun view => ?_⟩
    have hlen : (progress.entries.take (keptFrom progress.entries target)).length =
        keptFrom progress.entries target := length_take_of_le (findIdx_le_length)
    have h := apply_entries entryJson conversationJson view [] (progress.entries.take (keptFrom progress.entries target))
      (progress.entries.drop (keptFrom progress.entries target)) [entry]
    rw [hlen] at h
    simpa using h

/-- The published entries of a conversation, in order. -/
def entriesOf (id : Id) (changes : List Change) : List EntryRecord :=
  changes.filterMap fun
    | .entry entry => if entry.conversationId = id then some entry else none
    | _ => none

theorem headsBack_append (visible : List EntryRecord) (entry : EntryRecord) (h : HeadsBack visible)
    (hnew : ∀ old ∈ visible, old.id < entry.id)
    (htarget : ∀ target, entry.head = some target → TargetOk visible entry target) :
    HeadsBack (visible ++ [entry]) := by
  intro e he target hh
  rcases mem_append.mp he with he | he
  · exact h e he target hh
  · rw [mem_singleton] at he
    subst he
    obtain ⟨selected, hselected, rfl⟩ := (htarget target hh).selects
    rcases mem_append.mp hselected with hold | hself
    · exact le_of_lt (hnew selected hold)
    · rw [mem_singleton.mp hself]

theorem targets_headsBack (visible new : List EntryRecord) (hs : (visible ++ new).Pairwise (fun a b => a.id < b.id))
    (h : HeadsBack visible) (ht : TargetsOk visible new) : HeadsBack (visible ++ new) := by
  induction new generalizing visible with
  | nil => simpa using h
  | cons entry new ih =>
    have hs' : ((visible ++ [entry]) ++ new).Pairwise (fun a b => a.id < b.id) := by simpa using hs
    have hnew : ∀ old ∈ visible, old.id < entry.id := fun old ho =>
      (pairwise_append.mp hs).2.2 old ho entry (by simp)
    have := ih _ hs' (headsBack_append visible entry h hnew ht.1) ht.2
    simpa using this

/-- The entries of a later progress are what is active then, and its operations lead there from an earlier one. -/
structure EntriesTrack (progress next : Progress) (visible : List EntryRecord) : Prop where
  active : next.entries = activeOf visible
  quiet : next.entryOps = progress.entryOps → next.entries = progress.entries
  ops : ∃ ops, next.entryOps = progress.entryOps ++ ops ∧ ∀ view : ConversationView,
    Delta.apply (({ view with entries := progress.entries } : ConversationView).json entryJson conversationJson) ops =
      .ok (({ view with entries := next.entries } : ConversationView).json entryJson conversationJson)

theorem changes_active (id : Id) (changes : List Change) (progress : Progress) (visible : List EntryRecord)
    (hs : (visible ++ entriesOf id changes).Pairwise (fun a b => a.id < b.id)) (hback : HeadsBack visible)
    (htargets : TargetsOk visible (entriesOf id changes)) (hactive : progress.entries = activeOf visible) :
    EntriesTrack entryJson conversationJson progress (changes.foldl (advanceChange entryJson id) progress)
      (visible ++ entriesOf id changes) := by
  induction changes generalizing progress visible with
  | nil => exact ⟨by simpa [entriesOf] using hactive, fun _ => rfl, [], by simp, fun view => rfl⟩
  | cons change changes ih =>
    rw [foldl_cons]
    have hother : entriesOf id (change :: changes) = entriesOf id changes →
        (advanceChange entryJson id progress change).entries = progress.entries →
        (advanceChange entryJson id progress change).entryOps = progress.entryOps →
        EntriesTrack entryJson conversationJson progress
          (changes.foldl (advanceChange entryJson id) (advanceChange entryJson id progress change))
          (visible ++ entriesOf id (change :: changes)) := by
      intro hsame hentries hops
      rw [hsame] at hs htargets ⊢
      obtain ⟨hend, hquiet, hrest⟩ :=
        ih (advanceChange entryJson id progress change) visible hs hback htargets (hentries.trans hactive)
      rw [hops, hentries] at hrest hquiet
      exact ⟨hend, hquiet, hrest⟩
    cases change with
    | other => exact hother rfl rfl rfl
    | document c =>
      refine hother rfl ?_ ?_
      · unfold advanceChange advanceDocument
        dsimp only
        repeat' split
        all_goals rfl
      · unfold advanceChange advanceDocument
        dsimp only
        repeat' split
        all_goals rfl
    | entry entry =>
      by_cases hc : entry.conversationId = id
      · have hcons : entriesOf id (.entry entry :: changes) = entry :: entriesOf id changes := by
          simp [entriesOf, hc]
        rw [hcons] at hs htargets ⊢
        have hnew : ∀ old ∈ visible, old.id < entry.id := fun old ho =>
          (pairwise_append.mp hs).2.2 old ho entry (by simp)
        have hstep : advanceChange entryJson id progress (.entry entry) = advanceEntry entryJson progress entry := by
          simp [advanceChange, hc]
        rw [hstep]
        obtain ⟨hactive', op, hop, happly⟩ := advanceEntry_active entryJson conversationJson visible
          (pairwise_append.mp hs).1 hback progress entry hnew htargets.1 hactive
        have hs' : ((visible ++ [entry]) ++ entriesOf id changes).Pairwise (fun a b => a.id < b.id) := by
          simpa using hs
        obtain ⟨hend, -, ops, hops, hall⟩ := ih (advanceEntry entryJson progress entry) (visible ++ [entry]) hs'
          (headsBack_append visible entry hback hnew htargets.1) htargets.2 hactive'
        refine ⟨by simpa using hend, fun hsame => ?_, op :: ops, by rw [hops, hop]; simp, fun view => ?_⟩
        · have hlen := congrArg List.length hsame
          rw [hops, hop, length_append, length_append, length_singleton] at hlen
          omega
        rw [apply_cons _ _ _ _ (happly view)]
        exact hall view
      · refine hother ?_ ?_ ?_
        · simp [entriesOf, hc]
        · simp [advanceChange, hc]
        · simp [advanceChange, hc]

end Entries

end PiAgent.Harness
