import PiAgent.Durable.Fork
import PiAgent.Durable.MemoryInvariant

/-! # What a forked conversation sees -/

namespace PiAgent.Durable

open List Sorted

/-- An entry is visible from its own conversation, and from a fork of one that sees it up to the fork point. -/
inductive Visible (s : State) : Id → EntryRecord → Prop where
  | own (entry : EntryRecord) (he : s.entries entry.id = some entry) : Visible s entry.conversationId entry
  | inherited (id : Id) (parent : Parent) (entry : EntryRecord) (hp : s.parent id = some parent)
    (hle : entry.id ≤ parent.atEntry) (h : Visible s parent.conversationId entry) : Visible s id entry

inductive Ancestry (s : State) : Id → ℕ → Prop where
  | root (id : Id) (record : ConversationRecord) (hr : s.conversations id = some record)
    (hp : record.parent = none) : Ancestry s id 0
  | fork (id : Id) (record : ConversationRecord) (parent : Parent) (n : ℕ) (hr : s.conversations id = some record)
    (hp : record.parent = some parent) (h : Ancestry s parent.conversationId n) : Ancestry s id (n + 1)

structure Tree (s : State) : Prop where
  rooted : ∀ id record, s.conversations id = some record → ∃ n, Ancestry s id n
  own : ∀ id parent, s.parent id = some parent →
    ∀ entry, s.entries entry.id = some entry → entry.conversationId = id → parent.atEntry < entry.id

variable (s : State) (id : Id)

theorem visible_iff (entry : EntryRecord) :
    Visible s id entry ↔ s.entries entry.id = some entry ∧ entry.conversationId = id ∨
      ∃ parent, s.parent id = some parent ∧ entry.id ≤ parent.atEntry ∧ Visible s parent.conversationId entry := by
  constructor
  · intro h
    cases h with
    | own entry he => exact .inl ⟨he, rfl⟩
    | inherited id parent entry hp hle h => exact .inr ⟨parent, hp, hle, h⟩
  · rintro (⟨he, rfl⟩ | ⟨parent, hp, hle, h⟩)
    · exact .own entry he
    · exact .inherited id parent entry hp hle h

theorem Visible.stored (entry : EntryRecord) (h : Visible s id entry) : s.entries entry.id = some entry := by
  induction h with
  | own entry he => exact he
  | inherited id parent entry hp hle h ih => exact ih

/-! ## The length of the way up -/

theorem ancestry_unique (n m : ℕ) (h : Ancestry s id n) (h' : Ancestry s id m) : n = m := by
  induction h generalizing m with
  | root id record hr hp =>
    cases h' with
    | root _ _ _ _ => rfl
    | fork _ record' parent m hr' hp' _ =>
      rw [hr] at hr'
      cases hr'
      rw [hp] at hp'
      cases hp'
  | fork id record parent n hr hp _ ih =>
    cases h' with
    | root _ record' hr' hp' =>
      rw [hr] at hr'
      cases hr'
      rw [hp] at hp'
      cases hp'
    | fork _ record' parent' m hr' hp' h' =>
      rw [hr] at hr'
      cases hr'
      rw [hp] at hp'
      cases hp'
      rw [ih m h']

theorem ancestry_ids (n : ℕ) (h : Ancestry s id n) :
    ∃ ids : List Id, ids.length = n + 1 ∧ ids.Nodup ∧ ∀ x ∈ ids, ∃ m ≤ n, Ancestry s x m := by
  induction h with
  | root id record hr hp =>
    refine ⟨[id], rfl, nodup_singleton id, fun x hx => ⟨0, Nat.le_refl 0, ?_⟩⟩
    rw [mem_singleton.mp hx]
    exact .root id record hr hp
  | fork id record parent n hr hp h ih =>
    obtain ⟨ids, hlen, hnd, hall⟩ := ih
    have hself := Ancestry.fork id record parent n hr hp h
    refine ⟨id :: ids, by rw [length_cons, hlen], nodup_cons.mpr ⟨fun hmem => ?_, hnd⟩, ?_⟩
    · obtain ⟨m, hm, hx⟩ := hall id hmem
      have := ancestry_unique s id (n + 1) m hself hx
      omega
    · intro x hx
      rcases mem_cons.mp hx with rfl | hx
      · exact ⟨n + 1, Nat.le_refl _, hself⟩
      · obtain ⟨m, hm, ha⟩ := hall x hx
        exact ⟨m, Nat.le_succ_of_le hm, ha⟩

theorem Ancestry.exists (n : ℕ) (h : Ancestry s id n) : ∃ record, s.conversations id = some record := by
  cases h with
  | root _ record hr _ => exact ⟨record, hr⟩
  | fork _ record _ _ hr _ _ => exact ⟨record, hr⟩

theorem ancestry_lt (hs : Sound s) (id : Id) (n : ℕ) (h : Ancestry s id n) : n < s.conversationIds.length := by
  obtain ⟨ids, hlen, hnd, hall⟩ := ancestry_ids s id n h
  have hsub : ids ⊆ s.conversationIds := by
    intro x hx
    obtain ⟨m, -, ha⟩ := hall x hx
    exact (hs.indexed.conversationIds.exact x).mpr (ha.exists s x m)
  have hle := (hnd.subperm hsub).length_le
  omega

/-! ## One conversation's entries -/

variable (upper : Option Id)

theorem atMost_of_lt (x y : Id) (hxy : x < y) (h : atMost upper y = true) : atMost upper x = true := by
  cases upper with
  | none => rfl
  | some bound =>
    simp only [atMost, Option.all_some, decide_eq_true_eq] at h ⊢
    exact le_trans (le_of_lt hxy) h

theorem atLeast_of_gt (lower : Option Id) (x y : Id) (hxy : y < x) (h : atLeast lower y = true) :
    atLeast lower x = true := by
  cases lower with
  | none => rfl
  | some bound =>
    simp only [atLeast, Option.all_some, decide_eq_true_eq] at h ⊢
    exact le_trans h (le_of_lt hxy)

theorem atMost_narrow (at' id : Id) :
    atMost (some (narrow upper at')) id = (atMost upper id && decide (id ≤ at')) := by
  cases upper with
  | none => simp [atMost, narrow]
  | some bound => simp [atMost, narrow]

def boundedIds (s : State) (lower upper : Option Id) (id : Id) : List Id :=
  (s.entryIds id).filter (fun x => atMost upper x && atLeast lower x)

section Segment

variable (s : State) (hs : Sound s) (lower upper : Option Id) (id : Id)

include hs in
theorem descendingSegment_eq :
    descendingSegment s lower upper id = (boundedIds s lower upper id).reverse.filterMap s.entries := by
  have hsorted := (hs.indexed.entryIds id).ascending
  unfold descendingSegment boundedIds upperBoundOf
  rw [(take_bisect (atMost upper) (fun x y => atMost_of_lt upper x y) _ hsorted).1]
  rw [(takeWhile_eq_filter (fun x y : Id => y < x) (atLeast lower) (fun x y => atLeast_of_gt lower x y) _ ?_).1]
  · rw [filter_reverse, filter_filter]
    simp only [Bool.and_comm]
  · rw [pairwise_reverse]
    exact hsorted.filter _

include hs in
theorem ascendingSegment_eq :
    ascendingSegment s lower upper id = (boundedIds s lower upper id).filterMap s.entries := by
  have hsorted := (hs.indexed.entryIds id).ascending
  unfold ascendingSegment boundedIds lowerBoundOf
  rw [(take_bisect (fun x => !atLeast lower x) ?_ _ hsorted).2]
  · rw [(takeWhile_eq_filter (fun x y : Id => x < y) (atMost upper) (fun x y => atMost_of_lt upper x y) _
      (hsorted.filter _)).1]
    rw [filter_filter]
    simp only [Bool.not_not]
  · intro x y hxy hy
    cases hx : atLeast lower x with
    | false => rfl
    | true =>
      rw [atLeast_of_gt lower y x hxy hx] at hy
      cases hy

include hs in
theorem ascendingSegment_reverse : ascendingSegment s lower upper id = (descendingSegment s lower upper id).reverse := by
  rw [ascendingSegment_eq s hs, descendingSegment_eq s hs, filterMap_reverse, reverse_reverse]

include hs in
theorem mem_descendingSegment (entry : EntryRecord) :
    entry ∈ descendingSegment s lower upper id ↔ s.entries entry.id = some entry ∧ entry.conversationId = id ∧
      atMost upper entry.id = true ∧ atLeast lower entry.id = true := by
  rw [descendingSegment_eq s hs, mem_filterMap]
  unfold boundedIds
  simp only [mem_reverse, mem_filter, Bool.and_eq_true]
  constructor
  · rintro ⟨x, ⟨hx, hupper, hlower⟩, he⟩
    have hid := hs.keyed.entry x entry he
    subst hid
    obtain ⟨r, hr, hc⟩ := ((hs.indexed.entryIds id).exact _).mp hx
    rw [he] at hr
    cases hr
    exact ⟨he, hc, hupper, hlower⟩
  · rintro ⟨he, hc, hupper, hlower⟩
    exact ⟨entry.id, ⟨((hs.indexed.entryIds id).exact _).mpr ⟨entry, he, hc⟩, hupper, hlower⟩, he⟩

include hs in
theorem descendingSegment_sorted : (descendingSegment s lower upper id).Pairwise (fun a b => b.id < a.id) := by
  rw [descendingSegment_eq s hs, pairwise_filterMap, pairwise_reverse]
  unfold boundedIds
  refine ((hs.indexed.entryIds id).ascending.filter _).imp ?_
  intro x y hxy b hb a ha
  rw [hs.keyed.entry x a ha, hs.keyed.entry y b hb]
  exact hxy

end Segment

/-! ## The walk from leaf to root -/

theorem parent_some (record : ConversationRecord) (hr : s.conversations id = some record) :
    s.parent id = record.parent := by
  unfold State.parent
  rw [hr]
  rfl

theorem mem_visibleFrom (hs : Sound s) (lower : Option Id) (id : Id) (n : ℕ) (h : Ancestry s id n)
    (fuel : ℕ) (hf : n < fuel) (upper : Option Id) (entry : EntryRecord) :
    entry ∈ visibleFrom s lower fuel id upper ↔
      Visible s id entry ∧ atMost upper entry.id = true ∧ atLeast lower entry.id = true := by
  induction h generalizing fuel upper with
  | root id record hr hp =>
    obtain ⟨fuel, rfl⟩ := Nat.exists_eq_succ_of_ne_zero (Nat.pos_iff_ne_zero.mp hf)
    have hparent := parent_some s id record hr
    rw [visibleFrom, hparent, hp, append_nil, mem_descendingSegment s hs, visible_iff, hparent, hp]
    simp [and_assoc]
  | fork id record parent n hr hp _ ih =>
    obtain ⟨fuel, rfl⟩ := Nat.exists_eq_succ_of_ne_zero (Nat.pos_iff_ne_zero.mp (Nat.zero_lt_of_lt hf))
    have hparent := parent_some s id record hr
    have hrest : entry ∈ (if atLeast lower (narrow upper parent.atEntry) = false then []
          else visibleFrom s lower fuel parent.conversationId (some (narrow upper parent.atEntry))) ↔
        Visible s parent.conversationId entry ∧ entry.id ≤ parent.atEntry ∧ atMost upper entry.id = true ∧
          atLeast lower entry.id = true := by
      have hnarrow := atMost_narrow upper parent.atEntry entry.id
      split
      · -- nothing is left between the narrowed bound and the lower one
        rename_i hstop
        simp only [not_mem_nil, false_iff, not_and]
        intro _ hle hupper hlower
        have hin : entry.id ≤ narrow upper parent.atEntry := by
          rw [hupper, Bool.true_and] at hnarrow
          have := hnarrow.trans (decide_eq_true hle)
          simpa [atMost] using this
        rcases lt_or_eq_of_le hin with hlt | heq
        · rw [atLeast_of_gt lower _ _ hlt hlower] at hstop
          cases hstop
        · rw [← heq, hlower] at hstop
          cases hstop
      · rw [ih fuel (by omega), hnarrow, Bool.and_eq_true, decide_eq_true_eq]
        constructor
        · rintro ⟨hv, ⟨hu, hle⟩, hl⟩
          exact ⟨hv, hle, hu, hl⟩
        · rintro ⟨hv, hle, hu, hl⟩
          exact ⟨hv, ⟨hu, hle⟩, hl⟩
    rw [visibleFrom, hparent, hp]
    simp only [mem_append]
    rw [mem_descendingSegment s hs, hrest, visible_iff s id, hparent, hp]
    constructor
    · rintro (⟨he, hc, hu, hl⟩ | ⟨hv, hle, hu, hl⟩)
      · exact ⟨.inl ⟨he, hc⟩, hu, hl⟩
      · exact ⟨.inr ⟨parent, rfl, hle, hv⟩, hu, hl⟩
    · rintro ⟨⟨he, hc⟩ | ⟨parent', hp', hle, hv⟩, hu, hl⟩
      · exact .inl ⟨he, hc, hu, hl⟩
      · cases hp'
        exact .inr ⟨hv, hle, hu, hl⟩

theorem visibleFrom_sorted (hs : Sound s) (ht : Tree s) (lower : Option Id) (id : Id) (n : ℕ)
    (h : Ancestry s id n) (fuel : ℕ) (hf : n < fuel) (upper : Option Id) :
    (visibleFrom s lower fuel id upper).Pairwise (fun a b => b.id < a.id) := by
  induction h generalizing fuel upper with
  | root id record hr hp =>
    obtain ⟨fuel, rfl⟩ := Nat.exists_eq_succ_of_ne_zero (Nat.pos_iff_ne_zero.mp hf)
    rw [visibleFrom, parent_some s id record hr, hp, append_nil]
    exact descendingSegment_sorted s hs lower upper id
  | fork id record parent n hr hp hrest ih =>
    obtain ⟨fuel, rfl⟩ := Nat.exists_eq_succ_of_ne_zero (Nat.pos_iff_ne_zero.mp (Nat.zero_lt_of_lt hf))
    have hparent := (parent_some s id record hr).trans hp
    rw [visibleFrom, hparent]
    simp only
    split
    · rw [append_nil]
      exact descendingSegment_sorted s hs lower upper id
    · refine pairwise_append.mpr ⟨descendingSegment_sorted s hs lower upper id, ih fuel (by omega) _, ?_⟩
      intro a ha b hb
      obtain ⟨he, hc, -, -⟩ := (mem_descendingSegment s hs lower upper id a).mp ha
      obtain ⟨-, hle, -⟩ := (mem_visibleFrom s hs lower _ n hrest fuel (by omega) _ b).mp hb
      rw [atMost_narrow, Bool.and_eq_true, decide_eq_true_eq] at hle
      exact lt_of_le_of_lt hle.2 (ht.own id parent hparent a he hc)

/-! ## The walk from root to leaf -/

theorem visibleFrom_segments (lower : Option Id) (fuel : ℕ) (id : Id) (upper : Option Id) :
    visibleFrom s lower fuel id upper =
      (segmentsFrom s lower fuel id upper).flatMap (fun segment => descendingSegment s lower segment.2 segment.1) := by
  induction fuel generalizing id upper with
  | zero => rfl
  | succ fuel ih =>
    rw [visibleFrom, segmentsFrom, flatMap_cons]
    congr 1
    cases s.parent id with
    | none => rfl
    | some parent =>
      simp only
      split
      · rfl
      · exact ih _ _

theorem ascending_reverse (hs : Sound s) (lower : Option Id) (segments : List (Id × Option Id)) :
    segments.reverse.flatMap (fun segment => ascendingSegment s lower segment.2 segment.1) =
      (segments.flatMap (fun segment => descendingSegment s lower segment.2 segment.1)).reverse := by
  induction segments with
  | nil => rfl
  | cons segment segments ih =>
    rw [reverse_cons, flatMap_append, ih, flatMap_cons, flatMap_cons, flatMap_nil,
      append_nil, reverse_append, ascendingSegment_reverse s hs]

theorem visibleEntriesAscending_eq (hs : Sound s) (id : Id) (lower upper : Option Id) :
    visibleEntriesAscending s id lower upper = (visibleEntries s id lower upper).map List.reverse := by
  unfold visibleEntriesAscending visibleEntries
  split
  · rfl
  · rw [ascending_reverse s hs, ← visibleFrom_segments]
    rfl

/-! ## The newest head -/

def LatestHead (s : State) (id : Id) (upper : Option Id) : Option EntryRecord → Prop
  | some entry => (Visible s id entry ∧ entry.head.isSome = true ∧ atMost upper entry.id = true) ∧
      ∀ other, Visible s id other → other.head.isSome = true → atMost upper other.id = true → other.id ≤ entry.id
  | none => ∀ other, Visible s id other → atMost upper other.id = true → other.head = none

theorem mem_ownHeads (hs : Sound s) (id : Id) (upper : Option Id) (x : Id) :
    x ∈ (s.headEntryIds id).takeWhile (atMost upper) ↔ ∃ entry, s.entries x = some entry ∧
      entry.conversationId = id ∧ entry.head.isSome = true ∧ atMost upper x = true := by
  rw [(takeWhile_eq_filter (fun x y : Id => x < y) (atMost upper) (fun x y => atMost_of_lt upper x y) _
    (hs.indexed.headEntryIds id).ascending).1, mem_filter, (hs.indexed.headEntryIds id).exact]
  constructor
  · rintro ⟨⟨entry, he, hc, hh⟩, hu⟩
    exact ⟨entry, he, hc, hh, hu⟩
  · rintro ⟨entry, he, hc, hh, hu⟩
    exact ⟨⟨entry, he, hc, hh⟩, hu⟩

theorem upperBoundOf_eq (ids : List Id) (hsorted : ids.Pairwise (· < ·)) (upper : Option Id) :
    upperBoundOf ids upper = (ids.takeWhile (atMost upper)).length :=
  bisect_takeWhile (atMost upper) (fun x y => atMost_of_lt upper x y) ids hsorted

theorem ownHead_latest (hs : Sound s) (ht : Tree s) (id : Id) (upper : Option Id)
    (hpos : 0 < upperBoundOf (s.headEntryIds id) upper) :
    ∃ entry, ((s.headEntryIds id)[upperBoundOf (s.headEntryIds id) upper - 1]?).bind s.entries = some entry ∧
      LatestHead s id upper (some entry) := by
  have hsorted := (hs.indexed.headEntryIds id).ascending
  have hprefix := takeWhile_prefix (atMost upper) (l := s.headEntryIds id)
  rw [upperBoundOf_eq _ hsorted] at hpos ⊢
  rw [last_of_isPrefix _ _ hprefix hpos]
  obtain ⟨last, hlast⟩ := getLast?_isSome.mpr (ne_nil_of_length_pos hpos) |> Option.isSome_iff_exists.mp
  obtain ⟨entry, he, hc, hh, hu⟩ := (mem_ownHeads s hs id upper last).mp (mem_of_getLast? hlast)
  have hid := hs.keyed.entry last entry he
  subst hid
  rw [hlast, Option.bind_some]
  refine ⟨entry, he, ⟨hc ▸ .own entry he, hh, hu⟩, fun other hv hoh hou => ?_⟩
  rcases (visible_iff s id other).mp hv with ⟨hoe, hoc⟩ | ⟨parent, hp, hle, -⟩
  · exact le_getLast _ (hsorted.sublist hprefix.sublist) entry.id hlast other.id
      ((mem_ownHeads s hs id upper other.id).mpr ⟨other, hoe, hoc, hoh, hou⟩)
  · exact le_of_lt (lt_of_le_of_lt hle (ht.own id parent hp entry he hc))

theorem noOwnHead (hs : Sound s) (id : Id) (upper : Option Id)
    (hpos : ¬ 0 < upperBoundOf (s.headEntryIds id) upper) (other : EntryRecord)
    (he : s.entries other.id = some other) (hc : other.conversationId = id) (hu : atMost upper other.id = true) :
    other.head = none := by
  rw [upperBoundOf_eq _ (hs.indexed.headEntryIds id).ascending, Nat.not_lt, Nat.le_zero, length_eq_zero_iff] at hpos
  by_contra hh
  have hmem := (mem_ownHeads s hs id upper other.id).mpr ⟨other, he, hc, Option.isSome_iff_ne_none.mpr hh, hu⟩
  rw [hpos] at hmem
  cases hmem

theorem headFrom_latest (hs : Sound s) (ht : Tree s) (id : Id) (n : ℕ) (h : Ancestry s id n)
    (fuel : ℕ) (hf : n < fuel) (upper : Option Id) : LatestHead s id upper (headFrom s fuel id upper) := by
  induction h generalizing fuel upper with
  | root id record hr hp =>
    obtain ⟨fuel, rfl⟩ := Nat.exists_eq_succ_of_ne_zero (Nat.pos_iff_ne_zero.mp hf)
    have hparent := (parent_some s id record hr).trans hp
    rw [headFrom]
    split
    · rename_i hpos
      obtain ⟨entry, heq, hlatest⟩ := ownHead_latest s hs ht id upper hpos
      rw [heq]
      exact hlatest
    · rename_i hpos
      rw [hparent]
      intro other hv hu
      rcases (visible_iff s id other).mp hv with ⟨he, hc⟩ | ⟨parent, hp', -⟩
      · exact noOwnHead s hs id upper hpos other he hc hu
      · rw [hparent] at hp'
        cases hp'
  | fork id record parent n hr hp hrest ih =>
    obtain ⟨fuel, rfl⟩ := Nat.exists_eq_succ_of_ne_zero (Nat.pos_iff_ne_zero.mp (Nat.zero_lt_of_lt hf))
    have hparent := (parent_some s id record hr).trans hp
    rw [headFrom]
    split
    · rename_i hpos
      obtain ⟨entry, heq, hlatest⟩ := ownHead_latest s hs ht id upper hpos
      rw [heq]
      exact hlatest
    · rename_i hpos
      rw [hparent]
      dsimp only
      have hup := ih fuel (by omega) (some (narrow upper parent.atEntry))
      have hin : ∀ other, Visible s id other → atMost upper other.id = true → other.head = none ∨
          Visible s parent.conversationId other ∧
            atMost (some (narrow upper parent.atEntry)) other.id = true := by
        intro other hv hu
        rcases (visible_iff s id other).mp hv with ⟨he, hc⟩ | ⟨parent', hp', hle, hv'⟩
        · exact .inl (noOwnHead s hs id upper hpos other he hc hu)
        · rw [hparent] at hp'
          cases hp'
          exact .inr ⟨hv', by rw [atMost_narrow, hu, decide_eq_true hle]; rfl⟩
      cases hfound : headFrom s fuel parent.conversationId (some (narrow upper parent.atEntry)) with
      | none =>
        rw [hfound] at hup
        intro other hv hu
        rcases hin other hv hu with hnone | ⟨hv', hu'⟩
        · exact hnone
        · exact hup other hv' hu'
      | some entry =>
        rw [hfound] at hup
        obtain ⟨⟨hv, hh, hu⟩, hmax⟩ := hup
        rw [atMost_narrow, Bool.and_eq_true, decide_eq_true_eq] at hu
        refine ⟨⟨.inherited id parent entry hparent hu.2 hv, hh, hu.1⟩, fun other hov hoh hou => ?_⟩
        rcases hin other hov hou with hnone | ⟨hv', hu'⟩
        · rw [hnone] at hoh
          cases hoh
        · exact hmax other hv' hoh hu'

end PiAgent.Durable
