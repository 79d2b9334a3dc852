import PiAgent.Env.WatchEntries

/-! # What a scan holds, by the order of its targets -/

namespace PiAgent.Env.Watch

open List

variable (port : WatchPort) (tree : FileTree) (targets : List WatchTarget) (path : Path)

open Classical in
/-- What is held of a path whose identity is recorded before it is listed. -/
noncomputable def identityFirst : Option Entry :=
  (own tree targets path).or
    (if ∃ target ∈ targets, path ∈ above port target.path then identity tree path
    else if ∃ target ∈ targets, Lists tree target path then listing tree path else none)

open Classical in
/-- What is held of a path that is listed before its identity is recorded. -/
noncomputable def listingFirst : Option Entry :=
  (own tree targets path).or
    (if ∃ target ∈ targets, Lists tree target path then listing tree path
    else if ∃ target ∈ targets, path ∈ above port target.path then identity tree path else none)

theorem firsts_of_not_above (h : ∀ target ∈ targets, path ∉ above port target.path) :
    listingFirst port tree targets path = identityFirst port tree targets path := by
  unfold listingFirst identityFirst
  have : ¬∃ target ∈ targets, path ∈ above port target.path := fun
      ⟨target, htarget, habove⟩ => h target htarget habove
  simp [this]

theorem firsts_of_not_lists (h : ∀ target ∈ targets, ¬Lists tree target path) :
    listingFirst port tree targets path = identityFirst port tree targets path := by
  unfold listingFirst identityFirst
  have : ¬∃ target ∈ targets, Lists tree target path := fun ⟨target, htarget, hlists⟩ => h target htarget hlists
  simp [this]

variable (order : List WatchTarget)

theorem own_perm (h : order.Perm targets) : own tree order path = own tree targets path := by
  unfold own
  simp only [(h.map WatchTarget.path).mem_iff]

theorem above_perm (h : order.Perm targets) :
    (∃ target ∈ order, path ∈ above port target.path) ↔ ∃ target ∈ targets, path ∈ above port target.path := by
  simp only [h.mem_iff]

theorem lists_perm (h : order.Perm targets) :
    (∃ target ∈ order, Lists tree target path) ↔ ∃ target ∈ targets, Lists tree target path := by
  simp only [h.mem_iff]

open Classical in
theorem identityFirst_perm (h : order.Perm targets) :
    identityFirst port tree order path = identityFirst port tree targets path := by
  unfold identityFirst
  rw [own_perm tree targets path order h]
  exact congrArg _ (if_congr (above_perm port targets path order h) rfl
      (if_congr (lists_perm tree targets path order h) rfl rfl))

open Classical in
theorem listingFirst_perm (h : order.Perm targets) :
    listingFirst port tree order path = listingFirst port tree targets path := by
  unfold listingFirst
  rw [own_perm tree targets path order h]
  exact congrArg _ (if_congr (lists_perm tree targets path order h) rfl
      (if_congr (above_perm port targets path order h) rfl rfl))

/-! ## The first target that records a path -/

theorem exists_first {α : Type} (P : α → Prop) (items : List α) :
    (∀ a ∈ items, ¬P a) ∨ ∃ front a rest, items = front ++ a :: rest ∧ (∀ b ∈ front, ¬P b) ∧ P a := by
  induction items with
  | nil => exact Or.inl (by simp)
  | cons a rest ih =>
    by_cases ha : P a
    · exact Or.inr ⟨[], a, rest, rfl, by simp, ha⟩
    · rcases ih with hnone | ⟨front, b, last, rfl, hfront, hb⟩
      · exact Or.inl (by simpa [ha] using hnone)
      · exact Or.inr ⟨a :: front, b, last, rfl, by simpa [ha] using hfront, hb⟩

theorem findSome_skip {α β : Type} (f : α → Option β) (front rest : List α) (h : ∀ a ∈ front, f a = none) :
    (front ++ rest).findSome? f = rest.findSome? f := by
  rw [findSome?_append, findSome?_eq_none_iff.mpr h, Option.none_or]

theorem contribution_of_no_lstat (h : tree.lstat path = none) (target : WatchTarget) :
    contribution port tree path target = none := by
  unfold contribution identity listing
  simp [h]

section

variable (front rest : List WatchTarget) (target : WatchTarget)
    (hfront : ∀ other ∈ front, contribution port tree path other = none)
include hfront

theorem held_above (h : path ∈ above port target.path) :
    held port tree (front ++ target :: rest) path = identityFirst port tree (front ++ target :: rest) path := by
  have hsome : ∃ other ∈ front ++ target :: rest, path ∈ above port other.path := ⟨target, by simp, h⟩
  unfold held identityFirst
  rw [if_pos hsome, findSome_skip _ front _ hfront, findSome?_cons, contribution_above port tree path target h]
  cases hstats : tree.lstat path with
  | none =>
    have hrest := findSome?_eq_none_iff.mpr fun other (_ : other ∈ rest) =>
      contribution_of_no_lstat port tree path hstats other
    simp [identity, hstats, hrest]
  | some stats => simp [identity, hstats]

theorem held_lists (h : Lists tree target path) :
    held port tree (front ++ target :: rest) path = listingFirst port tree (front ++ target :: rest) path := by
  have hsome : ∃ other ∈ front ++ target :: rest, Lists tree other path := ⟨target, by simp, h⟩
  obtain ⟨stats, hstats⟩ := h.2.exists_lstat
  unfold held listingFirst
  rw [if_pos hsome, findSome_skip _ front _ hfront, findSome?_cons, contribution_lists port tree path target h]
  simp [listing, hstats]

end

theorem held_or : held port tree targets path = identityFirst port tree targets path ∨
    held port tree targets path = listingFirst port tree targets path := by
  rcases exists_first (fun target : WatchTarget => path ∈ above port target.path ∨
      Lists tree target path) targets with
    hnone | ⟨front, target, rest, rfl, hfront, habove | hlists⟩
  · have hall : ∀ target ∈ targets, contribution port tree path target = none := fun target htarget =>
      contribution_none port tree path target (fun h => hnone target htarget (Or.inl h))
          (fun h => hnone target htarget (Or.inr h))
    have habove : ¬∃ target ∈ targets, path ∈ above port target.path :=
        fun ⟨target, htarget, h⟩ => hnone target htarget (Or.inl h)
    have hlists : ¬∃ target ∈ targets, Lists tree target path :=
        fun ⟨target, htarget, h⟩ => hnone target htarget (Or.inr h)
    refine Or.inl ?_
    unfold held identityFirst
    rw [findSome?_eq_none_iff.mpr hall, if_neg habove, if_neg hlists]
  · exact Or.inl (held_above port tree path front rest target
        (fun other hother => contribution_none port tree path other
      (fun h => hfront other hother (Or.inl h)) (fun h => hfront other hother (Or.inr h))) habove)
  · exact Or.inr (held_lists port tree path front rest target
        (fun other hother => contribution_none port tree path other
      (fun h => hfront other hother (Or.inl h)) (fun h => hfront other hother (Or.inr h))) hlists)

/-! ## Orders -/

def inFront (first : WatchTarget → Bool) (targets : List WatchTarget) : List WatchTarget :=
  targets.filter first ++ targets.filter (fun target => !first target)

theorem inFront_perm (first : WatchTarget → Bool) : (inFront first targets).Perm targets :=
  filter_append_perm first targets

theorem findSome_filter {α β : Type} (f : α → Option β) (keep : α → Bool) (items : List α)
    (h : ∀ a ∈ items, keep a = false → f a = none) : (items.filter keep).findSome? f = items.findSome? f := by
  induction items with
  | nil => rfl
  | cons a rest ih =>
    have hrest := ih fun b hb => h b (mem_cons_of_mem a hb)
    cases hkeep : keep a with
    | true => rw [filter_cons_of_pos hkeep, findSome?_cons, findSome?_cons, hrest]
    | false =>
      rw [filter_cons_of_neg (by simp [hkeep]), findSome?_cons, h a mem_cons_self hkeep, hrest]

theorem held_inFront : held port tree
    (inFront (fun target => target.path != path) targets) path = held port tree targets path := by
  unfold held
  rw [own_perm tree targets path _ (inFront_perm targets _)]
  cases hown : own tree targets path with
  | some entry => rfl
  | none =>
    have hself : ∀ target ∈ targets, target.path = path → contribution port tree path target = none := by
      rintro target htarget rfl
      have hstat : tree.stat target.path = none := by
        have hmem : target.path ∈ targets.map WatchTarget.path := mem_map_of_mem htarget
        unfold own at hown
        rw [if_pos hmem] at hown
        simpa using hown
      have hlists : ¬Lists tree target target.path := fun h => Nat.lt_irrefl _ h.2.isPrefix.2
      by_cases hroot : target.path = []
      · refine contribution_of_no_lstat port tree _ ?_ target
        rw [hroot, tree.root, ← hroot, hstat]
      · exact contribution_none port tree _ target (fun h => ((mem_above port _ _ hroot).mp h).2 rfl) hlists
    have hlast : ∀ target ∈ targets.filter (fun target => !(target.path != path)),
        contribution port tree path target = none := by
      intro target htarget
      obtain ⟨hmem, hpath⟩ := mem_filter.mp htarget
      exact hself target hmem (by simpa using hpath)
    unfold inFront
    rw [findSome?_append, findSome_filter _ _ targets
        (fun target htarget h => hself target htarget (by simpa using h)),
      findSome?_eq_none_iff.mpr hlast, Option.or_none]

theorem held_identity (target : WatchTarget) (htarget : target ∈ targets) (h : path ∈ above port target.path) :
    held port tree (target :: targets.erase target) path = identityFirst port tree targets path := by
  have hheld := held_above port tree path [] (targets.erase target) target (by simp) h
  rw [nil_append] at hheld
  rw [hheld, identityFirst_perm port tree targets path _ (perm_cons_erase htarget).symm]

open Classical in
theorem held_listing (first : WatchTarget → Bool)
    (hfirst : ∀ target ∈ targets, Lists tree target path → first target = true)
    (habove : ∀ target ∈ targets, first target = true → path ∉ above port target.path) :
    held port tree (inFront first targets) path = listingFirst port tree targets path := by
  rw [← listingFirst_perm port tree targets path _ (inFront_perm targets first)]
  rcases exists_first (fun target => Lists tree target path) (targets.filter first) with
    hnone | ⟨front, target, rest, hsplit, hfront, hlists⟩
  · have hlists : ∀ target ∈ inFront first targets, ¬Lists tree target path := fun target htarget h => by
      have hmem := (inFront_perm targets first).mem_iff.mp htarget
      exact hnone target (mem_filter.mpr ⟨hmem, hfirst target hmem h⟩) h
    rcases held_or port tree (inFront first targets) path with h | h
    · rw [h, firsts_of_not_lists port tree _ path hlists]
    · exact h
  · unfold inFront
    rw [hsplit, append_assoc, cons_append]
    refine held_lists port tree path front _ target (fun other hother => ?_) hlists
    have hmem : other ∈ targets.filter first := by rw [hsplit]; exact mem_append_left _ hother
    obtain ⟨hin, hyes⟩ := mem_filter.mp hmem
    exact contribution_none port tree path other (habove other hin hyes) (hfront other hother)

end PiAgent.Env.Watch
