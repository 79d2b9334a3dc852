import PiAgent.Env.WatchOrders

/-! # What watching by snapshots reports -/

namespace PiAgent.Env.Watch

open List

/-! ## What is to be reported -/

def Covered (tree : FileTree) (targets : List WatchTarget) (path : Path) : Prop :=
  (path ∈ targets.map WatchTarget.path ∧ (tree.stat path).isSome = true) ∨ ∃ target ∈ targets,
      Lists tree target path

def stateOf (tree : FileTree) (targets : List WatchTarget) (path : Path) : Option Entry :=
  if path ∈ targets.map WatchTarget.path ∧ (tree.stat path).isSome = true then
    (tree.stat path).map (fun stats => entryOf stats none)
  else (tree.lstat path).map (fun stats => entryOf stats none)

def Changed (before after : FileTree) (targets : List WatchTarget) (path : Path) : Prop :=
  (Covered before targets path ∨ Covered after targets path) ∧
      stateOf before targets path ≠ stateOf after targets path

structure Complete (port : WatchPort) (before after : FileTree) (targets : List WatchTarget) : Prop where
  changed : ∀ path, Changed before after targets path → path ∈ changes port before after targets
  moved : ∀ target ∈ targets, ∀ ancestor ∈ above port target.path,
    identity before ancestor ≠ identity after ancestor → target.path ∈ changes port before after targets
  order : ∀ order, order.Perm targets →
    ∀ path, path ∈ changes port before after order ↔ path ∈ changes port before after targets

/-! ## When it is -/

def Within (targets : List WatchTarget) (path : Path) : Prop := ∃ target ∈ targets, target.path <+: path

def Lone (port : WatchPort) (before after : FileTree) (targets : List WatchTarget) (path : Path) : Prop :=
  ∃ ancestor, ¬Within targets ancestor ∧ identity before ancestor ≠ identity after ancestor ∧
    (∃ target ∈ targets, ancestor ∈ above port target.path) ∧
    ∀ target ∈ targets, ancestor ∈ above port target.path → target.path = path

structure Steady (port : WatchPort) (before after : FileTree) (targets : List WatchTarget)
    (path : Path) : Prop where
  shown : Changed before after targets path →
      identityFirst port before targets path ≠ identityFirst port after targets path
  full : listingFirst port before targets path ≠ listingFirst port after targets path ↔
    identityFirst port before targets path ≠ identityFirst port after targets path
  left : (∃ target ∈ targets, Lists before target path ∧ ¬Lists after target path) →
    (listingFirst port before targets path ≠ identityFirst port after targets path ↔
      identityFirst port before targets path ≠ identityFirst port after targets path)
  joined : (∃ target ∈ targets, Lists after target path ∧ ¬Lists before target path) →
    (identityFirst port before targets path ≠ listingFirst port after targets path ↔
      identityFirst port before targets path ≠ identityFirst port after targets path)
  below : ∀ target ∈ targets, target.path = path → ∀ ancestor ∈ above port target.path,
    identity before ancestor ≠ identity after ancestor →
      identityFirst port before targets path ≠ identityFirst port after targets path

section Order

variable {port : WatchPort} {before after : FileTree} {targets order : List WatchTarget} (h : order.Perm targets)

include h

theorem within_perm (path : Path) : Within order path ↔ Within targets path := by
  unfold Within
  simp only [h.mem_iff]

theorem lone_perm (path : Path) : Lone port before after order path ↔ Lone port before after targets path := by
  unfold Lone
  simp only [h.mem_iff, within_perm h]

theorem changed_perm (path : Path) : Changed before after order path ↔ Changed before after targets path := by
  unfold Changed Covered stateOf
  simp only [h.mem_iff, (h.map WatchTarget.path).mem_iff]

theorem Steady.perm {path : Path} (hsteady : Steady port before after targets path) :
    Steady port before after order path := by
  obtain ⟨shown, full, left, joined, below⟩ := hsteady
  constructor <;> simp only [changed_perm h, h.mem_iff, identityFirst_perm _ _ targets path order h,
    listingFirst_perm _ _ targets path order h]
  · exact shown
  · exact full
  · exact left
  · exact joined
  · exact below

end Order

/-! ## What is reported -/

variable (port : WatchPort) (before after : FileTree) (targets : List WatchTarget)

theorem mem_changes_reported (path : Path) : path ∈ changes port before after targets ↔
    ∃ other, held port before targets other ≠ held port after targets other ∧ reported targets other = path := by
  unfold changes diff Snapshot.has
  simp only [scan_get, mem_append, mem_map, mem_filter]
  constructor
  · rintro (⟨other, ⟨-, hne⟩, hreported⟩ | ⟨other, ⟨hmem, hgone⟩, hreported⟩)
    · exact ⟨other, by simpa using hne, hreported⟩
    · refine ⟨other, fun heq => ?_, hreported⟩
      have hnone : held port after targets other = none := by simpa using hgone
      obtain ⟨⟨_, entry⟩, hentry, rfl⟩ := hmem
      have hlookup := lookup_eq_none_iff.mp ((scan_get port before targets _).trans (heq.trans hnone)) _ hentry
      simp at hlookup
  · rintro ⟨other, hne, hreported⟩
    have hkey : ∀ tree entry, held port tree targets other = some entry →
        ∃ a ∈ scan port tree targets, a.1 = other := by
      intro tree entry hheld
      have hsome := (scan_get port tree targets other).trans hheld
      obtain ⟨front, rest, hsplit, -⟩ := lookup_eq_some_iff.mp hsome
      exact ⟨(other, entry), by rw [hsplit]; simp, rfl⟩
    cases hafter : held port after targets other with
    | some entry => exact Or.inl ⟨other, ⟨hkey after entry hafter, by simpa using hne⟩, hreported⟩
    | none =>
      cases hbefore : held port before targets other with
      | none => exact absurd (hbefore.trans hafter.symm) hne
      | some entry => exact Or.inr ⟨other, ⟨hkey before entry hbefore, by simp [hafter]⟩, hreported⟩

theorem reported_within (path : Path) (h : Within targets path) : reported targets path = path := by
  unfold reported
  refine if_pos ?_
  obtain ⟨target, htarget, hstart⟩ := h
  exact any_eq_true.mpr ⟨target, htarget, (isWithin_iff _ _).mpr hstart⟩

theorem below_iff_above (target : WatchTarget) (htarget : target ∈ targets) (path : Path)
    (h : ¬Within targets path) :
    isWithin target.path path = true ↔ path ∈ above port target.path := by
  have hout : ¬target.path <+: path := fun hstart => h ⟨target, htarget, hstart⟩
  have hroot : target.path ≠ [] := fun heq => hout (by rw [heq]; exact nil_prefix)
  rw [isWithin_iff, mem_above port target.path path hroot]
  exact ⟨fun hstart => ⟨hstart, fun heq => hout (by rw [heq])⟩, fun hboth => hboth.1⟩

theorem reported_outside (path : Path) (h : ¬Within targets path) (front rest : List WatchTarget)
    (target : WatchTarget)
    (hsplit : targets = front ++ target :: rest) (hfront : ∀ other ∈ front, path ∉ above port other.path)
    (habove : path ∈ above port target.path) : reported targets path = target.path := by
  unfold reported
  have hany : ¬targets.any (fun target => isWithin path target.path) = true := fun hany => by
    obtain ⟨other, hother, hwithin⟩ := any_eq_true.mp hany
    exact h ⟨other, hother, (isWithin_iff _ _).mp hwithin⟩
  have hfind : targets.find? (fun target => isWithin target.path path) = some target := by
    rw [find?_eq_some_iff_append]
    refine ⟨(below_iff_above port targets target (by simp [hsplit]) path h).mpr habove, front, rest, hsplit,
        fun other hother => ?_⟩
    have hnot := fun hbelow => hfront other hother
      ((below_iff_above port targets other (by simp [hsplit, hother]) path h).mp hbelow)
    simpa using hnot
  rw [if_neg hany, hfind]
  rfl

theorem held_outside (tree : FileTree) (path : Path) (h : ¬Within targets path) :
    ((∃ target ∈ targets, path ∈ above port target.path) → held port tree targets path = identity tree path) ∧
      ((∀ target ∈ targets, path ∉ above port target.path) → held port tree targets path = none) := by
  have hown : own tree targets path = none := by
    unfold own
    refine if_neg fun hmem => ?_
    obtain ⟨target, htarget, heq⟩ := mem_map.mp hmem
    exact h ⟨target, htarget, by rw [heq]⟩
  have hlists : ∀ target ∈ targets, ¬Lists tree target path := fun target htarget hlists =>
    h ⟨target, htarget, hlists.2.isPrefix.1⟩
  have hnone : ¬∃ target ∈ targets, Lists tree target path := fun ⟨target, htarget, hl⟩ => hlists target htarget hl
  have hheld : held port tree targets path = identityFirst port tree targets path := by
    rcases held_or port tree targets path with heq | heq
    · exact heq
    · rw [heq, firsts_of_not_lists port tree targets path hlists]
  rw [hheld]
  unfold identityFirst
  rw [hown, Option.none_or, if_neg hnone]
  constructor
  · exact fun habove => if_pos habove
  · exact fun habove => if_neg fun ⟨target, htarget, hmem⟩ => habove target htarget hmem

theorem mem_changes (path : Path) : path ∈ changes port before after targets ↔
    (Within targets path ∧ held port before targets path ≠ held port after targets path) ∨
      ∃ ancestor, ¬Within targets ancestor ∧ identity before ancestor ≠ identity after ancestor ∧
        ∃ front target rest, targets = front ++ target :: rest ∧
            (∀ other ∈ front, ancestor ∉ above port other.path) ∧
          ancestor ∈ above port target.path ∧ target.path = path := by
  rw [mem_changes_reported]
  constructor
  · rintro ⟨other, hne, hreported⟩
    by_cases hwithin : Within targets other
    · rw [reported_within targets other hwithin] at hreported
      exact Or.inl (hreported ▸ ⟨hwithin, hne⟩)
    · have hbefore := held_outside port targets before other hwithin
      have hafter := held_outside port targets after other hwithin
      rcases exists_first (fun target : WatchTarget => other ∈ above port target.path) targets with
        hnone | ⟨front, target, rest, hsplit, hfront, habove⟩
      · exact absurd ((hbefore.2 hnone).trans (hafter.2 hnone).symm) hne
      · have hsome : ∃ target ∈ targets, other ∈ above port target.path := ⟨target, by simp [hsplit], habove⟩
        rw [hbefore.1 hsome, hafter.1 hsome] at hne
        rw [reported_outside port targets other hwithin front rest target hsplit hfront habove] at hreported
        exact Or.inr ⟨other, hwithin, hne, front, target, rest, hsplit, hfront, habove, hreported⟩
  · rintro (⟨hwithin, hne⟩ | ⟨ancestor, hwithin, hne, front, target, rest, hsplit, hfront, habove, hpath⟩)
    · exact ⟨path, hne, reported_within targets path hwithin⟩
    · have hsome : ∃ target ∈ targets, ancestor ∈ above port target.path := ⟨target, by simp [hsplit], habove⟩
      refine ⟨ancestor, ?_,
          (reported_outside port targets ancestor hwithin front rest target hsplit hfront habove).trans hpath⟩
      rw [(held_outside port targets before ancestor hwithin).1 hsome,
          (held_outside port targets after ancestor hwithin).1 hsome]
      exact hne

/-! ## Two scans -/

theorem held_cases (path : Path) : (held port before targets path = identityFirst port before targets path ∧
        held port after targets path = identityFirst port after targets path) ∨
      (held port before targets path = listingFirst port before targets path ∧
        held port after targets path = listingFirst port after targets path) ∨
      ((∃ target ∈ targets, Lists before target path ∧ ¬Lists after target path) ∧
        held port before targets path = listingFirst port before targets path ∧
        held port after targets path = identityFirst port after targets path) ∨
      ((∃ target ∈ targets, Lists after target path ∧ ¬Lists before target path) ∧
        held port before targets path = identityFirst port before targets path ∧
        held port after targets path = listingFirst port after targets path) := by
  rcases exists_first (fun target : WatchTarget => path ∈ above port target.path ∨ Lists before target path ∨
      Lists after target path)
    targets with hnone | ⟨front, target, rest, hsplit, hfront, hfirst⟩
  · have habove : ∀ target ∈ targets, path ∉ above port target.path :=
        fun target htarget h => hnone target htarget (Or.inl h)
    have hone : ∀ tree, held port tree targets path = identityFirst port tree targets path := fun tree => by
      rcases held_or port tree targets path with heq | heq
      · exact heq
      · rw [heq, firsts_of_not_above port tree targets path habove]
    exact Or.inl ⟨hone before, hone after⟩
  · have hmem : target ∈ targets := by simp [hsplit]
    have hbefore : ∀ other ∈ front, contribution port before path other = none := fun other hother =>
      contribution_none port before path other (fun h => hfront other hother (Or.inl h))
        (fun h => hfront other hother (Or.inr (Or.inl h)))
    have hafter : ∀ other ∈ front, contribution port after path other = none := fun other hother =>
      contribution_none port after path other (fun h => hfront other hother (Or.inl h))
        (fun h => hfront other hother (Or.inr (Or.inr h)))
    by_cases habove : path ∈ above port target.path
    · have hb := held_above port before path front rest target hbefore habove
      have ha := held_above port after path front rest target hafter habove
      rw [← hsplit] at hb ha
      exact Or.inl ⟨hb, ha⟩
    · by_cases hlb : Lists before target path <;> by_cases hla : Lists after target path
      · have hb := held_lists port before path front rest target hbefore hlb
        have ha := held_lists port after path front rest target hafter hla
        rw [← hsplit] at hb ha
        exact Or.inr (Or.inl ⟨hb, ha⟩)
      · have hb := held_lists port before path front rest target hbefore hlb
        rw [← hsplit] at hb
        rcases held_or port after targets path with ha | ha
        · exact Or.inr (Or.inr (Or.inl ⟨⟨target, hmem, hlb, hla⟩, hb, ha⟩))
        · exact Or.inr (Or.inl ⟨hb, ha⟩)
      · have ha := held_lists port after path front rest target hafter hla
        rw [← hsplit] at ha
        rcases held_or port before targets path with hb | hb
        · exact Or.inr (Or.inr (Or.inr ⟨⟨target, hmem, hla, hlb⟩, hb, ha⟩))
        · exact Or.inr (Or.inl ⟨hb, ha⟩)
      · rcases hfirst with h | h | h
        · exact absurd h habove
        · exact absurd h hlb
        · exact absurd h hla

section

variable {port : WatchPort} {before after : FileTree} {targets : List WatchTarget} {path : Path}

theorem Steady.held (h : Steady port before after targets path) :
    held port before targets path ≠ held port after targets path ↔
      identityFirst port before targets path ≠ identityFirst port after targets path := by
  rcases held_cases port before after targets path with ⟨hb, ha⟩ | ⟨hb, ha⟩ | ⟨hleft, hb, ha⟩ | ⟨hjoined, hb, ha⟩
  · rw [hb, ha]
  · rw [hb, ha]
    exact h.full
  · rw [hb, ha]
    exact h.left hleft
  · rw [hb, ha]
    exact h.joined hjoined

theorem Lone.reported (h : Lone port before after targets path) : path ∈ changes port before after targets := by
  obtain ⟨ancestor, hout, hne, ⟨target, htarget, habove⟩, hall⟩ := h
  rw [mem_changes]
  rcases exists_first (fun target : WatchTarget => ancestor ∈ above port target.path) targets with
    hnone | ⟨front, first, rest, hsplit, hfront, hfirst⟩
  · exact absurd habove (hnone target htarget)
  · exact Or.inr ⟨ancestor, hout, hne, front, first, rest, hsplit, hfront, hfirst,
        hall first (by simp [hsplit]) hfirst⟩

end

/-! ## Enough -/

theorem mem_changes_of_steady
    (h : ∀ path, Within targets path → Lone port before after targets path ∨ Steady port before after targets path)
    (path : Path) : path ∈ changes port before after targets ↔
      Lone port before after targets path ∨
        (Within targets path ∧ identityFirst port before targets path ≠ identityFirst port after targets path) := by
  constructor
  · intro hmem
    rcases (mem_changes port before after targets path).mp hmem with
      ⟨hwithin, hne⟩ | ⟨ancestor, hout, hne, front, target, rest, hsplit, hfront, habove, rfl⟩
    · rcases h path hwithin with hlone | hsteady
      · exact Or.inl hlone
      · exact Or.inr ⟨hwithin, hsteady.held.mp hne⟩
    · have htarget : target ∈ targets := by simp [hsplit]
      have hwithin : Within targets target.path := ⟨target, htarget, prefix_rfl⟩
      rcases h target.path hwithin with hlone | hsteady
      · exact Or.inl hlone
      · exact Or.inr ⟨hwithin, hsteady.below target htarget rfl ancestor habove hne⟩
  · rintro (hlone | ⟨hwithin, hne⟩)
    · exact hlone.reported
    · rcases h path hwithin with hlone | hsteady
      · exact hlone.reported
      · exact (mem_changes port before after targets path).mpr (Or.inl ⟨hwithin, hsteady.held.mpr hne⟩)

theorem Changed.within {before after : FileTree} {targets : List WatchTarget} {path : Path}
    (h : Changed before after targets path) : Within targets path := by
  have hcovered : ∀ tree, Covered tree targets path → Within targets path := by
    rintro tree (⟨hmem, -⟩ | ⟨target, htarget, hlists⟩)
    · obtain ⟨target, htarget, rfl⟩ := mem_map.mp hmem
      exact ⟨target, htarget, prefix_rfl⟩
    · exact ⟨target, htarget, hlists.2.isPrefix.1⟩
  rcases h.1 with hbefore | hafter
  · exact hcovered before hbefore
  · exact hcovered after hafter

theorem complete_of_steady (h : ∀ path, Within targets path → Lone port before after targets path ∨
        Steady port before after targets path) :
    Complete port before after targets := by
  refine ⟨fun path hchanged => ?_, fun target htarget ancestor habove hne => ?_, fun order hperm path => ?_⟩
  · rw [mem_changes_of_steady port before after targets h]
    rcases h path hchanged.within with hlone | hsteady
    · exact Or.inl hlone
    · exact Or.inr ⟨hchanged.within, hsteady.shown hchanged⟩
  · have hwithin : Within targets target.path := ⟨target, htarget, prefix_rfl⟩
    rw [mem_changes_of_steady port before after targets h]
    rcases h target.path hwithin with hlone | hsteady
    · exact Or.inl hlone
    · exact Or.inr ⟨hwithin, hsteady.below target htarget rfl ancestor habove hne⟩
  · have hother : ∀ path, Within order path → Lone port before after order path ∨
        Steady port before after order path := by
      intro path hwithin
      rcases h path ((within_perm hperm path).mp hwithin) with hlone | hsteady
      · exact Or.inl ((lone_perm hperm path).mpr hlone)
      · exact Or.inr (hsteady.perm hperm)
    rw [mem_changes_of_steady port before after targets h, mem_changes_of_steady port before after order hother,
      lone_perm hperm, within_perm hperm, identityFirst_perm _ _ targets path order hperm,
      identityFirst_perm _ _ targets path order hperm]

/-! ## Needed -/

theorem mem_changes_inFront (path : Path) (hwithin : Within targets path)
    (hlone : ¬Lone port before after targets path) :
    path ∈ changes port before after (inFront (fun target => target.path != path) targets) ↔
      held port before targets path ≠ held port after targets path := by
  have hperm := inFront_perm targets (fun target => target.path != path)
  rw [mem_changes, held_inFront, held_inFront, within_perm hperm]
  refine ⟨?_, fun hne => Or.inl ⟨hwithin, hne⟩⟩
  rintro (⟨-, hne⟩ | ⟨ancestor, hout, hne, front, target, rest, hsplit, hfront, habove, hpath⟩)
  · exact hne
  · refine absurd ⟨ancestor, fun h => hout ((within_perm hperm _).mpr h), hne,
      ⟨target, hperm.mem_iff.mp (by simp [hsplit]), habove⟩, fun other hother habove' => ?_⟩ hlone
    by_contra hother'
    have hin : other ∈ targets.filter (fun target => target.path != path) :=
        mem_filter.mpr ⟨hother, by simpa using hother'⟩
    -- the first target below the ancestor is the path, so all others come before it
    unfold inFront at hsplit
    rcases append_eq_append_iff.mp hsplit with ⟨extra, hfrontEq, -⟩ | ⟨extra, hfilter, hrest⟩
    · exact hfront other (by rw [hfrontEq]; exact mem_append_left _ hin) habove'
    · cases extra with
      | nil => exact hfront other (by rw [hfilter, append_nil] at hin; exact hin) habove'
      | cons first more =>
        obtain ⟨rfl, -⟩ := List.cons.inj hrest
        have hmem : target ∈ targets.filter (fun target => target.path != path) := by rw [hfilter]; simp
        simp [hpath] at hmem

theorem exists_mixed (tree other : FileTree) (path : Path) (target below : WatchTarget) (htarget : target ∈ targets)
    (hbelow : below ∈ targets) (hlists : Lists tree target path) (hnot : ¬Lists other target path)
    (habove : path ∈ above port below.path) :
    ∃ order, order.Perm targets ∧ held port tree order path = listingFirst port tree targets path ∧
      held port other order path = identityFirst port other targets path := by
  have hnotAbove := not_above_of_lists port tree target path hlists
  have hne : below ≠ target := fun heq => hnotAbove (heq ▸ habove)
  have hperm : (target :: below :: (targets.erase target).erase below).Perm targets :=
    ((perm_cons_erase ((mem_erase_of_ne hne).mpr hbelow)).symm.cons target).trans
        (perm_cons_erase htarget).symm
  refine ⟨_, hperm, ?_, ?_⟩
  · rw [← listingFirst_perm port tree targets path _ hperm]
    exact held_lists port tree path [] _ target (by simp) hlists
  · rw [← identityFirst_perm port other targets path _ hperm]
    refine held_above port other path [target] _ below (fun only honly => ?_) habove
    rw [mem_singleton.mp honly]
    exact contribution_none port other path target hnotAbove hnot

open Classical in
theorem steady_of_complete (h : Complete port before after targets) (path : Path) (hwithin : Within targets path)
    (hlone : ¬Lone port before after targets path) : Steady port before after targets path := by
  have hheld : ∀ order, order.Perm targets → (held port before order path ≠ held port after order path ↔
      path ∈ changes port before after targets) := by
    intro order hperm
    rw [← mem_changes_inFront port before after order path ((within_perm hperm path).mpr hwithin)
      (fun hother => hlone ((lone_perm hperm path).mp hother))]
    exact h.order _ ((inFront_perm order _).trans hperm) path
  have hfull : listingFirst port before targets path ≠ listingFirst port after targets path ↔
      path ∈ changes port before after targets := by
    let first : WatchTarget → Bool := fun target => decide (Lists before target path ∨ Lists after target path)
    have habove : ∀ target ∈ targets, first target = true → path ∉ above port target.path := by
      intro target _ hfirst
      rcases of_decide_eq_true hfirst with hlists | hlists
      · exact not_above_of_lists port before target path hlists
      · exact not_above_of_lists port after target path hlists
    rw [← hheld (inFront first targets) (inFront_perm targets first),
      held_listing port before targets path first (fun _ _ hlists => decide_eq_true (Or.inl hlists)) habove,
      held_listing port after targets path first (fun _ _ hlists => decide_eq_true (Or.inr hlists)) habove]
  by_cases hsome : ∃ target ∈ targets, path ∈ above port target.path
  · obtain ⟨below, hbelow, habove⟩ := hsome
    have hidentity : identityFirst port before targets path ≠ identityFirst port after targets path ↔
        path ∈ changes port before after targets := by
      rw [← hheld _ (perm_cons_erase hbelow).symm, held_identity port before targets path below hbelow habove,
        held_identity port after targets path below hbelow habove]
    refine ⟨fun hchanged => hidentity.mpr (h.changed path hchanged), hfull.trans hidentity.symm, ?_, ?_, ?_⟩
    · rintro ⟨target, htarget, hlists, hnot⟩
      obtain ⟨order, hperm, hb, ha⟩ :=
          exists_mixed port targets before after path target below htarget hbelow hlists hnot habove
      have hmixed := hheld order hperm
      rw [hb, ha] at hmixed
      exact hmixed.trans hidentity.symm
    · rintro ⟨target, htarget, hlists, hnot⟩
      obtain ⟨order, hperm, ha, hb⟩ :=
          exists_mixed port targets after before path target below htarget hbelow hlists hnot habove
      have hmixed := hheld order hperm
      rw [hb, ha] at hmixed
      exact hmixed.trans hidentity.symm
    · rintro target htarget rfl ancestor hancestor hne
      exact hidentity.mpr (h.moved target htarget ancestor hancestor hne)
  · have hnone : ∀ target ∈ targets, path ∉ above port target.path :=
        fun target htarget habove => hsome ⟨target, htarget, habove⟩
    have hb := firsts_of_not_above port before targets path hnone
    have ha := firsts_of_not_above port after targets path hnone
    rw [hb, ha] at hfull
    refine ⟨fun hchanged => hfull.mpr (h.changed path hchanged), by rw [hb, ha], fun _ => by rw [hb],
        fun _ => by rw [ha], ?_⟩
    rintro target htarget rfl ancestor hancestor hne
    exact hfull.mpr (h.moved target htarget ancestor hancestor hne)

/-- No change is missed, whatever the order, exactly where each path within a target either is alone below
a changed ancestor or compares alike by identity and in full. -/
theorem snapshots_exact : Complete port before after targets ↔
      ∀ path, Within targets path → Lone port before after targets path ∨
          Steady port before after targets path := by
  constructor
  · intro h path hwithin
    by_cases hlone : Lone port before after targets path
    · exact Or.inl hlone
    · exact Or.inr (steady_of_complete port before after targets h path hwithin hlone)
  · exact complete_of_steady port before after targets

/-! ## A file that is an ancestor of a target -/

def fileTree (size : ℕ) : FileTree where
  lstat path :=
    if path = [] then some ⟨.directory, 1, 1, 0, 0⟩
    else if path = ["d"] then some ⟨.directory, 1, 2, 0, 0⟩
    else if path = ["d", "f"] then some ⟨.file, 1, 3, size, 0⟩
    else none
  stat path :=
    if path = [] then some ⟨.directory, 1, 1, 0, 0⟩
    else if path = ["d"] then some ⟨.directory, 1, 2, 0, 0⟩
    else if path = ["d", "f"] then some ⟨.file, 1, 3, size, 0⟩
    else none
  readdir path := if path = [] then ["d"] else if path = ["d"] then ["f"] else []
  content _ := none
  now := 1000000
  height path := 2 - path.length
  nested := by
    intro directory name stats hname hstats hkind
    by_cases hroot : directory = []
    · simp [hroot]
    · by_cases hd : directory = ["d"]
      · simp [hd]
      · simp [hroot, hd] at hname
  root := rfl

def belowFile : List WatchTarget := [⟨["d", "f", "x"], false, false, []⟩, ⟨["d"], true, false, []⟩]

theorem growing_file_missed : ¬Complete .node (fileTree 1) (fileTree 2) belowFile ∧
    ¬Complete .daemon (fileTree 1) (fileTree 2) belowFile := by
  have hlists : Lists (fileTree 1) ⟨["d"], true, false, []⟩ ["d", "f"] :=
    ⟨⟨⟨.directory, 1, 2, 0, 0⟩, rfl, rfl⟩, .entry ["d"] "f" ⟨.file, 1, 3, 1, 0⟩ (by simp [fileTree]) rfl rfl⟩
  have hchanged : Changed (fileTree 1) (fileTree 2) belowFile ["d", "f"] := by
    refine ⟨Or.inl (Or.inr ⟨_, by simp [belowFile], hlists⟩), ?_⟩
    decide
  constructor
  · intro h
    have hmem := h.changed _ hchanged
    revert hmem
    decide
  · intro h
    have hmem := h.changed _ hchanged
    revert hmem
    decide

end PiAgent.Env.Watch
