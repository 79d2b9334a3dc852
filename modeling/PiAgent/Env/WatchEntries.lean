import PiAgent.Env.Watch

/-! # What a snapshot holds -/

namespace PiAgent.Env.Watch

open Option List

/-! ## Paths -/

variable (path ancestor : Path)

theorem isWithin_iff : isWithin path ancestor = true ↔ ancestor <+: path := by
  unfold isWithin
  exact isPrefixOf_iff_prefix

variable (port : WatchPort)

theorem mem_above (path ancestor : Path) (hpath : path ≠ []) :
    ancestor ∈ above port path ↔ ancestor <+: path ∧ ancestor ≠ path := by
  obtain ⟨name, rest, rfl⟩ := exists_cons_of_ne_nil hpath
  have habove : above port (name :: rest) = ((name :: rest).dropLast.inits).reverse := by cases port <;> rfl
  rw [habove, mem_reverse, mem_inits]
  constructor
  · intro h
    refine ⟨h.trans (List.dropLast_prefix _), fun heq => ?_⟩
    have hle := h.length_le
    rw [heq, length_dropLast, length_cons] at hle
    omega
  · rintro ⟨⟨tail, htail⟩, hne⟩
    have htailNe : tail ≠ [] := fun h => hne (by simpa [h] using htail)
    rw [← htail, dropLast_append_of_ne_nil htailNe]
    exact prefix_append _ _

theorem above_root (ancestor : Path) (h : ancestor ∈ above port []) : ancestor = [] := by
  cases port with
  | node => simpa [above] using h
  | daemon => simp [above] at h

theorem above_isPrefix (path ancestor : Path) (h : ancestor ∈ above port path) : ancestor <+: path := by
  by_cases hpath : path = []
  · subst hpath
    rw [above_root port ancestor h]
  · exact ((mem_above port path ancestor hpath).mp h).1

/-! ## Listings -/

inductive Listed (tree : FileTree) (target : WatchTarget) : Path → Path → Prop
  | entry (directory : Path) (name : String) (stats : Stats) (hname : name ∈ tree.readdir directory)
      (hkept : excluded target name = false) (hstats : tree.lstat (directory ++ [name]) = some stats) :
      Listed tree target directory (directory ++ [name])
  | deeper (directory path : Path) (name : String) (stats : Stats) (hname : name ∈ tree.readdir directory)
      (hkept : excluded target name = false) (hstats : tree.lstat (directory ++ [name]) = some stats)
      (hrecursive : target.recursive = true) (hkind : stats.kind = .directory)
      (hbelow : Listed tree target (directory ++ [name]) path) : Listed tree target directory path

def Lists (tree : FileTree) (target : WatchTarget) (path : Path) : Prop :=
  (∃ stats, tree.stat target.path = some stats ∧ stats.kind = .directory) ∧ Listed tree target target.path path

section

variable {tree : FileTree} {target : WatchTarget} {directory path : Path}
    (h : Listed tree target directory path)
include h

theorem Listed.isPrefix : directory <+: path ∧ directory.length < path.length := by
  induction h with
  | entry directory name stats hname hkept hstats => exact ⟨prefix_append _ _, by simp⟩
  | deeper directory path name stats hname hkept hstats hrecursive hkind hbelow ih =>
    have hlen := ih.2
    rw [length_append] at hlen
    exact ⟨(prefix_append directory [name]).trans ih.1, by omega⟩

theorem Listed.exists_lstat : ∃ stats, tree.lstat path = some stats := by
  induction h with
  | entry directory name stats hname hkept hstats => exact ⟨stats, hstats⟩
  | deeper directory path name stats hname hkept hstats hrecursive hkind hbelow ih => exact ih

end

/-! ## Records that replace nothing -/

def listing (tree : FileTree) (path : Path) : Option Entry := (tree.lstat path).map (recordOf tree path)

def identity (tree : FileTree) (path : Path) : Option Entry := (tree.lstat path).map identityOf

open Classical in
def Adds (entry : Path → Option Entry) (paths : Path → Prop) (snapshot next : Snapshot) : Prop :=
  ∀ path, next.get path = (snapshot.get path).or (if paths path then entry path else none)

theorem Adds.congr {entry : Path → Option Entry} {paths other : Path → Prop} {snapshot next : Snapshot}
    (h : Adds entry paths snapshot next) (hsame : ∀ path, paths path ↔ other path) :
        Adds entry other snapshot next := by
  have : paths = other := funext fun path => propext (hsame path)
  exact this ▸ h

theorem adds_nothing (entry : Path → Option Entry) (paths : Path → Prop) (snapshot : Snapshot)
    (h : ∀ path, ¬paths path) :
    Adds entry paths snapshot snapshot := by
  intro path
  rw [if_neg (h path), or_none]

theorem Adds.trans {entry : Path → Option Entry} {paths other : Path → Prop} {snapshot next last : Snapshot}
    (h : Adds entry paths snapshot next) (h' : Adds entry other next last) :
    Adds entry (fun path => paths path ∨ other path) snapshot last := by
  intro path
  rw [h' path, h path]
  by_cases hpaths : paths path <;> by_cases hother : other path <;>
    cases snapshot.get path <;> cases entry path <;> simp [hpaths, hother]

theorem adds_fold {α : Type} (entry : Path → Option Entry) (paths : α → Path → Prop)
    (step : Snapshot → α → Snapshot)
    (items : List α) (hstep : ∀ a ∈ items, ∀ snapshot, Adds entry (paths a) snapshot (step snapshot a))
        (snapshot : Snapshot) :
    Adds entry (fun path => ∃ a ∈ items, paths a path) snapshot (items.foldl step snapshot) := by
  induction items generalizing snapshot with
  | nil => exact adds_nothing entry _ snapshot (by simp)
  | cons a rest ih =>
    have hrest := ih (fun b hb => hstep b (mem_cons_of_mem a hb)) (step snapshot a)
    exact ((hstep a mem_cons_self snapshot).trans hrest).congr fun path => by simp

variable (snapshot : Snapshot)

theorem get_set (path other : Path) (entry : Entry) :
    (snapshot.set path entry).get other = if other = path then some entry else snapshot.get other := by
  unfold Snapshot.set Snapshot.get
  rw [lookup_cons]
  by_cases h : other = path
  · simp [h]
  · have : (other == path) = false := by simpa using h
    simp [h, this]

theorem adds_add (value : Path → Option Entry) (snapshot : Snapshot) (path : Path) (entry : Entry)
    (hvalue : value path = some entry) :
    Adds value (fun other => other = path) snapshot (snapshot.add path entry) := by
  intro other
  unfold Snapshot.add Snapshot.has
  by_cases hother : other = path
  · subst hother
    cases hget : snapshot.get other with
    | none => simp [get_set, hvalue]
    | some old => simp [hget]
  · rw [if_neg hother, or_none]
    split
    · rfl
    · rw [get_set, if_neg hother]

/-! ## One target -/

def ListedAt (tree : FileTree) (target : WatchTarget) (directory : Path) (name : String) (path : Path) : Prop :=
  excluded target name = false ∧ ∃ stats, tree.lstat (directory ++ [name]) = some stats ∧
    (path = directory ++ [name] ∨
      target.recursive = true ∧ stats.kind = .directory ∧ Listed tree target (directory ++ [name]) path)

variable (tree : FileTree) (target : WatchTarget)

theorem listed_iff (directory path : Path) :
    (∃ name ∈ tree.readdir directory, ListedAt tree target directory name path) ↔
        Listed tree target directory path := by
  constructor
  · rintro ⟨name, hname, hkept, stats, hstats, rfl | ⟨hrecursive, hkind, hbelow⟩⟩
    · exact .entry directory name stats hname hkept hstats
    · exact .deeper directory path name stats hname hkept hstats hrecursive hkind hbelow
  · intro h
    cases h with
    | entry _ name stats hname hkept hstats => exact ⟨name, hname, hkept, stats, hstats, Or.inl rfl⟩
    | deeper _ _ name stats hname hkept hstats hrecursive hkind hbelow =>
      exact ⟨name, hname, hkept, stats, hstats, Or.inr ⟨hrecursive, hkind, hbelow⟩⟩

theorem scanDirectory_adds (fuel : ℕ) (directory : Path) (snapshot : Snapshot)
    (hfuel : tree.height directory < fuel) :
    Adds (listing tree) (Listed tree target directory) snapshot
        (scanDirectory tree target fuel directory snapshot) := by
  induction fuel generalizing directory snapshot with
  | zero => omega
  | succ fuel ih =>
    unfold scanDirectory
    refine (adds_fold (listing tree) (ListedAt tree target directory) _ _
        (fun name hname snapshot => ?_) snapshot).congr
      (listed_iff tree target directory)
    split
    · next hexcluded => exact adds_nothing _ _ snapshot (fun path h => by simp [h.1] at hexcluded)
    · next hkept =>
      have hkept : excluded target name = false := by simpa using hkept
      split
      · next hnone =>
        refine adds_nothing _ _ snapshot fun path h => ?_
        obtain ⟨-, stats, hstats, -⟩ := h
        simp [hnone] at hstats
      · next stats hstats =>
        have hadd := adds_add (listing tree) snapshot (directory ++ [name])
          (recordOf tree (directory ++ [name]) stats) (by simp [listing, hstats])
        simp only
        split
        · next hrecurse =>
          obtain ⟨hrecursive, hkind⟩ : target.recursive = true ∧ stats.kind = .directory := by simpa using hrecurse
          refine (hadd.trans (ih (directory ++ [name]) _ ?_)).congr (fun path => ?_)
          · have := tree.nested directory name stats hname hstats hkind
            omega
          · simp [ListedAt, hkept, hstats, hrecursive, hkind]
        · next hflat =>
          refine hadd.congr (fun path => ?_)
          have : ¬(target.recursive = true ∧ stats.kind = .directory) := by simpa using hflat
          simp only [ListedAt, hkept, hstats]
          constructor
          · exact fun h => ⟨trivial, stats, rfl, Or.inl h⟩
          · rintro ⟨-, other, hother, h | ⟨hrecursive, hkind, -⟩⟩
            · exact h
            · cases hother
              exact absurd ⟨hrecursive, hkind⟩ this

theorem recordAncestors_adds (snapshot : Snapshot) :
    Adds (identity tree) (fun path => path ∈ above port target.path) snapshot
        (recordAncestors port tree target snapshot) := by
  unfold recordAncestors
  refine (adds_fold (identity tree) (fun ancestor path => path = ancestor) _ _
      (fun ancestor _ snapshot => ?_) snapshot).congr
    (fun path => by simp)
  split
  · next hnone =>
    intro path
    by_cases h : path = ancestor
    · simp [h, identity, hnone]
    · simp [h]
  · next stats hstats => exact adds_add (identity tree) snapshot ancestor _ (by simp [identity, hstats])

/-! ## A whole scan -/

open Classical in
/-- What one target adds at a path. -/
noncomputable def contribution (port : WatchPort) (tree : FileTree) (path : Path) (target : WatchTarget) :
    Option Entry :=
  if path ∈ above port target.path then identity tree path
  else if Lists tree target path then listing tree path else none

def own (tree : FileTree) (targets : List WatchTarget) (path : Path) : Option Entry :=
  if path ∈ targets.map WatchTarget.path then (tree.stat path).map (recordOf tree path) else none

variable (path : Path)

theorem not_above_of_lists (h : Lists tree target path) : path ∉ above port target.path := by
  intro habove
  have hle := (above_isPrefix port target.path path habove).length_le
  have hlt := h.2.isPrefix.2
  omega

theorem contribution_above (target : WatchTarget)
    (h : path ∈ above port target.path) : contribution port tree path target = identity tree path := by
  unfold contribution
  rw [if_pos h]

theorem contribution_lists (target : WatchTarget)
    (h : Lists tree target path) : contribution port tree path target = listing tree path := by
  unfold contribution
  rw [if_neg (not_above_of_lists port tree target path h), if_pos h]

theorem contribution_none (target : WatchTarget)
    (habove : path ∉ above port target.path) (hlists : ¬Lists tree target path) :
    contribution port tree path target = none := by
  unfold contribution
  rw [if_neg habove, if_neg hlists]

theorem recordAncestors_get (snapshot : Snapshot) (path : Path) :
    (recordAncestors port tree target snapshot).get path =
      (snapshot.get path).or (if path ∈ above port target.path then identity tree path else none) := by
  rw [recordAncestors_adds port tree target snapshot path]
  by_cases h : path ∈ above port target.path <;> simp [h]

theorem scanTarget_get (snapshot : Snapshot) (target : WatchTarget) (path : Path) :
    (scanTarget port tree snapshot target).get path =
      (if path = target.path then (tree.stat path).map (recordOf tree path) else none).or
        ((snapshot.get path).or (contribution port tree path target)) := by
  have hancestors := recordAncestors_get port tree target snapshot path
  unfold scanTarget
  cases hstat : tree.stat target.path with
  | none =>
    have hlists : ¬Lists tree target path := by
      rintro ⟨⟨stats, hstats, -⟩, -⟩
      simp [hstat] at hstats
    have hown : (if path = target.path then (tree.stat path).map (recordOf tree path) else none) = none := by
      split
      · next heq => rw [heq, hstat, map_none]
      · rfl
    rw [hown, none_or]
    simp only
    rw [hancestors]
    unfold contribution
    rw [if_neg hlists]
  | some stats =>
    have hset : ∀ other,
        ((recordAncestors port tree target snapshot).set target.path (recordOf tree target.path stats)).get other =
        if other = target.path then some (recordOf tree target.path stats)
        else (recordAncestors port tree target snapshot).get other := fun other => get_set _ _ _ _
    have hlists : Lists tree target path ↔ stats.kind = .directory ∧ Listed tree target target.path path := by
      unfold Lists
      rw [hstat]
      simp
    simp only
    by_cases hpath : path = target.path
    · rw [if_pos hpath, hpath, hstat, map_some, some_or]
      split
      · rw [scanDirectory_adds tree target _ target.path _ (Nat.lt_succ_self _) target.path, hset, if_pos rfl,
            some_or]
      · rw [hset, if_pos rfl]
    · rw [if_neg hpath, none_or]
      split
      · next hkind =>
        rw [scanDirectory_adds tree target _ target.path _ (Nat.lt_succ_self _) path, hset, if_neg hpath,
            hancestors]
        by_cases habove : path ∈ above port target.path
        · have hnot : ¬Listed tree target target.path path := fun hlisted =>
            not_above_of_lists port tree target path (hlists.mpr ⟨hkind, hlisted⟩) habove
          rw [contribution_above port tree path target habove, if_pos habove, if_neg hnot, or_none]
        · rw [if_neg habove, or_none]
          by_cases hlisted : Listed tree target target.path path
          · rw [contribution_lists port tree path target (hlists.mpr ⟨hkind, hlisted⟩), if_pos hlisted]
          · rw [contribution_none port tree path target habove (fun h => hlisted (hlists.mp h).2), if_neg hlisted]
      · next hkind =>
        rw [hset, if_neg hpath, hancestors]
        unfold contribution
        rw [if_neg (fun h => hkind (hlists.mp h).1)]

theorem scan_fold (targets : List WatchTarget) (snapshot : Snapshot) (path : Path) :
    (targets.foldl (scanTarget port tree) snapshot).get path =
      (own tree targets path).or ((snapshot.get path).or (targets.findSome? (contribution port tree path))) := by
  induction targets generalizing snapshot with
  | nil => simp [own]
  | cons target rest ih =>
    have hcons : (target :: rest).findSome? (contribution port tree path) =
        (contribution port tree path target).or (rest.findSome? (contribution port tree path)) := by
      rw [findSome?_cons]
      cases contribution port tree path target <;> rfl
    rw [foldl_cons, ih, scanTarget_get, hcons]
    unfold own
    by_cases hpath : path = target.path
    · subst hpath
      by_cases hrest : target.path ∈ rest.map WatchTarget.path
      · rw [if_pos hrest]
        cases tree.stat target.path <;> simp [Option.or_assoc]
      · rw [if_neg hrest]
        cases tree.stat target.path <;> simp [Option.or_assoc]
    · have hmem : path ∈ (target :: rest).map WatchTarget.path ↔ path ∈ rest.map WatchTarget.path := by simp [hpath]
      rw [if_neg hpath, none_or, Option.or_assoc]
      simp only [hmem]

/-- What a scan holds of a path. -/
noncomputable def held (port : WatchPort) (tree : FileTree) (targets : List WatchTarget) (path : Path) :
    Option Entry :=
  (own tree targets path).or (targets.findSome? (contribution port tree path))

theorem scan_get (targets : List WatchTarget) (path : Path) :
    (scan port tree targets).get path = held port tree targets path := by
  unfold scan held
  rw [scan_fold]
  rfl

end PiAgent.Env.Watch
