import PiAgent.Env.WatchExact
import PiAgent.Lib.Run

/-!
# Why watching by snapshots reports

A report has a cause: something was altered since the scan before, or a small file is no
longer recent, or is recent again, and is compared by content at one of the two scans only.
-/

namespace PiAgent.Env.Watch

open Option List

/-! ## Scan after scan -/

/-- One round of `sync` while polling. -/
def sync (port : WatchPort) (targets : List WatchTarget) (previous : Snapshot) (tree : FileTree) :
    Snapshot × List Path :=
  (scan port tree targets, diff targets previous (scan port tree targets))

/-- A watcher: the first scan reports nothing. -/
def watcher (port : WatchPort) (targets : List WatchTarget) (first : FileTree) :
    Machine Snapshot FileTree (List Path) where
  start := scan port first targets
  step := sync port targets

variable (port : WatchPort) (targets : List WatchTarget)

theorem traceFrom_changes (first start : FileTree) (trees : List FileTree) :
    ∀ round ∈ (start :: trees).zip ((watcher port targets first).traceFrom (scan port start targets) trees),
      round.2.2 = changes port round.1 round.2.1 targets := by
  induction trees generalizing start with
  | nil => simp [Machine.traceFrom]
  | cons tree trees ih =>
    intro round hround
    rw [Machine.traceFrom, zip_cons_cons, mem_cons] at hround
    rcases hround with rfl | hround
    · rfl
    · exact ih tree round hround

/-! ## Causes -/

/-- A path appeared, disappeared or changed, itself or behind a link, or its directory lists it anew or no more. -/
def Altered (before after : FileTree) (path : Path) : Prop :=
  before.lstat path ≠ after.lstat path ∨ before.stat path ≠ after.stat path ∨
    before.content path ≠ after.content path ∨
    ∃ directory name, path = directory ++ [name] ∧
        ¬(name ∈ before.readdir directory ↔ name ∈ after.readdir directory)

/-- A small file that was modified recently at one of two scans, and not at the other. -/
def Aged (before after : FileTree) (path : Path) : Prop :=
  ∃ stats, (before.lstat path = some stats ∨ before.stat path = some stats) ∧ stats.kind = .file ∧
    stats.size ≤ HASH_MAX_BYTES ∧
    ¬(before.now < stats.mtimeMs + HASH_RECENT_MS ↔ after.now < stats.mtimeMs + HASH_RECENT_MS)

section Same

variable {before after : FileTree} {path : Path}

theorem Listed.congr {target : WatchTarget} {directory : Path} (h : Listed before target directory path)
    (hsame : ∀ q, q <+: path → ¬Altered before after q) : Listed after target directory path := by
  induction h with
  | entry directory name stats hname hkept hstats =>
    have hq := hsame _ (prefix_refl _)
    unfold Altered at hq
    push Not at hq
    exact .entry directory name stats ((hq.2.2.2 directory name rfl).mp hname) hkept (hq.1 ▸ hstats)
  | deeper directory path name stats hname hkept hstats hrecursive hkind hbelow ih =>
    have hq := hsame _ hbelow.isPrefix.1
    unfold Altered at hq
    push Not at hq
    exact .deeper directory path name stats ((hq.2.2.2 directory name rfl).mp hname) hkept
        (hq.1 ▸ hstats) hrecursive
      hkind (ih hsame)

theorem Lists.congr {target : WatchTarget} (h : Lists before target path)
    (hsame : ∀ q, q <+: path → ¬Altered before after q) : Lists after target path := by
  obtain ⟨⟨stats, hstats, hkind⟩, hlisted⟩ := h
  have hq := hsame _ hlisted.isPrefix.1
  unfold Altered at hq
  push Not at hq
  exact ⟨⟨stats, hq.2.1 ▸ hstats, hkind⟩, hlisted.congr hsame⟩

theorem Altered.symm (h : Altered after before path) : Altered before after path := by
  rcases h with h | h | h | ⟨directory, name, hpath, h⟩
  · exact .inl h.symm
  · exact .inr (.inl h.symm)
  · exact .inr (.inr (.inl h.symm))
  · exact .inr (.inr (.inr ⟨directory, name, hpath, fun hiff => h hiff.symm⟩))

theorem recordOf_same (stats : Stats) (hcontent : before.content path = after.content path)
    (hstats : before.lstat path = some stats ∨ before.stat path = some stats) (haged : ¬Aged before after path) :
    recordOf before path stats = recordOf after path stats := by
  unfold recordOf
  by_cases hsmall : stats.kind = .file ∧ stats.size ≤ HASH_MAX_BYTES
  · have hrecent : before.now < stats.mtimeMs + HASH_RECENT_MS ↔ after.now < stats.mtimeMs + HASH_RECENT_MS := by
      by_contra hne
      exact haged ⟨stats, hstats, hsmall.1, hsmall.2, hne⟩
    rw [hcontent]
    simp only [hsmall.1, hsmall.2, hrecent]
  · have hb : ∀ P, ¬(stats.kind = .file ∧ stats.size ≤ HASH_MAX_BYTES ∧ P) := fun P h => hsmall ⟨h.1, h.2.1⟩
    rw [if_neg (hb _), if_neg (hb _)]

theorem held_same (hsame : ∀ q, q <+: path → ¬Altered before after q)
    (haged : ¬Aged before after path) : held port before targets path = held port after targets path := by
  have hpath := hsame path (prefix_refl _)
  unfold Altered at hpath
  push Not at hpath
  obtain ⟨hlstat, hstat, hcontent, -⟩ := hpath
  have hmap : ∀ s : Option Stats, s = before.lstat path ∨ s = before.stat path →
      s.map (recordOf before path) = s.map (recordOf after path) := by
    rintro (- | stats) hs
    · rfl
    · rw [map_some, map_some, recordOf_same stats hcontent (hs.imp Eq.symm Eq.symm) haged]
  have hown : own before targets path = own after targets path := by
    unfold own
    rw [← hstat, hmap _ (.inr rfl)]
  have hcontribution : contribution port before path = contribution port after path := by
    funext target
    have hlists : Lists before target path ↔ Lists after target path :=
      ⟨fun h => h.congr hsame, fun h => h.congr (fun q hq halt => hsame q hq halt.symm)⟩
    have hlisting : listing before path = listing after path := by
      unfold listing
      rw [← hlstat, hmap _ (.inl rfl)]
    have hidentity : identity before path = identity after path := by
      unfold identity
      rw [hlstat]
    unfold contribution
    rw [hlisting, hidentity]
    by_cases h : Lists after target path
    · rw [if_pos h, if_pos (hlists.mpr h)]
    · rw [if_neg h, if_neg (fun hb => h (hlists.mp hb))]
  unfold held
  rw [hown, hcontribution]

end Same

/-! ## Reports -/

/-- A target, or listed by one at one of the two scans. -/
def Watched (before after : FileTree) (targets : List WatchTarget) (path : Path) : Prop :=
  path ∈ targets.map WatchTarget.path ∨ ∃ target ∈ targets, Lists before target path ∨ Lists after target path

/-- An ancestor of a target, within another. -/
def Between (port : WatchPort) (targets : List WatchTarget) (path : Path) : Prop :=
  Within targets path ∧ ∃ target ∈ targets, path ∈ above port target.path

section

variable (before after : FileTree) (targets : List WatchTarget) (path : Path)
    (h : path ∈ changes port before after targets)
include h

theorem changes_place : Watched before after targets path ∨
        Between port targets path := by
  rcases (mem_changes port before after targets path).mp h with ⟨hwithin, hne⟩ |
      ⟨-, -, -, -, target, -, rfl, -, -, rfl⟩
  · by_contra hnone
    unfold Watched Between at hnone
    push Not at hnone
    obtain ⟨⟨htarget, hlists⟩, habove⟩ := hnone
    have hheld : ∀ tree, (∀ target ∈ targets, ¬Lists tree target path) → held port tree targets path = none := by
      intro tree hl
      unfold held own
      rw [if_neg htarget, none_or, findSome?_eq_none_iff]
      exact fun target ht => contribution_none port tree path target (habove hwithin target ht) (hl target ht)
    rw [hheld before (fun target ht => (hlists target ht).1),
      hheld after (fun target ht => (hlists target ht).2)] at hne
    exact hne rfl
  · exact .inl (.inl (by simp))

theorem changes_cause : (∃ q, q <+: path ∧ Altered before after q) ∨ Aged before after path := by
  rcases (mem_changes port before after targets path).mp h with
    ⟨-, hne⟩ | ⟨ancestor, -, hne, front, target, rest, -, -, habove, rfl⟩
  · by_contra hnone
    push Not at hnone
    exact hne (held_same port targets hnone.1 hnone.2)
  · refine .inl ⟨ancestor, above_isPrefix port _ _ habove, .inl (fun heq => hne ?_)⟩
    unfold identity
    rw [heq]

end

/-- In every run of scans, what is reported after a scan is a target, or listed by one, or an ancestor of one within
another; and up to it something was altered since the scan before, or it is a file that is compared by content at one
of the two scans only. -/
theorem run_reports (port : WatchPort) (targets : List WatchTarget) (first : FileTree) (trees : List FileTree) :
    ∀ round ∈ (first :: trees).zip ((watcher port targets first).trace trees),
      (∀ path ∈ round.2.2, (Watched round.1 round.2.1 targets path ∨ Between port targets path) ∧
          ((∃ q, q <+: path ∧ Altered round.1 round.2.1 q) ∨ Aged round.1 round.2.1 path)) ∧
      ((∀ path, ¬Altered round.1 round.2.1 path ∧ ¬Aged round.1 round.2.1 path) → round.2.2 = []) := by
  intro round hround
  rw [traceFrom_changes port targets first first trees round hround]
  refine ⟨fun path hpath => ⟨changes_place port _ _ targets path hpath, changes_cause port _ _ targets path hpath⟩,
    fun hnone => eq_nil_iff_forall_not_mem.mpr (fun path hpath => ?_)⟩
  rcases changes_cause port _ _ targets path hpath with ⟨q, -, halt⟩ | haged
  · exact (hnone q).1 halt
  · exact (hnone path).2 haged

/-! ## A file that ages -/

/-- A directory `/a` with a small file `f`, modified at 10. -/
def agingTree (now : ℕ) : FileTree where
  lstat path :=
    if path = [] then some ⟨.directory, 1, 1, 0, 0⟩
    else if path = ["a"] then some ⟨.directory, 1, 2, 0, 0⟩
    else if path = ["a", "f"] then some ⟨.file, 1, 3, 1, 10⟩
    else none
  stat path :=
    if path = [] then some ⟨.directory, 1, 1, 0, 0⟩
    else if path = ["a"] then some ⟨.directory, 1, 2, 0, 0⟩
    else if path = ["a", "f"] then some ⟨.file, 1, 3, 1, 10⟩
    else none
  readdir path := if path = [] then ["a"] else if path = ["a"] then ["f"] else []
  content path := if path = ["a", "f"] then some 7 else none
  now := now
  height path := 2 - path.length
  nested := by
    intro directory name stats hname hstats hkind
    by_cases hroot : directory = []
    · simp [hroot]
    · by_cases ha : directory = ["a"]
      · simp [ha]
      · simp [hroot, ha] at hname
  root := rfl

/-- The directory with what is in it, but for `x`. -/
def aroundExcluded : List WatchTarget := [⟨["a"], true, false, ["x"]⟩]

/-- A scan six seconds later reports the file, though nothing changed. -/
theorem reports_spurious : (∀ path, ¬Altered (agingTree 11) (agingTree 6011) path) ∧
    changes .node (agingTree 11) (agingTree 6011) aroundExcluded = [["a", "f"]] := by
  refine ⟨fun path h => ?_, by decide⟩
  rcases h with h | h | h | ⟨directory, name, -, h⟩
  · exact h rfl
  · exact h rfl
  · exact h rfl
  · exact h Iff.rfl

theorem run_reports_aging : (∃ q, q <+: ["a", "f"] ∧ Altered (agingTree 11) (agingTree 6011) q) ∨
    Aged (agingTree 11) (agingTree 6011) ["a", "f"] :=
  ((run_reports .node aroundExcluded (agingTree 11) [agingTree 6011]
      (agingTree 11, agingTree 6011, [["a", "f"]])
    (by exact mem_cons_self ..)).1 ["a", "f"] (by simp)).2

end PiAgent.Env.Watch
