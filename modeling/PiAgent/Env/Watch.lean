import Mathlib.Data.List.Infix
import Mathlib.Data.List.Perm.Basic

/-!
# Watching by snapshots

The polling scans of `node-watch.ts` and of its port in `watch.rs`. A path is the list of its names
from the root. What a scan sees of the tree does not change while it runs, everything is readable
and the directory budget is not exceeded; so the kinds a scan remembers of listed entries are what
`lstat` says again, and no directory comes twice for one target.
-/

namespace PiAgent.Env

abbrev Path := List String

instance instLawfulBEqPath : LawfulBEq Path := inferInstance

inductive WatchPort where
  | node
  | daemon
  deriving DecidableEq

structure WatchTarget where
  path : Path
  recursive : Bool
  hidden : Bool
  names : List String
  deriving DecidableEq

inductive FileKind where
  | file
  | directory
  | symlink
  | other
  deriving DecidableEq

structure Stats where
  kind : FileKind
  dev : ℕ
  ino : ℕ
  size : ℕ
  mtimeMs : ℕ
  deriving DecidableEq

/-- What a snapshot remembers of one path. -/
structure Entry where
  kind : FileKind
  dev : ℕ
  ino : ℕ
  size : ℕ
  mtimeMs : ℕ
  hash : Option ℕ
  deriving DecidableEq

/-- What a scan sees: `stat` follows links, and directories that are no links are nested to a finite depth. -/
structure FileTree where
  lstat : Path → Option Stats
  stat : Path → Option Stats
  readdir : Path → List String
  /-- The digest of a file's content. -/
  content : Path → Option ℕ
  now : ℕ
  height : Path → ℕ
  nested : ∀ directory name stats, name ∈ readdir directory → lstat (directory ++ [name]) = some stats →
    stats.kind = .directory → height (directory ++ [name]) < height directory
  /-- The root is no link. -/
  root : lstat [] = stat []

namespace Watch

def HASH_MAX_BYTES : ℕ := 256 * 1024

def HASH_RECENT_MS : ℕ := 5000

def entryOf (stats : Stats) (hash : Option ℕ) : Entry :=
  { kind := stats.kind, dev := stats.dev, ino := stats.ino
    size := if stats.kind = .directory then 0 else stats.size
    mtimeMs := if stats.kind = .directory then 0 else stats.mtimeMs
    hash := hash }

/-- What is recorded of a path: recently modified small files are also compared by content. -/
def recordOf (tree : FileTree) (path : Path) (stats : Stats) : Entry :=
  entryOf stats
    (if stats.kind = .file ∧ stats.size ≤ HASH_MAX_BYTES ∧
        tree.now < stats.mtimeMs + HASH_RECENT_MS then tree.content path
     else none)

/-- What is recorded of an ancestor: identity only. -/
def identityOf (stats : Stats) : Entry := { entryOf stats none with size := 0, mtimeMs := 0 }

/-- Ancestors of a path, nearest first, up to the root; for Node the root is one of its own. -/
def above : WatchPort → Path → List Path
  | .node, [] => [[]]
  | .daemon, [] => []
  | _, name :: rest => ((name :: rest).dropLast.inits).reverse

/-- Whether `path` is `ancestor` or below it. -/
def isWithin (path ancestor : Path) : Bool := ancestor.isPrefixOf path

def excluded (target : WatchTarget) (name : String) : Bool :=
  (target.hidden && name.startsWith ".") || target.names.contains name

/-! ## Snapshots -/

abbrev Snapshot := List (Path × Entry)

def Snapshot.get (snapshot : Snapshot) (path : Path) : Option Entry := snapshot.lookup path

def Snapshot.has (snapshot : Snapshot) (path : Path) : Bool := (snapshot.get path).isSome

def Snapshot.set (snapshot : Snapshot) (path : Path) (entry : Entry) : Snapshot := (path, entry) :: snapshot

/-- An entry that does not replace another. -/
def Snapshot.add (snapshot : Snapshot) (path : Path) (entry : Entry) : Snapshot :=
  if snapshot.has path then snapshot else snapshot.set path entry

/-- The entries of a directory, and below it for a recursive target. -/
def scanDirectory (tree : FileTree) (target : WatchTarget) : ℕ → Path → Snapshot → Snapshot
  | 0, _, snapshot => snapshot
  | fuel + 1, directory, snapshot =>
    (tree.readdir directory).foldl (fun snapshot name =>
      if excluded target name then snapshot
      else
        match tree.lstat (directory ++ [name]) with
        | none => snapshot
        | some stats =>
          let listed := snapshot.add (directory ++ [name]) (recordOf tree (directory ++ [name]) stats)
          if target.recursive && stats.kind = .directory then
            scanDirectory tree target fuel (directory ++ [name]) listed
          else listed) snapshot

def recordAncestors (port : WatchPort) (tree : FileTree) (target : WatchTarget) (snapshot : Snapshot) : Snapshot :=
  (above port target.path).foldl (fun snapshot ancestor =>
    match tree.lstat ancestor with
    | none => snapshot
    | some stats => snapshot.add ancestor (identityOf stats)) snapshot

def scanTarget (port : WatchPort) (tree : FileTree) (snapshot : Snapshot) (target : WatchTarget) : Snapshot :=
  let snapshot := recordAncestors port tree target snapshot
  match tree.stat target.path with
  | none => snapshot
  | some stats =>
    let snapshot := snapshot.set target.path (recordOf tree target.path stats)
    if stats.kind = .directory then scanDirectory tree target (tree.height target.path + 1) target.path snapshot
    else snapshot

def scan (port : WatchPort) (tree : FileTree) (targets : List WatchTarget) : Snapshot :=
  targets.foldl (scanTarget port tree) []

/-! ## Differences -/

/-- The path itself within a target, else the first target below it. -/
def reported (targets : List WatchTarget) (path : Path) : Path :=
  if targets.any (fun target => isWithin path target.path) then path
  else ((targets.find? (fun target => isWithin target.path path)).map WatchTarget.path).getD path

def diff (targets : List WatchTarget) (previous next : Snapshot) : List Path :=
  ((next.map Prod.fst).filter (fun path => previous.get path ≠ next.get path)).map (reported targets) ++
    ((previous.map Prod.fst).filter (fun path => !next.has path)).map (reported targets)

/-- The paths that are reported between two scans. -/
def changes (port : WatchPort) (before after : FileTree) (targets : List WatchTarget) : List Path :=
  diff targets (scan port before targets) (scan port after targets)

end Watch

end PiAgent.Env
