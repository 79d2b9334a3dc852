import Mathlib.Data.List.Nodup
import PiAgent.Chord.Json

/-!
# Old session files

The migrations of `session-manager.ts` and the fork that copies a session file. An entry of the first
version has no id; from the second on every entry has one. A field that is absent is `none`, as one
that is null.
-/

namespace PiAgent.Session.Migration

abbrev EntryId := JsString

inductive Body where
  /-- A message, by its role and the rest of it. -/
  | message (role : JsString) (rest : JsonValue)
  | compaction (firstKeptEntryIndex : Option ℕ) (firstKeptEntryId : Option EntryId) (rest : JsonValue)
  | other (rest : JsonValue)

structure Entry where
  id : Option EntryId
  parentId : Option EntryId
  body : Body

structure Header where
  id : JsString
  version : Option ℕ

inductive FileEntry where
  | session (header : Header)
  | entry (entry : Entry)

def CURRENT_SESSION_VERSION : ℕ := 3

/-- `header?.version ?? 1` -/
def versionOf (header : Header) : ℕ := header.version.getD 1

def entriesOf (entries : List FileEntry) : List Entry :=
  entries.filterMap fun
    | .session _ => none
    | .entry entry => some entry

/-- What is loaded of a session file: its header comes first. -/
structure SessionFile where
  header : Header
  entries : List FileEntry
  idless : versionOf header < 2 → ∀ entry ∈ entriesOf entries, entry.id = none
  named : 2 ≤ versionOf header → ∀ entry ∈ entriesOf entries, ∃ id, entry.id = some id

def SessionFile.fileEntries (file : SessionFile) : List FileEntry := .session file.header :: file.entries

/-! ## Ids -/

/-- The draws of `randomUUID`. -/
abbrev Draws := ℕ → JsString

/-- The first of so many draws that is new, else a whole one, and the draws made. -/
def drawId (draws : Draws) (ids : List EntryId) : ℕ → ℕ → EntryId × ℕ
  | 0, drawn => (draws drawn, drawn + 1)
  | tries + 1, drawn =>
    let id := (draws drawn).take 8
    if ids.contains id then drawId draws ids tries (drawn + 1) else (id, drawn + 1)

def generateId (draws : Draws) (ids : List EntryId) (drawn : ℕ) : EntryId × ℕ := drawId draws ids 100 drawn

/-! ## Migrations -/

/-- The entry that a compaction keeps first, by its id. -/
def keptById (entries : List FileEntry) : Body → Body
  | .compaction (some index) firstKeptEntryId rest =>
    match entries[index]? with
    | some (.entry target) => .compaction none target.id rest
    | _ => .compaction none firstKeptEntryId rest
  | body => body

/-- The loop over the entries after `before`: nothing is ever added to the ids in use. -/
def migrateFrom (draws : Draws) : ℕ → Option EntryId → List FileEntry → List FileEntry → List FileEntry
  | _, _, before, [] => before
  | drawn, prevId, before, .session header :: rest =>
    migrateFrom draws drawn prevId (before ++ [.session { header with version := some 2 }]) rest
  | drawn, prevId, before, .entry entry :: rest =>
    let (id, drawn) := generateId draws [] drawn
    let entry := { entry with id := some id, parentId := prevId }
    let entry := { entry with body := keptById (before ++ .entry entry :: rest) entry.body }
    migrateFrom draws drawn (some id) (before ++ [.entry entry]) rest

def migrateV1ToV2 (draws : Draws) (entries : List FileEntry) : List FileEntry := migrateFrom draws 0 none [] entries

/-- The role `hookMessage` becomes `custom`. -/
def renameRole : Body → Body
  | .message role rest => .message (if role = js "hookMessage" then js "custom" else role) rest
  | body => body

def migrateV2ToV3 (entries : List FileEntry) : List FileEntry :=
  entries.map fun
    | .session header => .session { header with version := some 3 }
    | .entry entry => .entry { entry with body := renameRole entry.body }

/-- `entries.find((e) => e.type === "session")` -/
def headerOf (entries : List FileEntry) : Option Header :=
  entries.findSome? fun
    | .session header => some header
    | .entry _ => none

def migrateToCurrentVersion (draws : Draws) (entries : List FileEntry) : List FileEntry :=
  let version := ((headerOf entries).map versionOf).getD 1
  if version ≥ CURRENT_SESSION_VERSION then entries
  else
    let entries := if version < 2 then migrateV1ToV2 draws entries else entries
    if version < 3 then migrateV2ToV3 entries else entries

/-! ## Sessions -/

/-- The entries that `SessionManager.open` loads. -/
def openFile (draws : Draws) (file : SessionFile) : List Entry :=
  entriesOf (migrateToCurrentVersion draws file.fileEntries)

/-- The file that `forkFrom` writes: a header of the current version, and the entries as they were. -/
def forkedFile (id : JsString) (file : SessionFile) : List FileEntry :=
  .session ⟨id, some CURRENT_SESSION_VERSION⟩ :: (entriesOf file.fileEntries).map .entry

def forkFrom (draws : Draws) (id : JsString) (file : SessionFile) : List Entry :=
  entriesOf (migrateToCurrentVersion draws (forkedFile id file))

def byId (entries : List Entry) (id : EntryId) : Option Entry :=
  entries.reverse.find? (fun entry => entry.id = some id)

/-- The walk over the parents, at most so many. -/
def walk (entries : List Entry) : ℕ → Entry → List Entry
  | 0, current => [current]
  | fuel + 1, current =>
    current :: match current.parentId.bind (byId entries) with
    | none => []
    | some parent => walk entries fuel parent

/-- The path to the leaf, the last entry. -/
def buildSessionPath (entries : List Entry) : List Entry :=
  match entries.getLast? with
  | none => []
  | some leaf => (walk entries entries.length ((leaf.id.bind (byId entries)).getD leaf)).reverse

def isCompaction (entry : Entry) : Bool :=
  match entry.body with
  | .compaction _ _ _ => true
  | _ => false

def firstKept (entry : Entry) : Option EntryId :=
  match entry.body with
  | .compaction _ firstKeptEntryId _ => firstKeptEntryId
  | _ => none

def isSystem (entry : Entry) : Bool :=
  match entry.body with
  | .message role _ => role = js "system"
  | _ => false

/-- The entries of the context: the last compaction, what it keeps before it, and what comes after. -/
def buildContextEntries (entries : List Entry) : List Entry :=
  let path := buildSessionPath entries
  match path.reverse.find? isCompaction with
  | none => path
  | some compaction =>
    match path.findIdx? (fun entry => entry.id = compaction.id) with
    | none => path
    | some index =>
      let kept := (path.take index).dropWhile (fun entry => entry.id ≠ firstKept compaction)
      compaction :: kept.filter (fun entry => !isSystem entry) ++ path.drop (index + 1)


open List

/-! ## Entries of a file -/

@[simp] theorem entriesOf_nil : entriesOf [] = [] := rfl

@[simp] theorem entriesOf_session (header : Header) (rest : List FileEntry) :
    entriesOf (.session header :: rest) = entriesOf rest := rfl

variable (entry : Entry)

@[simp] theorem entriesOf_entry (rest : List FileEntry) :
    entriesOf (.entry entry :: rest) = entry :: entriesOf rest := rfl

variable (before rest : List FileEntry)

@[simp] theorem entriesOf_append :
    entriesOf (before ++ rest) = entriesOf before ++ entriesOf rest := filterMap_append

variable (file : SessionFile)

theorem entriesOf_fileEntries : entriesOf file.fileEntries = entriesOf file.entries := rfl

theorem entriesOf_map_entry (entries : List Entry) : entriesOf (entries.map .entry) = entries := by
  induction entries with
  | nil => rfl
  | cons entry rest ih => rw [map_cons, entriesOf_entry, ih]

variable (entries : List FileEntry)

theorem mem_entriesOf (entry : Entry) (h : FileEntry.entry entry ∈ entries) : entry ∈ entriesOf entries := by
  unfold entriesOf
  exact mem_filterMap.mpr ⟨.entry entry, h, rfl⟩

/-! ## The first migration -/

variable (draws : Draws) (drawn : ℕ)

def migrated (draws : Draws) (drawn : ℕ) (prevId : Option EntryId) (before : List FileEntry) (entry : Entry)
    (rest : List FileEntry) : Entry :=
  { id := some ((draws drawn).take 8), parentId := prevId
    body := keptById (before ++ .entry { entry with id := some ((draws drawn).take 8), parentId := prevId } :: rest)
      entry.body }

variable (prevId : Option EntryId)

theorem migrateFrom_entry (before : List FileEntry) (entry : Entry)
    (rest : List FileEntry) : migrateFrom draws drawn prevId before (.entry entry :: rest) =
      migrateFrom draws (drawn + 1) (some ((draws drawn).take 8))
        (before ++ [.entry (migrated draws drawn prevId before entry rest)]) rest := rfl

theorem migrateFrom_session (before : List FileEntry) (header : Header)
    (rest : List FileEntry) : migrateFrom draws drawn prevId before (.session header :: rest) =
      migrateFrom draws drawn prevId (before ++ [.session { header with version := some 2 }]) rest := rfl

theorem migrateFrom_entries (before rest : List FileEntry) :
    (entriesOf (migrateFrom draws drawn prevId before rest)).map Entry.id =
        (entriesOf before).map Entry.id ++
          (List.range (entriesOf rest).length).map (fun i => some ((draws (drawn + i)).take 8)) ∧
      (entriesOf (migrateFrom draws drawn prevId before rest)).map Entry.parentId =
        (entriesOf before).map Entry.parentId ++
          (prevId :: (List.range (entriesOf rest).length).map
              (fun i => some ((draws (drawn + i)).take 8))).dropLast := by
  induction rest generalizing drawn prevId before with
  | nil => simp [migrateFrom]
  | cons first rest ih =>
    cases first with
    | session header =>
      rw [migrateFrom_session]
      have hrest := ih drawn prevId (before ++ [.session { header with version := some 2 }])
      rw [entriesOf_append, entriesOf_session, entriesOf_nil, append_nil] at hrest
      exact hrest
    | entry entry =>
      rw [migrateFrom_entry]
      have hshift : ∀ n, (List.range (n + 1)).map (fun i => some ((draws (drawn + i)).take 8)) =
          some ((draws drawn).take 8) :: (List.range n).map (fun i => some ((draws (drawn + 1 + i)).take 8)) := by
        intro n
        rw [range_succ_eq_map, map_cons, map_map, Nat.add_zero]
        simp only [Function.comp_def, Nat.succ_eq_add_one, Nat.add_assoc, Nat.add_comm 1]
      obtain ⟨hids, hparents⟩ := ih (drawn + 1) (some ((draws drawn).take 8))
        (before ++ [.entry (migrated draws drawn prevId before entry rest)])
      rw [entriesOf_entry, length_cons, hshift]
      constructor
      · rw [hids]
        simp [migrated]
      · rw [hparents]
        simp [migrated]

variable {α : Type}

section

variable (header : Header) (rest : List FileEntry)
include header

theorem migrate_new (h : 3 ≤ versionOf header) :
    migrateToCurrentVersion draws (.session header :: rest) = .session header :: rest := if_pos h

theorem migrate_second (h : versionOf header = 2) :
    migrateToCurrentVersion draws (.session header :: rest) = migrateV2ToV3 (.session header :: rest) := by
  have hnew : ¬versionOf header ≥ CURRENT_SESSION_VERSION := by
    unfold CURRENT_SESSION_VERSION
    omega
  refine (if_neg hnew).trans ((if_pos (show versionOf header < 3 by omega)).trans ?_)
  exact congrArg migrateV2ToV3 (if_neg (show ¬versionOf header < 2 by omega))

theorem migrate_first (h : versionOf header < 2) :
    migrateToCurrentVersion draws (.session header :: rest) =
      migrateV2ToV3 (migrateV1ToV2 draws (.session header :: rest)) := by
  have hnew : ¬versionOf header ≥ CURRENT_SESSION_VERSION := by
    unfold CURRENT_SESSION_VERSION
    omega
  refine (if_neg hnew).trans ((if_pos (show versionOf header < 3 by omega)).trans ?_)
  exact congrArg migrateV2ToV3 (if_pos h)

end

theorem entriesOf_migrateV2ToV3 : entriesOf (migrateV2ToV3 entries) =
    (entriesOf entries).map (fun entry => { entry with body := renameRole entry.body }) := by
  induction entries with
  | nil => rfl
  | cons first rest ih =>
    unfold migrateV2ToV3 at ih ⊢
    cases first with
    | session header => rw [map_cons, entriesOf_session, entriesOf_session, ih]
    | entry entry => rw [map_cons, entriesOf_entry, entriesOf_entry, map_cons, ih]

section

variable (file : SessionFile)

theorem openFile_new (h : 3 ≤ versionOf file.header) : openFile draws file = entriesOf file.entries := by
  unfold openFile SessionFile.fileEntries
  rw [migrate_new draws file.header file.entries h, entriesOf_session]

theorem openFile_second (h : versionOf file.header = 2) :
    openFile draws file = (entriesOf file.entries).map
        (fun entry => { entry with body := renameRole entry.body }) := by
  unfold openFile SessionFile.fileEntries
  rw [migrate_second draws file.header file.entries h, entriesOf_migrateV2ToV3, entriesOf_session]

theorem openFile_first (h : versionOf file.header < 2) :
    openFile draws file = (entriesOf (migrateV1ToV2 draws file.fileEntries)).map
      (fun entry => { entry with body := renameRole entry.body }) := by
  unfold openFile SessionFile.fileEntries
  rw [migrate_first draws file.header file.entries h, entriesOf_migrateV2ToV3]

theorem opened_ids (h : versionOf file.header < 2) : (openFile draws file).map Entry.id =
      (List.range (entriesOf file.entries).length).map (fun i => some ((draws i).take 8)) := by
  rw [openFile_first draws file h, map_map]
  have hids := (migrateFrom_entries draws 0 none [] file.fileEntries).1
  simp only [entriesOf_nil, map_nil, nil_append, Nat.zero_add, entriesOf_fileEntries] at hids
  exact hids

/-- Each entry hangs from the one before it in the file. -/
theorem opened_chain (h : versionOf file.header < 2) : (openFile draws file).map Entry.parentId =
      (none :: (List.range (entriesOf file.entries).length).map (fun i => some ((draws i).take 8))).dropLast := by
  rw [openFile_first draws file h, map_map]
  have hparents := (migrateFrom_entries draws 0 none [] file.fileEntries).2
  simp only [entriesOf_nil, map_nil, nil_append, Nat.zero_add, entriesOf_fileEntries] at hparents
  exact hparents

theorem opened_distinct (h : versionOf file.header < 2) : ((openFile draws file).map Entry.id).Nodup ↔
      ∀ i < (entriesOf file.entries).length, ∀ j < (entriesOf file.entries).length,
        (draws i).take 8 = (draws j).take 8 → i = j := by
  rw [opened_ids draws file h, nodup_map_iff_inj_on nodup_range]
  simp

theorem length_openFile_first (h : versionOf file.header < 2) :
    (openFile draws file).length = (entriesOf file.entries).length := by
  have hlength := congrArg List.length (opened_ids draws file h)
  simpa using hlength

end

/-! ## Forks -/

theorem forkFrom_entries (id : JsString) (file : SessionFile) :
    forkFrom draws id file = entriesOf file.entries := by
  unfold forkFrom forkedFile
  rw [migrate_new draws ⟨id, some CURRENT_SESSION_VERSION⟩ _ (Nat.le_refl 3), entriesOf_session,
      entriesOf_map_entry, entriesOf_fileEntries]

/-! ## What is promised -/

def renameKept (rename : EntryId → EntryId) : Body → Body
  | .compaction firstKeptEntryIndex firstKeptEntryId rest =>
    .compaction firstKeptEntryIndex (firstKeptEntryId.map rename) rest
  | body => body

def Entry.renamed (rename : EntryId → EntryId) (entry : Entry) : Entry :=
  ⟨entry.id.map rename, entry.parentId.map rename, renameKept rename entry.body⟩

structure Renaming (file : SessionFile) (rename : EntryId → EntryId) : Prop where
  injective : ∀ a b, rename a = rename b → a = b
  fixed : 2 ≤ versionOf file.header → rename = fun id => id

/-- An old file opens to entries with distinct ids, of the first version in one chain with compactions
that keep what they kept, its context does not depend on the draws, and a fork shows the same. -/
structure Faithful (draws : Draws) (id : JsString) (file : SessionFile) : Prop where
  named : versionOf file.header < 3 → ∀ entry ∈ openFile draws file, ∃ id, entry.id = some id
  distinct : versionOf file.header < 3 → ((openFile draws file).map Entry.id).Nodup
  chain : versionOf file.header < 2 →
    (openFile draws file).map Entry.parentId = (none :: (openFile draws file).map Entry.id).dropLast
  kept : versionOf file.header < 2 → ∀ (index target : ℕ) (entry other : Entry) firstKeptEntryId rest,
      target < index →
    file.fileEntries[index]? = some (.entry entry) → entry.body = .compaction (some target) firstKeptEntryId rest →
    file.fileEntries[target]? = some (.entry other) →
    ∃ opened kept, (migrateToCurrentVersion draws file.fileEntries)[index]? = some (.entry opened) ∧
      (migrateToCurrentVersion draws file.fileEntries)[target]? = some (.entry kept) ∧ firstKept opened = kept.id
  stable : versionOf file.header < 3 → ∀ others, ∃ rename, Renaming file rename ∧
    buildContextEntries (openFile others file) =
      (buildContextEntries (openFile draws file)).map (Entry.renamed rename)
  forked : ∃ rename, Renaming file rename ∧
    forkFrom draws id file = (openFile draws file).map (Entry.renamed rename) ∧
    buildContextEntries (forkFrom draws id file) =
      (buildContextEntries (openFile draws file)).map (Entry.renamed rename)

/-- Nothing is left to migrate in the entries, and those of the second version have distinct ids. -/
def Unharmed (file : SessionFile) : Prop :=
  3 ≤ versionOf file.header ∨
    (versionOf file.header = 2 ∧ ((entriesOf file.entries).map Entry.id).Nodup ∧
      ∀ entry ∈ entriesOf file.entries, ∀ rest, entry.body ≠ .message (js "hookMessage") rest) ∨
    (versionOf file.header < 2 ∧ entriesOf file.entries = [])

theorem renamed_same : entry.renamed (fun id => id) = entry := by
  obtain ⟨id, parentId, body⟩ := entry
  unfold Entry.renamed
  have hbody : renameKept (fun id => id) body = body := by
    cases body with
    | compaction index firstKeptEntryId rest => simp [renameKept]
    | message role rest => rfl
    | other rest => rfl
  rw [hbody]
  simp

theorem map_renamed_same (entries : List Entry) : entries.map (Entry.renamed (fun id => id)) = entries := by
  rw [map_congr_left (fun entry _ => renamed_same entry), map_id'']
  exact fun _ => rfl

theorem renaming_same : Renaming file (fun id => id) := ⟨fun _ _ h => h, fun _ => rfl⟩

theorem renameRole_message (role : JsString) (rest : JsonValue) :
    renameRole (.message role rest) = .message (if role = js "hookMessage" then js "custom" else role) rest := rfl

theorem renameRole_eq_iff (body : Body) :
    renameRole body = body ↔ ∀ rest, body ≠ .message (js "hookMessage") rest := by
  have hne : js "custom" ≠ js "hookMessage" := by decide
  cases body with
  | message role rest =>
    rw [renameRole_message]
    constructor
    · intro h other heq
      injection heq with hrole
      injection h with hsame
      rw [hrole, if_pos rfl] at hsame
      exact hne hsame
    · intro h
      have hrole : role ≠ js "hookMessage" := fun hrole => h rest (by rw [hrole])
      rw [if_neg hrole]
  | compaction index firstKeptEntryId rest => exact iff_of_true rfl (fun _ heq => by cases heq)
  | other rest => exact iff_of_true rfl (fun _ heq => by cases heq)

theorem map_eq_self (f : α → α) (items : List α) (h : items = items.map f) : ∀ a ∈ items, f a = a := by
  induction items with
  | nil => simp
  | cons a rest ih =>
    rw [map_cons] at h
    obtain ⟨hhead, htail⟩ := List.cons.inj h
    intro b hb
    rcases mem_cons.mp hb with rfl | hb
    · exact hhead.symm
    · exact ih htail b hb

/-- An old file opens and forks faithfully exactly when the fork has nothing to migrate. -/
theorem migration_exact (draws : Draws) (id : JsString) (file : SessionFile) : Faithful draws id file ↔
    Unharmed file := by
  constructor
  · intro h
    obtain ⟨rename, hrename, hentries, -⟩ := h.forked
    rw [forkFrom_entries] at hentries
    rcases Nat.lt_or_ge (versionOf file.header) 3 with hold | hnew
    · rcases Nat.lt_or_ge (versionOf file.header) 2 with hfirst | hsecond
      · refine Or.inr (Or.inr ⟨hfirst, ?_⟩)
        cases hopened : openFile draws file with
        | nil => rw [hentries, hopened, map_nil]
        | cons opened rest =>
          -- the fork's entry has no id, and the opened one has
          obtain ⟨name, hname⟩ := h.named hold opened (by rw [hopened]; exact mem_cons_self)
          have hmem : opened.renamed rename ∈ entriesOf file.entries := by
            rw [hentries, hopened]
            exact mem_map_of_mem mem_cons_self
          have hnone := file.idless hfirst _ hmem
          unfold Entry.renamed at hnone
          rw [hname] at hnone
          cases hnone
      · have hversion : versionOf file.header = 2 := by omega
        have hids := h.distinct hold
        rw [openFile_second draws file hversion, map_map] at hids
        rw [hrename.fixed hsecond, map_renamed_same, openFile_second draws file hversion] at hentries
        refine Or.inr (Or.inl ⟨hversion, hids, fun entry hentry => ?_⟩)
        have hsame := map_eq_self _ _ hentries entry hentry
        exact (renameRole_eq_iff entry.body).mp (congrArg Entry.body hsame)
    · exact Or.inl hnew
  · rintro (hnew | ⟨hversion, hids, hroles⟩ | ⟨hfirst, hempty⟩)
    · refine ⟨fun h => ?_, fun h => ?_, fun h => ?_, fun h => ?_, fun h => ?_, fun id => id, renaming_same file, ?_,
          ?_⟩
      · omega
      · omega
      · omega
      · omega
      · omega
      · rw [forkFrom_entries, openFile_new draws file hnew, map_renamed_same]
      · rw [forkFrom_entries, openFile_new draws file hnew, map_renamed_same]
    · have hopened : ∀ others, openFile others file = entriesOf file.entries := by
        intro others
        rw [openFile_second others file hversion]
        refine (map_congr_left fun entry hentry => ?_).trans (map_id _)
        rw [(renameRole_eq_iff entry.body).mpr (hroles entry hentry)]
        rfl
      refine ⟨fun _ => ?_, fun _ => ?_, fun h => ?_, fun h => ?_, fun _ others =>
          ⟨fun id => id, renaming_same file, ?_⟩,
        fun id => id, renaming_same file, ?_, ?_⟩
      · rw [hopened]
        exact file.named (by omega)
      · rw [hopened]
        exact hids
      · omega
      · omega
      · rw [hopened, hopened, map_renamed_same]
      · rw [forkFrom_entries, hopened, map_renamed_same]
      · rw [forkFrom_entries, hopened, map_renamed_same]
    · have hopened : ∀ others, openFile others file = [] := by
        intro others
        rw [← length_eq_zero_iff, length_openFile_first others file hfirst, hempty, length_nil]
      refine ⟨fun _ => ?_, fun _ => ?_, fun _ => ?_,
          fun _ index target entry other firstKeptEntryId rest _ hentry _ _ => ?_,
        fun _ others => ⟨fun id => id, renaming_same file, ?_⟩, fun id => id, renaming_same file, ?_, ?_⟩
      · rw [hopened]
        simp
      · rw [hopened]
        exact nodup_nil
      · rw [hopened]
        rfl
      · have hmem := mem_entriesOf _ entry (mem_of_getElem? hentry)
        rw [entriesOf_fileEntries, hempty] at hmem
        cases hmem
      · rw [hopened, hopened]
        rfl
      · rw [forkFrom_entries, hopened, hempty]
        rfl
      · rw [forkFrom_entries, hopened, hempty]
        rfl

/-! ## A file of the first version with a message -/

def oneMessage : SessionFile where
  header := ⟨js "s", none⟩
  entries := [.entry ⟨none, none, .message (js "user") .null⟩]
  idless := by
    intro _ entry hentry
    rw [entriesOf_entry, entriesOf_nil, mem_singleton] at hentry
    rw [hentry]
  named := by
    intro h
    exact absurd h (by decide)

theorem fork_unmigrated : ¬Faithful (fun _ => js "01234567-89ab") (js "t") oneMessage := by
  intro h
  obtain ⟨rename, -, hentries, -⟩ := h.forked
  have hids := congrArg (List.map Entry.id) hentries
  cases hids

end PiAgent.Session.Migration
