import PiAgent.Session.BranchedSession

/-!
# Sessions that survive crashes

A crash may cut the append of a line anywhere. What is left of the line is not an entry,
unless only its newline is missing, and the next open ends it with a newline. So a file
is read as the entries whose lines it has, whatever was cut between them.
-/

namespace PiAgent.Session

open Option List

/-! ## Reading in chunks -/

/-- One turn of the loop of `loadEntriesFromFile`: the lines so far, and what follows the last newline. -/
def readChunk (state : List Bytes × Bytes) (chunk : Bytes) : List Bytes × Bytes :=
  (state.1 ++ (splitLines (state.2 ++ chunk)).1, (splitLines (state.2 ++ chunk)).2)

theorem splitLines_newline (rest : Bytes) :
    splitLines (newline :: rest) = ([] :: (splitLines rest).1, (splitLines rest).2) := by
  rw [splitLines, if_pos rfl]

theorem splitLines_byte (b : UInt8) (rest : Bytes) (hb : b ≠ newline) :
    ((splitLines rest).1 = [] → splitLines (b :: rest) = ([], b :: (splitLines rest).2)) ∧
      ∀ first lines, (splitLines rest).1 = first :: lines →
        splitLines (b :: rest) = ((b :: first) :: lines, (splitLines rest).2) := by
  rw [splitLines, if_neg hb]
  rcases splitLines rest with ⟨_ | ⟨first, lines⟩, pending⟩
  · refine ⟨fun _ => rfl, ?_⟩
    intro first lines h
    cases h
  · refine ⟨fun h => absurd h (cons_ne_nil _ _), fun first' lines' h => ?_⟩
    obtain ⟨rfl, rfl⟩ := List.cons.inj h
    rfl

theorem splitLines_append (a b : Bytes) : splitLines (a ++ b) =
      ((splitLines a).1 ++ (splitLines ((splitLines a).2 ++ b)).1, (splitLines ((splitLines a).2 ++ b)).2) := by
  induction a with
  | nil => simp [splitLines]
  | cons c a ih =>
    rw [cons_append]
    by_cases hc : c = newline
    · rw [hc, splitLines_newline, splitLines_newline, ih]
      rfl
    obtain ⟨hopen, hclosed⟩ := splitLines_byte c a hc
    obtain ⟨hopen', hclosed'⟩ := splitLines_byte c (a ++ b) hc
    rw [ih] at hopen' hclosed'
    cases ha : (splitLines a).1 with
    | nil =>
      -- the line that begins here is not over in the first part
      obtain ⟨hopen'', hclosed''⟩ := splitLines_byte c ((splitLines a).2 ++ b) hc
      rw [ha, nil_append] at hopen' hclosed'
      rw [hopen ha, cons_append, nil_append]
      cases hb : (splitLines ((splitLines a).2 ++ b)).1 with
      | nil => rw [hopen' hb, hopen'' hb]
      | cons first lines => rw [hclosed' first lines hb, hclosed'' first lines hb]
    | cons first lines =>
      rw [hclosed first lines ha]
      refine (hclosed' first (lines ++ (splitLines ((splitLines a).2 ++ b)).1) ?_).trans rfl
      rw [ha]
      rfl

/-- However the file is cut into chunks, the loop gathers the lines of the whole file. -/
theorem foldl_readChunk (chunks : List Bytes) (before : Bytes) :
    chunks.foldl readChunk (splitLines before) = splitLines (before ++ chunks.flatten) := by
  induction chunks generalizing before with
  | nil => simp
  | cons chunk rest ih =>
    rw [foldl_cons, readChunk, ← splitLines_append, ih, append_assoc, flatten_cons]

/-! ## Files with torn lines -/

def lineEntries (codec : Codec) (file : Bytes) : List FileEntry :=
  (splitLines file).1.filterMap codec.parseSessionEntryLine

structure ReadsAs (codec : Codec) (file : Bytes) (entries : List FileEntry) : Prop where
  ended : (splitLines file).2 = []
  lines : lineEntries codec file = entries

variable {codec : Codec} {entries : List FileEntry}

theorem ReadsAs.of_lines (h : ∀ e ∈ entries, codec.Reads e) :
    ReadsAs codec (entries.flatMap codec.line) entries := by
  have hsplit := splitLines_lines codec entries [] h (by simp)
  rw [append_nil] at hsplit
  refine ⟨by rw [hsplit], ?_⟩
  unfold lineEntries
  rw [hsplit]
  clear hsplit
  induction entries with
  | nil => rfl
  | cons e entries ih =>
    rw [map_cons, filterMap_cons, (h e (mem_cons_self ..)).back, ih (fun e' he' => h e' (mem_cons_of_mem _ he'))]

variable {file : Bytes}

theorem ReadsAs.append {entries : List FileEntry} (h : ReadsAs codec file entries)
    (rest : Bytes) : splitLines (file ++ rest) = ((splitLines file).1 ++ (splitLines rest).1, (splitLines rest).2) := by
  rw [splitLines_append, h.ended, nil_append]

theorem ReadsAs.line {entries : List FileEntry} (h : ReadsAs codec file entries)
    (e : FileEntry) (he : codec.Reads e) : ReadsAs codec (file ++ codec.line e) (entries ++ [e]) := by
  have hline : splitLines (codec.line e) = ([codec.stringify e], []) := by
    have := splitLines_line (codec.stringify e) [] he.line
    simpa [Codec.line, splitLines] using this
  refine ⟨by rw [h.append, hline], ?_⟩
  unfold lineEntries
  rw [h.append, hline, filterMap_append, ← h.lines]
  simp [lineEntries, he.back]

def tornEntries (codec : Codec) (e : FileEntry) (written : ℕ) : List FileEntry :=
  if (codec.stringify e).length ≤ written then [e] else []

section

variable {header : Header} {entries : List FileEntry} (h : ReadsAs codec file (.session header :: entries))
include header h

theorem ReadsAs.torn (e : FileEntry) (he : codec.Reads e) (written : ℕ) :
    ∃ ended, loadEntriesFromFile codec (file ++ (codec.line e).take written) =
        (.session header :: entries ++ tornEntries codec e written, ended) ∧
      ReadsAs codec ended (.session header :: entries ++ tornEntries codec e written) := by
  by_cases hall : (codec.line e).length ≤ written
  · -- the whole line was written
    have hfile := h.line e he
    have htorn : tornEntries codec e written = [e] := by
      unfold tornEntries
      rw [Codec.line, length_append] at hall
      exact if_pos (by omega)
    rw [take_of_length_le hall, htorn]
    refine ⟨_, ?_, hfile⟩
    unfold loadEntriesFromFile
    have hlines := hfile.lines
    unfold lineEntries at hlines
    simp [filterMap_append, hlines, hfile.ended, parse_nil he]
  · have htake : (codec.line e).take written = (codec.stringify e).take written := by
      rw [Codec.line, length_append, length_singleton] at hall
      rw [Codec.line, take_append_of_le_length (by omega)]
    have hnew : newline ∉ (codec.stringify e).take written := fun hmem => he.line (mem_of_mem_take hmem)
    have hparse : [(codec.stringify e).take written].filterMap codec.parseSessionEntryLine = tornEntries codec e written := by
      unfold tornEntries
      split
      · rename_i hlen
        rw [take_of_length_le hlen]
        simp [he.back]
      · simp [he.torn written (by omega)]
    have hsplit := h.append ((codec.stringify e).take written)
    rw [splitLines_tail _ hnew] at hsplit
    have hlines := h.lines
    unfold lineEntries at hlines
    have hread : (((splitLines file).1 ++ []) ++ [(codec.stringify e).take written]).filterMap
        codec.parseSessionEntryLine = .session header :: entries ++ tornEntries codec e written := by
      rw [append_nil, filterMap_append, hlines, hparse]
    rw [htake]
    unfold loadEntriesFromFile
    simp only [hsplit, hread, cons_append]
    refine ⟨_, rfl, ?_⟩
    split
    · rename_i hempty
      rw [List.isEmpty_iff.mp hempty, append_nil]
      rw [List.isEmpty_iff.mp hempty, filterMap_cons_none (parse_nil he), filterMap_nil] at hparse
      rw [← hparse, append_nil]
      exact h
    · have hend : splitLines ((codec.stringify e).take written ++ [newline]) = ([(codec.stringify e).take written], []) := by
        have := splitLines_line ((codec.stringify e).take written) [] hnew
        simpa [splitLines] using this
      have hsplit' := h.append ((codec.stringify e).take written ++ [newline])
      rw [hend, ← append_assoc] at hsplit'
      refine ⟨by rw [hsplit'], ?_⟩
      unfold lineEntries
      rw [hsplit', filterMap_append, hlines, hparse]
      rfl

theorem ReadsAs.load (hnil : codec.parseSessionEntryLine [] = none) :
    loadEntriesFromFile codec file = (.session header :: entries, file) := by
  have hlines := h.lines
  unfold lineEntries at hlines
  unfold loadEntriesFromFile
  simp [filterMap_append, hlines, h.ended, hnil]

end

/-! ## The file of a session, put aside -/

namespace Manager

variable (m : Manager)

def withFile (file : Option Bytes) : Manager := { m with file := file }

def clean (codec : Codec) : Manager := m.withFile (if m.flushed then some (m.fileText codec) else none)

def grown (e : Entry) : Manager :=
  { m with entries := m.entries ++ [e], byId := Assoc.set m.byId e.id e, leafId := some e.id }

def readSession (header : Header) (entries : List Entry) (file : Bytes) : Manager :=
  buildIndex { newSession true header with entries := entries, flushed := true, file := some file }

theorem clean_withFile (codec : Codec) (file : Option Bytes) : (m.withFile file).clean codec = m.clean codec := rfl

theorem afterAppend_withFile (e : Entry) (file : Option Bytes) :
    (m.withFile file).afterAppend e = (m.afterAppend e).withFile file := by
  obtain ⟨id, parentId, timestamp, body⟩ := e
  cases body with
  | label targetId label =>
    simp only [afterAppend, setLabel]
    cases truthy label <;> rfl
  | _ => rfl

theorem indexEntry_withFile (e : Entry) (file : Option Bytes) :
    (m.withFile file).indexEntry e = (m.indexEntry e).withFile file :=
  afterAppend_withFile ({ m with byId := Assoc.set m.byId e.id e, leafId := some e.id } : Manager) e file

theorem foldl_withFile (entries : List Entry) (file : Option Bytes) :
    entries.foldl indexEntry (m.withFile file) = (entries.foldl indexEntry m).withFile file := by
  induction entries generalizing m with
  | nil => rfl
  | cons e entries ih => rw [foldl_cons, foldl_cons, indexEntry_withFile, ih]

theorem readSession_withFile (header : Header) (entries : List Entry) (file other : Bytes) :
    readSession header entries other = (readSession header entries file).withFile (some other) :=
  foldl_withFile { newSession true header with entries := entries, flushed := true, file := some file } entries (some other)

end Manager

variable {m : Manager}

theorem Invariant.clean_eq (h : Invariant codec m) : m.clean codec = m := by
  unfold Manager.clean Manager.withFile
  rw [← h.file]

/-! ## Appends and crashes -/

variable (codec : Codec) (m : Manager) {op : Manager.AppendOp} {id : EntryId} {time : Time} {body : EntryBody}

theorem append_flushed (hp : m.persist = true) (hf : m.flushed = true) (hb : m.bodyOf op id time = some body) :
    m.append codec op id time .succeeds = .done
      (((m.grown ⟨id, m.parentOf op, time, body⟩).withFile
        (some (m.file.getD [] ++ codec.line (.entry ⟨id, m.parentOf op, time, body⟩)))).afterAppend
          ⟨id, m.parentOf op, time, body⟩) := by
  rw [append_eq m codec .succeeds hb]
  simp [Manager.appendEntry, Manager.persistEntry, hp, hf, Manager.withFile, Manager.grown]

theorem append_crashed (written : ℕ) (hp : m.persist = true) (hf : m.flushed = true)
    (hb : m.bodyOf op id time = some body) :
    m.append codec op id time (.stopsAfter written) = .threw
      ((m.grown ⟨id, m.parentOf op, time, body⟩).withFile
        (some (m.file.getD [] ++ (codec.line (.entry ⟨id, m.parentOf op, time, body⟩)).take written))) := by
  rw [append_eq m codec (.stopsAfter written) hb]
  simp [Manager.appendEntry, Manager.persistEntry, hp, hf, Manager.withFile, Manager.grown]

variable (e : Entry)

theorem persistEntry_first (hp : m.persist = true) (hf : m.flushed = false)
    (hn : m.file = none) : m.persistEntry codec e .succeeds =
      (if m.hasConversation then { m with file := some (m.fileText codec), flushed := true } else m, false) := by
  unfold Manager.persistEntry
  rw [if_neg (by simp [hp]), if_pos (by simp [hf])]
  cases hc : m.hasConversation with
  | false => rfl
  | true =>
    rw [if_neg (by simp), if_neg (by simp [hn])]
    rfl

theorem append_unflushed (hp : m.persist = true) (hf : m.flushed = false) (hn : m.file = none)
    (hb : m.bodyOf op id time = some body) :
    m.append codec op id time .succeeds = .done
      ((if (m.grown ⟨id, m.parentOf op, time, body⟩).hasConversation then
        { m.grown ⟨id, m.parentOf op, time, body⟩ with
          file := some ((m.grown ⟨id, m.parentOf op, time, body⟩).fileText codec), flushed := true }
        else m.grown ⟨id, m.parentOf op, time, body⟩).afterAppend ⟨id, m.parentOf op, time, body⟩) := by
  rw [append_eq m codec .succeeds hb]
  generalize (⟨id, m.parentOf op, time, body⟩ : Entry) = e
  have hgrown : m.appendEntry codec e .succeeds = Manager.persistEntry (m.grown e) codec e .succeeds := rfl
  have hp' : (m.grown e).persist = true := hp
  have hf' : (m.grown e).flushed = false := hf
  have hn' : (m.grown e).file = none := hn
  rw [hgrown, persistEntry_first codec (m.grown e) e hp' hf' hn']
  rfl

/-! ## What is known of a session that crashes -/

/-- `kept` are the entries whose lines are in the file, or are to be written with the first message. -/
structure Survives (codec : Codec) (m : Manager) (kept : List Entry) : Prop where
  invariant : Invariant codec (m.clean codec)
  kept : m.entries = kept
  labels : (m.labelsById, m.labelTimestampsById) = labelsOf m.entries
  persist : m.persist = true
  reads : ∀ e ∈ m.fileEntries, codec.Reads e
  conversation : m.flushed = m.hasConversation
  unwritten : m.flushed = false → m.file = none
  written : m.flushed = true → ∃ file, m.file = some file ∧ ReadsAs codec file m.fileEntries

theorem survives_new (header : Header) (hr : codec.Reads (.session header)) :
    Survives codec (Manager.newSession true header) [] := by
  refine ⟨newSession_invariant codec true header, rfl, rfl, rfl, ?_, rfl, fun _ => rfl, ?_⟩
  · intro e he
    rw [mem_singleton.mp he]
    exact hr
  · intro hf
    cases hf

variable {codec : Codec} {m : Manager} {kept : List Entry}

theorem Survives.read (h : Survives codec m kept)
    (hf : m.flushed = true) (file : Bytes) (hfile : ReadsAs codec file m.fileEntries) :
    Survives codec (Manager.readSession m.header m.entries file) kept := by
  have htree : IsTree m.entries := h.invariant.tree
  obtain ⟨g1, g2, g3, g4, g5, -, -, g8, -⟩ := buildIndex_spec
    { Manager.newSession true m.header with entries := m.entries, flushed := true, file := some file } htree.nodup
  have hinv : Invariant codec (Manager.readSession m.header m.entries (m.fileText codec)) := by
    have hclean : (m.clean codec).file = some (m.fileText codec) := if_pos hf
    refine h.invariant.reopened m.header h.reads ?_
    rw [hclean]
    exact reopen_written codec m m.header h.reads
  have hentries : (Manager.readSession m.header m.entries file).fileEntries = m.fileEntries := by
    unfold Manager.fileEntries Manager.readSession
    rw [g1, g2]
    rfl
  refine ⟨?_, g1.trans h.kept, g8.trans (congrArg labelsOf g1.symm), g5, hentries ▸ h.reads, ?_, ?_, ?_⟩
  · rw [Manager.readSession_withFile m.header m.entries (m.fileText codec) file, Manager.clean_withFile, hinv.clean_eq]
    exact hinv
  · refine g3.trans ?_
    rw [← hf, h.conversation]
    unfold Manager.hasConversation Manager.readSession
    rw [g1]
  · intro hno
    exact absurd (g3.symm.trans hno) (by simp)
  · exact fun _ => ⟨file, g4, hentries ▸ hfile⟩

theorem reopen_loaded {header : Header} {entries : List Entry} {file ended : Bytes} (fresh : Header)
    (h : loadEntriesFromFile codec file = (.session header :: entries.map .entry, ended)) :
    Manager.reopen codec fresh (some file) = some (Manager.readSession header entries ended) := by
  have hentries : Manager.entriesOf (entries.map .entry) = entries := by
    unfold Manager.entriesOf
    rw [filterMap_map]
    exact filterMap_some
  unfold Manager.reopen
  simp only [h, hentries]
  rfl

theorem Survives.reopen (h : Survives codec m kept) (fresh : Header) :
    (m.flushed = false ∧ Manager.reopen codec fresh m.file = some (Manager.newSession true fresh)) ∨
      (m.flushed = true ∧ ∃ file, ReadsAs codec file m.fileEntries ∧
        Manager.reopen codec fresh m.file = some (Manager.readSession m.header m.entries file)) := by
  cases hf : m.flushed with
  | false =>
    rw [h.unwritten hf]
    exact Or.inl ⟨rfl, rfl⟩
  | true =>
    obtain ⟨file, hfile, hreads⟩ := h.written hf
    rw [hfile]
    refine Or.inr ⟨rfl, file, hreads, reopen_loaded fresh (hreads.load ?_)⟩
    exact parse_nil (h.reads _ (mem_cons_self ..))

/-! ## Operations -/

theorem hasConversation_grown (m : Manager) (e : Entry) (h : m.hasConversation = true) :
    (m.grown e).hasConversation = true := by
  unfold Manager.hasConversation at h ⊢
  unfold Manager.grown
  rw [any_append, h, Bool.true_or]

def entryOf (m : Manager) (op : Manager.AppendOp) (id : EntryId) (time : Time) (body : EntryBody) : Entry :=
  ⟨id, m.parentOf op, time, body⟩

theorem Survives.append {m m' : Manager} {kept : List Entry} (h : Survives codec m kept)
    {op : Manager.AppendOp} {id : EntryId} {time : Time} {body : EntryBody} (hfresh : id ∉ ids m.entries)
    (hb : m.bodyOf op id time = some body) (hr : codec.Reads (.entry (entryOf m op id time body)))
    (ha : m.append codec op id time .succeeds = .done m') :
    Survives codec m' (kept ++ [entryOf m op id time body]) ∧ m'.leafId = some id ∧
      (m.flushed = true → m'.flushed = true) := by
  obtain ⟨body', hb', hentries, -, hleaf, hheader, hpersist, hlabels, -⟩ := append_spec ha
  obtain rfl : body' = body := some.inj (hb'.symm.trans hb)
  have hfileEntries : m'.fileEntries = m.fileEntries ++ [.entry (entryOf m op id time body')] := by
    unfold Manager.fileEntries
    rw [hentries, hheader]
    simp [entryOf]
  have hreads : ∀ e ∈ m'.fileEntries, codec.Reads e := by
    intro e he
    rw [hfileEntries] at he
    rcases mem_append.mp he with he | he
    · exact h.reads e he
    · rw [mem_singleton.mp he]
      exact hr
  have hlabelsOf : (m'.labelsById, m'.labelTimestampsById) = labelsOf m'.entries := by
    rw [hlabels, h.labels, hentries]
    unfold labelsOf
    rw [foldl_append]
    rfl
  have hconv : m'.hasConversation = (m.grown (entryOf m op id time body')).hasConversation := by
    unfold Manager.hasConversation Manager.grown
    rw [hentries]
    rfl
  have hkept : m'.entries = kept ++ [entryOf m op id time body'] := by
    rw [hentries, h.kept]
    rfl
  have hp : m'.persist = true := hpersist.trans h.persist
  cases hf : m.flushed with
  | true =>
    obtain ⟨file, hfile, hfileReads⟩ := h.written hf
    have happend := append_flushed codec m h.persist hf hb
    rw [hfile, getD_some] at happend
    have hm' : m' = ((m.grown (entryOf m op id time body')).afterAppend (entryOf m op id time body')).withFile
        (some (file ++ codec.line (.entry (entryOf m op id time body')))) := by
      rw [happend] at ha
      injection ha with ha
      rw [← ha, Manager.afterAppend_withFile]
      rfl
    -- the session without torn lines makes the same step
    have hclean : Invariant codec ((((m.clean codec).grown (entryOf m op id time body')).afterAppend
        (entryOf m op id time body')).withFile
          (some ((m.clean codec).file.getD [] ++ codec.line (.entry (entryOf m op id time body'))))) := by
      rw [← Manager.afterAppend_withFile]
      exact h.invariant.append hfresh (append_flushed codec (m.clean codec) h.persist hf hb)
    have hgrown : (m.clean codec).grown (entryOf m op id time body') =
        (m.grown (entryOf m op id time body')).withFile (m.clean codec).file := rfl
    have hinv : Invariant codec (m'.clean codec) := by
      have hsame := hclean
      rw [← hclean.clean_eq, hgrown, Manager.afterAppend_withFile, Manager.clean_withFile, Manager.clean_withFile] at hsame
      rw [hm', Manager.clean_withFile]
      exact hsame
    have hflushed : m'.flushed = true := by
      obtain ⟨-, -, -, -, g5, -⟩ := afterAppend_fields (m.grown (entryOf m op id time body')) (entryOf m op id time body')
      rw [hm']
      exact g5.trans hf
    refine ⟨⟨hinv, hkept, hlabelsOf, hp, hreads, ?_, ?_, ?_⟩, hleaf, fun _ => hflushed⟩
    · rw [hflushed, hconv, hasConversation_grown m _ (h.conversation ▸ hf)]
    · intro hno
      rw [hflushed] at hno
      cases hno
    · intro _
      refine ⟨_, by rw [hm']; rfl, ?_⟩
      rw [hfileEntries]
      exact hfileReads.line _ hr
  | false =>
    have hm : m.clean codec = m := by
      have hfile : (if m.flushed then some (m.fileText codec) else none) = m.file := by
        rw [if_neg (by simp [hf]), h.unwritten hf]
      unfold Manager.clean
      rw [hfile]
      rfl
    have hinv := (hm ▸ h.invariant).append hfresh ha
    have happend := append_unflushed codec m h.persist hf (h.unwritten hf) hb
    rw [happend] at ha
    injection ha with ha
    obtain ⟨-, -, -, g4, g5, -⟩ := afterAppend_fields (if (m.grown (entryOf m op id time body')).hasConversation then
        { m.grown (entryOf m op id time body') with
          file := some ((m.grown (entryOf m op id time body')).fileText codec), flushed := true }
        else m.grown (entryOf m op id time body')) (entryOf m op id time body')
    have hflushed : m'.flushed = m'.hasConversation := by
      rw [hconv, ← ha]
      refine g5.trans ?_
      split
      · rename_i hc
        exact hc.symm
      · rename_i hc
        exact hf.trans (by simpa using hc)
    refine ⟨⟨hinv.clean_eq.symm ▸ hinv, hkept, hlabelsOf, hp, hreads, hflushed, ?_, ?_⟩, hleaf, fun hno => nomatch hno⟩
    · intro hno
      have hfile := hinv.file
      rwa [hno, if_neg (by simp)] at hfile
    · intro hyes
      have hfile := hinv.file
      rw [hyes, if_pos rfl] at hfile
      exact ⟨_, hfile, ReadsAs.of_lines hreads⟩

theorem Survives.branch {m m' : Manager} {kept : List Entry} (h : Survives codec m kept)
    {branchFromId : EntryId} (hb : m.branch branchFromId = some m') : Survives codec m' kept := by
  have hclean : (m.clean codec).branch branchFromId = some (m'.clean codec) := by
    unfold Manager.branch at hb ⊢
    split at hb
    · rename_i hhas
      obtain rfl := some.inj hb
      exact if_pos hhas
    · cases hb
  have hinv := h.invariant.branch hclean
  unfold Manager.branch at hb
  split at hb
  · obtain rfl := some.inj hb
    exact ⟨hinv, h.kept, h.labels, h.persist, h.reads, h.conversation, h.unwritten, h.written⟩
  · cases hb

theorem Survives.resetLeaf (h : Survives codec m kept) : Survives codec m.resetLeaf kept :=
  ⟨h.invariant.resetLeaf, h.kept, h.labels, h.persist, h.reads, h.conversation, h.unwritten, h.written⟩

/-! ## What an open gives back -/

structure Restored (m : Manager) (moved : Bool) (after : Manager) : Prop where
  entries : after.entries = m.entries
  labels : after.labelsById = m.labelsById
  labelTimestamps : after.labelTimestampsById = m.labelTimestampsById
  leaf : moved = false → after.leafId = m.leafId
  context : moved = false → after.buildSessionContext = m.buildSessionContext

theorem Survives.restored (h : Survives codec m kept) {moved : Bool}
    (hleaf : moved = false → m.leafId = m.entries.getLast?.map Entry.id) (file : Bytes) :
    Restored m moved (Manager.readSession m.header m.entries file) := by
  have hinv := h.invariant
  have hbyId : m.byId = indexOf m.entries := hinv.byId
  have htree : IsTree m.entries := hinv.tree
  obtain ⟨g1, -, -, -, -, g6, g7, g8, -⟩ := buildIndex_spec
    { Manager.newSession true m.header with entries := m.entries, flushed := true, file := some file } htree.nodup
  obtain ⟨hlabels, htimestamps⟩ := Prod.mk.inj (g8.trans h.labels.symm)
  refine ⟨g1, hlabels, htimestamps, fun hm => g7.trans (hleaf hm).symm, fun hm => ?_⟩
  have hcontext : ∀ (a b : Manager), a.entries = b.entries → a.leafId = b.leafId → a.byId = b.byId →
      a.buildSessionContext = b.buildSessionContext := by
    intro a b h1 h2 h3
    unfold Manager.buildSessionContext
    rw [h1, h2, h3]
  exact hcontext _ m g1 (g7.trans (hleaf hm).symm) (g6.trans hbyId.symm)

theorem Survives.crash (h : Survives codec m kept)
    (hf : m.flushed = true) {op : Manager.AppendOp} {id : EntryId} {time : Time} {body : EntryBody}
    (hb : m.bodyOf op id time = some body) (hr : codec.Reads (.entry (entryOf m op id time body))) (written : ℕ)
    (fresh : Header) :
    ∃ torn ended, m.append codec op id time (.stopsAfter written) = .threw torn ∧
      ReadsAs codec ended (m.fileEntries ++ tornEntries codec (.entry (entryOf m op id time body)) written) ∧
      Manager.reopen codec fresh torn.file = some (Manager.readSession m.header
        (m.entries ++ if (codec.stringify (.entry (entryOf m op id time body))).length ≤ written then
          [entryOf m op id time body] else []) ended) := by
  obtain ⟨file, hfile, hreads⟩ := h.written hf
  have hcrash := append_crashed codec m written h.persist hf hb
  rw [hfile, getD_some] at hcrash
  obtain ⟨ended, hload, hended⟩ := hreads.torn _ hr written
  refine ⟨_, ended, hcrash, hended, reopen_loaded fresh (hload.trans ?_)⟩
  unfold tornEntries
  split <;> simp

/-! ## Runs with crashes -/

/-- The sessions reached by operations, crashes during appends, and opening again; `kept` are the entries whose
lines are completely written, once there is a file, and `moved` tells whether the leaf was moved since. -/
inductive Lived (codec : Codec) : Manager → List Entry → Bool → Prop
  | new (header : Header) (hr : codec.Reads (.session header)) : Lived codec (Manager.newSession true header) [] false
  | append {m m' : Manager} {kept : List Entry} {moved : Bool} (h : Lived codec m kept moved) (op : Manager.AppendOp)
      (id : EntryId) (time : Time) (body : EntryBody) (hfresh : id ∉ ids m.entries) (hb : m.bodyOf op id time = some body)
      (hr : codec.Reads (.entry (entryOf m op id time body))) (ha : m.append codec op id time .succeeds = .done m') :
      Lived codec m' (kept ++ [entryOf m op id time body]) false
  | branch {m m' : Manager} {kept : List Entry} {moved : Bool} (h : Lived codec m kept moved) (branchFromId : EntryId)
      (hb : m.branch branchFromId = some m') : Lived codec m' kept true
  | resetLeaf {m : Manager} {kept : List Entry} {moved : Bool} (h : Lived codec m kept moved) :
      Lived codec m.resetLeaf kept true
  | reopened {m m' : Manager} {kept : List Entry} {moved : Bool} (h : Lived codec m kept moved) (fresh : Header)
      (hr : codec.Reads (.session fresh)) (ho : Manager.reopen codec fresh m.file = some m') :
      Lived codec m' (if m.flushed then kept else []) false
  | crashed {m torn m' : Manager} {kept : List Entry} {moved : Bool} (h : Lived codec m kept moved)
      (hf : m.flushed = true) (op : Manager.AppendOp) (id : EntryId) (time : Time) (body : EntryBody)
      (hfresh : id ∉ ids m.entries) (hb : m.bodyOf op id time = some body)
      (hr : codec.Reads (.entry (entryOf m op id time body))) (written : ℕ) (fresh : Header)
      (ht : m.append codec op id time (.stopsAfter written) = .threw torn)
      (ho : Manager.reopen codec fresh torn.file = some m') :
      Lived codec m' (kept ++ if (codec.stringify (.entry (entryOf m op id time body))).length ≤ written then
        [entryOf m op id time body] else []) false

/-- Where an append crashed, the open reads the session before it, or, with a line that was complete, after it. -/
theorem Survives.crashed (h : Survives codec m kept)
    (hf : m.flushed = true) {op : Manager.AppendOp} {id : EntryId} {time : Time} {body : EntryBody}
    (hfresh : id ∉ ids m.entries) (hb : m.bodyOf op id time = some body)
    (hr : codec.Reads (.entry (entryOf m op id time body))) (written : ℕ) (fresh : Header) :
    ∃ torn before file, m.append codec op id time (.stopsAfter written) = .threw torn ∧
      Manager.reopen codec fresh torn.file = some (Manager.readSession before.header before.entries file) ∧
      ReadsAs codec file before.fileEntries ∧ before.flushed = true ∧
      ((written < (codec.stringify (.entry (entryOf m op id time body))).length ∧ before = m ∧ Survives codec before kept) ∨
        ((codec.stringify (.entry (entryOf m op id time body))).length ≤ written ∧
          m.append codec op id time .succeeds = .done before ∧ before.leafId = some id ∧
          Survives codec before (kept ++ [entryOf m op id time body]))) := by
  obtain ⟨torn, ended, ht, hended, ho⟩ := h.crash hf hb hr written fresh
  unfold tornEntries at hended
  split at ho
  · rename_i hlen
    rw [if_pos hlen] at hended
    obtain ⟨before, ha⟩ : ∃ before, m.append codec op id time .succeeds = .done before :=
      ⟨_, append_flushed codec m h.persist hf hb⟩
    obtain ⟨hs, hleaf, hflushed⟩ := h.append hfresh hb hr ha
    obtain ⟨body', hb', hentries, -, -, hheader, -⟩ := append_spec ha
    obtain rfl : body' = body := some.inj (hb'.symm.trans hb)
    have hall : before.entries = m.entries ++ [entryOf m op id time body'] := hentries
    have hfileEntries : before.fileEntries = m.fileEntries ++ [.entry (entryOf m op id time body')] := by
      unfold Manager.fileEntries
      rw [hall, hheader]
      simp
    rw [← hall, ← hheader] at ho
    exact ⟨torn, before, ended, ht, ho, hfileEntries ▸ hended, hflushed hf, Or.inr ⟨hlen, ha, hleaf, hs⟩⟩
  · rename_i hlen
    rw [if_neg hlen, append_nil] at hended
    rw [append_nil] at ho
    exact ⟨torn, m, ended, ht, ho, hended, hf, Or.inl ⟨by omega, rfl, h⟩⟩

theorem Lived.survives {moved : Bool} (h : Lived codec m kept moved) :
    Survives codec m kept ∧ (moved = false → m.leafId = m.entries.getLast?.map Entry.id) := by
  have hread : ∀ (before : Manager) (file : Bytes), IsTree before.entries →
      (Manager.readSession before.header before.entries file).leafId =
        (Manager.readSession before.header before.entries file).entries.getLast?.map Entry.id := by
    intro before file htree
    obtain ⟨g1, -, -, -, -, -, g7, -⟩ := buildIndex_spec
      { Manager.newSession true before.header with entries := before.entries, flushed := true, file := some file }
      htree.nodup
    exact g7.trans (congrArg (fun entries => entries.getLast?.map Entry.id) g1.symm)
  induction h with
  | new header hr => exact ⟨survives_new codec header hr, fun _ => rfl⟩
  | append _ op id time body hfresh hb hr ha ih =>
    obtain ⟨hs, hleaf, -⟩ := ih.1.append hfresh hb hr ha
    refine ⟨hs, fun _ => ?_⟩
    rw [hleaf, hs.kept, getLast?_concat]
    rfl
  | branch _ branchFromId hb ih => exact ⟨ih.1.branch hb, fun hm => nomatch hm⟩
  | resetLeaf _ ih => exact ⟨ih.1.resetLeaf, fun hm => nomatch hm⟩
  | reopened _ fresh hr ho ih =>
    rcases ih.1.reopen fresh with ⟨hf, hnew⟩ | ⟨hf, file, hfile, hread'⟩
    · obtain rfl := some.inj (ho.symm.trans hnew)
      rw [hf]
      exact ⟨survives_new codec fresh hr, fun _ => rfl⟩
    · obtain rfl := some.inj (ho.symm.trans hread')
      rw [hf]
      exact ⟨ih.1.read hf file hfile, fun _ => hread _ file ih.1.invariant.tree⟩
  | crashed _ hf op id time body hfresh hb hr written fresh ht ho ih =>
    obtain ⟨torn', before, file, ht', ho', hfile, hflushed, hcases⟩ := ih.1.crashed hf hfresh hb hr written fresh
    obtain rfl : _ = torn' := by
      have hsame := ht.symm.trans ht'
      injection hsame
    obtain rfl := some.inj (ho.symm.trans ho')
    rcases hcases with ⟨hlen, rfl, hs⟩ | ⟨hlen, -, -, hs⟩
    · rw [if_neg (by omega), append_nil]
      exact ⟨hs.read hflushed file hfile, fun _ => hread _ file hs.invariant.tree⟩
    · rw [if_pos hlen]
      exact ⟨hs.read hflushed file hfile, fun _ => hread _ file hs.invariant.tree⟩

/-- Session files survive crashes: an open never fails, and gives the entries whose lines are complete, with their
labels, and the leaf and context of the last append. -/
theorem sessions_survive (codec : Codec) (m : Manager) (kept : List Entry) (moved : Bool) (h : Lived codec m kept moved)
    (fresh : Header) :
    m.entries = kept ∧
      (m.hasConversation = true → ∃ after, Manager.reopen codec fresh m.file = some after ∧ Restored m moved after) ∧
      (m.hasConversation = false → Manager.reopen codec fresh m.file = some (Manager.newSession true fresh)) ∧
      ∀ (op : Manager.AppendOp) (id : EntryId) (time : Time) (body : EntryBody) (written : ℕ), id ∉ ids m.entries →
        m.hasConversation = true → m.bodyOf op id time = some body → codec.Reads (.entry (entryOf m op id time body)) →
        ∃ torn after, m.append codec op id time (.stopsAfter written) = .threw torn ∧
          Manager.reopen codec fresh torn.file = some after ∧
          ((written < (codec.stringify (.entry (entryOf m op id time body))).length ∧ Restored m moved after) ∨
            ((codec.stringify (.entry (entryOf m op id time body))).length ≤ written ∧
              ∃ before, m.append codec op id time .succeeds = .done before ∧ Restored before false after)) := by
  obtain ⟨hs, hleaf⟩ := h.survives
  refine ⟨hs.kept, ?_, ?_, ?_⟩
  · intro hc
    rcases hs.reopen fresh with ⟨hf, -⟩ | ⟨-, file, -, ho⟩
    · rw [← hs.conversation, hf] at hc
      cases hc
    · exact ⟨_, ho, hs.restored hleaf file⟩
  · intro hc
    rcases hs.reopen fresh with ⟨-, ho⟩ | ⟨hf, -⟩
    · exact ho
    · rw [← hs.conversation, hf] at hc
      cases hc
  · intro op id time body written hfresh hc hb hr
    obtain ⟨torn, before, file, ht, ho, -, -, hcases⟩ := hs.crashed (hs.conversation.trans hc) hfresh hb hr written fresh
    refine ⟨torn, _, ht, ho, ?_⟩
    rcases hcases with ⟨hlen, rfl, -⟩ | ⟨hlen, ha, hid, hs'⟩
    · exact Or.inl ⟨hlen, hs.restored hleaf file⟩
    · refine Or.inr ⟨hlen, before, ha, hs'.restored (fun _ => ?_) file⟩
      rw [hid, hs'.kept, getLast?_concat]
      rfl

/-- A thinking level that no message follows is not written. -/
theorem level_not_written : ∃ m after,
    (Manager.newSession true noteHeader).append noteCodec (.thinkingLevelChange (js "high")) (js "e1") 0 .succeeds =
      .done m ∧
    Manager.reopen noteCodec noteHeader m.file = some after ∧ m.leafId = some (js "e1") ∧ after.leafId = none ∧
    m.buildSessionContext.thinkingLevel = js "high" ∧ after.buildSessionContext.thinkingLevel = js "off" :=
  ⟨_, _, rfl, rfl, rfl, rfl, rfl, rfl⟩

/-- The first note and its label, written. -/
def labelledNote : Manager :=
  { noteSession with
    entries := [noteEntry, noteLabel], byId := indexOf [noteEntry, noteLabel], leafId := some (js "l1")
    file := some (noteCodec.line (.session noteHeader) ++ noteCodec.line (.entry noteEntry) ++
      noteCodec.line (.entry noteLabel)) }

theorem labelledNote_lived : Lived noteCodec labelledNote [noteEntry, noteLabel] false := by
  refine .append (.append (.new noteHeader (noteCodec_reads _ ?_)) (.message noteMessage) (js "e1") 0 _ ?_ rfl
    (noteCodec_reads _ ?_) rfl) (.labelChange (js "e1") (some (js "start"))) (js "l1") 0 _ ?_ rfl
    (noteCodec_reads _ ?_) rfl
  · exact mem_cons_self
  · decide
  · exact mem_of_getElem? (i := 5) rfl
  · decide
  · exact mem_of_getElem? (i := 2) rfl

/-- The write of a second note stops after twelve bytes, the session is opened and the note written again. -/
theorem sessions_survive_note : ∃ torn opened m after,
    labelledNote.append noteCodec (.message noteMessage) (js "e2") 0 (.stopsAfter 12) = .threw torn ∧
    Manager.reopen noteCodec noteHeader torn.file = some opened ∧ opened.entries = [noteEntry, noteLabel] ∧
    opened.append noteCodec (.message noteMessage) (js "e2") 0 .succeeds = .done m ∧
    m.entries = [noteEntry, noteLabel, secondNote] ∧
    Manager.reopen noteCodec noteHeader m.file = some after ∧ Restored m false after := by
  have hreads : noteCodec.Reads (.entry secondNote) := noteCodec_reads _ (mem_of_getElem? (i := 3) rfl)
  have hentry : entryOf labelledNote (.message noteMessage) (js "e2") 0 (.message noteMessage) = secondNote := rfl
  have hshort : ¬(noteCodec.stringify (.entry secondNote)).length ≤ 12 := by decide +kernel
  have hbody : labelledNote.bodyOf (.message noteMessage) (js "e2") 0 = some (.message noteMessage) := rfl
  obtain ⟨torn, ended, htorn, -, hopen⟩ := labelledNote_lived.survives.1.crash rfl hbody hreads 12 noteHeader
  have hlived := labelledNote_lived.crashed rfl (.message noteMessage) (js "e2") 0 (.message noteMessage) (by decide) hbody
    hreads 12 noteHeader htorn hopen
  rw [hentry, if_neg hshort, append_nil] at hopen hlived
  have hfresh : js "e2" ∉ ids [noteEntry, noteLabel] := by decide
  have hagain := hlived.append (.message noteMessage) (js "e2") 0 (.message noteMessage) hfresh rfl hreads rfl
  obtain ⟨after, hafter, hrestored⟩ := (sessions_survive noteCodec _ _ _ hagain noteHeader).2.1 rfl
  exact ⟨torn, _, _, after, htorn, hopen, rfl, rfl, rfl, hafter, hrestored⟩

end PiAgent.Session
