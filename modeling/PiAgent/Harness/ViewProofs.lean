import PiAgent.Harness.ViewDocuments
import PiAgent.Harness.ViewEntries

/-! # A mount agrees with storage -/

namespace PiAgent.Harness

open Function List Assoc Durable Delta JsonValue

/-! ## A new mount -/

def visibleAscending (s : State) (id : Id) : List EntryRecord := (bounded s id none none).reverse

section Build

variable (s : State) (hs : Sound s) (ht : Tree s) (id : Id) (record : ConversationRecord)
  (hid : s.conversations id = some record)

include hs ht hid

theorem mem_visibleAscending (entry : EntryRecord) : entry ∈ visibleAscending s id ↔ Visible s id entry := by
  unfold visibleAscending
  rw [mem_reverse, mem_bounded s hs ht id record hid]
  exact ⟨fun h => h.1, fun h => ⟨h, rfl, rfl⟩⟩

theorem visibleAscending_sorted : (visibleAscending s id).Pairwise (fun a b => a.id < b.id) :=
  pairwise_reverse.mpr (bounded_sorted s hs ht id record hid none none)

theorem captureContextBounds_eq : captureContextBounds s id = .ok
    ((visibleAscending s id).getLast?.map (fun newest => ⟨latestMarker (visibleAscending s id), newest.id⟩)) := by
  obtain ⟨values, p, hp, hof, hvalues⟩ := scanEntries_page s hs ht ⟨id, none, none, none⟩ 1 record hid .descending
    none rfl
  have hall : values = bounded s id none none := values_unique s ⟨id, none, none, none⟩ .descending none values _
    hvalues ⟨fun entry => by
      rw [mem_bounded s hs ht id record hid]
      exact ⟨fun h => ⟨h.1, rfl, rfl, by simp⟩, fun h => ⟨h.1, rfl, rfl⟩⟩,
      bounded_sorted s hs ht id record hid none none⟩
  have hfirst : p.items.head? = (visibleAscending s id).getLast? := by
    unfold visibleAscending
    rw [hof.items, hall, getLast?_reverse]
    cases bounded s id none none <;> rfl
  unfold captureContextBounds
  rw [hp]
  simp only [hfirst]
  cases hlast : (visibleAscending s id).getLast? with
  | none => rfl
  | some newest =>
    have hsorted := visibleAscending_sorted s hs ht id record hid
    have hmax : ∀ entry, Visible s id entry → atMost (some newest.id) entry.id = true := by
      intro entry hv
      have hmem := (mem_visibleAscending s hs ht id record hid entry).mpr hv
      obtain ⟨before, hbefore⟩ := getLast?_eq_some_iff.mp hlast
      rw [hbefore] at hmem hsorted
      rcases mem_append.mp hmem with hm | hm
      · exact decide_eq_true (le_of_lt ((pairwise_append.mp hsorted).2.2 entry hm newest (by simp)))
      · rw [mem_singleton.mp hm]
        exact decide_eq_true (le_refl newest.id)
    obtain ⟨n, hup⟩ := ht.rooted id record hid
    have hlatest := headFrom_latest s hs ht id n hup _ (ancestry_lt s hs id n hup) (some newest.id)
    have hfound : headFrom s s.conversationIds.length id (some newest.id) = latestMarker (visibleAscending s id) := by
      cases hf : headFrom s s.conversationIds.length id (some newest.id) with
      | none =>
        rw [hf] at hlatest
        symm
        unfold latestMarker
        rw [find?_eq_none]
        intro entry hentry
        have hv := (mem_visibleAscending s hs ht id record hid entry).mp (mem_reverse.mp hentry)
        simp [hlatest entry hv (hmax entry hv)]
      | some marker =>
        rw [hf] at hlatest
        obtain ⟨⟨hv, hh, -⟩, hnewest⟩ := hlatest
        refine (latestMarker_eq _ hsorted marker
          ((mem_visibleAscending s hs ht id record hid marker).mpr hv) hh (fun entry he hhe => ?_)).symm
        have hve := (mem_visibleAscending s hs ht id record hid entry).mp he
        exact hnewest entry hve hhe (hmax entry hve)
    unfold findLatestHeadMarker
    rw [hid]
    simp only [Option.isNone_some, Bool.false_eq_true, if_false, hfound, Option.map_some]

theorem activeEntries_eq : ∃ n, ∀ fuel, n < fuel → activeEntries fuel s id
      ((visibleAscending s id).getLast?.map (fun newest => ⟨latestMarker (visibleAscending s id), newest.id⟩)) =
    some (.ok (activeOf (visibleAscending s id))) := by
  have hsorted := visibleAscending_sorted s hs ht id record hid
  cases hlast : (visibleAscending s id).getLast? with
  | none =>
    rw [getLast?_eq_none_iff.mp hlast]
    exact ⟨0, fun fuel _ => rfl⟩
  | some newest =>
    obtain ⟨before, hbefore⟩ := getLast?_eq_some_iff.mp hlast
    have hmax : ∀ entry ∈ visibleAscending s id, entry.id ≤ newest.id := by
      intro entry hmem
      rw [hbefore] at hmem hsorted
      rcases mem_append.mp hmem with hm | hm
      · exact le_of_lt ((pairwise_append.mp hsorted).2.2 entry hm newest (by simp))
      · rw [mem_singleton.mp hm]
    let query := rangeQuery id ⟨latestMarker (visibleAscending s id), newest.id⟩
    obtain ⟨items, hpages, hfuel⟩ := pages_end query SCAN_PAGE_SIZE s hs ht record hid .descending _ none rfl
      (fun values hv => values_length s hs ht query record hid .descending none values hv)
    refine ⟨(bounded s id none none).length, fun fuel hf => ?_⟩
    have hvalues := pages_values query SCAN_PAGE_SIZE (by decide) s s none items hpages .descending hs ht rfl
    have hitems : items.reverse =
        (visibleAscending s id).filter (fun entry => atLeast query.minEntryId entry.id) := by
      have hvalues' : Values s query .descending none
          ((visibleAscending s id).filter (fun entry => atLeast query.minEntryId entry.id)).reverse := by
        refine ⟨fun entry => ?_, pairwise_reverse.mpr (hsorted.filter _)⟩
        rw [mem_reverse, mem_filter, mem_visibleAscending s hs ht id record hid]
        constructor
        · rintro ⟨hv, hl⟩
          have hmem := (mem_visibleAscending s hs ht id record hid entry).mpr hv
          exact ⟨hv, decide_eq_true (hmax entry hmem), hl, by simp⟩
        · rintro ⟨hv, hw⟩
          exact ⟨hv, hw.atLeast⟩
      rw [values_unique s query .descending none items _ hvalues hvalues', reverse_reverse]
    unfold activeEntries
    simp only [Option.map_some]
    rw [hfuel fuel hf]
    simp only [Option.map_some, Except.map, hitems]
    congr 2
    unfold activeOf selectActive
    cases hm : latestMarker (visibleAscending s id) with
    | none =>
      refine filter_eq_self.mpr (fun entry _ => ?_)
      simp [query, rangeQuery, hm, atLeast]
    | some marker =>
      obtain ⟨-, target, htarget⟩ := latestMarker_some _ marker hm
      simp only [filter_filter, htarget, Option.getD_some]
      congr 1
      refine filter_congr (fun entry _ => ?_)
      simp [query, rangeQuery, hm, htarget, atLeast, activeFrom]

end Build

def setLoaded {α : Type} (documents : Documents) (f : Loaded → α) (l : List (JsString × α)) (kind : JsString) :
    List (JsString × α) :=
  match documents kind with
  | none => l
  | some loaded => set l kind (f loaded)

theorem get?_setLoaded {α : Type} (documents : Documents) (f : Loaded → α) (kinds : List JsString)
    (l : List (JsString × α))
    (hl : ∀ kind, get? l kind = none ∨ get? l kind = (documents kind).map f) (kind : JsString) :
    get? (kinds.foldl (setLoaded documents f) l) kind =
      if kind ∈ kinds then (documents kind).map f else get? l kind := by
  induction kinds generalizing l with
  | nil => rfl
  | cons first kinds ih =>
    have hset : ∀ k, get? (setLoaded documents f l first) k =
        if first = k then (documents k).map f else get? l k := by
      intro k
      unfold setLoaded
      cases hd : documents first with
      | none =>
        by_cases hk : first = k
        · subst hk
          rcases hl first with h | h <;> simp [h, hd]
        · simp [hk]
      | some loaded =>
        simp only [get?_set]
        by_cases hk : first = k
        · subst hk
          simp [hd]
        · simp [hk]
    rw [foldl_cons, ih (setLoaded documents f l first) (fun k => ?_), hset kind]
    · by_cases hk : first = kind
      · subst hk
        simp
      · simp [hk, Ne.symm hk]
    · rw [hset k]
      split
      · exact .inr rfl
      · exact hl k

theorem mountDocument_fold (documents : Documents) (kinds : List JsString) (mount : Mount) :
    kinds.foldl (mountDocument documents) mount =
      ⟨{ mount.value with docs := kinds.foldl (setLoaded documents Loaded.value) mount.value.docs },
        kinds.foldl (setLoaded documents (fun loaded => ⟨loaded.id, loaded.version⟩)) mount.docs⟩ := by
  induction kinds generalizing mount with
  | nil => rfl
  | cons kind kinds ih =>
    rw [foldl_cons, foldl_cons, foldl_cons, ih]
    unfold mountDocument setLoaded
    cases documents kind <;> rfl

theorem shows_iff (docs : List (JsString × JsonValue)) (incarnations : List (JsString × Incarnation))
    (documents : Documents) : Shows docs incarnations documents ↔
    (∀ kind, get? docs kind = if kind ∈ MOUNTED_KINDS then (documents kind).map Loaded.value else none) ∧
    ∀ kind, get? incarnations kind = if kind ∈ MOUNTED_KINDS then
      (documents kind).map (fun loaded => ⟨loaded.id, loaded.version⟩) else none := by
  constructor
  · intro h
    refine ⟨fun kind => ?_, fun kind => ?_⟩
    · split
      · exact h.value kind ‹_›
      · exact (h.other kind ‹_›).1
    · split
      · exact h.incarnation kind ‹_›
      · exact (h.other kind ‹_›).2
  · rintro ⟨hv, hi⟩
    refine ⟨fun kind hk => by rw [hv, if_pos hk], fun kind hk => by rw [hi, if_pos hk], fun kind hk => ?_⟩
    rw [hv, hi, if_neg hk, if_neg hk]
    exact ⟨rfl, rfl⟩

/-! ## Agreement -/

structure Mounted (s : State) (documents : Documents) (id : Id) (mount : Mount) : Prop where
  conversation : s.conversations id = some mount.value.conversation
  entries : mount.value.entries = activeOf (visibleAscending s id)
  shows : Shows mount.value.docs mount.docs documents

theorem build_mounted (s : State) (hs : Sound s) (ht : Tree s) (documents : Documents) (id : Id)
    (record : ConversationRecord) (hid : s.conversations id = some record) :
    ∃ n mount, Mounted s documents id mount ∧ ∀ fuel, n < fuel → build fuel s documents id = some (.ok mount) := by
  obtain ⟨n, hactive⟩ := activeEntries_eq s hs ht id record hid
  refine ⟨n, MOUNTED_KINDS.foldl (mountDocument documents) ⟨⟨record, activeOf (visibleAscending s id), []⟩, []⟩,
    ?_, fun fuel hf => ?_⟩
  · rw [mountDocument_fold]
    exact ⟨hid, rfl, (shows_iff _ _ _).mpr ⟨fun kind => get?_setLoaded documents _ MOUNTED_KINDS [] (by simp) kind,
      fun kind => get?_setLoaded documents _ MOUNTED_KINDS [] (by simp) kind⟩⟩
  · unfold build
    rw [hid, captureContextBounds_eq s hs ht id record hid]
    simp only
    rw [hactive fuel hf]
    rfl

structure Agrees (mount fresh : Mount) : Prop where
  conversation : mount.value.conversation = fresh.value.conversation
  entries : mount.value.entries = fresh.value.entries
  docs : ∀ kind, get? mount.value.docs kind = get? fresh.value.docs kind
  incarnations : ∀ kind, get? mount.docs kind = get? fresh.docs kind

theorem mounted_agrees (s : State) (documents : Documents) (id : Id) (mount fresh : Mount)
    (h : Mounted s documents id mount) (h' : Mounted s documents id fresh) : Agrees mount fresh := by
  obtain ⟨hv, hi⟩ := (shows_iff _ _ _).mp h.shows
  obtain ⟨hv', hi'⟩ := (shows_iff _ _ _).mp h'.shows
  refine ⟨?_, h.entries.trans h'.entries.symm, fun kind => (hv kind).trans (hv' kind).symm,
    fun kind => (hi kind).trans (hi' kind).symm⟩
  have := h.conversation
  rw [h'.conversation] at this
  exact (Option.some.inj this).symm

/-! ## One commit -/

structure Committed where
  commit : PreparedCommit
  documents : Documents
  changes : List Change

def entryWrites (id : Id) (writes : List StorageWrite) : List EntryRecord :=
  writes.filterMap fun
    | .entry entry => if entry.conversationId = id then some entry else none
    | _ => none

structure Publishes (s : State) (documents : Documents) (id : Id) (c : Committed) : Prop where
  accepted : Accepted s c.commit
  tree : Tree (s.applyPreparedCommit c.commit)
  newer : ∀ entry, .entry entry ∈ c.commit.writes → ∀ old, Visible s id old → old.id < entry.id
  notInherited : ∀ entry, .entry entry ∈ c.commit.writes → ∀ parent, s.parent id = some parent →
    parent.atEntry < entry.id
  ordered : (entryWrites id c.commit.writes).Pairwise (fun a b => a.id < b.id)
  entries : entriesOf id c.changes = entryWrites id c.commit.writes
  targets : TargetsOk (visibleAscending s id) (entriesOf id c.changes)
  documents : Published documents c.documents (mountedChanges id c.changes)

theorem mem_entryWrites (id : Id) (writes : List StorageWrite) (entry : EntryRecord) :
    entry ∈ entryWrites id writes ↔ .entry entry ∈ writes ∧ entry.conversationId = id := by
  unfold entryWrites
  rw [mem_filterMap]
  constructor
  · rintro ⟨write, hmem, hw⟩
    cases write with
    | entry value =>
      simp only at hw
      split at hw
      · cases hw
        exact ⟨hmem, ‹_›⟩
      · cases hw
    | _ => cases hw
  · rintro ⟨hmem, hc⟩
    exact ⟨.entry entry, hmem, by simp [hc]⟩

theorem visibleAscending_after (s : State) (hs : Sound s) (ht : Tree s) (documents : Documents) (id : Id)
    (c : Committed) (record : ConversationRecord) (hid : s.conversations id = some record)
    (h : Publishes s documents id c) :
    visibleAscending (s.applyPreparedCommit c.commit) id =
      visibleAscending s id ++ entryWrites id c.commit.writes := by
  have hs' := (applyPreparedCommit_applied s c.commit hs h.accepted).sound
  have hkept := applyPreparedCommit_kept s c.commit hs h.accepted
  have hid' := hkept.conversations id record hid
  refine sorted_unique .ascending _ _ (visibleAscending_sorted _ hs' h.tree id record hid') ?_ (fun entry => ?_)
  · refine pairwise_append.mpr ⟨visibleAscending_sorted s hs ht id record hid, h.ordered, fun old ho new hn => ?_⟩
    exact h.newer new ((mem_entryWrites id _ new).mp hn).1 old ((mem_visibleAscending s hs ht id record hid old).mp ho)
  · rw [mem_visibleAscending _ hs' h.tree id record hid', mem_append, mem_visibleAscending s hs ht id record hid,
      mem_entryWrites]
    constructor
    · intro hv
      obtain ⟨n, hup⟩ := ht.rooted id record hid
      rcases hkept.written entry.id entry (hv.stored _ id entry) with hold | hnew
      · exact .inl (commit_visible_back s c.commit hs h.accepted id n hup entry hv hold)
      · refine .inr ⟨hnew, ?_⟩
        rcases (visible_iff _ id entry).mp hv with ⟨-, hc⟩ | ⟨parent, hp, hle, -⟩
        · exact hc
        · rw [commit_parent s c.commit hs h.accepted id record hid] at hp
          exact absurd hle (not_le_of_gt (h.notInherited entry hnew parent hp))
    · rintro (hv | ⟨hnew, hc⟩)
      · exact commit_visible s c.commit hs h.accepted id entry hv
      · exact hc ▸ .own entry (applyPreparedCommit_entry s c.commit hs h.accepted entry hnew)

section Step

variable (entryJson : EntryRecord → JsonValue) (conversationJson : ConversationRecord → JsonValue)

theorem applyDocOps_eq (view : ConversationView) (ops : List Op) (docs : List (JsString × JsonValue))
    (h : Delta.apply (view.json entryJson conversationJson) ops =
      .ok (({ view with docs } : ConversationView).json entryJson conversationJson)) :
    applyDocOps entryJson conversationJson view ops = .ok { view with docs } := by
  have hget : get? [(js "conversation", conversationJson view.conversation),
      (js "entries", JsonValue.arr (view.entries.map entryJson)), (js "docs", JsonValue.obj docs)] (js "docs") =
      some (.obj docs) := by
    rw [get?_cons_ne _ _ _ _ (by decide), get?_cons_ne _ _ _ _ (by decide), get?_cons_self]
  unfold applyDocOps
  rw [h]
  simp only [ConversationView.json, hget]

theorem advance_mounted (s : State) (hs : Sound s) (ht : Tree s) (documents : Documents) (id : Id) (mount : Mount)
    (hback : HeadsBack (visibleAscending s id)) (hm : Mounted s documents id mount) (c : Committed)
    (h : Publishes s documents id c) :
    ∃ mount' ops, advance entryJson conversationJson id mount c.changes = .ok (mount', ops) ∧
      Mounted (s.applyPreparedCommit c.commit) c.documents id mount' ∧
      Delta.apply (mount.value.json entryJson conversationJson) ops =
        .ok (mount'.value.json entryJson conversationJson) := by
  have hid := hm.conversation
  have hid' := (applyPreparedCommit_kept s c.commit hs h.accepted).conversations id _ hid
  have hvisible := visibleAscending_after s hs ht documents id c _ hid h
  rw [← h.entries] at hvisible
  have hsorted : (visibleAscending s id ++ entriesOf id c.changes).Pairwise (fun a b => a.id < b.id) := by
    rw [← hvisible]
    exact visibleAscending_sorted _ (applyPreparedCommit_applied s c.commit hs h.accepted).sound h.tree id _ hid'
  obtain ⟨documents', hpart, ⟨docs', hshows, hdocOps⟩⟩ := changes_tracks entryJson conversationJson id mount.value
    documents c.documents c.changes h.documents [] c.changes rfl ⟨mount.docs, [], [], mount.value.entries⟩ documents
    (part_start documents c.documents) ⟨mount.value.docs, hm.shows, rfl⟩
  obtain ⟨hactive, hquiet, ops, hops, hentryOps⟩ := changes_active entryJson conversationJson id c.changes
    ⟨mount.docs, [], [], mount.value.entries⟩ (visibleAscending s id) hsorted hback h.targets hm.entries
  have hshows' : ∀ docs, docs = docs' →
      Shows docs (c.changes.foldl (advanceChange entryJson id) ⟨mount.docs, [], [], mount.value.entries⟩).docs c.documents := by
    rintro docs rfl
    have hsame := part_end documents c.documents _ documents' h.documents hpart
    refine ⟨fun kind hk => ?_, fun kind hk => ?_, hshows.other⟩
    · rw [← hsame kind hk]
      exact hshows.value kind hk
    · rw [← hsame kind hk]
      exact hshows.incarnation kind hk
  rw [← hvisible] at hactive
  unfold advance
  simp only
  split
  · rename_i hnil
    obtain ⟨hdocNil, hentryNil⟩ := append_eq_nil_iff.mp hnil
    rw [hdocNil] at hdocOps
    refine ⟨_, _, rfl, ⟨hid', ?_, hshows' _ ?_⟩, by rw [hnil]; rfl⟩
    · rw [← hactive]
      exact (hquiet hentryNil).symm
    · -- no operation: the documents are the same
      simp only [Delta.apply_nil, Except.ok.injEq, ConversationView.json, JsonValue.obj.injEq, List.cons.injEq,
        Prod.mk.injEq, true_and, and_true] at hdocOps
      exact hdocOps
  · rw [applyDocOps_eq entryJson conversationJson mount.value _ docs' hdocOps]
    refine ⟨_, _, rfl, ⟨hid', hactive, hshows' _ rfl⟩, ?_⟩
    rw [Delta.apply_append _ _ _ _ hdocOps, hops, nil_append]
    exact hentryOps { mount.value with docs := docs' }

end Step

/-! ## Runs -/

structure World where
  store : State
  documents : Documents
  mount : Mount

section Run

variable (entryJson : EntryRecord → JsonValue) (conversationJson : ConversationRecord → JsonValue)

def World.step (id : Id) (w : World) (c : Committed) : World × Except DeltaError (List Op) :=
  match advance entryJson conversationJson id w.mount c.changes with
  | .error e => (⟨w.store.applyPreparedCommit c.commit, c.documents, w.mount⟩, .error e)
  | .ok (mount, ops) => (⟨w.store.applyPreparedCommit c.commit, c.documents, mount⟩, .ok ops)

def conversationViews (id : Id) (start : World) : Machine World Committed (Except DeltaError (List Op)) where
  start := start
  step := World.step entryJson conversationJson id

def Built (s : State) (documents : Documents) (id : Id) (mount : Mount) : Prop :=
  ∃ n, ∀ fuel, n < fuel → build fuel s documents id = some (.ok mount)

def Rebuilds (id : Id) (w : World) : Prop :=
  ∃ fresh, Built w.store w.documents id fresh ∧ Agrees w.mount fresh

structure Good (id : Id) (w : World) : Prop where
  sound : Sound w.store
  tree : Tree w.store
  back : HeadsBack (visibleAscending w.store id)
  mounted : Mounted w.store w.documents id w.mount

theorem good_rebuilds (id : Id) (w : World) (h : Good id w) : Rebuilds id w := by
  obtain ⟨n, fresh, hfresh, hbuild⟩ := build_mounted w.store h.sound h.tree w.documents id _ h.mounted.conversation
  exact ⟨fresh, ⟨n, hbuild⟩, mounted_agrees _ _ id _ _ h.mounted hfresh⟩

theorem built_mounted (s : State) (hs : Sound s) (ht : Tree s) (documents : Documents) (id : Id) (mount : Mount)
    (h : Built s documents id mount) : Mounted s documents id mount := by
  obtain ⟨n, hn⟩ := h
  cases hid : s.conversations id with
  | none =>
    have := hn (n + 1) (Nat.lt_succ_self n)
    unfold build at this
    rw [hid] at this
    cases this
  | some record =>
    obtain ⟨m, fresh, hfresh, hm⟩ := build_mounted s hs ht documents id record hid
    have hboth := (hn (n + m + 1) (by omega)).symm.trans (hm (n + m + 1) (by omega))
    cases hboth
    exact hfresh

def Allows (id : Id) (w : World) (c : Committed) : Prop := Publishes w.store w.documents id c

theorem good_step (id : Id) (w : World) (c : Committed) (h : Good id w) (hc : Allows id w c) :
    Good id (World.step entryJson conversationJson id w c).1 ∧
    ∃ ops, (World.step entryJson conversationJson id w c).2 = .ok ops ∧
      Delta.apply (w.mount.value.json entryJson conversationJson) ops =
        .ok ((World.step entryJson conversationJson id w c).1.mount.value.json entryJson conversationJson) := by
  obtain ⟨mount', ops, hadvance, hmounted, happly⟩ := advance_mounted entryJson conversationJson w.store h.sound h.tree
    w.documents id w.mount h.back h.mounted c hc
  have hvisible := visibleAscending_after w.store h.sound h.tree w.documents id c _ h.mounted.conversation hc
  have hsound := (applyPreparedCommit_applied w.store c.commit h.sound hc.accepted).sound
  unfold World.step
  rw [hadvance]
  refine ⟨⟨hsound, hc.tree, ?_, hmounted⟩, ops, rfl, happly⟩
  dsimp only
  rw [hvisible, ← hc.entries]
  refine targets_headsBack _ _ ?_ h.back hc.targets
  rw [hc.entries, ← hvisible]
  exact visibleAscending_sorted _ hsound hc.tree id _
    ((applyPreparedCommit_kept w.store c.commit h.sound hc.accepted).conversations id _ h.mounted.conversation)

def Replays (id : Id) (w : World) (c : Committed) : Prop :=
  ∃ ops, (World.step entryJson conversationJson id w c).2 = .ok ops ∧
    Delta.apply (w.mount.value.json entryJson conversationJson) ops =
      .ok ((World.step entryJson conversationJson id w c).1.mount.value.json entryJson conversationJson)

theorem view_agrees (id : Id) (s : State) (hs : Sound s) (ht : Tree s)
    (hback : HeadsBack (visibleAscending s id)) (documents : Documents) (mount : Mount)
    (hbuilt : Built s documents id mount) (commits : List Committed)
    (h : (conversationViews entryJson conversationJson id ⟨s, documents, mount⟩).Allowed (Allows id)
      ⟨s, documents, mount⟩ commits) :
    (conversationViews entryJson conversationJson id ⟨s, documents, mount⟩).Always (Rebuilds id)
      ⟨s, documents, mount⟩ commits ∧
    ∀ before c after, commits = before ++ c :: after →
      Replays entryJson conversationJson id ((conversationViews entryJson conversationJson id
        ⟨s, documents, mount⟩).runFrom ⟨s, documents, mount⟩ before) c := by
  have hgood : Good id ⟨s, documents, mount⟩ := ⟨hs, ht, hback, built_mounted s hs ht documents id mount hbuilt⟩
  have halways := (conversationViews entryJson conversationJson id ⟨s, documents, mount⟩).always_of_allowed
    (fun w c hw hc => (good_step entryJson conversationJson id w c hw hc).1) hgood h
  refine ⟨halways.mono (fun w hw => good_rebuilds id w hw), fun before c after hsplit => ?_⟩
  subst hsplit
  exact (good_step entryJson conversationJson id _ c halways.at h.at).2

end Run

/-! ## A fork that is summarized, and a head that reaches back -/

def summaryCommit : Committed where
  commit := ⟨2, [.entry ⟨7, 2, some 6, .null⟩], []⟩
  documents := update (fun _ => none) (js "pi.live") (some ⟨10, 1, .obj []⟩)
  changes := [.document ⟨some 2, 10, js "pi.live", none, some 1, some (.obj []), []⟩, .entry ⟨7, 2, some 6, .null⟩]

theorem summary_publishes : Publishes forked (fun _ => none) 2 summaryCommit := by
  have hvisible : visibleAscending forked 2 =
      [⟨3, 1, some 3, .null⟩, ⟨4, 1, none, .null⟩, ⟨6, 2, none, .null⟩] := rfl
  have haccepted : Accepted forked summaryCommit.commit :=
    (prepareCommit_accepted forked [.entry ⟨7, 2, some 6, .null⟩] 2 summaryCommit.commit rfl).1
  have hwrites : ∀ entry, StorageWrite.entry entry ∈ summaryCommit.commit.writes → entry = ⟨7, 2, some 6, .null⟩ := by
    intro entry he
    cases mem_singleton.mp (show _ ∈ [StorageWrite.entry ⟨7, 2, some 6, .null⟩] from he)
    rfl
  refine ⟨haccepted, ?_, ?_, ?_, pairwise_singleton _ _, rfl, ?_, ?_⟩
  · exact forked_tree _ (applyPreparedCommit_invariant forked _ forked_invariant haccepted).sound [6, 7] rfl rfl
      (by decide)
  · intro entry he old hv
    rw [hwrites entry he]
    have hmem := (mem_visibleAscending forked forked_invariant.sound forked_isTree 2 _ rfl old).mpr hv
    rw [hvisible] at hmem
    simp only [mem_cons, not_mem_nil, or_false] at hmem
    rcases hmem with rfl | rfl | rfl <;> decide
  · intro entry he parent hp
    rw [hwrites entry he]
    cases hp
    decide
  · refine ⟨fun target htarget => ?_, trivial⟩
    cases htarget
    refine ⟨⟨⟨6, 2, none, .null⟩, by rw [hvisible]; simp, rfl⟩, fun marker hmarker bound hbound other _ _ hle => ?_⟩
    rw [hvisible] at hmarker
    cases hmarker
    cases hbound
    exact le_trans (by decide) hle
  · have hcs : mountedChanges 2 summaryCommit.changes =
        [⟨some 2, 10, js "pi.live", none, some 1, some (.obj []), []⟩] := rfl
    rw [hcs]
    refine ⟨nodup_singleton _, ?_, ?_, ?_, ?_, ?_⟩
    · rintro c hc hv
      rw [mem_singleton.mp hc] at hv
      cases hv
    · rintro c hc value hv
      rw [mem_singleton.mp hc] at hv ⊢
      cases hv
      exact ⟨1, rfl, rfl⟩
    · rintro c hc value hv loaded ⟨⟩
    · intro kind _ loaded ha _
      refine ⟨_, mem_singleton_self _, ?_, rfl⟩
      by_contra hne
      have hnone : (update (fun _ => none) (js "pi.live") (some ⟨10, 1, .obj []⟩) : Documents) kind = none :=
        update_of_ne (Ne.symm hne) _ _
      have : summaryCommit.documents kind = none := hnone
      rw [this] at ha
      cases ha
    · rintro kind _ loaded ⟨⟩

theorem view_agrees_forked : ∃ mount, Built forked (fun _ => none) 2 mount ∧
    (conversationViews (fun _ => .null) (fun _ => .null) 2 ⟨forked, fun _ => none, mount⟩).Always (Rebuilds 2)
      ⟨forked, fun _ => none, mount⟩ [summaryCommit] := by
  obtain ⟨n, mount, -, hbuild⟩ :=
    build_mounted forked forked_invariant.sound forked_isTree (fun _ => none) 2 _ rfl
  have hback : HeadsBack (visibleAscending forked 2) := by
    have hvisible : visibleAscending forked 2 =
        [⟨3, 1, some 3, .null⟩, ⟨4, 1, none, .null⟩, ⟨6, 2, none, .null⟩] := rfl
    rw [hvisible]
    intro entry he target hh
    simp only [mem_cons, not_mem_nil, or_false] at he
    rcases he with rfl | rfl | rfl <;> cases hh
    decide
  exact ⟨mount, ⟨n, hbuild⟩, (view_agrees _ _ 2 forked forked_invariant.sound forked_isTree hback (fun _ => none) mount
    ⟨n, hbuild⟩ [summaryCommit] ⟨summary_publishes, trivial⟩).1⟩

def resetState : State := State.empty.applyPreparedCommit
  ⟨1, [.conversation ⟨1, none, none⟩, .entry ⟨2, 1, none, .null⟩, .entry ⟨3, 1, some 3, .null⟩], []⟩

/-- A marker that targets entry 2 again: the mount does not have it any more, a new mount does. -/
theorem head_before_active : ∃ mount mount' ops fresh, build 2 resetState (fun _ => none) 1 = some (.ok mount) ∧
    advance (fun _ => .null) (fun _ => .null) 1 mount [.entry ⟨4, 1, some 2, .null⟩] = .ok (mount', ops) ∧
    build 2 (resetState.applyPreparedCommit ⟨2, [.entry ⟨4, 1, some 2, .null⟩], []⟩) (fun _ => none) 1 =
      some (.ok fresh) ∧
    ¬ Agrees mount' fresh := by
  refine ⟨⟨⟨⟨1, none, none⟩, [⟨3, 1, some 3, .null⟩], []⟩, []⟩, ⟨⟨⟨1, none, none⟩, [⟨4, 1, some 2, .null⟩], []⟩, []⟩, _,
    ⟨⟨⟨1, none, none⟩, [⟨4, 1, some 2, .null⟩, ⟨2, 1, none, .null⟩], []⟩, []⟩, rfl, rfl, rfl, fun h => ?_⟩
  have hlength := congrArg List.length h.entries
  cases hlength

end PiAgent.Harness
