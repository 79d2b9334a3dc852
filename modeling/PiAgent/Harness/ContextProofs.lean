import PiAgent.Harness.Context
import PiAgent.Harness.ViewProofs

/-! # Incremental context is fresh context -/

namespace PiAgent.Harness

open Durable

/-! ## Settled messages -/

def Parted (settled unsettled all : List Message) : Prop :=
  ∀ more, settled ++ orderToolResults (unsettled ++ more) = orderToolResults (all ++ more)

theorem Parted.append (settled unsettled all added : List Message) (h : Parted settled unsettled all) :
    Parted settled (unsettled ++ added) (all ++ added) := by
  intro more
  rw [List.append_assoc, List.append_assoc]
  exact h (added ++ more)

theorem Parted.messages (settled unsettled all : List Message) (h : Parted settled unsettled all) :
    settled ++ orderToolResults unsettled = orderToolResults all := by
  simpa using h []

theorem lastAssistantIndex_some (messages : List Message) (index : ℕ) (h : lastAssistantIndex messages = some index) :
    (messages.drop index).head?.any Message.isAssistant = true := by
  induction messages generalizing index with
  | nil => cases h
  | cons message rest ih =>
    unfold lastAssistantIndex at h
    split at h
    · rename_i i hi
      obtain rfl := Option.some.inj h
      exact ih i hi
    · split at h
      · rename_i hassistant
        obtain rfl := Option.some.inj h
        exact hassistant
      · cases h

theorem Parted.settle (settled unsettled all : List Message) (h : Parted settled unsettled all) :
    Parted (settle settled unsettled).1 (settle settled unsettled).2 all := by
  unfold Harness.settle
  split
  · exact h
  · exact h
  · rename_i last hlast
    intro more
    have hfirst := lastAssistantIndex_some unsettled (last + 1) hlast
    have hstarts : (unsettled.drop (last + 1) ++ more).head?.any Message.isAssistant = true := by
      rw [List.head?_append]
      cases hd : (unsettled.drop (last + 1)).head? with
      | none =>
        rw [hd] at hfirst
        cases hfirst
      | some first =>
        rw [hd] at hfirst
        exact hfirst
    rw [← h more, List.append_assoc, ← orderToolResults_assistant _ _ hstarts, ← List.append_assoc,
      List.take_append_drop]

/-! ## Entries within bounds -/

def within (s : State) (id : Id) (lower : Option Id) (upper : Id) : List EntryRecord :=
  (bounded s id lower (some upper)).reverse

structure Known (s : State) (id : Id) : Prop where
  sound : Sound s
  tree : Tree s
  found : ∃ record, s.conversations id = some record

section Within

variable (s : State) (id : Id) (hk : Known s id)

include hk

theorem mem_within (lower : Option Id) (upper : Id) (entry : EntryRecord) :
    entry ∈ within s id lower upper ↔ Visible s id entry ∧ entry.id ≤ upper ∧ atLeast lower entry.id = true := by
  obtain ⟨record, hid⟩ := hk.found
  unfold within
  rw [List.mem_reverse, mem_bounded s hk.sound hk.tree id record hid]
  simp [atMost]

theorem within_sorted (lower : Option Id) (upper : Id) : (within s id lower upper).Pairwise (fun a b => a.id < b.id) := by
  obtain ⟨record, hid⟩ := hk.found
  exact List.pairwise_reverse.mpr (bounded_sorted s hk.sound hk.tree id record hid lower (some upper))

theorem within_unique (lower : Option Id) (upper : Id) (entries : List EntryRecord)
    (hsorted : entries.Pairwise (fun a b => a.id < b.id))
    (hmem : ∀ entry, entry ∈ entries ↔ Visible s id entry ∧ entry.id ≤ upper ∧ atLeast lower entry.id = true) :
    entries = within s id lower upper :=
  sorted_unique .ascending entries _ hsorted (within_sorted s id hk lower upper)
    (fun entry => (hmem entry).trans (mem_within s id hk lower upper entry).symm)

end Within

theorem visible_upTo (s s' : State) (id : Id) (hgrows : Grows s s' id) (tail : EntryRecord) (htail : Visible s id tail)
    (entry : EntryRecord) : (Visible s' id entry ∧ entry.id ≤ tail.id) ↔ (Visible s id entry ∧ entry.id ≤ tail.id) := by
  constructor
  · rintro ⟨hv, hle⟩
    rcases hgrows.newer entry hv with hold | hnew
    · exact ⟨hold, hle⟩
    · exact absurd (hnew tail htail) (not_lt_of_ge hle)
  · rintro ⟨hv, hle⟩
    exact ⟨hgrows.kept entry hv, hle⟩

/-! ## Scans off the line -/

def Scans (s : State) (id : Id) (scanRange : ScanRange) : Prop :=
  ∀ query, query.conversationId = id → query.order = none → ∃ s' t items, Grows s s' id ∧ Sound s' ∧ Tree s' ∧
    Pages query SCAN_PAGE_SIZE s' none items t ∧ scanRange query = items.reverse

theorem scan_within (s : State) (id : Id) (hk : Known s id) (scanRange : ScanRange) (hscan : Scans s id scanRange)
    (lower : Option Id) (tail : EntryRecord) (htail : Visible s id tail) :
    scanRange ⟨id, none, lower, some tail.id⟩ = within s id lower tail.id := by
  obtain ⟨s', t, items, hgrows, hs, ht, hpages, heq⟩ := hscan ⟨id, none, lower, some tail.id⟩ rfl rfl
  have hvalues := pages_values _ SCAN_PAGE_SIZE (by decide) s' t none items hpages .descending hs ht rfl
  rw [heq]
  refine within_unique s id hk lower tail.id _ (List.pairwise_reverse.mpr hvalues.sorted) (fun entry => ?_)
  rw [List.mem_reverse, hvalues.mem, ← and_assoc, ← visible_upTo s s' id hgrows tail htail]
  constructor
  · rintro ⟨hv, hw⟩
    have hle := hw.atMost
    simp only [atMost, Option.all_some, decide_eq_true_eq] at hle
    exact ⟨⟨hv, hle⟩, hw.atLeast⟩
  · rintro ⟨⟨hv, hle⟩, hl⟩
    exact ⟨hv, by simpa [atMost] using hle, hl, by simp⟩

/-! ## Captured bounds -/

structure Bounds (s : State) (id : Id) (bounds : ContextBounds) : Prop where
  tail : ∃ entry, Visible s id entry ∧ entry.id = bounds.tail
  head : LatestHead s id (some bounds.tail) bounds.head

section Captured

variable (s : State) (id : Id) (hk : Known s id)

include hk

theorem findLatestHeadMarker_latest (upper head : _) (h : findLatestHeadMarker s id upper = .ok head) :
    LatestHead s id upper head := by
  obtain ⟨record, hid⟩ := hk.found
  obtain ⟨n, hup⟩ := hk.tree.rooted id record hid
  unfold findLatestHeadMarker at h
  rw [hid] at h
  obtain rfl := Except.ok.inj h
  exact headFrom_latest s hk.sound hk.tree id n hup _ (ancestry_lt s hk.sound id n hup) upper

theorem captured_bounds (at' : Option Id) (bounds : ContextBounds)
    (h : captureContextBoundsAt s id at' = .ok (some bounds)) : Bounds s id bounds := by
  obtain ⟨record, hid⟩ := hk.found
  unfold captureContextBoundsAt at h
  split at h
  · rcases hc : captureContextBounds s id with e | found
    · rw [hc] at h
      cases h
    rw [hc] at h
    obtain rfl : found = some bounds := Except.ok.inj h
    unfold captureContextBounds at hc
    split at hc
    · cases hc
    rename_i page hpage
    split at hc
    · cases hc
    rename_i newest hnewest
    split at hc
    · cases hc
    rename_i head hhead
    obtain rfl := Option.some.inj (Except.ok.inj hc)
    obtain ⟨values, hof, hvalues⟩ := page_values ⟨id, none, none, none⟩ 1 s hk.sound hk.tree .descending none page
      record hid rfl hpage
    have hmem : newest ∈ page.items := List.mem_of_head? hnewest
    rw [hof.items] at hmem
    exact ⟨⟨newest, ((hvalues.mem newest).mp (List.mem_of_mem_take hmem)).1, rfl⟩,
      findLatestHeadMarker_latest s id hk _ _ hhead⟩
  · rename_i tail
    split at h
    · cases h
    · cases h
    rename_i entry hentry
    split at h
    · cases h
    rename_i head hhead
    obtain rfl := Option.some.inj (Except.ok.inj h)
    unfold visibleEntry at hentry
    rw [visibleEntries_eq s id _ _ record hid] at hentry
    have hmem := List.mem_of_head? (Except.ok.inj hentry)
    obtain ⟨hv, hu, hl⟩ := (mem_bounded s hk.sound hk.tree id record hid _ _ entry).mp hmem
    simp only [atMost, atLeast, Option.all_some, decide_eq_true_eq] at hu hl
    exact ⟨⟨entry, hv, le_antisymm hu hl⟩, findLatestHeadMarker_latest s id hk _ _ hhead⟩

theorem bounds_back (hback : HeadsBack (visibleAscending s id)) (bounds : ContextBounds) (hb : Bounds s id bounds)
    (lower : Id)
    (h : bounds.head.bind EntryRecord.head = some lower) : lower ≤ bounds.tail := by
  obtain ⟨marker, hmarker, htarget⟩ := Option.bind_eq_some_iff.mp h
  have hlatest := hb.head
  rw [hmarker] at hlatest
  obtain ⟨⟨hv, -, hle⟩, -⟩ := hlatest
  simp only [atMost, Option.all_some, decide_eq_true_eq] at hle
  obtain ⟨record, hid⟩ := hk.found
  have hmem := (mem_visibleAscending s hk.sound hk.tree id record hid marker).mpr hv
  exact le_trans (hback marker hmem lower htarget) hle

end Captured

theorem heads_eq (s : State) (id : Id) (bounds bounds' : ContextBounds) (hb : Bounds s id bounds) (hb' : Bounds s id bounds')
    (h : bounds.head.map EntryRecord.id = bounds'.head.map EntryRecord.id) : bounds.head = bounds'.head := by
  have hlatest := hb.head
  have hlatest' := hb'.head
  rcases hh : bounds.head with _ | marker <;> rcases hh' : bounds'.head with _ | marker'
  · rfl
  · rw [hh, hh'] at h
    cases h
  · rw [hh, hh'] at h
    cases h
  · rw [hh, hh'] at h
    rw [hh] at hlatest
    rw [hh'] at hlatest'
    have hid : marker.id = marker'.id := Option.some.inj h
    have hstored := hlatest.1.1.stored s id marker
    rw [hid, hlatest'.1.1.stored s id marker'] at hstored
    exact hstored.symm

/-! ## Ranges -/

variable (F : EntryFields)

structure Ranged (s : State) (id : Id) (range : ContextRange) : Prop where
  bounds : Bounds s id range.bounds
  entries : range.entries = within s id (range.bounds.head.bind EntryRecord.head) range.bounds.tail
  view : range.view = (deriveRange F range.bounds range.entries).view
  edited : range.edited = (editsOf F range.entries).map ContextEdit.target
  parted : Parted range.settled range.unsettled range.view.contributions.flatten

theorem deriveRange_view (bounds : ContextBounds) (entries : List EntryRecord) :
    (deriveRange F bounds entries).view =
      { head := bounds.head
        entries := selectActive bounds.head entries
        contributions := (selectActive bounds.head entries).map
          (fun entry => contribute F entry (editFor (editsOf F entries) entry.id))
        messages := leadWithSystem (orderToolResults ((selectActive bounds.head entries).map
          (fun entry => contribute F entry (editFor (editsOf F entries) entry.id))).flatten) } := by
  have hparted := (Parted.settle [] _ ((selectActive bounds.head entries).map
    (fun entry => contribute F entry (editFor (editsOf F entries) entry.id))).flatten (fun _ => rfl)).messages
  unfold deriveRange
  simp only [hparted]

theorem deriveRange_ranged (s : State) (id : Id) (bounds : ContextBounds) (hb : Bounds s id bounds)
    (entries : List EntryRecord) (hentries : entries = within s id (bounds.head.bind EntryRecord.head) bounds.tail) :
    Ranged F s id (deriveRange F bounds entries) where
  bounds := hb
  entries := hentries
  view := rfl
  edited := rfl
  parted := Parted.settle [] _ _ (fun _ => rfl)

/-! ## Extending a range -/

theorem selectActive_append (head : Option EntryRecord) (entries added : List EntryRecord)
    (h : ∀ entry ∈ added, entry.head = none) :
    selectActive head (entries ++ added) = selectActive head entries ++ added := by
  unfold selectActive
  cases head with
  | none => rfl
  | some marker =>
    have hkept : added.filter (fun entry => entry.head.isNone) = added :=
      List.filter_eq_self.mpr (fun entry hmem => by rw [h entry hmem]; rfl)
    simp only [List.filter_append, List.cons_append, hkept]

theorem editsOf_append (entries added : List EntryRecord) (h : ∀ entry ∈ added, F.edits entry = none) :
    editsOf F (entries ++ added) = editsOf F entries := by
  have hnone : editsOf F added = [] := by
    unfold editsOf
    rw [List.flatMap_eq_nil_iff]
    intro entry hmem
    rw [h entry hmem]
    rfl
  unfold editsOf at hnone ⊢
  rw [List.flatMap_append, hnone, List.append_nil]

theorem editFor_none (edits : List ContextEdit) (id : Id) (h : id ∉ edits.map ContextEdit.target) :
    editFor edits id = none := by
  unfold editFor
  rw [List.find?_eq_none]
  intro edit hmem
  simp only [decide_eq_true_eq]
  intro heq
  exact h (List.mem_map.mpr ⟨edit, List.mem_reverse.mp hmem, heq⟩)

theorem derivesAgain_false (edited : List Id) (entry : EntryRecord) (h : derivesAgain F edited entry = false) :
    F.edits entry = none ∧ entry.head = none ∧ entry.id ∉ edited := by
  unfold derivesAgain at h
  simpa [and_assoc] using h

theorem extendRange_view (previous : ContextRange) (bounds : ContextBounds) (added : List EntryRecord)
    (hhead : previous.bounds.head = bounds.head)
    (hview : previous.view = (deriveRange F previous.bounds previous.entries).view)
    (hedited : previous.edited = (editsOf F previous.entries).map ContextEdit.target)
    (hparted : Parted previous.settled previous.unsettled previous.view.contributions.flatten) :
    (extendRange F previous bounds added).view = (deriveRange F bounds (previous.entries ++ added)).view ∧
      (extendRange F previous bounds added).edited =
        (editsOf F (previous.entries ++ added)).map ContextEdit.target ∧
      Parted (extendRange F previous bounds added).settled (extendRange F previous bounds added).unsettled
        (extendRange F previous bounds added).view.contributions.flatten := by
  unfold extendRange
  split
  · exact ⟨rfl, rfl, Parted.settle [] _ _ (fun _ => rfl)⟩
  · rename_i hnot
    have hadded : ∀ entry ∈ added, F.edits entry = none ∧ entry.head = none ∧ entry.id ∉ previous.edited := by
      intro entry hmem
      refine derivesAgain_false F previous.edited entry ?_
      by_contra hderives
      exact hnot (List.any_eq_true.mpr ⟨entry, hmem, Bool.not_eq_false _ ▸ hderives⟩)
    have hedits := editsOf_append F previous.entries added (fun entry hmem => (hadded entry hmem).1)
    have hactive := selectActive_append bounds.head previous.entries added (fun entry hmem => (hadded entry hmem).2.1)
    have hcontributions : added.map (fun entry => contribute F entry none) =
        added.map (fun entry => contribute F entry (editFor (editsOf F previous.entries) entry.id)) := by
      refine List.map_congr_left (fun entry hmem => ?_)
      rw [editFor_none _ _ (hedited ▸ (hadded entry hmem).2.2)]
    have hsettled := (hparted.append _ _ _ (added.map (fun entry => contribute F entry none)).flatten).settle
    rw [deriveRange_view] at hview
    rw [hhead] at hview
    refine ⟨?_, hedited.trans (by rw [hedits]), ?_⟩
    · rw [deriveRange_view, hedits, hactive, List.map_append, ← hcontributions]
      simp only [hsettled.messages]
      simp only [hview, List.flatten_append]
    · simp only [List.flatten_append]
      exact hsettled

/-! ## Entries of a range -/

section Entries

variable (s : State) (id : Id) (hk : Known s id) (bounds : ContextBounds) (hb : Bounds s id bounds)

include hk

theorem filter_within (lower : Option Id) (upper tail : Id) (hle : tail ≤ upper) :
    (within s id lower upper).filter (fun entry => entry.id ≤ tail) = within s id lower tail := by
  refine within_unique s id hk lower tail _ ((within_sorted s id hk lower upper).filter _) (fun entry => ?_)
  rw [List.mem_filter, mem_within s id hk, decide_eq_true_eq]
  constructor
  · rintro ⟨⟨hv, -, hl⟩, ht⟩
    exact ⟨hv, ht, hl⟩
  · rintro ⟨hv, ht, hl⟩
    exact ⟨⟨hv, le_trans ht hle, hl⟩, ht⟩

theorem within_append (lower : Option Id) (tail upper : Id) (hlower : ∀ bound, lower = some bound → bound ≤ tail)
    (hle : tail < upper) :
    within s id lower tail ++ within s id (some (tail + 1)) upper = within s id lower upper := by
  refine within_unique s id hk lower upper _ (List.pairwise_append.mpr ⟨within_sorted s id hk _ _,
    within_sorted s id hk _ _, fun old hold new hnew => ?_⟩) (fun entry => ?_)
  · have h := ((mem_within s id hk _ _ old).mp hold).2.1
    have h' := ((mem_within s id hk _ _ new).mp hnew).2.2
    simp only [atLeast, Option.all_some, decide_eq_true_eq] at h'
    exact lt_of_le_of_lt h (Int.lt_of_add_one_le h')
  · rw [List.mem_append, mem_within s id hk, mem_within s id hk]
    simp only [atLeast, Option.all_some, decide_eq_true_eq]
    constructor
    · rintro (⟨hv, ht, hl⟩ | ⟨hv, hu, ht⟩)
      · exact ⟨hv, le_of_lt (lt_of_le_of_lt ht hle), hl⟩
      · refine ⟨hv, hu, ?_⟩
        cases lower with
        | none => rfl
        | some bound =>
          simp only [Option.all_some, decide_eq_true_eq]
          exact le_of_lt (lt_of_le_of_lt (hlower bound rfl) (Int.lt_of_add_one_le ht))
    · rintro ⟨hv, hu, hl⟩
      rcases le_or_gt entry.id tail with ht | ht
      · exact .inl ⟨hv, ht, hl⟩
      · exact .inr ⟨hv, hu, Int.add_one_le_of_lt ht⟩

include hb

theorem scan_bounds (scanRange : ScanRange) (hscan : Scans s id scanRange) (lower : Option Id) :
    scanRange ⟨id, none, lower, some bounds.tail⟩ = within s id lower bounds.tail := by
  obtain ⟨tail, hv, heq⟩ := hb.tail
  rw [← heq]
  exact scan_within s id hk scanRange hscan lower tail hv

theorem rangeFrom_ranged (hback : HeadsBack (visibleAscending s id)) (scanRange : ScanRange)
    (hscan : Scans s id scanRange) (previous : Option ContextRange)
    (hprevious : ∀ range, previous = some range → Ranged F s id range) :
    Ranged F s id (rangeFrom F scanRange id bounds previous) ∧
      (rangeFrom F scanRange id bounds previous).view =
        (deriveRange F bounds (within s id (bounds.head.bind EntryRecord.head) bounds.tail)).view := by
  have hscanned := scan_bounds s id hk bounds hb scanRange hscan (bounds.head.bind EntryRecord.head)
  have hfresh : Ranged F s id (deriveRange F bounds (scanRange (rangeQuery id bounds))) :=
    deriveRange_ranged F s id bounds hb _ hscanned
  unfold rangeFrom
  cases previous with
  | none => exact ⟨hfresh, by rw [← hscanned]; rfl⟩
  | some previous =>
    have hold := hprevious previous rfl
    dsimp only
    split
    · exact ⟨hfresh, by rw [← hscanned]; rfl⟩
    · rename_i hsame
      have hhead := heads_eq s id previous.bounds bounds hold.bounds hb (not_ne_iff.mp hsame)
      split
      · rename_i htail
        -- The same bounds: the earlier range itself.
        have hbounds : previous.bounds = bounds := by
          cases hp : previous.bounds
          cases hq : bounds
          rw [hp, hq] at hhead
          rw [hp, hq] at htail
          congr
          exact htail.symm
        exact ⟨hold, by rw [hold.view, hold.entries, hbounds]⟩
      · split
        · rename_i hlt
          have hentries : previous.entries.filter (fun entry => entry.id ≤ bounds.tail) =
              within s id (bounds.head.bind EntryRecord.head) bounds.tail := by
            rw [hold.entries, hhead]
            exact filter_within s id hk _ _ _ (le_of_lt hlt)
          exact ⟨deriveRange_ranged F s id bounds hb _ hentries, by rw [hentries]⟩
        · rename_i hne hnlt
          have hlt : previous.bounds.tail < bounds.tail := lt_of_le_of_ne (not_lt.mp hnlt) (Ne.symm hne)
          have hadded := scan_bounds s id hk bounds hb scanRange hscan (some (previous.bounds.tail + 1))
          have hentries : previous.entries ++ scanRange (addedQuery id previous.bounds bounds) =
              within s id (bounds.head.bind EntryRecord.head) bounds.tail := by
            rw [show scanRange (addedQuery id previous.bounds bounds) = _ from hadded, hold.entries, hhead]
            refine within_append s id hk _ _ _ (fun bound hbound => ?_) hlt
            exact bounds_back s id hk hback previous.bounds hold.bounds bound (hhead ▸ hbound)
          obtain ⟨hview, hedited, hparted⟩ := extendRange_view F previous bounds
            (scanRange (addedQuery id previous.bounds bounds)) hhead hold.view hold.edited hold.parted
          have hbounds : (extendRange F previous bounds (scanRange (addedQuery id previous.bounds bounds))).bounds = bounds ∧
              (extendRange F previous bounds (scanRange (addedQuery id previous.bounds bounds))).entries =
                previous.entries ++ scanRange (addedQuery id previous.bounds bounds) := by
            unfold extendRange
            split <;> exact ⟨rfl, rfl⟩
          refine ⟨⟨by rw [hbounds.1]; exact hb, by rw [hbounds.1, hbounds.2, hentries], ?_, ?_, hparted⟩, ?_⟩
          · rw [hview, hbounds.1, hbounds.2]
          · rw [hedited, hbounds.2]
          · rw [hview, hentries]

end Entries

/-! ## Reads of a conversation -/

/-- The range that an earlier read of a conversation left, by the state the conversation is in since. -/
inductive EarlierRead (id : Id) : State → Option ContextRange → Prop where
  | start (s : State) (hk : Known s id) : EarlierRead id s none
  | commit (s s' : State) (previous : Option ContextRange) (h : EarlierRead id s previous) (hgrows : Grows s s' id)
    (hk : Known s' id) : EarlierRead id s' previous
  | read (s : State) (previous : Option ContextRange) (at' : Option Id) (scanRange : ScanRange) (view : ContextView)
    (range : Option ContextRange) (h : EarlierRead id s previous) (hscan : Scans s id scanRange)
    (hread : readContextFrom F scanRange s id at' previous = .ok (view, range)) : EarlierRead id s range

theorem Ranged.grows (s s' : State) (id : Id) (range : ContextRange) (h : Ranged F s id range) (hk : Known s id)
    (hgrows : Grows s s' id) (hk' : Known s' id) : Ranged F s' id range := by
  obtain ⟨tail, hv, htail⟩ := h.bounds.tail
  have hupTo := visible_upTo s s' id hgrows tail hv
  refine ⟨⟨⟨tail, hgrows.kept tail hv, htail⟩, ?_⟩, ?_, h.view, h.edited, h.parted⟩
  · have hlatest := h.bounds.head
    rw [← htail] at hlatest ⊢
    have hold : ∀ other, Visible s' id other → atMost (some tail.id) other.id = true → Visible s id other := by
      intro other ho hle
      exact ((hupTo other).mp ⟨ho, by simpa [atMost] using hle⟩).1
    cases hhead : range.bounds.head with
    | none =>
      rw [hhead] at hlatest
      exact fun other ho hle => hlatest other (hold other ho hle) hle
    | some marker =>
      rw [hhead] at hlatest
      obtain ⟨⟨hm, hsome, hle⟩, hmax⟩ := hlatest
      exact ⟨⟨hgrows.kept marker hm, hsome, hle⟩, fun other ho hs hl => hmax other (hold other ho hl) hs hl⟩
  · rw [h.entries]
    refine within_unique s' id hk' _ _ _ (within_sorted s id hk _ _) (fun entry => ?_)
    rw [mem_within s id hk, ← and_assoc, ← and_assoc, ← htail, hupTo entry]

theorem EarlierRead.known (s : State) (id : Id) (previous : Option ContextRange) (h : EarlierRead F id s previous) :
    Known s id := by
  induction h with
  | start s hk => exact hk
  | commit s s' previous h hgrows hk ih => exact hk
  | read s previous at' scanRange view range h hscan hread ih => exact ih

theorem headsBack_before (s s' : State) (id : Id) (hk : Known s id) (hk' : Known s' id) (hgrows : Grows s s' id)
    (h : HeadsBack (visibleAscending s' id)) : HeadsBack (visibleAscending s id) := by
  obtain ⟨record, hid⟩ := hk.found
  obtain ⟨record', hid'⟩ := hk'.found
  intro entry hmem
  have hv := (mem_visibleAscending s hk.sound hk.tree id record hid entry).mp hmem
  exact h entry ((mem_visibleAscending s' hk'.sound hk'.tree id record' hid' entry).mpr (hgrows.kept entry hv))

theorem EarlierRead.ranged (s : State) (id : Id) (previous : Option ContextRange) (h : EarlierRead F id s previous)
    (hback : HeadsBack (visibleAscending s id)) (range : ContextRange) (hrange : previous = some range) :
    Ranged F s id range := by
  induction h generalizing range with
  | start s hk => cases hrange
  | commit s s' previous h hgrows hk ih =>
    have hold := headsBack_before s s' id h.known hk hgrows hback
    exact (ih hold range hrange).grows F s s' id range h.known hgrows hk
  | read s previous at' scanRange view found h hscan hread ih =>
    have hk := h.known
    unfold readContextFrom at hread
    rcases hc : captureContextBoundsAt s id at' with e | bounds
    · rw [hc] at hread
      cases hread
    · rw [hc] at hread
      cases bounds with
      | none =>
        cases hread
        cases hrange
      | some bounds =>
        cases hread
        cases hrange
        exact (rangeFrom_ranged F s id hk bounds (captured_bounds s id hk at' bounds hc) hback scanRange hscan previous
          (ih hback)).1

/-- A read that reuses an earlier range gives what a read from scratch gives, at any tail. -/
theorem readContextFrom_fresh (s : State) (id : Id) (previous : Option ContextRange)
    (h : EarlierRead F id s previous) (hback : HeadsBack (visibleAscending s id)) (at' : Option Id)
    (scanRange scanRange' : ScanRange) (hscan : Scans s id scanRange) (hscan' : Scans s id scanRange') :
    (readContextFrom F scanRange s id at' previous).map Prod.fst =
      (captureContextBoundsAt s id at').map (deriveContext F scanRange' id) := by
  have hk := h.known
  unfold readContextFrom
  rcases hc : captureContextBoundsAt s id at' with e | bounds
  · rfl
  · cases bounds with
    | none => rfl
    | some bounds =>
      have hb := captured_bounds s id hk at' bounds hc
      have hview := (rangeFrom_ranged F s id hk bounds hb hback scanRange hscan previous (h.ranged F s id previous hback)).2
      have hscanned := scan_bounds s id hk bounds hb scanRange' hscan' (bounds.head.bind EntryRecord.head)
      change Except.ok (rangeFrom F scanRange id bounds previous).view =
        Except.ok (deriveRange F bounds (scanRange' (rangeQuery id bounds))).view
      rw [hview, ← hscanned]
      rfl

/-! ## A read of a fork that has grown -/

def scanAt (s : State) (query : EntryQuery) : List EntryRecord :=
  (bounded s query.conversationId query.minEntryId query.maxEntryId).reverse

theorem scans_scanAt (s : State) (id : Id) (hk : Known s id) : Scans s id (scanAt s) := by
  obtain ⟨record, hid⟩ := hk.found
  intro query hquery horder
  subst hquery
  obtain ⟨items, hpages, -⟩ := pages_end query SCAN_PAGE_SIZE s hk.sound hk.tree record hid .descending _ none
    (by unfold Continues; rw [horder]; rfl)
    (fun values hv => values_length s hk.sound hk.tree query record hid .descending none values hv)
  have hvalues := pages_values query SCAN_PAGE_SIZE (by decide) s s none items hpages .descending hk.sound hk.tree
    (by unfold Continues; rw [horder]; rfl)
  have heq := values_unique s query .descending none items _ hvalues
    (descending_values s hk.sound hk.tree query record hid none)
  exact ⟨s, s, items, Grows.refl s _, hk.sound, hk.tree, hpages, by rw [heq]; rfl⟩

def plainFields : EntryFields := ⟨fun _ => none, fun _ => none⟩

theorem forked_known : Known forked 2 := ⟨forked_invariant.sound, forked_isTree, _, rfl⟩

theorem grown_known : Known grown 2 := ⟨grown_invariant.sound, grown_isTree, _, rfl⟩

theorem readContextFrom_fresh_grown : ∃ previous, EarlierRead plainFields 2 grown (some previous) ∧
    HeadsBack (visibleAscending grown 2) ∧
    (readContextFrom plainFields (scanAt grown) grown 2 (some 6) (some previous)).map Prod.fst =
      (captureContextBoundsAt grown 2 (some 6)).map (deriveContext plainFields (scanAt grown) 2) := by
  have hback : HeadsBack (visibleAscending grown 2) := by
    have hvisible : visibleAscending grown 2 =
        [⟨3, 1, some 3, .null⟩, ⟨4, 1, none, .null⟩, ⟨6, 2, none, .null⟩, ⟨7, 2, none, .null⟩] := rfl
    rw [hvisible]
    intro entry he target hh
    simp only [List.mem_cons, List.not_mem_nil, or_false] at he
    rcases he with rfl | rfl | rfl | rfl <;> cases hh
    decide
  have hread : EarlierRead plainFields 2 grown (some _) :=
    .read grown none none (scanAt grown) _ _ (.commit forked grown none (.start forked forked_known) forked_grows grown_known)
      (scans_scanAt grown 2 grown_known) rfl
  exact ⟨_, hread, hback, readContextFrom_fresh plainFields grown 2 _ hread hback (some 6) (scanAt grown) (scanAt grown)
    (scans_scanAt grown 2 grown_known) (scans_scanAt grown 2 grown_known)⟩

/-! ## A head that names a later entry -/

def aheadCommit : PreparedCommit := ⟨2, [.entry ⟨7, 2, some 9, .null⟩], []⟩

def headAhead : State := forked.applyPreparedCommit aheadCommit

def reachCommit : PreparedCommit := ⟨3, [.entry ⟨8, 2, none, .null⟩, .entry ⟨9, 2, none, .null⟩], []⟩

def headReached : State := headAhead.applyPreparedCommit reachCommit

theorem headAhead_invariant : Invariant headAhead :=
  applyPreparedCommit_invariant forked aheadCommit forked_invariant
    (prepareCommit_accepted forked aheadCommit.writes 2 aheadCommit rfl).1

theorem headAhead_known : Known headAhead 2 :=
  ⟨headAhead_invariant.sound, forked_tree headAhead headAhead_invariant.sound [6, 7] rfl rfl (by decide), _, rfl⟩

theorem reachCommit_accepted : Accepted headAhead reachCommit :=
  (prepareCommit_accepted headAhead reachCommit.writes 3 reachCommit rfl).1

theorem headReached_invariant : Invariant headReached :=
  applyPreparedCommit_invariant headAhead reachCommit headAhead_invariant reachCommit_accepted

theorem headReached_known : Known headReached 2 :=
  ⟨headReached_invariant.sound, forked_tree headReached headReached_invariant.sound [6, 7, 8, 9] rfl rfl (by decide),
    _, rfl⟩

theorem headReached_grows : Grows headAhead headReached 2 := by
  refine commit_grows headAhead reachCommit headAhead_invariant.sound reachCommit_accepted headAhead_known.tree 2 _ rfl ?_
  intro entry he old hv
  have hmem := (mem_bounded headAhead headAhead_invariant.sound headAhead_known.tree 2 _ rfl none none old).mpr ⟨hv, rfl, rfl⟩
  have hids : (bounded headAhead 2 none none).map EntryRecord.id = [7, 6, 4, 3] := rfl
  have hid := List.mem_map_of_mem (f := EntryRecord.id) hmem
  rw [hids] at hid
  have hnew : entry = ⟨8, 2, none, .null⟩ ∨ entry = ⟨9, 2, none, .null⟩ := by
    simpa [reachCommit] using he
  simp only [List.mem_cons, List.not_mem_nil, or_false] at hid
  rcases hid with h | h | h | h <;> rcases hnew with rfl | rfl <;> rw [h] <;> decide

/-- The entries before the target of such a head are added by a later read, and not by a fresh one. -/
theorem head_ahead_differs : ∃ previous, EarlierRead plainFields 2 headReached (some previous) ∧
    Scans headReached 2 (scanAt headReached) ∧
    (readContextFrom plainFields (scanAt headReached) headReached 2 none (some previous)).map Prod.fst ≠
      (captureContextBoundsAt headReached 2 none).map (deriveContext plainFields (scanAt headReached) 2) := by
  have hread : EarlierRead plainFields 2 headReached (some _) :=
    .commit headAhead headReached _ (.read headAhead none none (scanAt headAhead) _ _ (.start headAhead headAhead_known)
      (scans_scanAt headAhead 2 headAhead_known) rfl) headReached_grows headReached_known
  refine ⟨_, hread, scans_scanAt headReached 2 headReached_known, fun h => ?_⟩
  have hlength := congrArg (fun view => view.map (fun view => view.entries.length)) h
  have h' : (Except.ok 3 : Except ContextError ℕ) = Except.ok 2 := hlength
  cases h'

end PiAgent.Harness
