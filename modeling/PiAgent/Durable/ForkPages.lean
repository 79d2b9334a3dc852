import PiAgent.Durable.ForkProofs

/-!
# Paging through the history of a fork

The pages of a scan, also when larger entries are committed between them.
-/

namespace PiAgent.Durable

open Option List Sorted

structure Grows (s s' : State) (id : Id) : Prop where
  kept : ∀ entry, Visible s id entry → Visible s' id entry
  newer : ∀ entry, Visible s' id entry → Visible s id entry ∨ ∀ old, Visible s id old → old.id < entry.id

variable (s : State) (id : Id)

theorem Grows.refl : Grows s s id := ⟨fun _ h => h, fun _ h => .inl h⟩

theorem Grows.trans (s t u : State) (id : Id) (h : Grows s t id) (h' : Grows t u id) : Grows s u id where
  kept := fun entry hv => h'.kept entry (h.kept entry hv)
  newer := by
    intro entry hv
    rcases h'.newer entry hv with ht | ht
    · exact h.newer entry ht
    · exact .inr (fun old ho => ht old (h.kept old ho))

inductive Pages (query : EntryQuery) (limit : ℕ) : State → Option Cursor → List EntryRecord → State → Prop where
  | last (s : State) (cursor : Option Cursor) (page : Page EntryRecord)
    (h : scanEntries s query limit cursor = .ok page) (hn : page.next = none) :
    Pages query limit s cursor page.items s
  | more (s s' t : State) (cursor : Option Cursor) (page : Page EntryRecord) (next : Cursor)
    (rest : List EntryRecord) (h : scanEntries s query limit cursor = .ok page) (hn : page.next = some next)
    (hgrows : Grows s s' query.conversationId) (hs : Sound s') (ht : Tree s')
    (hrest : Pages query limit s' (some next) rest t) : Pages query limit s cursor (page.items ++ rest) t

variable (query : EntryQuery) (limit : ℕ)

theorem pages_grows (s t : State) (cursor : Option Cursor)
    (items : List EntryRecord) (h : Pages query limit s cursor items t) : Grows s t query.conversationId := by
  induction h with
  | last s cursor page h hn => exact Grows.refl s _
  | more s s' t cursor page next rest h hn hgrows hs ht hrest ih => exact hgrows.trans s s' t _ ih

/-! ## One page -/

def bounded (s : State) (id : Id) (lower upper : Option Id) : List EntryRecord :=
  visibleFrom s lower s.conversationIds.length id upper

theorem visibleEntries_eq (lower upper : Option Id) (record : ConversationRecord)
    (hid : s.conversations id = some record) : visibleEntries s id lower upper = .ok (bounded s id lower upper) := by
  unfold visibleEntries
  rw [hid]
  rfl

section

variable (hs : Sound s) (ht : Tree s) (id : Id) (record : ConversationRecord)
    (hid : s.conversations id = some record) (lower upper : Option Id)
include hs ht hid

theorem mem_bounded (entry : EntryRecord) :
    entry ∈ bounded s id lower upper ↔
      Visible s id entry ∧ atMost upper entry.id = true ∧ atLeast lower entry.id = true := by
  obtain ⟨n, h⟩ := ht.rooted id record hid
  exact mem_visibleFrom s hs lower id n h _ (ancestry_lt s hs id n h) upper entry

theorem bounded_sorted : (bounded s id lower upper).Pairwise (fun a b => b.id < a.id) := by
  obtain ⟨n, h⟩ := ht.rooted id record hid
  exact visibleFrom_sorted s hs ht lower id n h _ (ancestry_lt s hs id n h) upper

end

def Before (order : ScanOrder) (a b : EntryRecord) : Prop :=
  match order with
  | .ascending => a.id < b.id
  | .descending => b.id < a.id

structure Within (query : EntryQuery) (order : ScanOrder) (after : Option Id) (entry : EntryRecord) : Prop where
  atMost : atMost query.maxEntryId entry.id = true
  atLeast : atLeast query.minEntryId entry.id = true
  after : ∀ last, after = some last → match order with
    | .ascending => last < entry.id
    | .descending => entry.id < last

structure Values (s : State) (query : EntryQuery) (order : ScanOrder) (after : Option Id)
    (values : List EntryRecord) : Prop where
  mem : ∀ entry, entry ∈ values ↔ Visible s query.conversationId entry ∧ Within query order after entry
  sorted : values.Pairwise (Before order)

section

variable (hs : Sound s) (ht : Tree s) (query : EntryQuery) (record : ConversationRecord)
    (hid : s.conversations query.conversationId = some record) (after : Option Id)
include hs ht hid

theorem descending_values :
    Values s query .descending after (bounded s query.conversationId query.minEntryId (match after with
      | none => query.maxEntryId
      | some after => some (min (query.maxEntryId.getD after) (after - 1)))) := by
  refine ⟨fun entry => ?_, bounded_sorted s hs ht _ record hid _ _⟩
  rw [mem_bounded s hs ht _ record hid]
  refine and_congr_right (fun _ => ?_)
  cases after with
  | none =>
    exact ⟨fun h => ⟨h.1, h.2, by simp⟩, fun h => ⟨h.atMost, h.atLeast⟩⟩
  | some after =>
    constructor
    · rintro ⟨hu, hl⟩
      simp only [atMost, all_some, decide_eq_true_eq, le_min_iff] at hu
      have hafter : entry.id < after := Int.lt_of_le_sub_one hu.2
      refine ⟨?_, hl, fun last hlast => by cases hlast; exact hafter⟩
      cases hmax : query.maxEntryId with
      | none => rfl
      | some upper =>
        rw [hmax] at hu
        exact decide_eq_true hu.1
    · rintro ⟨hu, hl, ha⟩
      refine ⟨?_, hl⟩
      have hafter := ha after rfl
      simp only [atMost, all_some, decide_eq_true_eq, le_min_iff]
      refine ⟨?_, Int.le_sub_one_of_lt hafter⟩
      cases hmax : query.maxEntryId with
      | none => exact le_of_lt hafter
      | some upper =>
        rw [hmax] at hu
        simpa [atMost] using hu

theorem ascending_values :
    Values s query .ascending after (bounded s query.conversationId (match after with
      | none => query.minEntryId
      | some after => some (max (query.minEntryId.getD after) (after + 1))) query.maxEntryId).reverse := by
  refine ⟨fun entry => ?_, pairwise_reverse.mpr (bounded_sorted s hs ht _ record hid _ _)⟩
  rw [mem_reverse, mem_bounded s hs ht _ record hid]
  refine and_congr_right (fun _ => ?_)
  cases after with
  | none =>
    exact ⟨fun h => ⟨h.1, h.2, by simp⟩, fun h => ⟨h.atMost, h.atLeast⟩⟩
  | some after =>
    constructor
    · rintro ⟨hu, hl⟩
      simp only [atLeast, all_some, decide_eq_true_eq, max_le_iff] at hl
      refine ⟨hu, ?_, fun last hlast => by cases hlast; exact Int.lt_of_add_one_le hl.2⟩
      cases hmin : query.minEntryId with
      | none => rfl
      | some lower =>
        rw [hmin] at hl
        exact decide_eq_true hl.1
    · rintro ⟨hu, hl, ha⟩
      refine ⟨hu, ?_⟩
      have hafter : after < entry.id := ha after rfl
      simp only [atLeast, all_some, decide_eq_true_eq, max_le_iff]
      refine ⟨?_, Int.add_one_le_of_lt hafter⟩
      cases hmin : query.minEntryId with
      | none => exact le_of_lt hafter
      | some lower =>
        rw [hmin] at hl
        simpa [atLeast] using hl

end

structure PageOf (limit : ℕ) (order : ScanOrder) (values : List EntryRecord) (page : Page EntryRecord) : Prop where
  items : page.items = values.take limit
  next : page.next = if values.length ≤ limit then none
    else (values.take limit).getLast?.map (fun last => { after := last.id, order := some order })

theorem page_of (values : List EntryRecord) (limit : ℕ) (order : ScanOrder) :
    PageOf limit order values (page (values.take (limit + 1)) limit order) := by
  have htake : (values.take (limit + 1)).take limit = values.take limit := by
    rw [take_take, Nat.min_eq_left (Nat.le_succ limit)]
  refine ⟨htake, ?_⟩
  unfold page
  simp only [htake, length_take]
  have hiff : min (limit + 1) values.length ≤ limit ↔ values.length ≤ limit := by omega
  simp only [hiff]

def Continues (query : EntryQuery) (order : ScanOrder) (cursor : Option Cursor) : Prop :=
  scanStart query.order cursor .descending = .ok (order, cursor.map Cursor.after)

theorem scanEntries_page (hs : Sound s) (ht : Tree s) (query : EntryQuery) (limit : ℕ)
    (record : ConversationRecord) (hid : s.conversations query.conversationId = some record) (order : ScanOrder)
    (cursor : Option Cursor) (hc : Continues query order cursor) :
    ∃ values page, scanEntries s query limit cursor = .ok page ∧ PageOf limit order values page ∧
      Values s query order (cursor.map Cursor.after) values := by
  unfold scanEntries
  rw [hc]
  cases order with
  | descending =>
    refine ⟨_, page _ limit .descending, ?_, page_of _ limit .descending,
      descending_values s hs ht query record hid (cursor.map Cursor.after)⟩
    cases cursor <;> simp [visibleEntries_eq s _ _ _ record hid]
  | ascending =>
    refine ⟨_, page _ limit .ascending, ?_, page_of _ limit .ascending,
      ascending_values s hs ht query record hid (cursor.map Cursor.after)⟩
    cases cursor <;> simp [visibleEntriesAscending_eq s hs, visibleEntries_eq s _ _ _ record hid, Except.map]

theorem continues_start : Continues query (query.order.getD .descending) none := rfl

variable (order : ScanOrder) (cursor : Option Cursor)

theorem continues_next (hc : Continues query order cursor) (last : Id) : Continues query order (some ⟨last, some order⟩) := by
  unfold Continues scanStart at hc ⊢
  have hsame : ∀ requested, query.order = some requested → requested = order := by
    intro requested hr
    rw [hr] at hc
    cases cursor with
    | none =>
      cases hc
      rfl
    | some cursor =>
      simp only [any_some, decide_eq_true_eq] at hc
      split at hc
      · cases hc
      · rename_i hne
        cases hc
        exact not_not.mp hne
  cases hr : query.order with
  | none => simp
  | some requested => simp [hsame requested hr]

/-! ## All pages -/

theorem before_irrefl (a : EntryRecord) : ¬ Before order a a := by
  cases order <;> exact lt_irrefl a.id

theorem before_asymm (a b : EntryRecord) (h : Before order a b) : ¬ Before order b a := by
  cases order <;> exact lt_asymm h

theorem before_trans (a b c : EntryRecord) (h : Before order a b) (h' : Before order b c) : Before order a c := by
  cases order with
  | ascending => exact lt_trans h h'
  | descending => exact lt_trans h' h

theorem within_after (after : Option Id) (last entry : EntryRecord) (hlast : Within query order after last) :
    Within query order (some last.id) entry ↔ Within query order after entry ∧ Before order last entry := by
  constructor
  · intro h
    have hbefore : Before order last entry := by
      have := h.after last.id rfl
      cases order <;> exact this
    refine ⟨⟨h.atMost, h.atLeast, fun id hid => ?_⟩, hbefore⟩
    have hid' := hlast.after id hid
    cases order with
    | ascending => exact lt_trans hid' hbefore
    | descending => exact lt_trans hbefore hid'
  · rintro ⟨h, hbefore⟩
    refine ⟨h.atMost, h.atLeast, fun id hid => ?_⟩
    cases hid
    cases order <;> exact hbefore

theorem split_values (values : List EntryRecord) (hsorted : values.Pairwise (Before order))
    (limit : ℕ) (last : EntryRecord) (hlast : (values.take limit).getLast? = some last) :
    last ∈ values ∧ (∀ entry ∈ values.take limit, entry = last ∨ Before order entry last) ∧
    ∀ entry ∈ values, entry ∈ values.take limit ∨ Before order last entry := by
  obtain ⟨before, hbefore⟩ := getLast?_eq_some_iff.mp hlast
  have hmem := mem_of_getLast? hlast
  have hpart : values.take limit ++ values.drop limit = values := List.take_append_drop limit values
  refine ⟨mem_of_mem_take hmem, fun entry he => ?_, fun entry he => ?_⟩
  · have htake := hsorted.sublist (take_sublist limit values)
    rw [hbefore] at he htake
    rcases mem_append.mp he with hb | hl
    · exact .inr ((pairwise_append.mp htake).2.2 entry hb last (by simp))
    · exact .inl (mem_singleton.mp hl)
  · rw [← hpart] at he hsorted
    rcases mem_append.mp he with ht | hd
    · exact .inl ht
    · exact .inr ((pairwise_append.mp hsorted).2.2 last hmem entry hd)

def seen (order : ScanOrder) (s t : State) : State :=
  match order with
  | .ascending => t
  | .descending => s

theorem page_values (s : State) (hs : Sound s) (ht : Tree s) (order : ScanOrder)
    (cursor : Option Cursor) (p : Page EntryRecord) (record : ConversationRecord)
    (hid : s.conversations query.conversationId = some record) (hc : Continues query order cursor)
    (h : scanEntries s query limit cursor = .ok p) :
    ∃ values, PageOf limit order values p ∧ Values s query order (cursor.map Cursor.after) values := by
  obtain ⟨values, p', hp', hof, hvalues⟩ := scanEntries_page s hs ht query limit record hid order cursor hc
  rw [h] at hp'
  cases hp'
  exact ⟨values, hof, hvalues⟩

theorem scanEntries_exists (p : Page EntryRecord) (h : scanEntries s query limit cursor = .ok p) :
    ∃ record, s.conversations query.conversationId = some record := by
  cases hid : s.conversations query.conversationId with
  | some record => exact ⟨record, rfl⟩
  | none =>
    unfold scanEntries visibleEntries visibleEntriesAscending at h
    rw [hid] at h
    split at h
    · cases h
    · rename_i order after hstart
      cases order <;> cases h

theorem pages_exists (s t : State) (cursor : Option Cursor)
    (items : List EntryRecord) (h : Pages query limit s cursor items t) :
    ∃ record, s.conversations query.conversationId = some record := by
  cases h with
  | last _ _ p h hn => exact scanEntries_exists s query limit cursor p h
  | more _ _ _ _ p next rest h hn hgrows hs ht hrest => exact scanEntries_exists s query limit cursor p h

structure Remains (order : ScanOrder) (s s' t : State) (id : Id) (last : EntryRecord) : Prop where
  first : ∀ entry, Visible s id entry → Visible (seen order s t) id entry
  back : ∀ entry, Visible (seen order s' t) id entry → Before order last entry → Visible (seen order s t) id entry
  on : ∀ entry, Visible (seen order s t) id entry → Before order last entry → Visible (seen order s' t) id entry
  later : ∀ entry, Visible (seen order s t) id entry → Visible s id entry ∨ Before order last entry

theorem remains (s s' t : State) (id : Id) (last : EntryRecord) (hlast : Visible s id last)
    (h : Grows s s' id) (h' : Grows s' t id) : Remains order s s' t id last := by
  cases order with
  | descending =>
    refine ⟨fun _ hv => hv, fun entry hv hb => ?_, fun entry hv _ => h.kept entry hv, fun _ hv => .inl hv⟩
    rcases h.newer entry hv with hold | hnew
    · exact hold
    · exact absurd (hnew last hlast) (lt_asymm hb)
  | ascending =>
    have hall := h.trans s s' t id h'
    refine ⟨hall.kept, fun _ hv _ => hv, fun _ hv _ => hv, fun entry hv => ?_⟩
    rcases hall.newer entry hv with hold | hnew
    · exact .inl hold
    · exact .inr (hnew last hlast)

theorem pages_values (hlimit : 1 ≤ limit) (s t : State) (cursor : Option Cursor)
    (items : List EntryRecord) (h : Pages query limit s cursor items t) (order : ScanOrder) (hs : Sound s)
    (ht : Tree s) (hc : Continues query order cursor) :
    Values (seen order s t) query order (cursor.map Cursor.after) items := by
  obtain ⟨record, hid⟩ := pages_exists query limit s t cursor items h
  induction h generalizing record with
  | last s cursor p h hn =>
    obtain ⟨values, hof, hvalues⟩ := page_values query limit s hs ht order cursor p record hid hc h
    have hshort : values.length ≤ limit := by
      by_contra hlong
      rw [hof.next, if_neg hlong, map_eq_none_iff, getLast?_eq_none_iff, take_eq_nil_iff] at hn
      rcases hn with hzero | hnil
      · omega
      · rw [hnil, length_nil] at hlong
        omega
    rw [hof.items, take_of_length_le hshort]
    cases order <;> exact hvalues
  | more s s' t cursor p next rest h hn hgrows hs' ht' hrest ih =>
    obtain ⟨values, hof, hvalues⟩ := page_values query limit s hs ht order cursor p record hid hc h
    rw [hof.next] at hn
    split at hn
    · cases hn
    obtain ⟨last, hlast, rfl⟩ := map_eq_some_iff.mp hn
    obtain ⟨hmem, htake, hdrop⟩ := split_values order values hvalues.sorted limit last hlast
    obtain ⟨hlastVisible, hlastWithin⟩ := (hvalues.mem last).mp hmem
    obtain ⟨record', hid'⟩ := pages_exists query limit s' t _ rest hrest
    have hrestValues := ih hs' ht' (continues_next query order cursor hc last.id) record' hid'
    have hremains := remains order s s' t _ last hlastVisible hgrows (pages_grows query limit s' t _ rest hrest)
    have hafter : ∀ entry, entry ∈ rest ↔ Visible (seen order s' t) query.conversationId entry ∧
        Within query order (cursor.map Cursor.after) entry ∧ Before order last entry := by
      intro entry
      rw [hrestValues.mem entry]
      exact and_congr_right (fun _ => within_after query order _ last entry hlastWithin)
    rw [hof.items]
    refine ⟨fun entry => ?_, pairwise_append.mpr
      ⟨hvalues.sorted.sublist (take_sublist limit values), hrestValues.sorted, fun a ha b hb => ?_⟩⟩
    · rw [mem_append, hafter]
      constructor
      · rintro (he | ⟨hv, hw, hb⟩)
        · obtain ⟨hv, hw⟩ := (hvalues.mem entry).mp (mem_of_mem_take he)
          exact ⟨hremains.first entry hv, hw⟩
        · exact ⟨hremains.back entry hv hb, hw⟩
      · rintro ⟨hv, hw⟩
        rcases hremains.later entry hv with hold | hb
        · rcases hdrop entry ((hvalues.mem entry).mpr ⟨hold, hw⟩) with he | hb
          · exact .inl he
          · exact .inr ⟨hremains.on entry hv hb, hw, hb⟩
        · exact .inr ⟨hremains.on entry hv hb, hw, hb⟩
    · have hb' := ((hafter b).mp hb).2.2
      rcases htake a ha with rfl | ha'
      · exact hb'
      · exact before_trans order a last b ha' hb'

theorem pages_end (s : State) (hs : Sound s) (ht : Tree s)
    (record : ConversationRecord) (hid : s.conversations query.conversationId = some record) (order : ScanOrder)
    (n : ℕ) (cursor : Option Cursor) (hc : Continues query order cursor)
    (hn : ∀ values, Values s query order (cursor.map Cursor.after) values → values.length ≤ n) :
    ∃ items, Pages query limit s cursor items s ∧
      ∀ fuel, n < fuel → scanPages s query limit fuel cursor = some (.ok items) := by
  have hone : ∀ p, scanEntries s query limit cursor = .ok p → p.next = none → ∀ fuel, 0 < fuel →
      scanPages s query limit fuel cursor = some (.ok p.items) := by
    intro p hp hnext fuel hfuel
    obtain ⟨fuel, rfl⟩ := Nat.exists_eq_succ_of_ne_zero (Nat.pos_iff_ne_zero.mp hfuel)
    simp only [scanPages, hp, hnext]
  induction n generalizing cursor with
  | zero =>
    obtain ⟨values, p, hp, hof, hvalues⟩ := scanEntries_page s hs ht query limit record hid order cursor hc
    have hnext : p.next = none := by
      rw [hof.next, if_pos (le_trans (hn values hvalues) (Nat.zero_le limit))]
    exact ⟨p.items, .last s cursor p hp hnext, fun fuel hf => hone p hp hnext fuel hf⟩
  | succ n ih =>
    obtain ⟨values, p, hp, hof, hvalues⟩ := scanEntries_page s hs ht query limit record hid order cursor hc
    cases hnext : p.next with
    | none => exact ⟨p.items, .last s cursor p hp hnext, fun fuel hf => hone p hp hnext fuel (Nat.zero_lt_of_lt hf)⟩
    | some next =>
      have hcursor := hnext
      rw [hof.next] at hcursor
      split at hcursor
      · cases hcursor
      obtain ⟨last, hlast, rfl⟩ := map_eq_some_iff.mp hcursor
      obtain ⟨hmem, -, -⟩ := split_values order values hvalues.sorted limit last hlast
      obtain ⟨hlastVisible, hlastWithin⟩ := (hvalues.mem last).mp hmem
      have hcontinues := continues_next query order cursor hc last.id
      have hshorter : ∀ rest, Values s query order (some last.id) rest → rest.length ≤ n := by
        intro rest hrest
        have hle := hn values hvalues
        have hsub : rest ⊆ values := by
          intro entry he
          obtain ⟨hv, hw⟩ := (hrest.mem entry).mp he
          exact (hvalues.mem entry).mpr ⟨hv, ((within_after query order _ last entry hlastWithin).mp hw).1⟩
        have hnot : last ∉ rest := by
          intro hl
          have := ((within_after query order _ last last hlastWithin).mp ((hrest.mem last).mp hl).2).2
          exact before_irrefl order last this
        have hnd : (last :: rest).Nodup := nodup_cons.mpr ⟨hnot, hrest.sorted.imp (fun hab heq => by
          rw [heq] at hab
          exact before_irrefl order _ hab)⟩
        have hlen := (hnd.subperm (cons_subset.mpr ⟨hmem, hsub⟩)).length_le
        rw [length_cons] at hlen
        omega
      obtain ⟨rest, hrest, hfuel⟩ := ih _ hcontinues hshorter (fun p hp hn fuel hf => by
        obtain ⟨fuel, rfl⟩ := Nat.exists_eq_succ_of_ne_zero (Nat.pos_iff_ne_zero.mp hf)
        simp only [scanPages, hp, hn])
      refine ⟨_, .more s s s cursor p _ rest hp hnext (Grows.refl s _) hs ht hrest, fun fuel hf => ?_⟩
      obtain ⟨fuel, rfl⟩ := Nat.exists_eq_succ_of_ne_zero (Nat.pos_iff_ne_zero.mp (Nat.zero_lt_of_lt hf))
      simp only [scanPages, hp, hnext, hfuel fuel (by omega)]
      rfl

theorem values_length (hs : Sound s) (ht : Tree s) (query : EntryQuery) (record : ConversationRecord)
    (hid : s.conversations query.conversationId = some record) (order : ScanOrder) (after : Option Id)
    (values : List EntryRecord) (h : Values s query order after values) :
    values.length ≤ (bounded s query.conversationId none none).length := by
  have hnd : values.Nodup := h.sorted.imp (fun hab heq => by
    rw [heq] at hab
    exact before_irrefl order _ hab)
  refine (hnd.subperm (fun entry he => ?_)).length_le
  exact (mem_bounded s hs ht _ record hid none none entry).mpr ⟨((h.mem entry).mp he).1, rfl, rfl⟩

theorem sorted_unique (l l' : List EntryRecord) (h : l.Pairwise (Before order))
    (h' : l'.Pairwise (Before order)) (hmem : ∀ entry, entry ∈ l ↔ entry ∈ l') : l = l' := by
  have hnd : ∀ l : List EntryRecord, l.Pairwise (Before order) → l.Nodup := fun l hl => hl.imp (fun hab heq => by
    rw [heq] at hab
    exact before_irrefl order _ hab)
  have hperm := (perm_ext_iff_of_nodup (hnd _ h) (hnd _ h')).mpr hmem
  exact hperm.eq_of_pairwise (fun a b _ _ hab hba => absurd hba (before_asymm order a b hab)) h h'

theorem values_unique (after : Option Id)
    (values values' : List EntryRecord) (h : Values s query order after values)
    (h' : Values s query order after values') : values = values' :=
  sorted_unique order values values' h.sorted h'.sorted (fun entry => (h.mem entry).trans (h'.mem entry).symm)

theorem within_none (query query' : EntryQuery) (order order' : ScanOrder) (entry : EntryRecord)
    (hmin : query'.minEntryId = query.minEntryId) (hmax : query'.maxEntryId = query.maxEntryId)
    (h : Within query order none entry) : Within query' order' none entry :=
  ⟨hmax ▸ h.atMost, hmin ▸ h.atLeast, by simp⟩

/-! ## Commits between pages -/

variable (commit : PreparedCommit)

section

variable (hsound : Sound s) (h : Accepted s commit)
include hsound h

theorem commit_parent (id : Id) (record : ConversationRecord) (hid : s.conversations id = some record) :
    (s.applyPreparedCommit commit).parent id = s.parent id := by
  have hkept := applyPreparedCommit_kept s commit hsound h
  rw [parent_some s id record hid, parent_some _ id record (hkept.conversations id record hid)]

theorem commit_visible (id : Id) (entry : EntryRecord) (hv : Visible s id entry) :
    Visible (s.applyPreparedCommit commit) id entry := by
  have hkept := applyPreparedCommit_kept s commit hsound h
  induction hv with
  | own entry he => exact .own entry (hkept.entries entry.id entry he)
  | inherited id parent entry hp hle hv ih =>
    cases hx : s.conversations id with
    | none =>
      unfold State.parent at hp
      rw [hx] at hp
      cases hp
    | some record => exact .inherited id parent entry ((commit_parent s commit hsound h id record hx).trans hp) hle ih

theorem commit_visible_back (id : Id) (n : ℕ) (hup : Ancestry s id n) (entry : EntryRecord)
    (hv : Visible (s.applyPreparedCommit commit) id entry) (he : s.entries entry.id = some entry) :
    Visible s id entry := by
  induction hup with
  | root id record hr hp =>
    rcases (visible_iff _ id entry).mp hv with ⟨-, hc⟩ | ⟨parent, hp', -⟩
    · exact hc ▸ .own entry he
    · rw [commit_parent s commit hsound h id record hr, parent_some s id record hr, hp] at hp'
      cases hp'
  | fork id record parent n hr hp hup ih =>
    rcases (visible_iff _ id entry).mp hv with ⟨-, hc⟩ | ⟨parent', hp', hle, hv'⟩
    · exact hc ▸ .own entry he
    · rw [commit_parent s commit hsound h id record hr, parent_some s id record hr, hp] at hp'
      cases hp'
      exact .inherited id parent entry ((parent_some s id record hr).trans hp) hle (ih hv')

theorem commit_grows (ht : Tree s) (id : Id) (record : ConversationRecord)
    (hid : s.conversations id = some record)
    (hlarger : ∀ entry, .entry entry ∈ commit.writes → ∀ old, Visible s id old → old.id < entry.id) :
    Grows s (s.applyPreparedCommit commit) id := by
  obtain ⟨n, hup⟩ := ht.rooted id record hid
  refine ⟨fun entry hv => commit_visible s commit hsound h id entry hv, fun entry hv => ?_⟩
  rcases (applyPreparedCommit_kept s commit hsound h).written entry.id entry (hv.stored _ id entry) with hold | hnew
  · exact .inl (commit_visible_back s commit hsound h id n hup entry hv hold)
  · exact .inr (hlarger entry hnew)

end

/-! ## The history of a fork -/

structure HistoryExact (s : State) (id : Id) (lower upper : Option Id) (entries : List EntryRecord) : Prop where
  descending : visibleEntries s id lower upper = .ok entries
  ascending : visibleEntriesAscending s id lower upper = .ok entries.reverse
  sorted : entries.Pairwise (fun a b => b.id < a.id)
  mem : ∀ entry, entry ∈ entries ↔
    Visible s id entry ∧ atMost upper entry.id = true ∧ atLeast lower entry.id = true
  head : ∃ found, findLatestHeadMarker s id upper = .ok found ∧ LatestHead s id upper found

structure PagesExact (s : State) (query : EntryQuery) (limit : ℕ) : Prop where
  values : ∀ items t, Pages query limit s none items t →
    Values (seen (query.order.getD .descending) s t) query (query.order.getD .descending) none items
  ends : ∃ items, Pages query limit s none items s
  reversed : ∀ items items', Pages { query with order := some .descending } limit s none items s →
    Pages { query with order := some .ascending } limit s none items' s → items' = items.reverse

theorem forkHistory_exact (s : State) (hs : Sound s) (ht : Tree s) (query : EntryQuery) (record : ConversationRecord)
    (hid : s.conversations query.conversationId = some record) (limit : ℕ) (hlimit : 1 ≤ limit) :
    (∃ entries, HistoryExact s query.conversationId query.minEntryId query.maxEntryId entries) ∧
    PagesExact s query limit ∧
    ∀ commit, Accepted s commit → (∀ entry, .entry entry ∈ commit.writes →
      ∀ old, Visible s query.conversationId old → old.id < entry.id) →
      Grows s (s.applyPreparedCommit commit) query.conversationId := by
  refine ⟨⟨bounded s query.conversationId query.minEntryId query.maxEntryId, ?_⟩, ?_, ?_⟩
  · have hwalk := visibleEntries_eq s _ query.minEntryId query.maxEntryId record hid
    refine ⟨hwalk, ?_, bounded_sorted s hs ht _ record hid _ _, mem_bounded s hs ht _ record hid _ _, ?_⟩
    · rw [visibleEntriesAscending_eq s hs, hwalk]
      rfl
    · obtain ⟨n, h⟩ := ht.rooted _ record hid
      refine ⟨headFrom s s.conversationIds.length query.conversationId query.maxEntryId, ?_,
        headFrom_latest s hs ht _ n h _ (ancestry_lt s hs _ n h) query.maxEntryId⟩
      unfold findLatestHeadMarker
      rw [hid]
      rfl
  · refine ⟨fun items t h => ?_, ?_, fun items items' h h' => ?_⟩
    · exact pages_values query limit hlimit s t none items h _ hs ht (continues_start query)
    · obtain ⟨items, hpages, -⟩ := pages_end query limit s hs ht record hid _ _ none (continues_start query)
        (fun values hv => values_length s hs ht query record hid _ _ values hv)
      exact ⟨items, hpages⟩
    · have hd := pages_values _ limit hlimit s s none items h .descending hs ht rfl
      have ha := pages_values _ limit hlimit s s none items' h' .ascending hs ht rfl
      refine values_unique s { query with order := some .ascending } .ascending none items' items.reverse ha ⟨?_, ?_⟩
      · intro entry
        rw [mem_reverse, hd.mem entry]
        exact and_congr_right (fun _ => ⟨within_none _ _ _ _ entry rfl rfl, within_none _ _ _ _ entry rfl rfl⟩)
      · exact pairwise_reverse.mpr hd.sorted
  · intro commit hcommit hlarger
    exact commit_grows s commit hs hcommit ht _ record hid hlarger

/-! ## A fork with one inherited entry left out -/

def forkCommit : PreparedCommit where
  seq := 1
  writes := [.conversation ⟨1, none, none⟩, .entry ⟨3, 1, some 3, .null⟩, .entry ⟨4, 1, none, .null⟩,
    .entry ⟨5, 1, some 4, .null⟩, .conversation ⟨2, some ⟨1, 4⟩, none⟩, .entry ⟨6, 2, none, .null⟩]
  actions := []

def forked : State := State.empty.applyPreparedCommit forkCommit

def growCommit : PreparedCommit := ⟨2, [.entry ⟨7, 2, none, .null⟩], []⟩

def grown : State := forked.applyPreparedCommit growCommit

theorem forkCommit_accepted : Accepted State.empty forkCommit :=
  (prepareCommit_accepted State.empty forkCommit.writes 1 forkCommit rfl).1

theorem forked_invariant : Invariant forked :=
  applyPreparedCommit_invariant State.empty forkCommit empty_invariant forkCommit_accepted

theorem growCommit_accepted : Accepted forked growCommit :=
  (prepareCommit_accepted forked growCommit.writes 2 growCommit rfl).1

theorem grown_invariant : Invariant grown :=
  applyPreparedCommit_invariant forked growCommit forked_invariant growCommit_accepted

theorem forked_tree (hs : Sound s) (ids : List Id) (hconversations : s.conversations = forked.conversations)
    (hids : s.entryIds 2 = ids) (hlarger : ∀ x ∈ ids, 4 < x) : Tree s := by
  have hroot : s.conversations 1 = some ⟨1, none, none⟩ := by rw [hconversations]; rfl
  have hfork : s.conversations 2 = some ⟨2, some ⟨1, 4⟩, none⟩ := by rw [hconversations]; rfl
  have hall : ∀ id record, s.conversations id = some record → id = 1 ∨ id = 2 := by
    intro id record hr
    by_contra hne
    rw [not_or] at hne
    rw [hconversations] at hr
    change Function.update (Function.update (fun _ => none) 1 _) 2 _ id = some record at hr
    rw [Function.update_of_ne hne.2, Function.update_of_ne hne.1] at hr
    cases hr
  refine ⟨fun id record hr => ?_, fun id parent hp entry he hc => ?_⟩
  · rcases hall id record hr with rfl | rfl
    · exact ⟨0, .root 1 _ hroot rfl⟩
    · exact ⟨1, .fork 2 _ ⟨1, 4⟩ 0 hfork rfl (.root 1 _ hroot rfl)⟩
  · cases hx : s.conversations id with
    | none =>
      unfold State.parent at hp
      rw [hx] at hp
      cases hp
    | some record =>
      rcases hall id record hx with rfl | rfl
      · rw [parent_some s 1 _ hroot] at hp
        cases hp
      · rw [parent_some s 2 _ hfork] at hp
        cases hp
        have hmem := ((hs.indexed.entryIds 2).exact entry.id).mpr ⟨entry, he, hc⟩
        rw [hids] at hmem
        exact hlarger entry.id hmem

theorem forked_isTree : Tree forked := forked_tree forked forked_invariant.sound [6] rfl rfl (by decide)

theorem grown_isTree : Tree grown := forked_tree grown grown_invariant.sound [6, 7] rfl rfl (by decide)

theorem forked_grows : Grows forked grown 2 := by
  refine commit_grows forked growCommit forked_invariant.sound growCommit_accepted forked_isTree 2 _ rfl ?_
  intro entry he old hv
  cases mem_singleton.mp (show _ ∈ [StorageWrite.entry ⟨7, 2, none, .null⟩] from he)
  have hmem := (mem_bounded forked forked_invariant.sound forked_isTree 2 _ rfl none none old).mpr ⟨hv, rfl, rfl⟩
  have hids : (bounded forked 2 none none).map EntryRecord.id = [6, 4, 3] := rfl
  have hid := mem_map_of_mem (f := EntryRecord.id) hmem
  rw [hids] at hid
  simp only [mem_cons, not_mem_nil, or_false] at hid
  rcases hid with h | h | h <;> rw [h] <;> decide

theorem forkHistory_exact_forked : PagesExact forked ⟨2, none, none, some 5⟩ 1 :=
  (forkHistory_exact forked forked_invariant.sound forked_isTree ⟨2, none, none, some 5⟩ _ rfl 1 (by decide)).2.1

/-- An entry that is committed between two pages is on the pages of an ascending scan only. -/
theorem ascending_sees_commit : ¬ ∀ items items',
    Pages ⟨2, some .descending, none, none⟩ 2 forked none items grown →
    Pages ⟨2, some .ascending, none, none⟩ 2 forked none items' grown → items' = items.reverse := by
  intro h
  have hdescending : Pages ⟨2, some .descending, none, none⟩ 2 forked none
      [⟨6, 2, none, .null⟩, ⟨4, 1, none, .null⟩, ⟨3, 1, some 3, .null⟩] grown :=
    .more forked grown grown none ⟨[⟨6, 2, none, .null⟩, ⟨4, 1, none, .null⟩], some ⟨4, some .descending⟩⟩
      ⟨4, some .descending⟩ [⟨3, 1, some 3, .null⟩] rfl rfl forked_grows
      grown_invariant.sound grown_isTree
      (.last grown _ ⟨[⟨3, 1, some 3, .null⟩], none⟩ rfl rfl)
  have hascending : Pages ⟨2, some .ascending, none, none⟩ 2 forked none
      [⟨3, 1, some 3, .null⟩, ⟨4, 1, none, .null⟩, ⟨6, 2, none, .null⟩, ⟨7, 2, none, .null⟩] grown :=
    .more forked grown grown none ⟨[⟨3, 1, some 3, .null⟩, ⟨4, 1, none, .null⟩], some ⟨4, some .ascending⟩⟩
      ⟨4, some .ascending⟩ [⟨6, 2, none, .null⟩, ⟨7, 2, none, .null⟩] rfl rfl forked_grows
      grown_invariant.sound grown_isTree
      (.last grown _ ⟨[⟨6, 2, none, .null⟩, ⟨7, 2, none, .null⟩], none⟩ rfl rfl)
  have hlength := congrArg List.length (h _ _ hdescending hascending)
  cases hlength

end PiAgent.Durable
