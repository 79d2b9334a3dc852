import PiAgent.Durable.ForkDocuments
import PiAgent.Durable.ForkProofs
import PiAgent.Lib.Paging

/-!
# The copies of a fork are its documents

Which documents a fork selects, what a batch that holds the copies makes of them, and that
later commits leave a document alone that they do not name.
-/

namespace PiAgent.Durable

open List Sorted

/-! ## Scans -/

section Scan

variable (s : State) (scope : DocumentScope) (point : DocumentPoint)

def aliveRecords : List DocumentRecord :=
  ((s.documentIdsByScope scope).filterMap (fun id => (s.documents id).map (fun d => d.record))).filter
    (fun record => isAliveAt record point)

def remaining (after : Option Id) : List DocumentRecord :=
  (aliveRecords s scope point).filter (fun record => after.all (fun after => after < record.id))

theorem aliveRecords_sorted (hs : Sound s) : (aliveRecords s scope point).Pairwise (fun a b => a.id < b.id) := by
  refine List.Pairwise.filter _ (pairwise_filterMap.mpr ?_)
  refine (hs.indexed.documentIdsByScope scope).ascending.imp (fun {a b} hab r hr r' hr' => ?_)
  obtain ⟨d, hd, rfl⟩ := Option.map_eq_some_iff.mp hr
  obtain ⟨d', hd', rfl⟩ := Option.map_eq_some_iff.mp hr'
  rw [hs.keyed.document a d hd, hs.keyed.document b d' hd']
  exact hab

theorem mem_aliveRecords (hs : Sound s) (record : DocumentRecord) : record ∈ aliveRecords s scope point ↔
      (∃ d, s.documents record.id = some d ∧ d.record = record) ∧ record.scope = scope ∧ isAliveAt record point = true := by
  unfold aliveRecords
  rw [mem_filter, mem_filterMap]
  constructor
  · rintro ⟨⟨id, hid, hrecord⟩, halive⟩
    obtain ⟨d, hd, rfl⟩ := Option.map_eq_some_iff.mp hrecord
    obtain ⟨d', hd', hscope⟩ := ((hs.indexed.documentIdsByScope scope).exact id).mp hid
    rw [hd] at hd'
    cases hd'
    exact ⟨⟨d, by rw [hs.keyed.document id d hd]; exact hd, rfl⟩, hscope, halive⟩
  · rintro ⟨⟨d, hd, rfl⟩, hscope, halive⟩
    exact ⟨⟨d.record.id, ((hs.indexed.documentIdsByScope scope).exact _).mpr ⟨d, hd, hscope⟩, by rw [hd]; rfl⟩, halive⟩

theorem scanDocuments_eq (hs : Sound s) (limit : ℕ) (after : Option Id) :
    scanDocuments s scope point limit after = pageDocuments ((remaining s scope point after).take (limit + 1)) limit := by
  unfold scanDocuments
  dsimp only
  congr 2
  unfold remaining aliveRecords
  cases after with
  | none => simp
  | some after =>
    rw [Option.elim_some, (take_upperBound _ (hs.indexed.documentIdsByScope scope).ascending after).2, filter_comm]
    congr 1
    rw [List.filterMap_filter, filter_filterMap]
    refine filterMap_congr (fun id _ => ?_)
    cases hd : s.documents id with
    | none => simp
    | some d => simp [Option.filter, hs.keyed.document id d hd]

theorem remaining_next (hs : Sound s) (k : ℕ) (after : Option Id) (last : DocumentRecord)
    (hlast : ((remaining s scope point after).take k).getLast? = some last) :
    remaining s scope point (some last.id) = (remaining s scope point after).drop k := by
  have hsorted : (remaining s scope point after).Pairwise (fun a b => a.id < b.id) :=
    (aliveRecords_sorted s scope point hs).filter _
  have hmem : last ∈ remaining s scope point after := mem_of_mem_take (mem_of_getLast? hlast)
  have hbound := (mem_filter.mp hmem).2
  rw [← filter_after (fun record => record.id) _ hsorted _ last hlast]
  unfold remaining
  rw [filter_filter]
  refine filter_congr (fun record _ => ?_)
  rw [Bool.eq_iff_iff, Bool.and_eq_true, Option.all_some, decide_eq_true_eq]
  refine ⟨fun hlt => ⟨hlt, ?_⟩, fun h => h.1⟩
  cases after with
  | none => rfl
  | some after =>
    rw [Option.all_some, decide_eq_true_eq] at hbound ⊢
    exact lt_trans hbound hlt

theorem scanAll_eq (hs : Sound s) (fuel : ℕ) (after : Option Id) (hfuel : (remaining s scope point after).length < fuel) :
    scanAll s scope point fuel after = remaining s scope point after := by
  induction fuel generalizing after with
  | zero => exact absurd hfuel (Nat.not_lt_zero _)
  | succ fuel ih =>
    have hsize : 0 < SCAN_PAGE_SIZE := by decide
    unfold scanAll
    rw [scanDocuments_eq s scope point hs]
    unfold pageDocuments
    dsimp only
    rw [take_take, min_eq_left (Nat.le_succ _)]
    by_cases hshort : (remaining s scope point after).length ≤ SCAN_PAGE_SIZE
    · rw [if_pos (by rw [length_take]; omega), take_of_length_le hshort]
      simp
    · rw [if_neg (by rw [length_take]; omega)]
      obtain ⟨last, hlast⟩ : ∃ last, ((remaining s scope point after).take SCAN_PAGE_SIZE).getLast? = some last := by
        rw [← Option.isSome_iff_exists, getLast?_isSome, ← length_pos_iff, length_take]
        omega
      have hnext := remaining_next s scope point hs SCAN_PAGE_SIZE after last hlast
      have hless : (remaining s scope point (some last.id)).length < fuel := by
        rw [hnext, length_drop]
        omega
      rw [hlast, Option.map_some, Option.elim_some, ih (some last.id) hless, hnext, List.take_append_drop]

theorem scanAll_alive (hs : Sound s) :
    scanAll s scope point ((s.documentIdsByScope scope).length + 1) none = aliveRecords s scope point := by
  have hall : remaining s scope point none = aliveRecords s scope point := by
    unfold remaining
    exact filter_eq_self.mpr (fun _ _ => rfl)
  rw [scanAll_eq s scope point hs, hall]
  rw [hall]
  exact Nat.lt_succ_of_le ((length_filter_le _ _).trans (length_filterMap_le _ _))

end Scan

/-! ## The selected documents -/

structure Collected (child : Id) (policy : ForkMode) (point : DocumentPoint) (sources : List DocumentRecord)
    (copies copies' : List ForkDocumentCopy) : Prop where
  grown : copies <+: copies'
  new : ∀ copy ∈ copies', copy ∈ copies ∨ copy.point = point ∧ ∃ source ∈ sources,
    source.scope.isConversation = true ∧ source.fork = some policy ∧ copy.source = source.id ∧
      copy.record = copyRecord child copy.record.id source
  all : ∀ source ∈ sources, source.scope.isConversation = true → source.fork = some policy →
    ∃ copy ∈ copies', copy.point = point ∧ copy.source = source.id
  once : (copies.map (fun copy => copy.record.address)).Nodup → (copies'.map (fun copy => copy.record.address)).Nodup

theorem collected (mint : ℕ → Id) (child : Id) (policy : ForkMode) (point : DocumentPoint)
    (sources : List DocumentRecord) (copies copies' : List ForkDocumentCopy)
    (h : sources.foldlM (collectCopy mint child policy point) copies = .ok copies') :
    Collected child policy point sources copies copies' := by
  induction sources generalizing copies with
  | nil =>
    cases h
    exact ⟨prefix_refl _, fun copy hmem => .inl hmem, fun _ hmem => (by cases hmem), id⟩
  | cons source sources ih =>
    rw [foldlM_cons] at h
    cases hcopy : collectCopy mint child policy point copies source with
    | error e =>
      rw [hcopy] at h
      cases h
    | ok copies₁ =>
      rw [hcopy] at h
      have hrest := ih copies₁ h
      unfold collectCopy at hcopy
      split at hcopy
      · rename_i hskip
        cases hcopy
        refine ⟨hrest.grown, fun copy hmem => ?_, fun other hmem hscope hfork => ?_, hrest.once⟩
        · refine (hrest.new copy hmem).imp id (fun ⟨hpoint, other, hother, hsel⟩ => ?_)
          exact ⟨hpoint, other, mem_cons_of_mem _ hother, hsel⟩
        · rcases mem_cons.mp hmem with rfl | hmem
          · rcases hskip with hno | hno
            · rw [hscope] at hno
              cases hno
            · exact absurd hfork hno
          · exact hrest.all other hmem hscope hfork
      · rename_i htake
        rw [not_or, Bool.not_eq_false, not_not] at htake
        dsimp only at hcopy
        split at hcopy
        · cases hcopy
        · rename_i hfresh
          cases hcopy
          refine ⟨(prefix_append _ _).trans hrest.grown, fun copy hmem => ?_, fun other hmem hscope hfork => ?_, fun hn => ?_⟩
          · rcases hrest.new copy hmem with hold | ⟨hpoint, other, hother, hsel⟩
            · rcases mem_append.mp hold with hold | hold
              · exact .inl hold
              · rw [mem_singleton.mp hold]
                exact .inr ⟨rfl, source, mem_cons_self, htake.1, htake.2, rfl, rfl⟩
            · exact .inr ⟨hpoint, other, mem_cons_of_mem _ hother, hsel⟩
          · rcases mem_cons.mp hmem with rfl | hmem
            · exact ⟨_, hrest.grown.subset (mem_append_right _ (mem_singleton.mpr rfl)), rfl, rfl⟩
            · exact hrest.all other hmem hscope hfork
          · refine hrest.once ?_
            rw [map_append, nodup_append]
            refine ⟨hn, nodup_singleton _, fun a ha b hb heq => hfresh ?_⟩
            rw [map_singleton, mem_singleton] at hb
            rw [← hb, ← heq]
            exact ha

/-- A document that a fork copies, read at a point: those as of the entry in the entry's own conversation, and those of
now in the parent. -/
def Selected (s : State) (entryConversation parent : Id) (seq : Seq) (id : Id) (point : DocumentPoint) : Prop :=
  ∃ d, s.documents id = some d ∧
    (point = .at seq ∧ d.record.scope = .conversation entryConversation ∧ d.record.fork = some .asOf ∧
        isAliveAt d.record (.at seq) = true ∨
      point = .current ∧ d.record.scope = .conversation parent ∧ d.record.fork = some .current ∧
        isAliveAt d.record .current = true)

structure Copies (s : State) (entryConversation parent child : Id) (seq : Seq) (copies : List ForkDocumentCopy) : Prop where
  selected : ∀ id point, (∃ copy ∈ copies, copy.source = id ∧ copy.point = point) ↔
    Selected s entryConversation parent seq id point
  record : ∀ copy ∈ copies, ∃ d, s.documents copy.source = some d ∧
    copy.record = copyRecord child copy.record.id d.record
  addresses : (copies.map (fun copy => copy.record.address)).Nodup

theorem Copies.once (s : State) (entryConversation parent child : Id) (seq : Seq) (copies : List ForkDocumentCopy)
    (h : Copies s entryConversation parent child seq copies) : (copies.map (fun copy => copy.source)).Nodup := by
  let address : Id → Option DocumentAddress := fun id =>
    (s.documents id).map (fun d => (copyRecord child id d.record).address)
  have heq : copies.map (fun copy => some copy.record.address) = (copies.map (fun copy => copy.source)).map address := by
    rw [map_map]
    refine map_congr_left (fun copy hmem => ?_)
    obtain ⟨d, hd, hrecord⟩ := h.record copy hmem
    change some copy.record.address = (s.documents copy.source).map _
    rw [hd, Option.map_some, hrecord]
    rfl
  have hn : (copies.map (fun copy => some copy.record.address)).Nodup := by
    have := h.addresses.map (Option.some_injective _)
    rwa [map_map] at this
  rw [heq] at hn
  exact hn.of_map _

theorem prepareForkDocumentCopies_copies (s : State) (hs : Sound s) (mint : ℕ → Id) (parent entryId child : Id)
    (copies : List ForkDocumentCopy) (h : prepareForkDocumentCopies s mint parent entryId child = .ok copies) :
    ∃ entry seq, forkEntry s parent entryId = .ok (entry, seq) ∧ Copies s entry.conversationId parent child seq copies := by
  unfold prepareForkDocumentCopies at h
  split at h
  · cases h
  · rename_i entry seq hentry
    split at h
    · cases h
    · rename_i first hfirst
      unfold collectCopies at hfirst h
      dsimp only at hfirst h
      rw [scanAll_alive _ _ _ hs] at hfirst h
      have hasOf := collected mint child .asOf (.at seq) _ [] first hfirst
      have hcurrent := collected mint child .current .current _ first copies h
      have hstored : ∀ scope point source, source ∈ aliveRecords s scope point →
          ∃ d, s.documents source.id = some d ∧ d.record = source ∧ source.scope = scope ∧ isAliveAt source point = true := by
        intro scope point source hmem
        obtain ⟨⟨d, hd, hrecord⟩, hscope, halive⟩ := (mem_aliveRecords s scope point hs source).mp hmem
        exact ⟨d, hd, hrecord, hscope, halive⟩
      have hnew : ∀ copy ∈ copies, ∃ source d, s.documents copy.source = some d ∧ d.record = source ∧
          copy.record = copyRecord child copy.record.id source ∧
          (copy.point = .at seq ∧ source.scope = .conversation entry.conversationId ∧ source.fork = some .asOf ∧
              isAliveAt source (.at seq) = true ∨
            copy.point = .current ∧ source.scope = .conversation parent ∧ source.fork = some .current ∧
              isAliveAt source .current = true) := by
        intro copy hmem
        rcases hcurrent.new copy hmem with hold | ⟨hpoint, source, hsource, -, hfork, hid, hrecord⟩
        · rcases hasOf.new copy hold with hno | ⟨hpoint, source, hsource, -, hfork, hid, hrecord⟩
          · cases hno
          · obtain ⟨d, hd, hsame, hscope, halive⟩ := hstored _ _ source hsource
            exact ⟨source, d, by rw [hid]; exact hd, hsame, hrecord, .inl ⟨hpoint, hscope, hfork, halive⟩⟩
        · obtain ⟨d, hd, hsame, hscope, halive⟩ := hstored _ _ source hsource
          exact ⟨source, d, by rw [hid]; exact hd, hsame, hrecord, .inr ⟨hpoint, hscope, hfork, halive⟩⟩
      refine ⟨entry, seq, hentry, fun id point => ⟨?_, ?_⟩, fun copy hmem => ?_, hcurrent.once (hasOf.once nodup_nil)⟩
      · rintro ⟨copy, hmem, rfl, rfl⟩
        obtain ⟨source, d, hd, rfl, -, hsel⟩ := hnew copy hmem
        exact ⟨d, hd, hsel⟩
      · rintro ⟨d, hd, ⟨rfl, hscope, hfork, halive⟩ | ⟨rfl, hscope, hfork, halive⟩⟩
        · have hkey := hs.keyed.document id d hd
          have hmem := (mem_aliveRecords s _ _ hs d.record).mpr ⟨⟨d, by rw [hkey]; exact hd, rfl⟩, hscope, halive⟩
          obtain ⟨copy, hcopy, hpoint, hsource⟩ := hasOf.all d.record hmem (by rw [hscope]; rfl) hfork
          exact ⟨copy, hcurrent.grown.subset hcopy, hsource.trans hkey, hpoint⟩
        · have hkey := hs.keyed.document id d hd
          have hmem := (mem_aliveRecords s _ _ hs d.record).mpr ⟨⟨d, by rw [hkey]; exact hd, rfl⟩, hscope, halive⟩
          obtain ⟨copy, hcopy, hpoint, hsource⟩ := hcurrent.all d.record hmem (by rw [hscope]; rfl) hfork
          exact ⟨copy, hcopy, hsource.trans hkey, hpoint⟩
      · obtain ⟨source, d, hd, rfl, hrecord, -⟩ := hnew copy hmem
        exact ⟨d, hd, hrecord⟩

end PiAgent.Durable
