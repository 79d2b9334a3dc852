import PiAgent.Session.Walks

/-! # Which session files are walked well -/

namespace PiAgent.Session

open Option Assoc

/-! ## Loading -/

theorem indexEntry_fields (m : Manager) (e : Entry) :
    (m.indexEntry e).entries = m.entries ∧ (m.indexEntry e).byId = set m.byId e.id e := by
  unfold Manager.indexEntry Manager.setLabel
  split
  · split <;> exact ⟨rfl, rfl⟩
  · exact ⟨rfl, rfl⟩

theorem foldl_indexEntry_fields (items : List Entry) (m : Manager) :
    (items.foldl Manager.indexEntry m).entries = m.entries ∧
      (items.foldl Manager.indexEntry m).byId =
        items.foldl (fun index entry => set index entry.id entry) m.byId := by
  induction items generalizing m with
  | nil => exact ⟨rfl, rfl⟩
  | cons e items ih =>
    obtain ⟨hentries, hbyId⟩ := indexEntry_fields m e
    obtain ⟨h1, h2⟩ := ih (m.indexEntry e)
    exact ⟨h1.trans hentries, by rw [List.foldl_cons, h2, hbyId, List.foldl_cons]⟩

@[simp] theorem load_entries (header : Header) (entries : List Entry) : (Manager.load header entries).entries = entries :=
  (foldl_indexEntry_fields entries _).1

@[simp] theorem load_byId (header : Header) (entries : List Entry) :
    (Manager.load header entries).byId = buildEntryIndex entries :=
  (foldl_indexEntry_fields entries _).2

theorem mem_of_get?_foldl_set {α β : Type} (name : β → EntryId) (value : β → α) (items : List β) (fields : List (EntryId × α))
    (id : EntryId) (v : α)
    (h : get? (items.foldl (fun fields item => set fields (name item) (value item)) fields) id = some v) :
    get? fields id = some v ∨ ∃ item ∈ items, name item = id ∧ value item = v := by
  induction items generalizing fields with
  | nil => exact Or.inl h
  | cons item items ih =>
    rcases ih _ h with h | ⟨other, hmem, hid, hv⟩
    · by_cases hid : name item = id
      · subst hid
        rw [get?_set_self] at h
        exact Or.inr ⟨item, List.mem_cons_self, rfl, some.inj h⟩
      · rw [get?_set_ne _ _ _ _ hid] at h
        exact Or.inl h
    · exact Or.inr ⟨other, List.mem_cons_of_mem _ hmem, hid, hv⟩

theorem get?_buildEntryIndex (entries : List Entry) (id : EntryId) (e : Entry)
    (h : get? (buildEntryIndex entries) id = some e) : e ∈ entries ∧ e.id = id := by
  rcases mem_of_get?_foldl_set Entry.id (fun e => e) entries [] id e h with h | ⟨e', hmem, hid, rfl⟩
  · simp at h
  · exact ⟨hmem, hid⟩

/-! ## To the root -/

theorem parentIn_link (entries : List Entry) (a b : Entry) (h : parentIn (buildEntryIndex entries) a = some b) :
    ParentLink entries a b ∧ b.id ≠ [] := by
  unfold parentIn at h
  obtain ⟨id, hid, hget⟩ := bind_eq_some_iff.mp h
  obtain ⟨hmem, rfl⟩ := get?_buildEntryIndex entries id b hget
  unfold truthyId at hid
  split at hid
  · rename_i parentId hparent
    split at hid
    · simp at hid
    · rename_i hempty
      obtain rfl := some.inj hid
      have hne : b.id ≠ [] := by simpa using hempty
      exact ⟨⟨hmem, hparent, fun hboth => hne hboth.2⟩, hne⟩
  · simp at hid

variable {entries : List Entry}

theorem LoopFree.wellFounded (h : LoopFree entries) : WellFounded (fun b a => ParentLink entries a b) :=
  Links.wellFounded_of_loopless entries (ParentLink entries) (fun _ _ hab => hab.1) h.loopless

theorem LoopFree.ends (h : LoopFree entries) (a? : Option Entry) :
    Links.Ends (parentIn (buildEntryIndex entries)) a? := by
  cases a? with
  | none => exact Links.ends_none _
  | some a =>
    refine Links.ends_of_acc _ a ?_
    exact Subrelation.accessible (fun hba => (parentIn_link entries _ _ hba).1) (h.wellFounded.apply a)

theorem walkPath_of_ends (index : Index) (a? : Option Entry) (h : Links.Ends (parentIn index) a?) :
    ∃ fuel path, walkPath index fuel a? = some path := by
  obtain ⟨fuel, path, hpath⟩ := h
  exact ⟨fuel, path.reverse, by unfold walkPath; rw [hpath]; rfl⟩

theorem walkPath_nodup (index : Index) (fuel : ℕ) (a? : Option Entry) (path : List Entry)
    (h : walkPath index fuel a? = some path) : path.Nodup := by
  obtain ⟨walked, hwalked, rfl⟩ := map_eq_some_iff.mp h
  exact List.nodup_reverse.mpr (Links.follow_nodup _ _ _ _ hwalked)

theorem walkPath_links (entries : List Entry) (fuel : ℕ) (a? : Option Entry) (path : List Entry)
    (h : walkPath (buildEntryIndex entries) fuel a? = some path) (before : List Entry) (a b : Entry) (after : List Entry)
    (heq : path = before ++ a :: b :: after) : b.parentId = some a.id := by
  obtain ⟨walked, hwalked, rfl⟩ := map_eq_some_iff.mp h
  have hrev : walked = after.reverse ++ b :: a :: before.reverse := by
    rw [← List.reverse_reverse walked, heq]
    simp
  rw [hrev] at hwalked
  have hnext := Links.follow_links _ _ _ _ _ _ _ hwalked
  exact (parentIn_link entries b a hnext).1.2.1

/-! ## Placing the nodes -/

def treeParent (known : List EntryId) (e : Entry) : Option EntryId :=
  match e.parentId with
  | none => none
  | some parentId => if parentId = e.id then none else if parentId ∈ known then some parentId else none

theorem treeParent_eq_some (known : List EntryId) (e : Entry) (p : EntryId) :
    treeParent known e = some p ↔ e.parentId = some p ∧ p ≠ e.id ∧ p ∈ known := by
  unfold treeParent
  cases e.parentId with
  | none => simp
  | some parentId =>
    by_cases hself : parentId = e.id
    · subst hself
      simp only [if_true, Option.some.injEq, reduceCtorEq, false_iff, not_and]
      rintro rfl hne
      exact absurd rfl hne
    · by_cases hknown : parentId ∈ known
      · simp only [if_neg hself, if_pos hknown, Option.some.injEq]
        constructor
        · rintro rfl
          exact ⟨rfl, hself, hknown⟩
        · exact fun h => h.1
      · simp only [if_neg hself, if_neg hknown, Option.some.injEq, reduceCtorEq, false_iff, not_and]
        rintro rfl _
        exact hknown

theorem placeEntry_eq (nodes : TreeNodes) (roots : List EntryId) (e : Entry) : placeEntry (nodes, roots) e =
      match treeParent (keys nodes) e with
      | none => (nodes, roots ++ [e.id])
      | some p => (nodes.pushChild p e.id, roots) := by
  unfold placeEntry treeParent
  cases hp : e.parentId with
  | none => rfl
  | some p =>
    simp only [has_iff]
    by_cases hself : p = e.id
    · simp only [if_pos hself]
    · by_cases hknown : p ∈ keys nodes
      · simp only [if_neg hself, if_pos hknown]
      · simp only [if_neg hself, if_neg hknown]

namespace TreeNodes

def SameEntries (nodes nodes' : TreeNodes) : Prop :=
  ∀ id, (get? nodes' id).map TreeNode.entry = (get? nodes id).map TreeNode.entry

theorem SameEntries.mem_keys {nodes nodes' : TreeNodes} (h : SameEntries nodes nodes') (id : EntryId) :
    id ∈ keys nodes' ↔ id ∈ keys nodes := by
  rw [← has_iff, ← has_iff]
  unfold has
  have := congrArg Option.isSome (h id)
  simpa using this

theorem sameEntries_set (nodes : TreeNodes) (id : EntryId) (node node' : TreeNode) (h : get? nodes id = some node)
    (hentry : node'.entry = node.entry) : SameEntries nodes (set nodes id node') := by
  intro other
  rw [get?_set]
  split
  · rename_i heq
    subst heq
    rw [h, map_some, map_some, hentry]
  · rfl

theorem childrenOf_set (nodes : TreeNodes) (id : EntryId) (node : TreeNode) (other : EntryId) :
    childrenOf (set nodes id node) other = if id = other then node.children else childrenOf nodes other := by
  unfold childrenOf
  rw [get?_set]
  split <;> rfl

theorem pushChild_spec (nodes : TreeNodes) (p id : EntryId) (hp : p ∈ keys nodes) :
    SameEntries nodes (nodes.pushChild p id) ∧
      ∀ other, (nodes.pushChild p id).childrenOf other = nodes.childrenOf other ++ if p = other then [id] else [] := by
  obtain ⟨node, hget⟩ := isSome_iff_exists.mp ((has_iff nodes p).mpr hp)
  unfold pushChild
  rw [hget]
  refine ⟨sameEntries_set nodes p node _ hget rfl, ?_⟩
  intro other
  rw [childrenOf_set]
  by_cases hother : p = other
  · subst hother
    rw [if_pos rfl, if_pos rfl]
    simp [childrenOf, hget]
  · rw [if_neg hother, if_neg hother, List.append_nil]

end TreeNodes

open TreeNodes

theorem foldl_placeEntry (known : List EntryId) (items : List Entry) (nodes : TreeNodes) (roots : List EntryId)
    (hknown : ∀ id, id ∈ keys nodes ↔ id ∈ known) :
    SameEntries nodes (items.foldl placeEntry (nodes, roots)).1 ∧
      (items.foldl placeEntry (nodes, roots)).2 =
        roots ++ (items.filter (fun e => (treeParent known e).isNone)).map Entry.id ∧
      ∀ p, (items.foldl placeEntry (nodes, roots)).1.childrenOf p =
        nodes.childrenOf p ++ (items.filter (fun e => treeParent known e = some p)).map Entry.id := by
  induction items generalizing nodes roots with
  | nil => exact ⟨fun _ => rfl, by simp, by simp⟩
  | cons e items ih =>
    have hparent : treeParent (keys nodes) e = treeParent known e := by
      unfold treeParent
      simp only [hknown]
    rw [List.foldl_cons, placeEntry_eq, hparent]
    cases hp : treeParent known e with
    | none =>
      obtain ⟨h1, h2, h3⟩ := ih nodes (roots ++ [e.id]) hknown
      refine ⟨h1, ?_, ?_⟩
      · rw [h2, List.filter_cons_of_pos (by simp [hp])]
        simp
      · intro p
        rw [h3 p, List.filter_cons_of_neg (by simp [hp])]
    | some q =>
      have hq : q ∈ keys nodes := (hknown q).mpr ((treeParent_eq_some known e q).mp hp).2.2
      obtain ⟨hsame, hchildren⟩ := pushChild_spec nodes q e.id hq
      obtain ⟨h1, h2, h3⟩ := ih (nodes.pushChild q e.id) roots (fun id => (hsame.mem_keys id).trans (hknown id))
      refine ⟨fun id => (h1 id).trans (hsame id), ?_, ?_⟩
      · rw [h2, List.filter_cons_of_neg (by simp [hp])]
      · intro p
        rw [h3 p, hchildren p]
        by_cases hpq : q = p
        · subst hpq
          rw [if_pos rfl, List.filter_cons_of_pos (by simp [hp])]
          simp
        · rw [if_neg hpq, List.append_nil, List.filter_cons_of_neg (by simp [hp, hpq])]

/-! ## Sorting the children -/

namespace TreeNodes

def sorted (nodes : TreeNodes) (id : EntryId) : List EntryId :=
  (nodes.childrenOf id).mergeSort (fun a b => nodes.timestampOf a ≤ nodes.timestampOf b)

structure Resorted (nodes nodes' : TreeNodes) : Prop where
  entries : SameEntries nodes nodes'
  children : ∀ id, nodes'.childrenOf id = nodes.childrenOf id ∨ nodes'.childrenOf id = nodes.sorted id

theorem Resorted.refl (nodes : TreeNodes) : Resorted nodes nodes := ⟨fun _ => rfl, fun _ => Or.inl rfl⟩

variable {nodes nodes' : TreeNodes}

theorem Resorted.timestampOf (h : Resorted nodes nodes') (id : EntryId) :
    nodes'.timestampOf id = nodes.timestampOf id := by
  have hentry := congrArg (Option.map (fun entry : Entry × ℕ => entry.1.timestamp)) (h.entries id)
  unfold TreeNodes.timestampOf
  simpa [Option.map_map, Function.comp_def] using congrArg (fun t => Option.getD t 0) hentry

theorem Resorted.perm (h : Resorted nodes nodes') (id : EntryId) :
    (nodes'.childrenOf id).Perm (nodes.childrenOf id) := by
  rcases h.children id with heq | heq
  · rw [heq]
  · rw [heq]
    exact List.mergeSort_perm _ _

theorem sorted_resort (nodes : TreeNodes) (id : EntryId) :
    (nodes.sorted id).mergeSort (fun a b => nodes.timestampOf a ≤ nodes.timestampOf b) = nodes.sorted id := by
  refine List.mergeSort_of_pairwise ?_
  refine List.pairwise_mergeSort (fun a b c hab hbc => ?_) (fun a b => ?_) _
  · rw [decide_eq_true_eq] at *
    exact le_trans hab hbc
  · rw [Bool.or_eq_true, decide_eq_true_eq, decide_eq_true_eq]
    exact le_total _ _

theorem Resorted.sortChildren (h : Resorted nodes nodes') (id : EntryId) :
    Resorted nodes (nodes'.sortChildren id) ∧ (nodes'.sortChildren id).childrenOf id = nodes.sorted id := by
  have hsorted : (nodes'.childrenOf id).mergeSort (fun a b => nodes'.timestampOf a ≤ nodes'.timestampOf b) =
      nodes.sorted id := by
    simp only [h.timestampOf]
    rcases h.children id with heq | heq
    · rw [heq]
      rfl
    · rw [heq, sorted_resort]
  unfold TreeNodes.sortChildren
  cases hget : get? nodes' id with
  | none =>
    refine ⟨h, ?_⟩
    have hnone : nodes'.childrenOf id = [] := by simp [childrenOf, hget]
    rw [hnone, List.mergeSort_nil] at hsorted
    rw [hnone, hsorted]
  | some node =>
    have hnode : nodes'.childrenOf id = node.children := by simp [childrenOf, hget]
    rw [hnode] at hsorted
    dsimp only
    refine ⟨⟨?_, ?_⟩, ?_⟩
    · intro other
      refine (sameEntries_set nodes' id node _ hget ?_ other).trans (h.entries other)
      rfl
    · intro other
      rw [childrenOf_set]
      split
      · rename_i heq
        subst heq
        exact Or.inr hsorted
      · exact h.children other
    · rw [childrenOf_set, if_pos rfl]
      exact hsorted

theorem sortAll_resorted (fuel : ℕ) (nodes nodes' sortedNodes : TreeNodes) (stack : List EntryId)
    (h : Resorted nodes nodes') (hsort : sortAll fuel nodes' stack = some sortedNodes) : Resorted nodes sortedNodes := by
  induction fuel generalizing nodes' stack with
  | zero =>
    cases stack with
    | nil =>
      obtain rfl := some.inj hsort
      exact h
    | cons id stack => simp [sortAll] at hsort
  | succ fuel ih =>
    cases stack with
    | nil =>
      obtain rfl := some.inj hsort
      exact h
    | cons id stack => exact ih _ _ (h.sortChildren id).1 hsort

theorem sortAll_of_listing (fuel : ℕ) (nodes nodes' : TreeNodes) (stack order : List EntryId) (h : Resorted nodes nodes')
    (horder : Links.listing (fun id => (nodes.sorted id).reverse) fuel stack = some order) :
    ∃ sortedNodes, sortAll fuel nodes' stack = some sortedNodes := by
  induction fuel generalizing nodes' stack order with
  | zero =>
    cases stack with
    | nil => exact ⟨nodes', rfl⟩
    | cons id stack => simp [Links.listing] at horder
  | succ fuel ih =>
    cases stack with
    | nil => exact ⟨nodes', rfl⟩
    | cons id stack =>
      obtain ⟨hresorted, hchildren⟩ := h.sortChildren id
      rw [Links.listing, map_eq_some_iff] at horder
      obtain ⟨rest, hrest, -⟩ := horder
      rw [← hchildren] at hrest
      exact ih _ _ _ hresorted hrest

end TreeNodes

/-! ## The tree as it is built -/

section Tree

variable (m : Manager)

def placed : TreeNodes × List EntryId := m.entries.foldl placeEntry (m.treeNodes m.entries.zipIdx, [])

theorem get?_treeNodes (items : List (Entry × ℕ)) (id : EntryId) (node : TreeNode)
    (h : get? (m.treeNodes items) id = some node) : node.entry ∈ items ∧ node.entry.1.id = id := by
  rcases mem_of_get?_foldl_set (fun item : Entry × ℕ => item.1.id) m.treeNode items [] id node h with h | ⟨item, hmem, hid, rfl⟩
  · simp at h
  · exact ⟨hmem, hid⟩

theorem map_id_zipIdx (entries : List Entry) : entries.zipIdx.map (fun item => item.1.id) = ids entries := by
  have := congrArg (List.map Entry.id) (List.zipIdx_map_fst 0 entries)
  rw [List.map_map] at this
  exact this

theorem mem_keys_foldl_set {α β : Type} (name : β → EntryId) (value : β → α) (items : List β)
    (fields : List (EntryId × α)) (id : EntryId) :
    id ∈ keys (items.foldl (fun fields item => set fields (name item) (value item)) fields) ↔
      id ∈ keys fields ∨ id ∈ items.map name := by
  induction items generalizing fields with
  | nil => simp
  | cons item items ih =>
    rw [List.foldl_cons, ih, mem_keys_set, List.map_cons, List.mem_cons]
    tauto

theorem mem_keys_treeNodes (id : EntryId) : id ∈ keys (m.treeNodes m.entries.zipIdx) ↔ id ∈ ids m.entries := by
  unfold Manager.treeNodes
  rw [mem_keys_foldl_set (fun item : Entry × ℕ => item.1.id) m.treeNode, map_id_zipIdx]
  simp [keys]

theorem childrenOf_treeNodes (id : EntryId) : (m.treeNodes m.entries.zipIdx).childrenOf id = [] := by
  have hempty : ∀ (items : List (Entry × ℕ)) (nodes : TreeNodes), (∀ other, nodes.childrenOf other = []) →
      ∀ other, childrenOf
        (items.foldl (fun nodes entry => set nodes entry.1.id (m.treeNode entry)) nodes) other = [] := by
    intro items
    induction items with
    | nil => exact fun nodes h => h
    | cons item items ih =>
      intro nodes h
      refine ih _ (fun other => ?_)
      rw [childrenOf_set]
      split
      · rfl
      · exact h other
  exact hempty _ [] (fun _ => rfl) id

theorem placed_spec : SameEntries (m.treeNodes m.entries.zipIdx) (placed m).1 ∧
      (placed m).2 = (m.entries.filter (fun e => (treeParent (ids m.entries) e).isNone)).map Entry.id ∧
      ∀ p, (placed m).1.childrenOf p =
        (m.entries.filter (fun e => treeParent (ids m.entries) e = some p)).map Entry.id := by
  obtain ⟨h1, h2, h3⟩ := foldl_placeEntry (ids m.entries) m.entries (m.treeNodes m.entries.zipIdx) []
    (mem_keys_treeNodes m)
  refine ⟨h1, h2, fun p => ?_⟩
  have := h3 p
  rwa [childrenOf_treeNodes, List.nil_append] at this

theorem mem_children (p c : EntryId) (h : c ∈ (placed m).1.childrenOf p) :
    ∃ e ∈ m.entries, e.id = c ∧ e.parentId = some p ∧ p ≠ c ∧ p ∈ ids m.entries := by
  rw [(placed_spec m).2.2 p] at h
  obtain ⟨e, he, rfl⟩ := List.mem_map.mp h
  obtain ⟨hmem, hparent⟩ := List.mem_filter.mp he
  obtain ⟨h1, h2, h3⟩ := (treeParent_eq_some _ _ _).mp (of_decide_eq_true hparent)
  exact ⟨e, hmem, rfl, h1, h2, h3⟩

theorem mem_roots (c : EntryId) (h : c ∈ (placed m).2) :
    ∃ e ∈ m.entries, e.id = c ∧ treeParent (ids m.entries) e = none := by
  rw [(placed_spec m).2.1] at h
  obtain ⟨e, he, rfl⟩ := List.mem_map.mp h
  obtain ⟨hmem, hparent⟩ := List.mem_filter.mp he
  exact ⟨e, hmem, rfl, isNone_iff_eq_none.mp hparent⟩

theorem getTree_spec (fuel : ℕ) (forest : Forest) (h : m.getTree fuel = some forest) :
    forest.roots = (placed m).2 ∧ Resorted (placed m).1 forest.nodes := by
  unfold Manager.getTree at h
  obtain ⟨nodes, hnodes, rfl⟩ := map_eq_some_iff.mp h
  exact ⟨rfl, sortAll_resorted fuel _ _ _ _ (Resorted.refl _) hnodes⟩

end Tree

/-! ## Files that are walked well -/

theorem eq_of_id (hn : (ids entries).Nodup) (a b : Entry) (ha : a ∈ entries) (hb : b ∈ entries) (h : a.id = b.id) :
    a = b :=
  List.inj_on_of_nodup_map hn ha hb h

theorem parentLink_of_child (m : Manager) (hn : (ids m.entries).Nodup) (p c : Entry) (hp : p ∈ m.entries)
    (hc : c ∈ m.entries) (h : c.id ∈ (placed m).1.childrenOf p.id) :
    ParentLink m.entries c p ∧ c.parentId ≠ some c.id := by
  obtain ⟨e, hmem, hid, hparent, hne, -⟩ := mem_children m p.id c.id h
  obtain rfl := eq_of_id hn e c hmem hc hid
  refine ⟨⟨hp, hparent, fun hboth => hne (hboth.2.trans hboth.1.symm)⟩, ?_⟩
  intro hself
  exact hne (some.inj (hparent.symm.trans hself))

theorem LoopFree.children_acc {m : Manager} (h : LoopFree m.entries) (p : EntryId) :
    Acc (fun c p => c ∈ (placed m).1.childrenOf p) p := by
  have hup : ∀ a c, Relation.TransGen (fun p c => c ∈ (placed m).1.childrenOf p) a c →
      ∃ ea ∈ m.entries, ∃ ec ∈ m.entries, ea.id = a ∧ ec.id = c ∧ Relation.TransGen (ParentLink m.entries) ec ea := by
    intro a c hac
    induction hac with
    | @single c hc =>
      obtain ⟨ec, hec, rfl, -, -, ha⟩ := mem_children m a c hc
      obtain ⟨ea, hea, rfl⟩ := List.mem_map.mp ha
      exact ⟨ea, hea, ec, hec, rfl, rfl, .single (parentLink_of_child m h.nodup ea ec hea hec hc).1⟩
    | @tail b c _ hc ih =>
      obtain ⟨ea, hea, eb, heb, rfl, rfl, hab⟩ := ih
      obtain ⟨ec, hec, rfl, -⟩ := mem_children m _ c hc
      exact ⟨ea, hea, ec, hec, rfl, rfl, .head (parentLink_of_child m h.nodup eb ec heb hec hc).1 hab⟩
  refine (Links.wellFounded_of_loopless (ids m.entries) (fun p c => c ∈ (placed m).1.childrenOf p) ?_ ?_).apply p
  · intro a c hc
    obtain ⟨e, he, rfl, -⟩ := mem_children m a c hc
    exact List.mem_map.mpr ⟨e, he, rfl⟩
  · intro a _ hloop
    obtain ⟨ea, hea, ec, hec, hid, hid', hup⟩ := hup a a hloop
    obtain rfl := eq_of_id h.nodup ea ec hea hec (hid.trans hid'.symm)
    exact h.loopless ea hea hup

theorem count_filter_id (hn : (ids entries).Nodup) (q : Entry → Bool) (e : Entry) (he : e ∈ entries) :
    ((entries.filter q).map Entry.id).count e.id = if q e then 1 else 0 := by
  have hnodup : ((entries.filter q).map Entry.id).Nodup := hn.sublist (List.filter_sublist.map Entry.id)
  split
  · rename_i hq
    exact List.count_eq_one_of_mem hnodup (List.mem_map.mpr ⟨e, List.mem_filter.mpr ⟨he, hq⟩, rfl⟩)
  · rename_i hq
    refine List.count_eq_zero.mpr (fun hmem => ?_)
    obtain ⟨e', he', hid⟩ := List.mem_map.mp hmem
    obtain ⟨hmem', hq'⟩ := List.mem_filter.mp he'
    rw [eq_of_id hn e' e hmem' he hid] at hq'
    exact hq hq'

theorem sum_indicator (order : List EntryId) (p : EntryId) :
    (order.map (fun a => if p = a then 1 else 0)).sum = order.count p := by
  induction order with
  | nil => rfl
  | cons a order ih =>
    rw [List.map_cons, List.sum_cons, ih, List.count_cons]
    by_cases hp : p = a
    · simp [hp, Nat.add_comm]
    · simp [hp, Ne.symm hp]

section

variable {m : Manager} (h : LoopFree m.entries) (nodes : TreeNodes) (hnodes : Resorted (placed m).1 nodes)
    (fuel : ℕ) (order : List EntryId) (horder : Links.listing nodes.childrenOf fuel (placed m).2 = some order)
include h hnodes horder

theorem LoopFree.count_one (e : Entry) (he : e ∈ m.entries) : order.count e.id = 1 := by
  induction e using h.wellFounded.induction with
  | _ e ih =>
    have hchildren : ∀ p, (nodes.childrenOf p).count e.id = if treeParent (ids m.entries) e = some p then 1 else 0 := by
      intro p
      rw [(hnodes.perm p).count_eq, (placed_spec m).2.2 p, count_filter_id h.nodup _ e he]
      simp
    have hcount := Links.listing_count nodes.childrenOf fuel _ order horder e.id
    rw [(placed_spec m).2.1, count_filter_id h.nodup _ e he] at hcount
    simp only [hchildren] at hcount
    cases hparent : treeParent (ids m.entries) e with
    | none =>
      simp only [hparent] at hcount
      simpa using hcount
    | some p =>
      obtain ⟨hp, hne, hknown⟩ := (treeParent_eq_some _ _ _).mp hparent
      obtain ⟨parent, hmem, rfl⟩ := List.mem_map.mp hknown
      have hlink : ParentLink m.entries e parent := ⟨hmem, hp, fun hboth => hne (hboth.2.trans hboth.1.symm)⟩
      simp only [hparent, Option.some.injEq, sum_indicator, ih parent hlink hmem] at hcount
      simpa using hcount

theorem LoopFree.order_perm : order.Perm (ids m.entries) := by
  refine List.perm_iff_count.mpr (fun id => ?_)
  by_cases hid : id ∈ ids m.entries
  · obtain ⟨e, he, rfl⟩ := List.mem_map.mp hid
    rw [h.count_one nodes hnodes fuel order horder e he, List.count_eq_one_of_mem h.nodup hid]
  · have hout : id ∉ order := by
      intro hmem
      obtain ⟨r, hr, hreach⟩ := Links.mem_listing nodes.childrenOf fuel _ order horder id hmem
      rcases hreach.cases_tail with rfl | ⟨p, -, hc⟩
      · obtain ⟨e, he, rfl, -⟩ := mem_roots m _ hr
        exact hid (List.mem_map.mpr ⟨e, he, rfl⟩)
      · obtain ⟨e, he, rfl, -⟩ := mem_children m p id ((hnodes.perm p).mem_iff.mp hc)
        exact hid (List.mem_map.mpr ⟨e, he, rfl⟩)
    rw [List.count_eq_zero.mpr hid, List.count_eq_zero.mpr hout]

end

section

variable {m : Manager} (h : LoopFree m.entries)
include h

theorem LoopFree.objects (nodes : TreeNodes) (hnodes : Resorted (placed m).1 nodes) :
    (ids m.entries).filterMap (fun id => (get? nodes id).map TreeNode.entry) = m.entries.zipIdx := by
  have hkeys : keys (m.entries.zipIdx.map (fun item => (item.1.id, m.treeNode item))) = ids m.entries := by
    unfold keys
    rw [List.map_map, ← map_id_zipIdx]
    rfl
  have hnew : m.treeNodes m.entries.zipIdx = m.entries.zipIdx.map (fun item => (item.1.id, m.treeNode item)) := by
    have hset := foldl_set_new (fun item : Entry × ℕ => item.1.id) m.treeNode m.entries.zipIdx []
      (by simpa [keys, map_id_zipIdx] using h.nodup)
    simpa [Manager.treeNodes] using hset
  have hentry : ∀ item ∈ m.entries.zipIdx, (get? nodes item.1.id).map TreeNode.entry = some item := by
    intro item hitem
    have hget : get? (m.treeNodes m.entries.zipIdx) item.1.id = some (m.treeNode item) := by
      rw [hnew]
      exact get?_of_mem _ _ _ (by rw [hkeys]; exact h.nodup) (List.mem_map.mpr ⟨item, hitem, rfl⟩)
    rw [hnodes.entries, (placed_spec m).1, hget]
    rfl
  rw [← map_id_zipIdx, List.filterMap_map]
  exact (List.filterMap_congr hentry).trans List.filterMap_some

theorem LoopFree.tree : ∃ fuel forest, m.getTree fuel = some forest ∧
      ∃ fuel' order, forest.entries fuel' = some order ∧ order.Perm m.entries.zipIdx := by
  have hacc : ∀ (children : EntryId → List EntryId), (∀ p c, c ∈ children p → c ∈ (placed m).1.childrenOf p) →
      ∀ p, Acc (fun c p => c ∈ children p) p :=
    fun children hsub p => Subrelation.accessible (fun hc => hsub _ _ hc) (h.children_acc p)
  obtain ⟨fuel, order, hfuel⟩ := Links.listing_of_acc (fun id => ((placed m).1.sorted id).reverse)
    (placed m).2.reverse (fun p _ => hacc _ (fun p c hc =>
      (List.mergeSort_perm _ _).mem_iff.mp (List.mem_reverse.mp hc)) p)
  obtain ⟨nodes, hsort⟩ := sortAll_of_listing fuel _ _ _ order (Resorted.refl _) hfuel
  have hnodes := sortAll_resorted fuel _ _ _ _ (Resorted.refl _) hsort
  obtain ⟨fuel', order', hlisted⟩ := Links.listing_of_acc nodes.childrenOf (placed m).2
    (fun p _ => hacc _ (fun p c hc => (hnodes.perm p).mem_iff.mp hc) p)
  refine ⟨fuel, ⟨nodes, (placed m).2⟩, ?_, fuel',
    order'.filterMap (fun id => (get? nodes id).map TreeNode.entry), ?_, ?_⟩
  · unfold Manager.getTree
    exact map_eq_some_iff.mpr ⟨nodes, hsort, rfl⟩
  · unfold Forest.entries
    rw [hlisted]
    rfl
  · have hperm := (h.order_perm nodes hnodes fuel' order' hlisted).filterMap
      (fun id => (get? nodes id).map TreeNode.entry)
    rwa [h.objects nodes hnodes] at hperm

theorem LoopFree.walksWell (hbyId : m.byId = buildEntryIndex m.entries) : m.WalksWell := by
  have hpath : ∀ leaf, ∃ fuel path, walkSessionPath m.entries leaf m.byId fuel = some path := by
    intro leaf
    rw [hbyId]
    exact walkPath_of_ends _ _ (h.ends _)
  refine ⟨?_, hpath, ?_, h.tree, ?_, ?_⟩
  · intro fromId
    unfold Manager.walkBranch
    rw [hbyId]
    exact walkPath_of_ends _ _ (h.ends _)
  · intro leaf
    obtain ⟨fuel, path, hwalked⟩ := hpath leaf
    have hcontext : ∃ context, walkSessionContext m.entries leaf m.byId fuel = some context := by
      unfold walkSessionContext
      rw [hwalked]
      exact ⟨_, rfl⟩
    exact ⟨fuel, hcontext⟩
  · intro fuel fromId path hwalked
    exact walkPath_nodup _ _ _ _ hwalked
  · intro fuel fromId path hwalked
    unfold Manager.walkBranch at hwalked
    rw [hbyId] at hwalked
    exact walkPath_links _ _ _ _ hwalked

end

/-! ## Files that are not -/

theorem object_key (m : Manager) (nodes : TreeNodes) (hnodes : Resorted (placed m).1 nodes) (id : EntryId)
    (item : Entry × ℕ) (h : (get? nodes id).map TreeNode.entry = some item) : item.1.id = id := by
  rw [hnodes.entries, (placed_spec m).1] at h
  obtain ⟨node, hnode, rfl⟩ := map_eq_some_iff.mp h
  exact (get?_treeNodes m _ id node hnode).2

theorem nodup_of_tree {m : Manager} (fuel : ℕ) (forest : Forest) (hforest : m.getTree fuel = some forest) (fuel' : ℕ)
    (order : List (Entry × ℕ)) (horder : forest.entries fuel' = some order) (hperm : order.Perm m.entries.zipIdx) :
    (ids m.entries).Nodup := by
  obtain ⟨-, hnodes⟩ := getTree_spec m fuel forest hforest
  obtain ⟨listed, -, rfl⟩ := map_eq_some_iff.mp horder
  have hobject : ∀ item ∈ m.entries.zipIdx, (get? forest.nodes item.1.id).map TreeNode.entry = some item := by
    intro item hitem
    obtain ⟨id, -, hid⟩ := List.mem_filterMap.mp (hperm.mem_iff.mpr hitem)
    rwa [object_key m forest.nodes hnodes id item hid]
  rw [← map_id_zipIdx]
  have hplaces : m.entries.zipIdx.Nodup := by
    refine List.Nodup.of_map Prod.snd ?_
    rw [List.zipIdx_map_snd]
    exact List.nodup_range'
  refine List.Nodup.map_on ?_ hplaces
  intro a ha b hb hid
  have hsame := (hobject a ha).symm.trans (hid ▸ hobject b hb)
  exact some.inj hsame

section Loops

variable {m : Manager} (hn : (ids m.entries).Nodup)

include hn

theorem parentLink_unique (a b c : Entry) (hb : ParentLink m.entries a b) (hc : ParentLink m.entries a c) : b = c :=
  eq_of_id hn b c hb.1 hc.1 (some.inj (hb.2.1.symm.trans hc.2.1))

theorem above_self (a b : Entry) (ha : a ∈ m.entries) (hself : a.parentId = some a.id)
    (h : Relation.ReflTransGen (ParentLink m.entries) a b) : b = a := by
  induction h with
  | refl => rfl
  | tail _ hlink ih =>
    subst ih
    exact eq_of_id hn _ _ hlink.1 ha (some.inj (hlink.2.1.symm.trans hself))

theorem loop_parent (a b : Entry) (hlink : ParentLink m.entries a b)
    (hloop : Relation.TransGen (ParentLink m.entries) a a) : Relation.TransGen (ParentLink m.entries) b b := by
  obtain ⟨c, hc, hca⟩ := Relation.TransGen.head'_iff.mp hloop
  rw [parentLink_unique hn a c b hc hlink] at hca
  exact Relation.TransGen.tail' hca hlink

theorem not_listed_of_loop (nodes : TreeNodes) (hnodes : Resorted (placed m).1 nodes) (e : Entry) (he : e ∈ m.entries)
    (hself : e.parentId ≠ some e.id) (hloop : Relation.TransGen (ParentLink m.entries) e e) (fuel : ℕ)
    (order : List EntryId) (horder : Links.listing nodes.childrenOf fuel (placed m).2 = some order) : e.id ∉ order := by
  intro hmem
  obtain ⟨r, hr, hreach⟩ := Links.mem_listing nodes.childrenOf fuel _ order horder e.id hmem
  have hup : ∃ top ∈ m.entries, top.id = r ∧ top.parentId ≠ some top.id ∧
      Relation.TransGen (ParentLink m.entries) top top := by
    clear hr
    induction hreach using Relation.ReflTransGen.head_induction_on with
    | refl => exact ⟨e, he, rfl, hself, hloop⟩
    | @head p c hc _ ih =>
      obtain ⟨low, hlow, rfl, hlowSelf, hlowLoop⟩ := ih
      have hc' := (hnodes.perm p).mem_iff.mp hc
      obtain ⟨_, _, _, _, _, hp⟩ := mem_children m p low.id hc'
      obtain ⟨top, htop, rfl⟩ := List.mem_map.mp hp
      obtain ⟨hlink, -⟩ := parentLink_of_child m hn top low htop hlow hc'
      refine ⟨top, htop, rfl, ?_, loop_parent hn low top hlink hlowLoop⟩
      intro htopSelf
      obtain ⟨c, hlc, hcl⟩ := Relation.TransGen.head'_iff.mp hlowLoop
      rw [parentLink_unique hn low c top hlc hlink] at hcl
      obtain rfl := above_self hn top low htop htopSelf hcl
      exact hlowSelf htopSelf
  obtain ⟨top, htop, rfl, htopSelf, htopLoop⟩ := hup
  obtain ⟨root, hroot, hid, hnone⟩ := mem_roots m _ hr
  obtain rfl := eq_of_id hn root top hroot htop hid
  obtain ⟨b, hlink, -⟩ := Relation.TransGen.head'_iff.mp htopLoop
  have hsome : treeParent (ids m.entries) root = some b.id := by
    refine (treeParent_eq_some _ _ _).mpr ⟨hlink.2.1, ?_, List.mem_map.mpr ⟨b, hlink.1, rfl⟩⟩
    intro heq
    exact htopSelf (heq ▸ hlink.2.1)
  rw [hnone] at hsome
  simp at hsome

end Loops

theorem Manager.WalksWell.loopFree {m : Manager} (h : m.WalksWell) (hbyId : m.byId = buildEntryIndex m.entries) :
    LoopFree m.entries := by
  obtain ⟨fuel, forest, hforest, fuel', order, horder, hperm⟩ := h.tree
  have hn := nodup_of_tree fuel forest hforest fuel' order horder hperm
  refine ⟨hn, fun e he hloop => ?_⟩
  by_cases hself : e.parentId = some e.id
  · -- the walk from an entry that names itself does not end
    obtain ⟨b, hlink, -⟩ := Relation.TransGen.head'_iff.mp hloop
    obtain rfl : b = e := eq_of_id hn b e hlink.1 he (some.inj (hlink.2.1.symm.trans hself))
    have hne : b.id ≠ [] := fun hempty => hlink.2.2 ⟨hempty, hempty⟩
    have htruthy : truthyId (some b.id) = some b.id := by
      unfold truthyId
      simp [hne]
    have hget : get? (buildEntryIndex m.entries) b.id = some b := by
      rw [buildEntryIndex_eq _ hn]
      exact get?_indexOf _ hn b he
    have hnext : parentIn (buildEntryIndex m.entries) b = some b := by
      unfold parentIn
      rw [hself, htruthy, bind_some, hget]
    refine Links.not_ends_of_loop (parentIn (buildEntryIndex m.entries)) b (.single hnext) ?_
    obtain ⟨fuel, path, hwalked⟩ := h.branch (some b.id)
    unfold Manager.walkBranch at hwalked
    rw [some_or, htruthy, bind_some, hbyId, hget] at hwalked
    obtain ⟨walked, hwalked, -⟩ := map_eq_some_iff.mp hwalked
    exact ⟨fuel, walked, hwalked⟩
  · -- the tree leaves out a loop of several entries
    obtain ⟨hroots, hnodes⟩ := getTree_spec m fuel forest hforest
    obtain ⟨listed, hlisted, rfl⟩ := map_eq_some_iff.mp horder
    rw [hroots] at hlisted
    refine not_listed_of_loop hn forest.nodes hnodes e he hself hloop fuel' listed hlisted ?_
    have hmem : e ∈ m.entries.zipIdx.map Prod.fst := by rwa [List.zipIdx_map_fst]
    obtain ⟨item, hitem, rfl⟩ := List.mem_map.mp hmem
    obtain ⟨id, hid, hobject⟩ := List.mem_filterMap.mp (hperm.mem_iff.mpr hitem)
    rwa [object_key m forest.nodes hnodes id item hobject]

/-- The walks of a loaded file are as they should be if and only if its IDs are distinct and no entry is above
itself. -/
theorem walksWell_iff (header : Header) (entries : List Entry) :
    (Manager.load header entries).WalksWell ↔ LoopFree entries := by
  have hbyId : (Manager.load header entries).byId = buildEntryIndex (Manager.load header entries).entries := by
    rw [load_byId, load_entries]
  constructor
  · intro h
    have := h.loopFree hbyId
    rwa [load_entries] at this
  · intro h
    exact LoopFree.walksWell (by rwa [load_entries]) hbyId

def selfParent : Entry :=
  { id := js "1a2b3c4d", parentId := some (js "1a2b3c4d"), timestamp := 0, body := .sessionInfo (js "loop") }

theorem selfParent_walks :
    ¬ ∀ (header : Header) (entries : List Entry), (Manager.load header entries).WalksWell := by
  intro hall
  have h := (hall ⟨js "s", 0, js "/", none⟩ [selfParent]).loopFree (by rw [load_byId, load_entries])
  rw [load_entries] at h
  have hloop := h.loopless selfParent List.mem_cons_self
  refine hloop (.single ⟨List.mem_cons_self, rfl, ?_⟩)
  intro hempty
  exact absurd hempty.1 (by decide)

end PiAgent.Session
