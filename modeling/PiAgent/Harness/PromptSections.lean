import PiAgent.Harness.Prompt

/-! # Section patches -/

namespace PiAgent.Harness

open List Assoc

open Session (isIndex indexLe objectOrder patchSection)

/-! ## Object order -/

section ObjectOrder

variable {α : Type}

def Ordered (a b : JsString × α) : Prop := isIndex b = true → isIndex a = true ∧ indexLe a b = true

theorem sorted_index (fields : List (JsString × α)) :
    (fields.mergeSort indexLe).Pairwise (fun a b => indexLe a b = true) :=
  pairwise_mergeSort (fun a b c hab hbc => by simp only [indexLe, decide_eq_true_eq] at *; omega)
    (fun a b => by simp only [indexLe, Bool.or_eq_true, decide_eq_true_eq]; omega) _

theorem objectOrder_ordered (fields : List (JsString × α)) : (objectOrder fields).Pairwise Ordered := by
  have hindex : ∀ field ∈ (fields.filter isIndex).mergeSort indexLe, isIndex field = true := fun field hf =>
    (mem_filter.mp ((mergeSort_perm _ _).mem_iff.mp hf)).2
  have hother : ∀ field ∈ fields.filter (fun field => !isIndex field), isIndex field = false := fun field hf => by
    simpa using (mem_filter.mp hf).2
  unfold objectOrder
  refine pairwise_append.mpr ⟨?_, ?_, fun a ha b hb hi => ?_⟩
  · exact (sorted_index _).imp_of_mem (fun ha _ hab _ => ⟨hindex _ ha, hab⟩)
  · refine pairwise_of_forall_mem_list (fun a _ b hb hi => ?_)
    rw [hother b hb] at hi
    cases hi
  · rw [hother b hb] at hi
    cases hi

theorem partition_ordered (fields : List (JsString × α)) (h : fields.Pairwise Ordered) :
    fields.filter isIndex ++ fields.filter (fun field => !isIndex field) = fields := by
  induction fields with
  | nil => rfl
  | cons field fields ih =>
    obtain ⟨hfirst, hrest⟩ := pairwise_cons.mp h
    cases hi : isIndex field with
    | true => simpa [hi] using ih hrest
    | false =>
      have hnone : ∀ other ∈ fields, isIndex other = false := by
        intro other hmem
        by_contra hindex
        have := (hfirst other hmem (Bool.not_eq_false _ ▸ hindex)).1
        rw [hi] at this
        cases this
      have hno : fields.filter isIndex = [] := filter_eq_nil_iff.mpr (fun other hmem => by simp [hnone other hmem])
      have hall : fields.filter (fun field => !isIndex field) = fields :=
        filter_eq_self.mpr (fun other hmem => by simp [hnone other hmem])
      simp [hi, hno, hall]

theorem filter_objectOrder (p : JsString × α → Bool) (fields : List (JsString × α))
    (h : (fields.filter p).Pairwise Ordered) : (objectOrder fields).filter p = fields.filter p := by
  have hsorted : ((fields.filter isIndex).filter p).Pairwise (fun a b => indexLe a b = true) := by
    have hsub : ((fields.filter isIndex).filter p).Sublist (fields.filter p) := filter_sublist.filter p
    exact (h.sublist hsub).imp_of_mem (fun ha hb hab => (hab (mem_filter.mp (mem_filter.mp hb).1).2).2)
  have hsublist := sublist_mergeSort
    (fun a b c hab hbc => by simp only [indexLe, decide_eq_true_eq] at *; omega)
    (fun a b => by simp only [indexLe, Bool.or_eq_true, decide_eq_true_eq]; omega) hsorted
    (filter_sublist (l := fields.filter isIndex) (p := p))
  have hindex : ((fields.filter isIndex).mergeSort indexLe).filter p = (fields.filter isIndex).filter p := by
    have hkept := hsublist.filter p
    rw [filter_filter, filter_congr (fun x _ => Bool.and_self (p x))] at hkept
    exact (hkept.eq_of_length (((mergeSort_perm (fields.filter isIndex) indexLe).filter p).length_eq.symm)).symm
  unfold objectOrder
  have hparts := partition_ordered _ h
  rw [filter_filter, filter_filter] at hparts
  rw [filter_append, hindex, filter_filter, filter_filter, ← hparts]
  congr 1 <;> refine filter_congr (fun field _ => Bool.and_comm _ _)

theorem objectOrder_eq_iff (fields : List (JsString × α)) : objectOrder fields = fields ↔ fields.Pairwise Ordered := by
  constructor
  · intro h
    rw [← h]
    exact objectOrder_ordered fields
  · intro h
    have := filter_objectOrder (fun _ => true) fields (by simpa using h)
    simpa using this

end ObjectOrder

/-! ## Patching -/

theorem get?_perm {α : Type} (a b : List (JsString × α)) (hn : (Assoc.keys a).Nodup) (h : a.Perm b) (key : JsString) :
    get? a key = get? b key := by
  have hn' : (Assoc.keys b).Nodup := (h.map Prod.fst).nodup_iff.mp hn
  refine Option.ext (fun value => ?_)
  constructor
  · intro hget
    exact get?_of_mem b key value hn' (h.mem_iff.mp (mem_of_get? a key value hget))
  · intro hget
    exact get?_of_mem a key value hn (h.mem_iff.mpr (mem_of_get? b key value hget))

theorem set_present {α : Type} (fields : List (JsString × α)) (key : JsString) (value : α)
    (hn : (Assoc.keys fields).Nodup) (h : key ∈ Assoc.keys fields) :
    Assoc.set fields key value = fields.map (fun field => if field.1 = key then (key, value) else field) := by
  induction fields with
  | nil => cases h
  | cons field fields ih =>
    obtain ⟨hnew, hrest⟩ := nodup_cons.mp hn
    obtain ⟨first, old⟩ := field
    rw [Assoc.set, map_cons]
    by_cases heq : first = key
    · have hkept : fields.map (fun field => if field.1 = key then (key, value) else field) = fields := by
        refine (map_congr_left (fun other hmem => if_neg (fun hkey => ?_))).trans (map_id _)
        have hfirst : first ∈ fields.map Prod.fst := by
          rw [heq, ← hkey]
          exact mem_map_of_mem hmem
        exact hnew hfirst
      rw [if_pos heq, if_pos heq, hkept, heq]
    · rw [if_neg heq, if_neg heq, ih hrest ((mem_cons.mp h).resolve_left (fun hkey => heq hkey.symm))]

def patched (patch : SectionPatch) (field : JsString × JsString) : Option (JsString × JsString) :=
  match get? patch field.1 with
  | none => some field
  | some none => none
  | some (some value) => some (field.1, value)

def appended (sections : List (JsString × JsString)) (field : JsString × Option JsString) : Option (JsString × JsString) :=
  if Assoc.has sections field.1 then none else field.2.map (fun value => (field.1, value))

theorem has_congr {α β : Type} (a : List (JsString × α)) (b : List (JsString × β)) (key : JsString)
    (h : key ∈ Assoc.keys a ↔ key ∈ Assoc.keys b) : Assoc.has a key = Assoc.has b key := by
  rw [Bool.eq_iff_iff, Assoc.has_iff, Assoc.has_iff]
  exact h

theorem foldl_patchSection (patch : SectionPatch) (sections : List (JsString × JsString))
    (hp : (Assoc.keys patch).Nodup) (hs : (Assoc.keys sections).Nodup) :
    patch.foldl patchSection sections = sections.filterMap (patched patch) ++ patch.filterMap (appended sections) := by
  induction patch generalizing sections with
  | nil =>
    rw [foldl_nil, filterMap_nil, append_nil]
    exact (filterMap_some).symm
  | cons field patch ih =>
    obtain ⟨key, change⟩ := field
    obtain ⟨hnew, hrest⟩ := nodup_cons.mp hp
    have hnone : get? patch key = none := (get?_eq_none_iff patch key).mpr hnew
    have hcons : ∀ other : JsString × JsString, patched ((key, change) :: patch) other =
        if key = other.1 then change.map (fun value => (other.1, value)) else patched patch other := by
      intro other
      unfold patched
      by_cases hk : key = other.1
      · rw [if_pos hk, ← hk, get?_cons_self]
        cases change <;> rfl
      · rw [if_neg hk, get?_cons_ne _ _ _ _ hk]
    have happended : ∀ later : List (JsString × JsString),
        (∀ k, k ≠ key → (k ∈ Assoc.keys later ↔ k ∈ Assoc.keys sections)) →
        patch.filterMap (appended later) = patch.filterMap (appended sections) := by
      intro later hkeys
      refine filterMap_congr (fun other hmem => ?_)
      have hne : other.1 ≠ key := by
        rintro rfl
        exact hnew (mem_map.mpr ⟨other, hmem, rfl⟩)
      unfold appended
      rw [has_congr later sections other.1 (hkeys other.1 hne)]
    rw [foldl_cons]
    cases change with
    | none =>
      have hpatch : patchSection sections (key, none) = Assoc.del sections key := rfl
      rw [hpatch, ih _ hrest (nodup_keys_del sections key hs),
        happended _ (fun k hk => by rw [mem_keys_del]; simp [hk])]
      have hfirst : appended sections (key, none) = none := by
        unfold appended
        split <;> rfl
      rw [filterMap_cons_none hfirst]
      congr 1
      unfold Assoc.del
      rw [List.filterMap_filter]
      refine filterMap_congr (fun other _ => ?_)
      rw [hcons other]
      by_cases hk : key = other.1
      · simp [hk]
      · simp [hk, Ne.symm hk]
    | some value =>
      have hpatch : patchSection sections (key, some value) = Assoc.set sections key value := rfl
      rw [hpatch, ih _ hrest (nodup_keys_set sections key value hs),
        happended _ (fun k hk => by rw [mem_keys_set]; simp [hk])]
      by_cases hkey : key ∈ Assoc.keys sections
      · have hfirst : appended sections (key, some value) = none := by
          unfold appended
          rw [if_pos ((Assoc.has_iff sections key).mpr hkey)]
        rw [filterMap_cons_none hfirst, set_present sections key value hs hkey, filterMap_map]
        congr 1
        refine filterMap_congr (fun other _ => ?_)
        rw [hcons other]
        by_cases hk : key = other.1
        · simp [patched, ← hk, hnone]
        · simp [hk, Ne.symm hk]
      · have hfirst : appended sections (key, some value) = some (key, value) := by
          unfold appended
          rw [if_neg (fun h => hkey ((Assoc.has_iff sections key).mp h))]
          rfl
        rw [filterMap_cons_some hfirst, Session.set_new sections key value hkey, filterMap_append, append_assoc]
        congr 1
        · refine filterMap_congr (fun other hmem => ?_)
          have hne : key ≠ other.1 := by
            rintro rfl
            exact hkey (mem_map_of_mem hmem)
          rw [hcons other, if_neg hne]
        · simp [patched, hnone]

theorem get?_patched_other (patch : SectionPatch) (sections : List (JsString × JsString)) (key : JsString)
    (h : key ∉ Assoc.keys patch) : get? (patch.foldl patchSection sections) key = get? sections key := by
  induction patch generalizing sections with
  | nil => rfl
  | cons field patch ih =>
    have hne : field.1 ≠ key := fun heq => h (heq ▸ mem_cons_self ..)
    rw [foldl_cons, ih _ (fun hmem => h (mem_cons_of_mem _ hmem))]
    unfold patchSection
    split
    · exact get?_del_ne _ _ _ hne
    · exact get?_set_ne _ _ _ _ hne

/-! ## Complete patches -/

theorem keys_present (sections : List (JsString × JsString)) : Assoc.keys (present sections) = Assoc.keys sections := by
  unfold Assoc.keys present
  rw [map_map]
  rfl

theorem nodup_objectOrder {α : Type} (fields : List (JsString × α)) (h : (Assoc.keys fields).Nodup) :
    (Assoc.keys (objectOrder fields)).Nodup :=
  ((Session.keys_objectOrder_perm fields).map Prod.fst).nodup_iff.mpr h

theorem fromEntries_present (sections : List (JsString × JsString)) (h : (Assoc.keys sections).Nodup) :
    (fromEntries (present sections)).foldl patchSection [] = objectOrder sections := by
  have hkeys : (Assoc.keys (fromEntries (present sections))).Nodup :=
    nodup_objectOrder _ (by rw [keys_present]; exact h)
  have hentries : fromEntries (present sections) = (objectOrder sections).map (fun field => (field.1, some field.2)) :=
    Session.objectOrder_map some sections
  rw [foldl_patchSection _ [] hkeys (show (Assoc.keys []).Nodup from nodup_nil), filterMap_nil, nil_append, hentries, filterMap_map]
  exact filterMap_some

theorem fromEntries_removed (shown : List (JsString × JsString)) (h : (Assoc.keys shown).Nodup) :
    (fromEntries (shown.map (fun field => (field.1, none)))).foldl patchSection shown = [] := by
  have hmap : Assoc.keys (shown.map (fun field => (field.1, (none : Option JsString)))) = Assoc.keys shown := by
    unfold Assoc.keys
    rw [map_map]
    rfl
  have hkeys : (Assoc.keys (fromEntries (shown.map (fun field => (field.1, (none : Option JsString)))))).Nodup :=
    nodup_objectOrder _ (by rw [hmap]; exact h)
  have hmem : ∀ field, field ∈ fromEntries (shown.map (fun field => (field.1, (none : Option JsString)))) ↔
      field ∈ shown.map (fun field => (field.1, (none : Option JsString))) :=
    fun field => (Session.keys_objectOrder_perm _).mem_iff
  rw [foldl_patchSection _ _ hkeys h, append_eq_nil_iff, filterMap_eq_nil_iff, filterMap_eq_nil_iff]
  constructor
  · intro field hf
    have hget := get?_of_mem _ field.1 none hkeys ((hmem _).mpr (mem_map.mpr ⟨field, hf, rfl⟩))
    unfold patched
    rw [hget]
  · intro field hf
    obtain ⟨old, -, rfl⟩ := mem_map.mp ((hmem field).mp hf)
    unfold appended
    split <;> rfl

/-! ## The minimal patch -/

theorem appended_ordered (patch : SectionPatch) (sections : List (JsString × JsString)) (h : patch.Pairwise Ordered) :
    (patch.filterMap (appended sections)).Pairwise Ordered := by
  refine List.Pairwise.filterMap _ (fun a a' hab b hb b' hb' => ?_) h
  have hkey : ∀ (field : JsString × Option JsString) (new : JsString × JsString),
      new ∈ appended sections field → new.1 = field.1 := by
    intro field new hnew
    unfold appended at hnew
    split at hnew
    · cases hnew
    · obtain ⟨value, -, rfl⟩ := Option.map_eq_some_iff.mp (Option.mem_def.mp hnew)
      rfl
  unfold Ordered isIndex indexLe at hab ⊢
  rw [hkey a b hb, hkey a' b' hb']
  exact hab

section Minimal

variable (shown desired : List (JsString × JsString)) (hs : (Assoc.keys shown).Nodup) (hd : (Assoc.keys desired).Nodup)

theorem eq_of_zipIdx {α : Type} [DecidableEq α] (a b : List α) (hlength : a.length = b.length)
    (h : a.zipIdx.any (fun e => b[e.2]? ≠ some e.1) = false) : a = b := by
  refine ext_getElem? (fun i => ?_)
  rcases hget : a[i]? with _ | x
  · rw [List.getElem?_eq_none_iff] at hget
    exact (getElem?_eq_none (by omega)).symm
  · have hmem : (x, i) ∈ a.zipIdx := mem_zipIdx_iff_getElem?.mpr hget
    have hsame := any_eq_false.mp h (x, i) hmem
    simp only [ne_eq, decide_not, Bool.not_eq_true', decide_eq_false_iff_not, not_not] at hsame
    exact hsame.symm

def keptSections (shown desired : List (JsString × JsString)) : List (JsString × JsString) :=
  desired.filter (fun field => Assoc.has shown field.1)

theorem keys_filter {α : Type} (sections : List (JsString × α)) (p : JsString → Bool) :
    Assoc.keys (sections.filter (fun field => p field.1)) = (Assoc.keys sections).filter p := by
  unfold Assoc.keys
  rw [filter_map]
  rfl

include hs hd

theorem patchedOrder_length :
    ((Assoc.keys shown).filter (Assoc.has desired) ++ (Assoc.keys desired).filter (fun key => !Assoc.has shown key)).length =
      (Assoc.keys desired).length := by
  have hperm : ((Assoc.keys shown).filter (Assoc.has desired)).Perm ((Assoc.keys desired).filter (Assoc.has shown)) := by
    refine (perm_ext_iff_of_nodup (hs.filter _) (hd.filter _)).mpr (fun key => ?_)
    rw [mem_filter, mem_filter, Assoc.has_iff, Assoc.has_iff]
    exact and_comm
  rw [length_append, hperm.length_eq, ← length_append]
  exact (filter_append_perm (Assoc.has shown) (Assoc.keys desired)).length_eq

/-- Where the order stays, the desired sections are those in effect, in their order, and then the new ones. -/
theorem kept_order (h : reorders shown desired = false) :
    desired = keptSections shown desired ++ newSections shown desired ∧
      Assoc.keys (keptSections shown desired) = (Assoc.keys shown).filter (Assoc.has desired) := by
  have hkeys := eq_of_zipIdx _ _ (patchedOrder_length shown desired hs hd) h
  have hfirst : (Assoc.keys desired).filter (Assoc.has shown) = (Assoc.keys shown).filter (Assoc.has desired) := by
    conv_lhs => rw [← hkeys]
    rw [filter_append, filter_filter, filter_filter]
    have hnone : (Assoc.keys desired).filter (fun key => Assoc.has shown key && !Assoc.has shown key) = [] :=
      filter_eq_nil_iff.mpr (fun key _ => by simp)
    have hall : (Assoc.keys shown).filter (fun key => Assoc.has shown key && Assoc.has desired key) =
        (Assoc.keys shown).filter (Assoc.has desired) :=
      filter_congr (fun key hmem => by rw [(Assoc.has_iff shown key).mpr hmem, Bool.true_and])
    rw [hnone, hall, append_nil]
  have hkept : Assoc.keys (keptSections shown desired) = (Assoc.keys shown).filter (Assoc.has desired) :=
    (keys_filter desired (Assoc.has shown)).trans hfirst
  refine ⟨?_, hkept⟩
  have hnew : Assoc.keys (newSections shown desired) = (Assoc.keys desired).filter (fun key => !Assoc.has shown key) :=
    keys_filter desired (fun key => !Assoc.has shown key)
  have hperm : (keptSections shown desired ++ newSections shown desired).Perm desired :=
    filter_append_perm (fun field : JsString × JsString => Assoc.has shown field.1) desired
  have hsame : Assoc.keys (keptSections shown desired ++ newSections shown desired) = Assoc.keys desired := by
    rw [← hkeys, ← hkept, ← hnew]
    exact map_append
  refine ext_getElem? (fun i => ?_)
  -- The same keys in the same order, and each key has one value.
  have hat := congrArg (fun keys => keys[i]?) hsame
  simp only [Assoc.keys, getElem?_map] at hat
  rcases hleft : desired[i]? with _ | field <;>
    rcases hright : (keptSections shown desired ++ newSections shown desired)[i]? with _ | field'
  · rfl
  · rw [hleft, hright] at hat
    cases hat
  · rw [hleft, hright] at hat
    cases hat
  · rw [hleft, hright] at hat
    have hkey : field'.1 = field.1 := Option.some.inj hat
    have hmem := hperm.mem_iff.mp (mem_of_getElem? hright)
    have hvalue := get?_of_mem desired field'.1 field'.2 hd hmem
    rw [hkey, get?_of_mem desired field.1 field.2 hd (mem_of_getElem? hleft)] at hvalue
    exact congrArg some (Prod.ext hkey.symm (Option.some.inj hvalue))

def kept (fields : SectionPatch) : SectionPatch := fields.filter (fun field => field.1 ≠ js "__proto__")

theorem nodup_assignments : (Assoc.keys (assignments shown desired)).Nodup := by
  have hfirst : Assoc.keys ((shown.filter (fun field => get? desired field.1 ≠ some field.2)).map
      (fun field => (field.1, get? desired field.1))) =
      Assoc.keys (shown.filter (fun field => get? desired field.1 ≠ some field.2)) := by
    unfold Assoc.keys
    rw [map_map]
    rfl
  have hsub : (Assoc.keys (shown.filter (fun field => get? desired field.1 ≠ some field.2))).Sublist
      (Assoc.keys shown) := filter_sublist.map _
  have hsubNew : (Assoc.keys (newSections shown desired)).Sublist (Assoc.keys desired) := filter_sublist.map _
  have hkeys : Assoc.keys (assignments shown desired) =
      Assoc.keys (shown.filter (fun field => get? desired field.1 ≠ some field.2)) ++
        Assoc.keys (newSections shown desired) := by
    rw [← hfirst, ← keys_present (newSections shown desired)]
    exact map_append
  rw [hkeys]
  refine nodup_append.mpr ⟨hs.sublist hsub, hd.sublist hsubNew, fun key hkey other hother heq => ?_⟩
  obtain ⟨field, hfield, rfl⟩ := mem_map.mp hother
  have hnot := (mem_filter.mp hfield).2
  rw [(Assoc.has_iff shown field.1).mpr (heq ▸ hsub.subset hkey)] at hnot
  cases hnot

theorem get?_assignments (key value : JsString) (hmem : (key, value) ∈ shown) :
    get? (assignments shown desired) key =
      if get? desired key = some value then none else some (get? desired key) := by
  have hhas : Assoc.has shown key = true := (Assoc.has_iff shown key).mpr (mem_map.mpr ⟨_, hmem, rfl⟩)
  by_cases hsame : get? desired key = some value
  · rw [if_pos hsame, get?_eq_none_iff]
    intro hkey
    obtain ⟨field, hfield, hfst⟩ := mem_map.mp hkey
    rcases mem_append.mp hfield with hchanged | hnew
    · obtain ⟨old, hold, rfl⟩ := mem_map.mp hchanged
      obtain ⟨holdMem, hdiffers⟩ := mem_filter.mp hold
      have hval := get?_of_mem shown old.1 old.2 hs holdMem
      rw [show old.1 = key from hfst, get?_of_mem shown key value hs hmem] at hval
      obtain rfl := Option.some.inj hval
      rw [show old.1 = key from hfst] at hdiffers
      simp [hsame] at hdiffers
    · obtain ⟨new, hnewMem, rfl⟩ := mem_map.mp hnew
      have hnot := (mem_filter.mp hnewMem).2
      rw [show new.1 = key from hfst, hhas] at hnot
      cases hnot
  · rw [if_neg hsame]
    refine get?_of_mem _ _ _ (nodup_assignments shown desired hs hd) (mem_append_left _ ?_)
    exact mem_map.mpr ⟨(key, value), mem_filter.mpr ⟨hmem, by simp [hsame]⟩, rfl⟩

theorem nodup_kept : (Assoc.keys (kept (assignments shown desired))).Nodup := by
  unfold kept
  rw [keys_filter _ (fun key => key ≠ js "__proto__")]
  exact (nodup_assignments shown desired hs hd).filter _

theorem patched_shown (hproto : get? shown (js "__proto__") = get? desired (js "__proto__"))
    (horder : reorders shown desired = false) :
    shown.filterMap (patched (assigned (assignments shown desired))) = keptSections shown desired := by
  have hnodup := nodup_kept shown desired hs hd
  have hpatched : ∀ field ∈ shown, patched (assigned (assignments shown desired)) field =
      (get? desired field.1).map (fun value => (field.1, value)) := by
    rintro ⟨key, value⟩ hmem
    have hget : get? (assigned (assignments shown desired)) key =
        if get? desired key = some value then none else some (get? desired key) := by
      have hperm := get?_perm _ _ hnodup (Session.keys_objectOrder_perm (kept (assignments shown desired))).symm key
      rw [show get? (assigned (assignments shown desired)) key = _ from hperm.symm]
      unfold kept
      rw [get?_filter _ (fun key => key ≠ js "__proto__"), get?_assignments shown desired hs hd key value hmem]
      by_cases hkey : key = js "__proto__"
      · rw [hkey] at hmem ⊢
        rw [← hproto, get?_of_mem shown _ value hs hmem]
        simp
      · simp [hkey]
    unfold patched
    rw [hget]
    by_cases hsame : get? desired key = some value
    · simp [hsame]
    · rw [if_neg hsame]
      cases get? desired key <;> rfl
  obtain ⟨-, hkeys⟩ := kept_order shown desired hs hd horder
  have hlookup : ∀ sections : List (JsString × JsString), sections ⊆ desired →
      sections = (Assoc.keys sections).filterMap (fun key => (get? desired key).map (fun value => (key, value))) := by
    intro sections hsub
    unfold Assoc.keys
    rw [filterMap_map]
    refine (filterMap_some.symm.trans (filterMap_congr (fun field hmem => ?_)))
    simp [get?_of_mem desired field.1 field.2 hd (hsub hmem)]
  have hsub : keptSections shown desired ⊆ desired := filter_subset_self _
  rw [filterMap_congr hpatched, hlookup _ hsub, hkeys, List.filterMap_filter]
  unfold Assoc.keys
  rw [filterMap_map]
  refine filterMap_congr (fun field _ => ?_)
  by_cases hhas : Assoc.has desired field.1 = true
  · simp [hhas]
  · have hnone : get? desired field.1 = none := by
      rw [get?_eq_none_iff, ← Assoc.has_iff]
      exact hhas
    simp [hhas, hnone]

omit hs in
theorem appended_new (hproto : get? shown (js "__proto__") = get? desired (js "__proto__"))
    (hnew : (newSections shown desired).Pairwise Ordered) :
    (assigned (assignments shown desired)).filterMap (appended shown) = newSections shown desired := by
  have hnoProto : ∀ field ∈ newSections shown desired, field.1 ≠ js "__proto__" := by
    intro field hmem heq
    obtain ⟨hfield, hnot⟩ := mem_filter.mp hmem
    have hget := get?_of_mem desired field.1 field.2 hd hfield
    rw [heq, ← hproto] at hget
    rw [heq] at hnot
    unfold Assoc.has at hnot
    rw [hget] at hnot
    cases hnot
  have hfilter : (kept (assignments shown desired)).filter (fun field => !Assoc.has shown field.1) =
      present (newSections shown desired) := by
    unfold kept assignments
    rw [filter_filter, filter_append]
    have hchanged : ((shown.filter (fun field => get? desired field.1 ≠ some field.2)).map
        (fun field => (field.1, get? desired field.1))).filter
          (fun field => !Assoc.has shown field.1 && decide (field.1 ≠ js "__proto__")) = [] := by
      refine filter_eq_nil_iff.mpr (fun field hmem => ?_)
      obtain ⟨old, hold, rfl⟩ := mem_map.mp hmem
      have hhas := (Assoc.has_iff shown old.1).mpr (mem_map_of_mem (mem_filter.mp hold).1)
      simp [hhas]
    rw [hchanged, nil_append]
    refine filter_eq_self.mpr (fun field hmem => ?_)
    obtain ⟨new, hnewMem, rfl⟩ := mem_map.mp hmem
    have hnot := (mem_filter.mp hnewMem).2
    simp only [hnot, Bool.true_and, decide_eq_true_eq]
    exact hnoProto new hnewMem
  have hordered : ((kept (assignments shown desired)).filter (fun field => !Assoc.has shown field.1)).Pairwise Ordered := by
    rw [hfilter]
    exact pairwise_map.mpr (hnew.imp (fun hab => hab))
  have hsplit : (assigned (assignments shown desired)).filterMap (appended shown) =
      ((assigned (assignments shown desired)).filter (fun field => !Assoc.has shown field.1)).filterMap (appended shown) := by
    rw [List.filterMap_filter]
    refine filterMap_congr (fun field _ => ?_)
    unfold appended
    cases Assoc.has shown field.1 <;> rfl
  rw [hsplit]
  change ((objectOrder (kept (assignments shown desired))).filter (fun field => !Assoc.has shown field.1)).filterMap
    (appended shown) = _
  rw [filter_objectOrder _ _ hordered, hfilter]
  unfold present
  rw [filterMap_map]
  refine (filterMap_congr (fun field hmem => ?_)).trans filterMap_some
  have hnot := (mem_filter.mp hmem).2
  simp only [Bool.not_eq_true'] at hnot
  simp [appended, hnot]

/-- The minimal patch leads to the desired sections exactly when their new keys are in object order and no
`__proto__` changes. -/
theorem minimal_iff (horder : reorders shown desired = false) :
    (assigned (assignments shown desired)).foldl patchSection shown = desired ↔
      objectOrder (newSections shown desired) = newSections shown desired ∧
        get? shown (js "__proto__") = get? desired (js "__proto__") := by
  have hkeys : Assoc.keys (kept (assignments shown desired)) =
      (Assoc.keys (assignments shown desired)).filter (fun key => key ≠ js "__proto__") :=
    keys_filter _ (fun key => key ≠ js "__proto__")
  have hnodup : (Assoc.keys (assigned (assignments shown desired))).Nodup :=
    nodup_objectOrder (kept (assignments shown desired)) (nodup_kept shown desired hs hd)
  have hparts := kept_order shown desired hs hd horder
  rw [objectOrder_eq_iff]
  constructor
  · intro h
    have hproto : get? shown (js "__proto__") = get? desired (js "__proto__") := by
      rw [← h]
      refine (get?_patched_other _ _ _ (fun hmem => ?_)).symm
      have hmem' := ((Session.keys_objectOrder_perm (kept (assignments shown desired))).map Prod.fst).mem_iff.mp hmem
      rw [show (kept (assignments shown desired)).map Prod.fst = _ from hkeys, mem_filter] at hmem'
      simp at hmem'
    refine ⟨?_, hproto⟩
    rw [foldl_patchSection _ _ hnodup hs, patched_shown shown desired hs hd hproto horder] at h
    have hnew : (assigned (assignments shown desired)).filterMap (appended shown) = newSections shown desired :=
      append_cancel_left (h.trans hparts.1)
    rw [← hnew]
    exact appended_ordered _ _ (objectOrder_ordered _)
  · rintro ⟨hnew, hproto⟩
    rw [foldl_patchSection _ _ hnodup hs, patched_shown shown desired hs hd hproto horder,
      appended_new shown desired hd hproto hnew]
    exact hparts.1.symm

end Minimal

end PiAgent.Harness
