import PiAgent.Chord.Delta.Nested
import PiAgent.Harness.View

/-!
# The documents of a view

What a publication says of the mounted documents, and that the mount follows it.
-/

namespace PiAgent.Harness

open Option Function List Assoc Durable Delta JsonValue

/-! ## Operations on the view -/

section Operations

variable (entryJson : EntryRecord → JsonValue) (conversationJson : ConversationRecord → JsonValue)

def docsPlace (view : ConversationView) : Place :=
  [.field [(js "conversation", conversationJson view.conversation), (js "entries", .arr (view.entries.map entryJson))]
    (js "docs") []]

variable (view : ConversationView)

theorem docsPlace_ok : (docsPlace entryJson conversationJson view).Ok := by
  intro frame hframe
  rw [mem_singleton.mp hframe]
  refine ⟨?_, by decide⟩
  have h : ([js "conversation", js "entries"] : List JsString).contains (js "docs") = false := by decide
  simpa [Assoc.keys] using h

variable (docs : List (JsString × JsonValue))

theorem json_docs : ({ view with docs } : ConversationView).json entryJson conversationJson =
      (docsPlace entryJson conversationJson view).plug (.obj docs) := rfl

variable (kind : JsString)

theorem mounted_safe (h : kind ∈ MOUNTED_KINDS) : kind ∉ reservedSegments := by
  have hall : ∀ kind ∈ MOUNTED_KINDS, kind ∉ reservedSegments := by decide
  exact hall kind h

theorem apply_setDoc (hkind : kind ∈ MOUNTED_KINDS) (value : JsonValue) :
    applyOp (({ view with docs } : ConversationView).json entryJson conversationJson)
      (.edit (docPath kind) (.s value)) =
      .ok (({ view with docs := set docs kind value } : ConversationView).json entryJson conversationJson) :=
  applyOp_setProperty _ (docsPlace_ok entryJson conversationJson view) docs kind value (mounted_safe kind hkind)

theorem apply_deleteDoc (hkind : kind ∈ MOUNTED_KINDS) :
    applyOp (({ view with docs } : ConversationView).json entryJson conversationJson) (.edit (docPath kind) .d) =
      .ok (({ view with docs := del docs kind } : ConversationView).json entryJson conversationJson) :=
  applyOp_deleteProperty _ (docsPlace_ok entryJson conversationJson view) docs kind (mounted_safe kind hkind)

/-- The operations of a document change the document in the view in the same way. -/
theorem apply_prefixed (hkind : kind ∈ MOUNTED_KINDS) (ops : List Op) (old new : JsonValue) (hold : get? docs kind = some old)
    (h : Delta.apply old ops = .ok new) :
    ∃ docs', Delta.apply (({ view with docs } : ConversationView).json entryJson conversationJson)
        (ops.map (fun op => prefixed op (docPath kind))) =
      .ok (({ view with docs := docs' } : ConversationView).json entryJson conversationJson) ∧
      ∀ k, get? docs' k = if kind = k then some new else get? docs k := by
  obtain ⟨before, after, rfl, hbefore⟩ := exists_split docs kind old hold
  have hframe : (Frame.field before kind after).Ok := ⟨hbefore, mounted_safe kind hkind⟩
  have hplace := docsPlace_ok entryJson conversationJson view
  have hfull : (docsPlace entryJson conversationJson view ++ [Frame.field before kind after]).Ok :=
    (Place.ok_append _ _).mpr ⟨hplace, (Place.ok_singleton _).mpr hframe⟩
  have hstep : ∀ (op : Op) (u v : JsonValue), applyOp u op = .ok v →
      applyOp ((docsPlace entryJson conversationJson view).plug (.obj (before ++ (kind, u) :: after)))
        (prefixed op (docPath kind)) =
      .ok ((docsPlace entryJson conversationJson view).plug (.obj (before ++ (kind, v) :: after))) := by
    intro op u v hop
    cases op with
    | r value =>
      cases hop
      exact applyOp_setSlot _ hplace (.field before kind after) u v hframe
    | edit path e =>
      have := applyOp_nested _ hfull u v path e hop
      rw [Place.plug_append, Place.plug_append] at this
      exact this
  refine ⟨before ++ (kind, new) :: after, ?_, fun k => ?_⟩
  · simp only [json_docs]
    clear hold
    induction ops generalizing old with
    | nil =>
      cases h
      rfl
    | cons op ops ih =>
      cases hop : applyOp old op with
      | error e =>
        simp only [Delta.apply, hop, bind, Except.bind] at h
        cases h
      | ok next =>
        rw [apply_cons old next op ops hop] at h
        rw [map_cons, apply_cons _ _ _ _ (hstep op old next hop)]
        exact ih next h
  · rw [← set_middle before after kind old new hbefore, get?_set]

end Operations

/-! ## What a publication says -/

def Mounts (id : Id) (c : DocumentChange) : Prop :=
  c.conversationId = some id ∧ c.kind ∈ MOUNTED_KINDS ∧ c.key = none

instance (id : Id) (c : DocumentChange) : Decidable (Mounts id c) := by
  unfold Mounts
  exact inferInstance

def mountedChanges (id : Id) (changes : List Change) : List DocumentChange :=
  changes.filterMap fun
    | .document c => if Mounts id c then some c else none
    | _ => none

structure Published (before after : Documents) (cs : List DocumentChange) : Prop where
  once : (cs.map DocumentChange.id).Nodup
  retired : ∀ c ∈ cs, c.value = none → ∀ loaded, after c.kind = some loaded → loaded.id ≠ c.id
  present : ∀ c ∈ cs, ∀ value, c.value = some value →
    ∃ version, c.version = some version ∧ after c.kind = some ⟨c.id, version, value⟩
  ops : ∀ c ∈ cs, ∀ value, c.value = some value → ∀ loaded, before c.kind = some loaded → loaded.id = c.id →
    some loaded.version = c.version → Delta.apply loaded.value c.ops = .ok value
  came : ∀ kind ∈ MOUNTED_KINDS, ∀ loaded, after kind = some loaded → before kind ≠ some loaded →
    ∃ c ∈ cs, c.kind = kind ∧ c.value.isSome = true
  gone : ∀ kind ∈ MOUNTED_KINDS, ∀ loaded, before kind = some loaded → after kind = none →
    ∃ c ∈ cs, c.kind = kind ∧ c.id = loaded.id ∧ c.value = none

def documentStep (documents : Documents) (c : DocumentChange) : Documents :=
  match c.value with
  | none =>
    if (documents c.kind).any (fun loaded => loaded.id = c.id) then update documents c.kind none
    else documents
  | some value => update documents c.kind (some ⟨c.id, c.version.getD 0, value⟩)

variable (documents : Documents)

theorem documentStep_other (c : DocumentChange) (kind : JsString) (h : kind ≠ c.kind) :
    documentStep documents c kind = documents kind := by
  cases hv : c.value with
  | none =>
    simp only [documentStep, hv]
    split
    · exact update_of_ne h _ _
    · rfl
  | some value =>
    simp only [documentStep, hv]
    exact update_of_ne h _ _

structure Part (before after : Documents) (past : List DocumentChange) (documents : Documents) : Prop where
  set : ∀ c ∈ past, c.value.isSome = true → documents c.kind = after c.kind
  unset : ∀ kind, (∀ c ∈ past, c.kind = kind → c.value = none) →
    documents kind = before kind ∧ (∀ loaded, before kind = some loaded →
      ∀ c ∈ past, c.kind = kind → c.id ≠ loaded.id) ∨
    documents kind = none ∧ (before kind = none ∨ ∃ loaded, before kind = some loaded ∧
      ∃ c ∈ past, c.kind = kind ∧ c.id = loaded.id)

variable (before after : Documents)

theorem part_step (cs past : List DocumentChange) (c : DocumentChange)
    (documents : Documents) (h : Published before after cs) (hc : c ∈ cs)
    (hp : Part before after past documents) : Part before after (past ++ [c]) (documentStep documents c) := by
  have hkept : ∀ kind, (∃ loaded, before kind = some loaded ∧ ∃ x ∈ past, x.kind = kind ∧ x.id = loaded.id) →
      ∃ loaded, before kind = some loaded ∧ ∃ x ∈ past ++ [c], x.kind = kind ∧ x.id = loaded.id := by
    rintro kind ⟨loaded, hl, x, hx, hxk, hxi⟩
    exact ⟨loaded, hl, x, mem_append_left _ hx, hxk, hxi⟩
  -- the change is not about the documents of other kinds
  have hother : ∀ kind, kind ≠ c.kind → (∀ x ∈ past ++ [c], x.kind = kind → x.value = none) →
      documentStep documents c kind = before kind ∧ (∀ loaded, before kind = some loaded →
        ∀ x ∈ past ++ [c], x.kind = kind → x.id ≠ loaded.id) ∨
      documentStep documents c kind = none ∧ (before kind = none ∨ ∃ loaded, before kind = some loaded ∧
        ∃ x ∈ past ++ [c], x.kind = kind ∧ x.id = loaded.id) := by
    intro kind hk hall
    rw [documentStep_other documents c kind hk]
    rcases hp.unset kind (fun x hx => hall x (mem_append_left _ hx)) with ⟨hd, hno⟩ | ⟨hd, hb⟩
    · refine .inl ⟨hd, fun loaded hl x hx hxk => ?_⟩
      rcases mem_append.mp hx with hx | hx
      · exact hno loaded hl x hx hxk
      · rw [mem_singleton.mp hx] at hxk
        exact absurd hxk.symm hk
    · exact .inr ⟨hd, hb.imp_right (hkept kind)⟩
  cases hv : c.value with
  | some value =>
    obtain ⟨version, hversion, hafter⟩ := h.present c hc value hv
    have hnew : documentStep documents c c.kind = after c.kind := by
      simp only [documentStep, hv, hversion, getD_some, update_self, hafter]
    refine ⟨fun x hx hxv => ?_, fun kind hall => ?_⟩
    · by_cases hk : x.kind = c.kind
      · rw [hk, hnew]
      · rw [documentStep_other documents c x.kind hk]
        rcases mem_append.mp hx with hx | hx
        · exact hp.set x hx hxv
        · exact absurd (by rw [mem_singleton.mp hx]) hk
    · have hk : kind ≠ c.kind := by
        rintro rfl
        have := hall c (by simp) rfl
        rw [hv] at this
        cases this
      exact hother kind hk hall
  | none =>
    refine ⟨fun x hx hxv => ?_, fun kind hall => ?_⟩
    · have hx : x ∈ past := by
        rcases mem_append.mp hx with hx | hx
        · exact hx
        · rw [mem_singleton.mp hx, hv] at hxv
          cases hxv
      have hold := hp.set x hx hxv
      by_cases hk : x.kind = c.kind
      · -- what is there now was set by another change, so this one is not about it
        rw [documentStep, hv]
        simp only
        rw [if_neg, hold]
        intro hany
        obtain ⟨loaded, hl, hid⟩ := (Option.any_eq_true _ _).mp hany
        rw [← hk, hold, hk] at hl
        exact h.retired c hc hv loaded hl (by simpa using hid)
      · rw [documentStep_other documents c x.kind hk, hold]
    · by_cases hk : kind = c.kind
      · subst hk
        rw [documentStep, hv]
        simp only
        rcases hp.unset c.kind (fun x hx => hall x (mem_append_left _ hx)) with ⟨hd, hno⟩ | ⟨hd, hb⟩
        · rw [hd]
          cases hb : before c.kind with
          | none => exact .inr ⟨by simp [hd, hb], .inl rfl⟩
          | some loaded =>
            by_cases hid : loaded.id = c.id
            · exact .inr ⟨by simp [hid], .inr ⟨loaded, rfl, c, by simp, rfl, hid.symm⟩⟩
            · refine .inl ⟨by simp [hid, hd, hb], fun loaded' hl' x hx hxk => ?_⟩
              cases hl'
              rcases mem_append.mp hx with hx | hx
              · exact hno loaded hb x hx hxk
              · rw [mem_singleton.mp hx]
                exact Ne.symm hid
        · rw [hd]
          exact .inr ⟨by simp [hd], hb.imp_right (hkept c.kind)⟩
      · exact hother kind hk hall

theorem part_start : Part before after [] before :=
  ⟨by simp, fun kind _ => .inl ⟨rfl, by simp⟩⟩

/-- After all changes the mounted documents are those of the commit, in whatever order the changes come. -/
theorem part_end (cs : List DocumentChange) (documents : Documents)
    (h : Published before after cs) (hp : Part before after cs documents) (kind : JsString)
    (hkind : kind ∈ MOUNTED_KINDS) : documents kind = after kind := by
  by_cases hset : ∃ c ∈ cs, c.kind = kind ∧ c.value.isSome = true
  · obtain ⟨c, hc, rfl, hv⟩ := hset
    exact hp.set c hc hv
  · have hunset : ∀ c ∈ cs, c.kind = kind → c.value = none := by
      intro c hc hk
      by_contra hv
      exact hset ⟨c, hc, hk, isSome_iff_ne_none.mpr hv⟩
    cases ha : after kind with
    | none =>
      rcases hp.unset kind hunset with ⟨hd, hno⟩ | ⟨hd, -⟩
      · cases hb : before kind with
        | none => rw [hd, hb]
        | some loaded =>
          obtain ⟨c, hc, hk, hid, -⟩ := h.gone kind hkind loaded hb ha
          exact absurd hid (hno loaded hb c hc hk)
      · exact hd
    | some loaded =>
      have hb : before kind = some loaded := by
        by_contra hne
        exact hset (h.came kind hkind loaded ha hne)
      rcases hp.unset kind hunset with ⟨hd, -⟩ | ⟨-, hnone | ⟨loaded', hl, c, hc, hk, hid⟩⟩
      · rw [hd, hb]
      · rw [hb] at hnone
        cases hnone
      · rw [hb] at hl
        cases hl
        subst hk
        exact absurd hid.symm (h.retired c hc (hunset c hc rfl) loaded ha)

/-! ## The mount follows the changes -/

structure Shows (docs : List (JsString × JsonValue)) (incarnations : List (JsString × Incarnation))
    (documents : Documents) : Prop where
  value : ∀ kind ∈ MOUNTED_KINDS, get? docs kind = (documents kind).map Loaded.value
  incarnation : ∀ kind ∈ MOUNTED_KINDS,
    get? incarnations kind = (documents kind).map (fun loaded => ⟨loaded.id, loaded.version⟩)
  other : ∀ kind, kind ∉ MOUNTED_KINDS → get? docs kind = none ∧ get? incarnations kind = none

structure Tracks (entryJson : EntryRecord → JsonValue) (conversationJson : ConversationRecord → JsonValue)
    (view : ConversationView) (progress : Progress) (documents : Documents) : Prop where
  shows : ∃ docs, Shows docs progress.docs documents ∧
    Delta.apply (view.json entryJson conversationJson) progress.docOps =
      .ok (({ view with docs } : ConversationView).json entryJson conversationJson)

section Follow

variable (entryJson : EntryRecord → JsonValue) (conversationJson : ConversationRecord → JsonValue)

theorem shows_set (docs docs' : List (JsString × JsonValue)) (incarnations incarnations' : List (JsString × Incarnation))
    (documents : Documents) (kind : JsString) (hkind : kind ∈ MOUNTED_KINDS) (loaded : Loaded)
    (h : Shows docs incarnations documents)
    (hdocs : ∀ k, get? docs' k = if kind = k then some loaded.value else get? docs k)
    (hincarnations : ∀ k, get? incarnations' k =
      if kind = k then some ⟨loaded.id, loaded.version⟩ else get? incarnations k) :
    Shows docs' incarnations' (update documents kind (some loaded)) := by
  refine ⟨fun k hk => ?_, fun k hk => ?_, fun k hk => ?_⟩
  · rw [hdocs k]
    by_cases hkk : kind = k
    · subst hkk
      simp
    · rw [if_neg hkk, update_of_ne (Ne.symm hkk)]
      exact h.value k hk
  · rw [hincarnations k]
    by_cases hkk : kind = k
    · subst hkk
      simp
    · rw [if_neg hkk, update_of_ne (Ne.symm hkk)]
      exact h.incarnation k hk
  · have hkk : kind ≠ k := by
      rintro rfl
      exact hk hkind
    rw [hdocs k, hincarnations k, if_neg hkk, if_neg hkk]
    exact h.other k hk

theorem shows_delete (docs : List (JsString × JsonValue)) (incarnations : List (JsString × Incarnation))
    (documents : Documents) (kind : JsString) (h : Shows docs incarnations documents) :
    Shows (del docs kind) (del incarnations kind) (update documents kind none) := by
  refine ⟨fun k hk => ?_, fun k hk => ?_, fun k hk => ?_⟩
  · rw [get?_del]
    by_cases hkk : kind = k
    · subst hkk
      simp
    · rw [if_neg hkk, update_of_ne (Ne.symm hkk)]
      exact h.value k hk
  · rw [get?_del]
    by_cases hkk : kind = k
    · subst hkk
      simp
    · rw [if_neg hkk, update_of_ne (Ne.symm hkk)]
      exact h.incarnation k hk
  · rw [get?_del, get?_del]
    obtain ⟨h₁, h₂⟩ := h.other k hk
    rw [h₁, h₂]
    simp

theorem advanceDocument_tracks (view : ConversationView) (progress : Progress) (documents : Documents)
    (c : DocumentChange) (hkind : c.kind ∈ MOUNTED_KINDS)
    (hversion : ∀ value, c.value = some value → ∃ version, c.version = some version)
    (hops : ∀ value, c.value = some value → ∀ loaded, documents c.kind = some loaded → loaded.id = c.id →
      some loaded.version = c.version → Delta.apply loaded.value c.ops = .ok value)
    (h : Tracks entryJson conversationJson view progress documents) :
    Tracks entryJson conversationJson view (advanceDocument progress c) (documentStep documents c) := by
  obtain ⟨docs, hshows, happly⟩ := h.shows
  have hmounted := hshows.incarnation c.kind hkind
  have hand : ∀ ops root, Delta.apply (({ view with docs } : ConversationView).json entryJson conversationJson) ops =
      .ok root → Delta.apply (view.json entryJson conversationJson) (progress.docOps ++ ops) = .ok root := by
    intro ops root hroot
    rw [apply_append _ _ _ _ happly]
    exact hroot
  unfold advanceDocument documentStep
  cases hv : c.value with
  | none =>
    simp only [hmounted]
    cases hd : documents c.kind with
    | none => exact ⟨docs, by simpa using hshows, by simpa using happly⟩
    | some loaded =>
      by_cases hid : loaded.id = c.id
      · refine ⟨del docs c.kind, ?_, ?_⟩
        · simpa [hid] using shows_delete docs progress.docs documents c.kind hshows
        · simpa [hid] using hand _ _ (apply_singleton _ _ _ (apply_deleteDoc entryJson conversationJson view docs c.kind hkind))
      · exact ⟨docs, by simpa [hid] using hshows, by simpa [hid] using happly⟩
  | some value =>
    obtain ⟨version, hver⟩ := hversion value hv
    simp only [hmounted, hver, getD_some]
    split
    · -- the mounted incarnation: its own operations, under its path
      rename_i hany
      cases hd : documents c.kind with
      | none =>
        rw [hd] at hany
        cases hany
      | some loaded =>
        rw [hd] at hany
        simp only [map_some, any_some, decide_eq_true_eq, Option.some.injEq] at hany
        obtain ⟨hid, hversions⟩ := hany
        have hold := hshows.value c.kind hkind
        rw [hd, map_some] at hold
        obtain ⟨docs', hdocs', hget⟩ := apply_prefixed entryJson conversationJson view docs c.kind hkind c.ops
          loaded.value value hold (hops value hv loaded hd hid (by rw [hversions, hver]))
        refine ⟨docs', shows_set docs docs' progress.docs progress.docs documents c.kind hkind ⟨c.id, version, value⟩ hshows
          hget (fun k => ?_), hand _ _ hdocs'⟩
        by_cases hk : c.kind = k
        · subst hk
          rw [if_pos rfl, hmounted, hd, map_some, hid, hversions]
        · rw [if_neg hk]
    · refine ⟨set docs c.kind value, ?_, ?_⟩
      · exact shows_set docs _ progress.docs _ documents c.kind hkind ⟨c.id, version, value⟩ hshows
          (fun k => get?_set docs c.kind k value) (fun k => get?_set progress.docs c.kind k _)
      · exact hand _ _ (apply_singleton _ _ _ (apply_setDoc entryJson conversationJson view docs c.kind hkind value))

/-- A change about the mounted incarnation carries the operations from its value before the commit. -/
theorem part_ops (past rest : List DocumentChange) (c : DocumentChange)
    (documents : Documents) (h : Published before after (past ++ c :: rest))
    (hp : Part before after past documents) (value : JsonValue) (hv : c.value = some value) (loaded : Loaded)
    (hl : documents c.kind = some loaded) (hid : loaded.id = c.id) (hversion : some loaded.version = c.version) :
    Delta.apply loaded.value c.ops = .ok value := by
  have hc : c ∈ past ++ c :: rest := by simp
  have hfresh : ∀ x ∈ past, x.id ≠ c.id := by
    intro x hx heq
    have hnd := h.once
    rw [map_append, map_cons] at hnd
    exact (nodup_append.mp hnd).2.2 x.id (mem_map_of_mem hx) c.id (by simp) heq
  by_cases hset : ∃ x ∈ past, x.kind = c.kind ∧ x.value.isSome = true
  · -- it cannot have been set by another change: that one has another incarnation
    obtain ⟨x, hx, hk, hxv⟩ := hset
    obtain ⟨w, hw⟩ := isSome_iff_exists.mp hxv
    obtain ⟨v₁, -, hx₁⟩ := h.present x (mem_append_left _ hx) w hw
    obtain ⟨v₂, -, hc₁⟩ := h.present c hc value hv
    rw [hk, hc₁] at hx₁
    have hids : c.id = x.id := congrArg Loaded.id (some.inj hx₁)
    exact absurd hids.symm (hfresh x hx)
  · have hunset : ∀ x ∈ past, x.kind = c.kind → x.value = none := by
      intro x hx hk
      by_contra hne
      exact hset ⟨x, hx, hk, isSome_iff_ne_none.mpr hne⟩
    rcases hp.unset c.kind hunset with ⟨hd, -⟩ | ⟨hd, -⟩
    · rw [hd] at hl
      exact h.ops c hc value hv loaded hl hid hversion
    · rw [hd] at hl
      cases hl

variable (id : Id)

theorem mountedChanges_append (l r : List Change) :
    mountedChanges id (l ++ r) = mountedChanges id l ++ mountedChanges id r := by
  unfold mountedChanges
  rw [filterMap_append]

theorem mountedChanges_document (c : DocumentChange) :
    mountedChanges id [.document c] = if Mounts id c then [c] else [] := by
  by_cases h : Mounts id c <;> simp [mountedChanges, h]

theorem advanceChange_document (progress : Progress) (c : DocumentChange) :
    advanceChange entryJson id progress (.document c) =
      if Mounts id c then advanceDocument progress c else progress := by
  unfold advanceChange Mounts
  by_cases h₁ : c.conversationId = some id
  · by_cases h₂ : c.kind ∈ MOUNTED_KINDS
    · by_cases h₃ : c.key = none <;> simp [h₁, h₂, h₃]
    · simp [h₂]
  · simp [h₁]

theorem changes_tracks (view : ConversationView) (before after : Documents) (changes : List Change)
    (h : Published before after (mountedChanges id changes)) (past rest : List Change)
    (hsplit : changes = past ++ rest) (progress : Progress) (documents : Documents)
    (hp : Part before after (mountedChanges id past) documents)
    (ht : Tracks entryJson conversationJson view progress documents) :
    ∃ documents', Part before after (mountedChanges id changes) documents' ∧
      Tracks entryJson conversationJson view (rest.foldl (advanceChange entryJson id) progress) documents' := by
  induction rest generalizing past progress documents with
  | nil =>
    rw [append_nil] at hsplit
    rw [hsplit]
    exact ⟨documents, hp, ht⟩
  | cons change rest ih =>
    rw [foldl_cons]
    have hsplit' : changes = (past ++ [change]) ++ rest := by simp [hsplit]
    cases change with
    | other => exact ih _ hsplit' progress documents (by simpa [mountedChanges] using hp) ht
    | entry entry =>
      refine ih _ hsplit' _ documents (by simpa [mountedChanges] using hp) ?_
      simp only [advanceChange]
      split
      · unfold advanceEntry
        split <;> exact ⟨ht.shows⟩
      · exact ht
    | document c =>
      rw [advanceChange_document]
      by_cases hm : Mounts id c
      · have hcs : mountedChanges id changes = mountedChanges id past ++ c :: mountedChanges id rest := by
          rw [hsplit', mountedChanges_append, mountedChanges_append, mountedChanges_document, if_pos hm]
          simp
        have hmem : c ∈ mountedChanges id changes := by rw [hcs]; simp
        rw [if_pos hm]
        refine ih _ hsplit' _ (documentStep documents c) ?_ ?_
        · rw [mountedChanges_append, mountedChanges_document, if_pos hm]
          exact part_step before after _ _ c documents h hmem hp
        · refine advanceDocument_tracks entryJson conversationJson view progress documents c hm.2.1 ?_ ?_ ht
          · intro value hv
            obtain ⟨version, hversion, -⟩ := h.present c hmem value hv
            exact ⟨version, hversion⟩
          · intro value hv loaded hl hid hversion
            rw [hcs] at h
            exact part_ops before after _ _ c documents h hp value hv loaded hl hid hversion
      · rw [if_neg hm]
        refine ih _ hsplit' progress documents ?_ ht
        rw [mountedChanges_append, mountedChanges_document, if_neg hm, append_nil]
        exact hp

end Follow

end PiAgent.Harness
