import PiAgent.Durable.Records
import PiAgent.Durable.WatchRuns

/-!
# Watches of a document

The frames that `#attachDocument` of `session.ts` gives a watch of one incarnation, while its
document is loaded, evicted, changed, migrated and retired. The steps of the mutation line are
atomic, as is the rest of the event loop between two awaits.
-/

namespace PiAgent.Durable.Watch

open Delta

/-! ## Versions -/

/-- A JSON object; all that matters here is that it is not null. -/
abbrev JsonObject := { value : JsonValue // isNull value = false }

/-- The `migrate` of the definition of each version, where it has one. -/
abbrev Definitions := ℤ → Option (JsonObject → ℤ → JsonObject)

/-- What Storage reads of the current incarnation. -/
structure Stored where
  version : ℤ
  value : JsonObject

variable (migrate : Definitions)

/-- `checkRecordVersion`, where it does not throw. -/
def checkRecordVersion (definition version : ℤ) : Bool :=
  decide (version ≤ definition) && (decide (version = definition) || (migrate definition).isSome)

def materializeDocumentValue (definition : ℤ) (stored : Stored) : Option JsonObject :=
  if checkRecordVersion migrate definition stored.version = false then none
  else if stored.version = definition then some stored.value
  else (migrate definition).map (fun f => f stored.value stored.version)

/-- `LoadedDocument`; its tracker is the value. -/
structure LoadedDocument where
  storedVersion : ℤ
  valueVersion : ℤ
  value : JsonObject

/-! ## Changes -/

/-- What a callback and `prepare` make of a draft. -/
structure Prepared (base : JsonObject) where
  value : JsonObject
  ops : List Op
  /-- The operations of a prepared change lead from its base to its value. -/
  leads : apply base.1 ops = .ok value.1

/-- A committed change of a document; a retirement has no version and the value null. -/
structure Change where
  value : JsonValue
  version : Option ℤ
  ops : List Op

/-- `observedOperations`, with the version observed since. -/
def observedOperations (observed : ℤ) (change : Change) : ℤ × List Op :=
  if isNull change.value then (observed, [.r .null])
  else if change.version = some observed then (observed, change.ops)
  else (change.version.getD observed, [.r change.value])

/-- The content that `planDocument` plans for a loaded incarnation. -/
def planDocument (loaded : LoadedDocument) (version : ℤ) (prepared : Prepared loaded.value) : Option DocumentContent :=
  if loaded.storedVersion < version then some (.base version prepared.value.1)
  else if prepared.ops.isEmpty then none
  else some (.delta version prepared.ops)

def LoadedDocument.adopt (loaded : LoadedDocument) (version : ℤ) (prepared : Prepared loaded.value) : LoadedDocument :=
  { loaded with
    value := if prepared.ops.isEmpty then loaded.value else prepared.value
    storedVersion := if loaded.storedVersion < version then version else loaded.storedVersion }

/-- Storage after a write: a base replaces the value, a delta is applied to it. -/
def Stored.write (stored : Stored) : DocumentContent → Stored
  | .base version value => if h : isNull value = false then ⟨version, value, h⟩ else stored
  | .delta version ops =>
    match apply stored.value.1 ops with
    | .ok value => if h : isNull value = false then ⟨version, value, h⟩ else stored
    | .error _ => stored

/-! ## One incarnation -/

/-- A watch of the incarnation, with the value it was created at and the version it observes. -/
structure Attached where
  initial : JsonObject
  observed : ℤ
  watch : CommittedWatch

/-- The listener of `#attachDocument`. -/
def Attached.observe (a : Attached) (change : Change) : Attached :=
  let (observed, ops) := observedOperations a.observed change
  let a := { a with observed }
  -- A migration-only base changes nothing for an observer of the new version.
  if ops.isEmpty then a else { a with watch := a.watch.advance change.value ops none }

/-- A retired incarnation is found by no load. -/
structure Document where
  stored : Stored
  retired : Bool
  cached : Option LoadedDocument
  attached : Option Attached

/-- `#loadDocument`: a tracker of another version is dropped and the stored value materialized. -/
def Document.loadDocument (s : Document) (definition : ℤ) : Option LoadedDocument :=
  match s.cached.filter (fun loaded => loaded.valueVersion = definition) with
  | some loaded => some loaded
  | none =>
    if s.retired then none
    else
      (materializeDocumentValue migrate definition s.stored).map fun value =>
        { storedVersion := s.stored.version, valueVersion := definition, value }

def Document.load (s : Document) (definition : ℤ) : Document := { s with cached := s.loadDocument migrate definition }

def Document.publish (s : Document) (change : Change) : Document :=
  { s with attached := s.attached.map (fun a => a.observe change) }

/-- What a commit writes, adopts and publishes for a loaded incarnation. -/
def Document.settle (s : Document) (loaded : LoadedDocument) (version : ℤ) (prepared : Prepared loaded.value)
    (retire : Bool) : Document :=
  let content := planDocument loaded version prepared
  let s := { s with
    stored := (content.map s.stored.write).getD s.stored
    retired := retire
    cached := if retire then none else some (loaded.adopt version prepared) }
  if retire then s.publish ⟨.null, none, []⟩
  else if content.isSome then s.publish ⟨prepared.value.1, some version, prepared.ops⟩
  else s

/-- A commit whose callback acquires the document by the definition of a version, edits it and may retire it. -/
def Document.commit (s : Document) (version : ℤ) (edit : (base : JsonObject) → Prepared base) (retire : Bool) : Document :=
  let s := s.load migrate version
  match s.cached with
  | none => s
  | some loaded =>
    if checkRecordVersion migrate version loaded.storedVersion then s.settle loaded version (edit loaded.value) retire
    else s

/-- `retireDoc` of a document that the transaction has not acquired. -/
def Document.retireDoc (s : Document) : Document :=
  if s.retired then s else { s with retired := true, cached := none }.publish ⟨.null, none, []⟩

/-- `watchDoc`; the one watch followed here is the first. -/
def Document.watchDoc (s : Document) (definition : ℤ) : Document :=
  let s := s.load migrate definition
  match s.cached, s.attached with
  | some loaded, none =>
    if checkRecordVersion migrate definition loaded.storedVersion then
      { s with attached := some { initial := loaded.value, observed := loaded.valueVersion, watch := .new loaded.value.1 } }
    else s
  | _, _ => s

def Input.isAdvance : Input → Bool
  | .advance .. => true
  | _ => false

/-- The holder of the watch, its listener, microtasks and the end of the Session; only publications advance it. -/
def Attached.step (a : Attached) (input : Input) : Attached :=
  if input.isAdvance then a else { a with watch := a.watch.step input }

inductive Step where
  | load (definition : ℤ)
  | evict
  | commit (version : ℤ) (edit : (base : JsonObject) → Prepared base) (retire : Bool)
  | retireDoc
  | watchDoc (definition : ℤ)
  | watch (input : Input)

def Document.step (s : Document) : Step → Document
  | .load definition => s.load migrate definition
  | .evict => { s with cached := none }
  | .commit version edit retire => s.commit migrate version edit retire
  | .retireDoc => s.retireDoc
  | .watchDoc definition => s.watchDoc migrate definition
  | .watch input => { s with attached := s.attached.map (fun a => a.step input) }

/-- An incarnation from its stored value on. -/
def document (stored : Stored) : Machine Document Step Unit where
  start := { stored, retired := false, cached := none, attached := none }
  step := fun s step => (s.step migrate step, ())

/-! ## What a commit leaves behind -/

variable (version : ℤ)

theorem materialize_same (value : JsonObject) :
    materializeDocumentValue migrate version ⟨version, value⟩ = some value := by
  simp [materializeDocumentValue, checkRecordVersion]

theorem prepared_nil (base : JsonObject) (prepared : Prepared base) (h : prepared.ops.isEmpty = true) :
    prepared.value = base := by
  have hleads := prepared.leads
  rw [List.isEmpty_iff.mp h] at hleads
  exact (Subtype.ext (Except.ok.inj hleads)).symm

variable (loaded : LoadedDocument)

theorem adopt_value (version : ℤ) (prepared : Prepared loaded.value) :
    (loaded.adopt version prepared).value = prepared.value := by
  unfold LoadedDocument.adopt
  dsimp only
  split
  · exact (prepared_nil _ prepared ‹_›).symm
  · rfl

/-- A tracker of the stored value, as the definition of its version reads it. -/
structure LoadedDocument.Reads (loaded : LoadedDocument) (stored : Stored) : Prop where
  version : loaded.storedVersion = stored.version
  value : materializeDocumentValue migrate loaded.valueVersion stored = some loaded.value

variable (stored : Stored)

theorem Reads.checked (h : loaded.Reads migrate stored) :
    checkRecordVersion migrate loaded.valueVersion stored.version = true := by
  have hvalue := h.value
  unfold materializeDocumentValue at hvalue
  split at hvalue
  · cases hvalue
  · simp_all

/-- The stored value after a commit, which writes a base, a delta or nothing. -/
theorem written_reads (loaded : LoadedDocument) (prepared : Prepared loaded.value)
    (h : loaded.Reads migrate stored) :
    (loaded.adopt loaded.valueVersion prepared).Reads migrate
      (((planDocument loaded loaded.valueVersion prepared).map stored.write).getD stored) := by
  have hchecked := Reads.checked migrate loaded stored h
  simp only [checkRecordVersion, Bool.and_eq_true, decide_eq_true_eq, ← h.version] at hchecked
  obtain ⟨hle, -⟩ := hchecked
  have hnew : ∀ version, (loaded.adopt loaded.valueVersion prepared).storedVersion = version →
      loaded.valueVersion = version →
      (loaded.adopt loaded.valueVersion prepared).Reads migrate ⟨version, prepared.value⟩ := by
    rintro _ hversion rfl
    refine ⟨hversion, ?_⟩
    rw [adopt_value]
    exact materialize_same migrate _ _
  unfold planDocument
  by_cases hold : loaded.storedVersion < loaded.valueVersion
  · have hwrite : stored.write (.base loaded.valueVersion prepared.value.1) = ⟨loaded.valueVersion, prepared.value⟩ :=
      dif_pos prepared.value.2
    rw [if_pos hold, Option.map_some, Option.getD_some, hwrite]
    exact hnew _ (if_pos hold) rfl
  · have hversion : loaded.storedVersion = loaded.valueVersion := by omega
    have hkept : (loaded.adopt loaded.valueVersion prepared).storedVersion = loaded.storedVersion := if_neg hold
    by_cases hops : prepared.ops.isEmpty = true
    · rw [if_neg hold, if_pos hops, Option.map_none, Option.getD_none]
      refine ⟨hkept.trans h.version, ?_⟩
      rw [adopt_value, prepared_nil _ prepared hops]
      exact h.value
    · have hvalue : stored.value = loaded.value := by
        have hread := h.value
        rw [show stored = ⟨loaded.valueVersion, stored.value⟩ by rw [← hversion, h.version], materialize_same] at hread
        exact Option.some.inj hread
      have hwrite : stored.write (.delta loaded.valueVersion prepared.ops) = ⟨loaded.valueVersion, prepared.value⟩ := by
        simp only [Stored.write, hvalue, prepared.leads, prepared.value.2, dif_pos]
      rw [if_neg hold, if_neg hops, Option.map_some, Option.getD_some, hwrite]
      exact hnew _ (hkept.trans hversion) rfl

/-! ## The watch follows the document -/

/-- The watch was only given advances whose operations lead from one value to the next. -/
def Attached.Told (a : Attached) : Prop :=
  ∃ inputs, a.watch = (Watch.watch a.initial.1).run inputs ∧
    (Watch.watch a.initial.1).Allowed (Coherent a.initial.1) (.new a.initial.1) inputs

/-- The value that a live watch was told last is the document as the observed version reads it, or its retirement. -/
structure Attached.Follows (a : Attached) (stored : Stored) (retired : Bool) : Prop where
  told : a.Told
  retires : a.watch.ended = none → a.watch.retired = retired
  newest : a.watch.ended = none → retired = false →
    (materializeDocumentValue migrate a.observed stored).map Subtype.val = some (committedValue a.initial.1 a.watch.commits)

variable (a : Attached)

theorem told_step (h : a.Told) (input : Input) (hcoherent : Coherent a.initial.1 a.watch input) :
    { a with watch := a.watch.step input }.Told := by
  obtain ⟨inputs, hrun, hallowed⟩ := h
  refine ⟨inputs ++ [input], ?_, ?_⟩
  · rw [Machine.run_snoc, ← hrun]
    rfl
  · refine (Machine.allowed_snoc _ _ _ _).mpr ⟨hallowed, ?_⟩
    rwa [show (Watch.watch a.initial.1).runFrom (.new a.initial.1) inputs = a.watch from hrun.symm]

theorem told_flags (h : a.Told) : Flags a.watch := by
  obtain ⟨inputs, hrun, -⟩ := h
  rw [hrun]
  exact (kept_run _ inputs).flags

variable (w : CommittedWatch) (value : JsonValue) (ops : List Op)

/-- An advance that a live watch accepts. -/
theorem advance_live (hopen : w.ended = none)
    (hlive : w.retired = false) :
    (w.advance value ops none).ended = none ∧ (w.advance value ops none).retired = isNull value ∧
      (w.advance value ops none).commits = w.commits ++ [(value, ops)] := by
  have hcore : (w.advance value ops none).core =
      { w.core with
        retired := isNull value
        pending := w.queue value ops none
        commits := w.commits ++ [(value, ops)] } := by
    unfold CommittedWatch.advance
    rw [if_neg (by simp [hopen, hlive])]
    dsimp only
    split
    · rw [CommittedWatch.core_schedule]
      rfl
    · rfl
  exact ⟨(congrArg Core.ended hcore).trans hopen, congrArg Core.retired hcore, congrArg Core.commits hcore⟩

theorem advance_ended (h : w.ended.isSome = true) :
    w.advance value ops none = w := by
  unfold CommittedWatch.advance
  rw [if_pos (by simp [h])]

variable (stored stored' : Stored)

/-- A live watch that follows a live document is advanced to its next value, or to its retirement. -/
theorem follows_advance (observed : ℤ) (value : JsonValue) (ops : List Op)
    (h : a.Follows migrate stored false)
    (hops : a.watch.ended = none → apply (committedValue a.initial.1 a.watch.commits) ops = .ok value)
    (hvalue : isNull value = false → (materializeDocumentValue migrate observed stored').map Subtype.val = some value) :
    { a with observed, watch := a.watch.advance value ops none }.Follows migrate stored' (isNull value) := by
  have htold := told_step a h.told (.advance value ops none) (fun v o r hinput hopen _ => by
    cases hinput
    exact ⟨hops hopen, .inl rfl⟩)
  have hlive : (a.watch.advance value ops none).ended = none → a.watch.ended = none := by
    intro hopen
    by_contra hended
    rw [advance_ended _ _ _ (Option.isSome_iff_ne_none.mpr hended)] at hopen
    exact hended hopen
  refine ⟨htold, fun hopen => ?_, fun hopen hnull => ?_⟩
  · exact (advance_live a.watch value ops (hlive hopen) (h.retires (hlive hopen))).2.1
  · obtain ⟨-, -, hcommits⟩ := advance_live a.watch value ops (hlive hopen) (h.retires (hlive hopen))
    rw [hcommits, hvalue hnull]
    simp [committedValue]

/-- A publication with the new value, for an observer of its version or of another. -/
theorem follows_changed (version : ℤ) (base value : JsonObject) (ops : List Op)
    (h : a.Follows migrate stored false)
    (hbase : materializeDocumentValue migrate version stored = some base)
    (hvalue : materializeDocumentValue migrate version stored' = some value)
    (hops : apply base.1 ops = .ok value.1) :
    (a.observe ⟨value.1, some version, ops⟩).Follows migrate stored' false := by
  have hnew : (materializeDocumentValue migrate version stored').map Subtype.val = some value.1 := by rw [hvalue]; rfl
  have hnull := value.2
  unfold Attached.observe observedOperations
  rw [if_neg (by simp [hnull])]
  by_cases hsame : version = a.observed
  · subst hsame
    have hcurrent : a.watch.ended = none → committedValue a.initial.1 a.watch.commits = base.1 := by
      intro hopen
      have hnewest := h.newest hopen rfl
      rw [hbase] at hnewest
      exact (Option.some.inj hnewest).symm
    rw [if_pos rfl]
    dsimp only
    split
    · rename_i hempty
      have heq : value.1 = base.1 := by
        rw [List.isEmpty_iff.mp hempty] at hops
        exact (Except.ok.inj hops).symm
      refine ⟨h.told, h.retires, fun hopen _ => ?_⟩
      rw [hnew, heq]
      exact congrArg some (hcurrent hopen).symm
    · have hfollows := follows_advance migrate a stored stored' a.observed value.1 ops h
        (fun hopen => by rw [hcurrent hopen]; exact hops) (fun _ => hnew)
      rwa [hnull] at hfollows
  · rw [if_neg (fun heq => hsame (Option.some.inj heq))]
    have hfollows := follows_advance migrate a stored stored' version value.1 [.r value.1] h
      (fun _ => apply_singleton _ _ _ (applyOp_r _ _)) (fun _ => hnew)
    rwa [hnull] at hfollows

theorem follows_retired (h : a.Follows migrate stored false) :
    (a.observe ⟨.null, none, []⟩).Follows migrate stored' true :=
  follows_advance migrate a stored stored' a.observed .null [.r .null] h
    (fun _ => apply_singleton _ _ _ (applyOp_r _ _)) (fun hnull => by cases hnull)

/-- What the holder and the listener do leaves the commits as they are. -/
theorem follows_step (stored : Stored) (retired : Bool) (h : a.Follows migrate stored retired)
    (input : Input) : (a.step input).Follows migrate stored retired := by
  unfold Attached.step
  split
  · exact h
  · rename_i hadvance
    have hno : ∀ value ops replacement, input ≠ .advance value ops replacement := by
      rintro _ _ _ rfl
      exact hadvance rfl
    have hcore : (a.watch.step input).ended = none → a.watch.ended = none ∧
        (a.watch.step input).retired = a.watch.retired ∧ (a.watch.step input).commits = a.watch.commits := by
      intro hopen
      have hmoved := moved_step a.watch (told_flags a h.told) input
      change (a.watch.step input).core.ended = none at hopen
      change a.watch.core.ended = none ∧ (a.watch.step input).core.retired = a.watch.core.retired ∧
        (a.watch.step input).core.commits = a.watch.core.commits
      revert hopen
      generalize (a.watch.step input).core = c at hmoved
      intro hopen
      cases hmoved with
      | still => exact ⟨hopen, rfl, rfl⟩
      | ended reason => cases hopen
      | appended value ops replacement hinput => exact absurd hinput (hno _ _ _)
      | overflowed value ops replacement hinput => exact absurd hinput (hno _ _ _)
      | delivered frame rest => exact ⟨hopen, rfl, rfl⟩
    refine ⟨told_step a h.told input (fun _ _ _ hinput => absurd hinput (hno _ _ _)), fun hopen => ?_, fun hopen hr => ?_⟩
    · obtain ⟨hbefore, hsame, -⟩ := hcore hopen
      exact hsame.trans (h.retires hbefore)
    · obtain ⟨hbefore, -, hsame⟩ := hcore hopen
      rw [hsame]
      exact h.newest hbefore hr

/-! ## Runs of an incarnation -/

structure Document.Sound (s : Document) : Prop where
  live : s.cached.isSome = true → s.retired = false
  reads : ∀ loaded, s.cached = some loaded → loaded.Reads migrate s.stored
  follows : ∀ a, s.attached = some a → a.Follows migrate s.stored s.retired

variable (s : Document)

theorem loadDocument_reads (h : s.Sound migrate) (definition : ℤ) (loaded : LoadedDocument)
    (hload : s.loadDocument migrate definition = some loaded) :
    s.retired = false ∧ loaded.valueVersion = definition ∧ loaded.Reads migrate s.stored := by
  unfold Document.loadDocument at hload
  split at hload
  · rename_i cached hcached
    cases hload
    obtain ⟨hsome, hversion⟩ := Option.filter_eq_some_iff.mp hcached
    exact ⟨h.live (by rw [hsome]; rfl), by simpa using hversion, h.reads _ hsome⟩
  · cases hretired : s.retired with
    | true => simp [hretired] at hload
    | false =>
      rw [hretired, if_neg Bool.false_ne_true] at hload
      obtain ⟨value, hvalue, rfl⟩ := Option.map_eq_some_iff.mp hload
      exact ⟨rfl, rfl, rfl, hvalue⟩

theorem sound_load (h : s.Sound migrate) (definition : ℤ) : (s.load migrate definition).Sound migrate where
  live := fun hsome => by
    obtain ⟨loaded, hload⟩ := Option.isSome_iff_exists.mp hsome
    exact (loadDocument_reads migrate s h definition loaded hload).1
  reads := fun loaded hload => (loadDocument_reads migrate s h definition loaded hload).2.2
  follows := h.follows

theorem sound_settle (h : s.Sound migrate) (hlive : s.retired = false) (loaded : LoadedDocument)
    (hreads : loaded.Reads migrate s.stored) (prepared : Prepared loaded.value) (retire : Bool) :
    (s.settle loaded loaded.valueVersion prepared retire).Sound migrate := by
  have hwritten := written_reads migrate s.stored loaded prepared hreads
  have hfollows := h.follows
  rw [hlive] at hfollows
  unfold Document.settle
  dsimp only
  cases retire with
  | true =>
    refine ⟨fun hsome => (by cases hsome), fun _ hsome => (by cases hsome), fun a hattached => ?_⟩
    obtain ⟨b, hb, rfl⟩ := Option.map_eq_some_iff.mp hattached
    exact follows_retired migrate b _ _ (hfollows b hb)
  | false =>
    have hcached : ∀ cached, some (loaded.adopt loaded.valueVersion prepared) = some cached →
        cached.Reads migrate (((planDocument loaded loaded.valueVersion prepared).map s.stored.write).getD s.stored) := by
      rintro _ ⟨⟩
      exact hwritten
    have hvalue := hwritten.value
    rw [adopt_value] at hvalue
    cases hcontent : planDocument loaded loaded.valueVersion prepared with
    | none =>
      rw [hcontent] at hcached
      exact ⟨fun _ => rfl, hcached, hfollows⟩
    | some content =>
      rw [hcontent] at hcached hvalue
      refine ⟨fun _ => rfl, hcached, fun a hattached => ?_⟩
      obtain ⟨b, hb, rfl⟩ := Option.map_eq_some_iff.mp hattached
      exact follows_changed migrate b _ _ loaded.valueVersion loaded.value prepared.value prepared.ops (hfollows b hb)
        hreads.value hvalue prepared.leads

theorem sound_step (h : s.Sound migrate) (step : Step) : (s.step migrate step).Sound migrate := by
  cases step with
  | load definition => exact sound_load migrate s h definition
  | evict => exact ⟨fun hsome => (by cases hsome), fun _ hsome => (by cases hsome), h.follows⟩
  | commit version edit retire =>
    have hload := sound_load migrate s h version
    change (s.commit migrate version edit retire).Sound migrate
    unfold Document.commit
    dsimp only
    split
    · exact hload
    · rename_i loaded hcached
      obtain ⟨hlive, rfl, hreads⟩ := loadDocument_reads migrate s h version loaded hcached
      split
      · exact sound_settle migrate _ hload hlive loaded hreads _ retire
      · exact hload
  | retireDoc =>
    change s.retireDoc.Sound migrate
    unfold Document.retireDoc
    split
    · exact h
    · rename_i hretired
      have hfollows := h.follows
      rw [Bool.eq_false_iff.mpr hretired] at hfollows
      refine ⟨fun hsome => (by cases hsome), fun _ hsome => (by cases hsome), fun a hattached => ?_⟩
      obtain ⟨b, hb, rfl⟩ := Option.map_eq_some_iff.mp hattached
      exact follows_retired migrate b _ _ (hfollows b hb)
  | watchDoc definition =>
    have hload := sound_load migrate s h definition
    change (s.watchDoc migrate definition).Sound migrate
    unfold Document.watchDoc
    dsimp only
    split
    · rename_i loaded hcached hnone
      split
      · refine ⟨hload.live, hload.reads, fun a hattached => ?_⟩
        cases hattached
        obtain ⟨hlive, -, hreads⟩ := loadDocument_reads migrate s h definition loaded hcached
        refine ⟨⟨[], rfl, trivial⟩, fun _ => hlive.symm, fun _ _ => ?_⟩
        rw [show (s.load migrate definition).stored = s.stored from rfl, hreads.value]
        rfl
      · exact hload
    · exact hload
  | watch input =>
    refine ⟨h.live, h.reads, fun a hattached => ?_⟩
    obtain ⟨b, hb, rfl⟩ := Option.map_eq_some_iff.mp hattached
    exact follows_step migrate b _ _ (h.follows b hb) input

theorem sound_run (stored : Stored) (steps : List Step) : ((document migrate stored).run steps).Sound migrate :=
  (document migrate stored).runFrom_induction (fun s step h => sound_step migrate s h step) _
    ⟨fun hsome => (by cases hsome), fun _ hsome => (by cases hsome), fun _ hattached => by cases hattached⟩ steps

/-! ## Exactness -/

theorem Led.folds (w : CommittedWatch) (h : Led value w.core) :
    (∀ a frame b, w.delivered = a ++ frame :: b → apply value ((a ++ [frame]).flatMap Frame.ops) = .ok frame.value) ∧
      (w.retired = true → w.ended = none → ∃ frame, w.core.frames.getLast? = some frame ∧ isNull frame.value = true) := by
  refine ⟨fun a frame b hdelivered => ?_, fun hretired hopen => h.retires hopen hretired⟩
  have hleads := h.delivered
  rw [show w.core.delivered = a ++ frame :: b from hdelivered] at hleads
  exact leads_apply a b frame value _ hleads

/-- The listener runs for one frame at a time and hears of the commits in their order, without gap or overlap. A
retirement is the last frame and ends the watch, after which nothing is delivered. Where each commit comes with
operations that lead to it and an overflow delivers the newest value, the delivered operations lead from the first value
to each delivered one, and a retirement waits or was delivered. A started watch tells of every commit or ends. The watch
of a document is such a watch, whatever is committed, migrated, evicted or retired, and knows the newest value. -/
theorem committedWatch_exact (value : JsonValue) (inputs : List Input) :
    runningAfter none ((watch value).run inputs).calls = some ((watch value).run inputs).running ∧
      Tiled ((watch value).run inputs).core ∧
      (∀ frame ∈ ((watch value).run inputs).delivered.dropLast, isNull frame.value = false) ∧
      (((watch value).run inputs).ended = some .retired → ((watch value).run inputs).core.LastNull) ∧
      (∀ frame, ((watch value).run inputs).delivered.getLast? = some frame → isNull frame.value = true →
        ((watch value).run inputs).ended.isSome = true ∨
          ((watch value).run inputs).running = some frame ∧
            ((watch value).run (inputs ++ [.settle false])).ended = some .retired) ∧
      (((watch value).run inputs).ended.isSome = true → ∀ more,
        ((watch value).run (inputs ++ more)).ended = ((watch value).run inputs).ended ∧
          ((watch value).run (inputs ++ more)).delivered = ((watch value).run inputs).delivered) ∧
      ((watch value).Allowed (Coherent value) (.new value) inputs →
        (∀ a frame b, ((watch value).run inputs).delivered = a ++ frame :: b →
          apply value ((a ++ [frame]).flatMap Frame.ops) = .ok frame.value) ∧
        (((watch value).run inputs).retired = true → ((watch value).run inputs).ended = none →
          ∃ frame, ((watch value).run inputs).core.frames.getLast? = some frame ∧ isNull frame.value = true)) ∧
      (∀ migrate stored steps a, ((document migrate stored).run steps).attached = some a →
        (∃ inputs, a.watch = (watch a.initial.1).run inputs) ∧
          (∀ b frame c, a.watch.delivered = b ++ frame :: c →
            apply a.initial.1 ((b ++ [frame]).flatMap Frame.ops) = .ok frame.value) ∧
          (a.watch.ended = none → ((document migrate stored).run steps).retired = true →
            ∃ frame, a.watch.core.frames.getLast? = some frame ∧ isNull frame.value = true) ∧
          (a.watch.ended = none → ((document migrate stored).run steps).retired = false →
            (materializeDocumentValue migrate a.observed ((document migrate stored).run steps).stored).map Subtype.val =
              some (committedValue a.initial.1 a.watch.commits))) ∧
      (∀ schedule, Fair value ((watch value).run inputs) schedule → ((watch value).run inputs).started = true →
        ∀ k < ((watch value).run inputs).commits.length,
          ∃ t, ((watch value).along ((watch value).run inputs) schedule t).ended.isSome = true ∨
            ∃ frame ∈ ((watch value).along ((watch value).run inputs) schedule t).delivered,
              Covers ((watch value).run inputs).commits k frame) := by
  have hkept := kept_run value inputs
  refine ⟨hkept.flags.serial, hkept.tiled, ?_, hkept.retired, ?_, ?_, ?_, ?_, ?_⟩
  · intro frame hmem
    apply hkept.nulls.before
    cases hp : ((watch value).run inputs).core.pending with
    | nil => rwa [Core.frames, hp, List.append_nil]
    | cons next rest =>
      rw [Core.frames, hp, List.dropLast_append_of_ne_nil (List.cons_ne_nil _ _)]
      exact List.mem_append_left _ (List.dropLast_subset _ hmem)
  · intro frame hlast hnull
    by_cases hended : ((watch value).run inputs).ended.isSome = true
    · exact .inl hended
    · have hrunning := (hkept.retires frame hlast hnull).resolve_right hended
      refine .inr ⟨hrunning, ?_⟩
      rw [(watch value).run_snoc]
      exact settle_retires _ frame hrunning hnull (by simpa using hended)
  · intro hended more
    rw [(watch value).run_append]
    exact ended_run value _ hkept hended more
  · exact fun hallowed => (led_run value inputs hallowed).folds _ _
  · intro migrate stored steps a hattached
    have hfollows := (sound_run migrate stored steps).follows a hattached
    obtain ⟨told, hrun, hallowed⟩ := hfollows.told
    have hled := led_run a.initial.1 told hallowed
    rw [← hrun] at hled
    obtain ⟨hfolds, hlast⟩ := hled.folds _ _
    exact ⟨⟨told, hrun⟩, hfolds, fun hopen hretired => hlast ((hfollows.retires hopen).trans hretired) hopen, hfollows.newest⟩
  · exact fun schedule hfair hstarted k hk => eventually_covered value _ schedule hkept hfair hstarted k hk

/-- The definition of version 2 takes 1 for 10, that of version 3 takes everything for 30. -/
def migrations : Definitions := fun definition =>
  if definition = 2 then some fun _ _ => ⟨.num 10, rfl⟩
  else if definition = 3 then some fun _ _ => ⟨.num 30, rfl⟩
  else none

def keep (base : JsonObject) : Prepared base := ⟨base, [], rfl⟩

def put (value : JsonObject) (base : JsonObject) : Prepared base := ⟨value, [.r value.1], rfl⟩

/-- A watch under version 2 of a document of version 1, a migration without a change, a change, a migration to version 3
and the retirement. -/
def lifetime : List Step :=
  [.watchDoc 2, .commit 2 keep false, .commit 2 (put ⟨.num 20, rfl⟩) false, .evict, .commit 3 keep false, .retireDoc,
    .watch .start, .watch .turn, .watch (.settle false), .watch (.settle false)]

theorem committedWatch_exact_retirement :
    (∃ a, ((document migrations ⟨1, .num 1, rfl⟩).run lifetime).attached = some a ∧
      a.initial.1 = .num 10 ∧ a.watch.delivered = [⟨.num 20, [.r (.num 20)], 1, false⟩, ⟨.num 30, [.r (.num 30)], 2, false⟩,
        ⟨.null, [.r .null], 3, false⟩] ∧
      apply a.initial.1 (a.watch.delivered.flatMap Frame.ops) = .ok .null) ∧
      ((watch (.num 0)).run [.start, .advance (.num 1) [.r (.num 1)] none, .turn, .settle false,
        .advance .null [.r .null] none, .turn, .settle false, .settle false]).ended = some .retired ∧
      ∃ t, ((watch (.num 0)).along ((watch (.num 0)).run [.start, .advance (.num 1) [.r (.num 1)] none])
          (fun t => if t % 2 = 0 then .turn else .settle false) t).ended.isSome = true ∨
        ∃ frame ∈ ((watch (.num 0)).along ((watch (.num 0)).run [.start, .advance (.num 1) [.r (.num 1)] none])
          (fun t => if t % 2 = 0 then .turn else .settle false) t).delivered,
          Covers [(.num 1, [.r (.num 1)])] 0 frame := by
  refine ⟨?_, ?_, ?_⟩
  · obtain ⟨-, -, -, -, -, -, -, hdocument, -⟩ := committedWatch_exact (.num 0) []
    refine ⟨_, rfl, rfl, rfl, ?_⟩
    exact (hdocument migrations ⟨1, .num 1, rfl⟩ lifetime _ rfl).2.1 [⟨.num 20, [.r (.num 20)], 1, false⟩,
      ⟨.num 30, [.r (.num 30)], 2, false⟩] ⟨.null, [.r .null], 3, false⟩ [] rfl
  · obtain ⟨-, -, -, -, -, hended, -, -⟩ := committedWatch_exact (.num 0) [.start, .advance (.num 1) [.r (.num 1)] none,
      .turn, .settle false, .advance .null [.r .null] none, .turn, .settle false]
    exact (hended rfl [.settle false]).1
  · obtain ⟨-, -, -, -, -, -, -, -, htold⟩ := committedWatch_exact (.num 0) [.start, .advance (.num 1) [.r (.num 1)] none]
    refine htold _ ⟨fun t _ => ⟨2 * t, by omega, ?_⟩, fun t _ => ⟨2 * t + 1, by omega, false, ?_⟩⟩ rfl 0 Nat.one_pos
    · rw [if_pos (by omega)]
    · rw [if_neg (by omega)]

/-- The batches of an event stream come without operations. -/
theorem events_without_operations :
    ((watch (.arr [])).run [.start, .advance (.arr [.num 1]) [] none, .turn]).delivered = [⟨.arr [.num 1], [], 1, false⟩] ∧
      apply (.arr []) (Frame.ops ⟨.arr [.num 1], [], 1, false⟩) ≠ .ok (.arr [.num 1]) := by
  refine ⟨rfl, ?_⟩
  intro h
  cases h

end PiAgent.Durable.Watch
