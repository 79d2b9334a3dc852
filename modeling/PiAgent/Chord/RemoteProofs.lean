import PiAgent.Chord.Delta.DiffRevisions
import PiAgent.Chord.Remote

/-! # The replica is a value of the provider -/

namespace PiAgent.Remote

open Option Delta JsonValue

def Known (published : List JsonValue) (r : Replica) : Prop :=
  ∀ v, r.value = some v → ∃ p ∈ published, v.Eqv p

structure Consistent (w : World) : Prop where
  known : Known w.published w.replica
  settled : w.link = [] → w.accepted = true → ∃ v l, w.replica.value = some v ∧ w.latest = some l ∧ v.Eqv l
  current : ∀ c, w.value = some c → w.latest = some c

def World.last (w : World) : Replica := consumer.runFrom w.replica w.link

structure Inv (w : World) : Prop where
  along : consumer.Always (Known w.published) w.replica w.link
  agree : Agree w.stream w.last.decoder
  unsent : w.sent = false → w.last.value = none
  inStep : w.inStep = true → ∃ v c, w.last.value = some v ∧ w.value = some c ∧ v.Eqv c
  accepted : w.accepted = true → ∃ v l, w.last.value = some v ∧ w.latest = some l ∧ v.Eqv l
  latest : ∀ c, w.value = some c → w.latest = some c
  current : w.accepted = true → w.value.isSome = true → w.inStep = true

theorem Known.cons {published : List JsonValue} {r : Replica} (h : Known published r) (ps : List JsonValue) :
    Known (ps ++ published) r := by
  intro v hv
  obtain ⟨p, hp, he⟩ := h v hv
  exact ⟨p, List.mem_append_right _ hp, he⟩

theorem inv_start : Inv machine.start := by
  refine ⟨?_, agree_new, fun _ => rfl, ?_, ?_, ?_, ?_⟩
  · intro v hv
    cases hv
  all_goals simp [machine]

variable {w : World}

theorem Inv.consistent (h : Inv w) : Consistent w := by
  refine ⟨h.along.now, fun hlink hacc => ?_, h.latest⟩
  have hlast : w.last = w.replica := by rw [World.last, hlink]; rfl
  rw [← hlast]
  exact h.accepted hacc

/-! ## Batches -/

theorem valid_of_apply {root root' : JsonValue} {ops : List Op} (h : apply root ops = .ok root') :
    ∀ op ∈ ops, op.Valid := by
  induction ops generalizing root with
  | nil => simp
  | cons op ops ih =>
    cases hop : applyOp root op with
    | error e => simp [apply, hop, bind, Except.bind] at h
    | ok root₁ =>
      rw [apply_cons root root₁ op ops hop] at h
      refine List.forall_mem_cons.mpr ⟨?_, ih h⟩
      simp only [applyOp, except_bind_ok] at hop
      exact (assertValidOp_iff op).mp hop.1

theorem applyImmutable_some (root : JsonValue) (ops : List Op) :
    applyImmutable (some root) ops = (apply root ops).map some := by
  cases ops <;> rfl

theorem applyImmutable_base (root root' : Option JsonValue) (ops : List Op) (h : isBase ops = true) :
    applyImmutable root ops = applyImmutable root' ops := by
  match ops, h with
  | .r value :: ops, _ =>
    have hsame : ∀ root, applyImmutable root (.r value :: ops) = (apply value ops).map some := by
      intro root
      cases root with
      | none => rfl
      | some root => rw [applyImmutable_some, apply_cons root value _ ops (applyOp_r root value)]
    rw [hsame, hsame]

theorem applyImmutable_none (ops : List Op) (hne : ops ≠ []) (hbase : isBase ops = false) :
    ∃ e, applyImmutable none ops = .error e := by
  match ops with
  | .r value :: ops => cases hbase
  | .edit path e :: ops =>
    simp only [applyImmutable]
    cases assertValidOp (.edit path e) with
    | error err => exact ⟨err, rfl⟩
    | ok => exact ⟨_, rfl⟩

theorem valid_of_applyImmutable {root root' : Option JsonValue} {ops : List Op}
    (h : applyImmutable root ops = .ok root') : ∀ op ∈ ops, op.Valid := by
  cases root with
  | some root =>
    rw [applyImmutable_some] at h
    obtain ⟨v, hv, -⟩ := except_map_ok h
    exact valid_of_apply hv
  | none =>
    match ops with
    | [] => simp
    | .r value :: ops =>
      obtain ⟨v, hv, -⟩ := except_map_ok h
      exact List.forall_mem_cons.mpr ⟨(assertValidOp_iff _).mp rfl, valid_of_apply hv⟩
    | .edit path e :: ops =>
      obtain ⟨err, herr⟩ := applyImmutable_none (.edit path e :: ops) (by simp) rfl
      rw [herr] at h
      cases h

theorem applyImmutable_respects {v c : JsonValue} {c' : Option JsonValue} {ops : List Op} (he : v.Eqv c)
    (h : applyImmutable (some c) ops = .ok c') :
    ∃ v' c'', applyImmutable (some v) ops = .ok (some v') ∧ c' = some c'' ∧ v'.Eqv c'' := by
  rw [applyImmutable_some] at h
  obtain ⟨c'', hc, rfl⟩ := except_map_ok h
  obtain ⟨v', hv, hce⟩ := apply_respects ops c v c'' (eqv_symm he) hc
  exact ⟨v', c'', by rw [applyImmutable_some]; dsimp only at hv; rw [hv]; rfl, rfl, eqv_symm hce⟩

def Replica.after (r : Replica) (ops : List Op) : Option JsonValue :=
  match applyImmutable r.value ops with
  | .ok value => value
  | .error _ => r.value

theorem receive_ops (r : Replica) (stream : Encoder) (ops : List Op) (hv : ∀ op ∈ ops, op.Valid)
    (h : Agree stream r.decoder) :
    Agree (stream.encode ops).1 (receive r (.ops (stream.encode ops).2)).1.decoder ∧
      (receive r (.ops (stream.encode ops).2)).1.value = r.after ops := by
  obtain ⟨dec', hagree, hdec⟩ := encode_decodes stream r.decoder ops hv h
  simp only [receive, hdec, Replica.after]
  cases applyImmutable r.value ops with
  | error e => exact ⟨hagree, rfl⟩
  | ok value => exact ⟨hagree, rfl⟩

/-! ## Steps -/

theorem last_snoc (w : World) (frame : StateFrame) :
    consumer.runFrom w.replica (w.link ++ [frame]) = (receive w.last frame).1 := by
  rw [consumer.runFrom_append]
  rfl

theorem always_link (h : consumer.Always (Known w.published) w.replica w.link) (frame : StateFrame)
    (ps : List JsonValue) (hnew : Known (ps ++ w.published) (receive w.last frame).1) :
    consumer.Always (Known (ps ++ w.published)) w.replica (w.link ++ [frame]) :=
  (consumer.always_snoc _ _ _ _).mpr ⟨h.mono (fun _ hr => hr.cons ps), hnew⟩

theorem after_base (r : Replica) {root next value : Option JsonValue} {ops : List Op} (hbase : isBase ops = true)
    (hnext : applyImmutable root ops = .ok next) (hrel : Option.Rel Eqv next value) :
    ∃ v c, r.after ops = some v ∧ value = some c ∧ v.Eqv c := by
  match ops, hbase with
  | .r first :: ops, _ =>
    obtain ⟨v, hv, rfl⟩ : ∃ v, apply first ops = .ok v ∧ some v = next := by
      rw [applyImmutable_base root none _ rfl] at hnext
      exact except_map_ok hnext
    cases hrel with
    | some he =>
      refine ⟨v, _, ?_, rfl, he⟩
      rw [Replica.after, applyImmutable_base r.value none _ rfl]
      simp only [applyImmutable, hv]
      rfl

section

variable (h : Inv w) (ops : List Op) (value : Option JsonValue) (outcome : Option String)
    (hexact : Exact w (.publish (.ops ops value) outcome))
    (hstream : Streamable w (.publish (.ops ops value) outcome))
include h hexact hstream

/-- A batch that may be streamed leaves the replica alone, or takes it where the provider is, or finds it empty. -/
theorem after_cases :
    (w.last.after ops = w.last.value ∧ Option.Rel Eqv w.value value ∧ isBase ops = false) ∨
      ((isBase ops = true ∨ w.inStep = true) ∧ ∃ v c, w.last.after ops = some v ∧ value = some c ∧ v.Eqv c) ∨
      (w.last.after ops = none ∧ w.last.value = none ∧ isBase ops = false) := by
  obtain ⟨next, hnext, hrel⟩ := hexact
  by_cases hempty : ops = []
  · subst hempty
    obtain rfl := Except.ok.inj hnext
    exact Or.inl ⟨rfl, hrel, rfl⟩
  cases hbase : isBase ops with
  | true => exact Or.inr (Or.inl ⟨Or.inl rfl, after_base w.last hbase hnext hrel⟩)
  | false =>
    simp only [Streamable, hempty, hbase, false_or] at hstream
    rcases hstream with hfalse | hstep | hunsent
    · cases hfalse
    · obtain ⟨v, c, hv, hc, he⟩ := h.inStep hstep
      rw [hc] at hnext
      obtain ⟨v', c', hv', rfl, he'⟩ := applyImmutable_respects he hnext
      cases hrel with
      | some hcc =>
        exact Or.inr (Or.inl ⟨Or.inr hstep, v', _, by rw [Replica.after, hv, hv'], rfl, eqv_trans he' hcc⟩)
    · have hnone := h.unsent hunsent
      obtain ⟨e, herr⟩ := applyImmutable_none ops hempty hbase
      exact Or.inr (Or.inr ⟨by rw [Replica.after, hnone, herr], hnone, rfl⟩)

theorem inv_ops : Inv (w.publish (.ops ops value) outcome) := by
  have hcases := after_cases h ops value outcome hexact hstream
  obtain ⟨next, hnext, -⟩ := hexact
  obtain ⟨hagree, hvalue⟩ := receive_ops w.last w.stream ops (valid_of_applyImmutable hnext) h.agree
  have hlast : (w.publish (.ops ops value) outcome).last = (receive w.last (.ops (w.stream.encode ops).2)).1 :=
    last_snoc w _
  rw [← hlast] at hagree hvalue
  have hknown : Known (value.toList ++ w.published) (w.publish (.ops ops value) outcome).last := by
    intro v hv
    rw [hvalue] at hv
    rcases hcases with ⟨hsame, -, -⟩ | ⟨-, v', c, hv', rfl, he⟩ | ⟨hnone, -, -⟩
    · exact h.along.last.cons _ v (hsame ▸ hv)
    · rw [hv'] at hv
      obtain rfl := some.inj hv
      exact ⟨c, by simp, he⟩
    · rw [hnone] at hv
      cases hv
  refine ⟨always_link h.along (.ops (w.stream.encode ops).2) value.toList (hlast ▸ hknown), hagree, fun hs => ?_,
    fun hs => ?_, fun hs => ?_, ?_, fun hs hv => ?_⟩
  · obtain ⟨hsent, hbase⟩ : w.sent = false ∧ isBase ops = false := by simpa [World.publish] using hs
    rw [hvalue]
    rcases hcases with ⟨hsame, -, -⟩ | ⟨hwhy, -⟩ | ⟨hnone, -, -⟩
    · rw [hsame]
      exact h.unsent hsent
    · simp only [hbase, Bool.false_eq_true, false_or] at hwhy
      obtain ⟨v, -, hv, -⟩ := h.inStep hwhy
      rw [h.unsent hsent] at hv
      cases hv
    · exact hnone
  · have hs : w.inStep = true ∨ isBase ops = true := by simpa [World.publish] using hs
    rw [hvalue]
    rcases hcases with ⟨hsame, hrel, hbase⟩ | ⟨-, v, c, hv, hc, he⟩ | ⟨-, hempty, hbase⟩
    · obtain ⟨v, c, hv, hc, he⟩ := h.inStep (hs.resolve_right (by simp [hbase]))
      rw [hc] at hrel
      cases hrel with
      | some hcc => exact ⟨v, _, hsame.trans hv, rfl, eqv_trans he hcc⟩
    · exact ⟨v, c, hv, hc, he⟩
    · obtain ⟨v, -, hv, -⟩ := h.inStep (hs.resolve_right (by simp [hbase]))
      rw [hempty] at hv
      cases hv
  · obtain ⟨v, l, hv, hl, he⟩ := h.accepted hs
    rw [hvalue]
    rcases hcases with ⟨hsame, hrel, -⟩ | ⟨-, v', c, hv', rfl, he'⟩ | ⟨-, hempty, -⟩
    · cases value with
      | none => exact ⟨v, l, hsame.trans hv, hl, he⟩
      | some c' =>
        obtain ⟨c, hc, hcc⟩ : ∃ c, w.value = some c ∧ c.Eqv c' := by
          revert hrel
          cases w.value with
          | none => rintro ⟨⟩
          | some c => rintro ⟨⟩; exact ⟨c, rfl, by assumption⟩
        rw [h.latest c hc] at hl
        obtain rfl := some.inj hl
        exact ⟨v, c', hsame.trans hv, rfl, eqv_trans he hcc⟩
    · exact ⟨v', c, hv', rfl, he'⟩
    · rw [hempty] at hv
      cases hv
  · rintro c hc
    have hc : value = some c := hc
    simp [World.publish, hc]
  · have hacc : w.accepted = true := hs
    have hsome : value.isSome = true := hv
    suffices w.inStep = true ∨ isBase ops = true by simpa [World.publish] using this
    rcases hcases with ⟨-, hrel, -⟩ | ⟨hwhy, -⟩ | ⟨-, hempty, -⟩
    · refine Or.inl (h.current hacc ?_)
      revert hrel hsome
      cases w.value <;> cases value <;> rintro ⟨⟩ ⟨⟩
      rfl
    · exact hwhy.symm
    · obtain ⟨v, l, hv, -⟩ := h.accepted hacc
      rw [hempty] at hv
      cases hv

end

theorem inv_nothing {w w' : World} (h : Inv w) (hlink : w'.link = w.link) (hreplica : w'.replica = w.replica)
    (hstream : w'.stream = w.stream) (hpublished : w'.published = w.published) (hlatest : w'.latest = w.latest)
    (haccepted : w'.accepted = w.accepted) (hsent : w'.sent = w.sent) (hvalue : w'.value = none)
    (hinStep : w'.inStep = false) : Inv w' := by
  have hlast : w'.last = w.last := by rw [World.last, hlink, hreplica]; rfl
  refine ⟨by rw [hlink, hreplica, hpublished]; exact h.along, by rw [hlast, hstream]; exact h.agree, ?_, ?_, ?_, ?_, ?_⟩
  · rw [hlast, hsent]; exact h.unsent
  · simp [hinStep]
  · rw [hlast, haccepted, hlatest]; exact h.accepted
  · simp [hvalue]
  · simp [hvalue]

theorem inv_value {w w' : World} (h : Inv w) (value : JsonValue) (outcome : Option String) (stream : Encoder)
    (frame : StateFrame) (hframe : (outcome = none ∧ stream = encoder ∧
        ∀ r, receive r frame = ({ value := some value, decoder := decoder }, .event (.reset (some value)))) ∨
      (outcome.isSome = true ∧ stream = w.stream ∧ ∀ r, (receive r frame).1 = r))
    (hw : w' = { w with stream := stream, link := w.link ++ [frame], value := some value,
                        published := value :: w.published, latest := some value, accepted := outcome.isNone,
                        inStep := outcome.isNone, sent := w.sent || outcome.isNone }) : Inv w' := by
  subst hw
  have hlast : consumer.runFrom w.replica (w.link ++ [frame]) = (receive w.last frame).1 := last_snoc w frame
  rcases hframe with ⟨rfl, rfl, hreceive⟩ | ⟨hsome, rfl, hreceive⟩
  · rw [hreceive] at hlast
    refine ⟨always_link h.along frame [value] ?_, by rw [World.last, hlast]; exact agree_new, by simp, fun _ => ?_,
      fun _ => ?_, by simp, by simp⟩
    · rw [hreceive]
      intro v hv
      obtain rfl := some.inj hv
      exact ⟨value, by simp, eqv_refl value⟩
    · exact ⟨value, value, by rw [World.last, hlast], rfl, eqv_refl value⟩
    · exact ⟨value, value, by rw [World.last, hlast], rfl, eqv_refl value⟩
  · rw [hreceive] at hlast
    have hnone : outcome.isNone = false := by cases outcome <;> simp_all
    refine ⟨always_link h.along frame [value] ?_, by rw [World.last, hlast]; exact h.agree, ?_, by simp [hnone],
      by simp [hnone], by simp, by simp [hnone]⟩
    · rw [hreceive]
      exact h.along.last.cons [value]
    · rw [World.last, hlast]
      simpa [hnone] using h.unsent

theorem inv_publish (h : Inv w) (event : StateEvent) (outcome : Option String)
    (hexact : Exact w (.publish event outcome)) (hstream : Streamable w (.publish event outcome)) :
    Inv (w.publish event outcome) := by
  match event, outcome with
  | .ops ops value, outcome => exact inv_ops h ops value outcome hexact hstream
  | .snap none, outcome => exact inv_nothing h (by simp [World.publish, send, sendValue]) rfl rfl rfl rfl rfl rfl rfl rfl
  | .reset none, outcome => exact inv_nothing h (by simp [World.publish, send, sendValue]) rfl rfl rfl rfl rfl rfl rfl rfl
  | .snap (some value), none => exact inv_value h value none _ (.snap value) (Or.inl ⟨rfl, rfl, fun _ => rfl⟩) rfl
  | .reset (some value), none => exact inv_value h value none _ (.reset value) (Or.inl ⟨rfl, rfl, fun _ => rfl⟩) rfl
  | .snap (some value), some message =>
    exact inv_value h value (some message) _ (.error message) (Or.inr ⟨rfl, rfl, fun _ => rfl⟩) rfl
  | .reset (some value), some message =>
    exact inv_value h value (some message) _ (.error message) (Or.inr ⟨rfl, rfl, fun _ => rfl⟩) rfl

theorem inv_step (h : Inv w) (s : Step) (hs : Exact w s ∧ Streamable w s) : Inv (machine.step w s).1 := by
  cases s with
  | publish event outcome => exact inv_publish h event outcome hs.1 hs.2
  | process =>
    simp only [machine, World.step]
    cases hlink : w.link with
    | nil => exact h
    | cons frame link =>
      have hlast : (World.last { w with link := link, replica := (receive w.replica frame).1 }) = w.last := by
        simp only [World.last, hlink]
        rfl
      have halong := h.along
      rw [hlink] at halong
      exact ⟨halong.2, hlast ▸ h.agree, hlast ▸ h.unsent, hlast ▸ h.inStep, hlast ▸ h.accepted, h.latest, h.current⟩

/-- In every run whose steps are exact and streamable, what the subscription promises holds all along. -/
theorem replica_consistent (steps : List Step)
    (h : machine.Allowed (fun w s => Exact w s ∧ Streamable w s) machine.start steps) :
    machine.Always Consistent machine.start steps :=
  (machine.always_of_allowed (P := Inv) (fun _ s hw hs => inv_step hw s hs) inv_start h).mono (fun _ hw => hw.consistent)

/-! A value that is accepted and then edited, and one that is rejected before the edit. -/

def sampleField (k : String) (n : ℚ) : JsString × JsonValue := (js k, .prim (.num n))

def sampleRun : List Step :=
  [.publish (.snap (some (.obj [sampleField "a" 1]))) none, .process,
    .publish (.ops [.edit [.key (js "c")] (.s (.prim (.num 3)))] (some (.obj [sampleField "a" 1, sampleField "c" 3]))) none,
    .process]

theorem sampleRun_allowed : machine.Allowed (fun w s => Exact w s ∧ Streamable w s) machine.start sampleRun := by
  refine ⟨⟨trivial, trivial⟩, ⟨trivial, trivial⟩, ⟨⟨_, rfl, .some (eqv_refl _)⟩, Or.inr (Or.inr (Or.inl rfl))⟩,
    ⟨trivial, trivial⟩, trivial⟩

theorem replica_consistent_sample : machine.Always Consistent machine.start sampleRun :=
  replica_consistent sampleRun sampleRun_allowed

/-- The edit arrives after a reset that failed its validation: it is meant for the value that was not sent. -/
def staleRun : List Step :=
  [.publish (.snap (some (.obj [sampleField "a" 1]))) none, .publish (.reset (some (.obj [sampleField "b" 2]))) (some "/b"),
    .publish (.ops [.edit [.key (js "c")] (.s (.prim (.num 3)))] (some (.obj [sampleField "b" 2, sampleField "c" 3]))) none,
    .process, .process, .process]

/-- Every batch of the run is exact, and the replica ends with a value that was never published. -/
theorem stale_replica : machine.Allowed Exact machine.start staleRun ∧ ¬ machine.Always Consistent machine.start staleRun := by
  refine ⟨⟨trivial, trivial, ⟨_, rfl, .some (eqv_refl _)⟩, trivial, trivial, trivial, trivial⟩, fun h => ?_⟩
  obtain ⟨p, hp, he⟩ := h.last.known (.obj [sampleField "a" 1, sampleField "c" 3]) rfl
  have hp : p ∈ [.obj [sampleField "b" 2, sampleField "c" 3], .obj [sampleField "b" 2], .obj [sampleField "a" 1]] := hp
  simp only [List.mem_cons, List.not_mem_nil, or_false] at hp
  -- Each published value lacks one of the two keys.
  rcases hp with rfl | rfl | rfl
  · cases he with
    | obj _ _ hk _ => exact absurd ((hk (js "a")).mp (by decide)) (by decide)
  · cases he with
    | obj _ _ hk _ => exact absurd ((hk (js "a")).mp (by decide)) (by decide)
  · cases he with
    | obj _ _ hk _ => exact absurd ((hk (js "c")).mp (by decide)) (by decide)

/-! ## Revisions -/

open Shared

variable (heap : ℕ → JsonValue) (numberText : ℚ → JsString)

/-- The provider sends whole revisions, which are valid, or the difference from the last one. -/
inductive Revises : Option Shared → List Step → Prop
  | nil (last : Option Shared) : Revises last []
  | process {last : Option Shared} {steps : List Step} (h : Revises last steps) : Revises last (.process :: steps)
  | snap (last : Option Shared) {next : Shared} {steps : List Step} (hn : Labelled heap next)
      (h : Revises (some next) steps) : Revises last (.publish (.snap (some next.value)) none :: steps)
  | reset (last : Option Shared) {next : Shared} {steps : List Step} (hn : Labelled heap next)
      (h : Revises (some next) steps) : Revises last (.publish (.reset (some next.value)) none :: steps)
  | ops {last next : Shared} {ops : List Op} {steps : List Step} (N : ℕ) (hn : Labelled heap next)
      (hops : ∀ n ≥ N, diffRevisions numberText last next n = some ops) (h : Revises (some next) steps) :
      Revises (some last) (.publish (.ops ops (some next.value)) none :: steps)

variable {heap numberText}

/-- The batch of two revisions, once it is ready, leads from one to the other. -/
theorem diffRevisions_leads {before after : Shared} (hb : Labelled heap before) (ha : Labelled heap after)
    {ops : List Op} {N : ℕ} (hops : ∀ n ≥ N, diffRevisions numberText before after n = some ops) :
    ∃ v, apply before.value ops = .ok v ∧ v.Eqv after.value := by
  obtain ⟨M, hM⟩ := diffValue_ends_root before after hb ha
  obtain ⟨b, hready, hrel⟩ := hM { operations := [], overflowed := false }
  obtain ⟨-, hleads⟩ := hrel rfl rfl
  have hr : ∃ v, apply before.value [.r after.value] = .ok v ∧ v.Eqv after.value := ⟨_, rfl, eqv_refl _⟩
  have hN := hops (max M N) (Nat.le_max_right ..)
  rcases diffRevisions_cases numberText before after _ b (hready _ (Nat.le_max_left M N)) with ⟨hres, -⟩ | ⟨hres, ho⟩
  · obtain rfl := some.inj (hN.symm.trans hres)
    exact hr
  · obtain rfl := some.inj (hN.symm.trans hres)
    rcases hleads ho with hone | ⟨-, happly⟩
    · rwa [hone]
    · exact happly

theorem always_revises {last : Option Shared} {steps : List Step} (h : Revises heap numberText last steps) {w : World}
    (hw : Inv w) (hlast : ∀ s, last = some s → Labelled heap s ∧ w.value = some s.value ∧ w.inStep = true) :
    machine.Always Inv w steps := by
  induction h generalizing w with
  | nil => exact hw
  | process _ ih =>
    refine ⟨hw, ih (inv_step hw .process ⟨trivial, trivial⟩) (fun s hs => ?_)⟩
    simp only [machine, World.step]
    cases w.link <;> exact hlast s hs
  | snap _ hn _ ih =>
    refine ⟨hw, ih (inv_step hw _ ⟨trivial, trivial⟩) (fun s hs => ?_)⟩
    obtain rfl := some.inj hs
    exact ⟨hn, rfl, rfl⟩
  | reset _ hn _ ih =>
    refine ⟨hw, ih (inv_step hw _ ⟨trivial, trivial⟩) (fun s hs => ?_)⟩
    obtain rfl := some.inj hs
    exact ⟨hn, rfl, rfl⟩
  | ops N hn hops _ ih =>
    obtain ⟨hl, hvalue, hstep⟩ := hlast _ rfl
    obtain ⟨v, hv, he⟩ := diffRevisions_leads hl hn hops
    refine ⟨hw, ih (inv_step hw _ ⟨⟨some v, ?_, .some he⟩, .inr (.inr (.inl hstep))⟩) (fun s hs => ?_)⟩
    · rw [hvalue, applyImmutable_some, hv]
      rfl
    · obtain rfl := some.inj hs
      exact ⟨hn, rfl, by simp [machine, World.step, World.publish, send, hstep]⟩

/-- A consumer of revisions holds one of them all along, and the last one when nothing is under way. -/
theorem revisions_follow {steps : List Step} (h : Revises heap numberText none steps) :
    machine.Always Consistent machine.start steps :=
  (always_revises h inv_start (fun _ hs => by cases hs)).mono (fun _ hw => hw.consistent)

theorem revisions_follow_sample : machine.Always Consistent machine.start
    [.publish (.snap (some (.num 1))) none, .process, .publish (.ops [.r (.num 2)] (some (.num 2))) none, .process] :=
  revisions_follow (show Revises (fun _ => .null) (fun _ => []) none _ from .snap none (.prim (.num 1)) (.process
    (.ops 1 (.prim (.num 2)) (fun n hn => by obtain ⟨m, rfl⟩ := Nat.exists_eq_add_of_le' hn; rfl) (.process (.nil _)))))

end PiAgent.Remote
