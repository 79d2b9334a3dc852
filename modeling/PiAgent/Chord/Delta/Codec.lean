import PiAgent.Chord.Delta.Op

/-!
# The stream codec

`encoder` and `decoder` of `delta/index.ts`. The encoder interns a path on its second
use and leaves out a path that repeats the one before it in the batch.
-/

namespace PiAgent.Delta

open Assoc

inductive PathRef where
  | inline (path : Path)
  | id (n : ℕ)

/-- A wire operation. A short tuple has no path reference. -/
inductive WireOp where
  | r (value : JsonValue)
  | edit (ref : Option PathRef) (e : Edit)
  | define (id : ℕ) (path : Path)

/-! ## Encoder -/

structure Encoder where
  seen : List JsString
  ids : List (JsString × ℕ)
  nextId : ℕ
  previous : Option JsString

def encoder : Encoder := { seen := [], ids := [], nextId := 0, previous := none }

def Encoder.step (enc : Encoder) : Op → Encoder × List WireOp
  | .r value => (encoder, [.r value])
  | .edit path e =>
    let key := pathKey path
    if enc.previous = some key then (enc, [.edit none e])
    else
      let enc' := { enc with previous := some key }
      match get? enc.ids key with
      | some id => (enc', [.edit (some (.id id)) e])
      | none =>
        if key ∈ enc.seen then
          -- second use: define, then reference
          ({ enc' with ids := set enc.ids key enc.nextId, nextId := enc.nextId + 1 },
            [.define enc.nextId path, .edit (some (.id enc.nextId)) e])
        else ({ enc' with seen := key :: enc.seen }, [.edit (some (.inline path)) e])

def Encoder.encodeOps (enc : Encoder) : List Op → Encoder × List WireOp
  | [] => (enc, [])
  | op :: ops =>
    let (enc, wire) := enc.step op
    let (enc, rest) := enc.encodeOps ops
    (enc, wire ++ rest)

/-- One batch: the previous path is not carried over from the batch before. -/
def Encoder.encode (enc : Encoder) (ops : List Op) : Encoder × List WireOp :=
  { enc with previous := none }.encodeOps ops

def Encoder.encodeAll (enc : Encoder) : List (List Op) → List (List WireOp)
  | [] => []
  | ops :: batches =>
    let (enc, wire) := enc.encode ops
    wire :: enc.encodeAll batches

/-! ## Decoder -/

structure Decoder where
  paths : List (ℕ × Path)
  previous : Option Path

def decoder : Decoder := { paths := [], previous := none }

def assertPathRef : PathRef → Except DeltaError Unit
  | .inline path => assertSafePath path
  | .id _ => .ok ()

def assertValidWireOp : WireOp → Except DeltaError Unit
  | .r _ => .ok ()
  | .edit none e => e.assertPayload
  | .edit (some ref) e => do
    assertPathRef ref
    e.assertPayload
  | .define _ path => assertSafePath path

/-- The path of an operation, and the decoder with it as the previous one. -/
def Decoder.resolve (dec : Decoder) : Option PathRef → Except DeltaError (Decoder × Path)
  | none =>
    match dec.previous with
    | none => .error (.path [])
    | some path => .ok (dec, path)
  | some (.id n) =>
    match get? dec.paths n with
    | none => .error (.pathId n)
    | some path => .ok ({ dec with previous := some path }, path)
  | some (.inline path) => .ok ({ dec with previous := some path }, path)

def Decoder.step (dec : Decoder) (op : WireOp) : Except DeltaError (Decoder × List Op) := do
  assertValidWireOp op
  match op with
  | .define id path => return ({ dec with paths := set dec.paths id path }, [])
  | .r value => return (decoder, [.r value])
  | .edit ref e =>
    let (dec, path) ← dec.resolve ref
    if e.onSlot && path.isEmpty then throw (.path path)
    return (dec, [.edit path e])

/-- A failed step ends the batch. The dictionary keeps what it had learned until then. -/
def Decoder.decodeOps (dec : Decoder) : List WireOp → Decoder × Except DeltaError (List Op)
  | [] => (dec, .ok [])
  | op :: wire =>
    match dec.step op with
    | .error e => (dec, .error e)
    | .ok (dec, ops) =>
      match dec.decodeOps wire with
      | (dec, .ok rest) => (dec, .ok (ops ++ rest))
      | (dec, .error e) => (dec, .error e)

def Decoder.decode (dec : Decoder) (wire : List WireOp) : Decoder × Except DeltaError (List Op) :=
  { dec with previous := none }.decodeOps wire

def Decoder.decodeAll (dec : Decoder) : List (List WireOp) → List (Except DeltaError (List Op))
  | [] => []
  | wire :: batches =>
    let (dec, ops) := dec.decode wire
    ops :: dec.decodeAll batches

/-! ## The two states agree -/

/-- The decoder knows every path the encoder has given an id, and the two have one previous path. -/
structure Agree (enc : Encoder) (dec : Decoder) : Prop where
  known : ∀ path id, get? enc.ids (pathKey path) = some id → get? dec.paths id = some path
  fresh : ∀ key id, get? enc.ids key = some id → id < enc.nextId
  previous : enc.previous = dec.previous.map pathKey

variable {enc : Encoder} {dec : Decoder}

theorem Agree.forget (h : Agree enc dec) : Agree { enc with previous := none } { dec with previous := none } :=
  ⟨h.known, h.fresh, rfl⟩

theorem agree_new : Agree encoder decoder := ⟨by simp [encoder], by simp [encoder], rfl⟩

theorem Agree.visit (h : Agree enc dec) (path : Path) :
    Agree { enc with previous := some (pathKey path) } { dec with previous := some path } :=
  ⟨h.known, h.fresh, rfl⟩

theorem Agree.see (h : Agree enc dec) (seen : List JsString) : Agree { enc with seen := seen } dec :=
  ⟨h.known, h.fresh, h.previous⟩

theorem Agree.define (h : Agree enc dec) (path : Path) :
    Agree { enc with ids := set enc.ids (pathKey path) enc.nextId, nextId := enc.nextId + 1 }
      { dec with paths := set dec.paths enc.nextId path } := by
  refine ⟨fun path' id hid => ?_, fun key id hid => ?_, h.previous⟩
  · simp only [get?_set] at hid ⊢
    by_cases hp : path = path'
    · subst hp
      obtain rfl : enc.nextId = id := by simpa using hid
      simp
    · have hne : pathKey path ≠ pathKey path' := fun e => hp (pathKey_injective e)
      rw [if_neg hne] at hid
      -- An older id is below the new one.
      have := h.fresh _ _ hid
      rw [if_neg (by omega)]
      exact h.known path' id hid
  · simp only [get?_set] at hid
    split at hid
    · obtain rfl : enc.nextId = id := by simpa using hid
      exact Nat.lt_succ_self _
    · exact Nat.lt_succ_of_lt (h.fresh key id hid)

/-! ## One operation -/

variable (dec : Decoder)

theorem Decoder.step_define (id : ℕ) (path : Path) (h : SafePath path) :
    dec.step (.define id path) = .ok ({ dec with paths := set dec.paths id path }, []) := by
  simp [Decoder.step, assertValidWireOp, (assertSafePath_iff path).mpr h, bind, Except.bind, pure, Except.pure]

theorem Decoder.step_edit (dec dec' : Decoder) (ref : Option PathRef) (path : Path) (e : Edit)
    (hv : (Op.edit path e).Valid) (href : ∀ p, ref = some (.inline p) → p = path)
    (hres : dec.resolve ref = .ok (dec', path)) :
    dec.step (.edit ref e) = .ok (dec', [.edit path e]) := by
  obtain ⟨hsafe, hslot, hpay⟩ := hv
  have hcheck : assertValidWireOp (.edit ref e) = .ok () := by
    cases ref with
    | none => exact (assertPayload_iff e).mpr hpay
    | some ref =>
      refine (except_bind_ok _ _ _).mpr ⟨?_, (assertPayload_iff e).mpr hpay⟩
      cases ref with
      | inline p => obtain rfl := href p rfl; exact (assertSafePath_iff p).mpr hsafe
      | id n => rfl
  have hne : (e.onSlot && path.isEmpty) = false := by
    cases ho : e.onSlot with
    | false => rfl
    | true => cases path with
      | nil => exact absurd rfl (hslot ho)
      | cons => rfl
  simp [Decoder.step, hcheck, hres, hne, bind, Except.bind, pure, Except.pure]

theorem Decoder.decodeOps_cons (dec dec' dec'' : Decoder) (op : WireOp) (wire : List WireOp) (ops rest : List Op)
    (h : dec.step op = .ok (dec', ops)) (h' : dec'.decodeOps wire = (dec'', .ok rest)) :
    dec.decodeOps (op :: wire) = (dec'', .ok (ops ++ rest)) := by
  simp [Decoder.decodeOps, h, h']

section EncoderCases

variable (enc : Encoder) (path : Path) (e : Edit)

theorem Encoder.step_repeat (h : enc.previous = some (pathKey path)) :
    enc.step (.edit path e) = (enc, [.edit none e]) := by
  simp [Encoder.step, h]

theorem Encoder.step_known (id : ℕ) (h : enc.previous ≠ some (pathKey path))
    (hid : get? enc.ids (pathKey path) = some id) :
    enc.step (.edit path e) = ({ enc with previous := some (pathKey path) }, [.edit (some (.id id)) e]) := by
  simp [Encoder.step, h, hid]

section

variable (h : enc.previous ≠ some (pathKey path)) (hid : get? enc.ids (pathKey path) = none)
include h hid

theorem Encoder.step_second (hseen : pathKey path ∈ enc.seen) :
    enc.step (.edit path e) =
      ({ enc with previous := some (pathKey path), ids := set enc.ids (pathKey path) enc.nextId,
                  nextId := enc.nextId + 1 },
        [.define enc.nextId path, .edit (some (.id enc.nextId)) e]) := by
  simp [Encoder.step, h, hid, hseen]

theorem Encoder.step_first (hseen : pathKey path ∉ enc.seen) :
    enc.step (.edit path e) =
      ({ enc with previous := some (pathKey path), seen := pathKey path :: enc.seen },
        [.edit (some (.inline path)) e]) := by
  simp [Encoder.step, h, hid, hseen]

end

end EncoderCases

variable (enc : Encoder)

theorem step_decodes (dec : Decoder) (op : Op) (hv : op.Valid) (h : Agree enc dec) :
    ∃ dec', Agree (enc.step op).1 dec' ∧
      ∀ wire dec'' rest, dec'.decodeOps wire = (dec'', .ok rest) →
        dec.decodeOps ((enc.step op).2 ++ wire) = (dec'', .ok (op :: rest)) := by
  cases op with
  | r value =>
    refine ⟨decoder, agree_new, fun wire dec'' rest hrest => ?_⟩
    exact Decoder.decodeOps_cons dec decoder dec'' _ wire [.r value] rest rfl hrest
  | edit path e =>
    by_cases hprev : enc.previous = some (pathKey path)
    · obtain ⟨p, hp, hkey⟩ := Option.map_eq_some_iff.mp (h.previous.symm.trans hprev)
      obtain rfl := pathKey_injective hkey
      rw [enc.step_repeat p e hprev]
      refine ⟨dec, h, fun wire dec'' rest hrest => ?_⟩
      exact Decoder.decodeOps_cons dec dec dec'' _ wire [.edit p e] rest
        (dec.step_edit dec none p e hv (by simp) (by simp [Decoder.resolve, hp])) hrest
    cases hid : get? enc.ids (pathKey path) with
    | some id =>
      rw [enc.step_known path e id hprev hid]
      have hknown := h.known path id hid
      refine ⟨{ dec with previous := some path }, h.visit path, fun wire dec'' rest hrest => ?_⟩
      exact Decoder.decodeOps_cons dec _ dec'' _ wire [.edit path e] rest
        (dec.step_edit _ _ path e hv (by simp) (by simp [Decoder.resolve, hknown])) hrest
    | none =>
      by_cases hseen : pathKey path ∈ enc.seen
      · rw [enc.step_second path e hprev hid hseen]
        let dec₁ : Decoder := { dec with paths := set dec.paths enc.nextId path }
        refine ⟨{ dec₁ with previous := some path }, (h.define path).visit path, fun wire dec'' rest hrest => ?_⟩
        have hedit := Decoder.decodeOps_cons dec₁ _ dec'' _ wire [.edit path e] rest
          (dec₁.step_edit _ (some (.id enc.nextId)) path e hv (by simp) (by simp [Decoder.resolve, dec₁])) hrest
        exact Decoder.decodeOps_cons dec dec₁ dec'' _ _ [] _ (dec.step_define enc.nextId path hv.1) hedit
      · rw [enc.step_first path e hprev hid hseen]
        refine ⟨{ dec with previous := some path }, (h.visit path).see _, fun wire dec'' rest hrest => ?_⟩
        exact Decoder.decodeOps_cons dec _ dec'' _ wire [.edit path e] rest
          (dec.step_edit _ (some (.inline path)) path e hv (by simp [eq_comm]) rfl) hrest

/-! ## A batch, and a stream -/

section

variable (dec : Decoder) (ops : List Op) (hv : ∀ op ∈ ops, op.Valid)
include hv

theorem encodeOps_decodes (h : Agree enc dec) :
    ∃ dec', Agree (enc.encodeOps ops).1 dec' ∧ dec.decodeOps (enc.encodeOps ops).2 = (dec', .ok ops) := by
  induction ops generalizing enc dec with
  | nil => exact ⟨dec, h, rfl⟩
  | cons op ops ih =>
    obtain ⟨dec₁, h₁, hdec⟩ := step_decodes enc dec op (hv op (by simp)) h
    obtain ⟨dec₂, h₂, hrest⟩ := ih (enc.step op).1 dec₁ (fun o ho => hv o (by simp [ho])) h₁
    exact ⟨dec₂, h₂, hdec _ dec₂ ops hrest⟩

theorem encode_decodes (h : Agree enc dec) :
    ∃ dec', Agree (enc.encode ops).1 dec' ∧ dec.decode (enc.encode ops).2 = (dec', .ok ops) :=
  encodeOps_decodes _ _ ops hv h.forget

theorem encode_base_decodes (hbase : isBase ops = true) :
    ∃ dec', Agree (enc.encode ops).1 dec' ∧ dec.decode (enc.encode ops).2 = (dec', .ok ops) := by
  match ops, hbase with
  | .r value :: ops, _ =>
    obtain ⟨dec', h', hrest⟩ := encodeOps_decodes encoder decoder ops (fun o ho => hv o (by simp [ho])) agree_new
    exact ⟨dec', h', Decoder.decodeOps_cons _ decoder dec' _ _ [.r value] ops rfl hrest⟩

end

theorem Decoder.decodeAll_cons (dec dec' : Decoder) (wire : List WireOp) (batches : List (List WireOp))
    (ops : List Op) (h : dec.decode wire = (dec', .ok ops)) :
    dec.decodeAll (wire :: batches) = .ok ops :: dec'.decodeAll batches := by
  rw [Decoder.decodeAll, h]

theorem encodeAll_decodes (dec : Decoder) (batches : List (List Op))
    (hv : ∀ ops ∈ batches, ∀ op ∈ ops, op.Valid) (h : Agree enc dec) :
    dec.decodeAll (enc.encodeAll batches) = batches.map .ok := by
  induction batches generalizing enc dec with
  | nil => rfl
  | cons ops batches ih =>
    obtain ⟨dec', h', hdec⟩ := encode_decodes enc dec ops (hv ops (by simp)) h
    rw [Encoder.encodeAll, dec.decodeAll_cons dec' _ _ ops hdec,
      ih _ dec' (fun b hb => hv b (by simp [hb])) h', List.map_cons]

theorem encodeAll_base_decodes (dec : Decoder) (ops : List Op) (batches : List (List Op))
    (hv : ∀ b ∈ ops :: batches, ∀ op ∈ b, op.Valid) (hbase : isBase ops = true) :
    dec.decodeAll (enc.encodeAll (ops :: batches)) = (ops :: batches).map .ok := by
  obtain ⟨dec', h', hdec⟩ := encode_base_decodes enc dec ops (hv ops (by simp)) hbase
  rw [Encoder.encodeAll, dec.decodeAll_cons dec' _ _ ops hdec,
    encodeAll_decodes _ dec' batches (fun b hb => hv b (by simp [hb])) h', List.map_cons]

theorem encodeAll_drop (before batches : List (List Op)) :
    ∃ enc' : Encoder, (enc.encodeAll (before ++ batches)).drop before.length = enc'.encodeAll batches := by
  induction before generalizing enc with
  | nil => exact ⟨enc, rfl⟩
  | cons ops before ih => exact ih (enc.encode ops).1

/-- A stream decodes to its batches, and so does every part of it that starts at a base batch. -/
theorem decodeAll_encodeAll (batches : List (List Op))
    (hv : ∀ ops ∈ batches, ∀ op ∈ ops, assertValidOp op = .ok ()) :
    decoder.decodeAll (encoder.encodeAll batches) = batches.map .ok ∧
      ∀ before ops after, batches = before ++ ops :: after → isBase ops = true →
        decoder.decodeAll ((encoder.encodeAll batches).drop before.length) = (ops :: after).map .ok := by
  have hvalid : ∀ ops ∈ batches, ∀ op ∈ ops, op.Valid := fun b hb o ho => (assertValidOp_iff o).mp (hv b hb o ho)
  refine ⟨encodeAll_decodes encoder decoder batches hvalid agree_new, ?_⟩
  rintro before ops after rfl hbase
  obtain ⟨enc', henc⟩ := encodeAll_drop encoder before (ops :: after)
  rw [henc]
  exact encodeAll_base_decodes enc' decoder ops after (fun b hb => hvalid b (by simp at hb ⊢; tauto)) hbase

/-- A path used twice and then three times, a repeated path, and a base batch in between. -/
def sampleStream : List (List Op) :=
  let title : Path := [.key (js "items"), .index 0, .key (js "title")]
  [[.r (.obj [])], [.edit title (.a (js "x")), .edit title (.t 1), .edit [.key (js "items")] (.m [1, 0])],
    [.edit title .d], [.r .null, .edit title (.s .null)], [.edit title .d, .edit [] (.p 0 0 [.null])]]

theorem decodeAll_encodeAll_sampleStream :
    decoder.decodeAll (encoder.encodeAll sampleStream) = sampleStream.map .ok ∧
      decoder.decodeAll ((encoder.encodeAll sampleStream).drop 3) = (sampleStream.drop 3).map .ok := by
  obtain ⟨hall, hbase⟩ := decodeAll_encodeAll sampleStream (by decide)
  exact ⟨hall, hbase (sampleStream.take 3) _ _ rfl rfl⟩

end PiAgent.Delta
