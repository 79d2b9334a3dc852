import PiAgent.Env.FramesProofs

/-! # Frames survive any chunking, and both sides read what the other writes -/

namespace PiAgent.Env.Frames

open Session

/-! ## Encoded frames -/

structure Wire (J : ClientJson) where
  type : UInt8
  id : UInt32
  text : Bytes
  payload : Bytes
  fields : List (JsString × JsonValue)
  object : J.parse text = some (.obj fields)
  small : 9 + text.length + payload.length ≤ MAX_FRAME

def Wire.bytes {J : ClientJson} (w : Wire J) : Bytes := encode w.type w.id w.text w.payload

def Wire.frame {J : ClientJson} (w : Wire J) : Frame := ⟨w.type, w.id, .obj w.fields, w.payload⟩

def bodyOf (type : UInt8) (id : UInt32) (text payload : Bytes) : Bytes :=
  type :: (writeUInt32BE id.toNat ++ writeUInt32BE text.length) ++ text ++ payload

section

variable (type : UInt8) (id : UInt32) (text payload : Bytes)

theorem encode_eq :
    encode type id text payload = writeUInt32BE (9 + text.length + payload.length) ++ bodyOf type id text payload := by
  unfold encode bodyOf
  simp

theorem length_bodyOf : (bodyOf type id text payload).length = 9 + text.length + payload.length := by
  unfold bodyOf
  simp
  omega

theorem length_encode : (encode type id text payload).length = 4 + (9 + text.length + payload.length) := by
  rw [encode_eq, List.length_append, length_bodyOf, length_writeUInt32BE]

theorem bodyOf_id : (readUInt32BE (bodyOf type id text payload) 1).toUInt32 = id := by
  have hsplit : bodyOf type id text payload =
      [type] ++ (writeUInt32BE id.toNat ++ (writeUInt32BE text.length ++ text ++ payload)) := by
    unfold bodyOf
    simp
  rw [hsplit, show (1 : ℕ) = [type].length + 0 from rfl, readUInt32BE_append_right, readUInt32BE_write _ _ id.toNat_lt]
  simp

theorem bodyOf_jsonLength (h : text.length < 2 ^ 32) :
    readUInt32BE (bodyOf type id text payload) 5 = text.length := by
  have hsplit : bodyOf type id text payload =
      ([type] ++ writeUInt32BE id.toNat) ++ (writeUInt32BE text.length ++ (text ++ payload)) := by
    unfold bodyOf
    simp
  rw [hsplit, show (5 : ℕ) = ([type] ++ writeUInt32BE id.toNat).length + 0 from rfl, readUInt32BE_append_right,
    readUInt32BE_write _ _ h]

theorem bodyOf_drop : (bodyOf type id text payload).drop 9 = text ++ payload := by
  unfold bodyOf
  rw [List.append_assoc]
  rfl

theorem bodyOf_text : ((bodyOf type id text payload).drop 9).take text.length = text := by
  rw [bodyOf_drop, List.take_left]

theorem bodyOf_payload : (bodyOf type id text payload).drop (9 + text.length) = payload := by
  rw [← List.drop_drop, bodyOf_drop, List.drop_left]

end

section Client

variable (J : ClientJson)

theorem nextFrame_encode (w : Wire J) (rest : Bytes) : nextFrame J (w.bytes ++ rest) = .item w.frame rest := by
  have hsmall := w.small
  have hmax : MAX_FRAME < 2 ^ 32 := by decide
  have hread : readUInt32BE (w.bytes ++ rest) 0 = 9 + w.text.length + w.payload.length := by
    rw [Wire.bytes, encode_eq, List.append_assoc, readUInt32BE_write _ _ (by omega)]
  have hlength : (w.bytes ++ rest).length = 4 + (9 + w.text.length + w.payload.length) + rest.length := by
    rw [List.length_append, Wire.bytes, length_encode]
  have hbody : ((w.bytes ++ rest).take (4 + (9 + w.text.length + w.payload.length))).drop 4 =
      bodyOf w.type w.id w.text w.payload := by
    rw [show 4 + (9 + w.text.length + w.payload.length) = w.bytes.length by rw [Wire.bytes, length_encode],
      List.take_left, Wire.bytes, encode_eq]
    rfl
  have hjson : readJson J (bodyOf w.type w.id w.text w.payload) = some (.obj w.fields) := by
    unfold readJson
    rw [bodyOf_jsonLength _ _ _ _ (by omega), length_bodyOf, if_neg (by omega), bodyOf_text, w.object]
  have hrest : (w.bytes ++ rest).drop (4 + (9 + w.text.length + w.payload.length)) = rest := by
    rw [show 4 + (9 + w.text.length + w.payload.length) = w.bytes.length by rw [Wire.bytes, length_encode],
      List.drop_left]
  have hframe : frameOf (bodyOf w.type w.id w.text w.payload) (.obj w.fields) = w.frame := by
    unfold frameOf Wire.frame
    rw [bodyOf_jsonLength _ _ _ _ (by omega), bodyOf_payload, bodyOf_id]
    rfl
  unfold nextFrame
  rw [hread, hlength, if_neg (by omega), if_neg (by simp; omega), if_neg (by omega), hbody, hjson, hrest]
  exact congrArg (fun f => Next.item f rest) hframe

theorem drain_frames (frames : List (Wire J)) (rest : Bytes) :
    (reader J).drain (frames.flatMap Wire.bytes ++ rest) =
      ⟨frames.map Wire.frame ++ ((reader J).drain rest).items, ((reader J).drain rest).rest⟩ := by
  induction frames with
  | nil => rfl
  | cons w frames ih =>
    have hnext : (reader J).next (w.bytes ++ (frames.flatMap Wire.bytes ++ rest)) =
        .item w.frame (frames.flatMap Wire.bytes ++ rest) := by
      rw [reader_next, nextFrame_encode]
    rw [List.flatMap_cons, List.append_assoc, (reader J).drain_item _ _ _ hnext, ih]
    rfl

theorem nextFrame_incomplete (w : Wire J) (n : ℕ) (h : n < w.bytes.length) : nextFrame J (w.bytes.take n) = .more := by
  have hsmall := w.small
  have hmax : MAX_FRAME < 2 ^ 32 := by decide
  have hlength : (w.bytes.take n).length = n := by
    rw [List.length_take]
    omega
  have htotal : w.bytes.length = 4 + (9 + w.text.length + w.payload.length) := length_encode _ _ _ _
  unfold nextFrame
  by_cases h4 : (w.bytes.take n).length < 4
  · rw [if_pos h4]
  · have hread : readUInt32BE (w.bytes.take n) 0 = 9 + w.text.length + w.payload.length := by
      rw [readUInt32BE_take _ _ (by omega) (by omega), Wire.bytes, encode_eq, readUInt32BE_write _ _ (by omega)]
    rw [if_neg h4, hread, if_neg (by simp; omega), if_pos (by omega)]

inductive Malformed : Bytes → Prop
  | length (bytes : Bytes) (whole : 4 ≤ bytes.length)
      (range : readUInt32BE bytes 0 < 9 ∨ MAX_FRAME < readUInt32BE bytes 0) : Malformed bytes
  | json (body after : Bytes) (least : 9 ≤ body.length) (most : body.length ≤ MAX_FRAME)
      (object : readJson J body = none) : Malformed (writeUInt32BE body.length ++ body ++ after)

theorem nextFrame_malformed (bytes : Bytes) (h : Malformed J bytes) : nextFrame J bytes = .stop () := by
  unfold nextFrame
  cases h with
  | length _ whole range =>
    rw [if_neg (by omega), if_pos (by simpa using range)]
  | json body after least most object =>
    have hmax : MAX_FRAME < 2 ^ 32 := by decide
    have hread : readUInt32BE (writeUInt32BE body.length ++ body ++ after) 0 = body.length := by
      rw [List.append_assoc, readUInt32BE_write _ _ (by omega)]
    have hlength : (writeUInt32BE body.length ++ body ++ after).length = 4 + body.length + after.length := by
      simp
      omega
    have hbody : ((writeUInt32BE body.length ++ body ++ after).take (4 + body.length)).drop 4 = body := by
      rw [show 4 + body.length = (writeUInt32BE body.length ++ body).length by simp, List.take_left]
      rfl
    rw [hread, hlength, if_neg (by omega), if_neg (by simp; omega), if_neg (by omega), hbody, object]

/-! ## The stream of a session -/

variable {J}

theorem run_stream (token : Token) (start : ℕ) (noise data : Bytes)
    (hnoise : ∀ i, ¬ OccursAt (syncLine token) noise i) (inputs : List Input)
    (hbytes : dataOf inputs = noise ++ syncLine token ++ data) :
    dispatched (run J (new token start) inputs).2 = ((reader J).drain data).items ∧
      (∀ rest, ((reader J).drain data).rest = .ok rest →
        (run J (new token start) inputs).1.live = true ∧ Holds (run J (new token start) inputs).1 rest ∧
        Accounts start (run J (new token start) inputs).1 (settled (run J (new token start) inputs).2)) ∧
      (∀ e, ((reader J).drain data).rest = .error e →
        (run J (new token start) inputs).1.live = false ∧ (run J (new token start) inputs).1.pending = [] ∧
        ∃ before, ∃ waiting : List ℕ,
          (run J (new token start) inputs).2 = before ++ waiting.map (fun id => .reject id corrupt) ∧
          (settled before ++ waiting).Perm
            (List.range' start ((run J (new token start) inputs).1.nextId - start))) := by
  have h := tracks_run J token start inputs [] _ [] (tracks_new J token start)
  rw [List.nil_append, List.nil_append, hbytes] at h
  generalize (run J (new token start) inputs).1 = s at h ⊢
  generalize (run J (new token start) inputs).2 = effects at h ⊢
  have hfirst := firstIndex_noise token noise data hnoise
  have hafter : afterSync token (noise ++ syncLine token ++ data) noise.length = data := by
    unfold afterSync
    rw [← List.length_append, List.drop_left]
  cases hlive : s.live with
  | true =>
    cases hsynced : s.synced with
    | false =>
      -- the sync line has come
      have hnone := (h.waiting hlive hsynced).1.none
      rw [h.same] at hnone
      rw [(firstIndex_eq_none _ _).mpr hnone] at hfirst
      cases hfirst
    | true =>
      obtain ⟨i, hi, hdispatched, rest, hrest, hholds⟩ := h.reading hlive hsynced
      rw [hfirst] at hi
      obtain rfl := Option.some.inj hi
      rw [hafter] at hdispatched hrest
      refine ⟨hdispatched, ?_, ?_⟩
      · intro rest' hrest'
        rw [hrest] at hrest'
        obtain rfl := Except.ok.inj hrest'
        exact ⟨rfl, hholds, h.accounts hlive⟩
      · intro e he
        rw [hrest] at he
        cases he
  | false =>
    obtain ⟨hnone, i, hi, hdispatched, ⟨e, he⟩, before, waiting, heq, hperm⟩ := h.torn hlive
    rw [hfirst] at hi
    obtain rfl := Option.some.inj hi
    rw [hafter] at hdispatched he
    refine ⟨hdispatched, ?_, fun _ _ => ⟨rfl, hnone, before, waiting, heq, hperm⟩⟩
    intro rest hrest
    rw [he] at hrest
    cases hrest

end Client

/-! ## The two sides -/

theorem read_frame_encode (D : DaemonJson) (type : UInt8) (id : UInt32) (text payload rest : Bytes) (json : JsonValue)
    (hsmall : 9 + text.length + payload.length ≤ MAX_FRAME) (hread : D.fromSlice text = some json) :
    read_frame D (encode type id text payload ++ rest) = .frame ⟨type, id, json, payload⟩ rest := by
  have hmax : MAX_FRAME < 2 ^ 32 := by decide
  have hempty : text.length ≠ 0 := by
    intro hzero
    rw [List.length_eq_zero_iff.mp hzero, D.empty] at hread
    cases hread
  have hinput : encode type id text payload ++ rest =
      writeUInt32BE (9 + text.length + payload.length) ++ (bodyOf type id text payload ++ rest) := by
    rw [encode_eq, List.append_assoc]
  have htake : (encode type id text payload ++ rest).take 4 = writeUInt32BE (9 + text.length + payload.length) ++ [] := by
    rw [hinput]
    rfl
  have hdrop : (encode type id text payload ++ rest).drop 4 = bodyOf type id text payload ++ rest := by
    rw [hinput]
    rfl
  have hlength : (encode type id text payload ++ rest).length = 4 + (9 + text.length + payload.length) + rest.length := by
    rw [List.length_append, length_encode]
  have hbody : (bodyOf type id text payload ++ rest).take (9 + text.length + payload.length) =
      bodyOf type id text payload := by
    rw [← length_bodyOf type id text payload, List.take_left]
  have hrest : (bodyOf type id text payload ++ rest).drop (9 + text.length + payload.length) = rest := by
    rw [← length_bodyOf type id text payload, List.drop_left]
  have hbodyRest : (bodyOf type id text payload ++ rest).length = (9 + text.length + payload.length) + rest.length := by
    rw [List.length_append, length_bodyOf]
  unfold read_frame
  rw [if_neg (by omega), htake, readUInt32BE_write _ _ (by omega), hdrop, hbodyRest]
  dsimp only
  rw [hbody, hrest, bodyOf_jsonLength _ _ _ _ (by omega), bodyOf_text, bodyOf_payload, bodyOf_id, hread,
    if_neg (by simp; omega), if_neg (by omega), if_neg (by omega), if_neg hempty]
  rfl

theorem frame_eq (J : ClientJson) (f : Frame) (bytes : Bytes) (h : frame J f = some bytes) :
    bytes = encode f.type f.id (J.stringify (wellFormed f.json)) f.payload := by
  unfold frame at h
  dsimp only at h
  split at h
  · exact (Option.some.inj h).symm
  · cases h

theorem write_frame_eq (D : DaemonJson) (f : Frame) (bytes : Bytes) (h : write_frame D f = some bytes) :
    ∃ text, D.toVec f.json = some text ∧ 9 + text.length + f.payload.length ≤ MAX_FRAME ∧
      bytes = encode f.type f.id text f.payload := by
  unfold write_frame at h
  split at h
  · cases h
  · rename_i text htext
    split at h
    · cases h
    · exact ⟨text, htext, by omega, (Option.some.inj h).symm⟩

/-- Frames survive any chunking, a malformed one ends the session, and each side reads what the other writes. -/
theorem frames_survive (J : ClientJson) (D : DaemonJson) :
    -- frames, with the beginning of another
    (∀ (token : Token) (start : ℕ) (noise : Bytes) (frames : List (Wire J)) (last : Wire J) (n : ℕ) (inputs : List Input),
      (∀ i, ¬ OccursAt (syncLine token) noise i) → n < last.bytes.length →
      dataOf inputs = noise ++ syncLine token ++ (frames.flatMap Wire.bytes ++ last.bytes.take n) →
      dispatched (run J (new token start) inputs).2 = frames.map Wire.frame ∧
        (run J (new token start) inputs).1.live = true ∧
        (run J (new token start) inputs).1.chunks.flatten = last.bytes.take n ∧
        (run J (new token start) inputs).1.buffered = n ∧
        Accounts start (run J (new token start) inputs).1 (settled (run J (new token start) inputs).2)) ∧
    -- frames, and one that is malformed
    (∀ (token : Token) (start : ℕ) (noise : Bytes) (frames : List (Wire J)) (bad : Bytes) (inputs : List Input),
      (∀ i, ¬ OccursAt (syncLine token) noise i) → Malformed J bad →
      dataOf inputs = noise ++ syncLine token ++ (frames.flatMap Wire.bytes ++ bad) →
      dispatched (run J (new token start) inputs).2 = frames.map Wire.frame ∧
        (run J (new token start) inputs).1.live = false ∧ (run J (new token start) inputs).1.pending = [] ∧
        ∃ before, ∃ waiting : List ℕ,
          (run J (new token start) inputs).2 = before ++ waiting.map (fun id => .reject id corrupt) ∧
          (settled before ++ waiting).Perm
            (List.range' start ((run J (new token start) inputs).1.nextId - start))) ∧
    -- the daemon reads what the client writes
    (∀ (f : Frame) (bytes rest : Bytes), frame J f = some bytes → bytes.length ≤ 4 + MAX_FRAME →
      D.fromSlice (J.stringify (wellFormed f.json)) = some (wellFormed f.json) →
      read_frame D (bytes ++ rest) = .frame { f with json := wellFormed f.json } rest) ∧
    -- what the daemon writes is a frame on the wire for the client
    (∀ (f : Frame) (bytes text : Bytes) (fields : List (JsString × JsonValue)), write_frame D f = some bytes →
      f.json = .obj fields → D.toVec f.json = some text → J.parse text = some f.json →
      ∃ w : Wire J, w.bytes = bytes ∧ w.frame = f) := by
  refine ⟨?_, ?_, ?_, ?_⟩
  · intro token start noise frames last n inputs hnoise hn hbytes
    obtain ⟨hdispatched, hok, -⟩ := run_stream token start noise _ hnoise inputs hbytes
    have hmore : (reader J).drain (last.bytes.take n) = ⟨[], .ok (last.bytes.take n)⟩ :=
      (reader J).drain_more _ (nextFrame_incomplete J last n hn)
    rw [drain_frames, hmore] at hdispatched hok
    obtain ⟨hlive, hholds, hacc⟩ := hok _ rfl
    refine ⟨by simpa using hdispatched, hlive, hholds.flatten, ?_, hacc⟩
    rw [hholds.buffered, List.length_take]
    omega
  · intro token start noise frames bad inputs hnoise hbad hbytes
    obtain ⟨hdispatched, -, herror⟩ := run_stream token start noise _ hnoise inputs hbytes
    have hstop : (reader J).drain bad = ⟨[], .error ()⟩ := (reader J).drain_stop _ () (nextFrame_malformed J bad hbad)
    rw [drain_frames, hstop] at hdispatched herror
    exact ⟨by simpa using hdispatched, herror () rfl⟩
  · intro f bytes rest hframe hsmall hread
    obtain rfl := frame_eq J f bytes hframe
    rw [length_encode] at hsmall
    exact read_frame_encode D _ _ _ _ _ _ (by omega) hread
  · intro f bytes text fields hwrite hobject htext hparse
    obtain ⟨text', htext', hsmall, rfl⟩ := write_frame_eq D f bytes hwrite
    rw [htext] at htext'
    obtain rfl := Option.some.inj htext'
    rw [hobject] at hparse
    have hframe : f = ⟨f.type, f.id, .obj fields, f.payload⟩ := by rw [← hobject]
    exact ⟨⟨f.type, f.id, text, f.payload, fields, hparse, hsmall⟩, rfl, hframe.symm⟩

/-! ## One stream -/

section Examples

def emptyObject : Bytes := [123, 125]

def plainClient : ClientJson :=
  { stringify := fun _ => emptyObject
    parse := fun text => if text = emptyObject then some (.obj []) else none }

def plainDaemon : DaemonJson :=
  { toVec := fun _ => some emptyObject
    fromSlice := fun text => if text = emptyObject then some (.obj []) else none
    empty := rfl }

def zeros : Token := ⟨List.replicate 32 48, rfl, by
  intro b hb
  rw [List.eq_of_mem_replicate hb]
  decide⟩

def result : Wire plainClient := ⟨RESULT, 1, emptyObject, [7], [], rfl, by decide⟩

def greeting : List Input :=
  [.data ([104, 105, 10] ++ syncWord), .request false, .data [],
    .data (zeros.digits ++ [10] ++ result.bytes ++ result.bytes.take 5)]

theorem greeting_noise : ∀ i, ¬ OccursAt (syncLine zeros) [104, 105, 10] i :=
  (firstIndex_eq_none _ _).mp (by decide)

theorem frames_survive_greeting :
    dispatched (run plainClient (new zeros 1) greeting).2 = [result.frame] ∧
      (run plainClient (new zeros 1) [.data ([104, 105, 10] ++ syncLine zeros ++ [0, 0, 0, 8])]).1.live = false ∧
      read_frame plainDaemon (encode RESULT 1 emptyObject [7] ++ []) = .frame ⟨RESULT, 1, .obj [], [7]⟩ [] ∧
      ∃ w : Wire plainClient, w.bytes = encode RESULT 1 emptyObject [7] ∧ w.frame = ⟨RESULT, 1, .obj [], [7]⟩ := by
  obtain ⟨h1, h2, h3, h4⟩ := frames_survive plainClient plainDaemon
  refine ⟨?_, ?_, ?_, ?_⟩
  · exact (h1 zeros 1 [104, 105, 10] [result] result 5 greeting greeting_noise (by decide) (by decide)).1
  · exact (h2 zeros 1 [104, 105, 10] [] [0, 0, 0, 8] _ greeting_noise
      (.length _ (by decide) (Or.inl (by decide))) (by decide)).2.1
  · exact h3 ⟨RESULT, 1, .obj [], [7]⟩ _ [] rfl (by decide) rfl
  · exact h4 ⟨RESULT, 1, .obj [], [7]⟩ _ emptyObject [] rfl rfl rfl rfl

def replacedText : Bytes := [123, 34, 97, 34, 58, 34, 0xEF, 0xBF, 0xBD, 34, 125]

def unpaired : Frame := ⟨1, 1, .obj [(js "a", .prim (.str [0xD800]))], []⟩

theorem unpaired_replaced :
    ¬ ∀ (J : ClientJson) (D : DaemonJson) (f : Frame) (bytes rest : Bytes), frame J f = some bytes →
      bytes.length ≤ 4 + MAX_FRAME → D.fromSlice (J.stringify (wellFormed f.json)) = some (wellFormed f.json) →
      read_frame D (bytes ++ rest) = .frame f rest := by
  intro h
  let D : DaemonJson :=
    { toVec := fun _ => none
      fromSlice := fun text => if text = replacedText then some (.obj [(js "a", .prim (.str [0xFFFD]))]) else none
      empty := rfl }
  have hsame := h { stringify := fun _ => replacedText, parse := fun _ => none } D unpaired _ [] rfl (by decide) rfl
  rw [read_frame_encode D _ _ _ _ _ (.obj [(js "a", .prim (.str [0xFFFD]))]) (by decide) rfl] at hsame
  have hjson := congrArg Frame.json (Read.frame.inj hsame).1
  have hfields := JsonValue.obj.inj hjson
  have hvalue := Prod.mk.inj (List.cons.inj hfields).1
  have hstring := Primitive.str.inj (JsonValue.prim.inj hvalue.2)
  exact absurd hstring (by decide)

end Examples

end PiAgent.Env.Frames
