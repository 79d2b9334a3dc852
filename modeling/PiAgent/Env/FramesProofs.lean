import PiAgent.Env.Frames

/-! # The receive loop reads frames off the stream -/

namespace PiAgent.Env.Frames

open List

/-! ## Numbers -/

variable (n : ℕ)

@[simp] theorem length_writeUInt32BE : (writeUInt32BE n).length = 4 := rfl

variable (a b : Bytes) (i : ℕ)

theorem readUInt8_append (h : i < a.length) : readUInt8 (a ++ b) i = readUInt8 a i := by
  unfold readUInt8
  rw [getD_eq_getElem?_getD, getD_eq_getElem?_getD, getElem?_append_left h]

theorem readUInt8_append_right : readUInt8 (a ++ b) (a.length + i) = readUInt8 b i := by
  unfold readUInt8
  rw [getD_eq_getElem?_getD, getD_eq_getElem?_getD, getElem?_append_right (Nat.le_add_right _ _),
    Nat.add_sub_cancel_left]

theorem readUInt32BE_append (h : i + 3 < a.length) : readUInt32BE (a ++ b) i = readUInt32BE a i := by
  unfold readUInt32BE
  rw [readUInt8_append a b i (by omega), readUInt8_append a b (i + 1) (by omega), readUInt8_append a b (i + 2) (by omega),
    readUInt8_append a b (i + 3) h]

theorem readUInt32BE_append_right : readUInt32BE (a ++ b) (a.length + i) = readUInt32BE b i := by
  unfold readUInt32BE
  rw [readUInt8_append_right, Nat.add_assoc, Nat.add_assoc, Nat.add_assoc, readUInt8_append_right, readUInt8_append_right,
    readUInt8_append_right]

theorem readUInt32BE_take (bytes : Bytes) (n : ℕ) (h : 3 < n) (hn : n ≤ bytes.length) :
    readUInt32BE (bytes.take n) 0 = readUInt32BE bytes 0 := by
  conv_rhs => rw [← List.take_append_drop n bytes]
  rw [readUInt32BE_append _ _ _ (by rw [length_take]; omega)]

theorem readUInt32BE_write (rest : Bytes) (h : n < 2 ^ 32) : readUInt32BE (writeUInt32BE n ++ rest) 0 = n := by
  rw [readUInt32BE_append _ _ _ (by simp)]
  have hbyte : ∀ m : ℕ, (m % 256).toUInt8.toNat = m % 256 := by
    intro m
    rw [Nat.toUInt8, UInt8.toNat_ofNat']
    omega
  unfold readUInt32BE readUInt8 writeUInt32BE
  simp only [getD_cons_zero, getD_cons_succ, Nat.zero_add, hbyte]
  omega

/-! ## The reader -/

section Reader

variable (J : ClientJson)

def nextFrame (bytes : Bytes) : Next UInt8 Frame Unit :=
  if bytes.length < 4 then .more
  else if readUInt32BE bytes 0 < 9 || readUInt32BE bytes 0 > MAX_FRAME then .stop ()
  else if bytes.length < 4 + readUInt32BE bytes 0 then .more
  else
    match Session.readJson J ((bytes.take (4 + readUInt32BE bytes 0)).drop 4) with
    | none => .stop ()
    | some json => .item (Session.frameOf ((bytes.take (4 + readUInt32BE bytes 0)).drop 4) json)
        (bytes.drop (4 + readUInt32BE bytes 0))

theorem nextFrame_append (x y : Bytes) : nextFrame J (x ++ y) = match nextFrame J x with
      | .more => nextFrame J (x ++ y)
      | .stop e => .stop e
      | .item f rest => .item f (rest ++ y) := by
  conv_rhs => rw [nextFrame]
  by_cases h4 : x.length < 4
  · rw [if_pos h4]
  · have hread : readUInt32BE (x ++ y) 0 = readUInt32BE x 0 := readUInt32BE_append x y 0 (by omega)
    have h4' : ¬ (x ++ y).length < 4 := by
      rw [length_append]
      omega
    rw [if_neg h4]
    by_cases hlength : readUInt32BE x 0 < 9 || readUInt32BE x 0 > MAX_FRAME
    · rw [if_pos hlength, nextFrame, if_neg h4', hread, if_pos hlength]
    · rw [if_neg hlength]
      by_cases hwhole : x.length < 4 + readUInt32BE x 0
      · rw [if_pos hwhole]
      · have hwhole' : ¬ (x ++ y).length < 4 + readUInt32BE x 0 := by
          rw [length_append]
          omega
        rw [if_neg hwhole, nextFrame, if_neg h4', hread, if_neg hlength, if_neg hwhole',
          take_append_of_le_length (by omega), drop_append_of_le_length (by omega)]
        cases Session.readJson J ((x.take (4 + readUInt32BE x 0)).drop 4) <;> rfl

theorem nextFrame_shrinks (x : Bytes) (value : Frame) (rest : Bytes) (h : nextFrame J x = .item value rest) :
    rest.length < x.length := by
  unfold nextFrame at h
  split at h
  · cases h
  · split at h
    · cases h
    · split at h
      · cases h
      · split at h
        · cases h
        · obtain ⟨-, rfl⟩ := Next.item.inj h
          rw [length_drop]
          omega

def reader : Reader UInt8 Frame Unit where
  next := nextFrame J
  shrinks := nextFrame_shrinks J
  item_append := by
    intro x y value rest h
    rw [nextFrame_append, h]
  stop_append := by
    intro x y error h
    rw [nextFrame_append, h]

theorem reader_next : (reader J).next = nextFrame J := rfl

end Reader

/-! ## The buffer -/

structure Holds (s : Session) (bytes : Bytes) : Prop where
  flatten : s.chunks.flatten = bytes
  buffered : s.buffered = bytes.length

namespace Session

variable (s : Session)

variable (bytes : Bytes)

theorem peek_spec (h : Holds s bytes) (n : ℕ) : Holds (s.peek n).1 bytes ∧ (s.peek n).2 = bytes.take n := by
  obtain ⟨hflatten, hbuffered⟩ := h
  unfold peek
  by_cases hshort : (s.chunks.headD []).length < n
  · simp only [if_pos hshort]
    refine ⟨⟨by simpa using hflatten, hbuffered⟩, ?_⟩
    rw [← hflatten]
    rfl
  · simp only [if_neg hshort]
    refine ⟨⟨hflatten, hbuffered⟩, ?_⟩
    rw [← hflatten]
    cases hchunks : s.chunks with
    | nil => rfl
    | cons first rest =>
      rw [hchunks, headD_cons] at hshort
      rw [headD_cons, flatten_cons, take_append_of_le_length (by omega)]

theorem flatten_consumeChunks (chunks : List Bytes) (n : ℕ) :
    (consumeChunks chunks n).flatten = chunks.flatten.drop n := by
  induction chunks generalizing n with
  | nil => cases n <;> rfl
  | cons first rest ih =>
    cases n with
    | zero => rfl
    | succ n =>
      unfold consumeChunks
      by_cases hle : first.length ≤ n + 1
      · rw [if_pos hle, ih, flatten_cons, drop_append, drop_eq_nil_of_le hle, nil_append]
      · rw [if_neg hle, flatten_cons, flatten_cons, drop_append_of_le_length (by omega)]

theorem consume_spec (h : Holds s bytes) (n : ℕ) : Holds (s.consume n) (bytes.drop n) := by
  refine ⟨?_, ?_⟩
  · rw [← h.flatten]
    exact flatten_consumeChunks s.chunks n
  · rw [length_drop, ← h.buffered]
    rfl

/-! ## Requests -/

def settledId : Effect → Option ℕ
  | .resolve id _ _ => some id
  | .reject id _ => some id
  | _ => none

def settled (effects : List Effect) : List ℕ := effects.filterMap settledId

def dispatched (effects : List Effect) : List Frame :=
  effects.filterMap (fun effect =>
    match effect with
    | .dispatch f => some f
    | _ => none)

def Accounts (start : ℕ) (s : Session) (done : List ℕ) : Prop :=
  start ≤ s.nextId ∧ (s.pending.map Prod.fst ++ done).Perm (List.range' start (s.nextId - start))

theorem Accounts.nodup {start : ℕ} {s : Session} {done : List ℕ} (h : Accounts start s done) :
    (s.pending.map Prod.fst).Nodup := by
  have hall := h.2.nodup_iff.mpr nodup_range'
  exact (nodup_append.mp hall).1

@[simp] theorem settled_append (a b : List Effect) : settled (a ++ b) = settled a ++ settled b := filterMap_append

@[simp] theorem dispatched_append (a b : List Effect) : dispatched (a ++ b) = dispatched a ++ dispatched b :=
  filterMap_append

theorem settled_rejects (requests : List (ℕ × Bool)) (failure : Failure) :
    settled (requests.map (fun request => .reject request.1 failure)) = requests.map Prod.fst := by
  unfold settled
  rw [filterMap_map]
  exact filterMap_eq_map ▸ rfl

theorem dispatched_rejects (requests : List (ℕ × Bool)) (failure : Failure) :
    dispatched (requests.map (fun request => .reject request.1 failure)) = [] := by
  unfold dispatched
  rw [filterMap_map]
  exact filterMap_eq_nil_iff.mpr (fun _ _ => rfl)

variable (start : ℕ)

theorem send_accounts (s : Session) (done : List ℕ) (h : Accounts start s done) (onEvent : Bool)
    (hlive : s.live = true) : Accounts start (s.send onEvent).1 done := by
  obtain ⟨hle, hperm⟩ := h
  unfold send
  rw [if_pos hlive]
  refine ⟨hle.trans (Nat.le_succ _), ?_⟩
  dsimp only
  have hrange : List.range' start (s.nextId + 1 - start) = List.range' start (s.nextId - start) ++ [s.nextId] := by
    rw [show s.nextId + 1 - start = (s.nextId - start) + 1 by omega, range'_concat]
    rw [show start + 1 * (s.nextId - start) = s.nextId by omega]
  rw [hrange, map_append, append_assoc]
  refine List.Perm.trans ?_ (hperm.append_right [s.nextId])
  rw [append_assoc]
  exact perm_append_comm.append_left _

theorem dispatch_spec (s : Session) (done : List ℕ) (h : Accounts start s done) (f : Frame) :
    Accounts start (s.dispatch f).1 (done ++ settled (s.dispatch f).2) ∧ dispatched (s.dispatch f).2 = [] ∧
      (s.dispatch f).1.live = s.live ∧ (s.dispatch f).1.chunks = s.chunks ∧ (s.dispatch f).1.buffered = s.buffered ∧
      (s.dispatch f).1.synced = s.synced ∧ (s.dispatch f).1.token = s.token := by
  unfold dispatch
  dsimp only
  split
  · exact ⟨by simpa [settled] using h, rfl, rfl, rfl, rfl, rfl, rfl⟩
  · rename_i request hfind
    split
    · refine ⟨?_, ?_, rfl, rfl, rfl, rfl, rfl⟩
      · have hnone : settled (if request.2 then [Effect.event f.id.toNat f.json f.payload] else []) = [] := by
          split <;> rfl
        rw [hnone, append_nil]
        exact h
      · split <;> rfl
    · split
      · exact ⟨by simpa [settled] using h, rfl, rfl, rfl, rfl, rfl, rfl⟩
      · refine ⟨⟨h.1, ?_⟩, ?_, rfl, rfl, rfl, rfl, rfl⟩
        · have hmem : f.id.toNat ∈ s.pending.map Prod.fst :=
            mem_map.mpr ⟨request, mem_of_find?_eq_some hfind, by simpa using find?_some hfind⟩
          have hsettled : settled [if f.type = RESULT then Effect.resolve f.id.toNat f.json f.payload
              else .reject f.id.toNat (.remote f.json)] = [f.id.toNat] := by
            split <;> rfl
          have hfilter : (s.pending.filter (fun request => request.1 ≠ f.id.toNat)).map Prod.fst =
              (s.pending.map Prod.fst).erase f.id.toNat := by
            rw [h.nodup.erase_eq_filter, filter_map]
            congr 1
            refine filter_congr (fun x _ => ?_)
            simp only [Function.comp_apply]
            by_cases hx : x.1 = f.id.toNat <;> simp [hx]
          rw [hsettled, hfilter]
          refine List.Perm.trans ?_ h.2
          refine List.Perm.trans ?_ ((perm_cons_erase hmem).symm.append_right done)
          rw [cons_append, ← append_assoc]
          exact perm_append_singleton _ _
        · split <;> rfl

/-! ## The loop -/

structure Received (s : Session) (drained : Drained UInt8 Frame Unit) (start : ℕ) (done : List ℕ)
    (after : Session) (effects : List Effect) : Prop where
  dispatched : dispatched effects = drained.items
  token : after.token = s.token
  synced : after.synced = s.synced
  accounts : Accounts start after (done ++ settled effects)
  kept : ∀ rest, drained.rest = .ok rest → after.live = true ∧ Holds after rest
  torn : ∀ e, drained.rest = .error e → after.live = false ∧ after.pending = [] ∧
    ∃ before, ∃ waiting : List ℕ, effects = before ++ waiting.map (fun id => .reject id corrupt)

theorem teardown_live (failure : Failure) (hlive : s.live = true) : s.teardown failure =
      ({ s with live := false, pending := [] }, s.pending.map (fun request => .reject request.1 failure)) := by
  unfold teardown
  rw [if_pos hlive]

variable (J : ClientJson)

theorem teardown_received (start : ℕ) (s s' : Session) (bytes : Bytes) (done : List ℕ)
    (hlive : s'.live = true) (htoken : s'.token = s.token) (hsynced : s'.synced = s.synced)
    (hacc : Accounts start s' done) (hstop : nextFrame J bytes = .stop ()) :
    Received s ((reader J).drain bytes) start done (s'.teardown corrupt).1 (s'.teardown corrupt).2 := by
  rw [(reader J).drain_stop bytes () hstop, teardown_live s' corrupt hlive]
  refine ⟨dispatched_rejects _ _, htoken, hsynced, ⟨hacc.1, ?_⟩, by simp,
    fun _ _ => ⟨rfl, rfl, [], s'.pending.map Prod.fst, ?_⟩⟩
  · rw [settled_rejects]
    refine List.Perm.trans ?_ hacc.2
    show (done ++ s'.pending.map Prod.fst).Perm (s'.pending.map Prod.fst ++ done)
    exact perm_append_comm
  · rw [map_map]
    rfl

theorem receive_spec (start fuel : ℕ) (s : Session) (bytes : Bytes) (done : List ℕ)
    (hfuel : bytes.length < fuel) (hlive : s.live = true) (hholds : Holds s bytes) (hacc : Accounts start s done) :
    Received s ((reader J).drain bytes) start done (receive J fuel s).1 (receive J fuel s).2 := by
  induction fuel generalizing s bytes done with
  | zero => omega
  | succ fuel ih =>
    have hmore : nextFrame J bytes = .more →
        ∀ s', Holds s' bytes → s'.live = true → s'.token = s.token → s'.synced = s.synced → Accounts start s' done →
        Received s ((reader J).drain bytes) start done s' [] := by
      intro hnext s' hs' hlive' htoken hsynced hacc'
      rw [(reader J).drain_more bytes hnext]
      refine ⟨rfl, htoken, hsynced, by simpa [settled] using hacc', ?_, by simp⟩
      intro rest hrest
      obtain rfl := Except.ok.inj hrest
      exact ⟨hlive', hs'⟩
    unfold receive
    rw [hlive, hholds.buffered]
    by_cases h4 : bytes.length < 4
    · rw [if_pos (by simpa using h4)]
      exact hmore (by rw [nextFrame, if_pos h4]) s hholds hlive rfl rfl hacc
    · rw [if_neg (by simpa using h4)]
      obtain ⟨hpeek, htake⟩ := peek_spec s bytes hholds 4
      have hread : readUInt32BE (s.peek 4).2 0 = readUInt32BE bytes 0 := by
        rw [htake, readUInt32BE_take _ _ (by omega) (by omega)]
      dsimp only
      rw [hread]
      by_cases hlength : readUInt32BE bytes 0 < 9 || readUInt32BE bytes 0 > MAX_FRAME
      · rw [if_pos hlength]
        exact teardown_received J start s _ bytes done hlive rfl rfl hacc
          (by rw [nextFrame, if_neg h4, if_pos hlength])
      · rw [if_neg hlength, show (s.peek 4).1.buffered = bytes.length from hpeek.buffered]
        by_cases hwhole : bytes.length < 4 + readUInt32BE bytes 0
        · rw [if_pos hwhole]
          exact hmore (by rw [nextFrame, if_neg h4, if_neg hlength, if_pos hwhole]) _ hpeek hlive rfl rfl hacc
        · rw [if_neg hwhole]
          obtain ⟨hpeek', htake'⟩ := peek_spec (s.peek 4).1 bytes hpeek (4 + readUInt32BE bytes 0)
          rw [htake']
          generalize hbody : (bytes.take (4 + readUInt32BE bytes 0)).drop 4 = body
          have hnext : nextFrame J bytes =
              match readJson J body with
              | none => .stop ()
              | some json => .item (frameOf body json) (bytes.drop (4 + readUInt32BE bytes 0)) := by
            rw [nextFrame, if_neg h4, if_neg hlength, if_neg hwhole, hbody]
          cases hjson : readJson J body with
          | none =>
            rw [hjson] at hnext
            exact teardown_received J start s _ bytes done hlive rfl rfl hacc hnext
          | some json =>
            rw [hjson] at hnext
            dsimp only at hnext ⊢
            rw [(reader J).drain_item bytes _ _ hnext]
            have hconsumed := consume_spec _ _ hpeek' (4 + readUInt32BE bytes 0)
            generalize hs2 : ((s.peek 4).1.peek (4 + readUInt32BE bytes 0)).1.consume (4 + readUInt32BE bytes 0) = s2
              at hconsumed
            have hs2acc : Accounts start s2 done := by
              rw [← hs2]
              exact hacc
            have hs2live : s2.live = true := by
              rw [← hs2]
              exact hlive
            have hs2token : s2.token = s.token := by
              rw [← hs2]
              rfl
            have hs2synced : s2.synced = s.synced := by
              rw [← hs2]
              rfl
            obtain ⟨d1, d2, d3, d4, d5, d6, d7⟩ := dispatch_spec start s2 done hs2acc (frameOf body json)
            have hrec := ih (s2.dispatch (frameOf body json)).1 (bytes.drop (4 + readUInt32BE bytes 0)) _
              (by rw [length_drop]; omega) (d3.trans hs2live) ⟨d4 ▸ hconsumed.flatten, d5 ▸ hconsumed.buffered⟩ d1
            refine ⟨?_, hrec.token.trans (d7.trans hs2token), hrec.synced.trans (d6.trans hs2synced), ?_, hrec.kept, ?_⟩
            · show frameOf body json :: Session.dispatched ((s2.dispatch (frameOf body json)).2 ++ _) = _
              rw [dispatched_append, d2, nil_append, hrec.dispatched]
            · show Accounts start _ (done ++ settled ((s2.dispatch (frameOf body json)).2 ++ _))
              rw [settled_append, ← append_assoc]
              exact hrec.accounts
            · intro e he
              obtain ⟨hdead, hnone, before, waiting, heq⟩ := hrec.torn e he
              refine ⟨hdead, hnone, .dispatch (frameOf body json) :: (s2.dispatch (frameOf body json)).2 ++ before,
                waiting, ?_⟩
              rw [heq]
              simp

/-! ## The sync line -/

variable (token : Token)

theorem length_syncLine : (syncLine token).length = 40 := by
  unfold syncLine
  rw [length_append, length_append, token.length]
  rfl

theorem newline_syncLine (a b : Bytes) (h : syncLine token = a ++ 10 :: b) : b = [] := by
  by_contra hne
  obtain ⟨c, last, rfl⟩ := eq_nil_or_concat b |>.resolve_left hne
  have hbody : syncWord ++ token.digits = a ++ 10 :: c := by
    have heq : (syncWord ++ token.digits) ++ [10] = (a ++ 10 :: c) ++ [last] := by
      rw [show syncLine token = syncWord ++ token.digits ++ [10] from rfl] at h
      simpa using h
    exact (append_inj' heq rfl).1
  have hmem : (10 : UInt8) ∈ syncWord ++ token.digits := by
    rw [hbody]
    simp
  rcases mem_append.mp hmem with hmem | hmem
  · exact absurd hmem (by decide)
  · rcases token.hex 10 hmem with ⟨h1, -⟩ | ⟨h1, -⟩
    · exact absurd h1 (by decide)
    · exact absurd h1 (by decide)

theorem firstIndex_noise (noise data : Bytes) (hnoise : ∀ i, ¬ OccursAt (syncLine token) noise i) :
    firstIndex (syncLine token) (noise ++ syncLine token ++ data) = some noise.length := by
  refine (firstIndex_eq_some _ _ _).mpr ⟨occursAt_append noise (syncLine token) data, ?_⟩
  intro j hj hat
  -- an earlier one would end inside of the sync line, with its newline
  by_cases hle : j + (syncLine token).length ≤ noise.length
  · rw [append_assoc] at hat
    exact hnoise j (hat.of_append hle)
  · have hpos := length_syncLine token
    have hlast : ∃ body, syncLine token = body ++ [10] := ⟨syncWord ++ token.digits, rfl⟩
    obtain ⟨body, hbody⟩ := hlast
    have hlength : (syncLine token).length = body.length + 1 := by
      rw [hbody]
      simp
    obtain ⟨rest, hrest⟩ := hat.2
    have hget : (noise ++ syncLine token ++ data)[j + body.length]? = some 10 := by
      rw [← getElem?_drop, ← hrest, hbody]
      simp
    rw [append_assoc, getElem?_append_right (by omega), getElem?_append_left (by omega)] at hget
    obtain ⟨hlt, hten⟩ := List.getElem?_eq_some_iff.mp hget
    have hsplit := List.take_append_drop (j + body.length - noise.length) (syncLine token)
    rw [drop_eq_getElem_cons hlt, hten] at hsplit
    have hend := newline_syncLine token _ _ hsplit.symm
    have := congrArg List.length hend
    rw [length_drop, length_nil] at this
    omega

/-- What a session that has not synced holds of the bytes that came: all, or enough for the end of a sync line. -/
structure Waits (s : Session) (bytes : Bytes) : Prop where
  none : ∀ i, ¬ OccursAt (syncLine s.token) bytes i
  holds : ∃ dropped kept, bytes = dropped ++ kept ∧ Holds s kept ∧
    (dropped = [] ∨ (syncLine s.token).length ≤ kept.length)

def afterSync (token : Token) (bytes : Bytes) (i : ℕ) : Bytes := bytes.drop (i + (syncLine token).length)

theorem sync_spec (bytes dropped kept : Bytes) (hbytes : bytes = dropped ++ kept) (hholds : Holds s kept)
    (hearly : ∀ i < dropped.length, ¬ OccursAt (syncLine s.token) bytes i)
    (hkept : dropped = [] ∨ (syncLine s.token).length ≤ kept.length) :
    ((s.sync).2 = false ∧ Waits (s.sync).1 bytes ∧ (s.sync).1.synced = s.synced ∨
      (s.sync).2 = true ∧ ∃ i, firstIndex (syncLine s.token) bytes = some i ∧
        Holds (s.sync).1 (afterSync s.token bytes i) ∧ (s.sync).1.synced = true) ∧
      (s.sync).1.token = s.token ∧ (s.sync).1.nextId = s.nextId ∧ (s.sync).1.pending = s.pending ∧
      (s.sync).1.live = s.live := by
  obtain ⟨hpeek, htake⟩ := peek_spec s kept hholds s.buffered
  have hall : (s.peek s.buffered).2 = kept := by rw [htake, hholds.buffered, take_length]
  have hbuffered : (s.peek s.buffered).1.buffered = kept.length := hpeek.buffered
  unfold sync
  dsimp only
  rw [hall]
  cases hfirst : firstIndex (syncLine s.token) kept with
  | none =>
    have hnone : ∀ i, ¬ OccursAt (syncLine s.token) bytes i := by
      intro i hat
      by_cases hi : i < dropped.length
      · exact hearly i hi hat
      · obtain ⟨k, rfl⟩ := Nat.exists_eq_add_of_le (Nat.le_of_not_lt hi)
        rw [hbytes, occursAt_append_right] at hat
        exact (firstIndex_eq_none _ _).mp hfirst k hat
    dsimp only
    rw [hbuffered]
    by_cases hlong : kept.length > 1024 * 1024
    · rw [if_pos hlong]
      refine ⟨Or.inl ⟨rfl, ⟨hnone, ?_⟩, rfl⟩, rfl, rfl, rfl, rfl⟩
      have hmarker := length_syncLine s.token
      refine ⟨dropped ++ kept.take (kept.length - (syncLine s.token).length),
        kept.drop (kept.length - (syncLine s.token).length), ?_, consume_spec _ _ hpeek _, Or.inr ?_⟩
      · rw [append_assoc, List.take_append_drop]
        exact hbytes
      · rw [length_drop]
        show (syncLine s.token).length ≤ _
        omega
    · rw [if_neg hlong]
      exact ⟨Or.inl ⟨rfl, ⟨hnone, dropped, kept, hbytes, hpeek, hkept⟩, rfl⟩, rfl, rfl, rfl, rfl⟩
  | some i =>
    obtain ⟨hat, hleast⟩ := (firstIndex_eq_some _ _ _).mp hfirst
    refine ⟨Or.inr ⟨rfl, dropped.length + i, ?_, ?_, rfl⟩, rfl, rfl, rfl, rfl⟩
    · refine (firstIndex_eq_some _ _ _).mpr ⟨?_, ?_⟩
      · rw [hbytes, occursAt_append_right]
        exact hat
      · intro j hj hat'
        by_cases hjd : j < dropped.length
        · exact hearly j hjd hat'
        · obtain ⟨k, rfl⟩ := Nat.exists_eq_add_of_le (Nat.le_of_not_lt hjd)
          rw [hbytes, occursAt_append_right] at hat'
          exact hleast k (by omega) hat'
    · have hconsumed := consume_spec _ _ hpeek (i + (syncLine s.token).length)
      have hafter : afterSync s.token bytes (dropped.length + i) = kept.drop (i + (syncLine s.token).length) := by
        unfold afterSync
        rw [hbytes, Nat.add_assoc, drop_append, drop_eq_nil_of_le (Nat.le_add_right _ _),
          Nat.add_sub_cancel_left, nil_append]
      rw [hafter]
      exact ⟨hconsumed.flatten, hconsumed.buffered⟩

/-! ## A whole run -/

def dataOf (inputs : List Input) : Bytes :=
  inputs.flatMap (fun input =>
    match input with
    | .data chunk => chunk
    | .request _ => [])

structure Tracks (J : ClientJson) (token : Token) (start : ℕ) (bytes : Bytes) (s : Session) (effects : List Effect) :
    Prop where
  same : s.token = token
  accounts : s.live = true → Accounts start s (settled effects)
  waiting : s.live = true → s.synced = false → Waits s bytes ∧ dispatched effects = []
  reading : s.live = true → s.synced = true → ∃ i, firstIndex (syncLine token) bytes = some i ∧
    dispatched effects = ((reader J).drain (afterSync token bytes i)).items ∧
    ∃ rest, ((reader J).drain (afterSync token bytes i)).rest = .ok rest ∧ Holds s rest
  torn : s.live = false → s.pending = [] ∧ ∃ i, firstIndex (syncLine token) bytes = some i ∧
    dispatched effects = ((reader J).drain (afterSync token bytes i)).items ∧
    (∃ e, ((reader J).drain (afterSync token bytes i)).rest = .error e) ∧
    ∃ before, ∃ waiting : List ℕ, effects = before ++ waiting.map (fun id => .reject id corrupt) ∧
      (settled before ++ waiting).Perm (List.range' start (s.nextId - start))

theorem tracks_new (start : ℕ) : Tracks J token start [] (new token start) [] := by
  refine ⟨rfl, fun _ => ⟨le_refl _, ?_⟩, fun _ _ => ⟨⟨?_, [], [], rfl, ⟨rfl, rfl⟩, Or.inl rfl⟩, rfl⟩, ?_, ?_⟩
  · simp [new, settled]
  · intro i hat
    have := hat.le
    rw [show (new token start).token = token from rfl, length_syncLine, length_nil] at this
    omega
  · intro _ hsynced
    cases hsynced
  · intro hdead
    cases hdead

theorem tracks_received (start : ℕ) (bytes before : Bytes) (i : ℕ) (s : Session)
    (effects : List Effect) (hlive : s.live = true) (hsynced : s.synced = true) (htoken : s.token = token)
    (hfirst : firstIndex (syncLine token) bytes = some i) (hholds : Holds s before)
    (hdrain : (reader J).drain (afterSync token bytes i) =
      ⟨dispatched effects ++ ((reader J).drain before).items, ((reader J).drain before).rest⟩)
    (hacc : Accounts start s (settled effects)) :
    Tracks J token start bytes (receive J (s.buffered + 1) s).1 (effects ++ (receive J (s.buffered + 1) s).2) := by
  have h := receive_spec J start (s.buffered + 1) s before _ (by rw [hholds.buffered]; omega) hlive hholds hacc
  refine ⟨h.token.trans htoken, ?_, ?_, ?_, ?_⟩
  · intro _
    rw [settled_append]
    exact h.accounts
  · intro _ hnot
    rw [h.synced, hsynced] at hnot
    cases hnot
  · intro hlive' _
    cases hrest : ((reader J).drain before).rest with
    | ok rest =>
      refine ⟨i, hfirst, ?_, rest, ?_, (h.kept rest hrest).2⟩
      · rw [dispatched_append, h.dispatched, hdrain]
      · rw [hdrain]
        exact hrest
    | error e =>
      rw [(h.torn e hrest).1] at hlive'
      cases hlive'
  · intro hdead
    cases hrest : ((reader J).drain before).rest with
    | ok rest =>
      rw [(h.kept rest hrest).1] at hdead
      cases hdead
    | error e =>
      obtain ⟨-, hnone, earlier, waiting, heq⟩ := h.torn e hrest
      refine ⟨hnone, i, hfirst, ?_, ⟨e, by rw [hdrain]; exact hrest⟩, effects ++ earlier, waiting, ?_, ?_⟩
      · rw [dispatched_append, h.dispatched, hdrain]
      · rw [heq, append_assoc]
      · have hperm := h.accounts.2
        rw [hnone, heq] at hperm
        rw [settled_append] at hperm
        have hsettled : settled (waiting.map (fun id => Effect.reject id corrupt)) = waiting := by
          unfold settled
          rw [filterMap_map]
          exact filterMap_some
        rw [hsettled] at hperm
        rw [settled_append, append_assoc]
        exact hperm

/-! ### One chunk -/

theorem push_holds (bytes chunk : Bytes) (h : Holds s bytes) : Holds (s.push chunk) (bytes ++ chunk) := by
  refine ⟨?_, ?_⟩
  · show (s.chunks ++ [chunk]).flatten = _
    rw [flatten_append, h.flatten]
    simp
  · show s.buffered + chunk.length = _
    rw [length_append, ← h.buffered]

theorem afterSync_append (bytes chunk : Bytes) (i : ℕ) (hfirst : firstIndex (syncLine token) bytes = some i) :
    afterSync token (bytes ++ chunk) i = afterSync token bytes i ++ chunk := by
  have hle := ((firstIndex_eq_some _ _ _).mp hfirst).1.le
  unfold afterSync
  rw [drop_append_of_le_length hle]

section Chunk

variable {J : ClientJson} {token : Token} {start : ℕ} {bytes : Bytes} {s : Session} {effects : List Effect}

section

variable (h : Tracks J token start bytes s effects)
include h

theorem Tracks.dead (hlive : s.live = false) (chunk : Bytes) :
    Tracks J token start (bytes ++ chunk) s effects := by
  obtain ⟨hnone, i, hfirst, hdispatched, ⟨e, he⟩, hbefore⟩ := h.torn hlive
  have hdrain : (reader J).drain (afterSync token (bytes ++ chunk) i) = (reader J).drain (afterSync token bytes i) := by
    rw [afterSync_append token bytes chunk i hfirst, (reader J).drain_append, Reader.feed, he]
  have hnot : s.live ≠ true := by simp [hlive]
  refine ⟨h.same, fun hl => absurd hl hnot, fun hl => absurd hl hnot, fun hl => absurd hl hnot,
    fun _ => ⟨hnone, i, firstIndex_append _ _ _ _ hfirst, ?_, ⟨e, ?_⟩, hbefore⟩⟩
  · rw [hdrain]
    exact hdispatched
  · rw [hdrain]
    exact he

theorem Tracks.synced (hlive : s.live = true) (hsynced : s.synced = true) (chunk : Bytes) :
    Tracks J token start (bytes ++ chunk) (receive J ((s.push chunk).buffered + 1) (s.push chunk)).1
      (effects ++ (receive J ((s.push chunk).buffered + 1) (s.push chunk)).2) := by
  obtain ⟨i, hfirst, hdispatched, rest, hrest, hholds⟩ := h.reading hlive hsynced
  refine tracks_received J token start (bytes ++ chunk) (rest ++ chunk) i (s.push chunk) effects hlive hsynced h.same
    (firstIndex_append _ _ _ _ hfirst) (push_holds s rest chunk hholds) ?_ (h.accounts hlive)
  rw [afterSync_append token bytes chunk i hfirst, (reader J).drain_append, Reader.feed, hrest, hdispatched]

theorem Tracks.waits (hlive : s.live = true) (hsynced : s.synced = false) (chunk : Bytes) :
    ((s.push chunk).sync.2 = false → Tracks J token start (bytes ++ chunk) (s.push chunk).sync.1 effects) ∧
      ((s.push chunk).sync.2 = true →
        Tracks J token start (bytes ++ chunk) (receive J ((s.push chunk).sync.1.buffered + 1) (s.push chunk).sync.1).1
          (effects ++ (receive J ((s.push chunk).sync.1.buffered + 1) (s.push chunk).sync.1).2)) := by
  obtain ⟨⟨hnone, dropped, kept, hbytes, hholds, hlong⟩, hnothing⟩ := h.waiting hlive hsynced
  have htoken : (s.push chunk).token = s.token := rfl
  have hearly : ∀ i < dropped.length, ¬ OccursAt (syncLine s.token) (bytes ++ chunk) i := by
    intro j hj hat
    rcases hlong with rfl | hlong
    · simp at hj
    · refine hnone j (hat.of_append ?_)
      rw [hbytes, length_append]
      omega
  have hkept : dropped = [] ∨ (syncLine s.token).length ≤ (kept ++ chunk).length := by
    rcases hlong with hlong | hlong
    · exact Or.inl hlong
    · refine Or.inr (hlong.trans ?_)
      rw [length_append]
      exact Nat.le_add_right _ _
  obtain ⟨hsync, h1, h2, h3, h4⟩ := sync_spec (s.push chunk) (bytes ++ chunk) dropped (kept ++ chunk)
    (by rw [hbytes, append_assoc]) (push_holds s kept chunk hholds) hearly hkept
  have hacc : Accounts start (s.push chunk).sync.1 (settled effects) := by
    unfold Accounts
    rw [h2, h3]
    exact h.accounts hlive
  have hlive' : (s.push chunk).sync.1.live = true := h4.trans hlive
  rcases hsync with ⟨hfound, hwaits, hstill⟩ | ⟨hfound, i, hfirst, hafter, hnow⟩
  · refine ⟨fun _ => ?_, fun htrue => absurd htrue (by simp [hfound])⟩
    have hunsynced : (s.push chunk).sync.1.synced = false := hstill.trans hsynced
    refine ⟨h1.trans h.same, fun _ => hacc, fun _ _ => ⟨hwaits, hnothing⟩, ?_, ?_⟩
    · intro _ hyes
      rw [hunsynced] at hyes
      cases hyes
    · intro hdead
      rw [hlive'] at hdead
      cases hdead
  · refine ⟨fun hfalse => absurd hfalse (by simp [hfound]), fun _ => ?_⟩
    rw [htoken, h.same] at hfirst hafter
    refine tracks_received J token start (bytes ++ chunk) _ i _ effects hlive' hnow (h1.trans h.same) hfirst hafter ?_ hacc
    rw [hnothing]
    rfl

theorem Tracks.data (chunk : Bytes) :
    Tracks J token start (bytes ++ chunk) (s.onData J chunk).1 (effects ++ (s.onData J chunk).2) := by
  unfold onData
  by_cases hlive : s.live = true
  · rw [if_neg (by simp [hlive])]
    by_cases hsynced : s.synced = true
    · have hsynced' : (s.push chunk).synced = true := hsynced
      dsimp only
      rw [if_pos hsynced']
      exact h.synced hlive hsynced chunk
    · have hsynced' : ¬ (s.push chunk).synced = true := hsynced
      obtain ⟨hnot, hfound⟩ := h.waits hlive (by simpa using hsynced) chunk
      dsimp only
      rw [if_neg hsynced']
      by_cases hsync : (s.push chunk).sync.2 = true
      · rw [if_pos hsync]
        exact hfound hsync
      · rw [if_neg hsync, append_nil]
        exact hnot (by simpa using hsync)
  · rw [if_pos (by simpa using hlive), append_nil]
    exact h.dead (by simpa using hlive) chunk

theorem Tracks.request (onEvent : Bool) :
    Tracks J token start bytes (s.send onEvent).1 (effects ++ (s.send onEvent).2) := by
  by_cases hlive : s.live = true
  · have hacc := fun hl => send_accounts start s _ (h.accounts hl) onEvent hl
    unfold send at hacc ⊢
    rw [if_pos hlive] at hacc ⊢
    rw [append_nil]
    refine ⟨h.same, fun _ => hacc hlive, ?_, ?_, ?_⟩
    · intro _ hsynced
      obtain ⟨⟨hnone, dropped, kept, hbytes, hholds, hlong⟩, hnothing⟩ := h.waiting hlive hsynced
      exact ⟨⟨hnone, dropped, kept, hbytes, ⟨hholds.flatten, hholds.buffered⟩, hlong⟩, hnothing⟩
    · intro _ hsynced
      obtain ⟨i, hfirst, hdispatched, rest, hrest, hholds⟩ := h.reading hlive hsynced
      exact ⟨i, hfirst, hdispatched, rest, hrest, ⟨hholds.flatten, hholds.buffered⟩⟩
    · intro hdead
      rw [show s.live = false from hdead] at hlive
      cases hlive
  · unfold send
    rw [if_neg hlive, append_nil]
    exact h

end

end Chunk

theorem tracks_run (start : ℕ) (inputs : List Input) (bytes : Bytes) (s : Session)
    (effects : List Effect) (h : Tracks J token start bytes s effects) :
    Tracks J token start (bytes ++ dataOf inputs) (run J s inputs).1 (effects ++ (run J s inputs).2) := by
  induction inputs generalizing bytes s effects with
  | nil =>
    unfold run dataOf
    rw [flatMap_nil, append_nil, append_nil]
    exact h
  | cons input inputs ih =>
    unfold run
    cases input with
    | data chunk =>
      have hnext := ih _ _ _ (h.data chunk)
      rw [append_assoc, append_assoc] at hnext
      exact hnext
    | request onEvent =>
      have hnext := ih _ _ _ (h.request onEvent)
      rw [append_assoc] at hnext
      exact hnext

end Session

end PiAgent.Env.Frames
