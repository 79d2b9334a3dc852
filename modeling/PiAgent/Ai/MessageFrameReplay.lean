import PiAgent.Ai.MessageFrameProofs

/-!
# The encoder and the reducer, side by side

One event keeps what the encoder's state, the replayed message and the stream say of
each other; so does every consumed part of a stream.
-/

namespace PiAgent.Ai

open Option Function List Assoc

/-! ## What was consumed of a tool call -/

def toolDelta (k : ℕ) : Event × AssistantMessage → Option JsString
  | (.toolcallDelta i delta, _) => if i = k then some delta else none
  | _ => none

def deltasOf (consumed : List (Event × AssistantMessage)) (k : ℕ) : List JsString := consumed.filterMap (toolDelta k)

def argumentsAt (k : ℕ) : Event × AssistantMessage → Option JsonValue
  | (.toolcallStart i, live) =>
    if i = k then
      match live.content[k]? with
      | some (.toolCall call) => some call.arguments
      | _ => none
    else none
  | _ => none

def startArguments (consumed : List (Event × AssistantMessage)) (k : ℕ) : Option JsonValue :=
  consumed.findSome? (argumentsAt k)

section Tracking

variable (P : JsonTexts)

def CatchesUp (start : JsonValue) (json : JsString) : Prop :=
  P.stringify (P.parseStreamingJson json) = P.stringify start ∨
    isJsonPrefix (P.parseStreamingJson (P.stringify start)) (P.parseStreamingJson json) = true

def CaughtUp (start : JsonValue) (deltas : List JsString) : Prop :=
  P.stringify start = P.stringify (P.parseStreamingJson []) ∨
    ∃ part, part ≠ [] ∧ part <+: deltas ∧ CatchesUp P start part.flatten

theorem CaughtUp.mono {start : JsonValue} {deltas : List JsString} (h : CaughtUp P start deltas) (delta : JsString) :
    CaughtUp P start (deltas ++ [delta]) := by
  rcases h with h | ⟨part, hne, hpre, hc⟩
  · exact Or.inl h
  · exact Or.inr ⟨part, hne, hpre.trans (prefix_append _ _), hc⟩

theorem caughtUp_snoc {start : JsonValue} {deltas : List JsString} (delta : JsString) (h : ¬CaughtUp P start deltas) :
    CaughtUp P start (deltas ++ [delta]) ↔ CatchesUp P start (deltas ++ [delta]).flatten := by
  constructor
  · rintro (hstart | ⟨part, hne, hpre, hc⟩)
    · exact absurd (Or.inl hstart) h
    · rcases prefix_concat_iff.mp hpre with rfl | hpre
      · exact hc
      · exact absurd (Or.inr ⟨part, hne, hpre, hc⟩) h
  · exact fun hc => Or.inr ⟨_, by simp, prefix_rfl, hc⟩

inductive Tracks (start : Option JsonValue) (deltas : List JsString) (last : Option Block) :
    Option EncoderBlockState → Option ReducerBlockState → Option Block → Bool → Block → Prop
  | openText (content shown final : Prose) (covered : ℕ) (hlast : last = some (.prose final))
      (hkind : shown.kind = content.kind) (hbegins : content.text <+: final.text)
      (hcovered : covered ≤ final.text.length)
      (hshown : shown.text = final.text.take (max covered content.text.length)) :
      Tracks start deltas last (some (.text content.kind covered content.text.length))
        (some (.text content.kind false)) (some (.prose shown)) true (.prose content)
  | behind (call shown : ToolCall) (seen : JsonValue) (hstart : start = some seen) (hjson : P.IsJson seen)
      (hbehind : ¬CaughtUp P seen deltas) (hshown : shown.arguments = seen) :
      Tracks start deltas last (some (.toolCall false deltas.flatten (P.stringify seen)))
        (some (.toolCall false [])) (some (.toolCall shown)) true (.toolCall call)
  | caughtUp (call shown : ToolCall) (seen : JsonValue) (hstart : start = some seen)
      (hcaught : CaughtUp P seen deltas) (hempty : deltas.flatten = [] → shown.arguments = .obj []) :
      Tracks start deltas last (some (.toolCall true [] [])) (some (.toolCall false deltas.flatten))
        (some (.toolCall shown)) true (.toolCall call)
  | endedText (content : Prose) :
      Tracks start deltas last none (some (.text content.kind true)) (some (.prose content)) false (.prose content)
  | endedTool (call : ToolCall) (json : JsString) :
      Tracks start deltas last none (some (.toolCall true json)) (some (.toolCall call)) false (.toolCall call)

structure Follows (final : Progress) (consumed : List (Event × AssistantMessage)) (e : Encoder) (r : Reducer)
    (p : Progress) (shown : AssistantMessage) : Prop where
  started : e.started = true
  terminal : e.terminal = p.finished
  message : r.message = some shown
  length : shown.content.length = p.message.content.length
  keys : (Assoc.keys r.states).Nodup
  fresh : ∀ k, p.message.content.length ≤ k →
    get? e.blocks k = none ∧ get? r.states k = none ∧ startArguments consumed k = none ∧
      deltasOf consumed k = []
  blocks : ∀ (k : ℕ) (b : Block), p.message.content[k]? = some b →
    Tracks P (startArguments consumed k) (deltasOf consumed k) final.message.content[k]? (get? e.blocks k)
      (get? r.states k) shown.content[k]? (p.isOpen k) b

section

variable (consumed : List (Event × AssistantMessage)) (x : Event × AssistantMessage) (k : ℕ)

theorem startArguments_snoc :
    startArguments (consumed ++ [x]) k = (startArguments consumed k).or (argumentsAt k x) := by
  unfold startArguments
  rw [findSome?_append]
  cases h : argumentsAt k x <;> simp [h]

theorem deltasOf_snoc : deltasOf (consumed ++ [x]) k = deltasOf consumed k ++ (toolDelta k x).toList := by
  unfold deltasOf
  cases h : toolDelta k x <;> simp [filterMap_append, h]

end

variable {final : Progress} {consumed : List (Event × AssistantMessage)}

theorem Follows.other {e e' : Encoder} {r r' : Reducer}
    {p p' : Progress} {shown shown' : AssistantMessage} (h : Follows P final consumed e r p shown)
    (x : Event × AssistantMessage) (k : ℕ) (hstarted : e'.started = true) (hterminal : e'.terminal = p'.finished)
    (hmessage : r'.message = some shown') (hlength : shown'.content.length = p'.message.content.length)
    (hkeys : (Assoc.keys r'.states).Nodup) (hk : k < p'.message.content.length)
    (hgrown : p.message.content.length ≤ p'.message.content.length)
    (hx : ∀ j, j ≠ k → toolDelta j x = none ∧ argumentsAt j x = none)
    (he : ∀ j, j ≠ k → get? e'.blocks j = get? e.blocks j)
    (hr : ∀ j, j ≠ k → get? r'.states j = get? r.states j)
    (hs : ∀ j, j ≠ k → shown'.content[j]? = shown.content[j]?)
    (hp : ∀ j, j ≠ k → p'.message.content[j]? = p.message.content[j]? ∧ p'.isOpen j = p.isOpen j)
    (hself : ∀ b, p'.message.content[k]? = some b → Tracks P (startArguments (consumed ++ [x]) k)
      (deltasOf (consumed ++ [x]) k) final.message.content[k]? (get? e'.blocks k) (get? r'.states k)
      shown'.content[k]? (p'.isOpen k) b) : Follows P final (consumed ++ [x]) e' r' p' shown' := by
  have hsame : ∀ j, j ≠ k → startArguments (consumed ++ [x]) j = startArguments consumed j ∧
      deltasOf (consumed ++ [x]) j = deltasOf consumed j := by
    intro j hj
    obtain ⟨h1, h2⟩ := hx j hj
    rw [startArguments_snoc, deltasOf_snoc, h1, h2]
    simp
  refine ⟨hstarted, hterminal, hmessage, hlength, hkeys, ?_, ?_⟩
  · intro j hj
    have hne : j ≠ k := by omega
    obtain ⟨h1, h2⟩ := hsame j hne
    rw [he j hne, hr j hne, h1, h2]
    exact h.fresh j (le_trans hgrown hj)
  · intro j b hb
    by_cases hj : j = k
    · subst hj
      exact hself b hb
    · obtain ⟨h1, h2⟩ := hsame j hj
      obtain ⟨h3, h4⟩ := hp j hj
      rw [he j hj, hr j hj, hs j hj, h1, h2, h4]
      exact h.blocks j b (h3 ▸ hb)

/-! ## One event -/

/-- What is known when an event is encoded: the live message lies between this event and the end of the stream. -/
structure Ahead (p' : Progress) (live : AssistantMessage) (final : Progress) : Prop where
  between : ∃ q : Progress, q.message = live ∧ Grows p' q ∧ Grows q final ∧
    ∀ (k : ℕ) (call : ToolCall), q.message.content[k]? = some (.toolCall call) → P.IsJson call.arguments

def Steps (final : Progress) (consumed : List (Event × AssistantMessage)) (e : Encoder) (r : Reducer)
    (x : Event × AssistantMessage) (p' : Progress) : Prop :=
  ∃ e' frame r' shown', e.encode P x.1 x.2 = some (e', frame) ∧ r.reduceFrom P frame.toList = some r' ∧
    Follows P final (consumed ++ [x]) e' r' p' shown'

variable {P}

theorem reduceFrom_one {r r' : Reducer} {frame : Frame} (h : r.reduceFrame P frame = some r') :
    r.reduceFrom P [frame] = some r' := by
  simp [Reducer.reduceFrom, h]

theorem getElem?_append_self {α : Type} (l : List α) (a : α) : (l ++ [a])[l.length]? = some a := by simp

variable {e : Encoder} {r : Reducer} {m m' : AssistantMessage} {opened : ℕ → Bool} {shown : AssistantMessage}

theorem Follows.starts (hf : Follows P final consumed e r ⟨m, opened, false⟩ shown)
    (x : Event × AssistantMessage) (new newShown : Block) (state : EncoderBlockState) (reduced : ReducerBlockState) (h : m'.content = m.content ++ [new])
    (hstarted : e.started = true) (hterminal : e.terminal = false)
    (hx : ∀ j, j ≠ m.content.length → toolDelta j x = none ∧ argumentsAt j x = none)
    (hself : Tracks P (startArguments (consumed ++ [x]) m.content.length) (deltasOf (consumed ++ [x]) m.content.length)
      final.message.content[m.content.length]? (some state) (some reduced) (some newShown) true new) :
    Follows P final (consumed ++ [x]) { e with blocks := Assoc.set e.blocks m.content.length state }
      { r with message := some { shown with content := shown.content ++ [newShown] }
               states := Assoc.set r.states m.content.length reduced }
      ⟨m', update opened m.content.length true, false⟩
      { shown with content := shown.content ++ [newShown] } := by
  have hlen : shown.content.length = m.content.length := hf.length
  have hkeep : ∀ (l : List Block) (b : Block) (j : ℕ), j ≠ l.length → (l ++ [b])[j]? = l[j]? := by
    intro l b j hj
    by_cases hlt : j < l.length
    · rw [getElem?_append_left hlt]
    · rw [getElem?_eq_none (by simp; omega), getElem?_eq_none (by omega)]
  refine hf.other P x m.content.length hstarted hterminal rfl ?_ (nodup_keys_set _ _ _ hf.keys) ?_ ?_ hx ?_ ?_ ?_ ?_ ?_
  · simp [h, hlen]
  · simp [h]
  · simp [h]
  · exact fun j hj => get?_set_ne _ _ _ _ (Ne.symm hj)
  · exact fun j hj => get?_set_ne _ _ _ _ (Ne.symm hj)
  · exact fun j hj => hkeep _ _ _ (by rwa [hlen])
  · intro j hj
    refine ⟨?_, update_of_ne hj _ _⟩
    show m'.content[j]? = m.content[j]?
    rw [h]
    exact hkeep _ _ _ hj
  · intro b hb
    have hb' : m'.content[m.content.length]? = some b := hb
    rw [h, getElem?_append_self] at hb'
    obtain rfl := some.inj hb'
    have hshown : (shown.content ++ [newShown])[m.content.length]? = some newShown := by
      rw [← hlen]
      exact getElem?_append_self _ _
    show Tracks P _ _ _ (get? (Assoc.set e.blocks _ _) _) (get? (Assoc.set r.states _ _) _)
      (shown.content ++ [newShown])[m.content.length]? (update opened m.content.length true m.content.length) _
    rw [get?_set_self, get?_set_self, hshown, update_self]
    exact hself

variable {shown live : AssistantMessage}

theorem textStart_steps (content : Prose)
    (hf : Follows P final consumed e r ⟨m, opened, false⟩ shown) (ht : content.text = [])
    (h : m'.content = m.content ++ [.prose content])
    (ha : Ahead P ⟨m', update opened m.content.length true, false⟩ live final) :
    Steps P final consumed e r (.textStart content.kind m.content.length, live)
      ⟨m', update opened m.content.length true, false⟩ := by
  obtain ⟨q, rfl, hpq, hqf, -⟩ := ha.between
  have hnew : m'.content[m.content.length]? = some (.prose content) := by
    rw [h]
    exact getElem?_append_self _ _
  obtain ⟨seen, hseen, hkind, -⟩ := hpq.prose _ content hnew
  obtain ⟨last, hlast, -, hpre⟩ := hqf.prose _ seen hseen
  obtain ⟨hblock, -, -, -⟩ := hf.fresh m.content.length le_rfl
  have hlen : shown.content.length = m.content.length := hf.length
  have hterm : e.terminal = false := hf.terminal
  refine ⟨{ e with blocks := Assoc.set e.blocks m.content.length (.text content.kind seen.text.length 0) },
    some (.textStart m.content.length (cloneProse seen)),
    { r with message := some { shown with content := shown.content ++ [.prose (cloneProse seen)] }
             states := Assoc.set r.states m.content.length (.text (cloneProse seen).kind false) },
    { shown with content := shown.content ++ [.prose (cloneProse seen)] }, ?_, ?_, ?_⟩
  · unfold Encoder.encode
    simp [hterm, hf.started, hseen, hkind, Encoder.startBlock, Assoc.has, hblock]
  · refine reduceFrom_one ?_
    simp [Reducer.reduceFrame, hf.message, Reducer.appendBlock, hlen]
  · refine hf.starts _ _ _ _ _ h hf.started hterm (fun j _ => ⟨rfl, rfl⟩) ?_
    have hck : (cloneProse seen).kind = content.kind := hkind
    have hzero : (0 : ℕ) = content.text.length := by simp [ht]
    rw [hck, hzero]
    refine .openText content (cloneProse seen) last seen.text.length hlast hck ?_ hpre.length_le ?_
    · simp [ht]
    · rw [ht, length_nil, Nat.max_zero]
      exact prefix_iff_eq_take.mp hpre

section

variable {opened' : ℕ → Bool} (hf : Follows P final consumed e r ⟨m, opened, false⟩ shown) (e' : Encoder)
    (x : Event × AssistantMessage) (k : ℕ) (old new : Block) (hold : m.content[k]? = some old)
    (h : m'.content = m.content.set k new) (hx : ∀ j, j ≠ k → toolDelta j x = none ∧ argumentsAt j x = none)
    (hstarted : e'.started = true) (hterminal : e'.terminal = false) (he : ∀ j, j ≠ k → get? e'.blocks j = get? e.blocks j)
include hf hold h hx hstarted hterminal he

/-- An event that changes one block. -/
theorem Follows.at (ho : ∀ j, j ≠ k → opened' j = opened j) {r' : Reducer} {shown' : AssistantMessage}
    (hmessage : r'.message = some shown') (hlength : shown'.content.length = shown.content.length)
    (hkeys : (Assoc.keys r'.states).Nodup) (hr : ∀ j, j ≠ k → get? r'.states j = get? r.states j)
    (hs : ∀ j, j ≠ k → shown'.content[j]? = shown.content[j]?)
    (hself : Tracks P (startArguments (consumed ++ [x]) k) (deltasOf (consumed ++ [x]) k) final.message.content[k]?
      (get? e'.blocks k) (get? r'.states k) shown'.content[k]? (opened' k) new) :
    Follows P final (consumed ++ [x]) e' r' ⟨m', opened', false⟩ shown' := by
  have hlen : shown.content.length = m.content.length := hf.length
  have hlt : k < m.content.length := (List.getElem?_eq_some_iff.mp hold).1
  refine hf.other P x k hstarted hterminal hmessage ?_ hkeys ?_ ?_ hx he hr hs ?_ ?_
  · simp [h, hlength, hlen]
  · simpa [h] using hlt
  · simp [h]
  · intro j hj
    refine ⟨?_, ho j hj⟩
    show m'.content[j]? = m.content[j]?
    rw [h, getElem?_set_ne (Ne.symm hj)]
  · intro b hb
    have hb' : m'.content[k]? = some b := hb
    rw [h, getElem?_set_self hlt] at hb'
    obtain rfl := some.inj hb'
    exact hself

theorem Follows.set (ho : ∀ j, j ≠ k → opened' j = opened j) (newShown : Block) (state : ReducerBlockState)
    (hself : Tracks P (startArguments (consumed ++ [x]) k) (deltasOf (consumed ++ [x]) k) final.message.content[k]?
      (get? e'.blocks k) (some state) (some newShown) (opened' k) new) :
    Follows P final (consumed ++ [x]) e' (r.setBlock shown k newShown state) ⟨m', opened', false⟩
      (shown.setBlock k newShown) := by
  have hlen : shown.content.length = m.content.length := hf.length
  have hlt : k < m.content.length := (List.getElem?_eq_some_iff.mp hold).1
  refine hf.at e' x k old new hold h hx hstarted hterminal he ho rfl ?_ (nodup_keys_set _ _ _ hf.keys)
    (fun j hj => get?_set_ne _ _ _ _ (Ne.symm hj)) (fun j hj => getElem?_set_ne (Ne.symm hj)) ?_
  · simp [AssistantMessage.setBlock]
  · show Tracks P _ _ _ _ (get? (Assoc.set r.states k state) k) (shown.content.set k newShown)[k]? (opened' k) _
    rw [get?_set_self, getElem?_set_self (by omega)]
    exact hself

theorem Follows.still (hself : Tracks P (startArguments (consumed ++ [x]) k) (deltasOf (consumed ++ [x]) k)
      final.message.content[k]? (get? e'.blocks k) (get? r.states k) shown.content[k]? (opened k) new) :
    Follows P final (consumed ++ [x]) e' r ⟨m', opened, false⟩ shown :=
  hf.at e' x k old new hold h hx hstarted hterminal he (fun _ _ => rfl) hf.message rfl hf.keys (fun _ _ => rfl)
    (fun _ _ => rfl) hself

end

variable (e) (state : EncoderBlockState)

theorem setBlock_self (k : ℕ) : get? (e.setBlock k state).blocks k = some state := get?_set_self _ _ _

theorem setBlock_other {k : ℕ} (j : ℕ) (hj : j ≠ k) : get? (e.setBlock k state).blocks j = get? e.blocks j :=
  get?_set_ne _ _ _ _ (Ne.symm hj)

theorem deleteBlock_self (k : ℕ) : get? (e.deleteBlock k).blocks k = none := get?_del_self _ _

variable {e}

theorem Follows.tracks_open {k : ℕ} {b : Block} (hf : Follows P final consumed e r ⟨m, opened, false⟩ shown)
    (ho : opened k = true) (hold : m.content[k]? = some b) :
    Tracks P (startArguments consumed k) (deltasOf consumed k) final.message.content[k]? (get? e.blocks k)
      (get? r.states k) shown.content[k]? true b := by
  have htracks := hf.blocks k b hold
  rwa [show Progress.isOpen ⟨m, opened, false⟩ k = true from ho] at htracks

theorem take_append_drop {final old delta : JsString} (covered : ℕ) (h : old ++ delta <+: final)
    (hmore : covered - old.length < delta.length) :
    final.take (max covered old.length) ++ delta.drop (covered - old.length) =
      final.take (max covered (old ++ delta).length) := by
  obtain ⟨rest, rfl⟩ := h
  rw [length_append, show max covered (old.length + delta.length) = old.length + delta.length by omega,
    append_assoc, take_append, take_append, take_append, take_append]
  rw [take_of_length_le (by omega : old.length ≤ max covered old.length),
    take_of_length_le (by omega : old.length ≤ old.length + delta.length),
    take_of_length_le (by omega : delta.length ≤ old.length + delta.length - old.length),
    show max covered old.length - old.length = covered - old.length by omega,
    show covered - old.length - delta.length = 0 by omega,
    show old.length + delta.length - old.length - delta.length = 0 by omega]
  simp

theorem Tracks.text_open {start : Option JsonValue} {deltas : List JsString} {last : Option Block}
    {es : Option EncoderBlockState} {rs : Option ReducerBlockState} {sb : Option Block} {content : Prose}
    (h : Tracks P start deltas last es rs sb true (.prose content)) :
    ∃ (shown final : Prose) (covered : ℕ), last = some (.prose final) ∧ shown.kind = content.kind ∧
      content.text <+: final.text ∧ covered ≤ final.text.length ∧
      shown.text = final.text.take (max covered content.text.length) ∧
      es = some (.text content.kind covered content.text.length) ∧ rs = some (.text content.kind false) ∧
      sb = some (.prose shown) := by
  cases h with
  | openText content shown final covered hlast hkind hbegins hcovered hshown =>
    exact ⟨shown, final, covered, hlast, hkind, hbegins, hcovered, hshown, rfl, rfl, rfl⟩

variable (k : ℕ)

theorem textDelta_steps (delta : JsString)
    (old new : Prose) (hf : Follows P final consumed e r ⟨m, opened, false⟩ shown) (ho : opened k = true)
    (hold : m.content[k]? = some (.prose old)) (hk : new.kind = old.kind) (ht : new.text = old.text ++ delta)
    (h : m'.content = m.content.set k (.prose new)) (ha : Ahead P ⟨m', opened, false⟩ live final) :
    Steps P final consumed e r (.textDelta old.kind k delta, live) ⟨m', opened, false⟩ := by
  obtain ⟨q, -, hpq, hqf, -⟩ := ha.between
  have hlt : k < m.content.length := (List.getElem?_eq_some_iff.mp hold).1
  have hterm : e.terminal = false := hf.terminal
  obtain ⟨seen, last, covered, hlast, hkind, hbegins, hcovered, hshown, hes, hrs, hsb⟩ := (hf.tracks_open ho hold).text_open
  -- the text with this delta is a prefix of the final text
  have hnewget : m'.content[k]? = some (.prose new) := by rw [h, getElem?_set_self hlt]
  obtain ⟨last', hlast', -, hpre⟩ := (hpq.trans hqf).prose k new hnewget
  have hsame : last' = last := by
    rw [hlast] at hlast'
    cases hlast'
    rfl
  subst hsame
  have hx : ∀ j, j ≠ k → toolDelta j (.textDelta old.kind k delta, live) = none ∧
      argumentsAt j (.textDelta old.kind k delta, live) = none := fun j _ => ⟨rfl, rfl⟩
  have hblock : e.textBlock old.kind k = some (covered, old.text.length) := by simp [Encoder.textBlock, hes]
  have hlength : new.text.length = old.text.length + delta.length := by simp [ht]
  by_cases hcov : delta.length ≤ covered - old.text.length
  · refine ⟨e.setBlock k (.text old.kind covered (old.text.length + delta.length)), none, r, shown, ?_, rfl, ?_⟩
    · simp [Encoder.encode, hterm, hf.started, Encoder.encodeTextDelta, hblock, hcov]
    · refine hf.still _ _ k _ _ hold h hx hf.started hterm (setBlock_other e _) ?_
      rw [hrs, hsb, ho, setBlock_self, ← hk, ← hlength]
      refine .openText new seen last' covered hlast (hkind.trans hk.symm) hpre hcovered ?_
      rw [hshown, hlength]
      congr 1
      omega
  · rw [Nat.not_le] at hcov
    refine ⟨e.setBlock k (.text old.kind covered (old.text.length + delta.length)),
      some (.textDelta old.kind k (delta.drop (covered - old.text.length))), _, _, ?_, ?_,
      hf.set (e.setBlock k (.text old.kind covered (old.text.length + delta.length))) _ k _ _ hold h hx
        hf.started hterm (setBlock_other e _) (fun _ _ => rfl)
        (.prose { seen with text := seen.text ++ delta.drop (covered - old.text.length) }) (.text old.kind false) ?_⟩
    · simp [Encoder.encode, hterm, hf.started, Encoder.encodeTextDelta, hblock, Nat.not_le.mpr hcov]
    · refine reduceFrom_one ?_
      simp [Reducer.reduceFrame, hf.message, Reducer.activeText, hrs, hsb, hkind]
    · rw [ho, setBlock_self, ← hk, ← hlength]
      refine .openText new _ last' covered hlast (hkind.trans hk.symm) hpre hcovered ?_
      show seen.text ++ delta.drop (covered - old.text.length) = _
      rw [hshown, ht]
      exact take_append_drop covered (ht ▸ hpre) hcov

theorem textEnd_steps (old new : Prose) (hf : Follows P final consumed e r ⟨m, opened, false⟩ shown) (ho : opened k = true)
    (hold : m.content[k]? = some (.prose old)) (hk : new.kind = old.kind) (ht : new.text = old.text)
    (hred : new.kind = .text → new.redacted = none) (h : m'.content = m.content.set k (.prose new))
    (ha : Ahead P ⟨m', update opened k false, false⟩ live final) :
    Steps P final consumed e r (.textEnd old.kind k old.text, live) ⟨m', update opened k false, false⟩ := by
  obtain ⟨q, rfl, hpq, hqf, -⟩ := ha.between
  have hlt : k < m.content.length := (List.getElem?_eq_some_iff.mp hold).1
  have hterm : e.terminal = false := hf.terminal
  obtain ⟨seen, last, covered, -, hkind, -, -, -, hes, hrs, hsb⟩ := (hf.tracks_open ho hold).text_open
  have hnewget : m'.content[k]? = some (.prose new) := by rw [h, getElem?_set_self hlt]
  -- the block has ended, so the live message has it as it ended
  have hlive : q.message.content[k]? = some (.prose new) := by
    rw [← hnewget]
    refine (hpq.closed k ?_ ?_).2
    · show k < m'.content.length
      rw [h, length_set]
      exact hlt
    · exact update_self _ _ _
  have hredacted : (cloneProse new).redacted = new.redacted := by
    unfold cloneProse
    cases hkn : new.kind with
    | text => simp [hred hkn]
    | thinking => simp
  have hblock : e.textBlock old.kind k = some (covered, old.text.length) := by simp [Encoder.textBlock, hes]
  have hend : ({ seen with text := old.text, signature := new.signature, redacted := new.redacted } : Prose) = new := by
    cases new
    simp_all
  refine ⟨e.deleteBlock k, some (.textEnd old.kind k old.text new.signature (cloneProse new).redacted), _, _, ?_, ?_,
    hf.set (e.deleteBlock k) _ k _ _ hold h (fun j _ => ⟨rfl, rfl⟩)
      hf.started hterm (fun j hj => get?_del_ne _ _ _ (Ne.symm hj)) (fun j hj => update_of_ne hj _ _)
      (.prose new) (.text old.kind true) ?_⟩
  · simp [Encoder.encode, hterm, hf.started, hlive, hk, hblock]
  · refine reduceFrom_one ?_
    have hactive : r.activeText shown old.kind k = some seen := by simp [Reducer.activeText, hrs, hsb, hkind]
    simp only [Reducer.reduceFrame, hf.message, hactive, hredacted, hend, map_some]
  · rw [deleteBlock_self, update_self, ← hk]
    exact .endedText new

/-! ## Tool calls -/

theorem caughtUp_nil (start : JsonValue) : CaughtUp P start [] ↔ P.stringify start = P.stringify (P.parseStreamingJson []) := by
  refine ⟨?_, Or.inl⟩
  rintro (h | ⟨part, hne, hpre, -⟩)
  · exact h
  · exact absurd (prefix_nil.mp hpre) hne

variable {value : JsonValue}

theorem eq_empty_of_text (hj : P.IsJson value) (hobj : P.IsJson (.obj []))
    (h : P.stringify value = P.stringify (P.parseStreamingJson [])) : value = .obj [] := by
  unfold JsonTexts.IsJson at hj hobj
  rw [P.parseStreamingJson_nil] at h
  rw [← hj, h, hobj]

theorem eq_empty_of_begins (h : isJsonPrefix value (.obj []) = true) : value = .obj [] := by
  cases value with
  | prim q =>
    cases q <;> simp [isJsonPrefix] at h
  | arr items => simp [isJsonPrefix] at h
  | obj fields =>
    cases fields with
    | nil => rfl
    | cons field fields =>
      obtain ⟨key, value⟩ := field
      simp [isJsonPrefix, isJsonPrefixFields, isJsonPrefixField] at h

theorem json_ne_nil {deltas : List JsString} (hj : P.IsJson value) (hb : ¬CaughtUp P value deltas)
    {json : JsString} (hc : CatchesUp P value json) : json ≠ [] := by
  rintro rfl
  rcases hc with h | h
  · exact hb (Or.inl h.symm)
  · unfold JsonTexts.IsJson at hj
    rw [hj, P.parseStreamingJson_nil] at h
    rw [eq_empty_of_begins h] at hb
    exact hb (Or.inl (by rw [P.parseStreamingJson_nil]))

theorem toolcallStart_steps (call : ToolCall)
    (hf : Follows P final consumed e r ⟨m, opened, false⟩ shown) (hobj : P.IsJson (.obj []))
    (h : m'.content = m.content ++ [.toolCall call])
    (ha : Ahead P ⟨m', update opened m.content.length true, false⟩ live final) :
    Steps P final consumed e r (.toolcallStart m.content.length, live)
      ⟨m', update opened m.content.length true, false⟩ := by
  obtain ⟨q, rfl, hpq, -, hjson⟩ := ha.between
  have hnew : m'.content[m.content.length]? = some (.toolCall call) := by
    rw [h]
    exact getElem?_append_self _ _
  obtain ⟨seen, hseen⟩ := hpq.tool _ call hnew
  have hj : P.IsJson seen.arguments := hjson _ _ hseen
  obtain ⟨hblock, -, hnostart, hnodelta⟩ := hf.fresh m.content.length le_rfl
  have hlen : shown.content.length = m.content.length := hf.length
  have hterm : e.terminal = false := hf.terminal
  have hstart : startArguments (consumed ++ [(.toolcallStart m.content.length, q.message)]) m.content.length =
      some seen.arguments := by
    rw [startArguments_snoc, hnostart]
    simp [argumentsAt, hseen]
  have hdeltas : deltasOf (consumed ++ [(.toolcallStart m.content.length, q.message)]) m.content.length = [] := by
    rw [deltasOf_snoc, hnodelta]
    rfl
  have hopen : ∀ state : EncoderBlockState, Tracks P (some seen.arguments) []
      final.message.content[m.content.length]? (some state) (some (.toolCall false [])) (some (.toolCall seen)) true
      (.toolCall call) →
      Follows P final (consumed ++ [(.toolcallStart m.content.length, q.message)])
        { e with blocks := Assoc.set e.blocks m.content.length state }
        { r with message := some { shown with content := shown.content ++ [.toolCall seen] }
                 states := Assoc.set r.states m.content.length (.toolCall false []) }
        ⟨m', update opened m.content.length true, false⟩
        { shown with content := shown.content ++ [.toolCall seen] } := by
    intro state htracks
    exact hf.starts _ _ _ _ _ h hf.started hterm (fun j hj => ⟨rfl, by simp [argumentsAt, Ne.symm hj]⟩)
      (by rw [hstart, hdeltas]; exact htracks)
  by_cases hcaught : P.stringify seen.arguments = P.stringify (P.parseStreamingJson [])
  · refine ⟨_, some (.toolcallStart m.content.length seen), _, _, ?_, ?_, hopen (.toolCall true [] []) ?_⟩
    · simp [Encoder.encode, hterm, hf.started, hseen, Encoder.startBlock, Assoc.has, hblock, hcaught]
    · refine reduceFrom_one ?_
      simp [Reducer.reduceFrame, hf.message, Reducer.appendBlock, hlen]
    · exact .caughtUp call seen seen.arguments rfl (Or.inl hcaught) (fun _ => eq_empty_of_text hj hobj hcaught)
  · refine ⟨_, some (.toolcallStart m.content.length seen), _, _, ?_, ?_,
      hopen (.toolCall false [] (P.stringify seen.arguments)) ?_⟩
    · rw [P.parseStreamingJson_nil] at hcaught
      simp [Encoder.encode, hterm, hf.started, hseen, Encoder.startBlock, Assoc.has, hblock, hcaught]
    · refine reduceFrom_one ?_
      simp [Reducer.reduceFrame, hf.message, Reducer.appendBlock, hlen]
    · exact .behind call seen seen.arguments rfl hj (fun hc => hcaught ((caughtUp_nil _).mp hc)) rfl

theorem Tracks.tool_open {start : Option JsonValue} {deltas : List JsString} {last : Option Block}
    {es : Option EncoderBlockState} {rs : Option ReducerBlockState} {sb : Option Block} {call : ToolCall}
    (h : Tracks P start deltas last es rs sb true (.toolCall call)) :
    ∃ (shown : ToolCall) (seen : JsonValue), start = some seen ∧ sb = some (.toolCall shown) ∧
      ((CaughtUp P seen deltas ∧ (deltas.flatten = [] → shown.arguments = .obj []) ∧ es = some (.toolCall true [] []) ∧
        rs = some (.toolCall false deltas.flatten)) ∨
      (¬CaughtUp P seen deltas ∧ P.IsJson seen ∧ shown.arguments = seen ∧
        es = some (.toolCall false deltas.flatten (P.stringify seen)) ∧ rs = some (.toolCall false []))) := by
  cases h with
  | behind call shown seen hstart hjson hbehind hshown =>
    exact ⟨shown, seen, hstart, rfl, Or.inr ⟨hbehind, hjson, hshown, rfl, rfl⟩⟩
  | caughtUp call shown seen hstart hcaught hempty =>
    exact ⟨shown, seen, hstart, rfl, Or.inl ⟨hcaught, hempty, rfl, rfl⟩⟩

theorem toolcallDelta_steps (delta : JsString)
    (old new : ToolCall) (hf : Follows P final consumed e r ⟨m, opened, false⟩ shown) (ho : opened k = true)
    (hold : m.content[k]? = some (.toolCall old)) (h : m'.content = m.content.set k (.toolCall new)) :
    Steps P final consumed e r (.toolcallDelta k delta, live) ⟨m', opened, false⟩ := by
  have hterm : e.terminal = false := hf.terminal
  obtain ⟨call, seen, hstart, hsb, hstate⟩ := (hf.tracks_open ho hold).tool_open
  have hx : ∀ j, j ≠ k → toolDelta j (.toolcallDelta k delta, live) = none ∧
      argumentsAt j (.toolcallDelta k delta, live) = none :=
    fun j hj => ⟨by simp [toolDelta, Ne.symm hj], rfl⟩
  have hstart' : startArguments (consumed ++ [(.toolcallDelta k delta, live)]) k = some seen := by
    rw [startArguments_snoc, hstart]
    rfl
  have hdeltas : deltasOf (consumed ++ [(.toolcallDelta k delta, live)]) k = deltasOf consumed k ++ [delta] := by
    rw [deltasOf_snoc]
    simp [toolDelta]
  have hflat : (deltasOf consumed k ++ [delta]).flatten = (deltasOf consumed k).flatten ++ delta := by simp
  rcases hstate with ⟨hcaught, hempty, hes, hrs⟩ | ⟨hbehind, hj, hcall, hes, hrs⟩
  · -- the deltas go through as they are
    have hblock : e.toolBlock k = some (true, [], []) := by simp [Encoder.toolBlock, hes]
    have hempty' : (deltasOf consumed k ++ [delta]).flatten = [] → call.arguments = .obj [] := by
      rw [hflat]
      exact fun hnil => hempty (append_eq_nil_iff.mp hnil).1
    have htracks' : Tracks P (some seen) (deltasOf consumed k ++ [delta]) final.message.content[k]?
        (get? e.blocks k) (some (.toolCall false ((deltasOf consumed k).flatten ++ delta))) (some (.toolCall call))
        true (.toolCall new) := by
      rw [hes, ← hflat]
      exact .caughtUp new call seen rfl (hcaught.mono P delta) hempty'
    by_cases hnil : delta = []
    · refine ⟨e, none, r, shown, ?_, rfl, hf.still e _ k _ _ hold h hx hf.started hterm (fun _ _ => rfl) ?_⟩
      · simp [Encoder.encode, hterm, hf.started, Encoder.encodeToolcallDelta, hblock, hnil]
      · rw [hstart', hdeltas, hrs, hsb, ho]
        simpa [hnil] using htracks'
    · refine ⟨e, some (.toolcallDelta k delta), _, _, ?_, ?_, hf.set e _ k _ _ hold h hx hf.started hterm
        (fun _ _ => rfl) (fun _ _ => rfl) (.toolCall call) (.toolCall false ((deltasOf consumed k).flatten ++ delta)) ?_⟩
      · simp [Encoder.encode, hterm, hf.started, Encoder.encodeToolcallDelta, hblock, hnil]
      · refine reduceFrom_one ?_
        simp [Reducer.reduceFrame, hf.message, Reducer.activeTool, hrs, hsb]
      · rw [hstart', hdeltas, ho]
        exact htracks'
  · have hblock : e.toolBlock k = some (false, (deltasOf consumed k).flatten, P.stringify seen) := by
      simp [Encoder.toolBlock, hes]
    have hiff := caughtUp_snoc P delta hbehind
    rw [hflat] at hiff
    by_cases hc : CatchesUp P seen ((deltasOf consumed k).flatten ++ delta)
    · -- the consumed JSON takes the place of the arguments seen at the start
      have hne : (deltasOf consumed k).flatten ++ delta ≠ [] := json_ne_nil hj hbehind hc
      refine ⟨e.setBlock k (.toolCall true [] []),
        some (.toolcallCheckpoint k ((deltasOf consumed k).flatten ++ delta)), _, _, ?_, ?_,
        hf.set (e.setBlock k (.toolCall true [] [])) _ k _ _ hold h hx hf.started hterm (setBlock_other e _) (fun _ _ => rfl)
          (.toolCall { call with arguments := P.parseStreamingJson ((deltasOf consumed k).flatten ++ delta) })
          (.toolCall false ((deltasOf consumed k).flatten ++ delta)) ?_⟩
      · unfold CatchesUp at hc
        have hsome : ((deltasOf consumed k).flatten ++ delta).isEmpty = false := isEmpty_eq_false_iff.mpr hne
        simp only [Encoder.encode, hterm, hf.started, Encoder.encodeToolcallDelta, hblock, map_some, hsome]
        simp [hc]
      · refine reduceFrom_one ?_
        simp [Reducer.reduceFrame, hf.message, Reducer.activeTool, hrs, hsb]
      · rw [hstart', hdeltas, ho, setBlock_self, ← hflat]
        refine .caughtUp new _ seen rfl (hiff.mpr hc) ?_
        rw [hflat]
        exact fun hnil => absurd hnil hne
    · refine ⟨e.setBlock k (.toolCall false ((deltasOf consumed k).flatten ++ delta) (P.stringify seen)), none, r, shown,
        ?_, rfl, hf.still _ _ k _ _ hold h hx hf.started hterm (setBlock_other e _) ?_⟩
      · unfold CatchesUp at hc
        simp only [Encoder.encode, hterm, hf.started, Encoder.encodeToolcallDelta, hblock]
        simp [hc]
      · rw [hstart', hdeltas, hrs, hsb, ho, setBlock_self, ← hflat]
        exact .behind new call seen rfl hj (fun hcaught => hc (hiff.mp hcaught)) hcall

theorem toolcallEnd_steps (old new : ToolCall) (hf : Follows P final consumed e r ⟨m, opened, false⟩ shown) (ho : opened k = true)
    (hold : m.content[k]? = some (.toolCall old)) (h : m'.content = m.content.set k (.toolCall new))
    (ha : Ahead P ⟨m', update opened k false, false⟩ live final) :
    Steps P final consumed e r (.toolcallEnd k new, live) ⟨m', update opened k false, false⟩ := by
  obtain ⟨q, rfl, hpq, -, -⟩ := ha.between
  have hlt : k < m.content.length := (List.getElem?_eq_some_iff.mp hold).1
  have hterm : e.terminal = false := hf.terminal
  obtain ⟨call, seen, -, hsb, hstate⟩ := (hf.tracks_open ho hold).tool_open
  obtain ⟨live, hlive⟩ := hpq.tool k new (by
    show m'.content[k]? = _
    rw [h, getElem?_set_self hlt])
  obtain ⟨caughtUp, catchup, snapshot, hes⟩ : ∃ caughtUp catchup snapshot,
      e.toolBlock k = some (caughtUp, catchup, snapshot) := by
    rcases hstate with ⟨-, -, hes, -⟩ | ⟨-, -, -, hes, -⟩
    · exact ⟨true, [], [], by simp only [Encoder.toolBlock, hes]⟩
    · exact ⟨false, _, P.stringify seen, by unfold Encoder.toolBlock; rw [hes]⟩
  obtain ⟨json, hrs⟩ : ∃ json, get? r.states k = some (.toolCall false json) := by
    rcases hstate with ⟨-, -, -, hrs⟩ | ⟨-, -, -, -, hrs⟩
    · exact ⟨_, hrs⟩
    · exact ⟨_, hrs⟩
  refine ⟨e.deleteBlock k, some (.toolcallEnd k new), _, _, ?_, ?_,
    hf.set (e.deleteBlock k) _ k _ _ hold h (fun j _ => ⟨rfl, rfl⟩) hf.started hterm
      (fun j hj => get?_del_ne _ _ _ (Ne.symm hj)) (fun j hj => update_of_ne hj _ _) (.toolCall new) (.toolCall true json) ?_⟩
  · simp [Encoder.encode, hterm, hf.started, hlive, hes]
  · refine reduceFrom_one ?_
    simp [Reducer.reduceFrame, hf.message, Reducer.activeTool, hrs, hsb]
  · rw [deleteBlock_self, update_self]
    exact .endedTool new json

end Tracking

end PiAgent.Ai
