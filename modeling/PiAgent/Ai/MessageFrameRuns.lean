import PiAgent.Ai.MessageFrameReplay

/-! # Every consumed part of a stream replays -/

namespace PiAgent.Ai

open Option Function List Assoc

/-! ## The encoder and the reducer along a stream -/

section Stream

variable {P : JsonTexts}

def Progress.AllJson (P : JsonTexts) (p : Progress) : Prop :=
  ∀ (k : ℕ) (call : ToolCall), p.message.content[k]? = some (.toolCall call) → P.IsJson call.arguments

variable {m live shown : AssistantMessage} {event : Event} {s consumed : List (Event × AssistantMessage)}
    {final : Progress}

theorem allJson_append {m' : AssistantMessage} {b : Block} (h : m'.content = m.content ++ [b])
    (hm : ∀ (k : ℕ) (call : ToolCall), m.content[k]? = some (.toolCall call) → P.IsJson call.arguments)
    (hb : ∀ call, b = .toolCall call → P.IsJson call.arguments) :
    ∀ (k : ℕ) (call : ToolCall), m'.content[k]? = some (.toolCall call) → P.IsJson call.arguments := by
  intro k call hk
  rw [h, getElem?_append] at hk
  split at hk
  · exact hm k call hk
  · exact hb call (mem_singleton.mp (mem_of_getElem? hk)).symm

theorem allJson_set {m' : AssistantMessage} {j : ℕ} {b : Block} (h : m'.content = m.content.set j b)
    (hm : ∀ (k : ℕ) (call : ToolCall), m.content[k]? = some (.toolCall call) → P.IsJson call.arguments)
    (hb : ∀ call, b = .toolCall call → P.IsJson call.arguments) :
    ∀ (k : ℕ) (call : ToolCall), m'.content[k]? = some (.toolCall call) → P.IsJson call.arguments := by
  intro k call hk
  rw [h] at hk
  rcases mem_or_eq_of_mem_set (mem_of_getElem? hk) with hmem | heq
  · obtain ⟨i, hi⟩ := mem_iff_getElem?.mp hmem
    exact hm i call hi
  · exact hb call heq.symm

variable {p q : Progress}

theorem Emits.allJson (h : Emits P p event q) (hp : p.AllJson P) : q.AllJson P := by
  cases h with
  | textStart m m' opened content ht hr h => exact allJson_append h hp (by simp)
  | textDelta m m' opened k delta old new ho hold hk ht hr h => exact allJson_set h hp (by simp)
  | textEnd m m' opened k old new ho hold hk ht hr h => exact allJson_set h hp (by simp)
  | toolcallStart m m' opened call hj h => exact allJson_append h hp (by rintro _ ⟨⟩; exact hj)
  | toolcallDelta m m' opened k delta old new ho hold hj h => exact allJson_set h hp (by rintro _ ⟨⟩; exact hj)
  | toolcallEnd m m' opened k old new ho hold hj h => exact allJson_set h hp (by rintro _ ⟨⟩; exact hj)
  | done => exact hp
  | error => exact hp

theorem Runs.allJson (h : Runs P p s q) (hp : p.AllJson P) : q.AllJson P := by
  induction h with
  | nil => exact hp
  | cons he _ ih => exact ih (he.allJson hp)

theorem Runs.reaches (h : Runs P p s q) {j : ℕ} (hj : s[j]? = some (event, live)) :
    ∃ p' : Progress, p'.message = live ∧ Runs P p (s.take (j + 1)) p' ∧ Runs P p' (s.drop (j + 1)) q := by
  have hlt : j < s.length := (List.getElem?_eq_some_iff.mp hj).1
  rw [← List.take_append_drop j s] at h
  obtain ⟨p₀, h₀, h₁⟩ := h.split
  rw [drop_eq_getElem_cons hlt, (List.getElem?_eq_some_iff.mp hj).2] at h₁
  cases h₁ with
  | cons he h =>
    refine ⟨_, rfl, ?_, h⟩
    rw [take_add_one, hj]
    exact h₀.append (.cons he (.nil _))

theorem reduceFrom_append (r : Reducer) (a b : List Frame) :
    r.reduceFrom P (a ++ b) = (r.reduceFrom P a).bind (fun r => r.reduceFrom P b) := by
  induction a generalizing r with
  | nil => rfl
  | cons frame a ih =>
    simp only [cons_append, Reducer.reduceFrom, bind_assoc]
    congr 1
    funext r
    exact ih r

theorem finish_steps {e : Encoder} {r : Reducer} {opened : ℕ → Bool} (event : Event)
    (he : event = .done ∨ event = .error) (hf : Follows P final consumed e r ⟨m, opened, false⟩ shown) :
    Steps P final consumed e r (event, live) ⟨m, opened, true⟩ := by
  have hterm : e.terminal = false := hf.terminal
  have hx : ∀ j, toolDelta j (event, live) = none ∧ argumentsAt j (event, live) = none := by
    intro j
    rcases he with rfl | rfl <;> exact ⟨rfl, rfl⟩
  have hsame : ∀ j, startArguments (consumed ++ [(event, live)]) j = startArguments consumed j ∧
      deltasOf (consumed ++ [(event, live)]) j = deltasOf consumed j := by
    intro j
    obtain ⟨h1, h2⟩ := hx j
    rw [startArguments_snoc, deltasOf_snoc, h1, h2]
    simp
  refine ⟨{ e with terminal := true }, none, r, shown, ?_, rfl, hf.started, rfl, hf.message, hf.length, hf.keys, ?_, ?_⟩
  · rcases he with rfl | rfl <;> simp [Encoder.encode, hterm, hf.started]
  · intro k hk
    rw [(hsame k).1, (hsame k).2]
    exact hf.fresh k hk
  · intro k b hb
    rw [(hsame k).1, (hsame k).2]
    exact hf.blocks k b hb

theorem Emits.steps {p p' : Progress} {e : Encoder} {r : Reducer} (h : Emits P p event p')
    (hobj : P.IsJson (.obj [])) (hf : Follows P final consumed e r p shown) (ha : Ahead P p' live final) :
    Steps P final consumed e r (event, live) p' := by
  cases h with
  | textStart m m' opened content ht hr h => exact textStart_steps content hf ht h ha
  | textDelta m m' opened k delta old new ho hold hk ht hr h => exact textDelta_steps k delta old new hf ho hold hk ht h ha
  | textEnd m m' opened k old new ho hold hk ht hr h => exact textEnd_steps k old new hf ho hold hk ht hr h ha
  | toolcallStart m m' opened call hj h => exact toolcallStart_steps call hf hobj h ha
  | toolcallDelta m m' opened k delta old new ho hold hj h => exact toolcallDelta_steps k delta old new hf ho hold h
  | toolcallEnd m m' opened k old new ho hold hj h => exact toolcallEnd_steps k old new hf ho hold h ha
  | done m opened => exact finish_steps .done (Or.inl rfl) hf
  | error m opened => exact finish_steps .error (Or.inr rfl) hf

theorem Consumes.tail {x y : Event × AssistantMessage} (h : Consumes (x :: s) (y :: consumed)) :
    Consumes s consumed := by
  refine ⟨Nat.le_of_succ_le_succ h.1, ?_⟩
  intro i event live hi
  obtain ⟨⟨m, hm⟩, j, later, hij, hj⟩ := h.2 (i + 1) event live hi
  refine ⟨⟨m, hm⟩, j - 1, later, by omega, ?_⟩
  obtain ⟨j, rfl⟩ : ∃ j', j = j' + 1 := ⟨j - 1, by omega⟩
  simpa using hj

theorem ahead_of_consumes {p' : Progress} {event' : Event} {rest : List (Event × AssistantMessage)}
    (hp : p'.AllJson P) (h : Runs P p' rest final)
    (hc : Consumes ((event, p'.message) :: rest) ((event', live) :: consumed)) :
    event' = event ∧ Ahead P p' live final := by
  obtain ⟨⟨m, hm⟩, j, later, -, hj⟩ := hc.2 0 event' live rfl
  have hm' : (event, p'.message) = (event', m) := some.inj hm
  refine ⟨(congrArg Prod.fst hm').symm, ?_⟩
  cases j with
  | zero =>
    have hj' : (event, p'.message) = (later, live) := some.inj hj
    exact ⟨p', congrArg Prod.snd hj', Grows.refl p', h.grows, hp⟩
  | succ j =>
    obtain ⟨q, hq, h₁, h₂⟩ := h.reaches (show rest[j]? = some (later, live) from hj)
    exact ⟨q, hq, h₁.grows, h₂.grows, h₁.allJson hp⟩

theorem follows_runs (hobj : P.IsJson (.obj [])) {p : Progress} (h : Runs P p s final) :
    ∀ (consumed : List (Event × AssistantMessage)) (e : Encoder) (r : Reducer)
    (shown : AssistantMessage) (more : List (Event × AssistantMessage)), p.AllJson P →
    Follows P final consumed e r p shown → Consumes s more →
    ∃ e' frames r' p' shown', e.encodeAll P more = some (e', frames) ∧ r.reduceFrom P frames = some r' ∧
      Follows P final (consumed ++ more) e' r' p' shown' ∧ Runs P p (s.take more.length) p' := by
  induction h with
  | nil p =>
    intro consumed e r shown more _ hf hc
    obtain rfl : more = [] := eq_nil_of_length_eq_zero (Nat.le_zero.mp hc.1)
    exact ⟨e, [], r, p, shown, rfl, rfl, by simpa using hf, .nil p⟩
  | @cons p p' p'' event rest he h ih =>
    intro consumed e r shown more hp hf hc
    cases more with
    | nil => exact ⟨e, [], r, p, shown, rfl, rfl, by simpa using hf, .nil p⟩
    | cons y more =>
      obtain ⟨event', live⟩ := y
      obtain ⟨rfl, ha⟩ := ahead_of_consumes (he.allJson hp) h hc
      obtain ⟨e₁, frame, r₁, shown₁, henc, hred, hf₁⟩ := he.steps hobj hf ha
      obtain ⟨e₂, frames, r₂, p₂, shown₂, henc₂, hred₂, hf₂, hrun⟩ := ih _ e₁ r₁ shown₁ more (he.allJson hp) hf₁ hc.tail
      refine ⟨e₂, frame.toList ++ frames, r₂, p₂, shown₂, ?_, ?_, ?_, .cons he hrun⟩
      · simp [Encoder.encodeAll, henc, henc₂]
      · rw [reduceFrom_append, hred]
        exact hred₂
      · simpa using hf₂

/-! ## The message the frames replay -/

variable (P) in
def finishBlock : Option ReducerBlockState → Block → Block
  | some (.toolCall false json), .toolCall call =>
    if json.isEmpty then .toolCall call else .toolCall { call with arguments := P.parseStreamingJson json }
  | _, block => block

theorem openArguments_spec (states : List (ℕ × ReducerBlockState)) (message : AssistantMessage)
    (hn : (keys states).Nodup)
    (ht : ∀ (k : ℕ) (json : JsString), get? states k = some (.toolCall false json) →
      ∃ call, message.content[k]? = some (.toolCall call)) :
    ∃ m, Reducer.openArguments P states message = some m ∧ m.content.length = message.content.length ∧
      ∀ k, m.content[k]? = message.content[k]?.map (finishBlock P (get? states k)) := by
  induction states generalizing message with
  | nil => exact ⟨message, rfl, rfl, fun k => by cases message.content[k]? <;> rfl⟩
  | cons x states ih =>
    obtain ⟨i, state⟩ := x
    have hn' : i ∉ keys states ∧ (keys states).Nodup := nodup_cons.mp hn
    have hi : get? states i = none := (get?_eq_none_iff _ _).mpr hn'.1
    have hrest : ∀ k, k ≠ i → get? ((i, state) :: states) k = get? states k :=
      fun k hk => get?_cons_ne _ _ _ _ (Ne.symm hk)
    have ht' : ∀ (k : ℕ) (json : JsString), get? states k = some (.toolCall false json) →
        k ≠ i ∧ ∃ call, message.content[k]? = some (.toolCall call) := by
      intro k json hk
      have hki : k ≠ i := by
        rintro rfl
        rw [hi] at hk
        cases hk
      exact ⟨hki, ht k json ((hrest k hki).trans hk)⟩
    -- a state that leaves the message as it is
    have hskip : (∀ block, finishBlock P (some state) block = block) →
        Reducer.openArguments P ((i, state) :: states) message = Reducer.openArguments P states message →
        ∃ m, Reducer.openArguments P ((i, state) :: states) message = some m ∧
          m.content.length = message.content.length ∧
          ∀ k, m.content[k]? = message.content[k]?.map (finishBlock P (get? ((i, state) :: states) k)) := by
      intro hid heq
      obtain ⟨m, hm, hlen, hget⟩ := ih message hn'.2 (fun k json hk => (ht' k json hk).2)
      refine ⟨m, heq.trans hm, hlen, ?_⟩
      intro k
      rw [hget k]
      by_cases hk : k = i
      · subst hk
        rw [hi, get?_cons_self]
        congr 1
        funext block
        rw [hid]
        rfl
      · rw [hrest k hk]
    cases state with
    | text kind ended => exact hskip (fun block => rfl) rfl
    | toolCall ended json =>
      cases ended with
      | true => exact hskip (fun block => rfl) rfl
      | false =>
        cases json with
        | nil => exact hskip (fun block => by cases block <;> rfl) rfl
        | cons u json =>
          obtain ⟨call, hcall⟩ := ht i (u :: json) (get?_cons_self _ _ _)
          have hlt : i < message.content.length := (List.getElem?_eq_some_iff.mp hcall).1
          have hother : ∀ (b : Block) (k : ℕ), k ≠ i → (message.setBlock i b).content[k]? = message.content[k]? :=
            fun b k hk => getElem?_set_ne (Ne.symm hk)
          obtain ⟨m, hm, hlen, hget⟩ := ih
            (message.setBlock i (.toolCall { call with arguments := P.parseStreamingJson (u :: json) })) hn'.2 (by
              intro k json' hk
              obtain ⟨hki, hc⟩ := ht' k json' hk
              rw [hother _ k hki]
              exact hc)
          refine ⟨m, ?_, ?_, ?_⟩
          · simpa [Reducer.openArguments, hcall] using hm
          · simpa [AssistantMessage.setBlock] using hlen
          · intro k
            rw [hget k]
            by_cases hk : k = i
            · subst hk
              rw [hi, get?_cons_self, hcall]
              simp [AssistantMessage.setBlock, hlt, finishBlock]
            · rw [hrest k hk, hother _ k hk]

/-- What a replayed block shows of a block of the stream: an ended block as it ended; an open text up to somewhere
between what was consumed and what is to come; an open tool call with the consumed JSON, or the arguments seen at its
start until the JSON catches up. -/
inductive Shows (P : JsonTexts) (start : Option JsonValue) (deltas : List JsString) (last : Option Block) :
    Bool → Block → Block → Prop
  | ended (block : Block) : Shows P start deltas last false block block
  | openText (content shown final : Prose) (hlast : last = some (.prose final)) (hkind : shown.kind = content.kind)
      (hconsumed : content.text <+: shown.text) (hfinal : shown.text <+: final.text) :
      Shows P start deltas last true (.prose content) (.prose shown)
  | openTool (call shown : ToolCall) (seen : JsonValue) (hstart : start = some seen)
      (hcaught : CaughtUp P seen deltas → shown.arguments = P.parseStreamingJson deltas.flatten)
      (hbehind : ¬CaughtUp P seen deltas → shown.arguments = seen) :
      Shows P start deltas last true (.toolCall call) (.toolCall shown)

theorem Tracks.shows {start : Option JsonValue} {deltas : List JsString} {last : Option Block}
    {es : Option EncoderBlockState} {rs : Option ReducerBlockState} {sb : Option Block} {opened : Bool} {b : Block}
    (h : Tracks P start deltas last es rs sb opened b) :
    ∃ shown, sb.map (finishBlock P rs) = some shown ∧ Shows P start deltas last opened b shown := by
  cases h with
  | openText content shown final covered hlast hkind hpre hcovered hshown =>
    refine ⟨.prose shown, rfl, .openText content shown final hlast hkind ?_ ?_⟩
    · have htake : content.text = final.text.take content.text.length := prefix_iff_eq_take.mp hpre
      have hmono : final.text.take content.text.length <+: final.text.take (max covered content.text.length) :=
        take_prefix_take_left (Nat.le_max_right _ _)
      rwa [← htake, ← hshown] at hmono
    · rw [hshown]
      exact take_prefix _ _
  | behind call shown seen hstart hjson hbehind hshown =>
    exact ⟨.toolCall shown, rfl, .openTool call shown seen hstart (fun hc => absurd hc hbehind) (fun _ => hshown)⟩
  | caughtUp call shown seen hstart hcaught hempty =>
    by_cases hnil : deltas.flatten = []
    · refine ⟨.toolCall shown, ?_, .openTool call shown seen hstart (fun _ => ?_) (fun hc => absurd hcaught hc)⟩
      · rw [hnil]
        rfl
      · rw [hnil, P.parseStreamingJson_nil]
        exact hempty hnil
    · refine ⟨.toolCall { shown with arguments := P.parseStreamingJson deltas.flatten }, ?_,
        .openTool call _ seen hstart (fun _ => rfl) (fun hc => absurd hcaught hc)⟩
      have hsome : deltas.flatten.isEmpty = false := isEmpty_eq_false_iff.mpr hnil
      simp only [map_some, finishBlock, hsome]
      rfl
  | endedText content => exact ⟨.prose content, rfl, .ended _⟩
  | endedTool call json => exact ⟨.toolCall call, rfl, .ended _⟩

theorem Follows.tool_state {p : Progress} {e : Encoder} {r : Reducer} (h : Follows P final consumed e r p shown)
    (k : ℕ) (json : JsString) (hk : get? r.states k = some (.toolCall false json)) :
    ∃ call, shown.content[k]? = some (.toolCall call) := by
  by_cases hlt : k < p.message.content.length
  · have htracks := h.blocks k _ (getElem?_eq_getElem hlt)
    rw [hk] at htracks
    generalize get? e.blocks k = es, shown.content[k]? = sb, p.isOpen k = opened, p.message.content[k] = b at htracks ⊢
    cases htracks with
    | behind call shown => exact ⟨shown, rfl⟩
    | caughtUp call shown => exact ⟨shown, rfl⟩
  · rw [(h.fresh k (Nat.not_lt.mp hlt)).2.1] at hk
    cases hk

/-- Whatever part of a stream has been encoded, its frames replay the blocks started so far. -/
theorem frames_replay (P : JsonTexts) (s consumed : List (Event × AssistantMessage)) (final : Progress)
    (hobj : P.IsJson (.obj [])) (hs : Stream P s final) (hc : Consumes s consumed) :
    ∃ e frames, Encoder.new.encodeAll P consumed = some (e, frames) ∧
      ((consumed = [] ∧ reduceAssistantMessageFrames P frames = some none) ∨
        ∃ m p, reduceAssistantMessageFrames P frames = some (some m) ∧ Stream P (s.take consumed.length) p ∧
          m.content.length = p.message.content.length ∧
          ∀ (k : ℕ) (b : Block), p.message.content[k]? = some b → ∃ shown, m.content[k]? = some shown ∧
            Shows P (startArguments consumed k) (deltasOf consumed k) final.message.content[k]? (p.isOpen k) b shown) := by
  obtain ⟨m, rest, hempty, rfl, hrun⟩ := hs
  cases consumed with
  | nil => exact ⟨Encoder.new, [], rfl, Or.inl ⟨rfl, rfl⟩⟩
  | cons x more =>
    obtain ⟨event, live⟩ := x
    obtain ⟨⟨_, hstart⟩, -⟩ := hc.2 0 event live rfl
    obtain rfl : Event.start = event := congrArg Prod.fst (some.inj hstart)
    have hbase : Follows P final [(.start, live)] { Encoder.new with started := true }
        { Reducer.new with message := some (cloneStartMessage live) } ⟨m, fun _ => false, false⟩
        (cloneStartMessage live) := by
      refine ⟨rfl, rfl, rfl, ?_, nodup_nil, fun k _ => ⟨rfl, rfl, rfl, rfl⟩, ?_⟩
      · show 0 = m.content.length
        rw [hempty]
        rfl
      · intro k b hb
        have hb' : m.content[k]? = some b := hb
        simp [hempty] at hb'
    have hjson : Progress.AllJson P ⟨m, fun _ => false, false⟩ := by
      intro k call hk
      have hk' : m.content[k]? = some (.toolCall call) := hk
      simp [hempty] at hk'
    obtain ⟨e, frames, r, p, shown, henc, hred, hf, hpart⟩ := follows_runs hobj hrun _ _ _ _ more hjson hbase hc.tail
    obtain ⟨message, hmessage, hlen, hget⟩ := openArguments_spec r.states shown hf.keys hf.tool_state
    refine ⟨e, .start (cloneStartMessage live) :: frames, ?_, Or.inr ⟨message, p, ?_, ⟨m, _, hempty, rfl, hpart⟩,
      hlen.trans hf.length, ?_⟩⟩
    · have hfirst : Encoder.new.encode P .start live = some ({ Encoder.new with started := true },
        some (.start (cloneStartMessage live))) := rfl
      simp [Encoder.encodeAll, hfirst, henc]
    · have hfirst : Reducer.new.reduceFrame P (.start (cloneStartMessage live)) =
        some { Reducer.new with message := some (cloneStartMessage live) } := rfl
      unfold reduceAssistantMessageFrames
      rw [Reducer.reduceFrom, hfirst, bind_some, hred, bind_some, hf.message]
      exact congrArg (Option.map some) hmessage
    · intro k b hb
      obtain ⟨block, hblock, hshows⟩ := (hf.blocks k b hb).shows
      exact ⟨block, (hget k).trans hblock, hshows⟩

end Stream

/-! ## A tool call seen ahead of its deltas -/

def callTexts : JsonTexts where
  numberText _ := []
  jsonParse text :=
    if text = js "\x7b\x7d" then some (.obj [])
    else if text = js "\x7b\"a\":true\x7d" then some (.obj [(js "a", .prim (.bool true))]) else none
  partialParse _ := some (.obj [])

def callBlock (arguments : JsonValue) : ToolCall :=
  { id := js "c", name := js "f", arguments := arguments, thoughtSignature := none, namespace_ := none }

def callMessage (content : List Block) : AssistantMessage :=
  { content := content, api := [], provider := [], model := [], responseModel := none, responseId := none
    providerThinkingLevel := none, diagnostics := none, usage := .obj [], stopReason := .pending, timestamp := 0 }

def callStream : List (Event × AssistantMessage) :=
  [(.start, callMessage []), (.toolcallStart 0, callMessage [.toolCall (callBlock (.obj []))]),
    (.toolcallDelta 0 (js "\x7b\"a\":"), callMessage [.toolCall (callBlock (.obj []))]),
    (.toolcallDelta 0 (js "true\x7d"), callMessage [.toolCall (callBlock (.obj [(js "a", .prim (.bool true))]))])]

def callEnd : Progress :=
  ⟨callMessage [.toolCall (callBlock (.obj [(js "a", .prim (.bool true))]))], update (fun _ => false) 0 true, false⟩

theorem callTexts_empty : callTexts.IsJson (.obj []) := rfl

theorem callTexts_call : callTexts.IsJson (.obj [(js "a", .prim (.bool true))]) := rfl

theorem callStream_stream : Stream callTexts callStream callEnd := by
  refine ⟨callMessage [], _, rfl, rfl, ?_⟩
  refine .cons (.toolcallStart _ (callMessage [.toolCall (callBlock (.obj []))]) _ (callBlock (.obj [])) callTexts_empty rfl)
    ?_
  refine .cons (.toolcallDelta _ (callMessage [.toolCall (callBlock (.obj []))]) _ 0 _ (callBlock (.obj []))
    (callBlock (.obj [])) (update_self _ _ _) rfl callTexts_empty rfl) ?_
  exact .cons (.toolcallDelta _ _ _ 0 _ (callBlock (.obj [])) (callBlock (.obj [(js "a", .prim (.bool true))]))
    (update_self _ _ _) rfl callTexts_call rfl) (.nil _)

def callConsumed : List (Event × AssistantMessage) :=
  (callStream.take 3).map (fun x => (x.1, callEnd.message))

theorem callConsumed_consumes : Consumes callStream callConsumed := by
  refine ⟨by decide, ?_⟩
  intro i event live hi
  have hlt : i < 3 := (List.getElem?_eq_some_iff.mp hi).1
  have hcases : i = 0 ∨ i = 1 ∨ i = 2 := by omega
  rcases hcases with rfl | rfl | rfl <;>
  · obtain ⟨rfl, rfl⟩ : _ ∧ _ := Prod.mk.inj (some.inj hi)
    exact ⟨⟨_, rfl⟩, 3, _, by decide, rfl⟩

theorem frames_replay_ahead : ∃ e frames m, Encoder.new.encodeAll callTexts callConsumed = some (e, frames) ∧
    reduceAssistantMessageFrames callTexts frames = some (some m) := by
  obtain ⟨e, frames, henc, h⟩ := frames_replay callTexts callStream callConsumed callEnd callTexts_empty
    callStream_stream callConsumed_consumes
  rcases h with ⟨hnil, -⟩ | ⟨m, p, hred, -⟩
  · cases hnil
  · exact ⟨e, frames, m, henc, hred⟩

end PiAgent.Ai
