import PiAgent.Ai.ServerSentEvents

/-!
# The lines of an event stream

The lines that the reader of `anthropic-messages.ts` decodes, from the texts it reads. A text
that ends between the CR and the LF of a line end gives an empty line more; when that makes
other events is told line by line.
-/

namespace PiAgent.Ai.Sse

open Function List

/-! ## Lines of one text -/

def splitLines : JsString → JsString → List JsString × JsString
  | line, [] => ([], line)
  | line, [u] => if u = LF ∨ u = CR then ([line], []) else ([], line ++ [u])
  | line, u :: v :: rest =>
    if u = LF then (line :: (splitLines [] (v :: rest)).1, (splitLines [] (v :: rest)).2)
    else if u = CR then
      if v = LF then (line :: (splitLines [] rest).1, (splitLines [] rest).2)
      else (line :: (splitLines [] (v :: rest)).1, (splitLines [] (v :: rest)).2)
    else splitLines (line ++ [u]) (v :: rest)

def ended (line : JsString) : List JsString := (if line = [] then [] else [line]) ++ [[]]

def plainLines (line text : JsString) : List JsString := (splitLines line text).1 ++ ended (splitLines line text).2

def Breakless (line : JsString) : Prop := CR ∉ line ∧ LF ∉ line

theorem breakless_nil : Breakless [] := ⟨not_mem_nil, not_mem_nil⟩

theorem Breakless.snoc {line : JsString} (h : Breakless line) (u : UInt16) (hlf : u ≠ LF) (hcr : u ≠ CR) :
    Breakless (line ++ [u]) := by
  unfold Breakless at *
  simp only [mem_append, mem_singleton, not_or]
  exact ⟨⟨h.1, fun heq => hcr heq.symm⟩, h.2, fun heq => hlf heq.symm⟩

variable (line rest : JsString)

theorem splitLines_lf :
    splitLines line (LF :: rest) = (line :: (splitLines [] rest).1, (splitLines [] rest).2) := by
  cases rest <;> simp [splitLines]

theorem splitLines_crlf :
    splitLines line (CR :: LF :: rest) = (line :: (splitLines [] rest).1, (splitLines [] rest).2) := by
  simp [splitLines, show CR ≠ LF by decide]

theorem splitLines_cr (h : rest.head? ≠ some LF) :
    splitLines line (CR :: rest) = (line :: (splitLines [] rest).1, (splitLines [] rest).2) := by
  cases rest with
  | nil => simp [splitLines]
  | cons v rest =>
    have hv : v ≠ LF := fun heq => h (by rw [heq]; rfl)
    simp [splitLines, hv, show CR ≠ LF by decide]

variable (u : UInt16)

theorem splitLines_other (hlf : u ≠ LF) (hcr : u ≠ CR) :
    splitLines line (u :: rest) = splitLines (line ++ [u]) rest := by
  cases rest <;> simp [splitLines, hlf, hcr]

theorem splitLines_append (line x y : JsString) (h : y.head? ≠ some LF) : splitLines line (x ++ y) =
      ((splitLines line x).1 ++ (splitLines (splitLines line x).2 y).1, (splitLines (splitLines line x).2 y).2) := by
  fun_induction splitLines line x with
  | case1 line => rfl
  | case2 line u hbreak =>
    rcases hbreak with rfl | rfl
    · exact splitLines_lf line y
    · exact splitLines_cr line y h
  | case3 line u hother =>
    rw [not_or] at hother
    exact splitLines_other line y u hother.1 hother.2
  | case4 line v rest ih =>
    rw [cons_append, splitLines_lf, ih]
    rfl
  | case5 line rest hne ih =>
    rw [cons_append, cons_append, splitLines_crlf, ih]
    rfl
  | case6 line v rest hv hne ih =>
    rw [cons_append, splitLines_cr _ _ (by simpa using hv), ih]
    rfl
  | case7 line u v rest hlf hcr ih => rw [cons_append, splitLines_other _ _ _ hlf hcr, ih]

variable (line text : JsString)

theorem breakless_splitLines (h : Breakless line) : Breakless (splitLines line text).2 := by
  fun_induction splitLines line text with
  | case1 line => exact h
  | case2 line u hbreak => exact breakless_nil
  | case3 line u hother =>
    rw [not_or] at hother
    exact h.snoc u hother.1 hother.2
  | case4 line v rest ih => exact ih breakless_nil
  | case5 line rest hne ih => exact ih breakless_nil
  | case6 line v rest hv hne ih => exact ih breakless_nil
  | case7 line u v rest hlf hcr ih => exact ih (h.snoc u hlf hcr)

/-! ## `consumeLine` -/

theorem firstIndex_singleton (c a : UInt16) (s : JsString) :
    firstIndex [c] (a :: s) = if c = a then some 0 else (firstIndex [c] s).map (fun i => i + 1) := by
  rw [firstIndex]
  by_cases h : c = a
  · rw [if_pos h, if_pos (by simp [h])]
  · rw [if_neg h, if_neg (by simp [h])]

variable (rest : JsString)

theorem nextLineBreakIndex_break (h : u = LF ∨ u = CR) : nextLineBreakIndex (u :: rest) = some 0 := by
  unfold nextLineBreakIndex
  rw [firstIndex_singleton, firstIndex_singleton]
  rcases h with rfl | rfl
  · rw [if_neg (by decide), if_pos rfl]
    cases firstIndex [CR] rest <;> simp
  · rw [if_pos rfl, if_neg (by decide)]
    cases firstIndex [LF] rest <;> simp

theorem nextLineBreakIndex_other (hlf : u ≠ LF) (hcr : u ≠ CR) :
    nextLineBreakIndex (u :: rest) = (nextLineBreakIndex rest).map (fun i => i + 1) := by
  unfold nextLineBreakIndex
  rw [firstIndex_singleton, firstIndex_singleton, if_neg hcr.symm, if_neg hlf.symm]
  cases firstIndex [CR] rest <;> cases firstIndex [LF] rest <;> simp

theorem consumeLine_lf : consumeLine (LF :: rest) = some ([], rest) := by
  unfold consumeLine
  rw [nextLineBreakIndex_break LF rest (Or.inl rfl)]
  simp [show LF ≠ CR by decide]

theorem consumeLine_crlf : consumeLine (CR :: LF :: rest) = some ([], rest) := by
  unfold consumeLine
  rw [nextLineBreakIndex_break CR (LF :: rest) (Or.inr rfl)]
  simp

theorem consumeLine_cr (h : rest.head? ≠ some LF) : consumeLine (CR :: rest) = some ([], rest) := by
  unfold consumeLine
  rw [nextLineBreakIndex_break CR rest (Or.inr rfl)]
  rw [head?_eq_getElem?] at h
  simp [h]

theorem consumeLine_other (hlf : u ≠ LF) (hcr : u ≠ CR) :
    consumeLine (u :: rest) = (consumeLine rest).map (fun consumed => (u :: consumed.1, consumed.2)) := by
  unfold consumeLine
  rw [nextLineBreakIndex_other u rest hlf hcr, Option.map_map, Option.map_map]
  congr 1
  funext i
  simp only [comp, getElem?_cons_succ]
  split <;> rfl

theorem consumeLine_append (h : Breakless line) :
    consumeLine (line ++ text) = (consumeLine text).map (fun consumed => (line ++ consumed.1, consumed.2)) := by
  induction line with
  | nil => simp
  | cons u line ih =>
    unfold Breakless at h ih
    simp only [mem_cons, not_or] at h
    rw [cons_append, consumeLine_other u _ (Ne.symm h.2.1) (Ne.symm h.1.1), ih ⟨h.1.2, h.2.2⟩, Option.map_map]
    rfl

variable (line : JsString)

theorem consumeLine_breakless (h : Breakless line) : consumeLine line = none := by
  have happend := consumeLine_append line [] h
  rw [append_nil] at happend
  rw [happend]
  rfl

/-! ## Decoding lines -/

def decodeLines : List JsString → SseDecoderState → SseDecoderState × List ServerSentEvent
  | [], state => (state, [])
  | line :: lines, state =>
    ((decodeLines lines (decodeSseLine line state).1).1,
      (decodeSseLine line state).2.toList ++ (decodeLines lines (decodeSseLine line state).1).2)

theorem decodeLines_append (a b : List JsString) (state : SseDecoderState) : decodeLines (a ++ b) state =
      ((decodeLines b (decodeLines a state).1).1,
        (decodeLines a state).2 ++ (decodeLines b (decodeLines a state).1).2) := by
  induction a generalizing state with
  | nil => rfl
  | cons line a ih => simp only [cons_append, decodeLines, ih, append_assoc]

variable (fuel : ℕ)

theorem consumeLines_none (buffer : JsString) (state : SseDecoderState) (h : consumeLine buffer = none) :
    consumeLines fuel buffer state = ⟨buffer, state, []⟩ := by
  cases fuel with
  | zero => rfl
  | succ fuel => rw [consumeLines, h]

theorem consumeLines_some (buffer line rest : JsString) (state : SseDecoderState)
    (h : consumeLine buffer = some (line, rest)) :
    consumeLines (fuel + 1) buffer state =
      { consumeLines fuel rest (decodeSseLine line state).1 with
        events := (decodeSseLine line state).2.toList ++ (consumeLines fuel rest (decodeSseLine line state).1).events } := by
  rw [consumeLines, h]

theorem consumeLines_spec (line text : JsString) (state : SseDecoderState) (h : Breakless line)
    (hfuel : (line ++ text).length < fuel) :
    consumeLines fuel (line ++ text) state =
      ⟨(splitLines line text).2, (decodeLines (splitLines line text).1 state).1,
        (decodeLines (splitLines line text).1 state).2⟩ := by
  -- one line is consumed, and the rest is split as a text of its own
  have hline : ∀ (fuel : ℕ) (line text rest : JsString) (state : SseDecoderState), Breakless line →
      (line ++ text).length < fuel → consumeLine text = some ([], rest) → rest.length < text.length →
      (∀ fuel state, rest.length < fuel → consumeLines fuel rest state =
        ⟨(splitLines [] rest).2, (decodeLines (splitLines [] rest).1 state).1,
          (decodeLines (splitLines [] rest).1 state).2⟩) →
      consumeLines fuel (line ++ text) state =
        ⟨(splitLines [] rest).2, (decodeLines (line :: (splitLines [] rest).1) state).1,
          (decodeLines (line :: (splitLines [] rest).1) state).2⟩ := by
    intro fuel line text rest state hbreakless hfuel hconsume hshorter hrest
    rw [length_append] at hfuel
    obtain ⟨fuel, rfl⟩ : ∃ n, fuel = n + 1 := ⟨fuel - 1, by omega⟩
    have hconsumed : consumeLine (line ++ text) = some (line, rest) := by
      rw [consumeLine_append line text hbreakless, hconsume]
      simp
    rw [consumeLines_some fuel _ line rest state hconsumed, hrest fuel _ (by omega)]
    rfl
  fun_induction splitLines line text generalizing fuel state with
  | case1 line => rw [append_nil, consumeLines_none _ _ _ (consumeLine_breakless line h)]; rfl
  | case2 line u hbreak =>
    refine hline fuel line [u] [] state h hfuel ?_ (by simp) ?_
    · rcases hbreak with rfl | rfl
      · exact consumeLine_lf []
      · exact consumeLine_cr [] (by simp)
    · intro fuel state _
      exact consumeLines_none _ _ _ (consumeLine_breakless [] breakless_nil)
  | case3 line u hother =>
    rw [not_or] at hother
    exact consumeLines_none _ _ _ (consumeLine_breakless _ (h.snoc u hother.1 hother.2))
  | case4 line v rest ih =>
    exact hline fuel line _ (v :: rest) state h hfuel (consumeLine_lf _) (by simp)
      (fun fuel state hfuel => ih fuel state breakless_nil hfuel)
  | case5 line rest hne ih =>
    exact hline fuel line _ rest state h hfuel (consumeLine_crlf _) (by simp only [length_cons]; omega)
      (fun fuel state hfuel => ih fuel state breakless_nil hfuel)
  | case6 line v rest hv hne ih =>
    exact hline fuel line _ (v :: rest) state h hfuel (consumeLine_cr _ (by simpa using hv)) (by simp)
      (fun fuel state hfuel => ih fuel state breakless_nil hfuel)
  | case7 line u v rest hlf hcr ih =>
    rw [show line ++ u :: v :: rest = line ++ [u] ++ v :: rest by simp]
    exact ih fuel state (h.snoc u hlf hcr) (by simpa using hfuel)

def readLines : JsString → List JsString → List JsString
  | line, [] => ended line
  | line, text :: texts => (splitLines line text).1 ++ readLines (splitLines line text).2 texts

variable (state : SseDecoderState) (texts : List JsString)

theorem iterateTexts_eq (h : Breakless line) :
    iterateTexts line state texts = (decodeLines (readLines line texts) state).2 := by
  induction texts generalizing line state with
  | nil =>
    unfold iterateTexts readLines ended
    by_cases hline : line = []
    · simp [hline, decodeLines, decodeSseLine]
    · simp [hline, decodeLines, decodeSseLine]
  | cons text texts ih =>
    rw [iterateTexts, consumeLines_spec _ line text state h (Nat.lt_succ_self _), readLines, decodeLines_append]
    dsimp only
    rw [ih _ _ (breakless_splitLines line text h)]

/-! ## Where the texts are cut -/

def markFrom : Bool → JsString → List (UInt16 × Bool)
  | _, [] => []
  | cut, u :: text => (u, cut) :: markFrom false text

def marked (texts : List JsString) : List (UInt16 × Bool) := texts.flatMap (markFrom true)

/-- The lines of some texts, and whether a text ends between the CR and the LF at the end of each. -/
def cutLines : JsString → List (UInt16 × Bool) → List (JsString × Bool)
  | line, [] => (ended line).map (fun line => (line, false))
  | line, [(u, _)] =>
    (if u = LF ∨ u = CR then line :: ended [] else ended (line ++ [u])).map (fun line => (line, false))
  | line, (u, _) :: (v, cut) :: rest =>
    if u = LF then (line, false) :: cutLines [] ((v, cut) :: rest)
    else if u = CR then
      if v = LF then (line, cut) :: cutLines [] rest else (line, false) :: cutLines [] ((v, cut) :: rest)
    else cutLines (line ++ [u]) ((v, cut) :: rest)

def expand (line : JsString × Bool) : List JsString := if line.2 then [line.1, []] else [line.1]

variable (cut : Bool) (rest : List (UInt16 × Bool))

theorem cutLines_lf : cutLines line ((LF, cut) :: rest) = (line, false) :: cutLines [] rest := by
  cases rest <;> simp [cutLines]

theorem cutLines_crlf (first cut : Bool) (rest : List (UInt16 × Bool)) :
    cutLines line ((CR, first) :: (LF, cut) :: rest) = (line, cut) :: cutLines [] rest := by
  simp [cutLines, show CR ≠ LF by decide]

theorem cutLines_cr (h : rest.head?.map Prod.fst ≠ some LF) :
    cutLines line ((CR, cut) :: rest) = (line, false) :: cutLines [] rest := by
  cases rest with
  | nil => simp [cutLines]
  | cons v rest =>
    have hv : v.1 ≠ LF := fun heq => h (by rw [← heq]; rfl)
    simp [cutLines, hv, show CR ≠ LF by decide]

theorem cutLines_other (u : UInt16) (cut : Bool) (rest : List (UInt16 × Bool)) (hlf : u ≠ LF)
    (hcr : u ≠ CR) : cutLines line ((u, cut) :: rest) = cutLines (line ++ [u]) rest := by
  cases rest <;> simp [cutLines, hlf, hcr]

theorem map_cutLines (units : List (UInt16 × Bool)) :
    (cutLines line units).map Prod.fst = plainLines line (units.map Prod.fst) := by
  unfold plainLines
  fun_induction cutLines line units with
  | case1 line => simp [splitLines, comp_def]
  | case2 line u cut =>
    simp only [map_map, comp_def, map_id', map_cons, map_nil, splitLines]
    split <;> simp
  | case3 line cut v cut' rest ih =>
    simp only [map_cons, splitLines_lf, ih, cons_append]
  | case4 line cut cut' rest hne ih =>
    simp only [map_cons, splitLines_crlf, ih, cons_append]
  | case5 line cut v cut' rest hv hne ih =>
    have hhead : (v :: rest.map Prod.fst).head? ≠ some LF := by simpa using hv
    simp only [map_cons, splitLines_cr _ _ hhead, ih, cons_append]
  | case6 line u cut v cut' rest hlf hcr ih =>
    simp only [map_cons, splitLines_other _ _ _ hlf hcr] at ih ⊢
    exact ih

theorem map_markFrom (text : JsString) : (markFrom cut text).map Prod.fst = text := by
  induction text generalizing cut with
  | nil => rfl
  | cons u text ih => rw [markFrom, map_cons, ih]

theorem map_marked : (marked texts).map Prod.fst = texts.flatten := by
  unfold marked
  rw [map_flatMap]
  simp only [map_markFrom]
  exact flatMap_id'

def Starts (units : List (UInt16 × Bool)) : Prop := ∀ u ∈ units.head?, u.2 = true

theorem starts_marked : Starts (marked texts) := by
  unfold Starts marked
  induction texts with
  | nil => simp
  | cons text texts ih =>
    cases text with
    | nil => exact ih
    | cons u text => simp [markFrom]

theorem expand_text (text : JsString) (rest : List (UInt16 × Bool)) (h : Starts rest) :
    (cutLines line (markFrom cut text ++ rest)).flatMap expand =
      (splitLines line text).1 ++ (cutLines (splitLines line text).2 rest).flatMap expand := by
  fun_induction splitLines line text generalizing cut with
  | case1 line => rfl
  | case2 line u hbreak =>
    unfold markFrom markFrom
    rcases hbreak with rfl | rfl
    · rw [singleton_append, cutLines_lf]
      rfl
    · by_cases hrest : rest.head?.map Prod.fst = some LF
      · -- the LF of this line end begins a text: it ends an empty line for the reader
        obtain ⟨⟨v, cut'⟩, hv, rfl⟩ := Option.map_eq_some_iff.mp hrest
        obtain ⟨rest, rfl⟩ := head?_eq_some_iff.mp hv
        obtain rfl : cut' = true := h _ rfl
        rw [singleton_append, cutLines_crlf, cutLines_lf]
        rfl
      · rw [singleton_append, cutLines_cr _ _ _ hrest]
        rfl
  | case3 line u hother =>
    rw [not_or] at hother
    unfold markFrom markFrom
    rw [singleton_append, cutLines_other _ _ _ _ hother.1 hother.2]
    rfl
  | case4 line v rest' ih =>
    rw [markFrom, cons_append, cutLines_lf, flatMap_cons, ih]
    rfl
  | case5 line rest' hne ih =>
    rw [markFrom, markFrom, cons_append, cons_append, cutLines_crlf, flatMap_cons, ih]
    rfl
  | case6 line v rest' hv hne ih =>
    rw [markFrom, cons_append, cutLines_cr _ _ _ (by simpa [markFrom] using hv), flatMap_cons, ih]
    rfl
  | case7 line u v rest' hlf hcr ih => rw [markFrom, cons_append, cutLines_other _ _ _ _ hlf hcr, ih]

theorem readLines_eq : readLines line texts = (cutLines line (marked texts)).flatMap expand := by
  induction texts generalizing line with
  | nil =>
    unfold readLines marked ended
    by_cases hline : line = [] <;> simp [hline, cutLines, ended, expand]
  | cons text texts ih =>
    rw [readLines, ih]
    exact (expand_text line true text (marked texts) (starts_marked texts)).symm

/-! ## Events of cut lines -/

/-- No line that is cut within its end leaves an event open, or the next line is empty and ends it all the same. -/
def Harmless : SseDecoderState → List (JsString × Bool) → Prop
  | _, [] => True
  | state, (line, cut) :: rest =>
    (cut = true → (decodeSseLine line state).1.Open → rest.head?.map Prod.fst = some []) ∧
      Harmless (decodeSseLine line state).1 rest

theorem flush_closed (h : ¬ state.Open) : decodeSseLine [] state = (state, none) := by
  unfold decodeSseLine flushSseEvent
  rw [if_pos rfl, if_neg h]

theorem flush_open (h : state.Open) :
    decodeSseLine [] state = (.new, some ⟨state.event, [LF].intercalate state.data, state.raw⟩) := by
  unfold decodeSseLine flushSseEvent
  rw [if_pos rfl, if_pos h]

theorem closed_new : ¬ SseDecoderState.new.Open := by decide

theorem flush_flush (lines : List JsString) (state : SseDecoderState) :
    decodeLines ([] :: [] :: lines) state = decodeLines ([] :: lines) state := by
  by_cases h : state.Open
  · simp only [decodeLines, flush_open state h, flush_closed _ closed_new, Option.toList_none, nil_append]
  · simp only [decodeLines, flush_closed state h, Option.toList_none, nil_append]

theorem decodeSseLine_kept (h : line ≠ []) :
    (decodeSseLine line state).1.raw = state.raw ++ [line] ∧ (decodeSseLine line state).2 = none := by
  unfold decodeSseLine
  rw [if_neg h]
  dsimp only
  split_ifs <;> exact ⟨rfl, rfl⟩

theorem next_raw (lines : List JsString) (state : SseDecoderState) (event : ServerSentEvent)
    (later : List ServerSentEvent) (h : (decodeLines lines state).2 = event :: later) :
    state.raw.length ≤ event.raw.length := by
  induction lines generalizing state with
  | nil => cases h
  | cons line lines ih =>
    unfold decodeLines at h
    by_cases hline : line = []
    · subst hline
      by_cases hopen : state.Open
      · rw [flush_open state hopen] at h
        obtain ⟨rfl, -⟩ := List.cons.inj h
        exact le_refl _
      · rw [flush_closed state hopen] at h
        exact ih state h
    · obtain ⟨hraw, hnone⟩ := decodeSseLine_kept line state hline
      rw [hnone] at h
      have hlater := ih _ h
      rw [hraw, length_append] at hlater
      omega

theorem expand_iff (lines : List (JsString × Bool)) (state : SseDecoderState) :
    (decodeLines (lines.flatMap expand) state).2 = (decodeLines (lines.map Prod.fst) state).2 ↔ Harmless state lines := by
  induction lines generalizing state with
  | nil => simp [decodeLines, Harmless]
  | cons first rest ih =>
    obtain ⟨line, cut⟩ := first
    unfold Harmless
    generalize hstate : (decodeSseLine line state).1 = after
    -- the line itself is decoded alike
    have hplain : (decodeLines (((line, cut) :: rest).map Prod.fst) state).2 =
        (decodeSseLine line state).2.toList ++ (decodeLines (rest.map Prod.fst) after).2 := by
      rw [map_cons, decodeLines, hstate]
    have hcut : (decodeLines (((line, cut) :: rest).flatMap expand) state).2 =
        (decodeSseLine line state).2.toList ++
          (decodeLines ((if cut then [[]] else []) ++ rest.flatMap expand) after).2 := by
      rw [flatMap_cons, expand, ← hstate]
      cases cut <;> rfl
    rw [hplain, hcut, append_cancel_left_eq, ← ih after]
    cases cut with
    | false => simp
    | true =>
      simp only [forall_const, if_true, singleton_append]
      by_cases hopen : after.Open
      · cases rest with
        | nil =>
          simp only [flatMap_nil, map_nil, decodeLines, flush_open after hopen]
          simp [hopen]
        | cons next rest =>
          obtain ⟨next, cut⟩ := next
          by_cases hnext : next = []
          · subst hnext
            have htwice : decodeLines ([] :: (([], cut) :: rest).flatMap expand) after =
                decodeLines ((([], cut) :: rest).flatMap expand) after := by
              rw [flatMap_cons, expand]
              cases cut <;> exact flush_flush _ after
            rw [htwice]
            simp
          · -- the event ends too early: the one of all the text has the next line too
            refine iff_of_false ?_ ?_
            · intro heq
              obtain ⟨hraw, hnone⟩ := decodeSseLine_kept next after hnext
              rw [decodeLines, flush_open after hopen, map_cons, decodeLines, hnone] at heq
              have hlater := next_raw _ _ _ _ heq.symm
              rw [hraw, length_append] at hlater
              simp at hlater
            · rintro ⟨hempty, -⟩
              exact hnext (by simpa using hempty hopen)
      · rw [decodeLines, flush_closed after hopen]
        simp [hopen]

end PiAgent.Ai.Sse
