import PiAgent.Ai.SseBlocks
import PiAgent.Ai.SseLines

/-! # What chunks change in event streams -/

namespace PiAgent.Ai.Sse

open List

open Utf8 (TextDecoder Decoder feed step flush lead)

/-! ## Texts of chunks -/

theorem units_append (a b : List Char) : units (a ++ b) = units a ++ units b := flatMap_append

theorem units_flatten (ts : List (List Char)) : (ts.map units).flatten = units ts.flatten := by
  induction ts with
  | nil => rfl
  | cons text ts ih => rw [map_cons, flatten_cons, ih, flatten_cons, units_append]

variable (chunks : List Bytes)

theorem flatten_chunkTexts : (chunkTexts chunks).flatten = units (TextDecoder.new.decode chunks.flatten) := by
  rw [chunkTexts, units_flatten, TextDecoder.flatten_decodeChunks]

variable (body : Bytes)

theorem chunkTexts_one : chunkTexts [body] = [units (TextDecoder.new.decode body)] := rfl

theorem texts_joined : texts [chunks.flatten] = [(chunkTexts chunks).flatten, lastText chunks] := by
  unfold texts
  rw [chunkTexts_one, flatten_chunkTexts, lastText, lastText, flatten_singleton]
  rfl

theorem lastText_head : (lastText chunks).head? ≠ some LF := by
  unfold lastText TextDecoder.finish flush
  generalize TextDecoder.new.next chunks.flatten = t
  split
  · cases t.bomSeen <;> exact fun h => by cases h
  · cases t.bomSeen <;> decide

/-! ## Line ends -/

def toCrlf {α : Type} [DecidableEq α] (cr lf : α) : Bool → List α → List α
  | _, [] => []
  | afterCr, u :: rest =>
    if u = lf ∧ afterCr = false then cr :: lf :: toCrlf cr lf false rest else u :: toCrlf cr lf (decide (u = cr)) rest

theorem toCrlf_other {α : Type} [DecidableEq α] (cr lf : α) (afterCr : Bool) (u : α) (rest : List α) (h : u ≠ lf) :
    toCrlf cr lf afterCr (u :: rest) = u :: toCrlf cr lf (decide (u = cr)) rest := by
  rw [toCrlf, if_neg (fun hlf => h hlf.1)]

theorem toCrlf_append {α : Type} [DecidableEq α] (cr lf : α) (afterCr : Bool) (a rest : List α)
    (h : ∀ u ∈ a, u ≠ cr ∧ u ≠ lf) :
    toCrlf cr lf afterCr (a ++ rest) = a ++ toCrlf cr lf (afterCr && a.isEmpty) rest := by
  induction a generalizing afterCr with
  | nil => simp
  | cons u a ih =>
    have hu := h u mem_cons_self
    rw [cons_append, toCrlf_other cr lf afterCr u _ hu.2, ih _ (fun v hv => h v (mem_cons_of_mem _ hv)),
      decide_eq_false hu.1]
    simp

def crChar : Char := Char.ofNat 13

def lfChar : Char := Char.ofNat 10

def withCrlf (body : Bytes) : Bytes := toCrlf 13 10 false body

variable (d : Decoder)

theorem step_wide (h : d.Ok) (byte : UInt8) (hwide : 0x80 ≤ byte.toNat) :
    (∀ c ∈ (step d byte).2, c ≠ crChar ∧ c ≠ lfChar) ∧ ((step d byte).2 = [] → (step d byte).1.needed ≠ 0) := by
  constructor
  · intro c hc
    have hbig : 0x80 ≤ c.toNat := by
      rcases Utf8.mem_step d h byte c hc with heq | hbig
      · omega
      · exact hbig
    refine ⟨?_, ?_⟩ <;> rintro rfl <;> exact absurd hbig (by decide)
  · unfold step lead
    grind [Decoder.new]

theorem feed_cons (byte : UInt8) (bytes : Bytes) :
    feed d (byte :: bytes) = ((feed (step d byte).1 bytes).1, (step d byte).2 ++ (feed (step d byte).1 bytes).2) := rfl

theorem feed_toCrlf (hd : d.Ok) (bytes : Bytes) (afterByte afterChar : Bool)
    (hbyte : afterByte = true → d.needed = 0) (hchar : d.needed = 0 → afterChar = afterByte) :
    feed d (toCrlf 13 10 afterByte bytes) = ((feed d bytes).1, toCrlf crChar lfChar afterChar (feed d bytes).2) := by
  have hnew : Decoder.new.needed = 0 := rfl
  induction bytes generalizing d afterByte afterChar with
  | nil => rfl
  | cons byte bytes ih =>
    have hlf : step d 10 = (.new, flush d ++ [lfChar]) := Utf8.step_ascii d hd 10 (by decide)
    have hflush : ∀ c ∈ flush d, c ≠ crChar ∧ c ≠ lfChar := by
      unfold flush
      split
      · simp
      · rw [forall_mem_singleton]
        decide
    by_cases hbreak : byte = 10
    · subst hbreak
      have hrest := ih .new Utf8.ok_new false false (fun _ => hnew) (fun _ => rfl)
      rw [feed_cons d 10 bytes, hlf, append_assoc, toCrlf_append _ _ _ _ _ hflush, singleton_append, toCrlf, toCrlf]
      cases afterByte with
      | false =>
        have hcr : step d 13 = (.new, flush d ++ [crChar]) := Utf8.step_ascii d hd 13 (by decide)
        have hafter : (afterChar && (flush d).isEmpty) = false := by
          unfold flush
          split
          · rename_i hneeded
            rw [hchar hneeded]
            rfl
          · simp
        have hlf' : step .new 10 = (.new, [lfChar]) := by decide
        rw [if_pos ⟨rfl, rfl⟩, if_pos ⟨rfl, hafter⟩, feed_cons, hcr, feed_cons, hlf', hrest]
        simp
      | true =>
        have hneeded := hbyte rfl
        have hempty : flush d = [] := if_pos hneeded
        rw [hchar hneeded, if_neg (by simp), if_neg (by simp [hempty]), feed_cons, hlf]
        rw [show decide ((10 : UInt8) = 13) = false by decide, hrest, show decide (lfChar = crChar) = false by decide]
        simp
    · rw [toCrlf_other _ _ _ _ _ hbreak, feed_cons, feed_cons d byte bytes]
      by_cases hascii : byte.toNat ≤ 0x7F
      · have hstep := Utf8.step_ascii d hd byte hascii
        have hvalid : byte.toNat.isValidChar := by unfold Nat.isValidChar; omega
        have htoNat := Utf8.toNat_ofNat byte.toNat hvalid
        have hnot : Char.ofNat byte.toNat ≠ lfChar := by
          intro heq
          rw [heq] at htoNat
          exact hbreak (UInt8.toNat.inj (htoNat.symm.trans (by decide)))
        have hsame : decide (Char.ofNat byte.toNat = crChar) = decide (byte = 13) := by
          apply decide_eq_decide.mpr
          constructor
          · intro heq
            rw [heq] at htoNat
            exact UInt8.toNat.inj (htoNat.symm.trans (by decide))
          · rintro rfl
            rfl
        simp only [hstep, append_assoc]
        rw [toCrlf_append _ _ _ _ _ hflush, singleton_append, singleton_append, toCrlf_other _ _ _ _ _ hnot, hsame,
          ih .new Utf8.ok_new (decide (byte = 13)) (decide (byte = 13)) (fun _ => hnew) (fun _ => rfl)]
      · obtain ⟨hwide, hneeded⟩ := step_wide d hd byte (by omega)
        have hcr : decide (byte = 13) = false := by
          rw [decide_eq_false_iff_not]
          rintro rfl
          exact hascii (by decide)
        rw [hcr, toCrlf_append _ _ _ _ _ hwide,
          ih (step d byte).1 (Utf8.ok_step d hd byte) false (afterChar && (step d byte).2.isEmpty) (by simp) ?_]
        intro hzero
        cases hout : (step d byte).2 with
        | nil => exact absurd hzero (hneeded hout)
        | cons c out => simp

theorem feed_withCrlf :
    feed .new (withCrlf body) = ((feed .new body).1, toCrlf crChar lfChar false (feed .new body).2) :=
  feed_toCrlf .new Utf8.ok_new body false false (by simp) (fun _ => rfl)

theorem units_toCrlf (text : List Char) (afterCr : Bool) :
    units (toCrlf crChar lfChar afterCr text) = toCrlf CR LF afterCr (units text) := by
  induction text generalizing afterCr with
  | nil => rfl
  | cons c text ih =>
    have hunits : ∀ text, units (c :: text) = utf16 c ++ units text := fun _ => rfl
    by_cases hlf : c = lfChar
    · subst hlf
      have hutf : utf16 lfChar = [LF] := by decide
      rw [hunits, hutf, singleton_append, toCrlf, toCrlf]
      cases afterCr with
      | false =>
        rw [if_pos ⟨rfl, rfl⟩, if_pos ⟨rfl, rfl⟩, ← ih]
        rfl
      | true =>
        rw [if_neg (by simp), if_neg (by simp), hunits, hutf, ih]
        rfl
    · by_cases hcr : c = crChar
      · subst hcr
        have hutf : utf16 crChar = [CR] := by decide
        rw [hunits, hutf, singleton_append, toCrlf_other _ _ _ _ _ hlf, toCrlf_other _ _ _ _ _ (by decide), hunits, hutf,
          ih]
        rfl
      · have hvalid : c.toNat < 0xD800 ∨ 0xDFFF < c.toNat ∧ c.toNat < 0x110000 := c.valid
        have hne : ∀ n : ℕ, n.isValidChar → c ≠ Char.ofNat n → c.toNat ≠ n := by
          intro n hn hc heq
          exact hc (by rw [← heq, Char.ofNat_toNat])
        have hcr' := hne 13 (by decide) hcr
        have hlf' := hne 10 (by decide) hlf
        have hother : ∀ u ∈ utf16 c, u ≠ CR ∧ u ≠ LF := by
          unfold utf16 CR LF
          intro u hu
          split at hu
          · rw [mem_singleton.mp hu]
            refine ⟨?_, ?_⟩ <;> rw [ne_eq, ← UInt16.toNat_inj] <;> simp <;> omega
          · simp only [mem_cons, not_mem_nil, or_false] at hu
            rcases hu with rfl | rfl <;> refine ⟨?_, ?_⟩ <;> rw [ne_eq, ← UInt16.toNat_inj] <;> simp <;> omega
        have hsome : (utf16 c).isEmpty = false := by
          unfold utf16
          split <;> rfl
        rw [toCrlf_other _ _ _ _ _ hlf, hunits, hunits, ih, toCrlf_append _ _ _ _ _ hother, hsome, decide_eq_false hcr]
        simp

theorem texts_withCrlf :
    texts [withCrlf body] = [toCrlf CR LF false (units (TextDecoder.new.decode body)), lastText [body]] := by
  unfold texts lastText
  rw [chunkTexts_one, ← units_toCrlf, flatten_singleton, flatten_singleton]
  unfold TextDecoder.decode TextDecoder.next
  rw [show TextDecoder.new.utf8 = Decoder.new from rfl, feed_withCrlf]
  have htext : Utf8.stripBom false (toCrlf crChar lfChar false (feed .new body).2) =
      toCrlf crChar lfChar false (Utf8.stripBom false (feed .new body).2) := by
    cases (feed .new body).2 with
    | nil => rfl
    | cons c text =>
      by_cases hbom : c = Utf8.byteOrderMark
      · subst hbom
        rw [toCrlf_other _ _ _ _ _ (by decide)]
        simp [Utf8.stripBom, show decide (Utf8.byteOrderMark = crChar) = false by decide]
      · have hplain : Utf8.stripBom false (c :: text) = c :: text := if_neg hbom
        rw [hplain, toCrlf]
        split
        · rw [Utf8.stripBom, if_neg (show crChar ≠ Utf8.byteOrderMark by decide)]
        · exact if_neg hbom
  have hempty : (toCrlf crChar lfChar false (feed .new body).2).isEmpty = (feed .new body).2.isEmpty := by
    cases (feed .new body).2 with
    | nil => rfl
    | cons c text =>
      rw [toCrlf]
      split <;> rfl
  dsimp only
  rw [show TextDecoder.new.bomSeen = false from rfl, htext, hempty]
  rfl

variable (rest : JsString)

theorem toCrlf_afterCr (h : rest.head? ≠ some LF) : toCrlf CR LF true rest = toCrlf CR LF false rest := by
  cases rest with
  | nil => rfl
  | cons v rest =>
    have hv : v ≠ LF := fun heq => h (by rw [heq]; rfl)
    rw [toCrlf_other _ _ _ _ _ hv, toCrlf_other _ _ _ _ _ hv]

theorem head_toCrlf (h : rest.head? ≠ some LF) : (toCrlf CR LF false rest).head? ≠ some LF := by
  cases rest with
  | nil => exact h
  | cons v rest =>
    have hv : v ≠ LF := fun heq => h (by rw [heq]; rfl)
    rw [toCrlf_other _ _ _ _ _ hv]
    simpa using hv

theorem toCrlf_lf : toCrlf CR LF false (LF :: rest) = CR :: LF :: toCrlf CR LF false rest := by
  rw [toCrlf, if_pos ⟨rfl, rfl⟩]

theorem toCrlf_crlf : toCrlf CR LF false (CR :: LF :: rest) = CR :: LF :: toCrlf CR LF false rest := by
  rw [toCrlf_other CR LF false CR _ (by decide), toCrlf, if_neg (by decide)]
  rfl

theorem toCrlf_cr (h : rest.head? ≠ some LF) : toCrlf CR LF false (CR :: rest) = CR :: toCrlf CR LF false rest := by
  rw [toCrlf_other CR LF false CR _ (by decide), decide_eq_true rfl, toCrlf_afterCr rest h]

theorem toCrlf_unit (u : UInt16) (rest : JsString) (hlf : u ≠ LF) (hcr : u ≠ CR) :
    toCrlf CR LF false (u :: rest) = u :: toCrlf CR LF false rest := by
  rw [toCrlf_other _ _ _ _ _ hlf, decide_eq_false hcr]

theorem splitLines_toCrlf (line text : JsString) : splitLines line (toCrlf CR LF false text) = splitLines line text := by
  fun_induction splitLines line text with
  | case1 line => rfl
  | case2 line u hbreak =>
    rcases hbreak with rfl | rfl
    · rw [toCrlf_lf, splitLines_crlf]
      rfl
    · rw [toCrlf_cr _ (by simp)]
      exact splitLines_cr line [] (by simp)
  | case3 line u hother =>
    rw [not_or] at hother
    rw [toCrlf_unit _ _ hother.1 hother.2]
    exact splitLines_other line [] u hother.1 hother.2
  | case4 line v rest ih => rw [toCrlf_lf, splitLines_crlf, ih]
  | case5 line rest hne ih => rw [toCrlf_crlf, splitLines_crlf, ih]
  | case6 line v rest hv hne ih =>
    have hhead : (v :: rest).head? ≠ some LF := by simpa using hv
    rw [toCrlf_cr _ hhead, splitLines_cr _ _ (head_toCrlf _ hhead), ih]
  | case7 line u v rest hlf hcr ih => rw [toCrlf_unit _ _ hlf hcr, splitLines_other _ _ _ hlf hcr, ih]

theorem replaceCrlf_toCrlf (text : JsString) : replaceCrlf (toCrlf CR LF false text) = replaceCrlf text := by
  fun_induction replaceCrlf text with
  | case1 => rfl
  | case2 u =>
    by_cases hlf : u = LF
    · rw [hlf, toCrlf_lf, replaceCrlf_crlf]
      rfl
    · rw [toCrlf_other _ _ _ _ _ hlf]
      rfl
  | case3 u v rest hcrlf ih =>
    obtain ⟨rfl, rfl⟩ := hcrlf
    rw [toCrlf_crlf, replaceCrlf_crlf, ih]
  | case4 u v rest hne ih =>
    by_cases hlf : u = LF
    · rw [hlf, toCrlf_lf, replaceCrlf_crlf, ih]
    · by_cases hcr : u = CR
      · have hhead : (v :: rest).head? ≠ some LF := by simpa using fun hv => hne ⟨hcr, hv⟩
        rw [hcr, toCrlf_cr _ hhead, replaceCrlf_other _ _ (Or.inr (head_toCrlf _ hhead)), ih]
      · rw [toCrlf_unit _ _ hlf hcr, replaceCrlf_other _ _ (Or.inl hcr), ih]

/-! ## Chunks -/

def streamLines (chunks : List Bytes) : List (JsString × Bool) := cutLines [] (marked (texts chunks))

theorem iterateSseMessages_eq :
    iterateSseMessages chunks = (decodeLines ((streamLines chunks).flatMap expand) .new).2 := by
  unfold iterateSseMessages streamLines
  rw [iterateTexts_eq _ _ _ breakless_nil, readLines_eq]

theorem iterateSseMessages_joined :
    iterateSseMessages [chunks.flatten] = (decodeLines ((streamLines chunks).map Prod.fst) .new).2 := by
  unfold iterateSseMessages streamLines
  rw [iterateTexts_eq _ _ _ breakless_nil, texts_joined, map_cutLines, map_marked]
  unfold texts readLines readLines readLines plainLines
  rw [flatten_append, flatten_singleton, splitLines_append _ _ _ (lastText_head chunks), append_assoc]

/-- However an event stream comes in chunks: the Anthropic reader reads it as in one chunk exactly when no cut within a
CR LF ends an event too early, that of pi-messages does when no CR LF is left in its buffer, and that of Codex always. With
CR LF for LF at the ends of lines, the first two read the same. -/
theorem sse_chunks {ε : Type} (jsonParse : JsString → Except ε JsonValue) (formatThrownValue : ε → JsString) :
    (∀ chunks : List Bytes,
      (iterateSseMessages chunks = iterateSseMessages [chunks.flatten] ↔ Harmless .new (streamLines chunks)) ∧
      (ReplacedOnce jsonParse (texts chunks) →
        readPiMessagesEvents jsonParse chunks = readPiMessagesEvents jsonParse [chunks.flatten]) ∧
      parseSSE jsonParse formatThrownValue chunks = parseSSE jsonParse formatThrownValue [chunks.flatten]) ∧
    ∀ body : Bytes,
      iterateSseMessages [withCrlf body] = iterateSseMessages [body] ∧
      readPiMessagesEvents jsonParse [withCrlf body] = readPiMessagesEvents jsonParse [body] := by
  refine ⟨fun chunks => ⟨?_, ?_, ?_⟩, fun body => ⟨?_, ?_⟩⟩
  · rw [iterateSseMessages_eq, iterateSseMessages_joined]
    exact expand_iff (streamLines chunks) .new
  · intro honce
    unfold readPiMessagesEvents
    rw [fold_piRead jsonParse _ honce, texts_joined,
      fold_piRead jsonParse _ (replacedOnce_joined jsonParse (chunkTexts chunks) (lastText chunks) honce)]
    unfold texts
    simp
  · unfold parseSSE
    rw [fold_codexRead, fold_codexRead, flatten_chunkTexts, flatten_chunkTexts, lastText, lastText, flatten_singleton]
  · have hlines : ∀ text last, readLines [] [toCrlf CR LF false text, last] = readLines [] [text, last] := by
      intro text last
      unfold readLines
      rw [splitLines_toCrlf]
    unfold iterateSseMessages
    rw [iterateTexts_eq _ _ _ breakless_nil, iterateTexts_eq _ _ _ breakless_nil, texts_withCrlf, hlines]
    rfl
  · have hread : ∀ text, piRead jsonParse fresh (toCrlf CR LF false text) = piRead jsonParse fresh text := by
      intro text
      unfold piRead proceed fresh
      simp only [nil_append]
      rw [replaceCrlf_toCrlf]
    unfold readPiMessagesEvents
    rw [texts_withCrlf, foldl_cons, hread]
    rfl

def cutReply : List Bytes := [[100, 97, 116, 97, 58, 49, 13], [10, 13, 10]]

def one (_ : JsString) : Except Unit JsonValue := .ok (.num 1)

theorem cutReply_texts : texts cutReply = [[100, 97, 116, 97, 58, 49, 13], [10, 13, 10], []] := by decide

theorem replacedOnce_cutReply : ReplacedOnce one (texts cutReply) := by
  have hfirst : piRead one fresh [100, 97, 116, 97, 58, 49, 13] = ⟨[], .ok [100, 97, 116, 97, 58, 49, 13]⟩ := by
    unfold piRead proceed fresh
    dsimp only
    rw [Reader.drain_more _ _ rfl]
    rfl
  have hsecond : piRead one ⟨[], .ok [100, 97, 116, 97, 58, 49, 13]⟩ [10, 13, 10] = ⟨[some (.num 1)], .ok []⟩ := by
    unfold piRead proceed
    dsimp only
    rw [Reader.drain_item _ _ (some (.num 1)) [] rfl, Reader.drain_more _ _ rfl]
    rfl
  rw [cutReply_texts]
  intro before text after heq buffer hbuffer
  match before with
  | [] =>
    obtain rfl := Except.ok.inj hbuffer
    decide
  | [a] =>
    obtain ⟨rfl, -⟩ := List.cons.inj heq
    rw [foldl_cons, foldl_nil, hfirst] at hbuffer
    obtain rfl := Except.ok.inj hbuffer
    decide
  | [a, b] =>
    obtain ⟨rfl, htail⟩ := List.cons.inj heq
    obtain ⟨rfl, -⟩ := List.cons.inj htail
    rw [foldl_cons, foldl_cons, foldl_nil, hfirst, hsecond] at hbuffer
    obtain rfl := Except.ok.inj hbuffer
    decide
  | a :: b :: c :: before =>
    have hlength := congrArg List.length heq
    simp at hlength

theorem sse_chunks_cutReply : readPiMessagesEvents one cutReply = readPiMessagesEvents one [cutReply.flatten] ∧
    readPiMessagesEvents one [withCrlf cutReply.flatten] = readPiMessagesEvents one [cutReply.flatten] :=
  ⟨((sse_chunks one (fun _ => [])).1 cutReply).2.1 replacedOnce_cutReply,
    ((sse_chunks one (fun _ => [])).2 cutReply.flatten).2⟩

/-! ## An event in two -/

def greeting : Bytes := [101, 118, 101, 110, 116, 58, 32, 97, 13, 10, 100, 97, 116, 97, 58, 32, 98, 13, 10, 13, 10]

/-- Cut within its first CR LF, one event becomes two. -/
theorem greeting_cut : iterateSseMessages [greeting] = [⟨some (js "a"), js "b", [js "event: a", js "data: b"]⟩] ∧
    [greeting.take 9, greeting.drop 9].flatten = greeting ∧
    iterateSseMessages [greeting.take 9, greeting.drop 9] =
      [⟨some (js "a"), [], [js "event: a"]⟩, ⟨none, js "b", [js "data: b"]⟩] :=
  ⟨by decide +kernel, by decide, by decide +kernel⟩

end PiAgent.Ai.Sse
