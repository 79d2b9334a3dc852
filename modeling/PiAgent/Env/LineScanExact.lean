import PiAgent.Env.LineScanProofs

/-! # Scans of whole files -/

namespace PiAgent.Env

open List Utf8

/-! ## Whole lines -/

def joinLines (ls : List (List UInt8)) : List UInt8 := [NEWLINE].intercalate ls

variable (bytes : List UInt8)

theorem joinLines_lines : joinLines (lines bytes) = bytes := intercalate_splitOn NEWLINE

theorem joinLines_cons (line : List UInt8) (ls : List (List UInt8)) (h : ls ≠ []) :
    joinLines (line :: ls) = line ++ NEWLINE :: joinLines ls := by
  unfold joinLines
  rw [intercalate_cons_of_ne_nil h]
  simp

theorem joinLines_append (a b : List (List UInt8)) (h : b ≠ []) :
    joinLines (a ++ b) = a.flatMap (fun line => line ++ [NEWLINE]) ++ joinLines b := by
  induction a with
  | nil => rfl
  | cons line a ih =>
    rw [cons_append, joinLines_cons _ _ (by simp [h]), ih]
    simp

variable (ls : List (List UInt8))

theorem flatMap_lines (h : ls ≠ []) : ls.flatMap (fun line => line ++ [NEWLINE]) = joinLines ls ++ [NEWLINE] := by
  obtain ⟨front, last, rfl⟩ : ∃ front last, ls = front ++ [last] := ⟨ls.dropLast, ls.getLast h, (dropLast_append_getLast h).symm⟩
  rw [joinLines_append _ _ (cons_ne_nil _ _), flatMap_append]
  simp [joinLines]

theorem length_flatMap_lines :
    (ls.flatMap (fun line => line ++ [NEWLINE])).length = (ls.map (fun line => line.length + 1)).sum := by
  rw [length_flatMap]
  congr 1
  exact map_congr_left (fun line _ => by simp)

theorem lines_range (first last : ℕ) (hfirst : first ≤ last) (hlast : last < (lines bytes).length) :
    (bytes.take (lineEnd bytes last)).drop (lineStart bytes first) =
      joinLines (((lines bytes).take (last + 1)).drop first) := by
  have hpre : lineStart bytes first = (((lines bytes).take first).flatMap (fun line => line ++ [NEWLINE])).length :=
    (length_flatMap_lines _).symm
  have hne : ((lines bytes).take (last + 1)).drop first ≠ [] := by
    rw [← length_pos_iff]
    rw [length_drop, length_take]
    omega
  have hsplit : (lines bytes).take (last + 1) = (lines bytes).take first ++ ((lines bytes).take (last + 1)).drop first := by
    conv_lhs => rw [← List.take_append_drop first ((lines bytes).take (last + 1))]
    rw [take_take, min_eq_left (by omega)]
  have hstop : lineEnd bytes last =
      (((lines bytes).take first).flatMap (fun line => line ++ [NEWLINE]) ++
        joinLines (((lines bytes).take (last + 1)).drop first)).length := by
    have hall := length_flatMap_lines ((lines bytes).take (last + 1))
    rw [hsplit, flatMap_append, flatMap_lines _ hne, ← hsplit] at hall
    unfold lineEnd lineStart
    rw [← hall]
    simp only [length_append, length_singleton]
    omega
  have hprefix : ((lines bytes).take first).flatMap (fun line => line ++ [NEWLINE]) ++
      joinLines (((lines bytes).take (last + 1)).drop first) <+: bytes := by
    rw [← joinLines_append _ _ hne, ← hsplit]
    conv_rhs => rw [← joinLines_lines bytes, ← List.take_append_drop (last + 1) (lines bytes)]
    by_cases hrest : (lines bytes).drop (last + 1) = []
    · simp [hrest]
    · rw [joinLines_append _ _ hrest, flatMap_lines _ (by
        rw [← length_pos_iff, length_take]
        omega), append_assoc]
      exact prefix_append _ _
  rw [hstop, prefix_iff_eq_take.mp hprefix |>.symm, hpre, drop_left]

theorem lines_mark (mark rest : List UInt8) (hmark : NEWLINE ∉ mark) :
    ∃ line ls, lines rest = line :: ls ∧ lines (mark ++ rest) = (mark ++ line) :: ls := by
  by_cases hmem : NEWLINE ∈ rest
  · obtain ⟨a, b, rfl, ha⟩ := eq_append_cons_of_mem hmem
    refine ⟨a, lines b, ?_, ?_⟩
    · rw [lines_append, lines_plain a ha]
      rfl
    · rw [← append_assoc, lines_append, lines_plain _ (by simp [hmark, ha])]
      rfl
  · exact ⟨rest, [], lines_plain rest hmem, lines_plain _ (by simp [hmark, hmem])⟩

/-! ## The text of a file -/

def newlineChar : Char := Char.ofNat NEWLINE.toNat

def bomOf (bytes : List UInt8) : List UInt8 := if startsWithBom bytes then bytes.take 3 else []

def decodeFile (bytes : List UInt8) : List Char := decode (bytes.drop (bomOf bytes).length)

def textLines (text : List Char) : List (List Char) := text.splitOn newlineChar

theorem decode_joinLines (h : ls ≠ []) : decode (joinLines ls) = [newlineChar].intercalate (ls.map decode) := by
  induction ls with
  | nil => exact absurd rfl h
  | cons line ls ih =>
    by_cases hls : ls = []
    · subst hls
      rw [map_singleton, intercalate_singleton]
      exact congrArg decode intercalate_singleton
    · rw [joinLines_cons _ _ hls, decode_ascii _ _ NEWLINE (by decide), ih hls, map_cons,
        intercalate_cons_of_ne_nil (by simpa using hls)]
      simp [newlineChar]

theorem decode_range (mark rest body : List UInt8) (hmark : NEWLINE ∉ mark) (first last : ℕ) (hfirst : first ≤ last)
    (hlast : last < (lines (mark ++ rest)).length)
    (hbody : ((mark ++ rest).take (lineEnd (mark ++ rest) last)).drop (lineStart (mark ++ rest) first) =
      markOf first mark ++ body) :
    decode body = [newlineChar].intercalate (((textLines (decode rest)).take (last + 1)).drop first) := by
  rw [lines_range _ _ _ hfirst hlast] at hbody
  obtain ⟨line, ls, hrest, hall⟩ := lines_mark mark rest hmark
  rw [hall, length_cons] at hlast
  have hjoin : body = joinLines (((lines rest).take (last + 1)).drop first) := by
    rw [hall, take_succ_cons] at hbody
    rw [hrest, take_succ_cons]
    cases first with
    | zero =>
      rw [drop_zero, markOf, if_pos rfl] at hbody
      rw [drop_zero]
      by_cases htake : ls.take last = []
      · rw [htake] at hbody ⊢
        have hone : mark ++ line = mark ++ body := intercalate_singleton.symm.trans hbody
        exact (append_cancel_left hone).symm.trans intercalate_singleton.symm
      · rw [joinLines_cons _ _ htake, append_assoc] at hbody
        rw [joinLines_cons _ _ htake]
        exact (append_cancel_left hbody).symm
    | succ first =>
      rw [drop_succ_cons, markOf, if_neg (Nat.succ_ne_zero first), nil_append] at hbody
      rw [drop_succ_cons]
      exact hbody.symm
  have htext : textLines (decode rest) = (lines rest).map decode := splitOn_decode NEWLINE (by decide) rest
  rw [hjoin, decode_joinLines, htext, map_drop, map_take]
  rw [← length_pos_iff, length_drop, length_take, hrest, length_cons]
  omega

/-! ## The scan of a whole file -/

def lastSelected (endLine : Option ℕ) (bytes : List UInt8) : ℕ :=
  endLine.elim ((lines bytes).length - 1) (fun endLine => min (endLine - 1) ((lines bytes).length - 1))

def wholeScan (startLine : ℕ) (endLine : Option ℕ) (bytes : List UInt8) : LineScan :=
  if (lines bytes).length ≤ startLine then
    ⟨(lines bytes).length - 1, bytes.length, bytes.length, bytes.length, bytes.length, 0, 0⟩
  else
    let last := lastSelected endLine bytes
    let text := textLines (decodeFile bytes)
    ⟨(lines bytes).length - 1, lineStart bytes startLine, lineEnd bytes last, lineEnd bytes startLine, lineStart bytes last,
      size ([newlineChar].intercalate ((text.take (last + 1)).drop startLine)), size (text[startLine]?.getD [])⟩

theorem take_drop_getD (text : List (List Char)) (i : ℕ) :
    [newlineChar].intercalate ((text.take (i + 1)).drop i) = text[i]?.getD [] := by
  by_cases hi : i < text.length
  · rw [take_succ_eq_append_getElem hi, drop_append, drop_eq_nil_of_le (length_take_le _ _),
      length_take, min_eq_left (le_of_lt hi), Nat.sub_self, drop_zero, nil_append,
      intercalate_singleton, getElem?_eq_getElem hi]
    rfl
  · rw [drop_eq_nil_of_le (by rw [length_take]; omega), getElem?_eq_none (by omega)]
    rfl

/-! ## Chunks -/

variable {δ : Type}

namespace LineScanner

def hold (s : LineScanner δ) (held : List UInt8) : LineScanner δ := { s with head := some held }

def unmarked (s : LineScanner δ) (bom : Bool) : LineScanner δ := { s with head := none, bom := bom }

variable [Decoding δ]

theorem releaseHead_hold (s : LineScanner δ) (held : List UInt8) :
    (s.hold held).releaseHead size = (s.unmarked (startsWithBom held)).process size held := rfl

theorem push_hold (s : LineScanner δ) (held chunk : List UInt8) : (s.hold held).push size chunk =
      if (held ++ chunk.take (min (3 - held.length) chunk.length)).length < 3 then
        s.hold (held ++ chunk.take (min (3 - held.length) chunk.length))
      else ((s.hold (held ++ chunk.take (min (3 - held.length) chunk.length))).releaseHead size).process size
        (chunk.drop (min (3 - held.length) chunk.length)) := rfl

end LineScanner

variable [Decoding δ]

structure Pushed (first : ℕ) (endLine : Option ℕ) (bytes : List UInt8) (s : LineScanner δ) : Prop where
  held : bytes.length < 3 → s = (LineScanner.started first endLine).hold bytes
  scanned : 3 ≤ bytes.length →
    Scanned first endLine (bomOf bytes) bytes s ∧ s.position = bytes.length

variable (first : ℕ) (endLine : Option ℕ)

theorem pushed_started : Pushed first endLine [] (LineScanner.started first endLine : LineScanner δ) := by
  refine ⟨fun _ => ?_, fun hlen => absurd hlen (by decide)⟩
  unfold LineScanner.started
  split <;> rfl

variable [LawfulDecoding δ]

variable (δ) in
theorem scanned_mark (mark : List UInt8) (hmark : NEWLINE ∉ mark) (bom : Bool)
    (hbom : bom = true → 3 ≤ mark.length) (hvalid : ∀ e, endLine = some e → first < e) :
    Scanned first endLine mark mark ((LineScanner.started first endLine : LineScanner δ).unmarked bom) := by
  have hlines := lines_plain mark hmark
  have hstart : lineStart mark 0 = 0 := rfl
  unfold LineScanner.started
  by_cases hfirst : first = 0
  · subst hfirst
    rw [if_pos rfl]
    have hrange : ∀ endLine, (∀ e, endLine = some e → 0 < e) →
        Tracks 0 endLine (markOf 0 mark) mark (some (Decoding.new : δ)) 0 none := by
      intro endLine hvalid
      refine ⟨fun hn => ?_, fun _ _ => ⟨rfl, [], ?_, ?_, ?_⟩, fun _ e he hlt => ?_⟩
      · rw [hlines] at hn
        exact absurd hn (by simp)
      · rw [hstart, drop_zero, markOf, if_pos rfl, append_nil]
      · rw [LawfulDecoding.feed_nil]
      · rw [LawfulDecoding.feed_nil, size_nil]
      · rw [hlines, length_singleton] at hlt
        have := hvalid e he
        omega
    refine ⟨rfl, rfl, rfl, hbom, ?_, hstart.symm, ?_, ?_, hrange _ hvalid, hrange _ (fun e he => by cases he; omega)⟩
    · rw [hlines]
      rfl
    · rw [hlines]
      rfl
    · rw [hlines]
      cases hend : endLine with
      | none => rfl
      | some e =>
        have hpos := hvalid e hend
        by_cases hone : e = 1
        · subst hone
          rfl
        · have hno : ¬ e ≤ [mark].length := by
            rw [length_singleton]
            omega
          rw [Option.bind_some, if_neg hno]
          simp [LineScanner.unmarked, LineScanner.begin, LineScanner.isLastLine, LineScanner.initial, hone]
  · rw [if_neg hfirst]
    have hrange : ∀ endLine, Tracks first endLine (markOf first mark) mark (none : Option δ) 0 none := by
      intro endLine
      refine ⟨fun _ => ⟨rfl, rfl, rfl⟩, fun hlt => ?_, fun hlt => ?_⟩ <;>
        · rw [hlines, length_singleton] at hlt
          omega
    refine ⟨rfl, rfl, rfl, hbom, ?_, hstart.symm, ?_, ?_, hrange _, hrange _⟩
    · rw [hlines]
      rfl
    · rw [hlines, if_neg (by rw [length_singleton]; omega)]
      rfl
    · rw [hlines]
      cases hend : endLine with
      | none => rfl
      | some e =>
        have hpos := hvalid e hend
        rw [Option.bind_some, if_neg (by rw [length_singleton]; omega)]
        rfl

theorem startsWithBom_iff : startsWithBom bytes = true ↔ ∃ rest, bytes = 0xef :: 0xbb :: 0xbf :: rest := by
  constructor
  · intro h
    unfold startsWithBom at h
    rcases bytes with - | ⟨a, - | ⟨b, - | ⟨c, rest⟩⟩⟩
    all_goals simp at h
    obtain ⟨⟨rfl, rfl⟩, rfl⟩ := h
    exact ⟨rest, rfl⟩
  · rintro ⟨rest, rfl⟩
    rfl

variable (δ) in
theorem scanned_releaseHead (held : List UInt8) (hlen : held.length ≤ 3)
    (hvalid : ∀ e, endLine = some e → first < e) :
    Scanned first endLine (bomOf held) held
        (((LineScanner.started first endLine : LineScanner δ).hold held).releaseHead size) ∧
      (((LineScanner.started first endLine : LineScanner δ).hold held).releaseHead size).position = held.length := by
  have hzero : (LineScanner.started first endLine : LineScanner δ).position = 0 := by
    unfold LineScanner.started
    split <;> rfl
  rw [LineScanner.releaseHead_hold]
  cases hbom : startsWithBom held with
  | false =>
    have hmark : bomOf held = [] := by
      unfold bomOf
      rw [hbom]
      rfl
    rw [hmark]
    have hbase := scanned_mark δ first endLine [] not_mem_nil false (fun h => by cases h) hvalid
    exact hbase.process _ _ _ _ _ hvalid hzero held
  | true =>
    obtain ⟨rest, rfl⟩ := (startsWithBom_iff held).mp hbom
    have hrest : rest = [] := by
      simp only [length_cons] at hlen
      exact eq_nil_of_length_eq_zero (by omega)
    subst hrest
    have hscan : ∀ s : LineScanner δ, s.bom = true → s.scanBytes 0 [0xef, 0xbb, 0xbf] = s := by
      intro s hs
      simp [LineScanner.scanBytes, LineScanner.scanByte, LineScanner.feedByte, NEWLINE, hs]
    have hbase := scanned_mark δ first endLine [0xef, 0xbb, 0xbf] (by decide) true (fun _ => le_refl _) hvalid
    generalize hs : (LineScanner.started first endLine : LineScanner δ).unmarked true = s at hbase ⊢
    have hposition : s.position = 0 := hs ▸ hzero
    unfold LineScanner.process
    rw [LineScanner.processFrom_eq, drop_zero, Nat.add_zero, hposition, hscan s (hs ▸ rfl)]
    exact ⟨hbase.position _ _ _ _ _ _, congrArg (· + 3) hposition⟩

theorem bomOf_append (a b : List UInt8) (h : 3 ≤ a.length) : bomOf (a ++ b) = bomOf a := by
  have hat : ∀ i < 3, (a ++ b)[i]? = a[i]? := fun i hi => getElem?_append_left (by omega)
  unfold bomOf startsWithBom
  rw [hat 0 (by omega), hat 1 (by omega), hat 2 (by omega), take_append_of_le_length h]

theorem report_eq (mark rest : List UInt8) (s : LineScanner δ)
    (h : Scanned first endLine mark (mark ++ rest) s) (hposition : s.position = (mark ++ rest).length)
    (hvalid : ∀ e, endLine = some e → first < e) (hmark : NEWLINE ∉ mark) (hbom : bomOf (mark ++ rest) = mark) :
    s.report size = wholeScan first endLine (mark ++ rest) := by
  have hn := h.newlines
  have hfile : decodeFile (mark ++ rest) = decode rest := by
    unfold decodeFile
    rw [hbom, drop_left]
  unfold LineScanner.report wholeScan
  rw [h.start]
  by_cases hpast : (lines (mark ++ rest)).length ≤ first
  · rw [if_neg (by omega), if_pos hpast]
    simp only [hposition]
    rw [show s.newlines = (lines (mark ++ rest)).length - 1 by omega]
  rw [if_pos (by omega), if_neg hpast]
  have hlast : first ≤ lastSelected endLine (mark ++ rest) ∧
      lastSelected endLine (mark ++ rest) < (lines (mark ++ rest)).length := by
    unfold lastSelected
    cases hend : endLine with
    | none => exact ⟨by simp only [Option.elim_none]; omega, by simp only [Option.elim_none]; omega⟩
    | some e =>
      have hlt := hvalid e hend
      exact ⟨by simp only [Option.elim_some]; omega, by simp only [Option.elim_some]; omega⟩
  obtain ⟨body, hbody, hstop, hbytes⟩ := h.selection.close _ _ _ _ _ _ _ (by omega)
    (lastSelected endLine (mark ++ rest)) rfl
  obtain ⟨line, hline, hlineEnd, hlineBytes⟩ := h.firstLine.close _ _ _ _ _ _ _ (by omega) first
    (by simp only [Option.elim_some]; omega)
  have hselected := decode_range mark rest body hmark first _ hlast.1 hlast.2 hbody
  have hfirstLine := decode_range mark rest line hmark first first (le_refl _) (by omega) hline
  rw [take_drop_getD] at hfirstLine
  have hlastStart : s.lastLineStart.getD s.lineStart =
      lineStart (mark ++ rest) (lastSelected endLine (mark ++ rest)) := by
    rw [h.lastLineStart, h.lineStart]
    unfold lastSelected
    cases hend : endLine with
    | none =>
      simp only [Option.bind_none, Option.getD_none, Option.elim_none]
      congr 1
      omega
    | some e =>
      have hlt := hvalid e hend
      simp only [Option.bind_some, Option.elim_some]
      split
      · rw [min_eq_left (by omega)]
        rfl
      · rw [min_eq_right (by omega), Option.getD_none]
        congr 1
        omega
  have hcount : s.newlines = (lines (mark ++ rest)).length - 1 := by omega
  dsimp only
  rw [hfile, ← hselected, ← hfirstLine, ← hbytes, ← hlineBytes, ← hstop, ← hlineEnd, ← hlastStart, ← hposition, ← hcount]
  cases hfirstEnd : s.firstLineEnd <;> cases hend : s.stop <;>
    simp [LineScanner.endFirstLine, LineScanner.endSelection, hfirstEnd, hend]

section

variable (bytes : List UInt8) (s : LineScanner δ) (h : Pushed first endLine bytes s)
    (hvalid : ∀ e, endLine = some e → first < e)
include h hvalid

theorem pushed_push (chunk : List UInt8) : Pushed first endLine (bytes ++ chunk) (s.push size chunk) := by
  by_cases hshort : bytes.length < 3
  · rw [h.held hshort, LineScanner.push_hold]
    split
    · rename_i hstill
      rw [length_append, length_take] at hstill
      have hall : chunk.take (min (3 - bytes.length) chunk.length) = chunk := take_of_length_le (by omega)
      refine ⟨fun _ => by rw [hall], fun hlen => ?_⟩
      rw [length_append] at hlen
      omega
    · rename_i hfull
      have hlen : (bytes ++ chunk.take (min (3 - bytes.length) chunk.length)).length = 3 := by
        rw [length_append, length_take] at hfull ⊢
        omega
      obtain ⟨hscanned, hposition⟩ := scanned_releaseHead δ first endLine _ (le_of_eq hlen) hvalid
      have hnext := hscanned.process _ _ _ _ _ hvalid hposition (chunk.drop (min (3 - bytes.length) chunk.length))
      rw [← bomOf_append _ (chunk.drop (min (3 - bytes.length) chunk.length)) (le_of_eq hlen.symm), append_assoc,
        List.take_append_drop] at hnext
      refine ⟨fun hless => ?_, fun _ => hnext⟩
      rw [length_append, length_take] at hlen
      rw [length_append] at hless
      omega
  · obtain ⟨hscanned, hposition⟩ := h.scanned (by omega)
    unfold LineScanner.push
    rw [hscanned.head]
    refine ⟨fun hless => ?_, fun _ => ?_⟩
    · rw [length_append] at hless
      omega
    · rw [bomOf_append _ _ (by omega)]
      exact hscanned.process _ _ _ _ _ hvalid hposition chunk

theorem pushed_chunks (chunks : List (List UInt8)) :
    Pushed first endLine (bytes ++ chunks.flatten) (chunks.foldl (LineScanner.push size) s) := by
  induction chunks generalizing bytes s with
  | nil => rwa [flatten_nil, append_nil]
  | cons chunk chunks ih =>
    have hnext := ih _ _ (pushed_push first endLine bytes s h hvalid chunk)
    rw [append_assoc] at hnext
    exact hnext

theorem finish_eq : s.finish size = wholeScan first endLine bytes := by
  have hmark : NEWLINE ∉ bomOf bytes ∧ bomOf bytes ++ bytes.drop (bomOf bytes).length = bytes := by
    unfold bomOf
    cases hbom : startsWithBom bytes with
    | false => exact ⟨not_mem_nil, rfl⟩
    | true =>
      obtain ⟨rest, rfl⟩ := (startsWithBom_iff bytes).mp hbom
      exact ⟨by simp [NEWLINE], rfl⟩
  have hreport : ∀ s : LineScanner δ, Scanned first endLine (bomOf bytes) bytes s → s.position = bytes.length →
      s.report size = wholeScan first endLine bytes := by
    intro s hs hposition
    rw [← hmark.2] at hs hposition ⊢
    rw [hmark.2] at hs
    have hbom : bomOf (bomOf bytes ++ bytes.drop (bomOf bytes).length) = bomOf bytes := by rw [hmark.2]
    exact report_eq first endLine (bomOf bytes) _ s (by rwa [hmark.2]) hposition hvalid hmark.1 hbom
  by_cases hshort : bytes.length < 3
  · rw [h.held hshort]
    obtain ⟨hscanned, hposition⟩ := scanned_releaseHead δ first endLine bytes (by omega) hvalid
    exact hreport _ hscanned hposition
  · obtain ⟨hscanned, hposition⟩ := h.scanned (by omega)
    unfold LineScanner.finish
    rw [hscanned.head, Option.isSome_none, if_neg Bool.false_ne_true]
    exact hreport _ hscanned hposition

end

variable (δ)

theorem daemon_scan_eq (startLine : ℕ) (endLine : Option ℕ) (hvalid : ∀ e, endLine = some e → startLine < e)
    (chunks : List (List UInt8)) : Daemon.scan δ startLine endLine chunks = wholeScan startLine endLine chunks.flatten :=
  finish_eq _ _ _ _ (pushed_chunks _ _ _ _ (pushed_started startLine endLine) hvalid chunks) hvalid

/-- Both scanners report what the whole file gives at once, however its bytes are cut into chunks, the daemon's with any
decoder of the standard. A range that is empty is refused by the one and never given to the other. -/
theorem scan_exact (startLine : ℕ) (endLine : Option ℕ) (chunks : List (List UInt8)) :
    (endLine.any (fun endLine => endLine ≤ startLine) = true →
      scan startLine endLine chunks = .error "Invalid line range") ∧
    (endLine.any (fun endLine => endLine ≤ startLine) = false →
      scan startLine endLine chunks = .ok (wholeScan startLine endLine chunks.flatten) ∧
        ∀ chunks', chunks'.flatten = chunks.flatten →
          Daemon.scan δ startLine endLine chunks' = wholeScan startLine endLine chunks.flatten) := by
  refine ⟨fun hempty => ?_, fun hrange => ?_⟩
  · unfold scan LineScanner.new
    rw [if_pos hempty]
    rfl
  · have hvalid : ∀ e, endLine = some e → startLine < e := by
      rintro e rfl
      simpa using hrange
    have hlength : (fun chars => decodedBytes (textOf chars)) = size := funext decodedBytes_textOf
    refine ⟨?_, fun chunks' heq => ?_⟩
    · unfold scan LineScanner.new
      rw [if_neg (by simp [hrange])]
      simp only [hlength]
      exact congrArg Except.ok (daemon_scan_eq Decoder startLine endLine hvalid chunks)
    · rw [daemon_scan_eq δ startLine endLine hvalid, heq]

theorem scan_exact_mark : scan 1 (some 2) [[0xef, 0xbb], [0xbf, 0x61, 0x0a, 0xe2], [0x82], [0x0a]] =
        .ok (wholeScan 1 (some 2) [0xef, 0xbb, 0xbf, 0x61, 0x0a, 0xe2, 0x82, 0x0a]) ∧
      Daemon.scan Decoder 1 (some 2) [[0xef, 0xbb, 0xbf, 0x61, 0x0a, 0xe2, 0x82, 0x0a]] =
        wholeScan 1 (some 2) [0xef, 0xbb, 0xbf, 0x61, 0x0a, 0xe2, 0x82, 0x0a] ∧
      scan 1 (some 1) [] = .error "Invalid line range" := by
  obtain ⟨hscan, hdaemon⟩ := (scan_exact Decoder 1 (some 2) [[0xef, 0xbb], [0xbf, 0x61, 0x0a, 0xe2], [0x82], [0x0a]]).2 rfl
  exact ⟨hscan, hdaemon [[0xef, 0xbb, 0xbf, 0x61, 0x0a, 0xe2, 0x82, 0x0a]] rfl, (scan_exact Decoder 1 (some 1) []).1 rfl⟩

end PiAgent.Env
