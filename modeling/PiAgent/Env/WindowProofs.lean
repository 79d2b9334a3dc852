import PiAgent.Env.Window

/-! # What the pending output holds -/

namespace PiAgent.Env.Window

open List Utf8

def joined (segments : List (Stream × List Char)) : List Char := segments.flatMap Prod.snd

@[simp] theorem joined_nil : joined [] = [] := rfl

@[simp] theorem joined_cons (segment : Stream × List Char) (segments : List (Stream × List Char)) :
    joined (segment :: segments) = segment.2 ++ joined segments := rfl

@[simp] theorem joined_append (a b : List (Stream × List Char)) : joined (a ++ b) = joined a ++ joined b :=
  flatMap_append

variable (text : List Char)

theorem newline_count_eq : newline_count text = newlines text := count_encode_newline text

def Proves (window : Window) (text : List Char) : Prop := window.max_bytes < size text ∨ window.max_lines < newlines text

theorem Proves.append {window : Window} {text : List Char} (h : Proves window text) (more : List Char) :
    Proves window (text ++ more) := by
  unfold Proves at h ⊢
  rw [size_append, newlines_append]
  omega

variable (window : Window)

theorem proves_iff (bytes newlines : ℕ) :
    proves window bytes newlines = true ↔ window.max_bytes < bytes ∨ window.max_lines < newlines := by
  unfold proves
  simp

/-! ## Whole segments -/

theorem trimSegments_spec (segments : List (Stream × List Char)) (removed : List Char) :
    ∃ (dropped : List Char) (segments' : List (Stream × List Char)),
      trimSegments window segments (size (joined segments)) (newlines (joined segments)) removed =
        (segments', size (joined segments'), newlines (joined segments'), removed ++ dropped) ∧
      joined segments = dropped ++ joined segments' ∧ (dropped = [] ∨ Proves window (joined segments')) ∧
      (segments ≠ [] → segments' ≠ []) ∧ (∀ first rest, segments' = first :: rest → rest = [] ∨ ¬ Proves window (joined rest)) := by
  induction segments generalizing removed with
  | nil => exact ⟨[], [], by simp [trimSegments], rfl, .inl rfl, id, fun _ _ h => by cases h⟩
  | cons first segments ih =>
    cases segments with
    | nil =>
      refine ⟨[], [first], by simp [trimSegments], rfl, .inl rfl, id, ?_⟩
      intro first' rest h
      exact .inl (List.cons.inj h).2.symm
    | cons second rest =>
      have hbytes : size (joined (first :: second :: rest)) - (encode first.2).length = size (joined (second :: rest)) := by
        rw [joined_cons, size_append, length_encode, Nat.add_sub_cancel_left]
      have hnewlines : newlines (joined (first :: second :: rest)) - newline_count first.2 =
          newlines (joined (second :: rest)) := by
        rw [joined_cons, newlines_append, newline_count_eq, Nat.add_sub_cancel_left]
      unfold trimSegments
      rw [hbytes, hnewlines]
      split
      · rename_i hproves
        obtain ⟨dropped, segments', hrun, hjoined, hdropped, hne, hrest⟩ := ih (removed ++ first.2)
        refine ⟨first.2 ++ dropped, segments', ?_, ?_, .inr ?_, fun _ => hne (by simp), hrest⟩
        · rw [hrun, append_assoc]
        · rw [joined_cons, hjoined, append_assoc]
        · rcases hdropped with rfl | h
          · rw [← nil_append (joined segments'), ← hjoined]
            exact (proves_iff _ _ _).mp hproves
          · exact h
      · rename_i hno
        refine ⟨[], first :: second :: rest, by rw [append_nil], rfl, .inl rfl, id, ?_⟩
        intro first' rest' h
        obtain ⟨-, rfl⟩ := List.cons.inj h
        exact .inr (fun hproves => hno ((proves_iff _ _ _).mpr hproves))

/-! ## The first segment -/

theorem positions_cons (byte : UInt8) (bytes : List UInt8) :
    positions (byte :: bytes) = (if byte = NEWLINE then [0] else []) ++ (positions bytes).map Nat.succ := by
  unfold positions
  rw [length_cons, range_succ_eq_map, filter_cons, filter_map]
  have hrest : ((fun index => decide ((byte :: bytes)[index]? = some NEWLINE)) ∘ Nat.succ) =
      fun index => decide (bytes[index]? = some NEWLINE) := by
    funext index
    simp
  rw [hrest]
  simp only [getElem?_cons_zero, Option.some.injEq, decide_eq_true_eq]
  split <;> rfl

theorem length_positions (bytes : List UInt8) : (positions bytes).length = bytes.count NEWLINE := by
  induction bytes with
  | nil => rfl
  | cons byte bytes ih =>
    rw [positions_cons, length_append, length_map, ih, count_cons, Nat.add_comm]
    simp only [beq_iff_eq]
    split <;> rfl

theorem positions_spec (bytes : List UInt8) (k index : ℕ) (h : (positions bytes)[k]? = some index) :
    index < bytes.length ∧ bytes[index]? = some NEWLINE ∧ (bytes.drop index).count NEWLINE + k = bytes.count NEWLINE := by
  induction bytes generalizing k index with
  | nil => simp [positions] at h
  | cons byte bytes ih =>
    have hlater : ∀ k' : ℕ, ((positions bytes).map Nat.succ)[k']? = some index →
        ∃ index' : ℕ, index = index' + 1 ∧ (positions bytes)[k']? = some index' := by
      intro k' hk
      rw [getElem?_map] at hk
      obtain ⟨index', hk', rfl⟩ := Option.map_eq_some_iff.mp hk
      exact ⟨index', rfl, hk'⟩
    rw [positions_cons] at h
    rcases Decidable.em (byte = NEWLINE) with rfl | hbyte
    · rw [if_pos rfl] at h
      rw [count_cons_self]
      rcases k with _ | k
      · cases h
        exact ⟨by simp, rfl, by rw [drop_zero, count_cons_self]⟩
      · obtain ⟨index', rfl, hk⟩ := hlater k h
        obtain ⟨hlt, hget, hcount⟩ := ih k index' hk
        exact ⟨by simpa using hlt, hget, by rw [drop_succ_cons]; omega⟩
    · rw [if_neg hbyte, nil_append] at h
      rw [count_cons_of_ne hbyte]
      obtain ⟨index', rfl, hk⟩ := hlater k h
      obtain ⟨hlt, hget, hcount⟩ := ih k index' hk
      exact ⟨by simpa using hlt, hget, by rw [drop_succ_cons]; omega⟩

theorem boundary_newline (index : ℕ) (h : (encode text)[index]? = some NEWLINE) : Boundary (encode text) index := by
  refine ⟨?_, fun byte hget => ?_⟩
  · have := (List.getElem?_eq_some_iff.mp h).1
    omega
  · rw [h] at hget
    cases hget
    decide

theorem cutOf_spec (first rest : List Char) (hrest : ¬ Proves window rest) :
    Boundary (encode first) (cutOf window (encode first) (size rest) (newlines rest)) ∧
    (cutOf window (encode first) (size rest) (newlines rest) = 0 ∨
      window.max_bytes < ((encode first).drop (cutOf window (encode first) (size rest) (newlines rest))).length + size rest ∨
      window.max_lines <
        ((encode first).drop (cutOf window (encode first) (size rest) (newlines rest))).count NEWLINE + newlines rest) := by
  unfold Proves at hrest
  have hcut : ∃ cut, (if (encode first).length > window.max_bytes + 1 - size rest then
        boundaryBefore (encode first) ((encode first).length - (window.max_bytes + 1 - size rest)) else 0) = cut ∧
      Boundary (encode first) cut ∧
      (cut = 0 ∨ window.max_bytes < ((encode first).drop cut).length + size rest) := by
    split
    · refine ⟨_, rfl, boundary_boundaryBefore first _ (by omega), .inr ?_⟩
      have := boundaryBefore_le (encode first) ((encode first).length - (window.max_bytes + 1 - size rest))
      rw [length_drop]
      omega
    · exact ⟨0, rfl, boundary_zero first, .inl rfl⟩
  obtain ⟨cut, heq, hboundary, hproves⟩ := hcut
  unfold cutOf
  dsimp only
  rw [heq, if_pos (by omega)]
  split
  · rename_i hmany
    -- the newline from which enough others come
    have hlt : (positions (encode first)).length - (window.max_lines + 1 - newlines rest) <
        (positions (encode first)).length := by omega
    obtain ⟨index, hget⟩ : ∃ index, (positions (encode first))[(positions (encode first)).length -
        (window.max_lines + 1 - newlines rest)]? = some index := ⟨_, getElem?_eq_getElem hlt⟩
    obtain ⟨-, hnewline, hcount⟩ := positions_spec _ _ _ hget
    rw [hget, Option.getD_some]
    rcases Nat.le_total cut index with hle | hle
    · rw [Nat.max_eq_right hle]
      refine ⟨boundary_newline first _ hnewline, .inr (.inr ?_)⟩
      rw [length_positions] at hcount hmany
      omega
    · rw [Nat.max_eq_left hle]
      exact ⟨hboundary, hproves.imp id .inl⟩
  · exact ⟨hboundary, hproves.imp id .inl⟩

theorem drain_spec (cut : ℕ) (h : Boundary (encode text) cut) :
    text = (drain text cut).1 ++ (drain text cut).2 ∧ encode (drain text cut).2 = (encode text).drop cut := by
  obtain ⟨a, b, rfl, rfl⟩ := h.split
  unfold drain
  rw [encode_append, take_left, drop_left, decode_encode, decode_encode]
  exact ⟨rfl, rfl⟩

/-! ## The pending output -/

structure Holds (p : Pending) (omitted : List Char) : Prop where
  bytes : p.bytes = size (joined p.segments)
  newlines : p.newlines = Env.newlines (joined p.segments)
  skipped : p.skipped = addSkipped none omitted
  proves : omitted = [] ∨ Proves p.window (joined p.segments)

theorem holds_new : Holds (.new window) [] := ⟨rfl, rfl, rfl, .inl rfl⟩

theorem addSkipped_nil (skipped : Option Skipped) : addSkipped skipped [] = skipped := rfl

theorem addSkipped_none (h : text ≠ []) :
    addSkipped none text = some ⟨size text, newlines text, ends_with_newline text⟩ := by
  unfold addSkipped
  rw [if_neg (by simpa using h), length_encode, newline_count_eq]
  simp

theorem addSkipped_append (a b : List Char) : addSkipped (addSkipped none a) b = addSkipped none (a ++ b) := by
  rcases b.eq_nil_or_concat' with rfl | ⟨init, c, hb⟩
  · rw [append_nil, addSkipped_nil]
  · have hne : b ≠ [] := by rw [hb]; simp
    have hends : ends_with_newline (a ++ b) = ends_with_newline b := by
      unfold ends_with_newline
      rw [getLast?_append_of_ne_nil _ hne]
    rcases Decidable.em (a = []) with rfl | ha
    · rfl
    · rw [addSkipped_none a ha, addSkipped_none (a ++ b) (by simp [ha]), hends, size_append, newlines_append]
      unfold addSkipped
      rw [if_neg (by simpa using hne), length_encode, newline_count_eq]
      rfl

theorem Holds.trim {p : Pending} {omitted : List Char} (h : Holds p omitted) (hne : p.segments ≠ []) :
    ∃ omitted', Holds p.trim omitted' ∧ p.trim.window = p.window ∧
      omitted' ++ joined p.trim.segments = omitted ++ joined p.segments := by
  obtain ⟨hbytes, hnewlines, hskipped, hproves⟩ := h
  obtain ⟨dropped, segments', hrun, hjoined, hdropped, hsome, hrest⟩ := trimSegments_spec p.window p.segments []
  obtain ⟨⟨stream, first⟩, rest, rfl⟩ := exists_cons_of_ne_nil (hsome hne)
  unfold Pending.trim
  rw [hbytes, hnewlines, hrun, nil_append]
  dsimp only
  have hcutBytes : size (joined ((stream, first) :: rest)) - (encode first).length = size (joined rest) := by
    rw [joined_cons, size_append, length_encode, Nat.add_sub_cancel_left]
  have hcutNewlines : Env.newlines (joined ((stream, first) :: rest)) - newline_count first = Env.newlines (joined rest) := by
    rw [joined_cons, newlines_append, newline_count_eq, Nat.add_sub_cancel_left]
  have hfew : ¬ Proves p.window (joined rest) := by
    rcases hrest _ _ rfl with rfl | hno
    · unfold Proves
      simp
    · exact hno
  rw [hcutBytes, hcutNewlines]
  obtain ⟨hboundary, hcut⟩ := cutOf_spec p.window first (joined rest) hfew
  have hkept : omitted = [] ∨ dropped ≠ [] ∨ Proves p.window (joined ((stream, first) :: rest)) := by
    rcases hproves with rfl | hproves
    · exact .inl rfl
    · rcases Decidable.em (dropped = []) with rfl | hd
      · exact .inr (.inr (by rwa [hjoined] at hproves))
      · exact .inr (.inl hd)
  split
  · rename_i hpos
    obtain ⟨htext, hleft⟩ := drain_spec first _ hboundary
    generalize drain first (cutOf p.window (encode first) (size (joined rest)) (Env.newlines (joined rest))) = drained
      at htext hleft ⊢
    obtain ⟨taken, left⟩ := drained
    dsimp only at htext hleft ⊢
    have hleftJoined : joined (if left.isEmpty then rest else (stream, left) :: rest) = left ++ joined rest := by
      split
      · rename_i hempty
        rw [List.isEmpty_iff.mp hempty]
        rfl
      · rfl
    refine ⟨omitted ++ (dropped ++ taken), ⟨?_, ?_, ?_, ?_⟩, rfl, ?_⟩
    · dsimp only
      rw [hleftJoined, joined_cons, htext, size_append, size_append, size_append, length_encode]
      omega
    · dsimp only
      rw [hleftJoined, joined_cons, htext, newlines_append, newlines_append, newlines_append, newline_count_eq]
      omega
    · dsimp only
      rw [hskipped, addSkipped_append]
    · refine .inr ?_
      dsimp only
      rw [hleftJoined]
      unfold Proves
      rw [size_append, newlines_append, ← length_encode, ← count_encode_newline left, hleft]
      exact hcut.resolve_left (by omega)
    · rw [hleftJoined, hjoined, joined_cons, htext]
      simp
  · refine ⟨omitted ++ dropped, ⟨rfl, rfl, ?_, ?_⟩, rfl, ?_⟩
    · dsimp only
      rw [hskipped, addSkipped_append]
    · dsimp only
      rcases hdropped with rfl | hd
      · rcases hkept with rfl | hno | hp
        · exact .inl rfl
        · exact absurd rfl hno
        · exact .inr hp
      · exact .inr hd
    · dsimp only
      rw [hjoined, append_assoc]

theorem pushSegment_spec (segments : List (Stream × List Char)) (stream : Stream) (text : List Char) :
    joined (pushSegment segments stream text) = joined segments ++ text ∧ pushSegment segments stream text ≠ [] := by
  unfold pushSegment
  rcases segments.eq_nil_or_concat' with rfl | ⟨init, ⟨last, existing⟩, rfl⟩
  · simp
  · rw [getLast?_concat]
    dsimp only
    split
    · simp
    · simp

theorem Holds.push {p : Pending} {omitted : List Char} (h : Holds p omitted) (stream : Stream) (text : List Char) :
    ∃ omitted', Holds (p.push stream text) omitted' ∧ (p.push stream text).window = p.window ∧
      omitted' ++ joined (p.push stream text).segments = omitted ++ joined p.segments ++ text := by
  obtain ⟨hbytes, hnewlines, hskipped, hproves⟩ := h
  unfold Pending.push
  split
  · rename_i hempty
    exact ⟨omitted, ⟨hbytes, hnewlines, hskipped, hproves⟩, rfl, by rw [List.isEmpty_iff.mp hempty, append_nil]⟩
  · obtain ⟨hjoined, hne⟩ := pushSegment_spec p.segments stream text
    have hmore : Holds { p with segments := pushSegment p.segments stream text, bytes := p.bytes + (encode text).length
                                newlines := p.newlines + newline_count text } omitted := by
      refine ⟨?_, ?_, hskipped, ?_⟩
      · dsimp only
        rw [hjoined, size_append, hbytes, length_encode]
      · dsimp only
        rw [hjoined, newlines_append, hnewlines, newline_count_eq]
      · dsimp only
        rw [hjoined]
        exact hproves.imp id (fun hp => hp.append text)
    dsimp only
    split
    · obtain ⟨omitted', hholds, hwindow, heq⟩ := hmore.trim hne
      refine ⟨omitted', hholds, hwindow, ?_⟩
      rw [heq]
      dsimp only
      rw [hjoined, append_assoc]
    · exact ⟨omitted, hmore, rfl, by rw [hjoined, append_assoc]⟩

end PiAgent.Env.Window
