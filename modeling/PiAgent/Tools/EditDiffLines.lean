import Mathlib.Data.List.TakeWhile
import PiAgent.Tools.EditDiff

/-! # Replacements line by line -/

namespace PiAgent.Tools

open List Durable

/-! ## Lines with their endings -/

theorem flatten_splitLinesWithEndings (content : JsString) : (splitLinesWithEndings content).flatten = content := by
  induction content with
  | nil => rfl
  | cons c rest ih =>
    unfold splitLinesWithEndings
    split
    · rw [flatten_cons, ih]
      rfl
    · split
      · rename_i hlines
        rw [hlines] at ih
        rw [← ih]
        rfl
      · rename_i line lines hlines
        rw [hlines] at ih
        rw [← ih]
        rfl

def offsetOf (lines : List JsString) (k : ℕ) : ℕ := (lines.take k).flatten.length

variable (lines : List JsString)

variable (a b : ℕ)

theorem offsetOf_mono (h : a ≤ b) : offsetOf lines a ≤ offsetOf lines b := by
  unfold offsetOf
  obtain ⟨k, rfl⟩ := Nat.exists_eq_add_of_le h
  rw [take_add, flatten_append, length_append]
  exact Nat.le_add_right _ _

theorem offsetOf_length : offsetOf lines lines.length = lines.flatten.length := by
  unfold offsetOf
  rw [take_length]

variable (offset : ℕ)

theorem lineSpansFrom_spec (lines : List JsString) (k : ℕ) : (lineSpansFrom offset lines)[k]? =
      if k < lines.length then some ⟨offset + offsetOf lines k, offset + offsetOf lines (k + 1)⟩ else none := by
  induction lines generalizing offset k with
  | nil => simp [lineSpansFrom]
  | cons line lines ih =>
    unfold lineSpansFrom
    rcases k with _ | k
    · simp [offsetOf]
    · rw [getElem?_cons_succ, ih, length_cons]
      unfold offsetOf
      simp only [take_succ_cons, flatten_cons, length_append, Nat.add_lt_add_iff_right, Nat.add_assoc]

theorem length_lineSpansFrom (lines : List JsString) : (lineSpansFrom offset lines).length = lines.length := by
  induction lines generalizing offset with
  | nil => rfl
  | cons line lines ih =>
    unfold lineSpansFrom
    rw [length_cons, ih, length_cons]

theorem lineSpan_spec (k : ℕ) (h : k < lines.length) :
    (lineSpansFrom 0 lines)[k]? = some ⟨offsetOf lines k, offsetOf lines (k + 1)⟩ := by
  rw [lineSpansFrom_spec, if_pos h, Nat.zero_add, Nat.zero_add]

/-! ## The lines of a replacement -/

def MatchedEdit.splice (edit : MatchedEdit) : Splice UInt16 := ⟨edit.matchIndex, edit.matchLength, edit.newText⟩

structure Spans (lines : List JsString) (s : Splice UInt16) (range : LineRange) : Prop where
  lt : range.startLine < range.endLine
  le : range.endLine ≤ lines.length
  start : offsetOf lines range.startLine ≤ s.start
  startLine : s.start < offsetOf lines (range.startLine + 1)
  stop : s.stop ≤ offsetOf lines range.endLine
  endLine : offsetOf lines (range.endLine - 1) < s.stop

theorem getReplacementLineRange_spec (edit : MatchedEdit) (hpos : 0 < edit.matchLength)
    (hstop : edit.splice.stop ≤ lines.flatten.length) :
    ∃ range, getReplacementLineRange (lineSpansFrom 0 lines) edit = .ok range ∧ Spans lines edit.splice range := by
  have hstopEq : edit.splice.stop = edit.matchIndex + edit.matchLength := rfl
  unfold getReplacementLineRange
  dsimp only
  split
  · -- the index is in some line
    rename_i hnone
    exfalso
    rw [findIdx?_eq_none_iff] at hnone
    have hbefore : ∀ k ≤ lines.length, offsetOf lines k ≤ edit.matchIndex := by
      intro k
      induction k with
      | zero => exact fun _ => Nat.zero_le _
      | succ k ih =>
        intro hk
        have hmem := mem_of_getElem? (lineSpan_spec lines k hk)
        have hno := hnone _ hmem
        have hle := ih (by omega)
        simp only [Bool.and_eq_false_iff, decide_eq_false_iff_not, ge_iff_le] at hno
        omega
    have := hbefore lines.length (Nat.le_refl _)
    rw [offsetOf_length] at this
    omega
  · rename_i startLine hfound
    obtain ⟨hlt, hin, -⟩ := findIdx?_eq_some_iff_getElem.mp hfound
    rw [length_lineSpansFrom] at hlt
    have hspan := lineSpan_spec lines startLine hlt
    rw [List.getElem_of_getElem? hspan |>.2] at hin
    simp only [Bool.and_eq_true, decide_eq_true_eq, ge_iff_le] at hin
    -- the lines that end before the range does, and what comes after them
    obtain ⟨short, more, hshort, hmore, hsplit⟩ : ∃ short more,
        ((lineSpansFrom 0 lines).drop startLine).takeWhile (fun line => line.stop < edit.matchIndex + edit.matchLength) = short ∧
        ((lineSpansFrom 0 lines).drop startLine).dropWhile (fun line => line.stop < edit.matchIndex + edit.matchLength) = more ∧
        (lineSpansFrom 0 lines).drop startLine = short ++ more :=
      ⟨_, _, rfl, rfl, takeWhile_append_dropWhile.symm⟩
    have hlength := congrArg List.length hsplit
    rw [length_drop, length_lineSpansFrom, length_append] at hlength
    have hget : ∀ k, (short ++ more)[k]? = (lineSpansFrom 0 lines)[startLine + k]? := by
      intro k
      rw [← hsplit, getElem?_drop]
    have hends : ∀ k < short.length, offsetOf lines (startLine + k + 1) < edit.splice.stop := by
      intro k hk
      have hat := hget k
      rw [lineSpan_spec lines _ (by omega), getElem?_append_left hk] at hat
      have hmem := mem_of_getElem? hat
      rw [← hshort] at hmem
      simpa [hstopEq] using mem_takeWhile_imp hmem
    rw [hshort, length_lineSpansFrom]
    have hinside : startLine + short.length < lines.length := by
      by_contra hout
      have hall := hends (lines.length - 1 - startLine) (by omega)
      rw [show startLine + (lines.length - 1 - startLine) + 1 = lines.length by omega, offsetOf_length] at hall
      omega
    rw [if_neg (by omega)]
    refine ⟨_, rfl, ⟨by dsimp only; omega, hinside, hin.1, hin.2, ?_, ?_⟩⟩
    · -- the first line that does not end before
      have hat := hget short.length
      rw [lineSpan_spec lines _ hinside, getElem?_append_right (Nat.le_refl _), Nat.sub_self, ← head?_eq_getElem?] at hat
      have hno := head?_dropWhile_not (fun line : LineSpan => decide (line.stop < edit.matchIndex + edit.matchLength))
        ((lineSpansFrom 0 lines).drop startLine)
      rw [hmore, hat] at hno
      simp only [decide_eq_false_iff_not, Nat.not_lt] at hno
      exact hno
    · show offsetOf lines (startLine + short.length) < edit.splice.stop
      rcases Nat.eq_zero_or_pos short.length with hzero | hsome
      · rw [hzero, Nat.add_zero]
        omega
      · have hlast := hends (short.length - 1) (by omega)
        rwa [show startLine + (short.length - 1) + 1 = startLine + short.length by omega] at hlast

/-! ## Groups -/

structure GroupOk (lines : List JsString) (group : Group) : Prop where
  lt : group.startLine < group.endLine
  le : group.endLine ≤ lines.length
  inside : ∀ edit ∈ group.replacements, offsetOf lines group.startLine ≤ edit.splice.start ∧
    edit.splice.stop ≤ offsetOf lines group.endLine
  touched : ∀ k, group.startLine ≤ k → k < group.endLine → ∃ edit ∈ group.replacements,
    edit.splice.start < offsetOf lines (k + 1) ∧ offsetOf lines k < edit.splice.stop

variable {lines : List JsString}

theorem Spans.touched {s : Splice UInt16} {range : LineRange} (h : Spans lines s range) (k : ℕ)
    (hstart : range.startLine ≤ k) (hend : k < range.endLine) : s.start < offsetOf lines (k + 1) ∧ offsetOf lines k < s.stop := by
  have h1 := h.startLine
  have h2 := h.endLine
  have h3 := offsetOf_mono lines (range.startLine + 1) (k + 1) (by omega)
  have h4 := offsetOf_mono lines k (range.endLine - 1) (by omega)
  omega

theorem groupOk_single {edit : MatchedEdit} {range : LineRange} (h : Spans lines edit.splice range) :
    GroupOk lines ⟨range.startLine, range.endLine, [edit]⟩ := by
  refine ⟨h.lt, h.le, ?_, fun k h1 h2 => ⟨edit, mem_singleton_self _, h.touched k h1 h2⟩⟩
  intro other hmem
  rw [mem_singleton.mp hmem]
  exact ⟨h.start, h.stop⟩

theorem groupOk_more {group : Group} (hgroup : GroupOk lines group) {edit : MatchedEdit}
    {range : LineRange} (h : Spans lines edit.splice range) (hmeet : range.startLine < group.endLine)
    (hsorted : ∀ other ∈ group.replacements, other.splice.start ≤ edit.splice.start) :
    GroupOk lines { group with endLine := max group.endLine range.endLine, replacements := group.replacements ++ [edit] } := by
  have hlt := hgroup.lt
  have hmax := Nat.le_max_left group.endLine range.endLine
  have hmax' := Nat.le_max_right group.endLine range.endLine
  refine ⟨by dsimp only; omega, Nat.max_le.mpr ⟨hgroup.le, h.le⟩, ?_, ?_⟩
  · intro other hmem
    dsimp only
    rcases mem_append.mp hmem with hmem | hmem
    · have h1 := hgroup.inside other hmem
      have h2 := offsetOf_mono lines _ _ hmax
      omega
    · rw [mem_singleton.mp hmem]
      -- the group begins with the line of an earlier replacement
      obtain ⟨first, hfirst, -, -⟩ := hgroup.touched group.startLine (Nat.le_refl _) hlt
      have h1 := hgroup.inside first hfirst
      have h2 := hsorted first hfirst
      have h3 := offsetOf_mono lines _ _ hmax'
      have h4 := h.stop
      omega
  · intro k h1 h2
    dsimp only at h1 h2 ⊢
    rcases Nat.lt_or_ge k group.endLine with hold | hnew
    · obtain ⟨other, hmem, htouch⟩ := hgroup.touched k h1 hold
      exact ⟨other, mem_append_left _ hmem, htouch⟩
    · have hk : k < range.endLine := by
        rcases Nat.le_total group.endLine range.endLine with hle | hle
        · rwa [Nat.max_eq_right hle] at h2
        · rw [Nat.max_eq_left hle] at h2
          omega
      exact ⟨edit, mem_append_right _ (mem_singleton_self _), h.touched k (by omega) hk⟩

inductive Groups (lines : List JsString) : ℕ → List Group → List MatchedEdit → Prop where
  | nil (line : ℕ) (h : line ≤ lines.length) : Groups lines line [] []
  | cons (line : ℕ) (group : Group) (groups : List Group) (rest : List MatchedEdit) (h : line ≤ group.startLine)
      (hgroup : GroupOk lines group) (hrest : Groups lines group.endLine groups rest) :
      Groups lines line (group :: groups) (group.replacements ++ rest)

variable (lines : List JsString) (edits : List MatchedEdit)

section

variable (hpos : ∀ edit ∈ edits, 0 < edit.matchLength ∧ edit.splice.stop ≤ lines.flatten.length)
    (hsorted : edits.Pairwise (fun a b => a.splice.start ≤ b.splice.start))
include hpos hsorted

theorem collectGroups_some (line : ℕ) (group : Group) (hgroup : GroupOk lines group)
    (hline : line ≤ group.startLine)
    (hbefore : ∀ a ∈ group.replacements, ∀ b ∈ edits, a.splice.start ≤ b.splice.start) :
    ∃ groups, collectGroups (lineSpansFrom 0 lines) (some group) edits = .ok groups ∧
      Groups lines line groups (group.replacements ++ edits) := by
  induction edits generalizing line group with
  | nil => exact ⟨[group], rfl, .cons line group [] [] hline hgroup (.nil _ hgroup.le)⟩
  | cons edit edits ih =>
    obtain ⟨hfirst, hsorted'⟩ := pairwise_cons.mp hsorted
    obtain ⟨hpos1, hstop1⟩ := hpos edit mem_cons_self
    obtain ⟨range, hrange, hspans⟩ := getReplacementLineRange_spec lines edit hpos1 hstop1
    have hpos' : ∀ other ∈ edits, 0 < other.matchLength ∧ other.splice.stop ≤ lines.flatten.length :=
      fun other hmem => hpos other (mem_cons_of_mem _ hmem)
    unfold collectGroups
    rw [hrange]
    dsimp only
    split
    · rename_i hmeet
      have hmore := groupOk_more hgroup hspans hmeet (fun other hmem => hbefore other hmem edit mem_cons_self)
      have hbefore' : ∀ a ∈ group.replacements ++ [edit], ∀ b ∈ edits, a.splice.start ≤ b.splice.start := by
        intro a ha b hb
        rcases mem_append.mp ha with ha | ha
        · exact hbefore a ha b (mem_cons_of_mem _ hb)
        · rw [mem_singleton.mp ha]
          exact hfirst b hb
      obtain ⟨groups, hrun, hgroups⟩ := ih hpos' hsorted' line _ hmore hline hbefore'
      refine ⟨groups, hrun, ?_⟩
      rwa [append_assoc] at hgroups
    · rename_i hapart
      obtain ⟨groups, hrun, hgroups⟩ := ih hpos' hsorted' group.endLine _ (groupOk_single hspans) (by dsimp only; omega)
        (fun a ha b hb => by rw [mem_singleton.mp ha]; exact hfirst b hb)
      refine ⟨group :: groups, by rw [hrun]; rfl, ?_⟩
      exact .cons line group groups _ hline hgroup hgroups

theorem collectGroups_none :
    ∃ groups, collectGroups (lineSpansFrom 0 lines) none edits = .ok groups ∧ Groups lines 0 groups edits := by
  cases edits with
  | nil => exact ⟨[], rfl, .nil 0 (Nat.zero_le _)⟩
  | cons edit edits =>
    obtain ⟨hfirst, hsorted'⟩ := pairwise_cons.mp hsorted
    obtain ⟨hpos1, hstop1⟩ := hpos edit mem_cons_self
    obtain ⟨range, hrange, hspans⟩ := getReplacementLineRange_spec lines edit hpos1 hstop1
    unfold collectGroups
    rw [hrange]
    exact collectGroups_some lines edits (fun other hmem => hpos other (mem_cons_of_mem _ hmem)) hsorted' 0 _
      (groupOk_single hspans) (Nat.zero_le _) (fun a ha b hb => by rw [mem_singleton.mp ha]; exact hfirst b hb)

end

/-! ## Rewriting groups -/

theorem flatten_take (k : ℕ) : (lines.take k).flatten = lines.flatten.take (offsetOf lines k) := by
  have hsplit : lines.flatten = (lines.take k).flatten ++ (lines.drop k).flatten := by
    rw [← flatten_append, List.take_append_drop]
  unfold offsetOf
  rw [hsplit, take_left]

theorem flatten_slice (a b : ℕ) (h : a ≤ b) :
    ((lines.take b).drop a).flatten = (lines.flatten.take (offsetOf lines b)).drop (offsetOf lines a) := by
  have hsplit : (lines.take b).flatten = (lines.take a).flatten ++ ((lines.take b).drop a).flatten := by
    rw [← flatten_append]
    congr 1
    have htake := List.take_append_drop a (lines.take b)
    rw [take_take, Nat.min_eq_left h] at htake
    exact htake.symm
  rw [← flatten_take, hsplit]
  unfold offsetOf
  rw [drop_left]

theorem length_slice (a b : ℕ) (h : a ≤ b) :
    offsetOf lines a + ((lines.take b).drop a).flatten.length = offsetOf lines b := by
  have hsplit := congrArg List.flatten (List.take_append_drop a (lines.take b))
  rw [take_take, Nat.min_eq_left h, flatten_append] at hsplit
  have hlength := congrArg List.length hsplit
  rw [length_append] at hlength
  exact hlength

theorem applyReplacements_eq (content : JsString) (replacements : List MatchedEdit) (offset : ℕ) :
    applyReplacements content replacements offset = spliceAll offset (replacements.map MatchedEdit.splice) content := by
  unfold applyReplacements spliceAll
  rw [foldr_map]
  rfl

theorem groups_start {lines : List JsString} {line : ℕ} {groups : List Group} {edits : List MatchedEdit}
    (h : Groups lines line groups edits) : line ≤ lines.length ∧ ∀ edit ∈ edits, offsetOf lines line ≤ edit.splice.start := by
  induction h with
  | nil line h => exact ⟨h, by simp⟩
  | cons line group groups rest h hgroup hrest ih =>
    have hlt := hgroup.lt
    have hle := hgroup.le
    refine ⟨by omega, fun edit hmem => ?_⟩
    have h1 := offsetOf_mono lines line group.startLine h
    have h2 := offsetOf_mono lines group.startLine group.endLine (by omega)
    rcases mem_append.mp hmem with hmem | hmem
    · have := (hgroup.inside edit hmem).1
      omega
    · have := ih.2 edit hmem
      omega

section Group

variable {lines original : List JsString} {group : Group} {before rest : List MatchedEdit} (hgroup : GroupOk lines group)
  (hordered : Ordered ((before ++ group.replacements ++ rest).map MatchedEdit.splice))
  (hbefore : ∀ edit ∈ before, edit.splice.stop ≤ offsetOf lines group.startLine)
  (hrest : ∀ edit ∈ rest, offsetOf lines group.endLine ≤ edit.splice.start)

include hgroup in
theorem group_touched (front : List JsString) (line : JsString) (back : List JsString)
    (hsplit : (lines.take group.endLine).drop group.startLine = front ++ line :: back) :
    touched ((before ++ group.replacements ++ rest).map MatchedEdit.splice)
      (offsetOf lines group.startLine + front.flatten.length)
      (offsetOf lines group.startLine + front.flatten.length + line.length) = true := by
  have hlt := hgroup.lt
  have hle := hgroup.le
  have hlength := congrArg List.length hsplit
  rw [length_drop, length_take, length_append, length_cons, Nat.min_eq_left hle] at hlength
  -- the lines of the group up to some of them
  have hpart : ∀ n ≤ (front ++ line :: back).length, offsetOf lines (group.startLine + n) =
      offsetOf lines group.startLine + ((front ++ line :: back).take n).flatten.length := by
    intro n hn
    rw [length_append, length_cons] at hn
    rw [← length_slice lines group.startLine (group.startLine + n) (by omega), ← hsplit, drop_take, drop_take,
      take_take, Nat.add_sub_cancel_left, Nat.min_eq_left (by omega)]
  have hoffset := hpart front.length (by simp)
  have hoffset' := hpart (front.length + 1) (by simp)
  rw [take_left] at hoffset
  rw [take_append, take_of_length_le (by omega), Nat.add_sub_cancel_left, take_succ_cons, take_zero,
    flatten_append, flatten_singleton, length_append] at hoffset'
  obtain ⟨edit, hmem, h1, h2⟩ := hgroup.touched (group.startLine + front.length) (by omega) (by omega)
  rw [Nat.add_assoc, hoffset'] at h1
  rw [hoffset] at h2
  unfold touched
  rw [any_eq_true]
  refine ⟨edit.splice, mem_map_of_mem (mem_append_left _ (mem_append_right _ hmem)), ?_⟩
  simp only [Bool.and_eq_true, decide_eq_true_eq]
  exact ⟨by omega, h2⟩

include hgroup hordered hbefore hrest in
theorem group_weave (hlines : original.length = lines.length) :
    weave ((before ++ group.replacements ++ rest).map MatchedEdit.splice) (offsetOf lines group.startLine)
      ((lines.take group.endLine).drop group.startLine) ((original.take group.endLine).drop group.startLine) =
    applyReplacements ((lines.flatten.take (offsetOf lines group.endLine)).drop (offsetOf lines group.startLine))
      group.replacements (offsetOf lines group.startLine) := by
  have hlt := hgroup.lt
  have hslice := length_slice lines group.startLine group.endLine (by omega)
  have hpos : ∀ edit ∈ before ++ group.replacements ++ rest, 0 < edit.splice.length :=
    fun edit hmem => hordered.2 _ (mem_map_of_mem hmem)
  rw [weave_touched _ _ _ _ (by simp [hlines]) (group_touched hgroup), applyReplacements_eq,
    ← flatten_slice lines _ _ (by omega), map_append, map_append]
  rw [spliced_outside _ _ _ _ _ (fun s hs => ?_) (fun s hs => ?_)]
  · refine (spliceAll_eq _ _ _ ⟨?_, fun s hs => ?_⟩ (fun s hs => ?_)).symm
    · have hpairs := hordered.1
      rw [map_append, map_append] at hpairs
      exact (pairwise_append.mp (pairwise_append.mp hpairs).1).2.1
    · obtain ⟨edit, hmem, rfl⟩ := mem_map.mp hs
      exact hpos edit (mem_append_left _ (mem_append_right _ hmem))
    · obtain ⟨edit, hmem, rfl⟩ := mem_map.mp hs
      have hin := hgroup.inside edit hmem
      rw [hslice]
      exact hin
  · obtain ⟨edit, hmem, rfl⟩ := mem_map.mp hs
    exact ⟨hpos edit (mem_append_left _ (mem_append_left _ hmem)), .inl (hbefore edit hmem)⟩
  · obtain ⟨edit, hmem, rfl⟩ := mem_map.mp hs
    refine ⟨hpos edit (mem_append_right _ hmem), .inr ?_⟩
    rw [hslice]
    exact hrest edit hmem

end Group

theorem assemble_eq (lines original : List JsString) (hlines : original.length = lines.length) (line : ℕ)
    (groups : List Group) (edits : List MatchedEdit) (h : Groups lines line groups edits) (before : List MatchedEdit)
    (hbefore : ∀ edit ∈ before, edit.splice.stop ≤ offsetOf lines line)
    (hordered : Ordered ((before ++ edits).map MatchedEdit.splice)) :
    assemble original lines.flatten (lineSpansFrom 0 lines) line groups =
      weave ((before ++ edits).map MatchedEdit.splice) (offsetOf lines line) (lines.drop line) (original.drop line) := by
  induction h generalizing before with
  | nil line h =>
    rw [weave_untouched _ _ _ _ (by simp [hlines])]
    · rfl
    · intro s hs
      rw [append_nil] at hs
      obtain ⟨edit, hmem, rfl⟩ := mem_map.mp hs
      exact .inl (hbefore edit hmem)
  | cons line group groups rest h hgroup hrest ih =>
    have hlt := hgroup.lt
    have hle := hgroup.le
    have hmono := offsetOf_mono lines line group.startLine h
    have hmono' := offsetOf_mono lines group.startLine group.endLine (by omega)
    have hstart := length_slice lines line group.startLine h
    have hend := length_slice lines group.startLine group.endLine (by omega)
    rw [← append_assoc] at hordered ⊢
    have hbefore' : ∀ edit ∈ before, edit.splice.stop ≤ offsetOf lines group.startLine := fun edit hmem =>
      Nat.le_trans (hbefore edit hmem) hmono
    have hafter := (groups_start hrest).2
    -- the lines before the group, its lines, and the lines after it
    have hparts : ∀ all : List JsString, all.length = lines.length → all.drop line =
        (all.take group.startLine).drop line ++ ((all.take group.endLine).drop group.startLine ++ all.drop group.endLine) := by
      intro all hall
      have h1 := List.take_append_drop (group.endLine - group.startLine) (all.drop group.startLine)
      have h2 := List.take_append_drop (group.startLine - line) (all.drop line)
      rw [drop_drop, show group.startLine + (group.endLine - group.startLine) = group.endLine by omega] at h1
      rw [drop_drop, show line + (group.startLine - line) = group.startLine by omega] at h2
      rw [drop_take, drop_take, h1, h2]
    have hrun : assemble original lines.flatten (lineSpansFrom 0 lines) group.endLine groups =
        weave ((before ++ group.replacements ++ rest).map MatchedEdit.splice) (offsetOf lines group.endLine)
          (lines.drop group.endLine) (original.drop group.endLine) := by
      refine ih (before ++ group.replacements) (fun edit hmem => ?_) hordered
      rcases mem_append.mp hmem with hmem | hmem
      · exact Nat.le_trans (hbefore' edit hmem) hmono'
      · exact (hgroup.inside edit hmem).2
    have huntouched : weave ((before ++ group.replacements ++ rest).map MatchedEdit.splice) (offsetOf lines line)
        ((lines.take group.startLine).drop line) ((original.take group.startLine).drop line) =
          ((original.take group.startLine).drop line).flatten := by
      refine weave_untouched _ _ _ _ (by simp [hlines]) (fun s hs => ?_)
      obtain ⟨edit, hmem, rfl⟩ := mem_map.mp hs
      rw [hstart]
      rcases mem_append.mp hmem with hmem | hmem
      · rcases mem_append.mp hmem with hmem | hmem
        · exact .inl (hbefore edit hmem)
        · exact .inr (hgroup.inside edit hmem).1
      · exact .inr (Nat.le_trans hmono' (hafter edit hmem))
    unfold assemble
    rw [lineSpan_spec lines group.startLine (by omega), lineSpan_spec lines (group.endLine - 1) (by omega),
      Nat.sub_add_cancel (by omega), hrun]
    dsimp only [Option.map_some, Option.getD_some]
    rw [hparts lines rfl, hparts original hlines, weave_append _ _ _ _ _ _ (by simp [hlines]), hstart,
      weave_append _ _ _ _ _ _ (by simp [hlines]), hend, huntouched, group_weave hgroup hordered hbefore' hafter hlines,
      append_assoc]

theorem applyReplacementsPreservingUnchangedLines_eq (original base : JsString) (edits : List MatchedEdit)
    (hlines : (splitLinesWithEndings original).length = (splitLinesWithEndings base).length)
    (hsorted : edits.insertionSort byMatchIndex = edits) (hordered : Ordered (edits.map MatchedEdit.splice))
    (hin : ∀ edit ∈ edits, edit.splice.stop ≤ base.length) :
    applyReplacementsPreservingUnchangedLines original base edits =
      .ok (weave (edits.map MatchedEdit.splice) 0 (splitLinesWithEndings base) (splitLinesWithEndings original)) := by
  have hflatten := flatten_splitLinesWithEndings base
  have hpos : ∀ edit ∈ edits, 0 < edit.matchLength ∧ edit.splice.stop ≤ (splitLinesWithEndings base).flatten.length := by
    intro edit hmem
    rw [hflatten]
    exact ⟨hordered.2 _ (mem_map_of_mem hmem), hin edit hmem⟩
  have hstarts : edits.Pairwise (fun a b => a.splice.start ≤ b.splice.start) := by
    have hpairs := pairwise_map.mp hordered.1
    refine hpairs.imp (fun hab => ?_)
    exact Nat.le_trans (Nat.le_add_right _ _) hab
  obtain ⟨groups, hrun, hgroups⟩ := collectGroups_none (splitLinesWithEndings base) edits hpos hstarts
  have hassemble := assemble_eq (splitLinesWithEndings base) (splitLinesWithEndings original) hlines 0 groups edits hgroups []
    (by simp) hordered
  rw [hflatten] at hassemble
  unfold applyReplacementsPreservingUnchangedLines getLineSpans
  dsimp only
  rw [length_lineSpansFrom, if_neg (by rw [hlines]; simp), hsorted, hrun]
  exact congrArg Except.ok hassemble

end PiAgent.Tools
