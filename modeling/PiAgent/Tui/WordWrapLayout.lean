import PiAgent.Tui.WordWrapWidths

/-!
# The line of the cursor

The layout and the map of visual lines are made of the same chunks, one for one, and in both the
cursor is in the chunk that contains its column.
-/

namespace PiAgent.Tui

open Option List Durable

variable (chars : Characters)

/-! ## Chunks -/

def Contiguous : ℕ → ℕ → List TextChunk → Prop
  | p, q, [] => p = q
  | p, q, chunk :: rest => chunk.startIndex = p ∧ p ≤ chunk.endIndex ∧ Contiguous chunk.endIndex q rest

theorem contiguous_of_covers (line : JsString) (p q : ℕ) (chunks : List TextChunk) (h : CoversTo line p q chunks) :
    Contiguous p q chunks := by
  induction chunks generalizing p with
  | nil => exact h
  | cons chunk rest ih =>
    obtain ⟨hstart, hlt, -, -, hrest⟩ := h
    exact ⟨hstart, Nat.le_of_lt hlt, ih _ hrest⟩

theorem contiguous_le (p q : ℕ) (chunks : List TextChunk) (h : Contiguous p q chunks) : p ≤ q := by
  induction chunks generalizing p with
  | nil => exact Nat.le_of_eq h
  | cons chunk rest ih => exact Nat.le_trans h.2.1 (ih _ h.2.2)

def toVisualLine (i : ℕ) (chunk : TextChunk) : VisualLine := ⟨i, chunk.startIndex, chunk.endIndex - chunk.startIndex⟩

def CursorAt (layout : List LayoutLine) (k : ℕ) : Prop :=
  k < layout.length ∧ ∀ j l, layout[j]? = some l → (l.hasCursor = true ↔ j = k)

def NoCursor (layout : List LayoutLine) : Prop := ∀ l ∈ layout, l.hasCursor = false

theorem cursorAt_head (l : LayoutLine) (rest : List LayoutLine) (hl : l.hasCursor = true) (hrest : NoCursor rest) :
    CursorAt (l :: rest) 0 := by
  refine ⟨by simp, fun j l' hj => ?_⟩
  rcases j with _ | j
  · rw [getElem?_cons_zero, Option.some.injEq] at hj
    rw [← hj]
    exact iff_of_true hl rfl
  · rw [getElem?_cons_succ] at hj
    rw [hrest l' (mem_of_getElem? hj)]
    exact iff_of_false Bool.false_ne_true (Nat.succ_ne_zero j)

theorem cursorAt_append (before layout after : List LayoutLine) (k : ℕ) (hbefore : NoCursor before) (h : CursorAt layout k)
    (hafter : NoCursor after) : CursorAt (before ++ (layout ++ after)) (before.length + k) := by
  obtain ⟨hlt, hiff⟩ := h
  refine ⟨by rw [length_append, length_append]; omega, fun j l hj => ?_⟩
  rcases Nat.lt_or_ge j before.length with hin | hout
  · rw [getElem?_append_left hin] at hj
    rw [hbefore l (mem_of_getElem? hj)]
    exact iff_of_false Bool.false_ne_true (by omega)
  · rw [getElem?_append_right hout] at hj
    rcases Nat.lt_or_ge (j - before.length) layout.length with hin' | hout'
    · rw [getElem?_append_left hin'] at hj
      rw [hiff _ l hj]
      omega
    · rw [getElem?_append_right hout'] at hj
      rw [hafter l (mem_of_getElem? hj)]
      exact iff_of_false Bool.false_ne_true (by omega)

variable (state : EditorState) (chunks : List TextChunk)

theorem layoutChunks_other : NoCursor (layoutChunks state false chunks) := by
  induction chunks with
  | nil => simp [NoCursor, layoutChunks]
  | cons chunk rest ih =>
    intro l hmem
    unfold layoutChunks at hmem
    rcases mem_cons.mp hmem with rfl | hmem
    · rfl
    · exact ih l hmem

theorem layoutChunks_after (p q : ℕ) (chunks : List TextChunk) (h : Contiguous p q chunks)
    (hcol : state.cursorCol < p) : NoCursor (layoutChunks state true chunks) := by
  induction chunks generalizing p with
  | nil => simp [NoCursor, layoutChunks]
  | cons chunk rest ih =>
    obtain ⟨hstart, hle, hrest⟩ := h
    intro l hmem
    unfold layoutChunks at hmem
    rcases mem_cons.mp hmem with rfl | hmem
    · unfold layoutChunk
      rw [if_pos rfl]
      split
      · rw [if_neg (by omega)]
      · rw [if_neg (by simp only [Bool.and_eq_true, decide_eq_true_eq]; omega)]
    · exact ih _ hrest (by omega) l hmem

theorem length_layoutChunks (cur : Bool) (chunks : List TextChunk) :
    (layoutChunks state cur chunks).length = chunks.length := by
  induction chunks with
  | nil => rfl
  | cons chunk rest ih =>
    unfold layoutChunks
    rw [length_cons, length_cons, ih]

theorem chunks_cursor (i p q n : ℕ) (chunks : List TextChunk) (after : List VisualLine)
    (h : Contiguous p q chunks) (hne : chunks ≠ []) (hp : p ≤ state.cursorCol) (hq : state.cursorCol ≤ q)
    (hafter : ∀ vl ∈ after.head?, vl.logicalLine ≠ i) :
    ∃ k, CursorAt (layoutChunks state true chunks) k ∧
      findFrom i state.cursorCol n (chunks.map (toVisualLine i) ++ after) = some (n + k) := by
  induction chunks generalizing p n with
  | nil => exact absurd rfl hne
  | cons chunk rest ih =>
    obtain ⟨hstart, hle, hrest⟩ := h
    have hcolEnd := contiguous_le _ _ rest hrest
    cases rest with
    | nil =>
      have hend : chunk.endIndex = q := hrest
      refine ⟨0, cursorAt_head _ _ ?_ (by simp [NoCursor, layoutChunks]), ?_⟩
      · unfold layoutChunk
        rw [if_pos rfl, isEmpty_nil, if_pos rfl, if_pos (by omega)]
      · have hlast : after.head?.map VisualLine.logicalLine ≠ some i := by
          intro hsame
          obtain ⟨vl, hvl, hlogical⟩ := map_eq_some_iff.mp hsame
          exact hafter vl hvl hlogical
        have hcontains : (toVisualLine i chunk).contains after.head? i state.cursorCol = true := by
          unfold VisualLine.contains toVisualLine
          simp only [Bool.and_eq_true, Bool.or_eq_true, decide_eq_true_eq]
          refine ⟨⟨trivial, by omega⟩, ?_⟩
          rcases Nat.lt_or_ge (state.cursorCol - chunk.startIndex) (chunk.endIndex - chunk.startIndex) with hlt | hge
          · exact .inl hlt
          · exact .inr ⟨hlast, by omega⟩
        show (if (toVisualLine i chunk).contains after.head? i state.cursorCol then some n else _) = _
        rw [hcontains, if_pos rfl, Nat.add_zero]
    | cons next more =>
      rcases Nat.lt_or_ge state.cursorCol chunk.endIndex with hin | hout
      · refine ⟨0, cursorAt_head _ _ ?_ (layoutChunks_after state _ q _ hrest hin), ?_⟩
        · unfold layoutChunk
          rw [if_pos rfl, isEmpty_cons, if_neg Bool.false_ne_true, if_pos (by
            simp only [Bool.and_eq_true, decide_eq_true_eq]
            omega)]
        · have hcontains : (toVisualLine i chunk).contains (some (toVisualLine i next)) i state.cursorCol = true := by
            unfold VisualLine.contains toVisualLine
            simp only [Bool.and_eq_true, Bool.or_eq_true, decide_eq_true_eq]
            exact ⟨⟨trivial, by omega⟩, .inl (by omega)⟩
          show (if (toVisualLine i chunk).contains (some (toVisualLine i next)) i state.cursorCol then some n else _) = _
          rw [hcontains, if_pos rfl, Nat.add_zero]
      · obtain ⟨k, hcursor, hfind⟩ := ih chunk.endIndex (n + 1) hrest (by simp) hout
        have hno : (layoutChunk state true false chunk).hasCursor = false := by
          unfold layoutChunk
          rw [if_pos rfl, if_neg Bool.false_ne_true, if_neg (by simp only [Bool.and_eq_true, decide_eq_true_eq]; omega)]
        have hshift := cursorAt_append [layoutChunk state true false chunk] _ [] k (by simpa [NoCursor] using hno) hcursor
          (by simp [NoCursor])
        rw [append_nil, length_singleton] at hshift
        refine ⟨1 + k, hshift, ?_⟩
        have hcontains : (toVisualLine i chunk).contains (some (toVisualLine i next)) i state.cursorCol = false := by
          unfold VisualLine.contains toVisualLine
          simp only [map_some, ne_eq, not_true_eq_false, decide_false, Bool.false_and, Bool.or_false,
            Bool.and_eq_false_iff, decide_eq_false_iff_not]
          exact .inr (by omega)
        show (if (toVisualLine i chunk).contains (some (toVisualLine i next)) i state.cursorCol then some n else
          findFrom i state.cursorCol (n + 1) ((next :: more).map (toVisualLine i) ++ after)) = _
        rw [hcontains, if_neg Bool.false_ne_true, hfind, Nat.add_assoc]

theorem findFrom_skip (line col n : ℕ) (before after : List VisualLine) (h : ∀ vl ∈ before, vl.logicalLine ≠ line) :
    findFrom line col n (before ++ after) = findFrom line col (n + before.length) after := by
  induction before generalizing n with
  | nil => rfl
  | cons vl before ih =>
    have hno : ∀ next, vl.contains next line col = false := by
      intro next
      unfold VisualLine.contains
      rw [decide_eq_false (h vl mem_cons_self), Bool.false_and, Bool.false_and]
    show (if vl.contains (before ++ after).head? line col then some n else findFrom line col (n + 1) (before ++ after)) = _
    rw [hno, if_neg Bool.false_ne_true, ih (n + 1) (fun v hv => h v (mem_cons_of_mem _ hv)), length_cons]
    congr 1
    omega

/-! ## Lines -/

section Lines

variable (segment : JsString → List SegmentData) (fuel : ℕ) (state : EditorState) (width : ℕ)

def lineChunks (line : JsString) : Option (List TextChunk) :=
  if chars.visibleWidth line ≤ width then some [⟨line, 0, line.length⟩]
  else wordWrapLine chars fuel line width (some (segment line))

theorem layoutLine_eq (i : ℕ) (line : JsString) : layoutLine chars segment fuel state width i line =
    (lineChunks chars segment fuel width line).map (layoutChunks state (i = state.cursorLine)) := by
  unfold layoutLine lineChunks
  split
  · split
    · rename_i hcur
      rw [map_some, decide_eq_true hcur]
      unfold layoutChunks layoutChunk
      rw [if_pos rfl, isEmpty_nil, if_pos rfl, if_pos (Nat.zero_le _)]
      rfl
    · rename_i hcur
      rw [map_some, decide_eq_false hcur]
      rfl
  · rfl

theorem visualLinesOf_eq (hempty : chars.visibleWidth [] = 0) (i : ℕ) (line : JsString) :
    visualLinesOf chars segment fuel width i line =
      (lineChunks chars segment fuel width line).map (List.map (toVisualLine i)) := by
  unfold visualLinesOf lineChunks
  split
  · rename_i hnil
    obtain rfl := length_eq_zero_iff.mp hnil
    rw [hempty, if_pos (Nat.zero_le _)]
    rfl
  · split <;> rfl

def LineOk (line : JsString) : Prop :=
  ∃ chunks, lineChunks chars segment fuel width line = some chunks ∧ chunks ≠ [] ∧ Contiguous 0 line.length chunks

theorem lines_after (hempty : chars.visibleWidth [] = 0) (i : ℕ) (lines : List JsString)
    (hok : ∀ line ∈ lines, LineOk chars segment fuel width line) (hi : state.cursorLine < i) :
    ∃ layout visual, layoutFrom chars segment fuel state width i lines = some layout ∧
      buildFrom chars segment fuel width i lines = some visual ∧ NoCursor layout ∧
      ∀ vl ∈ visual, i ≤ vl.logicalLine := by
  induction lines generalizing i with
  | nil => exact ⟨[], [], rfl, rfl, by simp [NoCursor], by simp⟩
  | cons line lines ih =>
    obtain ⟨chunks, hchunks, -, -⟩ := hok line mem_cons_self
    obtain ⟨layout, visual, hlayout, hvisual, hno, hle⟩ := ih (i + 1) (fun l hl => hok l (mem_cons_of_mem _ hl)) (by omega)
    unfold layoutFrom buildFrom
    rw [layoutLine_eq, visualLinesOf_eq chars segment fuel width hempty, hchunks, map_some, map_some, hlayout,
      hvisual, decide_eq_false (by omega)]
    refine ⟨_, _, rfl, rfl, fun l hmem => ?_, fun vl hmem => ?_⟩
    · rcases mem_append.mp hmem with hmem | hmem
      · exact layoutChunks_other state chunks l hmem
      · exact hno l hmem
    · rcases mem_append.mp hmem with hmem | hmem
      · obtain ⟨chunk, -, rfl⟩ := mem_map.mp hmem
        exact Nat.le_refl i
      · exact Nat.le_trans (Nat.le_succ i) (hle vl hmem)

theorem lines_cursor (hempty : chars.visibleWidth [] = 0) (i n : ℕ) (lines : List JsString)
    (hok : ∀ line ∈ lines, LineOk chars segment fuel width line) (hi : i ≤ state.cursorLine) (line : JsString)
    (hline : lines[state.cursorLine - i]? = some line) (hcol : state.cursorCol ≤ line.length) :
    ∃ layout visual k, layoutFrom chars segment fuel state width i lines = some layout ∧
      buildFrom chars segment fuel width i lines = some visual ∧ CursorAt layout k ∧
      findFrom state.cursorLine state.cursorCol n visual = some (n + k) := by
  induction lines generalizing i n with
  | nil => simp at hline
  | cons first lines ih =>
    obtain ⟨chunks, hchunks, hne, hcontiguous⟩ := hok first mem_cons_self
    have hok' : ∀ l ∈ lines, LineOk chars segment fuel width l := fun l hl => hok l (mem_cons_of_mem _ hl)
    rcases Nat.eq_or_lt_of_le hi with hcur | hbefore
    · rw [← hcur, Nat.sub_self, getElem?_cons_zero, Option.some.injEq] at hline
      rw [← hline] at hcol
      obtain ⟨layout, visual, hlayout, hvisual, hno, hle⟩ := lines_after chars segment fuel state width hempty (i + 1) lines hok'
        (by omega)
      obtain ⟨k, hcursor, hfind⟩ := chunks_cursor state i 0 first.length n chunks visual hcontiguous hne (Nat.zero_le _) hcol
        (fun vl hvl => by
          have := hle vl (mem_of_head? hvl)
          omega)
      unfold layoutFrom buildFrom
      rw [layoutLine_eq, visualLinesOf_eq chars segment fuel width hempty, hchunks, map_some, map_some, hlayout,
        hvisual, decide_eq_true hcur]
      have hall := cursorAt_append [] (layoutChunks state true chunks) layout k (by simp [NoCursor]) hcursor hno
      rw [nil_append, length_nil, Nat.zero_add] at hall
      rw [← hcur]
      exact ⟨_, _, k, rfl, rfl, hall, hfind⟩
    · obtain ⟨layout, visual, k, hlayout, hvisual, hcursor, hfind⟩ := ih (i + 1) (n + chunks.length) hok' hbefore
        (by rwa [show state.cursorLine - i = state.cursorLine - (i + 1) + 1 by omega, getElem?_cons_succ] at hline)
      unfold layoutFrom buildFrom
      rw [layoutLine_eq, visualLinesOf_eq chars segment fuel width hempty, hchunks, map_some, map_some, hlayout,
        hvisual, decide_eq_false (by omega)]
      have hall := cursorAt_append (layoutChunks state false chunks) layout [] k (layoutChunks_other state chunks) hcursor
        (by simp [NoCursor])
      rw [append_nil, length_layoutChunks] at hall
      refine ⟨_, _, chunks.length + k, rfl, rfl, hall, ?_⟩
      rw [findFrom_skip, length_map, hfind, Nat.add_assoc]
      intro vl hmem
      obtain ⟨chunk, -, rfl⟩ := mem_map.mp hmem
      exact Nat.ne_of_lt hbefore

end Lines

/-! ## The editor -/

def EditorState.InBounds (state : EditorState) : Prop :=
  ∃ line, state.lines[state.cursorLine]? = some line ∧ state.cursorCol ≤ line.length

section

variable (hgraphemes : ∀ text, Tiles text 0 (chars.graphemes text)) (hempty : chars.visibleWidth [] = 0)
    (segment : JsString → List SegmentData) (fuel width : ℕ) (hpos : 0 < width)
include hgraphemes hempty hpos

theorem lineOk_of_fits (line : JsString) (hspread : Spread line 0 (segment line))
    (hfits : width < chars.visibleWidth line → GraphemesFit chars width (segment line)) :
    LineOk chars segment (fuel + 2) width line := by
  unfold LineOk lineChunks
  split
  · exact ⟨_, rfl, by simp, rfl, Nat.zero_le _, rfl⟩
  · rename_i hwide
    have hne : line ≠ [] := by
      rintro rfl
      rw [hempty] at hwide
      exact hwide (Nat.zero_le _)
    obtain ⟨chunks, hchunks, hsome, hcovers⟩ := wordWrapLine_covers chars fuel line width (segment line) hne hpos
      (fun text => (tiles_spread text 0 _ (hgraphemes text)).2) hspread hfits
    exact ⟨chunks, hchunks, hsome, contiguous_of_covers line 0 _ chunks hcovers⟩

theorem layout_cursor (state : EditorState) (hstate : state.InBounds)
    (hspread : ∀ line ∈ state.lines, Spread line 0 (segment line) ∧
      (width < chars.visibleWidth line → GraphemesFit chars width (segment line))) :
    ∃ layout visual, layoutText chars segment (fuel + 2) state width = some layout ∧
      buildVisualLineMap chars segment (fuel + 2) state width = some visual ∧
      CursorAt layout (findCurrentVisualLine state visual) := by
  obtain ⟨line, hline, hcol⟩ := hstate
  obtain ⟨layout, visual, k, hlayout, hvisual, hcursor, hfind⟩ := lines_cursor chars segment (fuel + 2) state width hempty 0 0
    state.lines (fun l hl => lineOk_of_fits chars hgraphemes hempty segment fuel width hpos l (hspread l hl).1 (hspread l hl).2)
    (Nat.zero_le _) line hline hcol
  have hcurrent : findCurrentVisualLine state visual = k := by
    unfold findCurrentVisualLine findVisualLineAt
    rw [hfind, getD_some, Nat.zero_add]
  unfold layoutText
  split
  · rename_i hblank
    rcases hblank with hnil | hone
    · rw [hnil] at hline
      cases hline
    · -- the one empty line
      have hvisual' : visual = [⟨0, 0, 0⟩] := by
        rw [hone] at hvisual
        exact (some.inj hvisual).symm
      have hlength : layout.length = 1 := by
        rw [hone] at hlayout
        unfold layoutFrom at hlayout
        rw [layoutLine_eq] at hlayout
        unfold lineChunks at hlayout
        rw [hempty, if_pos (Nat.zero_le _)] at hlayout
        obtain rfl := some.inj hlayout
        rfl
      have hk : k = 0 := by
        have := hcursor.1
        omega
      refine ⟨_, visual, rfl, hvisual, ?_⟩
      rw [hcurrent, hk]
      exact cursorAt_head _ _ rfl (by simp [NoCursor])
  · refine ⟨layout, visual, hlayout, hvisual, ?_⟩
    rw [hcurrent]
    exact hcursor

end

end PiAgent.Tui
