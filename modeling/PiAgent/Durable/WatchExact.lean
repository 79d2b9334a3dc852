import PiAgent.Durable.WatchProofs

/-! # Committed watches are exact -/

namespace PiAgent.Durable.Watch

open Delta

/-! ## The frames cover the commits -/

/-- Frames that cover the commits from `n` up to `m`: a frame is the next commit, or it replaces some. -/
def Tiles (commits : List (JsonValue × List Op)) : ℕ → List Frame → ℕ → Prop
  | n, [], m => n = m
  | n, frame :: frames, m =>
    n < frame.upTo ∧
      (frame.replaced = false → frame.upTo = n + 1 ∧ commits[n]? = some (frame.value, frame.ops)) ∧
      (frame.replaced = true → frame.ops = [.r frame.value]) ∧ Tiles commits frame.upTo frames m

def Covers (commits : List (JsonValue × List Op)) (k : ℕ) (frame : Frame) : Prop :=
  (frame.replaced = false ∧ commits[k]? = some (frame.value, frame.ops)) ∨ (frame.replaced = true ∧ k < frame.upTo)

theorem tiles_append (commits : List (JsonValue × List Op)) (n m k : ℕ) (a b : List Frame)
    (ha : Tiles commits n a m) (hb : Tiles commits m b k) : Tiles commits n (a ++ b) k := by
  induction a generalizing n with
  | nil => rwa [show n = m from ha]
  | cons frame a ih =>
    obtain ⟨hlt, hexact, hreplaced, hrest⟩ := ha
    exact ⟨hlt, hexact, hreplaced, ih _ hrest⟩

theorem tiles_mono (commits more : List (JsonValue × List Op)) (n m : ℕ) (frames : List Frame)
    (h : Tiles commits n frames m) : Tiles (commits ++ more) n frames m := by
  induction frames generalizing n with
  | nil => exact h
  | cons frame frames ih =>
    obtain ⟨hlt, hexact, hreplaced, hrest⟩ := h
    refine ⟨hlt, fun hr => ⟨(hexact hr).1, ?_⟩, hreplaced, ih _ hrest⟩
    have hat := (hexact hr).2
    rw [List.getElem?_append_left (List.getElem?_eq_some_iff.mp hat).1]
    exact hat

theorem tiles_le (commits : List (JsonValue × List Op)) (n m : ℕ) (frames : List Frame) (h : Tiles commits n frames m) :
    n ≤ m := by
  induction frames generalizing n with
  | nil => exact le_of_eq h
  | cons frame frames ih =>
    have hrest := ih _ h.2.2.2
    have hlt := h.1
    omega

theorem tiles_covers (commits : List (JsonValue × List Op)) (n m k : ℕ) (frames : List Frame)
    (h : Tiles commits n frames m) (hn : n ≤ k) (hk : k < m) : ∃ frame ∈ frames, Covers commits k frame := by
  induction frames generalizing n with
  | nil =>
    have heq : n = m := h
    omega
  | cons frame frames ih =>
    obtain ⟨hlt, hexact, hreplaced, hrest⟩ := h
    by_cases hup : frame.upTo ≤ k
    · obtain ⟨later, hmem, hcovers⟩ := ih _ hrest hup
      exact ⟨later, List.mem_cons_of_mem _ hmem, hcovers⟩
    · refine ⟨frame, List.mem_cons_self, ?_⟩
      cases hr : frame.replaced with
      | false =>
        obtain ⟨hnext, hat⟩ := hexact hr
        have hkn : k = n := by omega
        exact .inl ⟨hr, hkn ▸ hat⟩
      | true => exact .inr ⟨hr, by omega⟩

structure Tiled (c : Core) : Prop where
  delivered : Tiles c.commits 0 c.delivered c.told
  pending : c.ended = none → Tiles c.commits c.told c.pending c.commits.length
  told_le : c.told ≤ c.commits.length

theorem tiled_step (input : Input) (c c' : Core) (hmoved : Moved input c c') (h : Tiled c) : Tiled c' := by
  cases hmoved with
  | still => exact h
  | ended reason hopen hlast => exact ⟨h.delivered, (fun he => by cases he), h.told_le⟩
  | appended value ops replacement hinput hopen hlive =>
    refine ⟨tiles_mono _ _ _ _ _ h.delivered, fun _ => ?_, ?_⟩
    · refine tiles_append _ _ _ _ _ _ (tiles_mono _ _ _ _ _ (h.pending hopen)) ⟨Nat.lt_succ_self _, fun _ => ⟨rfl, ?_⟩, ?_, ?_⟩
      · simp
      · intro hr
        cases hr
      · simp [Tiles]
    · have hle := h.told_le
      simp only [Core.told, List.length_append] at hle ⊢
      omega
  | overflowed value ops replacement hinput hopen hlive =>
    have hle := h.told_le
    refine ⟨tiles_mono _ _ _ _ _ h.delivered, fun _ => ⟨?_, ?_, fun _ => rfl, ?_⟩, ?_⟩
    · exact Nat.lt_succ_of_le hle
    · intro hr
      cases hr
    · simp [Tiles]
    · simp only [Core.told, List.length_append] at hle ⊢
      omega
  | delivered frame rest hopen hpending =>
    have hwaits := h.pending hopen
    rw [hpending] at hwaits
    obtain ⟨hlt, hexact, hreplaced, hrest⟩ := hwaits
    have htold : ({ c with value := frame.value, pending := rest, delivered := c.delivered ++ [frame] } : Core).told
        = frame.upTo := by
      simp [Core.told]
    refine ⟨?_, fun _ => ?_, ?_⟩
    · rw [htold]
      exact tiles_append _ _ _ _ _ _ h.delivered ⟨hlt, hexact, hreplaced, rfl⟩
    · rw [htold]
      exact hrest
    · rw [htold]
      exact tiles_le _ _ _ _ hrest

/-! ## A retirement comes last -/

structure NullsLast (c : Core) : Prop where
  before : ∀ frame ∈ c.frames.dropLast, isNull frame.value = false
  live : c.retired = false → ∀ frame ∈ c.frames, isNull frame.value = false

theorem nullsLast_step (input : Input) (c c' : Core) (hmoved : Moved input c c') (h : NullsLast c) : NullsLast c' := by
  have hsub : ∀ frame ∈ c.delivered, frame ∈ c.frames := fun _ hf => List.mem_append_left _ hf
  cases hmoved with
  | still => exact h
  | ended reason hopen hlast =>
    refine ⟨fun frame hf => h.before frame ?_, fun hr frame hf => h.live hr frame (hsub _ ?_)⟩
    · simp only [Core.frames, List.append_nil] at hf ⊢
      cases hp : c.pending with
      | nil => rwa [List.append_nil]
      | cons next rest =>
        rw [List.dropLast_append_of_ne_nil (List.cons_ne_nil _ _)]
        exact List.mem_append_left _ (List.dropLast_subset _ hf)
    · simpa [Core.frames] using hf
  | appended value ops replacement hinput hopen hlive =>
    have hframes : ({ c with
        retired := isNull value
        pending := c.pending ++ [⟨value, ops, c.commits.length + 1, false⟩]
        commits := c.commits ++ [(value, ops)] } : Core).frames = c.frames ++ [⟨value, ops, c.commits.length + 1, false⟩] := by
      simp [Core.frames]
    refine ⟨fun frame hf => h.live hlive frame ?_, fun hr frame hf => ?_⟩
    · rw [hframes, List.dropLast_concat] at hf
      exact hf
    · rw [hframes] at hf
      rcases List.mem_append.mp hf with hf | hf
      · exact h.live hlive frame hf
      · rw [List.mem_singleton.mp hf]
        exact hr
  | overflowed value ops replacement hinput hopen hlive =>
    refine ⟨fun frame hf => h.live hlive frame (hsub _ ?_), fun hr frame hf => ?_⟩
    · simpa [Core.frames, List.dropLast_concat] using hf
    · rcases List.mem_append.mp hf with hf | hf
      · exact h.live hlive frame (hsub _ hf)
      · rw [List.mem_singleton.mp hf]
        change isNull (replacementOf value replacement) = false
        unfold replacementOf
        cases hrep : replacement.filter (fun value => !isNull value) with
        | none => exact hr
        | some other =>
          obtain ⟨-, hother⟩ := Option.filter_eq_some_iff.mp hrep
          simpa using hother
  | delivered frame rest hopen hpending =>
    have hframes : ({ c with value := frame.value, pending := rest, delivered := c.delivered ++ [frame] } : Core).frames
        = c.frames := by
      simp [Core.frames, hpending]
    refine ⟨?_, ?_⟩
    · rw [hframes]
      exact h.before
    · rw [hframes]
      exact h.live

/-! ## The operations lead to the values -/

def Leads : JsonValue → List Frame → JsonValue → Prop
  | value, [], last => value = last
  | value, frame :: frames, last => apply value frame.ops = .ok frame.value ∧ Leads frame.value frames last

theorem leads_append (a b : List Frame) (value middle last : JsonValue) (ha : Leads value a middle)
    (hb : Leads middle b last) : Leads value (a ++ b) last := by
  induction a generalizing value with
  | nil => rwa [show value = middle from ha]
  | cons frame a ih => exact ⟨ha.1, ih _ ha.2⟩

theorem leads_apply (a b : List Frame) (frame : Frame) (value last : JsonValue) (h : Leads value (a ++ frame :: b) last) :
    apply value ((a ++ [frame]).flatMap Frame.ops) = .ok frame.value := by
  induction a generalizing value with
  | nil => simpa using h.1
  | cons first a ih =>
    rw [List.cons_append, List.flatMap_cons, apply_append _ _ _ _ h.1]
    exact ih _ h.2

def committedValue (initial : JsonValue) (commits : List (JsonValue × List Op)) : JsonValue :=
  (commits.getLast?.map Prod.fst).getD initial

def Coherent (initial : JsonValue) (w : CommittedWatch) (input : Input) : Prop :=
  ∀ value ops replacement, input = .advance value ops replacement → w.ended = none → w.retired = false →
    apply (committedValue initial w.commits) ops = .ok value ∧ (replacement = none ∨ replacement = some value)

structure Led (initial : JsonValue) (c : Core) : Prop where
  delivered : Leads initial c.delivered c.value
  pending : c.ended = none → Leads c.value c.pending (committedValue initial c.commits)
  retires : c.ended = none → c.retired = true → ∃ frame, c.frames.getLast? = some frame ∧ isNull frame.value = true

theorem replacementOf_newest (value : JsonValue) (replacement : Option JsonValue)
    (h : replacement = none ∨ replacement = some value) : replacementOf value replacement = value := by
  unfold replacementOf
  rcases h with rfl | rfl
  · rfl
  · cases hnull : isNull value <;> simp [Option.filter, hnull]

theorem led_step (initial : JsonValue) (input : Input) (w : CommittedWatch) (c' : Core) (hmoved : Moved input w.core c')
    (h : Led initial w.core) (hcoherent : Coherent initial w input) : Led initial c' := by
  cases hmoved with
  | still => exact h
  | ended reason hopen hlast => exact ⟨h.delivered, (fun he => by cases he), (fun he => by cases he)⟩
  | appended value ops replacement hinput hopen hlive =>
    obtain ⟨happly, -⟩ := hcoherent value ops replacement hinput hopen hlive
    refine ⟨h.delivered, fun _ => ?_, fun _ hr => ?_⟩
    · have hnew : committedValue initial (w.core.commits ++ [(value, ops)]) = value := by simp [committedValue]
      rw [show ({ w.core with
        retired := isNull value
        pending := w.core.pending ++ [⟨value, ops, w.core.commits.length + 1, false⟩]
        commits := w.core.commits ++ [(value, ops)] } : Core).commits = w.core.commits ++ [(value, ops)] from rfl, hnew]
      exact leads_append _ _ _ _ _ (h.pending hopen) ⟨happly, rfl⟩
    · exact ⟨_, by simp [Core.frames]; rfl, hr⟩
  | overflowed value ops replacement hinput hopen hlive =>
    obtain ⟨happly, hrep⟩ := hcoherent value ops replacement hinput hopen hlive
    have hvalue := replacementOf_newest value replacement hrep
    refine ⟨h.delivered, fun _ => ?_, fun _ hr => ?_⟩
    · refine ⟨apply_singleton _ _ _ (applyOp_r _ _), ?_⟩
      simp [Leads, committedValue, hvalue]
    · exact ⟨_, by simp [Core.frames]; rfl, by rw [hvalue]; exact hr⟩
  | delivered frame rest hopen hpending =>
    have hwaits := h.pending hopen
    rw [hpending] at hwaits
    refine ⟨leads_append _ _ _ _ _ h.delivered ⟨hwaits.1, rfl⟩, fun _ => hwaits.2, fun _ hr => ?_⟩
    obtain ⟨last, hlast, hnull⟩ := h.retires hopen hr
    refine ⟨last, ?_, hnull⟩
    rw [← hlast]
    simp [Core.frames, hpending]

end PiAgent.Durable.Watch
