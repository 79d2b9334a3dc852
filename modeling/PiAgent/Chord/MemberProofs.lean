import PiAgent.Chord.Member

/-! # State members lose and repeat nothing -/

namespace PiAgent.Members

open Function List Delta JsonValue

variable {V L : Type} (json : V → JsonValue)

/-! ## Chains of events -/

def Event.Fits (current : JsonValue) (n : ℕ) : Event V → Prop
  | .ops batch value m => n < m ∧ ∃ next, apply current batch = .ok next ∧ next.Eqv (json value)
  | .reset _ m => n ≤ m

def Follows (value : V) (writes : ℕ) : List (Event V) → JsonValue → ℕ → Prop
  | [], current, n => current.Eqv (json value) ∧ n ≤ writes
  | e :: es, current, n => e.Fits json current n ∧ Follows value writes es (json e.value) e.rev

variable {json}

variable {e : Event V}

theorem Event.Fits.eqv {current current' : JsonValue} {n : ℕ} (h : e.Fits json current n)
    (he : current.Eqv current') : e.Fits json current' n := by
  cases e with
  | reset value m => exact h
  | ops batch value m =>
    obtain ⟨hlt, next, hnext, hvalue⟩ := h
    obtain ⟨next', hnext', he'⟩ := apply_respects batch current current' next he hnext
    exact ⟨hlt, next', hnext', eqv_trans (eqv_symm he') hvalue⟩

variable {current : JsonValue}

theorem Event.Fits.mono {n m : ℕ} (h : e.Fits json current m) (hle : n ≤ m) : e.Fits json current n := by
  cases e with
  | reset value r => exact Nat.le_trans hle h
  | ops batch value r => exact ⟨Nat.lt_of_le_of_lt hle h.1, h.2⟩

variable {n : ℕ}

theorem Event.Fits.le (h : e.Fits json current n) : n ≤ e.rev := by
  cases e with
  | reset value r => exact h
  | ops batch value r => exact Nat.le_of_lt h.1

variable {value : V} {writes : ℕ} {es : List (Event V)}

theorem Follows.eqv {current current' : JsonValue} {n : ℕ}
    (h : Follows json value writes es current n) (he : current.Eqv current') :
    Follows json value writes es current' n := by
  cases es with
  | nil => exact ⟨eqv_trans (eqv_symm he) h.1, h.2⟩
  | cons e es => exact ⟨h.1.eqv he, h.2⟩

theorem Follows.le {current : JsonValue} {n : ℕ} (h : Follows json value writes es current n) : n ≤ writes := by
  induction es generalizing current n with
  | nil => exact h.2
  | cons e es ih => exact Nat.le_trans h.1.le (ih h.2)

theorem Follows.snoc {current : JsonValue} {n : ℕ}
    (h : Follows json value writes es current n) (e : Event V) (he : e.Fits json (json value) writes) :
    Follows json e.value e.rev (es ++ [e]) current n := by
  induction es generalizing current n with
  | nil => exact ⟨(he.eqv (eqv_symm h.1)).mono h.2, eqv_refl _, Nat.le_refl _⟩
  | cons d es ih => exact ⟨h.1, ih h.2⟩

theorem Follows.retarget {value value' : V} {writes writes' : ℕ} {es : List (Event V)} {current : JsonValue} {n : ℕ}
    (h : Follows json value writes es current n) (he : (json value).Eqv (json value')) (hle : writes ≤ writes') :
    Follows json value' writes' es current n := by
  induction es generalizing current n with
  | nil => exact ⟨eqv_trans h.1 he, Nat.le_trans h.2 hle⟩
  | cons d es ih => exact ⟨h.1, ih h.2⟩

theorem Follows.consume {e : Event V} {es : List (Event V)} {current : JsonValue} {n : ℕ}
    (h : Follows json value writes (e :: es) current n) :
    Follows json value writes es (foldEvent json current e) e.rev := by
  cases e with
  | reset v m => exact h.2
  | ops batch v m =>
    obtain ⟨-, next, hnext, he⟩ := h.1
    simp only [foldEvent, hnext]
    exact h.2.eqv (eqv_symm he)

/-! ## What is queued -/

def toMember (u : ℕ) (queue : List (Task V L)) : List (Event V) :=
  queue.filterMap (fun task =>
    match task with
    | .source listeners event => if u ∈ listeners then some event else none
    | .member _ _ => none)

variable (u : ℕ)

theorem toMember_append (queue queue' : List (Task V L)) :
    toMember u (queue ++ queue') = toMember u queue ++ toMember u queue' := filterMap_append

@[simp] theorem toMember_member (listeners : List L) (event : Event V) (queue : List (Task V L)) :
    toMember u (.member listeners event :: queue) = toMember u queue := by
  simp [toMember]

theorem toMember_source (listeners : List ℕ) (event : Event V) (queue : List (Task V L)) :
    toMember u (.source listeners event :: queue) =
      (if u ∈ listeners then [event] else []) ++ toMember u queue := by
  by_cases h : u ∈ listeners <;> simp [toMember, h]

@[simp] theorem toMember_nil : toMember u ([] : List (Task V L)) = [] := rfl

theorem toMember_eq_nil {u : ℕ} {queue : List (Task V L)}
    (h : ∀ listeners event, .source listeners event ∈ queue → u ∉ listeners) : toMember u queue = [] := by
  rw [toMember, filterMap_eq_nil_iff]
  intro task htask
  cases task with
  | member => rfl
  | source listeners event => simp [h listeners event htask]

def subscribing (stack : List (Frame L)) : List ℕ :=
  stack.filterMap (fun frame =>
    match frame with
    | .snapped _ => none
    | .subscribed u => some u)

theorem subscribing_eq_nil {stack : List (Frame L)} (h : ∀ frame ∈ stack, frame.subscribing = false) :
    subscribing stack = [] := by
  rw [subscribing, filterMap_eq_nil_iff]
  intro frame hframe
  cases frame with
  | snapped => rfl
  | subscribed u => cases h _ hframe

variable [DecidableEq L]

def toListener (l : L) (queue : List (Task V L)) : List (Event V) :=
  queue.filterMap (fun task =>
    match task with
    | .source _ _ => none
    | .member listeners event => if l ∈ listeners then some event else none)

def Task.Nodup : Task V L → Prop
  | .source listeners _ => listeners.Nodup
  | .member listeners _ => listeners.Nodup

/-- The member has no upstream listener, or one that it can drop, or one that it is just subscribing. -/
inductive Shape (w : State V L) : Prop where
  | none (hf : w.fanout = []) (hu : w.upstream = none) (hb : w.bound = false) (hs : subscribing w.stack = [])
  | one (u : ℕ) (hf : w.fanout = [u]) (hu : w.upstream = some u) (hs : subscribing w.stack = [])
  | new (u : ℕ) (hf : w.fanout = [u]) (hu : w.upstream = none) (hs : subscribing w.stack = [u])
      (hb : w.bound = false → w.events = [])

def Chained (json : V → JsonValue) (w : State V L) (s : V) (n : ℕ) : Prop :=
  n ≤ w.writes ∧ (w.seen = some s ∨ w.events = [] ∧ w.fanout = []) ∧
    (∀ l ∈ w.events, Follows json s n (toListener l w.queue) (w.fold l) (w.rev l)) ∧
    ∀ u ∈ w.fanout, Follows json w.value w.writes (toMember u w.queue) (json s) n

structure Core (json : V → JsonValue) (w : State V L) : Prop where
  chained : ∃ s n, Chained json w s n
  shape : Shape w
  events : w.events.Nodup
  tasks : ∀ task ∈ w.queue, task.Nodup
  known : ∀ u ∈ w.fanout, u < w.upstreams
  queued : ∀ listeners event, .source listeners event ∈ w.queue → ∀ u ∈ listeners, u < w.upstreams

structure Inv (json : V → JsonValue) (w : State V L) : Prop extends Core json w where
  window : w.bound = false → ∀ l ∈ w.events, .snapped l ∈ w.stack

/-! ## Lemmas about the queue -/

variable (l : L)

theorem toListener_append (queue queue' : List (Task V L)) :
    toListener l (queue ++ queue') = toListener l queue ++ toListener l queue' := filterMap_append

@[simp] theorem toListener_source (listeners : List ℕ) (event : Event V) (queue : List (Task V L)) :
    toListener l (.source listeners event :: queue) = toListener l queue := by
  simp [toListener]

theorem toListener_member (listeners : List L) (event : Event V) (queue : List (Task V L)) :
    toListener l (.member listeners event :: queue) =
      (if l ∈ listeners then [event] else []) ++ toListener l queue := by
  by_cases h : l ∈ listeners <;> simp [toListener, h]

@[simp] theorem toListener_nil : toListener l ([] : List (Task V L)) = [] := rfl

theorem toListener_eq_nil {l : L} {queue : List (Task V L)} (h : ∀ task ∈ queue, ¬ task.names l) :
    toListener l queue = [] := by
  rw [toListener, filterMap_eq_nil_iff]
  intro task htask
  cases task with
  | source => rfl
  | member listeners event =>
    have : l ∉ listeners := h _ htask
    simp [this]

/-! ## Steps -/

section Steps

variable {w : State V L}

theorem inv_start [DecidableEq V] (json : V → JsonValue) (initial : V) : Inv json (machine (L := L) json initial).start := by
  refine ⟨⟨⟨initial, 0, Nat.le_refl 0, Or.inr ⟨rfl, rfl⟩, ?_, ?_⟩, .none rfl rfl rfl rfl, nodup_nil, ?_, ?_, ?_⟩, ?_⟩
  all_goals simp [machine]

theorem core_write [DecidableEq V] (h : Core json w) (value : V) (ops : List Op) (hexact : Exact json w (.write value ops)) :
    Core json (w.step json (.write value ops)) := by
  obtain ⟨s, n, hle, hseen, hlisteners, hmember⟩ := h.chained
  refine ⟨⟨s, n, Nat.le_succ_of_le hle, hseen, fun l hl => ?_, fun u hu => ?_⟩, ?_, h.events, ?_, h.known, ?_⟩
  · simp only [State.step, toListener_append, toListener_source, toListener_nil, append_nil]
    exact hlisteners l hl
  · have hu : u ∈ w.fanout := hu
    simp only [State.step, toMember_append, toMember_source, hu, if_true, toMember_nil, append_nil]
    exact (hmember u hu).snoc (.ops ops value (w.writes + 1)) ⟨Nat.lt_succ_self _, hexact⟩
  · cases h.shape with
    | none hf hu hb hs => exact .none hf hu hb hs
    | one u hf hu hs => exact .one u hf hu hs
    | new u hf hu hs hb => exact .new u hf hu hs hb
  · intro task htask
    rcases mem_append.mp htask with htask | htask
    · exact h.tasks task htask
    · rw [mem_singleton.mp htask]
      have : w.fanout.Nodup := by cases h.shape with | none hf => simp [hf] | one u hf => simp [hf] | new u hf => simp [hf]
      exact this
  · intro listeners event htask u hu
    rcases mem_append.mp htask with htask | htask
    · exact h.queued listeners event htask u hu
    · cases mem_singleton.mp htask
      exact h.known u hu

theorem core_events [DecidableEq V] (h : Core json w) (l : L) (hsafe : Safe w l) : Core json (w.step json (.events l)) := by
  obtain ⟨s, n, hle, hseen, hlisteners, hmember⟩ := h.chained
  obtain ⟨hnew, hfree⟩ := hsafe.fresh
  have hempty : ∀ u ∈ w.fanout, toMember u w.queue = [] := by
    intro u hu
    exact toMember_eq_nil (fun listeners event htask hmem => hsafe.heard _ htask ⟨u, hmem, hu⟩)
  have hevents : (w.step json (.events l)).events = w.events ++ [l] := by simp [State.step, hnew]
  refine ⟨⟨w.value, w.writes, Nat.le_refl _, Or.inl rfl, fun l' hl' => ?_, fun u hu => ?_⟩, ?_, ?_, h.tasks, h.known,
    h.queued⟩
  · rw [hevents, mem_append, mem_singleton] at hl'
    simp only [State.step]
    by_cases hll : l' = l
    · subst hll
      rw [toListener_eq_nil hfree, update_self, update_self]
      exact ⟨eqv_refl _, Nat.le_refl _⟩
    · have hmem := hl'.resolve_right hll
      rw [update_of_ne hll, update_of_ne hll]
      -- What the member had seen is the source's value.
      refine (hlisteners l' hmem).retarget ?_ hle
      cases hf : w.fanout with
      | nil =>
        rcases hsafe.seen hf with hnone | hval
        · rw [hnone] at hmem
          cases hmem
        · rcases hseen with hs | ⟨hnone, -⟩
          · rw [hs] at hval
            obtain rfl := Option.some.inj hval
            exact eqv_refl _
          · rw [hnone] at hmem
            cases hmem
      | cons u us =>
        have hu : u ∈ w.fanout := by simp [hf]
        have := hmember u hu
        rw [hempty u hu] at this
        exact this.1
  · have hu : u ∈ w.fanout := hu
    simp only [State.step]
    rw [hempty u hu]
    exact ⟨eqv_refl _, Nat.le_refl _⟩
  · cases h.shape with
    | none hf hu hb hs => exact .none hf hu hb hs
    | one u hf hu hs => exact .one u hf hu hs
    | new u hf hu hs hb =>
      refine .new u hf hu hs (fun hfalse => ?_)
      rcases hsafe.bound with hb' | hnone
      · exact absurd (hb'.symm.trans hfalse) (by simp)
      · rw [subscribing_eq_nil hnone] at hs
        cases hs
  · rw [hevents, nodup_append]
    refine ⟨h.events, nodup_singleton l, ?_⟩
    rintro a ha b hb rfl
    exact hnew (mem_singleton.mp hb ▸ ha)

theorem core_drop (h : Core json w) (hempty : w.events = []) :
    Core json { w with fanout := w.fanout.filter (fun u => some u ≠ w.upstream), upstream := none, bound := false } := by
  obtain ⟨s, n, hle, hseen, hlisteners, hmember⟩ := h.chained
  have hsub : ∀ u ∈ w.fanout.filter (fun u => some u ≠ w.upstream), u ∈ w.fanout :=
    fun u hu => (mem_filter.mp hu).1
  refine ⟨⟨s, n, hle, ?_, hlisteners, fun u hu => hmember u (hsub u hu)⟩, ?_, h.events, h.tasks,
    fun u hu => h.known u (hsub u hu), h.queued⟩
  · rcases hseen with hs | ⟨-, hf⟩
    · exact Or.inl hs
    · exact Or.inr ⟨hempty, by simp [hf]⟩
  · cases h.shape with
    | none hf hu hb hs => exact .none (by simp [hf]) rfl rfl hs
    | one u hf hu hs => exact .none (by simp [hf, hu]) rfl rfl hs
    | new u hf hu hs hb => exact .new u (by simp [hf, hu]) rfl hs (fun _ => hempty)

theorem core_join [DecidableEq V] (h : Core json w) (hb : w.bound = false) (hne : w.events ≠ []) : Core json
      { w with fanout := [w.upstreams], upstreams := w.upstreams + 1, bound := true,
               upstream := if some w.value = w.seen then some w.upstreams else none,
               seen := some w.value,
               queue := if some w.value = w.seen then w.queue
                 else w.queue ++ [.member w.events (.reset w.value w.writes)],
               stack := if some w.value = w.seen then w.stack else .subscribed w.upstreams :: w.stack } := by
  obtain ⟨s, n, hle, hseen, hlisteners, -⟩ := h.chained
  have hseen : w.seen = some s := hseen.resolve_right (fun hnone => hne hnone.1)
  have hs : subscribing w.stack = [] := by
    cases h.shape with
    | none hf hu hb hs => exact hs
    | one u hf hu hs => exact hs
    | new u hf hu hs hb' => exact absurd (hb' hb) hne
  have hfree : toMember w.upstreams w.queue = [] := by
    refine toMember_eq_nil (fun listeners event htask hmem => ?_)
    exact lt_irrefl _ (h.queued listeners event htask _ hmem)
  by_cases heq : some w.value = w.seen
  · -- The first snapshot is what the listeners have.
    simp only [heq, if_true]
    obtain rfl : w.value = s := by rw [hseen] at heq; exact Option.some.inj heq
    refine ⟨⟨w.value, n, hle, Or.inl hseen, hlisteners, ?_⟩, .one w.upstreams rfl rfl hs, h.events, h.tasks, ?_, ?_⟩
    · intro u hu
      rw [mem_singleton.mp hu, hfree]
      exact ⟨eqv_refl _, hle⟩
    · intro u hu
      rw [mem_singleton.mp hu]
      exact Nat.lt_succ_self _
    · exact fun listeners event htask u hu => Nat.lt_succ_of_lt (h.queued listeners event htask u hu)
  · simp only [heq, if_false]
    refine ⟨⟨w.value, w.writes, Nat.le_refl _, Or.inl rfl, fun l hl => ?_, fun u hu => ?_⟩, ?_, h.events, ?_, ?_, ?_⟩
    · rw [toListener_append, toListener_member, if_pos hl, toListener_nil, append_nil]
      exact (hlisteners l hl).snoc (.reset w.value w.writes) hle
    · rw [mem_singleton.mp hu, toMember_append, toMember_member, hfree]
      exact ⟨eqv_refl _, Nat.le_refl _⟩
    · refine .new w.upstreams rfl rfl ?_ (by simp)
      simpa [subscribing] using hs
    · intro task htask
      rcases mem_append.mp htask with htask | htask
      · exact h.tasks task htask
      · rw [mem_singleton.mp htask]
        exact h.events
    · intro u hu
      rw [mem_singleton.mp hu]
      exact Nat.lt_succ_self _
    · intro listeners event htask u hu
      rcases mem_append.mp htask with htask | htask
      · exact Nat.lt_succ_of_lt (h.queued listeners event htask u hu)
      · cases mem_singleton.mp htask

theorem inv_bind [DecidableEq V] (h : Core json w) : Inv json w.bind := by
  unfold State.bind
  dsimp only
  split
  · next heq =>
    refine ⟨h, fun hb l hl => ?_⟩
    rw [hb] at heq
    have : w.events = [] := by simpa using heq
    rw [this] at hl
    cases hl
  · next hne =>
    split
    · next hnot =>
      have hempty : w.events = [] := by simpa using hnot
      have hfalse : (!w.events.isEmpty) = false := by simp [hempty]
      rw [hfalse]
      refine ⟨core_drop h hempty, fun _ l hl => ?_⟩
      have hl : l ∈ w.events := hl
      rw [hempty] at hl
      cases hl
    · next hnot =>
      have hlistening : (!w.events.isEmpty) = true := by simpa using hnot
      have hevents : w.events ≠ [] := by simpa using hlistening
      have hb : w.bound = false := by
        rw [hlistening] at hne
        simpa using Ne.symm hne
      have hfanout : w.fanout.filter (fun u => some u ≠ w.upstream) = [] := by
        cases h.shape with
        | none hf hu hb hs => simp [hf]
        | one u hf hu hs => simp [hf, hu]
        | new u hf hu hs hb' => exact absurd (hb' hb) hevents
      have hjoin := core_join h hb hevents
      rw [hfanout, hlistening]
      split
      · next heq =>
        simp only [heq, if_true] at hjoin
        exact ⟨by simpa using hjoin, by simp⟩
      · next heq =>
        simp only [heq, if_false] at hjoin
        exact ⟨by simpa using hjoin, by simp⟩

/-- The queue is other, and the member has seen more: for the steps that deliver. -/
theorem Inv.queue (h : Inv json w) (w' : State V L) (hchained : ∃ s n, Chained json w' s n)
    (htasks : ∀ task ∈ w'.queue, task.Nodup)
    (hqueued : ∀ listeners event, .source listeners event ∈ w'.queue → ∀ u ∈ listeners, u < w.upstreams)
    (hsame : w'.fanout = w.fanout ∧ w'.upstreams = w.upstreams ∧ w'.bound = w.bound ∧ w'.upstream = w.upstream ∧
      w'.events = w.events ∧ w'.stack = w.stack) : Inv json w' := by
  obtain ⟨hf, hn, hb, hu, he, hs⟩ := hsame
  refine ⟨⟨hchained, ?_, he ▸ h.events, htasks, by rw [hf, hn]; exact h.known, by rw [hn]; exact hqueued⟩,
    by rw [hb, he, hs]; exact h.window⟩
  cases h.shape with
  | none hf' hu' hb' hs' => exact .none (hf.trans hf') (hu.trans hu') (hb.trans hb') (by rw [hs]; exact hs')
  | one u hf' hu' hs' => exact .one u (hf.trans hf') (hu.trans hu') (by rw [hs]; exact hs')
  | new u hf' hu' hs' hb' =>
    exact .new u (hf.trans hf') (hu.trans hu') (by rw [hs]; exact hs') (by rw [hb, he]; exact hb')

omit [DecidableEq L] in
theorem Shape.single (h : Shape w) {u v : ℕ} (hu : u ∈ w.fanout) (hv : v ∈ w.fanout) : v = u := by
  cases h with
  | none hf => simp [hf] at hu
  | one x hf => simp [hf] at hu hv; rw [hu, hv]
  | new x hf => simp [hf] at hu hv; rw [hu, hv]

theorem inv_done (h : Inv json w) (task : Task V L) (queue : List (Task V L)) (hq : w.queue = task :: queue)
    (hsource : ∀ u, toMember u [task] = []) (hmember : ∀ l, toListener l [task] = []) :
    Inv json { w with queue := queue } := by
  obtain ⟨s, n, hle, hseen, hlisteners, hupstream⟩ := h.chained
  have htasks := h.tasks
  have hqueued := h.queued
  rw [hq] at htasks hqueued hlisteners hupstream
  refine h.queue _ ⟨s, n, hle, hseen, fun l hl => ?_, fun u hu => ?_⟩ (fun t ht => htasks t (mem_cons_of_mem _ ht))
    (fun ls e ht => hqueued ls e (mem_cons_of_mem _ ht)) ⟨rfl, rfl, rfl, rfl, rfl, rfl⟩
  · have := hlisteners l hl
    rwa [← singleton_append, toListener_append, hmember, nil_append] at this
  · have := hupstream u hu
    rwa [← singleton_append, toMember_append, hsource, nil_append] at this

theorem inv_source (h : Inv json w) (u : ℕ) (us : List ℕ) (event : Event V) (queue : List (Task V L))
    (hq : w.queue = .source (u :: us) event :: queue) :
    Inv json (if u ∈ w.fanout then State.forward { w with queue := .source us event :: queue } event
      else { w with queue := .source us event :: queue }) := by
  obtain ⟨s, n, hle, hseen, hlisteners, hmember⟩ := h.chained
  have htasks := h.tasks
  have hqueued := h.queued
  rw [hq] at htasks hqueued hlisteners hmember
  have hnodup : u ∉ us ∧ us.Nodup := nodup_cons.mp (htasks _ mem_cons_self)
  have htasks' : ∀ task ∈ Task.source us event :: queue, task.Nodup := by
    rw [forall_mem_cons] at htasks ⊢
    exact ⟨hnodup.2, htasks.2⟩
  have hqueued' : ∀ ls e, Task.source ls e ∈ Task.source us event :: queue → ∀ v ∈ ls, v < w.upstreams := by
    intro ls e ht v hv
    rcases mem_cons.mp ht with ht | ht
    · cases ht
      exact hqueued (u :: us) event mem_cons_self v (mem_cons_of_mem _ hv)
    · exact hqueued ls e (mem_cons_of_mem _ ht) v hv
  split
  · next hu =>
    have hfollows := hmember u hu
    rw [toMember_source, if_pos mem_cons_self] at hfollows
    obtain ⟨hfits, hrest⟩ := hfollows
    refine h.queue _ ⟨event.value, event.rev, hrest.le, Or.inl rfl, fun l hl => ?_, fun v hv => ?_⟩ ?_ ?_
      ⟨rfl, rfl, rfl, rfl, rfl, rfl⟩
    · have hl : l ∈ w.events := hl
      simp only [State.forward, toListener_append, toListener_source, toListener_member, hl, if_true,
        toListener_nil, append_nil]
      exact (by simpa using hlisteners l hl : Follows json s n (toListener l queue) _ _).snoc event hfits
    · obtain rfl := h.shape.single hu hv
      simp only [State.forward, toMember_append, toMember_source, hnodup.1, if_false, nil_append, toMember_member,
        toMember_nil, append_nil]
      exact hrest
    · intro task htask
      rcases mem_append.mp htask with htask | htask
      · exact htasks' task htask
      · rw [mem_singleton.mp htask]
        exact h.events
    · intro ls e htask
      rcases mem_append.mp htask with htask | htask
      · exact hqueued' ls e htask
      · cases mem_singleton.mp htask
  · next hu =>
    refine h.queue _ ⟨s, n, hle, hseen, fun l hl => by simpa using hlisteners l hl, fun v hv => ?_⟩ htasks' hqueued'
      ⟨rfl, rfl, rfl, rfl, rfl, rfl⟩
    have hvu : v ≠ u := fun hvu => hu (hvu ▸ hv)
    have := hmember v hv
    rw [toMember_source] at this ⊢
    simpa [hvu] using this

theorem inv_member (h : Inv json w) (l : L) (ls : List L) (event : Event V) (queue : List (Task V L))
    (hq : w.queue = .member (l :: ls) event :: queue) :
    Inv json (if l ∈ w.events then
        { w with queue := .member ls event :: queue, fold := update w.fold l (foldEvent json (w.fold l) event),
                 rev := update w.rev l event.rev }
      else { w with queue := .member ls event :: queue }) := by
  obtain ⟨s, n, hle, hseen, hlisteners, hmember⟩ := h.chained
  have htasks := h.tasks
  have hqueued := h.queued
  rw [hq] at htasks hqueued hlisteners hmember
  have hnodup : l ∉ ls ∧ ls.Nodup := nodup_cons.mp (htasks _ mem_cons_self)
  have htasks' : ∀ task ∈ Task.member ls event :: queue, task.Nodup := by
    rw [forall_mem_cons] at htasks ⊢
    exact ⟨hnodup.2, htasks.2⟩
  have hqueued' : ∀ us e, Task.source us e ∈ Task.member ls event :: queue → ∀ v ∈ us, v < w.upstreams := by
    intro us e ht
    rcases mem_cons.mp ht with ht | ht
    · cases ht
    · exact hqueued us e (mem_cons_of_mem _ ht)
  -- For every other listener the queue holds what it held.
  have hother : ∀ k ∈ w.events, k ≠ l →
      Follows json s n (toListener k (.member ls event :: queue)) (w.fold k) (w.rev k) := by
    intro k hk hkl
    have := hlisteners k hk
    rw [toListener_member] at this ⊢
    simpa [hkl] using this
  have hupstream : ∀ u ∈ w.fanout,
      Follows json w.value w.writes (toMember u (Task.member ls event :: queue)) (json s) n := by
    intro u hu
    simpa using hmember u hu
  split
  · next hl =>
    refine h.queue _ ⟨s, n, hle, hseen, fun k hk => ?_, hupstream⟩ htasks' hqueued' ⟨rfl, rfl, rfl, rfl, rfl, rfl⟩
    by_cases hkl : k = l
    · subst hkl
      have := hlisteners k hk
      rw [toListener_member, if_pos mem_cons_self] at this
      dsimp only
      rw [toListener_member, if_neg hnodup.1, update_self, update_self]
      exact this.consume
    · dsimp only
      rw [update_of_ne hkl, update_of_ne hkl]
      exact hother k hk hkl
  · next hl =>
    refine h.queue _ ⟨s, n, hle, hseen, fun k hk => ?_, hupstream⟩ htasks' hqueued' ⟨rfl, rfl, rfl, rfl, rfl, rfl⟩
    exact hother k hk (fun hkl => hl (hkl ▸ hk))

theorem inv_deliver (h : Inv json w) : Inv json (w.deliver json) := by
  unfold State.deliver
  split
  · exact h
  · next event queue hq => exact inv_done h _ queue hq (fun u => by simp [toMember_source]) (fun l => by simp)
  · next u us event queue hq => exact inv_source h u us event queue hq
  · next event queue hq => exact inv_done h _ queue hq (fun u => by simp) (fun l => by simp [toListener_member])
  · next l ls event queue hq => exact inv_member h l ls event queue hq

theorem core_erase (h : Core json w) (l : L) : Core json { w with events := w.events.erase l } := by
  obtain ⟨s, n, hle, hseen, hlisteners, hmember⟩ := h.chained
  refine ⟨⟨s, n, hle, ?_, fun k hk => hlisteners k (mem_of_mem_erase hk), hmember⟩, ?_, h.events.erase l, h.tasks,
    h.known, h.queued⟩
  · rcases hseen with hs | ⟨he, hf⟩
    · exact Or.inl hs
    · exact Or.inr ⟨by simp [he], hf⟩
  · cases h.shape with
    | none hf hu hb hs => exact .none hf hu hb hs
    | one u hf hu hs => exact .one u hf hu hs
    | new u hf hu hs hb => exact .new u hf hu hs (fun hfalse => by simp [hb hfalse])

theorem core_pop (h : Core json w) (l : L) (stack : List (Frame L)) (hstack : w.stack = .snapped l :: stack) :
    Core json { w with stack := stack } := by
  have hs' : subscribing w.stack = subscribing stack := by rw [hstack]; rfl
  refine ⟨h.chained, ?_, h.events, h.tasks, h.known, h.queued⟩
  cases h.shape with
  | none hf hu hb hs => exact .none hf hu hb (hs'.symm.trans hs)
  | one u hf hu hs => exact .one u hf hu (hs'.symm.trans hs)
  | new u hf hu hs hb => exact .new u hf hu (hs'.symm.trans hs) hb

theorem inv_subscribed (h : Inv json w) (u : ℕ) (stack : List (Frame L)) (hstack : w.stack = .subscribed u :: stack) :
    Inv json { w with stack := stack, upstream := some u } := by
  have hs' : subscribing w.stack = u :: subscribing stack := by rw [hstack]; rfl
  obtain ⟨v, hf, hs, hb⟩ : ∃ v, w.fanout = [v] ∧ subscribing w.stack = [v] ∧ (w.bound = false → w.events = []) := by
    cases h.shape with
    | none hf hu hb hs => rw [hs'] at hs; cases hs
    | one v hf hu hs => rw [hs'] at hs; cases hs
    | new v hf hu hs hb => exact ⟨v, hf, hs, hb⟩
  rw [hs'] at hs
  obtain ⟨rfl, hnone⟩ := List.cons.inj hs
  refine ⟨⟨h.chained, .one u hf rfl hnone, h.events, h.tasks, h.known, h.queued⟩, fun hfalse l hl => ?_⟩
  have hl : l ∈ w.events := hl
  rw [hb hfalse] at hl
  cases hl

theorem inv_step [DecidableEq V] (h : Inv json w) (s : Step V L) (hexact : Exact json w s) (hsafe : SafeStep w s) :
    Inv json (w.step json s) := by
  cases s with
  | write value ops => exact ⟨core_write h.toCore value ops hexact, h.window⟩
  | events l =>
    refine ⟨core_events h.toCore l hsafe, fun hb k hk => ?_⟩
    have hk : k ∈ w.events ++ [l] := by simpa [State.step, hsafe.fresh.1] using hk
    rcases mem_append.mp hk with hk | hk
    · exact mem_cons_of_mem _ (h.window hb k hk)
    · rw [mem_singleton.mp hk]
      exact mem_cons_self
  | unsubscribe l => exact inv_bind (core_erase h.toCore l)
  | deliver => exact inv_deliver h
  | ret =>
    simp only [State.step]
    split
    · exact h
    · next l stack hstack => exact inv_bind (core_pop h.toCore l stack hstack)
    · next u stack hstack => exact inv_subscribed h u stack hstack

end Steps

/-! ## Every run -/

/-- What a subscription promises. A listener that is still in the middle of `events` may be behind. -/
structure Faithful (json : V → JsonValue) (w : State V L) : Prop where
  /-- With nothing queued, the events make the source's value. -/
  current : w.queue = [] → ∀ l ∈ w.events, .snapped l ∉ w.stack → (w.fold l).Eqv (json w.value)
  /-- The batch that comes next is newer than the listener's value, and applies to it. -/
  next : ∀ l ls ops value rev queue, w.queue = .member (l :: ls) (.ops ops value rev) :: queue → l ∈ w.events →
    w.rev l < rev ∧ ∃ next, apply (w.fold l) ops = .ok next ∧ next.Eqv (json value)

theorem Inv.faithful {w : State V L} (h : Inv json w) : Faithful json w := by
  obtain ⟨s, n, hle, hseen, hlisteners, hmember⟩ := h.chained
  refine ⟨fun hq l hl hstack => ?_, fun l ls ops value rev queue hq hl => ?_⟩
  · have hbound : w.bound ≠ false := fun hb => hstack (h.window hb l hl)
    obtain ⟨u, hu⟩ : ∃ u, u ∈ w.fanout := by
      cases h.shape with
      | none hf hu hb hs => exact absurd hb hbound
      | one u hf => exact ⟨u, by simp [hf]⟩
      | new u hf => exact ⟨u, by simp [hf]⟩
    have hlistener := hlisteners l hl
    have hupstream := hmember u hu
    rw [hq] at hlistener hupstream
    exact eqv_trans hlistener.1 hupstream.1
  · have := hlisteners l hl
    rw [hq, toListener_member, if_pos mem_cons_self] at this
    exact this.1

/-- In every run whose writes are exact and whose subscriptions are safe, they stay faithful all along. -/
theorem member_faithful [DecidableEq V] (json : V → JsonValue) (initial : V) (steps : List (Step V L))
    (h : (machine json initial).Allowed (fun w s => Exact json w s ∧ SafeStep w s) (machine json initial).start steps) :
    (machine json initial).Always (Faithful json) (machine json initial).start steps :=
  ((machine json initial).always_of_allowed (P := Inv json) (fun _ s hw hs => inv_step hw s hs.1 hs.2)
    (inv_start json initial) h).mono (fun _ hw => hw.faithful)

/-! A log that grows by one letter with each write. -/

def sampleLog (n : ℕ) : JsonValue := .obj [(js "log", .prim (.str (List.replicate n 120)))]

def sampleWrite (n : ℕ) : Step ℕ ℕ := .write n [.edit [.key (js "log")] (.a (js "x"))]

theorem apply_sampleWrite : apply (sampleLog 0) [.edit [.key (js "log")] (.a (js "x"))] = .ok (sampleLog 1) ∧
    apply (sampleLog 1) [.edit [.key (js "log")] (.a (js "x"))] = .ok (sampleLog 2) := ⟨rfl, rfl⟩

def sampleRun : List (Step ℕ ℕ) :=
  [.events 0, .ret, sampleWrite 1, .deliver, .deliver, .events 1, .ret, .deliver, .deliver, sampleWrite 2]

theorem sampleRun_allowed :
    (machine sampleLog 0).Allowed (fun w s => Exact sampleLog w s ∧ SafeStep w s) (machine sampleLog 0).start
      sampleRun := by
  obtain ⟨hfirst, hsecond⟩ := apply_sampleWrite
  simp [sampleRun, Machine.Allowed, SafeStep, machine, State.step, Exact, sampleWrite, State.bind, State.deliver,
    State.forward]
  refine ⟨⟨?_, ?_, ?_, ?_⟩, ⟨_, hfirst, eqv_refl _⟩, ⟨?_, ?_, ?_, ?_⟩, _, hsecond, eqv_refl _⟩ <;>
    simp [Task.names, Task.heard]

theorem member_faithful_sample :
    (machine sampleLog 0).Always (Faithful sampleLog) (machine sampleLog 0).start sampleRun :=
  member_faithful sampleLog 0 sampleRun sampleRun_allowed

/-- The first listener, when it is called for the first write, writes again and then brings in the second one. -/
def lateRun : List (Step ℕ ℕ) :=
  [.events 0, .ret, sampleWrite 1, .deliver, .deliver, .deliver, sampleWrite 2, .events 1, .ret, .deliver, .deliver,
    .deliver, .deliver, .deliver, .deliver]

theorem not_eqv_sampleLog : ¬ (sampleLog 3).Eqv (sampleLog 2) := by
  intro h
  have hlog : Option.Rel Eqv (some (str (List.replicate 3 120))) (some (str (List.replicate 2 120))) :=
    (eqv_obj_iff _ _).mp h (js "log")
  cases hlog with
  | some he => simp [str] at he; cases he

/-- The snapshot of the second listener has the second write, and its batch comes again: the queue is empty, and the
listener has one letter too many. -/
theorem late_subscription : (machine sampleLog 0).Allowed (Exact sampleLog) (machine sampleLog 0).start lateRun ∧
    ¬ (machine sampleLog 0).Always (Faithful sampleLog) (machine sampleLog 0).start lateRun := by
  obtain ⟨hfirst, hsecond⟩ := apply_sampleWrite
  refine ⟨⟨trivial, trivial, ⟨_, hfirst, eqv_refl _⟩, trivial, trivial, trivial, ⟨_, hsecond, eqv_refl _⟩, trivial,
    trivial, trivial, trivial, trivial, trivial, trivial, trivial, trivial⟩, fun h => ?_⟩
  have hstack : ((machine sampleLog 0).runFrom (machine sampleLog 0).start lateRun).stack = [] := rfl
  exact not_eqv_sampleLog (h.last.current rfl 1 (by decide) (by rw [hstack]; simp))

end PiAgent.Members
