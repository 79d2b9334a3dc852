import PiAgent.Chord.Publisher

/-! # What subscribers are told -/

namespace PiAgent.Replicated

open Option Function List

variable {T κ : Type}

/-! ## Streams of deliveries -/

structure Stream (published : List T) (hydrated : ℕ) (l : List (StateDelivery T κ)) : Prop where
  first : ∀ e ∈ l.head?, e.kind = .hydrate ∧ e.sequence = hydrated
  updates : ∀ e ∈ l.tail, e.kind = .update
  ascending : (l.map (fun e => e.sequence)).Pairwise (· < ·)
  values : ∀ e ∈ l, published[e.sequence]? = some e.value

variable {l : List (StateDelivery T κ)} {published : List T} {hydrated : ℕ}

theorem Stream.take {r : List (StateDelivery T κ)} (h : Stream published hydrated (l ++ r)) :
    Stream published hydrated l := by
  refine ⟨fun e he => h.first e ?_, fun e he => h.updates e ?_, ?_, fun e he => h.values e (by simp [he])⟩
  · cases l with
    | nil => cases he
    | cons => exact he
  · cases l with
    | nil => cases he
    | cons => simp at he ⊢; exact .inl he
  · have hasc := h.ascending
    rw [map_append] at hasc
    exact (pairwise_append.mp hasc).1

theorem Stream.snoc {frame : StateDelivery T κ} (h : Stream published hydrated l) (hne : l ≠ [])
    (hkind : frame.kind = .update) (hlt : ∀ e ∈ l, e.sequence < frame.sequence)
    (hvalue : published[frame.sequence]? = some frame.value) : Stream published hydrated (l ++ [frame]) := by
  obtain ⟨e, l, rfl⟩ := exists_cons_of_ne_nil hne
  refine ⟨h.first, fun d hd => ?_, ?_, fun d hd => ?_⟩
  · simp only [cons_append, tail_cons, mem_append, mem_singleton] at hd
    rcases hd with hd | rfl
    · exact h.updates d hd
    · exact hkind
  · rw [map_append, pairwise_append]
    refine ⟨h.ascending, by simp, fun a ha b hb => ?_⟩
    obtain ⟨d, hd, rfl⟩ := mem_map.mp ha
    simp only [map_cons, map_nil, mem_singleton] at hb
    exact hb ▸ hlt d hd
  · simp only [mem_append, mem_singleton] at hd
    rcases hd with hd | rfl
    · exact h.values d hd
    · exact hvalue

theorem Stream.publish (value : T) (h : Stream published hydrated l) :
    Stream (published ++ [value]) hydrated l := by
  refine ⟨h.first, h.updates, h.ascending, fun e he => ?_⟩
  have hv := h.values e he
  rw [getElem?_append_left (List.getElem?_eq_some_iff.mp hv).1]
  exact hv

theorem Stream.le_last {n : ℕ} (h : Stream published hydrated l)
    (hlast : (l.map (fun e => e.sequence)).getLast? = some n) : ∀ e ∈ l, e.sequence ≤ n := by
  intro e he
  obtain ⟨ini, hini⟩ := getLast?_eq_some_iff.mp hlast
  have hasc := h.ascending
  have hmem : e.sequence ∈ l.map (fun e => e.sequence) := mem_map_of_mem he
  rw [hini] at hasc hmem
  rcases mem_append.mp hmem with hin | hin
  · exact Nat.le_of_lt ((pairwise_append.mp hasc).2.2 _ hin n (by simp))
  · exact Nat.le_of_eq (mem_singleton.mp hin)

/-! ## One subscriber -/

namespace Subscriber

def received (x : Subscriber T κ) : List (StateDelivery T κ) := x.delivered ++ x.pending

def last (x : Subscriber T κ) : Option ℕ := (x.received.map (fun e => e.sequence)).getLast?

structure Ordered (published : List T) (x : Subscriber T κ) : Prop where
  stream : Stream published x.hydrated x.received
  gapless : x.overflowed = false → x.received.map (fun e => e.sequence) = List.range' x.hydrated x.received.length
  started : x.started = false ↔ x.delivered = []
  bounded : x.pending.length ≤ 100
  closed : x.closed = true → x.pending = []

variable {published : List T}

theorem Ordered.publish {x : Subscriber T κ} (value : T) (h : x.Ordered published) :
    x.Ordered (published ++ [value]) :=
  ⟨h.stream.publish value, h.gapless, h.started, h.bounded, h.closed⟩

theorem Ordered.flags {x : Subscriber T κ} (h : x.Ordered published) (running awaited : Bool) :
    ({ x with running := running, awaited := awaited } : Subscriber T κ).Ordered published :=
  ⟨h.stream, h.gapless, h.started, h.bounded, h.closed⟩

theorem Ordered.gapless_delivered {x : Subscriber T κ} (h : x.Ordered published) (ho : x.overflowed = false) :
    x.delivered.map (fun e => e.sequence) = List.range' x.hydrated x.delivered.length := by
  have hgap := h.gapless ho
  rw [received, map_append, length_append] at hgap
  have htake := congrArg (List.take x.delivered.length) hgap
  rw [take_left' (by simp), take_range'_of_length_ge (by omega)] at htake
  exact htake

section

variable (x : Subscriber T κ)

@[simp] theorem push_fields (frame : StateDelivery T κ) :
    (x.push frame).hydrated = x.hydrated ∧ (x.push frame).closed = x.closed ∧
      (x.push frame).running = x.running ∧ (x.push frame).awaited = x.awaited := by
  unfold push
  split
  · exact ⟨rfl, rfl, rfl, rfl⟩
  · split <;> exact ⟨rfl, rfl, rfl, rfl⟩

theorem last_of_received (l : List (StateDelivery T κ)) (frame : StateDelivery T κ)
    (h : x.received = l ++ [frame]) : x.last = some frame.sequence := by
  unfold last
  simp [h]

theorem push_of_closed (frame : StateDelivery T κ) (h : x.closed = true) : x.push frame = x := by
  unfold push
  rw [if_pos h]

theorem push_received (published : List T) (frame : StateDelivery T κ) (h : x.Ordered published)
    (hopen : x.closed = false) (hne : x.received ≠ []) :
    ∃ kept rest, x.received = kept ++ rest ∧ kept ≠ [] ∧ (x.push frame).received = kept ++ [frame] ∧
      ((x.push frame).overflowed = false → x.overflowed = false ∧ rest = []) := by
  unfold push
  rw [if_neg (by simp [hopen])]
  split
  · rename_i hfull
    cases hs : x.started with
    | true =>
      refine ⟨x.delivered, x.pending, rfl, ?_, by simp [received], fun ho => (by cases ho)⟩
      intro hd
      rw [← h.started, hs] at hd
      cases hd
    | false =>
      have hd := h.started.mp hs
      refine ⟨x.pending.take 1, x.pending.drop 1, ?_, ?_, by simp [received, hd], fun ho => (by cases ho)⟩
      · rw [List.take_append_drop, received, hd, nil_append]
      · intro ht
        have hlen := congrArg List.length ht
        simp [hfull] at hlen
  · exact ⟨x.received, [], by simp, hne, by simp [received], fun ho => ⟨ho, rfl⟩⟩

theorem push_ordered (published : List T) (frame : StateDelivery T κ) (h : x.Ordered published)
    (hopen : x.closed = false) (n : ℕ) (hlast : x.last = some n) (hkind : frame.kind = .update)
    (hseq : frame.sequence = n + 1) (hvalue : published[frame.sequence]? = some frame.value) :
    (x.push frame).Ordered published ∧ (x.push frame).last = some frame.sequence := by
  have hne : x.received ≠ [] := by
    intro he
    simp [last, he] at hlast
  obtain ⟨kept, rest, hsplit, hkept, hpush, hover⟩ := push_received x published frame h hopen hne
  have hle := h.stream.le_last hlast
  have hstream : Stream published x.hydrated kept := Stream.take (hsplit ▸ h.stream)
  refine ⟨⟨?_, fun ho => ?_, ?_, ?_, fun hc => by simp [hopen] at hc⟩, last_of_received _ kept frame hpush⟩
  · rw [hpush, (push_fields _ _).1]
    refine hstream.snoc hkept hkind (fun e he => ?_) hvalue
    have := hle e (by simp [hsplit, he])
    omega
  · obtain ⟨ho, rfl⟩ := hover ho
    rw [append_nil] at hsplit
    have hgap := h.gapless ho
    have hlen : x.received.length = n + 1 - x.hydrated ∧ x.hydrated ≤ n := by
      unfold last at hlast
      have hpos : 0 < x.received.length := length_pos_iff.mpr hne
      rw [hgap, getLast?_range'] at hlast
      split at hlast
      · omega
      · simp only [Option.some.injEq] at hlast
        omega
    rw [hpush, (push_fields _ _).1, map_append, ← hsplit, hgap, length_append, length_singleton, range'_concat]
    simp only [map_cons, map_nil, hseq]
    congr 2
    omega
  · unfold push
    rw [if_neg (by simp [hopen])]
    split <;> exact h.started
  · unfold push
    rw [if_neg (by simp [hopen])]
    have hb := h.bounded
    split
    · simp only [length_append, length_singleton]
      split
      · simp
      · simp only [length_take]
        omega
    · simp only [length_append, length_singleton]
      omega

end

end Subscriber

/-! ## The publisher -/

def Frame.loop : Frame T κ → Option (Option (Publication T κ × List (ℕ × ℕ)))
  | .publishing => some none
  | .delivering p rest => some (some (p, rest))
  | _ => none

def loops (stack : List (Frame T κ)) : List (Option (Publication T κ × List (ℕ × ℕ))) := stack.filterMap Frame.loop

def owners (stack : List (Frame T κ)) : List ℕ := stack.filterMap Frame.owner

def remaining : List (Option (Publication T κ × List (ℕ × ℕ))) → List ℕ
  | some (_, rest) :: _ => rest.map Prod.fst
  | _ => []

structure History (published : List T) (value : T) (sequence taken : ℕ) (publications : List (Publication T κ)) :
    Prop where
  length : published.length = sequence + 1
  value : published[sequence]? = some value
  count : sequence = taken + publications.length
  queue : publications.map (fun p => p.sequence) = List.range' (taken + 1) publications.length
  values : ∀ p ∈ publications, published[p.sequence]? = some p.value

/-- A subscriber is running while a callback of its has not returned, or gave a promise that is not settled. -/
structure Calls (owners : List ℕ) (subscribers : ℕ → Subscriber T κ) (next : ℕ) : Prop where
  nodup : owners.Nodup
  lt : ∀ i ∈ owners, i < next
  running : ∀ i < next, ((subscribers i).running = true ↔ i ∈ owners ∨ (subscribers i).awaited = true)
  awaited : ∀ i < next, (subscribers i).awaited = true → i ∉ owners

structure Listening (listeners : List (ℕ × ℕ)) (subscribers : ℕ → Subscriber T κ) (next sequence : ℕ) : Prop where
  nodup : (listeners.map Prod.fst).Nodup
  mem : ∀ l ∈ listeners, l.1 < next ∧ (subscribers l.1).hydrated = l.2
  opened : ∀ i < next, (subscribers i).closed = false → i ∈ listeners.map Prod.fst
  hydrated : ∀ i < next, (subscribers i).hydrated ≤ sequence

inductive Loop (published : List T) (subscribers : ℕ → Subscriber T κ) (next taken : ℕ)
    (publications : List (Publication T κ)) : Bool → List (Option (Publication T κ × List (ℕ × ℕ))) → Prop
  | idle (h : publications = []) : Loop published subscribers next taken publications false []
  | head : Loop published subscribers next taken publications true [none]
  | inner (p : Publication T κ) (rest : List (ℕ × ℕ)) (hp : p.sequence = taken) (hpos : 0 < taken)
      (hvalue : published[p.sequence]? = some p.value) (hn : (rest.map Prod.fst).Nodup)
      (hrest : ∀ l ∈ rest, l.1 < next ∧ (subscribers l.1).hydrated = l.2) :
      Loop published subscribers next taken publications true [some (p, rest), none]

/-- The publications up to `taken` have reached every subscriber, up to the last for those that remain. -/
structure Streams (published : List T) (subscribers : ℕ → Subscriber T κ) (next taken : ℕ) (remaining : List ℕ) :
    Prop where
  ordered : ∀ i < next, (subscribers i).Ordered published
  reached : ∀ i < next, (subscribers i).closed = false →
    (subscribers i).last = some (max (subscribers i).hydrated (if i ∈ remaining then taken - 1 else taken))

namespace Publisher

def taken (s : Publisher T κ) : ℕ := s.sequence - s.publications.length

structure Base (s : Publisher T κ) : Prop where
  history : History s.published s.value s.sequence s.taken s.publications
  calls : Calls (owners s.stack) s.subscribers s.next
  listening : Listening s.listeners s.subscribers s.next s.sequence
  loop : Loop s.published s.subscribers s.next s.taken s.publications s.delivering (loops s.stack)
  streams : Streams s.published s.subscribers s.next s.taken (remaining (loops s.stack))

def Woken (s : Publisher T κ) (i : ℕ) : Prop := (s.subscribers i).pending ≠ [] → (s.subscribers i).running = true

structure Inv (s : Publisher T κ) : Prop extends Base s where
  woken : ∀ i < s.next, Woken s i

end Publisher

/-! ### One subscriber is replaced -/

section Update

variable {subscribers : ℕ → Subscriber T κ} {next i : ℕ} {x : Subscriber T κ}

theorem Calls.replace {os os' : List ℕ} (h : Calls os subscribers next) (hn : os'.Nodup)
    (hothers : ∀ j, j ≠ i → (j ∈ os' ↔ j ∈ os)) (hi : i < next)
    (hx : x.running = true ↔ i ∈ os' ∨ x.awaited = true) (ha : x.awaited = true → i ∉ os') :
    Calls os' (update subscribers i x) next := by
  refine ⟨hn, fun j hj => ?_, fun j hj => ?_, fun j hj hw => ?_⟩
  · by_cases hji : j = i
    · exact hji ▸ hi
    · exact h.lt j ((hothers j hji).mp hj)
  · rw [update_apply]
    split
    · rename_i hji
      exact hji ▸ hx
    · rename_i hji
      rw [hothers j hji]
      exact h.running j hj
  · rw [update_apply] at hw
    split at hw
    · rename_i hji
      exact hji ▸ ha hw
    · rename_i hji
      rw [hothers j hji]
      exact h.awaited j hj hw

theorem Calls.update {os : List ℕ} (h : Calls os subscribers next) (hi : i < next)
    (hr : x.running = (subscribers i).running) (ha : x.awaited = (subscribers i).awaited) :
    Calls os (update subscribers i x) next := by
  refine h.replace h.nodup (fun _ _ => Iff.rfl) hi ?_ ?_
  · rw [hr, ha]
    exact h.running i hi
  · rw [ha]
    exact h.awaited i hi

theorem update_hydrated (hh : x.hydrated = (subscribers i).hydrated) (j : ℕ) :
    (update subscribers i x j).hydrated = (subscribers j).hydrated := by
  rw [update_apply]
  split
  · rename_i hj
    exact hj ▸ hh
  · rfl

theorem Listening.update {listeners : List (ℕ × ℕ)} {sequence : ℕ}
    (h : Listening listeners subscribers next sequence)
    (hh : x.hydrated = (subscribers i).hydrated) (hc : x.closed = (subscribers i).closed) :
    Listening listeners (update subscribers i x) next sequence := by
  refine ⟨h.nodup, fun l hl => ?_, fun j hj ho => h.opened j hj ?_, fun j hj => ?_⟩
  · rw [update_hydrated hh]
    exact h.mem l hl
  · rw [update_apply] at ho
    split at ho
    · rename_i hji
      rw [hji, ← hc, ho]
    · exact ho
  · rw [update_hydrated hh]
    exact h.hydrated j hj

variable {published : List T}

theorem Loop.update {taken : ℕ} {publications : List (Publication T κ)} {delivering : Bool}
    {ls : List (Option (Publication T κ × List (ℕ × ℕ)))}
    (h : Loop published subscribers next taken publications delivering ls)
    (hh : x.hydrated = (subscribers i).hydrated) :
    Loop published (update subscribers i x) next taken publications delivering ls := by
  cases h with
  | idle h => exact .idle h
  | head => exact .head
  | inner p rest hp hpos hvalue hn hrest =>
    refine .inner p rest hp hpos hvalue hn (fun l hl => ?_)
    rw [update_hydrated hh]
    exact hrest l hl

theorem Streams.replace {published : List T} {taken : ℕ} {rem : List ℕ}
    (ho : ∀ j < next, j ≠ i → (subscribers j).Ordered published)
    (hr : ∀ j < next, j ≠ i → (subscribers j).closed = false →
      (subscribers j).last = some (max (subscribers j).hydrated (if j ∈ rem then taken - 1 else taken)))
    (hxo : x.Ordered published)
    (hxr : x.closed = false → x.last = some (max x.hydrated (if i ∈ rem then taken - 1 else taken))) :
    Streams published (update subscribers i x) next taken rem := by
  refine ⟨fun j hj => ?_, fun j hj hc => ?_⟩
  · rw [update_apply]
    split
    · exact hxo
    · rename_i hji
      exact ho j hj hji
  · rw [update_apply] at hc ⊢
    split at hc
    · rename_i hji
      rw [if_pos hji, hji]
      exact hxr hc
    · rename_i hji
      rw [if_neg hji]
      exact hr j hj hji hc

theorem Streams.update {taken : ℕ} {rem : List ℕ} (h : Streams published subscribers next taken rem)
    (ho : x.Ordered published)
    (hr : x.closed = false → x.last = some (max x.hydrated (if i ∈ rem then taken - 1 else taken))) :
    Streams published (update subscribers i x) next taken rem :=
  .replace (fun j hj _ => h.ordered j hj) (fun j hj _ => h.reached j hj) ho hr

end Update

/-! ### What a step keeps -/

namespace Publisher

section

variable (s : Publisher T κ)

/-- A callback of a subscriber is called or returns, or its promise is settled. -/
theorem flags_base (i : ℕ) (running awaited : Bool) (stack : List (Frame T κ)) (h : s.Base) (hi : i < s.next)
    (hl : loops stack = loops s.stack) (hn : (owners stack).Nodup)
    (hothers : ∀ j, j ≠ i → (j ∈ owners stack ↔ j ∈ owners s.stack))
    (hrunning : running = true ↔ i ∈ owners stack ∨ awaited = true)
    (hawaited : awaited = true → i ∉ owners stack) :
    ({ s.set i { s.subscribers i with running := running, awaited := awaited } with
      stack := stack } : Publisher T κ).Base := by
  refine ⟨h.history, h.calls.replace hn hothers hi hrunning hawaited, h.listening.update rfl rfl, ?_, ?_⟩
  · show Loop _ _ _ _ _ _ (loops stack)
    rw [hl]
    exact h.loop.update rfl
  · show Streams _ _ _ _ (remaining (loops stack))
    rw [hl]
    exact h.streams.update ((h.streams.ordered i hi).flags running awaited) (h.streams.reached i hi)

theorem set_woken (i j : ℕ) (x : Subscriber T κ) (stack : List (Frame T κ))
    (hi : x.pending ≠ [] → x.running = true) (h : j ≠ i → s.Woken j) :
    ({ s.set i x with stack := stack } : Publisher T κ).Woken j := by
  unfold Woken set
  simp only [update_apply]
  split
  · exact hi
  · rename_i hji
    exact h hji

theorem drain_base (i : ℕ) (h : s.Base) (hi : i < s.next) : (s.drain i).Base := by
  unfold drain
  split
  · exact h
  rename_i hcond
  simp only [Bool.or_eq_true, not_or, Bool.not_eq_true] at hcond
  have hnot : ¬ (i ∈ owners s.stack ∨ (s.subscribers i).awaited = true) := by
    rw [← h.calls.running i hi]
    simp [hcond.1]
  refine s.flags_base i true (s.subscribers i).awaited (.draining i :: s.stack) h hi rfl
    (nodup_cons.mpr ⟨fun hm => hnot (.inl hm), h.calls.nodup⟩) (fun j hji => ?_) ?_ (fun hw => absurd (.inr hw) hnot)
  · exact ⟨fun hm => (mem_cons.mp hm).resolve_left hji, mem_cons_of_mem i⟩
  · exact ⟨fun _ => .inl mem_cons_self, fun _ => rfl⟩

theorem drain_woken (i j : ℕ) (hc : (s.subscribers i).closed = true → (s.subscribers i).pending = [])
    (h : j ≠ i → s.Woken j) : (s.drain i).Woken j := by
  unfold drain
  split
  · rename_i hcond
    by_cases hji : j = i
    · subst hji
      intro hp
      rcases (Bool.or_eq_true _ _).mp hcond with hr | hcl
      · exact hr
      · exact absurd (hc hcl) hp
    · exact h hji
  · exact s.set_woken i j _ _ (fun _ => rfl) h

@[simp] theorem drain_next (i : ℕ) : (s.drain i).next = s.next := by
  unfold drain
  split <;> rfl

theorem drain_inv (i : ℕ) (h : s.Base) (hi : i < s.next) (hw : ∀ j < s.next, j ≠ i → s.Woken j) :
    (s.drain i).Inv := by
  refine ⟨s.drain_base i h hi, fun j hj => ?_⟩
  rw [drain_next] at hj
  exact s.drain_woken i j (h.streams.ordered i hi).closed (hw j hj)

end

theorem new_inv (initial : T) : (new initial : Publisher T κ).Inv := by
  refine ⟨⟨⟨rfl, rfl, rfl, rfl, by simp [new]⟩, ⟨nodup_nil, ?_, ?_, ?_⟩, ⟨nodup_nil, ?_, ?_, ?_⟩,
      .idle rfl, ⟨?_, ?_⟩⟩,
    ?_⟩ <;> intro i hi <;> cases hi

/-! #### Publication -/

theorem publish_taken (s : Publisher T κ) (value : T) (context : κ) :
    (s.publish value context).taken = s.taken := by
  unfold publish
  simp only
  split <;> simp [taken]

theorem publish_inv (s : Publisher T κ) (value : T) (context : κ) (h : s.Inv) : (s.publish value context).Inv := by
  have ht := s.publish_taken value context
  have hist := h.history
  have hget : ∀ (n : ℕ) (v : T), s.published[n]? = some v → (s.published ++ [value])[n]? = some v := by
    intro n v hn
    rw [getElem?_append_left (List.getElem?_eq_some_iff.mp hn).1]
    exact hn
  have hhist : History (s.published ++ [value]) value (s.sequence + 1) s.taken
      (s.publications ++ [{ value := value, sequence := s.sequence + 1, context := context }]) := by
    have hlast : (s.published ++ [value])[s.sequence + 1]? = some value := by
      rw [← hist.length]
      simp
    refine ⟨by simp [hist.length], hlast, ?_, ?_, fun p hp => ?_⟩
    · have := hist.count
      simp only [length_append, length_singleton]
      omega
    · have := hist.count
      rw [map_append, hist.queue, length_append, length_singleton, range'_concat]
      simp only [map_cons, map_nil]
      congr 2
      omega
    · rcases mem_append.mp hp with hp | hp
      · exact hget _ _ (hist.values p hp)
      · obtain rfl := mem_singleton.mp hp
        exact hlast
  have hlisten : Listening s.listeners s.subscribers s.next (s.sequence + 1) :=
    ⟨h.listening.nodup, h.listening.mem, h.listening.opened, fun i hi => Nat.le_succ_of_le
        (h.listening.hydrated i hi)⟩
  have hstreams : Streams (s.published ++ [value]) s.subscribers s.next s.taken (remaining (loops s.stack)) :=
    ⟨fun i hi => (h.streams.ordered i hi).publish value, h.streams.reached⟩
  have hloop := h.loop
  unfold publish at ht ⊢
  simp only at ht ⊢
  split
  · rename_i hd
    rw [if_pos hd] at ht
    rw [hd] at hloop
    refine ⟨⟨ht ▸ hhist, h.calls, hlisten, ?_, ht ▸ hstreams⟩, h.woken⟩
    show Loop (s.published ++ [value]) s.subscribers s.next _ _ s.delivering (loops s.stack)
    rw [ht, hd]
    generalize loops s.stack = ls at hloop
    cases hloop with
    | head => exact .head
    | inner p rest hp hpos hvalue hn hrest => exact .inner p rest hp hpos (hget _ _ hvalue) hn hrest
  · rename_i hd
    rw [if_neg hd] at ht
    rw [Bool.not_eq_true] at hd
    rw [hd] at hloop
    have hls : loops s.stack = [] := by
      generalize loops s.stack = ls at hloop
      cases hloop
      rfl
    rw [hls] at hstreams
    refine ⟨⟨ht ▸ hhist, h.calls, hlisten, ?_, ?_⟩, h.woken⟩
    · show Loop _ _ _ _ _ true (none :: loops s.stack)
      rw [hls]
      exact .head
    · show Streams _ _ _ _ (remaining (none :: loops s.stack))
      rw [ht]
      exact hstreams

/-! #### The loops of publication and delivery -/

section

variable (s : Publisher T κ)

theorem publishing_inv (stack : List (Frame T κ)) (h : s.Inv) (hs : s.stack = .publishing :: stack) :
    s.tick.Inv := by
  have hist := h.history
  have hloop := h.loop
  have hcalls := h.calls
  have hstreams := h.streams
  rw [hs] at hloop hcalls hstreams
  change Loop _ _ _ _ _ _ (none :: loops stack) at hloop
  change Calls (owners stack) _ _ at hcalls
  change Streams _ _ _ _ [] at hstreams
  have hrest : s.delivering = true ∧ loops stack = [] := by
    generalize s.delivering = d at hloop
    generalize loops stack = ls at hloop
    cases hloop
    exact ⟨rfl, rfl⟩
  unfold tick
  rw [hs]
  simp only
  split
  · rename_i hpub
    refine ⟨⟨hist, hcalls, h.listening, ?_, ?_⟩, h.woken⟩
    · show Loop _ _ _ _ _ false (loops stack)
      rw [hrest.2]
      exact .idle hpub
    · show Streams _ _ _ _ (remaining (loops stack))
      rw [hrest.2]
      exact hstreams
  · rename_i p publications hpub
    have hcount := hist.count
    rw [hpub] at hcount
    have ht : s.sequence - publications.length = s.taken + 1 := by
      simp only [length_cons] at hcount
      omega
    have hqueue := hist.queue
    rw [hpub, map_cons, length_cons, range'_succ] at hqueue
    obtain ⟨hp, hqueue⟩ := List.cons.inj hqueue
    have hvalues := hist.values
    rw [hpub] at hvalues
    refine ⟨⟨?_, hcalls, h.listening, ?_, ?_⟩, h.woken⟩
    · show History _ _ _ (s.sequence - publications.length) publications
      rw [ht]
      refine ⟨hist.length, hist.value, ?_, hqueue, fun q hq => hvalues q (by simp [hq])⟩
      show s.sequence = s.taken + 1 + publications.length
      simp only [length_cons] at hcount
      omega
    · show Loop _ _ _ (s.sequence - publications.length) _ s.delivering
          (some (p, s.listeners) :: none :: loops stack)
      rw [ht, hrest.1, hrest.2]
      exact .inner p s.listeners hp (Nat.succ_pos _) (hvalues p (by simp)) h.listening.nodup h.listening.mem
    · show Streams _ _ _ (s.sequence - publications.length) (s.listeners.map Prod.fst)
      rw [ht]
      refine ⟨hstreams.ordered, fun i hi hc => ?_⟩
      rw [if_pos (h.listening.opened i hi hc), Nat.add_sub_cancel]
      exact hstreams.reached i hi hc

theorem delivering_loop (p : Publication T κ) (rest : List (ℕ × ℕ)) (stack : List (Frame T κ)) (h : s.Inv)
    (hs : s.stack = .delivering p rest :: stack) :
    s.delivering = true ∧ loops stack = [none] ∧ p.sequence = s.taken ∧ 0 < s.taken ∧
      s.published[p.sequence]? = some p.value ∧ (rest.map Prod.fst).Nodup ∧
      (∀ l ∈ rest, l.1 < s.next ∧ (s.subscribers l.1).hydrated = l.2) := by
  have hloop := h.loop
  rw [hs] at hloop
  change Loop _ _ _ _ _ _ (some (p, rest) :: loops stack) at hloop
  generalize s.delivering = d at hloop
  generalize loops stack = ls at hloop
  cases hloop with
  | inner p rest hp hpos hvalue hn hrest => exact ⟨rfl, rfl, hp, hpos, hvalue, hn, hrest⟩

theorem delivered_inv (p : Publication T κ) (stack : List (Frame T κ)) (h : s.Inv)
    (hs : s.stack = .delivering p [] :: stack) : s.tick.Inv := by
  obtain ⟨hd, hls, -⟩ := s.delivering_loop p [] stack h hs
  have hcalls := h.calls
  have hstreams := h.streams
  rw [hs] at hcalls hstreams
  change Calls (owners stack) _ _ at hcalls
  change Streams _ _ _ _ [] at hstreams
  unfold tick
  rw [hs]
  refine ⟨⟨h.history, hcalls, h.listening, ?_, ?_⟩, h.woken⟩
  · show Loop _ _ _ _ _ s.delivering (loops stack)
    rw [hd, hls]
    exact .head
  · show Streams _ _ _ _ (remaining (loops stack))
    rw [hls]
    exact hstreams

theorem delivering_inv (p : Publication T κ) (i n : ℕ) (rest : List (ℕ × ℕ)) (stack : List (Frame T κ))
    (h : s.Inv) (hs : s.stack = .delivering p ((i, n) :: rest) :: stack) : s.tick.Inv := by
  obtain ⟨hd, hls, hp, hpos, hvalue, hn, hrest⟩ := s.delivering_loop p _ stack h hs
  obtain ⟨hni, hn⟩ := nodup_cons.mp hn
  obtain ⟨hi, hin⟩ := hrest (i, n) (by simp)
  have hrest : ∀ l ∈ rest, l.1 < s.next ∧ (s.subscribers l.1).hydrated = l.2 := fun l hl => hrest l (by simp [hl])
  have hcalls := h.calls
  have hstreams := h.streams
  rw [hs] at hcalls hstreams
  change Calls (owners stack) _ _ at hcalls
  change Streams _ _ _ _ (i :: rest.map Prod.fst) at hstreams
  have hloop : Loop s.published s.subscribers s.next s.taken s.publications s.delivering
      (some (p, rest) :: loops stack) := by
    rw [hd, hls]
    exact .inner p rest hp hpos hvalue hn hrest
  -- What holds of the others holds whether the publication goes to this one or not.
  have hothers : ∀ j < s.next, j ≠ i → (s.subscribers j).closed = false → (s.subscribers j).last =
      some (max (s.subscribers j).hydrated (if j ∈ rest.map Prod.fst then s.taken - 1 else s.taken)) := by
    intro j hj hji hc
    rw [hstreams.reached j hj hc]
    simp only [mem_cons, hji, false_or]
  have hlast := hstreams.reached i hi
  rw [if_pos (by simp), hin] at hlast
  unfold tick
  rw [hs]
  simp only
  split
  · rename_i hle
    refine ⟨⟨h.history, hcalls, h.listening, hloop, ⟨hstreams.ordered, fun j hj hc => ?_⟩⟩, h.woken⟩
    show _ = some (max _ (if j ∈ rest.map Prod.fst then s.taken - 1 else s.taken))
    by_cases hji : j = i
    · subst hji
      rw [if_neg hni, hlast hc, hin]
      congr 1
      omega
    · exact hothers j hj hji hc
  · rename_i hlt
    have hpush := fun hc => Subscriber.push_ordered (s.subscribers i) s.published
      { value := p.value, context := p.context, kind := .update, sequence := p.sequence }
          (hstreams.ordered i hi) hc _
      (hlast hc) rfl (by simp only; omega) hvalue
    have hreached : Streams s.published (update s.subscribers i
        ((s.subscribers i).push { value := p.value, context := p.context, kind := .update, sequence := p.sequence }))
        s.next s.taken (rest.map Prod.fst) := by
      refine .replace (fun j hj _ => hstreams.ordered j hj) hothers ?_ (fun hc => ?_)
      · cases hc : (s.subscribers i).closed with
        | true =>
          rw [Subscriber.push_of_closed _ _ hc]
          exact hstreams.ordered i hi
        | false => exact (hpush hc).1
      · rw [(Subscriber.push_fields _ _).2.1] at hc
        rw [(hpush hc).2, (Subscriber.push_fields _ _).1, hin, if_neg hni]
        simp only
        congr 1
        omega
    refine drain_inv _ i ⟨h.history, hcalls.update hi (by simp) (by simp), h.listening.update (by simp) (by simp),
      hloop.update (by simp), hreached⟩ hi (fun j hj hji => ?_)
    unfold Woken set
    simp only [update_apply, if_neg hji]
    exact h.woken j hj

theorem draining_inv (i : ℕ) (stack : List (Frame T κ)) (h : s.Inv) (hs : s.stack = .draining i :: stack) :
    s.tick.Inv := by
  have hcalls := h.calls
  have hloop := h.loop
  have hstreams := h.streams
  rw [hs] at hcalls hloop hstreams
  change Calls (i :: owners stack) _ _ at hcalls
  change Loop _ _ _ _ _ _ (loops stack) at hloop
  change Streams _ _ _ _ (remaining (loops stack)) at hstreams
  have hi : i < s.next := hcalls.lt i (by simp)
  have hrun : (s.subscribers i).running = true := (hcalls.running i hi).mpr (.inl (by simp))
  have hord := hstreams.ordered i hi
  unfold tick
  rw [hs]
  simp only
  split
  · rename_i hpending
    obtain ⟨hni, hn⟩ := nodup_cons.mp hcalls.nodup
    have haw : (s.subscribers i).awaited ≠ true := fun hw => hcalls.awaited i hi hw mem_cons_self
    refine ⟨s.flags_base i false (s.subscribers i).awaited stack h.toBase hi (by rw [hs]; rfl) hn (fun j hji => ?_) ?_
      (fun _ => hni), fun j hj => s.set_woken i j _ _ (fun hne => absurd hpending hne) (fun _ => h.woken j hj)⟩
    · rw [hs]
      exact ⟨mem_cons_of_mem i, fun hm => (mem_cons.mp hm).resolve_left hji⟩
    · exact ⟨fun hr => (by cases hr), fun hm => absurd hm (not_or.mpr ⟨hni, haw⟩)⟩
  · rename_i frame pending hpending
    have hreceived : (s.subscribers i).delivered ++ [frame] ++ pending = (s.subscribers i).received := by
      rw [Subscriber.received, hpending, append_assoc, singleton_append]
    have hbounded := hord.bounded
    rw [hpending, length_cons] at hbounded
    have hopen : (s.subscribers i).closed ≠ true := by
      intro hc
      rw [hord.closed hc] at hpending
      cases hpending
    refine ⟨⟨h.history, hcalls.update hi rfl rfl, h.listening.update rfl rfl, hloop.update rfl, hstreams.update
        ⟨?_, ?_, ?_, ?_, ?_⟩ ?_⟩,
      fun j hj => s.set_woken i j _ _ (fun _ => hrun) (fun _ => h.woken j hj)⟩
    · show Stream _ _ ((s.subscribers i).delivered ++ [frame] ++ pending)
      exact hreceived ▸ hord.stream
    · show _ → ((s.subscribers i).delivered ++ [frame] ++ pending).map _ =
          List.range' _ ((s.subscribers i).delivered ++ [frame] ++ pending).length
      exact hreceived ▸ hord.gapless
    · simp
    · show pending.length ≤ 100
      omega
    · exact fun hc => absurd hc hopen
    · show _ → (((s.subscribers i).delivered ++ [frame] ++ pending).map _).getLast? = _
      exact hreceived ▸ hstreams.reached i hi

theorem tick_inv (h : s.Inv) : s.tick.Inv := by
  rcases hs : s.stack with - | ⟨frame, stack⟩
  · unfold tick
    rw [hs]
    exact h
  rcases frame with - | ⟨p, - | ⟨⟨i, n⟩, rest⟩⟩ | i | i | i | i
  · exact s.publishing_inv stack h hs
  · exact s.delivered_inv p stack h hs
  · exact s.delivering_inv p i n rest stack h hs
  · exact s.draining_inv i stack h hs
  all_goals
    unfold tick
    rw [hs]
    exact h

end

/-! #### Callbacks -/

theorem restack_inv (s : Publisher T κ) (stack : List (Frame T κ)) (h : s.Inv) (ho : owners stack = owners s.stack)
    (hl : loops stack = loops s.stack) : ({ s with stack := stack } : Publisher T κ).Inv := by
  refine ⟨⟨h.history, ?_, h.listening, ?_, ?_⟩, h.woken⟩
  · show Calls (owners stack) _ _
    rw [ho]
    exact h.calls
  · show Loop _ _ _ _ _ _ (loops stack)
    rw [hl]
    exact h.loop
  · show Streams _ _ _ _ (remaining (loops stack))
    rw [hl]
    exact h.streams

theorem resume_inv (s : Publisher T κ) (i : ℕ) (stack : List (Frame T κ)) (x : Subscriber T κ) (h : s.Inv)
    (hi : i < s.next) (hl : loops stack = loops s.stack)
    (hx : { x with awaited := (s.subscribers i).awaited } = s.subscribers i) (ha : x.awaited = false)
    (hn : (owners stack).Nodup) (hi' : i ∉ owners stack)
    (hothers : ∀ j, j ≠ i → (j ∈ owners stack ↔ j ∈ owners s.stack)) :
    (({ s with stack := stack } : Publisher T κ).set i x |>.resume i).Inv := by
  have hflags : { x with running := false } = { s.subscribers i with running := false, awaited := false } := by
    rw [← hx, ← ha]
  have hbase := s.flags_base i false false stack h.toBase hi hl hn hothers
    ⟨fun hr => (by cases hr), fun hm => absurd (hm.resolve_right (by simp)) hi'⟩ (fun _ => hi')
  rw [← hflags] at hbase
  have hset : (({ s with stack := stack } : Publisher T κ).set i x).set i { x with running := false }
      = { s.set i { x with running := false } with stack := stack } := by
    unfold set
    simp only [update_idem]
  unfold resume
  rw [show (({ s with stack := stack } : Publisher T κ).set i x).subscribers i = x from update_self .., hset]
  refine drain_inv _ i hbase hi (fun j hj hji => ?_)
  unfold Woken set
  simp only [update_apply, if_neg hji]
  exact h.woken j hj

theorem promised_inv (s : Publisher T κ) (i : ℕ) (stack : List (Frame T κ)) (h : s.Inv)
    (hs : s.stack = .listener i :: stack) :
    ({ s.set i { s.subscribers i with awaited := true } with stack := stack } : Publisher T κ).Inv := by
  have hcalls := h.calls
  rw [hs] at hcalls
  change Calls (i :: owners stack) _ _ at hcalls
  have hi : i < s.next := hcalls.lt i (by simp)
  have hrun : (s.subscribers i).running = true := (hcalls.running i hi).mpr (.inl (by simp))
  obtain ⟨hni, hn⟩ := nodup_cons.mp hcalls.nodup
  refine ⟨s.flags_base i (s.subscribers i).running true stack h.toBase hi (by rw [hs]; rfl) hn (fun j hji => ?_)
    ⟨fun _ => .inr rfl, fun _ => hrun⟩ (fun _ => hni), fun j hj =>
      s.set_woken i j _ _ (fun _ => hrun) (fun _ => h.woken j hj)⟩
  rw [hs]
  exact ⟨mem_cons_of_mem i, fun hm => (mem_cons.mp hm).resolve_left hji⟩

theorem rejected_inv (s : Publisher T κ) (i : ℕ) (h : s.Inv) (hs : s.stack = []) (hi : i < s.next)
    (ha : (s.subscribers i).awaited = true) :
    ({ s.set i { s.subscribers i with awaited := false } with stack := [.rejecting i] } : Publisher T κ).Inv := by
  have hrun : (s.subscribers i).running = true := (h.calls.running i hi).mpr (.inr ha)
  refine ⟨s.flags_base i (s.subscribers i).running false [.rejecting i] h.toBase hi (by rw [hs]; rfl)
    (by simp [owners, Frame.owner]) (fun j hji => ?_) ⟨fun _ => .inl (mem_singleton_self i), fun _ => hrun⟩
    (fun hw => (by cases hw)), fun j hj => s.set_woken i j _ _ (fun _ => hrun) (fun _ => h.woken j hj)⟩
  rw [hs]
  simp [owners, Frame.owner, hji]

/-! #### Subscription -/

theorem subscribe_inv (background : κ) (s : Publisher T κ) (h : s.Inv) : (s.subscribe background).Inv := by
  unfold subscribe
  simp only
  generalize hx : (Subscriber.new s.sequence).push
    { value := s.value, context := background, kind := .hydrate, sequence := s.sequence } = x
  have hnew : x = { Subscriber.new s.sequence with
      pending := [{ value := s.value, context := background, kind := .hydrate, sequence := s.sequence }] } :=
          hx.symm
  have hself : update s.subscribers s.next x s.next = x := update_self ..
  have hold : ∀ j < s.next, update s.subscribers s.next x j = s.subscribers j :=
    fun j hj => update_of_ne (Nat.ne_of_lt hj) ..
  have hcount := h.history.count
  refine drain_inv _ s.next ⟨h.history, ?_, ?_, ?_, ?_⟩ (Nat.lt_succ_self _) (fun j hj hji => ?_)
  · refine ⟨h.calls.nodup, fun j hj => Nat.lt_succ_of_lt (h.calls.lt j hj), fun j hj => ?_, fun j hj => ?_⟩
    · show (update s.subscribers s.next x j).running = true ↔
        j ∈ owners s.stack ∨ (update s.subscribers s.next x j).awaited = true
      rcases Nat.lt_succ_iff_lt_or_eq.mp hj with hj | rfl
      · rw [hold j hj]
        exact h.calls.running j hj
      · rw [hself, hnew]
        have hnot : s.next ∉ owners s.stack := fun hm => Nat.lt_irrefl _ (h.calls.lt _ hm)
        simp [Subscriber.new, hnot]
    · show (update s.subscribers s.next x j).awaited = true → j ∉ owners s.stack
      rcases Nat.lt_succ_iff_lt_or_eq.mp hj with hj | rfl
      · rw [hold j hj]
        exact h.calls.awaited j hj
      · rw [hself, hnew]
        exact fun hw => (by cases hw)
  · refine ⟨?_, fun l hl => ?_, fun j hj hc => ?_, fun j hj => ?_⟩
    · show ((s.listeners ++ [(s.next, s.sequence)]).map Prod.fst).Nodup
      rw [map_append, map_singleton]
      refine nodup_append.mpr ⟨h.listening.nodup, by simp, fun a ha b hb => ?_⟩
      obtain ⟨l, hl, rfl⟩ := mem_map.mp ha
      obtain rfl := mem_singleton.mp hb
      exact Nat.ne_of_lt (h.listening.mem l hl).1
    · show l.1 < s.next + 1 ∧ (update s.subscribers s.next x l.1).hydrated = l.2
      rcases mem_append.mp hl with hl | hl
      · obtain ⟨hlt, hh⟩ := h.listening.mem l hl
        rw [hold l.1 hlt]
        exact ⟨Nat.lt_succ_of_lt hlt, hh⟩
      · obtain rfl := mem_singleton.mp hl
        rw [hself, hnew]
        exact ⟨Nat.lt_succ_self _, rfl⟩
    · show j ∈ (s.listeners ++ [(s.next, s.sequence)]).map Prod.fst
      change (update s.subscribers s.next x j).closed = false at hc
      rw [map_append, mem_append]
      rcases Nat.lt_succ_iff_lt_or_eq.mp hj with hj | rfl
      · rw [hold j hj] at hc
        exact .inl (h.listening.opened j hj hc)
      · exact .inr (by simp)
    · show (update s.subscribers s.next x j).hydrated ≤ s.sequence
      rcases Nat.lt_succ_iff_lt_or_eq.mp hj with hj | rfl
      · rw [hold j hj]
        exact h.listening.hydrated j hj
      · rw [hself, hnew]
        exact Nat.le_refl _
  · show Loop s.published (update s.subscribers s.next x) (s.next + 1) s.taken s.publications s.delivering
        (loops s.stack)
    have hloop := h.loop
    generalize s.delivering = d at hloop
    generalize loops s.stack = ls at hloop
    cases hloop with
    | idle h => exact .idle h
    | head => exact .head
    | inner p rest hp hpos hvalue hn hrest =>
      refine .inner p rest hp hpos hvalue hn (fun l hl => ?_)
      obtain ⟨hlt, hh⟩ := hrest l hl
      rw [hold l.1 hlt]
      exact ⟨Nat.lt_succ_of_lt hlt, hh⟩
  · show Streams s.published (update s.subscribers s.next x) (s.next + 1) s.taken
        (remaining (loops s.stack))
    refine .replace (fun j hj hji => ?_) (fun j hj hji => ?_) ?_ (fun _ => ?_)
    · exact h.streams.ordered j (Nat.lt_of_le_of_ne (Nat.le_of_lt_succ hj) hji)
    · exact h.streams.reached j (Nat.lt_of_le_of_ne (Nat.le_of_lt_succ hj) hji)
    · subst hnew
      refine ⟨⟨?_, ?_, ?_, ?_⟩, fun _ => rfl, ⟨fun _ => rfl, fun _ => rfl⟩, by simp, fun hc => (by cases hc)⟩
      · simp [Subscriber.received, Subscriber.new]
      · simp [Subscriber.received, Subscriber.new]
      · simp [Subscriber.received, Subscriber.new]
      · simp [Subscriber.received, Subscriber.new, h.history.value]
    · subst hnew
      show some s.sequence = some (max s.sequence _)
      congr 1
      split <;> omega
  · unfold Woken set
    simp only [update_apply, if_neg hji]
    exact h.woken j (Nat.lt_of_le_of_ne (Nat.le_of_lt_succ hj) hji)

theorem unsubscribe_inv (s : Publisher T κ) (i : ℕ) (h : s.Inv) (hi : i < s.next) : (s.unsubscribe i).Inv := by
  have hord := h.streams.ordered i hi
  have hreceived : (s.subscribers i).close.received = (s.subscribers i).delivered := append_nil _
  refine ⟨⟨h.history, h.calls.update hi rfl rfl, ⟨?_, fun l hl => ?_, fun j hj hc => ?_, fun j hj => ?_⟩,
      h.loop.update rfl,
    h.streams.update ⟨?_, fun ho => ?_, hord.started, Nat.zero_le _, fun _ => rfl⟩ (fun hc => (by cases hc))⟩,
        fun j hj => ?_⟩
  · exact (filter_sublist.map Prod.fst).nodup h.listening.nodup
  · show l.1 < s.next ∧ (update s.subscribers i (s.subscribers i).close l.1).hydrated = l.2
    have hh : (s.subscribers i).close.hydrated = (s.subscribers i).hydrated := rfl
    rw [update_hydrated hh]
    exact h.listening.mem l (mem_filter.mp hl).1
  · change (update s.subscribers i (s.subscribers i).close j).closed = false at hc
    rw [update_apply] at hc
    split at hc
    · cases hc
    · rename_i hji
      obtain ⟨l, hl, rfl⟩ := mem_map.mp (h.listening.opened j hj hc)
      exact mem_map_of_mem (mem_filter.mpr ⟨hl, by simpa using hji⟩)
  · show (update s.subscribers i (s.subscribers i).close j).hydrated ≤ s.sequence
    have hh : (s.subscribers i).close.hydrated = (s.subscribers i).hydrated := rfl
    rw [update_hydrated hh]
    exact h.listening.hydrated j hj
  · rw [hreceived]
    exact Stream.take hord.stream
  · rw [hreceived]
    exact hord.gapless_delivered ho
  · show (update s.subscribers i (s.subscribers i).close j).pending ≠ [] →
      (update s.subscribers i (s.subscribers i).close j).running = true
    rw [update_apply]
    split
    · exact fun hne => absurd rfl hne
    · exact h.woken j hj

/-! #### Runs -/

theorem step_inv (background : κ) (s : Publisher T κ) (event : Event T κ) (h : s.Inv) :
    (s.step background event).Inv := by
  cases event with
  | tick => exact s.tick_inv h
  | publish value context =>
    simp only [step]
    split
    · exact s.publish_inv value context h
    · exact h
  | subscribe =>
    simp only [step]
    split
    · exact s.subscribe_inv background h
    · exact h
  | unsubscribe i =>
    simp only [step]
    split
    · rename_i hcond
      rw [Bool.and_eq_true, decide_eq_true_eq] at hcond
      exact s.unsubscribe_inv i h hcond.2
    · exact h
  | returned =>
    simp only [step]
    split
    · rename_i i stack hs
      exact s.restack_inv _ h (by rw [hs]; rfl) (by rw [hs]; rfl)
    · exact h
  | promised =>
    simp only [step]
    split
    · rename_i i stack hs
      exact s.promised_inv i stack h hs
    · exact h
  | threw =>
    simp only [step]
    split
    · rename_i i stack hs
      exact s.restack_inv _ h (by rw [hs]; rfl) (by rw [hs]; rfl)
    · exact h
  | reported =>
    simp only [step]
    split
    · rename_i i stack hs
      exact s.restack_inv _ h (by rw [hs]; rfl) (by rw [hs]; rfl)
    · rename_i i stack hs
      have hcalls := h.calls
      rw [hs] at hcalls
      change Calls (i :: owners stack) _ _ at hcalls
      have hi : i < s.next := hcalls.lt i (by simp)
      have haw : (s.subscribers i).awaited = false := by
        rw [Bool.eq_false_iff]
        exact fun hw => hcalls.awaited i hi hw (mem_cons_self ..)
      obtain ⟨hni, hn⟩ := nodup_cons.mp hcalls.nodup
      have hres := s.resume_inv i stack (s.subscribers i) h hi (by rw [hs]; rfl) rfl haw hn hni (fun j hji => by
        rw [hs]
        exact ⟨mem_cons_of_mem i, fun hm => (mem_cons.mp hm).resolve_left hji⟩)
      simpa [set] using hres
    · exact h
  | resolved i =>
    simp only [step]
    split
    · rename_i hcond
      simp only [Bool.and_eq_true, List.isEmpty_iff, decide_eq_true_eq] at hcond
      obtain ⟨⟨hs, hi⟩, ha⟩ := hcond
      have hres := s.resume_inv i [] { s.subscribers i with awaited := false } h hi (by rw [hs]) rfl rfl
        nodup_nil (not_mem_nil) (fun j _ => by rw [hs])
      rw [← hs] at hres
      exact hres
    · exact h
  | rejected i =>
    simp only [step]
    split
    · rename_i hcond
      simp only [Bool.and_eq_true, List.isEmpty_iff, decide_eq_true_eq] at hcond
      exact s.rejected_inv i h hcond.1.1 hcond.1.2 hcond.2
    · exact h

end Publisher

theorem run_inv (initial : T) (background : κ) (events : List (Publisher.Event T κ)) :
    ((machine initial background).run events).Inv :=
  (machine initial background).runFrom_induction (fun s event h => s.step_inv background event h) _
    (Publisher.new_inv initial) events

/-! ## What every subscriber is told -/

namespace Publisher

theorem update_closed (subscribers : ℕ → Subscriber T κ) (i j : ℕ) (x : Subscriber T κ)
    (hx : x.closed = true → (subscribers j).closed = true) (h : (update subscribers j x i).closed = true) :
    (subscribers i).closed = true := by
  rw [update_apply] at h
  split at h
  · rename_i hij
    exact hij ▸ hx h
  · exact h

theorem drain_closed (s : Publisher T κ) (i j : ℕ) (h : ((s.drain j).subscribers i).closed = true) :
    (s.subscribers i).closed = true := by
  unfold drain at h
  split at h
  · exact h
  · exact update_closed s.subscribers i j { s.subscribers j with running := true } id h

theorem resume_closed (s : Publisher T κ) (i j : ℕ) (h : ((s.resume j).subscribers i).closed = true) :
    (s.subscribers i).closed = true :=
  update_closed s.subscribers i j { s.subscribers j with running := false } id (drain_closed _ i j h)

theorem tick_closed (s : Publisher T κ) (i : ℕ) (h : (s.tick.subscribers i).closed = true) :
    (s.subscribers i).closed = true := by
  unfold tick at h
  split at h
  · split at h <;> exact h
  · exact h
  · simp only at h
    split at h
    · exact h
    · exact update_closed s.subscribers i _ _ (fun hx => by rwa [(Subscriber.push_fields _ _).2.1] at hx)
          (drain_closed _ i _ h)
  · simp only at h
    split at h
    · exact update_closed s.subscribers i _ _ (by exact id) h
    · exact update_closed s.subscribers i _ _ (by exact id) h
  · exact h

theorem step_closed (background : κ) (s : Publisher T κ) (event : Event T κ) (i : ℕ)
    (h : ((s.step background event).subscribers i).closed = true) :
    (s.subscribers i).closed = true ∨ event = .unsubscribe i := by
  cases event with
  | tick => exact .inl (s.tick_closed i h)
  | publish value context =>
    simp only [step] at h
    split at h
    · unfold publish at h
      simp only at h
      split at h <;> exact .inl h
    · exact .inl h
  | subscribe =>
    simp only [step] at h
    split at h
    · refine .inl (update_closed s.subscribers i _ _ (fun hx => ?_) (drain_closed _ i _ h))
      rw [(Subscriber.push_fields _ _).2.1] at hx
      cases hx
    · exact .inl h
  | unsubscribe j =>
    simp only [step] at h
    split at h
    · by_cases hij : i = j
      · exact .inr (hij ▸ rfl)
      · change (update s.subscribers j _ i).closed = true at h
        rw [update_of_ne hij] at h
        exact .inl h
    · exact .inl h
  | returned =>
    simp only [step] at h
    split at h <;> exact .inl h
  | promised =>
    simp only [step] at h
    split at h
    · exact .inl (update_closed s.subscribers i _ _ (by exact id) h)
    · exact .inl h
  | threw =>
    simp only [step] at h
    split at h <;> exact .inl h
  | reported =>
    simp only [step] at h
    split at h
    · exact .inl h
    · rename_i j stack hs
      exact .inl (resume_closed { s with stack := stack } i j h)
    · exact .inl h
  | resolved j =>
    simp only [step] at h
    split at h
    · exact .inl (update_closed s.subscribers i j { s.subscribers j with awaited := false } id
          (resume_closed _ i j h))
    · exact .inl h
  | rejected j =>
    simp only [step] at h
    split at h
    · exact .inl (update_closed s.subscribers i j _ (by exact id) h)
    · exact .inl h

end Publisher

theorem closed_of_run (initial : T) (background : κ) (events : List (Publisher.Event T κ)) (i : ℕ)
    (h : (((machine initial background).run events).subscribers i).closed = true) :
    Publisher.Event.unsubscribe i ∈ events := by
  induction events using List.reverseRecOn with
  | nil => cases h
  | append_singleton events event ih =>
    rw [Machine.run_snoc] at h
    rcases Publisher.step_closed background _ event i h with h | h
    · simp [ih h]
    · simp [h]

/-- What subscriber `i` was told: first the state at its subscription, then updates in ascending order, each with the
value of its sequence, and all of them while its queue does not overflow. The queue is bounded. When no publication
and no callback of the subscriber is under way, the last value it was told is the last one that was published. -/
theorem run_deliveries (initial : T) (background : κ) (events : List (Publisher.Event T κ)) (i : ℕ)
    (hi : i < ((machine initial background).run events).next) :
    let s := (machine initial background).run events
    let x := s.subscribers i
    (∀ e ∈ x.delivered.head?, e.kind = .hydrate ∧ e.sequence = x.hydrated) ∧
      (∀ e ∈ x.delivered.tail, e.kind = .update ∧ x.hydrated < e.sequence) ∧
      (x.delivered.map (fun e => e.sequence)).Pairwise (· < ·) ∧
      (∀ e ∈ x.delivered, s.published[e.sequence]? = some e.value) ∧
      x.pending.length ≤ 100 ∧
      (x.overflowed = false → x.delivered.map (fun e => e.sequence) = List.range' x.hydrated x.delivered.length) ∧
      (s.delivering = false → i ∉ owners s.stack → x.awaited = false → Publisher.Event.unsubscribe i ∉ events →
        ∃ e, x.delivered.getLast? = some e ∧ e.value = s.value ∧ e.sequence = s.sequence) := by
  intro s x
  have h : s.Inv := run_inv initial background events
  have hord : x.Ordered s.published := h.streams.ordered i hi
  have hstream : Stream s.published x.hydrated x.delivered := Stream.take hord.stream
  refine ⟨hstream.first, fun e he => ⟨hstream.updates e he, ?_⟩, hstream.ascending, hstream.values, hord.bounded,
    hord.gapless_delivered, fun hd ho ha hu => ?_⟩
  · obtain ⟨d, rest, hcons⟩ := exists_cons_of_ne_nil (ne_nil_of_mem (mem_of_mem_tail he))
    have hasc := hstream.ascending
    have hfirst := hstream.first
    rw [hcons] at hasc hfirst he
    rw [map_cons, pairwise_cons] at hasc
    rw [← (hfirst d rfl).2]
    exact hasc.1 _ (mem_map_of_mem he)
  · have hopen : x.closed = false := by
      rw [Bool.eq_false_iff]
      exact fun hc => hu (closed_of_run initial background events i hc)
    have hidle : s.publications = [] ∧ loops s.stack = [] := by
      have hloop := h.loop
      rw [hd] at hloop
      generalize loops s.stack = ls at hloop
      cases hloop with
      | idle hp => exact ⟨hp, rfl⟩
    have hquiet : x.pending = [] := by
      by_contra hne
      rcases (h.calls.running i hi).mp (h.woken i hi hne) with hr | hr
      · exact ho hr
      · rw [ha] at hr
        cases hr
    have hcount := h.history.count
    have hlast := h.streams.reached i hi hopen
    have hle := h.listening.hydrated i hi
    have hremaining : remaining (loops s.stack) = [] := by
      rw [hidle.2]
      rfl
    rw [hremaining, if_neg (not_mem_nil)] at hlast
    rw [hidle.1, length_nil, Nat.add_zero] at hcount
    rw [← hcount, Nat.max_eq_right hle, Subscriber.last, Subscriber.received, getLast?_map] at hlast
    change ((x.delivered ++ x.pending).getLast?.map _) = _ at hlast
    rw [hquiet, append_nil] at hlast
    obtain ⟨e, he, hseq⟩ := map_eq_some_iff.mp hlast
    refine ⟨e, he, ?_, hseq⟩
    have hv := hstream.values e (mem_of_getLast? he)
    rw [hseq, h.history.value] at hv
    exact (some.inj hv).symm

/-- A listener publishes while it is told the state at its subscription, and gives a promise for the update. -/
def reentrant : List (Publisher.Event ℕ Unit) :=
  [.subscribe, .tick, .publish 7 (), .tick, .tick, .tick, .tick, .returned, .tick, .promised, .resolved 0, .tick]

theorem run_deliveries_reentrant :
    ∃ e, (((machine 3 ()).run reentrant).subscribers 0).delivered.getLast? = some e ∧ e.value = 7 ∧
        e.sequence = 1 :=
  (run_deliveries 3 () reentrant 0 (by decide)).2.2.2.2.2.2 (by rfl) (by simp [owners, reentrant]; decide) (by rfl)
    (by simp [reentrant])

end PiAgent.Replicated
