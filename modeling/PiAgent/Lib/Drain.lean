import Mathlib.Data.List.Basic

/-!
# Reading items off a stream

A reader takes items off the front of what has arrived. What it has once taken or refused,
it takes or refuses however the stream goes on; so the items do not depend on how the
stream comes in chunks.
-/

namespace PiAgent

/-- What is at the front of a buffer: not yet an item, something wrong, or an item and what follows it. -/
inductive Next (α β ε : Type) where
  | more
  | stop (error : ε)
  | item (value : β) (rest : List α)

structure Reader (α β ε : Type) where
  next : List α → Next α β ε
  shrinks : ∀ x value rest, next x = .item value rest → rest.length < x.length
  item_append : ∀ x y value rest, next x = .item value rest → next (x ++ y) = .item value (rest ++ y)
  stop_append : ∀ x y error, next x = .stop error → next (x ++ y) = .stop error

/-- The items that were read, and what is left of the buffer if nothing was wrong. -/
structure Drained (α β ε : Type) where
  items : List β
  rest : Except ε (List α)

namespace Reader

variable {α β ε : Type} (R : Reader α β ε)

def drain (buffer : List α) : Drained α β ε :=
  match _ : R.next buffer with
  | .more => ⟨[], .ok buffer⟩
  | .stop error => ⟨[], .error error⟩
  | .item value rest => ⟨value :: (drain rest).items, (drain rest).rest⟩
termination_by buffer.length
decreasing_by all_goals exact R.shrinks _ _ _ ‹_›

variable (buffer : List α)

theorem drain_more (h : R.next buffer = .more) : R.drain buffer = ⟨[], .ok buffer⟩ := by
  unfold drain
  split
  · rfl
  · rename_i heq
    rw [h] at heq
    cases heq
  · rename_i heq
    rw [h] at heq
    cases heq

theorem drain_stop (error : ε) (h : R.next buffer = .stop error) : R.drain buffer = ⟨[], .error error⟩ := by
  unfold drain
  split
  · rename_i heq
    rw [h] at heq
    cases heq
  · rename_i heq
    rw [h] at heq
    obtain rfl := Next.stop.inj heq
    rfl
  · rename_i heq
    rw [h] at heq
    cases heq

theorem drain_item (value : β) (rest : List α) (h : R.next buffer = .item value rest) :
    R.drain buffer = ⟨value :: (R.drain rest).items, (R.drain rest).rest⟩ := by
  rw [drain]
  split
  · rename_i heq
    rw [h] at heq
    cases heq
  · rename_i heq
    rw [h] at heq
    cases heq
  · rename_i heq
    rw [h] at heq
    obtain ⟨rfl, rfl⟩ := Next.item.inj heq
    rfl

def feed (drained : Drained α β ε) (chunk : List α) : Drained α β ε :=
  match drained.rest with
  | .ok rest => ⟨drained.items ++ (R.drain (rest ++ chunk)).items, (R.drain (rest ++ chunk)).rest⟩
  | .error _ => drained

theorem drain_append (x y : List α) : R.drain (x ++ y) = R.feed (R.drain x) y := by
  induction hn : x.length using Nat.strongRecOn generalizing x with
  | ind n ih =>
    subst hn
    cases h : R.next x with
    | more =>
      rw [R.drain_more x h]
      rfl
    | stop error => rw [R.drain_stop x error h, R.drain_stop (x ++ y) error (R.stop_append x y error h), feed]
    | item value rest =>
      rw [R.drain_item x value rest h, R.drain_item (x ++ y) value (rest ++ y) (R.item_append x y value rest h),
        ih rest.length (R.shrinks x value rest h) rest rfl]
      obtain ⟨items, left⟩ := R.drain rest
      cases left <;> rfl

/-- Where each item stands for a beginning of the buffer, all of them and what is left stand for the buffer. -/
theorem flatMap_items (text : β → List α) (htext : ∀ x value rest, R.next x = .item value rest → text value ++ rest = x)
    (buffer rest : List α) (h : (R.drain buffer).rest = .ok rest) : (R.drain buffer).items.flatMap text ++ rest = buffer := by
  induction hn : buffer.length using Nat.strongRecOn generalizing buffer with
  | ind n ih =>
    subst hn
    cases hnext : R.next buffer with
    | more =>
      rw [R.drain_more buffer hnext] at h ⊢
      obtain rfl := Except.ok.inj h
      rfl
    | stop error =>
      rw [R.drain_stop buffer error hnext] at h
      cases h
    | item value next =>
      rw [R.drain_item buffer value next hnext] at h ⊢
      rw [List.flatMap_cons, List.append_assoc, ih next.length (R.shrinks buffer value next hnext) next h rfl]
      exact htext buffer value next hnext

theorem feed_chunks (chunks : List (List α)) (before : List α) :
    chunks.foldl R.feed (R.drain before) = R.drain (before ++ chunks.flatten) := by
  induction chunks generalizing before with
  | nil => simp
  | cons chunk chunks ih => rw [List.foldl_cons, ← R.drain_append, ih, List.flatten_cons, List.append_assoc]

end Reader

end PiAgent
