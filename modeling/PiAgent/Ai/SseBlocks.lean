import PiAgent.Ai.ServerSentEvents

/-!
# The blocks of an event stream

The readers of `pi-messages.ts` and `openai-codex-responses.ts` take block after block off
their buffers. That of pi-messages replaces CR LF at every read, so what it reads is known
where no CR LF is left over from a read before.
-/

namespace PiAgent.Ai.Sse

open List

section Blocks

variable {ε : Type} (parse : JsString → Except ε (Option JsonValue))

theorem drain_nil : (blocks parse).drain [] = fresh := (blocks parse).drain_more [] rfl

variable (buffer : JsString)

theorem nextBlock_take (split : ℕ) (h : firstIndex [LF, LF] buffer = some split) :
    firstIndex [LF, LF] (buffer.take (split + 2)) = some split := by
  obtain ⟨hat, hfirst⟩ := (firstIndex_eq_some _ _ _).mp h
  have hle := hat.le
  simp only [length_cons, length_nil] at hle
  have hlength : (buffer.take (split + 2)).length = split + 2 := by rw [length_take]; omega
  rw [← List.take_append_drop (split + 2) buffer] at hat hfirst
  refine (firstIndex_eq_some _ _ _).mpr ⟨hat.of_append ?_, ?_⟩
  · rw [hlength]
    simp
  · intro j hj hj'
    exact hfirst j hj (hj'.append _)

theorem getLast_block (split : ℕ) (h : firstIndex [LF, LF] buffer = some split) :
    (buffer.take (split + 2)).getLast? = some LF := by
  have hat := ((firstIndex_eq_some _ _ _).mp (nextBlock_take buffer split h)).1
  have hsplit := hat.split
  have hlength := hat.le
  simp only [length_cons, length_nil] at hlength hsplit
  rw [drop_eq_nil_of_le (by rw [length_take]; omega), append_nil] at hsplit
  rw [hsplit]
  simp

theorem drain_split : ∃ p r, buffer = p ++ r ∧ (p = [] ∨ p.getLast? = some LF) ∧
    (blocks parse).drain p = ⟨((blocks parse).drain buffer).items, ((blocks parse).drain buffer).rest.map (fun _ => [])⟩ ∧
    ∀ left, ((blocks parse).drain buffer).rest = .ok left → left = r := by
  induction hn : buffer.length using Nat.strongRecOn generalizing buffer with
  | ind n ih =>
    subst hn
    cases hfirst : firstIndex [LF, LF] buffer with
    | none =>
      have hmore : (blocks parse).next buffer = .more := by
        show nextBlock parse buffer = _
        rw [nextBlock, hfirst]
      refine ⟨[], buffer, rfl, Or.inl rfl, ?_, ?_⟩
      · rw [drain_nil, (blocks parse).drain_more buffer hmore]
        rfl
      · intro left hleft
        rw [(blocks parse).drain_more buffer hmore] at hleft
        exact (Except.ok.inj hleft).symm
    | some split =>
      have hfront := nextBlock_take buffer split hfirst
      have hlast := getLast_block buffer split hfirst
      have hle := ((firstIndex_eq_some _ _ _).mp hfirst).1.le
      simp only [length_cons, length_nil] at hle
      cases hparse : parse (buffer.take split) with
      | error error =>
        have hstop : (blocks parse).next buffer = .stop error := by
          show nextBlock parse buffer = _
          simp only [nextBlock, hfirst, hparse]
        have hstop' : (blocks parse).next (buffer.take (split + 2)) = .stop error := by
          show nextBlock parse _ = _
          simp only [nextBlock, hfront, take_take, Nat.min_eq_left (Nat.le_add_right split 2), hparse]
        refine ⟨buffer.take (split + 2), buffer.drop (split + 2), (List.take_append_drop _ _).symm, Or.inr hlast, ?_, ?_⟩
        · rw [(blocks parse).drain_stop _ _ hstop, (blocks parse).drain_stop _ _ hstop']
          rfl
        · intro left hleft
          rw [(blocks parse).drain_stop _ _ hstop] at hleft
          cases hleft
      | ok event =>
        have hitem : (blocks parse).next buffer = .item event (buffer.drop (split + 2)) := by
          show nextBlock parse buffer = _
          simp only [nextBlock, hfirst, hparse]
        obtain ⟨p, r, hbuffer, hend, hdrain, hleft⟩ :=
          ih (buffer.drop (split + 2)).length (by rw [length_drop]; omega) _ rfl
        have hlength : (buffer.take (split + 2)).length = split + 2 := by rw [length_take]; omega
        have hitem' : (blocks parse).next (buffer.take (split + 2) ++ p) = .item event p := by
          show nextBlock parse _ = _
          simp only [nextBlock, firstIndex_append _ _ p _ hfront]
          rw [take_append_of_le_length (by omega), take_take, Nat.min_eq_left (Nat.le_add_right split 2), hparse,
            drop_append_of_le_length (by omega), drop_eq_nil_of_le (by omega), nil_append]
        refine ⟨buffer.take (split + 2) ++ p, r, ?_, Or.inr ?_, ?_, ?_⟩
        · rw [append_assoc, ← hbuffer, List.take_append_drop]
        · rcases hend with rfl | hend
          · rw [append_nil, hlast]
          · rw [getLast?_append, hend]
            rfl
        · rw [(blocks parse).drain_item _ _ _ hitem, (blocks parse).drain_item _ _ _ hitem', hdrain]
        · intro left h
          rw [(blocks parse).drain_item _ _ _ hitem] at h
          exact hleft left h

end Blocks

/-! ## CR LF -/

theorem replaceCrlf_crlf (rest : JsString) : replaceCrlf (CR :: LF :: rest) = LF :: replaceCrlf rest := by
  simp [replaceCrlf]

theorem replaceCrlf_other (u : UInt16) (rest : JsString) (h : u ≠ CR ∨ rest.head? ≠ some LF) :
    replaceCrlf (u :: rest) = u :: replaceCrlf rest := by
  cases rest with
  | nil => rfl
  | cons v rest =>
    rw [replaceCrlf, if_neg]
    rintro ⟨hu, hv⟩
    rcases h with h | h
    · exact h hu
    · exact h (by rw [hv]; rfl)

theorem replaceCrlf_append (x y : JsString) (h : ¬ [CR, LF] <:+: replaceCrlf x) :
    replaceCrlf (x ++ y) = replaceCrlf (replaceCrlf x ++ y) := by
  fun_induction replaceCrlf x with
  | case1 => rfl
  | case2 u => rfl
  | case3 u v rest hcrlf ih =>
    obtain ⟨rfl, rfl⟩ := hcrlf
    have hrest : ¬ [CR, LF] <:+: replaceCrlf rest := fun hin => h (hin.trans (suffix_cons _ _).isInfix)
    rw [cons_append, cons_append, replaceCrlf_crlf, ih hrest, cons_append,
      replaceCrlf_other LF _ (Or.inl (by decide))]
  | case4 u v rest hne ih =>
    have hrest : ¬ [CR, LF] <:+: replaceCrlf (v :: rest) := fun hin => h (hin.trans (suffix_cons _ _).isInfix)
    have hleft : replaceCrlf (u :: (v :: rest ++ y)) = u :: replaceCrlf (v :: rest ++ y) := by
      refine replaceCrlf_other u _ ?_
      by_cases hu : u = CR
      · exact Or.inr (by simpa using fun hv => hne ⟨hu, hv⟩)
      · exact Or.inl hu
    have hright : replaceCrlf (u :: (replaceCrlf (v :: rest) ++ y)) = u :: replaceCrlf (replaceCrlf (v :: rest) ++ y) := by
      refine replaceCrlf_other u _ ?_
      by_cases hu : u = CR
      · refine Or.inr ?_
        intro hhead
        -- an LF after this CR would be a CR LF
        cases hreplaced : replaceCrlf (v :: rest) with
        | nil =>
          unfold replaceCrlf at hreplaced
          cases rest with
          | nil => cases hreplaced
          | cons w rest =>
            dsimp only at hreplaced
            split at hreplaced <;> cases hreplaced
        | cons w replaced =>
          rw [hreplaced] at hhead h
          obtain rfl : w = LF := by simpa using hhead
          exact h ⟨[], replaced, by rw [hu]; rfl⟩
      · exact Or.inl hu
    rw [cons_append, hleft, ih hrest, cons_append, hright]

theorem replaceCrlf_split (x p r : JsString) (h : replaceCrlf x = p ++ r) (hp : p = [] ∨ p.getLast? = some LF) :
    ∃ xp xr, x = xp ++ xr ∧ replaceCrlf xr = r ∧ ∀ y, replaceCrlf (xp ++ y) = p ++ replaceCrlf y := by
  fun_induction replaceCrlf x generalizing p with
  | case1 =>
    obtain ⟨rfl, rfl⟩ := append_eq_nil_iff.mp h.symm
    exact ⟨[], [], rfl, rfl, fun _ => rfl⟩
  | case2 u =>
    cases p with
    | nil => exact ⟨[], [u], rfl, h, fun _ => rfl⟩
    | cons a p =>
      obtain ⟨rfl, htail⟩ := List.cons.inj h
      obtain ⟨rfl, rfl⟩ := append_eq_nil_iff.mp htail.symm
      obtain rfl : u = LF := by simpa using hp
      exact ⟨[LF], [], rfl, rfl, fun y => replaceCrlf_other LF y (Or.inl (by decide))⟩
  | case3 u v rest hcrlf ih =>
    obtain ⟨rfl, rfl⟩ := hcrlf
    cases p with
    | nil => exact ⟨[], _, rfl, by rw [replaceCrlf_crlf]; exact h, fun _ => rfl⟩
    | cons a p =>
      obtain ⟨rfl, htail⟩ := List.cons.inj h
      have hend : p = [] ∨ p.getLast? = some LF := by
        cases p with
        | nil => exact Or.inl rfl
        | cons b p => exact Or.inr (by simpa [getLast?_cons_cons] using hp)
      obtain ⟨xp, xr, rfl, hr, hxp⟩ := ih p htail hend
      refine ⟨CR :: LF :: xp, xr, rfl, hr, ?_⟩
      intro y
      rw [cons_append, cons_append, replaceCrlf_crlf, hxp]
      rfl
  | case4 u v rest hne ih =>
    cases p with
    | nil =>
      refine ⟨[], _, rfl, ?_, fun _ => rfl⟩
      rw [replaceCrlf, if_neg hne]
      exact h
    | cons a p =>
      obtain ⟨rfl, htail⟩ := List.cons.inj h
      cases p with
      | nil =>
        obtain rfl : u = LF := by simpa using hp
        exact ⟨[LF], v :: rest, rfl, htail, fun y => replaceCrlf_other LF y (Or.inl (by decide))⟩
      | cons b p =>
        obtain ⟨xp, xr, hx, hr, hxp⟩ := ih (b :: p) htail (Or.inr (by simpa [getLast?_cons_cons] using hp))
        refine ⟨u :: xp, xr, by rw [hx]; rfl, hr, ?_⟩
        intro y
        have hhead : u ≠ CR ∨ (xp ++ y).head? ≠ some LF := by
          cases xp with
          | nil => exact absurd (hxp []) (by simp [replaceCrlf])
          | cons w xp =>
            obtain ⟨rfl, -⟩ := List.cons.inj hx
            by_cases hu : u = CR
            · exact Or.inr (by simpa using fun hv => hne ⟨hu, hv⟩)
            · exact Or.inl hu
        rw [cons_append, replaceCrlf_other u _ hhead, hxp]
        rfl

/-! ## pi-messages -/

section Pi

variable {ε : Type} (jsonParse : JsString → Except ε JsonValue)

def ReplacedOnce (texts : List JsString) : Prop :=
  ∀ before text after, texts = before ++ text :: after →
    ∀ buffer, (before.foldl (piRead jsonParse) fresh).rest = .ok buffer → ¬ [CR, LF] <:+: buffer

theorem piRead_drain (x text : JsString)
    (h : ∀ buffer, ((blocks (piEvent jsonParse)).drain (replaceCrlf x)).rest = .ok buffer → ¬ [CR, LF] <:+: buffer) :
    piRead jsonParse ((blocks (piEvent jsonParse)).drain (replaceCrlf x)) text =
      (blocks (piEvent jsonParse)).drain (replaceCrlf (x ++ text)) := by
  obtain ⟨p, r, hx, hend, hdrain, hleft⟩ := drain_split (piEvent jsonParse) (replaceCrlf x)
  obtain ⟨xp, xr, rfl, hr, hxp⟩ := replaceCrlf_split x p r hx hend
  have hlater : (blocks (piEvent jsonParse)).drain (replaceCrlf (xp ++ xr ++ text)) =
      (blocks (piEvent jsonParse)).feed ((blocks (piEvent jsonParse)).drain p) (replaceCrlf (xr ++ text)) := by
    rw [append_assoc, hxp, (blocks (piEvent jsonParse)).drain_append]
  rw [hlater, hdrain]
  generalize (blocks (piEvent jsonParse)).drain (replaceCrlf (xp ++ xr)) = read at hleft h ⊢
  obtain ⟨items, rest⟩ := read
  cases rest with
  | error error => rfl
  | ok buffer =>
    obtain rfl := hleft buffer rfl
    have hclean := h buffer rfl
    rw [← hr] at hclean
    unfold piRead proceed Reader.feed
    dsimp only [Except.map]
    rw [replaceCrlf_append xr text hclean, hr, nil_append]

theorem fold_piRead (texts : List JsString) (h : ReplacedOnce jsonParse texts) :
    texts.foldl (piRead jsonParse) fresh = (blocks (piEvent jsonParse)).drain (replaceCrlf texts.flatten) := by
  induction texts using List.reverseRecOn with
  | nil => exact (drain_nil _).symm
  | append_singleton texts text ih =>
    have hbefore : ReplacedOnce jsonParse texts := by
      intro before first after heq
      refine h before first (after ++ [text]) ?_
      rw [heq]
      simp
    have hnow := h texts text [] rfl
    rw [foldl_append, foldl_cons, foldl_nil, flatten_append, flatten_singleton]
    rw [ih hbefore] at hnow ⊢
    exact piRead_drain jsonParse _ text hnow

theorem replacedOnce_joined (texts : List JsString) (last : JsString) (h : ReplacedOnce jsonParse (texts ++ [last])) :
    ReplacedOnce jsonParse [texts.flatten, last] := by
  have hbefore : ReplacedOnce jsonParse texts := by
    intro before first after heq
    refine h before first (after ++ [last]) ?_
    rw [heq]
    simp
  have hlast := h texts last [] rfl
  intro before text after heq buffer hbuffer
  cases before with
  | nil =>
    obtain rfl := Except.ok.inj hbuffer
    decide
  | cons first before =>
    obtain ⟨rfl, hrest⟩ := List.cons.inj heq
    cases before with
    | nil =>
      rw [fold_piRead jsonParse texts hbefore] at hlast
      have hone : piRead jsonParse fresh texts.flatten = (blocks (piEvent jsonParse)).drain (replaceCrlf texts.flatten) := by
        unfold piRead proceed
        rfl
      rw [foldl_cons, foldl_nil, hone] at hbuffer
      exact hlast buffer hbuffer
    | cons second before =>
      obtain ⟨-, hnil⟩ := List.cons.inj hrest
      simp at hnil

end Pi

/-! ## Codex -/

section Codex

variable {ε : Type} (jsonParse : JsString → Except ε JsonValue) (formatThrownValue : ε → JsString)

theorem fold_codexRead (texts : List JsString) : texts.foldl (codexRead jsonParse formatThrownValue) fresh =
      (blocks (codexEvent jsonParse formatThrownValue)).drain texts.flatten := by
  have hfeed : codexRead jsonParse formatThrownValue = (blocks (codexEvent jsonParse formatThrownValue)).feed := by
    funext read text
    unfold codexRead proceed Reader.feed
    cases read.rest <;> rfl
  rw [hfeed, ← drain_nil, Reader.feed_chunks, nil_append]

end Codex

end PiAgent.Ai.Sse
