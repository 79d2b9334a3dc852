import PiAgent.Lib.Utf8

/-!
# Text decoders

The `TextDecoder` of the WHATWG encoding standard for UTF-8: a byte order mark at the
beginning of a stream is no part of its text.
-/

namespace PiAgent.Utf8

def byteOrderMark : Char := Char.ofNat 0xFEFF

/-- A text without the byte order mark it begins with, where that is not behind us. -/
def stripBom : Bool → List Char → List Char
  | false, c :: text => if c = byteOrderMark then text else c :: text
  | _, text => text

/-- The UTF-8 decoder, and whether a character came. -/
structure TextDecoder where
  utf8 : Decoder
  bomSeen : Bool

namespace TextDecoder

def new : TextDecoder := ⟨.new, false⟩

/-- What is left after `decode(bytes, { stream: true })`. -/
def next (t : TextDecoder) (bytes : List UInt8) : TextDecoder :=
  ⟨(feed t.utf8 bytes).1, t.bomSeen || !(feed t.utf8 bytes).2.isEmpty⟩

/-- The text of `decode(bytes, { stream: true })`. -/
def decode (t : TextDecoder) (bytes : List UInt8) : List Char := stripBom t.bomSeen (feed t.utf8 bytes).2

/-- The text of `decode()`. -/
def finish (t : TextDecoder) : List Char := stripBom t.bomSeen (flush t.utf8)

variable (t : TextDecoder)

theorem next_append (a b : List UInt8) : t.next (a ++ b) = (t.next a).next b := by
  unfold next
  rw [feed_append]
  dsimp only
  congr 1
  cases t.bomSeen <;> cases (feed t.utf8 a).2 <;> simp

theorem decode_append (a b : List UInt8) : t.decode (a ++ b) = t.decode a ++ (t.next a).decode b := by
  unfold decode next
  rw [feed_append]
  dsimp only
  cases t.bomSeen with
  | true => rfl
  | false =>
    cases (feed t.utf8 a).2 with
    | nil => rfl
    | cons c text =>
      simp only [List.cons_append, stripBom, List.isEmpty_cons, Bool.not_false, Bool.or_true]
      split <;> rfl

@[simp] theorem decode_nil : t.decode [] = [] := by
  unfold decode
  cases t.bomSeen <;> rfl

/-- The texts of the chunks of a stream. -/
def decodeChunks : TextDecoder → List (List UInt8) → List (List Char)
  | _, [] => []
  | t, chunk :: chunks => t.decode chunk :: decodeChunks (t.next chunk) chunks

theorem flatten_decodeChunks (chunks : List (List UInt8)) :
    (t.decodeChunks chunks).flatten = t.decode chunks.flatten := by
  induction chunks generalizing t with
  | nil => simp [decodeChunks]
  | cons chunk chunks ih => rw [decodeChunks, List.flatten_cons, ih, List.flatten_cons, decode_append]

end TextDecoder

end PiAgent.Utf8
