import Improv.Lib.ByteOffsets
import Mathlib.Data.List.Basic
import Mathlib.Data.String.Basic
/-!
# Texts and their bytes

The UTF-8 bytes of a text, and the text that bytes are read as when those that
are not UTF-8 are replaced.
-/

namespace Improv.Lib.Utf8

/-- The bytes of a text. -/
def encode (cs : List Char) : List UInt8 := cs.flatMap String.utf8EncodeChar

@[simp] theorem encode_nil : encode [] = [] := rfl

@[simp] theorem encode_append (cs ds : List Char) : encode (cs ++ ds) = encode cs ++ encode ds :=
  List.flatMap_append

theorem encode_cons (c : Char) (cs : List Char) :
    encode (c :: cs) = String.utf8EncodeChar c ++ encode cs := rfl

theorem encode_flatten (texts : List (List Char)) :
    encode texts.flatten = (texts.map encode).flatten := by
  induction texts with
  | nil => rfl
  | cons text texts ih =>
      rw [List.flatten_cons, encode_append, ih, List.map_cons, List.flatten_cons]

/-- Where the second byte of a character may lie that starts with this byte, and
how many bytes it has. -/
def form (b : UInt8) : Option (UInt8 × UInt8 × Nat) :=
  if 0xC2 ≤ b ∧ b ≤ 0xDF then some (0x80, 0xBF, 2)
  else if b = 0xE0 then some (0xA0, 0xBF, 3)
  else if b = 0xED then some (0x80, 0x9F, 3)
  else if 0xE1 ≤ b ∧ b ≤ 0xEF then some (0x80, 0xBF, 3)
  else if b = 0xF0 then some (0x90, 0xBF, 4)
  else if 0xF1 ≤ b ∧ b ≤ 0xF3 then some (0x80, 0xBF, 4)
  else if b = 0xF4 then some (0x80, 0x8F, 4)
  else none

/-- How many bytes one replacement stands for: the longest start of a character
that the bytes begin with, or one byte. -/
def brokenLength : List UInt8 → Nat
  | b :: second :: rest =>
    match form b with
    | some (low, high, n) =>
      if low ≤ second ∧ second ≤ high then
        2 + ((rest.take (n - 2)).takeWhile fun x => 0x80 ≤ x && x ≤ 0xBF).length
      else 1
    | none => 1
  | _ => 1

/-- The bytes as a text; `fuel` bounds the characters. -/
def lossy : (fuel : Nat) → List UInt8 → List Char
  | 0, _ => []
  | _, [] => []
  | fuel + 1, b :: bytes =>
    match ByteArray.utf8DecodeChar? (b :: bytes).toByteArray 0 with
    | some c => c :: lossy fuel ((b :: bytes).drop c.utf8Size)
    | none => '\uFFFD' :: lossy fuel ((b :: bytes).drop (brokenLength (b :: bytes)))

/-- The bytes as a text, a replacement character for what is not UTF-8. -/
def fromUtf8Lossy (bytes : List UInt8) : List Char := lossy bytes.length bytes

theorem lossy_encode {fuel : Nat} {cs : List Char} (hfuel : (encode cs).length ≤ fuel) :
    lossy fuel (encode cs) = cs := by
  induction cs generalizing fuel with
  | nil => cases fuel <;> rfl
  | cons c cs ih =>
      have hsize := String.length_utf8EncodeChar c
      have hpos := c.utf8Size_pos
      rw [encode_cons, List.length_append] at hfuel
      obtain ⟨fuel, rfl⟩ : ∃ f, fuel = f + 1 := ⟨fuel - 1, by omega⟩
      have hdecode : ByteArray.utf8DecodeChar? (encode (c :: cs)).toByteArray 0 = some c := by
        rw [encode_cons, List.toByteArray_append]
        exact ByteArray.utf8DecodeChar?_utf8EncodeChar_append
      have hdrop : (encode (c :: cs)).drop c.utf8Size = encode cs := by
        rw [encode_cons, ← hsize, List.drop_left]
      cases hbytes : encode (c :: cs) with
      | nil =>
          rw [encode_cons, List.append_eq_nil_iff] at hbytes
          rw [hbytes.1, List.length_nil] at hsize
          omega
      | cons b bytes =>
          rw [hbytes] at hdecode hdrop
          rw [lossy, hdecode]
          simp only
          rw [hdrop, ih (by omega)]

/-- The bytes of a text are read as the text. -/
theorem fromUtf8Lossy_encode (cs : List Char) : fromUtf8Lossy (encode cs) = cs :=
  lossy_encode le_rfl

theorem encode_inj {cs ds : List Char} (h : encode cs = encode ds) : cs = ds := by
  rw [← fromUtf8Lossy_encode cs, h, fromUtf8Lossy_encode]

open ByteOffsets

/-! ## Bytes and characters -/

/-- The byte of an ASCII character. -/
def byte (c : Char) : UInt8 := .ofNat c.toNat

theorem length_encode (cs : List Char) : (encode cs).length = bytes cs := by
  induction cs with
  | nil => rfl
  | cons c cs ih =>
      rw [encode_cons, List.length_append, String.length_utf8EncodeChar, ih, bytes_cons]

theorem drop_encode (cs ds : List Char) : (encode (cs ++ ds)).drop (bytes cs) = encode ds := by
  rw [encode_append, ← length_encode, List.drop_left]

theorem encodeChar_ascii {c : Char} (h : c.toNat < 128) : String.utf8EncodeChar c = [byte c] := by
  unfold String.utf8EncodeChar
  exact if_pos (show c.val.toNat ≤ 127 by have : c.val.toNat < 128 := h; omega)

theorem toNat_ofNat {n : Nat} (h : n < 256) : (UInt8.ofNat n).toNat = n := by
  rw [UInt8.toNat_ofNat', Nat.mod_eq_of_lt h]

/-- No byte of another character is ASCII. -/
theorem le_of_mem_encodeChar {c : Char} (h : 128 ≤ c.toNat) {b : UInt8}
    (hb : b ∈ String.utf8EncodeChar c) : 128 ≤ b.toNat := by
  have hval : ¬c.val.toNat ≤ 127 := by
    have hc : 128 ≤ c.val.toNat := h
    omega
  have hbyte : ∀ {n : Nat}, b = .ofNat n → 128 ≤ n → n < 256 → 128 ≤ b.toNat := by
    intro n heq hlow hhigh
    rw [heq, toNat_ofNat hhigh]
    exact hlow
  unfold String.utf8EncodeChar at hb
  simp only [if_neg hval] at hb
  split at hb
  · simp only [List.mem_cons, List.not_mem_nil, or_false] at hb
    rcases hb with hb | hb <;> exact hbyte hb (by omega) (by omega)
  · split at hb
    · simp only [List.mem_cons, List.not_mem_nil, or_false] at hb
      rcases hb with hb | hb | hb <;> exact hbyte hb (by omega) (by omega)
    · simp only [List.mem_cons, List.not_mem_nil, or_false] at hb
      rcases hb with hb | hb | hb | hb <;> exact hbyte hb (by omega) (by omega)

/-- A test of bytes that says the same of an ASCII character as a test of characters,
and of the bytes of the others what that says of them. -/
structure Agrees (p : UInt8 → Bool) (q : Char → Bool) (wide : Bool) : Prop where
  ascii : ∀ c : Char, c.toNat < 128 → p (byte c) = q c
  byteWide : ∀ b : UInt8, 128 ≤ b.toNat → p b = wide
  charWide : ∀ c : Char, 128 ≤ c.toNat → q c = wide

theorem byte_toNat {c : Char} (h : c.toNat < 128) : (byte c).toNat = c.toNat :=
  toNat_ofNat (by omega)

theorem byte_inj {c d : Char} (hc : c.toNat < 128) (hd : d.toNat < 128) (h : byte c = byte d) :
    c = d := by
  apply Char.ext
  apply UInt32.toNat_inj.mp
  show c.toNat = d.toNat
  rw [← byte_toNat hc, ← byte_toNat hd, h]

theorem agrees_ne {q : Char} (hq : q.toNat < 128) :
    Agrees (fun b => b ≠ byte q) (fun c => c ≠ q) true where
  ascii c hc := decide_eq_decide.mpr (not_congr ⟨byte_inj hc hq, congrArg byte⟩)
  byteWide b hb := decide_eq_true fun heq => by
    rw [heq, byte_toNat hq] at hb
    omega
  charWide c hc := decide_eq_true fun heq => by
    rw [heq] at hc
    omega

theorem agrees_eq {q : Char} (hq : q.toNat < 128) :
    Agrees (fun b => b = byte q) (fun c => c = q) false where
  ascii c hc := decide_eq_decide.mpr ⟨byte_inj hc hq, congrArg byte⟩
  byteWide b hb := decide_eq_false fun heq => by
    rw [heq, byte_toNat hq] at hb
    omega
  charWide c hc := decide_eq_false fun heq => by
    rw [heq] at hc
    omega

variable {p : UInt8 → Bool} {q : Char → Bool} {wide : Bool}

theorem Agrees.head (h : Agrees p q wide) (cs : List Char) :
    (encode cs).head?.any p = cs.head?.any q := by
  cases cs with
  | nil => rfl
  | cons c cs =>
      rw [encode_cons]
      show _ = q c
      by_cases hc : c.toNat < 128
      · rw [encodeChar_ascii hc]
        exact h.ascii c hc
      · rw [h.charWide c (by omega)]
        cases henc : String.utf8EncodeChar c with
        | nil => exact absurd henc String.utf8EncodeChar_ne_nil
        | cons b bs =>
            apply h.byteWide b
            apply le_of_mem_encodeChar (c := c) (by omega)
            rw [henc]
            exact List.mem_cons_self

/-- Bytes taken while a test holds are those of the characters taken. -/
theorem Agrees.takeWhile (h : Agrees p q wide) (cs : List Char) :
    (encode cs).takeWhile p = encode (cs.takeWhile q) := by
  induction cs with
  | nil => rfl
  | cons c cs ih =>
      by_cases hc : c.toNat < 128
      · rw [encode_cons, encodeChar_ascii hc, List.singleton_append]
        by_cases hq : q c = true
        · rw [List.takeWhile_cons_of_pos hq, List.takeWhile_cons_of_pos (by rw [h.ascii c hc, hq]),
            ih, encode_cons, encodeChar_ascii hc, List.singleton_append]
        · rw [List.takeWhile_cons_of_neg hq, List.takeWhile_cons_of_neg (by rwa [h.ascii c hc]),
            encode_nil]
      · have hwide : ∀ b ∈ String.utf8EncodeChar c, p b = wide := fun b hb =>
          h.byteWide b (le_of_mem_encodeChar (by omega) hb)
        have hq := h.charWide c (by omega)
        cases wide with
        | true =>
            rw [List.takeWhile_cons_of_pos hq, encode_cons, encode_cons,
              List.takeWhile_append_of_pos hwide, ih]
        | false =>
            have hneg : ¬q c = true := by rw [hq]; exact Bool.false_ne_true
            rw [List.takeWhile_cons_of_neg hneg, encode_cons, encode_nil]
            cases henc : String.utf8EncodeChar c with
            | nil => exact absurd henc String.utf8EncodeChar_ne_nil
            | cons b bs =>
                rw [henc] at hwide
                have hb : ¬p b = true := by
                  rw [hwide b List.mem_cons_self]
                  exact Bool.false_ne_true
                rw [List.cons_append, List.takeWhile_cons_of_neg hb]

end Improv.Lib.Utf8
