import TriggerDialect.Text.Position

/-!
# The bytes of a text

Offsets count bytes of the UTF-8 form. `IsSlice` says that a text stands between two bytes of
another one, neither of which is inside a character; characters that follow one another in a text
are such a slice (`isSlice_ofList`).
-/

namespace TriggerDialect.Text

open String

/-- The characters in UTF-8. -/
def bytes (cs : List Char) : List UInt8 := cs.flatMap utf8EncodeChar

@[simp] theorem bytes_nil : bytes [] = [] := rfl

@[simp] theorem bytes_cons (c : Char) (cs : List Char) :
    bytes (c :: cs) = utf8EncodeChar c ++ bytes cs := rfl

@[simp] theorem bytes_append (cs ds : List Char) : bytes (cs ++ ds) = bytes cs ++ bytes ds :=
  List.flatMap_append

@[simp] theorem length_bytes (cs : List Char) : (bytes cs).length = byteLength cs := by
  induction cs with
  | nil => rfl
  | cons c cs ih => simp [ih]

theorem toUTF8_ofList (cs : List Char) : (ofList cs).toUTF8 = (bytes cs).toByteArray := by
  rw [toUTF8_eq_toByteArray, toByteArray_ofList]
  rfl

theorem utf8ByteSize_ofList (cs : List Char) : (ofList cs).utf8ByteSize = byteLength cs := by
  change (ofList cs).toUTF8.size = _
  rw [toUTF8_ofList, List.size_toByteArray, length_bytes]

theorem byteLength_toList (s : String) : byteLength s.toList = s.utf8ByteSize := by
  rw [← utf8ByteSize_ofList, ofList_toList]

/-- The text is what stands between two bytes of `source`, neither of them inside a character. -/
structure IsSlice (source : String) (start stop : Nat) (text : String) : Prop where
  start_valid : (⟨start⟩ : String.Pos.Raw).IsValid source
  stop_valid : (⟨stop⟩ : String.Pos.Raw).IsValid source
  ordered : start ≤ stop
  bytes_eq : source.toUTF8.extract start stop = text.toUTF8

/-- A stretch of the characters is a slice of the bytes. -/
theorem isSlice_ofList {source : String} {front chars rest : List Char}
    (h : source.toList = front ++ (chars ++ rest)) :
    IsSlice source (byteLength front) (byteLength front + byteLength chars)
      (ofList chars) := by
  obtain rfl : source = ofList front ++ (ofList chars ++ ofList rest) := by
    rw [← ofList_append, ← ofList_append, ← h, ofList_toList]
  refine ⟨String.Pos.Raw.isValid_iff_exists_append.2 ⟨_, _, rfl, ?_⟩,
    String.Pos.Raw.isValid_iff_exists_append.2
      ⟨_, _, append_assoc.symm, ?_⟩, Nat.le_add_right _ _, ?_⟩
  · rw [rawEndPos, utf8ByteSize_ofList]
  · rw [rawEndPos, utf8ByteSize_append, utf8ByteSize_ofList, utf8ByteSize_ofList]
  · have hfront : byteLength front = (ofList front).toByteArray.size :=
      (utf8ByteSize_ofList front).symm
    have hchars : byteLength chars = (ofList chars).toByteArray.size :=
      (utf8ByteSize_ofList chars).symm
    simp only [toUTF8_eq_toByteArray, toByteArray_append, hfront, hchars]
    have hskip := ByteArray.extract_append_size_add
      (a := (ofList front).toByteArray)
      (b := (ofList chars).toByteArray ++ (ofList rest).toByteArray)
      (i := 0) (j := (ofList chars).toByteArray.size)
    rw [Nat.add_zero] at hskip
    rw [hskip, ByteArray.extract_append_eq_left rfl]

end TriggerDialect.Text
