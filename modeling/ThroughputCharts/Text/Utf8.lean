/-!
# Reading UTF-8

Bytes are either the UTF-8 encoding of a text, or they stop being one after a longest prefix of whole
characters.
-/

namespace ThroughputCharts
namespace Text

/-- The end of the longest run of whole characters from a position on. -/
def wholeCharactersEnd (bytes : ByteArray) (position : Nat) : Nat :=
  if found : (bytes.utf8DecodeChar? position).isSome then
    wholeCharactersEnd bytes (position + ((bytes.utf8DecodeChar? position).get found).utf8Size)
  else
    position
termination_by bytes.size - position
decreasing_by
  have inside := ByteArray.lt_size_of_isSome_utf8DecodeChar? found
  have nonempty := ((bytes.utf8DecodeChar? position).get found).utf8Size_pos
  omega

/-- The text that bytes encode, or the length of their longest prefix of whole characters. -/
def ofUtf8 (bytes : List UInt8) : Except Nat String :=
  match String.fromUTF8? bytes.toByteArray with
  | some text => .ok text
  | none => .error (wholeCharactersEnd bytes.toByteArray 0)

def toUtf8 (text : String) : List UInt8 :=
  text.toByteArray.data.toList

@[simp]
theorem ofUtf8_toUtf8 (text : String) : ofUtf8 (toUtf8 text) = .ok text := by
  have bytes : (toUtf8 text).toByteArray = text.toByteArray := by
    apply ByteArray.ext
    simp [toUtf8]
  simp [ofUtf8, bytes, String.fromUTF8?, String.isValidUTF8, String.fromUTF8]

end Text
end ThroughputCharts
