import Mathlib.Tactic.SplitIfs
import ThroughputCharts.Text.Utf8

/-!
# The byte order of texts

Texts are compared by their code points.  UTF-8 keeps that order: comparing the encodings byte by
byte gives the same answer, although characters differ in length.
-/

namespace ThroughputCharts
namespace Text

private theorem toNat_lt_codePoints (char : Char) : char.val.toNat < 0x110000 := by
  have valid : char.val.toNat.isValidChar := char.valid
  unfold Nat.isValidChar at valid
  omega

private theorem ofNat_cons_lt_iff {low high : Nat} (lowFits : low < 256) (highFits : high < 256)
    (lowRest highRest : List UInt8) :
    UInt8.ofNat low :: lowRest < UInt8.ofNat high :: highRest ↔
      low < high ∨ low = high ∧ lowRest < highRest := by
  rw [List.cons_lt_cons_iff, UInt8.lt_iff_toNat_lt, ← UInt8.toNat_inj,
    UInt8.toNat_ofNat_of_lt' lowFits, UInt8.toNat_ofNat_of_lt' highFits]

/-- Encodings of different characters differ before either ends, so what follows them does not
matter. -/
theorem utf8EncodeChar_append_lt {first second : Char} (less : first < second)
    (firstRest secondRest : List UInt8) :
    String.utf8EncodeChar first ++ firstRest < String.utf8EncodeChar second ++ secondRest := by
  have below : first.val.toNat < second.val.toNat := less
  have firstBound := toNat_lt_codePoints first
  have secondBound := toNat_lt_codePoints second
  have twoPlaces (code : Nat) : code / 4096 = code / 64 / 64 := by omega
  have threePlaces (code : Nat) : code / 262144 = code / 64 / 64 / 64 := by omega
  simp only [String.utf8EncodeChar, twoPlaces, threePlaces]
  -- The bytes are the digits of the code point to base 64; the first one also tells the length.
  split_ifs <;>
    simp (disch := omega) only [List.cons_append, List.nil_append, ofNat_cons_lt_iff] <;>
    omega

theorem toUtf8_eq_flatMap (text : String) :
    toUtf8 text = text.toList.flatMap String.utf8EncodeChar := by
  have encoded : text.toByteArray = text.toList.utf8Encode := String.utf8Encode_toList.symm
  simp [toUtf8, encoded, List.utf8Encode]

theorem flatMap_utf8EncodeChar_lt {first second : List Char} (less : first < second) :
    first.flatMap String.utf8EncodeChar < second.flatMap String.utf8EncodeChar := by
  induction less with
  | @nil char rest =>
      rw [List.flatMap_cons]
      cases encoded : String.utf8EncodeChar char with
      | nil => exact absurd encoded String.utf8EncodeChar_ne_nil
      | cons byte bytes => simp
  | rel less => exact utf8EncodeChar_append_lt less _ _
  | cons _ induction =>
      rw [List.flatMap_cons, List.flatMap_cons]
      exact List.append_left_lt induction

/-- UTF-8 keeps the order of texts. -/
theorem toUtf8_lt_iff {first second : String} :
    toUtf8 first < toUtf8 second ↔ first < second := by
  rw [toUtf8_eq_flatMap, toUtf8_eq_flatMap]
  constructor
  · intro bytesLess
    apply Classical.byContradiction
    intro notLess
    rcases Std.le_iff_lt_or_eq.mp (String.not_lt.mp notLess) with greater | rfl
    · exact List.lt_asymm bytesLess (flatMap_utf8EncodeChar_lt greater)
    · exact List.lt_irrefl _ bytesLess
  · intro less
    exact flatMap_utf8EncodeChar_lt less

end Text
end ThroughputCharts
