import Arcana.Foundations.Unicode
import Arcana.Strings.Compare

/-!
# The conversions between UTF-8 and UTF-16

Each of the four functions is a `wstring_convert` with one of two codecs. Three of them use the one
between UTF-8 and UTF-16 and convert every string back and forth (`utf8ToUtf16_view`,
`utf16ToUtf8_encode`). `utf8_to_utf16(czstring)` uses the one between UTF-8 and UCS-2, which has no
surrogate pairs: it throws when there is a scalar value above `0xFFFF`, where the overload for views
converts (`conversions_iff`). Here `wchar_t` has 16 bits, and a `range_error` is no result.
-/

namespace Arcana.Strings

open Foundations

/-! ## The codecs -/

/-- `codecvt_utf8_utf16`, to UTF-16. -/
def fromBytesUtf16 (bytes : List UInt8) : Option (List UInt16) := (utf8Decode bytes).map utf16Encode

/-- `codecvt_utf8_utf16`, to UTF-8. -/
def toBytesUtf16 (units : List UInt16) : Option (List UInt8) := (utf16Decode units).map utf8Encode

/-- `codecvt_utf8`, to UCS-2: a scalar value is one unit, or an error. -/
def fromBytesUcs2 (bytes : List UInt8) : Option (List UInt16) :=
  (utf8Decode bytes).bind fun cs =>
    if cs.all (·.toNat ≤ 0xFFFF) then some (cs.map fun c => UInt16.ofNat c.toNat) else none

/-! ## The functions -/

/-- `utf16_to_utf8(gsl::cwzstring)`. -/
def utf16ToUtf8Cwzstring (input : List UInt16) : Option (List UInt8) :=
  toBytesUtf16 (untilNul input)

/-- `utf8_to_utf16(gsl::czstring)`. -/
def utf8ToUtf16Czstring (input : List UInt8) : Option (List UInt16) :=
  fromBytesUcs2 (untilNul input)

/-- `utf16_to_utf8(std::wstring_view)`. -/
def utf16ToUtf8View (input : List UInt16) : Option (List UInt8) := toBytesUtf16 input

/-- `utf8_to_utf16(std::string_view)`. -/
def utf8ToUtf16View (input : List UInt8) : Option (List UInt16) := fromBytesUtf16 input

variable {cs : List Char}

/-- **A view is converted to the UTF-16 encoding of what it is the UTF-8 encoding of.** -/
theorem utf8ToUtf16_view (cs : List Char) :
    utf8ToUtf16View (utf8Encode cs) = some (utf16Encode cs) := by
  rw [utf8ToUtf16View, fromBytesUtf16, utf8Decode_utf8Encode]
  rfl

/-- **And both overloads convert this one back.** -/
theorem utf16ToUtf8_encode (h : '\x00' ∉ cs) :
    utf16ToUtf8Cwzstring (utf16Encode cs) = some (utf8Encode cs) ∧
      utf16ToUtf8View (utf16Encode cs) = some (utf8Encode cs) := by
  have hview : utf16ToUtf8View (utf16Encode cs) = some (utf8Encode cs) := by
    rw [utf16ToUtf8View, toBytesUtf16, utf16Decode_utf16Encode]
    rfl
  have hnul : 0 ∉ utf16Encode cs := zero_notMem_utf16Encode h
  refine ⟨?_, hview⟩
  rw [utf16ToUtf8Cwzstring, untilNul_of_not_mem hnul]
  exact hview

/-- A string of scalar values up to `0xFFFF` has one unit for each. -/
theorem utf16Encode_of_le (h : ∀ c ∈ cs, c.toNat ≤ 0xFFFF) :
    utf16Encode cs = cs.map fun c => UInt16.ofNat c.toNat := by
  induction cs with
  | nil => rfl
  | cons c cs ih =>
    obtain ⟨hc, hcs⟩ := List.forall_mem_cons.1 h
    have hchar : utf16EncodeChar c = [UInt16.ofNat c.toNat] := if_pos (by omega)
    calc utf16Encode (c :: cs) = utf16EncodeChar c ++ utf16Encode cs := rfl
      _ = [UInt16.ofNat c.toNat] ++ cs.map fun c => UInt16.ofNat c.toNat := by rw [hchar, ih hcs]

/-- **A C string is converted as a view is, if it has no scalar value above `0xFFFF`.** -/
theorem utf8ToUtf16_czstring (h : '\x00' ∉ cs) : utf8ToUtf16Czstring (utf8Encode cs) =
    if cs.all (·.toNat ≤ 0xFFFF) then some (utf16Encode cs) else none := by
  have hnul : 0 ∉ utf8Encode cs := zero_notMem_utf8Encode h
  rw [utf8ToUtf16Czstring, untilNul_of_not_mem hnul, fromBytesUcs2, utf8Decode_utf8Encode,
    Option.bind_some]
  by_cases hall : cs.all (·.toNat ≤ 0xFFFF) = true
  · have hle : ∀ c ∈ cs, c.toNat ≤ 0xFFFF := by simpa using hall
    rw [if_pos hall, if_pos hall, utf16Encode_of_le hle]
  · rw [if_neg hall, if_neg hall]

/-- The overloads return the same UTF-16 string for the UTF-8 string, and both others return the
UTF-8 string for it. -/
def RoundTrips (s : List UInt8) : Prop :=
  ∃ w, utf8ToUtf16Czstring s = some w ∧ utf8ToUtf16View s = some w ∧
    utf16ToUtf8Cwzstring w = some s ∧ utf16ToUtf8View w = some s

/-- **The conversions agree and round-trip exactly when there is no scalar value above `0xFFFF`.**
Those of a view always round-trip. -/
theorem conversions_iff (h : '\x00' ∉ cs) :
    (RoundTrips (utf8Encode cs) ↔ ∀ c ∈ cs, c.toNat ≤ 0xFFFF) ∧
      utf8ToUtf16View (utf8Encode cs) = some (utf16Encode cs) ∧
      utf16ToUtf8Cwzstring (utf16Encode cs) = some (utf8Encode cs) ∧
      utf16ToUtf8View (utf16Encode cs) = some (utf8Encode cs) := by
  refine ⟨⟨?_, fun hle => ?_⟩, utf8ToUtf16_view cs, utf16ToUtf8_encode h⟩
  · rintro ⟨w, hczstring, -⟩
    rw [utf8ToUtf16_czstring h] at hczstring
    obtain ⟨hall, -⟩ := Option.ite_none_right_eq_some.1 hczstring
    simpa using hall
  · have hall : cs.all (·.toNat ≤ 0xFFFF) = true := by simpa using hle
    refine ⟨utf16Encode cs, ?_, utf8ToUtf16_view cs, utf16ToUtf8_encode h⟩
    rw [utf8ToUtf16_czstring h, if_pos hall]

/-- A string with a scalar value of three bytes. -/
theorem conversions_iff_euro : RoundTrips (utf8Encode ['1', '€']) :=
  (conversions_iff (by decide)).1.2 (by simp)

/-- **A scalar value that needs a surrogate pair does not round-trip.** -/
theorem not_conversions_pair : ¬ ∀ cs : List Char, '\x00' ∉ cs → RoundTrips (utf8Encode cs) := by
  intro hall
  obtain ⟨w, hczstring, -⟩ := hall [Char.ofNat 0x10437] (by decide)
  rw [utf8ToUtf16_czstring (by decide)] at hczstring
  simp at hczstring

end Arcana.Strings
