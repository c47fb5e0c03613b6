import Mathlib.Data.List.Basic

/-!
# UTF-8 and UTF-16

A string of Unicode scalar values is a list of `Char`. Its UTF-8 encoding and the decoder are those
of the standard library; UTF-16 is defined here. What is encoded is decoded again
(`utf8Decode_utf8Encode`, `utf16Decode_utf16Encode`), and a zero appears in an encoding only when
the string holds NUL (`zero_notMem_utf8Encode`, `zero_notMem_utf16Encode`).
-/

namespace Arcana.Foundations

/-- The scalar values do not include the surrogates. -/
theorem char_toNat_cases (c : Char) : c.toNat < 0xD800 ∨ 0xE000 ≤ c.toNat ∧ c.toNat < 0x110000 := by
  have hvalid := c.valid
  change c.toNat < 0xd800 ∨ 0xdfff < c.toNat ∧ c.toNat < 0x110000 at hvalid
  omega

theorem char_eq_nul_iff {c : Char} : c.toNat = 0 ↔ c = '\x00' := by
  constructor
  · intro h
    rw [← Char.ofNat_toNat c, h]
  · intro h
    rw [h]
    decide

/-! ## UTF-8 -/

/-- The UTF-8 encoding of a string. -/
def utf8Encode (cs : List Char) : List UInt8 := cs.flatMap String.utf8EncodeChar

/-- The string of a UTF-8 encoding; there is none when it is not well formed. -/
def utf8Decode (bytes : List UInt8) : Option (List Char) :=
  bytes.toByteArray.utf8Decode?.map Array.toList

theorem utf8Decode_utf8Encode (cs : List Char) : utf8Decode (utf8Encode cs) = some cs := by
  have hdecode : (utf8Encode cs).toByteArray.utf8Decode? = some cs.toArray :=
    List.utf8Decode?_utf8Encode
  rw [utf8Decode, hdecode]
  rfl

/-- Only NUL is encoded with a zero: the other bytes carry a mark, and the only byte of an ASCII
character is its value. -/
theorem zero_notMem_utf8EncodeChar {c : Char} (h : c ≠ '\x00') : 0 ∉ String.utf8EncodeChar c := by
  have hcases := char_toNat_cases c
  have hpos : c.toNat ≠ 0 := fun h0 => h (char_eq_nul_iff.1 h0)
  have hbyte {n : ℕ} (hpos : 0 < n) (hlt : n < 256) : 0 ≠ UInt8.ofNat n := by
    intro h0
    have hnat := congrArg UInt8.toNat h0
    rw [UInt8.toNat_ofNat_of_lt' hlt] at hnat
    simp at hnat
    omega
  have hval : c.val.toNat = c.toNat := rfl
  unfold String.utf8EncodeChar
  simp only [hval]
  split_ifs
  all_goals simp only [List.mem_cons, List.not_mem_nil, or_false, not_or]
  · exact hbyte (by omega) (by omega)
  · exact ⟨hbyte (by omega) (by omega), hbyte (by omega) (by omega)⟩
  · exact ⟨hbyte (by omega) (by omega), hbyte (by omega) (by omega), hbyte (by omega) (by omega)⟩
  · exact ⟨hbyte (by omega) (by omega), hbyte (by omega) (by omega), hbyte (by omega) (by omega),
      hbyte (by omega) (by omega)⟩

theorem zero_notMem_utf8Encode {cs : List Char} (h : '\x00' ∉ cs) : 0 ∉ utf8Encode cs := by
  intro hmem
  obtain ⟨c, hc, hzero⟩ := List.mem_flatMap.1 hmem
  exact zero_notMem_utf8EncodeChar (ne_of_mem_of_not_mem hc h) hzero

/-! ## UTF-16 -/

/-- A scalar value as one unit, or as a pair of surrogates. -/
def utf16EncodeChar (c : Char) : List UInt16 :=
  if c.toNat < 0x10000 then [UInt16.ofNat c.toNat]
  else [UInt16.ofNat (0xD800 + (c.toNat - 0x10000) / 0x400),
    UInt16.ofNat (0xDC00 + (c.toNat - 0x10000) % 0x400)]

/-- The UTF-16 encoding of a string. -/
def utf16Encode (cs : List Char) : List UInt16 := cs.flatMap utf16EncodeChar

/-- The first unit of a pair. -/
def isHighSurrogate (u : UInt16) : Bool := 0xD800 ≤ u.toNat && u.toNat < 0xDC00

/-- The second unit of a pair. -/
def isLowSurrogate (u : UInt16) : Bool := 0xDC00 ≤ u.toNat && u.toNat < 0xE000

/-- The string of a UTF-16 encoding; there is none when a surrogate stands alone. -/
def utf16Decode : List UInt16 → Option (List Char)
  | [] => some []
  | u :: units =>
    if isHighSurrogate u then
      match units with
      | [] => none
      | v :: units =>
        if isLowSurrogate v then
          (utf16Decode units).map
            (Char.ofNat (0x10000 + (u.toNat - 0xD800) * 0x400 + (v.toNat - 0xDC00)) :: ·)
        else none
    else if isLowSurrogate u then none
    else (utf16Decode units).map (Char.ofNat u.toNat :: ·)

example : utf16Encode ['a', Char.ofNat 0x10437] = [0x61, 0xD801, 0xDC37] := by decide

theorem utf16Decode_append (c : Char) (units : List UInt16) :
    utf16Decode (utf16EncodeChar c ++ units) = (utf16Decode units).map (c :: ·) := by
  have hcases := char_toNat_cases c
  unfold utf16EncodeChar
  split_ifs with h
  · have hunit : (UInt16.ofNat c.toNat).toNat = c.toNat := UInt16.toNat_ofNat_of_lt' h
    have hhigh : isHighSurrogate (UInt16.ofNat c.toNat) = false := by
      rw [isHighSurrogate, hunit]
      simp only [Bool.and_eq_false_iff, decide_eq_false_iff_not]
      omega
    have hlow : isLowSurrogate (UInt16.ofNat c.toNat) = false := by
      rw [isLowSurrogate, hunit]
      simp only [Bool.and_eq_false_iff, decide_eq_false_iff_not]
      omega
    simp only [List.cons_append, List.nil_append]
    rw [utf16Decode.eq_def]
    simp only [hhigh, hlow, hunit, Char.ofNat_toNat, Bool.false_eq_true, if_false]
  · have hunit : (UInt16.ofNat (0xD800 + (c.toNat - 0x10000) / 0x400)).toNat =
        0xD800 + (c.toNat - 0x10000) / 0x400 :=
          UInt16.toNat_ofNat_of_lt' (by simp only [UInt16.size]; omega)
    have hunit' : (UInt16.ofNat (0xDC00 + (c.toNat - 0x10000) % 0x400)).toNat =
        0xDC00 + (c.toNat - 0x10000) % 0x400 :=
          UInt16.toNat_ofNat_of_lt' (by simp only [UInt16.size]; omega)
    have hhigh : isHighSurrogate (UInt16.ofNat (0xD800 + (c.toNat - 0x10000) / 0x400)) = true := by
      rw [isHighSurrogate, hunit]
      simp only [Bool.and_eq_true, decide_eq_true_eq]
      omega
    have hlow : isLowSurrogate (UInt16.ofNat (0xDC00 + (c.toNat - 0x10000) % 0x400)) = true := by
      rw [isLowSurrogate, hunit']
      simp only [Bool.and_eq_true, decide_eq_true_eq]
      omega
    have hvalue : 0x10000 + (0xD800 + (c.toNat - 0x10000) / 0x400 - 0xD800) * 0x400 +
        (0xDC00 + (c.toNat - 0x10000) % 0x400 - 0xDC00) = c.toNat := by omega
    simp only [List.cons_append, List.nil_append]
    rw [utf16Decode, hhigh]
    simp only [if_true]
    rw [hlow, hunit, hunit', hvalue, Char.ofNat_toNat]
    rfl

theorem utf16Decode_utf16Encode (cs : List Char) : utf16Decode (utf16Encode cs) = some cs := by
  induction cs with
  | nil => rfl
  | cons c cs ih =>
    change utf16Decode (utf16EncodeChar c ++ utf16Encode cs) = _
    rw [utf16Decode_append, ih]
    rfl

theorem zero_notMem_utf16EncodeChar {c : Char} (h : c ≠ '\x00') : 0 ∉ utf16EncodeChar c := by
  have hcases := char_toNat_cases c
  have hpos : c.toNat ≠ 0 := fun h0 => h (char_eq_nul_iff.1 h0)
  have hunit {n : ℕ} (hpos : 0 < n) (hlt : n < 65536) : 0 ≠ UInt16.ofNat n := by
    intro h0
    have hnat := congrArg UInt16.toNat h0
    rw [UInt16.toNat_ofNat_of_lt' hlt] at hnat
    simp at hnat
    omega
  unfold utf16EncodeChar
  split_ifs
  all_goals simp only [List.mem_cons, List.not_mem_nil, or_false, not_or]
  · exact hunit (by omega) (by omega)
  · exact ⟨hunit (by omega) (by omega), hunit (by omega) (by omega)⟩

theorem zero_notMem_utf16Encode {cs : List Char} (h : '\x00' ∉ cs) : 0 ∉ utf16Encode cs := by
  intro hmem
  obtain ⟨c, hc, hzero⟩ := List.mem_flatMap.1 hmem
  exact zero_notMem_utf16EncodeChar (ne_of_mem_of_not_mem hc h) hzero

end Arcana.Foundations
