import Mathlib.Algebra.Group.Nat.Defs
import Arcana.Errors.CategoryStorage

/-!
# Error codes as HRESULTs

`hr_from_error_code` packs the number of a category and the value of an error code into one word,
with the severity and the customer bit set, and passes the values of `hresult_category` on as they
are. `error_code_from_hr` looks up the facility of a word that has the customer bit. The word is
described by its fields: bits 31 to 29 are `h.toNat / 2 ^ 29`, the facility is below them, and the
code is the low half (`toNat_makeHresultCode`, `toNat_hresultFacility`, `toNat_hresultCode`).

Error codes of registered categories survive the trip (`error_code_survives`). A word that has the
customer bit and the facility of a registered category need not: its bits 31 and 30 are not kept,
nor is the number of a repeated registration (`hr_survives_iff`). And a value of `hresult_category`
can be the word that stands for an error code of another category (`hr_eq_iff`).
-/

namespace Arcana.Errors

open CategoryStorage

/-! ## The words -/

/-- `MAKE_HRESULT`. -/
def makeHresult (sev fac code : BitVec 32) : BitVec 32 := sev <<< 31 ||| fac <<< 16 ||| code

/-- `HRESULT_FACILITY`. An HRESULT is signed. -/
def hresultFacility (hr : BitVec 32) : BitVec 32 := hr.sshiftRight 16 &&& 0x1fff#32

/-- `HRESULT_CODE`. -/
def hresultCode (hr : BitVec 32) : BitVec 32 := hr &&& 0xFFFF#32

/-- `CustomerBitMask`. -/
def customerBitMask : BitVec 32 := 0x20000000#32

/-- `E_FAIL`. -/
def eFail : BitVec 32 := 0x80004005#32

/-- `make_hresult_code`. The severity is `SEVERITY_ERROR`. -/
def makeHresultCode (categoryFacility code : BitVec 32) : BitVec 32 :=
  makeHresult 1#32 categoryFacility code ||| customerBitMask

/-! ## The conversions -/

/-- `get_category_from_hresult`. -/
def getCategoryFromHresult (s : CategoryStorage) (hr : BitVec 32) : Option Category :=
  if hr &&& customerBitMask = 0#32 then none else s.getCategory (hresultFacility hr).toNat

/-- `error_code_from_hr`. -/
def errorCodeFromHr (s : CategoryStorage) (hr : BitVec 32) : ErrorCode :=
  match getCategoryFromHresult s hr with
  | some category => { value := hresultCode hr, category }
  | none => { value := hr, category := .hresult }

/-- `hr_from_error_code`; there is no result when an assertion fails. With `ndebug` none is
evaluated. -/
def hrFromErrorCode (ndebug : Bool) (s : CategoryStorage) (errorCode : ErrorCode) :
    Option (BitVec 32) :=
  if !ndebug && errorCode.value == 0#32 then none
  else if errorCode.category = .hresult then some errorCode.value
  else if !ndebug && errorCode.value != hresultCode errorCode.value then none
  else
    match s.getFacility errorCode.category with
    | some facility => some (makeHresultCode (BitVec.ofNat 32 facility) errorCode.value)
    | none => if ndebug then some eFail else none

/-! ## The fields of a word -/

section fields

variable {f : ℕ} {code hr : BitVec 32}

theorem toNat_hresultCode (hr : BitVec 32) : (hresultCode hr).toNat = hr.toNat % 2 ^ 16 := by
  rw [hresultCode, BitVec.toNat_and]
  exact Nat.and_two_pow_sub_one_eq_mod hr.toNat 16

/-- The sign does not reach the facility. -/
theorem hresultFacility_eq (hr : BitVec 32) : hresultFacility hr = hr >>> 16 &&& 0x1fff#32 := by
  apply BitVec.eq_of_getLsbD_eq
  intro i hi
  have hmask : (0x1fff#32).getLsbD i = decide (i < 13) := by
    have hbit := Nat.testBit_two_pow_sub_one 13 i
    simpa [BitVec.getLsbD] using hbit
  rw [hresultFacility, BitVec.getLsbD_and, BitVec.getLsbD_and, hmask]
  by_cases h : i < 13
  · have hlt : 16 + i < 32 := by omega
    have hi' : ¬ 32 ≤ i := by omega
    simp [BitVec.getLsbD_sshiftRight, hlt, hi']
  · simp [h]

theorem toNat_hresultFacility (hr : BitVec 32) :
    (hresultFacility hr).toNat = hr.toNat / 2 ^ 16 % 2 ^ 13 := by
  rw [hresultFacility_eq, BitVec.toNat_and, BitVec.toNat_ushiftRight, Nat.shiftRight_eq_div_pow]
  exact Nat.and_two_pow_sub_one_eq_mod (hr.toNat / 2 ^ 16) 13

/-- **The fields that the encoder packs do not overlap.** -/
theorem toNat_makeHresultCode (hf : f < 2 ^ 13) (hcode : code.toNat < 2 ^ 16) :
    (makeHresultCode (BitVec.ofNat 32 f) code).toNat = 5 * 2 ^ 29 + f * 2 ^ 16 + code.toNat := by
  have hwords : makeHresultCode (BitVec.ofNat 32 f) code =
      0xA0000000#32 ||| (BitVec.ofNat 32 f <<< 16 ||| code) := by
    calc makeHresultCode (BitVec.ofNat 32 f) code
        = 1#32 <<< 31 ||| (BitVec.ofNat 32 f <<< 16 ||| code) ||| customerBitMask :=
          congrArg (· ||| customerBitMask) (BitVec.or_assoc ..)
      _ = customerBitMask ||| 1#32 <<< 31 ||| (BitVec.ofNat 32 f <<< 16 ||| code) := by
          rw [BitVec.or_comm, BitVec.or_assoc]
  have hlow : (BitVec.ofNat 32 f <<< 16 ||| code).toNat = f * 2 ^ 16 + code.toNat := by
    have hf' : f % 2 ^ 32 = f := Nat.mod_eq_of_lt (by omega)
    have hfac : f * 2 ^ 16 % 2 ^ 32 = f * 2 ^ 16 := Nat.mod_eq_of_lt (by omega)
    rw [BitVec.toNat_or, BitVec.toNat_shiftLeft, BitVec.toNat_ofNat, hf', Nat.shiftLeft_eq, hfac,
      ← Nat.shiftLeft_eq, Nat.shiftLeft_add_eq_or_of_lt hcode]
  have hhigh := Nat.shiftLeft_add_eq_or_of_lt (b := f * 2 ^ 16 + code.toNat) (i := 29) (by omega) 5
  rw [Nat.shiftLeft_eq] at hhigh
  rw [hwords, BitVec.toNat_or, hlow, Nat.add_assoc]
  exact hhigh.symm

theorem getLsbD_iff_div (hr : BitVec 32) (i : ℕ) :
    hr.getLsbD i = true ↔ hr.toNat / 2 ^ i % 2 = 1 := by
  rw [BitVec.getLsbD, Nat.testBit_eq_decide_div_mod_eq, decide_eq_true_iff]

theorem and_customerBitMask_iff : hr &&& customerBitMask = 0#32 ↔ hr.toNat / 2 ^ 29 % 2 = 0 := by
  have hmask : customerBitMask = BitVec.twoPow 32 29 := by decide
  have hbit := getLsbD_iff_div hr 29
  rw [hmask, BitVec.and_twoPow]
  cases h : hr.getLsbD 29 with
  | true =>
    have hdiv := hbit.1 h
    rw [if_pos rfl]
    exact iff_of_false (by decide) (by omega)
  | false =>
    have hdiv : ¬ hr.toNat / 2 ^ 29 % 2 = 1 := fun hdiv => by
      cases h.symm.trans (hbit.2 hdiv)
    rw [if_neg nofun]
    exact iff_of_true rfl (by omega)

/-- **A word is the one that the encoder makes of its own facility and code exactly when its highest
three bits are those that the encoder sets.** -/
theorem makeHresultCode_eq_iff (hf : f < 2 ^ 13) (hcode : code.toNat < 2 ^ 16) :
    makeHresultCode (BitVec.ofNat 32 f) code = hr ↔
      hr.toNat / 2 ^ 29 = 5 ∧ f = (hresultFacility hr).toNat ∧ code = hresultCode hr := by
  have hnat := toNat_makeHresultCode hf hcode
  rw [← BitVec.toNat_inj, hnat, toNat_hresultFacility, ← BitVec.toNat_inj, toNat_hresultCode]
  omega

end fields

/-- The bits of the severity and of the customer are set, and the one between them is not. -/
def SetByEncoder (hr : BitVec 32) : Prop :=
  hr.getLsbD 31 = true ∧ hr.getLsbD 30 = false ∧ hr.getLsbD 29 = true

instance (hr : BitVec 32) : Decidable (SetByEncoder hr) := inferInstanceAs (Decidable (_ ∧ _))

theorem setByEncoder_iff {hr : BitVec 32} : SetByEncoder hr ↔ hr.toNat / 2 ^ 29 = 5 := by
  have hlt := hr.isLt
  rw [SetByEncoder, ← Bool.not_eq_true, getLsbD_iff_div, getLsbD_iff_div, getLsbD_iff_div]
  omega

/-! ## Error codes through HRESULTs -/

section registry

variable {ndebug : Bool} {adds : List Category} {ec : ErrorCode} {hr : BitVec 32}

/-- What a category that is not `hresult_category` is encoded with. -/
theorem hrFromErrorCode_of_facility {s : CategoryStorage} {f : ℕ} (hne : ec.category ≠ .hresult)
    (hpos : ndebug = true ∨ ec.value ≠ 0#32) (hcode : ec.value.toNat < 2 ^ 16)
    (hf : s.getFacility ec.category = some f) :
    hrFromErrorCode ndebug s ec = some (makeHresultCode (BitVec.ofNat 32 f) ec.value) := by
  have hvalue : ec.value = hresultCode ec.value := by
    rw [← BitVec.toNat_inj, toNat_hresultCode, Nat.mod_eq_of_lt hcode]
  have hzero : (!ndebug && ec.value == 0#32) = false := by
    rcases hpos with rfl | hpos
    · rfl
    · simp [hpos]
  have hlarge : (!ndebug && ec.value != hresultCode ec.value) = false := by
    rw [← hvalue]
    simp
  rw [hrFromErrorCode, hzero, if_neg nofun, if_neg hne, hlarge, if_neg nofun, hf]

/-- What an error code of `hresult_category` is encoded with. -/
theorem hrFromErrorCode_of_hresult {s : CategoryStorage} (heq : ec.category = .hresult)
    (hpos : ec.value ≠ 0#32) : hrFromErrorCode ndebug s ec = some ec.value := by
  have hzero : (!ndebug && ec.value == 0#32) = false := by simp [hpos]
  rw [hrFromErrorCode, hzero, if_neg nofun, if_pos heq]

/-- **Error codes survive the trip through an HRESULT**, and it can be decoded when more categories
have been registered. -/
theorem error_code_survives (hadds : (registrations adds).length ≤ 8192)
    (hreg : ec.category ∈ registrations adds) (hne : ec.category ≠ .hresult)
    (hpos : ec.value ≠ 0#32) (hcode : ec.value.toNat ≤ 0xFFFF) :
    ∃ hr, hrFromErrorCode ndebug (registered adds) ec = some hr ∧
      (∀ later, errorCodeFromHr (registered (adds ++ later)) hr = ec) ∧
      hr.getLsbD 31 = true ∧ hr.getLsbD 29 = true := by
  obtain ⟨f, hlt, hfac, hget⟩ := exists_facility hreg
  have hf : f < 2 ^ 13 := by omega
  have hcode' : ec.value.toNat < 2 ^ 16 := by omega
  obtain ⟨hbits, hfacility, hvalue⟩ := (makeHresultCode_eq_iff hf hcode').1 rfl
  obtain ⟨hsev, -, hcustomer⟩ := setByEncoder_iff.2 hbits
  refine ⟨_, hrFromErrorCode_of_facility hne (.inr hpos) hcode' hfac, fun later => ?_, hsev,
    hcustomer⟩
  have hmask : ¬ makeHresultCode (BitVec.ofNat 32 f) ec.value &&& customerBitMask = 0#32 := by
    rw [and_customerBitMask_iff, hbits]
    decide
  rw [errorCodeFromHr, getCategoryFromHresult, if_neg hmask, ← hfacility, hget later, ← hvalue]

/-- A category of the program's own, registered twice. -/
theorem error_code_survives_twice : ∃ hr,
    hrFromErrorCode false (registered [.other 0, .other 0]) { value := 7, category := .other 0 } =
        some hr ∧
      (∀ later, errorCodeFromHr (registered ([.other 0, .other 0] ++ later)) hr =
        { value := 7, category := .other 0 }) ∧ hr.getLsbD 31 = true ∧ hr.getLsbD 29 = true :=
  error_code_survives (by decide) (by decide) (by decide) (by decide) (by decide)

/-! ## HRESULTs through error codes -/

/-- The word is decoded with no category, or with one that is encoded with the same bits: the
category is not `hresult_category` and its number is the facility of the word, the word has the bits
that the encoder sets, and its code is not 0 (which is an assertion). -/
def Survives (ndebug : Bool) (s : CategoryStorage) (hr : BitVec 32) : Prop :=
  ∀ category ∈ getCategoryFromHresult s hr, category ≠ .hresult ∧
    s.getFacility category = some (hresultFacility hr).toNat ∧ SetByEncoder hr ∧
    (ndebug = true ∨ hresultCode hr ≠ 0#32)

instance (s : CategoryStorage) (hr : BitVec 32) : Decidable (Survives ndebug s hr) :=
  inferInstanceAs (Decidable (∀ category ∈ getCategoryFromHresult s hr, _))

/-- What becomes of a word that is decoded with a category. -/
theorem hrFromErrorCode_decoded_iff {category : Category} (hcustomer : hr.toNat / 2 ^ 29 % 2 = 1)
    (hget : (registered adds).getCategory (hresultFacility hr).toNat = some category) :
    hrFromErrorCode ndebug (registered adds) { value := hresultCode hr, category } = some hr ↔
      category ≠ .hresult ∧ (registered adds).getFacility category =
      some (hresultFacility hr).toNat ∧
        SetByEncoder hr ∧ (ndebug = true ∨ hresultCode hr ≠ 0#32) := by
  have hcode : (hresultCode hr).toNat < 2 ^ 16 := by
    rw [toNat_hresultCode]
    omega
  have hfacility : (hresultFacility hr).toNat < 2 ^ 13 := by
    rw [toNat_hresultFacility]
    omega
  by_cases hcategory : category = .hresult
  · -- the code alone is passed on
    refine iff_of_false (fun hsome => ?_) fun hsurvives => hsurvives.1 hcategory
    rw [hrFromErrorCode, if_pos hcategory] at hsome
    obtain ⟨-, hvalue⟩ := Option.ite_none_left_eq_some.1 hsome
    have hsame : hresultCode hr = hr := Option.some.inj hvalue
    rw [hsame] at hcode
    omega
  by_cases hpos : ndebug = true ∨ hresultCode hr ≠ 0#32
  · obtain ⟨f, hle, hf⟩ := exists_facility_le hget
    rw [hrFromErrorCode_of_facility hcategory hpos hcode hf, hf, Option.some_inj, Option.some_inj,
      makeHresultCode_eq_iff (by omega) hcode, setByEncoder_iff]
    exact ⟨fun ⟨hbits, hfac, _⟩ => ⟨hcategory, hfac, hbits, hpos⟩,
      fun ⟨_, hfac, hbits, _⟩ => ⟨hbits, hfac, rfl⟩⟩
  · -- the assertion of an actual error
    refine iff_of_false (fun hsome => ?_) fun hsurvives => hpos hsurvives.2.2.2
    obtain ⟨hndebug, hzero⟩ := not_or.1 hpos
    have hassert : ndebug = false := by simpa using hndebug
    rw [hrFromErrorCode, not_not.1 hzero, hassert] at hsome
    cases hsome

/-- **An HRESULT survives the trip through an error code exactly when it is decoded with no category
or has the bits that its category is encoded with.** -/
theorem hr_survives_iff (adds : List Category) (hne : hr ≠ 0#32) :
    hrFromErrorCode ndebug (registered adds) (errorCodeFromHr (registered adds) hr) = some hr ↔
      Survives ndebug (registered adds) hr := by
  rw [errorCodeFromHr, Survives]
  cases hcat : getCategoryFromHresult (registered adds) hr with
  | none => exact iff_of_true (hrFromErrorCode_of_hresult rfl hne) nofun
  | some category =>
    obtain ⟨hmask, hget⟩ := Option.ite_none_left_eq_some.1 hcat
    rw [and_customerBitMask_iff] at hmask
    have hforall {P : Category → Prop} : (∀ c ∈ some category, P c) ↔ P category := by simp
    rw [hforall]
    exact hrFromErrorCode_decoded_iff (by omega) hget

/-- An HRESULT of a facility that no category has. -/
theorem hr_survives_unregistered :
    hrFromErrorCode false (registered []) (errorCodeFromHr (registered []) 0xA1230005#32) =
      some 0xA1230005#32 :=
  (hr_survives_iff [] (by decide)).2 (by decide)

/-- **An HRESULT of a success does not survive**, when a category has its facility: it comes back as
one of an error. -/
theorem not_hr_survives_success : ¬ ∀ hr : BitVec 32, hr ≠ 0#32 →
    hrFromErrorCode false (registered []) (errorCodeFromHr (registered []) hr) = some hr := by
  intro hall
  have hsame := hall 0x20000001#32 (by decide)
  have hword : hrFromErrorCode false (registered [])
    (errorCodeFromHr (registered []) 0x20000001#32) =
      some 0xA0000001#32 := by decide
  cases hsame.symm.trans hword

/-! ## Different error codes -/

/-- The error codes that `hr_from_error_code` is made for. -/
def Accepted (adds : List Category) (ec : ErrorCode) : Prop :=
  ec.value ≠ 0#32 ∧
    (ec.category = .hresult ∨ ec.category ∈ registrations adds ∧ ec.value.toNat ≤ 0xFFFF)

instance (adds : List Category) (ec : ErrorCode) : Decidable (Accepted adds ec) :=
  inferInstanceAs (Decidable (_ ∧ _))

/-- The raw value of `hresult_category` is the word that stands for an error code of another
category. -/
def Shadows (s : CategoryStorage) (raw ec : ErrorCode) : Prop :=
  raw.category = .hresult ∧ ec.category ≠ .hresult ∧ SetByEncoder raw.value ∧
    s.getFacility ec.category = some (hresultFacility raw.value).toNat ∧
    ec.value = hresultCode raw.value

/-- The two encoders. -/
theorem Accepted.encode (ndebug : Bool) (h : Accepted adds ec)
    (hadds : (registrations adds).length ≤ 8192) :
    ∃ hr, hrFromErrorCode ndebug (registered adds) ec = some hr ∧
      (ec.category = .hresult ∧ hr = ec.value ∨
        ec.category ≠ .hresult ∧ ec.value.toNat < 2 ^ 16 ∧ ∃ f < 2 ^ 13,
          (registered adds).getFacility ec.category = some f ∧
            hr = makeHresultCode (BitVec.ofNat 32 f) ec.value) := by
  obtain ⟨hpos, hcategory⟩ := h
  by_cases heq : ec.category = .hresult
  · exact ⟨_, hrFromErrorCode_of_hresult heq hpos, .inl ⟨heq, rfl⟩⟩
  · obtain ⟨hreg, hcode⟩ := hcategory.resolve_left heq
    obtain ⟨f, hlt, hf, -⟩ := exists_facility hreg
    have hcode' : ec.value.toNat < 2 ^ 16 := by omega
    exact ⟨_, hrFromErrorCode_of_facility heq (.inr hpos) hcode' hf,
      .inr ⟨heq, hcode', f, by omega, hf, rfl⟩⟩

/-- A value that is passed on and a word that is packed. -/
theorem shadows_iff {s : CategoryStorage} {raw : ErrorCode} {f : ℕ} (hraw : raw.category = .hresult)
    (hne : ec.category ≠ .hresult) (hcode : ec.value.toNat < 2 ^ 16) (hf : f < 2 ^ 13)
    (hfac : s.getFacility ec.category = some f) :
    makeHresultCode (BitVec.ofNat 32 f) ec.value = raw.value ↔ Shadows s raw ec := by
  rw [makeHresultCode_eq_iff hf hcode, Shadows, setByEncoder_iff, hfac, Option.some_inj]
  tauto

/-- **Different error codes become different HRESULTs, unless one of them is of `hresult_category`
and has the value that stands for the other one.** -/
theorem hr_eq_iff (ndebug : Bool) {a b : ErrorCode} (hadds : (registrations adds).length ≤ 8192)
    (ha : Accepted adds a) (hb : Accepted adds b) :
    ∃ hra hrb, hrFromErrorCode ndebug (registered adds) a = some hra ∧
      hrFromErrorCode ndebug (registered adds) b = some hrb ∧
      (hra = hrb ↔ a = b ∨ Shadows (registered adds) a b ∨ Shadows (registered adds) b a) := by
  obtain ⟨hra, hencode, hcase⟩ := ha.encode ndebug hadds
  obtain ⟨hrb, hencode', hcase'⟩ := hb.encode ndebug hadds
  refine ⟨hra, hrb, hencode, hencode', ?_⟩
  rcases hcase with ⟨heq, rfl⟩ | ⟨hne, hcode, f, hf, hfac, rfl⟩
  · rcases hcase' with ⟨heq', rfl⟩ | ⟨hne', hcode', f', hf', hfac', rfl⟩
    · have hshadow : ¬ Shadows (registered adds) a b := fun h => h.2.1 heq'
      have hshadow' : ¬ Shadows (registered adds) b a := fun h => h.2.1 heq
      rw [ErrorCode.ext_iff, heq, heq']
      tauto
    · have hab : a ≠ b := fun h => hne' (h ▸ heq)
      have hshadow' : ¬ Shadows (registered adds) b a := fun h => hne' h.1
      rw [eq_comm, shadows_iff heq hne' hcode' hf' hfac']
      tauto
  · have hshadow : ¬ Shadows (registered adds) a b := fun h => hne h.1
    rcases hcase' with ⟨heq', rfl⟩ | ⟨hne', hcode', f', hf', hfac', rfl⟩
    · have hab : a ≠ b := fun h => hne (h ▸ heq')
      rw [shadows_iff heq' hne hcode hf hfac]
      tauto
    · have hshadow' : ¬ Shadows (registered adds) b a := fun h => hne' h.1
      obtain ⟨hbits, hfacility, hvalue⟩ := (makeHresultCode_eq_iff hf' hcode').1 rfl
      rw [makeHresultCode_eq_iff hf hcode, ← hfacility, ← hvalue, ErrorCode.ext_iff]
      constructor
      · rintro ⟨-, rfl, hsame⟩
        exact .inl ⟨hsame, getFacility_inj hfac hfac'⟩
      · rintro (⟨hsame, hcategory⟩ | h | h)
        · rw [hcategory, hfac'] at hfac
          exact ⟨hbits, (Option.some.inj hfac).symm, hsame⟩
        · exact absurd h hshadow
        · exact absurd h hshadow'

/-- A raw value that is no word of the encoder. -/
theorem hr_eq_iff_distinct : ∃ hra hrb,
    hrFromErrorCode false (registered []) { value := 0x80004005, category := .hresult } = some hra ∧
      hrFromErrorCode false (registered []) { value := 1, category := .generic } = some hrb ∧
      hra ≠ hrb := by
  obtain ⟨hra, hrb, ha, hb, hiff⟩ := hr_eq_iff false
    (a := { value := 0x80004005, category := .hresult }) (b := { value := 1, category := .generic })
    (show (registrations []).length ≤ 8192 by decide) (by decide) (by decide)
  refine ⟨hra, hrb, ha, hb, fun heq => ?_⟩
  rcases hiff.1 heq with h | ⟨-, -, h, -⟩ | ⟨-, h, -⟩
  · cases h
  · exact absurd h (by decide)
  · exact h rfl

/-- **Two different error codes of one HRESULT**: `0xA0000001` of `hresult_category` and 1 of the
generic category. -/
theorem not_hr_injective : ¬ ∀ a b : ErrorCode, Accepted [] a → Accepted [] b →
    hrFromErrorCode false (registered []) a = hrFromErrorCode false (registered []) b → a = b := by
  intro hall
  have hsame :=
    hall { value := 0xA0000001, category := .hresult } { value := 1, category := .generic }
    (by decide) (by decide) (by decide)
  cases hsame

end registry

end Arcana.Errors
