import LoxKit.Decimal.Style
import Mathlib

/-!
# Numerals

Reading a numeral gives a double that may be infinite if there are many digits, but never one that is
no number: neither rounding nor a division by a power of ten can make one. What is finite is written
with digits, a point, the letter of an exponent and signs, and a digit or the sign of the number
comes first.

Headlines:
* `unpack_pack`: packing makes no number into something that is none.
* **`ofFloat_readNumeral`**: what is read is a number.
* **`writeDouble_finite`**: the characters of a finite number.
-/

namespace LoxKit.Decimal

open Float.Model (Format UnpackedFloat)
open Float.Model.UnpackedFloat (Sign unpackExponent unpackMantissa packedInfinity packedZero)

/-! ## What is read -/

/-- What is no number has all the bits of the exponent set and one of the others. -/
theorem unpack_eq_notANumber_iff {spec : Format} {b : BitVec spec.numBits} :
    UnpackedFloat.unpack spec b = .notANumber ↔
      unpackExponent b = -1#_ ∧ unpackMantissa b ≠ 0#_ := by
  unfold UnpackedFloat.unpack
  dsimp only
  split
  · split <;> simp_all
  · split
    · split <;> simp_all
    · simp_all

/-- Packing makes no number into something that is none. -/
theorem unpack_pack {spec : Format} {u : UnpackedFloat} (hu : u ≠ .notANumber) :
    UnpackedFloat.unpack spec (UnpackedFloat.pack spec u) ≠ .notANumber := by
  rw [Ne, unpack_eq_notANumber_iff]
  have hpos := spec.he
  fun_cases UnpackedFloat.pack spec u with
  | case1 => exact absurd rfl hu
  | case2 s | case4 s m e hm biased h => simp [packedInfinity]
  | case3 s => simp [packedZero]
  | case5 s m e hm bits biased h hbits =>
    have hlt : biased < 2 ^ spec.exponentBits - 1 := by omega
    have hne : biased % 2 ^ spec.exponentBits ≠ 2 ^ spec.exponentBits - 1 := by
      rw [Nat.mod_eq_of_lt (by omega)]
      omega
    simp [BitVec.neg_one_eq_allOnes, ← BitVec.toNat_inj, hne]
  | case6 s m e hm bits biased h hbits =>
    simp [hpos.ne']

/-- Rounding makes no number into something that is none. -/
theorem roundWithAccuracy_ne (spec : Format) (s : Sign) (m : Nat) (e : Int)
    (accuracy : UnpackedFloat.Accuracy) :
    UnpackedFloat.roundWithAccuracy spec s m e accuracy ≠ .notANumber := by
  unfold UnpackedFloat.roundWithAccuracy
  dsimp only
  split <;> simp

/-- What is divided by a number that is neither zero nor infinite is a number as before. -/
theorem div_finite_ne {spec : Format} {u : UnpackedFloat} (hu : u ≠ .notANumber)
    (s : Sign) (m : Nat) (e : Int) (hm : 0 < m) :
    UnpackedFloat.div spec u (.finite s m e hm) ≠ .notANumber := by
  cases u with
  | notANumber => exact absurd rfl hu
  | infinity | zero => simp [UnpackedFloat.div]
  | finite => exact roundWithAccuracy_ne _ _ _ _ _

theorem ofScientific_ne (spec : Format) (m : Nat) (e : Int) :
    UnpackedFloat.ofScientific spec m e ≠ .notANumber := by
  fun_cases UnpackedFloat.ofScientific spec m e with
  | case1 | case2 | case3 => simp
  | case4 => exact roundWithAccuracy_ne _ _ _ _ _
  | case5 => exact div_finite_ne (by simp) _ _ _ _

theorem ofUInt64_ne (spec : Format) (n : UInt64) :
    UnpackedFloat.ofUInt64 spec n ≠ .notANumber := by
  unfold UnpackedFloat.ofUInt64 UnpackedFloat.ofNat UnpackedFloat.ofInt UnpackedFloat.normalize
  split
  · exact roundWithAccuracy_ne _ _ _ _ _
  · simp
  · exact roundWithAccuracy_ne _ _ _ _ _

/-- The powers of ten that numbers are divided by are neither zero nor infinite. -/
theorem finite_powersOfTen : ∀ x ∈ Float.exactlyRepresentablePowersOfTen,
    ∃ s m e hm, x.toModel.unpack = .finite s m e hm := by
  have hfinite : ∀ x ∈ Float.exactlyRepresentablePowersOfTen,
      (x.toModel.unpack matches .finite ..) = true := by decide +kernel
  intro x hx
  have hmatches := hfinite x hx
  cases hunpack : x.toModel.unpack with
  | finite s m e hm => exact ⟨s, m, e, hm, rfl⟩
  | _ => simp [hunpack] at hmatches

/-- A fraction in decimals is a number. -/
theorem unpack_ofScientific (m e : Nat) :
    (Float.ofScientific m true e).toModel.unpack ≠ .notANumber := by
  unfold Float.ofScientific
  split
  · rename_i h
    have hindex : e < Float.exactlyRepresentablePowersOfTen.size := by
      simp [Float.exactlyRepresentablePowersOfTen]
      omega
    obtain ⟨s, m, e, hm, hpower⟩ := finite_powersOfTen _ (Array.getElem_mem hindex)
    refine unpack_pack ?_
    rw [hpower]
    exact div_finite_ne (unpack_pack (ofUInt64_ne _ _)) s m e hm
  · exact unpack_pack (ofScientific_ne _ _ _)

/-- The bits of the exponent and the others. -/
theorem toNat_unpack (b : BitVec Format.binary64.numBits) :
    (unpackExponent b).toNat = b.toNat / Nat.pow 2 52 % Nat.pow 2 11 ∧
      (unpackMantissa b).toNat = b.toNat % Nat.pow 2 52 := by
  unfold unpackExponent unpackMantissa
  rw [BitVec.toNat_cast, BitVec.toNat_cast, BitVec.extractLsb_toNat, BitVec.extractLsb_toNat,
    Nat.shiftRight_eq_div_pow, Nat.shiftRight_eq_div_pow]
  exact ⟨rfl, congrArg (· % _) (Nat.div_one _)⟩

/-- What the bits say to be no number is none. -/
theorem ofFloat_eq_nan {x : Float} (h : Double.ofFloat x = .nan) :
    x.toModel.unpack = .notANumber := by
  obtain ⟨hexponent, hmantissa⟩ := toNat_unpack x.toModel.toBits.toBitVec
  have hbits : x.toBits.toNat = x.toModel.toBits.toBitVec.toNat := rfl
  unfold Double.ofFloat Double.ofBits at h
  rw [hbits] at h
  dsimp only at h
  rw [← hexponent, ← hmantissa] at h
  split at h
  · rename_i hones
    split at h
    · exact absurd h (by simp)
    · rename_i hrest
      refine unpack_eq_notANumber_iff.mpr ⟨BitVec.eq_of_toNat_eq hones, fun hzero => hrest ?_⟩
      rw [hzero]
      rfl
  · split at h <;> exact absurd h (by simp)

/-- **A numeral is read as a number.** -/
theorem ofFloat_readNumeral (cs : List Char) : Double.ofFloat (readNumeral cs) ≠ .nan :=
  fun h => unpack_ofScientific _ _ (ofFloat_eq_nan h)

/-! ## What is written -/

/-- The characters of written numbers. -/
def InNumber (c : Char) : Prop :=
  c.isDigit = true ∨ c ∈ ['.', 'e', '+', '-']

/-- A digit, and characters of numbers behind it. -/
def Written (cs : List Char) : Prop :=
  ∃ d rest, cs = d :: rest ∧ d.isDigit = true ∧ ∀ c ∈ rest, InNumber c

theorem Written.append {cs more : List Char} (h : Written cs) (hmore : ∀ c ∈ more, InNumber c) :
    Written (cs ++ more) := by
  obtain ⟨d, rest, rfl, hd, hrest⟩ := h
  exact ⟨d, rest ++ more, rfl, hd, List.forall_mem_append.mpr ⟨hrest, hmore⟩⟩

theorem inNumber_digits {cs : List Char} (h : ∀ c ∈ cs, c.isDigit = true) :
    ∀ c ∈ cs, InNumber c :=
  fun c hc => Or.inl (h c hc)

theorem inNumber_zeros (n : Nat) : ∀ c ∈ List.replicate n '0', InNumber c :=
  fun _ hc => Or.inl (List.eq_of_mem_replicate hc ▸ rfl)

theorem inNumber_point : InNumber '.' :=
  Or.inr (by decide)

section Digits

variable (style : Style) {ds : List Char} (hne : ds ≠ []) (hds : ∀ c ∈ ds, c.isDigit = true)

include hne hds

theorem written_digits : Written ds := by
  obtain ⟨d, rest, rfl⟩ := List.exists_cons_of_ne_nil hne
  rw [List.forall_mem_cons] at hds
  exact ⟨d, rest, rfl, hds.1, inNumber_digits hds.2⟩

/-- Digits with a point between them. -/
theorem written_pointed {n : Nat} (hn : n ≠ 0) : Written (ds.take n ++ '.' :: ds.drop n) := by
  have hfirst : ds.take n ≠ [] := by
    rw [Ne, List.take_eq_nil_iff]
    exact not_or.mpr ⟨hn, hne⟩
  exact (written_digits hfirst fun c hc => hds c (List.mem_of_mem_take hc)).append
    (List.forall_mem_cons.mpr ⟨inNumber_point,
      inNumber_digits fun c hc => hds c (List.mem_of_mem_drop hc)⟩)

theorem written_positional (point : Int) : Written (style.positional ds point) := by
  unfold Style.positional
  split
  · exact ⟨'0', _, rfl, rfl, List.forall_mem_cons.mpr ⟨inNumber_point,
      List.forall_mem_append.mpr ⟨inNumber_zeros _, inNumber_digits hds⟩⟩⟩
  · split
    · refine ((written_digits hne hds).append (inNumber_zeros _)).append fun c hc => ?_
      split at hc
      · exact (List.mem_cons.mp hc).elim (fun h => h ▸ inNumber_point) fun h =>
          Or.inl (List.mem_singleton.mp h ▸ rfl)
      · exact absurd hc List.not_mem_nil
    · exact written_pointed hne hds (by omega)

theorem written_exponential (exponent : Int) : Written (style.exponential ds exponent) := by
  have hhead : Written (if ds.length ≤ 1 then ds else ds.take 1 ++ '.' :: ds.drop 1) := by
    split
    · exact written_digits hne hds
    · exact written_pointed hne hds (by decide)
  refine hhead.append (List.forall_mem_cons.mpr ⟨Or.inr (by decide),
    List.forall_mem_cons.mpr ⟨?_, ?_⟩⟩)
  · split <;> exact Or.inr (by decide)
  · exact List.forall_mem_append.mpr ⟨inNumber_zeros _, inNumber_digits fun c hc =>
      Nat.isDigit_of_mem_toDigits (by decide) (by decide) hc⟩

end Digits

theorem written_write (style : Style) (s : Scientific) : Written (style.write s) := by
  have hne : Nat.toDigits 10 s.significand ≠ [] := Nat.toDigits_ne_nil
  have hdigits : ∀ c ∈ Nat.toDigits 10 s.significand, c.isDigit = true :=
    fun c hc => Nat.isDigit_of_mem_toDigits (by decide) (by decide) hc
  unfold Style.write
  dsimp only
  split
  · exact written_positional style hne hdigits _
  · exact written_exponential style hne hdigits _

/-- **What is finite is written with the characters of numbers**, and a digit comes first, or the
sign. -/
theorem writeDouble_finite (style : Style) (negative : Bool) (mantissa : Nat) (scale : Int) :
    ∃ c rest, style.writeDouble (.finite negative mantissa scale) = c :: rest ∧
      (c.isDigit = true ∨ c = '-') ∧ ∀ c ∈ rest, InNumber c := by
  obtain ⟨d, rest, hwrite, hd, hrest⟩ := written_write style (shortest mantissa scale)
  rw [Style.writeDouble, hwrite]
  cases negative with
  | false => exact ⟨d, rest, rfl, Or.inl hd, hrest⟩
  | true => exact ⟨'-', d :: rest, rfl, Or.inr rfl, List.forall_mem_cons.mpr ⟨Or.inl hd, hrest⟩⟩

end LoxKit.Decimal
