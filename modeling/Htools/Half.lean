import Mathlib.Algebra.Order.Field.Power
import Mathlib.Algebra.Order.Field.Rat
import Mathlib.Data.BitVec
import Mathlib.Data.Nat.Bitwise
import Mathlib.Data.Rat.Defs
import Mathlib.Tactic.FieldSimp
import Mathlib.Tactic.Linarith
import Mathlib.Tactic.LinearCombination
import Mathlib.Tactic.Positivity
import Mathlib.Tactic.Ring

/-!
The conversions between doubles and halves of `hutils/src/math.c`, on the bit patterns.
Every half is read back as it was (`half_round_trip`), also those that are infinite,
not a number or subnormal, which the conversions take for numbers like all others.
A double is kept exactly where `double_kept_iff` says, and is else cut off towards zero
if its exponent fits.
-/
namespace Htools.Half

/-- `0.0 == a_d`, for zeros of either sign. -/
def is_zero (a_d : BitVec 64) : Bool := a_d.setWidth 63 == 0

def double2half (a_d : BitVec 64) : BitVec 16 :=
  if is_zero a_d then 0
  else
    let u32 := (a_d >>> 32).setWidth 32
    let sign := (0x80000000#32 &&& u32) >>> 31
    let exp_ := (0x7ff00000#32 &&& u32) >>> 20
    let mantissa := 0xfffff#32 &&& u32
    -- a negative exponent is shifted as the word that it is stored in
    (sign <<< 15 ||| (exp_ - 1023 + 15) <<< 10 ||| mantissa >>> 10).setWidth 16

def half2double (a_u16 : BitVec 16) : BitVec 64 :=
  if a_u16 = 0 then 0
  else
    let sign := ((0x8000#16 &&& a_u16) >>> 15).setWidth 32
    let exp_ := ((0x7c00#16 &&& a_u16) >>> 10).setWidth 32
    let mantissa := (0x3ff#16 &&& a_u16).setWidth 32
    let u32 : BitVec 32 := sign <<< 31 ||| (exp_ - 15 + 1023) <<< 20 ||| mantissa <<< 10
    u32.setWidth 64 <<< 32

/-- The exponent of a double as it is stored. -/
def exponent (d : BitVec 64) : Nat := d.toNat / 2 ^ 52 % 2 ^ 11

/-! ### Fields -/

/-- What a mask of ones cuts out of a word. -/
theorem mask_field (x w k : Nat) : (((2 ^ w - 1) <<< k) &&& x) >>> k = x / 2 ^ k % 2 ^ w := by
  apply Nat.eq_of_testBit_eq
  intro i
  rw [Nat.testBit_shiftRight,Nat.testBit_and,Nat.testBit_shiftLeft,Nat.testBit_mod_two_pow,Nat.testBit_div_two_pow,
    Nat.testBit_two_pow_sub_one]
  simp [Nat.add_comm]

/-- Fields that do not meet may be joined. -/
theorem join_fields {a b c i j : Nat} (second : b * 2 ^ j + c < 2 ^ i) (third : c < 2 ^ j) :
    a <<< i ||| b <<< j ||| c = a * 2 ^ i + (b * 2 ^ j + c) := by
  have inner : b <<< j ||| c = b * 2 ^ j + c := by
    rw [← Nat.shiftLeft_add_eq_or_of_lt third,Nat.shiftLeft_eq]
  rw [Nat.or_assoc,inner,← Nat.shiftLeft_add_eq_or_of_lt second,Nat.shiftLeft_eq]

theorem word_fields (sign exp_ mantissa : BitVec 32) (one : sign.toNat < 2) (eleven : exp_.toNat < 2 ^ 11) (ten : mantissa.toNat < 2 ^ 10) :
    (sign <<< 31 ||| exp_ <<< 20 ||| mantissa <<< 10).toNat = sign.toNat * 2 ^ 31 + (exp_.toNat * 2 ^ 20 + mantissa.toNat * 2 ^ 10) := by
  rw [BitVec.toNat_or,BitVec.toNat_or,BitVec.toNat_shiftLeft,BitVec.toNat_shiftLeft,BitVec.toNat_shiftLeft]
  have first : sign.toNat <<< 31 % 2 ^ 32 = sign.toNat <<< 31 := Nat.mod_eq_of_lt (by rw [Nat.shiftLeft_eq]; omega)
  have second : exp_.toNat <<< 20 % 2 ^ 32 = exp_.toNat <<< 20 := Nat.mod_eq_of_lt (by rw [Nat.shiftLeft_eq]; omega)
  have third : mantissa.toNat <<< 10 % 2 ^ 32 = mantissa.toNat * 2 ^ 10 := by
    rw [Nat.shiftLeft_eq]
    omega
  rw [first,second,third]
  exact join_fields (by omega) (by omega)

theorem half2double_toNat {h : BitVec 16} (some_ : h ≠ 0) :
    (half2double h).toNat = h.toNat / 2 ^ 15 * 2 ^ 63 + (h.toNat / 2 ^ 10 % 2 ^ 5 + 1008) * 2 ^ 52 + h.toNat % 2 ^ 10 * 2 ^ 42 := by
  have below := h.isLt
  have sign : (((0x8000#16 &&& h) >>> 15).setWidth 32).toNat = h.toNat / 2 ^ 15 := by
    have field : ((0x8000#16 &&& h) >>> 15).toNat = h.toNat / 2 ^ 15 % 2 ^ 1 := mask_field h.toNat 1 15
    rw [BitVec.toNat_setWidth,field]
    omega
  have exp_ : (((0x7c00#16 &&& h) >>> 10).setWidth 32).toNat = h.toNat / 2 ^ 10 % 2 ^ 5 := by
    have field : ((0x7c00#16 &&& h) >>> 10).toNat = h.toNat / 2 ^ 10 % 2 ^ 5 := mask_field h.toNat 5 10
    rw [BitVec.toNat_setWidth,field]
    omega
  have mantissa : ((0x3ff#16 &&& h).setWidth 32).toNat = h.toNat % 2 ^ 10 := by
    have field : (0x3ff#16 &&& h).toNat = h.toNat / 2 ^ 0 % 2 ^ 10 := mask_field h.toNat 10 0
    rw [BitVec.toNat_setWidth,field]
    omega
  have biased : (((0x7c00#16 &&& h) >>> 10).setWidth 32 - 15 + 1023).toNat = h.toNat / 2 ^ 10 % 2 ^ 5 + 1008 := by
    rw [← exp_]
    bv_omega
  have word := word_fields (((0x8000#16 &&& h) >>> 15).setWidth 32) (((0x7c00#16 &&& h) >>> 10).setWidth 32 - 15 + 1023)
    ((0x3ff#16 &&& h).setWidth 32) (by omega) (by omega) (by omega)
  rw [half2double,if_neg some_,BitVec.toNat_shiftLeft,BitVec.toNat_setWidth,word,sign,biased,mantissa]
  omega

theorem double2half_toNat {d : BitVec 64} (low : 1008 ≤ exponent d) (high : exponent d < 1040) :
    (double2half d).toNat = d.toNat / 2 ^ 63 * 2 ^ 15 + (exponent d - 1008) * 2 ^ 10 + d.toNat / 2 ^ 42 % 2 ^ 10 := by
  have below := d.isLt
  have nonzero : ¬is_zero d = true := by
    intro zero
    have none_ : (d.setWidth 63).toNat = 0 := congrArg BitVec.toNat (beq_iff_eq.mp zero)
    rw [BitVec.toNat_setWidth] at none_
    rw [exponent] at low
    omega
  have u32 : ((d >>> 32).setWidth 32).toNat = d.toNat / 2 ^ 32 := by
    rw [BitVec.toNat_setWidth,BitVec.toNat_ushiftRight,Nat.shiftRight_eq_div_pow]
    omega
  rw [double2half,if_neg nonzero]
  simp only
  generalize (d >>> 32).setWidth 32 = u at u32
  have sign : ((0x80000000#32 &&& u) >>> 31).toNat = d.toNat / 2 ^ 63 := by
    have field : ((0x80000000#32 &&& u) >>> 31).toNat = u.toNat / 2 ^ 31 % 2 ^ 1 := mask_field u.toNat 1 31
    rw [field,u32]
    omega
  have exp_ : ((0x7ff00000#32 &&& u) >>> 20).toNat = exponent d := by
    have field : ((0x7ff00000#32 &&& u) >>> 20).toNat = u.toNat / 2 ^ 20 % 2 ^ 11 := mask_field u.toNat 11 20
    rw [field,u32,exponent]
    omega
  have mantissa : ((0xfffff#32 &&& u) >>> 10).toNat = d.toNat / 2 ^ 42 % 2 ^ 10 := by
    have field : (0xfffff#32 &&& u).toNat = u.toNat / 2 ^ 0 % 2 ^ 20 := mask_field u.toNat 20 0
    rw [BitVec.toNat_ushiftRight,Nat.shiftRight_eq_div_pow,field,u32]
    omega
  have unbiased : ((0x7ff00000#32 &&& u) >>> 20 - 1023 + 15).toNat = exponent d - 1008 := by
    rw [← exp_] at low high ⊢
    bv_omega
  rw [BitVec.toNat_setWidth,BitVec.toNat_or,BitVec.toNat_or,BitVec.toNat_shiftLeft,BitVec.toNat_shiftLeft,sign,unbiased,mantissa]
  have first : (d.toNat / 2 ^ 63) <<< 15 % 2 ^ 32 = (d.toNat / 2 ^ 63) <<< 15 := Nat.mod_eq_of_lt (by rw [Nat.shiftLeft_eq]; omega)
  have second : (exponent d - 1008) <<< 10 % 2 ^ 32 = (exponent d - 1008) <<< 10 := Nat.mod_eq_of_lt (by rw [Nat.shiftLeft_eq]; omega)
  rw [first,second,join_fields (by omega) (by omega)]
  omega

theorem half_round_trip (h : BitVec 16) : double2half (half2double h) = h := by
  by_cases zero : h = 0
  · subst zero
    decide
  · have bits := half2double_toNat zero
    have below := h.isLt
    have exp_ : exponent (half2double h) = h.toNat / 2 ^ 10 % 2 ^ 5 + 1008 := by
      rw [exponent,bits]
      omega
    apply BitVec.eq_of_toNat_eq
    rw [double2half_toNat (by omega) (by omega),exp_,bits]
    omega

/-- A double comes back exactly if it is zero, or has an exponent that fits and no bits that are cut off,
    but for the one whose half is zero. -/
theorem double_kept_iff (d : BitVec 64) : half2double (double2half d) = d ↔
    d = 0 ∨ 1008 ≤ exponent d ∧ exponent d < 1040 ∧ d.toNat % 2 ^ 42 = 0 ∧ d.toNat ≠ 1008 * 2 ^ 52 := by
  by_cases zero : d = 0
  · subst zero
    exact iff_of_true (by decide) (.inl rfl)
  rw [or_iff_right zero]
  constructor
  · intro same
    have some_ : double2half d ≠ 0 := by
      intro none_
      rw [none_] at same
      exact zero same.symm
    have bits := half2double_toNat some_
    rw [same] at bits
    have below := (double2half d).isLt
    have exp_ : exponent d = (double2half d).toNat / 2 ^ 10 % 2 ^ 5 + 1008 := by
      rw [exponent,bits]
      omega
    refine ⟨?_,?_,?_,fun last => some_ ?_⟩
    · omega
    · omega
    · omega
    apply BitVec.eq_of_toNat_eq
    rw [show (0 : BitVec 16).toNat = 0 from rfl]
    omega
  · rintro ⟨low,high,cut,other⟩
    have half := double2half_toNat low high
    have below := d.isLt
    have some_ : double2half d ≠ 0 := by
      intro none_
      rw [none_,show (0 : BitVec 16).toNat = 0 from rfl] at half
      rw [exponent] at low high half
      omega
    apply BitVec.eq_of_toNat_eq
    rw [half2double_toNat some_,half]
    rw [exponent] at low high ⊢
    omega

/-! ### Values -/

/-- What a double stands for, if its exponent is neither the lowest nor the highest. -/
def value (d : BitVec 64) : ℚ :=
  (-1) ^ (d.toNat / 2 ^ 63) * (1 + (d.toNat % 2 ^ 52 : ℕ) / 2 ^ 52) * 2 ^ ((exponent d : ℤ) - 1023)

theorem abs_value (d : BitVec 64) : |value d| = (1 + (d.toNat % 2 ^ 52 : ℕ) / 2 ^ 52) * 2 ^ ((exponent d : ℤ) - 1023) := by
  have positive : (0 : ℚ) ≤ (1 + (d.toNat % 2 ^ 52 : ℕ) / 2 ^ 52) * 2 ^ ((exponent d : ℤ) - 1023) := by positivity
  rw [value,mul_assoc,abs_mul,abs_pow,abs_neg,abs_one,one_pow,one_mul,abs_of_nonneg positive]

/-- A double in the range of the normal halves is cut off towards zero, by less than one in `2 ^ 10`. -/
theorem double_truncated {d : BitVec 64} (low : 1008 < exponent d) (high : exponent d < 1039) :
    0 < value (half2double (double2half d)) * value d ∧ |value (half2double (double2half d))| ≤ |value d| ∧
      |value d| - |value (half2double (double2half d))| < |value d| / 2 ^ 10 := by
  have half := double2half_toNat (d := d) (by omega) (by omega)
  have below := d.isLt
  have some_ : double2half d ≠ 0 := by
    intro none_
    rw [none_,show (0 : BitVec 16).toNat = 0 from rfl] at half
    omega
  have bits : (half2double (double2half d)).toNat = d.toNat / 2 ^ 42 * 2 ^ 42 := by
    rw [half2double_toNat some_,half]
    rw [exponent] at low high ⊢
    omega
  have sign : (half2double (double2half d)).toNat / 2 ^ 63 = d.toNat / 2 ^ 63 := by omega
  have exp_ : exponent (half2double (double2half d)) = exponent d := by
    rw [exponent,exponent]
    omega
  have mantissa : (half2double (double2half d)).toNat % 2 ^ 52 + d.toNat % 2 ^ 42 = d.toNat % 2 ^ 52 := by omega
  have cut : d.toNat % 2 ^ 42 < 2 ^ 42 := by omega
  have mantissa' : ((d.toNat % 2 ^ 52 : ℕ) : ℚ) =
      ((half2double (double2half d)).toNat % 2 ^ 52 : ℕ) + (d.toNat % 2 ^ 42 : ℕ) := by exact_mod_cast mantissa.symm
  have cut' : ((d.toNat % 2 ^ 42 : ℕ) : ℚ) < 2 ^ 42 := by exact_mod_cast cut
  have scale : (0 : ℚ) < 2 ^ ((exponent d : ℤ) - 1023) := by positivity
  rw [abs_value,abs_value,value,value,sign,exp_,mantissa']
  have square : (-1 : ℚ) ^ (d.toNat / 2 ^ 63) * (-1) ^ (d.toNat / 2 ^ 63) = 1 := by
    rw [← mul_pow]
    norm_num
  have signs : ∀ a b c : ℚ, (-1) ^ (d.toNat / 2 ^ 63) * a * c * ((-1) ^ (d.toNat / 2 ^ 63) * b * c) = a * c * (b * c) := by
    intro a b c
    linear_combination a * c * (b * c) * square
  rw [signs]
  generalize ((half2double (double2half d)).toNat % 2 ^ 52 : ℕ) = M
  generalize (d.toNat % 2 ^ 42 : ℕ) = r at *
  generalize (2 : ℚ) ^ ((exponent d : ℤ) - 1023) = u at *
  have whole : (0 : ℚ) ≤ (M : ℚ) := Nat.cast_nonneg M
  have rest : (0 : ℚ) ≤ (r : ℚ) := Nat.cast_nonneg r
  have small : (r : ℚ) / 2 ^ 52 < 1 / 2 ^ 10 := by
    rw [div_lt_div_iff₀ (by norm_num) (by norm_num)]
    linarith
  have split : (M + r : ℚ) / 2 ^ 52 = M / 2 ^ 52 + r / 2 ^ 52 := add_div _ _ _
  have large : (0 : ℚ) ≤ M / 2 ^ 52 := by positivity
  have more : (0 : ℚ) ≤ r / 2 ^ 52 := by positivity
  rw [split]
  refine ⟨by positivity,?_,?_⟩
  · exact mul_le_mul_of_nonneg_right (by linarith) scale.le
  · have gap : (1 + (M / 2 ^ 52 + r / 2 ^ 52)) * u - (1 + M / 2 ^ 52) * u = r / 2 ^ 52 * u := by ring
    have bound : r / 2 ^ 52 < (1 + (M / 2 ^ 52 + r / 2 ^ 52 : ℚ)) / 2 ^ 10 := by linarith
    rw [gap,mul_div_right_comm]
    exact mul_lt_mul_of_pos_right bound scale

/-- The double nearest to one third. -/
theorem double_truncated_third : double2half 0x3fd5555555555555 = 0x3555 ∧
    |value (half2double (double2half 0x3fd5555555555555))| ≤ |value 0x3fd5555555555555| :=
  ⟨by decide,(double_truncated (by decide) (by decide)).2.1⟩

end Htools.Half
