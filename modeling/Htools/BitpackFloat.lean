import Htools.Bitpack
import Mathlib.Tactic.IntervalCases

/-!
Floats whose exponent does not fit the packed one. `bitpack_float` joins the
exponent with the sign as it comes out of the 32-bit arithmetic, so that the
bits that do not fit the exponent lie on the sign. What a packed float is read
back as is computed for every pattern (`float_round`), and the sign and the
zeros are kept exactly where `bitunpack_float_iff` says.
-/
namespace Htools.Bitpack
open Htools.BitFields

/-! ### The last field -/

/-- The packers that packing from bit 0 of a buffer leads to. -/
inductive Packed : BitPacker → Prop where
  | init (a_buf : List UInt8) : Packed (bitpack_init a_buf a_buf.length)
  | uint {p p' : BitPacker} (earlier : Packed p) {v w : Nat} (run : bitpack_uint32 p v w = .ok p') : Packed p'
  | float {p p' : BitPacker} (earlier : Packed p) {u32 eb mb : Nat} (run : bitpack_float p u32 eb mb = .ok p') : Packed p'
  | string {p p' : BitPacker} (earlier : Packed p) {str : List UInt8} (run : bitpack_string p str = .ok p') : Packed p'

/-- What is still to be packed may be any bits. -/
theorem Packing.extend {s : Nat → Bool} {p : BitPacker} (packing : Packing s p) (t : Nat → Bool) :
    Packing (fun k => if k < p.bit_i then s k else t (k - p.bit_i)) p := by
  refine ⟨packing.whole,?_⟩
  intro k below near
  rw [packing.held k below near]
  by_cases before : k < p.bit_i
  · simp [before]
  · simp [before]

/-- A packed field lies in the buffer before the next one comes. -/
theorem bitpack_uint32_field {s : Nat → Bool} {p : BitPacker} (packing : Packing s p) (v : Nat) {w : Nat}
    (positive : 0 < w) (narrow : w ≤ 32) (roomy : p.bit_i + w ≤ 8 * p.size) :
    ∃ p' s', bitpack_uint32 p v w = .ok p' ∧ Packing s' p' ∧ p'.size = p.size ∧ p'.bit_i = p.bit_i + w ∧
      HasField p'.bits p.bit_i w v := by
  have field : HasField (fun k => if k < p.bit_i then s k else v.testBit (k - p.bit_i)) p.bit_i w v := by
    intro k _
    simp
  obtain ⟨p',run,packing',size,position⟩ := bitpack_uint32_total (packing.extend v.testBit) positive narrow roomy field
  refine ⟨p',_,run,packing',size,position,?_⟩
  intro k inside
  rw [BitPacker.bits,packing'.held (p.bit_i + k) (by simp only [roundUp]; omega) (by simp only [roundUp]; omega),
    position,field k inside]
  simp [inside]

theorem bitpack_uint32_packing {s : Nat → Bool} {p p' : BitPacker} {v w : Nat} (packing : Packing s p)
    (run : bitpack_uint32 p v w = .ok p') : ∃ s', Packing s' p' := by
  by_cases allowed : 0 < w ∧ w ≤ 32 ∧ p.bit_i + w ≤ 8 * p.size
  · obtain ⟨q,s',run',packing',_⟩ := bitpack_uint32_field packing v allowed.1 allowed.2.1 allowed.2.2
    cases run.symm.trans run'
    exact ⟨s',packing'⟩
  · rw [bitpack_uint32] at run
    split_ifs at run
    omega

theorem bitpack_string_packing {str : List UInt8} : ∀ {s : Nat → Bool} {p p' : BitPacker}, Packing s p →
    bitpack_string p str = .ok p' → ∃ s', Packing s' p' := by
  induction str with
  | nil =>
    intro s p p' _ run
    cases run
  | cons c rest ih =>
    intro s p p' packing run
    rw [bitpack_string] at run
    by_cases last : c = 0
    · rw [if_neg (by simpa using last)] at run
      exact bitpack_uint32_packing packing run
    rw [if_pos last,bind_ok_iff] at run
    obtain ⟨q,first,later⟩ := run
    obtain ⟨s',packing'⟩ := bitpack_uint32_packing packing first
    exact ih packing' later

/-- Every packed buffer holds some stream up to the position. -/
theorem Packed.packing {p : BitPacker} (packed : Packed p) : ∃ s, Packing s p := by
  induction packed with
  | init a_buf => exact ⟨fun _ => false,packing_init _ a_buf⟩
  | uint _ run ih =>
    obtain ⟨s,packing⟩ := ih
    exact bitpack_uint32_packing packing run
  | float _ run ih =>
    obtain ⟨s,packing⟩ := ih
    rw [bitpack_float] at run
    split_ifs at run
    exact bitpack_uint32_packing packing run
  | string _ run ih =>
    obtain ⟨s,packing⟩ := ih
    exact bitpack_string_packing packing run

/-! ### Exponents that do not fit -/

section
variable {u32 eb mb : Nat}

/-- The exponent of a float pattern for the bias of `a_exponent_bits` bits. -/
def rebiased (u32 a_exponent_bits : Nat) : Int := (u32 / 2 ^ 23 % 2 ^ 8 : Nat) - 128 + 2 ^ (a_exponent_bits - 1)

/-- The packed exponent, and the bit of the exponent that lies on the sign. -/
def kept (u32 a_exponent_bits : Nat) : Nat := (rebiased u32 a_exponent_bits % 2 ^ a_exponent_bits).toNat

def spilled (u32 a_exponent_bits : Nat) : Nat := (rebiased u32 a_exponent_bits / 2 ^ a_exponent_bits % 2).toNat

theorem kept_lt : kept u32 eb < 2 ^ eb := by
  have positive : (0 : Int) < 2 ^ eb := Int.pow_pos (by decide)
  have below := Int.emod_lt_of_pos (rebiased u32 eb) positive
  have above := Int.emod_nonneg (rebiased u32 eb) (Int.ne_of_gt positive)
  rw [kept]
  have cast : ((2 ^ eb : Nat) : Int) = 2 ^ eb := by norm_cast
  omega

/-- The exponent in 32-bit arithmetic, as far as it is packed. -/
theorem exponent_low (exponents : 2 ≤ eb ∧ eb ≤ 8) :
    (u32 / 2 ^ 23 % 2 ^ 8 + (2 ^ 32 - 128) + 2 ^ (eb - 1)) % 2 ^ 32 % 2 ^ (1 + eb) =
      spilled u32 eb * 2 ^ eb + kept u32 eb := by
  obtain ⟨low,high⟩ := exponents
  simp only [spilled,kept,rebiased]
  generalize u32 / 2 ^ 23 % 2 ^ 8 = e
  interval_cases eb <;> omega

/-- What `bitpack_float` packs for any pattern. -/
theorem pack_float_bits_low (small : u32 < 2 ^ 32) (exponents : 2 ≤ eb ∧ eb ≤ 8) (mantissas : 1 ≤ mb ∧ mb ≤ 23) :
    pack_float_bits u32 eb mb % 2 ^ (1 + eb + mb) =
      (u32 / 2 ^ 31 ||| spilled u32 eb) * 2 ^ (eb + mb) +
        (kept u32 eb * 2 ^ mb + u32 % 2 ^ 23 / 2 ^ (23 - mb)) := by
  have exponentBits : 0xff &&& (u32 / 2 ^ 23) = u32 / 2 ^ 23 % 2 ^ 8 := low_bits 8 _
  have mantissaBits : 0x7fffff &&& u32 = u32 % 2 ^ 23 := low_bits 23 _
  have mantissa := mantissa_lt u32 mantissas
  have low := joined_lt (show kept u32 eb < 2 ^ eb from kept_lt) mantissa
  have top : 2 ^ (eb + mb) ≤ 2 ^ 31 := Nat.pow_le_pow_right (by decide) (by omega)
  have narrow : 2 ^ (1 + eb + mb) ∣ 2 ^ 32 := Nat.pow_dvd_pow 2 (by omega)
  have sign : (u32 / 2 ^ 31) <<< (eb + mb) % 2 ^ 32 % 2 ^ (1 + eb + mb) = (u32 / 2 ^ 31) <<< (eb + mb) := by
    rw [Nat.mod_mod_of_dvd _ narrow,Nat.shiftLeft_eq,Nat.add_assoc,Nat.pow_add 2 1]
    exact Nat.mod_eq_of_lt (Nat.mul_lt_mul_of_pos_right (by omega) (Nat.two_pow_pos _))
  have exponent : ∀ e, e <<< mb % 2 ^ 32 % 2 ^ (1 + eb + mb) = (e % 2 ^ (1 + eb)) <<< mb := by
    intro e
    rw [Nat.mod_mod_of_dvd _ narrow,Nat.shiftLeft_eq,Nat.shiftLeft_eq,Nat.pow_add 2 (1 + eb),
      Nat.mul_mod_mul_right]
  have rest : u32 % 2 ^ 23 / 2 ^ (23 - mb) % 2 ^ (1 + eb + mb) = u32 % 2 ^ 23 / 2 ^ (23 - mb) :=
    Nat.mod_eq_of_lt (Nat.lt_of_lt_of_le mantissa (Nat.pow_le_pow_right (by decide) (by omega)))
  have joined : (spilled u32 eb * 2 ^ eb + kept u32 eb) <<< mb ||| u32 % 2 ^ 23 / 2 ^ (23 - mb) =
      spilled u32 eb <<< (eb + mb) ||| (kept u32 eb * 2 ^ mb + u32 % 2 ^ 23 / 2 ^ (23 - mb)) := by
    rw [join_bits mb mantissa,join_bits (eb + mb) low,Nat.pow_add]
    ring
  rw [pack_float_bits]
  simp only [exponentBits,mantissaBits,Nat.one_shiftLeft,Nat.shiftRight_eq_div_pow]
  rw [Nat.or_mod_two_pow,Nat.or_mod_two_pow,sign,exponent,rest,exponent_low exponents,Nat.or_assoc,joined,
    ← Nat.or_assoc,← Nat.shiftLeft_or_distrib,join_bits (eb + mb) low]

/-- A packed float is read back with its sign joined to the spilled bit. -/
theorem float_round {p : BitPacker} (packed : Packed p) (small : u32 < 2 ^ 32) (exponents : 2 ≤ eb ∧ eb ≤ 8)
    (mantissas : 1 ≤ mb ∧ mb ≤ 23) (roomy : p.bit_i + (1 + eb + mb) ≤ 8 * p.size) :
    ∃ p', bitpack_float p u32 eb mb = .ok p' ∧ bitunpack_float { p' with bit_i := p.bit_i } eb mb =
      .ok ((u32 / 2 ^ 31 ||| spilled u32 eb) * 2 ^ 31 +
        ((kept u32 eb + 128 - 2 ^ (eb - 1)) * 2 ^ 23 + u32 % 2 ^ 23 / 2 ^ (23 - mb) * 2 ^ (23 - mb)),p') := by
  obtain ⟨s,packing⟩ := packed.packing
  obtain ⟨p',s',run,packing',size,position,field⟩ := bitpack_uint32_field packing (pack_float_bits u32 eb mb)
    (w := 1 + eb + mb) (by omega) (by omega) roomy
  obtain ⟨r,read,_,value⟩ := bitunpack_uint32_total (p := { p' with bit_i := p.bit_i }) packing'.whole
    (w := 1 + eb + mb) (by omega) (by omega) (by simp only; omega)
  have low := (value (pack_float_bits u32 eb mb)).mp field
  rw [pack_float_bits_low small exponents mantissas] at low
  have joint : u32 / 2 ^ 31 ||| spilled u32 eb < 2 ^ 1 := by
    apply Nat.or_lt_two_pow
    · omega
    · simp only [spilled]
      omega
  refine ⟨p',?_,?_⟩
  · rw [bitpack_float,if_neg (by omega),if_neg (by omega),run]
  · rw [bitunpack_float,if_neg (by omega),if_neg (by omega),read]
    simp only [bind,Except.bind,low]
    rw [unpack_float_bits_eq exponents mantissas joint kept_lt (mantissa_lt u32 mantissas),← position]

/-- The sign bit of a float pattern, and whether it is a zero or no number. -/
def sign_bit (u32 : Nat) : Nat := u32 / 2 ^ 31

def IsZero (u32 : Nat) : Prop := u32 % 2 ^ 31 = 0

def IsNaN (u32 : Nat) : Prop := u32 / 2 ^ 23 % 2 ^ 8 = 0xff ∧ u32 % 2 ^ 23 ≠ 0

/-- The bit of an exponent that lies on the sign changes a clear one. -/
theorem spilled_sign_iff (eb : Nat) (small : u32 < 2 ^ 32) :
    u32 / 2 ^ 31 ||| spilled u32 eb = u32 / 2 ^ 31 ↔ sign_bit u32 = 1 ∨ rebiased u32 eb / 2 ^ eb % 2 = 0 := by
  have bit : spilled u32 eb = 0 ∨ spilled u32 eb = 1 := by
    simp only [spilled]
    omega
  have clear : rebiased u32 eb / 2 ^ eb % 2 = 0 ↔ spilled u32 eb = 0 := by
    simp only [spilled]
    omega
  have sign : u32 / 2 ^ 31 = 0 ∨ u32 / 2 ^ 31 = 1 := by omega
  rw [clear,sign_bit]
  generalize u32 / 2 ^ 31 = s at sign
  generalize spilled u32 eb = b at bit
  rcases sign with rfl | rfl <;> rcases bit with rfl | rfl <;> decide

/-- A zero has a packed exponent that is read as one of a zero only where it has 8 bits. -/
theorem kept_zero (exponents : 2 ≤ eb ∧ eb ≤ 8) (zero : IsZero u32) : kept u32 eb + 128 = 2 ^ (eb - 1) ↔ eb = 8 := by
  have none : u32 / 2 ^ 23 % 2 ^ 8 = 0 := by
    simp only [IsZero] at zero
    omega
  obtain ⟨low,high⟩ := exponents
  simp only [kept,rebiased,none]
  interval_cases eb <;> decide

/-- A float keeps its sign, and a zero stays one, exactly where the sign is set
    or the exponent, with the bias of the packed one, does not spill on to it,
    and where the exponent of a zero is packed with all of its bits. -/
theorem bitunpack_float_iff (p : BitPacker) (packed : Packed p) (pattern : UInt32) (eb mb : Nat)
    (exponents : 2 ≤ eb ∧ eb ≤ 8) (mantissas : 1 ≤ mb ∧ mb ≤ 23) (roomy : p.bit_i + (1 + eb + mb) ≤ 8 * p.size) :
    ∃ p' flt, bitpack_float p pattern.toNat eb mb = .ok p' ∧
      bitunpack_float { p' with bit_i := p.bit_i } eb mb = .ok (flt,p') ∧ flt < 2 ^ 32 ∧
      (sign_bit flt = sign_bit pattern.toNat ∧ (IsZero pattern.toNat → IsZero flt) ↔
        (sign_bit pattern.toNat = 1 ∨ rebiased pattern.toNat eb / 2 ^ eb % 2 = 0) ∧
        (IsZero pattern.toNat → eb = 8)) := by
  have small := pattern.toNat_lt
  generalize pattern.toNat = u32 at small
  obtain ⟨p',run,read⟩ := float_round packed small exponents mantissas roomy
  have bias := bias_le exponents
  have keptFits : kept u32 eb < 2 ^ eb := kept_lt
  have mantissa : u32 % 2 ^ 23 / 2 ^ (23 - mb) * 2 ^ (23 - mb) ≤ u32 % 2 ^ 23 := Nat.div_mul_le_self _ _
  have joint : u32 / 2 ^ 31 ||| spilled u32 eb < 2 ^ 1 := by
    apply Nat.or_lt_two_pow
    · omega
    · simp only [spilled]
      omega
  have signIff := spilled_sign_iff eb small
  refine ⟨p',_,run,read,by omega,?_⟩
  refine and_congr ?_ (forall_congr' (fun zero => ?_))
  · rw [← signIff,sign_bit,sign_bit]
    omega
  · rw [← kept_zero exponents zero]
    simp only [IsZero] at zero ⊢
    omega

/-- π with 5 bits of exponent and 10 of mantissa. -/
theorem bitunpack_float_iff_pi :
    (Packed (bitpack_init [0xff,0xff] 2) ∧ (2 ≤ 5 ∧ 5 ≤ 8) ∧ (1 ≤ 10 ∧ 10 ≤ 23) ∧ 0 + (1 + 5 + 10) ≤ 8 * 2) ∧
    ∃ p' flt, bitpack_float (bitpack_init [0xff,0xff] 2) (0x40490fdb : UInt32).toNat 5 10 = .ok p' ∧
      bitunpack_float { p' with bit_i := 0 } 5 10 = .ok (flt,p') ∧ flt < 2 ^ 32 ∧
      (sign_bit flt = sign_bit (0x40490fdb : UInt32).toNat ∧ (IsZero (0x40490fdb : UInt32).toNat → IsZero flt) ↔
        (sign_bit (0x40490fdb : UInt32).toNat = 1 ∨ rebiased (0x40490fdb : UInt32).toNat 5 / 2 ^ 5 % 2 = 0) ∧
        (IsZero (0x40490fdb : UInt32).toNat → 5 = 8)) :=
  ⟨⟨.init _,by decide,by decide,by decide⟩,
    bitunpack_float_iff (bitpack_init [0xff,0xff] 2) (.init _) 0x40490fdb 5 10 (by decide) (by decide) (by decide)⟩

/-- The zero is read back as -2 with 7 bits of exponent and 8 of mantissa. -/
theorem bitunpack_float_zero :
    bitpack_float (bitpack_init [0,0] 2) 0 7 8 = .ok ⟨2,[0x00,0xc0],16⟩ ∧
    bitunpack_float ⟨2,[0x00,0xc0],0⟩ 7 8 = .ok (0xc0000000,⟨2,[0x00,0xc0],16⟩) ∧
    ¬ ∀ (p p' : BitPacker) (pattern : UInt32) (eb mb flt : Nat), Packed p → ¬ IsNaN pattern.toNat →
      2 ≤ eb ∧ eb ≤ 8 → 1 ≤ mb ∧ mb ≤ 23 → bitpack_float p pattern.toNat eb mb = .ok p' →
      bitunpack_float { p' with bit_i := p.bit_i } eb mb = .ok (flt,p') →
      sign_bit flt = sign_bit pattern.toNat ∧ (IsZero pattern.toNat → IsZero flt) := by
  have run : bitpack_float (bitpack_init [0,0] 2) 0 7 8 = .ok ⟨2,[0x00,0xc0],16⟩ := by decide
  have read : bitunpack_float ⟨2,[0x00,0xc0],0⟩ 7 8 = .ok (0xc0000000,⟨2,[0x00,0xc0],16⟩) := by decide
  refine ⟨run,read,fun right => ?_⟩
  have kept := right _ _ 0 7 8 _ (.init [0,0]) (fun nan => nan.2 rfl) (by decide) (by decide) run read
  exact absurd kept.1 (by decide)

end

end Htools.Bitpack
