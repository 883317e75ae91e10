import Htools.Machine
import Htools.BitFields
import Mathlib.Tactic.Ring

/-!
The bit packer (`hutils/src/bitpack.c`). Unsigned values, floats and strings
are written into a byte buffer one bit field behind the other, and read back
from it. Packing clears every byte that it enters, so the contents of the
buffer before do not matter. The byte offset is an `unsigned`, which makes a
buffer of more than 4 GiB a ring: unpacking in the same order gives back what
was packed exactly when the packed bits do not contradict each other there
(`unpack_pack`).
-/
namespace Htools.Bitpack
open Htools.BitFields

/-- `struct BitPacker`, with the contents of the buffer. `size` and `bit_i` are
    `size_t`, and eight times the size of a buffer in memory is one, too. -/
structure BitPacker where
  size : Nat
  buf : List UInt8
  bit_i : Nat
  deriving DecidableEq, Repr

def bitpack_init (a_buf : List UInt8) (a_bytes : Nat) : BitPacker where
  size := a_bytes
  buf := a_buf
  bit_i := 0

/-- The loop of `bitpack_uint32`, whose body runs at least once. -/
def pack_loop : Nat → BitPacker → Nat → Nat → Except Stop BitPacker
  | 0, _, _, _ => .error .fuel
  | fuel + 1, a_packer, a_u32, a_bits =>
    let shift := 7 &&& a_packer.bit_i
    let ofs := a_packer.bit_i / 8 % 2 ^ 32
    if a_packer.buf.length ≤ ofs then .error .fault
    else
      let old := if 0 = shift then 0 else a_packer.buf.getD ofs 0
      let avail := min (8 - shift) a_bits
      let a_packer := { a_packer with
        buf := a_packer.buf.set ofs (orInto old shift avail a_u32), bit_i := a_packer.bit_i + avail }
      if 0 < a_bits - avail then pack_loop fuel a_packer (a_u32 >>> avail) (a_bits - avail) else .ok a_packer

def bitpack_uint32 (a_packer : BitPacker) (a_u32 a_bits : Nat) : Except Stop BitPacker :=
  if 0 = a_bits ∨ 32 < a_bits then .error .exit
  else if a_packer.bit_i + a_bits > 8 * a_packer.size then .error .exit
  else pack_loop a_bits a_packer a_u32 a_bits

/-- The 32 bits that `bitpack_float` packs for the bit pattern of a float. The
    exponent is moved to the bias of `a_exponent_bits` bits in 32-bit arithmetic. -/
def pack_float_bits (u32 a_exponent_bits a_mantissa_bits : Nat) : Nat :=
  let sign := u32 >>> 31
  let exponent := ((0xff &&& (u32 >>> 23)) + (2 ^ 32 - 128) + (1 <<< (a_exponent_bits - 1))) % 2 ^ 32
  let mantissa := 0x7fffff &&& u32
  (sign <<< (a_exponent_bits + a_mantissa_bits)) % 2 ^ 32 ||| (exponent <<< a_mantissa_bits) % 2 ^ 32 |||
    mantissa >>> (23 - a_mantissa_bits)

def bitpack_float (a_packer : BitPacker) (a_float a_exponent_bits a_mantissa_bits : Nat) : Except Stop BitPacker :=
  if a_exponent_bits < 2 ∨ 8 < a_exponent_bits then .error .exit
  else if a_mantissa_bits < 1 ∨ 23 < a_mantissa_bits then .error .exit
  else
    bitpack_uint32 a_packer (pack_float_bits a_float a_exponent_bits a_mantissa_bits)
      (1 + a_exponent_bits + a_mantissa_bits)

/-- A `char`, which is signed, converted to `uint32_t`. -/
def char_u32 (c : UInt8) : Nat := if c.toNat < 0x80 then c.toNat else 2 ^ 32 - 0x100 + c.toNat

/-- Packs the bytes up to the terminator in the memory that `a_s` points to. -/
def bitpack_string (a_packer : BitPacker) : List UInt8 → Except Stop BitPacker
  | [] => .error .fault
  | c :: rest =>
    if c ≠ 0 then do
      let a_packer ← bitpack_uint32 a_packer (char_u32 c) 8
      bitpack_string a_packer rest
    else bitpack_uint32 a_packer 0 8

/-- The loop of `bitunpack_uint32`. -/
def unpack_loop : Nat → BitPacker → Nat → Nat → Nat → Except Stop (Nat × BitPacker)
  | 0, a_packer, u32, _, a_bits => if 0 < a_bits then .error .fuel else .ok (u32,a_packer)
  | fuel + 1, a_packer, u32, i, a_bits =>
    if 0 < a_bits then
      let shift := 7 &&& a_packer.bit_i
      let ofs := a_packer.bit_i / 8 % 2 ^ 32
      if a_packer.buf.length ≤ ofs then .error .fault
      else
        let avail := min (8 - shift) a_bits
        let u8 := ((1 <<< avail) - 1) &&& ((a_packer.buf.getD ofs 0).toNat >>> shift)
        let u32 := u32 ||| (u8 <<< i) % 2 ^ 32
        unpack_loop fuel { a_packer with bit_i := a_packer.bit_i + avail } u32 (i + avail) (a_bits - avail)
    else .ok (u32,a_packer)

def bitunpack_uint32 (a_packer : BitPacker) (a_bits : Nat) : Except Stop (Nat × BitPacker) :=
  if 0 = a_bits ∨ 32 < a_bits then .error .exit
  else if a_packer.bit_i + a_bits > 8 * a_packer.size then .error .exit
  else unpack_loop a_bits a_packer 0 0 a_bits

/-- The bit pattern of the float that `bitunpack_float` makes of the unpacked bits. -/
def unpack_float_bits (u32 a_exponent_bits a_mantissa_bits : Nat) : Nat :=
  let sign := u32 >>> (a_exponent_bits + a_mantissa_bits)
  let exponent := (((u32 >>> a_mantissa_bits) &&& ((1 <<< a_exponent_bits) - 1)) +
    (2 ^ 32 - (1 <<< (a_exponent_bits - 1))) + 128) % 2 ^ 32
  let mantissa := u32 &&& ((1 <<< a_mantissa_bits) - 1)
  (sign <<< 31) % 2 ^ 32 ||| (exponent <<< 23) % 2 ^ 32 ||| (mantissa <<< (23 - a_mantissa_bits)) % 2 ^ 32

def bitunpack_float (a_packer : BitPacker) (a_exponent_bits a_mantissa_bits : Nat) : Except Stop (Nat × BitPacker) :=
  if a_exponent_bits < 2 ∨ 8 < a_exponent_bits then .error .exit
  else if a_mantissa_bits < 1 ∨ 23 < a_mantissa_bits then .error .exit
  else do
    let (u32,a_packer) ← bitunpack_uint32 a_packer (1 + a_exponent_bits + a_mantissa_bits)
    .ok (unpack_float_bits u32 a_exponent_bits a_mantissa_bits,a_packer)

/-- The first loop of `bitunpack_string`, which looks for the terminator. -/
def unpack_scan : Nat → BitPacker → Nat → Except Stop Nat
  | 0, _, _ => .error .fuel
  | fuel + 1, a_packer, len => do
    let (c,a_packer) ← bitunpack_uint32 a_packer 8
    if 0 = c then .ok len else unpack_scan fuel a_packer (len + 1)

/-- The second loop of `bitunpack_string`, which writes `s` in an allocation of
    `room` bytes. -/
def unpack_copy (room : Nat) : Nat → BitPacker → List UInt8 → Except Stop (List UInt8 × BitPacker)
  | 0, _, _ => .error .fuel
  | fuel + 1, a_packer, s => do
    let (c,a_packer) ← bitunpack_uint32 a_packer 8
    if room ≤ s.length then .error .fault
    else
      let s := s ++ [UInt8.ofNat c]
      if 0 = c then .ok (s,a_packer) else unpack_copy room fuel a_packer s

/-- The bytes of the string in its new allocation, the terminator included. -/
def bitunpack_string (a_packer : BitPacker) : Except Stop (List UInt8 × BitPacker) := do
  let len ← unpack_scan (8 * a_packer.size + 1) a_packer 0
  unpack_copy (len + 1) (8 * a_packer.size + 1) a_packer []

/-! ### One field -/

/-- The bits of the buffer, as the packer addresses them. -/
def BitPacker.bits (p : BitPacker) : Nat → Bool := ringBit (2 ^ 32) p.buf

/-- A packer that has written the bits of `s` up to its position. -/
structure Packing (s : Nat → Bool) (p : BitPacker) : Prop where
  whole : p.buf.length = p.size
  held : Holds (2 ^ 32) s p.bit_i p.buf

theorem packing_init (s : Nat → Bool) (a_buf : List UInt8) : Packing s (bitpack_init a_buf a_buf.length) :=
  ⟨rfl,holds_init _ s a_buf⟩

private theorem low_seven (n : Nat) : 7 &&& n = n % 8 := low_bits 3 n

private theorem ofs_inside {p : BitPacker} (inside : p.bit_i < 8 * p.buf.length) :
    p.bit_i / 8 % 2 ^ 32 < p.buf.length := by
  omega

theorem pack_loop_total {s : Nat → Bool} : ∀ (fuel : Nat) (p : BitPacker) (v w : Nat), Packing s p → 0 < w →
    w ≤ fuel → p.bit_i + w ≤ 8 * p.size → HasField s p.bit_i w v →
    ∃ p', pack_loop fuel p v w = .ok p' ∧ Packing s p' ∧ p'.size = p.size ∧ p'.bit_i = p.bit_i + w := by
  intro fuel
  induction fuel with
  | zero => intro p v w _ positive enough; omega
  | succ fuel ih =>
    intro p v w packing positive enough roomy field
    have whole := packing.whole
    have inside := ofs_inside (p := p) (by omega)
    obtain ⟨avail,availIs⟩ : ∃ n, n = min (8 - p.bit_i % 8) w := ⟨_,rfl⟩
    have parts : w = avail + (w - avail) := by omega
    rw [parts] at field
    obtain ⟨first,rest⟩ := field_split.mp field
    have held := holds_orInto packing.held inside (by omega) (by omega) first
    rw [pack_loop]
    simp only [low_seven,if_neg (Nat.not_le.mpr inside),← availIs]
    by_cases more : 0 < w - avail
    · rw [if_pos more]
      obtain ⟨p',run,packing',size,position⟩ := ih ⟨p.size,_,p.bit_i + avail⟩ (v >>> avail) (w - avail)
        ⟨by rw [List.length_set]; exact whole,held⟩ more (by omega) (by simp only; omega) rest
      refine ⟨p',run,packing',size,?_⟩
      simp only at position
      omega
    · rw [if_neg more]
      refine ⟨_,rfl,⟨by rw [List.length_set]; exact whole,held⟩,rfl,?_⟩
      simp only
      omega

/-- Packing the next field of a stream. -/
theorem bitpack_uint32_total {s : Nat → Bool} {p : BitPacker} (packing : Packing s p) {v w : Nat}
    (positive : 0 < w) (narrow : w ≤ 32) (roomy : p.bit_i + w ≤ 8 * p.size) (field : HasField s p.bit_i w v) :
    ∃ p', bitpack_uint32 p v w = .ok p' ∧ Packing s p' ∧ p'.size = p.size ∧ p'.bit_i = p.bit_i + w := by
  rw [bitpack_uint32,if_neg (by omega),if_neg (by omega)]
  exact pack_loop_total w p v w packing positive le_rfl roomy field

/-- The bits that have been read, and those that the loop still reads. -/
theorem unpack_loop_total : ∀ (fuel : Nat) (p : BitPacker) (u32 i w : Nat), w ≤ fuel → i + w ≤ 32 → u32 < 2 ^ i →
    p.bit_i + w ≤ 8 * p.buf.length →
    ∃ r, unpack_loop fuel p u32 i w = .ok (r,{ p with bit_i := p.bit_i + w }) ∧
      ∀ j, r.testBit j = (u32.testBit j || (decide (i ≤ j ∧ j < i + w) && p.bits (p.bit_i + j - i))) := by
  intro fuel
  induction fuel with
  | zero =>
    intro p u32 i w enough _ _ _
    obtain rfl : w = 0 := by omega
    refine ⟨u32,by simp [unpack_loop],fun j => ?_⟩
    simp
  | succ fuel ih =>
    intro p u32 i w enough narrow small roomy
    rw [unpack_loop]
    by_cases more : 0 < w
    · have inside := ofs_inside (p := p) (by omega)
      obtain ⟨avail,availIs⟩ : ∃ n, n = min (8 - p.bit_i % 8) w := ⟨_,rfl⟩
      obtain ⟨u8,u8Is⟩ : ∃ n, n = ((1 <<< avail) - 1) &&&
          ((p.buf.getD (p.bit_i / 8 % 2 ^ 32) 0).toNat >>> (p.bit_i % 8)) := ⟨_,rfl⟩
      have bits : ∀ j, u8.testBit j = (decide (j < avail) && p.bits (p.bit_i + j)) := by
        intro j
        rw [u8Is,Nat.testBit_and,Nat.one_shiftLeft,Nat.testBit_two_pow_sub_one,Nat.testBit_shiftRight]
        by_cases lt : j < avail
        · rw [ringBit_getD (by omega),BitPacker.bits]
        · simp [lt]
      have shifted : ∀ j, ((u8 <<< i) % 2 ^ 32).testBit j =
          (decide (i ≤ j ∧ j < i + avail) && p.bits (p.bit_i + j - i)) := by
        intro j
        rw [Nat.testBit_mod_two_pow,Nat.testBit_shiftLeft,bits]
        by_cases above : i ≤ j
        · have same : (j - i < avail) = (j < i + avail) := by apply propext; omega
          rw [show p.bit_i + (j - i) = p.bit_i + j - i by omega]
          simp only [above,same,decide_true,Bool.true_and,true_and]
          by_cases lt : j < i + avail
          · simp [lt,show j < 32 by omega]
          · simp [lt]
        · simp [above]
      have small' : u32 ||| (u8 <<< i) % 2 ^ 32 < 2 ^ (i + avail) := by
        apply Nat.lt_pow_two_of_testBit
        intro j above
        rw [Nat.testBit_or,shifted,Nat.testBit_lt_two_pow (Nat.lt_of_lt_of_le small
          (Nat.pow_le_pow_right (by decide) (show i ≤ j by omega)))]
        simp [show ¬ j < i + avail by omega]
      obtain ⟨r,run,correct⟩ := ih { p with bit_i := p.bit_i + avail } (u32 ||| (u8 <<< i) % 2 ^ 32) (i + avail)
        (w - avail) (by omega) (by omega) small' (by simp only; omega)
      refine ⟨r,?_,?_⟩
      · simp only [low_seven,if_pos more,if_neg (Nat.not_le.mpr inside),← availIs,← u8Is]
        rw [run]
        simp only [show p.bit_i + avail + (w - avail) = p.bit_i + w by omega]
      · intro j
        rw [correct j,Nat.testBit_or,shifted,Bool.or_assoc]
        congr 1
        simp only [BitPacker.bits]
        rw [show p.bit_i + avail + j - (i + avail) = p.bit_i + j - i by omega,← Bool.and_or_distrib_right]
        congr 1
        rw [← Bool.decide_or,decide_eq_decide]
        omega
    · obtain rfl : w = 0 := by omega
      exact ⟨u32,by simp,fun j => by simp⟩

/-- Unpacking gives the value of a field exactly when the buffer holds the field. -/
theorem bitunpack_uint32_total {p : BitPacker} (whole : p.buf.length = p.size) {w : Nat} (positive : 0 < w)
    (narrow : w ≤ 32) (roomy : p.bit_i + w ≤ 8 * p.size) :
    ∃ r, bitunpack_uint32 p w = .ok (r,{ p with bit_i := p.bit_i + w }) ∧ r < 2 ^ w ∧
      ∀ v, HasField p.bits p.bit_i w v ↔ r = v % 2 ^ w := by
  obtain ⟨r,run,correct⟩ := unpack_loop_total w p 0 0 w le_rfl (by omega) (by decide) (by omega)
  have read : ∀ j, r.testBit j = (decide (j < w) && p.bits (p.bit_i + j)) := by
    intro j
    rw [correct j]
    simp
  refine ⟨r,?_,?_,fun v => field_iff_value read⟩
  · rw [bitunpack_uint32,if_neg (by omega),if_neg (by omega),run]
  · apply Nat.lt_pow_two_of_testBit
    intro j above
    rw [read]
    simp [show ¬ j < w by omega]

/-- Unpacking moves nothing but the position. -/
private theorem bitunpack_uint32_frame {p p' : BitPacker} (whole : p.buf.length = p.size) {r w : Nat}
    (run : bitunpack_uint32 p w = .ok (r,p')) : p' = { p with bit_i := p'.bit_i } := by
  by_cases allowed : 0 < w ∧ w ≤ 32 ∧ p.bit_i + w ≤ 8 * p.size
  · obtain ⟨_,run',_⟩ := bitunpack_uint32_total whole allowed.1 allowed.2.1 allowed.2.2
    rw [run'] at run
    cases run
    rfl
  · rw [bitunpack_uint32] at run
    split_ifs at run
    omega

/-! ### Strings -/

/-- The fields that a string is packed into, one a byte and one for the terminator. -/
def string_fields (s : List UInt8) : List (Nat × Nat) := (s ++ [0]).map fun c : UInt8 => (8,c.toNat)

private theorem string_fields_cons (c : UInt8) (rest : List UInt8) :
    string_fields (c :: rest) = (8,c.toNat) :: string_fields rest := rfl

private theorem string_fields_width (s : List UInt8) : width (string_fields s) = 8 * (s.length + 1) := by
  induction s with
  | nil => rfl
  | cons c rest ih =>
    rw [string_fields_cons,width_cons,ih,List.length_cons]
    omega

private theorem char_u32_byte (c : UInt8) : char_u32 c % 2 ^ 8 = c.toNat % 2 ^ 8 := by
  have small := c.toNat_lt
  rw [char_u32]
  split_ifs <;> omega

/-- The bytes that are packed and read of a character are the same. -/
private theorem char_u32_field {bits : Nat → Bool} {pos : Nat} (c : UInt8) :
    HasField bits pos 8 (char_u32 c) ↔ HasField bits pos 8 c.toNat := by
  refine forall_congr' fun k => imp_congr_right fun inside => ?_
  have same := congrArg (·.testBit k) (char_u32_byte c)
  simp only [Nat.testBit_mod_two_pow,inside,decide_true,Bool.true_and] at same
  rw [same]

private theorem bitpack_string_total {s : Nat → Bool} {str : List UInt8} (noNul : 0 ∉ str) :
    ∀ {p : BitPacker}, Packing s p → p.bit_i + 8 * (str.length + 1) ≤ 8 * p.size →
      HasFields s p.bit_i (string_fields str) → ∃ p', bitpack_string p (str ++ [0]) = .ok p' ∧ Packing s p' ∧
        p'.size = p.size ∧ p'.bit_i = p.bit_i + 8 * (str.length + 1) := by
  induction str with
  | nil =>
    rintro p packing roomy ⟨last,_⟩
    exact bitpack_uint32_total packing (by decide) (by decide) roomy last
  | cons c rest ih =>
    rintro p packing roomy ⟨first,later⟩
    simp only [List.mem_cons,not_or] at noNul
    simp only [List.length_cons] at roomy ⊢
    obtain ⟨q,run,packing,size,position⟩ := bitpack_uint32_total packing (w := 8) (by decide) (by decide) (by omega)
      ((char_u32_field c).mpr first)
    obtain ⟨p',run',packing',size',position'⟩ := ih noNul.2 packing (by omega) (position ▸ later)
    refine ⟨p',?_,packing',by omega,by omega⟩
    simp only [List.cons_append,bitpack_string,if_pos (Ne.symm noNul.1),run,bind,Except.bind,run']

/-- Unpacking of a byte, by its value. -/
private theorem unpack_byte {p : BitPacker} (whole : p.buf.length = p.size) (roomy : p.bit_i + 8 ≤ 8 * p.size) :
    ∃ c : UInt8, bitunpack_uint32 p 8 = .ok (c.toNat,{ p with bit_i := p.bit_i + 8 }) ∧
      ∀ d : UInt8, HasField p.bits p.bit_i 8 d.toNat ↔ c = d := by
  obtain ⟨r,run,small,fields⟩ := bitunpack_uint32_total whole (w := 8) (by decide) (by decide) roomy
  refine ⟨UInt8.ofNat r,?_,?_⟩
  · rw [run,UInt8.toNat_ofNat',Nat.mod_eq_of_lt small]
  · intro d
    rw [fields,← UInt8.toNat_inj,UInt8.toNat_ofNat',Nat.mod_eq_of_lt small,Nat.mod_eq_of_lt d.toNat_lt]

private theorem toNat_zero_iff (c : UInt8) : 0 = c.toNat ↔ c = 0 := by
  rw [← UInt8.toNat_inj]
  exact eq_comm

private theorem scan_string {s : List UInt8} (noNul : 0 ∉ s) :
    ∀ {p : BitPacker} fuel len, p.buf.length = p.size → p.bit_i + 8 * (s.length + 1) ≤ 8 * p.size →
      HasFields p.bits p.bit_i (string_fields s) → s.length < fuel →
      unpack_scan fuel p len = .ok (len + s.length) := by
  induction s with
  | nil =>
    rintro p fuel len whole roomy ⟨last,_⟩ enough
    obtain ⟨fuel,rfl⟩ : ∃ n, fuel = n + 1 := ⟨fuel - 1,by simp at enough; omega⟩
    obtain ⟨c,run,bytes⟩ := unpack_byte whole roomy
    obtain rfl := (bytes 0).mp last
    rw [unpack_scan]
    simp only [run,bind,Except.bind]
    rfl
  | cons c rest ih =>
    rintro p fuel len whole roomy ⟨first,later⟩ enough
    simp only [List.length_cons] at roomy enough ⊢
    obtain ⟨fuel,rfl⟩ : ∃ n, fuel = n + 1 := ⟨fuel - 1,by omega⟩
    simp only [List.mem_cons,not_or] at noNul
    obtain ⟨d,run,bytes⟩ := unpack_byte whole (by omega)
    obtain rfl := (bytes c).mp first
    rw [unpack_scan]
    simp only [run,bind,Except.bind,if_neg ((toNat_zero_iff d).not.mpr (Ne.symm noNul.1)),
      ih noNul.2 (p := { p with bit_i := p.bit_i + 8 }) fuel (len + 1) whole (by simp only; omega) later (by omega)]
    congr 1
    omega

private theorem copy_string {room : Nat} {s : List UInt8} (noNul : 0 ∉ s) :
    ∀ {p : BitPacker} fuel out, p.buf.length = p.size → p.bit_i + 8 * (s.length + 1) ≤ 8 * p.size →
      HasFields p.bits p.bit_i (string_fields s) → s.length < fuel → out.length + s.length < room →
      unpack_copy room fuel p out = .ok (out ++ s ++ [0],{ p with bit_i := p.bit_i + 8 * (s.length + 1) }) := by
  induction s with
  | nil =>
    rintro p fuel out whole roomy ⟨last,_⟩ enough space
    obtain ⟨fuel,rfl⟩ : ∃ n, fuel = n + 1 := ⟨fuel - 1,by simp at enough; omega⟩
    obtain ⟨c,run,bytes⟩ := unpack_byte whole roomy
    obtain rfl := (bytes 0).mp last
    simp only [List.length_nil] at space
    rw [unpack_copy]
    simp only [run,bind,Except.bind,if_neg (show ¬ room ≤ out.length by omega)]
    simp
  | cons c rest ih =>
    rintro p fuel out whole roomy ⟨first,later⟩ enough space
    simp only [List.length_cons] at roomy enough space ⊢
    obtain ⟨fuel,rfl⟩ : ∃ n, fuel = n + 1 := ⟨fuel - 1,by omega⟩
    simp only [List.mem_cons,not_or] at noNul
    obtain ⟨d,run,bytes⟩ := unpack_byte whole (by omega)
    obtain rfl := (bytes c).mp first
    rw [unpack_copy]
    simp only [run,bind,Except.bind,if_neg ((toNat_zero_iff d).not.mpr (Ne.symm noNul.1)),
      if_neg (show ¬ room ≤ out.length by omega),UInt8.ofNat_toNat,
      ih noNul.2 (p := { p with bit_i := p.bit_i + 8 }) fuel (out ++ [d]) whole (by simp only; omega) later (by omega)
        (by simp; omega)]
    simp only [List.append_assoc,List.cons_append,List.nil_append]
    congr 3
    omega

/-- The bytes that the copying loop writes are those in the buffer. -/
private theorem copied_fields {room : Nat} :
    ∀ {fuel} {p p' : BitPacker} {out memory}, p.buf.length = p.size →
      unpack_copy room fuel p out = .ok (memory,p') → p' = { p with bit_i := p'.bit_i } ∧
      ∃ t, memory = out ++ t ∧ HasFields p.bits p.bit_i (t.map fun c : UInt8 => (8,c.toNat)) := by
  intro fuel
  induction fuel with
  | zero => intro p p' out memory _ run; cases run
  | succ fuel ih =>
    intro p p' out memory whole run
    rw [unpack_copy] at run
    by_cases roomy : p.bit_i + 8 ≤ 8 * p.size
    · obtain ⟨c,read,bytes⟩ := unpack_byte whole roomy
      simp only [read,bind,Except.bind,UInt8.ofNat_toNat] at run
      split_ifs at run with full zero
      · cases run
        exact ⟨rfl,[c],rfl,(bytes c).mpr rfl,trivial⟩
      · obtain ⟨same,t,rfl,fields⟩ := ih (p := { p with bit_i := p.bit_i + 8 }) whole run
        exact ⟨same,c :: t,by simp,(bytes c).mpr rfl,fields⟩
    · simp only [bitunpack_uint32,if_neg (show ¬ (0 = 8 ∨ 32 < 8) by decide),
        if_pos (show p.bit_i + 8 > 8 * p.size by omega),bind,Except.bind] at run
      cases run

/-- Unpacking gives a string exactly when the buffer holds its bytes. -/
private theorem bitunpack_string_iff {s : List UInt8} (noNul : 0 ∉ s) {p : BitPacker}
    (whole : p.buf.length = p.size) (roomy : p.bit_i + 8 * (s.length + 1) ≤ 8 * p.size) :
    bitunpack_string p = .ok (s ++ [0],{ p with bit_i := p.bit_i + 8 * (s.length + 1) }) ↔
      HasFields p.bits p.bit_i (string_fields s) := by
  constructor
  · intro run
    rw [bitunpack_string] at run
    cases scanned : unpack_scan (8 * p.size + 1) p 0 with
    | error stop => rw [scanned] at run; cases run
    | ok len =>
      rw [scanned] at run
      obtain ⟨_,t,same,fields⟩ := copied_fields whole run
      rwa [string_fields,same]
  · intro fields
    have scanned := scan_string noNul (8 * p.size + 1) 0 whole roomy fields (by omega)
    have space : ([] : List UInt8).length + s.length < 0 + s.length + 1 := by simp
    have copied := copy_string noNul (8 * p.size + 1) [] whole roomy fields (by omega) space
    rw [bitunpack_string,scanned]
    exact copied

/-! ### Floats -/

/-- The exponent of a float pattern can be held with `a_exponent_bits` bits. -/
def FloatFits (u32 a_exponent_bits : Nat) : Prop :=
  128 ≤ u32 / 2 ^ 23 % 2 ^ 8 + 2 ^ (a_exponent_bits - 1) ∧
    u32 / 2 ^ 23 % 2 ^ 8 + 2 ^ (a_exponent_bits - 1) - 128 < 2 ^ a_exponent_bits

/-- A float pattern with its exponent and mantissa in fewer bits: the sign, the
    exponent for the smaller bias and the top bits of the mantissa. -/
def narrowed (u32 a_exponent_bits a_mantissa_bits : Nat) : Nat :=
  u32 / 2 ^ 31 * 2 ^ (a_exponent_bits + a_mantissa_bits) +
    ((u32 / 2 ^ 23 % 2 ^ 8 + 2 ^ (a_exponent_bits - 1) - 128) * 2 ^ a_mantissa_bits +
      u32 % 2 ^ 23 / 2 ^ (23 - a_mantissa_bits))

/-- A float pattern with its low mantissa bits cleared. -/
def truncated (u32 a_mantissa_bits : Nat) : Nat := (u32 >>> (23 - a_mantissa_bits)) <<< (23 - a_mantissa_bits)

section
variable {u32 eb mb : Nat}

theorem bias_le (exponents : 2 ≤ eb ∧ eb ≤ 8) : 2 ^ (eb - 1) ≤ 128 ∧ 2 ^ eb = 2 * 2 ^ (eb - 1) := by
  refine ⟨Nat.pow_le_pow_right (by decide) (show eb - 1 ≤ 7 by omega),?_⟩
  rw [← Nat.pow_succ',show (eb - 1).succ = eb by omega]

private theorem mantissa_split (mantissas : 1 ≤ mb ∧ mb ≤ 23) : 2 ^ mb * 2 ^ (23 - mb) = 2 ^ 23 := by
  rw [← Nat.pow_add,show mb + (23 - mb) = 23 by omega]

/-- The top bits of a mantissa fit the narrower one. -/
theorem mantissa_lt (u32 : Nat) (mantissas : 1 ≤ mb ∧ mb ≤ 23) : u32 % 2 ^ 23 / 2 ^ (23 - mb) < 2 ^ mb := by
  rw [Nat.div_lt_iff_lt_mul (Nat.two_pow_pos _),mantissa_split mantissas]
  exact Nat.mod_lt _ (Nat.two_pow_pos _)

/-- Two fields joined fit the sum of their widths. -/
theorem joined_lt {a b x q : Nat} (xFits : x < 2 ^ a) (qFits : q < 2 ^ b) : x * 2 ^ b + q < 2 ^ (a + b) := by
  rw [Nat.pow_add]
  calc x * 2 ^ b + q < x * 2 ^ b + 2 ^ b := by omega
    _ = (x + 1) * 2 ^ b := by rw [Nat.succ_mul]
    _ ≤ 2 ^ a * 2 ^ b := Nat.mul_le_mul_right _ xFits

/-- Joined fields are their quotient and remainder. -/
theorem joined_split {b x q : Nat} (qFits : q < 2 ^ b) :
    (x * 2 ^ b + q) / 2 ^ b = x ∧ (x * 2 ^ b + q) % 2 ^ b = q := by
  refine ⟨?_,?_⟩
  · rw [Nat.add_comm,Nat.add_mul_div_right _ _ (Nat.two_pow_pos _),Nat.div_eq_of_lt qFits,Nat.zero_add]
  · rw [Nat.add_comm,Nat.add_mul_mod_self_right,Nat.mod_eq_of_lt qFits]

private theorem narrowed_lt (small : u32 < 2 ^ 32) (mantissas : 1 ≤ mb ∧ mb ≤ 23) (fits : FloatFits u32 eb) :
    narrowed u32 eb mb < 2 ^ (1 + eb + mb) := by
  have top : u32 / 2 ^ 31 < 2 ^ 1 := by omega
  rw [Nat.add_assoc]
  exact joined_lt top (joined_lt fits.2 (mantissa_lt u32 mantissas))

/-- `bitpack_float` packs the narrowed pattern of a float whose exponent fits. -/
theorem pack_float_bits_eq (small : u32 < 2 ^ 32) (exponents : 2 ≤ eb ∧ eb ≤ 8) (mantissas : 1 ≤ mb ∧ mb ≤ 23)
    (fits : FloatFits u32 eb) : pack_float_bits u32 eb mb = narrowed u32 eb mb := by
  obtain ⟨low,high⟩ := fits
  have bias := bias_le exponents
  have exponentBits : 0xff &&& (u32 >>> 23) = u32 / 2 ^ 23 % 2 ^ 8 := by
    rw [Nat.shiftRight_eq_div_pow]
    exact low_bits 8 _
  have mantissaBits : 0x7fffff &&& u32 = u32 % 2 ^ 23 := low_bits 23 _
  have exponent : (u32 / 2 ^ 23 % 2 ^ 8 + (2 ^ 32 - 128) + 2 ^ (eb - 1)) % 2 ^ 32 =
      u32 / 2 ^ 23 % 2 ^ 8 + 2 ^ (eb - 1) - 128 := by omega
  have mantissa := mantissa_lt u32 mantissas
  have below := joined_lt high mantissa
  have wide : 2 ^ (eb + mb) ≤ 2 ^ 31 := Nat.pow_le_pow_right (by decide) (by omega)
  have signFits : u32 / 2 ^ 31 * 2 ^ (eb + mb) < 2 ^ 32 := by
    have one : u32 / 2 ^ 31 ≤ 1 := by omega
    have := Nat.mul_le_mul one wide
    omega
  have exponentFits : (u32 / 2 ^ 23 % 2 ^ 8 + 2 ^ (eb - 1) - 128) * 2 ^ mb < 2 ^ 32 :=
    Nat.lt_of_le_of_lt (Nat.le_add_right _ _) (Nat.lt_of_lt_of_le below (Nat.le_trans wide (by decide)))
  rw [pack_float_bits]
  simp only [exponentBits,mantissaBits,Nat.one_shiftLeft,exponent]
  rw [Nat.shiftRight_eq_div_pow,Nat.shiftRight_eq_div_pow,Nat.or_assoc,Nat.shiftLeft_eq (u32 / 2 ^ 31),
    Nat.mod_eq_of_lt signFits,Nat.shiftLeft_eq _ mb,Nat.mod_eq_of_lt exponentFits,← Nat.shiftLeft_eq _ mb,
    join_bits mb mantissa,← Nat.shiftLeft_eq (u32 / 2 ^ 31),join_bits (eb + mb) below,narrowed]

/-- `bitunpack_float` makes of sign `s`, exponent `x` and mantissa `q` a float
    with the bias of 8 bits and low mantissa bits zero. -/
theorem unpack_float_bits_eq (exponents : 2 ≤ eb ∧ eb ≤ 8) (mantissas : 1 ≤ mb ∧ mb ≤ 23) {s x q : Nat}
    (sFits : s < 2) (xFits : x < 2 ^ eb) (qFits : q < 2 ^ mb) :
    unpack_float_bits (s * 2 ^ (eb + mb) + (x * 2 ^ mb + q)) eb mb =
      s * 2 ^ 31 + ((x + 128 - 2 ^ (eb - 1)) * 2 ^ 23 + q * 2 ^ (23 - mb)) := by
  have bias := bias_le exponents
  have upper : s * 2 ^ (eb + mb) + (x * 2 ^ mb + q) = (s * 2 ^ eb + x) * 2 ^ mb + q := by
    rw [Nat.pow_add]
    ring
  have signIs : (s * 2 ^ (eb + mb) + (x * 2 ^ mb + q)) / 2 ^ (eb + mb) = s := (joined_split (joined_lt xFits qFits)).1
  have exponentIs : (s * 2 ^ (eb + mb) + (x * 2 ^ mb + q)) / 2 ^ mb % 2 ^ eb = x := by
    rw [upper,(joined_split qFits).1,(joined_split xFits).2]
  have mantissaIs : (s * 2 ^ (eb + mb) + (x * 2 ^ mb + q)) % 2 ^ mb = q := by
    rw [upper,(joined_split qFits).2]
  have exponent : (x + (2 ^ 32 - 2 ^ (eb - 1)) + 128) % 2 ^ 32 = x + 128 - 2 ^ (eb - 1) := by omega
  have mantissa : q * 2 ^ (23 - mb) < 2 ^ 23 := by
    rw [← mantissa_split mantissas]
    exact Nat.mul_lt_mul_of_pos_right qFits (Nat.two_pow_pos _)
  have low : (q * 2 ^ (23 - mb)) % 2 ^ 32 = q * 2 ^ (23 - mb) :=
    Nat.mod_eq_of_lt (Nat.lt_trans mantissa (by decide))
  have middle : ((x + 128 - 2 ^ (eb - 1)) <<< 23) % 2 ^ 32 = (x + 128 - 2 ^ (eb - 1)) <<< 23 := by
    rw [Nat.shiftLeft_eq]
    omega
  have high : (s <<< 31) % 2 ^ 32 = s <<< 31 := by
    rw [Nat.shiftLeft_eq]
    omega
  have lower : (x + 128 - 2 ^ (eb - 1)) * 2 ^ 23 + q * 2 ^ (23 - mb) < 2 ^ 31 := by omega
  rw [unpack_float_bits]
  simp only [Nat.shiftRight_eq_div_pow,Nat.one_shiftLeft,Nat.and_two_pow_sub_one_eq_mod,signIs,exponentIs,mantissaIs,
    exponent]
  rw [Nat.or_assoc,Nat.shiftLeft_eq q,low,middle,high,join_bits 23 mantissa,join_bits 31 lower]

private theorem truncated_eq (mantissas : 1 ≤ mb ∧ mb ≤ 23) :
    truncated u32 mb = u32 / 2 ^ 31 * 2 ^ 31 +
      (u32 / 2 ^ 23 % 2 ^ 8 * 2 ^ 23 + u32 % 2 ^ 23 / 2 ^ (23 - mb) * 2 ^ (23 - mb)) := by
  have top : u32 / 2 ^ (23 - mb) = u32 / 2 ^ 23 * 2 ^ mb + u32 % 2 ^ 23 / 2 ^ (23 - mb) := by
    have split : u32 = u32 % 2 ^ 23 + u32 / 2 ^ 23 * 2 ^ mb * 2 ^ (23 - mb) := by
      rw [Nat.mul_assoc,mantissa_split mantissas]
      omega
    conv_lhs => rw [split]
    rw [Nat.add_mul_div_right _ _ (Nat.two_pow_pos _)]
    omega
  rw [truncated,Nat.shiftRight_eq_div_pow,Nat.shiftLeft_eq,top,Nat.add_mul,Nat.mul_assoc,mantissa_split mantissas]
  omega

/-- A float is read back, but for its low mantissa bits, from its narrowed
    pattern and from no other. -/
theorem unpack_float_bits_iff (exponents : 2 ≤ eb ∧ eb ≤ 8) (mantissas : 1 ≤ mb ∧ mb ≤ 23)
    (fits : FloatFits u32 eb) {r : Nat} (rFits : r < 2 ^ (1 + eb + mb)) :
    unpack_float_bits r eb mb = truncated u32 mb ↔ r = narrowed u32 eb mb := by
  have bias := bias_le exponents
  obtain ⟨low,high⟩ := fits
  -- Take `r` apart into sign, exponent and mantissa.
  obtain ⟨s,x,q,sFits,xFits,qFits,rfl⟩ : ∃ s x q, s < 2 ∧ x < 2 ^ eb ∧ q < 2 ^ mb ∧
      r = s * 2 ^ (eb + mb) + (x * 2 ^ mb + q) := by
    refine ⟨r / 2 ^ (eb + mb),r / 2 ^ mb % 2 ^ eb,r % 2 ^ mb,?_,Nat.mod_lt _ (Nat.two_pow_pos _),
      Nat.mod_lt _ (Nat.two_pow_pos _),?_⟩
    · have double : 2 ^ (1 + eb + mb) = 2 ^ (eb + mb) * 2 := by
        rw [show 1 + eb + mb = eb + mb + 1 by omega,Nat.pow_succ]
      exact Nat.div_lt_of_lt_mul (double ▸ rFits)
    · have lower := Nat.div_add_mod r (2 ^ mb)
      have upper := Nat.div_add_mod (r / 2 ^ mb) (2 ^ eb)
      rw [Nat.div_div_eq_div_mul,← Nat.pow_add,Nat.add_comm mb eb] at upper
      calc r = 2 ^ mb * (r / 2 ^ mb) + r % 2 ^ mb := lower.symm
        _ = 2 ^ mb * (2 ^ eb * (r / 2 ^ (eb + mb)) + r / 2 ^ mb % 2 ^ eb) + r % 2 ^ mb := by rw [upper]
        _ = _ := by rw [Nat.pow_add]; ring
  have qFits' := mantissa_lt u32 mantissas
  rw [unpack_float_bits_eq exponents mantissas sFits xFits qFits,truncated_eq mantissas,narrowed]
  obtain ⟨y,yIs⟩ : ∃ y, y = u32 / 2 ^ 23 % 2 ^ 8 + 2 ^ (eb - 1) - 128 := ⟨_,rfl⟩
  have back : u32 / 2 ^ 23 % 2 ^ 8 = y + 128 - 2 ^ (eb - 1) := by omega
  have yFits : y < 2 ^ eb := by omega
  generalize u32 % 2 ^ 23 / 2 ^ (23 - mb) = t at qFits'
  rw [← yIs,back]
  have mantissa : ∀ n < 2 ^ mb, n * 2 ^ (23 - mb) < 2 ^ 23 := by
    intro n nFits
    rw [← mantissa_split mantissas]
    exact Nat.mul_lt_mul_of_pos_right nFits (Nat.two_pow_pos _)
  have qLt := mantissa q qFits
  have tLt := mantissa t qFits'
  constructor
  · intro same
    have mantissas : q * 2 ^ (23 - mb) = t * 2 ^ (23 - mb) := by omega
    rw [Nat.eq_of_mul_eq_mul_right (Nat.two_pow_pos _) mantissas,show x = y by omega,show s = u32 / 2 ^ 31 by omega]
  · intro same
    have lower := congrArg (· % 2 ^ (eb + mb)) same
    have upper := congrArg (· / 2 ^ (eb + mb)) same
    simp only [(joined_split (joined_lt xFits qFits)).1,(joined_split (joined_lt yFits qFits')).1,
      (joined_split (joined_lt xFits qFits)).2,(joined_split (joined_lt yFits qFits')).2] at lower upper
    have tail := congrArg (· % 2 ^ mb) lower
    have head := congrArg (· / 2 ^ mb) lower
    simp only [(joined_split qFits).1,(joined_split qFits').1,(joined_split qFits).2,(joined_split qFits').2] at tail head
    rw [upper,head,tail]

end

/-! ### Runs of items -/

/-- How an item is read back. -/
inductive Format where
  | uint (bits : Nat)
  | float (exponent_bits mantissa_bits : Nat)
  | string
  deriving DecidableEq, Repr

/-- What is packed: a number, the bit pattern of a float, or a string without its terminator. -/
inductive Item where
  | uint (value : UInt32) (bits : Nat)
  | float (pattern : UInt32) (exponent_bits mantissa_bits : Nat)
  | string (bytes : List UInt8)
  deriving DecidableEq, Repr

/-- What is unpacked: a number, the bit pattern of a float, or the memory of a string. -/
inductive Value where
  | uint (value : Nat)
  | float (pattern : Nat)
  | string (memory : List UInt8)
  deriving DecidableEq, Repr

def Item.format : Item → Format
  | .uint _ bits => .uint bits
  | .float _ exponent_bits mantissa_bits => .float exponent_bits mantissa_bits
  | .string _ => .string

/-- The items that can be packed without loss of more than mantissa bits. -/
def Item.Valid : Item → Prop
  | .uint _ bits => 1 ≤ bits ∧ bits ≤ 32
  | .float pattern exponent_bits mantissa_bits => (2 ≤ exponent_bits ∧ exponent_bits ≤ 8) ∧
      (1 ≤ mantissa_bits ∧ mantissa_bits ≤ 23) ∧ FloatFits pattern.toNat exponent_bits
  | .string bytes => 0 ∉ bytes

/-- The bits that an item takes. -/
def Item.bits : Item → Nat
  | .uint _ bits => bits
  | .float _ exponent_bits mantissa_bits => 1 + exponent_bits + mantissa_bits
  | .string bytes => 8 * (bytes.length + 1)

/-- What unpacking should give for an item. -/
def Item.unpacked : Item → Value
  | .uint value bits => .uint (value.toNat % 2 ^ bits)
  | .float pattern _ mantissa_bits => .float (truncated pattern.toNat mantissa_bits)
  | .string bytes => .string (bytes ++ [0])

/-- The fields of an item: its value, its narrowed pattern, or its bytes and a zero. -/
def Item.fields : Item → List (Nat × Nat)
  | .uint value bits => [(bits,value.toNat)]
  | .float pattern exponent_bits mantissa_bits =>
    [(1 + exponent_bits + mantissa_bits,narrowed pattern.toNat exponent_bits mantissa_bits)]
  | .string bytes => string_fields bytes

def pack_item (p : BitPacker) : Item → Except Stop BitPacker
  | .uint value bits => bitpack_uint32 p value.toNat bits
  | .float pattern exponent_bits mantissa_bits => bitpack_float p pattern.toNat exponent_bits mantissa_bits
  | .string bytes => bitpack_string p (bytes ++ [0])

def unpack_item (p : BitPacker) : Format → Except Stop (Value × BitPacker)
  | .uint bits => do
    let (value,p) ← bitunpack_uint32 p bits
    .ok (.uint value,p)
  | .float exponent_bits mantissa_bits => do
    let (pattern,p) ← bitunpack_float p exponent_bits mantissa_bits
    .ok (.float pattern,p)
  | .string => do
    let (memory,p) ← bitunpack_string p
    .ok (.string memory,p)

/-- Packs items in order; the result has the packing position after each. -/
def pack_items (p : BitPacker) : List Item → Except Stop (List Nat × BitPacker)
  | [] => .ok ([],p)
  | item :: rest => do
    let p ← pack_item p item
    let (positions,last) ← pack_items p rest
    .ok (p.bit_i :: positions,last)

/-- Unpacks items in order; the result has the position after each. -/
def unpack_items (p : BitPacker) : List Format → Except Stop (List (Value × Nat))
  | [] => .ok []
  | format :: rest => do
    let (value,p) ← unpack_item p format
    let values ← unpack_items p rest
    .ok ((value,p.bit_i) :: values)

/-- Packing items from bit 0 of a buffer and unpacking them from there gives
    each number modulo its width, each float without its low mantissa bits and
    each string, at the positions at which they were packed. -/
def RoundTrip (buf : List UInt8) (items : List Item) : Prop :=
  ∃ positions p, pack_items (bitpack_init buf buf.length) items = .ok (positions,p) ∧
    unpack_items { p with bit_i := 0 } (items.map Item.format) = .ok ((items.map Item.unpacked).zip positions)

/-- The bits of the items one behind the other. -/
def packed_bits (items : List Item) : Nat → Bool := stream (items.flatMap Item.fields)

/-- The positions after each of the items from `pos` on. -/
def positions_from (pos : Nat) : List Item → List Nat
  | [] => []
  | item :: rest => (pos + item.bits) :: positions_from (pos + item.bits) rest

private theorem fields_width (item : Item) : width item.fields = item.bits := by
  cases item with
  | uint value bits => simp [Item.fields,Item.bits,width]
  | float pattern eb mb => simp [Item.fields,Item.bits,width]
  | string bytes => exact string_fields_width bytes

private theorem items_width (items : List Item) : width (items.flatMap Item.fields) = (items.map Item.bits).sum := by
  induction items with
  | nil => rfl
  | cons item rest ih => rw [List.flatMap_cons,width_append,fields_width,ih,List.map_cons,List.sum_cons]

private theorem pack_item_total {item : Item} (valid : item.Valid) {s : Nat → Bool} {p : BitPacker}
    (packing : Packing s p) (roomy : p.bit_i + item.bits ≤ 8 * p.size) (held : HasFields s p.bit_i item.fields) :
    ∃ p', pack_item p item = .ok p' ∧ Packing s p' ∧ p'.size = p.size ∧ p'.bit_i = p.bit_i + item.bits := by
  cases item with
  | uint value bits => exact bitpack_uint32_total packing valid.1 valid.2 roomy held.1
  | float pattern eb mb =>
    obtain ⟨exponents,mantissas,fits⟩ := valid
    rw [pack_item,bitpack_float,if_neg (by omega),if_neg (by omega),
      pack_float_bits_eq pattern.toNat_lt exponents mantissas fits]
    exact bitpack_uint32_total packing (w := 1 + eb + mb) (by omega) (by omega) roomy held.1
  | string bytes => exact bitpack_string_total valid packing roomy held

/-- An item is read back exactly when the buffer holds its fields. -/
private theorem unpack_item_iff {item : Item} (valid : item.Valid) {p : BitPacker} (whole : p.buf.length = p.size)
    (roomy : p.bit_i + item.bits ≤ 8 * p.size) :
    unpack_item p item.format = .ok (item.unpacked,{ p with bit_i := p.bit_i + item.bits }) ↔
      HasFields p.bits p.bit_i item.fields := by
  cases item with
  | uint value bits =>
    obtain ⟨r,run,_,fields⟩ := bitunpack_uint32_total whole valid.1 valid.2 roomy
    simp [Item.format,unpack_item,run,bind,Except.bind,Item.unpacked,Item.bits,Item.fields,HasFields,fields]
  | float pattern eb mb =>
    obtain ⟨exponents,mantissas,fits⟩ := valid
    obtain ⟨r,run,small,fields⟩ := bitunpack_uint32_total whole (w := 1 + eb + mb) (by omega) (by omega) roomy
    have narrow := Nat.mod_eq_of_lt (narrowed_lt pattern.toNat_lt mantissas fits)
    have read : bitunpack_float p eb mb =
        .ok (unpack_float_bits r eb mb,{ p with bit_i := p.bit_i + (1 + eb + mb) }) := by
      rw [bitunpack_float,if_neg (by omega),if_neg (by omega),run]
      rfl
    simp [Item.format,unpack_item,read,bind,Except.bind,Item.unpacked,Item.bits,Item.fields,HasFields,fields,narrow,
      unpack_float_bits_iff exponents mantissas fits small]
  | string bytes =>
    rw [Item.fields,← bitunpack_string_iff valid whole roomy]
    cases run : bitunpack_string p with
    | error stop => simp [Item.format,unpack_item,run,bind,Except.bind]
    | ok result => simp [Item.format,unpack_item,run,bind,Except.bind,Item.unpacked,Item.bits,Prod.ext_iff]

/-- Unpacking moves nothing but the position. -/
private theorem unpack_item_frame {format : Format} {p p' : BitPacker} {value : Value}
    (whole : p.buf.length = p.size) (run : unpack_item p format = .ok (value,p')) :
    p' = { p with bit_i := p'.bit_i } := by
  cases format with
  | uint bits =>
    cases read : bitunpack_uint32 p bits with
    | error stop => simp [unpack_item,read,bind,Except.bind] at run
    | ok result =>
      simp only [unpack_item,read,bind,Except.bind,Except.ok.injEq,Prod.mk.injEq] at run
      exact run.2 ▸ bitunpack_uint32_frame whole read
  | float eb mb =>
    cases read : bitunpack_uint32 p (1 + eb + mb) with
    | error stop =>
      simp only [unpack_item,bitunpack_float,read,bind,Except.bind] at run
      split_ifs at run
    | ok result =>
      simp only [unpack_item,bitunpack_float,read,bind,Except.bind] at run
      split_ifs at run
      cases run
      exact bitunpack_uint32_frame whole read
  | string =>
    cases scanned : unpack_scan (8 * p.size + 1) p 0 with
    | error stop => simp [unpack_item,bitunpack_string,scanned,bind,Except.bind] at run
    | ok len =>
      cases copied : unpack_copy (len + 1) (8 * p.size + 1) p [] with
      | error stop => simp [unpack_item,bitunpack_string,scanned,copied,bind,Except.bind] at run
      | ok result =>
        simp only [unpack_item,bitunpack_string,scanned,copied,bind,Except.bind,Except.ok.injEq,Prod.mk.injEq] at run
        exact run.2 ▸ (copied_fields whole copied).1

private theorem pack_items_total {s : Nat → Bool} {items : List Item} (valid : ∀ item ∈ items, item.Valid) :
    ∀ {p : BitPacker}, Packing s p → p.bit_i + (items.map Item.bits).sum ≤ 8 * p.size →
      HasFields s p.bit_i (items.flatMap Item.fields) →
      ∃ last, pack_items p items = .ok (positions_from p.bit_i items,last) ∧ Packing s last ∧ last.size = p.size ∧
        last.bit_i = p.bit_i + (items.map Item.bits).sum := by
  induction items with
  | nil => intro p packing _ _; exact ⟨p,rfl,packing,rfl,rfl⟩
  | cons item rest ih =>
    intro p packing roomy held
    rw [List.flatMap_cons,fields_append,fields_width] at held
    simp only [List.map_cons,List.sum_cons] at roomy ⊢
    obtain ⟨q,run,packing,size,position⟩ := pack_item_total (valid item List.mem_cons_self) packing (by omega) held.1
    obtain ⟨last,run',packing',size',position'⟩ := ih (fun i member => valid i (List.mem_cons_of_mem _ member)) packing
      (by omega) (position ▸ held.2)
    refine ⟨last,?_,packing',by omega,by omega⟩
    simp only [pack_items,run,run',bind,Except.bind,positions_from,position]

/-- Items are read back exactly when the buffer holds their fields. -/
private theorem unpack_items_iff {items : List Item} (valid : ∀ item ∈ items, item.Valid) :
    ∀ {p : BitPacker}, p.buf.length = p.size → p.bit_i + (items.map Item.bits).sum ≤ 8 * p.size →
      (unpack_items p (items.map Item.format) =
        .ok ((items.map Item.unpacked).zip (positions_from p.bit_i items)) ↔
      HasFields p.bits p.bit_i (items.flatMap Item.fields)) := by
  induction items with
  | nil => intro p _ _; simp [unpack_items,HasFields]
  | cons item rest ih =>
    intro p whole roomy
    simp only [List.map_cons,List.sum_cons] at roomy
    have itemValid := valid item List.mem_cons_self
    have first := unpack_item_iff itemValid whole (by omega)
    have later := ih (fun i member => valid i (List.mem_cons_of_mem _ member))
      (p := { p with bit_i := p.bit_i + item.bits }) whole (by simp only; omega)
    rw [List.flatMap_cons,fields_append,fields_width,← first]
    simp only [List.map_cons,unpack_items,positions_from,List.zip_cons_cons]
    constructor
    · intro run
      cases read : unpack_item p item.format with
      | error stop => rw [read] at run; cases run
      | ok result =>
        obtain ⟨value,q⟩ := result
        have frame := unpack_item_frame whole read
        simp only [read,bind,Except.bind] at run
        cases tail : unpack_items q (rest.map Item.format) with
        | error stop => rw [tail] at run; cases run
        | ok values =>
          simp only [tail,Except.ok.injEq,List.cons.injEq,Prod.mk.injEq] at run
          obtain ⟨⟨valueIs,position⟩,valuesAre⟩ := run
          rw [position] at frame
          refine ⟨by rw [valueIs,frame],later.mp ?_⟩
          rw [← frame,tail,valuesAre,position]
    · rintro ⟨read,held⟩
      simp only [read,bind,Except.bind,later.mpr held]

/-- Items that fit are packed, and then read back exactly when the ring of the
    byte offsets lets their bits stand. -/
private theorem items_round {buf : List UInt8} {items : List Item} (valid : ∀ item ∈ items, item.Valid)
    (fits : (items.map Item.bits).sum ≤ 8 * buf.length) :
    ∃ p, pack_items (bitpack_init buf buf.length) items = .ok (positions_from 0 items,p) ∧
      (unpack_items { p with bit_i := 0 } (items.map Item.format) =
          .ok ((items.map Item.unpacked).zip (positions_from 0 items)) ↔
        Repeats (2 ^ 32) (packed_bits items) (items.map Item.bits).sum) := by
  have own : HasFields (packed_bits items) 0 (items.flatMap Item.fields) := by
    rw [fields_iff_stream]
    intro k _
    rw [Nat.zero_add,packed_bits]
  obtain ⟨p,run,packing,size,position⟩ := pack_items_total valid (packing_init (packed_bits items) buf)
    (by simp only [bitpack_init]; omega) own
  simp only [bitpack_init,Nat.zero_add] at run size position
  refine ⟨p,run,?_⟩
  have held := packing.held
  rw [position] at held
  rw [← holds_iff_repeats (by decide) held,
    unpack_items_iff (p := { p with bit_i := 0 }) valid packing.whole (by simp only; omega),fields_iff_stream,items_width]
  simp only [Nat.zero_add]
  rfl

/-- Items that fit the buffer come back exactly when bytes of the packed bits
    that are a multiple of 4 GiB apart are equal, a last part of a byte filled
    up with zeros. -/
theorem unpack_pack (buf : List UInt8) (items : List Item) (valid : ∀ item ∈ items, item.Valid)
    (fits : (items.map Item.bits).sum ≤ 8 * buf.length) :
    RoundTrip buf items ↔ Repeats (2 ^ 32) (packed_bits items) (items.map Item.bits).sum := by
  obtain ⟨p,run,unpacked⟩ := items_round valid fits
  rw [← unpacked]
  constructor
  · rintro ⟨positions,q,run',read⟩
    rw [run] at run'
    cases run'
    exact read
  · intro read
    exact ⟨_,p,run,read⟩

/-- A number, π as a float of 16 bits and a string in a buffer of ones. -/
theorem unpack_pack_mixed :
    (∀ item ∈ [Item.uint 5 3,.float 0x40490fdb 5 10,.string [0x61]], item.Valid) ∧
    RoundTrip [0xff,0xff,0xff,0xff,0xff] [.uint 5 3,.float 0x40490fdb 5 10,.string [0x61]] := by
  have valid : ∀ item ∈ [Item.uint 5 3,.float 0x40490fdb 5 10,.string [0x61]], item.Valid := by
    simp only [List.mem_cons,List.not_mem_nil,or_false,forall_eq_or_imp,forall_eq,Item.Valid,FloatFits]
    decide
  exact ⟨valid,(unpack_pack _ _ valid (by decide)).mpr (repeats_of_le _ (by decide))⟩

/-- The byte behind 4 GiB is packed into the first one. -/
theorem unpack_pack_wraps :
    (∀ item ∈ List.replicate (2 ^ 32) (Item.uint 0 8) ++ [Item.uint 1 8], item.Valid) ∧
    ((List.replicate (2 ^ 32) (Item.uint 0 8) ++ [Item.uint 1 8]).map Item.bits).sum =
      8 * (List.replicate (2 ^ 32 + 1) (0 : UInt8)).length ∧
    ¬ RoundTrip (List.replicate (2 ^ 32 + 1) 0) (List.replicate (2 ^ 32) (.uint 0 8) ++ [Item.uint 1 8]) := by
  generalize many : (2 : Nat) ^ 32 = n
  have valid : ∀ item ∈ List.replicate n (Item.uint 0 8) ++ [Item.uint 1 8], item.Valid := by
    intro item member
    simp only [List.mem_append,List.mem_replicate,List.mem_singleton] at member
    obtain ⟨_,rfl⟩ | rfl := member
    · exact ⟨by decide,by decide⟩
    · exact ⟨by decide,by decide⟩
  have total : ((List.replicate n (Item.uint 0 8) ++ [Item.uint 1 8]).map Item.bits).sum = 8 * (n + 1) := by
    simp [Item.bits]
    omega
  refine ⟨valid,by rw [total,List.length_replicate],?_⟩
  rintro ⟨positions,q,run',read⟩
  obtain ⟨p,run,unpacked⟩ := items_round valid
    (show _ ≤ 8 * (List.replicate (n + 1) (0 : UInt8)).length by rw [total,List.length_replicate])
  rw [run] at run'
  cases run'
  have zeros : ∀ m, (List.replicate m (Item.uint 0 8)).flatMap Item.fields = List.replicate m (8,0) := by
    intro m
    induction m with
    | zero => rfl
    | succ m ih =>
      rw [List.replicate_succ,List.flatMap_cons,ih]
      rfl
  have front : width (List.replicate n (8,0)) = 8 * n := by simp [width,Nat.mul_comm]
  have bits : ∀ k, packed_bits (List.replicate n (Item.uint 0 8) ++ [Item.uint 1 8]) k =
      if k < 8 * n then stream (List.replicate n (8,0)) k else stream [(8,1)] (k - 8 * n) := by
    intro k
    rw [packed_bits,List.flatMap_append,zeros,stream_append,front]
    rfl
  have first : stream (List.replicate n (8,0)) 0 = false := by
    obtain ⟨m,rfl⟩ : ∃ m, n = m + 1 := ⟨n - 1,by omega⟩
    rw [List.replicate_succ,stream,if_pos (by decide),Nat.zero_testBit]
  have repeated := unpacked.mp read 0 (by rw [total,many]; simp only [roundUp]; omega)
  rw [total,many,bits,bits,if_pos (by omega),if_neg (by omega),first,Nat.zero_add,Nat.sub_self] at repeated
  simp [stream] at repeated

end Htools.Bitpack
