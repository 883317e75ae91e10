import Mathlib.Data.Nat.Bitwise
import Mathlib.Tactic.Common

/-!
# Bit fields in byte buffers

The bits of a buffer are numbered from the least significant bit of its first
byte. A field of a given width at a given bit holds the low bits of a number;
fields can be split at any bit, and reading one back gives the number modulo
the width. A writer that fills a buffer bit by bit may address it as a ring of
bytes: `Holds` says what the buffer then has of the stream that was written,
and `holds_iff_repeats` when that is the whole stream.
-/
namespace Htools.BitFields

/-- The `w` bits from `pos` on are the low bits of `v`. -/
def HasField (bits : Nat → Bool) (pos w v : Nat) : Prop := ∀ k < w, bits (pos + k) = v.testBit k

/-- Fields one behind the other, given by width and value. -/
def HasFields (bits : Nat → Bool) : Nat → List (Nat × Nat) → Prop
  | _, [] => True
  | pos, (w,v) :: rest => HasField bits pos w v ∧ HasFields bits (pos + w) rest

/-- The bits that fields take. -/
def width (fields : List (Nat × Nat)) : Nat := (fields.map Prod.fst).sum

/-- The bits of fields one behind the other, false behind the last. -/
def stream : List (Nat × Nat) → Nat → Bool
  | [], _ => false
  | (w,v) :: rest, k => if k < w then v.testBit k else stream rest (k - w)

theorem width_cons (w v : Nat) (rest : List (Nat × Nat)) : width ((w,v) :: rest) = w + width rest := by
  simp [width]

theorem width_append (a b : List (Nat × Nat)) : width (a ++ b) = width a + width b := by
  simp [width]

theorem stream_append (a b : List (Nat × Nat)) (k : Nat) :
    stream (a ++ b) k = if k < width a then stream a k else stream b (k - width a) := by
  induction a generalizing k with
  | nil => simp [width]
  | cons field rest ih =>
    obtain ⟨w,v⟩ := field
    rw [List.cons_append,width_cons,stream,stream,ih]
    by_cases first : k < w
    · rw [if_pos first,if_pos (by omega),if_pos first]
    · rw [if_neg first,if_neg first,Nat.sub_sub]
      by_cases inside : k < w + width rest
      · rw [if_pos (by omega),if_pos inside]
      · rw [if_neg (by omega),if_neg inside]

theorem fields_append {bits : Nat → Bool} {a b : List (Nat × Nat)} :
    ∀ {pos}, HasFields bits pos (a ++ b) ↔ HasFields bits pos a ∧ HasFields bits (pos + width a) b := by
  induction a with
  | nil => intro pos; simp [HasFields,width]
  | cons field rest ih =>
    obtain ⟨w,v⟩ := field
    intro pos
    rw [List.cons_append,width_cons]
    simp only [HasFields,ih,and_assoc,Nat.add_assoc]

/-- Fields are held where the bits are those of their stream. -/
theorem fields_iff_stream {bits : Nat → Bool} {fields : List (Nat × Nat)} :
    ∀ {pos}, HasFields bits pos fields ↔ ∀ k < width fields, bits (pos + k) = stream fields k := by
  induction fields with
  | nil => intro pos; simp [HasFields,width]
  | cons field rest ih =>
    obtain ⟨w,v⟩ := field
    intro pos
    rw [HasFields,ih,width_cons]
    constructor
    · rintro ⟨first,later⟩ k inside
      rw [stream]
      by_cases lt : k < w
      · rw [if_pos lt]
        exact first k lt
      · rw [if_neg lt,← later (k - w) (by omega)]
        congr 1
        omega
    · intro same
      refine ⟨?_,?_⟩
      · intro k lt
        rw [same k (by omega),stream,if_pos lt]
      · intro k lt
        rw [Nat.add_assoc,same (w + k) (by omega),stream,if_neg (by omega),Nat.add_sub_cancel_left]

/-- A field is one of fewer bits followed by the rest. -/
theorem field_split {bits : Nat → Bool} {pos a b v : Nat} :
    HasField bits pos (a + b) v ↔ HasField bits pos a v ∧ HasField bits (pos + a) b (v >>> a) := by
  constructor
  · intro field
    refine ⟨fun k lt => field k (by omega),?_⟩
    intro k lt
    rw [Nat.testBit_shiftRight,Nat.add_assoc]
    exact field (a + k) (by omega)
  · rintro ⟨low,high⟩ k inside
    by_cases lowBit : k < a
    · exact low k lowBit
    · have bits := high (k - a) (by omega)
      rw [Nat.testBit_shiftRight] at bits
      rw [show pos + k = pos + a + (k - a) by omega,bits]
      congr 1
      omega

/-- A number with the bits of a field, and no others, is the field's value. -/
theorem field_iff_value {bits : Nat → Bool} {pos w v r : Nat}
    (read : ∀ j, r.testBit j = (decide (j < w) && bits (pos + j))) : HasField bits pos w v ↔ r = v % 2 ^ w := by
  constructor
  · intro field
    apply Nat.eq_of_testBit_eq
    intro j
    rw [read,Nat.testBit_mod_two_pow]
    by_cases inside : j < w
    · simp [inside,field j inside]
    · simp [inside]
  · intro value j inside
    have bitIs := read j
    rw [value,Nat.testBit_mod_two_pow] at bitIs
    simpa [inside] using bitIs.symm

/-- Joining bit fields is adding them. -/
theorem join_bits (k : Nat) {a b : Nat} (fits : b < 2 ^ k) : a <<< k ||| b = a * 2 ^ k + b := by
  rw [← Nat.shiftLeft_add_eq_or_of_lt fits,Nat.shiftLeft_eq]

theorem low_bits (k b : Nat) : (2 ^ k - 1) &&& b = b % 2 ^ k := by
  rw [Nat.and_comm,Nat.and_two_pow_sub_one_eq_mod]

/-- The `w` bits from `k` on, where they stand. -/
theorem mid_bits (k w b : Nat) : (2 ^ w - 1) <<< k &&& b = b / 2 ^ k % 2 ^ w * 2 ^ k := by
  apply Nat.eq_of_testBit_eq
  intro j
  rw [Nat.testBit_and,Nat.testBit_shiftLeft,Nat.testBit_two_pow_sub_one,Nat.testBit_mul_two_pow,Nat.testBit_mod_two_pow,
    Nat.testBit_div_two_pow]
  by_cases above : k ≤ j
  · simp [above]
  · simp [above]

/-! ### Rings of bytes -/

/-- Bit `k` of a stream in a buffer that is addressed as a ring of `m` bytes. -/
def ringBit (m : Nat) (buf : List UInt8) (k : Nat) : Bool := (buf.getD (k / 8 % m) 0).toNat.testBit (k % 8)

/-- A bit position rounded up to a whole byte. -/
def roundUp (n : Nat) : Nat := (n + 7) / 8 * 8

/-- The bytes that the first `n` bits of `s` have entered hold them, followed by
    zero bits, as far as they are not overwritten. -/
def Holds (m : Nat) (s : Nat → Bool) (n : Nat) (buf : List UInt8) : Prop :=
  ∀ k, k < roundUp n → roundUp n ≤ k + 8 * m → ringBit m buf k = (decide (k < n) && s k)

/-- Where the first `n` bits of `s` come to the same byte, they have the same
    bits, and zeros where the last byte is not full. -/
def Repeats (m : Nat) (s : Nat → Bool) (n : Nat) : Prop :=
  ∀ k, k + 8 * m < roundUp n → s k = (decide (k + 8 * m < n) && s (k + 8 * m))

theorem ringBit_set {m : Nat} {buf : List UInt8} {ofs k : Nat} (b : UInt8) (inside : ofs < buf.length) :
    ringBit m (buf.set ofs b) k = if k / 8 % m = ofs then b.toNat.testBit (k % 8) else ringBit m buf k := by
  simp only [ringBit,List.getD_eq_getElem?_getD,List.getElem?_set]
  by_cases here : k / 8 % m = ofs
  · subst here
    simp [inside]
  · simp [here,Ne.symm here]

theorem ringBit_next (m : Nat) (buf : List UInt8) (k : Nat) : ringBit m buf (k + 8 * m) = ringBit m buf k := by
  rw [ringBit,ringBit,Nat.add_mul_div_left _ _ (by decide),Nat.add_mod_right,Nat.add_mul_mod_self_left]

/-- A byte of the ring, by the bits of the stream. -/
theorem ringBit_getD {m : Nat} {buf : List UInt8} {pos j : Nat} (inside : pos % 8 + j < 8) :
    (buf.getD (pos / 8 % m) 0).toNat.testBit (pos % 8 + j) = ringBit m buf (pos + j) := by
  rw [ringBit,show (pos + j) / 8 = pos / 8 by omega,show (pos + j) % 8 = pos % 8 + j by omega]

theorem holds_init (m : Nat) (s : Nat → Bool) (buf : List UInt8) : Holds m s 0 buf := by
  intro k below
  exact absurd below (Nat.not_lt_zero k)

theorem repeats_of_le {m n : Nat} (s : Nat → Bool) (fits : n ≤ 8 * m) : Repeats m s n := by
  intro k below
  simp only [roundUp] at below
  omega

/-- The whole stream can be read back from a ring exactly when it repeats. -/
theorem holds_iff_repeats {m : Nat} (positive : 0 < m) {s : Nat → Bool} {n : Nat} {buf : List UInt8}
    (held : Holds m s n buf) : (∀ k < n, ringBit m buf k = s k) ↔ Repeats m s n := by
  constructor
  · intro whole k below
    simp only [roundUp] at below
    rw [← whole k (by omega),← ringBit_next]
    by_cases inside : k + 8 * m < n
    · simp [whole _ inside,inside]
    · rw [held (k + 8 * m) below (by simp only [roundUp]; omega)]
  · intro repeated
    -- By induction on what is left of the stream behind bit `k`.
    suffices ∀ left k, n - k ≤ left → k < n → ringBit m buf k = s k from fun k => this (n - k) k le_rfl
    intro left
    induction left with
    | zero => intro k none below; omega
    | succ left ih =>
      intro k enough below
      by_cases last : roundUp n ≤ k + 8 * m
      · rw [held k (by simp only [roundUp]; omega) last]
        simp [below]
      · rw [repeated k (by omega),← ringBit_next]
        by_cases inside : k + 8 * m < n
        · rw [ih (k + 8 * m) (by omega) inside]
          simp [inside]
        · rw [held (k + 8 * m) (by omega) (by simp only [roundUp]; omega)]

/-- Bytes of a ring that are less than a round apart are different. -/
private theorem ring_injective {m x y : Nat} (le : x ≤ y) (near : y < x + m) (same : x % m = y % m) : x = y := by
  have zero := Nat.sub_mod_eq_zero_of_mod_eq same.symm
  rw [Nat.mod_eq_of_lt (by omega)] at zero
  omega

/-- A byte with `avail` bits of `v` added from bit `shift` on. -/
def orInto (old : UInt8) (shift avail v : Nat) : UInt8 :=
  UInt8.ofNat (old.toNat ||| (((1 <<< avail) - 1) &&& v) <<< shift)

theorem orInto_bit (old : UInt8) {shift avail v j : Nat} (inside : j < 8) :
    (orInto old shift avail v).toNat.testBit j =
      (old.toNat.testBit j || (decide (shift ≤ j ∧ j < shift + avail) && v.testBit (j - shift))) := by
  rw [orInto,UInt8.toNat_ofNat',Nat.testBit_mod_two_pow,Nat.testBit_or,Nat.testBit_shiftLeft,Nat.testBit_and,
    Nat.one_shiftLeft,Nat.testBit_two_pow_sub_one]
  by_cases above : shift ≤ j
  · have same : (j - shift < avail) = (j < shift + avail) := by apply propext; omega
    simp [inside,above,same]
  · simp [inside,above]

/-- Writing the next bits of a stream, up to the end of a byte, which is cleared
    when it is entered. -/
theorem holds_orInto {m : Nat} {s : Nat → Bool} {n : Nat} {buf : List UInt8} (held : Holds m s n buf)
    (inside : n / 8 % m < buf.length) {avail v : Nat} (positive : 0 < avail) (fits : n % 8 + avail ≤ 8)
    (value : HasField s n avail v) :
    Holds m s (n + avail) (buf.set (n / 8 % m)
      (orInto (if 0 = n % 8 then 0 else buf.getD (n / 8 % m) 0) (n % 8) avail v)) := by
  intro k below recent
  simp only [roundUp] at below recent
  rw [ringBit_set _ inside]
  by_cases here : k / 8 = n / 8
  · have old : (if 0 = n % 8 then 0 else buf.getD (n / 8 % m) 0).toNat.testBit (k % 8) = (decide (k < n) && s k) := by
      by_cases fresh : 0 = n % 8
      · simp [if_pos fresh,show ¬ k < n by omega]
      · rw [if_neg fresh,← here]
        exact held k (by simp only [roundUp]; omega) (by simp only [roundUp]; omega)
    rw [if_pos (by rw [here]),orInto_bit _ (Nat.mod_lt _ (by decide)),old]
    by_cases before : k < n
    · simp [before,show k < n + avail by omega,show ¬ n % 8 ≤ k % 8 by omega]
    · by_cases written : k < n + avail
      · have bitIs := value (k - n) (by omega)
        rw [show n + (k - n) = k by omega] at bitIs
        simp [before,written,bitIs,show n % 8 ≤ k % 8 ∧ k % 8 < n % 8 + avail by omega,
          show k % 8 - n % 8 = k - n by omega]
      · simp [before,written,show ¬ k % 8 < n % 8 + avail by omega]
  · have other : ¬ k / 8 % m = n / 8 % m := fun same => here (ring_injective (by omega) (by omega) same)
    rw [if_neg other,held k (by simp only [roundUp]; omega) (by simp only [roundUp]; omega)]
    simp [show k < n by omega,show k < n + avail by omega]

end Htools.BitFields
