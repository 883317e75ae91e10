import Htools.ConfigMade
import Htools.LexerPartition
import Mathlib.Data.Rat.Floor
import Mathlib.Algebra.Order.Floor.Semifield
import Mathlib.Tactic.FieldSimp
import Mathlib.Tactic.NormNum
import Mathlib.Tactic.Positivity

/-!
The two numbers of a value. `config_sets` reads the text twice, as an integer and as
a floating point number; `strtol` stops before an exponent, so that the integer is
that of the other number only where the exponent does not move digits over the point
(`geti32_getd_iff`).
-/
namespace Htools.ConfigFile
open Htools.Lexing Htools.CString

/-! ### Exact numbers -/

/-- What `strtod` reads, without hexadecimal numbers, infinities and NaNs. -/
structure Decimal where
  negative : Bool
  whole : List Int8
  fraction : List Int8
  exponent : Int
  deriving DecidableEq, Repr

/-- The exponent that a text begins with; 0 where there is none. -/
def exponent_of (text : List Int8) : Int :=
  let letter := (text.headD 0).toInt
  let sign := ((text.drop 1).headD 0).toInt
  let digits := if chr '-' = sign ∨ chr '+' = sign then text.drop 2 else text.drop 1
  if chr 'e' = letter ∨ chr 'E' = letter then
    if chr '-' = sign then -(digits_value 10 0 digits : Int) else (digits_value 10 0 digits : Int)
  else 0

/-- The digits behind a point, and what comes after them. -/
def fraction_of (text : List Int8) : List Int8 × List Int8 :=
  if chr '.' = (text.headD 0).toInt then (text.drop 1).span fun c => isdigit c.toInt else ([],text)

def decimal_of (text : List Int8) : Decimal :=
  let text := text.dropWhile fun c => isspace c.toInt
  let sign := (text.headD 0).toInt
  let text := if chr '-' = sign ∨ chr '+' = sign then text.drop 1 else text
  let (whole,text) := text.span fun c => isdigit c.toInt
  let (fraction,text) := fraction_of text
  { negative := chr '-' = sign, whole := whole, fraction := fraction, exponent := exponent_of text }

def Decimal.value (n : Decimal) : ℚ :=
  (if n.negative then -1 else 1) * digits_value 10 0 (n.whole ++ n.fraction) * 10 ^ (n.exponent - n.fraction.length)

def strtod (text : List Int8) : ℚ := (decimal_of text).value

/-- Numbers without rounding and without a bound. -/
def exact : Doubles ℚ where
  strtod := strtod
  of_int32 a_i32 := a_i32.toInt

/-- A number without its fraction. -/
def trunc (d : ℚ) : Int := if 0 ≤ d then ⌊d⌋ else ⌈d⌉

/-- The number that the digits before the point write. -/
def Decimal.integer (n : Decimal) : Nat := digits_value 10 0 n.whole

/-- The exponent does not change the integer: there is none, or it moves only zeros over
    the point, or what is left of the digits has the same remainder, as far as `strtol`
    has them all. -/
def Decimal.Unmoved (n : Decimal) : Prop :=
  n.exponent = 0 ∨
    (0 < n.exponent ∧ ∀ c ∈ n.whole ++ n.fraction.take n.exponent.toNat, c = 48) ∨
    (n.exponent < 0 ∧ n.integer < 2 ^ 63 ∧ n.integer % 2 ^ 32 = n.integer / 10 ^ n.exponent.natAbs % 2 ^ 32) ∨
    (n.exponent < 0 ∧ 2 ^ 63 ≤ n.integer ∧ n.negative = true ∧ n.integer < 10 ^ n.exponent.natAbs)

/-! ### Digits -/

section
variable {w v : List Int8}

theorem digit_value_lt (c : Int) : digit_value c < 10 ↔ isdigit c = true := by
  refine ⟨fun less => ?_,digit_inside⟩
  rw [digit_value] at less
  split at less
  · assumption
  split at less
  · omega
  split at less
  · omega
  · omega

/-- The digits end with the first character that is none. -/
theorem digits_value_run (text : List Int8) : ∀ value,
    digits_value 10 value text = digits_value 10 value (text.takeWhile fun c => isdigit c.toInt) := by
  induction text with
  | nil => exact fun value => rfl
  | cons c rest ih =>
    intro value
    by_cases digit : isdigit c.toInt = true
    · rw [List.takeWhile_cons_of_pos (p := fun c : Int8 => isdigit c.toInt) digit,digits_value,digits_value,ih]
    · rw [List.takeWhile_cons_of_neg (p := fun c : Int8 => isdigit c.toInt) digit,digits_value,digits_value,
        if_neg (mt (digit_value_lt _).mp digit)]

theorem digits_value_append (digits : Digits w) (v : List Int8) : ∀ value,
    digits_value 10 value (w ++ v) = digits_value 10 (digits_value 10 value w) v := by
  induction w with
  | nil => exact fun value => rfl
  | cons c w ih =>
    intro value
    have inside := digit_inside (digits c List.mem_cons_self)
    rw [List.cons_append,digits_value,digits_value,if_pos inside,if_pos inside]
    exact ih (fun d there => digits d (List.mem_cons_of_mem _ there)) _

/-- What comes before digits stands in their place. -/
theorem digits_value_shift (digits : Digits w) : ∀ value,
    digits_value 10 value w = value * 10 ^ w.length + digits_value 10 0 w := by
  induction w with
  | nil => simp [digits_value]
  | cons c w ih =>
    intro value
    have inside := digit_inside (digits c List.mem_cons_self)
    have more := ih fun d there => digits d (List.mem_cons_of_mem _ there)
    rw [digits_value,digits_value,if_pos inside,if_pos inside,more (value * 10 + _),more (0 * 10 + _),List.length_cons,pow_succ]
    ring

theorem digits_value_less (digits : Digits w) : digits_value 10 0 w < 10 ^ w.length := by
  induction w with
  | nil => simp [digits_value]
  | cons c w ih =>
    have digit := digits c List.mem_cons_self
    have more := fun d there => digits d (List.mem_cons_of_mem c there)
    have inside := digit_inside digit
    have less := ih more
    rw [digits_value,if_pos inside,digits_value_shift more,List.length_cons,pow_succ]
    have : (0 * 10 + digit_value c.toInt) * 10 ^ w.length ≤ 9 * 10 ^ w.length := Nat.mul_le_mul_right _ (by omega)
    omega

theorem digits_value_zero (digits : Digits w) : digits_value 10 0 w = 0 ↔ ∀ c ∈ w, c = 48 := by
  induction w with
  | nil => simp [digits_value]
  | cons c w ih =>
    have digit := digits c List.mem_cons_self
    have more := fun d there => digits d (List.mem_cons_of_mem c there)
    have inside := digit_inside digit
    have zero : digit_value c.toInt = 0 ↔ c = 48 := by
      rw [digit_value,if_pos digit,← Int8.toInt_inj]
      obtain ⟨low,high⟩ := of_decide_eq_true digit
      rw [show chr '0' = 48 from rfl] at low ⊢
      rw [show (48 : Int8).toInt = 48 from rfl]
      omega
    rw [digits_value,if_pos inside,digits_value_shift more,List.forall_mem_cons,← ih more,← zero]
    have some_ : 0 < 10 ^ w.length := Nat.pow_pos (by decide)
    rw [Nat.add_eq_zero_iff,Nat.mul_eq_zero]
    omega

/-! ### What the two functions read -/

theorem decimal_digits (text : List Int8) : Digits (decimal_of text).whole ∧ Digits (decimal_of text).fraction := by
  have taken : ∀ (text : List Int8), Digits (text.takeWhile fun c => isdigit c.toInt) := fun text c there =>
    List.mem_takeWhile_imp (p := fun c : Int8 => isdigit c.toInt) there
  have behind : ∀ text, Digits (fraction_of text).1 := by
    intro text
    rw [fraction_of]
    split
    · rw [List.span_eq_takeWhile_dropWhile]
      exact taken _
    · exact fun c there => (List.not_mem_nil there).elim
  simp only [decimal_of,List.span_eq_takeWhile_dropWhile]
  exact ⟨taken _,behind _⟩

/-- `strtol` reads the digits before the point. -/
theorem strtol_decimal (text : List Int8) : strtol text 10 =
    if (decimal_of text).negative then max (-2 ^ 63) (-((decimal_of text).integer : Int))
    else min (2 ^ 63 - 1) ((decimal_of text).integer : Int) := by
  simp only [strtol,Decimal.integer,decimal_of,List.span_eq_takeWhile_dropWhile,after_prefix_ten,decide_eq_true_eq]
  rw [digits_value_run]

/-- The number without its fraction and its sign. -/
def Decimal.truncated (n : Decimal) : Nat :=
  if 0 ≤ n.exponent then
    digits_value 10 0 (n.whole ++ n.fraction.take n.exponent.toNat) * 10 ^ (n.exponent.toNat - n.fraction.length)
  else n.integer / 10 ^ n.exponent.natAbs

theorem trunc_ratio (negative : Bool) (a b : Nat) :
    trunc ((if negative then -1 else 1) * ((a : ℚ) / b)) = if negative then -((a / b : Nat) : Int) else (a / b : Nat) := by
  have floor : ⌊(a : ℚ) / b⌋ = ((a / b : Nat) : Int) := (Rat.floor_natCast_div_natCast a b).trans (Int.natCast_div a b).symm
  have positive : (0 : ℚ) ≤ (a : ℚ) / b := by positivity
  cases negative with
  | false => simp [trunc,positive,floor]
  | true =>
    simp only [if_true,neg_one_mul,trunc,Int.ceil_neg,floor]
    split
    · rename_i zero
      have none_ : (a : ℚ) / b = 0 := le_antisymm (neg_nonneg.mp zero) positive
      rw [none_,Int.floor_zero] at floor
      rw [none_,← floor]
      simp
    · rfl

/-- A division drops the digits behind. -/
theorem drop_digits {w v : List Int8} (digits : Digits w) (more : Digits v) (m : Nat) :
    digits_value 10 0 (w ++ v) / 10 ^ (v.length + m) = digits_value 10 0 w / 10 ^ m := by
  rw [pow_add,← Nat.div_div_eq_div_mul,digits_value_append digits,digits_value_shift more,Nat.add_comm,
    Nat.add_mul_div_right _ _ (Nat.pow_pos (by decide)),Nat.div_eq_of_lt (digits_value_less more),Nat.zero_add]

/-- A power of ten brings as many digits over the point. -/
theorem raise_digits {w v : List Int8} (digits : Digits w) (more : Digits v) (k : Nat) :
    digits_value 10 0 (w ++ v) * 10 ^ k / 10 ^ v.length = digits_value 10 0 (w ++ v.take k) * 10 ^ (k - v.length) := by
  by_cases few : v.length ≤ k
  · rw [List.take_of_length_le few]
    obtain ⟨m,rfl⟩ := Nat.exists_eq_add_of_le few
    rw [Nat.add_sub_cancel_left,Nat.add_comm,pow_add,← mul_assoc,Nat.mul_div_cancel _ (Nat.pow_pos (by decide))]
  · have front : Digits (w ++ v.take k) := fun c there =>
      (List.mem_append.mp there).elim (digits c) fun there => more c (List.mem_of_mem_take there)
    have behind : Digits (v.drop k) := fun c there => more c (List.mem_of_mem_drop there)
    have count : (v.drop k).length + k = v.length := by
      rw [List.length_drop]
      omega
    have dropped := drop_digits front behind 0
    rw [List.append_assoc,List.take_append_drop,Nat.add_zero,pow_zero,Nat.div_one] at dropped
    rw [← count,pow_add,Nat.mul_div_mul_right _ _ (Nat.pow_pos (by decide)),dropped,count,
      Nat.sub_eq_zero_of_le (by omega),pow_zero,Nat.mul_one]

theorem trunc_value {n : Decimal} (digits : Digits n.whole) (more : Digits n.fraction) :
    trunc n.value = if n.negative then -(n.truncated : Int) else (n.truncated : Int) := by
  obtain ⟨negative,whole,fraction,e⟩ := n
  simp only at digits more
  rw [Decimal.value,Decimal.truncated]
  simp only
  by_cases up : 0 ≤ e
  · obtain ⟨k,rfl⟩ := Int.eq_ofNat_of_zero_le up
    have scale : (digits_value 10 0 (whole ++ fraction) : ℚ) * 10 ^ ((k : Int) - fraction.length) =
        ((digits_value 10 0 (whole ++ fraction) * 10 ^ k : Nat) : ℚ) / ((10 ^ fraction.length : Nat) : ℚ) := by
      push_cast
      rw [zpow_sub₀ (by norm_num),zpow_natCast,zpow_natCast]
      field_simp
    rw [if_pos up,mul_assoc,scale,trunc_ratio,Int.toNat_natCast,raise_digits digits more]
  · obtain ⟨k,rfl⟩ : ∃ k : Nat, e = -(k : Int) := ⟨e.natAbs,by omega⟩
    have scale : (digits_value 10 0 (whole ++ fraction) : ℚ) * 10 ^ (-(k : Int) - fraction.length) =
        (digits_value 10 0 (whole ++ fraction) : ℚ) / ((10 ^ (fraction.length + k) : Nat) : ℚ) := by
      push_cast
      rw [show -(k : Int) - fraction.length = -((fraction.length + k : Nat) : Int) by push_cast; ring,zpow_neg,zpow_natCast]
      field_simp
    rw [if_neg up,mul_assoc,scale,trunc_ratio,drop_digits digits more,Int.natAbs_neg,Int.natAbs_natCast]
    rfl

theorem truncated_none {n : Decimal} (none_ : n.exponent = 0) : n.truncated = n.integer := by
  rw [Decimal.truncated,if_pos (by omega),none_,Int.toNat_zero,List.take_zero,List.append_nil,Nat.zero_sub,pow_zero,Nat.mul_one]
  rfl

theorem truncated_down {n : Decimal} (down : n.exponent < 0) : n.truncated = n.integer / 10 ^ n.exponent.natAbs :=
  if_neg (by omega)

theorem truncated_up {n : Decimal} (digits : Digits n.whole) (more : Digits n.fraction) (up : 0 < n.exponent) :
    n.integer * 10 ≤ n.truncated ∧ (n.truncated = 0 ↔ ∀ c ∈ n.whole ++ n.fraction.take n.exponent.toNat, c = 48) := by
  obtain ⟨k,is⟩ : ∃ k : Nat, n.exponent.toNat = k + 1 := ⟨n.exponent.toNat - 1,by omega⟩
  have moved : Digits (n.fraction.take (k + 1)) := fun c there => more c (List.mem_of_mem_take there)
  have all : Digits (n.whole ++ n.fraction.take (k + 1)) := fun c there =>
    (List.mem_append.mp there).elim (digits c) (moved c)
  have some_ : 0 < 10 ^ (k + 1 - n.fraction.length) := Nat.pow_pos (by decide)
  rw [Decimal.truncated,if_pos (by omega),is]
  constructor
  · have places : (n.fraction.take (k + 1)).length + (k + 1 - n.fraction.length) = k + 1 := by
      rw [List.length_take]
      omega
    calc n.integer * 10 ≤ n.integer * 10 * 10 ^ k := Nat.le_mul_of_pos_right _ (Nat.pow_pos (by decide))
      _ = n.integer * 10 ^ (n.fraction.take (k + 1)).length * 10 ^ (k + 1 - n.fraction.length) := by
        rw [mul_assoc _ (10 ^ _),← pow_add,places,pow_succ]
        ring
      _ ≤ _ := by
        refine Nat.mul_le_mul_right _ ?_
        rw [digits_value_append digits,digits_value_shift moved]
        exact Nat.le_add_right _ _
  · rw [Nat.mul_eq_zero,or_iff_left (by omega),digits_value_zero all]

theorem int32_same {z t : Int} (low : -2 ^ 31 ≤ t) (high : t < 2 ^ 31) : (Int32.ofInt z).toInt = t ↔ (2 ^ 32 : Int) ∣ z - t := by
  rw [Int32.toInt_ofInt,Int.bmod_def]
  norm_num at *
  split <;> omega

/-- The integer is the truncated number exactly if the exponent leaves the integer as it is. -/
theorem unmoved_iff {n : Decimal} (digits : Digits n.whole) (more : Digits n.fraction) (low : -2 ^ 31 ≤ trunc n.value)
    (high : trunc n.value < 2 ^ 31) :
    (Int32.ofInt (if n.negative then max (-2 ^ 63) (-(n.integer : Int)) else min (2 ^ 63 - 1) (n.integer : Int))).toInt =
      trunc n.value ↔ n.Unmoved := by
  rw [int32_same low high]
  rw [trunc_value digits more] at low high ⊢
  rw [Decimal.Unmoved]
  rcases Int.lt_trichotomy n.exponent 0 with down | none_ | up
  · have zero : n.truncated = 0 ↔ n.integer < 10 ^ n.exponent.natAbs := by
      rw [truncated_down down,Nat.div_eq_zero_iff,or_iff_right (Nat.pow_pos (by decide)).ne']
    rw [← truncated_down down,← zero,or_iff_right (by omega),or_iff_right (by omega),and_iff_right down,and_iff_right down]
    cases n.negative with
    | true =>
      simp only [if_true,true_and] at low high ⊢
      omega
    | false =>
      simp only [Bool.false_eq_true,if_false,false_and,and_false,or_false] at low high ⊢
      omega
  · rw [truncated_none none_] at low high ⊢
    refine iff_of_true ?_ (.inl none_)
    cases n.negative with
    | true =>
      simp only [if_true] at low high ⊢
      omega
    | false =>
      simp only [Bool.false_eq_true,if_false] at low high ⊢
      omega
  · obtain ⟨least,zero⟩ := truncated_up digits more up
    rw [← zero,or_iff_right (by omega),or_iff_left (by omega),and_iff_right up]
    cases n.negative with
    | true =>
      simp only [if_true] at low high ⊢
      omega
    | false =>
      simp only [Bool.false_eq_true,if_false] at low high ⊢
      omega

/-! ### The two numbers of a value -/

theorem entry_views (name : List Int8) (form : NumberForm w) :
    config_geti32 (entry_of exact (name,⟨.number,some w⟩)) = Int32.ofInt (strtol w 10) ∧
      config_getd (entry_of exact (name,⟨.number,some w⟩)) = strtod w := by
  have chars := number_chars form
  have noZero : (0 : Int8) ∉ w := fun there => absurd (number_positive form 0 there) (by decide)
  have noHex : ¬ (chr '0' = (w.headD 0).toInt ∧ chr 'x' = ((w.drop 1).headD 0).toInt) := by
    rintro ⟨_,x⟩
    cases second : w.drop 1 with
    | nil =>
      rw [second] at x
      exact absurd x (by decide)
    | cons c more =>
      have there : c ∈ w := List.mem_of_mem_drop (second ▸ List.mem_cons_self)
      rw [second,List.headD_cons] at x
      rcases chars c there with digit | rfl | rfl | rfl | rfl | rfl
      · rw [← x] at digit
        cases digit
      all_goals exact absurd x (by decide)
  have read : config_sets exact (create_config exact name) w = _ := if_neg noHex
  rw [entry_of,config_geti32,config_getd,if_pos rfl]
  simp only [text_of,Option.getD_some,read]
  rw [c_str_self noZero]
  exact ⟨rfl,rfl⟩

/-- Where the truncated number is one of 32 bits, the two numbers of a value that has been
    loaded agree exactly if the exponent leaves the integer as it is. -/
theorem geti32_getd_iff (name : List Int8) (token : NumberToken w) (low : -2 ^ 31 ≤ trunc (strtod w))
    (high : trunc (strtod w) < 2 ^ 31) :
    (config_geti32 (entry_of exact (name,⟨.number,some w⟩))).toInt =
      trunc (config_getd (entry_of exact (name,⟨.number,some w⟩))) ↔ (decimal_of w).Unmoved := by
  obtain ⟨integer,number⟩ := entry_views name (number_token_iff.mp token).1
  obtain ⟨digits,more⟩ := decimal_digits w
  rw [integer,number,strtol_decimal]
  exact unmoved_iff digits more low high

/-- The text `1.5`. -/
theorem geti32_getd_iff_half : NumberToken [49,46,53] ∧ -2 ^ 31 ≤ trunc (strtod [49,46,53]) ∧ trunc (strtod [49,46,53]) < 2 ^ 31 ∧
    ((config_geti32 (entry_of exact ([97],⟨.number,some [49,46,53]⟩))).toInt =
      trunc (config_getd (entry_of exact ([97],⟨.number,some [49,46,53]⟩))) ↔ (decimal_of [49,46,53]).Unmoved) := by
  have token : NumberToken [49,46,53] := by
    refine number_token_iff.mpr ⟨⟨[],[49,46,53],[],.inl rfl,.inl ⟨[49],[46,53],?_,?_,.inr ⟨[53],rfl,?_⟩,rfl⟩,.inl rfl,rfl⟩,?_⟩
    all_goals decide +kernel
  have value : trunc (strtod [49,46,53]) = 1 := by decide +kernel
  have low : -2 ^ 31 ≤ trunc (strtod [49,46,53]) := by rw [value]; decide
  have high : trunc (strtod [49,46,53]) < 2 ^ 31 := by rw [value]; decide
  exact ⟨token,low,high,geti32_getd_iff [97] token low high⟩

/-- The integer of `1e1` is 1. -/
theorem geti32_getd_fails : ¬ ∀ (name w : List Int8), NumberToken w → -2 ^ 31 ≤ trunc (strtod w) → trunc (strtod w) < 2 ^ 31 →
    (config_geti32 (entry_of exact (name,⟨.number,some w⟩))).toInt =
      trunc (config_getd (entry_of exact (name,⟨.number,some w⟩))) := by
  intro agree
  have form : NumberForm [49,101,49] := by
    refine ⟨[],[49],[101,49],.inl rfl,.inl ⟨[49],[],?_,?_,.inl rfl,rfl⟩,.inr ⟨101,[],[49],.inl rfl,.inl rfl,?_,?_,rfl⟩,rfl⟩
    all_goals decide +kernel
  have value : trunc (strtod [49,101,49]) = 10 := by decide +kernel
  have same := agree [97] [49,101,49] (number_token_iff.mpr ⟨form,by decide⟩) (by rw [value]; decide) (by rw [value]; decide)
  obtain ⟨integer,number⟩ := entry_views [97] form
  rw [integer,number,value] at same
  exact absurd same (by decide)

end

end Htools.ConfigFile
