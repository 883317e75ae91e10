import Mathlib.Data.Nat.Notation
import Mathlib.Logic.Function.Defs
import Mathlib.Tactic.ByContra

/-!
Words that are mixed with shifted copies of themselves. A shift is linear in
exclusive or and leaves no word as it is but zero, so that the mixing can be undone
(`xor_injective`).
-/
namespace Htools.XorShift

variable {w k : Nat} {x y : BitVec w}

theorem xor_eq_zero_iff : x ^^^ y = 0#w ↔ x = y := by
  constructor
  · intro none_left
    have back := congrArg (· ^^^ y) none_left
    simpa only [BitVec.xor_assoc,BitVec.xor_self,BitVec.xor_zero,BitVec.zero_xor] using back
  · rintro rfl
    exact BitVec.xor_self

/-- A linear map that leaves only zero as it is can be mixed in without loss. -/
theorem xor_injective {f : BitVec w → BitVec w} (linear : ∀ x y,f (x ^^^ y) = f x ^^^ f y)
    (fixed : ∀ x,f x = x → x = 0#w) : Function.Injective fun x => x ^^^ f x := by
  intro x y same
  have mixed : x ^^^ f x = y ^^^ f y := same
  have apart : x ^^^ y ^^^ f (x ^^^ y) = 0#w := by
    calc x ^^^ y ^^^ f (x ^^^ y) = (x ^^^ f x) ^^^ (y ^^^ f y) := by
          rw [linear]
          ac_rfl
      _ = 0#w := by rw [mixed,BitVec.xor_self]
  exact xor_eq_zero_iff.mp (fixed _ (xor_eq_zero_iff.mp apart).symm)

/-- A shift moves the lowest bit that is set, or the highest. -/
theorem shiftLeft_fixed (positive : 0 < k) (fixed : x <<< k = x) : x = 0#w := by
  apply BitVec.eq_of_getLsbD_eq
  intro i
  induction i using Nat.strongRecOn with
  | ind i ih =>
    intro inside
    rw [← fixed,BitVec.getLsbD_shiftLeft]
    by_cases low : i < k
    · simp [low]
    · rw [ih (i - k) (by omega) (by omega)]
      simp

theorem ushiftRight_fixed (positive : 0 < k) (fixed : x >>> k = x) : x = 0#w := by
  have less : x.toNat / 2 ^ k = x.toNat := by
    rw [← Nat.shiftRight_eq_div_pow,← BitVec.toNat_ushiftRight,fixed]
  apply BitVec.eq_of_toNat_eq
  by_contra some_left
  have smaller := Nat.div_lt_self (Nat.pos_of_ne_zero some_left) (Nat.one_lt_two_pow (Nat.ne_of_gt positive))
  omega

theorem xor_shiftLeft_injective (positive : 0 < k) : Function.Injective fun x : BitVec w => x ^^^ x <<< k :=
  xor_injective (fun x y => BitVec.shiftLeft_xor_distrib x y k) fun _ => shiftLeft_fixed positive

theorem xor_ushiftRight_injective (positive : 0 < k) : Function.Injective fun x : BitVec w => x ^^^ x >>> k :=
  xor_injective (fun x y => BitVec.ushiftRight_xor_distrib x y k) fun _ => ushiftRight_fixed positive

end Htools.XorShift
