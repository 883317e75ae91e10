import Htools.Machine
import Mathlib.Data.BitVec

/-!
The hash of `hutils/src/hash.c`. The hash goes through one state for each byte, and no
two states become one under the same byte (`round_inj`): what comes after the same end
has the same hash only if it had before, and one other byte is always seen.
-/
namespace Htools.Fnv

def FNV_OFFSET_BASIS : BitVec 32 := 2166136261

def FNV_PRIME : BitVec 32 := 16777619

/-- One byte of the loop. -/
def round (hash : BitVec 32) (p8 : BitVec 8) : BitVec 32 := (hash ^^^ p8.setWidth 32) * FNV_PRIME

def hutils_fnv1a32 (a_data : List (BitVec 8)) : Except Stop (BitVec 32) :=
  if 0 < a_data.length then .ok (a_data.foldl round FNV_OFFSET_BASIS) else .error .abort

variable {hash hash' : BitVec 32} {a b : BitVec 8} {x y back : List (BitVec 8)}

/-- The prime has an inverse among the words. -/
theorem prime_inj (same : hash * FNV_PRIME = hash' * FNV_PRIME) : hash = hash' := by
  have inverse : FNV_PRIME * 899433627 = 1#32 := by decide
  have both := congrArg (· * 899433627) same
  simpa only [BitVec.mul_assoc,inverse,BitVec.mul_one] using both

theorem round_inj : round hash a = round hash' a ↔ hash = hash' := by
  refine ⟨fun same => ?_,fun same => by rw [same]⟩
  exact (BitVec.xor_left_inj _).mp (prime_inj same)

theorem round_byte : round hash a = round hash b ↔ a = b := by
  refine ⟨fun same => ?_,fun same => by rw [same]⟩
  have wide : a.setWidth 32 = b.setWidth 32 := (BitVec.xor_right_inj hash).mp (prime_inj same)
  have number := congrArg BitVec.toNat wide
  rw [BitVec.toNat_setWidth,BitVec.toNat_setWidth] at number
  apply BitVec.eq_of_toNat_eq
  have := a.isLt
  have := b.isLt
  omega

theorem foldl_round_inj : back.foldl round hash = back.foldl round hash' ↔ hash = hash' := by
  induction back generalizing hash hash' with
  | nil => rfl
  | cons p8 back ih => rw [List.foldl_cons,List.foldl_cons,ih,round_inj]

/-- Data that end alike have the same hash exactly if what comes before has, and data that
    differ in one byte have another one. -/
theorem fnv1a32_iff (some_ : x ≠ []) (some_' : y ≠ []) :
    (hutils_fnv1a32 (x ++ back) = hutils_fnv1a32 (y ++ back) ↔ hutils_fnv1a32 x = hutils_fnv1a32 y) ∧
      ∀ front, hutils_fnv1a32 (front ++ a :: back) = hutils_fnv1a32 (front ++ b :: back) ↔ a = b := by
  have hashed : ∀ {l : List (BitVec 8)}, l ≠ [] → hutils_fnv1a32 l = .ok (l.foldl round FNV_OFFSET_BASIS) := fun some_ =>
    if_pos (List.length_pos_iff.mpr some_)
  have inj : ∀ {h h' : BitVec 32}, (.ok h : Except Stop (BitVec 32)) = .ok h' ↔ h = h' := by simp
  constructor
  · rw [hashed some_,hashed some_',hashed (List.append_ne_nil_of_left_ne_nil some_ back),
      hashed (List.append_ne_nil_of_left_ne_nil some_' back),inj,inj,List.foldl_append,List.foldl_append,foldl_round_inj]
  · intro front
    rw [hashed (by simp),hashed (by simp),inj,List.foldl_append,List.foldl_append,List.foldl_cons,List.foldl_cons,foldl_round_inj,
      round_byte]

theorem fnv1a32_iff_words : hutils_fnv1a32 ([97,98] ++ [99]) = hutils_fnv1a32 ([97,100] ++ [99]) ↔
    hutils_fnv1a32 [97,98] = hutils_fnv1a32 [97,100] :=
  (@fnv1a32_iff 0 0 [97,98] [97,100] [99] (by decide) (by decide)).1

end Htools.Fnv
