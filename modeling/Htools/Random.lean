import Htools.XorShift
import Mathlib.Dynamics.PeriodicPts.Lemmas
import Mathlib.SetTheory.Cardinal.Finite
import Mathlib.Data.Fintype.Pi
import Mathlib.Tactic.IntervalCases

/-!
The random numbers (`hutils/src/random.c`). The seed is a shift register of five
words, and the word that comes in mixes the word that goes out. No draw loses a
state, so that a run comes back to where it began (`random_getu32_permutes`).
-/
namespace Htools.Random
open Function (Injective Bijective)

/-- `struct RandomSeed`. -/
structure RandomSeed where
  seed : Vector UInt32 5
  deriving DecidableEq

/-- The loop that moves the words down. -/
def shift_down (seed : Vector UInt32 5) : Vector UInt32 5 :=
  (List.finRange 4).foldl (fun seed (i : Fin 4) => seed.set i seed[i.val + 1]) seed

def random_getu32 (a_seed : RandomSeed) : UInt32 × RandomSeed :=
  let seed := a_seed.seed
  let t := seed[0] ^^^ seed[0] >>> 7
  let seed := shift_down seed
  let seed : Vector UInt32 5 := seed.set 4 ((seed[4] ^^^ seed[4] <<< 6) ^^^ (t ^^^ t <<< 13))
  ((seed[1] + seed[1] + (1 : UInt32)) * seed[4],⟨seed⟩)

/-- The state after a draw. -/
def transition (a_seed : RandomSeed) : RandomSeed := (random_getu32 a_seed).2

/-- The state that no draw leaves. -/
def zero : RandomSeed := ⟨Vector.replicate 5 0⟩

example : random_getu32 ⟨#v[1,2,3,4,5]⟩ = (7 * 8516,⟨#v[2,3,4,5,8516]⟩) := by decide

/-- What the word that goes out adds to the one that comes in. -/
def mixed (x : UInt32) : UInt32 := (x ^^^ x >>> 7) ^^^ (x ^^^ x >>> 7) <<< 13

theorem mixed_injective : Injective mixed := by
  intro x y same
  have left : Injective fun x : BitVec 32 => x ^^^ x <<< 13 := XorShift.xor_shiftLeft_injective (by decide)
  have right : Injective fun x : BitVec 32 => x ^^^ x >>> 7 := XorShift.xor_ushiftRight_injective (by decide)
  have bits := congrArg UInt32.toBitVec same
  exact UInt32.toBitVec_inj.mp (right (left bits))

theorem shift_down_eq (seed : Vector UInt32 5) : shift_down seed = #v[seed[1],seed[2],seed[3],seed[4],seed[4]] := by
  have words : seed = #v[seed[0],seed[1],seed[2],seed[3],seed[4]] := by
    ext i inside
    interval_cases i <;> rfl
  rw [words]
  rfl

theorem transition_eq (s : RandomSeed) : transition s =
    ⟨#v[s.seed[1],s.seed[2],s.seed[3],s.seed[4],(s.seed[4] ^^^ s.seed[4] <<< 6) ^^^ mixed s.seed[0]]⟩ := by
  rw [transition,random_getu32,shift_down_eq]
  rfl

theorem transition_zero : transition zero = zero := by decide

theorem seed_ext {s r : RandomSeed} (words : ∀ i (inside : i < 5),s.seed[i] = r.seed[i]) : s = r := by
  rw [RandomSeed.mk.injEq]
  exact Vector.ext words

/-- Four words are still there, and the last one gives the word that went out. -/
theorem transition_injective : Injective transition := by
  intro s r same
  rw [transition_eq,transition_eq,RandomSeed.mk.injEq] at same
  have word (i : Nat) (inside : i < 5) := congrArg (fun v : Vector UInt32 5 => v[i]) same
  have last : s.seed[4] = r.seed[4] := word 3 (by decide)
  have first : s.seed[0] = r.seed[0] := by
    have sums : (s.seed[4] ^^^ s.seed[4] <<< 6) ^^^ mixed s.seed[0] = (r.seed[4] ^^^ r.seed[4] <<< 6) ^^^ mixed r.seed[0] :=
      word 4 (by decide)
    rw [last] at sums
    exact mixed_injective (UInt32.xor_right_inj _ |>.mp sums)
  apply seed_ext
  intro i inside
  interval_cases i
  · exact first
  · exact word 0 (by decide)
  · exact word 1 (by decide)
  · exact word 2 (by decide)
  · exact last

/-- The states as five words of 32 bits. -/
def words (s : RandomSeed) (i : Fin 5) : Fin (2 ^ 32) := s.seed[i].toFin

theorem words_bijective : Bijective words := by
  constructor
  · intro s r same
    apply seed_ext
    intro i inside
    exact UInt32.toFin_inj.mp (congrFun same ⟨i,inside⟩)
  · intro f
    refine ⟨⟨Vector.ofFn fun i => UInt32.ofFin (f i)⟩,?_⟩
    funext i
    simp [words]

theorem card_states : Nat.card RandomSeed = 2 ^ 160 := by
  rw [Nat.card_eq_of_bijective words words_bijective]
  simp

instance : Finite RandomSeed := Finite.of_injective words words_bijective.1

theorem random_getu32_permutes : Bijective transition ∧ Nat.card RandomSeed = 2 ^ 160 ∧
    (∀ s,∃ period > 0,∀ k,transition^[k + period] s = transition^[k] s) ∧
    (∀ n s r,s ≠ r → transition^[n] s ≠ transition^[n] r) ∧
    ∀ s,s ≠ zero → transition s ≠ zero := by
  refine ⟨Finite.injective_iff_bijective.mp transition_injective,card_states,?_,?_,?_⟩
  · intro s
    obtain ⟨period,positive,back⟩ := transition_injective.mem_periodicPts s
    refine ⟨period,positive,?_⟩
    intro k
    rw [Function.iterate_add_apply,back.eq]
  · intro n s r different
    exact (transition_injective.iterate n).ne different
  · intro s some_bit none_left
    exact some_bit (transition_injective (none_left.trans transition_zero.symm))

end Htools.Random
