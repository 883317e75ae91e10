import Mathlib.Data.List.Basic
import Mathlib.Tactic.Common

/-!
Sets of numbers in the bits of words. Every number has a bit in one of the words
(`Member`); writing that word with the bit set or cleared puts the number in or
takes it out, and no other number.
-/
namespace Htools.WordBits

variable {w : Nat} {words : List (BitVec w)} {word : BitVec w} {i j k n : Nat}

/-- The bit of the number is set in its word. -/
def Member (words : List (BitVec w)) (i : Nat) : Prop := ∃ word,words[i / w]? = some word ∧ word.getLsbD (i % w) = true

/-- The word that has the bit of one number only. -/
def single (w i : Nat) : BitVec w := 1#w <<< (i % w)

theorem getLsbD_single (inside : k < w) : (single w i).getLsbD k = decide (k = i % w) := by
  rw [single,BitVec.getLsbD_shiftLeft,BitVec.getLsbD_one]
  by_cases here : k = i % w
  · simp [here,Nat.mod_lt i (by omega : 0 < w)]
    omega
  · simp [here]
    omega

/-- Masking a word leaves the bit of the number, if it is set. -/
theorem and_single : single w i &&& word = if word.getLsbD (i % w) then single w i else 0#w := by
  apply BitVec.eq_of_getLsbD_eq
  intro k inside
  rw [BitVec.getLsbD_and,getLsbD_single inside]
  by_cases here : k = i % w
  · subst here
    cases set : word.getLsbD (i % w) with
    | true => simp [getLsbD_single inside]
    | false => simp
  · split
    · simp [getLsbD_single inside,here]
    · simp [here]

theorem single_ne_zero (positive : 0 < w) : single w i ≠ 0#w := by
  intro zero
  have bit := getLsbD_single (i := i) (Nat.mod_lt i positive)
  rw [zero] at bit
  simp at bit

theorem member_word (there : words[i / w]? = some word) : Member words i ↔ word.getLsbD (i % w) = true := by
  rw [Member,there]
  simp

/-- The numbers of a set of which one word has been written. -/
theorem member_set (there : words[n]? = some word) (new : BitVec w) :
    Member (words.set n new) j ↔ if j / w = n then new.getLsbD (j % w) = true else Member words j := by
  have inside := (List.getElem?_eq_some_iff.mp there).1
  rw [Member,List.getElem?_set]
  by_cases here : j / w = n
  · rw [if_pos here.symm,if_pos here,if_pos inside]
    simp
  · rw [if_neg (Ne.symm here),if_neg here]
    rfl

theorem eq_of_bit (first : j / w = i / w) (second : j % w = i % w) : j = i := by
  rw [← Nat.div_add_mod j w,first,second,Nat.div_add_mod]

theorem member_or (positive : 0 < w) (there : words[i / w]? = some word) :
    Member (words.set (i / w) (word ||| single w i)) j ↔ j = i ∨ Member words j := by
  rw [member_set there]
  by_cases here : j / w = i / w
  · rw [if_pos here,member_word (here ▸ there),BitVec.getLsbD_or,getLsbD_single (Nat.mod_lt j positive),Bool.or_eq_true,
      decide_eq_true_iff,
      or_comm]
    exact or_congr_left ⟨eq_of_bit here,fun same => same ▸ rfl⟩
  · rw [if_neg here,or_iff_right]
    rintro rfl
    exact here rfl

theorem member_and_not (positive : 0 < w) (there : words[i / w]? = some word) :
    Member (words.set (i / w) (word &&& ~~~single w i)) j ↔ j ≠ i ∧ Member words j := by
  rw [member_set there]
  by_cases here : j / w = i / w
  · have bit := Nat.mod_lt j positive
    rw [if_pos here,member_word (here ▸ there),BitVec.getLsbD_and,BitVec.getLsbD_not,getLsbD_single bit,
      and_comm (a := j ≠ i),Bool.and_eq_true]
    refine and_congr_right fun _ => ?_
    simp only [bit,decide_true,Bool.true_and,Bool.not_eq_true',decide_eq_false_iff_not]
    exact not_congr ⟨eq_of_bit here,fun same => same ▸ rfl⟩
  · rw [if_neg here]
    refine (and_iff_right ?_).symm
    rintro rfl
    exact here rfl

theorem member_zero : ¬ Member (List.replicate n 0#w) i := by
  rintro ⟨word,there,set⟩
  rw [List.getElem?_replicate] at there
  split at there
  · cases there
    simp at set
  · cases there

theorem member_one (positive : 0 < w) : Member (List.replicate n (BitVec.allOnes w)) i ↔ i < n * w := by
  rw [Member,List.getElem?_replicate,← Nat.div_lt_iff_lt_mul positive]
  split
  · rename_i inside
    refine iff_of_true ⟨_,rfl,?_⟩ inside
    rw [BitVec.getLsbD_allOnes]
    simp [Nat.mod_lt i positive]
  · rename_i outside
    refine iff_of_false ?_ outside
    rintro ⟨word,there,_⟩
    cases there

end Htools.WordBits
