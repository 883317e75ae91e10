import Htools.HashTable

/-!
The size of a new array in 32-bit arithmetic. `_insert` doubles the size until it
exceeds a goal; from 2^31 slots on the size wraps around to zero and never does.
A table of which `_insert` takes the array for full gets a larger one, with an
empty slot, exactly where the goal is below (`enlarges_iff`).
-/
namespace Htools.HashTable
open Htools.Cells Htools.RobinHood

section
variable {Key T : Type} {template : Template Key T} {a b : HashTableType T}

/-- An array of as many slots as the mask says, if any, with the hashes of the
    elements and no key twice. `num` may be any number. -/
structure Contents (template : Template Key T) (a : HashTableType T) : Prop where
  array : (a.array = [] ∧ a.mask = 0) ∨ a.array.length = a.mask + 1
  hashed : ∀ (i : Nat) hash t, a.array[i]? = some ⟨hash,some t⟩ → hash = template.hash_ (template.key t)
  distinct : Distinct template (residents a)

/-- Where `_insert` makes a new array, the loop for its size ends, the size is a
    power of two above the old one, and the insertion finds an empty slot. -/
def Enlarges (template : Template Key T) (a : HashTableType T) (t : T) : Prop :=
  threshold a ≤ a.num → ∃ size c r b, (∃ fuel, grow_size (growth_goal template a) fuel 1 = .ok size) ∧
    (∃ j, size = 2 ^ j) ∧ a.mask + 1 < size ∧ rehash_ template a size = .ok c ∧ c.array.length = size ∧
    (∃ i < size, cell (residents c) i = none) ∧
    insert_ template c t (template.hash_ (template.key t)) = .ok (r,b) ∧ insert template a t = .ok (r,b)

/-- A size is found only for goals below 2^31. -/
theorem goal_of_size {goal fuel size : Nat} (found : grow_size goal fuel 1 = .ok size) :
    goal < 2 ^ 31 ∧ size ≤ 2 ^ 31 := by
  have above := grow_size_above found
  have below := grow_size_le (.inr ⟨0,Nat.zero_le _,rfl⟩) found
  omega

/-- Inserting in a sound table that is not full. -/
theorem insert_sound (sound : Sound template a) (room : occupied (residents a) < a.array.length) (t : T) :
    ∃ r b, insert_ template a t (template.hash_ (template.key t)) = .ok (r,b) := by
  by_cases present : ∃ e, Stored a e ∧ template.equal (template.key t) (template.key e) = true
  · obtain ⟨e,⟨s,held⟩,same⟩ := present
    exact ⟨s,a,insert_present sound held same⟩
  · obtain ⟨r,b,run,_⟩ := insert_absent sound room (fun e there same => present ⟨e,there,same⟩)
    exact ⟨r,b,run⟩

theorem slotted_of_contents (contents : Contents template a) {k : Nat} (le : k ≤ 31) (mask : a.mask + 1 = 2 ^ k) :
    a.array = [] ∨ Slotted template a := by
  obtain ⟨array,hashed,distinct⟩ := contents
  rcases array with ⟨null,_⟩ | length
  · exact .inl null
  · exact .inr ⟨⟨k,le,length.trans mask⟩,length.symm,hashed,distinct⟩

/-- `_insert` enlarges the array exactly if it does not take it for full, or if
    neither the start size nor twice the old size comes to 2^32. -/
theorem enlarges_iff (template : Template Key T) (a : HashTableType T) (k : Nat) (le : k ≤ 32)
    (mask : a.mask + 1 = 2 ^ k) (contents : Contents template a) (t : T) :
    Enlarges template a t ↔ (threshold a ≤ a.num → k ≤ 30 ∧ template.start_size.toNat < 2 ^ 31) := by
  refine imp_congr_right (fun full => ⟨?_,?_⟩)
  · rintro ⟨size,c,r,b,⟨fuel,found⟩,_,larger,_⟩
    obtain ⟨goal,below⟩ := goal_of_size found
    have start : template.start_size.toNat ≤ growth_goal template a := Nat.le_max_left _ _
    refine ⟨?_,by omega⟩
    by_contra wide
    have top : 2 ^ 31 ≤ 2 ^ k := Nat.pow_le_pow_right (by decide) (by omega)
    omega
  · rintro ⟨narrow,start⟩
    have old : 2 ^ k ≤ 2 ^ 30 := Nat.pow_le_pow_right (by decide) narrow
    have goal : growth_goal template a < 2 ^ 31 ∧ a.mask + 1 ≤ growth_goal template a := by
      rw [growth_goal,Nat.mod_eq_of_lt (show a.mask + 1 < 2 ^ 32 by omega)]
      omega
    have few : occupied (residents a) ≤ a.mask + 1 := by
      have le := occupied_le (residents a)
      rw [length_residents] at le
      rcases contents.array with ⟨null,_⟩ | length
      · rw [null,List.length_nil] at le
        omega
      · omega
    have some_goal : 0 < growth_goal template a := by omega
    obtain ⟨j,positive,small,found,above,_⟩ := grow_size_total some_goal goal.1
    obtain ⟨c,rehashed,moved⟩ := rehash_total (slotted_of_contents contents (by omega) mask) positive small
      (by omega)
    have length := moved.length
    have room : occupied (residents c) < c.array.length := by
      rw [moved.occupied,length]
      omega
    obtain ⟨r,b,run⟩ := insert_sound moved.sound room t
    obtain ⟨i,inside,empty⟩ := exists_empty (by rw [length_residents]; exact room)
    rw [length_residents,length] at inside
    refine ⟨2 ^ j,c,r,b,⟨33,found⟩,⟨j,rfl⟩,by omega,rehashed,length,⟨i,inside,empty⟩,run,?_⟩
    rw [insert,grow,if_pos full,found]
    simp only [bind,Except.bind,rehashed,run]

/-- An array of empty slots. -/
theorem contents_empty (template : Template Key T) (mask num : Nat) :
    Contents template ⟨mask,num,List.replicate (mask + 1) ⟨0,none⟩⟩ := by
  refine ⟨.inr List.length_replicate,?_,?_⟩
  · intro i hash t there
    rw [List.getElem?_replicate] at there
    split at there
    · cases there
    · cases there
  · intro i j s t held
    rw [cell_residents,List.getElem?_replicate] at held
    split at held
    · cases held
    · cases held

/-- A table of 2^31 slots that has to grow is left in the loop for the new size. -/
theorem enlarges_endless : (∀ fuel, grow_size (2 ^ 31) fuel 1 = .error .fuel) ∧
    ¬ ∀ (a : HashTableType Nat) (k : Nat), k ≤ 32 → a.mask + 1 = 2 ^ k → Contents numbers a →
      ∀ t, Enlarges numbers a t := by
  refine ⟨?_,?_⟩
  · intro fuel
    cases found : grow_size (2 ^ 31) fuel 1 with
    | ok size => exact absurd (goal_of_size found).1 (Nat.lt_irrefl _)
    | error stop => rw [grow_size_error found]
  · intro all
    obtain ⟨size,_,_,_,⟨fuel,found⟩,_⟩ := all _ 31 (by decide) (by decide) (contents_empty numbers (2 ^ 31 - 1) (2 ^ 31 - 1)) 0
      (show 9 * (2 ^ 31 - 1) % 2 ^ 32 / 10 ≤ 2 ^ 31 - 1 from by decide)
    have goal : growth_goal numbers ⟨2 ^ 31 - 1,2 ^ 31 - 1,List.replicate (2 ^ 31 - 1 + 1) ⟨0,none⟩⟩ < 2 ^ 31 :=
      (goal_of_size found).1
    rw [growth_goal] at goal
    simp only at goal
    omega

/-- An array of 16 slots with a counter that lets it grow. -/
theorem enlarges_iff_sixteen :
    (4 ≤ 32 ∧ 15 + 1 = 2 ^ 4 ∧ Contents numbers ⟨15,13,List.replicate (15 + 1) ⟨0,none⟩⟩) ∧
    (Enlarges numbers ⟨15,13,List.replicate (15 + 1) ⟨0,none⟩⟩ 7 ↔
      (threshold (⟨15,13,List.replicate (15 + 1) ⟨0,none⟩⟩ : HashTableType Nat) ≤ 13 →
        4 ≤ 30 ∧ numbers.start_size.toNat < 2 ^ 31)) :=
  ⟨⟨by decide,by decide,contents_empty numbers 15 13⟩,
    enlarges_iff numbers ⟨15,13,List.replicate (15 + 1) ⟨0,none⟩⟩ 4 (by decide) (by decide) (contents_empty numbers 15 13) 7⟩

end

end Htools.HashTable
