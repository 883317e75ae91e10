import Htools.HashProbes

/-!
What the slots of a hash table look like. An element away from its home follows
one that is nearly as far from its own, as `HASHTABLE_DIB` measures it, and some
slot is empty, so that probing ends and stops early with reason. The displacements
of `_insert_`, the new array of `_rehash_` and the shifts of an erasure keep it
(`invariant_kept`).
-/
namespace Htools.HashTable
open Htools.Cells Htools.RobinHood Htools.Runs

section
variable {Key T : Type} {template : Template Key T} {a b : HashTableType T}

/-- The slot in front of another one, around the end of the array. -/
def previous (n i : Nat) : Nat := (i + n - 1) % n

/-- An array as `_rehash_` allocates it, with its mask. -/
structure Allocated (a : HashTableType T) : Prop where
  size : ∃ k, 0 < k ∧ k ≤ 31 ∧ a.array.length = 2 ^ k
  mask : a.mask + 1 = a.array.length

/-- The order of the elements in their slots, their hashes and their keys. -/
structure Probed (template : Template Key T) (a : HashTableType T) : Prop where
  order : ∀ (i : Nat) hash t, a.array[i]? = some ⟨hash,some t⟩ → 0 < hashtable_dib a hash i →
    ∃ hash' t', a.array[previous a.array.length i]? = some ⟨hash',some t'⟩ ∧
      hashtable_dib a hash i - 1 ≤ hashtable_dib a hash' (previous a.array.length i)
  hashed : ∀ (i : Nat) hash t, a.array[i]? = some ⟨hash,some t⟩ → hash = template.hash_ (template.key t)
  distinct : ∀ (i j : Nat) hash hash' s t, a.array[i]? = some ⟨hash,some s⟩ → a.array[j]? = some ⟨hash',some t⟩ →
    template.equal (template.key s) (template.key t) = true → i = j

/-- A slot is empty. -/
def Room (a : HashTableType T) : Prop := ∃ (i : Nat) (hash : UInt32),a.array[i]? = some ⟨hash,none⟩

structure Invariant (template : Template Key T) (a : HashTableType T) : Prop extends Probed template a where
  room : Room a

theorem previous_next {n i : Nat} (inside : i < n) : previous n (next n i) = i := by
  rw [previous,next]
  split
  · rw [show i + 1 + n - 1 = i + n by omega,Nat.add_mod_right,Nat.mod_eq_of_lt inside]
  · rw [Nat.mod_eq_of_lt (by omega)]
    omega

theorem next_previous {n i : Nat} (inside : i < n) : next n (previous n i) = i ∧ previous n i < n := by
  obtain ⟨j,there,rfl⟩ : ∃ j < n,next n j = i := by
    by_cases first : i = 0
    · exact ⟨n - 1,by omega,by rw [next,if_neg (by omega),first]⟩
    · exact ⟨i - 1,by omega,by rw [next,if_pos (by omega)]; omega⟩
  rw [previous_next there]
  exact ⟨rfl,there⟩

theorem resident_iff {i : Nat} {t : T} : cell (residents a) i = some t ↔ ∃ hash,a.array[i]? = some ⟨hash,some t⟩ := by
  rw [cell_residents,Option.bind_eq_some_iff]
  constructor
  · rintro ⟨⟨hash,_⟩,there,rfl⟩
    exact ⟨hash,there⟩
  · rintro ⟨hash,there⟩
    exact ⟨_,there,rfl⟩

theorem room_iff : Room a ↔ occupied (residents a) < a.array.length := by
  rw [← length_residents]
  constructor
  · rintro ⟨i,hash,there⟩
    refine Nat.lt_of_le_of_ne (occupied_le _) fun full => ?_
    have member : none ∈ residents a := List.mem_map.mpr ⟨_,List.mem_of_getElem? there,rfl⟩
    exact Bool.false_ne_true (List.countP_eq_length.mp full none member)
  · intro room
    obtain ⟨i,inside,empty⟩ := exists_empty room
    rw [length_residents] at inside
    obtain ⟨hash,there⟩ := slot_none inside empty
    exact ⟨i,hash,there⟩

theorem slotted_of_probed (allocated : Allocated a) (probed : Probed template a) : Slotted template a := by
  obtain ⟨k,_,le,length⟩ := allocated.size
  refine ⟨⟨k,le,length⟩,allocated.mask,probed.hashed,?_⟩
  intro i j s t first second
  obtain ⟨hash,here⟩ := resident_iff.mp first
  obtain ⟨hash',there⟩ := resident_iff.mp second
  exact probed.distinct i j hash hash' s t here there

theorem allocated_of_sound (sound : Sound template a) : Allocated a := by
  obtain ⟨k,le,length⟩ := sound.size
  have wide := sound.ordered.wide
  rw [length_residents,length] at wide
  refine ⟨⟨k,?_,le,length⟩,sound.mask⟩
  by_contra zero
  obtain rfl : k = 0 := by omega
  exact absurd wide (by decide)

/-- The distance from home of the element in a slot. -/
theorem dib_resident (slotted : Slotted template a) {i : Nat} {hash : UInt32} {t : T} (there : a.array[i]? = some ⟨hash,some t⟩) :
    hashtable_dib a hash i = dist a.array.length (home template a.array.length t) i ∧ i < a.array.length := by
  have inside := (List.getElem?_eq_some_iff.mp there).1
  rw [hashtable_dib_eq slotted hash inside,slotted.hashed i hash t there]
  exact ⟨rfl,inside⟩

theorem sound_of_probed (allocated : Allocated a) (probed : Probed template a) : Sound template a := by
  have slotted := slotted_of_probed allocated probed
  obtain ⟨k,positive,_,length⟩ := allocated.size
  have wide : 1 < a.array.length := length ▸ Nat.one_lt_two_pow (by omega)
  refine ⟨slotted,by rw [length_residents]; exact wide,?_,?_⟩
  · intro i t held
    rw [length_residents]
    exact Nat.mod_lt _ (by omega)
  · rw [length_residents]
    intro i inside t held away
    obtain ⟨hash,there⟩ := resident_iff.mp held
    obtain ⟨dib,inside'⟩ := dib_resident slotted there
    have homeInside : home template a.array.length t < a.array.length := Nat.mod_lt _ (by omega)
    have far : 0 < dist a.array.length (home template a.array.length t) (next a.array.length i) :=
      Nat.pos_of_ne_zero fun zero => away ((dist_eq_zero_iff homeInside).mp zero)
    obtain ⟨hash',s,before,le⟩ := probed.order _ hash t there (by rw [dib]; exact far)
    rw [previous_next inside] at before le
    rw [dib,(dib_resident slotted before).1] at le
    refine ⟨s,resident_iff.mpr ⟨hash',before⟩,?_⟩
    rw [length_residents]
    omega

theorem probed_of_sound (sound : Sound template a) : Probed template a := by
  have wide := sound.ordered.wide
  rw [length_residents] at wide
  refine ⟨?_,sound.hashed,?_⟩
  · intro i hash t there far
    obtain ⟨dib,inside⟩ := dib_resident sound.toSlotted there
    obtain ⟨back,before⟩ := next_previous inside
    have homeInside : home template a.array.length t < a.array.length := Nat.mod_lt _ (by omega)
    have order := sound.ordered.order
    rw [length_residents] at order
    obtain ⟨s,held,le⟩ := order _ before t (by rw [back]; exact resident_iff.mpr ⟨hash,there⟩) (by
      rw [back]
      rintro rfl
      rw [dib,dist_self] at far
      exact absurd far (Nat.lt_irrefl 0))
    obtain ⟨hash',there'⟩ := resident_iff.mp held
    refine ⟨hash',s,there',?_⟩
    rw [back,length_residents] at le
    rw [dib,(dib_resident sound.toSlotted there').1]
    omega
  · intro i j hash hash' s t first second
    exact sound.distinct i j s t (resident_iff.mpr ⟨hash,first⟩) (resident_iff.mpr ⟨hash',second⟩)

theorem invariant_of_sound (sound : Sound template a) (room : occupied (residents a) < a.array.length) :
    Invariant template a := ⟨probed_of_sound sound,room_iff.mpr room⟩

/-- What `_insert_` does to the slots: it takes an empty one for a new key. -/
theorem insert_invariant (allocated : Allocated a) (invariant : Invariant template a) (t : T) :
    ∃ r b, insert_ template a t (template.hash_ (template.key t)) = .ok (r,b) ∧ Allocated b ∧ Probed template b ∧
      (Room b ↔ (∃ e, Stored a e ∧ template.equal (template.key t) (template.key e) = true) ∨
        occupied (residents a) + 1 < a.array.length) := by
  have sound := sound_of_probed allocated invariant.toProbed
  have room := room_iff.mp invariant.room
  by_cases present : ∃ e, Stored a e ∧ template.equal (template.key t) (template.key e) = true
  · obtain ⟨e,⟨s,held⟩,same⟩ := present
    exact ⟨s,a,insert_present sound held same,allocated,invariant.toProbed,
      iff_of_true invariant.room (.inl ⟨e,⟨s,held⟩,same⟩)⟩
  · obtain ⟨r,b,run,inserted,_⟩ := insert_absent sound room fun e there same => present ⟨e,there,same⟩
    refine ⟨r,b,run,allocated_of_sound inserted.sound,probed_of_sound inserted.sound,?_⟩
    rw [room_iff,inserted.occupied,inserted.length,or_iff_right present]

theorem rehash_invariant (allocated : Allocated a) (invariant : Invariant template a) {k : Nat} (positive : 0 < k)
    (le : k ≤ 31) (enough : occupied (residents a) < 2 ^ k) :
    ∃ b, rehash_ template a (2 ^ k) = .ok b ∧ Allocated b ∧ Invariant template b ∧ ∀ e, Stored b e ↔ Stored a e := by
  have slotted := slotted_of_probed allocated invariant.toProbed
  obtain ⟨b,run,rehashed⟩ := rehash_total (.inr slotted) positive le enough
  refine ⟨b,run,allocated_of_sound rehashed.sound,invariant_of_sound rehashed.sound ?_,rehashed.stored⟩
  rw [rehashed.occupied,rehashed.length]
  exact enough

theorem erase_invariant (allocated : Allocated a) (invariant : Invariant template a) {i : Nat} {t : T}
    (held : element a i = some t) :
    ∃ b, erase a i = .ok (some t,b) ∧ Allocated b ∧ Invariant template b := by
  have sound := sound_of_probed allocated invariant.toProbed
  have room := room_iff.mp invariant.room
  rw [element,← cell_residents] at held
  obtain ⟨b,run,erased⟩ := erase_total sound room held
  have count := erased.occupied
  refine ⟨b,run,allocated_of_sound erased.sound,invariant_of_sound erased.sound ?_⟩
  rw [erased.length]
  omega

/-- The table that `_insert` puts an element in has room for it, old or new. -/
theorem grow_invariant (made : Made template a) (run : grow template a = .ok b) :
    Allocated b ∧ Invariant template b ∧ occupied (residents b) + 1 < b.array.length := by
  have fits := goal_of_grow run
  obtain ⟨c,run',grown⟩ := grow_total (made_state made) fits
  rw [run] at run'
  cases run'
  have counted := grown.counted
  have room := grown.room
  have mask := grown.sound.mask
  exact ⟨allocated_of_sound grown.sound,invariant_of_sound grown.sound (by omega),by omega⟩

theorem made_invariant (made : Made template a) (array : a.array ≠ []) : Allocated a ∧ Invariant template a := by
  obtain ⟨m,rep⟩ := (has_array_iff made).mp array
  exact ⟨allocated_of_sound rep.toSound,invariant_of_sound rep.toSound (live_room rep.toLive)⟩

/-- In every table that is reached the slots are ordered and one of them is empty,
    and so they are after each of the functions that move elements. -/
theorem invariant_kept (template : Template Key T) :
    (∀ ops a, Reached (step template) init ops a → a.array ≠ [] → Allocated a ∧ Invariant template a) ∧
    (∀ a t, Allocated a → Invariant template a →
      ∃ r b, insert_ template a t (template.hash_ (template.key t)) = .ok (r,b) ∧ Allocated b ∧ Probed template b ∧
        (Room b ↔ (∃ e, Stored a e ∧ template.equal (template.key t) (template.key e) = true) ∨
          occupied (residents a) + 1 < a.array.length)) ∧
    (∀ a k, Allocated a → Invariant template a → 0 < k → k ≤ 31 → occupied (residents a) < 2 ^ k →
      ∃ b, rehash_ template a (2 ^ k) = .ok b ∧ Allocated b ∧ Invariant template b ∧ ∀ e, Stored b e ↔ Stored a e) ∧
    (∀ a i t, Allocated a → Invariant template a → element a i = some t →
      ∃ b, erase a i = .ok (some t,b) ∧ Allocated b ∧ Invariant template b) ∧
    ∀ ops a t c, Reached (step template) init ops a → grow template a = .ok c →
      Allocated c ∧ Invariant template c ∧
      ∃ r b, insert_ template c t (template.hash_ (template.key t)) = .ok (r,b) ∧ Allocated b ∧ Invariant template b := by
  have made : ∀ {ops a}, Reached (step template) init ops a → Made template a := fun reached =>
    reached_keeps (fun _ _ _ made run => step_made made run) (.inl rfl) reached
  refine ⟨?_,?_,?_,?_,?_⟩
  · intro ops a reached array
    exact made_invariant (made reached) array
  · intro a t allocated invariant
    exact insert_invariant allocated invariant t
  · intro a k allocated invariant positive le enough
    exact rehash_invariant allocated invariant positive le enough
  · intro a i t allocated invariant held
    exact erase_invariant allocated invariant held
  · intro ops a t c reached run
    obtain ⟨allocated,invariant,room⟩ := grow_invariant (made reached) run
    obtain ⟨r,b,run',allocated',probed,roomy⟩ := insert_invariant allocated invariant t
    exact ⟨allocated,invariant,r,b,run',allocated',probed,roomy.mpr (.inr room)⟩

end

end Htools.HashTable
