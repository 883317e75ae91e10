import Htools.RobinHood
import Htools.Runs
import Mathlib.Data.Nat.Bitwise

/-!
The hash table template (`hutils/include/hutils/hashtable.h`): a ring of slots
with Robin Hood hashing. A lookup probes from the home of the key until it is
met or a slot is empty, an insertion on the way displaces elements that are
closer to their homes, and an erasure moves the elements behind it back. The
slots stay ordered in every step (`Sound`), which is why the table acts as a
finite map (`run_map`). The counter `num` is not decremented by an erasure
(`counted_iff`).
-/
namespace Htools.HashTable
open Htools.Cells Htools.RobinHood Htools.Runs

/-- The arguments of `HASHTABLE_IMPLEMENT`. Equal keys have equal hashes. -/
structure Template (Key T : Type) where
  start_size : UInt32
  key : T → Key
  hash_ : Key → UInt32
  equal : Key → Key → Bool
  equivalence : Equivalence fun a b => equal a b = true
  hash_eq : ∀ {a b}, equal a b = true → hash_ a = hash_ b

/-- An entry of `HASHTABLE_HEAD`, with a pointer to the element. -/
structure Entry (T : Type) where
  hash : UInt32
  t : Option T
  deriving DecidableEq, Repr

/-- `HASHTABLE_HEAD`; `array` is empty for the null pointer. -/
structure HashTableType (T : Type) where
  mask : Nat
  num : Nat
  array : List (Entry T)
  deriving DecidableEq, Repr

section
variable {Key T : Type} (template : Template Key T)

/-- `HASHTABLE_DIB`, in the arithmetic of `size_t`. -/
def hashtable_dib (a_ht : HashTableType T) (hash : UInt32) (i : Nat) : Nat :=
  ((i + 2 ^ 64 - (hash.toNat &&& a_ht.mask)) % 2 ^ 64) &&& a_ht.mask

/-- The loop of `_find_`; none stands for `(size_t)-1`. -/
def find_loop (a_ht : HashTableType T) (a_key : Key) (hash : UInt32) (dib : Nat) : Nat → Nat → Except Stop (Option Nat)
  | 0, _ => .error .fuel
  | fuel + 1, i =>
    let i := i &&& a_ht.mask
    match a_ht.array[i]? with
    | none => .error .fault
    | some entry =>
      match entry.t with
      | none => .ok none
      | some t =>
        let d := hashtable_dib a_ht entry.hash i
        if dib > d then .ok none
        else if hash = entry.hash ∧ template.equal a_key (template.key t) then .ok (some i)
        else find_loop a_ht a_key hash dib fuel (i + 1)

def find_ (a_ht : HashTableType T) (a_key : Key) : Except Stop (Option Nat) :=
  let hash := template.hash_ a_key
  find_loop template a_ht a_key hash 0 (a_ht.array.length + 1) hash.toNat

/-- The loop of `_insert_`. Entries are given by their indices. -/
def insert_loop : Nat → HashTableType T → T → UInt32 → Nat → Nat → Option Nat → Except Stop (Nat × HashTableType T)
  | 0, _, _, _, _, _, _ => .error .fuel
  | fuel + 1, a_ht, t, hash, i, dib, ret =>
    let i := i &&& a_ht.mask
    match a_ht.array[i]? with
    | none => .error .fault
    | some entry =>
      match entry.t with
      | none =>
        .ok (ret.getD i,{ a_ht with num := (a_ht.num + 1) % 2 ^ 32, array := a_ht.array.set i ⟨hash,some t⟩ })
      | some other =>
        if hash = entry.hash ∧ template.equal (template.key t) (template.key other) then
          if ret = none then .ok (i,a_ht) else .error .abort
        else
          let d := hashtable_dib a_ht entry.hash i
          if dib > d then
            insert_loop fuel { a_ht with array := a_ht.array.set i ⟨hash,some t⟩ } other entry.hash (i + 1) (d + 1)
              (some (ret.getD i))
          else insert_loop fuel a_ht t hash (i + 1) (dib + 1) ret

def insert_ (a_ht : HashTableType T) (a_t : T) (a_hash : UInt32) : Except Stop (Nat × HashTableType T) :=
  insert_loop template (a_ht.array.length + 1) a_ht a_t a_hash a_hash.toNat 0 none

/-- The loop of `_rehash_` over the old slots. -/
def rehash_loop (old_array : List (Entry T)) (old_mask : Nat) :
    Nat → Nat → HashTableType T → Except Stop (HashTableType T)
  | 0, _, _ => .error .fuel
  | fuel + 1, i, a_ht =>
    if old_mask ≥ i then
      match old_array[i]? with
      | none => .error .fault
      | some entry =>
        match entry.t with
        | none => rehash_loop old_array old_mask fuel (i + 1) a_ht
        | some t => do
          let (_,a_ht) ← insert_ template a_ht t entry.hash
          rehash_loop old_array old_mask fuel (i + 1) a_ht
    else .ok a_ht

def rehash_ (a_ht : HashTableType T) (a_size : Nat) : Except Stop (HashTableType T) :=
  if 0 = (a_size - 1) &&& a_size then
    let old_mask := a_ht.mask
    let old_array := a_ht.array
    let a_ht := { mask := (a_size + (2 ^ 32 - 1)) % 2 ^ 32, num := 0, array := List.replicate a_size ⟨0,none⟩ }
    if old_array.isEmpty then .ok a_ht else rehash_loop template old_array old_mask (old_mask + 2) 0 a_ht
  else .error .abort

/-- The loop of `_erase`, with the index of `cur`. -/
def erase_loop : Nat → HashTableType T → Nat → Except Stop (HashTableType T)
  | 0, _, _ => .error .fuel
  | fuel + 1, a_ht, i =>
    let j := (i + 1) &&& a_ht.mask
    match a_ht.array[j]? with
    | none => .error .fault
    | some next =>
      if next.t.isNone then .ok a_ht
      else
        let dib := hashtable_dib a_ht next.hash j
        if 0 = dib then .ok a_ht
        else erase_loop fuel { a_ht with array := (a_ht.array.set i next).set j { next with t := none } } j

/-- The result has the pointer that `free_` is given. -/
def erase (a_ht : HashTableType T) (a_entry : Nat) : Except Stop (Option T × HashTableType T) :=
  match a_ht.array[a_entry]? with
  | none => .error .fault
  | some cur => do
    let array := a_ht.array.set a_entry { cur with t := none }
    let a_ht ← erase_loop (a_ht.array.length + 1) { a_ht with array := array } a_entry
    .ok (cur.t,a_ht)

def find (a_ht : HashTableType T) (a_key : Key) : Except Stop (Option Nat) := find_ template a_ht a_key

def init : HashTableType T where
  mask := 0
  num := 0
  array := []

/-- The loop of `_insert` for the new size, with 32 bits for shifts. -/
def grow_size (goal : Nat) : Nat → Nat → Except Stop Nat
  | 0, _ => .error .fuel
  | fuel + 1, size => if goal ≥ size then grow_size goal fuel (size <<< 1 % 2 ^ 32) else .ok size

/-- What `_insert` compares `num` to. -/
def threshold (a_ht : HashTableType T) : Nat := 9 * a_ht.mask % 2 ^ 32 / 10

/-- The size that `_insert` wants to exceed. -/
def growth_goal (a_ht : HashTableType T) : Nat := max template.start_size.toNat ((a_ht.mask + 1) % 2 ^ 32)

/-- The part of `_insert` that makes room. -/
def grow (a_ht : HashTableType T) : Except Stop (HashTableType T) :=
  if a_ht.num ≥ threshold a_ht then do
    let size ← grow_size (growth_goal template a_ht) 33 1
    rehash_ template a_ht size
  else .ok a_ht

def insert (a_ht : HashTableType T) (a_t : T) : Except Stop (Nat × HashTableType T) := do
  let a_ht ← grow template a_ht
  insert_ template a_ht a_t (template.hash_ (template.key a_t))

end

/-! ### Sound tables -/

section
variable {Key T : Type} {template : Template Key T} {a b : HashTableType T}

/-- The elements of the slots. -/
def residents (a : HashTableType T) : List (Option T) := a.array.map Entry.t

/-- The slot at which the probing for an element starts. -/
def home (template : Template Key T) (n : Nat) (t : T) : Nat := (template.hash_ (template.key t)).toNat % n

/-- Different slots have different keys. -/
def Distinct (template : Template Key T) (cells : List (Option T)) : Prop :=
  ∀ i j s t, cell cells i = some s → cell cells j = some t → template.equal (template.key s) (template.key t) = true →
    i = j

/-- An allocated table: a power of two of slots, with the hashes of the elements
    and no key twice. -/
structure Slotted (template : Template Key T) (a : HashTableType T) : Prop where
  size : ∃ k, k ≤ 31 ∧ a.array.length = 2 ^ k
  mask : a.mask + 1 = a.array.length
  hashed : ∀ (i : Nat) hash t, a.array[i]? = some ⟨hash,some t⟩ → hash = template.hash_ (template.key t)
  distinct : Distinct template (residents a)

/-- An allocated table whose slots can be probed. -/
structure Sound (template : Template Key T) (a : HashTableType T) : Prop extends Slotted template a where
  ordered : Ordered (home template a.array.length) (residents a)

theorem length_residents (a : HashTableType T) : (residents a).length = a.array.length := List.length_map _

theorem cell_residents (a : HashTableType T) (i : Nat) : cell (residents a) i = a.array[i]?.bind Entry.t := by
  rw [cell,residents,List.getElem?_map]
  cases a.array[i]? with
  | none => rfl
  | some entry => rfl

theorem residents_set (a : HashTableType T) (num i : Nat) (entry : Entry T) :
    residents { a with num := num, array := a.array.set i entry } = (residents a).set i entry.t := by
  rw [residents,residents,List.map_set]

theorem and_mask (sound : Slotted template a) (i : Nat) : i &&& a.mask = i % a.array.length := by
  obtain ⟨k,_,length⟩ := sound.size
  have mask := sound.mask
  rw [show a.mask = 2 ^ k - 1 by omega,Nat.and_two_pow_sub_one_eq_mod,length]

/-- `HASHTABLE_DIB` is the distance from home. -/
theorem hashtable_dib_eq (sound : Slotted template a) (hash : UInt32) {i : Nat} (inside : i < a.array.length) :
    hashtable_dib a hash i = dist a.array.length (hash.toNat % a.array.length) i := by
  obtain ⟨k,small,length⟩ := sound.size
  obtain ⟨m,multiple⟩ : ∃ m, 2 ^ 64 = a.array.length * m := ⟨2 ^ (64 - k),by
    rw [length,← Nat.pow_add,show k + (64 - k) = 64 by omega]⟩
  have low := Nat.mod_lt hash.toNat (show 0 < a.array.length by omega)
  rw [hashtable_dib,and_mask sound,and_mask sound,multiple,Nat.mod_mul_right_mod,RobinHood.dist]
  split
  · rw [show i + a.array.length * m - hash.toNat % a.array.length =
      i - hash.toNat % a.array.length + a.array.length * m by omega,Nat.add_mul_mod_self_left,Nat.mod_eq_of_lt (by omega)]
  · obtain ⟨r,rfl⟩ : ∃ r, m = r + 1 := ⟨m - 1,by
      cases m with
      | zero => simp at multiple
      | succ m => rfl⟩
    rw [Nat.mul_succ,show i + (a.array.length * r + a.array.length) - hash.toNat % a.array.length =
      i + a.array.length - hash.toNat % a.array.length + a.array.length * r by omega,Nat.add_mul_mod_self_left,
      Nat.mod_eq_of_lt (by omega)]

theorem next_eq {p : Nat} (inside : p < a.array.length) :
    next a.array.length p = (p + 1) % a.array.length := by
  rw [next]
  split
  · rw [Nat.mod_eq_of_lt (by assumption)]
  · rw [show p + 1 = a.array.length by omega,Nat.mod_self]

theorem slot_some (sound : Slotted template a) {i : Nat} {t : T} (held : cell (residents a) i = some t) :
    a.array[i]? = some ⟨template.hash_ (template.key t),some t⟩ := by
  rw [cell_residents] at held
  obtain ⟨⟨hash,_⟩,there,rfl⟩ := Option.bind_eq_some_iff.mp held
  rw [there,sound.hashed i hash t there]

theorem slot_none {i : Nat} (inside : i < a.array.length) (empty : cell (residents a) i = none) :
    ∃ hash, a.array[i]? = some ⟨hash,none⟩ := by
  rw [cell_residents,List.getElem?_eq_getElem inside,Option.bind_some] at empty
  refine ⟨a.array[i].hash,?_⟩
  rw [List.getElem?_eq_getElem inside,← empty]

/-- Elements that may be exchanged for one another hash to the same home. -/
theorem home_eq {n : Nat} {s t : T} (same : template.equal (template.key s) (template.key t) = true) :
    home template n s = home template n t := by
  rw [home,home,template.hash_eq same]

/-- The table with an element put into a slot. -/
def put (template : Template Key T) (a : HashTableType T) (num p : Nat) (t : T) : HashTableType T :=
  { a with num := num, array := a.array.set p ⟨template.hash_ (template.key t),some t⟩ }

section
variable {p num : Nat} {t : T}

theorem length_put : (put template a num p t).array.length = a.array.length := List.length_set

theorem residents_put : residents (put template a num p t) = (residents a).set p (some t) := residents_set a num p _

theorem cell_put (inside : p < a.array.length) {k : Nat} :
    cell (residents (put template a num p t)) k = if k = p then some t else cell (residents a) k := by
  rw [residents_put,cell_set t (by rw [length_residents]; exact inside)]

theorem occupied_put (inside : p < a.array.length) :
    occupied (residents (put template a num p t)) + (cell (residents a) p).isSome.toNat = occupied (residents a) + 1 := by
  rw [residents_put,occupied_set (by rw [length_residents]; exact inside)]
  rfl

/-- Putting an element with a new key down keeps the table sound, where the slot
    before supports it and the resident is not farther from home. -/
theorem sound_put (sound : Sound template a) (inside : p < a.array.length)
    (before : p ≠ home template a.array.length t → ∀ j < a.array.length, next a.array.length j = p →
      Supports (home template a.array.length) (residents a) j (dist a.array.length (home template a.array.length t) p))
    (closer : ∀ u, cell (residents a) p = some u →
      dist a.array.length (home template a.array.length u) p ≤ dist a.array.length (home template a.array.length t) p)
    (absent : ∀ j e, cell (residents a) j = some e → ¬ template.equal (template.key t) (template.key e) = true) :
    Sound template (put template a num p t) := by
  have inside' : p < (residents a).length := by rw [length_residents]; exact inside
  refine ⟨⟨?_,?_,?_,?_⟩,?_⟩
  · rw [length_put]
    exact sound.size
  · rw [length_put]
    exact sound.mask
  · intro j hash s there
    simp only [put,List.getElem?_set] at there
    split at there
    · cases there
      rfl
    · exact sound.hashed j hash s there
  · intro j k s u atJ atK same
    rw [cell_put inside] at atJ atK
    split at atJ <;> split at atK
    · omega
    · cases atJ
      exact absurd same (absent k u atK)
    · cases atK
      exact absurd (template.equivalence.symm same) (absent j s atJ)
    · exact sound.distinct j k s u atJ atK same
  · rw [residents_put,length_put]
    refine ordered_put sound.ordered inside' ?_ ?_ ?_ <;> rw [length_residents]
    · exact Nat.mod_lt _ (by omega)
    · exact before
    · exact closer

end

/-! ### Insertion -/

/-- An element is in one of the slots. -/
def Stored (a : HashTableType T) (t : T) : Prop := ∃ i, cell (residents a) i = some t

/-- What inserting an element with a new key does. -/
structure Inserted (template : Template Key T) (a b : HashTableType T) (t : T) : Prop where
  sound : Sound template b
  length : b.array.length = a.array.length
  num : b.num = (a.num + 1) % 2 ^ 32
  occupied : occupied (residents b) = occupied (residents a) + 1
  stored : ∀ e, Stored b e ↔ Stored a e ∨ e = t

theorem stored_put {p num : Nat} {t e : T} (inside : p < a.array.length) :
    Stored (put template a num p t) e ↔ e = t ∨ ∃ j, j ≠ p ∧ cell (residents a) j = some e := by
  simp only [Stored,cell_put inside]
  constructor
  · rintro ⟨j,held⟩
    split at held
    · cases held
      exact .inl rfl
    · rename_i elsewhere
      exact .inr ⟨j,elsewhere,held⟩
  · rintro (rfl | ⟨j,elsewhere,held⟩)
    · exact ⟨p,if_pos rfl⟩
    · exact ⟨j,by rw [if_neg elsewhere]; exact held⟩

/-- Filling an empty slot. -/
theorem inserted_put {p : Nat} {t : T} (inside : p < a.array.length) (empty : cell (residents a) p = none)
    (sound : Sound template (put template a ((a.num + 1) % 2 ^ 32) p t)) :
    Inserted template a (put template a ((a.num + 1) % 2 ^ 32) p t) t := by
  refine ⟨sound,length_put,rfl,?_,?_⟩
  · have count : occupied (residents (put template a ((a.num + 1) % 2 ^ 32) p t)) + _ = _ := occupied_put inside
    rw [empty] at count
    exact count
  · intro e
    rw [stored_put inside]
    constructor
    · rintro (rfl | ⟨j,_,held⟩)
      · exact .inr rfl
      · exact .inl ⟨j,held⟩
    · rintro (⟨j,held⟩ | rfl)
      · refine .inr ⟨j,?_,held⟩
        rintro rfl
        rw [empty] at held
        cases held
      · exact .inl rfl

/-- Inserting the displaced element after an exchange. -/
theorem inserted_exchange {p : Nat} {t other : T} (inside : p < a.array.length)
    (held : cell (residents a) p = some other) (inserted : Inserted template (put template a a.num p t) b other) :
    Inserted template a b t := by
  refine ⟨inserted.sound,inserted.length.trans length_put,inserted.num,?_,?_⟩
  · have count : occupied (residents (put template a a.num p t)) + _ = _ := occupied_put inside
    rw [held] at count
    rw [inserted.occupied]
    exact count
  · intro e
    rw [inserted.stored,stored_put inside]
    constructor
    · rintro ((rfl | ⟨j,_,there⟩) | rfl)
      · exact .inr rfl
      · exact .inl ⟨j,there⟩
      · exact .inl ⟨p,held⟩
    · rintro (⟨j,there⟩ | rfl)
      · by_cases here : j = p
        · subst here
          rw [held] at there
          cases there
          exact .inr rfl
        · exact .inl (.inr ⟨j,here,there⟩)
      · exact .inl (.inl rfl)

/-- An element with a new key on its way, at the slot `p` with an empty slot `gap` steps ahead. -/
structure Underway (template : Template Key T) (a : HashTableType T) (t : T) (p gap : Nat) : Prop where
  sound : Sound template a
  inside : p < a.array.length
  before : p ≠ home template a.array.length t → ∀ j < a.array.length, next a.array.length j = p →
    Supports (home template a.array.length) (residents a) j (dist a.array.length (home template a.array.length t) p)
  absent : ∀ j e, cell (residents a) j = some e → ¬ template.equal (template.key t) (template.key e) = true
  empty : cell (residents a) (ahead a.array.length p gap) = none
  roomy : dist a.array.length (home template a.array.length t) p + gap < a.array.length

section
variable {p gap num : Nat} {t other : T}

theorem home_lt (inside : p < a.array.length) : home template a.array.length t < a.array.length :=
  Nat.mod_lt _ (Nat.zero_lt_of_lt inside)

/-- A slot off the way is not the one that the element is at. -/
theorem Underway.off (way : Underway template a t p gap) {q : Nat} (off : ∀ j ≤ gap, q ≠ ahead a.array.length p j) : q ≠ p := by
  have first := off 0 (Nat.zero_le _)
  rwa [ahead_zero way.inside] at first

/-- The slots on the way that is left are those behind `p`. -/
theorem Underway.leaves (way : Underway template a t p (gap + 1)) :
    ∀ j ≤ gap, p ≠ ahead a.array.length (next a.array.length p) j := by
  have roomy := way.roomy
  intro j le same
  rw [ahead_next way.inside (by omega)] at same
  have := ahead_injective (i := p) (by omega) (show j + 1 < a.array.length by omega)
    ((ahead_zero way.inside).trans same)
  omega

theorem Underway.rest (way : Underway template a t p (gap + 1)) {q : Nat} (off : ∀ j ≤ gap + 1, q ≠ ahead a.array.length p j) :
    ∀ j ≤ gap, q ≠ ahead a.array.length (next a.array.length p) j := by
  have roomy := way.roomy
  intro j le
  rw [ahead_next way.inside (by omega)]
  exact off (j + 1) (by omega)

theorem Underway.empty_next (way : Underway template a t p (gap + 1)) :
    cell (residents a) (ahead a.array.length (next a.array.length p) gap) = none := by
  have roomy := way.roomy
  rw [ahead_next way.inside (by omega)]
  exact way.empty

/-- The element may be put down where the resident is not farther from home. -/
theorem Underway.sound_put (way : Underway template a t p gap)
    (closer : ∀ u, cell (residents a) p = some u →
      dist a.array.length (home template a.array.length u) p ≤ dist a.array.length (home template a.array.length t) p) :
    Sound template (put template a num p t) :=
  HashTable.sound_put way.sound way.inside way.before closer way.absent

/-- The resident is as far from home, and the way goes on. -/
theorem Underway.pass (way : Underway template a t p (gap + 1)) (held : cell (residents a) p = some other)
    (farther : dist a.array.length (home template a.array.length t) p ≤
      dist a.array.length (home template a.array.length other) p) :
    dist a.array.length (home template a.array.length t) (next a.array.length p) =
        dist a.array.length (home template a.array.length t) p + 1 ∧
      Underway template a t (next a.array.length p) gap := by
  have roomy := way.roomy
  have distance := dist_next (h := home template a.array.length t) (home_lt way.inside) way.inside
    (next_ne_home (home_lt way.inside) way.inside (by omega))
  refine ⟨distance,way.sound,next_lt (by omega),?_,way.absent,way.empty_next,by omega⟩
  intro _ j j_inside same
  obtain rfl := next_injective j_inside way.inside same
  refine ⟨other,held,?_⟩
  rw [length_residents]
  omega

/-- The resident is closer to home, and goes on in place of the element. -/
theorem Underway.exchange (way : Underway template a t p (gap + 1)) (held : cell (residents a) p = some other)
    (closer : dist a.array.length (home template a.array.length t) p >
      dist a.array.length (home template a.array.length other) p) :
    dist a.array.length (home template a.array.length other) (next a.array.length p) =
        dist a.array.length (home template a.array.length other) p + 1 ∧
      Underway template (put template a a.num p t) other (next a.array.length p) gap := by
  have roomy := way.roomy
  have inside := way.inside
  have distance := dist_next (h := home template a.array.length other) (home_lt inside) inside
    (next_ne_home (home_lt inside) inside (by omega))
  refine ⟨distance,way.sound_put ?_,?_,?_,?_,?_,?_⟩
  · intro u there
    rw [held] at there
    cases there
    omega
  · rw [length_put]
    exact next_lt (by omega)
  · rw [length_put]
    intro _ j j_inside same
    obtain rfl := next_injective j_inside inside same
    refine ⟨t,(cell_put inside).trans (if_pos rfl),?_⟩
    rw [length_residents,length_put]
    omega
  · intro j e there same
    rw [cell_put inside] at there
    split at there
    · cases there
      exact way.absent p other held (template.equivalence.symm same)
    · rename_i elsewhere
      exact elsewhere (way.sound.distinct j p e other there held (template.equivalence.symm same))
  · rw [length_put,cell_put inside,if_neg (Ne.symm (way.leaves gap (Nat.le_refl _)))]
    exact way.empty_next
  · rw [length_put]
    omega

/-- A turn of the loop at a slot with a resident of another key. -/
theorem insert_loop_taken {fuel i dib : Nat} {ret : Option Nat} (sound : Slotted template a) (here : p = i % a.array.length)
    (held : cell (residents a) p = some other)
    (different : ¬ template.equal (template.key t) (template.key other) = true) :
    insert_loop template (fuel + 1) a t (template.hash_ (template.key t)) i dib ret =
      if dib > dist a.array.length (home template a.array.length other) p then
        insert_loop template fuel (put template a a.num p t) other (template.hash_ (template.key other)) (p + 1)
          (dist a.array.length (home template a.array.length other) p + 1) (some (ret.getD p))
      else insert_loop template fuel a t (template.hash_ (template.key t)) (p + 1) (dib + 1) ret := by
  have inside := inside_of_cell held
  rw [length_residents] at inside
  rw [insert_loop]
  simp only [and_mask sound,← here,slot_some sound held]
  rw [if_neg fun both => different both.2,show hashtable_dib a (template.hash_ (template.key other)) p =
    dist a.array.length (home template a.array.length other) p from hashtable_dib_eq sound _ inside]
  rfl

/-- The loop of `_insert_` for an element whose key is not in the table, from the
    slot `p` on its way: the element ends up in the table, in the returned
    entry if none was returned before, and slots off the way to the next empty
    slot stay as they are. -/
theorem insert_loop_absent {fuel : Nat} {i : Nat} {ret : Option Nat} (way : Underway template a t p gap)
    (here : p = i % a.array.length) (enough : gap < fuel) :
    ∃ r b, insert_loop template fuel a t (template.hash_ (template.key t)) i
        (dist a.array.length (home template a.array.length t) p) ret = .ok (r,b) ∧ Inserted template a b t ∧
      (∀ q, (∀ j ≤ gap, q ≠ ahead a.array.length p j) → cell (residents b) q = cell (residents a) q) ∧
      (ret = none → cell (residents b) r = some t) ∧ ∀ q, ret = some q → r = q := by
  induction fuel generalizing gap a t i p ret with
  | zero => omega
  | succ fuel ih =>
    have inside := way.inside
    cases held : cell (residents a) p with
    | none =>
      obtain ⟨old,there⟩ := slot_none inside held
      have sound : Sound template (put template a ((a.num + 1) % 2 ^ 32) p t) := by
        refine way.sound_put fun u there => ?_
        rw [held] at there
        cases there
      rw [insert_loop]
      simp only [and_mask way.sound.toSlotted,← here,there]
      refine ⟨_,_,rfl,inserted_put inside held sound,?_,?_,?_⟩
      · intro q off
        exact (cell_put inside).trans (if_neg (way.off off))
      · rintro rfl
        exact (cell_put inside).trans (if_pos rfl)
      · rintro q rfl
        rfl
    | some other =>
      obtain ⟨gap,rfl⟩ : ∃ m, gap = m + 1 := by
        cases gap with
        | zero =>
          have empty := way.empty
          rw [ahead_zero inside,held] at empty
          cases empty
        | succ m => exact ⟨m,rfl⟩
      rw [insert_loop_taken way.sound.toSlotted here held (way.absent p other held)]
      by_cases closer : dist a.array.length (home template a.array.length t) p >
          dist a.array.length (home template a.array.length other) p
      · obtain ⟨distance,further⟩ := way.exchange held closer
        have next_one := @ih (put template a a.num p t) _ gap other (p + 1) (some (ret.getD p)) further
        rw [length_put,distance] at next_one
        obtain ⟨r,b,run,inserted,kept,_,later⟩ := next_one (next_eq inside) (by omega)
        rw [if_pos closer]
        refine ⟨r,b,run,inserted_exchange inside held inserted,?_,?_,?_⟩
        · intro q off
          rw [kept q (way.rest off),cell_put inside,if_neg (way.off off)]
        · rintro rfl
          rw [later p rfl,kept p way.leaves,cell_put inside,if_pos rfl]
        · rintro q rfl
          exact later q rfl
      · obtain ⟨distance,further⟩ := way.pass held (Nat.le_of_not_gt closer)
        have next_one := @ih a _ gap t (p + 1) ret further
        rw [distance] at next_one
        obtain ⟨r,b,run,inserted,kept,first,later⟩ := next_one (next_eq inside) (by omega)
        rw [if_neg closer]
        exact ⟨r,b,run,inserted,fun q off => kept q (way.rest off),first,later⟩

end

/-- A way from any slot to an empty one. -/
theorem exists_gap (room : occupied (residents a) < a.array.length) {p : Nat}
    (inside : p < a.array.length) :
    ∃ gap, gap < a.array.length ∧ cell (residents a) (ahead a.array.length p gap) = none := by
  rw [← length_residents] at room
  obtain ⟨i,there,empty⟩ := exists_empty room
  rw [length_residents] at there
  exact ⟨dist a.array.length p i,dist_lt inside there,by rw [ahead_dist inside there]; exact empty⟩

/-- Inserting an element with a new key in a table that is not full. -/
theorem insert_absent (sound : Sound template a) (room : occupied (residents a) < a.array.length) {t : T}
    (absent : ∀ e, Stored a e → ¬ template.equal (template.key t) (template.key e) = true) :
    ∃ r b, insert_ template a t (template.hash_ (template.key t)) = .ok (r,b) ∧ Inserted template a b t ∧
      cell (residents b) r = some t := by
  have homeInside : home template a.array.length t < a.array.length := Nat.mod_lt _ (by omega)
  obtain ⟨gap,near,empty⟩ := exists_gap room homeInside
  have way : Underway template a t (home template a.array.length t) gap :=
    ⟨sound,homeInside,fun away => absurd rfl away,fun j e held => absent e ⟨j,held⟩,empty,by rw [dist_self]; omega⟩
  obtain ⟨r,b,run,inserted,_,first,_⟩ := @insert_loop_absent _ _ _ _ _ _ _ (a.array.length + 1)
    (template.hash_ (template.key t)).toNat none way rfl (by omega)
  rw [dist_self] at run
  exact ⟨r,b,run,inserted,first rfl⟩

section
variable {s : Nat} {e : T} {k : Key}

/-- The slots from the home of a key to its element, and what is seen there. -/
theorem way_cases (sound : Sound template a) (held : cell (residents a) s = some e)
    (same : template.equal k (template.key e) = true) {i d : Nat}
    (here : i % a.array.length = ahead a.array.length (home template a.array.length e) d)
    (le : d ≤ dist a.array.length (home template a.array.length e) s) :
    ∃ b, cell (residents a) (i % a.array.length) = some b ∧
      d ≤ dist a.array.length (home template a.array.length b) (i % a.array.length) ∧
      ((i % a.array.length = s ∧ b = e) ∨ (¬ template.equal k (template.key b) = true ∧
        d + 1 ≤ dist a.array.length (home template a.array.length e) s ∧
        (i % a.array.length + 1) % a.array.length =
          ahead a.array.length (home template a.array.length e) (d + 1))) := by
  have inside := inside_of_cell held
  rw [length_residents] at inside
  have homeInside : home template a.array.length e < a.array.length := Nat.mod_lt _ (by omega)
  have far := dist_lt homeInside inside
  obtain ⟨b,there,distance⟩ := ordered_way sound.ordered held d (by rw [length_residents]; exact le)
  rw [length_residents,← here] at there distance
  refine ⟨b,there,distance,?_⟩
  by_cases found : template.equal k (template.key b) = true
  · have at_ := sound.distinct _ s b e there held
      (template.equivalence.trans (template.equivalence.symm found) same)
    rw [at_,held] at there
    cases there
    exact .inl ⟨at_,rfl⟩
  · refine .inr ⟨found,?_,?_⟩
    · by_contra last
      obtain rfl : d = dist a.array.length (home template a.array.length e) s := by omega
      rw [here,ahead_dist homeInside inside,held] at there
      cases there
      exact found same
    · have notLast : d ≠ dist a.array.length (home template a.array.length e) s := by
        rintro rfl
        rw [here,ahead_dist homeInside inside,held] at there
        cases there
        exact found same
      rw [← next_eq (Nat.mod_lt _ (by omega)),here,next_ahead homeInside (by omega)]

/-- The loop of `_insert_` stops at an element with the same key. -/
theorem insert_loop_present {t : T} (sound : Sound template a) (held : cell (residents a) s = some e)
    (same : template.equal (template.key t) (template.key e) = true) :
    ∀ {fuel i d}, i % a.array.length = ahead a.array.length (home template a.array.length e) d →
      d ≤ dist a.array.length (home template a.array.length e) s →
      dist a.array.length (home template a.array.length e) s < fuel + d →
      insert_loop template fuel a t (template.hash_ (template.key t)) i d none = .ok (s,a) := by
  intro fuel
  induction fuel with
  | zero => intro i d _ le enough; omega
  | succ fuel ih =>
    intro i d here le enough
    obtain ⟨b,there,distance,found⟩ := way_cases sound held same here le
    have inside := inside_of_cell there
    rw [length_residents] at inside
    rw [insert_loop]
    simp only [and_mask sound.toSlotted,slot_some sound.toSlotted there]
    obtain ⟨at_,rfl⟩ | ⟨other,further,onward⟩ := found
    · rw [if_pos ⟨template.hash_eq same,same⟩,if_pos trivial,at_]
    · rw [if_neg fun both => other both.2,show hashtable_dib a (template.hash_ (template.key b)) _ =
        dist a.array.length (home template a.array.length b) _ from hashtable_dib_eq sound.toSlotted _ inside,
        if_neg (by omega)]
      exact ih onward further (by omega)

theorem insert_present {t : T} (sound : Sound template a) (held : cell (residents a) s = some e)
    (same : template.equal (template.key t) (template.key e) = true) :
    insert_ template a t (template.hash_ (template.key t)) = .ok (s,a) := by
  have inside := inside_of_cell held
  rw [length_residents] at inside
  have homeInside : home template a.array.length e < a.array.length := Nat.mod_lt _ (by omega)
  have far := dist_lt homeInside inside
  refine insert_loop_present sound held same ?_ (Nat.zero_le _) (by omega)
  rw [ahead_zero homeInside]
  exact home_eq same

/-! ### Lookup -/

theorem find_loop_present (sound : Sound template a) (held : cell (residents a) s = some e)
    (same : template.equal k (template.key e) = true) :
    ∀ {fuel i d}, i % a.array.length = ahead a.array.length (home template a.array.length e) d →
      d ≤ dist a.array.length (home template a.array.length e) s →
      dist a.array.length (home template a.array.length e) s < fuel + d →
      find_loop template a k (template.hash_ k) 0 fuel i = .ok (some s) := by
  intro fuel
  induction fuel with
  | zero => intro i d _ le enough; omega
  | succ fuel ih =>
    intro i d here le enough
    obtain ⟨b,there,_,found⟩ := way_cases sound held same here le
    rw [find_loop]
    simp only [and_mask sound.toSlotted,slot_some sound.toSlotted there,gt_iff_lt,Nat.not_lt_zero,if_false]
    obtain ⟨at_,rfl⟩ | ⟨other,further,onward⟩ := found
    · rw [if_pos ⟨template.hash_eq same,same⟩,at_]
    · rw [if_neg fun both => other both.2]
      exact ih onward further (by omega)

theorem find_present (sound : Sound template a) (held : cell (residents a) s = some e)
    (same : template.equal k (template.key e) = true) : find template a k = .ok (some s) := by
  have inside := inside_of_cell held
  rw [length_residents] at inside
  have homeInside : home template a.array.length e < a.array.length := Nat.mod_lt _ (by omega)
  have far := dist_lt homeInside inside
  refine find_loop_present sound held same (d := 0) ?_ (Nat.zero_le _) (by omega)
  rw [ahead_zero homeInside,template.hash_eq same]
  rfl

/-- The loop of `_find_` for a key that is not in the table goes on to an empty slot. -/
theorem find_loop_absent (sound : Sound template a)
    (absent : ∀ e, Stored a e → ¬ template.equal k (template.key e) = true) :
    ∀ {fuel gap i}, cell (residents a) (ahead a.array.length (i % a.array.length) gap) = none →
      gap < a.array.length → gap < fuel → find_loop template a k (template.hash_ k) 0 fuel i = .ok none := by
  have wide := sound.ordered.wide
  rw [length_residents] at wide
  intro fuel
  induction fuel with
  | zero => intro gap i _ _ enough; omega
  | succ fuel ih =>
    intro gap i empty near enough
    have inside : i % a.array.length < a.array.length := Nat.mod_lt _ (by omega)
    rw [find_loop]
    simp only [and_mask sound.toSlotted]
    cases held : cell (residents a) (i % a.array.length) with
    | none =>
      obtain ⟨old,there⟩ := slot_none inside held
      simp only [there]
    | some b =>
      obtain ⟨gap,rfl⟩ : ∃ m, gap = m + 1 := by
        cases gap with
        | zero =>
          rw [ahead_zero inside,held] at empty
          cases empty
        | succ m => exact ⟨m,rfl⟩
      simp only [slot_some sound.toSlotted held,gt_iff_lt,Nat.not_lt_zero,if_false]
      rw [if_neg fun both => absent b ⟨_,held⟩ both.2]
      rw [← ahead_next inside near,next_eq inside] at empty
      exact ih empty (by omega) (by omega)

theorem find_absent (sound : Sound template a) (room : occupied (residents a) < a.array.length)
    (absent : ∀ e, Stored a e → ¬ template.equal k (template.key e) = true) : find template a k = .ok none := by
  obtain ⟨gap,near,empty⟩ := exists_gap room
    (show (template.hash_ k).toNat % a.array.length < a.array.length from Nat.mod_lt _ (by omega))
  exact find_loop_absent sound absent empty near (by omega)

end

/-! ### Growth -/

/-- The size is the smallest power of two above the goal. -/
theorem grow_size_loop {goal : Nat} (small : goal < 2 ^ 31) :
    ∀ {fuel j}, j + fuel = 33 → j ≤ 31 → (0 < j → 2 ^ (j - 1) ≤ goal) →
      ∃ k, k ≤ 31 ∧ grow_size goal fuel (2 ^ j) = .ok (2 ^ k) ∧ goal < 2 ^ k ∧ (0 < k → 2 ^ (k - 1) ≤ goal) := by
  intro fuel
  induction fuel with
  | zero => intro j shifts le _; omega
  | succ fuel ih =>
    intro j shifts le before
    rw [grow_size]
    by_cases more : goal ≥ 2 ^ j
    · have below : j < 31 := by
        by_contra top
        have : j = 31 := by omega
        subst this
        omega
      have shifted : 2 ^ j <<< 1 % 2 ^ 32 = 2 ^ (j + 1) := by
        rw [Nat.shiftLeft_eq,Nat.pow_one,← Nat.pow_succ,Nat.mod_eq_of_lt (Nat.pow_lt_pow_right (by decide) (by omega))]
      rw [if_pos more,shifted]
      exact ih (by omega) (by omega) fun _ => more
    · rw [if_neg more]
      exact ⟨j,le,rfl,by omega,before⟩

theorem grow_size_total {goal : Nat} (positive : 0 < goal) (small : goal < 2 ^ 31) :
    ∃ k, 0 < k ∧ k ≤ 31 ∧ grow_size goal 33 1 = .ok (2 ^ k) ∧ goal < 2 ^ k ∧ 2 ^ k ≤ 2 * goal := by
  obtain ⟨k,le,run,above,below⟩ := grow_size_loop small (show 0 + 33 = 33 from rfl) (by decide) (by omega)
  obtain _ | k := k
  · omega
  · refine ⟨k + 1,by omega,le,run,above,?_⟩
    have := below (by omega)
    rw [Nat.add_sub_cancel] at this
    rw [Nat.pow_succ]
    omega

/-! ### Rehashing -/

/-- The slots of an array of which the first `i` have been seen. -/
theorem occupied_take {cells : List (Option T)} {i : Nat} (inside : i < cells.length) :
    occupied (cells.take (i + 1)) = occupied (cells.take i) + (cell cells i).isSome.toNat := by
  rw [List.take_succ_eq_append_getElem inside,occupied,occupied,List.countP_append,cell,
    List.getElem?_eq_getElem inside]
  cases cells[i] <;> rfl

/-- A new array of slots. -/
theorem sound_empty {k : Nat} (template : Template Key T) (positive : 0 < k) (le : k ≤ 31) {mask : Nat}
    (maskIs : mask + 1 = 2 ^ k) (num : Nat) :
    Sound template ⟨mask,num,List.replicate (2 ^ k) ⟨0,none⟩⟩ ∧
      occupied (residents (⟨mask,num,List.replicate (2 ^ k) ⟨0,none⟩⟩ : HashTableType T)) = 0 ∧
      ∀ e, ¬ Stored (⟨mask,num,List.replicate (2 ^ k) ⟨0,none⟩⟩ : HashTableType T) e := by
  have wide : 1 < 2 ^ k := Nat.one_lt_two_pow (by omega)
  have none : ∀ j, cell (residents (⟨mask,num,List.replicate (2 ^ k) ⟨0,none⟩⟩ : HashTableType T)) j = none := by
    intro j
    rw [cell_residents,List.getElem?_replicate]
    split
    · rfl
    · rfl
  refine ⟨⟨⟨⟨k,le,List.length_replicate⟩,by rw [maskIs,List.length_replicate],?_,?_⟩,⟨?_,?_,?_⟩⟩,?_,?_⟩
  · intro i hash t there
    rw [List.getElem?_replicate] at there
    split at there
    · cases there
    · cases there
  · intro i j s t held
    rw [none] at held
    cases held
  · rw [length_residents,List.length_replicate]
    exact wide
  · intro i a held
    rw [none] at held
    cases held
  · intro i _ a held
    rw [none] at held
    cases held
  · rw [residents,List.map_replicate,occupied,List.countP_replicate]
    rfl
  · rintro e ⟨j,held⟩
    rw [none] at held
    cases held

/-- What rehashing keeps. -/
structure Rehashed (template : Template Key T) (a b : HashTableType T) (size : Nat) : Prop where
  sound : Sound template b
  length : b.array.length = size
  num : b.num = occupied (residents a)
  occupied : occupied (residents b) = occupied (residents a)
  stored : ∀ e, Stored b e ↔ Stored a e

theorem rehash_loop_total (slotted : Slotted template a) : ∀ {fuel i} {c : HashTableType T}, Sound template c →
    i ≤ a.array.length → i + fuel = a.array.length + 1 → c.num = occupied ((residents a).take i) →
    occupied (residents c) = occupied ((residents a).take i) → occupied (residents a) < c.array.length →
    (∀ e, Stored c e ↔ ∃ j < i, cell (residents a) j = some e) →
    ∃ b, rehash_loop template a.array a.mask fuel i c = .ok b ∧ Rehashed template a b c.array.length := by
  have mask := slotted.mask
  have le : ∀ i, occupied ((residents a).take i) ≤ occupied (residents a) := fun i =>
    (List.take_sublist i _).countP_le
  have bound : occupied (residents a) ≤ 2 ^ 31 := by
    obtain ⟨k,small,length⟩ := slotted.size
    have := occupied_le (residents a)
    rw [length_residents,length] at this
    exact Nat.le_trans this (Nat.pow_le_pow_right (by decide) small)
  intro fuel
  induction fuel with
  | zero => intro i c _ inside slots; omega
  | succ fuel ih =>
    intro i c soundC seen slots num count room stored
    rw [rehash_loop]
    by_cases more : a.mask ≥ i
    · have inside : i < a.array.length := by omega
      have further := occupied_take (by rw [length_residents]; exact inside : i < (residents a).length)
      have upTo : ∀ {e}, (∃ j < i + 1, cell (residents a) j = some e) ↔
          (∃ j < i, cell (residents a) j = some e) ∨ cell (residents a) i = some e := by
        intro e
        constructor
        · rintro ⟨j,before,held⟩
          by_cases here : j = i
          · exact .inr (here ▸ held)
          · exact .inl ⟨j,by omega,held⟩
        · rintro (⟨j,before,held⟩ | held)
          · exact ⟨j,by omega,held⟩
          · exact ⟨i,by omega,held⟩
      rw [if_pos more]
      cases held : cell (residents a) i with
      | none =>
        obtain ⟨hash,there⟩ := slot_none inside held
        rw [held] at further
        simp only [there]
        refine ih soundC inside (by omega) (by rw [num,further]; rfl) (by rw [count,further]; rfl) room ?_
        intro e
        rw [stored,upTo,held]
        simp
      | some t =>
        rw [held] at further
        simp only [slot_some slotted held]
        have absent : ∀ e, Stored c e → ¬ template.equal (template.key t) (template.key e) = true := by
          intro e there same
          obtain ⟨j,before,there'⟩ := (stored e).mp there
          have := slotted.distinct i j t e held there' same
          omega
        obtain ⟨r,b,run,inserted,_⟩ := insert_absent soundC (Nat.lt_of_le_of_lt (count ▸ le i) room) absent
        have below := le i
        simp only [run,bind,Except.bind]
        rw [← inserted.length] at room ⊢
        refine ih inserted.sound inside (by omega) ?_ ?_ room ?_
        · rw [inserted.num,num,further,Nat.mod_eq_of_lt (by omega)]
          rfl
        · rw [inserted.occupied,count,further]
          rfl
        · intro e
          rw [inserted.stored,stored,upTo,held]
          simp [eq_comm]
    · obtain rfl : i = a.array.length := by omega
      rw [← length_residents,List.take_length] at num count
      rw [if_neg more]
      refine ⟨c,rfl,soundC,rfl,num,count,?_⟩
      intro e
      rw [stored]
      constructor
      · rintro ⟨j,_,held⟩
        exact ⟨j,held⟩
      · rintro ⟨j,held⟩
        exact ⟨j,by rw [← length_residents]; exact inside_of_cell held,held⟩

/-- Rehashing into a table that has room for all elements. -/
theorem rehash_total (fresh : a.array = [] ∨ Slotted template a) {k : Nat} (positive : 0 < k) (le : k ≤ 31)
    (room : occupied (residents a) < 2 ^ k) :
    ∃ b, rehash_ template a (2 ^ k) = .ok b ∧ Rehashed template a b (2 ^ k) := by
  have wide : 1 < 2 ^ k := Nat.one_lt_two_pow (by omega)
  have top : 2 ^ k ≤ 2 ^ 31 := Nat.pow_le_pow_right (by decide) le
  have mask : (2 ^ k + (2 ^ 32 - 1)) % 2 ^ 32 + 1 = 2 ^ k := by omega
  obtain ⟨sound,none,nothing⟩ := sound_empty template positive le mask 0
  have power : 0 = (2 ^ k - 1) &&& 2 ^ k := by
    rw [Nat.and_comm,Nat.and_two_pow_sub_one_eq_mod,Nat.mod_self]
  rw [rehash_,if_pos power]
  obtain null | old := fresh
  · have empty : residents a = [] := by rw [residents,null,List.map_nil]
    simp only [null]
    refine ⟨_,rfl,sound,List.length_replicate,by rw [empty]; rfl,by rw [none,empty]; rfl,?_⟩
    intro e
    refine iff_of_false (nothing e) ?_
    rintro ⟨j,held⟩
    rw [empty] at held
    exact absurd (inside_of_cell held) (Nat.not_lt_zero j)
  · have allocated : a.array.isEmpty = false := by
      have := old.mask
      rw [List.isEmpty_eq_false_iff_exists_mem]
      exact ⟨_,List.getElem_mem (show 0 < a.array.length by omega)⟩
    have maskA := old.mask
    simp only [allocated]
    rw [if_neg (by decide)]
    have moved := rehash_loop_total old sound (Nat.zero_le _) (show 0 + (a.mask + 2) = a.array.length + 1 by omega) rfl none
      (by simp only [List.length_replicate]; exact room) (by
        intro e
        refine iff_of_false (nothing e) ?_
        rintro ⟨j,before,_⟩
        exact absurd before (Nat.not_lt_zero j))
    simpa only [List.length_replicate] using moved

/-! ### Erasure -/

/-- A table with a gap at slot `i`, left by an element at distance `d`. -/
structure Hollow (template : Template Key T) (a : HashTableType T) (i d : Nat) : Prop extends Slotted template a where
  gap : Gap (home template a.array.length) (residents a) i d

/-- The table with the element of slot `j` moved to slot `i`. -/
def pull (template : Template Key T) (a : HashTableType T) (i j : Nat) (t : T) : HashTableType T :=
  let hash := template.hash_ (template.key t)
  { a with array := (a.array.set i ⟨hash,some t⟩).set j ⟨hash,none⟩ }

section
variable {i j : Nat} {t : T}

theorem length_pull : (pull template a i j t).array.length = a.array.length := by
  rw [pull,List.length_set,List.length_set]

theorem residents_pull : residents (pull template a i j t) = ((residents a).set i (some t)).set j none := by
  rw [residents,residents,pull,List.map_set,List.map_set]

theorem cell_pull (inside : i < a.array.length) {k : Nat} :
    cell (residents (pull template a i j t)) k =
      if k = j then none else if k = i then some t else cell (residents a) k := by
  rw [residents_pull,cell_clear,cell_set t (by rw [length_residents]; exact inside)]

/-- Moving the next element into the gap. -/
theorem hollow_pull {d : Nat} (hollow : Hollow template a i d)
    (held : cell (residents a) (next a.array.length i) = some t)
    (away : next a.array.length i ≠ home template a.array.length t) :
    Hollow template (pull template a i (next a.array.length i) t) (next a.array.length i)
      (dist a.array.length (home template a.array.length t) (next a.array.length i)) := by
  have wide := hollow.gap.wide
  have inside := hollow.gap.inside
  rw [length_residents] at wide inside
  have differ := next_ne wide inside
  refine ⟨⟨by rw [length_pull]; exact hollow.size,by rw [length_pull]; exact hollow.mask,?_,?_⟩,?_⟩
  · intro k hash s there
    simp only [pull,List.getElem?_set] at there
    split at there
    · split at there <;> cases there
    · split at there
      · cases there
        rfl
      · exact hollow.hashed k hash s there
  · -- Two slots with one key would have been two before.
    have origin : ∀ {k s}, cell (residents (pull template a i (next a.array.length i) t)) k = some s →
        cell (residents a) (if k = i then next a.array.length i else k) = some s ∧ k ≠ next a.array.length i := by
      intro k s there
      rw [cell_pull inside] at there
      split at there
      · cases there
      · rename_i elsewhere
        refine ⟨?_,elsewhere⟩
        split at there
        · rename_i here
          cases there
          rw [if_pos here]
          exact held
        · rename_i here
          rw [if_neg here]
          exact there
    intro k l s u atK atL same
    obtain ⟨heldK,otherK⟩ := origin atK
    obtain ⟨heldL,otherL⟩ := origin atL
    have equal := hollow.distinct _ _ s u heldK heldL same
    split at equal <;> split at equal
    · omega
    · exact absurd equal.symm otherL
    · exact absurd equal otherK
    · exact equal
  · have shifted := gap_shift hollow.gap (by rw [length_residents]; exact held)
      (by rw [length_residents]; exact away)
    rw [length_residents] at shifted
    rw [length_pull,residents_pull]
    exact shifted

theorem stored_pull {e : T} (inside : i < a.array.length) (empty : cell (residents a) i = none)
    (held : cell (residents a) j = some t) : Stored (pull template a i j t) e ↔ Stored a e := by
  simp only [Stored,cell_pull inside]
  have differ : i ≠ j := by
    rintro rfl
    rw [empty] at held
    cases held
  constructor
  · rintro ⟨k,there⟩
    split at there
    · cases there
    · split at there
      · cases there
        exact ⟨j,held⟩
      · exact ⟨k,there⟩
  · rintro ⟨k,there⟩
    by_cases last : k = j
    · subst last
      rw [held] at there
      cases there
      exact ⟨i,by rw [if_neg differ,if_pos rfl]⟩
    · refine ⟨k,?_⟩
      rw [if_neg last,if_neg,there]
      rintro rfl
      rw [empty] at there
      cases there

theorem occupied_pull (inside : i < a.array.length) (there : j < a.array.length)
    (empty : cell (residents a) i = none) (held : cell (residents a) j = some t) :
    occupied (residents (pull template a i j t)) = occupied (residents a) := by
  have differ : i ≠ j := by
    rintro rfl
    rw [empty] at held
    cases held
  have inside' : i < (residents a).length := by rw [length_residents]; exact inside
  have filled := occupied_set inside' (some t)
  have cleared := occupied_set (show j < ((residents a).set i (some t)).length by
    rw [List.length_set,length_residents]; exact there) none
  rw [cell_set t inside',if_neg (Ne.symm differ),held] at cleared
  rw [empty] at filled
  rw [residents_pull]
  simp at filled cleared
  omega

end

/-- What moving elements back into a gap keeps. -/
structure Closed (template : Template Key T) (a b : HashTableType T) : Prop where
  sound : Sound template b
  length : b.array.length = a.array.length
  num : b.num = a.num
  occupied : occupied (residents b) = occupied (residents a)
  stored : ∀ e, Stored b e ↔ Stored a e

/-- The loop of `_erase` closes the gap, at the latest before an empty slot. -/
theorem erase_loop_total : ∀ {fuel steps} {a : HashTableType T} {i d : Nat}, Hollow template a i d →
    cell (residents a) (ahead a.array.length i (steps + 1)) = none → steps + 1 < a.array.length → steps < fuel →
    ∃ b, erase_loop fuel a i = .ok b ∧ Closed template a b := by
  intro fuel
  induction fuel with
  | zero => intro steps a i d _ _ _ enough; omega
  | succ fuel ih =>
    intro steps a i d hollow empty near enough
    have inside := hollow.gap.inside
    rw [length_residents] at inside
    have onward := next_lt (n := a.array.length) (i := i) (by omega)
    rw [erase_loop]
    simp only [and_mask hollow.toSlotted,← next_eq inside]
    cases held : cell (residents a) (next a.array.length i) with
    | none =>
      obtain ⟨hash,there⟩ := slot_none onward held
      simp only [there]
      refine ⟨a,rfl,⟨hollow.toSlotted,ordered_of_gap hollow.gap ?_⟩,rfl,rfl,rfl,fun _ => Iff.rfl⟩
      intro t there'
      rw [length_residents,held] at there'
      cases there'
    | some t =>
      have homeInside : home template a.array.length t < a.array.length := Nat.mod_lt _ (by omega)
      simp only [slot_some hollow.toSlotted held,Option.isNone_some]
      rw [if_neg (by decide),show hashtable_dib a (template.hash_ (template.key t)) _ =
        dist a.array.length (home template a.array.length t) _ from hashtable_dib_eq hollow.toSlotted _ onward]
      by_cases atHome : next a.array.length i = home template a.array.length t
      · rw [if_pos ((dist_eq_zero_iff homeInside).mpr atHome).symm]
        refine ⟨a,rfl,⟨hollow.toSlotted,ordered_of_gap hollow.gap ?_⟩,rfl,rfl,rfl,fun _ => Iff.rfl⟩
        intro u there'
        rw [length_residents,held] at there'
        cases there'
        rw [length_residents]
        exact atHome
      · rw [if_neg fun zero => atHome ((dist_eq_zero_iff homeInside).mp zero.symm)]
        obtain ⟨steps,rfl⟩ : ∃ m, steps = m + 1 := by
          cases steps with
          | zero =>
            rw [← ahead_next inside near,ahead_zero onward,held] at empty
            cases empty
          | succ m => exact ⟨m,rfl⟩
        have slot := hollow.gap.empty
        obtain ⟨b,run,closed⟩ := ih (hollow_pull hollow held atHome) (by
            rw [length_pull,cell_pull inside,ahead_next inside near,if_neg (c := _ = i),empty,ite_self]
            intro same
            have := ahead_injective (i := i) near (show 0 < a.array.length by omega)
              (same.trans (ahead_zero inside).symm)
            omega) (by rw [length_pull]; omega) (by omega)
        exact ⟨b,run,closed.sound,closed.length.trans length_pull,closed.num,
          closed.occupied.trans (occupied_pull inside onward slot held),
          fun e => (closed.stored e).trans (stored_pull inside slot held)⟩

/-- What erasing an element does. -/
structure Erased (template : Template Key T) (a b : HashTableType T) (t : T) : Prop where
  sound : Sound template b
  length : b.array.length = a.array.length
  num : b.num = a.num
  occupied : occupied (residents b) + 1 = occupied (residents a)
  stored : ∀ e, Stored b e ↔ Stored a e ∧ ¬ template.equal (template.key t) (template.key e) = true

theorem residents_clear (i : Nat) (hash : UInt32) :
    residents { a with array := a.array.set i ⟨hash,none⟩ } = (residents a).set i none := by
  rw [residents,residents,List.map_set]

/-- A slot that is emptied is a gap as long as the way that its element had come. -/
theorem hollow_clear (sound : Sound template a) {i : Nat} {t : T} (hash : UInt32) (held : cell (residents a) i = some t) :
    Hollow template { a with array := a.array.set i ⟨hash,none⟩ } i
      (dist a.array.length (home template a.array.length t) i) := by
  have length : (a.array.set i ⟨hash,none⟩).length = a.array.length := List.length_set
  refine ⟨⟨by rw [length]; exact sound.size,by rw [length]; exact sound.mask,?_,?_⟩,?_⟩
  · intro j other s at_
    rw [List.getElem?_set] at at_
    split at at_
    · split at at_
      · cases at_
      · cases at_
    · exact sound.hashed j other s at_
  · intro j l s u atJ atL same
    rw [residents_clear,cell_clear] at atJ atL
    split at atJ
    · cases atJ
    · split at atL
      · cases atL
      · exact sound.distinct j l s u atJ atL same
  · have gap := gap_of_ordered sound.ordered held
    rw [length_residents] at gap
    rw [length,residents_clear]
    exact gap

/-- All other elements are still stored. -/
theorem stored_clear (sound : Sound template a) {i : Nat} {t : T} (held : cell (residents a) i = some t) (e : T) :
    (∃ j, cell ((residents a).set i none) j = some e) ↔
      Stored a e ∧ ¬ template.equal (template.key t) (template.key e) = true := by
  simp only [Stored,cell_clear]
  constructor
  · rintro ⟨j,there⟩
    split at there
    · cases there
    · rename_i elsewhere
      exact ⟨⟨j,there⟩,fun same => elsewhere (sound.distinct i j t e held there same).symm⟩
  · rintro ⟨⟨j,there⟩,different⟩
    refine ⟨j,?_⟩
    rw [if_neg,there]
    rintro rfl
    rw [held] at there
    cases there
    exact different (template.equivalence.refl _)

theorem erase_total (sound : Sound template a) (room : occupied (residents a) < a.array.length) {i : Nat} {t : T}
    (held : cell (residents a) i = some t) :
    ∃ b, erase a i = .ok (some t,b) ∧ Erased template a b t := by
  have inside := inside_of_cell held
  rw [length_residents] at inside
  have inside' : i < (residents a).length := by rw [length_residents]; exact inside
  obtain ⟨k,there,empty⟩ := exists_empty (by rw [length_residents]; exact room)
  rw [length_residents] at there
  have other : k ≠ i := by
    rintro rfl
    rw [held] at empty
    cases empty
  obtain ⟨c,cIs⟩ : ∃ c : HashTableType T,
      c = { a with array := a.array.set i ⟨template.hash_ (template.key t),none⟩ } := ⟨_,rfl⟩
  have length : c.array.length = a.array.length := by rw [cIs,List.length_set]
  have cells : residents c = (residents a).set i none := by rw [cIs,residents_clear]
  have hollow : Hollow template c i (dist a.array.length (home template a.array.length t) i) := by
    rw [cIs]
    exact hollow_clear sound _ held
  -- The empty slot is some steps behind the gap.
  obtain ⟨steps,stepsIs⟩ : ∃ m, dist a.array.length i k = m + 1 := by
    have := (dist_eq_zero_iff (n := a.array.length) (i := k) inside).not.mpr other
    exact ⟨dist a.array.length i k - 1,by omega⟩
  have far := dist_lt inside there
  obtain ⟨b,run,closed⟩ := erase_loop_total hollow
    (by rw [length,← stepsIs,ahead_dist inside there,cells,cell_clear,if_neg other,empty]) (by omega)
    (show _ < a.array.length + 1 by omega)
  refine ⟨b,?_,closed.sound,closed.length.trans length,by rw [closed.num,cIs],?_,?_⟩
  · rw [erase,slot_some sound.toSlotted held]
    simp only [← cIs,run,bind,Except.bind]
  · have count := occupied_set inside' none
    rw [held] at count
    rw [closed.occupied,cells]
    exact count
  · intro e
    rw [closed.stored,← stored_clear sound held e,← cells]
    rfl

/-! ### The operations -/

/-- A table that has been inserted into: it has an empty slot. -/
structure Live (template : Template Key T) (a : HashTableType T) : Prop extends Sound template a where
  room : a.num ≤ a.mask
  counted : occupied (residents a) ≤ a.num

theorem live_room (live : Live template a) : occupied (residents a) < a.array.length := by
  have := live.room
  have := live.counted
  have := live.mask
  omega

theorem growth_goal_le (live : Live template a) :
    growth_goal template a = max template.start_size.toNat a.array.length := by
  obtain ⟨k,small,length⟩ := live.size
  have top : 2 ^ k ≤ 2 ^ 31 := Nat.pow_le_pow_right (by decide) small
  rw [growth_goal,live.mask,length,Nat.mod_eq_of_lt (by omega)]

theorem threshold_le (a : HashTableType T) : threshold a ≤ 9 * a.mask / 10 :=
  Nat.div_le_div_right (Nat.mod_le _ _)

/-- The table that `_insert` puts the element in. -/
structure Grown (template : Template Key T) (a c : HashTableType T) : Prop where
  sound : Sound template c
  room : c.num < c.mask
  counted : occupied (residents c) ≤ c.num
  occupied : occupied (residents c) = occupied (residents a)
  stored : ∀ e, Stored c e ↔ Stored a e
  exact : a.num = Cells.occupied (residents a) → c.num = Cells.occupied (residents c)
  size : (a.num < threshold a ∧ c.array.length = a.array.length) ∨ (threshold a ≤ a.num ∧ growth_goal template a < c.array.length ∧
    c.array.length ≤ 2 * growth_goal template a)

theorem grow_total (state : a = init ∨ Live template a) (fits : threshold a ≤ a.num → growth_goal template a < 2 ^ 31) :
    ∃ c, grow template a = .ok c ∧ Grown template a c := by
  by_cases full : a.num ≥ threshold a
  · rw [grow,if_pos full]
    have enough : occupied (residents a) ≤ a.mask ∧ a.mask < growth_goal template a := by
      obtain rfl | live := state
      · exact ⟨Nat.le_refl _,Nat.lt_of_lt_of_le Nat.zero_lt_one (Nat.le_max_right _ _)⟩
      · have := growth_goal_le live
        have := live.mask
        exact ⟨Nat.le_trans live.counted live.room,by omega⟩
    obtain ⟨k,positive,le,run,above,below⟩ := grow_size_total (by omega) (fits full)
    have array : a.array = [] ∨ Slotted template a := by
      obtain rfl | live := state
      · exact .inl rfl
      · exact .inr live.toSlotted
    obtain ⟨c,run',rehashed⟩ := rehash_total array positive le (by omega)
    have mask := rehashed.sound.mask
    rw [rehashed.length] at mask
    refine ⟨c,by rw [run]; exact run',rehashed.sound,?_,?_,rehashed.occupied,rehashed.stored,?_,.inr ?_⟩
    · rw [rehashed.num]
      omega
    · rw [rehashed.num,rehashed.occupied]
    · intro _
      rw [rehashed.num,rehashed.occupied]
    · rw [rehashed.length]
      exact ⟨full,above,below⟩
  · rw [grow,if_neg full]
    obtain rfl | live := state
    · exact absurd (by simp [threshold,init]) full
    · have threshold_le := threshold_le a
      exact ⟨a,rfl,live.toSound,by omega,live.counted,rfl,fun _ => Iff.rfl,id,.inl ⟨by omega,rfl⟩⟩

/-- What `_insert` does for an element whose key is, or is not, in the table. -/
structure Added (template : Template Key T) (a b : HashTableType T) (t : T) (r : Nat) : Prop where
  live : Live template b
  present : ∀ e, Stored a e → template.equal (template.key t) (template.key e) = true →
    cell (residents b) r = some e ∧ occupied (residents b) = occupied (residents a) ∧ ∀ x, Stored b x ↔ Stored a x
  absent : (∀ e, Stored a e → ¬ template.equal (template.key t) (template.key e) = true) →
    cell (residents b) r = some t ∧ occupied (residents b) = occupied (residents a) + 1 ∧
      ∀ x, Stored b x ↔ Stored a x ∨ x = t
  exact : a.num = occupied (residents a) → b.num = occupied (residents b)
  size : (a.num < threshold a ∧ b.array.length = a.array.length) ∨ (threshold a ≤ a.num ∧ growth_goal template a < b.array.length ∧
    b.array.length ≤ 2 * growth_goal template a)

theorem insert_total (state : a = init ∨ Live template a) (t : T)
    (fits : threshold a ≤ a.num → growth_goal template a < 2 ^ 31) :
    ∃ r b, insert template a t = .ok (r,b) ∧ Added template a b t r := by
  obtain ⟨c,grown,sound,room,counted,same,stored,exact_,size⟩ := grow_total state fits
  have mask := sound.mask
  have small : c.array.length ≤ 2 ^ 31 := by
    obtain ⟨k,le,length⟩ := sound.size
    rw [length]
    exact Nat.pow_le_pow_right (by decide) le
  by_cases present : ∃ e, Stored c e ∧ template.equal (template.key t) (template.key e) = true
  · obtain ⟨e,⟨s,held⟩,equal⟩ := present
    refine ⟨s,c,?_,⟨sound,by omega,counted⟩,?_,?_,exact_,size⟩
    · rw [insert,grown]
      exact insert_present sound held equal
    · rintro x there equal'
      obtain ⟨j,held'⟩ := (stored x).mpr there
      obtain rfl := sound.distinct s j e x held held' (template.equivalence.trans
        (template.equivalence.symm equal) equal')
      exact ⟨held',same,stored⟩
    · intro absent
      exact absurd equal (absent e ((stored e).mp ⟨s,held⟩))
  · have absent : ∀ e, Stored c e → ¬ template.equal (template.key t) (template.key e) = true :=
      fun e there equal => present ⟨e,there,equal⟩
    obtain ⟨r,b,run,inserted,held⟩ := insert_absent sound (by omega) absent
    have num : b.num = c.num + 1 := by rw [inserted.num,Nat.mod_eq_of_lt (by omega)]
    have maskB := inserted.sound.mask
    rw [inserted.length] at maskB
    refine ⟨r,b,?_,⟨inserted.sound,by omega,by rw [inserted.occupied]; omega⟩,?_,?_,?_,?_⟩
    · rw [insert,grown]
      exact run
    · intro e there equal
      exact absurd equal (absent e ((stored e).mpr there))
    · intro _
      refine ⟨held,by rw [inserted.occupied,same],?_⟩
      intro x
      rw [inserted.stored,stored]
    · intro exactA
      rw [num,inserted.occupied,exact_ exactA]
    · rw [inserted.length]
      exact size

/-! ### Runs -/

/-- The operations of a run; an erasure is of the entry that `find` returns, if any. -/
inductive Op (Key T : Type) where
  | insert (t : T)
  | find (k : Key)
  | erase (k : Key)

def step (template : Template Key T) (a_ht : HashTableType T) : Op Key T → Except Stop (HashTableType T)
  | .insert t => do
    let (_,a_ht) ← insert template a_ht t
    .ok a_ht
  | .find k => do
    let _ ← find template a_ht k
    .ok a_ht
  | .erase k => do
    match ← find template a_ht k with
    | none => .ok a_ht
    | some entry => do
      let (_,a_ht) ← erase a_ht entry
      .ok a_ht

/-- The element that an entry holds. -/
def element (a_ht : HashTableType T) (entry : Nat) : Option T := a_ht.array[entry]?.bind Entry.t

/-- The operations on a map from keys to elements: an insertion keeps the first element. -/
def Op.onMap (template : Template Key T) (m : Key → Option T) : Op Key T → Key → Option T
  | .insert t => fun k =>
    match m (template.key t) with
    | some _ => m k
    | none => if template.equal k (template.key t) then some t else m k
  | .find _ => m
  | .erase k => fun k' => if template.equal k' k then none else m k'

/-- A live table that has the elements of a map. -/
structure Represents (template : Template Key T) (a : HashTableType T) (m : Key → Option T) : Prop extends
    Live template a where
  map : ∀ k e, m k = some e ↔ Stored a e ∧ template.equal k (template.key e) = true

section
variable {m : Key → Option T} {k : Key} {t : T}

theorem map_none_iff (rep : Represents template a m) :
    m k = none ↔ ∀ e, Stored a e → ¬ template.equal k (template.key e) = true := by
  constructor
  · intro none e there same
    rw [(rep.map k e).mpr ⟨there,same⟩] at none
    cases none
  · intro absent
    cases held : m k with
    | none => rfl
    | some e =>
      obtain ⟨there,same⟩ := (rep.map k e).mp held
      exact absurd same (absent e there)

theorem find_total (rep : Represents template a m) :
    ∃ r, find template a k = .ok r ∧ r.bind (element a) = m k ∧ (r = none ↔ m k = none) := by
  cases held : m k with
  | none => exact ⟨none,find_absent rep.toSound (live_room rep.toLive) ((map_none_iff rep).mp held),rfl,by simp⟩
  | some e =>
    obtain ⟨⟨i,there⟩,same⟩ := (rep.map k e).mp held
    refine ⟨some i,find_present rep.toSound there same,?_,by simp⟩
    rw [← there,cell_residents]
    rfl

theorem erase_found (rep : Represents template a m) {i : Nat} (found : find template a k = .ok (some i)) :
    ∃ b, erase a i = .ok (m k,b) ∧ Represents template b ((Op.erase k).onMap template m) ∧
      b.num = a.num ∧ occupied (residents b) + 1 = occupied (residents a) ∧ b.array.length = a.array.length := by
  cases held : m k with
  | none =>
    rw [find_absent rep.toSound (live_room rep.toLive) ((map_none_iff rep).mp held)] at found
    cases found
  | some e =>
    obtain ⟨⟨j,there⟩,same⟩ := (rep.map k e).mp held
    rw [find_present rep.toSound there same] at found
    cases found
    obtain ⟨b,run,erased⟩ := erase_total rep.toSound (live_room rep.toLive) there
    have mask := erased.sound.mask
    rw [erased.length,← rep.mask] at mask
    refine ⟨b,run,⟨⟨erased.sound,?_,?_⟩,?_⟩,erased.num,erased.occupied,erased.length⟩
    · rw [erased.num]
      have := rep.room
      omega
    · rw [erased.num]
      have := rep.counted
      have := erased.occupied
      omega
    · intro k' x
      simp only [Op.onMap]
      rw [erased.stored]
      by_cases here : template.equal k' k = true
      · rw [if_pos here]
        refine iff_of_false (by simp) ?_
        rintro ⟨⟨_,different⟩,same'⟩
        exact different (template.equivalence.trans (template.equivalence.symm same)
          (template.equivalence.trans (template.equivalence.symm here) same'))
      · rw [if_neg here,rep.map]
        refine and_congr_left fun same' => (and_iff_left ?_).symm
        intro equal
        exact here (template.equivalence.trans same' (template.equivalence.trans
          (template.equivalence.symm equal) (template.equivalence.symm same)))

/-- What an insertion leaves is the map with the element, if there was none. -/
theorem added_map (map : ∀ k e, m k = some e ↔ Stored a e ∧ template.equal k (template.key e) = true) {r : Nat}
    (added : Added template a b t r) : Represents template b ((Op.insert t).onMap template m) ∧
      cell (residents b) r = some ((m (template.key t)).getD t) := by
  cases held : m (template.key t) with
  | some e =>
    obtain ⟨there,same⟩ := (map _ e).mp held
    obtain ⟨here,_,stored⟩ := added.present e there same
    refine ⟨⟨added.live,?_⟩,here⟩
    intro k x
    simp only [Op.onMap,held]
    rw [map,stored]
  | none =>
    have absent : ∀ e, Stored a e → ¬ template.equal (template.key t) (template.key e) = true := by
      intro e there same
      rw [(map _ e).mpr ⟨there,same⟩] at held
      cases held
    obtain ⟨here,_,stored⟩ := added.absent absent
    refine ⟨⟨added.live,?_⟩,here⟩
    intro k x
    simp only [Op.onMap,held]
    rw [stored]
    by_cases same : template.equal k (template.key t) = true
    · rw [if_pos same]
      constructor
      · intro is
        cases is
        exact ⟨.inr rfl,same⟩
      · rintro ⟨there | rfl,same'⟩
        · exact absurd (template.equivalence.trans (template.equivalence.symm same) same') (absent x there)
        · rfl
    · rw [if_neg same,map]
      constructor
      · rintro ⟨there,same'⟩
        exact ⟨.inl there,same'⟩
      · rintro ⟨there | rfl,same'⟩
        · exact ⟨there,same'⟩
        · exact absurd same' same

end

/-- Where `_insert` makes a new array, it has less than 2^28 slots. -/
def Fits (template : Template Key T) (a_ht : HashTableType T) : Prop :=
  threshold a_ht ≤ a_ht.num → ∃ size, grow_size (growth_goal template a_ht) 33 1 = .ok size ∧ size < 2 ^ 28

/-- An insertion keeps the table below 2^28 slots. -/
def StaysSmall (template : Template Key T) (a_ht : HashTableType T) : Op Key T → Prop
  | .insert _ => Fits template a_ht
  | .find _ | .erase _ => True

theorem grow_size_above {goal : Nat} : ∀ {fuel size result}, grow_size goal fuel size = .ok result → goal < result := by
  intro fuel
  induction fuel with
  | zero => intro size result run; cases run
  | succ fuel ih =>
    intro size result run
    rw [grow_size] at run
    split at run
    · exact ih run
    · cases run
      omega

theorem grow_size_error {goal : Nat} {stop : Stop} : ∀ {fuel size}, grow_size goal fuel size = .error stop →
    stop = .fuel := by
  intro fuel
  induction fuel with
  | zero =>
    intro size run
    cases run
    rfl
  | succ fuel ih =>
    intro size run
    rw [grow_size] at run
    split at run
    · exact ih run
    · cases run

theorem goal_of_fits (fits : Fits template a) : threshold a ≤ a.num → growth_goal template a < 2 ^ 31 := by
  intro full
  obtain ⟨size,run,small⟩ := fits full
  have := grow_size_above run
  omega

theorem step_total {m : Key → Option T} {op : Op Key T} (rep : Represents template a m) (small : StaysSmall template a op) :
    ∃ b, step template a op = .ok b ∧ Represents template b (op.onMap template m) := by
  cases op with
  | insert t =>
    obtain ⟨r,b,run,added⟩ := insert_total (.inr rep.toLive) t (goal_of_fits small)
    exact ⟨b,by simp only [step,run,bind,Except.bind],(added_map rep.map added).1⟩
  | find k =>
    obtain ⟨r,run,_⟩ := find_total rep (k := k)
    exact ⟨a,by simp only [step,run,bind,Except.bind],rep⟩
  | erase k =>
    obtain ⟨r,run,_,none⟩ := find_total rep (k := k)
    cases r with
    | none =>
      refine ⟨a,by simp only [step,run,bind,Except.bind],rep.toLive,?_⟩
      have absent := none.mp rfl
      intro k' e
      simp only [Op.onMap]
      by_cases here : template.equal k' k = true
      · rw [if_pos here]
        refine iff_of_false (by simp) ?_
        rintro ⟨there,same⟩
        exact (map_none_iff rep).mp absent e there
          (template.equivalence.trans (template.equivalence.symm here) same)
      · rw [if_neg here,rep.map]
    | some i =>
      obtain ⟨b,run',rep',_⟩ := erase_found rep run
      exact ⟨b,by simp only [step,run,bind,Except.bind,run'],rep'⟩

theorem init_map (k : Key) (e : T) : (none : Option T) = some e ↔
    Stored (init : HashTableType T) e ∧ template.equal k (template.key e) = true := by
  refine iff_of_false (by simp) ?_
  rintro ⟨⟨i,held⟩,_⟩
  exact absurd (inside_of_cell held) (Nat.not_lt_zero i)

/-- Every run that starts with an insertion and keeps the table below 2^28 slots
    ends in a table that acts as the map of the same operations. -/
theorem run_map (template : Template Key T) (t : T) (ops : List (Op Key T))
    (small : Along (step template) (StaysSmall template) init (.insert t :: ops)) :
    ∃ a, steps (step template) init (.insert t :: ops) = .ok a ∧
      let m := (Op.insert t :: ops).foldl (Op.onMap template) fun _ => none
      (∀ k, ∃ r, find template a k = .ok r ∧ r.bind (element a) = m k ∧ (r = none ↔ m k = none)) ∧
      (∀ t, Fits template a → ∃ r b, insert template a t = .ok (r,b) ∧
        element b r = some ((m (template.key t)).getD t) ∧
        (m (template.key t) ≠ none → ∀ e, Stored b e ↔ Stored a e)) ∧
      ∀ k i, find template a k = .ok (some i) → ∃ b, erase a i = .ok (m k,b) := by
  obtain ⟨fits,later⟩ := small
  obtain ⟨r,b,run,added⟩ := insert_total (.inl rfl) t (goal_of_fits fits)
  have first : step template init (.insert t) = .ok b := by simp only [step,run,bind,Except.bind]
  obtain ⟨a,rest,rep⟩ := steps_total (fun a m op => step_total) (added_map init_map added).1 (later b first)
  refine ⟨a,steps_cons_iff.mpr ⟨b,first,rest⟩,fun k => find_total rep,?_,?_⟩
  · intro t fits
    obtain ⟨r,b,run,added⟩ := insert_total (.inr rep.toLive) t (goal_of_fits fits)
    refine ⟨r,b,run,?_,?_⟩
    · rw [element,← cell_residents]
      exact (added_map rep.map added).2
    · intro present
      obtain ⟨e,held⟩ := Option.ne_none_iff_exists'.mp present
      obtain ⟨there,same⟩ := (rep.map _ e).mp held
      exact (added.present e there same).2.2
  · intro k i found
    obtain ⟨b,run,_⟩ := erase_found rep found
    exact ⟨b,run⟩

/-- Numbers that hash to themselves. -/
def numbers : Template Nat Nat where
  start_size := 10
  key := id
  hash_ := UInt32.ofNat
  equal a b := a == b
  equivalence := ⟨fun a => beq_self_eq_true a,fun same => by rw [eq_of_beq same,beq_self_eq_true],
    fun same same' => by rw [eq_of_beq same,same']⟩
  hash_eq same := by rw [eq_of_beq same]

theorem run_map_numbers : ∃ a, steps (step numbers) init [.insert 17,.find 1,.erase 17] = .ok a ∧
    ∃ r, find numbers a 17 = .ok r ∧ (r = none ↔ True) := by
  obtain ⟨a,run,found,_⟩ := run_map numbers 17 [.find 1,.erase 17]
    ⟨fun _ => ⟨16,rfl,by decide⟩,fun _ _ => ⟨trivial,fun _ _ => ⟨trivial,fun _ _ => trivial⟩⟩⟩
  obtain ⟨r,run',_,none⟩ := found 17
  exact ⟨a,run,r,run',none.trans (iff_true_intro rfl)⟩

/-! ### The counter -/

/-- The counter is right, and the array is in proportion to it. -/
structure Counted (template : Template Key T) (a_ht : HashTableType T) : Prop where
  num : a_ht.num = occupied (residents a_ht)
  size : a_ht.array.length ≤ 2 * max template.start_size.toNat (10 * occupied (residents a_ht) / 9 + 2)

/-- The array grows only if the elements fill nine tenths of it. -/
def EnlargesFull (template : Template Key T) (a_ht : HashTableType T) (op : Op Key T) : Prop :=
  ∀ b, step template a_ht op = .ok b → a_ht.array.length < b.array.length → 9 * a_ht.mask / 10 ≤ occupied (residents a_ht)

/-- An erasure that finds no entry, and an insertion that does not take a table
    for full because nine times the mask does not fit into 32 bits. -/
def Harmless (template : Template Key T) (a_ht : HashTableType T) : Op Key T → Prop
  | .insert _ => threshold a_ht ≤ a_ht.num → growth_goal template a_ht < 2 ^ 31 → 9 * a_ht.mask / 10 ≤ a_ht.num
  | .find _ => True
  | .erase k => ∀ i, find template a_ht k ≠ .ok (some i)

/-- What `init` and the operations make. -/
def Made (template : Template Key T) (a : HashTableType T) : Prop := a = init ∨ ∃ m, Represents template a m

theorem made_map (made : Made template a) :
    ∃ m : Key → Option T, ∀ k e, m k = some e ↔ Stored a e ∧ template.equal k (template.key e) = true := by
  obtain rfl | ⟨m,rep⟩ := made
  · exact ⟨fun _ => none,init_map⟩
  · exact ⟨m,rep.map⟩

theorem grow_size_le {goal : Nat} : ∀ {fuel size result}, (size = 0 ∨ ∃ k, k ≤ 31 ∧ size = 2 ^ k) →
    grow_size goal fuel size = .ok result → result ≤ 2 ^ 31 := by
  intro fuel
  induction fuel with
  | zero => intro size result _ run; cases run
  | succ fuel ih =>
    intro size result power run
    rw [grow_size] at run
    split at run
    · refine ih ?_ run
      obtain rfl | ⟨k,le,rfl⟩ := power
      · exact .inl rfl
      · rw [Nat.shiftLeft_eq,Nat.pow_one,← Nat.pow_succ]
        obtain rfl | less := Nat.eq_or_lt_of_le le
        · exact .inl (Nat.mod_self _)
        · have : 2 ^ (k + 1) < 2 ^ 32 := Nat.pow_lt_pow_right (by decide) (by omega)
          exact .inr ⟨k + 1,less,Nat.mod_eq_of_lt this⟩
    · cases run
      obtain rfl | ⟨k,le,rfl⟩ := power
      · exact Nat.zero_le _
      · exact Nat.pow_le_pow_right (by decide) le

/-- Where room has been made, a size for the new array was found. -/
theorem goal_of_grow (run : grow template a = .ok b) : threshold a ≤ a.num → growth_goal template a < 2 ^ 31 := by
  intro full
  rw [grow,if_pos full] at run
  obtain ⟨size,found,_⟩ := bind_ok_iff.mp run
  have above := grow_size_above found
  have below := grow_size_le (.inr ⟨0,Nat.zero_le _,rfl⟩) found
  omega

theorem goal_of_insert {t : T} {r : Nat × HashTableType T} (run : insert template a t = .ok r) :
    threshold a ≤ a.num → growth_goal template a < 2 ^ 31 := by
  obtain ⟨c,grown,_⟩ := bind_ok_iff.mp run
  exact goal_of_grow grown

theorem made_state (made : Made template a) : a = init ∨ Live template a := by
  obtain rfl | ⟨_,rep⟩ := made
  · exact .inl rfl
  · exact .inr rep.toLive

theorem insert_made (made : Made template a) (t : T) (fits : threshold a ≤ a.num → growth_goal template a < 2 ^ 31) :
    ∃ r b, insert template a t = .ok (r,b) ∧ Made template b ∧ Added template a b t r := by
  obtain ⟨m,map⟩ := made_map made
  obtain ⟨r,b,run,added⟩ := insert_total (made_state made) t fits
  exact ⟨r,b,run,.inr ⟨_,(added_map map added).1⟩,added⟩

theorem find_init (k : Key) : find template init k = .error .fault := by
  rw [find,find_,find_loop]
  rfl

theorem find_step {k : Key} (run : step template a (.find k) = .ok b) : b = a := by
  obtain ⟨r,_,rest⟩ := bind_ok_iff.mp run
  cases rest
  rfl

/-- An insertion that returns has added its element. -/
theorem insert_step (made : Made template a) {t : T} (run : step template a (.insert t) = .ok b) :
    Made template b ∧ ∃ r, Added template a b t r ∧ (threshold a ≤ a.num → growth_goal template a < 2 ^ 31) := by
  obtain ⟨⟨r,c⟩,inserted,rest⟩ := bind_ok_iff.mp run
  cases rest
  have fits := goal_of_insert inserted
  obtain ⟨r',b',run',made',added⟩ := insert_made made t fits
  rw [run'] at inserted
  cases inserted
  exact ⟨made',r,added,fits⟩

theorem step_made (made : Made template a) {op : Op Key T} (run : step template a op = .ok b) : Made template b := by
  cases op with
  | insert t => exact (insert_step made run).1
  | find k =>
    rw [find_step run]
    exact made
  | erase k =>
    obtain ⟨r,found,rest⟩ := bind_ok_iff.mp run
    obtain rfl | ⟨m,rep⟩ := made
    · rw [find_init] at found
      cases found
    cases r with
    | none =>
      cases rest
      exact .inr ⟨m,rep⟩
    | some i =>
      obtain ⟨c,erased,rep',_⟩ := erase_found rep found
      simp only [erased,bind,Except.bind] at rest
      cases rest
      exact .inr ⟨_,rep'⟩

theorem occupied_added {t : T} {r : Nat} (added : Added template a b t r) :
    occupied (residents a) ≤ occupied (residents b) := by
  by_cases present : ∃ e, Stored a e ∧ template.equal (template.key t) (template.key e) = true
  · obtain ⟨e,there,same⟩ := present
    exact Nat.le_of_eq (added.present e there same).2.1.symm
  · have := (added.absent fun e there same => present ⟨e,there,same⟩).2.1
    omega

theorem made_growth (made : Made template a) (fits : growth_goal template a < 2 ^ 31) :
    growth_goal template a = max template.start_size.toNat (a.mask + 1) ∧ a.array.length ≤ a.mask + 1 := by
  obtain rfl | ⟨m,rep⟩ := made
  · exact ⟨rfl,Nat.zero_le _⟩
  · rw [growth_goal_le rep.toLive,rep.mask]
    exact ⟨rfl,Nat.le_refl _⟩

/-- One operation keeps the counter, and enlarges only full arrays, exactly if
    it is harmless. -/
theorem step_counted (made : Made template a) (counted : Counted template a) (op : Op Key T) :
    ((∀ b, step template a op = .ok b → Counted template b) ∧ EnlargesFull template a op) ↔ Harmless template a op := by
  cases op with
  | insert t =>
    constructor
    · rintro ⟨_,enlarges⟩ full fits
      obtain ⟨r,b,run,_,added⟩ := insert_made made t fun _ => fits
      obtain ⟨goal,length⟩ := made_growth made fits
      rw [counted.num]
      refine enlarges b (by simp only [step,run,bind,Except.bind]) ?_
      obtain ⟨less,_⟩ | ⟨_,above,_⟩ := added.size
      · omega
      · omega
    · intro harmless
      refine ⟨?_,?_⟩
      · intro b run
        obtain ⟨_,r,added,fits⟩ := insert_step made run
        refine ⟨added.exact counted.num,?_⟩
        have more := occupied_added added
        obtain ⟨_,same⟩ | ⟨full,above,below⟩ := added.size
        · rw [same]
          have := counted.size
          omega
        · have filled := harmless full (fits full)
          rw [counted.num] at filled
          rw [(made_growth made (fits full)).1] at below
          omega
      · intro b run larger
        obtain ⟨_,r,added,fits⟩ := insert_step made run
        obtain ⟨_,same⟩ | ⟨full,_⟩ := added.size
        · omega
        · rw [← counted.num]
          exact harmless full (fits full)
  | find k =>
    refine iff_of_true ⟨?_,?_⟩ trivial
    · intro b run
      rw [find_step run]
      exact counted
    · intro b run larger
      rw [find_step run] at larger
      omega
  | erase k =>
    constructor
    · rintro ⟨all,_⟩ i found
      obtain rfl | ⟨m,rep⟩ := made
      · rw [find_init] at found
        cases found
      · obtain ⟨b,erased,_,num,less,_⟩ := erase_found rep found
        have := (all b (by simp only [step,found,erased,bind,Except.bind])).num
        have := counted.num
        omega
    · intro harmless
      have same : ∀ b, step template a (.erase k) = .ok b → b = a := by
        intro b run
        obtain ⟨r,found,rest⟩ := bind_ok_iff.mp run
        cases r with
        | none => cases rest; rfl
        | some i => exact absurd found (harmless i)
      refine ⟨?_,?_⟩
      · intro b run
        rw [same b run]
        exact counted
      · intro b run larger
        rw [same b run] at larger
        omega

/-- The counter is right in every state of a run, and only full arrays are enlarged,
    exactly if every operation is harmless. -/
theorem counted_iff (template : Template Key T) (ops : List (Op Key T)) :
    ((∀ b, Reached (step template) init ops b → Counted template b) ∧
      Along (step template) (EnlargesFull template) init ops) ↔
    Along (step template) (Harmless template) init ops :=
  reached_along_iff (fun _ _ _ made _ run => step_made made run)
    (fun _ op made counted => step_counted made counted op) (.inl rfl) ⟨rfl,Nat.zero_le _⟩

theorem counted_fails : ¬ ∀ b, Reached (step numbers) init [.insert 1,.erase 1] b →
    b.num = occupied (residents b) := by
  intro all
  have := all ⟨15,1,(List.replicate 16 ⟨0,none⟩).set 1 ⟨1,none⟩⟩ ⟨[.insert 1,.erase 1],[],rfl,rfl⟩
  exact absurd this (by decide)

end

end Htools.HashTable
