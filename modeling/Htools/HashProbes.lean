import Htools.HashTable
import Mathlib.Data.Nat.Find

/-!
The slots that the hash table looks at. With `_init` and `_shutdown` a table is
without an array at times, which `_insert` and `_shutdown` ask for and `_find`
does not (`inside_iff`). On the way from its home `_insert_` stops for a new key
at the first slot that is empty or has an element closer to its home; `_find_`
has the same test, but compares to a distance that it never counts up
(`find_stop_iff`).
-/
namespace Htools.HashTable
open Htools.Cells Htools.RobinHood Htools.Runs

/-! ### Tables without an array -/

section
variable {Key T : Type}

/-- The loop of `_shutdown`; the result has the pointers that `free_` is given. -/
def shutdown_loop (a_ht : HashTableType T) : Nat → Nat → Except Stop (List (Option T))
  | 0, _ => .error .fuel
  | fuel + 1, i =>
    if a_ht.mask ≥ i then
      match a_ht.array[i]? with
      | none => .error .fault
      | some entry => do
        let freed ← shutdown_loop a_ht fuel (i + 1)
        .ok (entry.t :: freed)
    else .ok []

def shutdown (a_ht : HashTableType T) : Except Stop (List (Option T) × HashTableType T) :=
  if a_ht.array.isEmpty then .ok ([],a_ht)
  else do
    let freed ← shutdown_loop a_ht (a_ht.mask + 2) 0
    .ok (freed,{ mask := 0, num := 0, array := [] })

/-- The calls of a user of the table. -/
inductive Call (Key T : Type) where
  | init
  | operation (op : Op Key T)
  | shutdown

def call (template : Template Key T) (a_ht : HashTableType T) : Call Key T → Except Stop (HashTableType T)
  | .init => .ok init
  | .operation op => step template a_ht op
  | .shutdown => do
    let (_,a_ht) ← shutdown a_ht
    .ok a_ht

/-- Every slot that a call reads or writes is one of the array. -/
def Inside (template : Template Key T) (a_ht : HashTableType T) (c : Call Key T) : Prop :=
  call template a_ht c ≠ .error .fault

/-- A lookup, also that of an entry to be erased, is in a table with an array. -/
def HasArray (a_ht : HashTableType T) : Call Key T → Prop
  | .operation (.find _) | .operation (.erase _) => a_ht.array ≠ []
  | .init | .operation (.insert _) | .shutdown => True

section
variable {template : Template Key T} {a b : HashTableType T} {m : Key → Option T}

theorem shutdown_loop_total (allocated : a.mask < a.array.length) : ∀ {fuel i}, i ≤ a.mask + 1 →
    i + fuel = a.mask + 2 → ∃ freed, shutdown_loop a fuel i = .ok freed := by
  intro fuel
  induction fuel with
  | zero => intro i seen enough; omega
  | succ fuel ih =>
    intro i seen enough
    rw [shutdown_loop]
    by_cases more : a.mask ≥ i
    · obtain ⟨freed,run⟩ := ih (i := i + 1) (by omega) (by omega)
      rw [if_pos more,List.getElem?_eq_getElem (by omega)]
      simp only [run,bind,Except.bind]
      exact ⟨_,rfl⟩
    · rw [if_neg more]
      exact ⟨[],rfl⟩

/-- A table is as new after `_shutdown`. -/
theorem shutdown_total (made : Made template a) : call template a .shutdown = .ok init := by
  obtain rfl | ⟨m,rep⟩ := made
  · rfl
  have mask := rep.mask
  obtain ⟨freed,run⟩ := shutdown_loop_total (a := a) (by omega) (Nat.zero_le _) (Nat.zero_add _)
  have allocated : a.array.isEmpty = false := by
    rw [List.isEmpty_eq_false_iff,← List.length_pos_iff]
    omega
  simp only [call,shutdown,allocated,run,bind,Except.bind]
  rfl

theorem call_made (made : Made template a) {c : Call Key T} (run : call template a c = .ok b) : Made template b := by
  cases c with
  | init =>
    cases run
    exact .inl rfl
  | operation op => exact step_made made run
  | shutdown =>
    rw [shutdown_total made] at run
    cases run
    exact .inl rfl

theorem has_array_iff (made : Made template a) : a.array ≠ [] ↔ ∃ m : Key → Option T, Represents template a m := by
  constructor
  · intro allocated
    obtain rfl | rep := made
    · exact absurd rfl allocated
    · exact rep
  · rintro ⟨m,rep⟩
    have mask := rep.mask
    rw [← List.length_pos_iff]
    omega

/-- `_insert` looks at slots of the array only, also where it finds no size for a new one. -/
theorem insert_inside (made : Made template a) (t : T) : step template a (.insert t) ≠ .error .fault := by
  intro fault
  by_cases fits : threshold a ≤ a.num → growth_goal template a < 2 ^ 31
  · obtain ⟨r,b,run,_⟩ := insert_made made t fits
    simp only [step,run,bind,Except.bind] at fault
    cases fault
  obtain ⟨full,large⟩ := Classical.not_imp.mp fits
  cases found : grow_size (growth_goal template a) 33 1 with
  | ok size =>
    have above := grow_size_above found
    have below := grow_size_le (.inr ⟨0,Nat.zero_le _,rfl⟩) found
    omega
  | error stop =>
    obtain rfl := grow_size_error found
    simp only [step,insert,grow,if_pos (show a.num ≥ threshold a from full),found,bind,Except.bind] at fault
    cases fault

/-- A call stays inside of the array exactly if no lookup is without one. -/
theorem call_inside (made : Made template a) (c : Call Key T) : Inside template a c ↔ HasArray a c := by
  cases c with
  | init => exact iff_of_true (fun fault => nomatch fault) trivial
  | shutdown =>
    refine iff_of_true ?_ trivial
    rw [Inside,shutdown_total made]
    exact fun fault => nomatch fault
  | operation op =>
    cases op with
    | insert t => exact iff_of_true (insert_inside made t) trivial
    | find k =>
      obtain rfl | ⟨m,rep⟩ := made
      · refine iff_of_false (fun inside => inside ?_) (fun allocated => allocated rfl)
        simp only [call,step,find_init,bind,Except.bind]
      · obtain ⟨r,run,_⟩ := find_total rep (k := k)
        refine iff_of_true (fun fault => ?_) ((has_array_iff (.inr ⟨m,rep⟩)).mpr ⟨m,rep⟩)
        simp only [call,step,run,bind,Except.bind] at fault
        cases fault
    | erase k =>
      obtain rfl | ⟨m,rep⟩ := made
      · refine iff_of_false (fun inside => inside ?_) (fun allocated => allocated rfl)
        simp only [call,step,find_init,bind,Except.bind]
      · obtain ⟨b,run,_⟩ := step_total rep (show StaysSmall template a (.erase k) from trivial)
        refine iff_of_true (fun fault => ?_) ((has_array_iff (.inr ⟨m,rep⟩)).mpr ⟨m,rep⟩)
        rw [call,run] at fault
        cases fault

end

/-- Every slot that a run looks at is one of the array exactly if every lookup of
    the run, and every one before an erasure, is in a table with an array. -/
theorem inside_iff (template : Template Key T) (calls : List (Call Key T)) :
    Along (call template) (Inside template) init calls ↔ Along (call template) HasArray init calls :=
  along_iff (fun _ _ _ made run => call_made made run) (fun _ c made => call_inside made c) (.inl rfl)

/-- A lookup in a new table reads the slot 0 of no array. -/
theorem inside_fails : ¬ Along (call numbers) (Inside numbers) init [.operation (.find 1)] ∧
    ¬ Along (call numbers) (Inside numbers) init [.operation (.insert 1),.shutdown,.operation (.find 1)] := by
  refine ⟨fun inside => inside.1 (by decide),fun inside => ?_⟩
  have new := inside.2 _ (show call numbers init (.operation (.insert 1)) =
    .ok ⟨15,1,(List.replicate 16 ⟨0,none⟩).set 1 ⟨1,some 1⟩⟩ from by decide)
  exact (new.2 init (by decide)).1 (by decide)

/-! ### Where the probing stops -/

/-- The loop of `_find_` as `find_loop`, with the slot in which it returns. -/
def find_stop_loop (template : Template Key T) (a_ht : HashTableType T) (a_key : Key) (hash : UInt32) (dib : Nat) :
    Nat → Nat → Except Stop (Nat × Option Nat)
  | 0, _ => .error .fuel
  | fuel + 1, i =>
    let i := i &&& a_ht.mask
    match a_ht.array[i]? with
    | none => .error .fault
    | some entry =>
      match entry.t with
      | none => .ok (i,none)
      | some t =>
        let d := hashtable_dib a_ht entry.hash i
        if dib > d then .ok (i,none)
        else if hash = entry.hash ∧ template.equal a_key (template.key t) then .ok (i,some i)
        else find_stop_loop template a_ht a_key hash dib fuel (i + 1)

def find_stop (template : Template Key T) (a_ht : HashTableType T) (a_key : Key) : Except Stop (Nat × Option Nat) :=
  let hash := template.hash_ a_key
  find_stop_loop template a_ht a_key hash 0 (a_ht.array.length + 1) hash.toNat

theorem find_loop_stop (template : Template Key T) (a : HashTableType T) (k : Key) (hash : UInt32) (dib : Nat) :
    ∀ fuel i, find_loop template a k hash dib fuel i =
      (find_stop_loop template a k hash dib fuel i).map Prod.snd := by
  intro fuel
  induction fuel with
  | zero => intro i; rfl
  | succ fuel ih =>
    intro i
    rw [find_loop,find_stop_loop]
    cases a.array[i &&& a.mask]? with
    | none => rfl
    | some entry =>
      cases held : entry.t with
      | none => simp only [held]; rfl
      | some t =>
        simp only [held]
        split_ifs
        · rfl
        · rfl
        · exact ih _

/-- `find_stop` returns what `_find_` does. -/
theorem find_eq_stop (template : Template Key T) (a : HashTableType T) (k : Key) :
    find_ template a k = (find_stop template a k).map Prod.snd := find_loop_stop template a k _ 0 _ _

/-- The slot at the given distance from the home of a key. -/
def probe (template : Template Key T) (a : HashTableType T) (k : Key) (j : Nat) : Nat :=
  ahead a.array.length ((template.hash_ k).toNat % a.array.length) j

/-- A slot at distance `j` is empty, or its element is closer to home. -/
def Poorer (template : Template Key T) (a : HashTableType T) (k : Key) (j : Nat) : Prop :=
  ∀ e, cell (residents a) (probe template a k j) = some e →
    dist a.array.length (home template a.array.length e) (probe template a k j) < j

/-- The distance of the first slot on the way from home that `_insert_` takes for
    the key, if it is not in the table. -/
structure Decides (template : Template Key T) (a : HashTableType T) (k : Key) (j : Nat) : Prop where
  near : j < a.array.length
  poorer : Poorer template a k j
  first : ∀ i < j, ¬ Poorer template a k i

section
variable {template : Template Key T} {a b : HashTableType T} {k : Key}

theorem probe_next (positive : 0 < a.array.length) {i j : Nat} (here : i % a.array.length = probe template a k j)
    (near : j + 1 < a.array.length) : (i % a.array.length + 1) % a.array.length = probe template a k (j + 1) := by
  rw [← next_eq (Nat.mod_lt _ positive),here,probe,next_ahead (Nat.mod_lt _ positive) near]
  rfl

theorem not_poorer {j : Nat} (rich : ¬ Poorer template a k j) :
    ∃ e, cell (residents a) (probe template a k j) = some e ∧
      j ≤ dist a.array.length (home template a.array.length e) (probe template a k j) := by
  simp only [Poorer,not_forall,Nat.not_lt] at rich
  obtain ⟨e,held,far⟩ := rich
  exact ⟨e,held,far⟩

/-- `_find_` goes on to the first empty slot. -/
theorem find_stop_absent (sound : Sound template a)
    (absent : ∀ e, Stored a e → ¬ template.equal k (template.key e) = true) {gap : Nat} (near : gap < a.array.length)
    (empty : cell (residents a) (probe template a k gap) = none)
    (taken : ∀ j < gap, cell (residents a) (probe template a k j) ≠ none) :
    ∀ {fuel i j}, i % a.array.length = probe template a k j → j ≤ gap → gap < fuel + j →
      find_stop_loop template a k (template.hash_ k) 0 fuel i = .ok (probe template a k gap,none) := by
  intro fuel
  induction fuel with
  | zero => intro i j _ le enough; omega
  | succ fuel ih =>
    intro i j here le enough
    rw [find_stop_loop]
    simp only [and_mask sound.toSlotted]
    rw [here]
    obtain rfl | before := Nat.eq_or_lt_of_le le
    · have inside : probe template a k j < a.array.length := ahead_lt (Nat.mod_lt _ (by omega)) near
      obtain ⟨old,there⟩ := slot_none inside empty
      simp only [there]
    · obtain ⟨e,held⟩ := Option.ne_none_iff_exists'.mp (taken j before)
      simp only [slot_some sound.toSlotted held,gt_iff_lt,Nat.not_lt_zero,if_false]
      rw [if_neg fun both => absent e ⟨_,held⟩ both.2,← here]
      exact ih (probe_next (by omega) here (by omega)) before (by omega)

/-- The entry that is returned does not change once there is one. -/
theorem insert_loop_ret : ∀ {fuel} {a b : HashTableType T} {t : T} {hash : UInt32} {i dib r q : Nat},
    insert_loop template fuel a t hash i dib (some q) = .ok (r,b) → r = q := by
  intro fuel
  induction fuel with
  | zero => intro a b t hash i dib r q run; cases run
  | succ fuel ih =>
    intro a b t hash i dib r q run
    rw [insert_loop] at run
    cases there : a.array[i &&& a.mask]? with
    | none => simp only [there] at run; cases run
    | some entry =>
      cases held : entry.t with
      | none =>
        simp only [there,held] at run
        cases run
        rfl
      | some other =>
        simp only [there,held,reduceCtorEq,if_false] at run
        split_ifs at run
        · exact ih run
        · exact ih run

/-- `_insert_` returns the first slot that is empty or has an element closer to home. -/
theorem insert_loop_decides (sound : Sound template a) {t : T}
    (absent : ∀ e, Stored a e → ¬ template.equal (template.key t) (template.key e) = true) {last : Nat}
    (decides : Decides template a (template.key t) last) :
    ∀ {fuel i j r}, i % a.array.length = probe template a (template.key t) j → j ≤ last →
      insert_loop template fuel a t (template.hash_ (template.key t)) i j none = .ok (r,b) →
      r = probe template a (template.key t) last := by
  obtain ⟨near,poorer,first⟩ := decides
  intro fuel
  induction fuel with
  | zero => intro i j r _ _ run; cases run
  | succ fuel ih =>
    intro i j r here le run
    rw [insert_loop] at run
    simp only [and_mask sound.toSlotted] at run
    have inside : probe template a (template.key t) j < a.array.length := ahead_lt (Nat.mod_lt _ (by omega)) (by omega)
    rw [here] at run
    cases held : cell (residents a) (probe template a (template.key t) j) with
    | none =>
      obtain ⟨old,there⟩ := slot_none inside held
      have only : j = last := by
        by_contra other
        obtain ⟨e,held',_⟩ := not_poorer (first j (by omega))
        rw [held] at held'
        cases held'
      simp only [there] at run
      cases run
      rw [only]
      rfl
    | some e =>
      simp only [slot_some sound.toSlotted held] at run
      rw [if_neg fun both => absent e ⟨_,held⟩ both.2,show hashtable_dib a (template.hash_ (template.key e)) _ =
        dist a.array.length (home template a.array.length e) _ from hashtable_dib_eq sound.toSlotted _ inside] at run
      by_cases closer : j > dist a.array.length (home template a.array.length e) (probe template a (template.key t) j)
      · rw [if_pos closer] at run
        have only : j = last := by
          by_contra other
          obtain ⟨e',held',far⟩ := not_poorer (first j (by omega))
          rw [held] at held'
          cases held'
          omega
        rw [insert_loop_ret run,only]
        rfl
      · rw [if_neg closer] at run
        have before : j < last := by
          by_contra other
          obtain rfl : j = last := by omega
          exact closer (poorer e held)
        rw [← here] at run
        exact ih (probe_next (by omega) here (by omega)) before run

/-- There is a slot on the way from home at which `_insert_` decides, at the latest the first empty one. -/
theorem exists_decides (room : occupied (residents a) < a.array.length) (k : Key) :
    ∃ gap last, gap < a.array.length ∧ cell (residents a) (probe template a k gap) = none ∧
      (∀ j < gap, cell (residents a) (probe template a k j) ≠ none) ∧ Decides template a k last ∧ last ≤ gap := by
  classical
  have ways : ∃ gap, gap < a.array.length ∧ cell (residents a) (probe template a k gap) = none :=
    exists_gap room (Nat.mod_lt _ (by omega))
  have found := Nat.find_spec ways
  have taken : ∀ j < Nat.find ways, cell (residents a) (probe template a k j) ≠ none :=
    fun j before empty' => Nat.find_min ways before ⟨by omega,empty'⟩
  generalize Nat.find ways = gap at found taken
  obtain ⟨near,empty⟩ := found
  have poor : ∃ j, Poorer template a k j := by
    refine ⟨gap,fun e held => ?_⟩
    rw [empty] at held
    cases held
  have early : Nat.find poor ≤ gap := by
    refine Nat.find_min' poor fun e held => ?_
    rw [empty] at held
    cases held
  exact ⟨gap,Nat.find poor,near,empty,taken,
    ⟨by omega,Nat.find_spec poor,fun i before => Nat.find_min poor before⟩,early⟩

/-- For a key that is not in the table `_find_` stops at the slot at which
    `_insert_` decides, exactly if no element before the first empty slot is
    closer to its home than the key would be there. -/
theorem find_stop_iff (template : Template Key T) (calls : List (Call Key T)) (a : HashTableType T)
    (reached : Reached (call template) init calls a) (allocated : a.array ≠ []) (k : Key)
    (absent : ∀ e, Stored a e → ¬ template.equal k (template.key e) = true) :
    ∃ last s, Decides template a k last ∧ find_stop template a k = .ok (s,none) ∧
      (∀ t, template.key t = k →
        ∃ b, insert_ template a t (template.hash_ k) = .ok (probe template a k last,b)) ∧
      (s = probe template a k last ↔ ∀ j, (∀ i ≤ j, cell (residents a) (probe template a k i) ≠ none) →
        ¬ Poorer template a k j) := by
  have made : Made template a := reached_keeps (fun _ _ _ made run => call_made made run) (.inl rfl) reached
  obtain ⟨m,rep⟩ := (has_array_iff made).mp allocated
  have sound := rep.toSound
  have room := live_room rep.toLive
  obtain ⟨gap,last,near,empty,taken,decides,early⟩ := @exists_decides _ _ template _ room k
  have homeInside : (template.hash_ k).toNat % a.array.length < a.array.length := Nat.mod_lt _ (by omega)
  have start : (template.hash_ k).toNat % a.array.length = probe template a k 0 := (ahead_zero homeInside).symm
  refine ⟨last,probe template a k gap,decides,?_,?_,?_⟩
  · exact find_stop_absent sound absent near empty taken start (Nat.zero_le _) (by omega)
  · rintro t rfl
    obtain ⟨r,b,run,_⟩ := insert_absent sound room absent
    have slot := insert_loop_decides sound absent decides start (Nat.zero_le _) run
    exact ⟨b,slot ▸ run⟩
  · constructor
    · intro same j way poor
      have equal : gap = last := ahead_injective near decides.near same
      have before : j < gap := by
        by_contra behind
        exact way gap (by omega) empty
      exact decides.first j (by omega) poor
    · intro rich
      have equal : last = gap := by
        by_contra other
        exact rich last (fun i le => taken i (by omega)) decides.poorer
      rw [equal]

/-- The elements 1 and 2 at their homes. -/
def one_two : HashTableType Nat := ⟨15,2,((List.replicate 16 ⟨0,none⟩).set 1 ⟨1,some 1⟩).set 2 ⟨2,some 2⟩⟩

theorem one_two_reached :
    Reached (call numbers) init [.operation (.insert 1),.operation (.insert 2)] one_two :=
  ⟨[.operation (.insert 1),.operation (.insert 2)],[],rfl,rfl⟩

theorem one_two_stored {e : Nat} (stored : Stored one_two e) : e = 1 ∨ e = 2 := by
  obtain ⟨i,held⟩ := stored
  have inside := inside_of_cell held
  have every : ∀ i < 16, cell (residents one_two) i = none ∨ cell (residents one_two) i = some 1 ∨
      cell (residents one_two) i = some 2 := by decide
  rcases every i inside with none | one | two
  · cases held.symm.trans none
  · cases held.symm.trans one
    exact .inl rfl
  · cases held.symm.trans two
    exact .inr rfl

/-- 17 would go to slot 2, but is looked for up to slot 3. -/
theorem find_stop_seventeen : ¬ ∀ (a : HashTableType Nat) (t : Nat),
    Reached (call numbers) init [.operation (.insert 1),.operation (.insert 2)] a → a.array ≠ [] →
    (∀ e, Stored a e → ¬ numbers.equal (numbers.key t) (numbers.key e) = true) →
    ∃ s b, find_stop numbers a (numbers.key t) = .ok (s,none) ∧
      insert_ numbers a t (numbers.hash_ (numbers.key t)) = .ok (s,b) := by
  intro same
  obtain ⟨s,b,stops,inserted⟩ := same one_two 17 one_two_reached (by decide) (by
    intro e stored
    rcases one_two_stored stored with rfl | rfl <;> decide)
  have up : find_stop numbers one_two (numbers.key 17) = .ok (3,none) := by decide
  cases stops.symm.trans up
  have at_two : (insert_ numbers one_two 17 (numbers.hash_ (numbers.key 17))).map Prod.fst = .ok 2 := by decide
  rw [inserted] at at_two
  cases at_two

/-- 18 would go to slot 3, and is looked for up to there. -/
theorem find_stop_iff_eighteen :
    (Reached (call numbers) init [.operation (.insert 1),.operation (.insert 2)] one_two ∧ one_two.array ≠ [] ∧
      ∀ e, Stored one_two e → ¬ numbers.equal 18 (numbers.key e) = true) ∧
    ∃ last s, Decides numbers one_two 18 last ∧ find_stop numbers one_two 18 = .ok (s,none) ∧
      (∀ t, numbers.key t = 18 → ∃ b, insert_ numbers one_two t (numbers.hash_ 18) = .ok (probe numbers one_two 18 last,b)) ∧
      (s = probe numbers one_two 18 last ↔
        ∀ j, (∀ i ≤ j, cell (residents one_two) (probe numbers one_two 18 i) ≠ none) → ¬ Poorer numbers one_two 18 j) := by
  have absent : ∀ e, Stored one_two e → ¬ numbers.equal 18 (numbers.key e) = true := by
    intro e stored
    rcases one_two_stored stored with rfl | rfl <;> decide
  exact ⟨⟨one_two_reached,by decide,absent⟩,
    find_stop_iff numbers _ one_two one_two_reached (by decide) 18 absent⟩

end

end

end Htools.HashTable
