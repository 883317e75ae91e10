import Htools.Cells
import Htools.Runs
import Htools.WordBits
import Mathlib.Data.Set.Insert
import Mathlib.Data.UInt

/-!
Sets of bits (`hutils/src/bitmask.c`). A mask is an allocation of words; an index
is checked against the number of bits and then addresses a word and a bit of it.
Any run of the operations acts as the same operations on sets do
(`bitmask_sets`). The number of words is rounded up in 32 bits, which wraps for
the 31 largest masks (`word_inside_iff`).
-/
namespace Htools

/-- The words for a number of bits, in 32-bit arithmetic. -/
def num_uint32 (bit_num : UInt32) : UInt32 := (bit_num + 31) / 32

def num_uint8 (bit_num : UInt32) : UInt32 := num_uint32 bit_num * 4

/-- `struct Bitmask`, with the words of its allocation. -/
structure Bitmask where
  bit_num : UInt32
  data : List UInt32
  allocated : data.length = (num_uint32 bit_num).toNat
  deriving DecidableEq

end Htools

namespace Htools.Bitmask
open Htools.Cells Htools.Runs
open Htools.WordBits (Member single)

/-- A word of which the first `num` bytes have been overwritten. -/
def overwrite (num : Nat) (fresh word : UInt32) : UInt32 :=
  let rest : UInt32 := if num < 4 then 0xffffffff <<< UInt32.ofNat (8 * num) else 0
  (fresh &&& ~~~rest) ||| (word &&& rest)

/-- `memset` of the first bytes of an array of words. -/
def memset (data : List UInt32) (c : UInt8) (num : Nat) : List UInt32 :=
  data.mapIdx fun j word => overwrite (num - 4 * j) (c.toUInt32 * 0x01010101) word

/-- `memmove` of the first bytes of an array of words. -/
def memmove (dst src : List UInt32) (num : Nat) : List UInt32 :=
  dst.mapIdx fun j word => overwrite (num - 4 * j) (src.getD j 0) word

def bitmask_create (a_bit_num : UInt32) : Except Stop Bitmask :=
  if 0 ≠ a_bit_num then .ok ⟨a_bit_num,List.replicate (num_uint32 a_bit_num).toNat 0,List.length_replicate⟩ else .error .abort

/-- The copy of the words from one mask to another one. -/
def move (a_dst a_src : Bitmask) : Except Stop Bitmask :=
  let num := (num_uint8 a_src.bit_num).toNat
  if num ≤ 4 * a_dst.data.length ∧ num ≤ 4 * a_src.data.length then
    .ok ⟨a_dst.bit_num,memmove a_dst.data a_src.data num,by rw [memmove,List.length_mapIdx,a_dst.allocated]⟩
  else .error .fault

def bitmask_copy (a_src : Bitmask) : Except Stop Bitmask := do
  let dst ← bitmask_create a_src.bit_num
  move dst a_src

def bitmask_copy_mask (a_dst a_src : Bitmask) : Except Stop Bitmask :=
  if a_dst.bit_num ≠ a_src.bit_num then .error .exit else move a_dst a_src

/-- The bit of an index in its word. -/
def bit (a_index : UInt32) : UInt32 := 1 <<< (31 &&& a_index)

def bitmask_get (a_bm : Bitmask) (a_index : UInt32) : Except Stop Int32 :=
  if a_bm.bit_num ≤ a_index then .error .exit
  else
    match a_bm.data[(a_index / 32).toNat]? with
    | none => .error .fault
    | some word => .ok (bit a_index &&& word).toInt32

/-- A word is written after the check of the index. -/
def update (f : UInt32 → UInt32) (a_bm : Bitmask) (a_index : UInt32) : Except Stop Bitmask :=
  if a_bm.bit_num ≤ a_index then .error .exit
  else
    match a_bm.data[(a_index / 32).toNat]? with
    | none => .error .fault
    | some word => .ok ⟨a_bm.bit_num,a_bm.data.set (a_index / 32).toNat (f word),List.length_set.trans a_bm.allocated⟩

def bitmask_set (a_bm : Bitmask) (a_index : UInt32) : Except Stop Bitmask :=
  update (fun word => word ||| bit a_index) a_bm a_index

def bitmask_unset (a_bm : Bitmask) (a_index : UInt32) : Except Stop Bitmask :=
  update (fun word => word &&& ~~~bit a_index) a_bm a_index

/-- All bytes of a mask are overwritten. -/
def fill (c : UInt8) (a_bm : Bitmask) : Except Stop Bitmask :=
  let num := (num_uint8 a_bm.bit_num).toNat
  if num ≤ 4 * a_bm.data.length then
    .ok ⟨a_bm.bit_num,memset a_bm.data c num,by rw [memset,List.length_mapIdx,a_bm.allocated]⟩
  else .error .fault

def bitmask_one (a_bm : Bitmask) : Except Stop Bitmask := fill 0xff a_bm

def bitmask_zero (a_bm : Bitmask) : Except Stop Bitmask := fill 0 a_bm

/-! ### Words -/

section
variable {bm src : Bitmask} {i : UInt32}

theorem toNat_num_uint32 (bit_num : UInt32) : (num_uint32 bit_num).toNat = (bit_num.toNat + 31) % 2 ^ 32 / 32 := by
  rw [num_uint32,UInt32.toNat_div,UInt32.toNat_add]
  rfl

theorem toNat_num_uint8 (bit_num : UInt32) : (num_uint8 bit_num).toNat = 4 * (num_uint32 bit_num).toNat := by
  rw [num_uint8,UInt32.toNat_mul,toNat_num_uint32,show (4 : UInt32).toNat = 4 from rfl]
  omega

theorem toNat_div_32 (i : UInt32) : (i / 32).toNat = i.toNat / 32 := by
  rw [UInt32.toNat_div]
  rfl

theorem bit_toBitVec (i : UInt32) : (bit i).toBitVec = single 32 i.toNat := by
  have amount : (31 &&& i).toNat = i.toNat % 32 := by
    rw [UInt32.toNat_and,Nat.and_comm]
    exact Nat.and_two_pow_sub_one_eq_mod i.toNat 5
  have small : ((31 &&& i).toBitVec % 32).toNat = i.toNat % 32 := by
    rw [BitVec.toNat_umod,UInt32.toNat_toBitVec,amount]
    exact Nat.mod_mod i.toNat 32
  rw [bit,UInt32.toBitVec_shiftLeft,BitVec.shiftLeft_eq',small,single]
  rfl

theorem overwrite_all {num : Nat} (all : 4 ≤ num) (fresh word : UInt32) : overwrite num fresh word = fresh := by
  simp [overwrite,Nat.not_lt.mpr all]

/-- Bytes that make up all words. -/
theorem mapIdx_all {data : List UInt32} {num : Nat} (all : num = 4 * data.length) (fresh : Nat → UInt32) :
    (data.mapIdx fun j word => overwrite (num - 4 * j) (fresh j) word) = (List.range data.length).map fresh := by
  apply List.ext_getElem
  · rw [List.length_mapIdx,List.length_map,List.length_range]
  · intro j inside _
    rw [List.length_mapIdx] at inside
    rw [List.getElem_mapIdx,overwrite_all (by omega),List.getElem_map,List.getElem_range]

theorem memset_all {data : List UInt32} {num : Nat} (all : num = 4 * data.length) (c : UInt8) :
    memset data c num = List.replicate data.length (c.toUInt32 * 0x01010101) := by
  rw [memset,mapIdx_all all,List.map_const',List.length_range]

theorem memmove_all {dst from_ : List UInt32} {num : Nat} (all : num = 4 * dst.length) (same : dst.length = from_.length) :
    memmove dst from_ num = from_ := by
  rw [memmove,mapIdx_all all]
  apply List.ext_getElem
  · rw [List.length_map,List.length_range,same]
  · intro j _ inside
    rw [List.getElem_map,List.getElem_range,List.getD_eq_getElem?_getD,List.getElem?_eq_getElem inside,Option.getD_some]

/-- A fill reaches all words of the mask. -/
theorem fill_eq (c : UInt8) (bm : Bitmask) : ∃ filled : Bitmask,fill c bm = .ok filled ∧ filled.bit_num = bm.bit_num ∧
    filled.data = List.replicate (num_uint32 bm.bit_num).toNat (c.toUInt32 * 0x01010101) := by
  have all : (num_uint8 bm.bit_num).toNat = 4 * bm.data.length := by rw [toNat_num_uint8,bm.allocated]
  refine ⟨_,if_pos (Nat.le_of_eq all),rfl,?_⟩
  rw [← bm.allocated]
  exact memset_all all c

theorem move_eq {dst src : Bitmask} (same : dst.bit_num = src.bit_num) : move dst src = .ok src := by
  have length : dst.data.length = src.data.length := by rw [dst.allocated,src.allocated,same]
  have all : (num_uint8 src.bit_num).toNat = 4 * dst.data.length := by rw [toNat_num_uint8,← same,dst.allocated]
  rw [move,if_pos ⟨Nat.le_of_eq all,by omega⟩]
  obtain ⟨bit_num,data,allocated⟩ := src
  simp only [memmove_all all length,same]

theorem copy_eq (positive : 0 ≠ src.bit_num) : bitmask_copy src = .ok src := by
  simp only [bitmask_copy,bitmask_create,if_pos positive,ok_bind]
  exact move_eq rfl

/-! ### Members -/

def words (bm : Bitmask) : List (BitVec 32) := bm.data.map UInt32.toBitVec

/-- The set that a mask stands for; the bits behind the last index do not count. -/
def members (bm : Bitmask) : Set Nat := {i | i < bm.bit_num.toNat ∧ Member (words bm) i}

/-- The word of an index is among those that have been allocated, or the number of
    words has wrapped around to none. -/
theorem word_inside_iff {bit_num i : UInt32} (accepted : i < bit_num) :
    i / 32 < num_uint32 bit_num ↔ bit_num.toNat ≤ 2 ^ 32 - 32 := by
  have below := bit_num.toNat_lt
  rw [UInt32.lt_iff_toNat_lt] at accepted ⊢
  rw [toNat_div_32,toNat_num_uint32]
  omega

theorem inside_small_iff (accepted : i < bm.bit_num) :
    (∃ word,bm.data[(i / 32).toNat]? = some word) ↔ bm.bit_num.toNat ≤ 2 ^ 32 - 32 := by
  rw [← word_inside_iff accepted,UInt32.lt_iff_toNat_lt,← bm.allocated]
  constructor
  · rintro ⟨word,there⟩
    exact (List.getElem?_eq_some_iff.mp there).1
  · intro inside
    exact ⟨_,List.getElem?_eq_getElem inside⟩

theorem words_there {word : UInt32} (there : bm.data[(i / 32).toNat]? = some word) :
    (words bm)[i.toNat / 32]? = some word.toBitVec := by
  rw [words,List.getElem?_map,← toNat_div_32,there]
  rfl

/-- What a lookup reads is the bit of the index alone. -/
theorem get_eq {word : UInt32} (accepted : i < bm.bit_num) (there : bm.data[(i / 32).toNat]? = some word) :
    bitmask_get bm i = .ok (if word.toBitVec.getLsbD (i.toNat % 32) then (bit i).toInt32 else 0) := by
  have masked : bit i &&& word = if word.toBitVec.getLsbD (i.toNat % 32) then bit i else 0 := by
    apply UInt32.toBitVec_inj.mp
    rw [UInt32.toBitVec_and,bit_toBitVec,WordBits.and_single]
    split
    · rw [bit_toBitVec]
    · rfl
  simp only [bitmask_get,if_neg (UInt32.not_le.mpr accepted),there,masked]
  split
  · rfl
  · rfl

theorem bit_ne_zero (i : UInt32) : (bit i).toInt32 ≠ 0 := by
  intro zero
  refine WordBits.single_ne_zero (w := 32) (i := i.toNat) (by decide) ?_
  rw [← bit_toBitVec]
  exact congrArg Int32.toBitVec zero

theorem get_members (small : bm.bit_num.toNat ≤ 2 ^ 32 - 32) (accepted : i < bm.bit_num) :
    ∃ v,bitmask_get bm i = .ok v ∧ (v ≠ 0 ↔ i.toNat ∈ members bm) := by
  obtain ⟨word,there⟩ := (inside_small_iff accepted).mpr small
  refine ⟨_,get_eq accepted there,?_⟩
  have member : i.toNat ∈ members bm ↔ word.toBitVec.getLsbD (i.toNat % 32) = true :=
    (and_iff_right (UInt32.lt_iff_toNat_lt.mp accepted)).trans (WordBits.member_word (words_there there))
  rw [member]
  split
  · rename_i set
    exact iff_of_true (bit_ne_zero i) set
  · rename_i unset
    exact iff_of_false (fun nonzero => nonzero rfl) unset

/-- Masks of a size that agree at an index are read alike. -/
theorem get_congr {bm' : Bitmask} (size : bm'.bit_num = bm.bit_num)
    (same : Member (words bm') i.toNat ↔ Member (words bm) i.toNat) : bitmask_get bm' i = bitmask_get bm i := by
  by_cases accepted : i < bm.bit_num
  · by_cases small : bm.bit_num.toNat ≤ 2 ^ 32 - 32
    · obtain ⟨word,there⟩ := (inside_small_iff accepted).mpr small
      obtain ⟨word',there'⟩ := (@inside_small_iff bm' i (size ▸ accepted)).mpr (size ▸ small)
      rw [get_eq accepted there,get_eq (size ▸ accepted) there']
      rw [WordBits.member_word (words_there there),WordBits.member_word (words_there there')] at same
      rw [Bool.eq_iff_iff.mpr same]
    · have outside : bm.data[(i / 32).toNat]? = none := by
        rw [Option.eq_none_iff_forall_ne_some]
        intro word there
        exact small ((inside_small_iff accepted).mp ⟨word,there⟩)
      have outside' : bm'.data[(i / 32).toNat]? = none := by
        rw [List.getElem?_eq_none_iff,bm'.allocated,size,← bm.allocated]
        exact List.getElem?_eq_none_iff.mp outside
      simp only [bitmask_get,size,outside,outside']
  · have refused := UInt32.not_lt.mp accepted
    rw [bitmask_get,bitmask_get,size,if_pos refused,if_pos refused]

/-- A word is written where the index is accepted and the word is there. -/
theorem update_cases {f : UInt32 → UInt32} {bm' : Bitmask} (run : update f bm i = .ok bm') :
    i < bm.bit_num ∧ bm'.bit_num = bm.bit_num ∧ ∃ word,(words bm)[i.toNat / 32]? = some word.toBitVec ∧
      words bm' = (words bm).set (i.toNat / 32) (f word).toBitVec := by
  rw [update] at run
  split at run
  · cases run
  · rename_i accepted
    cases there : bm.data[(i / 32).toNat]? with
    | none =>
      rw [there] at run
      cases run
    | some word =>
      rw [there] at run
      cases run
      refine ⟨UInt32.not_le.mp accepted,rfl,word,words_there there,?_⟩
      rw [words,words,List.map_set,toNat_div_32]

theorem update_total (f : UInt32 → UInt32) (small : bm.bit_num.toNat ≤ 2 ^ 32 - 32) (accepted : i < bm.bit_num) :
    ∃ bm',update f bm i = .ok bm' := by
  obtain ⟨word,there⟩ := (inside_small_iff accepted).mpr small
  rw [update,if_neg (UInt32.not_le.mpr accepted),there]
  exact ⟨_,rfl⟩

theorem set_cases {bm' : Bitmask} (run : bitmask_set bm i = .ok bm') :
    i < bm.bit_num ∧ bm'.bit_num = bm.bit_num ∧ ∀ j,Member (words bm') j ↔ j = i.toNat ∨ Member (words bm) j := by
  obtain ⟨accepted,size,word,there,written⟩ := update_cases run
  refine ⟨accepted,size,fun j => ?_⟩
  rw [written,UInt32.toBitVec_or,bit_toBitVec]
  exact WordBits.member_or (by decide) there

theorem unset_cases {bm' : Bitmask} (run : bitmask_unset bm i = .ok bm') :
    i < bm.bit_num ∧ bm'.bit_num = bm.bit_num ∧ ∀ j,Member (words bm') j ↔ j ≠ i.toNat ∧ Member (words bm) j := by
  obtain ⟨accepted,size,word,there,written⟩ := update_cases run
  refine ⟨accepted,size,fun j => ?_⟩
  rw [written,UInt32.toBitVec_and,UInt32.toBitVec_not,bit_toBitVec]
  exact WordBits.member_and_not (by decide) there

theorem one_cases (bm : Bitmask) : ∃ bm',bitmask_one bm = .ok bm' ∧ bm'.bit_num = bm.bit_num ∧
    ∀ j,Member (words bm') j ↔ j < (num_uint32 bm.bit_num).toNat * 32 := by
  obtain ⟨bm',run,size,data⟩ := fill_eq 0xff bm
  refine ⟨bm',run,size,fun j => ?_⟩
  rw [words,data,List.map_replicate]
  exact WordBits.member_one (by decide)

theorem zero_cases (bm : Bitmask) : ∃ bm',bitmask_zero bm = .ok bm' ∧ bm'.bit_num = bm.bit_num ∧ ∀ j,¬ Member (words bm') j := by
  obtain ⟨bm',run,size,data⟩ := fill_eq 0 bm
  refine ⟨bm',run,size,fun j => ?_⟩
  rw [words,data,List.map_replicate]
  exact WordBits.member_zero

end

/-! ### Runs -/

/-- A call of the interface; masks are given by the numbers of their pointers. -/
inductive Op where
  | create (a_bit_num : UInt32)
  | copy (a_src : Nat)
  | copy_mask (a_dst a_src : Nat)
  | free (a_bm : Nat)
  | get (a_bm : Nat) (a_index : UInt32)
  | one (a_bm : Nat)
  | set (a_bm : Nat) (a_index : UInt32)
  | unset (a_bm : Nat) (a_index : UInt32)
  | zero (a_bm : Nat)
  deriving DecidableEq

/-- The mask behind a pointer, if it has not been freed. -/
def lookup (heap : List (Option Bitmask)) (h : Nat) : Except Stop Bitmask :=
  match cell heap h with
  | none => .error .fault
  | some bm => .ok bm

/-- A call that changes the mask behind a pointer. -/
def change (heap : List (Option Bitmask)) (h : Nat) (call : Bitmask → Except Stop Bitmask) :
    Except Stop (List (Option Bitmask)) := do
  let bm ← lookup heap h
  let bm ← call bm
  .ok (heap.set h (some bm))

def get (heap : List (Option Bitmask)) (h : Nat) (i : UInt32) : Except Stop Int32 := do
  let bm ← lookup heap h
  bitmask_get bm i

def step (heap : List (Option Bitmask)) : Op → Except Stop (List (Option Bitmask))
  | .create n => do
    let bm ← bitmask_create n
    .ok (heap ++ [some bm])
  | .copy src => do
    let bm ← lookup heap src
    let bm ← bitmask_copy bm
    .ok (heap ++ [some bm])
  | .copy_mask dst src => do
    let bm ← lookup heap src
    change heap dst (bitmask_copy_mask · bm)
  | .free h => .ok (heap.set h none)
  | .get h i => do
    let _ ← get heap h i
    .ok heap
  | .one h => change heap h bitmask_one
  | .set h i => change heap h (bitmask_set · i)
  | .unset h i => change heap h (bitmask_unset · i)
  | .zero h => change heap h bitmask_zero

/-- A set of numbers below a bound, at a pointer. -/
abbrev Sets := List (Option (Nat × Set Nat))

def Sets.change (sets : Sets) (h : Nat) (f : Nat → Set Nat → Set Nat) : Sets :=
  sets.set h ((cell sets h).map fun s => (s.1,f s.1 s.2))

/-- The operations on sets. -/
def Op.onSets (sets : Sets) : Op → Sets
  | .create n => sets ++ [some (n.toNat,∅)]
  | .copy src => sets ++ [cell sets src]
  | .copy_mask dst src => sets.set dst (cell sets src)
  | .free h => sets.set h none
  | .get _ _ => sets
  | .one h => sets.change h fun n _ => {i | i < n}
  | .set h i => sets.change h fun _ s => insert i.toNat s
  | .unset h i => sets.change h fun _ s => s \ {i.toNat}
  | .zero h => sets.change h fun _ _ => ∅

/-- The pointer to the mask that a call may change. -/
def Op.target : Op → Option Nat
  | .create _ | .copy _ | .get _ _ => none
  | .copy_mask h _ | .free h | .one h | .set h _ | .unset h _ | .zero h => some h

/-- The calls on sizes up to 2^32 - 32, live masks, indices in range and masks of one size. -/
def Op.Valid (heap : List (Option Bitmask)) : Op → Prop
  | .create n => 0 < n.toNat ∧ n.toNat ≤ 2 ^ 32 - 32
  | .copy h | .one h | .zero h => ∃ bm,cell heap h = some bm
  | .copy_mask dst src => ∃ bm bm',cell heap dst = some bm ∧ cell heap src = some bm' ∧ bm.bit_num = bm'.bit_num
  | .free _ => True
  | .get h i | .set h i | .unset h i => ∃ bm,cell heap h = some bm ∧ i < bm.bit_num

/-- The sets that the masks stand for. -/
def sets (heap : List (Option Bitmask)) : Sets := heap.map (Option.map fun bm => (bm.bit_num.toNat,members bm))

/-- The sizes that the words are there for. -/
def Small (heap : List (Option Bitmask)) : Prop :=
  ∀ h bm,cell heap h = some bm → 0 < bm.bit_num.toNat ∧ bm.bit_num.toNat ≤ 2 ^ 32 - 32

section
variable {heap heap' : List (Option Bitmask)} {h : Nat} {bm bm' : Bitmask} {i : UInt32}

theorem lookup_eq (live : cell heap h = some bm) : lookup heap h = .ok bm := by
  rw [lookup,live]

theorem lookup_ok (run : lookup heap h = .ok bm) : cell heap h = some bm := by
  rw [lookup] at run
  split at run
  · cases run
  · rename_i live
    cases run
    exact live

theorem cell_sets (heap : List (Option Bitmask)) (h : Nat) :
    cell (sets heap) h = (cell heap h).map fun bm => (bm.bit_num.toNat,members bm) := by
  rw [cell,sets,List.getElem?_map,cell]
  cases heap[h]? with
  | none => rfl
  | some bm => rfl

theorem sets_change {f : Nat → Set Nat → Set Nat} (live : cell heap h = some bm) (size : bm'.bit_num = bm.bit_num)
    (changed : members bm' = f bm.bit_num.toNat (members bm)) :
    sets (heap.set h (some bm')) = (sets heap).change h f := by
  rw [Sets.change,cell_sets,live,sets,List.map_set]
  simp only [Option.map_some,size,changed]
  rfl

theorem small_set (small : Small heap) (live : cell heap h = some bm) (size : bm'.bit_num = bm.bit_num) :
    Small (heap.set h (some bm')) := by
  intro h' other there
  rw [cell_set bm' (inside_of_cell live)] at there
  split at there
  · cases there
    rw [size]
    exact small h bm live
  · exact small h' other there

theorem small_append (small : Small heap) (positive : 0 < bm.bit_num.toNat) (le : bm.bit_num.toNat ≤ 2 ^ 32 - 32) :
    Small (heap ++ [some bm]) := by
  intro h' other there
  rw [cell,List.getElem?_append] at there
  split at there
  · exact small h' other there
  · rw [Option.join_eq_some_iff,List.getElem?_singleton] at there
    split at there
    · cases there
      exact ⟨positive,le⟩
    · cases there

/-- A call that changes a mask of the heap acts as on its set. -/
theorem change_total {call : Bitmask → Except Stop Bitmask} (f : Nat → Set Nat → Set Nat) (small : Small heap)
    (live : cell heap h = some bm) (run : call bm = .ok bm') (size : bm'.bit_num = bm.bit_num)
    (changed : members bm' = f bm.bit_num.toNat (members bm)) :
    ∃ heap',change heap h call = .ok heap' ∧ Small heap' ∧ sets heap' = (sets heap).change h f := by
  refine ⟨_,?_,small_set small live size,sets_change live size changed⟩
  rw [change,lookup_eq live,ok_bind,run,ok_bind]

theorem members_one (size : bm'.bit_num = bm.bit_num) (le : bm.bit_num.toNat ≤ 2 ^ 32 - 32)
    (all : ∀ j,Member (words bm') j ↔ j < (num_uint32 bm.bit_num).toNat * 32) : members bm' = {i | i < bm.bit_num.toNat} := by
  ext j
  rw [members,Set.mem_ofPred_eq,Set.mem_ofPred_eq,size,all,and_iff_left_iff_imp,toNat_num_uint32]
  omega

theorem members_zero (none : ∀ j,¬ Member (words bm') j) : members bm' = ∅ := by
  ext j
  exact iff_of_false (fun member => none j member.2) id

theorem members_set (run : bitmask_set bm i = .ok bm') : members bm' = insert i.toNat (members bm) := by
  obtain ⟨accepted,size,put⟩ := set_cases run
  ext j
  rw [Set.mem_insert_iff,members,members,Set.mem_ofPred_eq,Set.mem_ofPred_eq,size,put]
  constructor
  · rintro ⟨inside,rfl | member⟩
    · exact .inl rfl
    · exact .inr ⟨inside,member⟩
  · rintro (rfl | ⟨inside,member⟩)
    · exact ⟨UInt32.lt_iff_toNat_lt.mp accepted,.inl rfl⟩
    · exact ⟨inside,.inr member⟩

theorem members_unset (run : bitmask_unset bm i = .ok bm') : members bm' = members bm \ {i.toNat} := by
  obtain ⟨_,size,taken⟩ := unset_cases run
  ext j
  rw [Set.mem_sdiff_singleton,members,members,Set.mem_ofPred_eq,Set.mem_ofPred_eq,size,taken,and_comm (a := j ≠ _),
    and_assoc]

theorem members_create (n : UInt32) : members ⟨n,List.replicate (num_uint32 n).toNat 0,List.length_replicate⟩ = ∅ := by
  refine members_zero fun j => ?_
  rw [words,List.map_replicate]
  exact WordBits.member_zero

/-- A valid call returns, and does to the sets what it stands for. -/
theorem step_total {op : Op} (small : Small heap) (valid : op.Valid heap) :
    ∃ heap',step heap op = .ok heap' ∧ Small heap' ∧ sets heap' = op.onSets (sets heap) := by
  cases op with
  | create n =>
    obtain ⟨positive,le⟩ := valid
    have nonzero : 0 ≠ n := by
      rintro rfl
      exact absurd positive (by decide)
    refine ⟨_,by rw [step,bitmask_create,if_pos nonzero,ok_bind],small_append small positive le,?_⟩
    rw [sets,List.map_append,List.map_singleton,Option.map_some,members_create]
    rfl
  | copy src =>
    obtain ⟨bm,live⟩ := valid
    obtain ⟨positive,le⟩ := small src bm live
    have nonzero : 0 ≠ bm.bit_num := by
      intro zero
      rw [← zero] at positive
      exact absurd positive (by decide)
    refine ⟨_,by rw [step,lookup_eq live,ok_bind,copy_eq nonzero,ok_bind],small_append small positive le,?_⟩
    rw [Op.onSets,cell_sets,live,sets,List.map_append]
    rfl
  | copy_mask dst src =>
    obtain ⟨bm,bm',live,live',same⟩ := valid
    refine ⟨heap.set dst (some bm'),?_,small_set small live same.symm,?_⟩
    · rw [step,lookup_eq live',ok_bind,change,lookup_eq live,ok_bind,bitmask_copy_mask,if_neg (not_not.mpr same),
        move_eq same,ok_bind]
    · rw [Op.onSets,cell_sets,live',sets,List.map_set]
      rfl
  | free h =>
    refine ⟨_,rfl,?_,by rw [sets,List.map_set]; rfl⟩
    intro h' bm there
    rw [cell_clear] at there
    split at there
    · cases there
    · exact small h' bm there
  | get h i =>
    obtain ⟨bm,live,accepted⟩ := valid
    obtain ⟨v,run,_⟩ := get_members (small h bm live).2 accepted
    exact ⟨heap,by rw [step,get,lookup_eq live,ok_bind,run,ok_bind],small,rfl⟩
  | one h =>
    obtain ⟨bm,live⟩ := valid
    obtain ⟨bm',run,size,all⟩ := one_cases bm
    exact change_total (fun n _ => {i | i < n}) small live run size (members_one size (small h bm live).2 all)
  | set h i =>
    obtain ⟨bm,live,accepted⟩ := valid
    obtain ⟨bm',run⟩ : ∃ bm',bitmask_set bm i = .ok bm' := update_total _ (small h bm live).2 accepted
    exact change_total (fun _ s => insert i.toNat s) small live run (set_cases run).2.1 (members_set run)
  | unset h i =>
    obtain ⟨bm,live,accepted⟩ := valid
    obtain ⟨bm',run⟩ : ∃ bm',bitmask_unset bm i = .ok bm' := update_total _ (small h bm live).2 accepted
    exact change_total (fun _ s => s \ {i.toNat}) small live run (unset_cases run).2.1 (members_unset run)
  | zero h =>
    obtain ⟨bm,live⟩ := valid
    obtain ⟨bm',run,size,none⟩ := zero_cases bm
    exact change_total (fun _ _ => ∅) small live run size (members_zero none)

/-- A call leaves the masks that it is not for. -/
theorem step_frame {op : Op} (run : step heap op = .ok heap') (other : op.target ≠ some h) (there : h < heap.length) :
    cell heap' h = cell heap h ∧ heap.length ≤ heap'.length := by
  have appended : ∀ bm,cell (heap ++ [some bm]) h = cell heap h ∧ heap.length ≤ (heap ++ [some bm]).length := by
    intro bm
    rw [cell,List.getElem?_append_left there,List.length_append]
    exact ⟨rfl,Nat.le_add_right _ _⟩
  have changed : ∀ {k call},some k ≠ some h → change heap k call = .ok heap' →
      cell heap' h = cell heap h ∧ heap.length ≤ heap'.length := by
    intro k call apart run
    obtain ⟨bm,found,rest⟩ := bind_ok_iff.mp run
    obtain ⟨bm',_,rest⟩ := bind_ok_iff.mp rest
    cases rest
    rw [cell_set bm' (inside_of_cell (lookup_ok found)),if_neg fun same => apart (congrArg some same.symm),List.length_set]
    exact ⟨rfl,Nat.le_refl _⟩
  cases op with
  | create n =>
    obtain ⟨bm,_,rest⟩ := bind_ok_iff.mp run
    cases rest
    exact appended bm
  | copy src =>
    obtain ⟨_,_,rest⟩ := bind_ok_iff.mp run
    obtain ⟨bm,_,rest⟩ := bind_ok_iff.mp rest
    cases rest
    exact appended bm
  | copy_mask dst src =>
    obtain ⟨_,_,rest⟩ := bind_ok_iff.mp run
    exact changed other rest
  | free k =>
    cases run
    rw [cell_clear,if_neg fun same => other (congrArg some same.symm),List.length_set]
    exact ⟨rfl,Nat.le_refl _⟩
  | get k i =>
    obtain ⟨_,_,rest⟩ := bind_ok_iff.mp run
    cases rest
    exact ⟨rfl,Nat.le_refl _⟩
  | one k => exact changed other run
  | set k i => exact changed other run
  | unset k i => exact changed other run
  | zero k => exact changed other run

/-- So does a run of calls for other masks. -/
theorem steps_frame : ∀ {ops : List Op} {heap : List (Option Bitmask)},(∀ op ∈ ops,op.target ≠ some h) → h < heap.length →
    steps step heap ops = .ok heap' → cell heap' h = cell heap h := by
  intro ops
  induction ops with
  | nil =>
    intro heap _ _ run
    cases run
    rfl
  | cons op rest ih =>
    intro heap others there run
    obtain ⟨next,first,later⟩ := steps_cons_iff.mp run
    obtain ⟨same,longer⟩ := step_frame first (others op List.mem_cons_self) there
    rw [← same]
    exact ih (fun op later => others op (List.mem_cons_of_mem _ later)) (Nat.lt_of_lt_of_le there longer) later

/-- Writing one index leaves what is read at the others. -/
theorem change_frame {call : Bitmask → Except Stop Bitmask} {j : UInt32} (run : change heap h call = .ok heap')
    (kept : ∀ bm bm',call bm = .ok bm' → bm'.bit_num = bm.bit_num ∧
      (j ≠ i → (Member (words bm') j.toNat ↔ Member (words bm) j.toNat))) {k : Nat} (other : (k,j) ≠ (h,i)) :
    get heap' k j = get heap k j := by
  obtain ⟨bm,found,rest⟩ := bind_ok_iff.mp run
  obtain ⟨bm',called,rest⟩ := bind_ok_iff.mp rest
  cases rest
  have live := lookup_ok found
  have there := inside_of_cell live
  by_cases here : k = h
  · subst here
    obtain ⟨size,same⟩ := kept bm bm' called
    have after : lookup (heap.set k (some bm')) k = .ok bm' := lookup_eq (by rw [cell_set bm' there,if_pos rfl])
    rw [get,get,after,lookup_eq live]
    exact get_congr size (same fun equal => other (by rw [equal]))
  · rw [get,get,lookup,lookup,cell_set bm' there,if_neg here]

theorem set_frame {j : UInt32} {k : Nat} (run : step heap (.set h i) = .ok heap') (other : (k,j) ≠ (h,i)) :
    get heap' k j = get heap k j := by
  refine change_frame run ?_ other
  intro bm bm' called
  obtain ⟨_,size,put⟩ := set_cases called
  exact ⟨size,fun apart => (put _).trans (or_iff_right fun same => apart (UInt32.toNat_inj.mp same))⟩

theorem unset_frame {j : UInt32} {k : Nat} (run : step heap (.unset h i) = .ok heap') (other : (k,j) ≠ (h,i)) :
    get heap' k j = get heap k j := by
  refine change_frame run ?_ other
  intro bm bm' called
  obtain ⟨_,size,taken⟩ := unset_cases called
  exact ⟨size,fun apart => (taken _).trans (and_iff_right fun same => apart (UInt32.toNat_inj.mp same))⟩

end

/-- After every run of valid calls, the masks are read as the sets that the same
    operations make. Writing an index changes what is read at no other one, and
    a mask, also one that has been copied or is a copy, only changes in calls for it. -/
theorem bitmask_sets :
    (∀ ops,Along step (fun heap op => op.Valid heap) [] ops → ∃ heap,steps step [] ops = .ok heap ∧
      let model := ops.foldl Op.onSets []
      ∀ h,(cell heap h = none → cell model h = none) ∧ ∀ bm,cell heap h = some bm →
        ∃ s,cell model h = some (bm.bit_num.toNat,s) ∧ s ⊆ {i | i < bm.bit_num.toNat} ∧
          ∀ i,i < bm.bit_num → ∃ v,get heap h i = .ok v ∧ (v ≠ 0 ↔ i.toNat ∈ s)) ∧
    (∀ heap h i heap',step heap (.set h i) = .ok heap' ∨ step heap (.unset h i) = .ok heap' →
      ∀ k j,(k,j) ≠ (h,i) → get heap' k j = get heap k j) ∧
    ∀ heap ops heap' h,(∀ op ∈ ops,op.target ≠ some h) → h < heap.length → steps step heap ops = .ok heap' →
      cell heap' h = cell heap h := by
  refine ⟨?_,?_,?_⟩
  · intro ops valid
    have one : ∀ heap s op,Small heap ∧ sets heap = s → op.Valid heap →
        ∃ heap',step heap op = .ok heap' ∧ Small heap' ∧ sets heap' = Op.onSets s op := by
      rintro heap s op ⟨small,rfl⟩ valid
      exact step_total small valid
    have none_yet : Small [] := fun h bm there => absurd (inside_of_cell there) (Nat.not_lt_zero h)
    obtain ⟨heap,run,small,represented⟩ := steps_total one ⟨none_yet,rfl⟩ valid
    refine ⟨heap,run,?_⟩
    intro model h
    have same : cell model h = (cell heap h).map fun bm => (bm.bit_num.toNat,members bm) := by
      rw [← cell_sets,represented]
      rfl
    refine ⟨fun freed => by rw [same,freed]; rfl,?_⟩
    intro bm live
    refine ⟨members bm,by rw [same,live]; rfl,fun j member => member.1,?_⟩
    intro i accepted
    obtain ⟨v,read,member⟩ := get_members (small h bm live).2 accepted
    exact ⟨v,by rw [get,lookup_eq live]; exact read,member⟩
  · rintro heap h i heap' (run | run) k j other
    · exact set_frame run other
    · exact unset_frame run other
  · intro heap ops heap' h others there run
    exact steps_frame others there run

example : (do let heap ← steps step [] [.create 64,.set 0 31,.copy 0,.unset 0 31]; .ok (← get heap 1 31,← get heap 0 31)) =
    .ok (-2147483648,0) := by decide

section
variable {bm : Bitmask} {i : UInt32}

/-- An access is out of bounds exactly without its word. -/
theorem fault_iff {α : Type} {x : Except Stop α} {found : Option UInt32} (missing : found = none → x = .error .fault)
    (there : ∀ word,found = some word → ∃ a,x = .ok a) : x ≠ .error .fault ↔ ∃ word,found = some word := by
  cases found with
  | none => exact iff_of_false (fun inside => inside (missing rfl)) (by rintro ⟨word,⟨⟩⟩)
  | some word =>
    obtain ⟨a,rfl⟩ := there word rfl
    exact iff_of_true (by rintro ⟨⟩) ⟨word,rfl⟩

theorem get_fault_iff (accepted : i < bm.bit_num) :
    bitmask_get bm i ≠ .error .fault ↔ ∃ word,bm.data[(i / 32).toNat]? = some word := by
  rw [bitmask_get,if_neg (UInt32.not_le.mpr accepted)]
  refine fault_iff (fun missing => ?_) fun word there => ?_
  · rw [missing]
  · rw [there]
    exact ⟨_,rfl⟩

theorem update_fault_iff (f : UInt32 → UInt32) (accepted : i < bm.bit_num) :
    update f bm i ≠ .error .fault ↔ ∃ word,bm.data[(i / 32).toNat]? = some word := by
  rw [update,if_neg (UInt32.not_le.mpr accepted)]
  refine fault_iff (fun missing => ?_) fun word there => ?_
  · rw [missing]
  · rw [there]
    exact ⟨_,rfl⟩

end

/-- An index that is accepted has its word exactly up to 2^32 - 32 bits; above that
    no word is allocated and every access is out of bounds. -/
theorem accepted_inside_iff (bit_num index : UInt32) (positive : 0 ≠ bit_num) (accepted : index < bit_num) :
    ∃ bm,bitmask_create bit_num = .ok bm ∧ bm.data.length = (num_uint32 bit_num).toNat ∧
      (index / 32 < num_uint32 bit_num ↔ bit_num.toNat ≤ 2 ^ 32 - 32) ∧
      (bitmask_get bm index ≠ .error .fault ↔ bit_num.toNat ≤ 2 ^ 32 - 32) ∧
      (bitmask_set bm index ≠ .error .fault ↔ bit_num.toNat ≤ 2 ^ 32 - 32) ∧
      (bitmask_unset bm index ≠ .error .fault ↔ bit_num.toNat ≤ 2 ^ 32 - 32) := by
  refine ⟨_,if_pos positive,List.length_replicate,word_inside_iff accepted,?_,?_,?_⟩
  · exact (get_fault_iff accepted).trans (inside_small_iff accepted)
  · exact (update_fault_iff _ accepted).trans (inside_small_iff accepted)
  · exact (update_fault_iff _ accepted).trans (inside_small_iff accepted)

theorem accepted_inside_thirty_three : ∃ bm,bitmask_create 33 = .ok bm ∧ bitmask_get bm 32 ≠ .error .fault := by
  obtain ⟨bm,made,_,_,inside,_⟩ := accepted_inside_iff 33 32 (by decide) (by decide)
  exact ⟨bm,made,inside.mpr (by decide)⟩

theorem accepted_outside : ¬ ∀ bit_num index : UInt32,0 ≠ bit_num → index < bit_num →
    index / 32 < num_uint32 bit_num := by
  intro inside
  exact absurd (inside 4294967265 0 (by decide) (by decide)) (by decide)

end Htools.Bitmask
