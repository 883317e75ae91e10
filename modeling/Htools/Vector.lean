import Htools.Machine
import Htools.Cells
import Mathlib.Algebra.Group.Nat.Defs

/-!
The vector template (`hutils/include/hutils/vector.h`). The elements lie behind
`ofs` unused cells, so that they can be added at both ends; `chunk` bounds the
unused cells at either side. Every operation is shown to keep the asserted
invariant (`Sound`) and to do to the window of elements what its name says to
a list; a run is their composition (`run_total`).
-/
namespace Htools.Vector
open Htools.Cells

/-- `VECTOR_HEAD`, with the cells of the allocation. -/
structure VectorType (α : Type) where
  ofs : Nat
  size : Nat
  capacity : Nat
  data : List (Option α)
  deriving DecidableEq, Repr

section
variable {α : Type} (chunk : Nat)

/-- `VECTOR_ASSERT_INVARIANT_`, given the sum of offset and size. -/
def assert_invariant (a_vec : VectorType α) (ofs_size : Nat) : Except Stop Unit :=
  if ofs_size ≤ a_vec.capacity ∧ chunk ≥ a_vec.ofs ∧ a_vec.capacity ≤ ofs_size + chunk then .ok ()
  else .error .abort

/-- `MEMMOVE`: the assertions look at the capacity, the machine at the allocation. -/
def memmove (a_vec : VectorType α) (dst src num : Nat) : Except Stop (VectorType α) :=
  if ¬ (a_vec.capacity ≥ num ∧ a_vec.capacity ≥ dst + num ∧ a_vec.capacity ≥ src + num) then .error .abort
  else if ¬ (dst + num ≤ a_vec.data.length ∧ src + num ≤ a_vec.data.length) then .error .fault
  else .ok { a_vec with data := moved a_vec.data dst src num }

/-- The subtraction of two `size_t`. -/
def size_sub (a b : Nat) : Nat := if b ≤ a then a - b else 2 ^ 64 - (b - a)

def reserve_ (a_vec : VectorType α) (a_capacity : Nat) : Except Stop (VectorType α) := do
  let data := resized a_vec.data a_capacity
  if a_vec.ofs + a_vec.size > a_capacity then
    let a_vec := { a_vec with size := size_sub a_capacity a_vec.ofs, capacity := a_capacity, data := data }
    -- Where the subtraction wraps around, so does the sum with the offset, to `a_capacity`.
    assert_invariant chunk a_vec a_capacity
    .ok a_vec
  else
    let a_vec := { a_vec with capacity := a_capacity, data := data }
    assert_invariant chunk a_vec (a_vec.ofs + a_vec.size)
    .ok a_vec

def try_grow_ (a_vec : VectorType α) : Except Stop (VectorType α) :=
  if a_vec.ofs + a_vec.size ≥ a_vec.capacity then reserve_ chunk a_vec (a_vec.ofs + a_vec.size + chunk) else .ok a_vec

def try_shrink_ (a_vec : VectorType α) : Except Stop (VectorType α) :=
  if a_vec.ofs + a_vec.size + chunk < a_vec.capacity then reserve_ chunk a_vec (a_vec.ofs + a_vec.size + chunk)
  else .ok a_vec

/-- The index in the allocation that the returned pointer has. -/
def at_ (a_vec : VectorType α) (a_i : Nat) : Except Stop Nat :=
  if a_vec.size ≤ a_i then .error .abort else .ok (a_vec.ofs + a_i)

def back (a_vec : VectorType α) : Except Stop Nat :=
  if 0 = a_vec.size then .error .abort else .ok (a_vec.ofs + a_vec.size - 1)

def front (a_vec : VectorType α) : Except Stop Nat :=
  if 0 = a_vec.size then .error .abort else .ok a_vec.ofs

/-- `zero` is the element of which all bytes are zero. -/
def init (zero : α) (a_size : Nat) : Except Stop (VectorType α) := do
  let data := if 0 = a_size then [] else List.replicate a_size (some zero)
  let a_vec := { ofs := 0, size := a_size, capacity := a_size, data := data }
  assert_invariant chunk a_vec (a_vec.ofs + a_vec.size)
  .ok a_vec

def erase (a_vec : VectorType α) (a_i : Nat) : Except Stop (VectorType α) :=
  if a_vec.size ≤ a_i then .error .abort
  else
    let a_vec := { a_vec with size := a_vec.size - 1 }
    if a_i < a_vec.size / 2 then
      let a_vec := { a_vec with ofs := a_vec.ofs + 1 }
      if chunk ≤ a_vec.ofs then do
        let a_vec ← memmove a_vec 0 (a_vec.ofs - 1) a_i
        let a_vec ← memmove a_vec a_i (a_vec.ofs + a_i) (a_vec.size - a_i)
        try_shrink_ chunk { a_vec with ofs := 0 }
      else do
        let a_vec ← memmove a_vec a_vec.ofs (a_vec.ofs - 1) a_i
        assert_invariant chunk a_vec (a_vec.ofs + a_vec.size)
        .ok a_vec
    else do
      let a_vec ← memmove a_vec (a_vec.ofs + a_i) (a_vec.ofs + a_i + 1) (a_vec.size - a_i)
      try_shrink_ chunk a_vec

def clean (_ : VectorType α) : VectorType α := { ofs := 0, size := 0, capacity := 0, data := [] }

/-- The result has the index of the new slot. -/
def insert (a_vec : VectorType α) (a_i : Nat) : Except Stop (Nat × VectorType α) :=
  if a_vec.size + 1 ≤ a_i then .error .abort
  else do
    let a_vec := { a_vec with size := a_vec.size + 1 }
    let a_vec ←
      if a_i < a_vec.size / 2 then
        if 0 < a_vec.ofs then
          let a_vec := { a_vec with ofs := a_vec.ofs - 1 }
          memmove a_vec a_vec.ofs (a_vec.ofs + 1) a_i
        else do
          let a_vec ← try_grow_ chunk { a_vec with ofs := chunk - 1 }
          let a_vec ← memmove a_vec (a_vec.ofs + a_i + 1) a_i (a_vec.size - a_i)
          memmove a_vec a_vec.ofs 0 a_i
      else do
        let a_vec ← try_grow_ chunk a_vec
        memmove a_vec (a_vec.ofs + a_i + 1) (a_vec.ofs + a_i) (a_vec.size - a_i)
    assert_invariant chunk a_vec (a_vec.ofs + a_vec.size)
    .ok (a_vec.ofs + a_i,a_vec)

def pop_back (a_vec : VectorType α) : Except Stop (VectorType α) :=
  if 0 = a_vec.size then .error .abort else try_shrink_ chunk { a_vec with size := a_vec.size - 1 }

def pop_front (a_vec : VectorType α) : Except Stop (VectorType α) :=
  if 0 = a_vec.size then .error .abort
  else do
    let a_vec := { a_vec with size := a_vec.size - 1 }
    let a_vec ← memmove a_vec 0 (a_vec.ofs + 1) a_vec.size
    try_shrink_ chunk a_vec

def push_back (a_vec : VectorType α) : Except Stop (Nat × VectorType α) := do
  let a_vec ← try_grow_ chunk { a_vec with size := a_vec.size + 1 }
  .ok (a_vec.ofs + a_vec.size - 1,a_vec)

def push_front (a_vec : VectorType α) : Except Stop (Nat × VectorType α) := do
  let a_vec := { a_vec with size := a_vec.size + 1 }
  let a_vec ←
    if 0 < a_vec.ofs then .ok { a_vec with ofs := a_vec.ofs - 1 }
    else do
      let a_vec ← try_grow_ chunk { a_vec with ofs := chunk - 1 }
      memmove a_vec (a_vec.ofs + 1) 0 (a_vec.size - 1)
  assert_invariant chunk a_vec (a_vec.ofs + a_vec.size)
  .ok (a_vec.ofs,a_vec)

/-- The caller's access through a returned pointer. -/
def load (a_vec : VectorType α) (slot : Nat) : Except Stop α :=
  match cell a_vec.data slot with
  | some x => .ok x
  | none => .error .fault

def store (a_vec : VectorType α) (slot : Nat) (x : α) : Except Stop (VectorType α) :=
  if slot < a_vec.data.length then .ok { a_vec with data := a_vec.data.set slot (some x) } else .error .fault

end

/-! ### The invariant and the window -/

section
variable {α : Type} {chunk : Nat} {v : VectorType α} {l : List α}

/-- The asserted invariant, and that the capacity is that of the allocation. -/
structure Sound (chunk : Nat) (v : VectorType α) : Prop where
  inside : v.ofs + v.size ≤ v.capacity
  front : v.ofs ≤ chunk
  back : v.capacity ≤ v.ofs + v.size + chunk
  allocated : v.data.length = v.capacity

/-- A vector whose elements are those of a list. -/
structure Represents (chunk : Nat) (v : VectorType α) (l : List α) : Prop extends Sound chunk v where
  size : v.size = l.length
  window : Window v.data v.ofs l

/-- A vector with the elements of a list around a new slot `i`. -/
structure Opened (chunk : Nat) (v : VectorType α) (i : Nat) (l : List α) : Prop extends Sound chunk v where
  size : v.size = l.length + 1
  slot : i ≤ l.length
  below : ∀ k < i, cell v.data (v.ofs + k) = l[k]?
  above : ∀ k, i ≤ k → k < l.length → cell v.data (v.ofs + (k + 1)) = l[k]?

theorem assert_invariant_sound (sound : Sound chunk v) : assert_invariant chunk v (v.ofs + v.size) = .ok () := by
  rw [assert_invariant,if_pos ⟨sound.inside,sound.front,sound.back⟩]

theorem memmove_total (dst src num : Nat) (allocated : v.data.length = v.capacity) (dstFits : dst + num ≤ v.capacity)
    (srcFits : src + num ≤ v.capacity) : memmove v dst src num = .ok { v with data := moved v.data dst src num } := by
  rw [memmove,if_neg (by omega),if_neg (by omega)]

/-- `reserve_` to a capacity that leaves all elements and no more than a chunk behind them. -/
theorem reserve_total {c : Nat} (inside : v.ofs + v.size ≤ c) (front : v.ofs ≤ chunk)
    (back : c ≤ v.ofs + v.size + chunk) :
    reserve_ chunk v c = .ok { v with capacity := c, data := resized v.data c } := by
  rw [reserve_,if_neg (by omega)]
  simp only [assert_invariant,if_pos (show v.ofs + v.size ≤ c ∧ chunk ≥ v.ofs ∧ c ≤ v.ofs + v.size + chunk from
    ⟨inside,front,back⟩)]
  rfl

/-- Growing leaves room behind the elements, and all cells. -/
theorem try_grow_total (positive : 1 ≤ chunk) (allocated : v.data.length = v.capacity) (front : v.ofs ≤ chunk) :
    ∃ c data, try_grow_ chunk v = .ok { v with capacity := c, data := data } ∧ data.length = c ∧
      v.ofs + v.size < c ∧ c ≤ max v.capacity (v.ofs + v.size + chunk) ∧ ∀ k, cell data k = cell v.data k := by
  by_cases full : v.ofs + v.size ≥ v.capacity
  · refine ⟨v.ofs + v.size + chunk,resized v.data (v.ofs + v.size + chunk),?_,length_resized _ _,by omega,by omega,?_⟩
    · rw [try_grow_,if_pos full,reserve_total (by omega) front (Nat.le_refl _)]
    · intro k
      rw [cell_resized]
      by_cases inside : k < v.ofs + v.size + chunk
      · rw [if_pos inside]
      · rw [if_neg inside,cell,List.getElem?_eq_none (by omega)]
        rfl
  · exact ⟨v.capacity,v.data,by rw [try_grow_,if_neg full],allocated,by omega,by omega,fun _ => rfl⟩

/-- Shrinking leaves no more than a chunk behind the elements, and their cells. -/
theorem try_shrink_total (inside : v.ofs + v.size ≤ v.capacity) (front : v.ofs ≤ chunk)
    (allocated : v.data.length = v.capacity) (size : v.size = l.length) (window : Window v.data v.ofs l) :
    ∃ v', try_shrink_ chunk v = .ok v' ∧ Represents chunk v' l := by
  by_cases wide : v.ofs + v.size + chunk < v.capacity
  · refine ⟨{ v with capacity := v.ofs + v.size + chunk, data := resized v.data (v.ofs + v.size + chunk) },?_,
      ⟨Nat.le_add_right _ _,front,Nat.le_refl _,length_resized _ _⟩,size,?_⟩
    · rw [try_shrink_,if_pos wide,reserve_total (Nat.le_add_right _ _) front (Nat.le_refl _)]
    intro k lt
    simp only
    rw [cell_resized,if_pos (by omega)]
    exact window k lt
  · exact ⟨v,by rw [try_shrink_,if_neg wide],⟨inside,front,by omega,allocated⟩,size,window⟩

/-- Writing the new slot inserts the element. -/
theorem store_opened {i : Nat} (opened : Opened chunk v i l) (x : α) :
    ∃ v', store v (v.ofs + i) x = .ok v' ∧ Represents chunk v' (l.insertIdx i x) := by
  obtain ⟨sound,size,slot,below,above⟩ := opened
  have inside : v.ofs + i < v.data.length := by
    have := sound.inside
    have := sound.allocated
    omega
  have length : (l.insertIdx i x).length = l.length + 1 := by rw [List.length_insertIdx,if_pos slot]
  refine ⟨{ v with data := v.data.set (v.ofs + i) (some x) },by rw [store,if_pos inside],
    ⟨sound.inside,sound.front,sound.back,?_⟩,size.trans length.symm,?_⟩
  · rw [List.length_set]
    exact sound.allocated
  · intro k lt
    rw [length] at lt
    simp only
    rw [cell_set x inside,List.getElem?_insertIdx]
    by_cases before : k < i
    · rw [if_neg (by omega),if_pos before,below k before]
    · rw [if_neg before]
      by_cases here : k = i
      · rw [if_pos (by omega),if_pos here,if_pos (here ▸ slot)]
      · obtain ⟨k,rfl⟩ : ∃ n, k = n + 1 := ⟨k - 1,by omega⟩
        rw [if_neg (by omega),if_neg here,above k (by omega) (by omega)]
        rfl

/-! ### The operations -/

theorem init_total (chunk : Nat) (zero : α) (a_size : Nat) :
    ∃ v, init chunk zero a_size = .ok v ∧ Represents chunk v (List.replicate a_size zero) := by
  have data : (if 0 = a_size then [] else List.replicate a_size (some zero)) = List.replicate a_size (some zero) := by
    split_ifs with none
    · rw [← none,List.replicate_zero]
    · rfl
  refine ⟨⟨0,a_size,a_size,List.replicate a_size (some zero)⟩,?_,
    ⟨by simp only; omega,Nat.zero_le _,by simp only; omega,List.length_replicate⟩,List.length_replicate.symm,?_⟩
  · simp only [init,data,assert_invariant]
    rw [if_pos (by omega)]
    rfl
  · rw [window_iff]
    simp

theorem push_back_total (positive : 1 ≤ chunk) (rep : Represents chunk v l) :
    ∃ v', push_back chunk v = .ok (v'.ofs + l.length,v') ∧ Opened chunk v' l.length l := by
  obtain ⟨⟨inside,front,back,allocated⟩,size,window⟩ := rep
  obtain ⟨c,data,run,length,room,bound,cells⟩ := try_grow_total (v := { v with size := v.size + 1 }) positive allocated
    front
  simp only at room bound cells
  refine ⟨⟨v.ofs,v.size + 1,c,data⟩,?_,⟨by simp only; omega,front,by simp only; omega,length⟩,by rw [size],(Nat.le_refl _),?_,?_⟩
  · simp only [push_back,run,bind,Except.bind]
    congr 2
    omega
  · intro k lt
    rw [cells]
    exact window k lt
  · intro k above lt
    omega

theorem push_front_total (positive : 1 ≤ chunk) (rep : Represents chunk v l) :
    ∃ v', push_front chunk v = .ok (v'.ofs + 0,v') ∧ Opened chunk v' 0 l := by
  obtain ⟨⟨inside,front,back,allocated⟩,size,window⟩ := rep
  by_cases margin : 0 < v.ofs
  · have sound : Sound chunk (⟨v.ofs - 1,v.size + 1,v.capacity,v.data⟩ : VectorType α) :=
      ⟨by simp only; omega,by simp only; omega,by simp only; omega,allocated⟩
    refine ⟨_,?_,sound,by rw [size],Nat.zero_le _,fun k lt => absurd lt (Nat.not_lt_zero k),?_⟩
    · simp only [push_front,if_pos margin,bind,Except.bind,assert_invariant_sound sound,Nat.add_zero]
    · intro k _ lt
      simp only
      rw [show v.ofs - 1 + (k + 1) = v.ofs + k by omega]
      exact window k lt
  · obtain ⟨c,data,run,length,room,bound,cells⟩ := try_grow_total
      (v := ⟨chunk - 1,v.size + 1,v.capacity,v.data⟩) positive allocated (by simp only; omega)
    simp only at room bound cells
    have sound : Sound chunk (⟨chunk - 1,v.size + 1,c,moved data (chunk - 1 + 1) 0 v.size⟩ : VectorType α) :=
      ⟨by simp only; omega,by simp only; omega,by simp only; omega,by
        rw [length_moved (by omega) (by omega)]; exact length⟩
    refine ⟨_,?_,sound,by rw [size],Nat.zero_le _,fun k lt => absurd lt (Nat.not_lt_zero k),?_⟩
    · have shifted := memmove_total (v := ⟨chunk - 1,v.size + 1,c,data⟩) (chunk - 1 + 1) 0 v.size
        length (by simp only; omega) (by simp only; omega)
      simp only [push_front,if_neg margin,bind,Except.bind,run,Nat.add_sub_cancel,shifted,
        assert_invariant_sound sound,Nat.add_zero]
    · intro k _ lt
      simp only
      rw [cell_moved (by omega) (by omega),if_pos (by omega),cells,← window k lt]
      congr 1
      omega

theorem insert_total (positive : 1 ≤ chunk) (rep : Represents chunk v l) {i : Nat} (slot : i ≤ l.length) :
    ∃ v', insert chunk v i = .ok (v'.ofs + i,v') ∧ Opened chunk v' i l := by
  obtain ⟨⟨inside,front,back,allocated⟩,size,window⟩ := rep
  have bounds : ¬ v.size + 1 ≤ i := by omega
  by_cases near : i < (v.size + 1) / 2
  · by_cases margin : 0 < v.ofs
    -- The elements before the slot move into the front margin.
    · have sound : Sound chunk (⟨v.ofs - 1,v.size + 1,v.capacity,moved v.data (v.ofs - 1) (v.ofs - 1 + 1) i⟩ :
          VectorType α) :=
        ⟨by simp only; omega,by simp only; omega,by simp only; omega,by
          rw [length_moved (by omega) (by omega)]; exact allocated⟩
      refine ⟨_,?_,sound,by rw [size],slot,?_,?_⟩
      · have shifted := memmove_total (v := ⟨v.ofs - 1,v.size + 1,v.capacity,v.data⟩) (v.ofs - 1) (v.ofs - 1 + 1) i
          allocated (by simp only; omega) (by simp only; omega)
        simp only [insert,if_neg bounds,if_pos near,if_pos margin,bind,Except.bind,shifted,
          assert_invariant_sound sound]
      · intro k lt
        simp only
        rw [cell_moved (by omega) (by omega),if_pos (by omega),← window k (by omega)]
        congr 1
        omega
      · intro k above lt
        simp only
        rw [cell_moved (by omega) (by omega),if_neg (by omega),← window k lt]
        congr 1
        omega
    -- All elements move behind a new front margin, with a gap for the slot.
    · obtain ⟨c,data,run,length,room,bound,cells⟩ := try_grow_total
        (v := ⟨chunk - 1,v.size + 1,v.capacity,v.data⟩) positive allocated (by simp only; omega)
      simp only at room bound cells
      obtain ⟨mid,midIs⟩ : ∃ d, d = moved data (chunk - 1 + i + 1) i (v.size + 1 - i) := ⟨_,rfl⟩
      have midLength : mid.length = c := by
        rw [midIs,length_moved (by omega) (by omega)]
        exact length
      have sound : Sound chunk (⟨chunk - 1,v.size + 1,c,moved mid (chunk - 1) 0 i⟩ : VectorType α) :=
        ⟨by simp only; omega,by simp only; omega,by simp only; omega,by
          rw [length_moved (by omega) (by omega)]; exact midLength⟩
      refine ⟨_,?_,sound,by rw [size],slot,?_,?_⟩
      · have upper := memmove_total (v := ⟨chunk - 1,v.size + 1,c,data⟩) (chunk - 1 + i + 1) i (v.size + 1 - i)
          length (by simp only; omega) (by simp only; omega)
        have lower := memmove_total (v := ⟨chunk - 1,v.size + 1,c,mid⟩) (chunk - 1) 0 i
          midLength (by simp only; omega) (by simp only; omega)
        simp only [← midIs] at upper
        simp only [insert,if_neg bounds,if_pos near,if_neg margin,bind,Except.bind,run,upper,lower,
          assert_invariant_sound sound]
      · intro k lt
        simp only
        rw [cell_moved (by omega) (by omega),if_pos (by omega),midIs,cell_moved (by omega) (by omega),
          if_neg (by omega),cells,← window k (by omega)]
        congr 1
        omega
      · intro k above lt
        simp only
        rw [cell_moved (by omega) (by omega),if_neg (by omega),midIs,cell_moved (by omega) (by omega),
          if_pos (by omega),cells,← window k lt]
        congr 1
        omega
  -- The elements behind the slot move into the back margin.
  · obtain ⟨c,data,run,length,room,bound,cells⟩ := try_grow_total (v := { v with size := v.size + 1 }) positive
      allocated front
    simp only at room bound cells
    have sound : Sound chunk (⟨v.ofs,v.size + 1,c,moved data (v.ofs + i + 1) (v.ofs + i) (v.size + 1 - i)⟩ :
        VectorType α) :=
      ⟨by simp only; omega,front,by simp only; omega,by rw [length_moved (by omega) (by omega)]; exact length⟩
    refine ⟨_,?_,sound,by rw [size],slot,?_,?_⟩
    · have shifted := memmove_total (v := ⟨v.ofs,v.size + 1,c,data⟩) (v.ofs + i + 1) (v.ofs + i) (v.size + 1 - i)
        length (by simp only; omega) (by simp only; omega)
      simp only [insert,if_neg bounds,if_neg near,bind,Except.bind,run,shifted,assert_invariant_sound sound]
    · intro k lt
      simp only
      rw [cell_moved (by omega) (by omega),if_neg (by omega),cells]
      exact window k (by omega)
    · intro k above lt
      simp only
      rw [cell_moved (by omega) (by omega),if_pos (by omega),cells,← window k lt]
      congr 1
      omega

theorem pop_back_total (rep : Represents chunk v l) (nonempty : l ≠ []) :
    ∃ v', pop_back chunk v = .ok v' ∧ Represents chunk v' l.dropLast := by
  obtain ⟨⟨inside,front,back,allocated⟩,size,window⟩ := rep
  have positive := List.length_pos_iff.mpr nonempty
  rw [pop_back,if_neg (by omega)]
  refine try_shrink_total (by simp only; omega) front allocated (by rw [List.length_dropLast,size]) ?_
  intro k lt
  rw [List.length_dropLast] at lt
  rw [window k (by omega),List.getElem?_dropLast,if_pos lt]

theorem erase_total (rep : Represents chunk v l) {i : Nat} (member : i < l.length) :
    ∃ v', erase chunk v i = .ok v' ∧ Represents chunk v' (l.eraseIdx i) := by
  obtain ⟨⟨inside,front,back,allocated⟩,size,window⟩ := rep
  have bounds : ¬ v.size ≤ i := by omega
  have length : v.size - 1 = (l.eraseIdx i).length := by rw [List.length_eraseIdx,if_pos member,size]
  -- What the cells of the shorter window have to hold.
  have shorter : ∀ (data : List (Option α)) (ofs : Nat), (∀ k < i, cell data (ofs + k) = l[k]?) →
      (∀ k, i ≤ k → k + 1 < l.length → cell data (ofs + k) = l[k + 1]?) → Window data ofs (l.eraseIdx i) := by
    intro data ofs before behind k lt
    rw [← length] at lt
    rw [List.getElem?_eraseIdx]
    by_cases first : k < i
    · rw [if_pos first,before k first]
    · rw [if_neg first,behind k (by omega) (by omega)]
  by_cases near : i < (v.size - 1) / 2
  · by_cases full : chunk ≤ v.ofs + 1
    -- The front margin is given up.
    · obtain ⟨mid,midIs⟩ : ∃ d, d = moved v.data 0 (v.ofs + 1 - 1) i := ⟨_,rfl⟩
      have midLength : mid.length = v.capacity := by
        rw [midIs,length_moved (by omega) (by omega)]
        exact allocated
      have lower := memmove_total (v := ⟨v.ofs + 1,v.size - 1,v.capacity,v.data⟩) 0 (v.ofs + 1 - 1) i
        allocated (by simp only; omega) (by simp only; omega)
      have upper := memmove_total (v := ⟨v.ofs + 1,v.size - 1,v.capacity,mid⟩) i (v.ofs + 1 + i) (v.size - 1 - i)
        midLength (by simp only; omega) (by simp only; omega)
      simp only [← midIs] at lower
      simp only [erase,if_neg bounds,if_pos near,if_pos full,bind,Except.bind,lower,upper]
      refine try_shrink_total (by simp only; omega) (Nat.zero_le _)
        (by rw [length_moved (by omega) (by omega)]; exact midLength) length (shorter _ _ ?_ ?_)
      · intro k lt
        simp only
        rw [cell_moved (by omega) (by omega),if_neg (by omega),midIs,cell_moved (by omega) (by omega),
          if_pos (by omega),← window k (by omega)]
        congr 1
        omega
      · intro k above lt
        simp only
        rw [cell_moved (by omega) (by omega),if_pos (by omega),midIs,cell_moved (by omega) (by omega),
          if_neg (by omega),← window (k + 1) (by omega)]
        congr 1
        omega
    -- The elements before the erased one move up.
    · have shifted := memmove_total (v := ⟨v.ofs + 1,v.size - 1,v.capacity,v.data⟩) (v.ofs + 1) (v.ofs + 1 - 1) i
        allocated (by simp only; omega) (by simp only; omega)
      have sound : Sound chunk (⟨v.ofs + 1,v.size - 1,v.capacity,moved v.data (v.ofs + 1) (v.ofs + 1 - 1) i⟩ :
          VectorType α) :=
        ⟨by simp only; omega,by simp only; omega,by simp only; omega,by
          rw [length_moved (by omega) (by omega)]; exact allocated⟩
      refine ⟨_,?_,sound,length,shorter _ _ ?_ ?_⟩
      · simp only [erase,if_neg bounds,if_pos near,if_neg full,bind,Except.bind,shifted,assert_invariant_sound sound]
      · intro k lt
        simp only
        rw [cell_moved (by omega) (by omega),if_pos (by omega),← window k (by omega)]
        congr 1
        omega
      · intro k above lt
        simp only
        rw [cell_moved (by omega) (by omega),if_neg (by omega),← window (k + 1) (by omega)]
        congr 1
        omega
  -- The elements behind the erased one move down.
  · have shifted := memmove_total (v := ⟨v.ofs,v.size - 1,v.capacity,v.data⟩) (v.ofs + i) (v.ofs + i + 1) (v.size - 1 - i)
      allocated (by simp only; omega) (by simp only; omega)
    simp only [erase,if_neg bounds,if_neg near,bind,Except.bind,shifted]
    refine try_shrink_total (by simp only; omega) front (by rw [length_moved (by omega) (by omega)]; exact allocated)
      length (shorter _ _ ?_ ?_)
    · intro k lt
      simp only
      rw [cell_moved (by omega) (by omega),if_neg (by omega)]
      exact window k (by omega)
    · intro k above lt
      simp only
      rw [cell_moved (by omega) (by omega),if_pos (by omega),← window (k + 1) (by omega)]
      congr 1
      omega

/-- What `pop_front` leaves of a list behind `ofs` unused cells: it moves the
    elements to the start of the allocation and looks for them behind the cells. -/
def popped (ofs : Nat) (l : List α) : List α := l.drop (ofs + 1) ++ l.dropLast.drop (l.length - 1 - ofs)

theorem length_popped (ofs : Nat) (l : List α) : (popped ofs l).length = l.length - 1 := by
  simp only [popped,List.length_append,List.length_drop,List.length_dropLast]
  omega

theorem getElem?_popped (ofs : Nat) {l : List α} {i : Nat} (inside : i < l.length - 1) :
    (popped ofs l)[i]? = if ofs + i < l.length - 1 then l[ofs + i + 1]? else l[i]? := by
  rw [popped,List.getElem?_append,List.length_drop]
  by_cases moved : ofs + i < l.length - 1
  · rw [if_pos (by omega),if_pos moved,List.getElem?_drop,show ofs + 1 + i = ofs + i + 1 by omega]
  · rw [if_neg (by omega),if_neg moved,List.getElem?_drop,
      show l.length - 1 - ofs + (i - (l.length - (ofs + 1))) = i by omega,List.getElem?_dropLast,if_pos inside]

theorem pop_front_total (rep : Represents chunk v l) (nonempty : l ≠ []) :
    ∃ v', pop_front chunk v = .ok v' ∧ Represents chunk v' (popped v.ofs l) := by
  obtain ⟨⟨inside,front,back,allocated⟩,size,window⟩ := rep
  have positive := List.length_pos_iff.mpr nonempty
  have shifted := memmove_total (v := ⟨v.ofs,v.size - 1,v.capacity,v.data⟩) 0 (v.ofs + 1) (v.size - 1)
    allocated (by simp only; omega) (by simp only; omega)
  simp only [pop_front,if_neg (show ¬ 0 = v.size by omega),bind,Except.bind,shifted]
  refine try_shrink_total (by simp only; omega) front (by rw [length_moved (by omega) (by omega)]; exact allocated)
    (by rw [length_popped,size]) ?_
  intro k lt
  rw [length_popped] at lt
  rw [getElem?_popped v.ofs lt]
  simp only
  rw [cell_moved (by omega) (by omega)]
  by_cases moved : v.ofs + k < l.length - 1
  · rw [if_pos (by omega),if_pos moved,← window (v.ofs + k + 1) (by omega)]
    congr 1
    omega
  · rw [if_neg (by omega),if_neg moved]
    exact window k (by omega)

/-! ### Runs -/

/-- The operations of a run, with what the caller writes to a new slot. -/
inductive Op (α : Type) where
  | init (n : Nat)
  | push_back (x : α)
  | push_front (x : α)
  | pop_back
  | insert (i : Nat) (x : α)
  | erase (i : Nat)
  | clean
  deriving Repr

/-- What the callers promise for the list of elements. -/
def Op.Allowed (l : List α) : Op α → Prop
  | .init _ | .push_back _ | .push_front _ | .clean => True
  | .pop_back => l ≠ []
  | .insert i _ => i ≤ l.length
  | .erase i => i < l.length

/-- The operation on the list of elements. -/
def Op.onList (zero : α) (l : List α) : Op α → List α
  | .init n => List.replicate n zero
  | .push_back x => l ++ [x]
  | .push_front x => x :: l
  | .pop_back => l.dropLast
  | .insert i x => l.insertIdx i x
  | .erase i => l.eraseIdx i
  | .clean => []

def step (chunk : Nat) (zero : α) (a_vec : VectorType α) : Op α → Except Stop (VectorType α)
  | .init n => init chunk zero n
  | .push_back x => do
    let (slot,a_vec) ← push_back chunk a_vec
    store a_vec slot x
  | .push_front x => do
    let (slot,a_vec) ← push_front chunk a_vec
    store a_vec slot x
  | .pop_back => pop_back chunk a_vec
  | .insert i x => do
    let (slot,a_vec) ← insert chunk a_vec i
    store a_vec slot x
  | .erase i => erase chunk a_vec i
  | .clean => .ok (clean a_vec)

def steps (chunk : Nat) (zero : α) (a_vec : VectorType α) : List (Op α) → Except Stop (VectorType α)
  | [] => .ok a_vec
  | op :: rest => do
    let a_vec ← step chunk zero a_vec op
    steps chunk zero a_vec rest

/-- Every operation is allowed where it comes. -/
def AllAllowed (zero : α) (l : List α) : List (Op α) → Prop
  | [] => True
  | op :: rest => op.Allowed l ∧ AllAllowed zero (op.onList zero l) rest

theorem step_total (positive : 1 ≤ chunk) (zero : α) (rep : Represents chunk v l) {op : Op α} (allowed : op.Allowed l) :
    ∃ v', step chunk zero v op = .ok v' ∧ Represents chunk v' (op.onList zero l) := by
  cases op with
  | init n => exact init_total chunk zero n
  | push_back x =>
    obtain ⟨v1,run,opened⟩ := push_back_total positive rep
    obtain ⟨v2,written,rep2⟩ := store_opened opened x
    rw [List.insertIdx_length_self] at rep2
    exact ⟨v2,by simp only [step,run,bind,Except.bind,written],rep2⟩
  | push_front x =>
    obtain ⟨v1,run,opened⟩ := push_front_total positive rep
    obtain ⟨v2,written,rep2⟩ := store_opened opened x
    exact ⟨v2,by simp only [step,run,bind,Except.bind,written],rep2⟩
  | pop_back => exact pop_back_total rep allowed
  | insert i x =>
    obtain ⟨v1,run,opened⟩ := insert_total positive rep allowed
    obtain ⟨v2,written,rep2⟩ := store_opened opened x
    exact ⟨v2,by simp only [step,run,bind,Except.bind,written],rep2⟩
  | erase i => exact erase_total rep allowed
  | clean =>
    refine ⟨_,rfl,⟨Nat.le_refl _,Nat.zero_le _,Nat.zero_le _,rfl⟩,rfl,?_⟩
    intro k lt
    exact absurd lt (Nat.not_lt_zero k)

theorem steps_total (positive : 1 ≤ chunk) (zero : α) {ops : List (Op α)} :
    ∀ {v l}, Represents chunk v l → AllAllowed zero l ops →
      ∃ v', steps chunk zero v ops = .ok v' ∧ Represents chunk v' (ops.foldl (Op.onList zero) l) := by
  induction ops with
  | nil => intro v l rep _; exact ⟨v,rfl,rep⟩
  | cons op rest ih =>
    rintro v l rep ⟨allowed,later⟩
    obtain ⟨v1,run,rep1⟩ := step_total positive zero rep allowed
    obtain ⟨v2,run',rep2⟩ := ih rep1 later
    exact ⟨v2,by simp only [steps,run,bind,Except.bind,run'],rep2⟩

/-- The pointers to elements lead to those of the list. -/
theorem load_total (rep : Represents chunk v l) :
    (∀ i (inside : i < l.length), (do let slot ← at_ v i; load v slot) = .ok l[i]) ∧
    (∀ nonempty : l ≠ [], (do let slot ← front v; load v slot) = .ok (l.head nonempty) ∧
      (do let slot ← back v; load v slot) = .ok (l.getLast nonempty)) := by
  obtain ⟨_,size,window⟩ := rep
  have element : ∀ i (inside : i < l.length), load v (v.ofs + i) = .ok l[i] := by
    intro i inside
    rw [load,window i inside,List.getElem?_eq_getElem inside]
  refine ⟨?_,?_⟩
  · intro i inside
    rw [at_,if_neg (by omega)]
    exact element i inside
  · intro nonempty
    have positive := List.length_pos_iff.mpr nonempty
    refine ⟨?_,?_⟩
    · rw [front,if_neg (by omega),List.head_eq_getElem]
      exact element 0 positive
    · rw [back,if_neg (by omega),List.getLast_eq_getElem,size,Nat.add_sub_assoc positive]
      exact element (l.length - 1) (by omega)

/-- An operation that returns was allowed. -/
theorem step_allowed {zero : α} {v' : VectorType α} {op : Op α} (rep : Represents chunk v l)
    (run : step chunk zero v op = .ok v') : op.Allowed l := by
  have size := rep.size
  cases op with
  | init n => trivial
  | push_back x => trivial
  | push_front x => trivial
  | clean => trivial
  | pop_back =>
    rintro rfl
    simp only [List.length_nil] at size
    rw [step,pop_back,if_pos size.symm] at run
    cases run
  | insert i x =>
    by_contra outside
    simp only [Op.Allowed] at outside
    simp [step,insert,show v.size + 1 ≤ i by omega,bind,Except.bind] at run
  | erase i =>
    by_contra outside
    simp only [Op.Allowed] at outside
    simp [step,erase,show v.size ≤ i by omega] at run

theorem pop_front_nonempty {v' : VectorType α} (rep : Represents chunk v l) (run : pop_front chunk v = .ok v') : l ≠ [] := by
  rintro rfl
  have size := rep.size
  simp only [List.length_nil] at size
  rw [pop_front,if_pos size.symm] at run
  cases run

/-- The vectors that operations and `pop_front` lead to. -/
inductive Reached (chunk : Nat) (zero : α) : VectorType α → Prop where
  | init {v : VectorType α} (n : Nat) (run : init chunk zero n = .ok v) : Reached chunk zero v
  | step {v v' : VectorType α} (op : Op α) (earlier : Reached chunk zero v)
      (run : step chunk zero v op = .ok v') : Reached chunk zero v'
  | pop_front {v v' : VectorType α} (earlier : Reached chunk zero v) (run : pop_front chunk v = .ok v') :
      Reached chunk zero v'

theorem init_represents {zero : α} {n : Nat} (run : init chunk zero n = .ok v) : ∃ l, Represents chunk v l := by
  obtain ⟨v',run',rep⟩ := init_total chunk zero n
  cases run.symm.trans run'
  exact ⟨_,rep⟩

theorem step_represents {v' : VectorType α} {zero : α} {op : Op α} (positive : 1 ≤ chunk) (rep : Represents chunk v l)
    (run : step chunk zero v op = .ok v') : ∃ l', Represents chunk v' l' := by
  obtain ⟨_,run',rep'⟩ := step_total positive zero rep (step_allowed rep run)
  cases run.symm.trans run'
  exact ⟨_,rep'⟩

theorem pop_front_represents {v' : VectorType α} (rep : Represents chunk v l) (run : pop_front chunk v = .ok v') :
    ∃ l', Represents chunk v' l' := by
  obtain ⟨_,run',rep'⟩ := pop_front_total rep (pop_front_nonempty rep run)
  cases run.symm.trans run'
  exact ⟨_,rep'⟩

theorem Reached.represents {zero : α} (positive : 1 ≤ chunk) (reached : Reached chunk zero v) :
    ∃ l, Represents chunk v l := by
  induction reached with
  | init n run => exact init_represents run
  | step op _ run ih => exact ih.elim fun _ rep => step_represents positive rep run
  | pop_front _ run ih => exact ih.elim fun _ rep => pop_front_represents rep run

/-- The element that the pointer of `at` leads to. -/
def element (a_vec : VectorType α) (i : Nat) : Except Stop α := do
  let slot ← at_ a_vec i
  load a_vec slot

theorem element_eq_iff {chunk' : Nat} {v' : VectorType α} {l' : List α} (rep : Represents chunk v l)
    (rep' : Represents chunk' v' l') {i k : Nat} (inside : i < l.length) (inside' : k < l'.length) :
    element v i = element v' k ↔ l[i]? = l'[k]? := by
  rw [element,element,(load_total rep).1 i inside,(load_total rep').1 k inside',Except.ok.injEq,
    List.getElem?_eq_getElem inside,List.getElem?_eq_getElem inside',Option.some.injEq]

/-- From index `from_` on, every element equals the one behind it. -/
def Constant (from_ : Nat) (l : List α) : Prop := ∀ i, from_ ≤ i → i + 1 < l.length → l[i]? = l[i + 1]?

theorem Constant.getElem? {b : Nat} (constant : Constant b l) {i : Nat} (behind : b ≤ i) (n : Nat) :
    i + n < l.length → l[i + n]? = l[i]? := by
  induction n with
  | zero => intro _; rfl
  | succ n ih =>
    intro inside
    rw [← ih (by omega),constant (i + n) (by omega) (by omega)]
    rfl

/-- The elements that `pop_front` looks at instead are those that it should. -/
theorem popped_tail_iff (ofs : Nat) (l : List α) :
    (∀ i < l.length - 1, (popped ofs l)[i]? = l[i + 1]?) ↔
      ofs = 0 ∨ Constant (if l.length ≤ ofs + 1 then 0 else 1) l := by
  constructor
  · intro shifted
    rcases Nat.eq_zero_or_pos ofs with none | some
    · exact .inl none
    -- The last elements stayed where they were.
    have last : Constant (l.length - 1 - ofs) l := by
      intro i behind inside
      have same := shifted i (by omega)
      rwa [getElem?_popped ofs (by omega),if_neg (by omega)] at same
    refine .inr ?_
    by_cases short : l.length ≤ ofs + 1
    · rw [if_pos short]
      rwa [show l.length - 1 - ofs = 0 by omega] at last
    rw [if_neg short]
    -- The others came from `ofs` cells behind, and so, after some rounds, from the last ones.
    have round : ∀ n i, 1 ≤ i → i < l.length → l.length - 1 ≤ i + n → l[i]? = l[l.length - 1]? := by
      intro n
      induction n with
      | zero => intro i _ inside near; rw [show i = l.length - 1 by omega]
      | succ n ih =>
        intro i one inside near
        by_cases behind : l.length - 1 - ofs ≤ i
        · have same := last.getElem? behind (l.length - 1 - i) (by omega)
          rw [← same,show i + (l.length - 1 - i) = l.length - 1 by omega]
        · have same := shifted (i - 1) (by omega)
          rw [getElem?_popped ofs (by omega),if_pos (by omega),show ofs + (i - 1) + 1 = i + ofs by omega,
            show i - 1 + 1 = i by omega] at same
          rw [← same]
          exact ih (i + ofs) (by omega) (by omega) (by omega)
    intro i one inside
    rw [round l.length i one (by omega) (by omega),round l.length (i + 1) (by omega) inside (by omega)]
  · rintro (rfl | constant) i inside
    · rw [getElem?_popped 0 inside,Nat.zero_add,if_pos inside]
    · rw [getElem?_popped ofs inside]
      by_cases short : l.length ≤ ofs + 1
      · rw [if_pos short] at constant
        rw [if_neg (by omega)]
        exact constant i (Nat.zero_le i) (by omega)
      rw [if_neg short] at constant
      by_cases moved : ofs + i < l.length - 1
      · rw [if_pos moved,show ofs + i + 1 = i + 1 + ofs by omega]
        exact constant.getElem? (by omega) ofs (by omega)
      · rw [if_neg moved]
        exact constant i (by omega) (by omega)

/-- `pop_front` takes the first element away exactly where there are no unused
    cells before it, or where it makes no difference. -/
theorem pop_front_iff (chunk : Nat) (positive : 1 ≤ chunk) (zero : α) (v : VectorType α)
    (reached : Reached chunk zero v) (nonempty : v.size ≠ 0) :
    ∃ v', pop_front chunk v = .ok v' ∧ v'.size = v.size - 1 ∧
      ((∀ i < v'.size, element v' i = element v (i + 1)) ↔
        v.ofs = 0 ∨ ∀ i, (if v.size ≤ v.ofs + 1 then 0 else 1) ≤ i → i + 1 < v.size → element v i = element v (i + 1)) := by
  obtain ⟨l,rep⟩ := reached.represents positive
  have size := rep.size
  obtain ⟨v',run,rep'⟩ := pop_front_total rep (by rintro rfl; exact nonempty size)
  have size' := rep'.size
  rw [length_popped,← size] at size'
  refine ⟨v',run,size',?_⟩
  have shifted : (∀ i < v'.size, element v' i = element v (i + 1)) ↔
      ∀ i < l.length - 1, (popped v.ofs l)[i]? = l[i + 1]? := by
    rw [size',size]
    refine forall_congr' (fun i => imp_congr_right (fun inside => ?_))
    exact element_eq_iff rep' rep (by rw [length_popped]; exact inside) (by omega)
  have constant : (∀ i, (if v.size ≤ v.ofs + 1 then 0 else 1) ≤ i → i + 1 < v.size → element v i = element v (i + 1)) ↔
      Constant (if l.length ≤ v.ofs + 1 then 0 else 1) l := by
    rw [size]
    refine forall_congr' (fun i => imp_congr_right (fun _ => imp_congr_right (fun inside => ?_)))
    exact element_eq_iff rep rep (by omega) inside
  rw [shifted,constant]
  exact popped_tail_iff v.ofs l

/-- Two elements that were added at the front, with room for one before them. -/
def two_in_front : VectorType Nat := ⟨1,2,6,[none,some 2,some 1,none,none,none]⟩

theorem two_in_front_reached : Reached 3 0 two_in_front := by
  have first : step 3 0 ⟨0,0,0,[]⟩ (.push_front 1) = .ok ⟨2,1,6,[none,none,some 1,none,none,none]⟩ := by decide
  have second : step 3 0 ⟨2,1,6,[none,none,some 1,none,none,none]⟩ (.push_front 2) = .ok two_in_front := by decide
  exact .step _ (.step _ (.init 0 (by decide)) first) second

/-- The first element stays, and the second one goes. -/
theorem pop_front_wrong_element : ¬ ∀ v : VectorType Nat, Reached 3 0 v → v.size ≠ 0 →
    ∃ v', pop_front 3 v = .ok v' ∧ v'.size = v.size - 1 ∧ ∀ i < v'.size, element v' i = element v (i + 1) := by
  intro right
  obtain ⟨v',run,size,shifted⟩ := right two_in_front two_in_front_reached (by decide)
  have popped : pop_front 3 two_in_front = .ok ⟨1,1,5,[some 1,some 2,some 1,none,none]⟩ := by decide
  cases run.symm.trans popped
  exact absurd (shifted 0 (by decide)) (by decide)

theorem pop_front_iff_two : (1 ≤ 3 ∧ Reached 3 0 two_in_front ∧ two_in_front.size ≠ 0) ∧
    ∃ v', pop_front 3 two_in_front = .ok v' ∧ v'.size = two_in_front.size - 1 ∧
      ((∀ i < v'.size, element v' i = element two_in_front (i + 1)) ↔
        two_in_front.ofs = 0 ∨ ∀ i, (if two_in_front.size ≤ two_in_front.ofs + 1 then 0 else 1) ≤ i →
          i + 1 < two_in_front.size → element two_in_front i = element two_in_front (i + 1)) :=
  ⟨⟨by decide,two_in_front_reached,by decide⟩,
    pop_front_iff 3 (by decide) 0 two_in_front two_in_front_reached (by decide)⟩

end

end Htools.Vector
