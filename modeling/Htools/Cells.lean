import Mathlib.Data.List.Basic
import Mathlib.Tactic.Common

/-!
# Arrays of cells that may be unset

An allocation is a list of cells, each empty or with an element. `cell` reads
it at any index, and every operation is described by the cells that it leaves.
A window of an allocation is a run of cells with the elements of a list.
-/
namespace Htools.Cells

variable {α : Type} {cells : List (Option α)} {k : Nat}

/-- The element of a cell, none where it is unset or there is no such cell. -/
def cell (cells : List (Option α)) (k : Nat) : Option α := cells[k]?.join

/-- An allocation with another number of cells, new ones unset. -/
def resized (cells : List (Option α)) (n : Nat) : List (Option α) :=
  cells.take n ++ List.replicate (n - cells.length) none

/-- Copies `num` cells from `src` on to `dst` on, as `memmove` does where they overlap. -/
def moved (cells : List (Option α)) (dst src num : Nat) : List (Option α) :=
  cells.take dst ++ ((cells.drop src).take num ++ cells.drop (dst + num))

theorem length_resized (cells : List (Option α)) (n : Nat) : (resized cells n).length = n := by
  simp only [resized,List.length_append,List.length_take,List.length_replicate]
  omega

theorem length_moved {dst src num : Nat} (dstFits : dst + num ≤ cells.length) (srcFits : src + num ≤ cells.length) :
    (moved cells dst src num).length = cells.length := by
  simp only [moved,List.length_append,List.length_take,List.length_drop]
  omega

theorem cell_set (x : α) {i : Nat} (inside : i < cells.length) :
    cell (cells.set i (some x)) k = if k = i then some x else cell cells k := by
  rw [cell,cell,List.getElem?_set]
  by_cases here : k = i
  · subst here
    simp [inside]
  · rw [if_neg (Ne.symm here),if_neg here]

theorem cell_clear {i : Nat} : cell (cells.set i none) k = if k = i then none else cell cells k := by
  rw [cell,cell,List.getElem?_set]
  by_cases here : k = i
  · subst here
    by_cases inside : k < cells.length
    · simp [inside]
    · simp [inside]
  · rw [if_neg (Ne.symm here),if_neg here]

theorem cell_resized (n : Nat) : cell (resized cells n) k = if k < n then cell cells k else none := by
  simp only [cell,resized,List.getElem?_append,List.getElem?_take,List.length_take,List.getElem?_replicate]
  by_cases inside : k < n
  · by_cases old : k < cells.length
    · rw [if_pos (show k < min n cells.length by omega),if_pos inside,if_pos inside]
    · rw [if_neg (by omega),if_pos (by omega),if_pos inside,List.getElem?_eq_none (by omega)]
      rfl
  · rw [if_neg (by omega),if_neg (by omega),if_neg inside]
    rfl

theorem cell_moved {dst src num : Nat} (dstFits : dst + num ≤ cells.length) (srcFits : src + num ≤ cells.length) :
    cell (moved cells dst src num) k = if dst ≤ k ∧ k < dst + num then cell cells (src + (k - dst)) else cell cells k := by
  have front : (cells.take dst).length = dst := by rw [List.length_take]; omega
  have middle : ((cells.drop src).take num).length = num := by rw [List.length_take,List.length_drop]; omega
  simp only [cell,moved,List.getElem?_append,front,middle,List.getElem?_take,List.getElem?_drop]
  by_cases before : k < dst
  · rw [if_pos before,if_pos before,if_neg (by omega)]
  · rw [if_neg before]
    by_cases inside : k - dst < num
    · rw [if_pos inside,if_pos inside,if_pos (by omega)]
    · rw [if_neg inside,if_neg (by omega),show dst + num + (k - dst - num) = k by omega]

theorem cell_some_iff {x : α} : cell cells k = some x ↔ cells[k]? = some (some x) := by
  rw [cell,Option.join_eq_some_iff]

theorem inside_of_cell {x : α} (held : cell cells k = some x) : k < cells.length := by
  by_contra outside
  rw [cell,List.getElem?_eq_none (by omega)] at held
  cases held

/-- The number of cells with an element. -/
def occupied (cells : List (Option α)) : Nat := cells.countP Option.isSome

theorem occupied_le (cells : List (Option α)) : occupied cells ≤ cells.length := List.countP_le_length

/-- Filling or emptying a cell, and exchanging its element. -/
theorem occupied_set {i : Nat} (inside : i < cells.length) (x : Option α) :
    occupied (cells.set i x) + (cell cells i).isSome.toNat = occupied cells + x.isSome.toNat := by
  have here : cell cells i = cells[i] := by rw [cell,List.getElem?_eq_getElem inside,Option.join_some]
  have member : cells[i].isSome = true → 0 < occupied cells := fun some =>
    List.countP_pos_iff.mpr ⟨cells[i],List.getElem_mem inside,some⟩
  rw [occupied,List.countP_set inside,here]
  simp only [occupied] at member ⊢
  cases held : cells[i].isSome
  · cases x.isSome <;> simp
  · have := member held
    cases x.isSome <;> simp <;> omega

/-- A table that is not full has an empty cell. -/
theorem exists_empty (room : occupied cells < cells.length) : ∃ i < cells.length, cell cells i = none := by
  by_contra full
  refine absurd (List.countP_eq_length.mpr ?_) (Nat.ne_of_lt room)
  intro x member
  obtain ⟨i,inside,rfl⟩ := List.getElem_of_mem member
  by_contra unset
  refine full ⟨i,inside,?_⟩
  rw [cell,List.getElem?_eq_getElem inside]
  simpa using unset

/-- The cells from `ofs` on hold the elements of a list. -/
def Window (cells : List (Option α)) (ofs : Nat) (l : List α) : Prop := ∀ k < l.length, cell cells (ofs + k) = l[k]?

theorem window_iff {ofs : Nat} {l : List α} : Window cells ofs l ↔ (cells.drop ofs).take l.length = l.map some := by
  constructor
  · intro window
    apply List.ext_getElem?
    intro k
    rw [List.getElem?_take,List.getElem?_drop,List.getElem?_map]
    by_cases inside : k < l.length
    · have held := window k inside
      rw [List.getElem?_eq_getElem inside,cell_some_iff] at held
      rw [if_pos inside,held,List.getElem?_eq_getElem inside]
      rfl
    · rw [if_neg inside,List.getElem?_eq_none (by omega)]
      rfl
  · intro same k inside
    have held := congrArg (·[k]?) same
    simp only [List.getElem?_take,List.getElem?_drop,List.getElem?_map,if_pos inside] at held
    rw [cell,held,List.getElem?_eq_getElem inside]
    rfl

end Htools.Cells
