import Mathlib.Algebra.Group.Nat.Defs
import Mathlib.Data.List.Nodup
import Mathlib.Tactic.Common

/-!
# Cells of a plane cut into quarters

A cell is given by two coordinates at a level; the level below cuts it into
four. The cells so many levels below one are those whose coordinates lead back
to it by halving, and each occurs once.
-/
namespace Htools.Grid

/-- The cell that has this one so many levels below. -/
def ancestor (d : Nat) (c : Nat × Nat) : Nat × Nat := (c.1 / 2 ^ d,c.2 / 2 ^ d)

/-- The quarters of a cell, the second coordinate changing first. -/
def quarters (c : Nat × Nat) : List (Nat × Nat) :=
  [(2 * c.1,2 * c.2),(2 * c.1,2 * c.2 + 1),(2 * c.1 + 1,2 * c.2),(2 * c.1 + 1,2 * c.2 + 1)]

/-- The cells so many levels below one. -/
def cells : Nat → Nat × Nat → List (Nat × Nat)
  | 0, c => [c]
  | d + 1, c => (quarters c).flatMap (cells d)

theorem mem_quarters {p c : Nat × Nat} : p ∈ quarters c ↔ ancestor 1 p = c := by
  obtain ⟨x,y⟩ := p
  obtain ⟨i,j⟩ := c
  simp only [quarters,ancestor,List.mem_cons,Prod.mk.injEq,List.not_mem_nil,or_false]
  omega

theorem quarters_nodup (c : Nat × Nat) : (quarters c).Nodup := by
  obtain ⟨i,j⟩ := c
  simp only [quarters,List.nodup_cons,List.mem_cons,Prod.mk.injEq,List.not_mem_nil,or_false]
  refine ⟨?_,?_,?_,fun h => h,List.nodup_nil⟩ <;> omega

theorem ancestor_add (a b : Nat) (c : Nat × Nat) : ancestor a (ancestor b c) = ancestor (a + b) c := by
  simp only [ancestor,Nat.div_div_eq_div_mul,← Nat.pow_add,Nat.add_comm b a]

theorem mem_cells {d : Nat} : ∀ {p c : Nat × Nat}, p ∈ cells d c ↔ ancestor d p = c := by
  induction d with
  | zero =>
    intro p c
    simp [cells,ancestor]
  | succ d ih =>
    intro p c
    simp only [cells,List.mem_flatMap,ih,mem_quarters]
    constructor
    · rintro ⟨_,top,rfl⟩
      rw [← top,ancestor_add,Nat.add_comm]
    · rintro rfl
      exact ⟨ancestor d p,by rw [ancestor_add,Nat.add_comm],rfl⟩

theorem cells_nodup (d : Nat) : ∀ c, (cells d c).Nodup := by
  induction d with
  | zero => intro c; exact List.nodup_singleton c
  | succ d ih =>
    intro c
    refine List.nodup_flatMap.mpr ⟨fun q _ => ih q,(quarters_nodup c).imp ?_⟩
    intro a b different p inA inB
    exact different (by rw [← mem_cells.mp inA,mem_cells.mp inB])

/-- The cells below the first one are those of the square grid. -/
theorem mem_cells_origin {d i j : Nat} : (i,j) ∈ cells d (0,0) ↔ i < 2 ^ d ∧ j < 2 ^ d := by
  simp only [mem_cells,ancestor,Prod.mk.injEq,Nat.div_eq_zero_iff,Nat.pow_eq_zero]
  omega

end Htools.Grid
