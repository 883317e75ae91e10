import Htools.Cells

/-!
# Robin Hood hashing

A table is a ring of cells. Every element has a home cell and lies at or behind
it; `Ordered` says that it is at most one step farther from home than the
element in the cell before. From this follows that the way from an element's
home to it is taken by elements at least as far from theirs (`ordered_way`),
which is what a lookup relies on. Putting an element down, exchanging it for
one that is closer to home, and moving elements back into a gap keep the order.
-/
namespace Htools.RobinHood
open Htools.Cells

/-! ### Rings of indices -/

/-- The index after `i` in a ring of `n`. -/
def next (n i : Nat) : Nat := if i + 1 < n then i + 1 else 0

/-- The index `j` steps after `i`, for less than a round. -/
def ahead (n i j : Nat) : Nat := if i + j < n then i + j else i + j - n

/-- The steps from `h` to `i`. -/
def dist (n h i : Nat) : Nat := if h ≤ i then i - h else i + n - h

section
variable {n h i j : Nat}

theorem next_lt (positive : 0 < n) : next n i < n := by
  unfold next
  split <;> omega

theorem ahead_lt (inside : i < n) (steps : j < n) : ahead n i j < n := by
  unfold ahead
  split <;> omega

theorem ahead_zero (inside : i < n) : ahead n i 0 = i := by
  rw [ahead,Nat.add_zero,if_pos inside]

theorem next_ahead (inside : i < n) (steps : j + 1 < n) : next n (ahead n i j) = ahead n i (j + 1) := by
  unfold next ahead
  split <;> split <;> split <;> omega

theorem ahead_next (inside : i < n) (steps : j + 1 < n) : ahead n (next n i) j = ahead n i (j + 1) := by
  unfold next ahead
  split <;> split <;> split <;> omega

theorem ahead_injective {k : Nat} (first : j < n) (second : k < n) (same : ahead n i j = ahead n i k) :
    j = k := by
  unfold ahead at same
  split at same <;> split at same <;> omega

theorem dist_lt (home : h < n) (inside : i < n) : dist n h i < n := by
  unfold dist
  split <;> omega

theorem dist_eq_zero_iff (home : h < n) : dist n h i = 0 ↔ i = h := by
  unfold dist
  split <;> omega

theorem dist_self (h : Nat) : dist n h h = 0 := by
  rw [dist,if_pos (Nat.le_refl h),Nat.sub_self]

theorem dist_next (home : h < n) (inside : i < n) (away : next n i ≠ h) : dist n h (next n i) = dist n h i + 1 := by
  unfold dist next at *
  split_ifs at away ⊢ <;> omega

theorem next_ne_home (home : h < n) (inside : i < n) (room : dist n h i + 1 < n) : next n i ≠ h := by
  unfold dist at room
  unfold next
  split_ifs at room ⊢ <;> omega

theorem ahead_dist (home : h < n) (inside : i < n) : ahead n h (dist n h i) = i := by
  unfold ahead dist
  split <;> split <;> omega

theorem next_injective (first : i < n) (second : j < n) (same : next n i = next n j) : i = j := by
  unfold next at same
  split at same <;> split at same <;> omega

theorem next_ne (wide : 1 < n) (inside : i < n) : next n i ≠ i := by
  unfold next
  split <;> omega

end

/-! ### Ordered tables -/

section
variable {α : Type} {home : α → Nat} {cells : List (Option α)} {i : Nat}

/-- The element in cell `i` is as far from home as one needs that is `d` steps
    from its home in the next cell. -/
def Supports (home : α → Nat) (cells : List (Option α)) (i d : Nat) : Prop :=
  ∃ b, cell cells i = some b ∧ d ≤ dist cells.length (home b) i + 1

/-- An element that is not at home is at most one step farther from there than
    the element in the cell before. -/
structure Ordered (home : α → Nat) (cells : List (Option α)) : Prop where
  wide : 1 < cells.length
  homes : ∀ i a, cell cells i = some a → home a < cells.length
  order : ∀ i < cells.length, ∀ a, cell cells (next cells.length i) = some a → next cells.length i ≠ home a →
    Supports home cells i (dist cells.length (home a) (next cells.length i))

/-- The cells from an element's home to it are taken by elements that are as far
    from their homes. -/
theorem ordered_way (ordered : Ordered home cells) {a : α} (held : cell cells i = some a) :
    ∀ k ≤ dist cells.length (home a) i, ∃ b, cell cells (ahead cells.length (home a) k) = some b ∧
      k ≤ dist cells.length (home b) (ahead cells.length (home a) k) := by
  have inside := inside_of_cell held
  have homeInside := ordered.homes i a held
  have far := dist_lt homeInside inside
  -- By induction on the steps back from the element.
  suffices ∀ m k, k + m = dist cells.length (home a) i → ∃ b, cell cells (ahead cells.length (home a) k) = some b ∧
      k ≤ dist cells.length (home b) (ahead cells.length (home a) k) by
    intro k le
    exact this (dist cells.length (home a) i - k) k (by omega)
  intro m
  induction m with
  | zero =>
    rintro k rfl
    rw [ahead_dist homeInside inside]
    exact ⟨a,held,Nat.le_refl _⟩
  | succ m ih =>
    intro k steps
    obtain ⟨b,there,distance⟩ := ih (k + 1) (by omega)
    have before := ahead_lt homeInside (show k < cells.length by omega)
    rw [← next_ahead homeInside (by omega)] at there distance
    have away : next cells.length (ahead cells.length (home a) k) ≠ home b := by
      intro atHome
      rw [atHome,dist_self] at distance
      omega
    obtain ⟨c,held',supports⟩ := ordered.order _ before b there away
    exact ⟨c,held',by omega⟩

/-- Putting an element into a cell that is empty, or whose element is closer to
    home, where the cell before supports it. -/
theorem ordered_put (ordered : Ordered home cells) {a : α} (inside : i < cells.length) (homeInside : home a < cells.length)
    (before : i ≠ home a → ∀ j < cells.length, next cells.length j = i →
      Supports home cells j (dist cells.length (home a) i))
    (closer : ∀ b, cell cells i = some b → dist cells.length (home b) i ≤ dist cells.length (home a) i) :
    Ordered home (cells.set i (some a)) := by
  obtain ⟨wide,homes,order⟩ := ordered
  have supported : ∀ {j d}, Supports home cells j d → Supports home (cells.set i (some a)) j d := by
    rintro j d ⟨b,held,le⟩
    rw [Supports,List.length_set]
    by_cases here : j = i
    · subst here
      refine ⟨a,by rw [cell_set a inside,if_pos rfl],?_⟩
      have := closer b held
      omega
    · exact ⟨b,by rw [cell_set a inside,if_neg here,held],le⟩
  refine ⟨by rw [List.length_set]; exact wide,?_,?_⟩
  · intro j b held
    rw [cell_set a inside] at held
    rw [List.length_set]
    split at held
    · cases held
      exact homeInside
    · exact homes j b held
  · intro j jInside b held away
    rw [List.length_set] at jInside held away ⊢
    rw [cell_set a inside] at held
    by_cases here : next cells.length j = i
    · rw [if_pos here] at held
      cases held
      rw [here] at away ⊢
      exact supported (before away j jInside here)
    · rw [if_neg here] at held
      exact supported (order j jInside b held away)

/-- All but the cell behind the empty cell `i` are ordered, and all would be with
    an element in it that is `d` steps from its home. -/
structure Gap (home : α → Nat) (cells : List (Option α)) (i d : Nat) : Prop where
  wide : 1 < cells.length
  inside : i < cells.length
  homes : ∀ j a, cell cells j = some a → home a < cells.length
  empty : cell cells i = none
  order : ∀ j < cells.length, j ≠ i → ∀ a, cell cells (next cells.length j) = some a →
    next cells.length j ≠ home a → Supports home cells j (dist cells.length (home a) (next cells.length j))
  behind : ∀ a, cell cells (next cells.length i) = some a → next cells.length i ≠ home a →
    dist cells.length (home a) (next cells.length i) ≤ d + 1
  before : d = 0 ∨ ∀ j < cells.length, next cells.length j = i → Supports home cells j d

/-- Taking an element out leaves a gap. -/
theorem gap_of_ordered (ordered : Ordered home cells) {a : α} (held : cell cells i = some a) :
    Gap home (cells.set i none) i (dist cells.length (home a) i) := by
  obtain ⟨wide,homes,order⟩ := ordered
  have inside := inside_of_cell held
  have kept : ∀ {j d}, j ≠ i → Supports home cells j d → Supports home (cells.set i none) j d := by
    rintro j d other ⟨b,there,le⟩
    exact ⟨b,by rw [cell_clear,if_neg other,there],by rw [List.length_set]; exact le⟩
  refine ⟨by rw [List.length_set]; exact wide,by rw [List.length_set]; exact inside,?_,by rw [cell_clear,if_pos rfl],
    ?_,?_,?_⟩
  · intro j b there
    rw [cell_clear] at there
    rw [List.length_set]
    split at there
    · cases there
    · exact homes j b there
  · intro j jInside other b there away
    rw [List.length_set] at jInside there away ⊢
    rw [cell_clear] at there
    split at there
    · cases there
    · exact kept other (order j jInside b there away)
  · intro b there away
    rw [List.length_set] at there away ⊢
    rw [cell_clear,if_neg (next_ne wide inside)] at there
    obtain ⟨c,held',le⟩ := order i inside b there away
    rw [held] at held'
    cases held'
    exact le
  · by_cases atHome : i = home a
    · exact .inl ((dist_eq_zero_iff (homes i a held)).mpr atHome)
    · refine .inr fun j jInside here => ?_
      rw [List.length_set] at jInside here
      have other : j ≠ i := by
        rintro rfl
        exact next_ne wide inside here
      subst here
      exact kept other (order j jInside a held atHome)

/-- The gap can stay where the next cell is empty or has an element at home. -/
theorem ordered_of_gap {d : Nat} (gap : Gap home cells i d)
    (closed : ∀ a, cell cells (next cells.length i) = some a → next cells.length i = home a) : Ordered home cells := by
  refine ⟨gap.wide,gap.homes,?_⟩
  intro j inside a held away
  by_cases here : j = i
  · subst here
    exact absurd (closed a held) away
  · exact gap.order j inside here a held away

/-- Moving the next element back into the gap moves the gap on. -/
theorem gap_shift {d : Nat} (gap : Gap home cells i d) {a : α} (held : cell cells (next cells.length i) = some a)
    (away : next cells.length i ≠ home a) :
    Gap home ((cells.set i (some a)).set (next cells.length i) none) (next cells.length i)
      (dist cells.length (home a) (next cells.length i)) := by
  obtain ⟨wide,inside,homes,empty,order,behind,before⟩ := gap
  have distance := dist_next (homes _ a held) inside away
  have bound := behind a held away
  have onward := next_lt (n := cells.length) (i := i) (by omega)
  have moved : ∀ k, cell ((cells.set i (some a)).set (next cells.length i) none) k =
      if k = next cells.length i then none else if k = i then some a else cell cells k := by
    intro k
    rw [cell_clear,cell_set a inside]
  have kept : ∀ {j e}, j ≠ next cells.length i → Supports home cells j e →
      Supports home ((cells.set i (some a)).set (next cells.length i) none) j e := by
    rintro j e other ⟨b,there,le⟩
    refine ⟨b,?_,by rw [List.length_set,List.length_set]; exact le⟩
    rw [moved,if_neg other,if_neg,there]
    rintro rfl
    rw [empty] at there
    cases there
  have size : ((cells.set i (some a)).set (next cells.length i) none).length = cells.length := by
    rw [List.length_set,List.length_set]
  refine ⟨?_,?_,?_,?_,?_,?_,?_⟩
  · rw [size]
    exact wide
  · rw [size]
    exact onward
  · intro j b there
    rw [size]
    rw [moved] at there
    split at there
    · cases there
    · split at there
      · cases there
        exact homes _ a held
      · exact homes j b there
  · rw [moved,if_pos rfl]
  · intro j jInside other b there away'
    rw [size] at jInside there away' ⊢
    rw [moved] at there
    split at there
    · cases there
    · split at there
      · rename_i here
        cases there
        rw [here] at away' ⊢
        have farther : 0 < dist cells.length (home a) i := by
          have := (dist_eq_zero_iff (homes _ a held)).not.mpr away'
          omega
        obtain none | supports := before
        · omega
        · obtain ⟨c,there',le⟩ := supports j jInside here
          exact kept other ⟨c,there',by omega⟩
      · rename_i elsewhere
        by_cases here : j = i
        · subst here
          contradiction
        · exact kept other (order j jInside here b there away')
  · intro b there away'
    rw [size] at there away' ⊢
    rw [moved,if_neg (next_ne wide onward)] at there
    split at there
    -- With two cells the one behind the new gap is the old gap, with the element at home.
    · rename_i here
      cases there
      rw [here] at away' ⊢
      omega
    · obtain ⟨c,held',le⟩ := order _ onward (next_ne wide inside) b there away'
      rw [held] at held'
      cases held'
      exact le
  · refine .inr fun j jInside here => ?_
    rw [size] at jInside here
    obtain rfl := next_injective jInside inside here
    refine ⟨a,by rw [moved,if_neg (Ne.symm (next_ne wide inside)),if_pos rfl],?_⟩
    rw [size]
    omega

end

end Htools.RobinHood
