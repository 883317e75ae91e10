import Htools.HwtEvents
import Htools.HwtFree
import Mathlib.Algebra.BigOperators.Intervals
import Mathlib.Algebra.Order.Field.Rat
import Mathlib.Algebra.Order.BigOperators.Group.Finset
import Mathlib.Data.List.Induction
import Mathlib.Tactic.Linarith
import Mathlib.Tactic.Ring

/-!
The grid of `hwt/src/grid.c` over exact numbers. `pull_min` leaves the greatest least
size of each row and column, and `push_rect` gives each of them an equal share of
what is left over. The cells tile the rectangle of the grid (`grid_tiles`), and they
are inside of it where the shares that are missing can be taken from each row and
column (`grid_inside_iff`).
-/
namespace Htools.Hwt
open Finset (range)

/-! ### The children of a grid -/

section
variable (a_widget : Nat) (children : List (Option Nat)) (good : Memory ℚ → Prop)

/-- What the callbacks of the children do for `pull_min`: each one gives its least size and leaves the grid alone. What
    the grid has for itself does not matter to them. -/
structure Pulls (least : Nat → HWTSize ℚ)
    (pull : Memory ℚ → Option Nat → Option (HWTSize ℚ) → Except Stop (Memory ℚ × Option (HWTSize ℚ))) : Prop where
  stores : ∀ m f,good m → good (modify m a_widget f)
  pulls : ∀ m child,good m → some child ∈ children →
    ∃ m',pull m (some child) none = .ok (m',some (least child)) ∧ good m' ∧ get m' a_widget = get m a_widget

/-- A rectangle that is given to a child leaves the grid alone. -/
def Pushes (push : Memory ℚ → Option Nat → HWTRect ℚ → Except Stop (Memory ℚ)) : Prop :=
  ∀ m child r m',good m → child ∈ children → push m child r = .ok m' → good m' ∧ get m' a_widget = get m a_widget

end

/-! ### Least sizes -/

/-- The cells in the order of the loops. -/
def cells (grid : Grid ℚ) : List (Nat × Nat) :=
  (List.range grid.row_num).flatMap fun row => (List.range grid.col_num).map fun col => (row,col)

def child_at (grid : Grid ℚ) (cell : Nat × Nat) : Option Nat := (grid.child[cell.1 * grid.col_num + cell.2]?).join

/-- The greatest value of the cells with a key, or zero. -/
def greatest (key : Nat × Nat → Nat) (value : Nat × Nat → Option ℚ) (l : List (Nat × Nat)) (i : Nat) : ℚ :=
  l.foldl (fun most cell => if key cell = i then (value cell).elim most (MAX most) else most) 0

section
variable (least : Nat → HWTSize ℚ) (grid : Grid ℚ)

def heights (cell : Nat × Nat) : Option ℚ := (child_at grid cell).map fun child => (least child).height

def widths (cell : Nat × Nat) : Option ℚ := (child_at grid cell).map fun child => (least child).width

/-- The least height of a row. -/
def row_least (row : Nat) : ℚ := greatest Prod.fst (heights least grid) (cells grid) row

/-- The least width of a column. -/
def col_least (col : Nat) : ℚ := greatest Prod.snd (widths least grid) (cells grid) col

/-- The grid behind some of the cells. -/
def filled (l : List (Nat × Nat)) : Grid ℚ :=
  { grid with
    row_min := (List.range grid.row_num).map (greatest Prod.fst (heights least grid) l)
    col_min := (List.range grid.col_num).map (greatest Prod.snd (widths least grid) l) }

def least_size : HWTSize ℚ where
  width := ∑ col ∈ range grid.col_num,col_least least grid col
  height := ∑ row ∈ range grid.row_num,row_least least grid row

/-- The grid that `pull_min` leaves. -/
def pulled : Grid ℚ := { filled least grid (cells grid) with min := least_size least grid }

end

theorem le_max (a b : ℚ) : a ≤ MAX a b ∧ b ≤ MAX a b := by
  unfold MAX
  split
  · exact ⟨le_refl a,le_of_lt ‹_›⟩
  · exact ⟨le_of_not_gt ‹_›,le_refl b⟩

theorem greatest_append (key : Nat × Nat → Nat) (value : Nat × Nat → Option ℚ) (l : List (Nat × Nat))
    (cell : Nat × Nat) (i : Nat) : greatest key value (l ++ [cell]) i =
      if key cell = i then (value cell).elim (greatest key value l i) (MAX (greatest key value l i))
      else greatest key value l i := by
  rw [greatest,List.foldl_append]
  rfl

/-- A value counts for its key, and nothing falls below. -/
theorem le_greatest {key : Nat × Nat → Nat} {value : Nat × Nat → Option ℚ} (l : List (Nat × Nat)) (i : Nat) :
    0 ≤ greatest key value l i ∧ ∀ cell ∈ l,∀ a ∈ value cell,key cell = i → a ≤ greatest key value l i := by
  induction l using List.reverseRecOn with
  | nil => exact ⟨le_refl 0,fun _ there => absurd there List.not_mem_nil⟩
  | append_singleton l cell ih =>
    obtain ⟨above,counts⟩ := ih
    have grows : greatest key value l i ≤ greatest key value (l ++ [cell]) i := by
      rw [greatest_append]
      split
      · cases value cell with
        | none => exact le_refl _
        | some a => exact (le_max _ a).1
      · exact le_refl _
    refine ⟨above.trans grows,?_⟩
    intro other there a has here
    rcases List.mem_append.mp there with old | new
    · exact (counts other old a has here).trans grows
    · obtain rfl := List.mem_singleton.mp new
      rw [greatest_append,if_pos here,Option.mem_def.mp has]
      exact (le_max _ a).2

theorem map_modify {f f' : Nat → ℚ} {n k : Nat} {change : ℚ → ℚ} (same : ∀ i,i ≠ k → f' i = f i)
    (at_k : f' k = change (f k)) : ((List.range n).map f).modify k change = (List.range n).map f' := by
  apply List.ext_getElem?
  intro i
  rw [List.getElem?_modify,List.getElem?_map,List.getElem?_map]
  by_cases within : i < n
  · rw [List.getElem?_range within]
    by_cases here : k = i
    · subst here
      rw [Option.map_some,Option.map_some,at_k]
      exact congrArg some (if_pos rfl)
    · rw [Option.map_some,Option.map_some,same i (Ne.symm here)]
      exact congrArg some (if_neg here)
  · have past : (List.range n)[i]? = none := List.getElem?_eq_none (by simpa using within)
    rw [past]
    rfl

section
variable {a_widget : Nat} {good : Memory ℚ → Prop} {least : Nat → HWTSize ℚ} {grid : Grid ℚ}
  {widget : HWTWidget ℚ}
  {pull : Memory ℚ → Option Nat → Option (HWTSize ℚ) → Except Stop (Memory ℚ × Option (HWTSize ℚ))}

/-- A memory in which the grid has these data. -/
structure Keeps (a_widget : Nat) (good : Memory ℚ → Prop) (widget : HWTWidget ℚ) (grid : Grid ℚ) (m : Memory ℚ) :
    Prop where
  fine : good m
  found : get m a_widget = .ok { widget with data := .grid grid }

theorem Keeps.grid_found {m : Memory ℚ} (keeps : Keeps a_widget good widget grid m) : get_grid m a_widget = .ok grid :=
  get_grid_of keeps.found rfl

/-- An empty cell leaves the grid alone. -/
theorem filled_none {l : List (Nat × Nat)} {cell : Nat × Nat} (empty : child_at grid cell = none) :
    filled least grid (l ++ [cell]) = filled least grid l := by
  have same (key : Nat × Nat → Nat) (value : Nat × Nat → Option ℚ) (none_there : value cell = none) :
      greatest key value (l ++ [cell]) = greatest key value l := by
    funext i
    rw [greatest_append,none_there]
    exact ite_self _
  unfold filled
  rw [same Prod.fst (heights least grid) (by rw [heights,empty]; rfl),
    same Prod.snd (widths least grid) (by rw [widths,empty]; rfl)]

/-- A child counts for its row and its column. -/
theorem filled_some {l : List (Nat × Nat)} {cell : Nat × Nat} {child : Nat} (there : child_at grid cell = some child) :
    filled least grid (l ++ [cell]) = { filled least grid l with
      row_min := (filled least grid l).row_min.modify cell.1 fun height => MAX height (least child).height
      col_min := (filled least grid l).col_min.modify cell.2 fun width => MAX width (least child).width } := by
  have counts (key : Nat × Nat → Nat) (value : Nat × Nat → Option ℚ) (a : ℚ) (value_is : value cell = some a) (n : Nat) :
      ((List.range n).map (greatest key value l)).modify (key cell) (fun most => MAX most a) =
        (List.range n).map (greatest key value (l ++ [cell])) := by
    apply map_modify
    · intro i other
      rw [greatest_append,if_neg (Ne.symm other)]
    · rw [greatest_append,if_pos rfl,value_is]
      rfl
  unfold filled
  rw [counts Prod.fst (heights least grid) _ (by rw [heights,there]; rfl),
    counts Prod.snd (widths least grid) _ (by rw [widths,there]; rfl)]

/-- The slot of a cell. -/
theorem slot_found (slots : (Data.grid grid).Fits) {row col : Nat} (row_within : row < grid.row_num)
    (col_within : col < grid.col_num) :
    element grid.child (row * grid.col_num + col) = .ok (child_at grid (row,col)) ∧
      child_at grid (row,col) ∈ grid.child := by
  have place : row * grid.col_num + col < grid.child.length := by
    rw [show grid.child.length = grid.row_num * grid.col_num from slots,Nat.mul_comm row]
    exact cell_lt row_within col_within
  rw [element,child_at,List.getElem?_eq_getElem place]
  exact ⟨rfl,List.getElem_mem place⟩

/-- What a child changes in the grid. -/
def count_child (row col : Nat) (min : HWTSize ℚ) : Data ℚ → Data ℚ
  | .grid grid => .grid { grid with
      row_min := grid.row_min.modify row fun height => MAX height min.height
      col_min := grid.col_min.modify col fun width => MAX width min.width }
  | data => data

/-- One cell of `pull_min`. -/
theorem pull_cell_filled (callbacks : Pulls a_widget grid.child good least pull) (slots : (Data.grid grid).Fits)
    {row col : Nat} (row_within : row < grid.row_num) (col_within : col < grid.col_num) {l : List (Nat × Nat)}
    {m : Memory ℚ} (keeps : Keeps a_widget good widget (filled least grid l) m) :
    ∃ m',pull_cell pull a_widget row col m = .ok m' ∧
      Keeps a_widget good widget (filled least grid (l ++ [(row,col)])) m' := by
  obtain ⟨slot,member⟩ := slot_found slots row_within col_within
  unfold pull_cell
  rw [keeps.grid_found]
  change ∃ m',(element grid.child (row * grid.col_num + col) >>= _) = _ ∧ _
  rw [slot]
  cases child_is : child_at grid (row,col) with
  | none =>
    rw [filled_none child_is]
    exact ⟨m,rfl,keeps⟩
  | some child =>
    rw [child_is] at member
    obtain ⟨m',pulled,fine,kept⟩ := callbacks.pulls m child keeps.fine member
    rw [keeps.found] at kept
    rw [filled_some child_is]
    refine ⟨set_data m' a_widget (count_child row col (least child)),?_,callbacks.stores m' _ fine,get_set_data kept _⟩
    change (pull m (some child) none >>= _) = _
    rw [pulled]
    refine congrArg (fun f => Except.ok (set_data m' a_widget f)) (funext fun data => ?_)
    cases data <;> rfl

/-- The loops of `pull_min`, from some of the cells on. -/
theorem pull_cells (callbacks : Pulls a_widget grid.child good least pull) (slots : (Data.grid grid).Fits)
    {front back : List (Nat × Nat)} (within : ∀ cell ∈ back,cell.1 < grid.row_num ∧ cell.2 < grid.col_num) {m : Memory ℚ}
    (keeps : Keeps a_widget good widget (filled least grid front) m) :
    ∃ m',back.foldlM (fun m cell => pull_cell pull a_widget cell.1 cell.2 m) m = .ok m' ∧
      Keeps a_widget good widget (filled least grid (front ++ back)) m' := by
  induction back generalizing front m with
  | nil =>
    rw [List.append_nil]
    exact ⟨m,rfl,keeps⟩
  | cons cell back ih =>
    obtain ⟨row_within,col_within⟩ := within cell List.mem_cons_self
    obtain ⟨m₁,first,keeps₁⟩ := pull_cell_filled callbacks slots row_within col_within keeps
    obtain ⟨m₂,rest,keeps₂⟩ := ih (fun other there => within other (List.mem_cons_of_mem cell there)) keeps₁
    rw [List.append_assoc,List.singleton_append] at keeps₂
    refine ⟨m₂,?_,keeps₂⟩
    rw [List.foldlM_cons,first]
    exact rest

theorem cells_within {cell : Nat × Nat} : cell ∈ cells grid ↔ cell.1 < grid.row_num ∧ cell.2 < grid.col_num := by
  unfold cells
  simp only [List.mem_flatMap,List.mem_map,List.mem_range]
  constructor
  · rintro ⟨row,row_within,col,col_within,rfl⟩
    exact ⟨row_within,col_within⟩
  · rintro ⟨row_within,col_within⟩
    exact ⟨cell.1,row_within,cell.2,col_within,rfl⟩

theorem sum_of_list (f : Nat → ℚ) (n : Nat) : ((List.range n).map f).foldl (· + ·) 0 = ∑ i ∈ range n,f i := by
  induction n with
  | zero => rfl
  | succ n ih => rw [List.range_succ,List.map_append,List.foldl_append,ih,Finset.sum_range_succ]; rfl

/-- `pull_min` leaves the least sizes of the rows and columns, and their sums. -/
theorem pull_min_pulled (callbacks : Pulls a_widget grid.child good least pull)
    (slots : (Data.grid grid).Fits) {m : Memory ℚ} (fine : good m)
    (found : get m a_widget = .ok widget) (data : widget.data = .grid grid) (a_min : Option (HWTSize ℚ)) :
    ∃ m',pull_min pull m a_widget a_min = .ok (m',some (least_size least grid)) ∧
      Keeps a_widget good widget (pulled least grid) m' := by
  have zeros (key : Nat × Nat → Nat) (value : Nat × Nat → Option ℚ) (n : Nat) :
      List.replicate n (0 : ℚ) = (List.range n).map (greatest key value []) := by
    change _ = (List.range n).map fun _ => 0
    rw [List.map_const',List.length_range]
  have begun : Keeps a_widget good widget (filled least grid []) (set_data m a_widget fun _ => .grid { grid with
      row_min := List.replicate grid.row_num 0
      col_min := List.replicate grid.col_num 0 }) := by
    refine ⟨callbacks.stores m _ fine,?_⟩
    rw [get_set_data found,zeros Prod.fst (heights least grid),zeros Prod.snd (widths least grid)]
    rfl
  obtain ⟨m₁,ran,keeps⟩ := pull_cells callbacks slots (fun _ there => cells_within.mp there) begun
  rw [cells,foldlM_flatMap] at ran
  simp only [List.foldlM_map] at ran
  obtain ⟨parent,rect,_⟩ := widget
  cases data
  refine ⟨set_data m₁ a_widget fun _ => .grid (pulled least grid),?_,callbacks.stores m₁ _ keeps.fine,
    get_set_data keeps.found _⟩
  refine bind_ok_iff.mpr ⟨_,found,?_⟩
  dsimp only
  refine bind_ok_iff.mpr ⟨m₁,ran,bind_ok_iff.mpr ⟨_,keeps.grid_found,?_⟩⟩
  have sums : (⟨(filled least grid (cells grid)).col_min.foldl (· + ·) 0,
      (filled least grid (cells grid)).row_min.foldl (· + ·) 0⟩ : HWTSize ℚ) = least_size least grid := by
    unfold filled
    rw [sum_of_list,sum_of_list]
    rfl
  change Except.ok (set_data m₁ a_widget fun _ => .grid { filled least grid ([] ++ cells grid) with min := ⟨_,_⟩ },some _) = _
  rw [List.nil_append,sums]
  rfl

end

/-! ### Rectangles -/

section
variable (grid : Grid ℚ) (rect : HWTRect ℚ)

/-- What is left over for each column and row. -/
def fill_size : HWTSize ℚ :=
  ⟨(rect.width - grid.min.width) / (grid.col_num : ℚ),(rect.height - grid.min.height) / (grid.row_num : ℚ)⟩

def col_width (col : Nat) : ℚ := grid.col_min.getD col 0 + (fill_size grid rect).width

def row_height (row : Nat) : ℚ := grid.row_min.getD row 0 + (fill_size grid rect).height

def cell_rect (cell : Nat × Nat) : HWTRect ℚ where
  x := rect.x + ∑ col ∈ range cell.2,col_width grid rect col
  y := rect.y + ∑ row ∈ range cell.1,row_height grid rect row
  width := col_width grid rect cell.2
  height := row_height grid rect cell.1

/-- The children that are called by `push_rect`, null pointers too, with their rectangles. -/
def calls : List (Option Nat × HWTRect ℚ) := (cells grid).map fun cell => (child_at grid cell,cell_rect grid rect cell)

/-- The rectangle behind a column. -/
def next_col (r : HWTRect ℚ) (col : Nat) : HWTRect ℚ :=
  { r with width := col_width grid rect col, x := r.x + col_width grid rect col }

/-- The rectangle in front of a row. -/
def row_start (r : HWTRect ℚ) (row : Nat) : HWTRect ℚ := { r with height := row_height grid rect row, x := rect.x }

/-- The rectangle behind a row. -/
def next_row (r : HWTRect ℚ) (row : Nat) : HWTRect ℚ :=
  let r := (List.range grid.col_num).foldl (next_col grid rect) (row_start grid rect r row)
  { r with y := r.y + r.height }

theorem next_cols (r : HWTRect ℚ) (n : Nat) :
    ((List.range n).foldl (next_col grid rect) r).x = r.x + ∑ col ∈ range n,col_width grid rect col ∧
      ((List.range n).foldl (next_col grid rect) r).y = r.y ∧
      ((List.range n).foldl (next_col grid rect) r).height = r.height := by
  induction n with
  | zero => exact ⟨(add_zero r.x).symm,rfl,rfl⟩
  | succ n ih =>
    obtain ⟨x,y,height⟩ := ih
    rw [List.range_succ,List.foldl_append,List.foldl_cons,List.foldl_nil,Finset.sum_range_succ,← add_assoc,← x]
    exact ⟨rfl,y,height⟩

theorem next_rows (r : HWTRect ℚ) (n : Nat) :
    ((List.range n).foldl (next_row grid rect) r).y = r.y + ∑ row ∈ range n,row_height grid rect row := by
  induction n with
  | zero => exact (add_zero r.y).symm
  | succ n ih =>
    rw [List.range_succ,List.foldl_append,List.foldl_cons,List.foldl_nil,Finset.sum_range_succ,← add_assoc,← ih]
    obtain ⟨_,y,height⟩ :=
      next_cols grid rect (row_start grid rect ((List.range n).foldl (next_row grid rect) r) n) grid.col_num
    exact congrArg₂ (· + ·) y height

/-- The calls as the loops make them. -/
theorem calls_eq : calls grid rect =
    (threaded (next_row grid rect) rect (List.range grid.row_num)).flatMap fun start =>
      (threaded (next_col grid rect) (row_start grid rect start.1 start.2) (List.range grid.col_num)).map fun place =>
        (child_at grid (start.2,place.2),{ place.1 with width := col_width grid rect place.2 }) := by
  unfold calls cells
  rw [threaded_range,List.map_flatMap,List.flatMap_map]
  refine congrArg₂ _ (funext fun row => ?_) rfl
  rw [threaded_range,List.map_map,List.map_map]
  refine List.map_congr_left fun col _ => ?_
  obtain ⟨x,y,height⟩ :=
    next_cols grid rect (row_start grid rect ((List.range row).foldl (next_row grid rect) rect) row) col
  have down := next_rows grid rect rect row
  have same {r : HWTRect ℚ} (r_x : r.x = (cell_rect grid rect (row,col)).x) (r_y : r.y = (cell_rect grid rect (row,col)).y)
      (r_height : r.height = (cell_rect grid rect (row,col)).height) :
      cell_rect grid rect (row,col) = { r with width := col_width grid rect col } := by
    rw [r_x,r_y,r_height]
    rfl
  exact Prod.ext rfl (same x (y.trans down) height)

end

section
variable {a_widget : Nat} {good : Memory ℚ → Prop} {grid : Grid ℚ} {rect : HWTRect ℚ} {widget : HWTWidget ℚ}
  {push : Memory ℚ → Option Nat → HWTRect ℚ → Except Stop (Memory ℚ)}

theorem element_getD {array : List ℚ} {i : Nat} (within : i < array.length) : element array i = .ok (array.getD i 0) := by
  rw [element,List.getElem?_eq_getElem within,List.getD_eq_getElem?_getD,List.getElem?_eq_getElem within]
  rfl

/-- The calls of a row. -/
theorem push_row_calls (callbacks : Pushes a_widget grid.child good push) (slots : (Data.grid grid).Fits)
    (rows : grid.row_min.length = grid.row_num) (cols : grid.col_min.length = grid.col_num) (rect_is : widget.rect = rect)
    {row : Nat} (row_within : row < grid.row_num) {m : Memory ℚ} (keeps : Keeps a_widget good widget grid m)
    (r : HWTRect ℚ) : push_row push a_widget (fill_size grid rect) row m r =
      ((threaded (next_col grid rect) (row_start grid rect r row) (List.range grid.col_num)).map fun place =>
        (child_at grid (row,place.2),{ place.1 with width := col_width grid rect place.2 })).foldlM
          (fun m call => push m call.1 call.2) m >>= fun m => .ok (m,next_row grid rect r row) := by
  have row_found : element grid.row_min row = .ok (grid.row_min.getD row 0) :=
    element_getD (by rw [rows]; exact row_within)
  unfold push_row
  rw [keeps.grid_found,ok_bind,row_found,ok_bind,keeps.found,ok_bind]
  dsimp only
  rw [rect_is,List.foldlM_map]
  refine (congrArg (· >>= _) (@foldlM_thread _ _ _ _ (Keeps a_widget good widget grid) _
    (fun r col m => push m (child_at grid (row,col)) { r with width := col_width grid rect col }) (next_col grid rect)
    (List.range grid.col_num) ?step ?kept m (row_start grid rect r row) keeps)).trans ?rest
  case step =>
    intro m r col there keeps
    have col_within := List.mem_range.mp there
    have col_found : element grid.col_min col = .ok (grid.col_min.getD col 0) :=
      element_getD (by rw [cols]; exact col_within)
    dsimp only
    rw [keeps.grid_found,ok_bind,col_found,ok_bind,(slot_found slots row_within col_within).1,ok_bind]
    rfl
  case kept =>
    intro m r col there m' keeps pushed
    obtain ⟨fine,kept⟩ := callbacks m _ _ m' keeps.fine (slot_found slots row_within (List.mem_range.mp there)).2 pushed
    exact ⟨fine,kept.trans keeps.found⟩
  case rest =>
    rw [bind_assoc]
    rfl

theorem push_rect_calls (callbacks : Pushes a_widget grid.child good push) (slots : (Data.grid grid).Fits)
    (rows : grid.row_min.length = grid.row_num) (cols : grid.col_min.length = grid.col_num) {m : Memory ℚ}
    (keeps : Keeps a_widget good widget grid m) :
    push_rect push m a_widget = (calls grid widget.rect).foldlM (fun m call => push m call.1 call.2) m := by
  unfold push_rect
  rw [keeps.found,ok_bind,calls_eq,foldlM_flatMap]
  dsimp only
  refine (congrArg (· >>= _) (@foldlM_thread _ _ _ _ (Keeps a_widget good widget grid) _
    (fun r row m => ((threaded (next_col grid widget.rect) (row_start grid widget.rect r row)
      (List.range grid.col_num)).map fun place =>
        (child_at grid (row,place.2),{ place.1 with width := col_width grid widget.rect place.2 })).foldlM
          (fun m call => push m call.1 call.2) m) (next_row grid widget.rect)
    (List.range grid.row_num) ?step ?kept m widget.rect keeps)).trans ?rest
  case step =>
    intro m r row there keeps
    exact push_row_calls callbacks slots rows cols rfl (List.mem_range.mp there) keeps r
  case kept =>
    intro m r row there m' keeps pushed
    rw [threaded_range,List.map_map] at pushed
    refine foldlM_keeps (fun m call call_there m' keeps ran => ?_) keeps pushed
    obtain ⟨col,col_there,rfl⟩ := List.mem_map.mp call_there
    have slot := (slot_found slots (List.mem_range.mp there) (List.mem_range.mp col_there)).2
    obtain ⟨fine,kept⟩ := callbacks m _ _ m' keeps.fine slot ran
    exact ⟨fine,kept.trans keeps.found⟩
  case rest =>
    rw [bind_assoc]
    exact bind_pure _

end

/-! ### The cells -/

/-- The cells of a row have one height and are side by side, the rows are one below the other, and they fill
    the rectangle. -/
structure Tiles (rows cols : Nat) (rect : HWTRect ℚ) (cell : Nat × Nat → HWTRect ℚ) : Prop where
  first_x : ∀ row,(cell (row,0)).x = rect.x
  first_y : ∀ col,(cell (0,col)).y = rect.y
  row_alike : ∀ row col col',(cell (row,col)).y = (cell (row,col')).y ∧ (cell (row,col)).height = (cell (row,col')).height
  col_alike : ∀ row row' col,(cell (row,col)).x = (cell (row',col)).x ∧ (cell (row,col)).width = (cell (row',col)).width
  next_x : ∀ row col,(cell (row,col + 1)).x = (cell (row,col)).x + (cell (row,col)).width
  next_y : ∀ row col,(cell (row + 1,col)).y = (cell (row,col)).y + (cell (row,col)).height
  widths : ∀ row,∑ col ∈ range cols,(cell (row,col)).width = rect.width
  heights : ∀ col,∑ row ∈ range rows,(cell (row,col)).height = rect.height

/-- The first rectangle is inside of the other, and its sides are not negative. -/
structure Inside (rect r : HWTRect ℚ) : Prop where
  width : 0 ≤ r.width
  height : 0 ≤ r.height
  left : rect.x ≤ r.x
  right : r.x + r.width ≤ rect.x + rect.width
  top : rect.y ≤ r.y
  bottom : r.y + r.height ≤ rect.y + rect.height

/-- What is missing is shared equally. A place has its own share to give, those in front of it have theirs together, and
    those behind it as well. -/
def Spared (n : Nat) (least : Nat → ℚ) (size : ℚ) (i : Nat) : Prop :=
  (∑ j ∈ range n,least j - size) / n ≤ least i ∧
    i * ((∑ j ∈ range n,least j - size) / n) ≤ ∑ j ∈ range i,least j ∧
    (n - (i + 1)) * ((∑ j ∈ range n,least j - size) / n) ≤ ∑ j ∈ Finset.Ico (i + 1) n,least j

/-- The column and the row of each child can spare what is missing. -/
def Room (least : Nat → HWTSize ℚ) (grid : Grid ℚ) (rect : HWTRect ℚ) : Prop :=
  ∀ cell ∈ cells grid,child_at grid cell ≠ none →
    Spared grid.col_num (col_least least grid) rect.width cell.2 ∧
      Spared grid.row_num (row_least least grid) rect.height cell.1

section
variable {n : Nat} {least : Nat → ℚ} {size : ℚ}

theorem sum_shares (f : ℚ) (i : Nat) : ∑ j ∈ range i,(least j + f) = ∑ j ∈ range i,least j + i * f := by
  rw [Finset.sum_add_distrib,Finset.sum_const,Finset.card_range,nsmul_eq_mul]

/-- The shares make up the whole. -/
theorem sum_shares_all (some_there : 0 < n) :
    ∑ j ∈ range n,(least j + (size - ∑ j ∈ range n,least j) / n) = size := by
  have n_there : (n : ℚ) ≠ 0 := Nat.cast_ne_zero.mpr (Nat.ne_of_gt some_there)
  rw [sum_shares,mul_div_cancel₀ _ n_there]
  ring

/-- A place is within the whole where there is enough to give in front of it, in it and behind it. -/
theorem place_iff {i : Nat} (within : i < n) (start : ℚ) :
    (0 ≤ least i + (size - ∑ j ∈ range n,least j) / n ∧
      start ≤ start + ∑ j ∈ range i,(least j + (size - ∑ j ∈ range n,least j) / n) ∧
      start + ∑ j ∈ range i,(least j + (size - ∑ j ∈ range n,least j) / n) +
        (least i + (size - ∑ j ∈ range n,least j) / n) ≤ start + size) ↔
    (∑ j ∈ range n,least j - size) / n ≤ least i ∧
      i * ((∑ j ∈ range n,least j - size) / n) ≤ ∑ j ∈ range i,least j ∧
      (n - (i + 1)) * ((∑ j ∈ range n,least j - size) / n) ≤ ∑ j ∈ Finset.Ico (i + 1) n,least j := by
  have n_there : (n : ℚ) ≠ 0 := Nat.cast_ne_zero.mpr (Nat.ne_of_gt (Nat.zero_lt_of_lt within))
  have parts : ∑ j ∈ range i,least j + least i + ∑ j ∈ Finset.Ico (i + 1) n,least j = ∑ j ∈ range n,least j := by
    rw [← Finset.sum_range_succ,Finset.sum_range_add_sum_Ico _ within]
  have missing : n * ((∑ j ∈ range n,least j - size) / n) = ∑ j ∈ range n,least j - size := mul_div_cancel₀ _ n_there
  have fill : (size - ∑ j ∈ range n,least j) / n = -((∑ j ∈ range n,least j - size) / n) := by
    rw [← neg_div,neg_sub]
  rw [sum_shares,fill]
  generalize (∑ j ∈ range n,least j - size) / n = share at *
  have behind : ((n : ℚ) - (i + 1)) * share = n * share - i * share - share := by ring
  have in_front : (i : ℚ) * -share = -(i * share) := by ring
  rw [behind,in_front]
  generalize (n : ℚ) * share = all at *
  generalize (i : ℚ) * share = front at *
  constructor
  · rintro ⟨own,left,right⟩
    exact ⟨by linarith,by linarith,by linarith⟩
  · rintro ⟨own,left,right⟩
    exact ⟨by linarith,by linarith,by linarith⟩

end

section
variable {least : Nat → HWTSize ℚ} {grid : Grid ℚ}

theorem getD_range (f : Nat → ℚ) {n i : Nat} (within : i < n) : ((List.range n).map f).getD i 0 = f i := by
  rw [List.getD_eq_getElem?_getD,List.getElem?_map,List.getElem?_range within]
  rfl

theorem col_width_pulled (rect : HWTRect ℚ) {col : Nat} (within : col < grid.col_num) :
    col_width (pulled least grid) rect col = col_least least grid col +
      (rect.width - ∑ j ∈ range grid.col_num,col_least least grid j) / grid.col_num :=
  congrArg (· + _) (getD_range (col_least least grid) within)

theorem row_height_pulled (rect : HWTRect ℚ) {row : Nat} (within : row < grid.row_num) :
    row_height (pulled least grid) rect row = row_least least grid row +
      (rect.height - ∑ j ∈ range grid.row_num,row_least least grid j) / grid.row_num :=
  congrArg (· + _) (getD_range (row_least least grid) within)

theorem cols_before (rect : HWTRect ℚ) {n : Nat} (within : n ≤ grid.col_num) :
    ∑ col ∈ range n,col_width (pulled least grid) rect col = ∑ col ∈ range n,(col_least least grid col +
      (rect.width - ∑ j ∈ range grid.col_num,col_least least grid j) / grid.col_num) :=
  Finset.sum_congr rfl fun _ there => col_width_pulled rect ((Finset.mem_range.mp there).trans_le within)

theorem rows_before (rect : HWTRect ℚ) {n : Nat} (within : n ≤ grid.row_num) :
    ∑ row ∈ range n,row_height (pulled least grid) rect row = ∑ row ∈ range n,(row_least least grid row +
      (rect.height - ∑ j ∈ range grid.row_num,row_least least grid j) / grid.row_num) :=
  Finset.sum_congr rfl fun _ there => row_height_pulled rect ((Finset.mem_range.mp there).trans_le within)

/-- The cells tile the rectangle. -/
theorem cell_rect_tiles (rows : 0 < grid.row_num) (cols : 0 < grid.col_num) (rect : HWTRect ℚ) :
    Tiles grid.row_num grid.col_num rect (cell_rect (pulled least grid) rect) where
  first_x _ := add_zero rect.x
  first_y _ := add_zero rect.y
  row_alike _ _ _ := ⟨rfl,rfl⟩
  col_alike _ _ _ := ⟨rfl,rfl⟩
  next_x row col := by
    unfold cell_rect
    rw [Finset.sum_range_succ,add_assoc]
  next_y row col := by
    unfold cell_rect
    rw [Finset.sum_range_succ,add_assoc]
  widths row := (cols_before rect (le_refl _)).trans (sum_shares_all cols)
  heights col := (rows_before rect (le_refl _)).trans (sum_shares_all rows)

variable (least) in
/-- A child counts for its column and its row. -/
theorem child_least {cell : Nat × Nat} (there : cell ∈ cells grid) {child : Nat} (child_is : child ∈ child_at grid cell) :
    (least child).width ≤ col_least least grid cell.2 ∧ (least child).height ≤ row_least least grid cell.1 := by
  have value (size : HWTSize ℚ → ℚ) : size (least child) ∈ (child_at grid cell).map fun child => size (least child) := by
    rw [Option.mem_def.mp child_is]
    rfl
  exact ⟨(le_greatest (cells grid) cell.2).2 cell there _ (value HWTSize.width) rfl,
    (le_greatest (cells grid) cell.1).2 cell there _ (value HWTSize.height) rfl⟩

/-- Where nothing is missing, a child gets what it needs. -/
theorem cell_rect_enough {rect : HWTRect ℚ} (wide : (least_size least grid).width ≤ rect.width)
    (high : (least_size least grid).height ≤ rect.height) {cell : Nat × Nat} (there : cell ∈ cells grid) {child : Nat}
    (child_is : child ∈ child_at grid cell) :
    (least child).width ≤ (cell_rect (pulled least grid) rect cell).width ∧
      (least child).height ≤ (cell_rect (pulled least grid) rect cell).height := by
  obtain ⟨row_within,col_within⟩ := cells_within.mp there
  obtain ⟨width,height⟩ := child_least least there child_is
  have width_left : 0 ≤ (rect.width - ∑ j ∈ range grid.col_num,col_least least grid j) / grid.col_num :=
    div_nonneg (sub_nonneg.mpr wide) (Nat.cast_nonneg _)
  have height_left : 0 ≤ (rect.height - ∑ j ∈ range grid.row_num,row_least least grid j) / grid.row_num :=
    div_nonneg (sub_nonneg.mpr high) (Nat.cast_nonneg _)
  unfold cell_rect
  rw [col_width_pulled rect col_within,row_height_pulled rect row_within]
  exact ⟨by linarith,by linarith⟩

/-- The cell of a child is inside of the rectangle where its column and its row can spare what is missing. -/
theorem cell_rect_inside {rect : HWTRect ℚ} {row col : Nat} (row_within : row < grid.row_num)
    (col_within : col < grid.col_num) : Inside rect (cell_rect (pulled least grid) rect (row,col)) ↔
      Spared grid.col_num (col_least least grid) rect.width col ∧
        Spared grid.row_num (row_least least grid) rect.height row := by
  unfold Spared
  rw [← place_iff col_within rect.x,← place_iff row_within rect.y,← col_width_pulled rect col_within,
    ← row_height_pulled rect row_within,← cols_before rect (le_of_lt col_within),← rows_before rect (le_of_lt row_within)]
  constructor
  · rintro ⟨width,height,left,right,top,bottom⟩
    exact ⟨⟨width,left,right⟩,height,top,bottom⟩
  · rintro ⟨⟨width,left,right⟩,height,top,bottom⟩
    exact ⟨width,height,left,right,top,bottom⟩

end

/-! ### Mock widgets -/

section
variable {a_widget : Nat} {children : List (Option Nat)}

/-- The callback of a mock widget gives the least size that it was made with. -/
def mock_pull (least : Nat → HWTSize ℚ) (m : Memory ℚ) :
    Option Nat → Option (HWTSize ℚ) → Except Stop (Memory ℚ × Option (HWTSize ℚ))
  | none,_ => .ok (m,some ⟨0,0⟩)
  | some child,_ => .ok (m,some (least child))

/-- A mock widget keeps its rectangle. -/
def mock_push (m : Memory ℚ) : Option Nat → HWTRect ℚ → Except Stop (Memory ℚ)
  | none,_ => .ok m
  | some child,r => .ok (modify m child fun widget => { widget with rect := r })

theorem mock_pulls (least : Nat → HWTSize ℚ) : Pulls a_widget children (fun _ => True) least (mock_pull least) where
  stores _ _ _ := trivial
  pulls m _ _ _ := ⟨m,rfl,trivial,rfl⟩

theorem mock_pushes (apart : some a_widget ∉ children) : Pushes a_widget children (fun _ => True) mock_push := by
  intro m child r m' _ there pushed
  cases child with
  | none =>
    cases pushed
    exact ⟨trivial,rfl⟩
  | some child =>
    cases pushed
    have other : child ≠ a_widget := fun same => apart (same ▸ there)
    exact ⟨trivial,get_modify_other other m _⟩

def two_cells : Grid ℚ := ⟨1,2,[0],[0,0],⟨0,0⟩,[some 1,some 2]⟩

/-- A row of two mock widgets. -/
def two_columns : Memory ℚ :=
  ⟨some 0,[⟨some .root,⟨0,0,0,0⟩,.grid two_cells⟩,⟨some (.child 0 0),⟨0,0,0,0⟩,.label none⟩,
    ⟨some (.child 0 1),⟨0,0,0,0⟩,.label none⟩],[],[],[]⟩

/-- The second one needs a width of ten. -/
def two_least (child : Nat) : HWTSize ℚ := if child = 2 then ⟨10,0⟩ else ⟨0,0⟩

theorem two_least_nonneg (child : Nat) : 0 ≤ (two_least child).width ∧ 0 ≤ (two_least child).height := by
  unfold two_least
  split <;> decide

/-- The row in a rectangle. -/
def two_resized (rect : HWTRect ℚ) : Except Stop (Memory ℚ) :=
  pull_min (mock_pull two_least) two_columns 0 none >>= fun pulled =>
    push_rect mock_push (modify pulled.1 0 fun widget => { widget with rect := rect }) 0

end

/-! ### A resize -/

section
variable {a_widget : Nat} {good : Memory ℚ → Prop} {least : Nat → HWTSize ℚ} {grid : Grid ℚ} {widget : HWTWidget ℚ}
  {pull : Memory ℚ → Option Nat → Option (HWTSize ℚ) → Except Stop (Memory ℚ × Option (HWTSize ℚ))}

/-- The rectangles that a grid gives away once its least size has been pulled. -/
theorem push_pulled {push : Memory ℚ → Option Nat → HWTRect ℚ → Except Stop (Memory ℚ)}
    (callbacks : Pushes a_widget grid.child good push) (slots : (Data.grid grid).Fits) {m : Memory ℚ}
    (fine : good m) (found : get m a_widget = .ok widget) (data : widget.data = .grid (pulled least grid)) :
    push_rect push m a_widget =
      ((cells grid).map fun cell => (child_at grid cell,cell_rect (pulled least grid) widget.rect cell)).foldlM
        (fun m call => push m call.1 call.2) m := by
  have filled_size (f : Nat → ℚ) (n : Nat) : ((List.range n).map f).length = n := by rw [List.length_map,List.length_range]
  have keeps : Keeps a_widget good widget (pulled least grid) m := ⟨fine,by rw [found,← data]⟩
  refine push_rect_calls ?callbacks ?slots ?rows ?cols keeps
  case callbacks => exact callbacks
  case slots => exact slots
  case rows => exact filled_size _ _
  case cols => exact filled_size _ _

/-- For a grid of any dimensions, children of any least sizes and every rectangle that is pushed once the least size has
    been pulled, the cells tile the rectangle. Where it is at least of the least size, each child gets what it needs. -/
theorem grid_tiles (callbacks : Pulls a_widget grid.child good least pull) (rows : 0 < grid.row_num)
    (cols : 0 < grid.col_num) (slots : (Data.grid grid).Fits) {m : Memory ℚ} (fine : good m)
    (found : get m a_widget = .ok widget) (data : widget.data = .grid grid) (a_min : Option (HWTSize ℚ)) :
    ∃ m₁ min grid₁,pull_min pull m a_widget a_min = .ok (m₁,some min) ∧ good m₁ ∧
      get m₁ a_widget = .ok { widget with data := .grid grid₁ } ∧
      ∀ m₂ widget₂,good m₂ → get m₂ a_widget = .ok widget₂ → widget₂.data = .grid grid₁ → ∃ cell : Nat × Nat → HWTRect ℚ,
        (∀ push,Pushes a_widget grid.child good push → push_rect push m₂ a_widget =
          ((cells grid).map fun place => (child_at grid place,cell place)).foldlM
            (fun m call => push m call.1 call.2) m₂) ∧
        Tiles grid.row_num grid.col_num widget₂.rect cell ∧
        (min.width ≤ widget₂.rect.width → min.height ≤ widget₂.rect.height →
          ∀ place ∈ cells grid,∀ child ∈ child_at grid place,
            (least child).width ≤ (cell place).width ∧ (least child).height ≤ (cell place).height) := by
  obtain ⟨m₁,ran,fine₁,found₁⟩ := pull_min_pulled callbacks slots fine found data a_min
  refine ⟨m₁,_,_,ran,fine₁,found₁,?_⟩
  intro m₂ widget₂ fine₂ found₂ data₂
  refine ⟨cell_rect (pulled least grid) widget₂.rect,?_,cell_rect_tiles rows cols widget₂.rect,?_⟩
  · intro push pushes
    exact push_pulled pushes slots fine₂ found₂ data₂
  · intro wide high place there child child_is
    exact cell_rect_enough wide high there child_is

theorem grid_tiles_mocks : ∃ m₁ min,pull_min (mock_pull two_least) two_columns 0 none = .ok (m₁,some min) ∧
    ∃ cell : Nat × Nat → HWTRect ℚ,two_resized ⟨0,0,20,8⟩ = [(some 1,cell (0,0)),(some 2,cell (0,1))].foldlM
      (fun m call => mock_push m call.1 call.2) (modify m₁ 0 fun widget => { widget with rect := ⟨0,0,20,8⟩ }) ∧
      Tiles 1 2 ⟨0,0,20,8⟩ cell ∧ (min.width ≤ 20 → min.height ≤ 8 → 10 ≤ (cell (0,1)).width) := by
  have found : get two_columns 0 = .ok ⟨some .root,⟨0,0,0,0⟩,.grid two_cells⟩ := rfl
  have slots : (Data.grid two_cells).Fits := rfl
  obtain ⟨m₁,min,grid₁,ran,_,found₁,pushed⟩ :=
    grid_tiles (mock_pulls two_least) (by decide) (by decide) slots trivial found rfl none
  obtain ⟨cell,calls,tiles,enough⟩ := pushed (modify m₁ 0 fun widget => { widget with rect := ⟨0,0,20,8⟩ }) _ trivial
    (get_modified found₁ _) rfl
  refine ⟨m₁,min,ran,cell,?_,tiles,?_⟩
  · unfold two_resized
    rw [ran,ok_bind]
    exact calls mock_push (mock_pushes (by decide))
  · intro wide high
    exact (enough wide high (0,1) (by decide) 2 rfl).1

/-- The cells of the children are inside of the rectangle, and their sides are not negative, where the column and the
    row of each one can spare what is missing. -/
theorem grid_inside_iff (callbacks : Pulls a_widget grid.child good least pull)
    (slots : (Data.grid grid).Fits) {m : Memory ℚ} (fine : good m)
    (found : get m a_widget = .ok widget) (data : widget.data = .grid grid) (a_min : Option (HWTSize ℚ)) :
    ∃ m₁ min grid₁,pull_min pull m a_widget a_min = .ok (m₁,some min) ∧ good m₁ ∧
      get m₁ a_widget = .ok { widget with data := .grid grid₁ } ∧
      ∀ m₂ widget₂,good m₂ → get m₂ a_widget = .ok widget₂ → widget₂.data = .grid grid₁ → ∃ cell : Nat × Nat → HWTRect ℚ,
        (∀ push,Pushes a_widget grid.child good push → push_rect push m₂ a_widget =
          ((cells grid).map fun place => (child_at grid place,cell place)).foldlM
            (fun m call => push m call.1 call.2) m₂) ∧
        ((∀ place ∈ cells grid,child_at grid place ≠ none → Inside widget₂.rect (cell place)) ↔
          Room least grid widget₂.rect) := by
  obtain ⟨m₁,ran,fine₁,found₁⟩ := pull_min_pulled callbacks slots fine found data a_min
  refine ⟨m₁,_,_,ran,fine₁,found₁,?_⟩
  intro m₂ widget₂ fine₂ found₂ data₂
  refine ⟨cell_rect (pulled least grid) widget₂.rect,?_,?_⟩
  · intro push pushes
    exact push_pulled pushes slots fine₂ found₂ data₂
  · refine forall₃_congr fun place there used => ?_
    obtain ⟨row_within,col_within⟩ := cells_within.mp there
    exact cell_rect_inside row_within col_within

theorem grid_inside_mocks : ∃ m₁ min,pull_min (mock_pull two_least) two_columns 0 none = .ok (m₁,some min) ∧
    ∃ cell : Nat × Nat → HWTRect ℚ,two_resized ⟨0,0,20,8⟩ = [(some 1,cell (0,0)),(some 2,cell (0,1))].foldlM
      (fun m call => mock_push m call.1 call.2) (modify m₁ 0 fun widget => { widget with rect := ⟨0,0,20,8⟩ }) ∧
      Inside ⟨0,0,20,8⟩ (cell (0,0)) ∧ Inside ⟨0,0,20,8⟩ (cell (0,1)) := by
  have found : get two_columns 0 = .ok ⟨some .root,⟨0,0,0,0⟩,.grid two_cells⟩ := rfl
  have slots : (Data.grid two_cells).Fits := rfl
  have room : Room two_least two_cells ⟨0,0,20,8⟩ := by
    unfold Room Spared
    decide +kernel
  obtain ⟨m₁,min,grid₁,ran,_,found₁,pushed⟩ := grid_inside_iff (mock_pulls two_least) slots trivial found rfl none
  obtain ⟨cell,calls,inside_iff⟩ := pushed (modify m₁ 0 fun widget => { widget with rect := ⟨0,0,20,8⟩ }) _ trivial
    (get_modified found₁ _) rfl
  have inside := inside_iff.mpr room
  refine ⟨m₁,min,ran,cell,?_,inside (0,0) (by decide) (by decide),inside (0,1) (by decide) (by decide)⟩
  unfold two_resized
  rw [ran,ok_bind]
  exact calls mock_push (mock_pushes (by decide))

/-- The width that is missing is taken from a child that needs none, and the next one begins outside. -/
theorem grid_inside_fails : (∀ child,0 ≤ (two_least child).width ∧ 0 ≤ (two_least child).height) ∧
    ∃ m first second,two_resized ⟨0,0,4,1⟩ = .ok m ∧ get m 1 = .ok first ∧ get m 2 = .ok second ∧
      first.rect.width = -3 ∧ second.rect.x = -3 ∧ ¬ Inside ⟨0,0,4,1⟩ first.rect ∧ ¬ Inside ⟨0,0,4,1⟩ second.rect := by
  have ran : (two_resized ⟨0,0,4,1⟩ >>= fun m => get m 1 >>= fun first => get m 2 >>= fun second =>
      .ok (first.rect.width,second.rect.x)) = .ok (-3,-3) := by decide +kernel
  obtain ⟨m,resized,ran⟩ := bind_ok_iff.mp ran
  obtain ⟨first,first_found,ran⟩ := bind_ok_iff.mp ran
  obtain ⟨second,second_found,ran⟩ := bind_ok_iff.mp ran
  obtain ⟨width,x⟩ := Prod.mk.inj (Except.ok.inj ran)
  refine ⟨two_least_nonneg,m,first,second,resized,first_found,second_found,width,x,fun inside => ?_,fun inside => ?_⟩
  · have negative := inside.width
    rw [width] at negative
    exact absurd negative (by decide)
  · have before := inside.left
    rw [x] at before
    exact absurd before (by decide)

end

end Htools.Hwt
