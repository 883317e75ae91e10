import Htools.HwtShape

/-!
Least sizes of a tree of widgets, with what the variables have in them that are not
initialised. What a call gives and what it leaves in the grids is a function of the
tree and the contents of the variables (`leaves`), and nothing else is written to.
-/
namespace Htools.Hwt

section
variable {F : Type} [Zero F] [Add F] [LT F] [DecidableLT F]

/-! ### Variables with contents -/

/-- What is in the variable `min` in `pull_min` of `grid.c` before the call for a
    cell, by the grid, the row and the column. -/
abbrev Contents (F : Type) := Nat → Nat → Nat → HWTSize F

/-- `pull_cell` with the contents of its variable. -/
def pull_cell_over (pull : Memory F → Option Nat → HWTSize F → Except Stop (Memory F × HWTSize F)) (min : HWTSize F)
    (a_widget row col : Nat) (m : Memory F) : Except Stop (Memory F) := do
  let grid ← get_grid m a_widget
  match ← element grid.child (row * grid.col_num + col) with
  | none => .ok m
  | some child => do
    let (m,min) ← pull m (some child) min
    .ok (set_data m a_widget fun
      | .grid grid => .grid { grid with
          row_min := grid.row_min.modify row fun height => MAX height min.height
          col_min := grid.col_min.modify col fun width => MAX width min.width }
      | data => data)

/-- The callbacks `pull_min` with what `a_min` points to. -/
def pull_min_over (pull : Memory F → Option Nat → HWTSize F → Except Stop (Memory F × HWTSize F)) (contents : Contents F)
    (m : Memory F) (a_widget : Nat) (a_min : HWTSize F) : Except Stop (Memory F × HWTSize F) := do
  let widget ← get m a_widget
  match widget.data with
  | .button child _ => pull m child a_min
  | .grid grid => do
    let m := set_data m a_widget fun _ => .grid { grid with
      row_min := List.replicate grid.row_num 0
      col_min := List.replicate grid.col_num 0 }
    let m ← (List.range grid.row_num).foldlM (fun m row =>
      (List.range grid.col_num).foldlM (fun m col => pull_cell_over pull (contents a_widget row col) a_widget row col m) m) m
    let grid ← get_grid m a_widget
    let min : HWTSize F := { width := grid.col_min.foldl (· + ·) 0, height := grid.row_min.foldl (· + ·) 0 }
    .ok (set_data m a_widget fun _ => .grid { grid with min := min },min)
  | .label _ => .ok (m,a_min)
  | .panel child => pull m child a_min

def hwt_widget_pull_min_over (contents : Contents F) :
    Nat → Memory F → Option Nat → HWTSize F → Except Stop (Memory F × HWTSize F)
  | 0, _, _, _ => .error .fuel
  | _ + 1, m, none, _ => .ok (m,⟨0,0⟩)
  | fuel + 1, m, some a_widget, a_min => pull_min_over (hwt_widget_pull_min_over contents fuel) contents m a_widget a_min

omit [Zero F] [Add F] in
/-- A variable that has been read has been set, so that its contents do not matter. -/
theorem pull_cell_over_of {pull : Memory F → Option Nat → Option (HWTSize F) → Except Stop (Memory F × Option (HWTSize F))}
    {pull' : Memory F → Option Nat → HWTSize F → Except Stop (Memory F × HWTSize F)} {min : HWTSize F}
    {a_widget row col : Nat}
    (follows : ∀ m m' child r,pull m child none = .ok (m',r) → pull' m child min = .ok (m',r.getD min)) {m m' : Memory F}
    (ran : pull_cell pull a_widget row col m = .ok m') : pull_cell_over pull' min a_widget row col m = .ok m' := by
  obtain ⟨grid,found,ran⟩ := bind_ok_iff.mp ran
  obtain ⟨slot,there,ran⟩ := bind_ok_iff.mp ran
  rw [pull_cell_over,found,ok_bind,there,ok_bind]
  cases slot with
  | none => exact ran
  | some child =>
    obtain ⟨⟨m₁,r⟩,called,ran⟩ := bind_ok_iff.mp ran
    cases r with
    | none => cases ran
    | some least =>
      have called' := follows m m₁ (some child) (some least) called
      simp only [called',ok_bind]
      exact ran

/-- The runs that read no variable before it is set are those for any contents. -/
theorem hwt_widget_pull_min_over_of (contents : Contents F) {fuel : Nat} : ∀ {m m' : Memory F} {a_widget : Option Nat}
    {a_min r : Option (HWTSize F)} (min : HWTSize F),hwt_widget_pull_min fuel m a_widget a_min = .ok (m',r) →
    hwt_widget_pull_min_over contents fuel m a_widget (a_min.getD min) = .ok (m',r.getD min) := by
  induction fuel with
  | zero =>
    intro m m' a_widget a_min r min ran
    cases ran
  | succ fuel ih =>
    intro m m' a_widget a_min r min ran
    cases a_widget with
    | none =>
      cases ran
      rfl
    | some name =>
      rw [hwt_widget_pull_min] at ran
      rw [hwt_widget_pull_min_over]
      obtain ⟨widget,found,ran⟩ := bind_ok_iff.mp ran
      rw [pull_min_over,found,ok_bind]
      cases data : widget.data with
      | button child callback =>
        simp only [data] at ran
        exact ih min ran
      | grid grid =>
        simp only [data] at ran
        obtain ⟨m₁,loops,ran⟩ := bind_ok_iff.mp ran
        obtain ⟨last,left,ran⟩ := bind_ok_iff.mp ran
        cases ran
        refine bind_ok_iff.mpr ⟨m₁,?_,bind_ok_iff.mpr ⟨last,left,rfl⟩⟩
        refine foldlM_follows (fun m row m' => ?_) loops
        refine foldlM_follows (fun m col m' => ?_)
        exact pull_cell_over_of fun m m' child r => ih (contents name row col)
      | label text =>
        simp only [data] at ran
        cases ran
        rfl
      | panel child =>
        simp only [data] at ran
        exact ih min ran

end

section
variable {F : Type} {m m' : Memory F} {shape : Shape F} {name : Nat} {widget : HWTWidget F}

/-- The size of a cell, which is none for an empty slot. -/
def Shape.offer (min : HWTSize F) : Shape F → Option (HWTSize F)
  | .empty => none
  | .button _ _ _ _ | .grid _ _ _ _ | .label _ | .panel _ _ => some min

theorem offer_none (stands : shape.Stands m none) (min : HWTSize F) : shape.offer min = none := by
  cases shape with
  | empty => rfl
  | button name rect callback child => cases stands.1
  | grid name row_num col_num cells => cases stands.1
  | label name => cases stands.1
  | panel name child => cases stands.1

theorem offer_some (stands : shape.Stands m (some name)) (min : HWTSize F) : shape.offer min = some min := by
  cases shape with
  | empty => cases stands
  | button name rect callback child => rfl
  | grid name row_num col_num cells => rfl
  | label name => rfl
  | panel name child => rfl

theorem offer_eq {min offered : HWTSize F} (offers : offered ∈ shape.offer min) : offered = min := by
  cases shape with
  | empty => cases offers
  | button name rect callback child => exact (Option.some.inj offers).symm
  | grid name row_num col_num cells => exact (Option.some.inj offers).symm
  | label name => exact (Option.some.inj offers).symm
  | panel name child => exact (Option.some.inj offers).symm

def grid_least (m : Memory F) (name : Nat) : Except Stop (List F × List F) :=
  get_grid m name >>= fun grid => .ok (grid.row_min,grid.col_min)

theorem grid_least_congr (same : get m' name = get m name) : grid_least m' name = grid_least m name := by
  unfold grid_least get_grid
  rw [same]

theorem grid_least_of {grid : Grid F} (found : get m name = .ok widget) (data : widget.data = .grid grid) :
    grid_least m name = .ok (grid.row_min,grid.col_min) := by
  rw [grid_least,get_grid_of found data]
  rfl

/-! ### What stays -/

variable [Zero F]

/-- What a widget has besides the least sizes of a grid. -/
def HWTWidget.bare (widget : HWTWidget F) : HWTWidget F :=
  { widget with
    data := match widget.data with
      | .grid grid => .grid { grid with row_min := [],col_min := [],min := ⟨0,0⟩ }
      | data => data }

/-- What a memory has besides the least sizes of the grids. -/
def tree (m : Memory F) (name : Nat) : Except Stop (HWTWidget F) := HWTWidget.bare <$> get m name

theorem found_again (same : tree m' = tree m) (found : get m name = .ok widget) :
    ∃ other,get m' name = .ok other ∧ other.bare = widget.bare := by
  have here : tree m name = .ok widget.bare := map_ok_iff.mpr ⟨widget,found,rfl⟩
  rw [← same] at here
  exact map_ok_iff.mp here

/-- A widget of another type than a grid has its private part as it was. -/
theorem data_plain {other : HWTWidget F} {r : HWTRect F} (bare : other.bare = { widget.bare with rect := r })
    (plain : ∀ grid,widget.data ≠ .grid grid) : other.data = widget.data := by
  obtain ⟨parent,own,data⟩ := widget
  obtain ⟨parent',own',data'⟩ := other
  cases data with
  | grid grid => exact absurd rfl (plain grid)
  | button child callback =>
    cases data' <;> cases bare
    rfl
  | label text =>
    cases data' <;> cases bare
    rfl
  | panel child =>
    cases data' <;> cases bare
    rfl

/-- A grid has its slots as they were. -/
theorem data_grid {other : HWTWidget F} {r : HWTRect F} (bare : other.bare = { widget.bare with rect := r })
    {grid : Grid F} (data : widget.data = .grid grid) :
    ∃ grid',other.data = .grid grid' ∧ grid'.row_num = grid.row_num ∧ grid'.col_num = grid.col_num ∧
      grid'.child = grid.child := by
  obtain ⟨parent,own,_⟩ := widget
  obtain ⟨parent',own',data'⟩ := other
  cases data
  cases data' with
  | grid grid' =>
    injection bare with _ _ kept
    injection kept with kept
    injection kept with rows cols _ _ _ slots
    exact ⟨grid',rfl,rows,cols,slots⟩
  | button child callback => cases bare
  | label text => cases bare
  | panel child => cases bare

/-- A widget of another type than a grid stays as it is. -/
theorem found_plain (same : tree m' = tree m) (found : get m name = .ok widget) (plain : ∀ grid,widget.data ≠ .grid grid) :
    get m' name = .ok widget := by
  obtain ⟨other,found',bare⟩ := found_again same found
  obtain ⟨parent,rect,data⟩ := widget
  obtain ⟨parent',rect',data'⟩ := other
  obtain rfl : parent' = parent := congrArg HWTWidget.parent bare
  obtain rfl : rect' = rect := congrArg HWTWidget.rect bare
  obtain rfl : data' = data := data_plain bare plain
  exact found'

/-- A grid keeps its slots. -/
theorem found_grid (same : tree m' = tree m) (found : get m name = .ok widget) {grid : Grid F}
    (data : widget.data = .grid grid) :
    ∃ other grid',get m' name = .ok other ∧ other.data = .grid grid' ∧ grid'.row_num = grid.row_num ∧
      grid'.col_num = grid.col_num ∧ grid'.child = grid.child := by
  obtain ⟨other,found',bare⟩ := found_again same found
  obtain ⟨grid',kept⟩ := data_grid (r := widget.rect) bare data
  exact ⟨other,grid',found',kept⟩

/-- A shape is one of what stays. -/
theorem Shape.Stands.again (same : tree m' = tree m) : ∀ {shape : Shape F} {a_widget},shape.Stands m a_widget →
    shape.Stands m' a_widget := by
  intro shape
  induction shape with
  | empty => exact fun stands => stands
  | button name rect callback child ih =>
    rintro _ ⟨rfl,widget,below,found,rect_eq,data,stands⟩
    exact ⟨rfl,widget,below,found_plain same found (by simp [data]),rect_eq,data,ih stands⟩
  | grid name row_num col_num cells ih =>
    rintro _ ⟨rfl,widget,grid,found,data,rfl,rfl,slots⟩
    obtain ⟨other,grid',found',data',rows,cols,kept⟩ := found_grid same found data
    refine ⟨rfl,other,grid',found',data',rows,cols,fun i inside => ?_⟩
    obtain ⟨below,there,stands⟩ := slots i inside
    exact ⟨below,by rw [kept,there],ih i stands⟩
  | label name =>
    rintro _ ⟨rfl,widget,text,found,data⟩
    exact ⟨rfl,widget,text,found_plain same found (by simp [data]),data⟩
  | panel name child ih =>
    rintro _ ⟨rfl,widget,below,found,data,stands⟩
    exact ⟨rfl,widget,below,found_plain same found (by simp [data]),data,ih stands⟩

/-- New least sizes of a grid. -/
theorem tree_set_data (found : get m name = .ok widget) {f : Data F → Data F}
    (alike : HWTWidget.bare { widget with data := f widget.data } = widget.bare) : tree (set_data m name f) = tree m := by
  funext other
  unfold tree
  by_cases same : name = other
  · subst same
    rw [get_set_data found,found]
    exact congrArg Except.ok alike
  · rw [set_data,get_modify_other same]

/-- A grid is given other least sizes. -/
theorem tree_set_least {grid : Grid F} (found : get m name = .ok widget) (data : widget.data = .grid grid)
    (rows cols : List F) (min : HWTSize F) :
    tree (set_data m name fun _ => .grid { grid with row_min := rows,col_min := cols,min := min }) = tree m := by
  refine tree_set_data found ?_
  simp only [HWTWidget.bare,data]

end

/-! ### The sizes of a tree -/

section
variable {F : Type} [Zero F] [Add F] [LT F] [DecidableLT F]

/-- The least sizes of the rows and columns after a cell, which may have no size. -/
def widen (sizes : Nat × Nat → Option (HWTSize F)) (least : List F × List F) (cell : Nat × Nat) : List F × List F :=
  match sizes cell with
  | none => least
  | some min =>
    (least.1.modify cell.1 fun height => MAX height min.height,least.2.modify cell.2 fun width => MAX width min.width)

def least_of (sizes : Nat × Nat → Option (HWTSize F)) (row_num col_num : Nat) : List F × List F :=
  (places row_num col_num).foldl (widen sizes) (List.replicate row_num 0,List.replicate col_num 0)

def total (least : List F × List F) : HWTSize F where
  width := least.2.foldl (· + ·) 0
  height := least.1.foldl (· + ·) 0

/-- The size that is left in a variable with the contents `a_min`. -/
def Shape.least (contents : Contents F) : Shape F → HWTSize F → HWTSize F
  | .empty,_ => ⟨0,0⟩
  | .button _ _ _ child,a_min => child.least contents a_min
  | .grid widget row_num col_num cells,_ =>
    total (least_of (fun (row,col) => (cells (row * col_num + col)).offer
      ((cells (row * col_num + col)).least contents (contents widget row col))) row_num col_num)
  | .label _,a_min => a_min
  | .panel _ child,a_min => child.least contents a_min

def Node.sizes (contents : Contents F) (node : Node F) (cell : Nat × Nat) : Option (HWTSize F) :=
  (node.cell cell).offer ((node.cell cell).least contents (contents node.widget cell.1 cell.2))

/-- The least sizes of the rows and columns of a grid. -/
def Node.least (contents : Contents F) (node : Node F) : List F × List F :=
  least_of (node.sizes contents) node.row_num node.col_num

/-- What a call leaves for a tree: the grids have their least sizes, and nothing
    else has changed. -/
structure Shape.Pulled (contents : Contents F) (shape : Shape F) (m m' : Memory F) : Prop where
  tree : tree m' = tree m
  frame : ∀ name,name ∉ shape.widgets → get m' name = get m name
  least : ∀ node ∈ shape.grids,grid_least m' node.widget = .ok (node.least contents)

/-- A call for a tree of a shape. -/
def Leaves (contents : Contents F) (pull : Memory F → Option Nat → HWTSize F → Except Stop (Memory F × HWTSize F))
    (shape : Shape F) : Prop :=
  ∀ m a_widget a_min,shape.Stands m a_widget → shape.widgets.Nodup →
    ∃ m',pull m a_widget a_min = .ok (m',shape.least contents a_min) ∧ shape.Pulled contents m m'

/-- What some cells of a grid leave. -/
structure Node.Pulled (contents : Contents F) (node : Node F) (l : List (Nat × Nat)) (m m' : Memory F) : Prop where
  tree : tree m' = tree m
  frame : ∀ name,name ≠ node.widget → name ∉ l.flatMap (fun cell => (node.cell cell).widgets) → get m' name = get m name
  least : ∀ cell ∈ l,∀ inner ∈ (node.cell cell).grids,grid_least m' inner.widget = .ok (inner.least contents)

variable {m m' : Memory F} {a_widget : Option Nat} {shape : Shape F} {contents contents' : Contents F} {name : Nat}
  {node : Node F} {least : List F × List F} {pull : Memory F → Option Nat → HWTSize F → Except Stop (Memory F × HWTSize F)}

/-- One cell. -/
theorem pull_cell_leaves {cell : Nat × Nat} (leaves : Leaves contents pull (node.cell cell)) (row : cell.1 < node.row_num)
    (col : cell.2 < node.col_num) (stands : node.shape.Stands m (some node.widget))
    (distinct : (node.widget :: (node.cell cell).widgets).Nodup) (here : grid_least m node.widget = .ok least) :
    ∃ m',pull_cell_over pull (contents node.widget cell.1 cell.2) node.widget cell.1 cell.2 m = .ok m' ∧
      node.Pulled contents [cell] m m' ∧ grid_least m' node.widget = .ok (widen (node.sizes contents) least cell) := by
  obtain ⟨_,widget,grid,found,data,rows,cols,slots⟩ := stands
  have there : get_grid m node.widget = .ok grid := get_grid_of found data
  obtain ⟨below,slot,stands⟩ := slots (cell.1 * node.col_num + cell.2) (by rw [Nat.mul_comm]; exact cell_lt row col)
  have slot' : element grid.child (cell.1 * grid.col_num + cell.2) = .ok below := by rw [element,cols,slot]
  rw [pull_cell_over,there,ok_bind,slot',ok_bind]
  cases below with
  | none =>
    refine ⟨m,rfl,⟨rfl,fun _ _ _ => rfl,?_⟩,?_⟩
    · intro other member inner inside
      obtain rfl := List.mem_singleton.mp member
      rw [Node.cell,grids_none stands] at inside
      cases inside
    · rw [here,widen,Node.sizes,Node.cell,offer_none stands]
  | some child =>
    obtain ⟨outside,distinct⟩ := List.nodup_cons.mp distinct
    obtain ⟨m₁,called,pulled⟩ := leaves m (some child) (contents node.widget cell.1 cell.2) stands distinct
    have found₁ : get m₁ node.widget = .ok widget := by rw [pulled.frame _ outside,found]
    refine ⟨_,by simp only [called,ok_bind]; rfl,⟨?_,?_,?_⟩,?_⟩
    · rw [tree_set_data found₁,pulled.tree]
      simp only [HWTWidget.bare,data]
    · intro name apart other
      rw [List.flatMap_singleton] at other
      rw [set_data,get_modify_other (Ne.symm apart),pulled.frame name other]
    · intro other member inner inside
      obtain rfl := List.mem_singleton.mp member
      have apart : node.widget ≠ inner.widget := fun same => outside (same ▸ Shape.mem_widgets inside)
      rw [← pulled.least inner inside]
      exact grid_least_congr (get_modify_other apart _ _)
    · rw [grid_least,there] at here
      cases here
      rw [grid_least,get_grid_of (get_set_data found₁ _) (by rw [data]),widen,Node.sizes,Node.cell,offer_some stands]
      rfl

/-- The cells one after the other. -/
theorem pull_loop_leaves {l : List (Nat × Nat)} (leaves : ∀ cell ∈ l,Leaves contents pull (node.cell cell))
    (within : ∀ cell ∈ l,cell.1 < node.row_num ∧ cell.2 < node.col_num) : ∀ {m least},
    node.shape.Stands m (some node.widget) → (node.widget :: l.flatMap fun cell => (node.cell cell).widgets).Nodup →
    grid_least m node.widget = .ok least →
    ∃ m',l.foldlM (fun m cell => pull_cell_over pull (contents node.widget cell.1 cell.2) node.widget cell.1 cell.2 m) m =
        .ok m' ∧
      node.Pulled contents l m m' ∧ grid_least m' node.widget = .ok (l.foldl (widen (node.sizes contents)) least) := by
  induction l with
  | nil => exact fun _ _ here => ⟨_,rfl,⟨rfl,fun _ _ _ => rfl,fun _ member => absurd member List.not_mem_nil⟩,here⟩
  | cons cell l ih =>
    intro m least stands distinct here
    obtain ⟨outside,distinct⟩ := List.nodup_cons.mp distinct
    rw [List.flatMap_cons] at outside distinct
    obtain ⟨first,rest,apart⟩ := List.nodup_append.mp distinct
    have left : node.widget ∉ (node.cell cell).widgets := fun member => outside (List.mem_append_left _ member)
    have right : node.widget ∉ l.flatMap fun cell => (node.cell cell).widgets :=
      fun member => outside (List.mem_append_right _ member)
    obtain ⟨row,col⟩ := within cell List.mem_cons_self
    obtain ⟨m₁,called,pulled,here₁⟩ :=
      pull_cell_leaves (leaves cell List.mem_cons_self) row col stands (List.nodup_cons.mpr ⟨left,first⟩) here
    obtain ⟨m',called',pulled',here'⟩ := ih (fun other member => leaves other (List.mem_cons_of_mem cell member))
      (fun other member => within other (List.mem_cons_of_mem cell member)) (stands.again pulled.tree)
      (List.nodup_cons.mpr ⟨right,rest⟩) here₁
    refine ⟨m',?_,⟨?_,?_,?_⟩,?_⟩
    · rw [List.foldlM_cons,called]
      exact called'
    · rw [pulled'.tree,pulled.tree]
    · intro name other none_of
      rw [List.flatMap_cons,List.mem_append,not_or] at none_of
      rw [pulled'.frame name other none_of.2,pulled.frame name other (by rw [List.flatMap_singleton]; exact none_of.1)]
    · intro other member inner inside
      obtain rfl | member := List.mem_cons.mp member
      · have there := Shape.mem_widgets inside
        rw [← pulled.least other (List.mem_singleton.mpr rfl) inner inside]
        refine grid_least_congr (pulled'.frame inner.widget ?_ ?_)
        · exact fun same => left (same ▸ there)
        · exact fun again => apart inner.widget there inner.widget again rfl
      · exact pulled'.least other member inner inside
    · rw [List.foldl_cons]
      exact here'

/-- A grid is left with its least sizes if its cells are. -/
theorem grid_leaves {fuel : Nat} (leaves : ∀ i < node.row_num * node.col_num,
    Leaves contents (hwt_widget_pull_min_over contents fuel) (node.cells i)) :
    Leaves contents (hwt_widget_pull_min_over contents (fuel + 1)) node.shape := by
  intro m a_widget a_min stands distinct
  obtain ⟨rfl,widget,grid,found,data,rows,cols,_⟩ := id stands
  have within : ∀ cell ∈ places node.row_num node.col_num,cell.1 < node.row_num ∧ cell.2 < node.col_num :=
    fun cell => mem_places_iff.mp
  have each : ∀ cell ∈ places node.row_num node.col_num,
      Leaves contents (hwt_widget_pull_min_over contents fuel) (node.cell cell) := by
    intro cell member
    obtain ⟨row,col⟩ := within cell member
    exact leaves _ (by rw [Nat.mul_comm]; exact cell_lt row col)
  -- the rows and columns are set to zero in front of the loops
  have start := get_set_data found fun _ => Data.grid { grid with
    row_min := List.replicate grid.row_num 0
    col_min := List.replicate grid.col_num 0 }
  have same := tree_set_least found data (List.replicate grid.row_num 0) (List.replicate grid.col_num 0) grid.min
  obtain ⟨m₁,called,pulled,here⟩ := pull_loop_leaves each within (stands.again same)
    (by rw [flatMap_places Shape.widgets]; exact distinct) (grid_least_of start rfl)
  obtain ⟨_,widget₁,grid₁,found₁,data₁,_⟩ := stands.again (pulled.tree.trans same)
  rw [grid_least_of found₁ data₁] at here
  have minima : (grid₁.row_min,grid₁.col_min) = node.least contents := by
    rw [Node.least,least_of,← rows,← cols]
    rw [← rows,← cols] at here
    exact Except.ok.inj here
  refine ⟨set_data m₁ node.widget fun _ => .grid { grid₁ with min := total (node.least contents) },?_,?_,?_,?_⟩
  · rw [hwt_widget_pull_min_over,pull_min_over,found,ok_bind]
    simp only [data]
    rw [← rows,← cols] at called
    refine bind_ok_iff.mpr ⟨m₁,(foldlM_places _ _ _).trans called,bind_ok_iff.mpr ⟨grid₁,get_grid_of found₁ data₁,?_⟩⟩
    rw [show node.shape.least contents a_min = total (node.least contents) from rfl,← minima]
    rfl
  · exact (tree_set_least found₁ data₁ _ _ _).trans (pulled.tree.trans same)
  · intro name outside
    obtain ⟨apart,outside⟩ := List.ne_and_not_mem_of_not_mem_cons outside
    rw [← flatMap_places Shape.widgets] at outside
    rw [set_data,get_modify_other (Ne.symm apart),pulled.frame name apart outside,set_data,
      get_modify_other (Ne.symm apart)]
  · intro inner member
    obtain rfl | member := List.mem_cons.mp member
    · rw [grid_least_of (get_set_data found₁ _) rfl]
      exact congrArg Except.ok minima
    · have within' := member
      rw [← flatMap_places Shape.grids] at within'
      obtain ⟨cell,place,inside⟩ := List.mem_flatMap.mp within'
      have apart : node.widget ≠ inner.widget := by
        intro same
        refine (List.nodup_cons.mp distinct).1 ?_
        rw [← flatMap_places Shape.widgets,same]
        exact List.mem_flatMap.mpr ⟨cell,place,Shape.mem_widgets inside⟩
      rw [← pulled.least cell place inner inside]
      exact grid_least_congr (get_modify_other apart _ _)

/-- Every tree is left with its least sizes. -/
theorem leaves (contents : Contents F) : ∀ {shape : Shape F} {fuel},shape.height < fuel →
    Leaves contents (hwt_widget_pull_min_over contents fuel) shape := by
  intro shape
  induction shape with
  | empty =>
    rintro fuel enough m _ a_min rfl _
    obtain ⟨fuel,rfl⟩ := fuel_succ enough
    exact ⟨m,rfl,rfl,fun _ _ => rfl,fun _ member => absurd member List.not_mem_nil⟩
  | button name rect callback child ih =>
    rintro fuel enough m _ a_min ⟨rfl,widget,below,found,_,data,stands⟩ distinct
    obtain ⟨fuel,rfl⟩ := fuel_succ enough
    obtain ⟨m',called,pulled⟩ := ih (Nat.lt_of_succ_lt_succ enough) m below a_min stands (List.nodup_cons.mp distinct).2
    refine ⟨m',?_,pulled.tree,fun other outside => pulled.frame other fun member => outside (List.mem_cons_of_mem _ member),
      pulled.least⟩
    rw [hwt_widget_pull_min_over,pull_min_over,found,ok_bind]
    simp only [data]
    exact called
  | grid name row_num col_num cells ih =>
    intro fuel enough
    obtain ⟨fuel,rfl⟩ := fuel_succ enough
    exact @grid_leaves F _ _ _ _ contents ⟨name,row_num,col_num,cells⟩ fuel fun i inside =>
      ih i (Nat.lt_of_lt_of_le (height_cell inside) (Nat.le_of_lt_succ enough))
  | label name =>
    rintro fuel enough m _ a_min ⟨rfl,widget,text,found,data⟩ _
    obtain ⟨fuel,rfl⟩ := fuel_succ enough
    refine ⟨m,?_,rfl,fun _ _ => rfl,fun _ member => absurd member List.not_mem_nil⟩
    rw [hwt_widget_pull_min_over,pull_min_over,found,ok_bind]
    simp only [data]
    rfl
  | panel name child ih =>
    rintro fuel enough m _ a_min ⟨rfl,widget,below,found,data,stands⟩ distinct
    obtain ⟨fuel,rfl⟩ := fuel_succ enough
    obtain ⟨m',called,pulled⟩ := ih (Nat.lt_of_succ_lt_succ enough) m below a_min stands (List.nodup_cons.mp distinct).2
    refine ⟨m',?_,pulled.tree,fun other outside => pulled.frame other fun member => outside (List.mem_cons_of_mem _ member),
      pulled.least⟩
    rw [hwt_widget_pull_min_over,pull_min_over,found,ok_bind]
    simp only [data]
    exact called

/-- So is what is below the root of a context, with the fuel that there is. -/
theorem pull_root (owned : Owned m) (contents : Contents F) (a_min : HWTSize F) : ∃ shape : Shape F,shape.Stands m m.root ∧
    ∃ m',hwt_widget_pull_min_over contents (depth m) m m.root a_min = .ok (m',shape.least contents a_min) ∧
      shape.Pulled contents m m' := by
  obtain ⟨shape,stands,distinct,enough⟩ := shape_root owned
  exact ⟨shape,stands,leaves contents enough m m.root a_min stands distinct⟩

/-- Only the grids of a tree are written to. -/
theorem Shape.Pulled.elsewhere (pulled : shape.Pulled contents m m') (stands : shape.Stands m a_widget)
    (other : ∀ node ∈ shape.grids,node.widget ≠ name) : get m' name = get m name := by
  by_cases member : name ∈ shape.widgets
  · obtain ⟨widget,found,plain⟩ := found_other stands member other
    rw [found_plain pulled.tree found plain,found]
  · exact pulled.frame name member

/-- Where the sizes of the grids are the same, so are the grids. -/
theorem pulled_same {after : Memory F} (stands : shape.Stands m a_widget) (pulled : shape.Pulled contents m m')
    (pulled' : shape.Pulled contents' m after) (same : ∀ node ∈ shape.grids,node.least contents = node.least contents')
    (grid : Nat) : grid_least m' grid = grid_least after grid := by
  by_cases there : ∃ node ∈ shape.grids,node.widget = grid
  · obtain ⟨node,member,rfl⟩ := there
    rw [pulled.least node member,pulled'.least node member,same node member]
  · have other : ∀ node ∈ shape.grids,node.widget ≠ grid := fun node member is => there ⟨node,member,is⟩
    rw [grid_least_congr (pulled.elsewhere stands other),grid_least_congr (pulled'.elsewhere stands other)]

theorem node_least_congr
    (same : ∀ place ∈ places node.row_num node.col_num,node.sizes contents place = node.sizes contents' place) :
    node.least contents = node.least contents' := by
  refine List.foldl_ext _ _ _ fun least place there => ?_
  rw [widen,widen,same place there]

end

end Htools.Hwt
