import Htools.Hwt

/-!
Events of a context. A new size asks the widgets for their least sizes and gives
them their rectangles, and the other events go through the widgets until one
breaks. The numbers are those of any type with the operations that are used. A
size that a callback has not set is `none`, and to read it is a fault.
-/
namespace Htools.Hwt

inductive HWTEventFlow where
  | HWT_BREAK
  | HWT_CONTINUE
  deriving DecidableEq

inductive HWTEvent (F : Type) where
  | expose (rect : HWTRect F)
  | pointer_down (x y : F) (code : Int)
  | pointer_move (x y : F) (code : Int)
  | pointer_up (x y : F) (code : Int)
  | resize (size : HWTSize F)

section
variable {F : Type}

/-- The private part of a grid, which a widget of another type does not have. -/
def get_grid (m : Memory F) (widget : Nat) : Except Stop (Grid F) := do
  let a_widget ← get m widget
  match a_widget.data with
  | .grid grid => .ok grid
  | _ => .error .fault

/-- The element `i` of an array. -/
def element {α : Type} (array : List α) (i : Nat) : Except Stop α :=
  match array[i]? with
  | none => .error .fault
  | some value => .ok value

section
variable [Zero F] [Add F] [LT F] [DecidableLT F]

def MAX (a b : F) : F := if a > b then a else b

/-! ### Least sizes -/

/-- The cell of a row and a column in the loops of `pull_min` in `grid.c`. -/
def pull_cell (pull : Memory F → Option Nat → Option (HWTSize F) → Except Stop (Memory F × Option (HWTSize F)))
    (a_widget row col : Nat) (m : Memory F) : Except Stop (Memory F) := do
  let grid ← get_grid m a_widget
  match ← element grid.child (row * grid.col_num + col) with
  | none => .ok m
  | some child => do
    match ← pull m (some child) none with
    | (_,none) => .error .fault
    | (m,some min) =>
      .ok (set_data m a_widget fun
        | .grid grid => .grid { grid with
            row_min := grid.row_min.modify row fun height => MAX height min.height
            col_min := grid.col_min.modify col fun width => MAX width min.width }
        | data => data)

/-- The callbacks `pull_min` of the four files. That of a label sets no size. -/
def pull_min (pull : Memory F → Option Nat → Option (HWTSize F) → Except Stop (Memory F × Option (HWTSize F)))
    (m : Memory F) (a_widget : Nat) (a_min : Option (HWTSize F)) : Except Stop (Memory F × Option (HWTSize F)) := do
  let widget ← get m a_widget
  match widget.data with
  | .button child _ => pull m child a_min
  | .grid grid => do
    let m := set_data m a_widget fun _ => .grid { grid with
      row_min := List.replicate grid.row_num 0
      col_min := List.replicate grid.col_num 0 }
    let m ← (List.range grid.row_num).foldlM (fun m row =>
      (List.range grid.col_num).foldlM (fun m col => pull_cell pull a_widget row col m) m) m
    let grid ← get_grid m a_widget
    let min : HWTSize F := { width := grid.col_min.foldl (· + ·) 0, height := grid.row_min.foldl (· + ·) 0 }
    .ok (set_data m a_widget fun _ => .grid { grid with min := min },some min)
  | .label _ => .ok (m,a_min)
  | .panel child => pull m child a_min

def hwt_widget_pull_min : Nat → Memory F → Option Nat → Option (HWTSize F) → Except Stop (Memory F × Option (HWTSize F))
  | 0, _, _, _ => .error .fuel
  | _ + 1, m, none, _ => .ok (m,some ⟨0,0⟩)
  | fuel + 1, m, some a_widget, a_min => pull_min (hwt_widget_pull_min fuel) m a_widget a_min

end

section
variable [Add F] [Sub F] [Div F] [NatCast F]

/-! ### Rectangles -/

/-- A row of the loops of `push_rect` in `grid.c`, from the rectangle before it on. -/
def push_row (push : Memory F → Option Nat → HWTRect F → Except Stop (Memory F)) (a_widget : Nat) (fill : HWTSize F)
    (row : Nat) (m : Memory F) (r : HWTRect F) : Except Stop (Memory F × HWTRect F) := do
  let grid ← get_grid m a_widget
  let least ← element grid.row_min row
  let widget ← get m a_widget
  let r := { r with height := least + fill.height, x := widget.rect.x }
  let (m,r) ← (List.range grid.col_num).foldlM (fun (m,r) col => do
    let grid ← get_grid m a_widget
    let least ← element grid.col_min col
    let r := { r with width := least + fill.width }
    let child ← element grid.child (row * grid.col_num + col)
    let m ← push m child r
    .ok (m,{ r with x := r.x + r.width })) (m,r)
  .ok (m,{ r with y := r.y + r.height })

/-- The callbacks `push_rect` of the four files. -/
def push_rect (push : Memory F → Option Nat → HWTRect F → Except Stop (Memory F)) (m : Memory F) (a_widget : Nat) :
    Except Stop (Memory F) := do
  let widget ← get m a_widget
  let rect := widget.rect
  match widget.data with
  | .button child _ => push m child rect
  | .grid grid => do
    let fill : HWTSize F :=
      { width := (rect.width - grid.min.width) / (grid.col_num : F)
        height := (rect.height - grid.min.height) / (grid.row_num : F) }
    let (m,_) ← (List.range grid.row_num).foldlM (fun (m,r) row => push_row push a_widget fill row m r) (m,rect)
    .ok m
  | .label _ => .ok m
  | .panel child => push m child rect

def hwt_widget_push_rect : Nat → Memory F → Option Nat → HWTRect F → Except Stop (Memory F)
  | 0, _, _, _ => .error .fuel
  | _ + 1, m, none, _ => .ok m
  | fuel + 1, m, some a_widget, a_rect => do
    let _ ← get m a_widget
    push_rect (hwt_widget_push_rect fuel) (modify m a_widget fun widget => { widget with rect := a_rect }) a_widget

end

section
variable [Add F] [LT F] [LE F] [DecidableLT F] [DecidableLE F]

/-! ### Responses -/

/-- A pointer with the code 0 has been let go inside of a rectangle. -/
def clicked (rect : HWTRect F) : HWTEvent F → Bool
  | .pointer_up x y code =>
    rect.x ≤ x ∧ rect.x + rect.width > x ∧ rect.y ≤ y ∧ rect.y + rect.height > y ∧ 0 = code
  | .expose _ | .pointer_down _ _ _ | .pointer_move _ _ _ | .resize _ => false

/-- The loop of `respond` in `grid.c` from the slot `i` on. -/
def respond_loop (respond : Memory F → Option Nat → HWTEvent F → Except Stop (Memory F × HWTEventFlow)) (a_widget : Nat)
    (a_event : HWTEvent F) : Nat → Nat → Memory F → Except Stop (Memory F × HWTEventFlow)
  | 0, _, m => .ok (m,.HWT_CONTINUE)
  | left + 1, i, m => do
    let grid ← get_grid m a_widget
    let child ← element grid.child i
    match ← respond m child a_event with
    | (m,.HWT_BREAK) => .ok (m,.HWT_BREAK)
    | (m,.HWT_CONTINUE) => respond_loop respond a_widget a_event left (i + 1) m

/-- The callbacks `respond` of the four files. -/
def respond (respond : Memory F → Option Nat → HWTEvent F → Except Stop (Memory F × HWTEventFlow)) (m : Memory F)
    (a_widget : Nat) (a_event : HWTEvent F) : Except Stop (Memory F × HWTEventFlow) := do
  let widget ← get m a_widget
  match widget.data with
  | .button child callback => do
    match ← respond m child a_event with
    | (m,.HWT_BREAK) => .ok (m,.HWT_BREAK)
    | (m,.HWT_CONTINUE) =>
      match callback with
      | none => .ok (m,.HWT_CONTINUE)
      | some callback =>
        if clicked widget.rect a_event then .ok ({ m with called := m.called ++ [(callback,a_widget)] },.HWT_BREAK)
        else .ok (m,.HWT_CONTINUE)
  | .grid grid => respond_loop respond a_widget a_event (grid.row_num * grid.col_num) 0 m
  | .label _ => .ok (m,.HWT_CONTINUE)
  | .panel child => respond m child a_event

def hwt_widget_respond : Nat → Memory F → Option Nat → HWTEvent F → Except Stop (Memory F × HWTEventFlow)
  | 0, _, _, _ => .error .fuel
  | _ + 1, m, none, _ => .ok (m,.HWT_CONTINUE)
  | fuel + 1, m, some a_widget, a_event => respond (hwt_widget_respond fuel) m a_widget a_event

end

variable [Zero F] [Add F] [Sub F] [Div F] [NatCast F] [LT F] [LE F] [DecidableLT F] [DecidableLE F]

def hwt_send_event (m : Memory F) : HWTEvent F → Except Stop (Memory F)
  | .resize size => do
    let (m,_) ← hwt_widget_pull_min (depth m) m m.root none
    hwt_widget_push_rect (depth m) m m.root { x := 0, y := 0, width := size.width, height := size.height }
  | a_event => Prod.fst <$> hwt_widget_respond (depth m) m m.root a_event

omit [Zero F] [Add F] [Sub F] [Div F] [NatCast F] [LT F] [LE F] [DecidableLT F] [DecidableLE F] in
def hwt_button_set_callback (m : Memory F) (a_button : Nat) (a_callback : Option Nat) : Except Stop (Memory F) := do
  let widget ← get m a_button
  match widget.data with
  | .button child _ => .ok (set_data m a_button fun _ => .button child a_callback)
  | _ => .error .fault

end

/-! ### Reads -/

section
variable {F : Type}

theorem get_modify (m : Memory F) (a_widget other : Nat) (f : HWTWidget F → HWTWidget F) :
    get (modify m a_widget f) other =
      get m other >>= fun widget => .ok (if a_widget = other then f widget else widget) := by
  unfold get modify
  by_cases gone : other ∈ m.released
  · rw [if_pos gone,if_pos gone]
    rfl
  · rw [if_neg gone,if_neg gone,List.getElem?_modify]
    cases m.widgets[other]? with
    | none => rfl
    | some widget => rfl

/-- The widget that is changed. -/
theorem get_modified {m : Memory F} {a_widget : Nat} {widget : HWTWidget F} (found : get m a_widget = .ok widget)
    (f : HWTWidget F → HWTWidget F) : get (modify m a_widget f) a_widget = .ok (f widget) := by
  rw [get_modify,found,ok_bind,if_pos rfl]

theorem get_set_data {m : Memory F} {a_widget : Nat} {widget : HWTWidget F} (found : get m a_widget = .ok widget)
    (f : Data F → Data F) : get (set_data m a_widget f) a_widget = .ok { widget with data := f widget.data } :=
  get_modified found _

/-- A widget that is left alone. -/
theorem get_modify_other {a_widget other : Nat} (apart : a_widget ≠ other) (m : Memory F) (f : HWTWidget F → HWTWidget F) :
    get (modify m a_widget f) other = get m other := by
  simp only [get_modify,if_neg apart]
  exact bind_pure _

theorem get_grid_of {m : Memory F} {a_widget : Nat} {widget : HWTWidget F} {grid : Grid F}
    (found : get m a_widget = .ok widget) (data : widget.data = .grid grid) : get_grid m a_widget = .ok grid := by
  obtain ⟨parent,rect,_⟩ := widget
  cases data
  unfold get_grid
  rw [found]
  rfl

end

end Htools.Hwt
