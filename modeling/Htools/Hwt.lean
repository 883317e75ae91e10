import Htools.Machine
import Mathlib.Algebra.Group.Defs
import Mathlib.Logic.Function.Basic

/-!
# HWT widgets

A context of `hwt.c` with the four builtin types of widgets. Widgets are named
by the order of their creation. A child pointer of a widget and the root pointer
of the context are slots, which a widget can have a pointer back to. What has
been given to `free` is kept as a list of names, and to read it is a fault.
-/
namespace Htools.Hwt

/-- The files that have callbacks for a type of widget. -/
inductive Kind where
  | button
  | grid
  | label
  | panel
  deriving DecidableEq

/-- A registered type, which is known by the context that it was registered in. -/
structure HWTWidgetType where
  hwt : Nat
  callback : Kind
  deriving DecidableEq

/-- A `struct HWTWidget **` that is not in a variable of the caller. -/
inductive Slot where
  | root
  | child (a_widget i : Nat)
  deriving DecidableEq

structure HWTRect (F : Type) where
  x : F
  y : F
  width : F
  height : F

structure HWTSize (F : Type) where
  width : F
  height : F

structure Grid (F : Type) where
  row_num : Nat
  col_num : Nat
  row_min : List F
  col_min : List F
  min : HWTSize F
  child : List (Option Nat)

/-- What the type of a widget has behind it. The constructor tells the type, by
    which the callbacks are called. A callback of a button is a number. -/
inductive Data (F : Type) where
  | button (child callback : Option Nat)
  | grid (grid : Grid F)
  | label (text : Option (List UInt8))
  | panel (child : Option Nat)

structure HWTWidget (F : Type) where
  parent : Option Slot
  rect : HWTRect F
  data : Data F

/-- The root pointer of a context and its widgets, with the widgets whose `destroy`
    has run, those given to `free`, and the callbacks of buttons in the order of
    the calls. -/
structure Memory (F : Type) where
  root : Option Nat
  widgets : List (HWTWidget F)
  destroyed : List Nat
  released : List Nat
  called : List (Nat × Nat)

structure HWT (F : Type) where
  type_list : List HWTWidgetType
  memory : Memory F
  freed : Bool

/-- The variables `g_type` of the four files. -/
abbrev Types := Kind → Option HWTWidgetType

section
variable {F : Type}

/-! ### Memory -/

def Data.children : Data F → List (Option Nat)
  | .button child _ => [child]
  | .grid g => g.child
  | .label _ => []
  | .panel child => [child]

def Data.set_child (i : Nat) (child : Option Nat) : Data F → Data F
  | .button old callback => .button (if i = 0 then child else old) callback
  | .grid g => .grid { g with child := g.child.set i child }
  | .label text => .label text
  | .panel old => .panel (if i = 0 then child else old)

/-- What the calls of `FREE` in `destroy` leave. -/
def Data.dropped : Data F → Data F
  | .button child callback => .button child callback
  | .grid g => .grid { g with row_min := [], col_min := [], child := [] }
  | .label _ => .label none
  | .panel child => .panel child

/-- A widget that can still be used. -/
def Live (m : Memory F) (widget : Nat) : Prop :=
  widget < m.widgets.length ∧ widget ∉ m.destroyed

instance (m : Memory F) (widget : Nat) : Decidable (Live m widget) :=
  inferInstanceAs (Decidable (_ ∧ _))

def get (m : Memory F) (widget : Nat) : Except Stop (HWTWidget F) :=
  if widget ∈ m.released then .error .fault
  else
    match m.widgets[widget]? with
    | none => .error .fault
    | some a_widget => .ok a_widget

def modify (m : Memory F) (widget : Nat) (f : HWTWidget F → HWTWidget F) : Memory F :=
  { m with widgets := m.widgets.modify widget f }

def set_parent (m : Memory F) (widget : Nat) (parent : Option Slot) : Memory F :=
  modify m widget fun a_widget => { a_widget with parent := parent }

def set_data (m : Memory F) (widget : Nat) (f : Data F → Data F) : Memory F :=
  modify m widget fun a_widget => { a_widget with data := f a_widget.data }

/-- The end of a `destroy`, with the calls of `FREE`. -/
def drop (m : Memory F) (widget : Nat) : Memory F :=
  { set_data m widget Data.dropped with destroyed := m.destroyed ++ [widget] }

def put (m : Memory F) : Slot → Option Nat → Memory F
  | .root, value => { m with root := value }
  | .child widget i, value => set_data m widget (Data.set_child i value)

def load (m : Memory F) : Slot → Except Stop (Option Nat)
  | .root => .ok m.root
  | .child widget i => do
    let a_widget ← get m widget
    match a_widget.data.children[i]? with
    | none => .error .fault
    | some value => .ok value

def store (m : Memory F) (slot : Slot) (value : Option Nat) : Except Stop (Memory F) := do
  let _ ← load m slot
  .ok (put m slot value)

def release (m : Memory F) (widget : Nat) : Except Stop (Memory F) :=
  if widget ∈ m.released ∨ m.widgets.length ≤ widget then .error .fault
  else .ok { m with released := m.released ++ [widget] }

/-! ### `hwt.c` -/

/-- The slot is asked for a widget before the child is asked for being NULL. The
    variable of the caller that is set to NULL at the end is not one of the model. -/
def hwt_widget_assign (m : Memory F) (a_parent : Slot) (a_child : Option Nat) : Except Stop (Memory F) := do
  let held ← load m a_parent
  if held ≠ none then .error .abort
  else
    match a_child with
    | none => .ok m
    | some child => do
      let a_widget ← get m child
      if a_widget.parent ≠ none then .error .abort
      else do
        let m ← store m a_parent (some child)
        .ok (set_parent m child (some a_parent))

/-- Where the argument of `hwt_widget_free` points to: a slot, or a variable of
    the caller with its value. -/
inductive Handle where
  | slot (slot : Slot)
  | own (value : Option Nat)

def read (m : Memory F) : Handle → Except Stop (Option Nat)
  | .slot slot => load m slot
  | .own value => .ok value

/-- `FREE(*a_widget)`, which is given what is there after `destroy` has run. -/
def free_at (m : Memory F) : Handle → Except Stop (Memory F)
  | .slot slot => do
    match ← load m slot with
    | none => .ok m
    | some widget => release (put m slot none) widget
  | .own none => .ok m
  | .own (some widget) => release m widget

/-- The widget is taken out of the slot that it has recorded. -/
def detach (m : Memory F) (widget : Nat) : Except Stop (Memory F) := do
  let a_widget ← get m widget
  match a_widget.parent with
  | none => .ok m
  | some slot => do
    let m ← store m slot none
    .ok (set_parent m widget none)

/-- The loop of `destroy` in `grid.c` from the slot `i` on. -/
def destroy_loop (free : Memory F → Handle → Except Stop (Memory F)) (a_widget : Nat) :
    Nat → Nat → Memory F → Except Stop (Memory F)
  | 0, _, m => .ok m
  | left + 1, i, m => do
    let m ← free m (.slot (.child a_widget i))
    destroy_loop free a_widget left (i + 1) m

/-- The callbacks `destroy` of the four files, where `free` is `hwt_widget_free`. -/
def destroy (free : Memory F → Handle → Except Stop (Memory F)) (m : Memory F) (widget : Nat) : Except Stop (Memory F) := do
  let a_widget ← get m widget
  let m ← match a_widget.data with
    | .button _ _ => free m (.slot (.child widget 0))
    | .grid grid => destroy_loop free widget (grid.row_num * grid.col_num) 0 m
    | .label _ => .ok m
    | .panel _ => free m (.slot (.child widget 0))
  .ok (drop m widget)

/-- The fuel is for the depth of the calls. -/
def hwt_widget_free : Nat → Memory F → Handle → Except Stop (Memory F)
  | 0, _, _ => .error .fuel
  | fuel + 1, m, a_widget => do
    match ← read m a_widget with
    | none => .ok m
    | some widget => do
      let m ← detach m widget
      let m ← destroy (hwt_widget_free fuel) m widget
      free_at m a_widget

/-- More fuel than there are widgets, which is enough for any depth. -/
def depth (m : Memory F) : Nat := m.widgets.length + 1

def hwt_free (a_hwt : HWT F) : Except Stop (HWT F) := do
  let m ← hwt_widget_free (depth a_hwt.memory) a_hwt.memory (.slot .root)
  .ok { type_list := [], memory := m, freed := true }

def hwt_set_root (m : Memory F) (a_root : Option Nat) : Except Stop (Memory F) :=
  hwt_widget_assign m .root a_root

/-- `hwt_widget_register_` in the context `name`, with the variable that the
    type is kept in. -/
def hwt_widget_register_ (name : Nat) (callback : Kind) : HWT F × Types → HWT F × Types
  | (hwt,g_type) =>
    ({ hwt with type_list := hwt.type_list ++ [⟨name,callback⟩] },Function.update g_type callback (some ⟨name,callback⟩))

def hwt_button_setup_ (name : Nat) : HWT F × Types → HWT F × Types := hwt_widget_register_ name .button

def hwt_grid_setup_ (name : Nat) : HWT F × Types → HWT F × Types := hwt_widget_register_ name .grid

def hwt_label_setup_ (name : Nat) : HWT F × Types → HWT F × Types := hwt_widget_register_ name .label

def hwt_panel_setup_ (name : Nat) : HWT F × Types → HWT F × Types := hwt_widget_register_ name .panel

def hwt_create (name : Nat) (g_type : Types) : HWT F × Types :=
  let memory := { root := none, widgets := [], destroyed := [], released := [], called := [] }
  let state := ({ type_list := [], memory := memory, freed := false },g_type)
  hwt_panel_setup_ name (hwt_label_setup_ name (hwt_grid_setup_ name (hwt_button_setup_ name state)))

variable [Zero F]

/-- The private part after `memset`. -/
def Data.zero : Kind → Data F
  | .button => .button none none
  | .grid => .grid { row_num := 0, col_num := 0, row_min := [], col_min := [], min := ⟨0,0⟩, child := [] }
  | .label => .label none
  | .panel => .panel none

/-- A widget with a name of its own at the end. -/
def append (m : Memory F) (a_widget : HWTWidget F) : Memory F :=
  { m with widgets := m.widgets ++ [a_widget] }

/-- The new widget and the memory that it is in. -/
def hwt_widget_create (hwt : HWT F) (a_type : Option HWTWidgetType) : Except Stop (Nat × Memory F) :=
  match hwt.type_list.find? fun type => a_type = some type with
  | some type =>
    .ok (hwt.memory.widgets.length,
      append hwt.memory { parent := none, rect := ⟨0,0,0,0⟩, data := Data.zero type.callback })
  | none => .error .abort

/-! ### `button.c`, `grid.c`, `label.c` and `panel.c` -/

def hwt_button_create (g_type : Types) (a_hwt : HWT F) : Except Stop (Nat × Memory F) :=
  hwt_widget_create a_hwt (g_type .button)

def hwt_grid_create (g_type : Types) (a_hwt : HWT F) (a_row_num a_col_num : Nat) : Except Stop (Nat × Memory F) :=
  if a_row_num = 0 ∨ 1000 < a_row_num ∨ a_col_num = 0 ∨ 1000 < a_col_num then .error .abort
  else do
    let (widget,m) ← hwt_widget_create a_hwt (g_type .grid)
    .ok (widget,set_data m widget fun _ => .grid
      { row_num := a_row_num
        col_num := a_col_num
        row_min := List.replicate a_row_num 0
        col_min := List.replicate a_col_num 0
        min := ⟨0,0⟩
        child := List.replicate (a_row_num * a_col_num) none })

def hwt_label_create (g_type : Types) (a_hwt : HWT F) (a_text : List UInt8) : Except Stop (Nat × Memory F) := do
  let (widget,m) ← hwt_widget_create a_hwt (g_type .label)
  .ok (widget,set_data m widget fun _ => .label (some a_text))

def hwt_panel_create (g_type : Types) (a_hwt : HWT F) : Except Stop (Nat × Memory F) :=
  hwt_widget_create a_hwt (g_type .panel)

end

section
variable {F : Type}

def hwt_button_set_child (m : Memory F) (a_button : Nat) (a_child : Option Nat) : Except Stop (Memory F) := do
  let a_widget ← get m a_button
  match a_widget.data with
  | .button _ _ => hwt_widget_assign m (.child a_button 0) a_child
  | _ => .error .fault

def hwt_grid_set_child (m : Memory F) (a_grid a_row a_col : Nat) (a_child : Option Nat) : Except Stop (Memory F) := do
  let a_widget ← get m a_grid
  match a_widget.data with
  | .grid grid =>
    if grid.row_num ≤ a_row ∨ grid.col_num ≤ a_col then .error .abort
    else hwt_widget_assign m (.child a_grid (grid.col_num * a_row + a_col)) a_child
  | _ => .error .fault

def hwt_panel_set_child (m : Memory F) (a_panel : Nat) (a_child : Option Nat) : Except Stop (Memory F) := do
  let a_widget ← get m a_panel
  match a_widget.data with
  | .panel _ => hwt_widget_assign m (.child a_panel 0) a_child
  | _ => .error .fault

/-- The calls that create, assign and free widgets. -/
inductive Op where
  | button_create
  | grid_create (row_num col_num : Nat)
  | label_create (text : List UInt8)
  | panel_create
  | set_root (root : Option Nat)
  | button_set_child (button : Nat) (child : Option Nat)
  | grid_set_child (grid row col : Nat) (child : Option Nat)
  | panel_set_child (panel : Nat) (child : Option Nat)
  | widget_free (widget : Option Nat)

/-- The widgets that a call is made with. -/
def Op.widgets : Op → List Nat
  | .button_create | .grid_create _ _ | .label_create _ | .panel_create => []
  | .set_root root => root.toList
  | .button_set_child button child => button :: child.toList
  | .grid_set_child grid _ _ child => grid :: child.toList
  | .panel_set_child panel child => panel :: child.toList
  | .widget_free widget => widget.toList

def perform [Zero F] (g_type : Types) (hwt : HWT F) : Op → Except Stop (Memory F)
  | .button_create => Prod.snd <$> hwt_button_create g_type hwt
  | .grid_create row_num col_num => Prod.snd <$> hwt_grid_create g_type hwt row_num col_num
  | .label_create text => Prod.snd <$> hwt_label_create g_type hwt text
  | .panel_create => Prod.snd <$> hwt_panel_create g_type hwt
  | .set_root root => hwt_set_root hwt.memory root
  | .button_set_child button child => hwt_button_set_child hwt.memory button child
  | .grid_set_child grid row col child => hwt_grid_set_child hwt.memory grid row col child
  | .panel_set_child panel child => hwt_panel_set_child hwt.memory panel child
  | .widget_free widget => hwt_widget_free (depth hwt.memory) hwt.memory (.own widget)

/-- A call, which is one with live widgets only. -/
def step [Zero F] (g_type : Types) (hwt : HWT F) (op : Op) : Except Stop (HWT F) :=
  if ∀ widget ∈ op.widgets, Live hwt.memory widget then do
    let m ← perform g_type hwt op
    .ok { hwt with memory := m }
  else .error .fault

end

end Htools.Hwt
