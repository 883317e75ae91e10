import Htools.HwtEvents
import Htools.HwtFree
import Mathlib.Data.List.Nodup

/-!
Trees of widgets. `Shape` is what the pointers from a widget on make up, which is
said of the memory by `Shape.Stands`. The widgets below the root of a context have
a shape, in which each of them is once (`shape_root`).
-/
namespace Htools.Hwt
open Htools.Ownership

/-- The widgets below a pointer. The cells of a grid are counted row by row. -/
inductive Shape (F : Type) where
  | empty
  | button (widget : Nat) (rect : HWTRect F) (callback : Option Nat) (child : Shape F)
  | grid (widget row_num col_num : Nat) (cells : Nat → Shape F)
  | label (widget : Nat)
  | panel (widget : Nat) (child : Shape F)

section
variable {F : Type}

/-- The widgets behind a pointer are of a shape. -/
def Shape.Stands (m : Memory F) : Shape F → Option Nat → Prop
  | .empty,a_widget => a_widget = none
  | .button name rect callback child,a_widget => a_widget = some name ∧
      ∃ widget below,get m name = .ok widget ∧ widget.rect = rect ∧ widget.data = .button below callback ∧
        child.Stands m below
  | .grid name row_num col_num cells,a_widget => a_widget = some name ∧
      ∃ widget grid,get m name = .ok widget ∧ widget.data = .grid grid ∧ grid.row_num = row_num ∧ grid.col_num = col_num ∧
        ∀ i < row_num * col_num,∃ below,grid.child[i]? = some below ∧ (cells i).Stands m below
  | .label name,a_widget => a_widget = some name ∧ ∃ widget text,get m name = .ok widget ∧ widget.data = .label text
  | .panel name child,a_widget => a_widget = some name ∧
      ∃ widget below,get m name = .ok widget ∧ widget.data = .panel below ∧ child.Stands m below

/-- The depth of the calls. -/
def Shape.height : Shape F → Nat
  | .empty | .label _ => 0
  | .button _ _ _ child | .panel _ child => child.height + 1
  | .grid _ row_num col_num cells => (List.range (row_num * col_num)).foldr (fun i n => max (cells i).height n) 0 + 1

/-- The widgets in their order, each before those below it. -/
def Shape.widgets : Shape F → List Nat
  | .empty => []
  | .button widget _ _ child | .panel widget child => widget :: child.widgets
  | .grid widget row_num col_num cells => widget :: (List.range (row_num * col_num)).flatMap fun i => (cells i).widgets
  | .label widget => [widget]

theorem le_foldr_max {f : Nat → Nat} {l : List Nat} {i : Nat} (member : i ∈ l) :
    f i ≤ l.foldr (fun i n => max (f i) n) 0 := by
  induction l with
  | nil => cases member
  | cons j l ih =>
    rw [List.foldr_cons]
    obtain rfl | later := List.mem_cons.mp member
    · exact Nat.le_max_left _ _
    · exact Nat.le_trans (ih later) (Nat.le_max_right _ _)

/-- The cells of a grid are less deep. -/
theorem height_cell {cells : Nat → Shape F} {name row_num col_num i : Nat} (inside : i < row_num * col_num) :
    (cells i).height < (Shape.grid name row_num col_num cells).height :=
  Nat.lt_succ_of_le (@le_foldr_max (fun i => (cells i).height) _ _ (List.mem_range.mpr inside))

/-- Rows of cells as one row. -/
theorem flatMap_cells {α : Type} (f : Nat → List α) (rows cols : Nat) :
    ((List.range rows).flatMap fun row => (List.range cols).flatMap fun col => f (row * cols + col)) =
      (List.range (rows * cols)).flatMap f := by
  induction rows with
  | zero => simp
  | succ rows ih =>
    rw [List.range_succ,List.flatMap_append,ih,List.flatMap_singleton,Nat.succ_mul,List.range_add,List.flatMap_append,
      List.flatMap_map]

theorem fuel_succ {n fuel : Nat} (enough : n < fuel) : ∃ less,fuel = less + 1 :=
  Nat.exists_eq_succ_of_ne_zero (Nat.ne_of_gt (Nat.lt_of_le_of_lt (Nat.zero_le n) enough))

end

/-! ### Grids -/

/-- The cells of a grid in the order of the loops. -/
def places (row_num col_num : Nat) : List (Nat × Nat) :=
  (List.range row_num).flatMap fun row => (List.range col_num).map fun col => (row,col)

/-- The loops over the rows and the columns. -/
theorem foldlM_places {μ ε : Type} {f : μ → Nat × Nat → Except ε μ} (row_num col_num : Nat) (m : μ) :
    (List.range row_num).foldlM (fun m row => (List.range col_num).foldlM (fun m col => f m (row,col)) m) m =
      (places row_num col_num).foldlM f m := by
  rw [places,foldlM_flatMap]
  simp only [List.foldlM_map]

theorem mem_places_iff {row_num col_num : Nat} {cell : Nat × Nat} :
    cell ∈ places row_num col_num ↔ cell.1 < row_num ∧ cell.2 < col_num := by
  obtain ⟨row,col⟩ := cell
  simp [places]

/-- A grid of a tree. -/
structure Node (F : Type) where
  widget : Nat
  row_num : Nat
  col_num : Nat
  cells : Nat → Shape F

section
variable {F : Type}

def Node.shape (node : Node F) : Shape F := .grid node.widget node.row_num node.col_num node.cells

def Node.cell (node : Node F) (cell : Nat × Nat) : Shape F := node.cells (cell.1 * node.col_num + cell.2)

def Shape.grids : Shape F → List (Node F)
  | .empty | .label _ => []
  | .button _ _ _ child | .panel _ child => child.grids
  | .grid widget row_num col_num cells =>
    ⟨widget,row_num,col_num,cells⟩ :: (List.range (row_num * col_num)).flatMap fun i => (cells i).grids

variable {m : Memory F} {a_widget : Option Nat} {shape : Shape F} {node inner : Node F} {name : Nat}

/-- A grid of a tree is one of its widgets. -/
theorem Shape.mem_widgets {shape : Shape F} {node : Node F} (member : node ∈ shape.grids) :
    node.widget ∈ shape.widgets := by
  induction shape with
  | empty => cases member
  | button name rect callback child ih => exact List.mem_cons_of_mem _ (ih member)
  | grid name row_num col_num cells ih =>
    obtain rfl | member := List.mem_cons.mp member
    · exact List.mem_cons_self
    · obtain ⟨i,inside,member⟩ := List.mem_flatMap.mp member
      exact List.mem_cons_of_mem _ (List.mem_flatMap.mpr ⟨i,inside,ih i member⟩)
  | label name => cases member
  | panel name child ih => exact List.mem_cons_of_mem _ (ih member)

/-- No grid of an empty slot. -/
theorem grids_none (stands : shape.Stands m none) : shape.grids = [] := by
  cases shape with
  | empty => rfl
  | button name rect callback child => cases stands.1
  | grid name row_num col_num cells => cases stands.1
  | label name => rfl
  | panel name child => cases stands.1

theorem grids_trans {i : Nat} (member : node ∈ shape.grids) (inside : i < node.row_num * node.col_num)
    (below : inner ∈ (node.cells i).grids) : inner ∈ shape.grids := by
  induction shape with
  | empty => cases member
  | button name rect callback child ih => exact ih member
  | grid name row_num col_num cells ih =>
    refine List.mem_cons_of_mem _ ?_
    obtain rfl | member := List.mem_cons.mp member
    · exact List.mem_flatMap.mpr ⟨i,List.mem_range.mpr inside,below⟩
    · obtain ⟨j,there,member⟩ := List.mem_flatMap.mp member
      exact List.mem_flatMap.mpr ⟨j,there,ih j member⟩
  | label name => cases member
  | panel name child ih => exact ih member

/-- The part of a tree below a grid. -/
theorem nodup_node (distinct : shape.widgets.Nodup) (member : node ∈ shape.grids) : node.shape.widgets.Nodup := by
  induction shape with
  | empty => cases member
  | button name rect callback child ih => exact ih (List.nodup_cons.mp distinct).2 member
  | grid name row_num col_num cells ih =>
    obtain rfl | member := List.mem_cons.mp member
    · exact distinct
    · obtain ⟨i,inside,member⟩ := List.mem_flatMap.mp member
      exact ih i ((List.nodup_flatMap.mp (List.nodup_cons.mp distinct).2).1 i inside) member
  | label name => cases member
  | panel name child ih => exact ih (List.nodup_cons.mp distinct).2 member

/-- What there is in the cells of a grid. -/
theorem flatMap_places {α : Type} (f : Shape F → List α) (node : Node F) :
    ((places node.row_num node.col_num).flatMap fun cell => f (node.cell cell)) =
      (List.range (node.row_num * node.col_num)).flatMap fun i => f (node.cells i) := by
  rw [← flatMap_cells,places,List.flatMap_assoc]
  simp only [List.flatMap_map]
  rfl

theorem place_lt {place : Nat × Nat} (there : place ∈ places node.row_num node.col_num) :
    place.1 * node.col_num + place.2 < node.row_num * node.col_num := by
  obtain ⟨row,col⟩ := mem_places_iff.mp there
  rw [Nat.mul_comm]
  exact cell_lt row col

/-- The cell of a number. -/
theorem place_of {i : Nat} (inside : i < node.row_num * node.col_num) :
    ∃ place ∈ places node.row_num node.col_num,node.cell place = node.cells i := by
  have member : node.cells i ∈ (List.range (node.row_num * node.col_num)).flatMap fun i => [node.cells i] :=
    List.mem_flatMap.mpr ⟨i,List.mem_range.mpr inside,List.mem_singleton.mpr rfl⟩
  rw [← flatMap_places fun shape => [shape]] at member
  obtain ⟨place,there,same⟩ := List.mem_flatMap.mp member
  exact ⟨place,there,(List.mem_singleton.mp same).symm⟩

/-- The widgets of a tree that are not its grids. -/
theorem found_other (stands : shape.Stands m a_widget) (member : name ∈ shape.widgets)
    (other : ∀ node ∈ shape.grids,node.widget ≠ name) :
    ∃ widget,get m name = .ok widget ∧ ∀ grid,widget.data ≠ .grid grid := by
  induction shape generalizing a_widget with
  | empty => cases member
  | button own rect callback child ih =>
    obtain ⟨_,widget,below,found,_,data,stands⟩ := stands
    obtain rfl | member := List.mem_cons.mp member
    · exact ⟨widget,found,by simp [data]⟩
    · exact ih stands member other
  | grid own row_num col_num cells ih =>
    obtain ⟨_,widget,grid,_,_,_,_,slots⟩ := stands
    obtain rfl | member := List.mem_cons.mp member
    · exact absurd rfl (other _ List.mem_cons_self)
    · obtain ⟨i,inside,member⟩ := List.mem_flatMap.mp member
      obtain ⟨below,_,stands⟩ := slots i (List.mem_range.mp inside)
      exact ih i stands member fun node there => other node (List.mem_cons_of_mem _ (List.mem_flatMap.mpr ⟨i,inside,there⟩))
  | label own =>
    obtain ⟨_,widget,text,found,data⟩ := stands
    obtain rfl := List.mem_singleton.mp member
    exact ⟨widget,found,by simp [data]⟩
  | panel own child ih =>
    obtain ⟨_,widget,below,found,data,stands⟩ := stands
    obtain rfl | member := List.mem_cons.mp member
    · exact ⟨widget,found,by simp [data]⟩
    · exact ih stands member other

end

/-! ### Contexts -/

section
variable {F : Type} {m : Memory F} {way : List Slot} {slot : Slot} {widget : Nat}

theorem foldr_max_le {f : Nat → Nat} {l : List Nat} {n : Nat} (bound : ∀ i ∈ l,f i ≤ n) :
    l.foldr (fun i n => max (f i) n) 0 ≤ n := by
  induction l with
  | nil => exact Nat.zero_le n
  | cons i l ih =>
    rw [List.foldr_cons]
    exact Nat.max_le.mpr ⟨bound i List.mem_cons_self,ih fun j member => bound j (List.mem_cons_of_mem i member)⟩

/-- A way from the root is not longer than there are widgets. -/
theorem way_le (owned : Owned m) (path : Path (holds m) owner .root way widget) : way.length ≤ m.widgets.length := by
  have held : ∀ content ∈ way.map (holds m),content ∈ (List.range m.widgets.length).map some := by
    intro content member
    obtain ⟨slot,_,rfl⟩ := List.mem_map.mp member
    obtain ⟨child,here⟩ := Path.filled path slot ‹_›
    rw [here]
    exact List.mem_map.mpr ⟨child,List.mem_range.mpr (owned.content here).1,rfl⟩
  have short := (List.subperm_of_subset (path_nodup owned.linked rfl path) held).length_le
  rwa [List.length_map,List.length_map,List.length_range] at short

/-- A shape for what is in a slot, in which each widget is once. -/
structure Shape.Fills (shape : Shape F) (m : Memory F) (slot : Slot) (n : Nat) : Prop where
  stands : shape.Stands m (holds m slot)
  low : shape.height ≤ n
  once : shape.widgets.Nodup
  below : ∀ widget ∈ shape.widgets,Below (holds m) owner slot widget

/-- The widget of a button or a panel in front of what is below it. -/
theorem Shape.Fills.cons {shape : Shape F} {n i : Nat} (fills : shape.Fills m (.child widget i) n) (owned : Owned m)
    (path : Path (holds m) owner .root (slot :: way) widget) (here : holds m slot = some widget) :
    (widget :: shape.widgets).Nodup ∧ ∀ other ∈ widget :: shape.widgets,Below (holds m) owner slot other := by
  refine ⟨List.nodup_cons.mpr ⟨?_,fills.once⟩,?_⟩
  · intro member
    exact below_ne owned.linked rfl path rfl (fills.below widget member) rfl
  · intro other member
    obtain rfl | member := List.mem_cons.mp member
    · exact .held here
    · exact (Below.held here).trans rfl (fills.below other member)

/-- The widget of a grid in front of what is in its cells. -/
theorem nodup_cells (num : Nat) {cells : Nat → Shape F} {n : Nat} (fills : ∀ i,(cells i).Fills m (.child widget i) n)
    (owned : Owned m) (path : Path (holds m) owner .root (slot :: way) widget) (here : holds m slot = some widget) :
    (widget :: (List.range num).flatMap fun i => (cells i).widgets).Nodup ∧
      ∀ other ∈ widget :: (List.range num).flatMap fun i => (cells i).widgets,Below (holds m) owner slot other := by
  refine ⟨List.nodup_cons.mpr ⟨?_,List.nodup_flatMap.mpr ⟨fun i _ => (fills i).once,?_⟩⟩,?_⟩
  · intro member
    obtain ⟨i,_,member⟩ := List.mem_flatMap.mp member
    exact below_ne owned.linked rfl path rfl ((fills i).below widget member) rfl
  · refine List.nodup_range.pairwise_of_forall_ne fun i _ j _ apart other first second => apart ?_
    have same := below_unique owned.linked rfl path rfl rfl ((fills i).below other first) ((fills j).below other second)
    exact (Slot.child.inj same).2
  · intro other member
    obtain rfl | member := List.mem_cons.mp member
    · exact .held here
    · obtain ⟨i,_,member⟩ := List.mem_flatMap.mp member
      exact (Below.held here).trans rfl ((fills i).below other member)

/-- A widget has a shape if what is in its slots has one. -/
theorem shape_of_slots (owned : Owned m) (path : Path (holds m) owner .root (slot :: way) widget)
    (here : holds m slot = some widget) {n : Nat} (slots : ∀ i,∃ shape : Shape F,shape.Fills m (.child widget i) n) :
    ∃ shape : Shape F,shape.Fills m slot (n + 1) := by
  obtain ⟨a_widget,found,_,fits,same,_⟩ := get_total owned (owned.content here)
  have content : ∀ i,holds m (.child widget i) = a_widget.data.children[i]?.join := fun i => by rw [same]; rfl
  cases data : a_widget.data with
  | button child callback =>
    obtain ⟨shape,fills⟩ := slots 0
    obtain ⟨once,below⟩ := fills.cons owned path here
    refine ⟨.button widget a_widget.rect callback shape,?_,Nat.succ_le_succ fills.low,once,below⟩
    have stands := fills.stands
    rw [content,data] at stands
    rw [here]
    exact ⟨rfl,a_widget,child,found,rfl,data,stands⟩
  | grid grid =>
    choose cells fills using slots
    obtain ⟨once,below⟩ := nodup_cells (grid.row_num * grid.col_num) fills owned path here
    have low := foldr_max_le fun i (_ : i ∈ List.range (grid.row_num * grid.col_num)) => (fills i).low
    refine ⟨.grid widget grid.row_num grid.col_num cells,?_,Nat.succ_le_succ low,once,below⟩
    rw [here]
    refine ⟨rfl,a_widget,grid,found,data,rfl,rfl,fun i inside => ?_⟩
    have stands := (fills i).stands
    rw [data] at fits
    rw [content,data,Data.children,List.getElem?_eq_getElem (by rwa [fits])] at stands
    exact ⟨_,List.getElem?_eq_getElem _,stands⟩
  | label text =>
    refine ⟨.label widget,?_,Nat.zero_le _,List.nodup_cons.mpr ⟨List.not_mem_nil,List.nodup_nil⟩,?_⟩
    · rw [here]
      exact ⟨rfl,a_widget,text,found,data⟩
    · intro other member
      obtain rfl := List.mem_singleton.mp member
      exact .held here
  | panel child =>
    obtain ⟨shape,fills⟩ := slots 0
    obtain ⟨once,below⟩ := fills.cons owned path here
    refine ⟨.panel widget shape,?_,Nat.succ_le_succ fills.low,once,below⟩
    have stands := fills.stands
    rw [content,data] at stands
    rw [here]
    exact ⟨rfl,a_widget,child,found,data,stands⟩

/-- The way to a slot leaves only so many widgets to be below it. -/
theorem shape_at (owned : Owned m) (left : Nat) : ∀ {way slot},
    (∀ widget,holds m slot = some widget → Path (holds m) owner .root (slot :: way) widget) →
    m.widgets.length ≤ way.length + left → ∃ shape : Shape F,shape.Fills m slot left := by
  induction left with
  | zero =>
    intro way slot path enough
    cases here : holds m slot with
    | none => exact ⟨.empty,here,Nat.le_refl 0,List.nodup_nil,fun _ member => absurd member List.not_mem_nil⟩
    | some widget =>
      have short := way_le owned (path widget here)
      rw [List.length_cons] at short
      omega
  | succ left ih =>
    intro way slot path enough
    cases here : holds m slot with
    | none => exact ⟨.empty,here,Nat.zero_le _,List.nodup_nil,fun _ member => absurd member List.not_mem_nil⟩
    | some widget =>
      have above := path widget here
      refine shape_of_slots owned above here fun i => ih (fun child below => .under above rfl below) ?_
      rw [List.length_cons]
      omega

/-- What is below the root of a context is a tree, and its depth is in what the
    calls have fuel for. -/
theorem shape_root (owned : Owned m) :
    ∃ shape : Shape F,shape.Stands m m.root ∧ shape.widgets.Nodup ∧ shape.height < depth m := by
  obtain ⟨shape,fills⟩ := @shape_at F m owned m.widgets.length [] .root (fun _ here => .first here) (by simp)
  exact ⟨shape,fills.stands,fills.once,Nat.lt_succ_of_le fills.low⟩

end

end Htools.Hwt
