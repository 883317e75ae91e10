import Htools.HwtGrid
import Htools.HwtResize

/-!
The layout of a tree of widgets. A new size gives every widget the rectangle that
`Shape.layout` says and every grid its least sizes, and changes nothing else
(`resize_laid`), in every context that calls of the library and earlier sizes lead to
(`resize_lays_out`).
-/
namespace Htools.Hwt

open Finset (range)
open Htools.Ownership Htools.Runs

/-! ### The rectangles of a tree -/

theorem offer_map {F : Type} [Zero F] (shape : Shape F) (min : HWTSize F) :
    shape.offer min = (shape.offer ⟨0,0⟩).map fun _ => min := by
  cases shape <;> rfl

section
variable (contents : Contents ℚ)

/-- The least size of a cell by its number. -/
def Node.cell_least (node : Node ℚ) (i : Nat) : HWTSize ℚ :=
  (node.cells i).least contents (contents node.widget (i / node.col_num) (i % node.col_num))

/-- The grid with the numbers of its cells for the widgets that are in them. -/
def Node.numbered (node : Node ℚ) : Grid ℚ :=
  ⟨node.row_num,node.col_num,[],[],⟨0,0⟩,
    (List.range (node.row_num * node.col_num)).map fun i => ((node.cells i).offer ⟨0,0⟩).map fun _ => i⟩

/-- The grid once its least size has been pulled. -/
def Node.minima (node : Node ℚ) : Grid ℚ := Hwt.pulled (node.cell_least contents) node.numbered

/-- The widgets of a tree in their order, each with its rectangle. -/
def Shape.layout : Shape ℚ → HWTRect ℚ → List (Nat × HWTRect ℚ)
  | .empty,_ => []
  | .button name _ _ child,rect | .panel name child,rect => (name,rect) :: child.layout rect
  | .grid name row_num col_num cells,rect => (name,rect) :: (places row_num col_num).flatMap fun cell =>
    (cells (cell.1 * col_num + cell.2)).layout (cell_rect (Node.minima contents ⟨name,row_num,col_num,cells⟩) rect cell)
  | .label name,rect => [(name,rect)]

variable {contents} {node : Node ℚ}

theorem child_at_numbered {cell : Nat × Nat} (there : cell ∈ places node.row_num node.col_num) :
    child_at node.numbered cell = ((node.cell cell).offer ⟨0,0⟩).map fun _ => cell.1 * node.col_num + cell.2 := by
  rw [child_at,Node.numbered,List.getElem?_map,List.getElem?_range (place_lt there)]
  rfl

/-- The least size of a cell by its place. -/
theorem cell_least_eq {cell : Nat × Nat} (there : cell ∈ places node.row_num node.col_num) :
    node.cell_least contents (cell.1 * node.col_num + cell.2) =
      (node.cell cell).least contents (contents node.widget cell.1 cell.2) := by
  have col := (mem_places_iff.mp there).2
  have some_ : 0 < node.col_num := Nat.zero_lt_of_lt col
  rw [Node.cell_least,Nat.mul_comm cell.1,Nat.mul_add_div some_,Nat.div_eq_of_lt col,Nat.add_zero,Nat.mul_add_mod,
    Nat.mod_eq_of_lt col,Node.cell,Nat.mul_comm cell.1]

theorem sizes_eq {cell : Nat × Nat} (there : cell ∈ places node.row_num node.col_num) : node.sizes contents cell =
    ((node.cell cell).offer ⟨0,0⟩).map fun _ => node.cell_least contents (cell.1 * node.col_num + cell.2) := by
  rw [Node.sizes,offer_map,cell_least_eq there]

/-- The loops of `pull_min` leave the same for the numbers as for the widgets. -/
theorem widen_filled {l : List (Nat × Nat)} (within : ∀ cell ∈ l,cell ∈ places node.row_num node.col_num) :
    l.foldl (widen (node.sizes contents)) (List.replicate node.row_num 0,List.replicate node.col_num 0) =
      ((filled (node.cell_least contents) node.numbered l).row_min,
        (filled (node.cell_least contents) node.numbered l).col_min) := by
  induction l using List.reverseRecOn with
  | nil =>
    have zeros (key : Nat × Nat → Nat) (value : Nat × Nat → Option ℚ) (n : Nat) :
        List.replicate n (0 : ℚ) = (List.range n).map (greatest key value []) := by
      change _ = (List.range n).map fun _ => 0
      rw [List.map_const',List.length_range]
    exact Prod.ext (zeros _ _ _) (zeros _ _ _)
  | append_singleton l cell ih =>
    have there := within cell (List.mem_append_right _ (List.mem_singleton.mpr rfl))
    rw [List.foldl_append,ih fun other member => within other (List.mem_append_left _ member),List.foldl_cons,
      List.foldl_nil,widen,sizes_eq there]
    cases offered : (node.cell cell).offer ⟨0,0⟩ with
    | none =>
      have empty : child_at node.numbered cell = none := by rw [child_at_numbered there,offered]; rfl
      rw [filled_none empty]
      rfl
    | some _ =>
      have child_is : child_at node.numbered cell = some (cell.1 * node.col_num + cell.2) := by
        rw [child_at_numbered there,offered]
        rfl
      rw [filled_some child_is]
      rfl

theorem node_least_eq : node.least contents = ((node.minima contents).row_min,(node.minima contents).col_min) :=
  widen_filled fun _ there => there

theorem total_least : total (node.least contents) = (node.minima contents).min := by
  rw [node_least_eq,total]
  change HWTSize.mk (((List.range _).map _).foldl _ _) (((List.range _).map _).foldl _ _) = _
  rw [sum_of_list,sum_of_list]
  rfl

theorem layout_names (shape : Shape ℚ) (rect : HWTRect ℚ) : (shape.layout contents rect).map Prod.fst = shape.widgets := by
  induction shape generalizing rect with
  | empty => rfl
  | button name own callback child ih => exact congrArg (name :: ·) (ih rect)
  | grid name row_num col_num cells ih =>
    rw [Shape.layout,List.map_cons,List.map_flatMap,Shape.widgets,
      ← flatMap_places Shape.widgets ⟨name,row_num,col_num,cells⟩]
    simp only [ih]
    rfl
  | label name => rfl
  | panel name child ih => exact congrArg (name :: ·) (ih rect)

theorem mem_layout {shape : Shape ℚ} {rect : HWTRect ℚ} {p : Nat × HWTRect ℚ} (member : p ∈ shape.layout contents rect) :
    p.1 ∈ shape.widgets := by
  rw [← @layout_names contents shape rect]
  exact List.mem_map_of_mem member

end

/-! ### What a call for a rectangle needs -/

section
variable {F : Type} {m m' : Memory F} {name : Nat} {widget : HWTWidget F}

/-- What a memory has besides the rectangles and the parents. -/
def private_part (m : Memory F) (name : Nat) : Except Stop (Data F) := HWTWidget.data <$> get m name

theorem found_data (same : private_part m' = private_part m) (found : get m name = .ok widget) :
    ∃ other,get m' name = .ok other ∧ other.data = widget.data := by
  have here : private_part m name = .ok widget.data := map_ok_iff.mpr ⟨widget,found,rfl⟩
  rw [← same] at here
  exact map_ok_iff.mp here

theorem private_part_rect (rect : HWTRect F) :
    private_part (modify m name fun widget => { widget with rect := rect }) = private_part m := by
  funext other
  rw [private_part,private_part,get_modify]
  cases get m other with
  | error stop => rfl
  | ok widget =>
    refine congrArg Except.ok ?_
    show (if name = other then { widget with rect := rect } else widget).data = widget.data
    split <;> rfl

end

/-- The widgets behind a pointer are of a shape, and its grids have their least sizes. -/
def Shape.Ready (contents : Contents ℚ) (m : Memory ℚ) : Shape ℚ → Option Nat → Prop
  | .empty,a_widget => a_widget = none
  | .button name _ _ child,a_widget => a_widget = some name ∧
      ∃ widget below callback,get m name = .ok widget ∧ widget.data = .button below callback ∧ child.Ready contents m below
  | .grid name row_num col_num cells,a_widget => a_widget = some name ∧
      ∃ widget grid,get m name = .ok widget ∧ widget.data = .grid grid ∧ (Data.grid grid).Fits ∧
        grid = { Node.minima contents ⟨name,row_num,col_num,cells⟩ with child := grid.child } ∧
        ∀ i < row_num * col_num,∃ below,grid.child[i]? = some below ∧ (cells i).Ready contents m below
  | .label name,a_widget => a_widget = some name ∧ ∃ widget text,get m name = .ok widget ∧ widget.data = .label text
  | .panel name child,a_widget => a_widget = some name ∧
      ∃ widget below,get m name = .ok widget ∧ widget.data = .panel below ∧ child.Ready contents m below

section
variable {contents : Contents ℚ} {m m' : Memory ℚ} {shape : Shape ℚ} {a_widget : Option Nat}

theorem grid_eq {grid other : Grid ℚ} (row_num : grid.row_num = other.row_num) (col_num : grid.col_num = other.col_num)
    (row_min : grid.row_min = other.row_min) (col_min : grid.col_min = other.col_min) (min : grid.min = other.min) :
    grid = { other with child := grid.child } := by
  rw [← row_num,← col_num,← row_min,← col_min,← min]

theorem Shape.Ready.again (same : private_part m' = private_part m) : ∀ {shape : Shape ℚ} {a_widget},
    shape.Ready contents m a_widget → shape.Ready contents m' a_widget := by
  intro shape
  induction shape with
  | empty => exact fun ready => ready
  | button name rect callback child ih =>
    rintro _ ⟨rfl,widget,below,callback,found,data,ready⟩
    obtain ⟨other,found',data'⟩ := found_data same found
    exact ⟨rfl,other,below,callback,found',data'.trans data,ih ready⟩
  | grid name row_num col_num cells ih =>
    rintro _ ⟨rfl,widget,grid,found,data,fits,minima,slots⟩
    obtain ⟨other,found',data'⟩ := found_data same found
    refine ⟨rfl,other,grid,found',data'.trans data,fits,minima,fun i inside => ?_⟩
    obtain ⟨below,there,ready⟩ := slots i inside
    exact ⟨below,there,ih i ready⟩
  | label name =>
    rintro _ ⟨rfl,widget,text,found,data⟩
    obtain ⟨other,found',data'⟩ := found_data same found
    exact ⟨rfl,other,text,found',data'.trans data⟩
  | panel name child ih =>
    rintro _ ⟨rfl,widget,below,found,data,ready⟩
    obtain ⟨other,found',data'⟩ := found_data same found
    exact ⟨rfl,other,below,found',data'.trans data,ih ready⟩

/-- A tree that has been pulled is ready. -/
theorem ready_of : ∀ {shape : Shape ℚ} {a_widget},shape.Stands m a_widget →
    (∀ name ∈ shape.widgets,∀ widget,get m name = .ok widget → widget.data.Fits) →
    (∀ node ∈ shape.grids,grid_least m node.widget = .ok (node.least contents)) →
    (∀ node ∈ shape.grids,Settled m node.widget) → shape.Ready contents m a_widget := by
  intro shape
  induction shape with
  | empty => exact fun stands _ _ _ => stands
  | button name rect callback child ih =>
    rintro _ ⟨rfl,widget,below,found,_,data,stands⟩ fits least settled
    exact ⟨rfl,widget,below,callback,found,data,
      ih stands (fun other member => fits other (List.mem_cons_of_mem _ member)) least settled⟩
  | grid name row_num col_num cells ih =>
    rintro _ ⟨rfl,widget,grid,found,data,rfl,rfl,slots⟩ fits least settled
    have own := least _ List.mem_cons_self
    rw [grid_least_of found data,node_least_eq] at own
    obtain ⟨rows,cols⟩ := Prod.mk.inj (Except.ok.inj own)
    have min := settled _ List.mem_cons_self grid (get_grid_of found data)
    rw [rows,cols,← node_least_eq,total_least] at min
    have fit := fits name List.mem_cons_self widget found
    rw [data] at fit
    refine ⟨rfl,widget,grid,found,data,fit,?_,fun i inside => ?_⟩
    · exact grid_eq rfl rfl rows cols min
    · obtain ⟨below,there,stands⟩ := slots i inside
      have among {α : Type} {f : Nat → List α} {a : α} (member : a ∈ f i) :
          a ∈ (List.range (grid.row_num * grid.col_num)).flatMap f :=
        List.mem_flatMap.mpr ⟨i,List.mem_range.mpr inside,member⟩
      exact ⟨below,there,ih i stands (fun other member => fits other (List.mem_cons_of_mem _ (among member)))
        (fun node member => least node (List.mem_cons_of_mem _ (among member)))
        fun node member => settled node (List.mem_cons_of_mem _ (among member))⟩
  | label name =>
    rintro _ ⟨rfl,widget,text,found,data⟩ _ _ _
    exact ⟨rfl,widget,text,found,data⟩
  | panel name child ih =>
    rintro _ ⟨rfl,widget,below,found,data,stands⟩ fits least settled
    exact ⟨rfl,widget,below,found,data,
      ih stands (fun other member => fits other (List.mem_cons_of_mem _ member)) least settled⟩

end

/-! ### Calls for rectangles -/

/-- What some calls for rectangles leave: the widgets have theirs, and nothing else has changed. -/
structure Pushed (widgets : List (Nat × HWTRect ℚ)) (m m' : Memory ℚ) : Prop where
  data : private_part m' = private_part m
  frame : ∀ name,name ∉ widgets.map Prod.fst → get m' name = get m name
  rects : ∀ p ∈ widgets,∃ widget,get m p.1 = .ok widget ∧ get m' p.1 = .ok { widget with rect := p.2 }

section
variable {m m₁ m' : Memory ℚ} {front back : List (Nat × HWTRect ℚ)} {contents : Contents ℚ}

theorem Pushed.nil : Pushed [] m m := ⟨rfl,fun _ _ => rfl,fun _ member => absurd member List.not_mem_nil⟩

/-- Calls for widgets that are apart. -/
theorem Pushed.append (first : Pushed front m m₁) (second : Pushed back m₁ m')
    (apart : ((front ++ back).map Prod.fst).Nodup) : Pushed (front ++ back) m m' where
  data := second.data.trans first.data
  frame name outside := by
    rw [List.map_append,List.mem_append,not_or] at outside
    rw [second.frame name outside.2,first.frame name outside.1]
  rects p member := by
    rw [List.map_append] at apart
    have differ := (List.nodup_append.mp apart).2.2
    obtain member | member := List.mem_append.mp member
    · obtain ⟨widget,found,given⟩ := first.rects p member
      refine ⟨widget,found,?_⟩
      rw [second.frame p.1 fun again => differ p.1 (List.mem_map_of_mem member) p.1 again rfl,given]
    · obtain ⟨widget,found,given⟩ := second.rects p member
      refine ⟨widget,?_,given⟩
      rw [← first.frame p.1 fun again => differ p.1 again p.1 (List.mem_map_of_mem member) rfl,found]

/-- The widget itself. -/
theorem Pushed.own {name : Nat} {widget : HWTWidget ℚ} (found : get m name = .ok widget) (rect : HWTRect ℚ) :
    Pushed [(name,rect)] m (modify m name fun widget => { widget with rect := rect }) where
  data := private_part_rect rect
  frame other outside := get_modify_other (fun same => outside (by simp [same])) _ _
  rects p member := by
    obtain rfl := List.mem_singleton.mp member
    exact ⟨widget,found,get_modified found _⟩

end

section
variable {contents : Contents ℚ} {push : Memory ℚ → Option Nat → HWTRect ℚ → Except Stop (Memory ℚ)}

/-- A call for the rectangle of a tree. -/
def Lays (contents : Contents ℚ) (push : Memory ℚ → Option Nat → HWTRect ℚ → Except Stop (Memory ℚ))
    (shape : Shape ℚ) : Prop :=
  ∀ m a_widget rect,shape.Ready contents m a_widget → shape.widgets.Nodup →
    ∃ m',push m a_widget rect = .ok m' ∧ Pushed (shape.layout contents rect) m m'

/-- The cells one after the other. -/
theorem push_places {node : Node ℚ} {l : List (Nat × Nat)} (lays : ∀ cell ∈ l,Lays contents push (node.cell cell))
    {child : Nat × Nat → Option Nat} {rect : Nat × Nat → HWTRect ℚ} : ∀ {m : Memory ℚ},
    (∀ cell ∈ l,(node.cell cell).Ready contents m (child cell)) → (l.flatMap fun cell => (node.cell cell).widgets).Nodup →
    ∃ m',(l.map fun cell => (child cell,rect cell)).foldlM (fun m call => push m call.1 call.2) m = .ok m' ∧
      Pushed (l.flatMap fun cell => (node.cell cell).layout contents (rect cell)) m m' := by
  induction l with
  | nil => exact fun _ _ => ⟨_,rfl,.nil⟩
  | cons cell l ih =>
    intro m ready distinct
    have names : ((cell :: l).flatMap fun cell => (node.cell cell).layout contents (rect cell)).map Prod.fst =
        (cell :: l).flatMap fun cell => (node.cell cell).widgets := by
      simp only [List.map_flatMap,layout_names]
    obtain ⟨here,rest,_⟩ := List.nodup_append.mp (List.flatMap_cons ▸ distinct)
    obtain ⟨m₁,called,first⟩ := lays cell List.mem_cons_self m (child cell) (rect cell) (ready cell List.mem_cons_self) here
    obtain ⟨m',ran,second⟩ := ih (fun other member => lays other (List.mem_cons_of_mem cell member))
      (fun other member => (ready other (List.mem_cons_of_mem cell member)).again first.data) rest
    refine ⟨m',?_,first.append second ?_⟩
    · rw [List.map_cons,List.foldlM_cons,called]
      exact ran
    · change (((cell :: l).flatMap fun cell => (node.cell cell).layout contents (rect cell)).map Prod.fst).Nodup
      rw [names]
      exact distinct

/-- The grid gives its cells their rectangles if its cells are laid out. -/
theorem grid_lays {node : Node ℚ} {fuel : Nat} (each : ∀ i < node.row_num * node.col_num,
    Lays contents (hwt_widget_push_rect fuel) (node.cells i)) :
    Lays contents (hwt_widget_push_rect (fuel + 1)) node.shape := by
  rintro m _ rect ⟨rfl,widget,grid,found,data,fits,minima,slots⟩ distinct
  have rows : grid.row_num = node.row_num := congrArg Grid.row_num minima
  have cols : grid.col_num = node.col_num := congrArg Grid.col_num minima
  obtain ⟨outside,distinct'⟩ := List.nodup_cons.mp distinct
  have found₁ := get_modified found fun widget => { widget with rect := rect }
  have same₁ : private_part (modify m node.widget fun widget => { widget with rect := rect }) = private_part m :=
    private_part_rect rect
  have part : ∀ i < node.row_num * node.col_num,(node.cells i).widgets.Nodup ∧ node.widget ∉ (node.cells i).widgets := by
    intro i inside
    exact ⟨(List.nodup_flatMap.mp distinct').1 i (List.mem_range.mpr inside),fun member =>
      outside (List.mem_flatMap.mpr ⟨i,List.mem_range.mpr inside,member⟩)⟩
  have callbacks : Pushes node.widget grid.child (fun m' => private_part m' = private_part m)
      (hwt_widget_push_rect fuel) := by
    intro m₂ child r m₃ same there pushed
    obtain ⟨i,within,rfl⟩ := List.mem_iff_getElem.mp there
    have inside : i < node.row_num * node.col_num := by
      rw [← rows,← cols]
      exact Nat.lt_of_lt_of_eq within fits
    obtain ⟨below,slot,ready⟩ := slots i inside
    rw [List.getElem?_eq_getElem within] at slot
    obtain rfl := Option.some.inj slot
    obtain ⟨m₄,called,left⟩ := each i inside m₂ _ r (ready.again same) (part i inside).1
    rw [called] at pushed
    cases pushed
    exact ⟨left.data.trans same,left.frame _ (by rw [layout_names]; exact (part i inside).2)⟩
  have size (f : Nat → ℚ) (n : Nat) : ((List.range n).map f).length = n := by rw [List.length_map,List.length_range]
  have row_size : grid.row_min.length = grid.row_num := by
    rw [rows,congrArg Grid.row_min minima]
    exact size _ _
  have col_size : grid.col_min.length = grid.col_num := by
    rw [cols,congrArg Grid.col_min minima]
    exact size _ _
  have calls_ := push_rect_calls callbacks fits row_size col_size
    (⟨same₁,by rw [found₁,← data]⟩ : Keeps node.widget _ { widget with rect := rect } grid _)
  have rects : cell_rect grid = cell_rect (node.minima contents) := by
    conv_lhs => rw [minima]
    rfl
  have ready : ∀ cell ∈ places node.row_num node.col_num,(node.cell cell).Ready contents
      (modify m node.widget fun widget => { widget with rect := rect }) (child_at grid cell) := by
    intro cell there
    obtain ⟨below,slot,ready⟩ := slots _ (place_lt there)
    rw [child_at,cols,slot]
    exact ready.again same₁
  obtain ⟨m',ran,left⟩ := @push_places contents _ node _ (fun cell there => each _ (place_lt there)) (child_at grid)
    (cell_rect grid rect) _ ready (by rw [flatMap_places Shape.widgets]; exact distinct')
  refine ⟨m',?_,?_⟩
  · rw [hwt_widget_push_rect,found,ok_bind,calls_]
    rw [← rows,← cols] at ran
    exact ran
  · rw [rects] at left
    refine (Pushed.own found rect).append left ?_
    have names := @layout_names contents node.shape rect
    rw [← names] at distinct
    exact distinct

/-- Every tree is laid out. -/
theorem lays (contents : Contents ℚ) : ∀ {shape : Shape ℚ} {fuel},shape.height < fuel →
    Lays contents (hwt_widget_push_rect fuel) shape := by
  intro shape
  induction shape with
  | empty =>
    rintro fuel enough m _ rect rfl _
    obtain ⟨fuel,rfl⟩ := fuel_succ enough
    exact ⟨m,rfl,.nil⟩
  | button name own callback child ih =>
    rintro fuel enough m _ rect ⟨rfl,widget,below,_,found,data,ready⟩ distinct
    obtain ⟨fuel,rfl⟩ := fuel_succ enough
    obtain ⟨m',called,left⟩ := ih (Nat.lt_of_succ_lt_succ enough) _ below rect (ready.again (private_part_rect rect))
      (List.nodup_cons.mp distinct).2
    refine ⟨m',?_,(Pushed.own found rect).append left ?_⟩
    · rw [hwt_widget_push_rect,found,ok_bind,push_rect,get_modified found,ok_bind]
      simp only [data]
      exact called
    · rw [List.map_append,layout_names]
      exact distinct
  | grid name row_num col_num cells ih =>
    intro fuel enough
    obtain ⟨fuel,rfl⟩ := fuel_succ enough
    exact @grid_lays contents ⟨name,row_num,col_num,cells⟩ fuel fun i inside =>
      ih i (Nat.lt_of_lt_of_le (height_cell inside) (Nat.le_of_lt_succ enough))
  | label name =>
    rintro fuel enough m _ rect ⟨rfl,widget,text,found,data⟩ _
    obtain ⟨fuel,rfl⟩ := fuel_succ enough
    refine ⟨_,?_,Pushed.own found rect⟩
    rw [hwt_widget_push_rect,found,ok_bind,push_rect,get_modified found,ok_bind]
    simp only [data]
  | panel name child ih =>
    rintro fuel enough m _ rect ⟨rfl,widget,below,found,data,ready⟩ distinct
    obtain ⟨fuel,rfl⟩ := fuel_succ enough
    obtain ⟨m',called,left⟩ := ih (Nat.lt_of_succ_lt_succ enough) _ below rect (ready.again (private_part_rect rect))
      (List.nodup_cons.mp distinct).2
    refine ⟨m',?_,(Pushed.own found rect).append left ?_⟩
    · rw [hwt_widget_push_rect,found,ok_bind,push_rect,get_modified found,ok_bind]
      simp only [data]
      exact called
    · rw [List.map_append,layout_names]
      exact distinct

end

/-! ### A new size -/

/-- What a new size leaves of a tree: its layout, and least sizes of its grids. -/
structure Shape.Laid (contents : Contents ℚ) (shape : Shape ℚ) (rect : HWTRect ℚ) (m m' : Memory ℚ) : Prop where
  alike : Alike m m'
  frame : ∀ name,name ∉ shape.widgets → get m' name = get m name
  rects : ∀ p ∈ shape.layout contents rect,∃ widget widget',get m p.1 = .ok widget ∧ get m' p.1 = .ok widget' ∧
    widget'.bare = { widget.bare with rect := p.2 }
  least : ∀ node ∈ shape.grids,grid_least m' node.widget = .ok (node.least contents)

section
variable {contents : Contents ℚ} {m m₁ m' : Memory ℚ} {shape : Shape ℚ} {a_widget : Option Nat} {rect : HWTRect ℚ}

theorem least_pushed {name : Nat} {least : List ℚ × List ℚ} (same : private_part m' = private_part m)
    (here : grid_least m name = .ok least) : grid_least m' name = .ok least := by
  obtain ⟨grid,there,is⟩ := bind_ok_iff.mp here
  obtain ⟨widget,found,data⟩ := get_grid_ok there
  obtain ⟨other,found',data'⟩ := found_data same found
  rw [grid_least_of found' (data'.trans data)]
  exact is

/-- The two calls after one another. -/
theorem Shape.Laid.of_calls (kept : Kept none m m₁) (pulled : shape.Pulled contents m m₁) (alike : Alike m₁ m')
    (pushed : Pushed (shape.layout contents rect) m₁ m') : shape.Laid contents rect m m' where
  alike := kept.alike.trans alike
  frame name outside := (pushed.frame name (by rwa [layout_names])).trans (pulled.frame name outside)
  rects p member := by
    obtain ⟨widget₁,found₁,given⟩ := pushed.rects p member
    obtain ⟨widget,found,bare⟩ := found_again kept.tree.symm found₁
    refine ⟨widget,_,found,given,?_⟩
    rw [bare]
    rfl
  least node member := least_pushed pushed.data (pulled.least node member)

/-- A new size of a window of a context. -/
theorem resize_laid (owned : Owned m) (contents : Contents ℚ) (min size : HWTSize ℚ) : ∃ shape : Shape ℚ,
    shape.Stands m m.root ∧ shape.widgets.Nodup ∧ shape.height < depth m ∧ ∃ m',resize_over contents min m size = .ok m' ∧
      shape.Laid contents ⟨0,0,size.width,size.height⟩ m m' := by
  obtain ⟨shape,fills⟩ := @shape_at ℚ m owned m.widgets.length [] .root (fun _ here => .first here) (by simp)
  have enough : shape.height < depth m := Nat.lt_succ_of_le fills.low
  obtain ⟨m₁,ran,pulled⟩ := leaves contents enough m m.root min fills.stands fills.once
  have kept := pull_kept contents ran
  have stands₁ : shape.Stands m₁ m₁.root := by
    rw [kept.root]
    exact fills.stands.again kept.tree
  have fits : ∀ name ∈ shape.widgets,∀ widget,get m₁ name = .ok widget → widget.data.Fits := by
    intro name member widget found
    obtain ⟨slot,here⟩ := (fills.below name member).slot
    refine (owned.alike kept.alike).fits (get_found found) ?_
    rw [kept.destroyed]
    exact (owned.content here).2
  have ready := ready_of stands₁ fits pulled.least (pull_settles contents fills.stands ran)
  obtain ⟨m',called,left⟩ :=
    lays contents (kept.alike.depth ▸ enough) m₁ m₁.root ⟨0,0,size.width,size.height⟩ ready fills.once
  exact ⟨shape,fills.stands,fills.once,enough,m',bind_ok_iff.mpr ⟨_,ran,called⟩,
    .of_calls kept pulled (push_alike called) left⟩

end

section
variable {g_type : Types} {hwt : HWT ℚ} {name : Nat} {old : Types}

/-- A new size lays the tree out whatever has been done to the context, and the event
    does so where it returns. -/
theorem resize_lays_out {acts : List (Act ℚ)} (reached : Reached (act g_type) (hwt_create (F := ℚ) name old).1 acts hwt)
    (contents : Contents ℚ) (min size : HWTSize ℚ) : ∃ shape : Shape ℚ,shape.Stands hwt.memory hwt.memory.root ∧
      shape.widgets.Nodup ∧ (shape.layout contents ⟨0,0,size.width,size.height⟩).map Prod.fst = shape.widgets ∧
      ∃ m',resize_over contents min hwt.memory size = .ok m' ∧
        shape.Laid contents ⟨0,0,size.width,size.height⟩ hwt.memory m' ∧
        ∀ after,hwt_send_event hwt.memory (.resize size) = .ok after → after = m' := by
  obtain ⟨shape,stands,distinct,_,m',ran,laid⟩ := resize_laid (acts_owned reached) contents min size
  refine ⟨shape,stands,distinct,layout_names shape _,m',ran,laid,fun after sent => ?_⟩
  have again := resize_over_of contents min sent
  rw [ran] at again
  exact (Except.ok.inj again).symm

/-- A label and a button in a row. -/
def row_acts : List (Act ℚ) :=
  [.operation (.grid_create 1 2),.operation (.label_create []),.operation .button_create,.set_callback 2 (some 7),
    .operation (.grid_set_child 0 0 0 (some 1)),.operation (.grid_set_child 0 0 1 (some 2)),.operation (.set_root (some 0))]

def row : Memory ℚ :=
  { root := some 0
    widgets := [⟨some .root,⟨0,0,0,0⟩,.grid ⟨1,2,[0],[0,0],⟨0,0⟩,[some 1,some 2]⟩⟩,
      ⟨some (.child 0 0),⟨0,0,0,0⟩,.label (some [])⟩,⟨some (.child 0 1),⟨0,0,0,0⟩,.button none (some 7)⟩]
    destroyed := []
    released := []
    called := [] }

theorem row_reached : Reached (act (hwt_create (F := ℚ) 0 fun _ => none).2) (hwt_create (F := ℚ) 0 fun _ => none).1 row_acts
    { (hwt_create (F := ℚ) 0 fun _ => none).1 with memory := row } :=
  ⟨row_acts,[],(List.append_nil _).symm,rfl⟩

theorem resize_lays_out_row : ∃ shape : Shape ℚ,shape.Stands row (some 0) ∧ shape.widgets.Nodup ∧
    (shape.layout (fun _ _ _ => ⟨10,0⟩) ⟨0,0,40,20⟩).map Prod.fst = shape.widgets ∧
    ∃ m',resize_over (fun _ _ _ => ⟨10,0⟩) ⟨0,0⟩ row ⟨40,20⟩ = .ok m' ∧
      shape.Laid (fun _ _ _ => ⟨10,0⟩) ⟨0,0,40,20⟩ row m' ∧
      ∀ after,hwt_send_event row (.resize ⟨40,20⟩) = .ok after → after = m' :=
  resize_lays_out row_reached (fun _ _ _ => ⟨10,0⟩) ⟨0,0⟩ ⟨40,20⟩

end

end Htools.Hwt
