import Htools.HwtPull
import Htools.HwtRespond

/-!
New sizes of a window. A call for least sizes and one for rectangles change nothing
else of a tree of widgets, so that it stays one through a run of the library's calls
and events (`acts_owned`), and the first call leaves each grid with a least size that
is that of its rows and columns (`pull_settles`).
-/
namespace Htools.Hwt

open Htools.Runs (Reached reached_keeps)

/-! ### A resize -/

section
variable {F : Type} [Zero F] [Add F] [Sub F] [Div F] [NatCast F] [LT F] [LE F] [DecidableLT F] [DecidableLE F]

omit [LE F] [DecidableLE F] in
/-- The branch of `hwt_send_event` for a new size, where variables have contents. -/
def resize_over (contents : Contents F) (min : HWTSize F) (m : Memory F) (size : HWTSize F) : Except Stop (Memory F) := do
  let (m,_) ← hwt_widget_pull_min_over contents (depth m) m m.root min
  hwt_widget_push_rect (depth m) m m.root { x := 0, y := 0, width := size.width, height := size.height }

/-- An event that reads no variable before it is set is one for any contents. -/
theorem resize_over_of (contents : Contents F) (min : HWTSize F) {m m' : Memory F} {size : HWTSize F}
    (run : hwt_send_event m (.resize size) = .ok m') : resize_over contents min m size = .ok m' := by
  obtain ⟨⟨m₁,r⟩,pulled,pushed⟩ := bind_ok_iff.mp run
  exact bind_ok_iff.mpr ⟨_,hwt_widget_pull_min_over_of contents min pulled,pushed⟩

end

/-! ### Least sizes that belong together -/

section
variable {F : Type} [Zero F] [Add F] {m m' : Memory F} {name : Nat} {widget : HWTWidget F} {grid : Grid F}

omit [Zero F] [Add F] in
theorem get_found (found : get m name = .ok widget) : m.widgets[name]? = some widget := by
  rw [get] at found
  split at found
  · cases found
  · cases here : m.widgets[name]? with
    | none => rw [here] at found; cases found
    | some other =>
      rw [here] at found
      exact congrArg some (Except.ok.inj found)

omit [Zero F] [Add F] in
/-- A widget that is changed in what does not count. -/
theorem map_modified {α : Type} {view : HWTWidget F → α} {f : HWTWidget F → HWTWidget F} (found : get m name = .ok widget)
    (alike : view (f widget) = view widget) : (modify m name f).widgets.map view = m.widgets.map view := by
  apply List.ext_getElem?
  intro i
  rw [List.getElem?_map,List.getElem?_map,modify,List.getElem?_modify]
  by_cases same : name = i
  · subst same
    simpa [get_found found] using alike
  · simp [same]

/-- The least size of a grid is that of its rows and columns. -/
def Settled (m : Memory F) (name : Nat) : Prop :=
  ∀ grid,get_grid m name = .ok grid → grid.min = total (grid.row_min,grid.col_min)

/-- What a call for least sizes leaves as it is. The grid `own` is on the way. -/
structure Kept (own : Option Nat) (m m' : Memory F) : Prop where
  root : m'.root = m.root
  destroyed : m'.destroyed = m.destroyed
  released : m'.released = m.released
  widgets : m'.widgets.map HWTWidget.bare = m.widgets.map HWTWidget.bare
  settled : ∀ name,some name ≠ own → Settled m name → Settled m' name

variable {own : Option Nat}

theorem Kept.refl : Kept own m m := ⟨rfl,rfl,rfl,rfl,fun _ _ settled => settled⟩

theorem Kept.trans {later : Memory F} (first : Kept own m m') (second : Kept own m' later) : Kept own m later :=
  ⟨second.root.trans first.root,second.destroyed.trans first.destroyed,second.released.trans first.released,
    second.widgets.trans first.widgets,
    fun name other settled => second.settled name other (first.settled name other settled)⟩

theorem Kept.weaken (kept : Kept none m m') : Kept own m m' :=
  ⟨kept.root,kept.destroyed,kept.released,kept.widgets,fun name _ => kept.settled name (by simp)⟩

theorem Kept.tree (kept : Kept own m m') : tree m' = tree m := by
  funext name
  have here := congrArg (·[name]?) kept.widgets
  simp only [List.getElem?_map] at here
  rw [Hwt.tree,Hwt.tree,get,get,kept.released]
  split
  · rfl
  · cases first : m.widgets[name]? <;> cases second : m'.widgets[name]? <;> rw [first,second] at here
    · cases here
    · cases here
    · exact congrArg Except.ok (Option.some.inj here)

omit [Zero F] [Add F] in
theorem get_grid_ok (ok : get_grid m name = .ok grid) : ∃ widget,get m name = .ok widget ∧ widget.data = .grid grid := by
  obtain ⟨widget,found,read⟩ := bind_ok_iff.mp ok
  refine ⟨widget,found,?_⟩
  cases data : widget.data with
  | grid other =>
    simp only [data] at read
    rw [Except.ok.inj read]
  | button child callback => simp [data] at read
  | label text => simp [data] at read
  | panel child => simp [data] at read

/-- New least sizes of a grid on the way. -/
theorem Kept.set_data {f : Data F → Data F} (found : get m name = .ok widget)
    (alike : HWTWidget.bare { widget with data := f widget.data } = widget.bare) :
    Kept (some name) m (set_data m name f) where
  root := rfl
  destroyed := rfl
  released := rfl
  widgets := map_modified found alike
  settled other apart settled grid ok := by
    refine settled grid ?_
    rw [get_grid,Hwt.set_data,get_modify_other fun same => apart (congrArg some same.symm)] at ok
    exact ok

end

section
variable {F : Type} [Zero F] [Add F] [LT F] [DecidableLT F] {m m' : Memory F} {contents : Contents F} {shape : Shape F}

/-- The cell of a row and a column, given what the calls for the children keep. -/
theorem pull_cell_kept {pull : Memory F → Option Nat → HWTSize F → Except Stop (Memory F × HWTSize F)} {min : HWTSize F}
    {name row col : Nat} (keeps : ∀ {m m' child a_min least},pull m child a_min = .ok (m',least) → Kept none m m')
    (run : pull_cell_over pull min name row col m = .ok m') : Kept (some name) m m' := by
  obtain ⟨grid,ok,run⟩ := bind_ok_iff.mp run
  obtain ⟨below,_,run⟩ := bind_ok_iff.mp run
  cases below with
  | none =>
    cases run
    exact .refl
  | some child =>
    obtain ⟨⟨m₁,least⟩,called,run⟩ := bind_ok_iff.mp run
    cases run
    have kept := keeps called
    obtain ⟨widget,found,data⟩ := get_grid_ok ok
    obtain ⟨other,grid',found',data',_⟩ := found_grid kept.tree found data
    exact kept.weaken.trans (.set_data found' (by simp only [HWTWidget.bare,data']))

/-- By induction on the fuel, over all memories. -/
theorem pull_kept (contents : Contents F) {fuel : Nat} :
    ∀ {m m' : Memory F} {a_widget : Option Nat} {a_min least : HWTSize F},
    hwt_widget_pull_min_over contents fuel m a_widget a_min = .ok (m',least) → Kept none m m' := by
  induction fuel with
  | zero =>
    intro m m' a_widget a_min least run
    cases run
  | succ fuel ih =>
    intro m m' a_widget a_min least run
    cases a_widget with
    | none =>
      cases run
      exact .refl
    | some name =>
      rw [hwt_widget_pull_min_over] at run
      obtain ⟨widget,found,run⟩ := bind_ok_iff.mp run
      cases data : widget.data with
      | button child callback =>
        simp only [data] at run
        exact ih run
      | label text =>
        simp only [data] at run
        cases run
        exact .refl
      | panel child =>
        simp only [data] at run
        exact ih run
      | grid grid =>
        simp only [data] at run
        obtain ⟨m₁,loops,run⟩ := bind_ok_iff.mp run
        obtain ⟨last,left,run⟩ := bind_ok_iff.mp run
        cases run
        have first : Kept (some name) m (set_data m name fun _ => .grid { grid with
            row_min := List.replicate grid.row_num 0
            col_min := List.replicate grid.col_num 0 }) := .set_data found (by simp only [HWTWidget.bare,data])
        have second : Kept (some name) m m₁ :=
          foldlM_keeps (fun m₂ row _ m₃ kept ran => foldlM_keeps (fun m₄ col _ m₅ kept ran =>
            kept.trans (pull_cell_kept ih ran)) kept ran) first loops
        obtain ⟨widget₁,found₁,data₁⟩ := get_grid_ok left
        have third := second.trans (.set_data (f := fun _ => .grid { last with
          min := { width := last.col_min.foldl (· + ·) 0, height := last.row_min.foldl (· + ·) 0 } }) found₁
          (by simp only [HWTWidget.bare,data₁]))
        refine ⟨third.root,third.destroyed,third.released,third.widgets,fun other _ settled => ?_⟩
        by_cases same : other = name
        · subst same
          intro grid' ok
          rw [get_grid_of (get_set_data found₁ _) rfl] at ok
          cases ok
          rfl
        · exact third.settled other (fun is => same (Option.some.inj is)) settled

/-- The cells of a grid one after the other; what is settled stays so. -/
theorem loop_settles {pull : Memory F → Option Nat → HWTSize F → Except Stop (Memory F × HWTSize F)} {node : Node F}
    {l : List (Nat × Nat)} (keeps : ∀ {m m' child a_min least},pull m child a_min = .ok (m',least) → Kept none m m')
    (settles : ∀ cell ∈ l,∀ {m m' child a_min least},(node.cell cell).Stands m child → pull m child a_min = .ok (m',least) →
      ∀ inner ∈ (node.cell cell).grids,Settled m' inner.widget)
    (within : ∀ cell ∈ l,cell.1 < node.row_num ∧ cell.2 < node.col_num) : ∀ {m m'},node.shape.Stands m (some node.widget) →
    l.foldlM (fun m cell => pull_cell_over pull (contents node.widget cell.1 cell.2) node.widget cell.1 cell.2 m) m =
      .ok m' →
    Kept (some node.widget) m m' ∧
      ∀ cell ∈ l,∀ inner ∈ (node.cell cell).grids,inner.widget ≠ node.widget → Settled m' inner.widget := by
  induction l with
  | nil =>
    intro m m' _ run
    cases run
    exact ⟨.refl,fun _ member => absurd member List.not_mem_nil⟩
  | cons cell l ih =>
    intro m m' stands run
    obtain ⟨m₁,first,rest⟩ := bind_ok_iff.mp run
    have kept := pull_cell_kept keeps first
    obtain ⟨later,settled⟩ := ih (fun other member => settles other (List.mem_cons_of_mem cell member))
      (fun other member => within other (List.mem_cons_of_mem cell member)) (stands.again kept.tree) rest
    refine ⟨kept.trans later,fun other member inner inside apart => ?_⟩
    obtain rfl | member := List.mem_cons.mp member
    · refine later.settled inner.widget (by simpa using apart) ?_
      obtain ⟨row,col⟩ := within other List.mem_cons_self
      obtain ⟨_,widget,grid,found,data,rows,cols,slots⟩ := stands
      obtain ⟨below,slot,stands⟩ := slots (other.1 * node.col_num + other.2) (by rw [Nat.mul_comm]; exact cell_lt row col)
      have slot' : element grid.child (other.1 * grid.col_num + other.2) = .ok below := by rw [element,cols,slot]
      replace first :
        pull_cell_over pull (contents node.widget other.1 other.2) node.widget other.1 other.2 m = .ok m₁ := first
      rw [pull_cell_over,get_grid_of found data,ok_bind,slot',ok_bind] at first
      cases below with
      | none => rw [Node.cell,grids_none stands] at inside; cases inside
      | some child =>
        obtain ⟨⟨m₂,least⟩,called,first⟩ := bind_ok_iff.mp first
        cases first
        intro grid' ok
        rw [get_grid,set_data,get_modify_other (Ne.symm apart)] at ok
        exact settles other List.mem_cons_self stands called inner inside grid' ok
    · exact settled other member inner inside apart

/-- A call for a tree settles its grids. -/
theorem pull_settles (contents : Contents F) : ∀ {shape : Shape F} {fuel : Nat} {m m' : Memory F} {a_widget : Option Nat}
    {a_min least : HWTSize F},shape.Stands m a_widget →
    hwt_widget_pull_min_over contents fuel m a_widget a_min = .ok (m',least) →
    ∀ node ∈ shape.grids,Settled m' node.widget := by
  intro shape
  induction shape with
  | empty => exact fun _ _ _ member => absurd member List.not_mem_nil
  | label name => exact fun _ _ _ member => absurd member List.not_mem_nil
  | button name rect callback child ih =>
    rintro fuel m m' _ a_min least ⟨rfl,widget,below,found,_,data,stands⟩ run
    cases fuel with
    | zero => cases run
    | succ fuel =>
      rw [hwt_widget_pull_min_over,pull_min_over,found,ok_bind] at run
      simp only [data] at run
      exact ih stands run
  | panel name child ih =>
    rintro fuel m m' _ a_min least ⟨rfl,widget,below,found,data,stands⟩ run
    cases fuel with
    | zero => cases run
    | succ fuel =>
      rw [hwt_widget_pull_min_over,pull_min_over,found,ok_bind] at run
      simp only [data] at run
      exact ih stands run
  | grid name row_num col_num cells ih =>
    intro fuel m m' a_widget a_min least stands run
    obtain ⟨rfl,widget,grid,found,data,rows,cols,_⟩ := id stands
    cases fuel with
    | zero => cases run
    | succ fuel =>
      rw [hwt_widget_pull_min_over,pull_min_over,found,ok_bind] at run
      simp only [data] at run
      obtain ⟨m₁,loops,run⟩ := bind_ok_iff.mp run
      obtain ⟨last,left,run⟩ := bind_ok_iff.mp run
      cases run
      subst rows cols
      have same := tree_set_least found data (List.replicate grid.row_num 0) (List.replicate grid.col_num 0) grid.min
      have ran : (places grid.row_num grid.col_num).foldlM (fun m cell => pull_cell_over
          (hwt_widget_pull_min_over contents fuel) (contents name cell.1 cell.2) name cell.1 cell.2 m)
          (set_data m name fun _ => .grid { grid with
            row_min := List.replicate grid.row_num 0
            col_min := List.replicate grid.col_num 0 }) = .ok m₁ := (foldlM_places _ _ _).symm.trans loops
      obtain ⟨_,settled⟩ := @loop_settles F _ _ _ _ contents _ ⟨name,grid.row_num,grid.col_num,cells⟩ _ (pull_kept contents)
        (fun cell _ => ih _) (fun cell => mem_places_iff.mp) _ _ (stands.again same) ran
      obtain ⟨widget₁,found₁,data₁⟩ := get_grid_ok left
      intro node member grid' ok
      by_cases own : node.widget = name
      · rw [own,get_grid_of (get_set_data found₁ _) rfl] at ok
        cases ok
        rfl
      · rw [get_grid,set_data,get_modify_other (Ne.symm own)] at ok
        obtain rfl | member := List.mem_cons.mp member
        · exact absurd rfl own
        · rw [← flatMap_places Shape.grids ⟨name,grid.row_num,grid.col_num,cells⟩] at member
          obtain ⟨cell,place,inside⟩ := List.mem_flatMap.mp member
          exact settled cell place node inside own grid' ok

end

/-! ### Runs with new sizes -/

section
variable {F : Type} [Zero F] {m m' later : Memory F}

/-- The widget without a rectangle and a callback. -/
def HWTWidget.plain (widget : HWTWidget F) : HWTWidget F :=
  { widget with
    rect := ⟨0,0,0,0⟩
    data := match widget.data with
      | .button child _ => .button child none
      | data => data }

/-- What the states of a context are about. -/
def HWTWidget.skeleton (widget : HWTWidget F) : HWTWidget F := widget.bare.plain

/-- The memories differ in rectangles, least sizes and callbacks only. -/
structure Alike (m m' : Memory F) : Prop where
  root : m'.root = m.root
  destroyed : m'.destroyed = m.destroyed
  released : m'.released = m.released
  widgets : m'.widgets.map HWTWidget.skeleton = m.widgets.map HWTWidget.skeleton

theorem Alike.trans (first : Alike m m') (second : Alike m' later) : Alike m later :=
  ⟨second.root.trans first.root,second.destroyed.trans first.destroyed,second.released.trans first.released,
    second.widgets.trans first.widgets⟩

theorem Alike.count (alike : Alike m m') : m'.widgets.length = m.widgets.length := by
  simpa using congrArg List.length alike.widgets

theorem Alike.depth (alike : Alike m m') : depth m' = depth m := by
  rw [Hwt.depth,Hwt.depth,alike.count]

theorem Alike.at (alike : Alike m m') (i : Nat) :
    m'.widgets[i]?.map HWTWidget.skeleton = m.widgets[i]?.map HWTWidget.skeleton := by
  rw [← List.getElem?_map,alike.widgets,List.getElem?_map]

theorem skeleton_children (widget : HWTWidget F) : widget.skeleton.data.children = widget.data.children := by
  obtain ⟨parent,rect,data⟩ := widget
  cases data <;> rfl

theorem skeleton_fits (widget : HWTWidget F) : widget.skeleton.data.Fits ↔ widget.data.Fits := by
  obtain ⟨parent,rect,data⟩ := widget
  cases data <;> exact Iff.rfl

theorem Alike.children (alike : Alike m m') (name : Nat) : children m' name = children m name := by
  have view : ∀ m : Memory F,Hwt.children m name =
      (m.widgets[name]?.map HWTWidget.skeleton).elim [] fun widget => widget.data.children := by
    intro m
    rw [Hwt.children]
    cases m.widgets[name]? with
    | none => rfl
    | some widget => exact (skeleton_children widget).symm
  rw [view,view,alike.at]

theorem Alike.parent_of (alike : Alike m m') (name : Nat) : parent_of m' name = parent_of m name := by
  have view : ∀ m : Memory F,Hwt.parent_of m name =
      (m.widgets[name]?.map HWTWidget.skeleton).bind fun widget => widget.parent := by
    intro m
    rw [Hwt.parent_of]
    cases m.widgets[name]? <;> rfl
  rw [view,view,alike.at]

/-- The states of a context stay what they are. -/
theorem Owned.alike (owned : Owned m) (alike : Alike m m') : Owned m' := by
  have holds_ : holds m' = holds m := by
    funext slot
    cases slot with
    | root => exact alike.root
    | child widget i => rw [holds,holds,alike.children]
  have parents : parent_of m' = parent_of m := funext alike.parent_of
  refine ⟨?_,?_,?_,?_,?_,?_,?_⟩
  · rw [holds_,parents]
    exact owned.linked
  · intro slot child here
    rw [holds_] at here
    rw [Live,alike.count,alike.destroyed]
    exact owned.content here
  · intro widget i child here
    rw [holds_] at here
    rw [alike.destroyed]
    exact owned.owner here
  · intro name widget found live
    rw [alike.destroyed] at live
    have same := alike.at name
    rw [found] at same
    obtain ⟨other,found',skeleton⟩ := Option.map_eq_some_iff.mp same.symm
    rw [← skeleton_fits,← skeleton,skeleton_fits]
    exact owned.fits found' live
  · rw [alike.destroyed]
    exact owned.once
  · intro widget gone
    rw [alike.destroyed] at gone
    rw [alike.count]
    exact owned.created gone
  · intro widget given
    rw [alike.released] at given
    rw [alike.destroyed]
    exact owned.released given

theorem Kept.alike [Add F] (kept : Kept none m m') : Alike m m' where
  root := kept.root
  destroyed := kept.destroyed
  released := kept.released
  widgets := by
    have same := congrArg (List.map HWTWidget.plain) kept.widgets
    rwa [List.map_map,List.map_map] at same

theorem alike_rect {name : Nat} {widget : HWTWidget F} (found : get m name = .ok widget) (rect : HWTRect F) :
    Alike m (modify m name fun widget => { widget with rect := rect }) :=
  ⟨rfl,rfl,rfl,map_modified found rfl⟩

theorem foldlM_keeps_fst {α β γ ε : Type} {P : α → Prop} {f : α × β → γ → Except ε (α × β)} {l : List γ} {a a' : α}
    {b b' : β} (kept : ∀ a b c a' b',P a → f (a,b) c = .ok (a',b') → P a') (here : P a)
    (ran : l.foldlM f (a,b) = .ok (a',b')) : P a' := by
  have step : ∀ p : α × β,∀ c ∈ l,∀ p' : α × β,P p.1 → f p c = .ok p' → P p'.1 := fun p c _ p' => kept p.1 p.2 c p'.1 p'.2
  have whole := @foldlM_keeps _ _ _ (fun p : α × β => P p.1) _ l step (a,b) (a',b') here ran
  exact whole

/-- By induction on the fuel, over all memories. -/
theorem push_alike [Add F] [Sub F] [Div F] [NatCast F] {fuel : Nat} :
    ∀ {m m' : Memory F} {a_widget : Option Nat} {rect : HWTRect F},
    hwt_widget_push_rect fuel m a_widget rect = .ok m' → Alike m m' := by
  induction fuel with
  | zero =>
    intro m m' a_widget rect run
    cases run
  | succ fuel ih =>
    intro m m' a_widget rect run
    cases a_widget with
    | none =>
      cases run
      exact ⟨rfl,rfl,rfl,rfl⟩
    | some name =>
      obtain ⟨widget,found,run⟩ := bind_ok_iff.mp run
      have given := alike_rect found rect
      obtain ⟨widget₁,_,run⟩ := bind_ok_iff.mp run
      cases data : widget₁.data with
      | button child callback =>
        simp only [data] at run
        exact given.trans (ih run)
      | label text =>
        simp only [data] at run
        cases run
        exact given
      | panel child =>
        simp only [data] at run
        exact given.trans (ih run)
      | grid grid =>
        simp only [data] at run
        obtain ⟨⟨m₁,r⟩,loops,run⟩ := bind_ok_iff.mp run
        cases run
        refine foldlM_keeps_fst (fun m₂ _ row m₃ _ here ran => ?_) given loops
        obtain ⟨_,_,ran⟩ := bind_ok_iff.mp ran
        obtain ⟨_,_,ran⟩ := bind_ok_iff.mp ran
        obtain ⟨_,_,ran⟩ := bind_ok_iff.mp ran
        obtain ⟨⟨m₄,_⟩,cols,ran⟩ := bind_ok_iff.mp ran
        cases ran
        refine foldlM_keeps_fst (fun m₅ _ col m₆ _ here ran => ?_) here cols
        obtain ⟨_,_,ran⟩ := bind_ok_iff.mp ran
        obtain ⟨_,_,ran⟩ := bind_ok_iff.mp ran
        obtain ⟨_,_,ran⟩ := bind_ok_iff.mp ran
        obtain ⟨_,called,ran⟩ := bind_ok_iff.mp ran
        cases ran
        exact here.trans (ih called)

end

section
variable {F : Type} [Zero F] [Add F] [Sub F] [Div F] [NatCast F] [LT F] [LE F] [DecidableLT F] [DecidableLE F]
  {g_type : Types} {hwt : HWT F} {name : Nat} {old : Types}

/-- The calls of the library: those that make the tree, the callbacks, events, and new
    sizes where variables have contents. -/
inductive Act (F : Type) where
  | operation (op : Op)
  | set_callback (button : Nat) (callback : Option Nat)
  | send_event (a_event : HWTEvent F)
  | resize (contents : Contents F) (min size : HWTSize F)

def act (g_type : Types) (hwt : HWT F) : Act F → Except Stop (HWT F)
  | .operation op => step g_type hwt op
  | .set_callback button callback => do
    let m ← hwt_button_set_callback hwt.memory button callback
    .ok { hwt with memory := m }
  | .send_event a_event => do
    let m ← hwt_send_event hwt.memory a_event
    .ok { hwt with memory := m }
  | .resize contents min size => do
    let m ← resize_over contents min hwt.memory size
    .ok { hwt with memory := m }

variable {m m' : Memory F}

omit [LE F] [DecidableLE F] in
theorem resize_alike {contents : Contents F} {min size : HWTSize F} (run : resize_over contents min m size = .ok m') :
    Alike m m' := by
  obtain ⟨⟨m₁,least⟩,pulled,pushed⟩ := bind_ok_iff.mp run
  exact (pull_kept contents pulled).alike.trans (push_alike pushed)

omit [Add F] [Sub F] [Div F] [NatCast F] [LT F] [LE F] [DecidableLT F] [DecidableLE F] in
theorem set_callback_alike {button : Nat} {callback : Option Nat}
    (run : hwt_button_set_callback m button callback = .ok m') : Alike m m' := by
  obtain ⟨widget,found,run⟩ := bind_ok_iff.mp run
  cases data : widget.data with
  | button child before =>
    simp only [data] at run
    cases run
    refine ⟨rfl,rfl,rfl,map_modified found ?_⟩
    simp only [HWTWidget.skeleton,HWTWidget.bare,HWTWidget.plain,data]
  | grid grid => simp [data] at run
  | label text => simp [data] at run
  | panel child => simp [data] at run

omit [Add F] [Sub F] [Div F] [NatCast F] [LT F] [LE F] [DecidableLT F] [DecidableLE F] in
theorem outcome_alike (m : Memory F) (answer : Option (Nat × Nat)) : Alike m (outcome_of m answer).1 := by
  cases answer with
  | none => exact ⟨rfl,rfl,rfl,rfl⟩
  | some call => exact ⟨rfl,rfl,rfl,rfl⟩

theorem send_alike (owned : Owned m) {a_event : HWTEvent F} (run : hwt_send_event m a_event = .ok m') : Alike m m' := by
  have answered (run : Prod.fst <$> hwt_widget_respond (depth m) m m.root a_event = .ok m') : Alike m m' := by
    obtain ⟨shape,_,answer⟩ := respond_root owned a_event
    rw [answer] at run
    cases run
    exact outcome_alike m _
  cases a_event with
  | expose rect => exact answered run
  | pointer_down x y code => exact answered run
  | pointer_move x y code => exact answered run
  | pointer_up x y code => exact answered run
  | resize size => exact resize_alike (resize_over_of (fun _ _ _ => ⟨0,0⟩) ⟨0,0⟩ run)

/-- The states of a context stay so, whatever the user does. -/
theorem acts_owned {acts : List (Act F)} (reached : Reached (act g_type) (hwt_create (F := F) name old).1 acts hwt) :
    Owned hwt.memory := by
  refine reached_keeps (I := fun hwt : HWT F => Owned hwt.memory) (fun hwt a after owned run => ?_) (owned_create name) reached
  cases a with
  | operation op => exact step_owned owned run
  | set_callback button callback =>
    obtain ⟨m,ran,run⟩ := bind_ok_iff.mp run
    cases run
    exact owned.alike (set_callback_alike ran)
  | send_event a_event =>
    obtain ⟨m,ran,run⟩ := bind_ok_iff.mp run
    cases run
    exact owned.alike (send_alike owned ran)
  | resize contents min size =>
    obtain ⟨m,ran,run⟩ := bind_ok_iff.mp run
    cases run
    exact owned.alike (resize_alike ran)

end

end Htools.Hwt
