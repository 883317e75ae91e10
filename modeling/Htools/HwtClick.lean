import Htools.HwtNested

/-!
Clicks in a window. After a new size with room for the tree, each of a number of clicks
calls the innermost one of the buttons that have a callback and the place, once and in
the order of the clicks (`click_innermost`).
-/
namespace Htools.Hwt

open Htools.Ownership Htools.Runs

/-! ### New rectangles -/

section
variable {F : Type}

/-- The tree with other rectangles for its buttons. -/
def Shape.moved (rect : Nat → HWTRect F) : Shape F → Shape F
  | .empty => .empty
  | .button name _ callback child => .button name (rect name) callback (child.moved rect)
  | .grid name row_num col_num cells => .grid name row_num col_num fun i => (cells i).moved rect
  | .label name => .label name
  | .panel name child => .panel name (child.moved rect)

variable {rect : Nat → HWTRect F} {shape : Shape F} {m m' : Memory F} {a_widget : Option Nat}

@[simp] theorem moved_grid {name row_num col_num : Nat} {cells : Nat → Shape F} :
    (Shape.grid name row_num col_num cells).moved rect =
      .grid name row_num col_num fun i => (cells i).moved rect := rfl

@[simp] theorem moved_widgets : (shape.moved rect).widgets = shape.widgets := by
  induction shape with
  | empty => rfl
  | button name own callback child ih => exact congrArg (name :: ·) ih
  | grid name row_num col_num cells ih => simp only [moved_grid,Shape.widgets,ih]
  | label name => rfl
  | panel name child ih => exact congrArg (name :: ·) ih

@[simp] theorem moved_height : (shape.moved rect).height = shape.height := by
  induction shape with
  | empty => rfl
  | button name own callback child ih => exact congrArg (· + 1) ih
  | grid name row_num col_num cells ih => simp only [moved_grid,Shape.height,ih]
  | label name => rfl
  | panel name child ih => exact congrArg (· + 1) ih

theorem moved_under {u v : Nat} : (shape.moved rect).Under u v ↔ shape.Under u v := by
  induction shape with
  | empty => rfl
  | button name own callback child ih => exact or_congr (by rw [moved_widgets]) ih
  | grid name row_num col_num cells ih => simp only [moved_grid,Shape.Under,moved_widgets,ih]
  | label name => rfl
  | panel name child ih => exact or_congr (by rw [moved_widgets]) ih

/-- A button of the tree has the rectangle that is given to its widget. -/
theorem moved_rect {button : Button F} (member : button ∈ (shape.moved rect).buttons) :
    button.rect = rect button.widget := by
  induction shape with
  | empty => cases member
  | button name own callback child ih =>
    obtain below | own := List.mem_append.mp member
    · exact ih below
    · obtain rfl := List.mem_singleton.mp own
      rfl
  | grid name row_num col_num cells ih =>
    rw [moved_grid,Shape.buttons,flatMap_cells (fun i => ((cells i).moved rect).buttons)] at member
    obtain ⟨i,_,member⟩ := List.mem_flatMap.mp member
    exact ih i member
  | label name => cases member
  | panel name child ih => exact ih member

variable [Zero F]

/-- Where the widgets have other rectangles, the tree has them. -/
theorem moved_stands (stands : shape.Stands m a_widget)
    (given : ∀ u ∈ shape.widgets,∃ widget other,get m u = .ok widget ∧ get m' u = .ok other ∧
      other.bare = { widget.bare with rect := rect u }) : (shape.moved rect).Stands m' a_widget := by
  induction shape generalizing a_widget with
  | empty => exact stands
  | button name own callback child ih =>
    obtain ⟨rfl,widget,below,found,_,data,stands⟩ := stands
    obtain ⟨widget',other,found',after,bare⟩ := given name List.mem_cons_self
    obtain rfl := Except.ok.inj (found.symm.trans found')
    exact ⟨rfl,other,below,after,congrArg HWTWidget.rect bare,(data_plain bare (by simp [data])).trans data,
      ih stands fun u member => given u (List.mem_cons_of_mem _ member)⟩
  | grid name row_num col_num cells ih =>
    obtain ⟨rfl,widget,grid,found,data,rfl,rfl,slots⟩ := stands
    obtain ⟨widget',other,found',after,bare⟩ := given name List.mem_cons_self
    obtain rfl := Except.ok.inj (found.symm.trans found')
    obtain ⟨grid',data',rows,cols,kept⟩ := data_grid bare data
    refine ⟨rfl,other,grid',after,data',rows,cols,fun i inside => ?_⟩
    obtain ⟨below,there,stands⟩ := slots i inside
    refine ⟨below,by rw [kept,there],ih i stands fun u member => given u (List.mem_cons_of_mem _ ?_)⟩
    exact List.mem_flatMap.mpr ⟨i,List.mem_range.mpr inside,member⟩
  | label name =>
    obtain ⟨rfl,widget,text,found,data⟩ := stands
    obtain ⟨widget',other,found',after,bare⟩ := given name List.mem_cons_self
    obtain rfl := Except.ok.inj (found.symm.trans found')
    exact ⟨rfl,other,text,after,(data_plain bare (by simp [data])).trans data⟩
  | panel name child ih =>
    obtain ⟨rfl,widget,below,found,data,stands⟩ := stands
    obtain ⟨widget',other,found',after,bare⟩ := given name List.mem_cons_self
    obtain rfl := Except.ok.inj (found.symm.trans found')
    exact ⟨rfl,other,below,after,(data_plain bare (by simp [data])).trans data,
      ih stands fun u member => given u (List.mem_cons_of_mem _ member)⟩

end

/-! ### The order of the buttons -/

section
variable {F : Type} {shape : Shape F}

theorem button_mem {button : Button F} (member : button ∈ shape.buttons) : button.widget ∈ shape.widgets := by
  induction shape with
  | empty => cases member
  | button name own callback child ih =>
    obtain below | own := List.mem_append.mp member
    · exact List.mem_cons_of_mem _ (ih below)
    · obtain rfl := List.mem_singleton.mp own
      exact List.mem_cons_self
  | grid name row_num col_num cells ih =>
    rw [Shape.buttons,flatMap_cells (fun i => (cells i).buttons)] at member
    obtain ⟨i,inside,member⟩ := List.mem_flatMap.mp member
    exact List.mem_cons_of_mem _ (List.mem_flatMap.mpr ⟨i,inside,ih i member⟩)
  | label name => cases member
  | panel name child ih => exact List.mem_cons_of_mem _ (ih member)

/-- A button is asked after those below it. -/
theorem buttons_order (distinct : shape.widgets.Nodup) :
    shape.buttons.Pairwise fun b c => b.widget ≠ c.widget ∧ ¬ shape.Under b.widget c.widget := by
  induction shape with
  | empty => exact .nil
  | button name own callback child ih =>
    obtain ⟨outside,distinct'⟩ := List.nodup_cons.mp distinct
    have other {b : Button F} (member : b ∈ child.buttons) : b.widget ≠ name :=
      fun same => outside (same ▸ button_mem member)
    refine List.pairwise_append.mpr ⟨?_,List.pairwise_singleton _ _,fun b below c self => ?_⟩
    · refine (ih distinct').imp_of_mem fun {b c} first _ order => ⟨order.1,?_⟩
      rintro (⟨same,_⟩ | under)
      · exact other first same
      · exact order.2 under
    · obtain rfl := List.mem_singleton.mp self
      refine ⟨other below,?_⟩
      rintro (⟨same,_⟩ | under)
      · exact other below same
      · exact outside (under_mem under).2
  | grid name row_num col_num cells ih =>
    obtain ⟨outside,each,differ⟩ := @nodup_places F ⟨name,row_num,col_num,cells⟩ distinct
    have same {u v : Nat} {a : Nat × Nat} := @under_cell F ⟨name,row_num,col_num,cells⟩ u v a distinct
    rw [Shape.buttons,flatMap_cells (fun i => (cells i).buttons),
      ← flatMap_places Shape.buttons ⟨name,row_num,col_num,cells⟩]
    refine List.pairwise_flatMap.mpr ⟨fun a there => ?_,?_⟩
    · refine (ih _ (each a there)).imp_of_mem fun {b c} first _ order => ⟨order.1,fun under => order.2 ?_⟩
      exact (same there (button_mem first)).mp under
    · refine differ.imp_of_mem fun {a a'} there there' apart b first c second => ⟨fun is => ?_,fun under => ?_⟩
      · exact apart (button_mem first) (is ▸ button_mem second)
      · exact apart (under_mem ((same there (button_mem first)).mp under)).2 (button_mem second)
  | label name => exact .nil
  | panel name child ih =>
    obtain ⟨outside,distinct'⟩ := List.nodup_cons.mp distinct
    refine (ih distinct').imp_of_mem fun {b c} first _ order => ⟨order.1,?_⟩
    rintro (⟨same,_⟩ | under)
    · exact outside (same ▸ button_mem first)
    · exact order.2 under

end

/-! ### The innermost button -/

section
variable {r s : HWTRect ℚ} {x y : ℚ}

/-- Rectangles that are apart have no place in common. -/
theorem Apart.no_place (apart : Apart r s) (first : Contains r x y) (second : Contains s x y) : False := by
  obtain ⟨left,right,top,bottom⟩ := first
  obtain ⟨left',right',top',bottom'⟩ := second
  obtain before | behind | above | under := apart
  · exact absurd (right.trans_le (before.trans left')) (lt_irrefl x)
  · exact absurd (right'.trans_le (behind.trans left)) (lt_irrefl x)
  · exact absurd (bottom.trans_le (above.trans top')) (lt_irrefl y)
  · exact absurd (bottom'.trans_le (under.trans top)) (lt_irrefl y)

/-- What a pointer that is let go calls in a tree: the callback of the innermost one of
    the buttons that have a callback and the place, or none. -/
inductive Shape.Clicked (shape : Shape ℚ) (x y : ℚ) (code : Int) : Option (Nat × Nat) → Prop
  | silent (none_there : ∀ button ∈ shape.buttons,¬ button.Called x y code) : Clicked shape x y code none
  | called {button : Button ℚ} {callback : Nat} (there : button ∈ shape.buttons) (has : button.callback = some callback)
      (here : button.Called x y code)
      (innermost : ∀ other ∈ shape.buttons,other.Called x y code → other ≠ button →
        shape.Under other.widget button.widget) :
      Clicked shape x y code (some (callback,button.widget))

/-- A pointer that is let go at a place. -/
structure Click where
  x : ℚ
  y : ℚ
  code : Int

def send_click (m : Memory ℚ) (click : Click) : Except Stop (Memory ℚ) :=
  hwt_send_event m (.pointer_up click.x click.y click.code)

variable {shape : Shape ℚ} {rect : Nat → HWTRect ℚ} {window : HWTRect ℚ} {m : Memory ℚ}

/-- The first button with the place is the innermost one. -/
theorem click_calls (nested : shape.Nested window rect) (distinct : shape.widgets.Nodup)
    (stands : (shape.moved rect).Stands m m.root) (enough : shape.height < depth m) (click : Click) :
    ∃ call,send_click m click = .ok (outcome_of m call).1 ∧ (shape.moved rect).Clicked click.x click.y click.code call := by
  obtain ⟨silent,run⟩ | ⟨before,button,after,callback,split,earlier,has,contains,zero,run⟩ :=
    respond_first m (shape.moved rect) m.root click.x click.y click.code (depth m) stands (by rwa [moved_height])
  · exact ⟨none,map_ok_iff.mpr ⟨_,run,rfl⟩,.silent silent⟩
  · have there : button ∈ (shape.moved rect).buttons := by simp [split]
    have some_ : button.callback ≠ none := by simp [has]
    refine ⟨some (callback,button.widget),map_ok_iff.mpr ⟨_,run,rfl⟩,.called there has ⟨some_,contains,zero⟩ ?_⟩
    intro other member called differ
    have later : other ∈ after := by
      rw [split] at member
      obtain first | member := List.mem_append.mp member
      · exact absurd called (earlier other first)
      · exact (List.mem_cons.mp member).resolve_left differ
    have order := @buttons_order ℚ (shape.moved rect) (by rwa [moved_widgets])
    rw [split] at order
    obtain ⟨apart,above⟩ := (List.pairwise_cons.mp (List.pairwise_append.mp order).2.1).1 other later
    by_contra beside
    rw [moved_under] at above beside
    have inside := button_mem there
    have inside' := button_mem member
    rw [moved_widgets] at inside inside'
    have places := nested.apart _ inside _ inside' apart above beside
    rw [← moved_rect there,← moved_rect member] at places
    exact places.no_place contains called.2.1

/-- A call adds itself to those before it. -/
theorem outcome_called (m : Memory ℚ) (call : Option (Nat × Nat)) :
    (outcome_of m call).1 = { m with called := m.called ++ call.toList } := by
  cases call with
  | none => rw [Option.toList_none,List.append_nil]; rfl
  | some call => rfl

/-- By induction on the clicks, over all calls before them. -/
theorem clicks_call (nested : shape.Nested window rect) (distinct : shape.widgets.Nodup)
    (enough : shape.height < depth m) (clicks : List Click) : ∀ {before : List (Nat × Nat)},
    (shape.moved rect).Stands { m with called := before } m.root →
    ∃ calls,clicks.foldlM send_click { m with called := before } =
        .ok { m with called := before ++ calls.flatMap Option.toList } ∧
      List.Forall₂ (fun click => (shape.moved rect).Clicked click.x click.y click.code) clicks calls := by
  induction clicks with
  | nil =>
    intro before _
    refine ⟨[],?_,.nil⟩
    rw [List.flatMap_nil,List.append_nil]
    rfl
  | cons click clicks ih =>
    intro before stands
    obtain ⟨call,sent,clicked⟩ := click_calls nested distinct stands enough click
    rw [outcome_called] at sent
    have same : tree { m with called := before ++ call.toList } = tree { m with called := before } := rfl
    obtain ⟨calls,ran,answers⟩ := ih (stands.again same)
    refine ⟨call :: calls,?_,.cons clicked answers⟩
    rw [List.foldlM_cons,sent,ok_bind,ran,List.flatMap_cons,List.append_assoc]

end

section
variable {g_type : Types} {hwt : HWT ℚ} {name : Nat} {old : Types} {contents : Contents ℚ} {min least size : HWTSize ℚ}
  {m₁ : Memory ℚ}

/-- After a new size with room for what the tree needs, each of any number of clicks
    calls the innermost button there, whatever has been done to the context. -/
theorem click_innermost {acts : List (Act ℚ)} (reached : Reached (act g_type) (hwt_create (F := ℚ) name old).1 acts hwt)
    (pulled : hwt_widget_pull_min_over contents (depth hwt.memory) hwt.memory hwt.memory.root min = .ok (m₁,least))
    (width : 0 ≤ size.width) (height : 0 ≤ size.height) (wide : least.width ≤ size.width)
    (high : least.height ≤ size.height) :
    ∃ m',resize_over contents min hwt.memory size = .ok m' ∧ ∃ shape : Shape ℚ,shape.Stands m' m'.root ∧
      ∀ clicks : List Click,∃ calls,
        clicks.foldlM send_click m' = .ok { m' with called := m'.called ++ calls.flatMap Option.toList } ∧
        List.Forall₂ (fun click => shape.Clicked click.x click.y click.code) clicks calls := by
  obtain ⟨shape,rect,m',stands,distinct,low,ran,laid,place,nested⟩ :=
    resize_nests (acts_owned reached) pulled width height wide high
  have moved : (shape.moved rect).Stands m' m'.root := by
    rw [laid.alike.root]
    exact moved_stands stands fun u member => laid.rects _ (place u member)
  have enough : shape.height < depth m' := by rwa [laid.alike.depth]
  exact ⟨m',ran,_,moved,fun clicks => clicks_call nested distinct enough clicks moved⟩

theorem click_innermost_row : ∃ m',resize_over (fun _ _ _ => ⟨10,0⟩) ⟨0,0⟩ row ⟨40,20⟩ = .ok m' ∧
    ∃ shape : Shape ℚ,shape.Stands m' m'.root ∧ ∀ clicks : List Click,∃ calls,
      clicks.foldlM send_click m' = .ok { m' with called := m'.called ++ calls.flatMap Option.toList } ∧
      List.Forall₂ (fun click => shape.Clicked click.x click.y click.code) clicks calls := by
  obtain ⟨m₁,least,pulled,wide,high⟩ := row_needs
  exact click_innermost row_reached pulled (by norm_num) (by norm_num) wide high

end

end Htools.Hwt
