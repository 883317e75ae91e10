import Htools.HwtShape

/-!
Responses of a tree of widgets. A pointer that is let go calls the first button, in
the order in which the widgets are asked, that has a callback and the place
(`respond_first`).
-/
namespace Htools.Hwt

section
variable {F : Type}

/-- A button that is to respond. -/
structure Button (F : Type) where
  widget : Nat
  rect : HWTRect F
  callback : Option Nat

/-- The buttons in their order: those below a button before it, and those of a grid
    row by row. -/
def Shape.buttons : Shape F → List (Button F)
  | .empty | .label _ => []
  | .button widget rect callback child => child.buttons ++ [⟨widget,rect,callback⟩]
  | .grid _ row_num col_num cells =>
    (List.range row_num).flatMap fun row => (List.range col_num).flatMap fun col => (cells (row * col_num + col)).buttons
  | .panel _ child => child.buttons

theorem findSome?_flatMap {α β γ : Type} (f : β → Option γ) (g : α → List β) (l : List α) :
    (l.flatMap g).findSome? f = l.findSome? fun a => (g a).findSome? f := by
  induction l with
  | nil => rfl
  | cons a l ih =>
    rw [List.flatMap_cons,List.findSome?_append,ih,List.findSome?_cons]
    cases (g a).findSome? f with
    | none => rfl
    | some c => rfl

end

section
variable {F : Type} [Add F] [LT F] [LE F] [DecidableLT F] [DecidableLE F] {m : Memory F} {a_event : HWTEvent F}
  {a_widget : Option Nat} {x y : F} {code : Int}

/-- The rectangle with its left and upper edges only. -/
def Contains (rect : HWTRect F) (x y : F) : Prop :=
  rect.x ≤ x ∧ x < rect.x + rect.width ∧ rect.y ≤ y ∧ y < rect.y + rect.height

/-- A button with a callback that a pointer has been let go in. -/
def Button.Called (button : Button F) (x y : F) (code : Int) : Prop :=
  button.callback ≠ none ∧ Contains button.rect x y ∧ code = 0

/-- The button that responds has its callback called. -/
def responds (a_event : HWTEvent F) (button : Button F) : Option (Nat × Nat) :=
  button.callback.bind fun callback => if clicked button.rect a_event then some (callback,button.widget) else none

/-- What is left after a call, or none. -/
def outcome_of (m : Memory F) : Option (Nat × Nat) → Memory F × HWTEventFlow
  | none => (m,.HWT_CONTINUE)
  | some call => ({ m with called := m.called ++ [call] },.HWT_BREAK)

omit [Add F] [LT F] [LE F] [DecidableLT F] [DecidableLE F] in
/-- The cells of a grid are asked one after the other. -/
theorem respond_loop_first {ask : Memory F → Option Nat → HWTEvent F → Except Stop (Memory F × HWTEventFlow)}
    {name : Nat} {grid : Grid F} (call : Nat → Option (Nat × Nat)) (found : get_grid m name = .ok grid) {left i : Nat}
    (cells : ∀ j,i ≤ j → j < i + left → ∃ below,grid.child[j]? = some below ∧
      ask m below a_event = .ok (outcome_of m (call j))) :
    respond_loop ask name a_event left i m = .ok (outcome_of m ((List.range' i left).findSome? call)) := by
  induction left generalizing i with
  | zero => rfl
  | succ left ih =>
    obtain ⟨below,there,answer⟩ := cells i (Nat.le_refl i) (by omega)
    have slot : element grid.child i = .ok below := by rw [element,there]
    rw [respond_loop,found,ok_bind,slot,ok_bind,answer,ok_bind,List.range'_succ,List.findSome?_cons]
    cases called : call i with
    | none => exact ih fun j above within => cells j (by omega) (by omega)
    | some both => rfl

/-- Every widget asks what is below it in the order of the buttons. -/
theorem respond_calls (a_event : HWTEvent F) (shape : Shape F) : ∀ {fuel : Nat} {a_widget : Option Nat},
    shape.Stands m a_widget → shape.height < fuel →
    hwt_widget_respond fuel m a_widget a_event = .ok (outcome_of m (shape.buttons.findSome? (responds a_event))) := by
  induction shape with
  | empty =>
    rintro fuel _ rfl enough
    obtain ⟨fuel,rfl⟩ := fuel_succ enough
    rfl
  | button name rect callback child ih =>
    rintro fuel _ ⟨rfl,widget,below,found,rfl,data,stands⟩ enough
    obtain ⟨fuel,rfl⟩ := fuel_succ enough
    have answer := ih stands (Nat.lt_of_succ_lt_succ enough)
    rw [hwt_widget_respond,respond,found,ok_bind]
    simp only [data,answer,ok_bind,Shape.buttons,List.findSome?_append]
    cases called : child.buttons.findSome? (responds a_event) with
    | some both => rfl
    | none =>
      cases callback with
      | none => rfl
      | some callback =>
        simp only [outcome_of,Option.none_or,List.findSome?_singleton,responds,Option.bind_some]
        split
        · rfl
        · rfl
  | grid name row_num col_num cells ih =>
    rintro fuel _ ⟨rfl,widget,grid,found,data,rfl,rfl,slots⟩ enough
    obtain ⟨fuel,rfl⟩ := fuel_succ enough
    have there : get_grid m name = .ok grid := get_grid_of found data
    rw [hwt_widget_respond,respond,found,ok_bind]
    simp only [data]
    rw [respond_loop_first (fun i => (cells i).buttons.findSome? (responds a_event)) there]
    · rw [Shape.buttons,flatMap_cells (fun i => (cells i).buttons),findSome?_flatMap,List.range_eq_range']
    · intro i _ inside
      rw [Nat.zero_add] at inside
      obtain ⟨below,slot,stands⟩ := slots i inside
      exact ⟨below,slot,ih i stands (Nat.lt_of_lt_of_le (height_cell inside) (Nat.le_of_lt_succ enough))⟩
  | label name =>
    rintro fuel _ ⟨rfl,widget,text,found,data⟩ enough
    obtain ⟨fuel,rfl⟩ := fuel_succ enough
    rw [hwt_widget_respond,respond,found,ok_bind]
    simp only [data]
    rfl
  | panel name child ih =>
    rintro fuel _ ⟨rfl,widget,below,found,data,stands⟩ enough
    obtain ⟨fuel,rfl⟩ := fuel_succ enough
    rw [hwt_widget_respond,respond,found,ok_bind]
    simp only [data]
    exact ih stands (Nat.lt_of_succ_lt_succ enough)

/-- The calls from the root of a context have the fuel that they need. -/
theorem respond_root (owned : Owned m) (a_event : HWTEvent F) : ∃ shape : Shape F,shape.Stands m m.root ∧
    hwt_widget_respond (depth m) m m.root a_event = .ok (outcome_of m (shape.buttons.findSome? (responds a_event))) := by
  obtain ⟨shape,stands,_,enough⟩ := shape_root owned
  exact ⟨shape,stands,respond_calls a_event shape stands enough⟩

/-- What a button does with a pointer that is let go. -/
theorem responds_called {button : Button F} {callback : Nat} (has : button.callback = some callback)
    (contains : Contains button.rect x y) (zero : code = 0) :
    responds (.pointer_up x y code) button = some (callback,button.widget) := by
  obtain ⟨left,right,top,bottom⟩ := contains
  rw [responds,has,Option.bind_some,if_pos]
  exact decide_eq_true ⟨left,right,top,bottom,zero.symm⟩

theorem responds_not_called {button : Button F} (silent : ¬ button.Called x y code) :
    responds (.pointer_up x y code) button = none := by
  rw [responds]
  cases has : button.callback with
  | none => rfl
  | some callback =>
    rw [Option.bind_some,if_neg]
    intro clicked
    obtain ⟨left,right,top,bottom,zero⟩ := of_decide_eq_true clicked
    exact silent ⟨by rw [has]; exact Option.some_ne_none _,⟨left,right,top,bottom⟩,zero.symm⟩

end

/-- A pointer that is let go calls the first button that has a callback and the
    place, and breaks, or it calls none and goes on. -/
theorem respond_first {F : Type} [Add F] [LT F] [LE F] [DecidableLT F] [DecidableLE F] (m : Memory F) (shape : Shape F)
    (a_widget : Option Nat) (x y : F) (code : Int) (fuel : Nat) (stands : shape.Stands m a_widget)
    (enough : shape.height < fuel) :
    ((∀ button ∈ shape.buttons,¬ button.Called x y code) ∧
      hwt_widget_respond fuel m a_widget (.pointer_up x y code) = .ok (m,.HWT_CONTINUE)) ∨
    ∃ before button after callback,shape.buttons = before ++ button :: after ∧
      (∀ other ∈ before,¬ other.Called x y code) ∧ button.callback = some callback ∧ Contains button.rect x y ∧ code = 0 ∧
      hwt_widget_respond fuel m a_widget (.pointer_up x y code) =
        .ok ({ m with called := m.called ++ [(callback,button.widget)] },.HWT_BREAK) := by
  rw [respond_calls _ shape stands enough]
  have decided : ∀ button : Button F,button.Called x y code ↔ responds (.pointer_up x y code) button ≠ none := by
    intro button
    constructor
    · rintro ⟨some_,contains,zero⟩
      obtain ⟨callback,has⟩ := Option.ne_none_iff_exists'.mp some_
      rw [responds_called has contains zero]
      exact Option.some_ne_none _
    · intro answers
      by_contra silent
      exact answers (responds_not_called silent)
  cases called : shape.buttons.findSome? (responds (.pointer_up x y code)) with
  | none =>
    refine .inl ⟨?_,rfl⟩
    intro button member
    rw [decided,not_not]
    exact List.findSome?_eq_none_iff.mp called button member
  | some call =>
    obtain ⟨before,button,after,split,answer,silent⟩ := List.findSome?_eq_some_iff.mp called
    obtain ⟨some_,contains,zero⟩ := (decided button).mpr (by rw [answer]; exact Option.some_ne_none _)
    obtain ⟨callback,has⟩ := Option.ne_none_iff_exists'.mp some_
    rw [responds_called has contains zero] at answer
    cases answer
    refine .inr ⟨before,button,after,callback,split,?_,has,contains,zero,rfl⟩
    intro other member
    rw [decided,not_not]
    exact silent other member

/-- A grid with a button that has no callback before one that has. -/
def two_buttons : Memory Int :=
  { root := some 0
    widgets := [⟨some .root,⟨0,0,4,4⟩,.grid ⟨1,2,[0],[0,0],⟨0,0⟩,[some 1,some 2]⟩⟩,
      ⟨some (.child 0 0),⟨0,0,4,4⟩,.button none none⟩,⟨some (.child 0 1),⟨0,0,4,4⟩,.button none (some 7)⟩]
    destroyed := []
    released := []
    called := [] }

def two_buttons_shape : Shape Int :=
  .grid 0 1 2 fun i =>
    if i = 0 then .button 1 ⟨0,0,4,4⟩ none .empty else .button 2 ⟨0,0,4,4⟩ (some 7) .empty

theorem two_buttons_stands : two_buttons_shape.Stands two_buttons (some 0) := by
  refine ⟨rfl,_,_,rfl,rfl,rfl,rfl,?_⟩
  intro i inside
  obtain rfl | rfl : i = 0 ∨ i = 1 := by omega
  · exact ⟨_,rfl,rfl,_,_,rfl,rfl,rfl,rfl⟩
  · exact ⟨_,rfl,rfl,_,_,rfl,rfl,rfl,rfl⟩

theorem respond_first_second : ∃ before button after callback,two_buttons_shape.buttons = before ++ button :: after ∧
    (∀ other ∈ before,¬ other.Called 1 2 0) ∧ button.callback = some callback ∧ Contains button.rect 1 2 ∧ (0 : Int) = 0 ∧
    hwt_widget_respond 4 two_buttons (some 0) (.pointer_up 1 2 0) =
      .ok ({ two_buttons with called := two_buttons.called ++ [(callback,button.widget)] },.HWT_BREAK) := by
  obtain ⟨silent,_⟩ | hit := respond_first two_buttons two_buttons_shape (some 0) 1 2 0 4 two_buttons_stands (by decide)
  · have called : (⟨2,⟨0,0,4,4⟩,some 7⟩ : Button Int) ∈ two_buttons_shape.buttons :=
      List.mem_cons_of_mem _ List.mem_cons_self
    exact absurd ⟨Option.some_ne_none _,by unfold Contains; decide,rfl⟩ (silent _ called)
  · exact hit

end Htools.Hwt
