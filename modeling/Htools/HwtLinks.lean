import Htools.Hwt
import Htools.Ownership
import Htools.Runs
import Mathlib.Data.Finset.Card

/-!
Slots and the parents that widgets have recorded. The calls keep them in step
(`Owned`), from which the widgets below the root make up a tree. A widget that
is freed takes with it what is below its slots and nothing else (`After`).
-/
namespace Htools.Hwt
open Htools.Ownership Htools.Runs

variable {F : Type} {m later last : Memory F} {widget child : Nat} {slot : Slot} {value : Option Nat}

/-- The child slots of a widget. -/
def children (m : Memory F) (widget : Nat) : List (Option Nat) :=
  match m.widgets[widget]? with
  | none => []
  | some a_widget => a_widget.data.children

/-- What is in a slot, which is nothing where there is no such slot. -/
def holds (m : Memory F) : Slot → Option Nat
  | .root => m.root
  | .child widget i => (children m widget)[i]?.join

def parent_of (m : Memory F) (widget : Nat) : Option Slot :=
  m.widgets[widget]?.bind (·.parent)

/-- The widget that a slot is in. -/
def owner : Slot → Option Nat
  | .root => none
  | .child widget _ => some widget

/-- A slot of the context or of a live widget. -/
def Slotted (m : Memory F) : Slot → Prop
  | .root => True
  | .child widget i => Live m widget ∧ i < (children m widget).length

/-- A grid has a slot for each of its cells. -/
def Data.Fits : Data F → Prop
  | .grid g => g.child.length = g.row_num * g.col_num
  | .button _ _ | .label _ | .panel _ => True

/-- The states of a context: slots and recorded parents are one to one, only live
    widgets are in slots or have any filled, and only destroyed widgets are released. -/
structure Owned (m : Memory F) : Prop where
  linked : Linked (holds m) (parent_of m)
  content : ∀ {slot child}, holds m slot = some child → Live m child
  owner : ∀ {widget i child}, holds m (.child widget i) = some child → widget ∉ m.destroyed
  fits : ∀ {widget a_widget}, m.widgets[widget]? = some a_widget → widget ∉ m.destroyed → a_widget.data.Fits
  once : m.destroyed.Nodup
  created : ∀ {widget}, widget ∈ m.destroyed → widget < m.widgets.length
  released : ∀ {widget}, widget ∈ m.released → widget ∈ m.destroyed

/-! ### Memory -/

@[simp] theorem Data.children_set_child (data : Data F) (i : Nat) :
    (data.set_child i value).children = data.children.set i value := by
  cases data with
  | button child callback => cases i <;> simp [set_child,children]
  | grid g => rfl
  | label text => simp [set_child,children]
  | panel child => cases i <;> simp [set_child,children]

theorem Data.fits_set_child {data : Data F} {i : Nat} (fits : data.Fits) : (data.set_child i value).Fits := by
  cases data with
  | grid g => simpa [set_child,Fits] using fits
  | button child callback => trivial
  | label text => trivial
  | panel child => trivial

/-- Slots that are empty are so, or gone, after the calls of `FREE`. -/
theorem Data.dropped_empty {data : Data F} (empty : ∀ i : Nat, data.children[i]?.join = none) (i : Nat) :
    data.dropped.children[i]?.join = none := by
  cases data with
  | button child callback => exact empty i
  | grid g => simp [dropped,children]
  | label text => simp [dropped,children]
  | panel child => exact empty i

section
variable (m) (f : HWTWidget F → HWTWidget F) (g : Data F → Data F) (parent : Option Slot)

@[simp] theorem modify_length : (modify m widget f).widgets.length = m.widgets.length := by simp [modify]

@[simp] theorem set_parent_length : (set_parent m widget parent).widgets.length = m.widgets.length := by
  simp [set_parent]

@[simp] theorem set_data_length : (set_data m widget g).widgets.length = m.widgets.length := by simp [set_data]

@[simp] theorem put_length : (put m slot value).widgets.length = m.widgets.length := by
  cases slot with
  | root => rfl
  | child widget i => simp [put]

@[simp] theorem put_destroyed : (put m slot value).destroyed = m.destroyed := by cases slot <;> rfl

@[simp] theorem put_released : (put m slot value).released = m.released := by cases slot <;> rfl

@[simp] theorem set_parent_destroyed : (set_parent m widget parent).destroyed = m.destroyed := rfl

@[simp] theorem set_parent_released : (set_parent m widget parent).released = m.released := rfl

theorem set_parent_at (other : Nat) : (set_parent m widget parent).widgets[other]? =
    m.widgets[other]?.map fun a => if widget = other then { a with parent := parent } else a := by
  simp only [set_parent,modify,List.getElem?_modify]
  rfl

theorem set_data_at (other : Nat) : (set_data m widget g).widgets[other]? =
    m.widgets[other]?.map fun a => if widget = other then { a with data := g a.data } else a := by
  simp only [set_data,modify,List.getElem?_modify]
  rfl

@[simp] theorem children_set_parent (other : Nat) : children (set_parent m widget parent) other = children m other := by
  rw [children,children,set_parent_at]
  cases m.widgets[other]? with
  | none => rfl
  | some a => by_cases same : widget = other <;> simp [same]

@[simp] theorem parent_of_set_data (other : Nat) : parent_of (set_data m widget g) other = parent_of m other := by
  rw [parent_of,parent_of,set_data_at]
  cases m.widgets[other]? with
  | none => rfl
  | some a => by_cases same : widget = other <;> simp [same]

@[simp] theorem holds_set_parent : holds (set_parent m widget parent) = holds m := by
  funext slot
  cases slot with
  | root => rfl
  | child other i => simp only [holds,children_set_parent]

@[simp] theorem parent_of_put : parent_of (put m slot value) = parent_of m := by
  cases slot with
  | root => rfl
  | child widget i =>
    funext other
    exact parent_of_set_data ..

theorem parent_of_set_parent (there : widget < m.widgets.length) :
    parent_of (set_parent m widget parent) = Function.update (parent_of m) widget parent := by
  funext other
  rw [parent_of,set_parent_at]
  by_cases same : other = widget
  · subst same
    simp [List.getElem?_eq_getElem there]
  · simp only [Function.update_of_ne same,if_neg (Ne.symm same),Option.map_id']
    rfl

theorem children_put (other : Nat) : children (put m slot value) other =
    match slot with
    | .root => children m other
    | .child widget i => if widget = other then (children m other).set i value else children m other := by
  cases slot with
  | root => rfl
  | child widget i =>
    simp only [children,put,set_data_at]
    cases m.widgets[other]? with
    | none => simp
    | some a => by_cases same : widget = other <;> simp [same]

@[simp] theorem children_put_length (other : Nat) :
    (children (put m slot value) other).length = (children m other).length := by
  rw [children_put]
  cases slot with
  | root => rfl
  | child widget i => by_cases same : widget = other <;> simp [same]

end

theorem holds_put (slotted : Slotted m slot) : holds (put m slot value) = Function.update (holds m) slot value := by
  funext other
  cases slot with
  | root =>
    cases other with
    | root => simp [holds,put]
    | child widget i => simp [holds,children_put]
  | child widget i =>
    cases other with
    | root => simp [holds,put,set_data,modify]
    | child x j =>
      simp only [holds,children_put]
      by_cases same : widget = x
      · subst same
        by_cases cell : i = j
        · subst cell
          simp [slotted.2]
        · simp [cell,Ne.symm cell,holds]
      · simp [same,Ne.symm same,holds]

theorem put_fits (fits : ∀ {x a}, m.widgets[x]? = some a → x ∉ m.destroyed → a.data.Fits) {x : Nat}
    {a : HWTWidget F} (found : (put m slot value).widgets[x]? = some a) (apart : x ∉ m.destroyed) : a.data.Fits := by
  cases slot with
  | root => exact fits found apart
  | child widget i =>
    rw [put,set_data_at] at found
    obtain ⟨b,before,rfl⟩ := Option.map_eq_some_iff.mp found
    by_cases same : widget = x
    · simp only [if_pos same]
      exact Data.fits_set_child (fits before apart)
    · simpa only [if_neg same] using fits before apart

/-! ### Changes that keep the invariant -/

/-- A write to a slot and to the parent of the widget that is in it. -/
theorem Owned.relink (owned : Owned m) (slotted : Slotted m slot) {parent : Option Slot}
    (linked : Linked (Function.update (holds m) slot value) (Function.update (parent_of m) widget parent))
    (live : Live m widget) (filled : value = none ∨ value = some widget) :
    Owned (set_parent (put m slot value) widget parent) where
  linked := by
    rw [holds_set_parent,parent_of_set_parent _ _ (by simpa using live.1),parent_of_put,holds_put slotted]
    exact linked
  content := by
    intro other child held
    rw [holds_set_parent,holds_put slotted] at held
    have kept : Live m child := by
      by_cases same : other = slot
      · subst same
        rw [Function.update_self] at held
        obtain empty | full := filled
        · rw [empty] at held
          cases held
        · rw [full] at held
          cases held
          exact live
      · rw [Function.update_of_ne same] at held
        exact owned.content held
    simpa [Live] using kept
  owner := by
    intro x i child held
    rw [holds_set_parent,holds_put slotted] at held
    simp only [set_parent_destroyed,put_destroyed]
    by_cases same : Slot.child x i = slot
    · rw [← same] at slotted
      exact slotted.1.2
    · rw [Function.update_of_ne same] at held
      exact owned.owner held
  fits := by
    intro x a found apart
    rw [set_parent_at] at found
    obtain ⟨b,before,rfl⟩ := Option.map_eq_some_iff.mp found
    have fits := put_fits owned.fits before (by simpa using apart)
    by_cases same : widget = x
    · simpa only [if_pos same] using fits
    · simpa only [if_neg same] using fits
  once := by simpa using owned.once
  created := fun gone => by simpa using owned.created (by simpa using gone)
  released := fun gone => by simpa using owned.released (by simpa using gone)

theorem Owned.attach (owned : Owned m) (slotted : Slotted m slot) (empty : holds m slot = none)
    (live : Live m child) (free : parent_of m child = none) :
    Owned (set_parent (put m slot (some child)) child (some slot)) :=
  owned.relink slotted (owned.linked.attach empty free) live (.inr rfl)

/-- The slot that a live widget has recorded is one of the context or of a live widget. -/
theorem Owned.recorded (owned : Owned m) (recorded : parent_of m widget = some slot) : Slotted m slot := by
  have held := (owned.linked slot widget).mpr recorded
  cases slot with
  | root => trivial
  | child x i =>
    have cell : i < (children m x).length := by
      by_contra outside
      rw [holds,List.getElem?_eq_none (by omega)] at held
      cases held
    refine ⟨⟨?_,owned.owner held⟩,cell⟩
    by_contra outside
    rw [children,List.getElem?_eq_none (by omega)] at cell
    exact absurd cell (Nat.not_lt_zero _)

theorem Owned.live (owned : Owned m) (recorded : parent_of m widget = some slot) : Live m widget :=
  owned.content ((owned.linked slot widget).mpr recorded)

theorem Owned.detach (owned : Owned m) (recorded : parent_of m widget = some slot) :
    Owned (set_parent (put m slot none) widget none) :=
  owned.relink (owned.recorded recorded) (owned.linked.detach recorded) (owned.live recorded) (.inl rfl)

theorem Owned.unheld (owned : Owned m) (free : parent_of m widget = none) : holds m slot ≠ some widget := by
  intro held
  rw [(owned.linked slot widget).mp held] at free
  cases free

/-- No slot changes where those of the widget are empty. -/
theorem holds_drop (empty : ∀ i, holds m (.child widget i) = none) : holds (drop m widget) = holds m := by
  funext slot
  cases slot with
  | root => rfl
  | child x i =>
    have before := empty i
    simp only [holds,children,drop,set_data_at] at before ⊢
    by_cases same : widget = x
    · subst same
      cases at_ : m.widgets[widget]? with
      | none => rfl
      | some a =>
        rw [at_] at before
        simp only [Option.map_some,if_pos trivial] at before ⊢
        rw [before,Data.dropped_empty]
        intro j
        simpa only [holds,children,at_] using empty j
    · cases m.widgets[x]? with
      | none => rfl
      | some a => simp only [Option.map_some,if_neg same]

theorem children_drop {other : Nat} (apart : widget ≠ other) : children (drop m widget) other = children m other := by
  simp only [children,drop,set_data_at]
  cases m.widgets[other]? with
  | none => rfl
  | some a => simp only [Option.map_some,if_neg apart]

/-- `destroy` has run for a widget that nothing holds and that holds nothing. -/
theorem Owned.finish (owned : Owned m) (live : Live m widget) (free : parent_of m widget = none)
    (empty : ∀ i, holds m (.child widget i) = none) : Owned (drop m widget) := by
  have same_holds := holds_drop empty
  have same_parents : parent_of (drop m widget) = parent_of m :=
    funext fun other => parent_of_set_data m Data.dropped other
  constructor
  · rw [same_holds,same_parents]
    exact owned.linked
  · intro slot child held
    rw [same_holds] at held
    have before := owned.content held
    refine ⟨by simpa [drop] using before.1,fun gone => ?_⟩
    rcases List.mem_append.mp gone with gone | gone
    · exact before.2 gone
    · rw [List.mem_singleton.mp gone] at held
      exact owned.unheld free held
  · intro x i child held gone
    rw [same_holds] at held
    rcases List.mem_append.mp gone with gone | gone
    · exact owned.owner held gone
    · rw [List.mem_singleton.mp gone,empty] at held
      cases held
  · intro x a found apart
    obtain ⟨before,other⟩ := not_or.mp (List.mem_append.not.mp apart)
    rw [drop,set_data_at] at found
    obtain ⟨b,there,rfl⟩ := Option.map_eq_some_iff.mp found
    rw [if_neg fun same => other (by simp [same])]
    exact owned.fits there before
  · refine List.nodup_append.mpr ⟨owned.once,List.nodup_singleton _,?_⟩
    intro x gone y last same
    rw [same,List.mem_singleton.mp last] at gone
    exact live.2 gone
  · intro x gone
    rw [drop,set_data_length]
    rcases List.mem_append.mp gone with gone | gone
    · exact owned.created gone
    · rw [List.mem_singleton.mp gone]
      exact live.1
  · exact fun gone => List.mem_append_left _ (owned.released gone)

theorem Owned.release (owned : Owned m) (gone : widget ∈ m.destroyed) :
    Owned { m with released := m.released ++ [widget] } where
  linked := owned.linked
  content := owned.content
  owner := owned.owner
  fits := owned.fits
  once := owned.once
  created := owned.created
  released := by
    intro x given
    rcases List.mem_append.mp given with given | given
    · exact owned.released given
    · rw [List.mem_singleton.mp given]
      exact gone

/-- A widget is new, without a parent, and with empty slots. -/
theorem Owned.create (owned : Owned m) {a_widget : HWTWidget F} (free : a_widget.parent = none)
    (empty : ∀ i : Nat, a_widget.data.children[i]?.join = none) (fits : a_widget.data.Fits) :
    Owned (append m a_widget) := by
  have at_ : ∀ x, (m.widgets ++ [a_widget])[x]? = if x = m.widgets.length then some a_widget else m.widgets[x]? := by
    intro x
    by_cases last : x = m.widgets.length
    · simp [last]
    · rw [if_neg last,List.getElem?_append]
      by_cases inside : x < m.widgets.length
      · simp [inside]
      · rw [if_neg inside,List.getElem?_eq_none (by simp; omega),List.getElem?_eq_none (by omega)]
  have same_holds : holds (append m a_widget) = holds m := by
    funext slot
    cases slot with
    | root => rfl
    | child x i =>
      simp only [holds,children,append,at_]
      by_cases last : x = m.widgets.length
      · simp [last,empty]
      · simp [last]
  have same_parents : parent_of (append m a_widget) = parent_of m := by
    funext x
    simp only [parent_of,append,at_]
    by_cases last : x = m.widgets.length
    · simp [last,free]
    · simp [last]
  constructor
  · rw [same_holds,same_parents]
    exact owned.linked
  · intro slot child held
    rw [same_holds] at held
    obtain ⟨there,live⟩ := owned.content held
    exact ⟨by simp only [append,List.length_append,List.length_singleton]; omega,live⟩
  · intro x i child held
    rw [same_holds] at held
    exact owned.owner held
  · intro x a found apart
    rw [append,at_] at found
    by_cases last : x = m.widgets.length
    · rw [if_pos last] at found
      cases found
      exact fits
    · rw [if_neg last] at found
      exact owned.fits found apart
  · exact owned.once
  · intro x gone
    have := owned.created gone
    simp only [append,List.length_append,List.length_singleton]
    omega
  · exact owned.released

/-! ### Reads -/

theorem get_total (owned : Owned m) (live : Live m widget) :
    ∃ a_widget, get m widget = .ok a_widget ∧ m.widgets[widget]? = some a_widget ∧ a_widget.data.Fits ∧
      a_widget.data.children = children m widget ∧ a_widget.parent = parent_of m widget := by
  have at_ := List.getElem?_eq_getElem live.1
  refine ⟨_,?_,at_,owned.fits at_ live.2,?_,?_⟩
  · rw [get,if_neg fun given => live.2 (owned.released given),at_]
  · rw [children,at_]
  · rw [parent_of,at_]
    rfl

theorem load_total (owned : Owned m) (slotted : Slotted m slot) : load m slot = .ok (holds m slot) := by
  cases slot with
  | root => rfl
  | child widget i =>
    obtain ⟨live,inside⟩ := slotted
    obtain ⟨a_widget,run,_,_,same,_⟩ := get_total owned live
    simp only [load,run,bind,Except.bind,same,List.getElem?_eq_getElem inside,holds]
    rfl

theorem store_total (owned : Owned m) (slotted : Slotted m slot) : store m slot value = .ok (put m slot value) := by
  rw [store,load_total owned slotted]
  rfl

end Htools.Hwt
