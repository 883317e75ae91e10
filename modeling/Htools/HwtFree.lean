import Htools.HwtLinks

/-!
The recursion of `hwt_widget_free` through the callbacks `destroy`. Every call
through a slot takes a widget out of a slot, so the recursion is no deeper than
there are widgets in slots (`free_slot_total`). In the end the widgets below the
slot are destroyed, and those only (`After.all`).
-/
namespace Htools.Hwt
open Htools.Ownership Htools.Runs

variable {F : Type} {m later last : Memory F} {widget child : Nat} {slot : Slot} {gone more : List Nat}

/-- Some widgets have been destroyed, but none released. No slot of the others
    has changed, but for the destroyed widgets that it held. -/
structure After (m later : Memory F) (gone : List Nat) : Prop where
  destroyed : later.destroyed = m.destroyed ++ gone
  released : later.released = m.released
  length : later.widgets.length = m.widgets.length
  fewer : ∀ slot child, holds later slot = some child → holds m slot = some child
  kept : ∀ slot child, holds m slot = some child → child ∉ gone → holds later slot = some child
  slots : ∀ widget, widget ∉ gone → (children later widget).length = (children m widget).length

/-- The widgets are all below slots. -/
def Taken (m : Memory F) (gone : List Nat) : Prop :=
  ∀ widget ∈ gone, ∃ slot, Below (holds m) owner slot widget

theorem After.refl : After m m [] :=
  ⟨by simp,rfl,rfl,fun _ _ held => held,fun _ _ held _ => held,fun _ _ => rfl⟩

theorem After.trans (first : After m later gone) (second : After later last more) : After m last (gone ++ more) where
  destroyed := by rw [second.destroyed,first.destroyed,List.append_assoc]
  released := second.released.trans first.released
  length := second.length.trans first.length
  fewer := fun slot child held => first.fewer slot child (second.fewer slot child held)
  kept := by
    intro slot child held apart
    obtain ⟨before,behind⟩ := not_or.mp (List.mem_append.not.mp apart)
    exact second.kept slot child (first.kept slot child held before) behind
  slots := by
    intro widget apart
    obtain ⟨before,behind⟩ := not_or.mp (List.mem_append.not.mp apart)
    rw [second.slots widget behind,first.slots widget before]

theorem After.taken (first : After m later gone) (taken : Taken later more) : Taken m more := by
  intro widget member
  obtain ⟨slot,below⟩ := taken widget member
  exact ⟨slot,below.mono first.fewer⟩

/-- A widget that nothing holds stays as it is. -/
theorem After.apart (owned : Owned m) (after : After m later gone) (taken : Taken m gone)
    (live : Live m widget) (free : parent_of m widget = none) : Live later widget ∧ widget ∉ gone := by
  have apart : widget ∉ gone := by
    intro member
    obtain ⟨slot,below⟩ := taken widget member
    obtain ⟨other,held⟩ := below.slot
    exact owned.unheld free held
  refine ⟨⟨?_,?_⟩,apart⟩
  · rw [after.length]
    exact live.1
  · rw [after.destroyed]
    exact fun member => (List.mem_append.mp member).elim live.2 apart

theorem After.free (owned : Owned m) (owned' : Owned later) (after : After m later gone)
    (free : parent_of m widget = none) : parent_of later widget = none := by
  cases recorded : parent_of later widget with
  | none => rfl
  | some slot => exact absurd (after.fewer _ _ ((owned'.linked slot widget).mpr recorded)) (owned.unheld free)

/-- With the slot empty in the end, all that was below it has been destroyed. -/
theorem After.all (after : After m later gone) (owned' : Owned later) (empty : holds later slot = none)
    (below : Below (holds m) owner slot widget) : widget ∈ gone := by
  refine below_mem (D := (· ∈ gone)) ?_ ?_ below
  · intro child held
    by_contra apart
    rw [after.kept _ _ held apart] at empty
    cases empty
  · intro above slot child member owned held
    by_contra apart
    have kept := after.kept _ _ held apart
    cases slot with
    | root => cases owned
    | child x i =>
      cases owned
      refine owned'.owner kept ?_
      rw [after.destroyed]
      exact List.mem_append_right _ member

/-! ### Depth -/

open Classical in
/-- The widgets that are in slots. -/
noncomputable def held (m : Memory F) : Finset Nat :=
  (Finset.range m.widgets.length).filter fun child => ∃ slot, holds m slot = some child

open Classical in
theorem mem_held_iff (owned : Owned m) : child ∈ held m ↔ ∃ slot, holds m slot = some child := by
  rw [held,Finset.mem_filter,Finset.mem_range]
  exact ⟨And.right,fun ⟨slot,here⟩ => ⟨(owned.content here).1,slot,here⟩⟩

theorem held_le (owned : Owned m) (owned' : Owned later)
    (fewer : ∀ slot child, holds later slot = some child → holds m slot = some child) :
    (held later).card ≤ (held m).card := by
  refine Finset.card_le_card fun child member => ?_
  obtain ⟨slot,here⟩ := (mem_held_iff owned').mp member
  exact (mem_held_iff owned).mpr ⟨slot,fewer _ _ here⟩

theorem held_lt (owned : Owned m) (owned' : Owned later) (free : parent_of later child = none)
    (fewer : ∀ slot child, holds later slot = some child → holds m slot = some child)
    (here : holds m slot = some child) : (held later).card < (held m).card := by
  refine Finset.card_lt_card ((Finset.ssubset_iff_of_subset fun other member => ?_).mpr ⟨child,?_,?_⟩)
  · obtain ⟨slot,here⟩ := (mem_held_iff owned').mp member
    exact (mem_held_iff owned).mpr ⟨slot,fewer _ _ here⟩
  · exact (mem_held_iff owned).mpr ⟨slot,here⟩
  · intro member
    obtain ⟨slot,here⟩ := (mem_held_iff owned').mp member
    exact owned'.unheld free here

open Classical in
theorem held_lt_length (owned : Owned m) (live : Live m widget) (free : parent_of m widget = none) :
    (held m).card < m.widgets.length := by
  rw [← Finset.card_range m.widgets.length]
  refine Finset.card_lt_card ((Finset.ssubset_iff_of_subset (Finset.filter_subset _ _)).mpr
    ⟨widget,Finset.mem_range.mpr live.1,fun member => ?_⟩)
  obtain ⟨slot,here⟩ := (mem_held_iff owned).mp member
  exact owned.unheld free here

open Classical in
theorem held_lt_depth : (held m).card < depth m := by
  refine Nat.lt_succ_of_le ((Finset.card_filter_le _ _).trans ?_)
  rw [Finset.card_range]

/-! ### `hwt_widget_free` -/

/-- The slots that are freed: the root, and those of a widget that nothing holds. -/
def Top (m : Memory F) : Slot → Prop
  | .root => True
  | .child widget i => Live m widget ∧ i < (children m widget).length ∧ parent_of m widget = none

theorem Top.slotted (top : Top m slot) : Slotted m slot := by
  cases slot with
  | root => trivial
  | child widget i => exact ⟨top.1,top.2.1⟩

/-- What a call through a slot does. -/
def FreesSlot (free : Memory F → Handle → Except Stop (Memory F)) (m : Memory F) (slot : Slot) : Prop :=
  ∃ later gone, free m (.slot slot) = .ok later ∧ Owned later ∧ After m later gone ∧
    holds later slot = none ∧ ∀ widget ∈ gone, Below (holds m) owner slot widget

section
variable {free : Memory F → Handle → Except Stop (Memory F)} {bound : Nat}

/-- The loop empties the slots that are left of a widget. -/
theorem destroy_loop_total (frees : ∀ {m slot}, Owned m → Top m slot → (held m).card < bound → FreesSlot free m slot) :
    ∀ {left i m}, Owned m → Live m widget → parent_of m widget = none →
      i + left ≤ (children m widget).length → (held m).card < bound →
      ∃ later gone, destroy_loop free widget left i m = .ok later ∧ Owned later ∧ After m later gone ∧
        (∀ j, i ≤ j → j < i + left → holds later (.child widget j) = none) ∧
        ∀ x ∈ gone, ∃ j, Below (holds m) owner (.child widget j) x := by
  intro left
  induction left with
  | zero =>
    intro i m owned live top inside small
    exact ⟨m,[],rfl,owned,.refl,fun j low high => by omega,fun x member => by cases member⟩
  | succ left ih =>
    intro i m owned live top inside small
    obtain ⟨mid,gone,first,owned',after,empty,below⟩ := frees owned (show Top m (.child widget i) from ⟨live,by omega,top⟩) small
    obtain ⟨live',apart⟩ := after.apart owned (fun x member => ⟨_,below x member⟩) live top
    have same := after.slots widget apart
    obtain ⟨later,more,rest,owned'',after',empties,below'⟩ := ih (i := i + 1) owned' live' (after.free owned owned' top)
      (by omega) (lt_of_le_of_lt (held_le owned owned' after.fewer) small)
    refine ⟨later,gone ++ more,?_,owned'',after.trans after',?_,?_⟩
    · simp only [destroy_loop,first,bind,Except.bind]
      exact rest
    · intro j low high
      by_cases start : j = i
      · subst start
        cases here : holds later (.child widget j) with
        | none => rfl
        | some x =>
          rw [after'.fewer _ _ here] at empty
          cases empty
      · exact empties j (by omega) (by omega)
    · intro x member
      rcases List.mem_append.mp member with member | member
      · exact ⟨i,below x member⟩
      · obtain ⟨j,below⟩ := below' x member
        exact ⟨j,below.mono after.fewer⟩

/-- Each `destroy` frees all slots of its widget. -/
theorem destroy_eq {a_widget : HWTWidget F} (found : get m widget = .ok a_widget) (fits : a_widget.data.Fits) :
    destroy free m widget = (do
      let m ← destroy_loop free widget a_widget.data.children.length 0 m
      .ok (drop m widget)) := by
  simp only [destroy,found,bind,Except.bind]
  cases kind : a_widget.data with
  | button child callback =>
    simp only [Data.children,List.length_singleton,destroy_loop,bind,Except.bind]
    cases free m (.slot (.child widget 0)) <;> rfl
  | grid g =>
    rw [kind] at fits
    simp only [Data.children,fits.symm]
  | label text => rfl
  | panel child =>
    simp only [Data.children,List.length_singleton,destroy_loop,bind,Except.bind]
    cases free m (.slot (.child widget 0)) <;> rfl

theorem destroy_total (frees : ∀ {m slot}, Owned m → Top m slot → (held m).card < bound → FreesSlot free m slot)
    (owned : Owned m) (live : Live m widget) (top : parent_of m widget = none) (small : (held m).card < bound) :
    ∃ later gone, destroy free m widget = .ok later ∧ Owned later ∧ After m later (gone ++ [widget]) ∧ widget ∉ gone ∧
      (∀ i, holds later (.child widget i) = none) ∧ ∀ x ∈ gone, ∃ j, Below (holds m) owner (.child widget j) x := by
  obtain ⟨a_widget,found,_,fits,same,_⟩ := get_total owned live
  obtain ⟨mid,gone,run,owned',after,empty,below⟩ := destroy_loop_total frees owned live top
    (Nat.zero_add (children m widget).length).le small
  have taken : Taken m gone := fun x member => (below x member).imp' _ fun _ below => below
  obtain ⟨live',apart⟩ := after.apart owned taken live top
  have empties : ∀ i, holds mid (.child widget i) = none := by
    intro i
    by_cases inside : i < (children m widget).length
    · exact empty i (Nat.zero_le _) (by omega)
    · rw [holds,List.getElem?_eq_none (by rw [after.slots widget apart]; omega)]
      rfl
  have finished := owned'.finish live' (after.free owned owned' top) empties
  refine ⟨drop mid widget,gone,?_,finished,?_,apart,?_,below⟩
  · rw [destroy_eq found fits,same,run]
    rfl
  · refine ⟨?_,after.released,?_,?_,?_,?_⟩
    · simp [drop,after.destroyed]
    · rw [drop,set_data_length,after.length]
    · intro slot child here
      rw [holds_drop empties] at here
      exact after.fewer _ _ here
    · intro slot child here away
      rw [holds_drop empties]
      exact after.kept _ _ here fun member => away (List.mem_append_left _ member)
    · intro other away
      obtain ⟨before,behind⟩ := not_or.mp (List.mem_append.not.mp away)
      rw [children_drop fun same => behind (by simp [same]),after.slots other before]
  · intro i
    rw [holds_drop empties]
    exact empties i

end

/-- A widget has been taken out of the slot that held it. -/
structure Detached (m later : Memory F) (widget : Nat) : Prop where
  owned : Owned later
  free : parent_of later widget = none
  destroyed : later.destroyed = m.destroyed
  released : later.released = m.released
  length : later.widgets.length = m.widgets.length
  fewer : ∀ slot child, holds later slot = some child → holds m slot = some child
  kept : ∀ slot child, holds m slot = some child → child ≠ widget → holds later slot = some child
  slots : ∀ other, (children later other).length = (children m other).length

theorem detach_total (owned : Owned m) (live : Live m widget) :
    ∃ later, detach m widget = .ok later ∧ Detached m later widget := by
  obtain ⟨a_widget,found,_,_,_,parent⟩ := get_total owned live
  simp only [detach,found,bind,Except.bind,parent]
  cases recorded : parent_of m widget with
  | none => exact ⟨m,rfl,owned,recorded,rfl,rfl,rfl,fun _ _ here => here,fun _ _ here _ => here,fun _ => rfl⟩
  | some slot =>
    have slotted := owned.recorded recorded
    simp only [store_total owned slotted]
    refine ⟨_,rfl,owned.detach recorded,?_,by simp,by simp,by simp,?_,?_,by simp⟩
    · rw [parent_of_set_parent _ _ (by simpa using live.1),Function.update_self]
    · intro other child here
      rw [holds_set_parent,holds_put slotted] at here
      by_cases same : other = slot
      · rw [same,Function.update_self] at here
        cases here
      · rwa [Function.update_of_ne same] at here
    · intro other child here apart
      rw [holds_set_parent,holds_put slotted]
      by_cases same : other = slot
      · rw [same,(owned.linked slot widget).mpr recorded] at here
        exact absurd (Option.some.inj here).symm apart
      · rwa [Function.update_of_ne same]

theorem Detached.live (apart : Detached m later widget) : Live later widget ↔ Live m widget := by
  rw [Live,Live,apart.length,apart.destroyed]

/-- What is destroyed afterwards is so from before. -/
theorem Detached.after (apart : Detached m later widget) (after : After later last (gone ++ [widget])) :
    After m last (gone ++ [widget]) where
  destroyed := by rw [after.destroyed,apart.destroyed]
  released := after.released.trans apart.released
  length := after.length.trans apart.length
  fewer := fun slot child here => apart.fewer _ _ (after.fewer _ _ here)
  kept := fun slot child here away => after.kept _ _ (apart.kept _ _ here fun same => away (by simp [same])) away
  slots := fun other away => (after.slots other away).trans (apart.slots other)

/-- A slot of a widget that nothing holds stays one. -/
theorem After.slotted (owned : Owned m) (after : After m later gone) (taken : Taken m gone) (top : Top m slot) :
    Slotted later slot := by
  cases slot with
  | root => trivial
  | child x i =>
    obtain ⟨live,inside,free⟩ := top
    obtain ⟨live',away⟩ := after.apart owned taken live free
    exact ⟨live',by rwa [after.slots x away]⟩

theorem free_slot_total : ∀ {fuel m slot}, Owned (F := F) m → Top m slot → (held m).card < fuel →
    FreesSlot (hwt_widget_free fuel) m slot := by
  intro fuel
  induction fuel with
  | zero => exact fun _ _ small => absurd small (Nat.not_lt_zero _)
  | succ fuel ih =>
    intro m slot owned top small
    simp only [FreesSlot,hwt_widget_free,read,load_total owned top.slotted,bind,Except.bind]
    cases here : holds m slot with
    | none => exact ⟨m,[],rfl,owned,.refl,here,fun x member => by cases member⟩
    | some widget =>
      have live := owned.content here
      obtain ⟨mid,detached,apart⟩ := detach_total owned live
      obtain ⟨later,gone,run,owned',after,_,_,below⟩ := destroy_total ih apart.owned (apart.live.mpr live) apart.free
        (Nat.lt_of_lt_of_le (held_lt owned apart.owned apart.free apart.fewer here) (Nat.le_of_lt_succ small))
      have all := apart.after after
      have reach : ∀ x ∈ gone ++ [widget], Below (holds m) owner slot x := by
        intro x member
        rcases List.mem_append.mp member with member | member
        · obtain ⟨j,under⟩ := below x member
          exact (Below.held here).trans rfl (under.mono apart.fewer)
        · rw [List.mem_singleton.mp member]
          exact .held here
      -- the slot has been emptied with the parent, so nothing is left there for FREE
      have empty : holds later slot = none := by
        cases still : holds later slot with
        | none => rfl
        | some x =>
          have before := apart.fewer _ _ (after.fewer _ _ still)
          rw [here] at before
          cases before
          exact absurd (after.fewer _ _ still) (apart.owned.unheld apart.free)
      refine ⟨later,gone ++ [widget],?_,owned',all,empty,reach⟩
      simp only [detached,run,free_at,bind,Except.bind,
        load_total owned' (all.slotted owned (fun x member => ⟨slot,reach x member⟩) top),empty]

/-- A call through a variable destroys the widget after what is below it, and
    releases the widget alone. -/
theorem free_own_total (owned : Owned m) (live : Live m widget) :
    ∃ mid later gone, Detached m mid widget ∧ After mid later (gone ++ [widget]) ∧ widget ∉ gone ∧
      (∀ i, holds later (.child widget i) = none) ∧ (∀ x ∈ gone, ∃ j, Below (holds mid) owner (.child widget j) x) ∧
      hwt_widget_free (depth m) m (.own (some widget)) = .ok { later with released := later.released ++ [widget] } ∧
      Owned { later with released := later.released ++ [widget] } := by
  obtain ⟨mid,detached,apart⟩ := detach_total owned live
  have live' := apart.live.mpr live
  have small : (held mid).card < m.widgets.length := by
    rw [← apart.length]
    exact held_lt_length apart.owned live' apart.free
  obtain ⟨later,gone,run,owned',after,unheld,empties,below⟩ := destroy_total free_slot_total apart.owned live' apart.free small
  have unreleased : widget ∉ later.released := by
    rw [after.released,apart.released]
    exact fun given => live.2 (owned.released given)
  refine ⟨mid,later,gone,apart,after,unheld,empties,below,?_,owned'.release ?_⟩
  · simp only [hwt_widget_free,depth,read,detached,run,free_at,release,bind,Except.bind]
    rw [if_neg (not_or.mpr ⟨unreleased,by rw [after.length,apart.length]; exact Nat.not_le.mpr live.1⟩)]
  · rw [after.destroyed]
    simp

/-! ### Runs -/

section
variable {g_type : Types}

/-- A context as it is after `hwt_create`. -/
theorem owned_create (name : Nat) : Owned (hwt_create (F := F) name g_type).1.memory where
  linked := by
    intro slot child
    cases slot <;> simp [holds,parent_of,children,hwt_create,hwt_panel_setup_,hwt_label_setup_,hwt_grid_setup_,
      hwt_button_setup_,hwt_widget_register_]
  content := fun {slot child} here => by cases slot <;> cases here
  owner := fun here => by cases here
  fits := fun found => by cases found
  once := List.nodup_nil
  created := fun gone => by cases gone
  released := fun given => by cases given

/-- A child is put into an empty slot. -/
theorem assign_owned (owned : Owned m) (slotted : Slotted m slot) {a_child : Option Nat}
    (live : ∀ child ∈ a_child, Live m child) (run : hwt_widget_assign m slot a_child = .ok later) : Owned later := by
  simp only [hwt_widget_assign,load_total owned slotted,bind,Except.bind] at run
  by_cases empty : holds m slot = none
  · rw [if_neg (not_not.mpr empty)] at run
    cases a_child with
    | none =>
      cases run
      exact owned
    | some child =>
      have there := live child rfl
      obtain ⟨a_widget,found,_,_,_,parent⟩ := get_total owned there
      simp only [found,parent,store_total owned slotted] at run
      by_cases free : parent_of m child = none
      · rw [if_neg (not_not.mpr free)] at run
        cases run
        exact owned.attach slotted empty there free
      · rw [if_pos free] at run
        cases run
  · rw [if_pos empty] at run
    cases run

/-- The private part of a new widget can be set at once. -/
theorem set_data_last (a_widget : HWTWidget F) (data : Data F) :
    set_data (append m a_widget) m.widgets.length (fun _ => data) = append m { a_widget with data := data } := by
  simp only [set_data,modify,append,Memory.mk.injEq,true_and,and_true]
  refine List.ext_getElem? fun i => ?_
  rw [List.getElem?_modify]
  by_cases last : i = m.widgets.length
  · subst last
    simp
  · rcases Nat.lt_or_gt_of_ne last with before | behind
    · simp [List.getElem?_append_left before,Ne.symm last]
    · simp [List.getElem?_append_right behind.le,Nat.sub_ne_zero_of_lt behind]

end

section
variable [Zero F] {hwt after : HWT F} {g_type : Types} {op : Op}

theorem hwt_widget_create_cases {a_type : Option HWTWidgetType} {created : Nat × Memory F}
    (run : hwt_widget_create hwt a_type = .ok created) : created.1 = hwt.memory.widgets.length ∧
      ∃ kind, created.2 = append hwt.memory { parent := none, rect := ⟨0,0,0,0⟩, data := Data.zero kind } := by
  simp only [hwt_widget_create] at run
  cases found : hwt.type_list.find? fun type => a_type = some type with
  | none =>
    rw [found] at run
    cases run
  | some type =>
    rw [found] at run
    cases run
    exact ⟨rfl,type.callback,rfl⟩

theorem created_owned (owned : Owned m) (kind : Kind) :
    Owned (append m { parent := none, rect := ⟨0,0,0,0⟩, data := Data.zero kind }) := by
  refine owned.create rfl (fun i => ?_) ?_
  · cases kind <;> cases i <;> simp [Data.zero,Data.children]
  · cases kind <;> simp [Data.zero,Data.Fits]

theorem hwt_widget_create_owned (owned : Owned hwt.memory) {a_type : Option HWTWidgetType} {created : Nat × Memory F}
    (run : hwt_widget_create hwt a_type = .ok created) : Owned created.2 := by
  obtain ⟨_,kind,made⟩ := hwt_widget_create_cases run
  rw [made]
  exact created_owned owned kind

/-- The private part of a widget is set right after it has been created. -/
theorem created_set_owned (owned : Owned hwt.memory) {a_type : Option HWTWidgetType} {created : Nat × Memory F}
    (run : hwt_widget_create hwt a_type = .ok created) {data : Data F} (fits : data.Fits)
    (empty : ∀ i : Nat, data.children[i]?.join = none) : Owned (set_data created.2 created.1 fun _ => data) := by
  obtain ⟨name,kind,made⟩ := hwt_widget_create_cases run
  rw [made,name,set_data_last]
  exact owned.create rfl empty fits

theorem hwt_grid_create_owned (owned : Owned hwt.memory) {row_num col_num : Nat} {created : Nat × Memory F}
    (run : hwt_grid_create g_type hwt row_num col_num = .ok created) : Owned created.2 := by
  rw [hwt_grid_create] at run
  split at run
  · cases run
  · obtain ⟨made,first,rest⟩ := bind_ok_iff.mp run
    cases rest
    refine created_set_owned owned first ?_ fun i => ?_
    · simp [Data.Fits]
    · simp only [Data.children,List.getElem?_replicate]
      split <;> rfl

theorem hwt_label_create_owned (owned : Owned hwt.memory) {text : List UInt8} {created : Nat × Memory F}
    (run : hwt_label_create g_type hwt text = .ok created) : Owned created.2 := by
  obtain ⟨made,first,rest⟩ := bind_ok_iff.mp run
  cases rest
  exact created_set_owned owned first trivial fun i => by simp [Data.children]

end

section
variable {a_child : Option Nat}

/-- The cell of a grid is one of its slots. -/
theorem cell_lt {row_num col_num row col : Nat} (low : row < row_num) (left : col < col_num) :
    col_num * row + col < row_num * col_num := by
  calc col_num * row + col < col_num * row + col_num := by omega
    _ = (row + 1) * col_num := by rw [Nat.succ_mul,Nat.mul_comm]
    _ ≤ row_num * col_num := Nat.mul_le_mul_right _ low

/-- What reads a widget and puts a child into one of its slots. -/
theorem set_child_owned (owned : Owned m) (live : Live m widget) (there : ∀ child ∈ a_child, Live m child)
    {change : HWTWidget F → Except Stop (Memory F)}
    (assigns : ∀ a_widget, a_widget.data.Fits → change a_widget = .ok later → ∃ i < a_widget.data.children.length,
      hwt_widget_assign m (.child widget i) a_child = .ok later)
    (run : get m widget >>= change = .ok later) : Owned later := by
  obtain ⟨a_widget,found,_,fits,same,_⟩ := get_total owned live
  obtain ⟨_,again,run⟩ := bind_ok_iff.mp run
  cases found.symm.trans again
  obtain ⟨i,inside,assigned⟩ := assigns a_widget fits run
  rw [same] at inside
  exact assign_owned owned (show Slotted m (.child widget i) from ⟨live,inside⟩) there assigned

theorem hwt_button_set_child_owned (owned : Owned m) (live : Live m widget) (there : ∀ child ∈ a_child, Live m child)
    (run : hwt_button_set_child m widget a_child = .ok later) : Owned later := by
  refine set_child_owned owned live there (fun a_widget _ run => ?_) run
  cases kind : a_widget.data with
  | button child callback =>
    rw [kind] at run
    exact ⟨0,Nat.one_pos,run⟩
  | grid g => rw [kind] at run; cases run
  | label text => rw [kind] at run; cases run
  | panel child => rw [kind] at run; cases run

theorem hwt_panel_set_child_owned (owned : Owned m) (live : Live m widget) (there : ∀ child ∈ a_child, Live m child)
    (run : hwt_panel_set_child m widget a_child = .ok later) : Owned later := by
  refine set_child_owned owned live there (fun a_widget _ run => ?_) run
  cases kind : a_widget.data with
  | panel child =>
    rw [kind] at run
    exact ⟨0,Nat.one_pos,run⟩
  | button child callback => rw [kind] at run; cases run
  | grid g => rw [kind] at run; cases run
  | label text => rw [kind] at run; cases run

theorem hwt_grid_set_child_owned (owned : Owned m) (live : Live m widget) (there : ∀ child ∈ a_child, Live m child)
    {row col : Nat} (run : hwt_grid_set_child m widget row col a_child = .ok later) : Owned later := by
  refine set_child_owned owned live there (fun a_widget fits run => ?_) run
  cases kind : a_widget.data with
  | grid g =>
    rw [kind] at run fits
    by_cases outside : g.row_num ≤ row ∨ g.col_num ≤ col
    · simp only [if_pos outside] at run
      cases run
    · simp only [if_neg outside] at run
      obtain ⟨low,left⟩ := not_or.mp outside
      refine ⟨_,?_,run⟩
      rw [Data.children,show g.child.length = g.row_num * g.col_num from fits]
      exact cell_lt (Nat.not_le.mp low) (Nat.not_le.mp left)
  | button child callback => rw [kind] at run; cases run
  | label text => rw [kind] at run; cases run
  | panel child => rw [kind] at run; cases run

end

section
variable [Zero F] {hwt after : HWT F} {g_type : Types} {op : Op}

/-- A call that returns is one with live widgets. -/
theorem step_ok_iff : step g_type hwt op = .ok after ↔ (∀ widget ∈ op.widgets, Live hwt.memory widget) ∧
    ∃ m, perform g_type hwt op = .ok m ∧ after = { hwt with memory := m } := by
  rw [step]
  by_cases live : ∀ widget ∈ op.widgets, Live hwt.memory widget
  · rw [if_pos live,and_iff_right live,bind_ok_iff]
    simp only [Except.ok.injEq,eq_comm (a := after)]
  · rw [if_neg live]
    exact iff_of_false (fun run => nomatch run) fun both => live both.1

theorem perform_owned (owned : Owned hwt.memory) (live : ∀ widget ∈ op.widgets, Live hwt.memory widget)
    (run : perform g_type hwt op = .ok m) : Owned m := by
  cases op with
  | button_create =>
    obtain ⟨created,made,rfl⟩ := map_ok_iff.mp run
    exact hwt_widget_create_owned owned made
  | grid_create row_num col_num =>
    obtain ⟨created,made,rfl⟩ := map_ok_iff.mp run
    exact hwt_grid_create_owned owned made
  | label_create text =>
    obtain ⟨created,made,rfl⟩ := map_ok_iff.mp run
    exact hwt_label_create_owned owned made
  | panel_create =>
    obtain ⟨created,made,rfl⟩ := map_ok_iff.mp run
    exact hwt_widget_create_owned owned made
  | set_root root =>
    exact assign_owned owned (show Slotted hwt.memory .root from trivial) (fun child member => live child (Option.mem_toList.mpr member)) run
  | button_set_child button child =>
    exact hwt_button_set_child_owned owned (live button (by simp [Op.widgets]))
      (fun other member => live other (List.mem_cons_of_mem _ (Option.mem_toList.mpr member))) run
  | grid_set_child grid row col child =>
    exact hwt_grid_set_child_owned owned (live grid (by simp [Op.widgets]))
      (fun other member => live other (List.mem_cons_of_mem _ (Option.mem_toList.mpr member))) run
  | panel_set_child panel child =>
    exact hwt_panel_set_child_owned owned (live panel (by simp [Op.widgets]))
      (fun other member => live other (List.mem_cons_of_mem _ (Option.mem_toList.mpr member))) run
  | widget_free widget =>
    cases widget with
    | none =>
      cases run
      exact owned
    | some widget =>
      obtain ⟨_,_,_,_,_,_,_,_,total,owned'⟩ := free_own_total owned (live widget (by simp [Op.widgets]))
      cases total.symm.trans run
      exact owned'

theorem step_owned (owned : Owned hwt.memory) (run : step g_type hwt op = .ok after) : Owned after.memory := by
  obtain ⟨live,m,called,rfl⟩ := step_ok_iff.mp run
  exact perform_owned owned live called

/-- All states of a run are ones of the invariant. -/
theorem reached_owned {name : Nat} {old : Types} {ops : List Op}
    (reached : Reached (step g_type) (hwt_create (F := F) name old).1 ops hwt) : Owned hwt.memory :=
  reached_keeps (I := fun hwt : HWT F => Owned hwt.memory) (fun _ _ _ owned run => step_owned owned run) (owned_create name) reached

end

/-- The end of a context destroys what is below the root. -/
theorem hwt_free_total {hwt : HWT F} (owned : Owned hwt.memory) : ∃ later gone,
    hwt_free hwt = .ok { type_list := [], memory := later, freed := true } ∧ Owned later ∧ After hwt.memory later gone ∧
      holds later .root = none ∧ ∀ w, w ∈ gone ↔ Below (holds hwt.memory) owner .root w := by
  obtain ⟨later,gone,run,owned',after,empty,below⟩ := free_slot_total owned
    (show Top hwt.memory .root from trivial) held_lt_depth
  refine ⟨later,gone,?_,owned',after,empty,fun w => ⟨below w,after.all owned' empty⟩⟩
  simp only [hwt_free,run,bind,Except.bind]

end Htools.Hwt
