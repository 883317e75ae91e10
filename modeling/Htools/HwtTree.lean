import Htools.HwtFree
import Mathlib.Algebra.Ring.Int.Defs
import Mathlib.Data.Set.Finite.Basic

/-!
The widgets of a context over a whole run. Those below the root are a tree, which
`hwt_free` destroys (`widgets_tree`). What `hwt_widget_free` destroys on the way
is not released: the slot that it would release it through has been emptied
(`released_iff`).
-/
namespace Htools.Hwt
open Htools.Ownership Htools.Runs

section
variable {F : Type} [Zero F] {hwt : HWT F} {name : Nat} {g_type : Types} {ops : List Op}

/-- Slots and the parents recorded in live widgets are one to one, there is one
    way from the root to each widget below it, and `hwt_free` runs `destroy` once
    for each of them. -/
theorem widgets_tree
    (reached : Reached (step (hwt_create (F := F) name g_type).2) (hwt_create (F := F) name g_type).1 ops hwt) :
    (∀ slot child, holds hwt.memory slot = some child →
      Live hwt.memory child ∧ parent_of hwt.memory child = some slot) ∧
    (∀ child slot, Live hwt.memory child → parent_of hwt.memory child = some slot →
      ∀ other, holds hwt.memory other = some child ↔ other = slot) ∧
    Set.Finite { widget | Below (holds hwt.memory) owner .root widget } ∧
    (∀ widget, Below (holds hwt.memory) owner .root widget → ∃! way, Path (holds hwt.memory) owner .root way widget) ∧
    ∃ after gone, hwt_free hwt = .ok after ∧ after.memory.destroyed = hwt.memory.destroyed ++ gone ∧ gone.Nodup ∧
      ∀ widget, widget ∈ gone ↔ Below (holds hwt.memory) owner .root widget := by
  have owned := reached_owned reached
  obtain ⟨later,gone,run,owned',after,_,below⟩ := hwt_free_total owned
  refine ⟨?_,?_,?_,?_,_,gone,run,after.destroyed,?_,below⟩
  · exact fun slot child here => ⟨owned.content here,(owned.linked slot child).mp here⟩
  · intro child slot _ recorded other
    rw [owned.linked,recorded,Option.some.injEq]
    exact eq_comm
  · refine (Set.finite_lt_nat hwt.memory.widgets.length).subset fun widget under => ?_
    obtain ⟨slot,here⟩ := Below.slot under
    exact (owned.content here).1
  · rintro widget ⟨way,path⟩
    exact ⟨way,path,fun other again => path_unique owned.linked rfl again path⟩
  · have once := owned'.once
    rw [after.destroyed] at once
    exact (List.nodup_append.mp once).2.1

/-- A panel with a label in it at the root. -/
theorem widgets_tree_two : ∃ hwt : HWT Int,
    steps (step (hwt_create 0 fun _ => none : HWT Int × Types).2) (hwt_create 0 fun _ => none).1
      [.panel_create,.label_create [],.panel_set_child 0 (some 1),.set_root (some 0)] = .ok hwt ∧
    (∃! way, Path (holds hwt.memory) owner .root way 1) ∧
    ∃ after gone, hwt_free hwt = .ok after ∧ after.memory.destroyed = hwt.memory.destroyed ++ gone ∧ gone.Nodup ∧
      ∀ widget, widget ∈ gone ↔ Below (holds hwt.memory) owner .root widget := by
  refine ⟨_,rfl,?_⟩
  obtain ⟨_,_,_,one,freed⟩ := @widgets_tree Int _ _ 0 (fun _ => none) _
    ⟨[.panel_create,.label_create [],.panel_set_child 0 (some 1),.set_root (some 0)],[],rfl,rfl⟩
  exact ⟨one 1 (Below.step (.held (o := 0) rfl) (t := .child 0 0) rfl rfl),freed⟩

end

/-! ### Release -/

section
variable {F : Type} {m later : Memory F}

/-- Each widget has been given to `free` exactly if its `destroy` has run, and once. -/
def Balanced (m : Memory F) : Prop :=
  ∀ widget, m.released.count widget = m.destroyed.count widget ∧ m.destroyed.count widget ≤ 1

/-- A widget is freed that has no other widget in its slots. -/
def Alone (m : Memory F) : Op → Prop
  | .widget_free (some widget) => ∀ i child, holds m (.child widget i) = some child → child = widget
  | _ => True

theorem alone_iff_gone {mid : Memory F} {widget : Nat} {gone : List Nat} (apart : Detached m mid widget)
    (after : After mid later (gone ++ [widget])) (empties : ∀ i, holds later (.child widget i) = none)
    (below : ∀ x ∈ gone, ∃ j, Below (holds mid) owner (.child widget j) x) :
    Alone m (.widget_free (some widget)) ↔ gone = [] := by
  constructor
  · intro alone
    by_contra some_gone
    obtain ⟨x,member⟩ := List.exists_mem_of_ne_nil _ some_gone
    obtain ⟨j,under⟩ := below x member
    obtain ⟨y,here⟩ := under.filled
    have same := alone j y (apart.fewer _ _ here)
    rw [same] at here
    exact apart.owned.unheld apart.free here
  · rintro rfl i child here
    by_contra other
    have kept := after.kept _ _ (apart.kept _ _ here other) (by simpa using other)
    rw [empties] at kept
    cases kept

/-- The counts after a widget and some others have been destroyed. -/
theorem balanced_after (balanced : Balanced m) (once : later.destroyed.Nodup) {gone : List Nat}
    (released : List Nat) (destroyed_eq : later.destroyed = m.destroyed ++ (gone ++ released))
    (released_eq : later.released = m.released ++ released) : Balanced later ↔ gone = [] := by
  constructor
  · intro balanced'
    by_contra some_gone
    obtain ⟨x,member⟩ := List.exists_mem_of_ne_nil _ some_gone
    have counts := (balanced' x).1
    have before := (balanced x).1
    rw [destroyed_eq,released_eq,List.count_append,List.count_append,List.count_append] at counts
    have := List.count_pos_iff.mpr member
    omega
  · rintro rfl x
    refine ⟨?_,List.nodup_iff_count_le_one.mp once x⟩
    rw [destroyed_eq,released_eq,List.nil_append,List.count_append,List.count_append,(balanced x).1]

theorem balanced_same (balanced : Balanced m) (destroyed : later.destroyed = m.destroyed)
    (released : later.released = m.released) : Balanced later := by
  intro widget
  rw [destroyed,released]
  exact balanced widget

/-- An assignment destroys and releases nothing. -/
theorem assign_lists {slot : Slot} {a_child : Option Nat} (run : hwt_widget_assign m slot a_child = .ok later) :
    later.destroyed = m.destroyed ∧ later.released = m.released := by
  obtain ⟨held,_,run⟩ := bind_ok_iff.mp run
  split at run
  · cases run
  · cases a_child with
    | none =>
      cases run
      exact ⟨rfl,rfl⟩
    | some child =>
      obtain ⟨a_widget,_,run⟩ := bind_ok_iff.mp run
      split at run
      · cases run
      · obtain ⟨stored,put,run⟩ := bind_ok_iff.mp run
        obtain ⟨_,_,put⟩ := bind_ok_iff.mp put
        cases put
        cases run
        simp

/-- A widget that cannot be used has nothing in its slots. -/
theorem Owned.dead {widget i : Nat} (owned : Owned m) (dead : ¬Live m widget) : holds m (.child widget i) = none := by
  cases here : holds m (.child widget i) with
  | none => rfl
  | some child => exact absurd (owned.recorded ((owned.linked _ _).mp here)).1 dead

end

section
variable {F : Type} [Zero F] {hwt last : HWT F} {m : Memory F} {name : Nat} {g_type : Types} {ops : List Op}

theorem create_lists {a_type : Option HWTWidgetType} {created : Nat × Memory F}
    (run : hwt_widget_create hwt a_type = .ok created) :
    created.2.destroyed = hwt.memory.destroyed ∧ created.2.released = hwt.memory.released := by
  obtain ⟨_,kind,made⟩ := hwt_widget_create_cases run
  rw [made]
  exact ⟨rfl,rfl⟩

theorem perform_lists {op : Op} (other : ∀ widget, op ≠ .widget_free (some widget))
    (run : perform g_type hwt op = .ok m) :
    m.destroyed = hwt.memory.destroyed ∧ m.released = hwt.memory.released := by
  cases op with
  | button_create =>
    obtain ⟨created,made,rfl⟩ := map_ok_iff.mp run
    exact create_lists made
  | grid_create row_num col_num =>
    obtain ⟨created,made,rfl⟩ := map_ok_iff.mp run
    rw [hwt_grid_create] at made
    split at made
    · cases made
    · obtain ⟨first,create,rest⟩ := bind_ok_iff.mp made
      cases rest
      have kept := create_lists create
      exact kept
  | label_create text =>
    obtain ⟨created,made,rfl⟩ := map_ok_iff.mp run
    obtain ⟨first,create,rest⟩ := bind_ok_iff.mp made
    cases rest
    have kept := create_lists create
    exact kept
  | panel_create =>
    obtain ⟨created,made,rfl⟩ := map_ok_iff.mp run
    exact create_lists made
  | set_root root => exact assign_lists run
  | button_set_child button child =>
    obtain ⟨a_widget,_,run⟩ := bind_ok_iff.mp run
    split at run
    · exact assign_lists run
    · cases run
  | grid_set_child grid row col child =>
    obtain ⟨a_widget,_,run⟩ := bind_ok_iff.mp run
    split at run
    · split at run
      · cases run
      · exact assign_lists run
    · cases run
  | panel_set_child panel child =>
    obtain ⟨a_widget,_,run⟩ := bind_ok_iff.mp run
    split at run
    · exact assign_lists run
    · cases run
  | widget_free widget =>
    cases widget with
    | none =>
      cases run
      exact ⟨rfl,rfl⟩
    | some widget => exact absurd rfl (other widget)

theorem step_balanced_iff (owned : Owned hwt.memory) (balanced : Balanced hwt.memory) (op : Op) :
    (∀ last, step g_type hwt op = .ok last → Balanced last.memory) ↔ Alone hwt.memory op := by
  by_cases freed : ∃ widget, op = .widget_free (some widget)
  · obtain ⟨widget,rfl⟩ := freed
    by_cases live : Live hwt.memory widget
    · obtain ⟨mid,later,gone,apart,after,_,empties,below,total,owned'⟩ := free_own_total owned live
      have run : step g_type hwt (.widget_free (some widget)) =
          .ok { hwt with memory := { later with released := later.released ++ [widget] } } :=
        step_ok_iff.mpr ⟨by simpa [Op.widgets] using live,_,total,rfl⟩
      rw [alone_iff_gone apart after empties below,
        ← balanced_after balanced owned'.once [widget] (by rw [after.destroyed,apart.destroyed])
          (by rw [after.released,apart.released])]
      constructor
      · exact fun all => all _ run
      · intro done last again
        rw [run] at again
        cases again
        exact done
    · refine iff_of_true (fun last run => ?_) fun i child here => ?_
      · exact absurd ((step_ok_iff.mp run).1 widget (by simp [Op.widgets])) live
      · rw [owned.dead live] at here
        cases here
  · have other : ∀ widget, op ≠ .widget_free (some widget) := fun widget same => freed ⟨widget,same⟩
    refine iff_of_true (fun last run => ?_) ?_
    · obtain ⟨_,m,called,rfl⟩ := step_ok_iff.mp run
      obtain ⟨destroyed,released⟩ := perform_lists other called
      exact balanced_same balanced destroyed released
    · cases op with
      | widget_free widget =>
        cases widget with
        | none => trivial
        | some widget => exact absurd rfl (other widget)
      | _ => trivial

/-- The widgets of a context are released as they are destroyed exactly in those
    runs in which no widget is freed that has others in its slots and none is
    left at the root for `hwt_free`. -/
theorem released_iff
    (run : steps (step (hwt_create (F := F) name g_type).2) (hwt_create (F := F) name g_type).1 ops = .ok hwt)
    (freed : hwt_free hwt = .ok last) :
    ((∀ mid, Reached (step (hwt_create (F := F) name g_type).2) (hwt_create (F := F) name g_type).1 ops mid →
        Balanced mid.memory) ∧
      Balanced last.memory ∧
      ∀ widget, Below (holds hwt.memory) owner .root widget →
        widget ∈ last.memory.destroyed ∧ widget ∈ last.memory.released) ↔
    Along (step (hwt_create (F := F) name g_type).2) (fun hwt op => Alone hwt.memory op) (hwt_create (F := F) name g_type).1 ops ∧
      hwt.memory.root = none := by
  have start : Balanced (hwt_create (F := F) name g_type).1.memory := fun widget => ⟨rfl,Nat.zero_le _⟩
  have owned := reached_owned ⟨ops,[],(List.append_nil ops).symm,run⟩
  obtain ⟨later,gone,total,owned',after,_,below⟩ := hwt_free_total owned
  rw [total] at freed
  cases freed
  rw [← reached_iff (I := fun hwt : HWT F => Owned hwt.memory) (Q := fun hwt : HWT F => Balanced hwt.memory)
    (fun _ _ _ held _ first => step_owned held first)
    (fun _ op held good => step_balanced_iff held good op) (owned_create name) start]
  refine and_congr_right fun all => ?_
  have balanced := all hwt ⟨ops,[],(List.append_nil ops).symm,run⟩
  have ends : Balanced later ↔ gone = [] := by
    refine balanced_after balanced owned'.once [] ?_ ?_
    · simp [after.destroyed]
    · simp [after.released]
  rw [ends]
  constructor
  · rintro ⟨rfl,_⟩
    cases here : hwt.memory.root with
    | none => rfl
    | some widget => exact absurd ((below widget).mpr (.held here)) List.not_mem_nil
  · intro empty
    have none_below : ∀ widget, ¬Below (holds hwt.memory) owner .root widget := by
      intro widget under
      obtain ⟨x,here⟩ := under.filled
      rw [holds,empty] at here
      cases here
    exact ⟨List.eq_nil_iff_forall_not_mem.mpr fun widget member => none_below widget ((below widget).mp member),
      fun widget under => absurd under (none_below widget)⟩

/-- A panel freed after the label that was in it, so that each of them is released. -/
theorem released_iff_apart : ∃ hwt last : HWT Int,
    steps (step (hwt_create 0 fun _ => none : HWT Int × Types).2) (hwt_create 0 fun _ => none).1
      [.panel_create,.label_create [],.panel_set_child 0 (some 1),.widget_free (some 1),.widget_free (some 0)] = .ok hwt ∧
    hwt_free hwt = .ok last ∧ Balanced last.memory := by
  refine ⟨_,_,rfl,rfl,?_⟩
  refine ((@released_iff Int _ _ _ 0 (fun _ => none)
    [.panel_create,.label_create [],.panel_set_child 0 (some 1),.widget_free (some 1),.widget_free (some 0)] rfl rfl).mpr ⟨⟨trivial,fun b first => ?_⟩,rfl⟩).2.1
  cases first
  refine ⟨trivial,fun b first => ?_⟩
  cases first
  refine ⟨trivial,fun b first => ?_⟩
  cases first
  refine ⟨fun i child here => ?_,fun b first => ?_⟩
  · cases i <;> cases here
  cases first
  refine ⟨fun i child here => ?_,fun b first => trivial⟩
  cases i <;> cases here

/-- A panel at the root is destroyed by `hwt_free`, but not released. -/
theorem released_at_root : ∃ hwt last : HWT Int,
    steps (step (hwt_create 0 fun _ => none : HWT Int × Types).2) (hwt_create 0 fun _ => none).1
      [.panel_create,.set_root (some 0)] = .ok hwt ∧
    hwt_free hwt = .ok last ∧ Below (holds hwt.memory) owner .root 0 ∧
    0 ∈ last.memory.destroyed ∧ 0 ∉ last.memory.released ∧ ¬Balanced last.memory :=
  ⟨_,_,rfl,rfl,.held rfl,by decide,by decide,fun balanced => absurd (balanced 0).1 (by decide)⟩

end

end Htools.Hwt
