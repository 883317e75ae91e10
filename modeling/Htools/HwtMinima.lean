import Htools.HwtPull
import Mathlib.Algebra.Ring.Int.Defs

/-!
Labels in a tree of widgets. A label leaves the size that it is given as it was, so
that the least sizes depend on more than the tree where the root or a cell of a grid
leads to one (`independent_iff`).
-/
namespace Htools.Hwt

section
variable {F : Type} {shape : Shape F}

/-- A pointer that leads to a label through buttons and panels. -/
def Shape.Leads : Shape F → Prop
  | .empty | .grid _ _ _ _ => False
  | .button _ _ _ child | .panel _ child => child.Leads
  | .label _ => True

theorem offer_leads (leads : shape.Leads) (min : HWTSize F) : shape.offer min = some min := by
  cases shape with
  | empty => cases leads
  | button name rect callback child => rfl
  | grid name row_num col_num cells => cases leads
  | label name => rfl
  | panel name child => rfl

end

section
variable {F : Type} [Zero F] [Add F] [LT F] [DecidableLT F]

/-- Any two runs give the same size and the same least sizes of the rows and columns
    of every grid, whatever the variables have in them before. -/
def Independent (fuel : Nat) (m : Memory F) (a_widget : Option Nat) : Prop :=
  ∀ contents contents' a_min a_min',∃ after after' min,
    hwt_widget_pull_min_over contents fuel m a_widget a_min = .ok (after,min) ∧
    hwt_widget_pull_min_over contents' fuel m a_widget a_min' = .ok (after',min) ∧
    ∀ grid,grid_least after grid = grid_least after' grid

variable {shape : Shape F} {node : Node F} {contents contents' : Contents F} {a_min a_min' : HWTSize F}

/-- Where no cell leads to a label, nothing of the contents comes out of a pointer
    that does not lead to one. -/
theorem least_settled (cells : ∀ node ∈ shape.grids,∀ i < node.row_num * node.col_num,¬ (node.cells i).Leads)
    (settled : ¬ shape.Leads) : shape.least contents a_min = shape.least contents' a_min' := by
  induction shape generalizing a_min a_min' with
  | empty => rfl
  | button name rect callback child ih => exact ih cells settled
  | grid name row_num col_num below ih =>
    refine congrArg total
      (@node_least_congr F _ _ _ _ contents contents' ⟨name,row_num,col_num,below⟩ fun place there => ?_)
    have inside := @place_lt F ⟨name,row_num,col_num,below⟩ place there
    rw [Node.sizes,Node.sizes,Node.cell]
    refine congrArg (fun min => Shape.offer min _) (ih _ ?_ ?_)
    · exact fun node member => cells node (grids_trans List.mem_cons_self inside member)
    · exact cells ⟨name,row_num,col_num,below⟩ List.mem_cons_self _ inside
  | label name => exact absurd trivial settled
  | panel name child ih => exact ih cells settled

theorem node_settled (cells : ∀ node ∈ shape.grids,∀ i < node.row_num * node.col_num,¬ (node.cells i).Leads)
    (member : node ∈ shape.grids) : node.least contents = node.least contents' := by
  refine node_least_congr fun place there => ?_
  rw [Node.sizes,Node.sizes]
  refine congrArg (fun min => Shape.offer min _) (least_settled ?_ ?_)
  · exact fun inner below => cells inner (grids_trans member (place_lt there) below)
  · exact cells node member _ (place_lt there)

theorem least_leads (leads : shape.Leads) : shape.least contents a_min = a_min := by
  induction shape with
  | empty => cases leads
  | button name rect callback child ih => exact ih leads
  | grid name row_num col_num cells ih => cases leads
  | label name => rfl
  | panel name child ih => exact ih leads

end

/-! ### Contents that show -/

section
variable {F : Type} [Zero F] [LT F] [DecidableLT F] {v : F} {place : Nat × Nat} {sizes : Nat × Nat → Option (HWTSize F)}
  {l : List (Nat × Nat)} {least : List F × List F}

/-- Rows and columns that only get zeros. -/
theorem modify_zeros (n i : Nat) : (List.replicate n (0 : F)).modify i (fun size => MAX size 0) = List.replicate n 0 := by
  apply List.ext_getElem?
  intro j
  have stays : (if i = j then MAX (0 : F) 0 else 0) = 0 := by rw [MAX,ite_self,ite_self]
  rw [List.getElem?_modify,List.getElem?_replicate]
  by_cases inside : j < n
  · rw [if_pos inside]
    exact congrArg some stays
  · rw [if_neg inside]
    rfl

theorem widen_zeros {row_num col_num : Nat}
    (zeros : ∀ place ∈ l,∀ min ∈ sizes place,min = ⟨0,0⟩) :
    l.foldl (widen sizes) (List.replicate row_num 0,List.replicate col_num 0) =
      (List.replicate row_num 0,List.replicate col_num 0) := by
  induction l with
  | nil => rfl
  | cons place l ih =>
    have first : widen sizes (List.replicate row_num 0,List.replicate col_num 0) place =
        (List.replicate row_num 0,List.replicate col_num 0) := by
      cases offered : sizes place with
      | none => rw [widen,offered]
      | some min =>
        obtain rfl := zeros place List.mem_cons_self min offered
        rw [widen,offered]
        exact Prod.ext (modify_zeros row_num place.1) (modify_zeros col_num place.2)
    rw [List.foldl_cons,first]
    exact ih fun other member => zeros other (List.mem_cons_of_mem place member)

omit [Zero F] in
/-- A row after a cell. -/
theorem widen_row {other : Nat × Nat} {a : F} {row : Nat}
    (at_row : least.1[row]? = some a) : (widen sizes least other).1[row]? =
      some (if other.1 = row then (sizes other).elim a fun min => MAX a min.height else a) := by
  unfold widen
  cases sizes other with
  | none => rw [at_row,Option.elim_none,ite_self]
  | some min =>
    rw [List.getElem?_modify,at_row]
    rfl

/-- A size that is the only one in its row. -/
theorem widen_one (up : MAX 0 v = v) (down : MAX v 0 = v) (here : sizes place = some ⟨v,v⟩)
    (others : ∀ other ∈ l,other ≠ place → ∀ min ∈ sizes other,min = ⟨0,0⟩)
    (start : least.1[place.1]? = some v ∨ least.1[place.1]? = some 0 ∧ place ∈ l) :
    (l.foldl (widen sizes) least).1[place.1]? = some v := by
  have stays : ∀ a : F,MAX a a = a := fun a => ite_self _
  induction l generalizing least with
  | nil =>
    obtain reached | ⟨_,member⟩ := start
    · exact reached
    · cases member
  | cons other l ih =>
    rw [List.foldl_cons]
    refine ih (fun next member => others next (List.mem_cons_of_mem other member)) ?_
    by_cases same : other = place
    · subst same
      obtain reached | ⟨zero,_⟩ := start
      · rw [widen_row reached,if_pos rfl,here,Option.elim_some,stays]
        exact .inl rfl
      · rw [widen_row zero,if_pos rfl,here,Option.elim_some,up]
        exact .inl rfl
    · have none_or : ∀ a : F,MAX a 0 = a →
          (if other.1 = place.1 then (sizes other).elim a fun min => MAX a min.height else a) = a := by
        intro a keeps
        split
        · cases offered : sizes other with
          | none => rfl
          | some min =>
            obtain rfl := others other List.mem_cons_self same min offered
            exact keeps
        · rfl
      obtain reached | ⟨zero,member⟩ := start
      · rw [widen_row reached,none_or v down]
        exact .inl rfl
      · rw [widen_row zero,none_or 0 (stays 0)]
        exact .inr ⟨rfl,(List.mem_cons.mp member).resolve_left fun is => same is.symm⟩

end

section
variable {F : Type} [Zero F] [Add F]

theorem sum_zeros (adds : (0 : F) + 0 = 0) (n : Nat) : (List.replicate n (0 : F)).foldl (· + ·) 0 = 0 := by
  induction n with
  | zero => rfl
  | succ n ih => rw [List.replicate_succ,List.foldl_cons,adds,ih]

variable [LT F] [DecidableLT F] {shape : Shape F} {node : Node F} {contents : Contents F} {v : F} {place : Nat × Nat}

/-- Contents of zero make all sizes zero. -/
theorem least_zero (adds : (0 : F) + 0 = 0) (zeros : ∀ node ∈ shape.grids,∀ row col,contents node.widget row col = ⟨0,0⟩) :
    shape.least contents ⟨0,0⟩ = ⟨0,0⟩ := by
  induction shape with
  | empty => rfl
  | button name rect callback child ih => exact ih zeros
  | grid name row_num col_num cells ih =>
    have all : (⟨name,row_num,col_num,cells⟩ : Node F).least contents =
        (List.replicate row_num 0,List.replicate col_num 0) := by
      refine widen_zeros fun place there min offered => ?_
      rw [offer_eq offered,zeros ⟨name,row_num,col_num,cells⟩ List.mem_cons_self]
      refine ih _ fun node member => zeros node (grids_trans List.mem_cons_self ?_ member)
      exact @place_lt F ⟨name,row_num,col_num,cells⟩ place there
    rw [show Shape.least contents (.grid name row_num col_num cells) ⟨0,0⟩ =
      total ((⟨name,row_num,col_num,cells⟩ : Node F).least contents) from rfl,all,total,sum_zeros adds,sum_zeros adds]
  | label name => rfl
  | panel name child ih => exact ih zeros

/-- Zeros but for the variable of one cell. -/
def only_at (widget : Nat) (place : Nat × Nat) (v : F) : Contents F := fun grid row col =>
  if grid = widget ∧ (row,col) = place then ⟨v,v⟩ else ⟨0,0⟩

/-- What is in the variable of a cell that leads to a label is in the row of the cell after it. -/
theorem node_shows (adds : (0 : F) + 0 = 0) (up : MAX 0 v = v) (down : MAX v 0 = v) (distinct : node.shape.widgets.Nodup)
    (there : place ∈ places node.row_num node.col_num) (leads : (node.cell place).Leads) :
    (node.least (only_at node.widget place v)).1[place.1]? = some v := by
  refine widen_one up down ?_ ?_ (.inr ⟨?_,there⟩)
  · rw [Node.sizes,offer_leads leads,least_leads leads,only_at,if_pos ⟨rfl,rfl⟩]
  · intro other inside apart min offered
    have empty : only_at node.widget place v node.widget other.1 other.2 = ⟨0,0⟩ := if_neg fun same => apart same.2
    rw [offer_eq offered,empty]
    refine least_zero adds fun inner member row col => if_neg fun same => ?_
    refine (List.nodup_cons.mp distinct).1 ?_
    rw [← flatMap_places Shape.widgets,← same.1]
    exact List.mem_flatMap.mpr ⟨other,inside,Shape.mem_widgets member⟩
  · rw [List.getElem?_replicate,if_pos (mem_places_iff.mp there).1]

end

/-- The least sizes of a tree depend on nothing but the tree exactly if neither its
    root nor a cell of one of its grids leads to a label through buttons and panels. -/
theorem independent_iff {F : Type} [Zero F] [Add F] [LT F] [DecidableLT F] (adds : (0 : F) + 0 = 0) (one : F)
    (positive : 0 < one) (above : ¬ one < 0) (m : Memory F) (shape : Shape F) (a_widget : Option Nat) (fuel : Nat)
    (stands : shape.Stands m a_widget) (distinct : shape.widgets.Nodup) (enough : shape.height < fuel) :
    Independent fuel m a_widget ↔
      ¬ shape.Leads ∧ ∀ node ∈ shape.grids,∀ i < node.row_num * node.col_num,¬ (node.cells i).Leads := by
  have runs : ∀ contents a_min,∃ m',
      hwt_widget_pull_min_over contents fuel m a_widget a_min = .ok (m',shape.least contents a_min) ∧ shape.Pulled contents m m' := fun contents a_min => leaves contents enough m a_widget a_min stands distinct
  have other : (0 : F) ≠ one := by
    rintro rfl
    exact above positive
  constructor
  · intro independent
    refine ⟨fun leads => ?_,fun node member i inside leads => ?_⟩
    · obtain ⟨after,after',min,ran,ran',_⟩ := independent (fun _ _ _ => ⟨0,0⟩) (fun _ _ _ => ⟨0,0⟩) ⟨0,0⟩ ⟨one,one⟩
      obtain ⟨_,called,_⟩ := runs (fun _ _ _ => ⟨0,0⟩) ⟨0,0⟩
      obtain ⟨_,called',_⟩ := runs (fun _ _ _ => ⟨0,0⟩) ⟨one,one⟩
      rw [called,least_leads leads] at ran
      rw [called',least_leads leads] at ran'
      cases ran
      cases ran'
      exact other rfl
    · obtain ⟨place,there,same⟩ := place_of inside
      rw [← same] at leads
      have apart := nodup_node distinct member
      have zeros := node_shows (v := 0) adds (ite_self _) (ite_self _) apart there leads
      have ones := node_shows (v := one) adds (if_neg above) (if_pos positive) apart there leads
      obtain ⟨after,after',min,ran,ran',grids⟩ :=
        independent (only_at node.widget place 0) (only_at node.widget place one) ⟨0,0⟩ ⟨0,0⟩
      obtain ⟨_,called,pulled⟩ := runs (only_at node.widget place 0) ⟨0,0⟩
      obtain ⟨_,called',pulled'⟩ := runs (only_at node.widget place one) ⟨0,0⟩
      rw [called] at ran
      rw [called'] at ran'
      obtain ⟨rfl,_⟩ := Prod.mk.inj (Except.ok.inj ran)
      obtain ⟨rfl,_⟩ := Prod.mk.inj (Except.ok.inj ran')
      have rows := grids node.widget
      rw [pulled.least node member,pulled'.least node member] at rows
      rw [Except.ok.inj rows,ones] at zeros
      exact other (Option.some.inj zeros).symm
  · rintro ⟨root,cells⟩ contents contents' a_min a_min'
    obtain ⟨after,called,pulled⟩ := runs contents a_min
    obtain ⟨after',called',pulled'⟩ := runs contents' a_min'
    refine ⟨after,after',_,called,?_,pulled_same stands pulled pulled' fun node => node_settled cells⟩
    rw [called',least_settled cells root]

/-- A grid with a widget in its only cell. -/
def grid_of (data : Data Int) : Memory Int :=
  { root := some 0
    widgets := [⟨some .root,⟨0,0,0,0⟩,.grid ⟨1,1,[0],[0],⟨0,0⟩,[some 1]⟩⟩,⟨some (.child 0 0),⟨0,0,0,0⟩,data⟩]
    destroyed := []
    released := []
    called := [] }

theorem independent_panel : Independent 3 (grid_of (.panel none)) (some 0) := by
  refine (@independent_iff Int _ _ _ _ rfl 1 (by decide) (by decide) _ (.grid 0 1 1 fun _ => .panel 1 .empty) _ 3 ?_
    (by decide) (by decide)).mpr ⟨id,?_⟩
  · refine ⟨rfl,_,_,rfl,rfl,rfl,rfl,fun i inside => ?_⟩
    obtain rfl := Nat.lt_one_iff.mp inside
    exact ⟨_,rfl,rfl,_,_,rfl,rfl,rfl⟩
  · intro node member i _
    obtain rfl := List.mem_singleton.mp member
    exact id

/-- The size of a label is what happens to be in the variable. -/
theorem independent_fails : ¬ ∀ (m : Memory Int) (shape : Shape Int) a_widget fuel,shape.Stands m a_widget →
    shape.widgets.Nodup → shape.height < fuel → Independent fuel m a_widget := by
  intro all
  have stands : (Shape.grid 0 1 1 fun _ => .label 1 : Shape Int).Stands (grid_of (.label none)) (some 0) := by
    refine ⟨rfl,_,_,rfl,rfl,rfl,rfl,fun i inside => ?_⟩
    obtain rfl := Nat.lt_one_iff.mp inside
    exact ⟨_,rfl,rfl,_,_,rfl,rfl⟩
  obtain ⟨after,after',min,ran,ran',_⟩ :=
    all _ _ _ 3 stands (by decide) (by decide) (fun _ _ _ => ⟨0,0⟩) (fun _ _ _ => ⟨5,5⟩) ⟨0,0⟩ ⟨0,0⟩
  have zero : min.width = 0 := by
    cases ran
    rfl
  have five : min.width = 5 := by
    cases ran'
    rfl
  rw [zero] at five
  exact absurd five (by decide)

end Htools.Hwt
