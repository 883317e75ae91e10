import Htools.HwtLayout

/-!
Nested widgets. In a window that has the least size of its tree, a new size leaves
each widget inside of those that it is below, and apart from those that neither is
below it nor it below them (`resize_nested`).
-/
namespace Htools.Hwt

open Finset (range)
open Htools.Ownership Htools.Runs

/-! ### Where the rectangles are -/

/-- The first widget has the second one below it. -/
def Shape.Under {F : Type} : Shape F → Nat → Nat → Prop
  | .empty,_,_ | .label _,_,_ => False
  | .button name _ _ child,u,v | .panel name child,u,v => u = name ∧ v ∈ child.widgets ∨ child.Under u v
  | .grid name row_num col_num cells,u,v => ∃ cell ∈ places row_num col_num,
      u = name ∧ v ∈ (cells (cell.1 * col_num + cell.2)).widgets ∨ (cells (cell.1 * col_num + cell.2)).Under u v

/-- The rectangles have no place in common but for their edges. -/
def Apart (r s : HWTRect ℚ) : Prop :=
  r.x + r.width ≤ s.x ∨ s.x + s.width ≤ r.x ∨ r.y + r.height ≤ s.y ∨ s.y + s.height ≤ r.y

/-- The rectangle is of the size. -/
structure Enough (min : HWTSize ℚ) (rect : HWTRect ℚ) : Prop where
  width : min.width ≤ rect.width
  height : min.height ≤ rect.height

section
variable {a b c d : HWTRect ℚ}

theorem Inside.trans (first : Inside a b) (second : Inside b c) : Inside a c where
  width := second.width
  height := second.height
  left := first.left.trans second.left
  right := second.right.trans first.right
  top := first.top.trans second.top
  bottom := second.bottom.trans first.bottom

theorem Inside.refl (width : 0 ≤ a.width) (height : 0 ≤ a.height) : Inside a a :=
  ⟨width,height,le_refl _,le_refl _,le_refl _,le_refl _⟩

theorem Apart.symm (apart : Apart a b) : Apart b a := by
  obtain before | behind | above | under := apart
  · exact .inr (.inl before)
  · exact .inl behind
  · exact .inr (.inr (.inr above))
  · exact .inr (.inr (.inl under))

theorem Apart.mono (apart : Apart a b) (left : Inside a c) (right : Inside b d) : Apart c d := by
  obtain before | behind | above | under := apart
  · exact .inl (left.right.trans (before.trans right.left))
  · exact .inr (.inl (right.right.trans (behind.trans left.left)))
  · exact .inr (.inr (.inl (left.bottom.trans (above.trans right.top))))
  · exact .inr (.inr (.inr (right.bottom.trans (under.trans left.top))))

end

theorem under_mem {F : Type} {shape : Shape F} {u v : Nat} (under : shape.Under u v) :
    u ∈ shape.widgets ∧ v ∈ shape.widgets := by
  induction shape with
  | empty => cases under
  | label name => cases under
  | button name rect callback child ih =>
    obtain ⟨rfl,below⟩ | under := under
    · exact ⟨List.mem_cons_self,List.mem_cons_of_mem _ below⟩
    · exact ⟨List.mem_cons_of_mem _ (ih under).1,List.mem_cons_of_mem _ (ih under).2⟩
  | panel name child ih =>
    obtain ⟨rfl,below⟩ | under := under
    · exact ⟨List.mem_cons_self,List.mem_cons_of_mem _ below⟩
    · exact ⟨List.mem_cons_of_mem _ (ih under).1,List.mem_cons_of_mem _ (ih under).2⟩
  | grid name row_num col_num cells ih =>
    obtain ⟨cell,there,under⟩ := under
    have among {w : Nat} (member : w ∈ (cells (cell.1 * col_num + cell.2)).widgets) :
        w ∈ (Shape.grid name row_num col_num cells).widgets :=
      List.mem_cons_of_mem _ (List.mem_flatMap.mpr
        ⟨_,List.mem_range.mpr (@place_lt F ⟨name,row_num,col_num,cells⟩ cell there),member⟩)
    obtain ⟨rfl,below⟩ | under := under
    · exact ⟨List.mem_cons_self,among below⟩
    · exact ⟨among (ih _ under).1,among (ih _ under).2⟩

section
variable {F : Type} {node : Node F} {u v : Nat} {a b : Nat × Nat}

/-- The widgets of a grid and of its cells are apart. -/
theorem nodup_places (distinct : node.shape.widgets.Nodup) :
    node.widget ∉ (places node.row_num node.col_num).flatMap (fun cell => (node.cell cell).widgets) ∧
      (∀ cell ∈ places node.row_num node.col_num,(node.cell cell).widgets.Nodup) ∧
      (places node.row_num node.col_num).Pairwise fun a b => (node.cell a).widgets.Disjoint (node.cell b).widgets := by
  obtain ⟨outside,distinct'⟩ := List.nodup_cons.mp distinct
  rw [← flatMap_places Shape.widgets node] at outside distinct'
  exact ⟨outside,List.nodup_flatMap.mp distinct'⟩

/-- A widget is in one cell. -/
theorem cell_unique (distinct : node.shape.widgets.Nodup) (first : a ∈ places node.row_num node.col_num)
    (second : b ∈ places node.row_num node.col_num) (in_first : u ∈ (node.cell a).widgets)
    (in_second : u ∈ (node.cell b).widgets) : a = b := by
  by_contra other
  have : Std.Symm fun a b => (node.cell a).widgets.Disjoint (node.cell b).widgets :=
    ⟨fun _ _ apart _ first second => apart second first⟩
  exact List.Pairwise.forall (nodup_places distinct).2.2 first second other in_first in_second

/-- What is below a widget of a cell is so in the cell. -/
theorem under_cell (distinct : node.shape.widgets.Nodup) (there : a ∈ places node.row_num node.col_num)
    (member : u ∈ (node.cell a).widgets) : node.shape.Under u v ↔ (node.cell a).Under u v := by
  constructor
  · rintro ⟨b,there',⟨rfl,_⟩ | under⟩
    · exact absurd (List.mem_flatMap.mpr ⟨a,there,member⟩) (nodup_places distinct).1
    · obtain rfl := cell_unique distinct there there' member (under_mem under).1
      exact under
  · exact fun under => ⟨a,there,.inr under⟩

end

section
variable {n : Nat} {least : Nat → ℚ} {size : ℚ} {contents : Contents ℚ} {node : Node ℚ} {rect : HWTRect ℚ}
  {cell other : Nat × Nat}

/-- Nothing is missing. -/
theorem spared_of_enough (nonneg : ∀ i,0 ≤ least i) (enough : ∑ j ∈ range n,least j ≤ size) {i : Nat} (within : i < n) :
    Spared n least size i := by
  have share : (∑ j ∈ range n,least j - size) / n ≤ 0 :=
    div_nonpos_of_nonpos_of_nonneg (sub_nonpos.mpr enough) (Nat.cast_nonneg n)
  have behind : (0 : ℚ) ≤ n - (i + 1) := sub_nonneg.mpr (by exact_mod_cast within)
  refine ⟨share.trans (nonneg i),?_,?_⟩
  · exact (mul_nonpos_of_nonneg_of_nonpos (Nat.cast_nonneg i) share).trans (Finset.sum_nonneg fun j _ => nonneg j)
  · exact (mul_nonpos_of_nonneg_of_nonpos behind share).trans (Finset.sum_nonneg fun j _ => nonneg j)

/-- The cells are inside of a grid that has its least size. -/
theorem cell_inside (enough : Enough (node.minima contents).min rect) (there : cell ∈ places node.row_num node.col_num) :
    Inside rect (cell_rect (node.minima contents) rect cell) := by
  obtain ⟨row,col⟩ := mem_places_iff.mp there
  exact (@cell_rect_inside (node.cell_least contents) node.numbered rect cell.1 cell.2 row col).mpr
    ⟨spared_of_enough (fun i => (le_greatest _ i).1) enough.width col,
      spared_of_enough (fun i => (le_greatest _ i).1) enough.height row⟩

/-- A place after others begins behind them. -/
theorem sum_past {f : Nat → ℚ} (nonneg : ∀ i < n,0 ≤ f i) {i j : Nat} (before : i < j) (within : j < n) (start : ℚ) :
    start + ∑ k ∈ range i,f k + f i ≤ start + ∑ k ∈ range j,f k := by
  rw [add_assoc,← Finset.sum_range_succ]
  refine add_le_add (le_refl _) (Finset.sum_le_sum_of_subset_of_nonneg (Finset.range_subset_range.mpr before) ?_)
  exact fun k there _ => nonneg k ((Finset.mem_range.mp there).trans within)

/-- The cells are apart. -/
theorem cells_apart (enough : Enough (node.minima contents).min rect) (there : cell ∈ places node.row_num node.col_num)
    (there' : other ∈ places node.row_num node.col_num) (differ : cell ≠ other) :
    Apart (cell_rect (node.minima contents) rect cell) (cell_rect (node.minima contents) rect other) := by
  obtain ⟨row,col⟩ := mem_places_iff.mp there
  obtain ⟨row',col'⟩ := mem_places_iff.mp there'
  have widths : ∀ i < node.col_num,0 ≤ col_width (node.minima contents) rect i := fun i within =>
    (cell_inside enough (mem_places_iff.mpr ⟨row,within⟩ : (cell.1,i) ∈ places node.row_num node.col_num)).width
  have heights : ∀ i < node.row_num,0 ≤ row_height (node.minima contents) rect i := fun i within =>
    (cell_inside enough (mem_places_iff.mpr ⟨within,col⟩ : (i,cell.2) ∈ places node.row_num node.col_num)).height
  obtain before | same | behind := Nat.lt_trichotomy cell.2 other.2
  · exact .inl (sum_past widths before col' rect.x)
  · obtain above | level | below := Nat.lt_trichotomy cell.1 other.1
    · exact .inr (.inr (.inl (sum_past heights above row' rect.y)))
    · exact absurd (Prod.ext level same) differ
    · exact .inr (.inr (.inr (sum_past heights below row rect.y)))
  · exact .inr (.inl (sum_past widths behind col rect.x))

end

section
variable {contents : Contents ℚ} {node : Node ℚ} {rect : HWTRect ℚ} {cell : Nat × Nat} {shape : Shape ℚ}

/-- A label needs nothing of its own. -/
theorem enough_zero {a_min : HWTSize ℚ} (width : 0 ≤ rect.width) (height : 0 ≤ rect.height)
    (enough : Enough (shape.least contents a_min) rect) : Enough (shape.least contents ⟨0,0⟩) rect := by
  induction shape with
  | empty => exact enough
  | button name own callback child ih => exact ih enough
  | grid name row_num col_num cells ih => exact enough
  | label name => exact ⟨width,height⟩
  | panel name child ih => exact ih enough

/-- The cell of a child is of the size that it needs. -/
theorem cell_fits (enough : Enough (node.minima contents).min rect) (there : cell ∈ places node.row_num node.col_num) :
    Enough ((node.cell cell).least contents ⟨0,0⟩) (cell_rect (node.minima contents) rect cell) := by
  have inside := cell_inside enough there
  cases offered : (node.cell cell).offer ⟨0,0⟩ with
  | none =>
    have empty : node.cell cell = .empty := by
      cases is : node.cell cell with
      | empty => rfl
      | button name own callback child => rw [is] at offered; cases offered
      | grid name row_num col_num cells => rw [is] at offered; cases offered
      | label name => rw [is] at offered; cases offered
      | panel name child => rw [is] at offered; cases offered
    rw [empty]
    exact ⟨inside.width,inside.height⟩
  | some _ =>
    have child_is : child_at node.numbered cell = some (cell.1 * node.col_num + cell.2) := by
      rw [child_at_numbered there,offered]
      rfl
    obtain ⟨width,height⟩ := cell_rect_enough enough.width enough.height there child_is
    rw [cell_least_eq there] at width height
    exact enough_zero inside.width inside.height ⟨width,height⟩

/-- The widgets of a tree are inside of its rectangle. -/
theorem layout_inside (width : 0 ≤ rect.width) (height : 0 ≤ rect.height)
    (enough : Enough (shape.least contents ⟨0,0⟩) rect) :
    ∀ p ∈ shape.layout contents rect,Inside rect p.2 := by
  induction shape generalizing rect with
  | empty => exact fun _ member => absurd member List.not_mem_nil
  | button name own callback child ih =>
    exact List.forall_mem_cons.mpr ⟨.refl width height,ih width height enough⟩
  | grid name row_num col_num cells ih =>
    refine List.forall_mem_cons.mpr ⟨.refl width height,fun p member => ?_⟩
    obtain ⟨cell,there,member⟩ := List.mem_flatMap.mp member
    have enough' : Enough (Node.minima contents ⟨name,row_num,col_num,cells⟩).min rect := total_least ▸ enough
    have inside := cell_inside enough' there
    exact inside.trans (ih _ inside.width inside.height (cell_fits enough' there) p member)
  | label name => exact List.forall_mem_singleton.mpr (.refl width height)
  | panel name child ih => exact List.forall_mem_cons.mpr ⟨.refl width height,ih width height enough⟩

/-- Two widgets in their order: the second one is inside of the first one where it is
    below it, and apart from it where it is not. -/
structure Placed (under : Nat → Nat → Prop) (p q : Nat × HWTRect ℚ) : Prop where
  order : ¬ under q.1 p.1
  inside : under p.1 q.1 → Inside p.2 q.2
  apart : ¬ under p.1 q.1 → Apart p.2 q.2

theorem Placed.congr {under under' : Nat → Nat → Prop} {p q : Nat × HWTRect ℚ} (placed : Placed under p q)
    (same : under' p.1 q.1 ↔ under p.1 q.1) (same' : under' q.1 p.1 ↔ under q.1 p.1) : Placed under' p q :=
  ⟨fun again => placed.order (same'.mp again),fun here => placed.inside (same.mp here),
    fun other => placed.apart fun here => other (same.mpr here)⟩

/-- A widget and what is below it. -/
theorem placed_cons {name : Nat} {child : Shape ℚ} {under : Nat → Nat → Prop} (distinct : (name :: child.widgets).Nodup)
    (same : ∀ u v,under u v ↔ u = name ∧ v ∈ child.widgets ∨ child.Under u v) (width : 0 ≤ rect.width)
    (height : 0 ≤ rect.height) (enough : Enough (child.least contents ⟨0,0⟩) rect)
    (pairs : (child.layout contents rect).Pairwise (Placed child.Under)) :
    ((name,rect) :: child.layout contents rect).Pairwise (Placed under) := by
  obtain ⟨outside,_⟩ := List.nodup_cons.mp distinct
  refine List.pairwise_cons.mpr ⟨fun q member => ⟨?_,fun _ => layout_inside width height enough q member,?_⟩,?_⟩
  · intro again
    obtain ⟨_,below⟩ | below := (same _ _).mp again
    · exact outside below
    · exact outside (under_mem below).2
  · exact fun other => absurd ((same _ _).mpr (.inl ⟨rfl,mem_layout member⟩)) other
  · refine pairs.imp_of_mem fun {p q} first second placed => placed.congr ?_ ?_
    · exact (same _ _).trans (or_iff_right fun both => outside (both.1 ▸ mem_layout first))
    · exact (same _ _).trans (or_iff_right fun both => outside (both.1 ▸ mem_layout second))

/-- The widgets of a tree are placed as they are below each other. -/
theorem layout_placed (distinct : shape.widgets.Nodup) (width : 0 ≤ rect.width) (height : 0 ≤ rect.height)
    (enough : Enough (shape.least contents ⟨0,0⟩) rect) : (shape.layout contents rect).Pairwise (Placed shape.Under) := by
  induction shape generalizing rect with
  | empty => exact .nil
  | button name own callback child ih =>
    have pairs := ih (List.nodup_cons.mp distinct).2 width height enough
    exact placed_cons distinct (fun _ _ => Iff.rfl) width height enough pairs
  | label name => exact List.pairwise_singleton _ _
  | panel name child ih =>
    have pairs := ih (List.nodup_cons.mp distinct).2 width height enough
    exact placed_cons distinct (fun _ _ => Iff.rfl) width height enough pairs
  | grid name row_num col_num cells ih =>
    have enough' : Enough (Node.minima contents ⟨name,row_num,col_num,cells⟩).min rect := total_least ▸ enough
    obtain ⟨outside,each,differ⟩ := @nodup_places ℚ ⟨name,row_num,col_num,cells⟩ distinct
    have same {u v : Nat} {a : Nat × Nat} := @under_cell ℚ ⟨name,row_num,col_num,cells⟩ u v a distinct
    refine List.pairwise_cons.mpr ⟨fun q member => ?_,List.pairwise_flatMap.mpr ⟨fun a there => ?_,?_⟩⟩
    · obtain ⟨a,there,below⟩ := List.mem_flatMap.mp member
      refine ⟨?_,fun _ => layout_inside width height enough q (List.mem_cons_of_mem _ member),fun other => ?_⟩
      · rintro ⟨b,there',⟨_,again⟩ | under⟩
        · exact outside (List.mem_flatMap.mpr ⟨b,there',again⟩)
        · exact outside (List.mem_flatMap.mpr ⟨b,there',(under_mem under).2⟩)
      · exact absurd ⟨a,there,.inl ⟨rfl,mem_layout below⟩⟩ other
    · have inside := cell_inside enough' there
      have pairs := ih _ (each a there) inside.width inside.height (cell_fits enough' there)
      exact pairs.imp_of_mem fun {p q} first second placed =>
        placed.congr (same there (mem_layout first)) (same there (mem_layout second))
    · refine differ.imp_of_mem fun {a b} there there' apart p first q second =>
        ⟨fun under => ?_,fun under => ?_,fun _ => ?_⟩
      · exact apart (mem_layout first) (under_mem ((same there' (mem_layout second)).mp under)).2
      · exact absurd (mem_layout second) (apart (under_mem ((same there (mem_layout first)).mp under)).2)
      · have ne : a ≠ b := by
          rintro rfl
          exact apart (mem_layout first) (mem_layout first)
        have insideA := cell_inside enough' there
        have insideB := cell_inside enough' there'
        exact (cells_apart enough' there there' ne).mono
          (layout_inside insideA.width insideA.height (cell_fits enough' there) p first)
          (layout_inside insideB.width insideB.height (cell_fits enough' there') q second)

/-- Two widgets of a tree, in either order. -/
structure Situated (under : Nat → Nat → Prop) (p q : Nat × HWTRect ℚ) : Prop where
  below : under p.1 q.1 → Inside p.2 q.2
  above : under q.1 p.1 → Inside q.2 p.2
  apart : ¬ under p.1 q.1 → ¬ under q.1 p.1 → Apart p.2 q.2

theorem Situated.symm {under : Nat → Nat → Prop} {p q : Nat × HWTRect ℚ} (situated : Situated under p q) :
    Situated under q p where
  below := situated.above
  above := situated.below
  apart other other' := (situated.apart other' other).symm

/-- Any two widgets of a tree. -/
theorem layout_situated (distinct : shape.widgets.Nodup) (width : 0 ≤ rect.width) (height : 0 ≤ rect.height)
    (enough : Enough (shape.least contents ⟨0,0⟩) rect) {p q : Nat × HWTRect ℚ} (first : p ∈ shape.layout contents rect)
    (second : q ∈ shape.layout contents rect) (differ : p ≠ q) : Situated shape.Under p q := by
  have situated : (shape.layout contents rect).Pairwise (Situated shape.Under) :=
    (layout_placed distinct width height enough).imp fun placed =>
      ⟨placed.inside,fun again => absurd again placed.order,fun other _ => placed.apart other⟩
  have : Std.Symm (Situated shape.Under) := ⟨fun _ _ => Situated.symm⟩
  exact situated.forall first second differ

end

/-! ### A window of a context -/

/-- The rectangles of the widgets are inside of a window and of each other as the
    widgets are below each other. -/
structure Shape.Nested (shape : Shape ℚ) (window : HWTRect ℚ) (rect : Nat → HWTRect ℚ) : Prop where
  inside : ∀ u ∈ shape.widgets,Inside window (rect u)
  below : ∀ u v,shape.Under u v → Inside (rect u) (rect v)
  apart : ∀ u ∈ shape.widgets,∀ v ∈ shape.widgets,u ≠ v → ¬ shape.Under u v → ¬ shape.Under v u → Apart (rect u) (rect v)

section
variable {contents : Contents ℚ} {shape : Shape ℚ} {window : HWTRect ℚ} {m m₁ m' : Memory ℚ} {min least size : HWTSize ℚ}

/-- A window with room for a tree nests its layout. -/
theorem layout_nested (distinct : shape.widgets.Nodup) (width : 0 ≤ window.width) (height : 0 ≤ window.height)
    (enough : Enough (shape.least contents ⟨0,0⟩) window) {rect : Nat → HWTRect ℚ}
    (place : ∀ u ∈ shape.widgets,(u,rect u) ∈ shape.layout contents window) : shape.Nested window rect := by
  have situated {u v : Nat} (first : u ∈ shape.widgets) (second : v ∈ shape.widgets) (differ : u ≠ v) :
      Situated shape.Under (u,rect u) (v,rect v) :=
    layout_situated distinct width height enough (place u first) (place v second) fun same =>
      differ (congrArg Prod.fst same)
  refine ⟨fun u member => layout_inside width height enough _ (place u member),fun u v under => ?_,?_⟩
  · obtain ⟨first,second⟩ := under_mem under
    by_cases same : u = v
    · subst same
      have within := layout_inside width height enough _ (place u first)
      exact .refl within.width within.height
    · exact (situated first second same).below under
  · exact fun u first v second differ => (situated first second differ).apart

/-- Each widget has a rectangle in the layout. -/
theorem layout_place (shape : Shape ℚ) (window : HWTRect ℚ) : ∃ rect : Nat → HWTRect ℚ,
    ∀ u ∈ shape.widgets,(u,rect u) ∈ shape.layout contents window := by
  have : Nonempty (HWTRect ℚ) := ⟨⟨0,0,0,0⟩⟩
  have given : ∀ u ∈ shape.widgets,∃ r,(u,r) ∈ shape.layout contents window := by
    intro u member
    rw [← layout_names shape window] at member
    obtain ⟨p,there,rfl⟩ := List.mem_map.mp member
    exact ⟨p.2,there⟩
  choose! rect place using given
  exact ⟨rect,place⟩

/-- A new size with room for the tree. -/
theorem resize_nests (owned : Owned m) (pulled : hwt_widget_pull_min_over contents (depth m) m m.root min = .ok (m₁,least))
    (width : 0 ≤ size.width) (height : 0 ≤ size.height) (wide : least.width ≤ size.width)
    (high : least.height ≤ size.height) :
    ∃ (shape : Shape ℚ) (rect : Nat → HWTRect ℚ) (m' : Memory ℚ),shape.Stands m m.root ∧ shape.widgets.Nodup ∧
      shape.height < depth m ∧ resize_over contents min m size = .ok m' ∧
      shape.Laid contents ⟨0,0,size.width,size.height⟩ m m' ∧
      (∀ u ∈ shape.widgets,(u,rect u) ∈ shape.layout contents ⟨0,0,size.width,size.height⟩) ∧
      shape.Nested ⟨0,0,size.width,size.height⟩ rect := by
  obtain ⟨shape,stands,distinct,low,m',ran,laid⟩ := resize_laid owned contents min size
  obtain ⟨rect,place⟩ := @layout_place contents shape ⟨0,0,size.width,size.height⟩
  obtain ⟨_,pulled',_⟩ := leaves contents low m m.root min stands distinct
  rw [pulled] at pulled'
  cases pulled'
  have enough : Enough (shape.least contents ⟨0,0⟩) ⟨0,0,size.width,size.height⟩ := enough_zero width height ⟨wide,high⟩
  exact ⟨shape,rect,m',stands,distinct,low,ran,laid,place,layout_nested distinct width height enough place⟩

end

/-- The row needs the width that is in the variable of the label. -/
theorem row_needs : ∃ m₁ least,
    hwt_widget_pull_min_over (fun _ _ _ => ⟨10,0⟩) (depth row) row row.root ⟨0,0⟩ = .ok (m₁,least) ∧
      least.width ≤ 40 ∧ least.height ≤ 20 := by
  refine ⟨_,_,rfl,?_⟩
  norm_num [MAX,List.replicate,List.modify]

section
variable {g_type : Types} {hwt : HWT ℚ} {name : Nat} {old : Types} {contents : Contents ℚ} {min least size : HWTSize ℚ}
  {m₁ : Memory ℚ}

/-- A new size with room for what the tree needs nests its rectangles, whatever has
    been done to the context. -/
theorem resize_nested {acts : List (Act ℚ)} (reached : Reached (act g_type) (hwt_create (F := ℚ) name old).1 acts hwt)
    (pulled : hwt_widget_pull_min_over contents (depth hwt.memory) hwt.memory hwt.memory.root min = .ok (m₁,least))
    (width : 0 ≤ size.width) (height : 0 ≤ size.height) (wide : least.width ≤ size.width)
    (high : least.height ≤ size.height) :
    ∃ (shape : Shape ℚ) (rect : Nat → HWTRect ℚ) (m' : Memory ℚ),shape.Stands hwt.memory hwt.memory.root ∧
      resize_over contents min hwt.memory size = .ok m' ∧
      (∀ u ∈ shape.widgets,HWTWidget.rect <$> get m' u = .ok (rect u)) ∧
      shape.Nested ⟨0,0,size.width,size.height⟩ rect := by
  obtain ⟨shape,rect,m',stands,_,_,ran,laid,place,nested⟩ := resize_nests (acts_owned reached) pulled width height wide high
  refine ⟨shape,rect,m',stands,ran,fun u member => ?_,nested⟩
  obtain ⟨widget,widget',_,found,bare⟩ := laid.rects _ (place u member)
  rw [found]
  exact congrArg (fun widget => Except.ok widget.rect) bare

/-- There is room in a window of the size of the row. -/
theorem resize_nested_row : ∃ (shape : Shape ℚ) (rect : Nat → HWTRect ℚ) (m' : Memory ℚ),shape.Stands row (some 0) ∧
    resize_over (fun _ _ _ => ⟨10,0⟩) ⟨0,0⟩ row ⟨40,20⟩ = .ok m' ∧
    (∀ u ∈ shape.widgets,HWTWidget.rect <$> get m' u = .ok (rect u)) ∧ shape.Nested ⟨0,0,40,20⟩ rect := by
  obtain ⟨m₁,least,pulled,wide,high⟩ := row_needs
  exact resize_nested row_reached pulled (by norm_num) (by norm_num) wide high

end

end Htools.Hwt
