import Mathlib.Data.Tree.Basic
import Mathlib.Data.List.Basic
import Mathlib.Data.List.Nodup
import Mathlib.Data.List.Perm.Basic
import Mathlib.Algebra.Order.Group.Nat
import Mathlib.Data.Int.Order.Basic

/-!
# Binary trees with a place in them

A place in a tree is the path that leads up from it, a frame for each node with
what hangs on its other side. `plug` puts a subtree in the place. What is before
and after a place in order does not depend on the subtree (`inorder_plug`), and
a search that is guided by the sign of a comparison leads to the place where its
outcome changes (`descend_before` and `descend_after`).
-/
namespace Htools.Zippers

inductive Side where
  | left
  | right
  deriving DecidableEq, Repr

def Side.other : Side → Side
  | .left => .right
  | .right => .left

@[simp] theorem Side.other_other (s : Side) : s.other.other = s := by
  cases s <;> rfl

@[simp] theorem Side.other_ne (s : Side) : s.other ≠ s := by
  cases s <;> simp [Side.other]

@[simp] theorem Side.ne_other (s : Side) : s ≠ s.other := s.other_ne.symm

theorem Side.eq_or_other (s t : Side) : t = s ∨ t = s.other := by
  cases s <;> cases t <;> simp [Side.other]

theorem Side.eq_other_of_ne {s t : Side} (differ : t ≠ s) : t = s.other := (s.eq_or_other t).resolve_left differ

section
variable {α : Type}

def inorder : BinaryTree α → List α
  | .nil => []
  | .node x l r => inorder l ++ x :: inorder r

/-- The label of the root. -/
def rootOf : BinaryTree α → Option α
  | .nil => none
  | .node x _ _ => some x

/-- A node with a subtree on one side and another on the other side. -/
def bear : Side → α → BinaryTree α → BinaryTree α → BinaryTree α
  | .left,x,near,far => .node x near far
  | .right,x,near,far => .node x far near

/-- The subtree on a side. -/
def side : Side → BinaryTree α → BinaryTree α
  | .left,t => t.left
  | .right,t => t.right

/-- A node above a place, the side on which the place is and the subtree on the other side. -/
structure Frame (α : Type) where
  side : Side
  label : α
  sibling : BinaryTree α

def Frame.fill (f : Frame α) (t : BinaryTree α) : BinaryTree α := bear f.side f.label t f.sibling

def plug : List (Frame α) → BinaryTree α → BinaryTree α
  | [],t => t
  | f :: K,t => plug K (f.fill t)

/-- The labels that come before a place in order. -/
def before : List (Frame α) → List α
  | [] => []
  | f :: K =>
    match f.side with
    | .left => before K
    | .right => before K ++ inorder f.sibling ++ [f.label]

/-- Those that come after it. -/
def after : List (Frame α) → List α
  | [] => []
  | f :: K =>
    match f.side with
    | .left => f.label :: inorder f.sibling ++ after K
    | .right => after K

/-- All labels outside of a place, from the place up. -/
def around : List (Frame α) → List α
  | [] => []
  | f :: K => f.label :: inorder f.sibling ++ around K

@[simp] theorem inorder_nil : inorder (.nil : BinaryTree α) = [] := rfl

@[simp] theorem inorder_node (x : α) (l r : BinaryTree α) : inorder (.node x l r) = inorder l ++ x :: inorder r := rfl

@[simp] theorem rootOf_nil : rootOf (.nil : BinaryTree α) = none := rfl

@[simp] theorem rootOf_node (x : α) (l r : BinaryTree α) : rootOf (.node x l r) = some x := rfl

@[simp] theorem rootOf_bear (s : Side) (x : α) (near far : BinaryTree α) : rootOf (bear s x near far) = some x := by
  cases s <;> rfl

@[simp] theorem side_bear (s : Side) (x : α) (near far : BinaryTree α) : side s (bear s x near far) = near := by
  cases s <;> rfl

@[simp] theorem side_bear_other (s : Side) (x : α) (near far : BinaryTree α) :
    side s.other (bear s x near far) = far := by
  cases s <;> rfl

theorem bear_other (s : Side) (x : α) (near far : BinaryTree α) : bear s.other x far near = bear s x near far := by
  cases s <;> rfl

/-- Every node bears its subtrees, whichever side is looked at first. -/
theorem bear_sides (s : Side) (x : α) (l r : BinaryTree α) :
    bear s x (side s (.node x l r)) (side s.other (.node x l r)) = .node x l r := by
  cases s <;> rfl

theorem bear_ne_nil {s : Side} {x : α} {near far : BinaryTree α} : bear s x near far ≠ .nil := by
  cases s <;> simp [bear]

/-- A tree with a root bears its subtrees on both sides. -/
theorem exists_bear (s : Side) {t : BinaryTree α} {x : α} (here : rootOf t = some x) : ∃ near far, t = bear s x near far := by
  cases t with
  | nil => cases here
  | node y l r =>
    cases here
    exact ⟨_,_,(bear_sides s x l r).symm⟩

theorem mem_bear {s : Side} {x z : α} {near far : BinaryTree α} :
    z ∈ inorder (bear s x near far) ↔ z = x ∨ z ∈ inorder near ∨ z ∈ inorder far := by
  cases s <;> simp [bear] <;> tauto

theorem perm_bear (s : Side) (x : α) (near far : BinaryTree α) :
    (inorder (bear s x near far)).Perm (x :: inorder near ++ inorder far) := by
  cases s with
  | left => exact List.perm_middle
  | right => exact List.perm_middle.trans (List.Perm.cons x List.perm_append_comm)

theorem rootOf_mem {t : BinaryTree α} {x : α} (here : rootOf t = some x) : x ∈ inorder t := by
  cases t with
  | nil => cases here
  | node y l r =>
    cases here
    simp

theorem rootOf_eq_none_iff {t : BinaryTree α} : rootOf t = none ↔ t = .nil := by
  cases t <;> simp

theorem length_inorder (t : BinaryTree α) : (inorder t).length = t.numNodes := by
  induction t with
  | nil => rfl
  | node x l r ihl ihr =>
    simp only [inorder_node,List.length_append,List.length_cons,ihl,ihr,BinaryTree.numNodes]
    omega

theorem height_bear (s : Side) (x : α) (near far : BinaryTree α) :
    (bear s x near far).height = max near.height far.height + 1 := by
  cases s with
  | left => rfl
  | right => simp [bear,max_comm]

theorem numNodes_bear (s : Side) (x : α) (near far : BinaryTree α) :
    (bear s x near far).numNodes = near.numNodes + far.numNodes + 1 := by
  cases s with
  | left => rfl
  | right => simp [bear,add_comm]

/-! ### What a place has around it -/

theorem inorder_fill (f : Frame α) (t : BinaryTree α) :
    inorder (f.fill t) = before [f] ++ inorder t ++ after [f] := by
  obtain ⟨_ | _,x,sibling⟩ := f <;> simp [Frame.fill,bear,before,after]

theorem before_cons (f : Frame α) (K : List (Frame α)) : before (f :: K) = before K ++ before [f] := by
  obtain ⟨_ | _,x,sibling⟩ := f <;> simp [before]

theorem before_append (K K' : List (Frame α)) : before (K ++ K') = before K' ++ before K := by
  induction K with
  | nil => simp [before]
  | cons f K ih => rw [List.cons_append,before_cons f (K ++ K'),before_cons f K,ih,List.append_assoc]

theorem after_cons (f : Frame α) (K : List (Frame α)) : after (f :: K) = after [f] ++ after K := by
  obtain ⟨_ | _,x,sibling⟩ := f <;> simp [after]

theorem inorder_plug (K : List (Frame α)) (t : BinaryTree α) :
    inorder (plug K t) = before K ++ inorder t ++ after K := by
  induction K generalizing t with
  | nil => simp [plug,before,after]
  | cons f K ih =>
    rw [plug,ih,inorder_fill,before_cons f K,after_cons f K]
    simp only [List.append_assoc]

theorem plug_append (K K' : List (Frame α)) (t : BinaryTree α) : plug (K ++ K') t = plug K' (plug K t) := by
  induction K generalizing t with
  | nil => rfl
  | cons f K ih => exact ih (f.fill t)

theorem around_append (K K' : List (Frame α)) : around (K ++ K') = around K ++ around K' := by
  induction K with
  | nil => rfl
  | cons f K ih => simp [around,ih]

theorem perm_plug (K : List (Frame α)) (t : BinaryTree α) :
    (inorder (plug K t)).Perm (inorder t ++ around K) := by
  induction K generalizing t with
  | nil => simp [plug,around]
  | cons f K ih =>
    have here := (perm_bear f.side f.label t f.sibling).append_right (around K)
    refine (ih (f.fill t)).trans (here.trans ?_)
    rw [around,← List.append_assoc]
    refine List.Perm.append_right _ ?_
    exact List.perm_middle.symm

/-- Every label has its place. -/
theorem exists_place {t : BinaryTree α} {x : α} (member : x ∈ inorder t) : ∃ K l r, t = plug K (.node x l r) := by
  induction t with
  | nil => cases member
  | node y l r ihl ihr =>
    rw [inorder_node,List.mem_append,List.mem_cons] at member
    obtain left | rfl | right := member
    · obtain ⟨K,a,b,rfl⟩ := ihl left
      refine ⟨K ++ [⟨.left,y,r⟩],a,b,?_⟩
      rw [plug_append]
      rfl
    · exact ⟨[],l,r,rfl⟩
    · obtain ⟨K,a,b,rfl⟩ := ihr right
      refine ⟨K ++ [⟨.right,y,l⟩],a,b,?_⟩
      rw [plug_append]
      rfl

theorem length_le_height (K : List (Frame α)) (t : BinaryTree α) : K.length + t.height ≤ (plug K t).height := by
  induction K generalizing t with
  | nil => simp [plug]
  | cons f K ih =>
    have := ih (f.fill t)
    rw [Frame.fill,height_bear] at this
    rw [plug,Frame.fill,List.length_cons]
    omega

end

/-! ### Searches -/

section
variable {α : Type} {go : α → Int}

/-- The search goes to the left from the first label that it does not go to the
    right from. -/
def Guides (go : α → Int) (l : List α) : Prop := l.Pairwise fun a b => go a ≤ 0 → go b < 0

/-- The place that the search comes to, and the subtree there. -/
def descend (go : α → Int) : List (Frame α) → BinaryTree α → List (Frame α) × BinaryTree α
  | K,.nil => (K,.nil)
  | K,.node x l r =>
    if go x < 0 then descend go (⟨.left,x,r⟩ :: K) l
    else if 0 < go x then descend go (⟨.right,x,l⟩ :: K) r
    else (K,.node x l r)

theorem plug_descend (K : List (Frame α)) (t : BinaryTree α) :
    plug (descend go K t).1 (descend go K t).2 = plug K t := by
  fun_induction descend go K t with
  | case1 => rfl
  | case2 K x l r less ih => exact ih
  | case3 K x l r less more ih => exact ih
  | case4 => rfl

/-- A search ends below the last node or at one that compares equal. -/
theorem descend_end (K : List (Frame α)) (t : BinaryTree α) :
    (descend go K t).2 = .nil ∨ ∃ x l r, (descend go K t).2 = .node x l r ∧ go x = 0 := by
  fun_induction descend go K t with
  | case1 => exact .inl rfl
  | case2 K x l r less ih => exact ih
  | case3 K x l r less more ih => exact ih
  | case4 K x l r less more => exact .inr ⟨x,l,r,rfl,by omega⟩

theorem guides_node {x : α} {l r : BinaryTree α} (guides : Guides go (inorder (.node x l r))) :
    Guides go (inorder l) ∧ Guides go (inorder r) ∧ (∀ a ∈ inorder l, go a ≤ 0 → go x < 0) ∧
      (∀ b ∈ inorder r, go x ≤ 0 → go b < 0) := by
  obtain ⟨left,right,across⟩ := List.pairwise_append.mp guides
  rw [List.pairwise_cons] at right
  exact ⟨left,right.2,fun a member => across a member x List.mem_cons_self,right.1⟩

theorem descend_before {K : List (Frame α)} {t : BinaryTree α} (guides : Guides go (inorder t))
    (held : ∀ a ∈ before K, 0 < go a) : ∀ a ∈ before (descend go K t).1, 0 < go a := by
  fun_induction descend go K t with
  | case1 => exact held
  | case2 K x l r less ih => exact ih (guides_node guides).1 held
  | case3 K x l r less more ih =>
    obtain ⟨-,guidesR,left,-⟩ := guides_node guides
    refine ih guidesR fun a member => ?_
    rw [before,List.mem_append,List.mem_append,List.mem_singleton] at member
    obtain (old | new) | rfl := member
    · exact held a old
    · by_contra not
      exact less (left a new (by omega))
    · exact more
  | case4 => exact held

theorem descend_after {K : List (Frame α)} {t : BinaryTree α} (guides : Guides go (inorder t))
    (held : ∀ b ∈ after K, go b < 0) : ∀ b ∈ after (descend go K t).1, go b < 0 := by
  fun_induction descend go K t with
  | case1 => exact held
  | case2 K x l r less ih =>
    obtain ⟨guidesL,-,-,right⟩ := guides_node guides
    refine ih guidesL fun b member => ?_
    rw [after,List.cons_append,List.mem_cons,List.mem_append] at member
    obtain rfl | new | old := member
    · exact less
    · exact right b new (by omega)
    · exact held b old
  | case3 K x l r less more ih => exact ih (guides_node guides).2.1 held
  | case4 => exact held

/-- What a search in the whole tree divides it into. -/
theorem descend_splits {t : BinaryTree α} (guides : Guides go (inorder t)) :
    ∃ A B, inorder t = A ++ inorder (descend go [] t).2 ++ B ∧ A = before (descend go [] t).1 ∧
      B = after (descend go [] t).1 ∧ (∀ a ∈ A, 0 < go a) ∧ ∀ b ∈ B, go b < 0 := by
  refine ⟨_,_,?_,rfl,rfl,descend_before guides (by simp [before]),descend_after guides (by simp [after])⟩
  rw [← inorder_plug,plug_descend]
  rfl

end

end Htools.Zippers
