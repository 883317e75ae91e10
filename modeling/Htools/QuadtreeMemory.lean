import Htools.Quadtree
import Mathlib.Algebra.Order.BigOperators.Group.List
import Mathlib.Algebra.Order.Group.Nat
import Mathlib.Data.Fin.VecNotation
import Mathlib.Data.List.Nodup
import Mathlib.Logic.Function.Basic

/-!
The quadtree template in memory. A node has four child pointers, of which only the
first one is set to null in a new node and tells whether there are children; the
user's callbacks hand nodes out and take them back. A tree in memory stands for one
of `Htools.Quadtree`, and a traversal does to it what it does there (`visit_holds`).
It returns, does nothing when it is repeated and leaves a tree that `shutdown` frees
node by node, unless it is led too deep for `1 << level` (`behaves_iff`).
-/
namespace Htools.QuadtreeMemory
open Htools.Quadtree (Node QuadtreeTraversal User)

/-- `QUADTREE_ENTRY`; none is the null pointer. -/
structure Entry where
  level : Nat
  i : Nat
  j : Nat
  child : Fin 4 → Option Nat

/-- `child[k] = value`. -/
def Entry.set (entry : Entry) (k : Fin 4) (value : Option Nat) : Entry :=
  { entry with child := Function.update entry.child k value }

@[simp] theorem Entry.set_level (entry : Entry) (k : Fin 4) (value : Option Nat) : (entry.set k value).level = entry.level := rfl

@[simp] theorem Entry.set_i (entry : Entry) (k : Fin 4) (value : Option Nat) : (entry.set k value).i = entry.i := rfl

@[simp] theorem Entry.set_j (entry : Entry) (k : Fin 4) (value : Option Nat) : (entry.set k value).j = entry.j := rfl

@[simp] theorem Entry.set_child (entry : Entry) (k l : Fin 4) (value : Option Nat) :
    (entry.set k value).child l = if l = k then value else entry.child l := Function.update_apply entry.child k value l

/-- The field `root` of the tree, the nodes that are allocated, what memory holds at any
    address, and what the user's callbacks have done. -/
structure Memory where
  root : Option Nat
  live : List Nat
  entry : Nat → Entry
  allocs : Nat
  frees : List Nat

/-- Where there is a pointer to a node. -/
inductive Place where
  | root
  | child (a_node : Nat) (i : Fin 4)

def Memory.at_ (m : Memory) (a_node : Nat) : Except Stop Entry :=
  if a_node ∈ m.live then .ok (m.entry a_node) else .error .fault

def Memory.read (m : Memory) : Place → Except Stop (Option Nat)
  | .root => .ok m.root
  | .child a_node i => do
    let entry ← m.at_ a_node
    return entry.child i

def Memory.write (m : Memory) (value : Option Nat) : Place → Except Stop Memory
  | .root => .ok { m with root := value }
  | .child a_node i => do
    let entry ← m.at_ a_node
    return { m with entry := Function.update m.entry a_node (entry.set i value) }

/-- The callback: the node goes, and the pointer to it becomes null. -/
def free_ (m : Memory) (a_node : Place) : Except Stop Memory := do
  match ← m.read a_node with
  | none => .error .fault
  | some node =>
    if node ∈ m.live then Memory.write { m with live := m.live.erase node, frees := m.frees ++ [node] } none a_node
    else .error .fault

/-- `node_free_`, given `node_clear_`. -/
def node_free_ (node_clear_ : Memory → Option Nat → Except Stop Memory) (m : Memory) (a_node : Place) :
    Except Stop Memory := do
  let node ← m.read a_node
  let m ← node_clear_ m node
  let m ← free_ m a_node
  let node ← m.read a_node
  if none = node then .ok m else .error .abort

def node_clear_ : Nat → Memory → Option Nat → Except Stop Memory
  | 0,_,_ => .error .fuel
  | _ + 1,_,none => .error .abort
  | fuel + 1,m,some a_node => do
    let entry ← m.at_ a_node
    if none ≠ entry.child 0 then
      [0,1,2,3].foldlM (fun m i => node_free_ (node_clear_ fuel) m (.child a_node i)) m
    else .ok m

def shutdown (fuel : Nat) (m : Memory) : Except Stop Memory := node_free_ (node_clear_ fuel) m .root

section
variable (malloc : Memory → Nat) (visit : Nat → Nat → Nat → QuadtreeTraversal)

/-- The callback gives a node with what memory holds there. -/
def alloc (m : Memory) : Nat × Memory := (malloc m,{ m with live := malloc m :: m.live, allocs := m.allocs + 1 })

def node_alloc_ (m : Memory) (a_level a_i a_j : Nat) : Nat × Memory :=
  let (node,m) := alloc malloc m
  let entry := m.entry node
  (node,{ m with
    entry := Function.update m.entry node
      { level := a_level, i := a_i, j := a_j, child := Function.update entry.child 0 none } })

/-- `child[k] = node_alloc_(..)`. -/
def new_child (m : Memory) (a_node : Nat) (k : Fin 4) (level i j : Nat) : Except Stop Memory :=
  let (node,m) := node_alloc_ malloc m level i j
  m.write (some node) (.child a_node k)

/-- The part of `node_visit_` that makes the children of a node that has none. -/
def node_expand (m : Memory) (a_node : Nat) : Except Stop Memory := do
  let entry ← m.at_ a_node
  if none = entry.child 0 then
    -- `1 << level` has to fit an `int`.
    if 31 ≤ entry.level then .error .fault
    else do
      let scale := 1 <<< entry.level
      let i := scale * entry.i % 2 ^ 32
      let j := scale * entry.j % 2 ^ 32
      let level := entry.level + 1
      let m ← new_child malloc m a_node 0 level i j
      let m ← new_child malloc m a_node 1 level i ((j + 1) % 2 ^ 32)
      let m ← new_child malloc m a_node 2 level ((i + 1) % 2 ^ 32) j
      new_child malloc m a_node 3 level ((i + 1) % 2 ^ 32) ((j + 1) % 2 ^ 32)
  else .ok m

/-- One turn of the loop over the children, given the visit of a child. -/
def visit_child (node_visit_ : Memory → Nat → Except Stop Memory) (a_node : Nat) (m : Memory) (k : Fin 4) :
    Except Stop Memory := do
  match ← m.read (.child a_node k) with
  | none => .error .fault
  | some child => node_visit_ m child

/-- The visitor decides from the level and the coordinates. -/
def node_visit_ : Nat → Memory → Nat → Except Stop Memory
  | 0,_,_ => .error .fuel
  | fuel + 1,m,a_node => do
    let entry ← m.at_ a_node
    match visit entry.level entry.i entry.j with
    | .CLEAR => node_clear_ fuel m (some a_node)
    | .STOP => .ok m
    | .CONTINUE => do
      let m ← node_expand malloc m a_node
      [0,1,2,3].foldlM (visit_child (node_visit_ fuel) a_node) m

def init (m : Memory) : Memory :=
  let (root,m) := node_alloc_ malloc m 0 0 0
  { m with root := some root }

def traverse (fuel : Nat) (m : Memory) : Except Stop Memory :=
  match m.root with
  | none => .error .abort
  | some root => node_visit_ malloc visit fuel m root

end

/-! ### Trees in memory -/

/-- The four children of a fork. -/
abbrev kids (c0 c1 c2 c3 : Node) : Fin 4 → Node := ![c0,c1,c2,c3]

/-- A node and those below it, in the order in which they are freed. -/
abbrev whole (a : Nat) (below : List Nat) : List Nat := below ++ [a]

/-- The nodes below children. -/
abbrev wholes (ks : List (Fin 4)) (A : Fin 4 → Nat) (B : Fin 4 → List Nat) : List Nat := ks.flatMap fun k => whole (A k) (B k)

/-- The node at an address is the root of a tree, with the addresses of the nodes below it. -/
def Holds (m : Memory) : Node → Nat → List Nat → Prop
  | .leaf level i j,a,below =>
    a ∈ m.live ∧ (m.entry a).level = level ∧ (m.entry a).i = i ∧ (m.entry a).j = j ∧ (m.entry a).child 0 = none ∧ below = []
  | .fork level i j c0 c1 c2 c3,a,below =>
    a ∈ m.live ∧ (m.entry a).level = level ∧ (m.entry a).i = i ∧ (m.entry a).j = j ∧
      ∃ A B, (∀ k, (m.entry a).child k = some (A k)) ∧ below = wholes [0,1,2,3] A B ∧
        Holds m c0 (A 0) (B 0) ∧ Holds m c1 (A 1) (B 1) ∧ Holds m c2 (A 2) (B 2) ∧ Holds m c3 (A 3) (B 3)

section
variable {malloc : Memory → Nat} {visit : Nat → Nat → Nat → QuadtreeTraversal} {m m' m₁ : Memory} {t : Node} {a : Nat}
  {below gone more : List Nat} {ks : List (Fin 4)} {A : Fin 4 → Nat} {B : Fin 4 → List Nat} {T : Fin 4 → Node}

theorem four (k : Fin 4) : k = 0 ∨ k = 1 ∨ k = 2 ∨ k = 3 := by omega

theorem all_kids (k : Fin 4) : k ∈ ([0,1,2,3] : List (Fin 4)) := by
  simpa using four k

/-- The children of a fork by their index. -/
theorem holds_fork {level i j : Nat} {c0 c1 c2 c3 : Node} : Holds m (.fork level i j c0 c1 c2 c3) a below ↔
    a ∈ m.live ∧ (m.entry a).level = level ∧ (m.entry a).i = i ∧ (m.entry a).j = j ∧
      ∃ A B, (∀ k, (m.entry a).child k = some (A k)) ∧ below = wholes [0,1,2,3] A B ∧
        ∀ k, Holds m (kids c0 c1 c2 c3 k) (A k) (B k) := by
  simp only [Holds,Fin.forall_fin_succ,kids]
  simp

theorem mem_whole {x : Nat} : x ∈ whole a below ↔ x ∈ below ∨ x = a := by simp

theorem mem_wholes {x : Nat} : x ∈ wholes ks A B ↔ ∃ k ∈ ks, x ∈ whole (A k) (B k) := List.mem_flatMap

theorem Holds.live (holds : Holds m t a below) : ∀ x ∈ whole a below, x ∈ m.live := by
  induction t generalizing a below with
  | leaf level i j =>
    intro x member
    obtain ⟨live,_,_,_,_,rfl⟩ := holds
    rw [List.mem_singleton.mp member]
    exact live
  | fork level i j c0 c1 c2 c3 ih0 ih1 ih2 ih3 =>
    intro x member
    obtain ⟨live,_,_,_,A,B,_,rfl,h0,h1,h2,h3⟩ := holds
    rcases mem_whole.mp member with inside | rfl
    · obtain ⟨k,_,inside⟩ := mem_wholes.mp inside
      rcases four k with rfl | rfl | rfl | rfl
      · exact ih0 h0 x inside
      · exact ih1 h1 x inside
      · exact ih2 h2 x inside
      · exact ih3 h3 x inside
    · exact live

/-- A tree stays where its nodes stay as they are. -/
theorem Holds.frame (holds : Holds m t a below)
    (same : ∀ x ∈ whole a below, x ∈ m.live → x ∈ m'.live ∧ m'.entry x = m.entry x) : Holds m' t a below := by
  induction t generalizing a below with
  | leaf level i j =>
    obtain ⟨live,rest⟩ := holds
    obtain ⟨live',is⟩ := same a (mem_whole.mpr (.inr rfl)) live
    rw [← is] at rest
    exact ⟨live',rest⟩
  | fork level i j c0 c1 c2 c3 ih0 ih1 ih2 ih3 =>
    obtain ⟨live,e₁,e₂,e₃,A,B,children,rfl,h0,h1,h2,h3⟩ := holds
    obtain ⟨live',is⟩ := same a (mem_whole.mpr (.inr rfl)) live
    rw [← is] at e₁ e₂ e₃ children
    have part : ∀ k, ∀ x ∈ whole (A k) (B k), x ∈ m.live → x ∈ m'.live ∧ m'.entry x = m.entry x := fun k x inside =>
      same x (mem_whole.mpr (.inl (mem_wholes.mpr ⟨k,all_kids k,inside⟩)))
    exact ⟨live',e₁,e₂,e₃,A,B,children,rfl,ih0 h0 (part 0),ih1 h1 (part 1),ih2 h2 (part 2),ih3 h3 (part 3)⟩

/-! ### Clearing -/

def height : Node → Nat
  | .leaf _ _ _ => 0
  | .fork _ _ _ c0 c1 c2 c3 => 1 + max (max (height c0) (height c1)) (max (height c2) (height c3))

theorem height_kid {level i j : Nat} {c0 c1 c2 c3 : Node} (k : Fin 4) :
    height (kids c0 c1 c2 c3 k) < height (.fork level i j c0 c1 c2 c3) := by
  rcases four k with rfl | rfl | rfl | rfl <;> simp only [kids,height] <;> simp <;> omega

/-- Nodes have been freed in this order. No other one has changed, but for the owner of
    the pointers to them. -/
structure Freed (m m' : Memory) (owner : Nat) (gone : List Nat) : Prop where
  root : m'.root = m.root
  allocs : m'.allocs = m.allocs
  frees : m'.frees = m.frees ++ gone
  live : m'.live = m.live.filter (· ∉ gone)
  entry : ∀ x, x ≠ owner → x ∉ gone → m'.entry x = m.entry x

theorem Freed.refl : Freed m m a [] :=
  ⟨rfl,rfl,by simp,by simp,fun _ _ _ => rfl⟩

theorem Freed.trans (first : Freed m m₁ a gone) (second : Freed m₁ m' a more) : Freed m m' a (gone ++ more) where
  root := second.root.trans first.root
  allocs := second.allocs.trans first.allocs
  frees := by rw [second.frees,first.frees,List.append_assoc]
  live := by
    rw [second.live,first.live,List.filter_filter]
    refine List.filter_congr fun x _ => ?_
    simp only [List.mem_append,not_or,Bool.decide_and,Bool.and_comm]
  entry := by
    intro x other apart
    obtain ⟨before,behind⟩ := not_or.mp (List.mem_append.not.mp apart)
    rw [second.entry x other behind,first.entry x other before]

theorem Freed.kept (freed : Freed m m' a gone) {x : Nat} (live : x ∈ m.live) (other : x ≠ a) (apart : x ∉ gone) :
    x ∈ m'.live ∧ m'.entry x = m.entry x := by
  rw [freed.live,List.mem_filter]
  exact ⟨⟨live,decide_eq_true apart⟩,freed.entry x other apart⟩

theorem at_live (live : a ∈ m.live) : m.at_ a = .ok (m.entry a) := if_pos live

theorem read_child (live : a ∈ m.live) (k : Fin 4) : m.read (.child a k) = .ok ((m.entry a).child k) := by
  rw [Memory.read,at_live live]
  rfl

theorem write_child (live : a ∈ m.live) (k : Fin 4) (value : Option Nat) : m.write value (.child a k) = .ok { m with
    entry := Function.update m.entry a ((m.entry a).set k value) } := by
  rw [Memory.write,at_live live]
  rfl

/-- The node behind a pointer is cleared and goes, given what clearing it does. -/
theorem node_free_child {k : Fin 4} {c : Nat} (nodup : m.live.Nodup) (live : a ∈ m.live)
    (here : (m.entry a).child k = some c) (there : c ∈ m.live) (other : c ≠ a) (outside : a ∉ gone) (apart : c ∉ gone)
    (freed : Freed m m₁ c gone) :
    ∃ m', (∀ clear : Memory → Option Nat → Except Stop Memory, clear m (some c) = .ok m₁ →
      node_free_ clear m (.child a k) = .ok m') ∧ Freed m m' a (whole c gone) ∧ m'.entry a = (m.entry a).set k none := by
  obtain ⟨live₁,is⟩ := freed.kept live (Ne.symm other) outside
  have there₁ : c ∈ m₁.live := by
    rw [freed.live,List.mem_filter]
    exact ⟨there,decide_eq_true apart⟩
  have nodup₁ : m₁.live.Nodup := by
    rw [freed.live]
    exact nodup.filter _
  have read₁ : m₁.read (.child a k) = .ok (some c) := by rw [read_child live₁,is,here]
  have live₂ : a ∈ m₁.live.erase c := (List.mem_erase_of_ne (Ne.symm other)).mpr live₁
  obtain ⟨m',m'Is⟩ : ∃ m' : Memory, m' = { m₁ with
      live := m₁.live.erase c, frees := m₁.frees ++ [c]
      entry := Function.update m₁.entry a ((m₁.entry a).set k none) } := ⟨_,rfl⟩
  have freed_ : free_ m₁ (.child a k) = .ok m' := by
    rw [free_,read₁]
    simp only [bind,Except.bind]
    rw [if_pos there₁,m'Is]
    exact write_child (m := { m₁ with live := m₁.live.erase c, frees := m₁.frees ++ [c] }) live₂ k none
  have entry' : m'.entry a = (m.entry a).set k none := by
    rw [m'Is]
    simp only
    rw [Function.update_self,is]
  have read' : m'.read (.child a k) = .ok none := by
    rw [read_child (by rw [m'Is]; exact live₂),entry',Entry.set_child,if_pos rfl]
  refine ⟨m',?_,⟨?_,?_,?_,?_,?_⟩,entry'⟩
  · intro clear run
    rw [node_free_,read_child live,here]
    simp only [bind,Except.bind,run,freed_,read',if_true]
  · rw [m'Is]
    exact freed.root
  · rw [m'Is]
    exact freed.allocs
  · rw [m'Is]
    simp only
    rw [freed.frees,List.append_assoc]
  · rw [m'Is]
    simp only
    rw [nodup₁.erase_eq_filter,freed.live,List.filter_filter]
    refine List.filter_congr fun x _ => ?_
    simp [bne,and_comm,Bool.beq_eq_decide_eq]
  · intro x notOwner notGone
    obtain ⟨before,notC⟩ := not_or.mp (List.mem_append.not.mp notGone)
    rw [m'Is]
    simp only
    rw [Function.update_of_ne notOwner]
    exact freed.entry x (by simpa using notC) before

/-- The trees of different children have no nodes in common. -/
theorem wholes_cons (k : Fin 4) (ks : List (Fin 4)) : wholes (k :: ks) A B = whole (A k) (B k) ++ wholes ks A B := rfl

/-- The loop over the children frees their trees, one after the other. -/
theorem node_clear_children {most : Nat}
    (clear : ∀ k ∈ ks, ∀ {m : Memory}, Holds m (T k) (A k) (B k) → (whole (A k) (B k)).Nodup → m.live.Nodup →
      ∃ m', (∀ fuel, most < fuel → node_clear_ fuel m (some (A k)) = .ok m') ∧ Freed m m' (A k) (B k)) :
    ∀ {m : Memory}, m.live.Nodup → a ∈ m.live → (∀ k ∈ ks, (m.entry a).child k = some (A k)) → ks.Nodup →
      (∀ k ∈ ks, Holds m (T k) (A k) (B k)) → (whole a (wholes ks A B)).Nodup →
      ∃ m', (∀ fuel, most < fuel →
        ks.foldlM (fun m i => node_free_ (node_clear_ fuel) m (.child a i)) m = .ok m') ∧
        Freed m m' a (wholes ks A B) ∧ (m'.entry a).level = (m.entry a).level ∧ (m'.entry a).i = (m.entry a).i ∧
        (m'.entry a).j = (m.entry a).j ∧ ∀ k, (m'.entry a).child k = if k ∈ ks then none else (m.entry a).child k := by
  induction ks with
  | nil =>
    intro m _ _ _ _ _ _
    exact ⟨m,fun _ _ => rfl,Freed.refl,rfl,rfl,rfl,fun k => by simp⟩
  | cons k ks ih =>
    intro m nodup live children kNodup holds apart
    obtain ⟨new,kNodup⟩ := List.nodup_cons.mp kNodup
    rw [whole,wholes_cons,List.append_assoc,List.nodup_append] at apart
    obtain ⟨first,rest,disjoint⟩ := apart
    have outside : a ∉ whole (A k) (B k) := fun inside => disjoint a inside a (mem_whole.mpr (.inr rfl)) rfl
    have here := holds k List.mem_cons_self
    obtain ⟨below,own⟩ : A k ∉ B k ∧ A k ≠ a := by
      refine ⟨fun inside => ?_,fun is => outside (is ▸ mem_whole.mpr (.inr rfl))⟩
      rw [whole,List.nodup_append] at first
      exact first.2.2 _ inside _ (List.mem_singleton_self _) rfl
    obtain ⟨m₁,run₁,freed₁⟩ := clear k List.mem_cons_self here first nodup
    obtain ⟨m₂,free_,freed₂,entry₂⟩ := node_free_child nodup live (children k List.mem_cons_self)
      (here.live _ (mem_whole.mpr (.inr rfl))) own (fun inside => outside (mem_whole.mpr (.inl inside))) below freed₁
    have kept : ∀ l ∈ ks, Holds m₂ (T l) (A l) (B l) := by
      intro l member
      refine (holds l (List.mem_cons_of_mem k member)).frame fun x inside there => ?_
      have later : x ∈ wholes ks A B := mem_wholes.mpr ⟨l,member,inside⟩
      refine freed₂.kept there ?_ fun before => disjoint x before x (mem_whole.mpr (.inl later)) rfl
      rintro rfl
      rw [List.nodup_append] at rest
      exact rest.2.2 _ later _ (List.mem_singleton_self _) rfl
    have live₂ : a ∈ m₂.live := by
      rw [freed₂.live,List.mem_filter]
      exact ⟨live,decide_eq_true outside⟩
    have nodup₂ : m₂.live.Nodup := by
      rw [freed₂.live]
      exact nodup.filter _
    have children₂ : ∀ l ∈ ks, (m₂.entry a).child l = some (A l) := by
      intro l member
      rw [entry₂,Entry.set_child,if_neg (ne_of_mem_of_not_mem member new)]
      exact children l (List.mem_cons_of_mem k member)
    obtain ⟨m',run',freed',level,i,j,child⟩ := ih (fun l member => clear l (List.mem_cons_of_mem k member)) nodup₂ live₂
      children₂ kNodup kept rest
    refine ⟨m',fun fuel enough => ?_,freed₂.trans freed',?_,?_,?_,?_⟩
    · rw [List.foldlM_cons,free_ _ (run₁ fuel enough)]
      exact run' fuel enough
    · rw [level,entry₂,Entry.set_level]
    · rw [i,entry₂,Entry.set_i]
    · rw [j,entry₂,Entry.set_j]
    · intro l
      rw [child,entry₂,Entry.set_child]
      by_cases same : l = k <;> by_cases later : l ∈ ks <;> simp [same,later]

/-- Clearing a tree frees all nodes below its root, which stays as a leaf. -/
theorem node_clear_holds (holds : Holds m t a below) (apart : (whole a below).Nodup) (nodup : m.live.Nodup) :
    ∃ m', (∀ fuel, height t < fuel → node_clear_ fuel m (some a) = .ok m') ∧ Freed m m' a below ∧
      Holds m' (.leaf t.level t.cell.1 t.cell.2) a [] := by
  induction t generalizing m a below with
  | leaf level i j =>
    obtain ⟨live,is_level,is_i,is_j,none_,rfl⟩ := holds
    refine ⟨m,fun fuel enough => ?_,Freed.refl,live,is_level,is_i,is_j,none_,rfl⟩
    obtain ⟨fuel,rfl⟩ : ∃ n, fuel = n + 1 := ⟨fuel - 1,by simp only [height] at enough; omega⟩
    rw [node_clear_,at_live live]
    simp only [bind,Except.bind]
    rw [if_neg fun some_ => some_ none_.symm]
  | fork level i j c0 c1 c2 c3 ih0 ih1 ih2 ih3 =>
    obtain ⟨live,is_level,is_i,is_j,A,B,children,rfl,trees⟩ := holds_fork.mp holds
    obtain ⟨most,mostIs⟩ : ∃ n, height (.fork level i j c0 c1 c2 c3) = n + 1 := ⟨_,Nat.add_comm 1 _⟩
    have less : ∀ k, height (kids c0 c1 c2 c3 k) ≤ most := fun k => by
      have := @height_kid level i j c0 c1 c2 c3 k
      omega
    have clear : ∀ k : Fin 4, ∀ {m : Memory}, Holds m (kids c0 c1 c2 c3 k) (A k) (B k) → (whole (A k) (B k)).Nodup →
        m.live.Nodup → ∃ m', (∀ fuel, most < fuel → node_clear_ fuel m (some (A k)) = .ok m') ∧ Freed m m' (A k) (B k) := by
      intro k m tree apart nodup
      have one : ∃ m', (∀ fuel, height (kids c0 c1 c2 c3 k) < fuel → node_clear_ fuel m (some (A k)) = .ok m') ∧
          Freed m m' (A k) (B k) := by
        rcases four k with rfl | rfl | rfl | rfl
        · obtain ⟨m',run,freed,_⟩ := ih0 tree apart nodup
          exact ⟨m',run,freed⟩
        · obtain ⟨m',run,freed,_⟩ := ih1 tree apart nodup
          exact ⟨m',run,freed⟩
        · obtain ⟨m',run,freed,_⟩ := ih2 tree apart nodup
          exact ⟨m',run,freed⟩
        · obtain ⟨m',run,freed,_⟩ := ih3 tree apart nodup
          exact ⟨m',run,freed⟩
      obtain ⟨m',run,freed⟩ := one
      exact ⟨m',fun fuel enough => run fuel (Nat.lt_of_le_of_lt (less k) enough),freed⟩
    obtain ⟨m',run,freed,same_level,same_i,same_j,child⟩ := node_clear_children (fun k _ => clear k)
      nodup live (fun k _ => children k) (by decide) (fun k _ => trees k) apart
    refine ⟨m',fun fuel enough => ?_,freed,?_⟩
    · obtain ⟨fuel,rfl⟩ : ∃ n, fuel = n + 1 := ⟨fuel - 1,by omega⟩
      rw [node_clear_,at_live live]
      simp only [bind,Except.bind]
      rw [if_pos (by rw [children]; exact (Option.some_ne_none _).symm)]
      exact run fuel (by omega)
    · have kept : a ∈ m'.live := by
        rw [freed.live,List.mem_filter]
        refine ⟨live,decide_eq_true fun inside => ?_⟩
        rw [whole,List.nodup_append] at apart
        exact apart.2.2 _ inside _ (List.mem_singleton_self _) rfl
      exact ⟨kept,same_level.trans is_level,same_i.trans is_i,same_j.trans is_j,by rw [child,if_pos (by decide)],rfl⟩

/-! ### Visits -/

/-- The nodes of a tree have been replaced by others, which are new or were there before.
    No node outside of the tree has changed. -/
structure Visited (m m' : Memory) (old new : List Nat) : Prop where
  root : m'.root = m.root
  nodup : m.live.Nodup → m'.live.Nodup
  live : ∀ x, x ∈ m'.live ↔ (x ∈ m.live ∧ x ∉ old) ∨ x ∈ new
  fresh : ∀ x ∈ new, x ∈ old ∨ x ∉ m.live
  entry : ∀ x ∈ m.live, x ∉ old → m'.entry x = m.entry x
  counted : m'.allocs + m.frees.length + old.length = m.allocs + m'.frees.length + new.length

variable {old mid new other other' : List Nat}

theorem Visited.refl (inside : ∀ x ∈ old, x ∈ m.live) : Visited m m old old where
  root := rfl
  nodup := id
  live x := by
    constructor
    · intro live
      by_cases here : x ∈ old
      · exact .inr here
      · exact .inl ⟨live,here⟩
    · rintro (⟨live,_⟩ | here)
      · exact live
      · exact inside x here
  fresh x here := .inl here
  entry _ _ _ := rfl
  counted := rfl

theorem Visited.trans (first : Visited m m₁ old mid) (second : Visited m₁ m' mid new) : Visited m m' old new where
  root := second.root.trans first.root
  nodup := fun nodup => second.nodup (first.nodup nodup)
  live x := by
    rw [second.live,first.live]
    constructor
    · rintro (⟨before | inside,out⟩ | here)
      · exact .inl before
      · exact absurd inside out
      · exact .inr here
    · rintro (⟨live,out⟩ | here)
      · refine .inl ⟨.inl ⟨live,out⟩,fun inside => ?_⟩
        exact (first.fresh x inside).elim out fun dead => dead live
      · exact .inr here
  fresh x here := by
    rcases second.fresh x here with inside | dead
    · exact first.fresh x inside
    · by_cases live : x ∈ m.live
      · refine .inl (by_contra fun out => dead ((first.live x).mpr (.inl ⟨live,out⟩)))
      · exact .inr live
  entry x live out := by
    have outMid : x ∉ mid := fun inside => (first.fresh x inside).elim out fun dead => dead live
    rw [second.entry x ((first.live x).mpr (.inl ⟨live,out⟩)) outMid,first.entry x live out]
  counted := by
    have := first.counted
    have := second.counted
    omega

/-- More nodes that stay as they are. -/
theorem Visited.widen (visited : Visited m m' old new) (inside : ∀ x ∈ other, x ∈ m.live) (apart : ∀ x ∈ other, x ∉ old) :
    Visited m m' (old ++ other) (new ++ other) where
  root := visited.root
  nodup := visited.nodup
  live x := by
    rw [visited.live,List.mem_append,List.mem_append,not_or]
    constructor
    · rintro (⟨live,out⟩ | here)
      · by_cases there : x ∈ other
        · exact .inr (.inr there)
        · exact .inl ⟨live,out,there⟩
      · exact .inr (.inl here)
    · rintro (⟨live,out,_⟩ | here | there)
      · exact .inl ⟨live,out⟩
      · exact .inr here
      · exact .inl ⟨inside x there,apart x there⟩
  fresh x here := by
    rcases List.mem_append.mp here with here | there
    · exact (visited.fresh x here).imp_left (List.mem_append_left other)
    · exact .inl (List.mem_append_right old there)
  entry x live out := visited.entry x live fun here => out (List.mem_append_left other here)
  counted := by
    have := visited.counted
    rw [List.length_append,List.length_append]
    omega

theorem Visited.perm (visited : Visited m m' old new) (before : old.Perm other) (after : new.Perm other') :
    Visited m m' other other' where
  root := visited.root
  nodup := visited.nodup
  live x := by rw [visited.live,before.mem_iff,after.mem_iff]
  fresh x here := (visited.fresh x (after.mem_iff.mpr here)).imp_left before.mem_iff.mp
  entry x live out := visited.entry x live fun here => out (before.mem_iff.mp here)
  counted := by rw [← before.length_eq,← after.length_eq]; exact visited.counted

theorem Freed.visited (freed : Freed m m' a below) (live : a ∈ m.live) (out : a ∉ below) :
    Visited m m' (whole a below) [a] where
  root := freed.root
  nodup := fun nodup => by
    rw [freed.live]
    exact nodup.filter _
  live x := by
    rw [freed.live,List.mem_filter,decide_eq_true_iff,mem_whole,not_or,List.mem_singleton]
    constructor
    · rintro ⟨there,apart⟩
      by_cases is : x = a
      · exact .inr is
      · exact .inl ⟨there,apart,is⟩
    · rintro (⟨there,apart,_⟩ | rfl)
      · exact ⟨there,apart⟩
      · exact ⟨live,out⟩
  fresh x here := .inl (mem_whole.mpr (.inr (List.mem_singleton.mp here)))
  entry x live apart := by
    obtain ⟨before,is⟩ := not_or.mp (mem_whole.not.mp apart)
    exact freed.entry x is before
  counted := by
    rw [freed.allocs,freed.frees]
    simp only [List.length_append,List.length_singleton]
    omega

/-! ### New children -/

/-- The callback returns memory that is not in use. -/
def Allocates (malloc : Memory → Nat) : Prop := ∀ m : Memory, malloc m ∉ m.live

/-- One more child, with a leaf that was not there before. -/
theorem new_child_holds (allocates : Allocates malloc) (live : a ∈ m.live) (k : Fin 4) (level i j : Nat) :
    ∃ m', new_child malloc m a k level i j = .ok m' ∧ malloc m ∉ m.live ∧ m'.live = malloc m :: m.live ∧
      Holds m' (.leaf level i j) (malloc m) [] ∧ m'.entry a = (m.entry a).set k (some (malloc m)) ∧
      (∀ x ∈ m.live, x ≠ a → m'.entry x = m.entry x) ∧ m'.root = m.root ∧ m'.allocs = m.allocs + 1 ∧ m'.frees = m.frees := by
  have fresh := allocates m
  have other : malloc m ≠ a := fun is => fresh (is ▸ live)
  obtain ⟨m₁,m₁Is⟩ : ∃ m₁, m₁ = (node_alloc_ malloc m level i j).2 := ⟨_,rfl⟩
  have live₁ : m₁.live = malloc m :: m.live := by rw [m₁Is]; rfl
  have entry₁ : ∀ x ∈ m.live, m₁.entry x = m.entry x := by
    intro x there
    rw [m₁Is]
    exact Function.update_of_ne (ne_of_mem_of_not_mem there fresh) _ _
  have run := write_child (m := m₁) (a := a) (by rw [live₁]; exact List.mem_cons_of_mem _ live) k (some (malloc m))
  rw [entry₁ a live] at run
  have child : new_child malloc m a k level i j = m₁.write (some (malloc m)) (.child a k) := by
    rw [m₁Is]
    rfl
  refine ⟨{ m₁ with entry := Function.update m₁.entry a ((m.entry a).set k (some (malloc m))) },child.trans run,fresh,live₁,
    ?_,?_,?_,?_,?_,?_⟩
  · have new : m₁.entry (malloc m) = ⟨level,i,j,Function.update (m.entry (malloc m)).child 0 none⟩ := by
      rw [m₁Is]
      exact Function.update_self _ _ _
    simp [Holds,other,new,live₁]
  · exact Function.update_self _ _ _
  · intro x there apart
    simp only
    rw [Function.update_of_ne apart,entry₁ x there]
  · simp only [m₁Is]; rfl
  · simp only [m₁Is]; rfl
  · simp only [m₁Is]; rfl

/-- The four children of a node that has none. -/
def born (level i j : Nat) : Fin 4 → Node :=
  let x := 1 <<< level * i % 2 ^ 32
  let y := 1 <<< level * j % 2 ^ 32
  kids (.leaf (level + 1) x y) (.leaf (level + 1) x ((y + 1) % 2 ^ 32)) (.leaf (level + 1) ((x + 1) % 2 ^ 32) y)
    (.leaf (level + 1) ((x + 1) % 2 ^ 32) ((y + 1) % 2 ^ 32))

/-- A node that has no children gets four new ones. -/
theorem node_expand_leaf (allocates : Allocates malloc) {level i j : Nat} (holds : Holds m (.leaf level i j) a [])
    (shallow : level < 31) :
    ∃ m' A, node_expand malloc m a = .ok m' ∧ Visited m m' [a] (whole a (wholes [0,1,2,3] A fun _ => [])) ∧
      (whole a (wholes [0,1,2,3] A fun _ => [])).Nodup ∧
      Holds m' (.fork level i j (born level i j 0) (born level i j 1) (born level i j 2) (born level i j 3)) a
        (wholes [0,1,2,3] A fun _ => []) := by
  obtain ⟨live,is_level,is_i,is_j,none_,_⟩ := holds
  obtain ⟨x,xIs⟩ : ∃ x, x = 1 <<< level * i % 2 ^ 32 := ⟨_,rfl⟩
  obtain ⟨y,yIs⟩ : ∃ y, y = 1 <<< level * j % 2 ^ 32 := ⟨_,rfl⟩
  obtain ⟨m₁,run₁,new₁,live₁,holds₁,entry₁,other₁,root₁,allocs₁,frees₁⟩ :=
    new_child_holds allocates live 0 (level + 1) x y
  have in₁ : a ∈ m₁.live := by rw [live₁]; exact List.mem_cons_of_mem _ live
  obtain ⟨m₂,run₂,new₂,live₂,holds₂,entry₂,other₂,root₂,allocs₂,frees₂⟩ :=
    new_child_holds allocates in₁ 1 (level + 1) x ((y + 1) % 2 ^ 32)
  have in₂ : a ∈ m₂.live := by rw [live₂]; exact List.mem_cons_of_mem _ in₁
  obtain ⟨m₃,run₃,new₃,live₃,holds₃,entry₃,other₃,root₃,allocs₃,frees₃⟩ :=
    new_child_holds allocates in₂ 2 (level + 1) ((x + 1) % 2 ^ 32) y
  have in₃ : a ∈ m₃.live := by rw [live₃]; exact List.mem_cons_of_mem _ in₂
  obtain ⟨m₄,run₄,new₄,live₄,holds₄,entry₄,other₄,root₄,allocs₄,frees₄⟩ :=
    new_child_holds allocates in₃ 3 (level + 1) ((x + 1) % 2 ^ 32) ((y + 1) % 2 ^ 32)
  have shown : m₄.live = malloc m₃ :: malloc m₂ :: malloc m₁ :: malloc m :: m.live := by rw [live₄,live₃,live₂,live₁]
  rw [live₃,live₂,live₁] at new₄
  rw [live₂,live₁] at new₃
  rw [live₁] at new₂
  simp only [List.mem_cons,not_or] at new₂ new₃ new₄
  have apart : ∀ n, n ∉ m.live → n ≠ a := fun n dead is => dead (is.symm ▸ live)
  have others : wholes [0,1,2,3] ![malloc m,malloc m₁,malloc m₂,malloc m₃] (fun _ => []) =
      [malloc m,malloc m₁,malloc m₂,malloc m₃] := rfl
  refine ⟨m₄,![malloc m,malloc m₁,malloc m₂,malloc m₃],?_,?_,?_,?_⟩
  · rw [node_expand,at_live live]
    simp only [bind,Except.bind,is_level,is_i,is_j,none_,if_true,if_neg (show ¬ 31 ≤ level by omega)]
    rw [← xIs,← yIs,run₁]
    simp only [run₂,run₃,run₄]
  · rw [others]
    refine ⟨by rw [root₄,root₃,root₂,root₁],fun nodup => ?_,fun x => ?_,fun x here => ?_,fun x there out => ?_,?_⟩
    · rw [shown]
      simp [nodup,new₁,new₂,new₃,new₄]
    · rw [shown]
      simp only [List.mem_cons,List.mem_append,List.not_mem_nil,or_false]
      by_cases is : x = a
      · simp [is,live]
      · grind
    · simp only [List.mem_cons,List.mem_append,List.not_mem_nil,or_false] at here
      rcases here with (rfl | rfl | rfl | rfl) | rfl
      · exact .inr new₁
      · exact .inr new₂.2
      · exact .inr new₃.2.2
      · exact .inr new₄.2.2.2
      · exact .inl (List.mem_singleton_self _)
    · have other : x ≠ a := fun is => out (List.mem_singleton.mpr is)
      rw [other₄ x (by rw [live₃,live₂,live₁]; simp [there]) other,other₃ x (by rw [live₂,live₁]; simp [there]) other,
        other₂ x (by rw [live₁]; simp [there]) other,other₁ x there other]
    · rw [allocs₄,allocs₃,allocs₂,allocs₁,frees₄,frees₃,frees₂,frees₁]
      simp only [List.length_cons,List.length_append,List.length_nil]
      omega
  · rw [others]
    have a₁ := apart _ new₁
    have a₂ := apart _ new₂.2
    have a₃ := apart _ new₃.2.2
    have a₄ := apart _ new₄.2.2.2
    simp [a₁,a₂,a₃,a₄,Ne.symm new₂.1,Ne.symm new₃.1,Ne.symm new₃.2.1,Ne.symm new₄.1,Ne.symm new₄.2.1,Ne.symm new₄.2.2.1]
  · have own : m₄.entry a = ((((m.entry a).set 0 (some (malloc m))).set 1 (some (malloc m₁))).set 2
        (some (malloc m₂))).set 3 (some (malloc m₃)) := by rw [entry₄,entry₃,entry₂,entry₁]
    have in₄ : a ∈ m₄.live := by rw [live₄]; exact List.mem_cons_of_mem _ in₃
    refine ⟨in₄,by rw [own]; simpa using is_level,by rw [own]; simpa using is_i,by rw [own]; simpa using is_j,
      ![malloc m,malloc m₁,malloc m₂,malloc m₃],fun _ => [],fun k => ?_,rfl,?_,?_,?_,?_⟩
    · rw [own]
      rcases four k with rfl | rfl | rfl | rfl <;> simp
    · refine Holds.frame (m := m₁) (by rw [xIs,yIs] at holds₁; exact holds₁) fun n inside there => ?_
      have is : n = malloc m := List.mem_singleton.mp inside
      have other : n ≠ a := apart n (is ▸ new₁)
      refine ⟨by rw [live₄,live₃,live₂]; simp [there],?_⟩
      rw [other₄ n (by rw [live₃,live₂]; simp [there]) other,other₃ n (by rw [live₂]; simp [there]) other,
        other₂ n there other]
    · refine Holds.frame (m := m₂) (by rw [xIs,yIs] at holds₂; exact holds₂) fun n inside there => ?_
      have is : n = malloc m₁ := List.mem_singleton.mp inside
      have other : n ≠ a := apart n (is ▸ new₂.2)
      refine ⟨by rw [live₄,live₃]; simp [there],?_⟩
      rw [other₄ n (by rw [live₃]; simp [there]) other,other₃ n there other]
    · refine Holds.frame (m := m₃) (by rw [xIs,yIs] at holds₃; exact holds₃) fun n inside there => ?_
      have is : n = malloc m₂ := List.mem_singleton.mp inside
      exact ⟨by rw [live₄]; simp [there],other₄ n there (apart n (is ▸ new₃.2.2))⟩
    · rw [xIs,yIs] at holds₄
      exact holds₄

/-! ### More fuel -/

theorem foldlM_mono {f g : Memory → Fin 4 → Except Stop Memory} (more : ∀ m k r, f m k = .ok r → g m k = .ok r) :
    ∀ {m r : Memory}, ks.foldlM f m = .ok r → ks.foldlM g m = .ok r := by
  induction ks with
  | nil => exact fun run => run
  | cons k ks ih =>
    intro m r run
    rw [List.foldlM_cons] at run ⊢
    obtain ⟨m₁,first,later⟩ := bind_ok_iff.mp run
    exact bind_ok_iff.mpr ⟨m₁,more m k m₁ first,ih later⟩

theorem node_clear_mono {fuel : Nat} : ∀ {fuel' : Nat} {m r : Memory} {p : Option Nat}, fuel ≤ fuel' →
    node_clear_ fuel m p = .ok r → node_clear_ fuel' m p = .ok r := by
  induction fuel with
  | zero =>
    intro fuel' m r p _ run
    cases run
  | succ fuel ih =>
    intro fuel' m r p le run
    obtain ⟨fuel',rfl⟩ : ∃ n, fuel' = n + 1 := ⟨fuel' - 1,by omega⟩
    cases p with
    | none => cases run
    | some a =>
      rw [node_clear_] at run ⊢
      obtain ⟨entry,found,run⟩ := bind_ok_iff.mp run
      refine bind_ok_iff.mpr ⟨entry,found,?_⟩
      split_ifs at run ⊢
      · refine foldlM_mono (fun m k r run => ?_) run
        obtain ⟨node,read_,run⟩ := bind_ok_iff.mp run
        obtain ⟨m₁,clear,run⟩ := bind_ok_iff.mp run
        exact bind_ok_iff.mpr ⟨node,read_,bind_ok_iff.mpr ⟨m₁,ih (by omega) clear,run⟩⟩
      · exact run

theorem node_visit_mono {fuel : Nat} : ∀ {fuel' : Nat} {m r : Memory} {a : Nat}, fuel ≤ fuel' →
    node_visit_ malloc visit fuel m a = .ok r → node_visit_ malloc visit fuel' m a = .ok r := by
  induction fuel with
  | zero =>
    intro fuel' m r a _ run
    cases run
  | succ fuel ih =>
    intro fuel' m r a le run
    obtain ⟨fuel',rfl⟩ : ∃ n, fuel' = n + 1 := ⟨fuel' - 1,by omega⟩
    rw [node_visit_] at run ⊢
    obtain ⟨entry,found,run⟩ := bind_ok_iff.mp run
    refine bind_ok_iff.mpr ⟨entry,found,?_⟩
    cases answer : visit entry.level entry.i entry.j with
    | CLEAR =>
      rw [answer] at run
      exact node_clear_mono (by omega) run
    | STOP =>
      rw [answer] at run
      exact run
    | CONTINUE =>
      rw [answer] at run
      obtain ⟨m₁,expanded,run⟩ := bind_ok_iff.mp run
      refine bind_ok_iff.mpr ⟨m₁,expanded,foldlM_mono (fun m k r run => ?_) run⟩
      obtain ⟨child,read_,run⟩ := bind_ok_iff.mp run
      refine bind_ok_iff.mpr ⟨child,read_,?_⟩
      cases child with
      | none => cases run
      | some child => exact ih (by omega) run

/-! ### The visitor -/

/-- All children are one level deeper. -/
def Deeper : Node → Prop
  | .leaf _ _ _ => True
  | .fork level _ _ c0 c1 c2 c3 =>
    (c0.level = level + 1 ∧ Deeper c0) ∧ (c1.level = level + 1 ∧ Deeper c1) ∧ (c2.level = level + 1 ∧ Deeper c2) ∧
      (c3.level = level + 1 ∧ Deeper c3)

/-- What the visitor leaves as it is. -/
def Settled (visit : Nat → Nat → Nat → QuadtreeTraversal) : Node → Prop
  | .leaf level i j => visit level i j ≠ .CONTINUE
  | .fork level i j c0 c1 c2 c3 =>
    visit level i j = .STOP ∨
      (visit level i j = .CONTINUE ∧ Settled visit c0 ∧ Settled visit c1 ∧ Settled visit c2 ∧ Settled visit c3)

/-- The visitor continues from node to node until it continues at a node without
    children from level 31 on. -/
inductive Sinks (visit : Nat → Nat → Nat → QuadtreeTraversal) : Node → Prop where
  | here {level i j : Nat} (continues : visit level i j = .CONTINUE) (deep : 31 ≤ level) : Sinks visit (.leaf level i j)
  | new {level i j : Nat} (k : Fin 4) (continues : visit level i j = .CONTINUE) (sinks : Sinks visit (born level i j k)) :
      Sinks visit (.leaf level i j)
  | old {level i j : Nat} {c0 c1 c2 c3 : Node} (k : Fin 4) (continues : visit level i j = .CONTINUE)
      (sinks : Sinks visit (kids c0 c1 c2 c3 k)) : Sinks visit (.fork level i j c0 c1 c2 c3)

/-- The user's functions of a tree that is not in memory. -/
def deciding (visit : Nat → Nat → Nat → QuadtreeTraversal) : User Unit where
  alloc _ := ()
  free_ _ _ := ()
  visit _ node := (visit node.level node.cell.1 node.cell.2,())

@[simp] theorem deciding_visit (node : Node) :
    (deciding visit).visit () node = (visit node.level node.cell.1 node.cell.2,()) := rfl

/-- What a visit has made of a tree. -/
structure Left (malloc : Memory → Nat) (visit : Nat → Nat → Nat → QuadtreeTraversal) (n : Nat) (m m' : Memory) (t t' : Node)
    (a : Nat) (below below' : List Nat) : Prop where
  abstract : Quadtree.node_visit_ (deciding visit) n () t = .ok ((),t')
  returns : ∃ f, ∀ fuel, f ≤ fuel → node_visit_ malloc visit fuel m a = .ok m'
  holds : Holds m' t' a below'
  visited : Visited m m' (whole a below) (whole a below')
  nodup : (whole a below').Nodup
  deeper : Deeper t'
  level : t'.level = t.level
  cell : t'.cell = t.cell
  settled : Settled visit t'

/-- A visit of one of several trees leaves the others, and the node above them. -/
theorem Visited.rest (visited : Visited m m₁ old new) (apart : ∀ x ∈ old, x ∉ wholes ks A B) (live : a ∈ m.live) (out : a ∉ old)
    (holds : ∀ k ∈ ks, Holds m (T k) (A k) (B k)) :
    (a ∈ m₁.live ∧ m₁.entry a = m.entry a) ∧ ∀ k ∈ ks, Holds m₁ (T k) (A k) (B k) := by
  refine ⟨⟨(visited.live a).mpr (.inl ⟨live,out⟩),visited.entry a live out⟩,fun k member => ?_⟩
  refine (holds k member).frame fun x inside there => ?_
  have outside : x ∉ old := fun before => apart x before (mem_wholes.mpr ⟨k,member,inside⟩)
  exact ⟨(visited.live x).mpr (.inl ⟨there,outside⟩),visited.entry x there outside⟩

theorem visit_child_eq (node_visit_ : Memory → Nat → Except Stop Memory) (live : a ∈ m.live) {k : Fin 4} {c : Nat}
    (here : (m.entry a).child k = some c) : visit_child node_visit_ a m k = node_visit_ m c := by
  rw [visit_child,read_child live,here]
  rfl

theorem wholes_live (holds : ∀ k ∈ ks, Holds m (T k) (A k) (B k)) : ∀ x ∈ wholes ks A B, x ∈ m.live := by
  intro x inside
  obtain ⟨k,member,here⟩ := mem_wholes.mp inside
  exact (holds k member).live x here

/-- The loop over the children visits them one after the other. -/
theorem visit_children {n : Nat} :
    ∀ {m : Memory}, (∀ k ∈ ks, ∀ {m : Memory}, m.live.Nodup → Holds m (T k) (A k) (B k) →
      ∃ t' m' below', Left malloc visit n m m' (T k) t' (A k) (B k) below') →
    m.live.Nodup → a ∈ m.live → (∀ k ∈ ks, (m.entry a).child k = some (A k)) → ks.Nodup →
    (∀ k ∈ ks, Holds m (T k) (A k) (B k)) → (whole a (wholes ks A B)).Nodup →
    ∃ (m' : Memory) (T' : Fin 4 → Node) (B' : Fin 4 → List Nat),
      (∃ f, ∀ fuel, f ≤ fuel → ks.foldlM (visit_child (node_visit_ malloc visit fuel) a) m = .ok m') ∧
      Visited m m' (wholes ks A B) (wholes ks A B') ∧ (wholes ks A B').Nodup ∧
      ∀ k ∈ ks, Holds m' (T' k) (A k) (B' k) ∧ Quadtree.node_visit_ (deciding visit) n () (T k) = .ok ((),T' k) ∧
        Deeper (T' k) ∧ (T' k).level = (T k).level ∧ Settled visit (T' k) := by
  induction ks with
  | nil =>
    intro m _ _ _ _ _ _ _
    exact ⟨m,T,B,⟨0,fun _ _ => rfl⟩,Visited.refl (by simp),List.nodup_nil,by simp⟩
  | cons k ks ih =>
    intro m one nodup live children kNodup holds apart
    obtain ⟨new,kNodup⟩ := List.nodup_cons.mp kNodup
    have inside := wholes_live holds
    rw [whole,wholes_cons,List.append_assoc,List.nodup_append] at apart
    obtain ⟨_,rest,disjoint⟩ := apart
    have later : ∀ x ∈ whole (A k) (B k), x ∉ wholes ks A B := fun x first after =>
      disjoint x first x (mem_whole.mpr (.inl after)) rfl
    have out : a ∉ whole (A k) (B k) := fun first => disjoint a first a (mem_whole.mpr (.inr rfl)) rfl
    obtain ⟨t',m₁,below',left⟩ := one k List.mem_cons_self nodup (holds k List.mem_cons_self)
    obtain ⟨⟨live₁,own⟩,holds₁⟩ := left.visited.rest later live out fun l member => holds l (List.mem_cons_of_mem k member)
    obtain ⟨m',T',B',⟨f',run'⟩,visited',nodup',all⟩ := ih (fun l member => one l (List.mem_cons_of_mem k member))
      (left.visited.nodup nodup) live₁
      (fun l member => own ▸ children l (List.mem_cons_of_mem k member)) kNodup holds₁ rest
    obtain ⟨f,run⟩ := left.returns
    have other : ∀ l ∈ ks, l ≠ k := fun l member => ne_of_mem_of_not_mem member new
    have same : wholes ks A (Function.update B' k below') = wholes ks A B' := by
      refine List.flatMap_congr fun l member => ?_
      rw [Function.update_of_ne (other l member)]
    -- What is left of the first tree is apart from the others.
    have first_live : ∀ x ∈ whole (A k) below', x ∈ m₁.live := fun x here => (left.visited.live x).mpr (.inr here)
    have first_apart : ∀ x ∈ whole (A k) below', x ∉ wholes ks A B := by
      intro x here after
      refine (left.visited.fresh x here).elim (fun first => later x first after) fun dead => dead ?_
      exact inside x (List.mem_append_right _ after)
    refine ⟨m',Function.update T' k t',Function.update B' k below',⟨max f f',fun fuel enough => ?_⟩,?_,?_,?_⟩
    · rw [List.foldlM_cons,visit_child_eq _ live (children k List.mem_cons_self),run fuel (by omega)]
      exact run' fuel (by omega)
    · rw [wholes_cons,wholes_cons,Function.update_self,same]
      have first := left.visited.widen (fun x here => inside x (List.mem_append_right _ here))
        fun x after before => later x before after
      have second := (visited'.widen first_live first_apart).perm List.perm_append_comm List.perm_append_comm
      exact first.trans second
    · rw [wholes_cons,Function.update_self,same,List.nodup_append]
      refine ⟨left.nodup,nodup',?_⟩
      rintro x here _ there rfl
      exact (visited'.fresh x there).elim (first_apart x here) fun dead => dead (first_live x here)
    · intro l member
      rcases List.mem_cons.mp member with rfl | member
      · rw [Function.update_self,Function.update_self]
        refine ⟨left.holds.frame fun x here there => ?_,left.abstract,left.deeper,left.level,left.settled⟩
        exact ⟨(visited'.live x).mpr (.inl ⟨there,first_apart x here⟩),visited'.entry x there (first_apart x here)⟩
      · rw [Function.update_of_ne (other l member),Function.update_of_ne (other l member)]
        exact all l member

/-- It does not return where one of the visits does not. -/
theorem visit_children_sinks {n : Nat} :
    ∀ {m : Memory}, (∀ k ∈ ks, ¬ Sinks visit (T k) → ∀ {m : Memory}, m.live.Nodup → Holds m (T k) (A k) (B k) →
      ∃ t' m' below', Left malloc visit n m m' (T k) t' (A k) (B k) below') →
    (∀ k ∈ ks, Sinks visit (T k) → ∀ {m : Memory}, m.live.Nodup → Holds m (T k) (A k) (B k) →
      ∀ fuel r, node_visit_ malloc visit fuel m (A k) ≠ .ok r) →
    m.live.Nodup → a ∈ m.live → (∀ k ∈ ks, (m.entry a).child k = some (A k)) → (∀ k ∈ ks, Holds m (T k) (A k) (B k)) →
    (whole a (wholes ks A B)).Nodup → (∃ k ∈ ks, Sinks visit (T k)) →
    ∀ fuel r, ks.foldlM (visit_child (node_visit_ malloc visit fuel) a) m ≠ .ok r := by
  induction ks with
  | nil =>
    rintro m _ _ _ _ _ _ _ ⟨_,⟨⟩,_⟩
  | cons k ks ih =>
    intro m good bad nodup live children holds apart sinks fuel r run
    rw [List.foldlM_cons,visit_child_eq _ live (children k List.mem_cons_self)] at run
    obtain ⟨m₁,first,run⟩ := bind_ok_iff.mp run
    by_cases now : Sinks visit (T k)
    · exact bad k List.mem_cons_self now nodup (holds k List.mem_cons_self) fuel m₁ first
    obtain ⟨t',m₂,below',left⟩ := good k List.mem_cons_self now nodup (holds k List.mem_cons_self)
    obtain ⟨f,run₂⟩ := left.returns
    have is : m₂ = m₁ := by
      have more := node_visit_mono (Nat.le_max_left fuel f) first
      rw [run₂ _ (Nat.le_max_right fuel f),Except.ok.injEq] at more
      exact more
    rw [whole,wholes_cons,List.append_assoc,List.nodup_append] at apart
    obtain ⟨_,rest,disjoint⟩ := apart
    obtain ⟨⟨live₁,own⟩,holds₁⟩ := left.visited.rest (fun x first after => disjoint x first x (mem_whole.mpr (.inl after)) rfl)
      live (fun first => disjoint a first a (mem_whole.mpr (.inr rfl)) rfl)
      fun l member => holds l (List.mem_cons_of_mem k member)
    have nodup₁ := left.visited.nodup nodup
    rw [is] at live₁ own holds₁ nodup₁
    refine ih (fun l member => good l (List.mem_cons_of_mem k member)) (fun l member => bad l (List.mem_cons_of_mem k member))
      nodup₁ live₁ (fun l member => own ▸ children l (List.mem_cons_of_mem k member)) holds₁ rest ?_ fuel r run
    obtain ⟨l,member,sinks⟩ := sinks
    rcases List.mem_cons.mp member with rfl | member
    · exact absurd sinks now
    · exact ⟨l,member,sinks⟩

/-- A node that has, or is given, the children to visit. -/
structure Forked (malloc : Memory → Nat) (visit : Nat → Nat → Nat → QuadtreeTraversal) (m m₁ : Memory) (t : Node) (a : Nat)
    (below : List Nat) (T : Fin 4 → Node) (A : Fin 4 → Nat) (B : Fin 4 → List Nat) : Prop where
  run : node_expand malloc m a = .ok m₁
  abstract : Quadtree.node_expand (deciding visit) () t = .ok ((),T 0,T 1,T 2,T 3)
  top : (m₁.entry a).level = t.level ∧ (m₁.entry a).i = t.cell.1 ∧ (m₁.entry a).j = t.cell.2
  children : ∀ k, (m₁.entry a).child k = some (A k)
  trees : ∀ k, Holds m₁ (T k) (A k) (B k)
  visited : Visited m m₁ (whole a below) (whole a (wholes [0,1,2,3] A B))
  nodup : (whole a (wholes [0,1,2,3] A B)).Nodup
  deeper : ∀ k, (T k).level = t.level + 1 ∧ Deeper (T k)
  sinks : visit t.level t.cell.1 t.cell.2 = .CONTINUE → (Sinks visit t ↔ ∃ k, Sinks visit (T k))

theorem Forked.part {A : Fin 4 → Nat} {B : Fin 4 → List Nat} (forked : Forked malloc visit m m₁ t a below T A B) (k : Fin 4) :
    (whole (A k) (B k)).Nodup := by
  have all := (List.nodup_append.mp forked.nodup).1
  exact (List.nodup_flatMap.mp all).1 k (all_kids k)

theorem kids_eta (T : Fin 4 → Node) : kids (T 0) (T 1) (T 2) (T 3) = T := by
  funext k
  rcases four k with rfl | rfl | rfl | rfl <;> rfl

/-- It is forked unless it has no children and the level is too deep. -/
theorem expand_forks (allocates : Allocates malloc) (holds : Holds m t a below) (nodup : (whole a below).Nodup) (deeper : Deeper t)
    (shallow : t.children = [] → t.level < 31) : ∃ m₁ T A B, Forked malloc visit m m₁ t a below T A B := by
  cases t with
  | leaf level i j =>
    obtain rfl : below = [] := holds.2.2.2.2.2
    have shallow : level < 31 := shallow rfl
    obtain ⟨m₁,A,run,visited,nodup₁,holds₁⟩ := node_expand_leaf allocates holds shallow
    obtain ⟨_,is_level,is_i,is_j,A,B,children,same,trees⟩ := holds_fork.mp holds₁
    rw [kids_eta] at trees
    rw [same] at visited nodup₁
    refine ⟨m₁,born level i j,A,B,run,?_,⟨is_level,is_i,is_j⟩,children,trees,visited,nodup₁,fun k => ?_,fun continues => ?_⟩
    · rw [Quadtree.node_expand,if_neg (Nat.not_le_of_lt shallow)]
      rfl
    · rcases four k with rfl | rfl | rfl | rfl <;> exact ⟨rfl,trivial⟩
    · constructor
      · intro sinks
        cases sinks with
        | here _ deep => exact absurd deep (Nat.not_le_of_lt shallow)
        | new k _ sinks => exact ⟨k,sinks⟩
      · rintro ⟨k,sinks⟩
        exact .new k continues sinks
  | fork level i j c0 c1 c2 c3 =>
    have inside := holds.live
    obtain ⟨live,is_level,is_i,is_j,A,B,children,rfl,trees⟩ := holds_fork.mp holds
    refine ⟨m,kids c0 c1 c2 c3,A,B,?_,rfl,⟨is_level,is_i,is_j⟩,children,trees,Visited.refl inside,nodup,fun k => ?_,
      fun continues => ?_⟩
    · rw [node_expand,at_live live]
      simp only [bind,Except.bind]
      rw [children 0,if_neg (Option.some_ne_none _).symm]
    · obtain ⟨h0,h1,h2,h3⟩ := deeper
      rcases four k with rfl | rfl | rfl | rfl
      · exact h0
      · exact h1
      · exact h2
      · exact h3
    · constructor
      · intro sinks
        cases sinks with
        | old k _ sinks => exact ⟨k,sinks⟩
      · rintro ⟨k,sinks⟩
        exact .old k continues sinks

/-- What the root of a tree in memory says. -/
theorem Holds.top (holds : Holds m t a below) :
    a ∈ m.live ∧ (m.entry a).level = t.level ∧ (m.entry a).i = t.cell.1 ∧ (m.entry a).j = t.cell.2 := by
  cases t with
  | leaf level i j =>
    obtain ⟨live,is_level,is_i,is_j,_⟩ := holds
    exact ⟨live,is_level,is_i,is_j⟩
  | fork level i j c0 c1 c2 c3 =>
    obtain ⟨live,is_level,is_i,is_j,_⟩ := holds
    exact ⟨live,is_level,is_i,is_j⟩

theorem whole_apart (nodup : (whole a below).Nodup) : a ∉ below := fun inside =>
  (List.nodup_append.mp nodup).2.2 a inside a (List.mem_singleton_self a) rfl

/-- What a visit does once the visitor has answered. -/
theorem node_visit_answer (holds : Holds m t a below) (fuel : Nat) : node_visit_ malloc visit (fuel + 1) m a =
    match visit t.level t.cell.1 t.cell.2 with
    | .CLEAR => node_clear_ fuel m (some a)
    | .STOP => .ok m
    | .CONTINUE => node_expand malloc m a >>= fun m => [0,1,2,3].foldlM (visit_child (node_visit_ malloc visit fuel) a) m := by
  obtain ⟨live,is_level,is_i,is_j⟩ := holds.top
  rw [node_visit_,at_live live,← is_level,← is_i,← is_j]
  rfl

theorem visit_clear (answer : visit t.level t.cell.1 t.cell.2 = .CLEAR) (holds : Holds m t a below)
    (nodup : (whole a below).Nodup) (distinct : m.live.Nodup) (n : Nat) :
    ∃ t' m' below', Left malloc visit (n + 1) m m' t t' a below below' := by
  obtain ⟨m',run,freed,holds'⟩ := node_clear_holds holds nodup distinct
  refine ⟨.leaf t.level t.cell.1 t.cell.2,m',[],?_,⟨height t + 2,fun fuel enough => ?_⟩,holds',?_,?_,trivial,rfl,rfl,?_⟩
  · rw [Quadtree.node_visit_]
    simp only [deciding_visit,answer]
    rw [← Quadtree.node_clear_leaf (deciding visit) t ()]
  · obtain ⟨fuel,rfl⟩ : ∃ n, fuel = n + 1 := ⟨fuel - 1,by omega⟩
    rw [node_visit_answer holds,answer]
    exact run fuel (by omega)
  · exact freed.visited holds.top.1 (whole_apart nodup)
  · exact List.nodup_singleton a
  · rw [Settled,answer]
    decide

theorem visit_stop (answer : visit t.level t.cell.1 t.cell.2 = .STOP) (holds : Holds m t a below)
    (nodup : (whole a below).Nodup) (deeper : Deeper t) (n : Nat) :
    ∃ t' m' below', Left malloc visit (n + 1) m m' t t' a below below' := by
  refine ⟨t,m,below,?_,⟨1,fun fuel enough => ?_⟩,holds,Visited.refl holds.live,nodup,deeper,rfl,rfl,?_⟩
  · rw [Quadtree.node_visit_]
    simp only [deciding_visit,answer]
  · obtain ⟨fuel,rfl⟩ : ∃ n, fuel = n + 1 := ⟨fuel - 1,by omega⟩
    rw [node_visit_answer holds,answer]
  · cases t with
    | leaf level i j =>
      rw [Settled,show visit level i j = .STOP from answer]
      decide
    | fork level i j c0 c1 c2 c3 => exact .inl answer

theorem Sinks.continues (sinks : Sinks visit t) : visit t.level t.cell.1 t.cell.2 = .CONTINUE := by
  cases sinks with
  | here continues _ => exact continues
  | new _ continues _ => exact continues
  | old _ continues _ => exact continues

/-- There are no children, and none can be made. -/
theorem too_deep (holds : Holds m t a below) (answer : visit t.level t.cell.1 t.cell.2 = .CONTINUE) (leaf : t.children = [])
    (deep : 31 ≤ t.level) : Sinks visit t ∧ ∀ r, node_expand malloc m a ≠ .ok r := by
  cases t with
  | leaf level i j =>
    obtain ⟨live,is_level,_,_,none_,_⟩ := holds
    refine ⟨.here answer deep,fun r run => ?_⟩
    rw [node_expand,at_live live] at run
    simp only [bind,Except.bind] at run
    rw [if_pos none_.symm,if_pos (is_level ▸ deep)] at run
    cases run
  | fork level i j c0 c1 c2 c3 => cases leaf

/-- The children of a node are visited after it, given what visits of them do. -/
theorem visit_continue {m₁ : Memory} {n : Nat} (answer : visit t.level t.cell.1 t.cell.2 = .CONTINUE)
    (holds : Holds m t a below) (distinct : m.live.Nodup) (forked : Forked malloc visit m m₁ t a below T A B)
    (one : ∀ k, ∀ {m : Memory}, m.live.Nodup → Holds m (T k) (A k) (B k) →
      ∃ t' m' below', Left malloc visit n m m' (T k) t' (A k) (B k) below') :
    ∃ t' m' below', Left malloc visit (n + 1) m m' t t' a below below' := by
  obtain ⟨is_level,is_i,is_j⟩ := forked.top
  have live₁ : a ∈ m₁.live := (forked.visited.live a).mpr (.inr (mem_whole.mpr (.inr rfl)))
  obtain ⟨m',T',B',⟨f,run⟩,visited,nodup',all⟩ := visit_children (fun k (_ : k ∈ [0,1,2,3]) => one k)
    (forked.visited.nodup distinct) live₁ (fun k _ => forked.children k) (by decide) (fun k _ => forked.trees k) forked.nodup
  have every := fun k => all k (all_kids k)
  have out : a ∉ wholes [0,1,2,3] A B := whole_apart forked.nodup
  have live' : a ∈ m'.live := (visited.live a).mpr (.inl ⟨live₁,out⟩)
  have own : m'.entry a = m₁.entry a := visited.entry a live₁ out
  have out' : a ∉ wholes [0,1,2,3] A B' := fun here =>
    (visited.fresh a here).elim out fun dead => dead live₁
  refine ⟨.fork t.level t.cell.1 t.cell.2 (T' 0) (T' 1) (T' 2) (T' 3),m',wholes [0,1,2,3] A B',?_,⟨f + 1,fun fuel enough => ?_⟩,
    ?_,?_,?_,?_,rfl,rfl,?_⟩
  · rw [Quadtree.node_visit_]
    simp only [deciding_visit,answer,forked.abstract,bind,Except.bind,fun k => (every k).2.1]
  · obtain ⟨fuel,rfl⟩ : ∃ n, fuel = n + 1 := ⟨fuel - 1,by omega⟩
    rw [node_visit_answer holds,answer]
    exact bind_ok_iff.mpr ⟨m₁,forked.run,run fuel (by omega)⟩
  · refine holds_fork.mpr ⟨live',own ▸ is_level,own ▸ is_i,own ▸ is_j,A,B',fun k => own ▸ forked.children k,rfl,fun k => ?_⟩
    rw [kids_eta]
    exact (every k).1
  · exact forked.visited.trans (visited.widen (fun x here => List.mem_singleton.mp here ▸ live₁)
      fun x here => List.mem_singleton.mp here ▸ out)
  · rw [List.nodup_append]
    refine ⟨nodup',List.nodup_singleton a,?_⟩
    rintro x here _ is rfl
    exact out' (List.mem_singleton.mp is ▸ here)
  · have deep : ∀ k, (T' k).level = t.level + 1 ∧ Deeper (T' k) := fun k =>
      ⟨(every k).2.2.2.1.trans (forked.deeper k).1,(every k).2.2.1⟩
    exact ⟨deep 0,deep 1,deep 2,deep 3⟩
  · have settled : ∀ k, Settled visit (T' k) := fun k => (every k).2.2.2.2
    exact .inr ⟨answer,settled 0,settled 1,settled 2,settled 3⟩

/-- A visit returns, and makes of the tree what it makes of one that is not in memory,
    exactly if it does not sink. -/
theorem visit_holds (allocates : Allocates malloc) {bound : Nat}
    (bounded : ∀ level i j, visit level i j = .CONTINUE → level < bound) {n : Nat} :
    ∀ {t : Node} {m : Memory} {a : Nat} {below : List Nat}, bound ≤ t.level + n → Deeper t → m.live.Nodup →
      Holds m t a below → (whole a below).Nodup →
      (¬ Sinks visit t → ∃ t' m' below', Left malloc visit (n + 1) m m' t t' a below below') ∧
        (Sinks visit t → ∀ fuel r, node_visit_ malloc visit fuel m a ≠ .ok r) := by
  induction n with
  | zero =>
    intro t m a below shallow deeper distinct holds nodup
    have stays : visit t.level t.cell.1 t.cell.2 ≠ .CONTINUE := fun continues => by
      have := bounded _ _ _ continues
      omega
    refine ⟨fun _ => ?_,fun sinks => absurd sinks.continues stays⟩
    cases answer : visit t.level t.cell.1 t.cell.2 with
    | CLEAR => exact visit_clear answer holds nodup distinct 0
    | STOP => exact visit_stop answer holds nodup deeper 0
    | CONTINUE => exact absurd answer stays
  | succ n ih =>
    intro t m a below shallow deeper distinct holds nodup
    cases answer : visit t.level t.cell.1 t.cell.2 with
    | CLEAR =>
      refine ⟨fun _ => visit_clear answer holds nodup distinct (n + 1),fun sinks => ?_⟩
      rw [sinks.continues] at answer
      cases answer
    | STOP =>
      refine ⟨fun _ => visit_stop answer holds nodup deeper (n + 1),fun sinks => ?_⟩
      rw [sinks.continues] at answer
      cases answer
    | CONTINUE =>
      by_cases deep : t.children = [] ∧ 31 ≤ t.level
      · obtain ⟨sinks,stuck⟩ := too_deep holds answer deep.1 deep.2
        exact ⟨fun floats => absurd sinks floats,fun _ fuel r run => by
          cases fuel with
          | zero => cases run
          | succ fuel =>
            rw [node_visit_answer holds,answer] at run
            obtain ⟨m₁,expanded,_⟩ := bind_ok_iff.mp run
            exact stuck m₁ expanded⟩
      have shallow : t.children = [] → t.level < 31 := fun leaf => Nat.lt_of_not_le fun level => deep ⟨leaf,level⟩
      obtain ⟨m₁,T,A,B,forked⟩ : ∃ m₁ T A B, Forked malloc visit m m₁ t a below T A B :=
        expand_forks allocates holds nodup deeper shallow
      have one : ∀ k, ∀ {m : Memory}, m.live.Nodup → Holds m (T k) (A k) (B k) → _ := fun k {m} distinct tree =>
        @ih (T k) m (A k) (B k) (by rw [(forked.deeper k).1]; omega) (forked.deeper k).2 distinct tree (forked.part k)
      have sinks_iff := forked.sinks answer
      constructor
      · intro floats
        exact visit_continue answer holds distinct forked fun k m distinct tree =>
          (one k distinct tree).1 fun sinks => floats (sinks_iff.mpr ⟨k,sinks⟩)
      · intro sinks fuel r run
        cases fuel with
        | zero => cases run
        | succ fuel =>
          rw [node_visit_answer holds,answer] at run
          obtain ⟨m₂,expanded,run⟩ := bind_ok_iff.mp run
          rw [forked.run,Except.ok.injEq] at expanded
          subst expanded
          obtain ⟨k,sinks⟩ := sinks_iff.mp sinks
          exact visit_children_sinks (fun k _ floats m distinct tree => (one k distinct tree).1 floats)
            (fun k _ sinks m distinct tree => (one k distinct tree).2 sinks) (forked.visited.nodup distinct)
            ((forked.visited.live a).mpr (.inr (mem_whole.mpr (.inr rfl)))) (fun k _ => forked.children k)
            (fun k _ => forked.trees k) forked.nodup ⟨k,all_kids k,sinks⟩ fuel r run

/-- Trees that calls of `traverse` make of a new one. The visitor can be another one each time. -/
inductive Reached (malloc : Memory → Nat) : Memory → Prop where
  | init {m : Memory} (live : m.live = []) (allocs : m.allocs = 0) (frees : m.frees = []) : Reached malloc (init malloc m)
  | traverse {m m' : Memory} {visit : Nat → Nat → Nat → QuadtreeTraversal} {bound fuel : Nat} (reached : Reached malloc m)
      (bounded : ∀ level i j, visit level i j = .CONTINUE → level < bound)
      (run : traverse malloc visit fuel m = .ok m') : Reached malloc m'

/-- There is this tree, which holds all nodes that are allocated. -/
structure Whole (m : Memory) (t : Node) (a : Nat) (below : List Nat) : Prop where
  root : m.root = some a
  holds : Holds m t a below
  nodup : (whole a below).Nodup
  distinct : m.live.Nodup
  live : ∀ x, x ∈ m.live ↔ x ∈ whole a below
  deeper : Deeper t
  counted : m.allocs = m.frees.length + (whole a below).length

theorem init_whole (live : m.live = []) (allocs : m.allocs = 0) (frees : m.frees = []) :
    Whole (init malloc m) (.leaf 0 0 0) (malloc m) [] := by
  have live' : (init malloc m).live = [malloc m] := by simp [init,node_alloc_,alloc,live]
  have entry : (init malloc m).entry (malloc m) = ⟨0,0,0,Function.update (m.entry (malloc m)).child 0 none⟩ := by
    simp [init,node_alloc_,alloc]
  refine ⟨rfl,?_,List.nodup_singleton _,?_,fun x => ?_,trivial,?_⟩
  · simp [Holds,live',entry]
  · rw [live']
    exact List.nodup_singleton _
  · rw [live',mem_whole]
    simp
  · simp [init,node_alloc_,alloc,allocs,frees]

theorem Left.whole {n : Nat} {t' : Node} {below' : List Nat} (left : Left malloc visit n m m' t t' a below below')
    (inv : Whole m t a below) : Whole m' t' a below' where
  root := left.visited.root.trans inv.root
  holds := left.holds
  nodup := left.nodup
  distinct := left.visited.nodup inv.distinct
  live x := by
    rw [left.visited.live]
    constructor
    · rintro (⟨live,out⟩ | here)
      · exact absurd ((inv.live x).mp live) out
      · exact here
    · exact .inr
  deeper := left.deeper
  counted := by
    have := left.visited.counted
    have := inv.counted
    omega

theorem traverse_eq (fuel : Nat) (root : m.root = some a) :
    traverse malloc visit fuel m = node_visit_ malloc visit fuel m a := by
  rw [traverse,root]

theorem Whole.traverse (allocates : Allocates malloc) (inv : Whole m t a below) {bound : Nat}
    (bounded : ∀ level i j, visit level i j = .CONTINUE → level < bound) :
    (¬ Sinks visit t → ∃ t' m' below', Left malloc visit (bound + 1) m m' t t' a below below') ∧
      (Sinks visit t → ∀ fuel r, traverse malloc visit fuel m ≠ .ok r) := by
  obtain ⟨floats,sinks⟩ := visit_holds allocates bounded (Nat.le_add_left bound t.level) inv.deeper inv.distinct inv.holds
    inv.nodup
  refine ⟨floats,fun sunk fuel r => ?_⟩
  rw [traverse_eq fuel inv.root]
  exact sinks sunk fuel r

theorem Reached.whole (allocates : Allocates malloc) (reached : Reached malloc m) : ∃ t a below, Whole m t a below := by
  induction reached with
  | init live allocs frees => exact ⟨_,_,_,init_whole live allocs frees⟩
  | @traverse m m' visit bound fuel _ bounded run ih =>
    obtain ⟨t,a,below,inv⟩ := ih
    obtain ⟨floats,sinks⟩ := inv.traverse allocates bounded
    by_cases sunk : Sinks visit t
    · exact absurd run (sinks sunk fuel m')
    obtain ⟨t',m'',below',left⟩ := floats sunk
    obtain ⟨f,returns⟩ := left.returns
    rw [traverse_eq fuel inv.root] at run
    have same := node_visit_mono (Nat.le_max_left fuel f) run
    rw [returns _ (Nat.le_max_right fuel f),Except.ok.injEq] at same
    exact ⟨t',a,below',same ▸ left.whole inv⟩

/-! ### What a tree is for its user -/

/-- The nodes that are reached from one by child pointers. -/
inductive Under (m : Memory) : Nat → Nat → Prop where
  | here {a : Nat} : Under m a a
  | child {a c x : Nat} (k : Fin 4) (forks : (m.entry a).child 0 ≠ none) (here : (m.entry a).child k = some c)
      (under : Under m c x) : Under m a x

/-- It has no children or four, one level deeper. -/
def Forks (m : Memory) (x : Nat) : Prop :=
  (m.entry x).child 0 = none ∨
    ∀ k, ∃ c, (m.entry x).child k = some c ∧ c ∈ m.live ∧ (m.entry c).level = (m.entry x).level + 1

theorem Holds.under (holds : Holds m t a below) {x : Nat} : x ∈ whole a below ↔ Under m a x := by
  induction t generalizing a below with
  | leaf level i j =>
    obtain ⟨_,_,_,_,none_,rfl⟩ := holds
    constructor
    · intro inside
      rw [List.mem_singleton.mp inside]
      exact .here
    · intro under
      cases under with
      | here => exact List.mem_singleton_self _
      | child _ forks _ _ => exact absurd none_ forks
  | fork level i j c0 c1 c2 c3 ih0 ih1 ih2 ih3 =>
    obtain ⟨_,_,_,_,A,B,children,rfl,h0,h1,h2,h3⟩ := holds
    have each : ∀ k, x ∈ whole (A k) (B k) ↔ Under m (A k) x := by
      intro k
      rcases four k with rfl | rfl | rfl | rfl
      · exact ih0 h0
      · exact ih1 h1
      · exact ih2 h2
      · exact ih3 h3
    rw [mem_whole,mem_wholes]
    constructor
    · rintro (⟨k,_,inside⟩ | rfl)
      · exact .child k (by rw [children]; exact Option.some_ne_none _) (children k) ((each k).mp inside)
      · exact .here
    · intro under
      cases under with
      | here => exact .inr rfl
      | child k _ here under =>
        rw [children,Option.some.injEq] at here
        exact .inl ⟨k,all_kids k,(each k).mpr (here ▸ under)⟩

theorem Holds.forks (holds : Holds m t a below) (deeper : Deeper t) : ∀ x ∈ whole a below, Forks m x := by
  induction t generalizing a below with
  | leaf level i j =>
    obtain ⟨_,_,_,_,none_,rfl⟩ := holds
    intro x inside
    rw [List.mem_singleton.mp inside]
    exact .inl none_
  | fork level i j c0 c1 c2 c3 ih0 ih1 ih2 ih3 =>
    obtain ⟨_,is_level,_,_,A,B,children,rfl,h0,h1,h2,h3⟩ := holds
    obtain ⟨⟨level0,deeper0⟩,⟨level1,deeper1⟩,⟨level2,deeper2⟩,⟨level3,deeper3⟩⟩ := deeper
    intro x inside
    rcases mem_whole.mp inside with inside | rfl
    · obtain ⟨k,_,inside⟩ := mem_wholes.mp inside
      rcases four k with rfl | rfl | rfl | rfl
      · exact ih0 h0 deeper0 x inside
      · exact ih1 h1 deeper1 x inside
      · exact ih2 h2 deeper2 x inside
      · exact ih3 h3 deeper3 x inside
    · refine .inr fun k => ⟨A k,children k,?_⟩
      rw [is_level]
      rcases four k with rfl | rfl | rfl | rfl
      · exact ⟨h0.top.1,h0.top.2.1.trans level0⟩
      · exact ⟨h1.top.1,h1.top.2.1.trans level1⟩
      · exact ⟨h2.top.1,h2.top.2.1.trans level2⟩
      · exact ⟨h3.top.1,h3.top.2.1.trans level3⟩

/-- Shutting down frees the nodes below the root, and then the root. -/
theorem Whole.shutdown (inv : Whole m t a below) :
    ∃ m', (∃ f, ∀ fuel, f ≤ fuel → shutdown fuel m = .ok m') ∧ m'.frees = m.frees ++ whole a below ∧ m'.live = [] ∧
      m'.root = none := by
  obtain ⟨m₁,run,freed,_⟩ := node_clear_holds inv.holds inv.nodup inv.distinct
  have live₁ : a ∈ m₁.live := by
    rw [freed.live,List.mem_filter]
    exact ⟨inv.holds.top.1,decide_eq_true (whole_apart inv.nodup)⟩
  have read₁ : m₁.read .root = .ok (some a) := by rw [Memory.read,freed.root,inv.root]
  refine ⟨{ m₁ with root := none, live := m₁.live.erase a, frees := m₁.frees ++ [a] },⟨height t + 1,fun fuel enough => ?_⟩,?_,?_,rfl⟩
  · have free : free_ m₁ .root = .ok { m₁ with root := none, live := m₁.live.erase a, frees := m₁.frees ++ [a] } := by
      rw [free_,read₁]
      exact if_pos live₁
    rw [QuadtreeMemory.shutdown,node_free_,Memory.read,inv.root]
    simp only [bind,Except.bind,run fuel (by omega),free,Memory.read,if_true]
  · simp only
    rw [freed.frees,List.append_assoc]
  · have distinct₁ : m₁.live.Nodup := by
      rw [freed.live]
      exact inv.distinct.filter _
    simp only
    rw [distinct₁.erase_eq_filter,freed.live,List.filter_filter,List.filter_eq_nil_iff]
    intro x live
    have := mem_whole.mp ((inv.live x).mp live)
    simp
    grind

end

/-- Memory behind all that is in use. -/
def behind (m : Memory) : Nat := m.live.sum + 1

/-- Memory before there is a tree. -/
def blank : Memory where
  root := none
  live := []
  entry _ := ⟨0,0,0,fun _ => some 5⟩
  allocs := 0
  frees := []

/-- A visitor that continues at the first node of every level down to one. -/
def firsts (bound level i j : Nat) : QuadtreeTraversal := if level < bound ∧ i = 0 ∧ j = 0 then .CONTINUE else .STOP

end Htools.QuadtreeMemory
