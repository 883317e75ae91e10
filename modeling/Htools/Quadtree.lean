import Htools.Machine
import Htools.Grid
import Mathlib.Data.Nat.Prime.Basic

/-!
The quadtree template (`hutils/include/hutils/quadtree.h`). A traversal asks
the visitor at every node and makes the four children of a node where it is
told to continue and there are none. Nodes are placed by their level and two
coordinates, which should be those of the cells of a square grid; the children
of a node from the third level on are placed wrongly, unless it is the first
one of its level (`gridded_iff`).
-/
namespace Htools.Quadtree
open Htools.Grid

inductive QuadtreeTraversal where
  | CLEAR
  | CONTINUE
  | STOP
  deriving DecidableEq, Repr

/-- `QUADTREE_ENTRY`: `child[0]` is null in a leaf, and a fork has all four. -/
inductive Node where
  | leaf (level i j : Nat)
  | fork (level i j : Nat) (child0 child1 child2 child3 : Node)
  deriving DecidableEq, Repr

def Node.level : Node → Nat
  | .leaf level _ _ => level
  | .fork level _ _ _ _ _ _ => level

def Node.cell : Node → Nat × Nat
  | .leaf _ i j => (i,j)
  | .fork _ i j _ _ _ _ => (i,j)

def Node.children : Node → List Node
  | .leaf _ _ _ => []
  | .fork _ _ _ c0 c1 c2 c3 => [c0,c1,c2,c3]

/-- The user's functions, by what they do to the user data. `alloc` returns
    fresh memory, and `free_` nulls the pointer that it is given. -/
structure User (σ : Type) where
  alloc : σ → σ
  free_ : σ → Node → σ
  visit : σ → Node → QuadtreeTraversal × σ

section
variable {σ : Type} (user : User σ)

def node_alloc_ (user_data : σ) (a_level a_i a_j : Nat) : σ × Node := (user.alloc user_data,.leaf a_level a_i a_j)

/-- `node_free_` is `node_clear_` followed by `free_`. -/
def node_clear_ : Node → σ → σ × Node
  | .leaf level i j, user_data => (user_data,.leaf level i j)
  | .fork level i j c0 c1 c2 c3, user_data =>
    let (user_data,c0) := node_clear_ c0 user_data
    let user_data := user.free_ user_data c0
    let (user_data,c1) := node_clear_ c1 user_data
    let user_data := user.free_ user_data c1
    let (user_data,c2) := node_clear_ c2 user_data
    let user_data := user.free_ user_data c2
    let (user_data,c3) := node_clear_ c3 user_data
    let user_data := user.free_ user_data c3
    (user_data,.leaf level i j)

/-- The part of `node_visit_` that makes the children of a node that has none. -/
def node_expand (user_data : σ) : Node → Except Stop (σ × Node × Node × Node × Node)
  | .fork _ _ _ c0 c1 c2 c3 => .ok (user_data,c0,c1,c2,c3)
  | .leaf level i j =>
    -- `1 << level` has to fit an `int`.
    if 31 ≤ level then .error .fault
    else
      let scale := 1 <<< level
      let i := scale * i % 2 ^ 32
      let j := scale * j % 2 ^ 32
      let level := level + 1
      let (user_data,c0) := node_alloc_ user user_data level i j
      let (user_data,c1) := node_alloc_ user user_data level i ((j + 1) % 2 ^ 32)
      let (user_data,c2) := node_alloc_ user user_data level ((i + 1) % 2 ^ 32) j
      let (user_data,c3) := node_alloc_ user user_data level ((i + 1) % 2 ^ 32) ((j + 1) % 2 ^ 32)
      .ok (user_data,c0,c1,c2,c3)

def node_visit_ : Nat → σ → Node → Except Stop (σ × Node)
  | 0, _, _ => .error .fuel
  | fuel + 1, user_data, a_node =>
    let (trav,user_data) := user.visit user_data a_node
    match trav with
    | .CLEAR => .ok (node_clear_ user a_node user_data)
    | .STOP => .ok (user_data,a_node)
    | .CONTINUE => do
      let (user_data,c0,c1,c2,c3) ← node_expand user user_data a_node
      let (user_data,c0) ← node_visit_ fuel user_data c0
      let (user_data,c1) ← node_visit_ fuel user_data c1
      let (user_data,c2) ← node_visit_ fuel user_data c2
      let (user_data,c3) ← node_visit_ fuel user_data c3
      .ok (user_data,.fork a_node.level a_node.cell.1 a_node.cell.2 c0 c1 c2 c3)

/-- `QUADTREE_HEAD`. -/
structure TreeType (σ : Type) where
  user_data : σ
  root : Node

def init (a_user_data : σ) : TreeType σ :=
  let (user_data,root) := node_alloc_ user a_user_data 0 0 0
  { user_data := user_data, root := root }

def traverse (fuel : Nat) (a_tree : TreeType σ) : Except Stop (TreeType σ) := do
  let (user_data,root) ← node_visit_ user fuel a_tree.user_data a_tree.root
  .ok { user_data := user_data, root := root }

/-- So many calls of `traverse` after `init`. -/
def traverses (fuel : Nat) (a_user_data : σ) : Nat → Except Stop (TreeType σ)
  | 0 => .ok (init user a_user_data)
  | n + 1 => do
    let a_tree ← traverses fuel a_user_data n
    traverse user fuel a_tree

end

/-! ### Nodes on the grid -/

/-- The nodes so many levels below one. -/
def nodesAt : Nat → Node → List Node
  | 0, t => [t]
  | d + 1, t => t.children.flatMap (nodesAt d)

/-- All nodes down to a level have children. -/
def Full : Nat → Node → Prop
  | 0, _ => True
  | d + 1, t => t.children ≠ [] ∧ ∀ c ∈ t.children, Full d c

/-- The children of a node, if any, are its quarters at the next level. -/
def ChildrenPlaced (n : Node) : Prop :=
  n.children = [] ∨ (n.children.map Node.cell = quarters n.cell ∧ ∀ c ∈ n.children, c.level = n.level + 1)

/-- The children of all nodes of a tree are placed. -/
def Placed (t : Node) : Prop := ∀ d, ∀ n ∈ nodesAt d t, ChildrenPlaced n

/-- A tree whose nodes are placed on the grid. -/
structure Gridded (t : Node) : Prop where
  inside : ∀ L, ∀ n ∈ nodesAt L t, n.level = L ∧ n.cell.1 < 2 ^ L ∧ n.cell.2 < 2 ^ L
  children : ∀ L, ∀ n ∈ nodesAt L t, ChildrenPlaced n
  distinct : ∀ L, ((nodesAt L t).map Node.cell).Nodup
  covered : ∀ L, Full L t → ∀ i j, i < 2 ^ L → j < 2 ^ L → (i,j) ∈ (nodesAt L t).map Node.cell

theorem placed_iff (t : Node) : Placed t ↔ ChildrenPlaced t ∧ ∀ c ∈ t.children, Placed c := by
  constructor
  · intro placed
    refine ⟨placed 0 t (List.mem_singleton_self t),?_⟩
    intro c child d n member
    exact placed (d + 1) n (List.mem_flatMap.mpr ⟨c,child,member⟩)
  · rintro ⟨top,below⟩ d n member
    cases d with
    | zero =>
      obtain rfl := List.mem_singleton.mp member
      exact top
    | succ d =>
      obtain ⟨c,child,member⟩ := List.mem_flatMap.mp member
      exact below c child d n member

theorem placed_levels {d : Nat} : ∀ {t : Node}, Placed t → ∀ n ∈ nodesAt d t, n.level = t.level + d := by
  induction d with
  | zero =>
    intro t _ n member
    rw [List.mem_singleton.mp member,Nat.add_zero]
  | succ d ih =>
    intro t placed n member
    obtain ⟨c,child,member⟩ := List.mem_flatMap.mp member
    obtain ⟨top,below⟩ := (placed_iff t).mp placed
    obtain none | ⟨_,levels⟩ := top
    · rw [none] at child
      cases child
    · rw [ih (below c child) n member,levels c child]
      omega

/-- The nodes of a level are some of the cells there, in order, and all of them
    where the tree is full. -/
theorem placed_cells {d : Nat} : ∀ {t : Node}, Placed t →
    ((nodesAt d t).map Node.cell).Sublist (cells d t.cell) ∧
      (Full d t → (nodesAt d t).map Node.cell = cells d t.cell) := by
  induction d with
  | zero => intro t _; exact ⟨List.Sublist.refl _,fun _ => rfl⟩
  | succ d ih =>
    intro t placed
    obtain ⟨top,below⟩ := (placed_iff t).mp placed
    obtain none | ⟨quartered,_⟩ := top
    · simp [nodesAt,Full,none]
    · rw [nodesAt,cells,← quartered,List.map_flatMap,List.flatMap_map]
      refine ⟨?_,?_⟩
      · clear quartered
        revert below
        induction t.children with
        | nil => intro _; exact List.Sublist.refl _
        | cons c rest ihr =>
          intro below
          rw [List.flatMap_cons,List.flatMap_cons]
          exact (ih (below c List.mem_cons_self)).1.append (ihr fun c' member => below c' (List.mem_cons_of_mem _ member))
      · rintro ⟨_,full⟩
        exact List.flatMap_congr fun c child => (ih (below c child)).2 (full c child)

/-- On the grid are the trees from the origin with placed children. -/
theorem gridded_iff_placed {t : Node} (level : t.level = 0) (origin : t.cell = (0,0)) : Gridded t ↔ Placed t := by
  constructor
  · intro gridded
    exact gridded.children
  · intro placed
    refine ⟨?_,placed,?_,?_⟩
    · intro L n member
      refine ⟨by rw [placed_levels placed n member,level,Nat.zero_add],?_⟩
      have below := (placed_cells placed).1.subset (List.mem_map_of_mem member)
      rw [origin] at below
      exact mem_cells_origin.mp below
    · intro L
      exact (placed_cells placed).1.nodup (cells_nodup L t.cell)
    · intro L full i j iInside jInside
      rw [(placed_cells placed).2 full,origin]
      exact mem_cells_origin.mpr ⟨iInside,jInside⟩

/-! ### Traversals -/

/-- A call of the visitor, with its answer. -/
abbrev Call := Node × QuadtreeTraversal

/-- The user's functions with a visitor that also notes its calls. -/
def recording {σ : Type} (user : User σ) : User (σ × List Call) where
  alloc s := (user.alloc s.1,s.2)
  free_ s node := (user.free_ s.1 node,s.2)
  visit s node :=
    let (trav,user_data) := user.visit s.1 node
    (trav,(user_data,s.2 ++ [(node,trav)]))

/-- The calls of the visitor in so many traversals. -/
def calls {σ : Type} (user : User σ) (fuel : Nat) (a_user_data : σ) (n : Nat) : List Call :=
  match traverses (recording user) fuel (a_user_data,[]) n with
  | .ok a_tree => a_tree.user_data.2
  | .error _ => []

/-- Being told to continue at a childless node from the third level on, unless
    it is the first one of its level. -/
def Misplacing (call : Call) : Prop :=
  call.2 = .CONTINUE ∧ call.1.children = [] ∧ 2 ≤ call.1.level ∧ call.1.cell ≠ (0,0)

section
variable {σ : Type} {user : User σ}

/-- `1 << level` times a coordinate is twice the coordinate on the first two
    levels, and for coordinate 0. -/
theorem scale_iff {level i : Nat} (shallow : level < 31) (inside : i < 2 ^ level) :
    1 <<< level * i % 2 ^ 32 = 2 * i ↔ level < 2 ∨ i = 0 := by
  rw [Nat.one_shiftLeft]
  constructor
  · intro same
    by_contra deep
    obtain ⟨k,rfl⟩ : ∃ k, level = k + 2 := ⟨level - 2,by omega⟩
    -- `2 ^ (k + 2) - 2` is twice an odd number, so `2 ^ 31` would divide `i`.
    have divides : 2 ^ 31 ∣ (2 ^ (k + 1) - 1) * i := by
      have positive := Nat.one_le_two_pow (n := k + 1)
      have double : 2 ^ (k + 2) * i = 2 * ((2 ^ (k + 1) - 1) * i) + 2 * i := by
        obtain ⟨m,mIs⟩ : ∃ m, 2 ^ (k + 1) = m + 1 := ⟨2 ^ (k + 1) - 1,by omega⟩
        rw [show k + 2 = k + 1 + 1 by omega,Nat.pow_succ,mIs,Nat.add_sub_cancel,Nat.mul_right_comm,Nat.add_mul]
        omega
      rw [double] at same
      omega
    have odd : Nat.Coprime (2 ^ 31) (2 ^ (k + 1) - 1) := by
      apply Nat.Coprime.pow_left
      rw [Nat.coprime_two_left,Nat.odd_iff]
      have positive := Nat.one_le_two_pow (n := k)
      rw [Nat.pow_succ]
      omega
    have least := Nat.le_of_dvd (by omega) (odd.dvd_of_dvd_mul_left divides)
    have bound : 2 ^ (k + 2) ≤ 2 ^ 30 := Nat.pow_le_pow_right (by decide) (by omega)
    omega
  · rintro (shallow | rfl)
    · obtain rfl | rfl : level = 0 ∨ level = 1 := by omega
      · omega
      · omega
    · rfl

/-- The children that a node has or is given, and where they are. -/
private theorem node_expand_placed {s s' : σ} {n c0 c1 c2 c3 : Node} (placed : Placed n)
    (inside : n.cell.1 < 2 ^ n.level ∧ n.cell.2 < 2 ^ n.level)
    (run : node_expand user s n = .ok (s',c0,c1,c2,c3)) :
    (∀ c ∈ [c0,c1,c2,c3], c.level = n.level + 1 ∧ Placed c) ∧
      ([c0,c1,c2,c3].map Node.cell = quarters n.cell ↔ ¬ Misplacing (n,.CONTINUE)) := by
  cases n with
  | fork level i j d0 d1 d2 d3 =>
    simp only [node_expand,Except.ok.injEq,Prod.mk.injEq] at run
    obtain ⟨_,rfl,rfl,rfl,rfl⟩ := run
    obtain ⟨none | ⟨quartered,levels⟩,below⟩ := (placed_iff _).mp placed
    · cases none
    · refine ⟨fun c child => ⟨levels c child,below c child⟩,?_,fun _ => quartered⟩
      rintro _ ⟨_,none,_⟩
      cases none
  | leaf level i j =>
    rw [node_expand] at run
    split_ifs at run with deep
    simp only [node_alloc_,Except.ok.injEq,Prod.mk.injEq] at run
    obtain ⟨_,rfl,rfl,rfl,rfl⟩ := run
    have leaves : ∀ l x y, Placed (.leaf l x y) := by
      intro l x y
      rw [placed_iff]
      exact ⟨.inl rfl,fun c child => by cases child⟩
    refine ⟨?_,?_⟩
    · simp [Node.level,leaves]
    · simp only [Node.cell,Node.level] at inside
      have first := scale_iff (by omega) inside.1
      have second := scale_iff (by omega) inside.2
      have bound : 2 ^ level ≤ 2 ^ 30 := Nat.pow_le_pow_right (by decide) (by omega)
      simp only [List.map_cons,List.map_nil,Node.cell,quarters,List.cons.injEq,Prod.mk.injEq,Misplacing,
        Node.children,Node.level,ne_eq,and_true,true_and]
      constructor
      · rintro ⟨⟨atI,atJ⟩,_⟩ ⟨third,other⟩
        exact other ⟨(first.mp atI).resolve_left (by omega),(second.mp atJ).resolve_left (by omega)⟩
      · intro allowed
        have atI := first.mpr (by omega)
        have atJ := second.mpr (by omega)
        rw [atI,atJ]
        omega

/-- The answers of the visitor, and what is left of the node for each. -/
theorem node_visit_cases {fuel : Nat} {s s' : σ} {n n' : Node}
    (run : node_visit_ user (fuel + 1) s n = .ok (s',n')) :
    ((user.visit s n).1 = .CLEAR ∧ (s',n') = node_clear_ user n (user.visit s n).2) ∨
    ((user.visit s n).1 = .STOP ∧ (s',n') = ((user.visit s n).2,n)) ∨
    ((user.visit s n).1 = .CONTINUE ∧ ∃ s0 s1 s2 s3 c0 c1 c2 c3 d0 d1 d2 d3,
      node_expand user (user.visit s n).2 n = .ok (s0,c0,c1,c2,c3) ∧ node_visit_ user fuel s0 c0 = .ok (s1,d0) ∧
      node_visit_ user fuel s1 c1 = .ok (s2,d1) ∧ node_visit_ user fuel s2 c2 = .ok (s3,d2) ∧
      node_visit_ user fuel s3 c3 = .ok (s',d3) ∧ n' = .fork n.level n.cell.1 n.cell.2 d0 d1 d2 d3) := by
  rw [node_visit_] at run
  cases answer : (user.visit s n).1 with
  | CLEAR =>
    simp only [answer,Except.ok.injEq] at run
    exact .inl ⟨rfl,run.symm⟩
  | STOP =>
    simp only [answer,Except.ok.injEq] at run
    exact .inr (.inl ⟨rfl,run.symm⟩)
  | CONTINUE =>
    simp only [answer,bind_ok_iff] at run
    obtain ⟨⟨s0,c0,c1,c2,c3⟩,expanded,⟨s1,d0⟩,run0,⟨s2,d1⟩,run1,⟨s3,d2⟩,run2,⟨s4,d3⟩,run3,last⟩ := run
    cases last
    exact .inr (.inr ⟨rfl,s0,s1,s2,s3,c0,c1,c2,c3,d0,d1,d2,d3,expanded,run0,run1,run2,run3,rfl⟩)

/-- Clearing leaves a leaf at the same place. -/
theorem node_clear_leaf (user : User σ) (n : Node) (s : σ) :
    (node_clear_ user n s).2 = .leaf n.level n.cell.1 n.cell.2 := by
  cases n with
  | leaf level i j => rfl
  | fork level i j c0 c1 c2 c3 => rfl

theorem node_clear_recording (n : Node) : ∀ s, (node_clear_ (recording user) n s).1.2 = s.2 := by
  induction n with
  | leaf level i j => intro s; rfl
  | fork level i j c0 c1 c2 c3 ih0 ih1 ih2 ih3 =>
    intro s
    simp only [node_clear_,recording] at ih0 ih1 ih2 ih3 ⊢
    rw [ih3,ih2,ih1,ih0]

theorem node_expand_recording {s s' : σ × List Call} {n c0 c1 c2 c3 : Node}
    (run : node_expand (recording user) s n = .ok (s',c0,c1,c2,c3)) : s'.2 = s.2 := by
  cases n with
  | fork level i j d0 d1 d2 d3 =>
    cases run
    rfl
  | leaf level i j =>
    rw [node_expand] at run
    split_ifs at run
    cases run
    rfl

/-- A visit leaves the node where it is and notes its calls. From a placed tree
    it leads to one exactly when none of these misplaces. -/
theorem node_visit_placed : ∀ {fuel} {s s' : σ × List Call} {n n' : Node},
    node_visit_ (recording user) fuel s n = .ok (s',n') →
      n'.level = n.level ∧ n'.cell = n.cell ∧ ∃ calls, s'.2 = s.2 ++ calls ∧
        (Placed n → n.cell.1 < 2 ^ n.level ∧ n.cell.2 < 2 ^ n.level →
          (Placed n' ↔ ∀ call ∈ calls, ¬ Misplacing call)) := by
  intro fuel
  induction fuel with
  | zero => intro s s' n n' run; cases run
  | succ fuel ih =>
    intro s s' n n' run
    obtain ⟨answer,cleared⟩ | ⟨answer,same⟩ |
        ⟨answer,s0,s1,s2,s3,c0,c1,c2,c3,d0,d1,d2,d3,expanded,run0,run1,run2,run3,rfl⟩ := node_visit_cases run
    · have kept := node_clear_leaf (recording user) n ((recording user).visit s n).2
      have noted := @node_clear_recording _ user n ((recording user).visit s n).2
      rw [← cleared] at kept noted
      simp only at kept
      refine ⟨by rw [kept]; rfl,by rw [kept]; rfl,[(n,.CLEAR)],?_,?_⟩
      · rw [noted,← answer]
        rfl
      · intro _ _
        rw [kept,placed_iff]
        simp [ChildrenPlaced,Node.children,Misplacing]
    · cases same
      refine ⟨rfl,rfl,[(n,.STOP)],?_,?_⟩
      · rw [← answer]
        rfl
      · intro placed _
        simp [placed,Misplacing]
    · obtain ⟨level0,cell0,calls0,log0,visit0⟩ := ih run0
      obtain ⟨level1,cell1,calls1,log1,visit1⟩ := ih run1
      obtain ⟨level2,cell2,calls2,log2,visit2⟩ := ih run2
      obtain ⟨level3,cell3,calls3,log3,visit3⟩ := ih run3
      refine ⟨rfl,rfl,(n,.CONTINUE) :: (calls0 ++ calls1 ++ calls2 ++ calls3),?_,?_⟩
      · rw [log3,log2,log1,log0,node_expand_recording expanded,← answer]
        simp [recording]
      · intro placed inside
        obtain ⟨children,quartered⟩ := node_expand_placed placed inside expanded
        simp only [List.forall_mem_cons,List.not_mem_nil,false_implies,implies_true,and_true] at children
        obtain ⟨⟨at0,placed0⟩,⟨at1,placed1⟩,⟨at2,placed2⟩,⟨at3,placed3⟩⟩ := children
        have cells : [d0,d1,d2,d3].map Node.cell = [c0,c1,c2,c3].map Node.cell := by
          simp only [List.map_cons,List.map_nil,cell0,cell1,cell2,cell3]
        by_cases bad : Misplacing (n,.CONTINUE)
        · refine iff_of_false ?_ fun none => none _ List.mem_cons_self bad
          intro placed'
          obtain none | ⟨quartered',_⟩ := ((placed_iff _).mp placed').1
          · cases none
          · exact quartered.mp (cells ▸ quartered') bad
        · have quarter := quartered.mpr bad
          have below : ∀ c ∈ [c0,c1,c2,c3], c.level = n.level + 1 →
              c.cell.1 < 2 ^ c.level ∧ c.cell.2 < 2 ^ c.level := by
            intro c child level
            have up := mem_quarters.mp (quarter ▸ List.mem_map_of_mem child)
            simp only [ancestor,Prod.ext_iff] at up
            rw [level,Nat.pow_succ]
            omega
          have now : ChildrenPlaced (.fork n.level n.cell.1 n.cell.2 d0 d1 d2 d3) := by
            refine .inr ⟨cells.trans quarter,?_⟩
            simp only [Node.children,Node.level,List.forall_mem_cons,List.not_mem_nil,false_implies,implies_true,
              and_true]
            exact ⟨level0.trans at0,level1.trans at1,level2.trans at2,level3.trans at3⟩
          rw [placed_iff]
          simp only [now,true_and,Node.children,List.forall_mem_cons,List.not_mem_nil,false_implies,implies_true,
            and_true,bad,not_false_eq_true,List.forall_mem_append,and_assoc,
            visit0 placed0 (below c0 (by simp) at0),visit1 placed1 (below c1 (by simp) at1),
            visit2 placed2 (below c2 (by simp) at2),visit3 placed3 (below c3 (by simp) at3)]

/-! ### Runs -/

end

section
variable {σ τ : Type} {user : User σ} {user' : User τ} {f : σ → τ}

/-- User functions that do the same to a part of the user data. -/
structure Projects (f : σ → τ) (user : User σ) (user' : User τ) : Prop where
  alloc : ∀ s, user'.alloc (f s) = f (user.alloc s)
  free_ : ∀ s n, user'.free_ (f s) n = f (user.free_ s n)
  visit : ∀ s n, user'.visit (f s) n = ((user.visit s n).1,f (user.visit s n).2)

theorem recording_projects (user : User σ) : Projects Prod.fst (recording user) user :=
  ⟨fun _ => rfl,fun _ _ => rfl,fun _ _ => rfl⟩

theorem node_clear_projects (projects : Projects f user user') (n : Node) :
    ∀ s, node_clear_ user' n (f s) = (f (node_clear_ user n s).1,(node_clear_ user n s).2) := by
  induction n with
  | leaf level i j => intro s; rfl
  | fork level i j c0 c1 c2 c3 ih0 ih1 ih2 ih3 =>
    intro s
    simp only [node_clear_,ih0,ih1,ih2,ih3,projects.free_]

theorem node_expand_projects (projects : Projects f user user') (s : σ) (n : Node) :
    node_expand user' (f s) n = (node_expand user s n).map fun r => (f r.1,r.2) := by
  cases n with
  | fork level i j c0 c1 c2 c3 => rfl
  | leaf level i j =>
    simp only [node_expand,node_alloc_,projects.alloc]
    split_ifs
    · rfl
    · rfl

theorem node_visit_projects (projects : Projects f user user') : ∀ fuel s n,
    node_visit_ user' fuel (f s) n = (node_visit_ user fuel s n).map fun r => (f r.1,r.2) := by
  intro fuel
  induction fuel with
  | zero => intro s n; rfl
  | succ fuel ih =>
    intro s n
    rw [node_visit_,node_visit_,projects.visit]
    obtain ⟨trav,s1⟩ := user.visit s n
    cases trav with
    | CLEAR => simp only [node_clear_projects projects,Except.map]
    | STOP => rfl
    | CONTINUE =>
      have sequence : ∀ {β γ δ ε : Type} (x : Except Stop β) (g : β → γ) (k : γ → Except Stop ε) (k' : β → Except Stop δ)
          (h : δ → ε), (∀ b, k (g b) = (k' b).map h) → x.map g >>= k = (x >>= k').map h := by
        intro β γ δ ε x g k k' h same
        cases x with
        | error stop => rfl
        | ok b => exact same b
      simp only [node_expand_projects projects]
      refine sequence _ _ _ _ _ fun r0 => ?_
      simp only [ih]
      refine sequence _ _ _ _ _ fun r1 => ?_
      simp only [ih]
      refine sequence _ _ _ _ _ fun r2 => ?_
      simp only [ih]
      refine sequence _ _ _ _ _ fun r3 => ?_
      simp only [ih]
      exact sequence _ _ _ _ _ fun r4 => rfl

theorem traverses_projects (projects : Projects f user user') (fuel : Nat) (s : σ) : ∀ n,
    traverses user' fuel (f s) n = (traverses user fuel s n).map fun t => ⟨f t.user_data,t.root⟩ := by
  intro n
  induction n with
  | zero =>
    simp only [traverses,init,node_alloc_,projects.alloc,Except.map]
  | succ n ih =>
    rw [traverses,traverses,ih]
    cases traverses user fuel s n with
    | error stop => rfl
    | ok t =>
      simp only [Except.map,bind,Except.bind,traverse,node_visit_projects projects]
      cases node_visit_ user fuel t.user_data t.root with
      | error stop => rfl
      | ok r => rfl

end

/-! ### Runs -/

section
variable {σ : Type} {user : User σ}

/-- A run leads only to placed trees exactly when no call misplaces. -/
theorem traverses_placed {fuel : Nat} {s : σ} : ∀ {n} {t : TreeType (σ × List Call)},
    traverses (recording user) fuel (s,[]) n = .ok t →
      t.root.level = 0 ∧ t.root.cell = (0,0) ∧
      ((∀ m ≤ n, ∀ t, traverses (recording user) fuel (s,[]) m = .ok t → Placed t.root) ↔
        ∀ call ∈ t.user_data.2, ¬ Misplacing call) := by
  intro n
  induction n with
  | zero =>
    intro t run
    cases run
    refine ⟨rfl,rfl,fun _ call member => (List.not_mem_nil member).elim,?_⟩
    rintro _ m none t run
    obtain rfl := Nat.le_zero.mp none
    cases run
    rw [placed_iff]
    exact ⟨.inl rfl,fun c child => (List.not_mem_nil child).elim⟩
  | succ n ih =>
    intro t run
    rw [traverses,bind_ok_iff] at run
    obtain ⟨t0,run0,last⟩ := run
    have whole : traverses (recording user) fuel (s,[]) (n + 1) = .ok t := by
      rw [traverses,bind_ok_iff]
      exact ⟨t0,run0,last⟩
    obtain ⟨level,cell,before⟩ := ih run0
    rw [traverse,bind_ok_iff] at last
    obtain ⟨⟨s1,root⟩,visited,same⟩ := last
    cases same
    obtain ⟨level',cell',calls,noted,visit⟩ := node_visit_placed visited
    have inside : t0.root.cell.1 < 2 ^ t0.root.level ∧ t0.root.cell.2 < 2 ^ t0.root.level := by
      rw [level,cell]
      decide
    refine ⟨level'.trans level,cell'.trans cell,?_⟩
    simp only [noted,List.forall_mem_append]
    constructor
    · intro placed
      have first := before.mp fun m le => placed m (by omega)
      have now := placed n (by omega) t0 run0
      exact ⟨first,(visit now inside).mp (placed (n + 1) (Nat.le_refl _) _ whole)⟩
    · rintro ⟨first,later⟩ m le t' run'
      have placed := before.mpr first
      by_cases early : m ≤ n
      · exact placed m early t' run'
      · obtain rfl : m = n + 1 := by omega
        rw [whole] at run'
        cases run'
        exact (visit (placed n (Nat.le_refl _) t0 run0) inside).mpr later

/-- In a run of traversals every state is a quadtree on the grid exactly when
    the visitor is not told to continue at a childless node of level 2 or more
    other than the first one of its level. -/
theorem gridded_iff (user : User σ) (fuel : Nat) (s : σ) (n : Nat) (returns : ∃ t, traverses user fuel s n = .ok t) :
    (∀ m ≤ n, ∀ t, traverses user fuel s m = .ok t → Gridded t.root) ↔
      ∀ call ∈ calls user fuel s n, ¬ Misplacing call := by
  have same : ∀ m, traverses user fuel s m =
      (traverses (recording user) fuel (s,[]) m).map fun t => ⟨t.user_data.1,t.root⟩ :=
    traverses_projects (recording_projects user) fuel (s,[])
  obtain ⟨t,run⟩ := returns
  rw [same] at run
  cases recorded : traverses (recording user) fuel (s,[]) n with
  | error stop =>
    rw [recorded] at run
    cases run
  | ok t0 =>
    rw [calls,recorded,← (traverses_placed recorded).2.2]
    refine forall₂_congr fun m le => ?_
    rw [same]
    cases early : traverses (recording user) fuel (s,[]) m with
    | error stop => simp [Except.map]
    | ok t1 =>
      obtain ⟨level,cell,_⟩ := traverses_placed early
      simp [Except.map,gridded_iff_placed level cell]

end

/-- A visitor that is told to continue down to a level. -/
def downTo (depth : Nat) : User Unit where
  alloc _ := ()
  free_ _ _ := ()
  visit _ node := if node.level < depth then (.CONTINUE,()) else (.STOP,())

/-- Two levels are made on the grid. -/
theorem gridded_iff_two :
    (∃ t, traverses (downTo 2) 3 () 1 = .ok t) ∧
    ((∀ m ≤ 1, ∀ t, traverses (downTo 2) 3 () m = .ok t → Gridded t.root) ↔
      ∀ call ∈ calls (downTo 2) 3 () 1, ¬ Misplacing call) :=
  ⟨⟨_,rfl⟩,gridded_iff (downTo 2) 3 () 1 ⟨_,rfl⟩⟩

/-- The third level has nodes outside of the grid. -/
theorem gridded_fails :
    ¬ ∀ t, traverses (downTo 3) 4 () 1 = .ok t → Gridded t.root := by
  intro gridded
  have inside := (gridded _ rfl).inside 3
  revert inside
  decide

end Htools.Quadtree
