import Htools.SplayTree
import Htools.Splaying

/-!
Splay trees in memory (`hutils/include/hutils/tree.h`), also while a splay has one in
three parts: what is left to search, and what has been found to be on either side of
the key, each with an open end at which the next node is linked (`Apart`). The three
parts have all nodes in their order all the time.
-/
namespace Htools.SplayTree
open Zippers Splaying

variable {N : Type}

/-! ### Reads after writes -/

theorem child_set_entry (e : Entry N) (s s' : Side) (value : Option N) :
    (e.set s value).child s' = if s' = s then value else e.child s' := by
  cases s <;> cases s' <;> rfl

theorem tail_set_tail (v : Locals N) (s s' : Side) (value : Option N) :
    (v.set_tail s value).tail s' = if s' = s then value else v.tail s' := by
  cases s <;> cases s' <;> rfl

@[simp] theorem node_set_tail (v : Locals N) (s : Side) (value : Option N) : (v.set_tail s value).node = v.node := by
  cases s <;> rfl

@[simp] theorem field_set_root [DecidableEq N] (m : Memory N) (head : Nat) (value : Option N) :
    (m.set_root head value).field = m.field := rfl

@[simp] theorem child_set_root [DecidableEq N] (m : Memory N) (head : Nat) (value : Option N) (s : Side) (x : N) :
    (m.set_root head value).child s x = m.child s x := rfl

@[simp] theorem root_set_root [DecidableEq N] (m : Memory N) (head other : Nat) (value : Option N) :
    (m.set_root head value).sph_root other = if other = head then value else m.sph_root other := by
  simp [Memory.set_root,Function.update_apply]

section
variable [DecidableEq N] {m : Memory N} {s s' : Side} {x y : N} {value : Option N}

@[simp] theorem child_set_child :
    (m.set_child s x value).child s' y = if y = x ∧ s' = s then value else m.child s' y := by
  by_cases same : y = x
  · subst same
    simp [Memory.set_child,Memory.child,child_set_entry]
  · simp [Memory.set_child,Memory.child,Function.update_of_ne,same]

@[simp] theorem root_set_child : (m.set_child s x value).sph_root = m.sph_root := rfl

theorem field_set_child (differ : y ≠ x) : (m.set_child s x value).field y = m.field y :=
  Function.update_of_ne differ _ _

end

/-! ### Trees in memory -/

/-- The nodes of a tree have the links that they have in it. -/
def Stands (m : Memory N) : BinaryTree N → Prop
  | .nil => True
  | .node x l r => m.child .left x = rootOf l ∧ m.child .right x = rootOf r ∧ Stands m l ∧ Stands m r

/-- The nodes that a splay has taken off, open to one side, with a pointer at the open end. -/
def Hangs (m : Memory N) (v : Locals N) (s : Side) : List (Frame N) → Option N → Prop
  | [],hole => v.node.child s = hole
  | f :: K,hole => f.side = s ∧ m.child s f.label = hole ∧ m.child s.other f.label = rootOf f.sibling ∧
      Stands m f.sibling ∧ Hangs m v s K (some f.label)

/-- The tree of a head. -/
structure Holds (m : Memory N) (head : Nat) (t : BinaryTree N) : Prop where
  root : m.sph_root head = rootOf t
  stands : Stands m t
  nodup : (inorder t).Nodup

/-- All nodes of a splay in order. -/
def whole (K : Side → List (Frame N)) (t : BinaryTree N) : List N := before (K .right) ++ inorder t ++ after (K .left)

/-- A splay with a tree left to search and two parts taken off, each open to a side. -/
structure Apart (m : Memory N) (v : Locals N) (head : Nat) (K : Side → List (Frame N)) (t : BinaryTree N) : Prop where
  root : m.sph_root head = rootOf t
  stands : Stands m t
  hangs : ∀ s, ∃ hole, Hangs m v s (K s) hole
  tail : ∀ s, v.tail s.other = (K s).head?.map (·.label)
  nodup : (whole K t).Nodup

/-- Only the root of the head and the entries of some nodes differ. -/
structure Only (m m' : Memory N) (head : Nat) (nodes : List N) : Prop where
  field : ∀ z, z ∉ nodes → m'.field z = m.field z
  root : ∀ other, other ≠ head → m'.sph_root other = m.sph_root other

section
variable {m m' m'' : Memory N} {v v' : Locals N} {head : Nat} {s : Side} {x z : N} {t l r : BinaryTree N}
  {K : List (Frame N)} {hole : Option N} {nodes nodes' : List N}

theorem stands_bear : Stands m (bear s x l r) ↔ m.child s x = rootOf l ∧ m.child s.other x = rootOf r ∧ Stands m l ∧ Stands m r := by
  cases s with
  | left => rfl
  | right =>
    rw [bear,Stands,Side.other]
    tauto

theorem child_congr (same : m'.field x = m.field x) (s : Side) : m'.child s x = m.child s x := by
  rw [Memory.child,Memory.child,same]

theorem stands_congr (same : ∀ z ∈ inorder t, m'.field z = m.field z) : Stands m' t ↔ Stands m t := by
  induction t with
  | nil => rfl
  | node x l r ihl ihr =>
    rw [inorder_node] at same
    have here := same x (by simp)
    rw [Stands,Stands,child_congr here,child_congr here,ihl fun z there => same z (by simp [there]),
      ihr fun z there => same z (by simp [there])]

theorem hangs_congr (same : ∀ z ∈ around K, m'.field z = m.field z) (node : v'.node.child s = v.node.child s) :
    Hangs m' v' s K hole ↔ Hangs m v s K hole := by
  induction K generalizing hole with
  | nil => rw [Hangs,Hangs,node]
  | cons f K ih =>
    rw [around] at same
    have here := same f.label (by simp)
    rw [Hangs,Hangs,child_congr here,child_congr here,stands_congr fun z there => same z (by simp [there]),
      ih fun z there => same z (by simp [there])]

@[simp] theorem stands_set_root [DecidableEq N] {value : Option N} : Stands (m.set_root head value) t ↔ Stands m t :=
  stands_congr fun _ _ => rfl

@[simp] theorem hangs_set_tail [DecidableEq N] {t : Side} {value value' : Option N} :
    Hangs (m.set_root head value) (v.set_tail t value') s K hole ↔ Hangs m v s K hole :=
  hangs_congr (fun _ _ => rfl) (by rw [node_set_tail])

theorem hangs_sides (hangs : Hangs m v s K hole) : ∀ f ∈ K, f.side = s := by
  induction K generalizing hole with
  | nil => simp
  | cons f K ih =>
    intro g member
    obtain rfl | member := List.mem_cons.mp member
    · exact hangs.1
    · exact ih hangs.2.2.2.2 g member

/-- What has been taken off stands as a tree when something is put in the open end. -/
theorem hangs_plug (hangs : Hangs m v s K (rootOf t)) (stands : Stands m t) :
    v.node.child s = rootOf (plug K t) ∧ Stands m (plug K t) := by
  induction K generalizing t with
  | nil => exact ⟨hangs,stands⟩
  | cons f K ih =>
    obtain ⟨side,near,far,sibling,above⟩ := hangs
    refine ih ?_ ?_
    · rw [Frame.fill,rootOf_bear]
      exact above
    · rw [Frame.fill,side]
      exact stands_bear.mpr ⟨near,far,stands,sibling⟩

theorem perm_before (sides : ∀ f ∈ K, f.side = .right) : (before K).Perm (around K) := by
  induction K with
  | nil => exact List.Perm.refl _
  | cons f K ih =>
    obtain ⟨_,x,sibling⟩ := f
    obtain rfl := sides _ List.mem_cons_self
    have rest := ih fun g member => sides g (List.mem_cons_of_mem _ member)
    rw [before,around,List.append_assoc]
    refine List.perm_append_comm.trans ?_
    rw [List.append_assoc,List.cons_append]
    refine List.perm_middle.trans (List.Perm.cons x ?_)
    rw [List.nil_append]
    exact List.Perm.append_left _ rest

theorem eq_after (sides : ∀ f ∈ K, f.side = .left) : after K = around K := by
  induction K with
  | nil => rfl
  | cons f K ih =>
    obtain ⟨_,x,sibling⟩ := f
    obtain rfl := sides _ List.mem_cons_self
    rw [after,around,ih fun g member => sides g (List.mem_cons_of_mem _ member)]

theorem before_left (sides : ∀ f ∈ K, f.side = .left) : before K = [] := by
  induction K with
  | nil => rfl
  | cons f K ih =>
    obtain ⟨_,x,sibling⟩ := f
    obtain rfl := sides _ List.mem_cons_self
    exact ih fun g member => sides g (List.mem_cons_of_mem _ member)

theorem after_right (sides : ∀ f ∈ K, f.side = .right) : after K = [] := by
  induction K with
  | nil => rfl
  | cons f K ih =>
    obtain ⟨_,x,sibling⟩ := f
    obtain rfl := sides _ List.mem_cons_self
    exact ih fun g member => sides g (List.mem_cons_of_mem _ member)

theorem Only.refl (m : Memory N) (head : Nat) (nodes : List N) : Only m m head nodes := ⟨fun _ _ => rfl,fun _ _ => rfl⟩

theorem Only.trans (first : Only m m' head nodes) (second : Only m' m'' head nodes) : Only m m'' head nodes where
  field := fun z outside => (second.field z outside).trans (first.field z outside)
  root := fun other differ => (second.root other differ).trans (first.root other differ)

theorem Only.mono (only : Only m m' head nodes) (sub : ∀ z ∈ nodes, z ∈ nodes') : Only m m' head nodes' where
  field := fun z outside => only.field z fun there => outside (sub z there)
  root := only.root

/-- The tree of another head does not change. -/
theorem Holds.other {other : Nat} (holds : Holds m other t) (only : Only m m' head nodes) (differ : other ≠ head)
    (disjoint : ∀ z ∈ inorder t, z ∉ nodes) : Holds m' other t where
  root := (only.root other differ).trans holds.root
  stands := (stands_congr fun z there => only.field z (disjoint z there)).mpr holds.stands
  nodup := holds.nodup

theorem only_set_child [DecidableEq N] {value : Option N} (there : z ∈ nodes) : Only m (m.set_child s z value) head nodes where
  field := fun _ outside => field_set_child fun same => outside (same ▸ there)
  root := fun _ _ => rfl

theorem only_set_root [DecidableEq N] {value : Option N} : Only m (m.set_root head value) head nodes where
  field := fun _ _ => rfl
  root := fun other differ => by simp [differ]

end

section
variable {m : Memory N} {v : Locals N} {head : Nat} {s : Side} {x z : N} {t l r : BinaryTree N} {K : Side → List (Frame N)}

theorem Apart.sides (apart : Apart m v head K t) (s : Side) : ∀ f ∈ K s, f.side = s := by
  obtain ⟨hole,hangs⟩ := apart.hangs s
  exact hangs_sides hangs

theorem Apart.perm (apart : Apart m v head K t) : (whole K t).Perm (inorder t ++ (around (K .left) ++ around (K .right))) := by
  rw [whole,eq_after (apart.sides .left),List.append_assoc]
  refine List.perm_append_comm.trans ?_
  rw [List.append_assoc]
  exact List.Perm.append_left _ (List.Perm.append_left _ (perm_before (apart.sides .right)))

/-- No node is in two parts of a splay. -/
theorem Apart.separate (apart : Apart m v head K t) :
    (inorder t).Nodup ∧ (∀ s, (around (K s)).Nodup) ∧ (∀ s, ∀ z ∈ inorder t, z ∉ around (K s)) ∧
      ∀ s, ∀ z ∈ around (K s), z ∉ around (K s.other) := by
  have nodup := apart.perm.nodup_iff.mp apart.nodup
  obtain ⟨here,parts,out⟩ := List.nodup_append.mp nodup
  obtain ⟨left,right,two⟩ := List.nodup_append.mp parts
  refine ⟨here,fun s => ?_,fun s z there there' => ?_,fun s z there there' => ?_⟩
  · cases s with
    | left => exact left
    | right => exact right
  · refine out z there z (List.mem_append.mpr ?_) rfl
    cases s with
    | left => exact .inl there'
    | right => exact .inr there'
  · cases s with
    | left => exact two z there z there' rfl
    | right => exact two z there' z there rfl

theorem Apart.mem_whole (apart : Apart m v head K t) : z ∈ whole K t ↔ z ∈ inorder t ∨ ∃ s, z ∈ around (K s) := by
  rw [apart.perm.mem_iff,List.mem_append,List.mem_append]
  refine or_congr_right ⟨?_,?_⟩
  · rintro (there | there)
    · exact ⟨.left,there⟩
    · exact ⟨.right,there⟩
  · rintro ⟨_ | _,there⟩
    · exact .inl there
    · exact .inr there

theorem nodup_bear : (inorder (bear s x l r)).Nodup ↔
    x ∉ inorder l ∧ x ∉ inorder r ∧ (inorder l).Nodup ∧ (inorder r).Nodup ∧ ∀ z ∈ inorder l, z ∉ inorder r := by
  rw [(perm_bear s x l r).nodup_iff,List.cons_append,List.nodup_cons,List.nodup_append,List.mem_append,not_or]
  constructor
  · rintro ⟨⟨a,b⟩,c,d,e⟩
    exact ⟨a,b,c,d,fun z there there' => e z there z there' rfl⟩
  · rintro ⟨a,b,c,d,e⟩
    refine ⟨⟨a,b⟩,c,d,?_⟩
    rintro z there _ there' rfl
    exact e z there there'

theorem tail_mem {K : List (Frame N)} {z : N} (here : K.head?.map (·.label) = some z) : z ∈ around K := by
  cases K with
  | nil => cases here
  | cons f K =>
    cases here
    simp [around]

/-- A node that is linked stays where it is in order. -/
theorem whole_link (K : Side → List (Frame N)) (s : Side) (x : N) (l r : BinaryTree N) :
    whole (Function.update K s (⟨s,x,r⟩ :: K s)) l = whole K (bear s x l r) := by
  cases s <;> simp [whole,bear,before,after]

end

/-! ### The steps of a splay -/

section
variable [DecidableEq N] {m : Memory N} {v : Locals N} {head : Nat} {s : Side} {x y : N} {K : Side → List (Frame N)}

theorem Apart.rotate {a b c : BinaryTree N} (apart : Apart m v head K (bear s x (bear s y a b) c)) :
    ∃ m', splay_rotate s m head y = .ok m' ∧ Apart m' v head K (bear s y a (bear s x b c)) ∧
      Only m m' head (whole K (bear s x (bear s y a b) c)) := by
  obtain ⟨nodup,-,out,-⟩ := apart.separate
  obtain ⟨xy,xc,nodupY,nodupC,yc⟩ := nodup_bear.mp nodup
  obtain ⟨ya,yb,nodupA,nodupB,ab⟩ := nodup_bear.mp nodupY
  simp only [mem_bear,not_or] at xy yc out
  obtain ⟨xy,xa,xb⟩ := xy
  obtain ⟨nearX,farX,standsY,standsC⟩ := stands_bear.mp apart.stands
  obtain ⟨nearY,farY,standsA,standsB⟩ := stands_bear.mp standsY
  have root : m.sph_root head = some x := apart.root.trans (rootOf_bear _ _ _ _)
  have same : ∀ z, z ≠ x → z ≠ y →
      (((m.set_child s x (rootOf b)).set_child s.other y (some x)).set_root head (some y)).field z = m.field z := by
    intro z zx zy
    rw [field_set_root,field_set_child zy,field_set_child zx]
  have differ : ∀ {z w : N} {l : List N}, z ∈ l → w ∉ l → z ≠ w := by
    rintro z w l there not rfl
    exact not there
  refine ⟨((m.set_child s x (rootOf b)).set_child s.other y (some x)).set_root head (some y),?_,⟨?_,?_,?_,apart.tail,?_⟩,?_⟩
  · simp only [splay_rotate,root,deref,ok_bind,farY]
    rfl
  · simp
  · refine stands_bear.mpr ⟨?_,?_,?_,stands_bear.mpr ⟨?_,?_,?_,?_⟩⟩
    · simp [Ne.symm xy,nearY]
    · simp
    · exact (stands_congr fun z there => same z (differ there xa) (differ there ya)).mpr standsA
    · simp [xy]
    · simp [xy,farX]
    · exact (stands_congr fun z there => same z (differ there xb) (differ there yb)).mpr standsB
    · refine (stands_congr fun z there => same z (differ there xc) ?_).mpr standsC
      rintro rfl
      exact yc z (.inl rfl) there
  · intro t
    obtain ⟨hole,hangs⟩ := apart.hangs t
    refine ⟨hole,(hangs_congr (fun z there => same z ?_ ?_) rfl).mpr hangs⟩
    · rintro rfl
      exact out t z (.inl rfl) there
    · rintro rfl
      exact out t z (.inr (.inl (.inl rfl))) there
  · have order : whole K (bear s y a (bear s x b c)) = whole K (bear s x (bear s y a b) c) := by
      rw [whole,← inorder_rotate,whole]
    rw [order]
    exact apart.nodup
  · have inside : ∀ {z : N}, z = x ∨ z = y → z ∈ whole K (bear s x (bear s y a b) c) := by
      intro z there
      refine apart.mem_whole.mpr (.inl ?_)
      rw [mem_bear,mem_bear]
      tauto
    exact ((only_set_child (inside (.inl rfl))).trans (only_set_child (inside (.inr rfl)))).trans only_set_root

/-- A write at the open end of a part. -/
theorem hangs_set_at {hole value : Option N} {K : List (Frame N)} (hangs : Hangs m v s K hole) (nodup : (around K).Nodup) :
    Hangs (set_at m v (K.head?.map (·.label)) s value).1 (set_at m v (K.head?.map (·.label)) s value).2 s K value := by
  cases K with
  | nil => simp [Hangs,set_at,child_set_entry]
  | cons f K =>
    obtain ⟨side,-,far,sibling,above⟩ := hangs
    rw [around,List.cons_append,List.nodup_cons,List.mem_append,not_or] at nodup
    obtain ⟨⟨outS,outK⟩,-⟩ := nodup
    have differ : ∀ {z : N} {l : List N}, z ∈ l → f.label ∉ l → z ≠ f.label := by
      rintro z l there not rfl
      exact not there
    refine ⟨side,by simp [set_at],by simp [set_at,far],?_,?_⟩
    · exact (stands_congr fun z there => field_set_child (differ there outS)).mpr sibling
    · exact (hangs_congr (fun z there => field_set_child (differ there outK)) rfl).mpr above

/-- What a write at an open end leaves as it is. -/
theorem set_at_other {tmp value : Option N} {z : N} (differ : tmp ≠ some z) : (set_at m v tmp s value).1.field z = m.field z := by
  cases tmp with
  | none => rfl
  | some y => exact field_set_child fun same => differ (congrArg some same.symm)

@[simp] theorem set_at_root {tmp value : Option N} : (set_at m v tmp s value).1.sph_root = m.sph_root := by
  cases tmp <;> rfl

@[simp] theorem set_at_tail {tmp value : Option N} {t : Side} : (set_at m v tmp s value).2.tail t = v.tail t := by
  cases tmp <;> cases t <;> rfl

theorem set_at_node {tmp value : Option N} {t : Side} (differ : t ≠ s) :
    (set_at m v tmp s value).2.node.child t = v.node.child t := by
  cases tmp with
  | none => exact (child_set_entry _ _ _ _).trans (if_neg differ)
  | some y => rfl

/-- A write at an open end changes what is at this end only. -/
theorem hangs_write {holes : Side → Option N} (hangs : ∀ t, Hangs m v t (K t) (holes t)) (nodups : ∀ t, (around (K t)).Nodup)
    (two : ∀ t, ∀ z ∈ around (K t), z ∉ around (K t.other)) (s : Side) (value : Option N) :
    ∃ m' v', set_at m v ((K s).head?.map (·.label)) s value = (m',v') ∧
      (∀ t, Hangs m' v' t (K t) (Function.update holes s value t)) ∧ (∀ z, z ∉ around (K s) → m'.field z = m.field z) ∧
      m'.sph_root = m.sph_root ∧ ∀ t, v'.tail t = v.tail t := by
  refine ⟨_,_,rfl,fun t => ?_,fun z not => set_at_other fun here => not (tail_mem here),set_at_root,fun t => set_at_tail⟩
  by_cases here : t = s
  · subst here
    rw [Function.update_self]
    exact hangs_set_at (hangs t) (nodups t)
  · rw [Function.update_of_ne here]
    refine (hangs_congr (fun z there => set_at_other fun end_ => ?_) (set_at_node here)).mpr (hangs t)
    have := two s z (tail_mem end_)
    rw [← Side.eq_other_of_ne here] at this
    exact this there

theorem Apart.link {l r : BinaryTree N} (apart : Apart m v head K (bear s x l r)) :
    ∃ m' v', splay_link s m v head = .ok (m',v') ∧ Apart m' v' head (Function.update K s (⟨s,x,r⟩ :: K s)) l ∧
      Only m m' head (whole K (bear s x l r)) := by
  obtain ⟨-,nodups,out,two⟩ := apart.separate
  simp only [mem_bear] at out
  obtain ⟨near,far,left,right⟩ := stands_bear.mp apart.stands
  have root : m.sph_root head = some x := apart.root.trans (rootOf_bear _ _ _ _)
  choose holes hangs using apart.hangs
  obtain ⟨m₁,v₁,wrote,hangs₁,same,heads,tails⟩ := hangs_write hangs nodups two s (some x)
  have here : m₁.field x = m.field x := same x (out s x (.inl rfl))
  refine ⟨m₁.set_root head (m₁.child s x),v₁.set_tail s.other (some x),?_,⟨?_,?_,fun t => ?_,fun t => ?_,?_⟩,⟨?_,?_⟩⟩
  · simp only [splay_link,root,deref,ok_bind,apart.tail s,wrote]
    rfl
  · rw [root_set_root,if_pos rfl,child_congr here,near]
  · exact stands_set_root.mpr ((stands_congr fun z there => same z (out s z (.inr (.inl there)))).mpr left)
  · have now := hangs₁ t
    by_cases at_ : t = s
    · subst at_
      rw [Function.update_self] at now ⊢
      refine ⟨rootOf l,rfl,(child_congr here t).trans near,(child_congr here t.other).trans far,?_,hangs_set_tail.mpr now⟩
      exact stands_set_root.mpr ((stands_congr fun z there => same z (out t z (.inr (.inr there)))).mpr right)
    · rw [Function.update_of_ne at_] at now ⊢
      exact ⟨_,hangs_set_tail.mpr now⟩
  · rw [tail_set_tail]
    by_cases at_ : t = s
    · subst at_
      simp
    · have differ : t.other ≠ s.other := fun same => at_ (by simpa using congrArg Side.other same)
      rw [if_neg differ,Function.update_of_ne at_,tails,apart.tail]
  · rw [whole_link]
    exact apart.nodup
  · exact fun z outside => same z fun there => outside (apart.mem_whole.mpr (.inr ⟨s,there⟩))
  · intro other differ
    rw [root_set_root,if_neg differ,heads]

end

end Htools.SplayTree
