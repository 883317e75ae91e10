import Htools.RbTree
import Mathlib.Tactic.Common

/-!
Red-black trees in memory (`hutils/include/hutils/tree.h`). `Holds` says that the
links and colors below a head are those of a tree with a place in it, each of its
nodes once. What the macros do at a place is told by the tree before and after, and
that nothing else changes (`Only`).
-/
namespace Htools.RbTree
open Zippers RedBlack

variable {N : Type}

/-! ### Reads after writes -/

section
variable [DecidableEq N] {m : Memory N} {s s' : Side} {x y : N} {value : Option N} {c : Color}

@[simp] theorem child_set_child :
    (m.set_child s x value).child s' y = if y = x ∧ s' = s then value else m.child s' y := by
  by_cases same : y = x
  · subst same
    cases s <;> cases s' <;> simp [Memory.set_child,Memory.child]
  · cases s <;> cases s' <;> simp [Memory.set_child,Memory.child,Function.update_of_ne,same]

@[simp] theorem parent_set_child : (m.set_child s x value).parent y = m.parent y := by
  by_cases same : y = x
  · subst same
    cases s <;> simp [Memory.set_child,Memory.parent]
  · simp [Memory.set_child,Memory.parent,Function.update_of_ne,same]

@[simp] theorem color_set_child : (m.set_child s x value).color y = m.color y := by
  by_cases same : y = x
  · subst same
    cases s <;> simp [Memory.set_child,Memory.color]
  · simp [Memory.set_child,Memory.color,Function.update_of_ne,same]

@[simp] theorem root_set_child : (m.set_child s x value).rbh_root = m.rbh_root := rfl

theorem field_set_child (differ : y ≠ x) : (m.set_child s x value).field y = m.field y :=
  Function.update_of_ne differ _ _

@[simp] theorem child_set_parent : (m.set_parent x value).child s y = m.child s y := by
  by_cases same : y = x
  · subst same
    cases s <;> simp [Memory.set_parent,Memory.child]
  · cases s <;> simp [Memory.set_parent,Memory.child,Function.update_of_ne,same]

@[simp] theorem parent_set_parent : (m.set_parent x value).parent y = if y = x then value else m.parent y := by
  by_cases same : y = x
  · subst same
    simp [Memory.set_parent,Memory.parent]
  · simp [Memory.set_parent,Memory.parent,Function.update_of_ne,same]

@[simp] theorem color_set_parent : (m.set_parent x value).color y = m.color y := by
  by_cases same : y = x
  · subst same
    simp [Memory.set_parent,Memory.color]
  · simp [Memory.set_parent,Memory.color,Function.update_of_ne,same]

@[simp] theorem root_set_parent : (m.set_parent x value).rbh_root = m.rbh_root := rfl

theorem field_set_parent (differ : y ≠ x) : (m.set_parent x value).field y = m.field y :=
  Function.update_of_ne differ _ _

@[simp] theorem child_set_color : (m.set_color x c).child s y = m.child s y := by
  by_cases same : y = x
  · subst same
    cases s <;> simp [Memory.set_color,Memory.child]
  · cases s <;> simp [Memory.set_color,Memory.child,Function.update_of_ne,same]

@[simp] theorem parent_set_color : (m.set_color x c).parent y = m.parent y := by
  by_cases same : y = x
  · subst same
    simp [Memory.set_color,Memory.parent]
  · simp [Memory.set_color,Memory.parent,Function.update_of_ne,same]

@[simp] theorem color_set_color : (m.set_color x c).color y = if y = x then c else m.color y := by
  by_cases same : y = x
  · subst same
    simp [Memory.set_color,Memory.color]
  · simp [Memory.set_color,Memory.color,Function.update_of_ne,same]

@[simp] theorem root_set_color : (m.set_color x c).rbh_root = m.rbh_root := rfl

theorem field_set_color (differ : y ≠ x) : (m.set_color x c).field y = m.field y :=
  Function.update_of_ne differ _ _

end

@[simp] theorem field_set_root {m : Memory N} {head : Nat} {value : Option N} : (m.set_root head value).field = m.field := rfl

@[simp] theorem root_set_root {m : Memory N} {head head' : Nat} {value : Option N} :
    (m.set_root head value).rbh_root head' = if head' = head then value else m.rbh_root head' := by
  simp [Memory.set_root,Function.update_apply]

/-! ### Trees in memory -/

/-- The pointer to a tree. -/
def ptr (t : Colored N) : Option N := (rootOf t).map Prod.snd

/-- The node above a place. -/
def up (K : List (Frame (Color × N))) : Option N := K.head?.map fun f => f.label.2

/-- The nodes outside of a place. -/
def keysAround (K : List (Frame (Color × N))) : List N := (around K).map Prod.snd

/-- The entry of a node has the links and the color that it has in a tree. -/
structure Linked (m : Memory N) (s : Side) (x : Color × N) (near far parent : Option N) : Prop where
  near : m.child s x.2 = near
  far : m.child s.other x.2 = far
  parent : m.parent x.2 = parent
  color : m.color x.2 = x.1

/-- A tree stands in memory below a parent. -/
def Stands (m : Memory N) : Option N → Colored N → Prop
  | _,.nil => True
  | parent,.node x l r => Linked m .left x (ptr l) (ptr r) parent ∧ Stands m (some x.2) l ∧ Stands m (some x.2) r

/-- The nodes outside of a place stand in memory, with a pointer in the place. -/
def Around (m : Memory N) (head : Nat) : List (Frame (Color × N)) → Option N → Prop
  | [],hole => m.rbh_root head = hole
  | f :: K,hole => Linked m f.side f.label hole (ptr f.sibling) (up K) ∧ Stands m (some f.label.2) f.sibling ∧
      Around m head K (some f.label.2)

/-- The tree of a head, with a place in it. -/
structure Holds (m : Memory N) (head : Nat) (K : List (Frame (Color × N))) (t : Colored N) : Prop where
  around : Around m head K (ptr t)
  stands : Stands m (up K) t
  nodup : (keys (plug K t)).Nodup

/-- Only the root of the head and the entries of some nodes differ. -/
structure Only (m m' : Memory N) (head : Nat) (nodes : List N) : Prop where
  field : ∀ z, z ∉ nodes → m'.field z = m.field z
  root : ∀ other, other ≠ head → m'.rbh_root other = m.rbh_root other

section
variable {m m' m'' : Memory N} {head : Nat} {s : Side} {x : Color × N} {a b hole parent : Option N}
  {t l r : Colored N} {K : List (Frame (Color × N))} {f : Frame (Color × N)} {nodes nodes' : List N}

@[simp] theorem ptr_nil : ptr (.nil : Colored N) = none := rfl

@[simp] theorem ptr_bear (s : Side) (x : Color × N) (l r : Colored N) : ptr (bear s x l r) = some x.2 := by
  simp [ptr]

@[simp] theorem ptr_node (x : Color × N) (l r : Colored N) : ptr (.node x l r) = some x.2 := rfl

@[simp] theorem ptr_fill (f : Frame (Color × N)) (t : Colored N) : ptr (f.fill t) = some f.label.2 := ptr_bear _ _ _ _

@[simp] theorem up_nil : up ([] : List (Frame (Color × N))) = none := rfl

@[simp] theorem up_cons (f : Frame (Color × N)) (K : List (Frame (Color × N))) : up (f :: K) = some f.label.2 := rfl

theorem mem_keys_bear {z : N} : z ∈ keys (bear s x l r) ↔ z = x.2 ∨ z ∈ keys l ∨ z ∈ keys r := by
  cases s <;> simp [bear] <;> tauto

theorem mem_keysAround_cons {z : N} : z ∈ keysAround (f :: K) ↔ z = f.label.2 ∨ z ∈ keys f.sibling ∨ z ∈ keysAround K := by
  simp [keysAround,around,keys]

theorem mem_keysAround_append {K' : List (Frame (Color × N))} {z : N} :
    z ∈ keysAround (K ++ K') ↔ z ∈ keysAround K ∨ z ∈ keysAround K' := by
  rw [keysAround,around_append,List.map_append,List.mem_append]
  rfl

theorem perm_keys_plug (K : List (Frame (Color × N))) (t : Colored N) :
    (keys (plug K t)).Perm (keys t ++ keysAround K) := by
  rw [keys,keys,keysAround,← List.map_append]
  exact (perm_plug K t).map Prod.snd

theorem mem_keys_plug {z : N} : z ∈ keys (plug K t) ↔ z ∈ keys t ∨ z ∈ keysAround K := by
  rw [(perm_keys_plug K t).mem_iff,List.mem_append]

theorem ptr_mem {z : N} (here : ptr t = some z) : z ∈ keys t := by
  cases t with
  | nil => cases here
  | node y l r =>
    cases here
    simp

theorem up_mem {z : N} (here : up K = some z) : z ∈ keysAround K := by
  cases K with
  | nil => cases here
  | cons f K =>
    cases here
    rw [mem_keysAround_cons]
    exact .inl rfl

theorem nodup_bear : (keys (bear s x l r)).Nodup ↔
    x.2 ∉ keys l ∧ x.2 ∉ keys r ∧ (keys l).Nodup ∧ (keys r).Nodup ∧ ∀ z ∈ keys l, z ∉ keys r := by
  have perm : (keys (bear s x l r)).Perm (x.2 :: keys l ++ keys r) := by
    simpa [keys] using (perm_bear s x l r).map Prod.snd
  rw [perm.nodup_iff,List.cons_append,List.nodup_cons,List.nodup_append,List.mem_append,not_or]
  constructor
  · rintro ⟨⟨a,b⟩,c,d,e⟩
    exact ⟨a,b,c,d,fun z there there' => e z there z there' rfl⟩
  · rintro ⟨a,b,c,d,e⟩
    refine ⟨⟨a,b⟩,c,d,?_⟩
    rintro z there _ there' rfl
    exact e z there there'

theorem Linked.other (linked : Linked m s x a b parent) : Linked m s.other x b a parent :=
  ⟨linked.far,by rw [Side.other_other]; exact linked.near,linked.parent,linked.color⟩

theorem linked_other_iff : Linked m s.other x b a parent ↔ Linked m s x a b parent := by
  refine ⟨fun linked => ?_,Linked.other⟩
  have again := linked.other
  rwa [Side.other_other] at again

theorem linked_congr (same : m'.field x.2 = m.field x.2) :
    Linked m' s x a b parent ↔ Linked m s x a b parent := by
  have child : ∀ s, m'.child s x.2 = m.child s x.2 := fun s => by
    cases s <;> simp [Memory.child,same]
  constructor
  · rintro ⟨a,b,c,d⟩
    exact ⟨child s ▸ a,child s.other ▸ b,by rw [Memory.parent,← same]; exact c,by rw [Memory.color,← same]; exact d⟩
  · rintro ⟨a,b,c,d⟩
    exact ⟨(child s).trans a,(child s.other).trans b,by rw [Memory.parent,same]; exact c,by rw [Memory.color,same]; exact d⟩

theorem stands_bear : Stands m parent (bear s x l r) ↔
    Linked m s x (ptr l) (ptr r) parent ∧ Stands m (some x.2) l ∧ Stands m (some x.2) r := by
  cases s with
  | left => rfl
  | right =>
    rw [← linked_other_iff]
    exact and_congr_right fun _ => and_comm

theorem stands_congr (same : ∀ z ∈ keys t, m'.field z = m.field z) : Stands m' parent t ↔ Stands m parent t := by
  induction t generalizing parent with
  | nil => rfl
  | node x l r ihl ihr =>
    rw [keys_node] at same
    rw [Stands,Stands,linked_congr (same x.2 (by simp)),ihl fun z there => same z (by simp [there]),
      ihr fun z there => same z (by simp [there])]

theorem around_congr (same : ∀ z ∈ keysAround K, m'.field z = m.field z) (root : m'.rbh_root head = m.rbh_root head) :
    Around m' head K hole ↔ Around m head K hole := by
  induction K generalizing hole with
  | nil => rw [Around,Around,root]
  | cons f K ih =>
    rw [Around,Around,linked_congr (same _ (mem_keysAround_cons.mpr (.inl rfl))),
      stands_congr fun z there => same z (mem_keysAround_cons.mpr (.inr (.inl there))),
      ih fun z there => same z (mem_keysAround_cons.mpr (.inr (.inr there)))]

/-- The place may be moved up and down. -/
theorem holds_cons_iff : Holds m head (f :: K) t ↔ Holds m head K (f.fill t) := by
  constructor
  · rintro ⟨⟨linked,sibling,above⟩,stands,nodup⟩
    exact ⟨by rwa [ptr_fill],stands_bear.mpr ⟨linked,stands,sibling⟩,nodup⟩
  · rintro ⟨above,stands,nodup⟩
    rw [ptr_fill] at above
    obtain ⟨linked,below,sibling⟩ := stands_bear.mp stands
    exact ⟨⟨linked,sibling,above⟩,below,nodup⟩

theorem Holds.near (holds : Holds m head K (bear s x l r)) : Holds m head (⟨s,x,r⟩ :: K) l := by
  rw [holds_cons_iff]
  exact holds

theorem Holds.far (holds : Holds m head K (bear s x l r)) : Holds m head (⟨s.other,x,l⟩ :: K) r := by
  rw [← bear_other] at holds
  rw [holds_cons_iff]
  exact holds

theorem Holds.whole (holds : Holds m head K t) : Holds m head [] (plug K t) := by
  induction K generalizing t with
  | nil => exact holds
  | cons f K ih =>
    rw [holds_cons_iff] at holds
    exact ih holds

theorem holds_append_iff {K' : List (Frame (Color × N))} : Holds m head (K ++ K') t ↔ Holds m head K' (plug K t) := by
  induction K generalizing t with
  | nil => rfl
  | cons f K ih => rw [List.cons_append,holds_cons_iff,ih]; rfl

theorem holds_plug_iff : Holds m head [] (plug K t) ↔ Holds m head K t := by
  rw [← holds_append_iff,List.append_nil]

theorem Holds.linked (holds : Holds m head K (bear s x l r)) : Linked m s x (ptr l) (ptr r) (up K) := by
  have stands := holds.stands
  rw [stands_bear] at stands
  exact stands.1

/-- The nodes of a place are once in it and not outside of it. -/
theorem Holds.apart (holds : Holds m head K t) : (keys t).Nodup ∧ ∀ z ∈ keys t, z ∉ keysAround K := by
  have nodup := (perm_keys_plug K t).nodup_iff.mp holds.nodup
  obtain ⟨here,-,apart⟩ := List.nodup_append.mp nodup
  exact ⟨here,fun z there there' => apart z there z there' rfl⟩

theorem Holds.nodup_around (holds : Holds m head K t) : (keysAround K).Nodup :=
  (List.nodup_append.mp ((perm_keys_plug K t).nodup_iff.mp holds.nodup)).2.1

theorem nodup_keysAround_cons : (keysAround (f :: K)).Nodup ↔
    f.label.2 ∉ keys f.sibling ∧ f.label.2 ∉ keysAround K ∧ (keys f.sibling).Nodup ∧ (keysAround K).Nodup ∧
      ∀ z ∈ keys f.sibling, z ∉ keysAround K := by
  have split : keysAround (f :: K) = f.label.2 :: (keys f.sibling ++ keysAround K) := by
    simp [keysAround,around,keys]
  rw [split,List.nodup_cons,List.mem_append,not_or,List.nodup_append]
  constructor
  · rintro ⟨⟨a,b⟩,c,d,e⟩
    exact ⟨a,b,c,d,fun z there there' => e z there z there' rfl⟩
  · rintro ⟨a,b,c,d,e⟩
    refine ⟨⟨a,b⟩,c,d,?_⟩
    rintro z there _ there' rfl
    exact e z there there'

theorem Holds.congr (holds : Holds m head K t) (same : ∀ z ∈ keys (plug K t), m'.field z = m.field z)
    (root : m'.rbh_root head = m.rbh_root head) : Holds m' head K t where
  around := (around_congr (fun z there => same z (mem_keys_plug.mpr (.inr there))) root).mpr holds.around
  stands := (stands_congr fun z there => same z (mem_keys_plug.mpr (.inl there))).mpr holds.stands
  nodup := holds.nodup

theorem Only.refl (m : Memory N) (head : Nat) (nodes : List N) : Only m m head nodes := ⟨fun _ _ => rfl,fun _ _ => rfl⟩

theorem Only.trans (first : Only m m' head nodes) (second : Only m' m'' head nodes) : Only m m'' head nodes where
  field := fun z outside => (second.field z outside).trans (first.field z outside)
  root := fun other differ => (second.root other differ).trans (first.root other differ)

theorem Only.mono (only : Only m m' head nodes) (sub : ∀ z ∈ nodes, z ∈ nodes') : Only m m' head nodes' where
  field := fun z outside => only.field z fun there => outside (sub z there)
  root := only.root

/-- The tree of another head does not change. -/
theorem Holds.other {other : Nat} (holds : Holds m other K t) (only : Only m m' head nodes) (differ : other ≠ head)
    (disjoint : ∀ z ∈ keys (plug K t), z ∉ nodes) : Holds m' other K t :=
  holds.congr (fun z there => only.field z (disjoint z there)) (only.root other differ)

/-- The color that a pointer leads to, where red has to be seen. -/
theorem reds_ptr {parent : Option N} (stands : Stands m parent t) :
    reds m (ptr t) = if colorOf t = .red then ptr t else none := by
  cases t with
  | nil => rfl
  | node x l r =>
    have color : m.color x.2 = x.1 := stands.1.color
    simp only [reds,ptr_node,Option.filter,color,colorOf_node,decide_eq_true_eq]
    by_cases red : x.1 = .red <;> simp [red]

theorem reds_eq_none_iff {parent : Option N} (stands : Stands m parent t) : reds m (ptr t) = none ↔ colorOf t = .black := by
  rw [reds_ptr stands]
  cases t with
  | nil => simp
  | node x l r =>
    obtain ⟨_ | _,y⟩ := x <;> simp

end

end Htools.RbTree
