import Htools.RbUpdate
import Htools.Runs
import Htools.OrderedSets

/-!
Runs of the red-black tree macros of `hutils/include/hutils/tree.h` on any number of
trees. Each call does to the tree in memory what it is meant to do to the ordered set
of its nodes, and returns the same node (`rb_runs`).
-/
namespace Htools.RbTree
open Zippers RedBlack Runs OrderedSets
open TailqSort (Comparison)

/-- What a program sees: the memory, and the nodes that the calls have returned. -/
structure Program (N : Type) where
  memory : Memory N
  results : List (Option N)

variable {N : Type} [DecidableEq N] (cmp : N → N → Int)

def step (fuel : Nat) (p : Program N) : Op N → Except Stop (Program N)
  | .insert head elm => do
    let (m,res) ← rb_insert cmp fuel head p.memory elm
    return ⟨m,p.results ++ [res]⟩
  | .remove head elm => do
    let (m,res) ← rb_remove fuel head p.memory elm
    return ⟨m,p.results ++ [some res]⟩
  | .find head elm => do return ⟨p.memory,p.results ++ [← rb_find cmp fuel head p.memory elm]⟩
  | .nfind head elm => do return ⟨p.memory,p.results ++ [← rb_nfind cmp fuel head p.memory elm]⟩
  | .min head => do return ⟨p.memory,p.results ++ [← rb_min fuel head p.memory]⟩
  | .max head => do return ⟨p.memory,p.results ++ [← rb_max fuel head p.memory]⟩
  | .next _ elm => do return ⟨p.memory,p.results ++ [← rb_next fuel p.memory elm]⟩
  | .prev _ elm => do return ⟨p.memory,p.results ++ [← rb_prev fuel p.memory elm]⟩

/-- The trees in memory are red-black trees with the nodes of the lists. -/
structure Stored (n : Nat) (m : Memory N) (nodes : Nat → List N) : Prop extends Kept cmp n nodes where
  tree : ∀ head, ∃ t, Holds m head [] t ∧ RedBlackTree t ∧ keys t = nodes head

section
variable {cmp} {n fuel : Nat} {m : Memory N} {nodes : Nat → List N} {l A B : List N} {elm z : N}

section
omit [DecidableEq N]

/-- What a search ends at is the node that compares equal. -/
theorem descend_find {t : Colored N} (guides : Guides (cmp elm) (keys t)) :
    ptr (descend (fun x => cmp elm x.2) [] t).2 = (keys t).find? fun y => cmp elm y = 0 := by
  obtain ⟨A,B,split,-,-,before_,after_⟩ := descend_splits (guides_keys.mpr guides)
  have positive : ∀ y ∈ A.map Prod.snd, decide (cmp elm y = 0) = false := by
    intro y member
    obtain ⟨x,there,rfl⟩ := List.mem_map.mp member
    have := before_ x there
    exact decide_eq_false (by omega)
  have negative : ∀ y ∈ B.map Prod.snd, decide (cmp elm y = 0) = false := by
    intro y member
    obtain ⟨x,there,rfl⟩ := List.mem_map.mp member
    have := after_ x there
    exact decide_eq_false (by omega)
  have nodes : keys t = A.map Prod.snd ++ keys (descend (fun x : Color × N => cmp elm x.2) [] t).2 ++ B.map Prod.snd := by
    rw [keys,split]
    simp [keys]
  rw [nodes] at guides
  rw [nodes,List.find?_append,List.find?_append,find_none positive,find_none negative]
  have end_ : (descend (fun x : Color × N => cmp elm x.2) [] t).2 = .nil ∨ _ := descend_end [] t
  obtain nil | ⟨x,l,r,at_,equal⟩ := end_
  · rw [nil]
    rfl
  · rw [at_] at guides ⊢
    have less : ∀ y ∈ keys l, decide (cmp elm y = 0) = false := by
      intro y member
      have inner := (List.pairwise_append.mp (List.pairwise_append.mp guides).1).2.1
      rw [keys_node] at inner
      have := (List.pairwise_append.mp inner).2.2 y member x.2 List.mem_cons_self
      exact decide_eq_false (by omega)
    rw [keys_node,List.find?_append,find_none less,List.find?_cons,decide_eq_true equal]
    rfl

/-- All heads after `RB_INIT`. -/
def rb_init (field : N → Entry N) : Memory N := ⟨fun _ => none,field⟩

theorem init_stored (field : N → Entry N) : Stored cmp n (rb_init field) (fun _ => []) where
  tree := fun _ => ⟨.nil,⟨rfl,trivial,List.nodup_nil⟩,⟨0,.nil⟩,rfl⟩
  toKept := kept_init

/-! ### One call -/

theorem Stored.low (stored : Stored cmp n m nodes) {head : Nat} {t : Colored N} (tree : RedBlackTree t) (same : keys t = nodes head)
    (enough : 2 * Nat.log 2 (n + 1) ≤ fuel) : t.height ≤ fuel := by
  have few := stored.few head
  rw [← same,length_keys] at few
  have more : Nat.log 2 (t.numNodes + 1) ≤ Nat.log 2 (n + 1) := Nat.log_mono_right (by omega)
  have := tree.height_le
  omega

/-- A call that changes one tree. -/
theorem Stored.update (stored : Stored cmp n m nodes) {head : Nat} {m' : Memory N} {t' : Colored N} {changed : List N}
    (holds : Holds m' head [] t') (tree : RedBlackTree t') (only : Only m m' head changed)
    (outside : ∀ other, other ≠ head → ∀ z ∈ changed, z ∉ nodes other)
    (kept : Kept cmp n (Function.update nodes head (keys t'))) : Stored cmp n m' (Function.update nodes head (keys t')) where
  toKept := kept
  tree := fun other => by
    by_cases same : other = head
    · subst same
      exact ⟨t',holds,tree,by rw [Function.update_self]⟩
    · obtain ⟨t,there,red,is⟩ := stored.tree other
      rw [Function.update_of_ne same]
      refine ⟨t,there.other only same fun z member member' => ?_,red,is⟩
      exact outside other same z member' (is ▸ member)

end

theorem insert_stored (order : Comparison cmp) (stored : Stored cmp n m nodes) (enough : 2 * Nat.log 2 (n + 1) ≤ fuel) {head : Nat}
    (elsewhere : ∀ other, other ≠ head → elm ∉ nodes other) (room : (nodes head).length < n) :
    ∃ m', rb_insert cmp fuel head m elm = .ok (m',(set_insert cmp (nodes head) elm).2) ∧
      Stored cmp n m' (Function.update nodes head (set_insert cmp (nodes head) elm).1) := by
  obtain ⟨t,holds,tree,same⟩ := stored.tree head
  have low := stored.low tree same enough
  have guides : Guides (cmp elm) (keys t) := same ▸ ordered_guides order (stored.ordered head) elm
  have search := descend_find guides
  rw [same] at search
  rw [set_insert]
  cases found : (nodes head).find? fun y => cmp elm y = 0 with
  | some y =>
    refine ⟨m,rb_insert_found holds low (search.trans found),?_⟩
    simp only [Function.update_eq_self]
    exact stored
  | none =>
    have fresh : elm ∉ keys t := fun there => by
      have not := List.find?_eq_none.mp found elm (same ▸ there)
      exact not (decide_eq_true (cmp_self order elm))
    rw [found,ptr,Option.map_eq_none_iff,rootOf_eq_none_iff] at search
    obtain ⟨m',t',run,holds',tree',only,keys'⟩ := rb_insert_new holds tree low fresh search
    obtain ⟨A,B,split,rfl,rfl,above,below⟩ := descend_splits (guides_keys.mpr guides)
    have above : ∀ a ∈ (before (descend (fun x : Color × N => cmp elm x.2) [] t).1).map Prod.snd, 0 < cmp elm a := by
      intro a member
      obtain ⟨x,there,rfl⟩ := List.mem_map.mp member
      exact above x there
    have below : ∀ b ∈ (after (descend (fun x : Color × N => cmp elm x.2) [] t).1).map Prod.snd, cmp elm b < 0 := by
      intro b member
      obtain ⟨x,there,rfl⟩ := List.mem_map.mp member
      exact below x there
    rw [search] at split
    have nodesAre : nodes head = (before (descend (fun x : Color × N => cmp elm x.2) [] t).1).map Prod.snd ++
        (after (descend (fun x : Color × N => cmp elm x.2) [] t).1).map Prod.snd := by
      rw [← same,keys,split]
      simp
    have inserted := orderedInsert_between above below
    rw [← nodesAre,← keys'] at inserted
    have kept := stored.toKept.insert order elsewhere room
    rw [set_insert,found] at kept
    simp only [inserted] at kept
    refine ⟨m',run,?_⟩
    simp only [inserted]
    refine stored.update holds' tree' only ?_ kept
    intro other differ z member
    obtain rfl | member := List.mem_cons.mp member
    · exact elsewhere other differ
    · exact stored.apart head other (Ne.symm differ) z (same ▸ member)

theorem remove_stored (order : Comparison cmp) (stored : Stored cmp n m nodes) (enough : 2 * Nat.log 2 (n + 1) ≤ fuel) {head : Nat}
    (there : elm ∈ nodes head) :
    ∃ m', rb_remove fuel head m elm = .ok (m',elm) ∧ Stored cmp n m' (Function.update nodes head ((nodes head).erase elm)) := by
  obtain ⟨t,holds,tree,same⟩ := stored.tree head
  have low := stored.low tree same enough
  have nodup := ordered_nodup order (stored.ordered head)
  obtain ⟨K,c,l,r,rfl⟩ := exists_place_of_key .left (same ▸ there)
  obtain ⟨m',t',run,holds',tree',keys',only⟩ := rb_remove_ok (holds_plug_iff.mp holds) tree low
  have split : nodes head = ((before K).map Prod.snd ++ keys l) ++ elm :: (keys r ++ (after K).map Prod.snd) := by
    rw [← same,keys_plug]
    simp [bear]
  have erased : (nodes head).erase elm = keys t' := by
    rw [split] at nodup ⊢
    obtain ⟨-,back,apart⟩ := List.nodup_append.mp nodup
    rw [List.erase_append_right,List.erase_cons_head,keys']
    · simp
    · exact fun member => apart elm member elm List.mem_cons_self rfl
  refine ⟨m',run,?_⟩
  have kept := stored.toKept.erase head elm
  rw [erased] at kept ⊢
  refine stored.update holds' tree' only ?_ kept
  intro other differ z member
  exact stored.apart head other (Ne.symm differ) z (same ▸ member)

theorem rb_next_stored (order : Comparison cmp) (stored : Stored cmp n m nodes) (enough : 2 * Nat.log 2 (n + 1) ≤ fuel) {head : Nat}
    (there : elm ∈ nodes head) :
    rb_next fuel m elm = .ok ((nodes head).find? fun y => cmp elm y < 0) ∧
      rb_prev fuel m elm = .ok ((nodes head).reverse.find? fun y => cmp elm y > 0) := by
  obtain ⟨t,holds,tree,same⟩ := stored.tree head
  have low := stored.low tree same enough
  obtain ⟨A,B,split⟩ := List.append_of_mem there
  have ordered := stored.ordered head
  rw [split] at ordered ⊢
  rw [find_next order ordered,find_prev order ordered]
  refine ⟨rb_step_split (s := .right) holds low (same.trans split),?_⟩
  have back : onward .left (keys t) = B.reverse ++ elm :: A.reverse := by
    rw [same,split]
    simp [onward]
  rw [rb_prev,rb_step_split holds low back,List.head?_reverse]

/-! ### Runs -/

theorem step_ok (order : Comparison cmp) (enough : 2 * Nat.log 2 (n + 1) ≤ fuel) (p : Program N) (s : Sets N) (op : Op N)
    (held : Stored cmp n p.memory s.nodes ∧ p.results = s.results) (allowed : Allowed n s op) :
    ∃ q, step cmp fuel p op = .ok q ∧ Stored cmp n q.memory (meant cmp s op).nodes ∧ q.results = (meant cmp s op).results := by
  obtain ⟨stored,same⟩ := held
  have kept : ∀ head, Stored cmp n p.memory (Function.update s.nodes head (s.nodes head)) := fun head => by
    rw [Function.update_eq_self]
    exact stored
  have whole : ∀ head, ∃ t, Holds p.memory head [] t ∧ t.height ≤ fuel ∧ keys t = s.nodes head := fun head => by
    obtain ⟨t,holds,tree,is⟩ := stored.tree head
    exact ⟨t,holds,stored.low tree is enough,is⟩
  cases op with
  | insert head elm =>
    obtain ⟨m',run,stored'⟩ := insert_stored order stored enough allowed.1 allowed.2
    exact ⟨_,by rw [step,run]; rfl,stored',congrArg (· ++ _) same⟩
  | remove head elm =>
    obtain ⟨m',run,stored'⟩ := remove_stored order stored enough allowed
    exact ⟨_,by rw [step,run]; rfl,stored',congrArg (· ++ _) same⟩
  | find head elm =>
    obtain ⟨t,holds,low,is⟩ := whole head
    have root : p.memory.rbh_root head = ptr t := holds.around
    have guides := ordered_guides order (stored.ordered head) elm
    have run : rb_find cmp fuel head p.memory elm = .ok ((s.nodes head).find? fun y => cmp elm y = 0) := by
      rw [rb_find,root,@find_from_ok _ _ _ [] _ _ cmp elm holds.stands low,descend_find (is ▸ guides),is]
    exact ⟨⟨p.memory,p.results ++ [_]⟩,by rw [step,run]; rfl,kept head,congrArg (· ++ [_]) same⟩
  | nfind head elm =>
    obtain ⟨t,holds,low,is⟩ := whole head
    have root : p.memory.rbh_root head = ptr t := holds.around
    have guides := ordered_guides order (stored.ordered head) elm
    have run : rb_nfind cmp fuel head p.memory elm = .ok ((s.nodes head).find? fun y => cmp elm y ≤ 0) := by
      rw [rb_nfind,root,nfind_from_ok holds.stands low (is ▸ guides),is,Option.or_none]
    exact ⟨⟨p.memory,p.results ++ [_]⟩,by rw [step,run]; rfl,kept head,congrArg (· ++ [_]) same⟩
  | min head =>
    obtain ⟨t,holds,low,is⟩ := whole head
    have run : rb_min fuel head p.memory = .ok (s.nodes head).head? := by
      rw [rb_min,rb_minmax_ok (s := .right) rfl holds low,is]
      rfl
    exact ⟨⟨p.memory,p.results ++ [_]⟩,by rw [step,run]; rfl,kept head,congrArg (· ++ [_]) same⟩
  | max head =>
    obtain ⟨t,holds,low,is⟩ := whole head
    have run : rb_max fuel head p.memory = .ok (s.nodes head).getLast? := by
      rw [rb_max,rb_minmax_ok (s := .left) rfl holds low,is]
      exact congrArg Except.ok List.head?_reverse
    exact ⟨⟨p.memory,p.results ++ [_]⟩,by rw [step,run]; rfl,kept head,congrArg (· ++ [_]) same⟩
  | next head elm =>
    obtain ⟨run,-⟩ := rb_next_stored order stored enough allowed
    exact ⟨⟨p.memory,p.results ++ [_]⟩,by rw [step,run]; rfl,kept head,congrArg (· ++ [_]) same⟩
  | prev head elm =>
    obtain ⟨-,run⟩ := rb_next_stored order stored enough allowed
    exact ⟨⟨p.memory,p.results ++ [_]⟩,by rw [step,run]; rfl,kept head,congrArg (· ++ [_]) same⟩

/-! ### What the tree is like -/

section
omit [DecidableEq N]

/-- The pointer at the end of a way down. -/
def follow (m : Memory N) : Option N → List Side → Option N
  | elm,[] => elm
  | none,_ :: _ => none
  | some elm,s :: way => follow m (m.child s elm) way

/-- The nodes that a way down leaves, up to a null pointer. -/
def passed (m : Memory N) : Option N → List Side → List N
  | some elm,s :: way => elm :: passed m (m.child s elm) way
  | _,_ => []

theorem follow_none (way : List Side) : follow m none way = none := by
  cases way <;> rfl

theorem child_ptr {parent : Option N} {x : Color × N} {l r : Colored N} (stands : Stands m parent (.node x l r)) (s : Side) :
    ∃ t, m.child s x.2 = ptr t ∧ (t = l ∨ t = r) := by
  cases s with
  | left => exact ⟨l,stands.1.near,.inl rfl⟩
  | right => exact ⟨r,stands.1.far,.inr rfl⟩

theorem way_short {parent : Option N} {t : Colored N} (stands : Stands m parent t) {way : List Side}
    (there : follow m (ptr t) way = some z) : way.length < t.height := by
  induction t generalizing parent way with
  | nil =>
    rw [ptr_nil,follow_none] at there
    cases there
  | node x l r ihl ihr =>
    cases way with
    | nil => simp
    | cons s way =>
      have turn := stands.1
      rw [ptr_node,follow] at there
      simp only [List.length_cons,BinaryTree.height]
      cases s with
      | left =>
        rw [turn.near] at there
        have := ihl stands.2.1 there
        omega
      | right =>
        rw [show m.child .right x.2 = ptr r from turn.far] at there
        have := ihr stands.2.2 there
        omega

/-- All ways down to a null pointer pass as many black nodes. -/
theorem way_blacks {parent : Option N} {t : Colored N} {c : Color} {k : Nat} (stands : Stands m parent t) (balanced : Balanced t c k)
    {way : List Side} (leaf : follow m (ptr t) way = none) : ((passed m (ptr t) way).countP fun y => m.color y = .black) = k := by
  induction balanced generalizing parent way with
  | nil => cases way <;> rfl
  | @red x l r k left right ihl ihr =>
    cases way with
    | nil => cases leaf
    | cons s way =>
      have color : m.color x = .red := stands.1.color
      have read : m.child s x = ptr (side s (.node (Color.red,x) l r)) := by cases s; exact stands.1.near; exact stands.1.far
      rw [ptr_node,follow,read] at leaf
      rw [ptr_node,passed,read,List.countP_cons_of_neg (by simp [color])]
      cases s with
      | left => exact ihl stands.2.1 leaf
      | right => exact ihr stands.2.2 leaf
  | @black x l r c d k left right ihl ihr =>
    cases way with
    | nil => cases leaf
    | cons s way =>
      have color : m.color x = .black := stands.1.color
      have read : m.child s x = ptr (side s (.node (Color.black,x) l r)) := by cases s; exact stands.1.near; exact stands.1.far
      rw [ptr_node,follow,read] at leaf
      rw [ptr_node,passed,read,List.countP_cons_of_pos (by simp [color])]
      congr 1
      cases s with
      | left => exact ihl stands.2.1 leaf
      | right => exact ihr stands.2.2 leaf

/-- A red node has a black parent, at any place of a red-black tree. -/
theorem red_below {parent : Option N} {t : Colored N} {c : Color} {k : Nat} (stands : Stands m parent t) (balanced : Balanced t c k)
    {way : List Side} (there : follow m (ptr t) way = some z) (red : m.color z = .red) :
    (c = .red ∧ ptr t = some z) ∨ ∃ p, m.parent z = some p ∧ m.color p = .black := by
  induction balanced generalizing parent way with
  | nil =>
    rw [ptr_nil,follow_none] at there
    cases there
  | @red x l r k left right ihl ihr =>
    cases way with
    | nil => exact .inl ⟨rfl,there⟩
    | cons s way =>
      have read : m.child s x = ptr (side s (.node (Color.red,x) l r)) := by cases s; exact stands.1.near; exact stands.1.far
      rw [ptr_node,follow,read] at there
      cases s with
      | left => exact (ihl stands.2.1 there).elim (fun wrong => by cases wrong.1) .inr
      | right => exact (ihr stands.2.2 there).elim (fun wrong => by cases wrong.1) .inr
  | @black x l r c d k left right ihl ihr =>
    have color : m.color x = .black := stands.1.color
    cases way with
    | nil =>
      cases there
      rw [color] at red
      cases red
    | cons s way =>
      have read : m.child s x = ptr (side s (.node (Color.black,x) l r)) := by cases s; exact stands.1.near; exact stands.1.far
      rw [ptr_node,follow,read] at there
      cases s with
      | left => exact (ihl stands.2.1 there).elim (fun is => .inr ⟨x,parent_ptr stands.2.1 is.2,color⟩) .inr
      | right => exact (ihr stands.2.2 there).elim (fun is => .inr ⟨x,parent_ptr stands.2.2 is.2,color⟩) .inr

end

/-! ### Loops over a tree -/

theorem foreach_stored (stored : Stored cmp n m nodes) (enough : 2 * Nat.log 2 (n + 1) ≤ fuel) (head : Nat) :
    rb_foreach fuel n head m = .ok (nodes head) ∧ rb_foreach_reverse fuel n head m = .ok (nodes head).reverse := by
  obtain ⟨t,holds,tree,same⟩ := stored.tree head
  have low := stored.low tree same enough
  have few := stored.few head
  rw [← same] at few ⊢
  constructor
  · rw [rb_foreach,rb_min,rb_minmax_ok (s := .right) rfl holds low]
    exact foreach_from_ok holds low (show onward .right (keys t) = [] ++ keys t from rfl) few
  · rw [rb_foreach_reverse,rb_max,rb_minmax_ok (s := .left) rfl holds low]
    exact foreach_from_ok holds low (show onward .left (keys t) = [] ++ (keys t).reverse from rfl) (by simpa [onward] using few)

/-- The body of a loop that takes nodes out. -/
def prune (keep : N → Bool) (fuel head : Nat) (m : Memory N) (x : N) : Except Stop (Memory N) :=
  if keep x then return m
  else do
    let (m,_) ← rb_remove fuel head m x
    return m

/-- The next node is read before the body runs, so that the loop may take out the node
    that it is at. -/
theorem foreach_safe_from_ok (order : Comparison cmp) (enough : 2 * Nat.log 2 (n + 1) ≤ fuel) {head : Nat} (keep : N → Bool)
    {rounds : Nat} {rest : List N} (stored : Stored cmp n m nodes) (split : nodes head = A.filter keep ++ rest)
    (many : rest.length ≤ rounds) :
    ∃ m', foreach_safe_from (prune keep fuel head) fuel rounds m rest.head? = .ok m' ∧
      Stored cmp n m' (Function.update nodes head ((A ++ rest).filter keep)) := by
  induction rest generalizing A m nodes rounds with
  | nil =>
    refine ⟨m,by cases rounds <;> rfl,?_⟩
    rw [List.append_nil] at split ⊢
    rw [← split,Function.update_eq_self]
    exact stored
  | cons x rest ih =>
    obtain ⟨rounds,rfl⟩ : ∃ k, rounds = k + 1 := ⟨rounds - 1,by simp only [List.length_cons] at many; omega⟩
    have ordered := stored.ordered head
    have there : x ∈ nodes head := split ▸ List.mem_append_right _ List.mem_cons_self
    have next : rb_next fuel m x = .ok rest.head? := by
      rw [(rb_next_stored order stored enough there).1,split,find_next order (split ▸ ordered)]
    rw [List.head?_cons,foreach_safe_from,next,ok_bind,prune]
    by_cases kept : keep x = true
    · have again := ih (A := A ++ [x]) stored (by rw [split]; simp [kept]) (by simpa using many)
      rw [if_pos kept]
      simpa using again
    · obtain ⟨m₁,run,stored₁⟩ := remove_stored order stored enough there
      have nodup := ordered_nodup order ordered
      have erased : (nodes head).erase x = (A.filter keep) ++ rest := by
        rw [split] at nodup ⊢
        obtain ⟨-,-,apart⟩ := List.nodup_append.mp nodup
        rw [List.erase_append_right,List.erase_cons_head]
        exact fun member => apart x member x List.mem_cons_self rfl
      have again := ih (A := A) stored₁ (by rw [Function.update_self,erased]) (by simpa using many)
      rw [Function.update_idem] at again
      rw [if_neg kept,run]
      simpa [kept,ok_bind] using again

theorem foreach_safe_ok (order : Comparison cmp) (enough : 2 * Nat.log 2 (n + 1) ≤ fuel) (keep : N → Bool)
    (stored : Stored cmp n m nodes) (head : Nat) :
    ∃ m', rb_foreach_safe (prune keep fuel head) fuel n head m = .ok m' ∧
      Stored cmp n m' (Function.update nodes head ((nodes head).filter keep)) := by
  obtain ⟨t,holds,tree,same⟩ := stored.tree head
  have low := stored.low tree same enough
  rw [rb_foreach_safe,rb_min,rb_minmax_ok (s := .right) rfl holds low]
  have run := foreach_safe_from_ok order enough keep (A := []) stored rfl (stored.few head)
  rw [← same] at run ⊢
  exact run

/-! ### All runs -/

theorem runs_stored (order : Comparison cmp) (enough : 2 * Nat.log 2 (n + 1) ≤ fuel) (field : N → Entry N) {ops : List (Op N)}
    (allowed : AllAllowed cmp n ops) :
    ∃ q, steps (step cmp fuel) ⟨rb_init field,[]⟩ ops = .ok q ∧
      Stored cmp n q.memory (meant_all cmp ops).nodes ∧
      q.results = (meant_all cmp ops).results :=
  steps_refine (fun p s op held allowed => step_ok order enough p s op held allowed) ⟨init_stored field,rfl⟩ allowed

def by_value (a b : Nat) : Int := a - b

def few_calls : List (Op Nat) := [.insert 0 5,.insert 0 3,.insert 1 8,.insert 0 4,.nfind 0 2,.remove 0 5,.next 0 3]

theorem by_value_order : Comparison by_value where
  trans := fun a b c first second => by simp only [by_value] at *; omega
  swap := fun a b => by simp only [by_value]; omega

theorem few_calls_allowed : AllAllowed by_value 4 few_calls := by
  simp +contextual [few_calls,AllAllowed,Along,Allowed,meant,served,Op.head,set_insert,by_value,Function.update_apply,List.orderedInsert]

/-- Every call of a run returns the node that it should, and each tree is gone through in
    order, forward and backward. No loop takes more than `2 lg (n + 1)` rounds. -/
theorem rb_runs (order : Comparison cmp) (enough : 2 * Nat.log 2 (n + 1) ≤ fuel) (field : N → Entry N) (ops : List (Op N))
    (allowed : AllAllowed cmp n ops) :
    ∃ q, steps (step cmp fuel) ⟨rb_init field,[]⟩ ops = .ok q ∧
      q.results = (meant_all cmp ops).results ∧
      ∀ head, Ordered cmp ((meant_all cmp ops).nodes head) ∧
        rb_foreach fuel n head q.memory = .ok ((meant_all cmp ops).nodes head) ∧
        rb_foreach_reverse fuel n head q.memory = .ok ((meant_all cmp ops).nodes head).reverse := by
  obtain ⟨q,run,stored,same⟩ := runs_stored order enough field allowed
  exact ⟨q,run,same,fun head => ⟨stored.ordered head,foreach_stored stored enough head⟩⟩

theorem rb_runs_few : ∃ q, steps (step by_value 4) ⟨rb_init fun _ => ⟨none,none,none,.black⟩,[]⟩ few_calls = .ok q ∧
    q.results = [none,none,none,none,some 3,some 5,some 4] ∧ rb_foreach 4 4 0 q.memory = .ok [3,4] ∧
    rb_foreach_reverse 4 4 0 q.memory = .ok [4,3] ∧ rb_foreach 4 4 1 q.memory = .ok [8] := by
  obtain ⟨q,run,results,trees⟩ := rb_runs by_value_order (show 2 * Nat.log 2 (4 + 1) ≤ 4 by decide) (fun _ => ⟨none,none,none,.black⟩) few_calls few_calls_allowed
  exact ⟨q,run,results,(trees 0).2.1,(trees 0).2.2,(trees 1).2.1⟩

/-- Every tree of a run has a black root, a black parent for each red node and as many
    black nodes on all ways down, and is not higher than `2 lg (n + 1)` for its `n` nodes. -/
theorem rb_runs_conditions (order : Comparison cmp) (enough : 2 * Nat.log 2 (n + 1) ≤ fuel) (field : N → Entry N)
    (ops : List (Op N)) (allowed : AllAllowed cmp n ops) :
    ∃ q, steps (step cmp fuel) ⟨rb_init field,[]⟩ ops = .ok q ∧ ∀ head,
      (∀ way way', follow q.memory (q.memory.rbh_root head) way = none → follow q.memory (q.memory.rbh_root head) way' = none →
        (passed q.memory (q.memory.rbh_root head) way).countP (fun y => q.memory.color y = .black) =
          (passed q.memory (q.memory.rbh_root head) way').countP fun y => q.memory.color y = .black) ∧
      ∀ way z, follow q.memory (q.memory.rbh_root head) way = some z →
        way.length < 2 * Nat.log 2 (((meant_all cmp ops).nodes head).length + 1) ∧
        (q.memory.color z = .red → ∃ p, q.memory.parent z = some p ∧ q.memory.color p = .black) := by
  obtain ⟨q,run,stored,-⟩ := runs_stored order enough field allowed
  refine ⟨q,run,fun head => ?_⟩
  obtain ⟨t,holds,tree,same⟩ := stored.tree head
  have root : q.memory.rbh_root head = ptr t := holds.around
  have high := tree.height_le
  rw [← length_keys,same] at high
  obtain ⟨k,balanced⟩ := tree
  rw [root]
  refine ⟨fun way way' leaf leaf' => ?_,fun way z there => ⟨(way_short holds.stands there).trans_le high,fun red => ?_⟩⟩
  · rw [way_blacks holds.stands balanced leaf,way_blacks holds.stands balanced leaf']
  · exact (red_below holds.stands balanced there red).elim (fun wrong => by cases wrong.1) id

theorem rb_runs_conditions_few : ∃ q, steps (step by_value 4) ⟨rb_init fun _ => ⟨none,none,none,.black⟩,[]⟩ few_calls = .ok q ∧
    ∀ way z, follow q.memory (q.memory.rbh_root 0) way = some z → way.length < 2 := by
  obtain ⟨q,run,trees⟩ := rb_runs_conditions by_value_order (show 2 * Nat.log 2 (4 + 1) ≤ 4 by decide) (fun _ => ⟨none,none,none,.black⟩) few_calls
    few_calls_allowed
  exact ⟨q,run,fun way z there => ((trees 0).2 way z there).1⟩

/-- After any run, a loop of `RB_FOREACH_SAFE` may take out the nodes that it comes to:
    those that it does not keep are gone, and the other trees are as they were. -/
theorem rb_runs_prune (order : Comparison cmp) (enough : 2 * Nat.log 2 (n + 1) ≤ fuel) (field : N → Entry N)
    (ops : List (Op N)) (allowed : AllAllowed cmp n ops)
    (keep : N → Bool) (head : Nat) :
    ∃ q m', steps (step cmp fuel) ⟨rb_init field,[]⟩ ops = .ok q ∧
      rb_foreach_safe (prune keep fuel head) fuel n head q.memory = .ok m' ∧
      rb_foreach fuel n head m' = .ok (((meant_all cmp ops).nodes head).filter keep) ∧
      ∀ other, other ≠ head → rb_foreach fuel n other m' = rb_foreach fuel n other q.memory := by
  obtain ⟨q,run,stored,-⟩ := runs_stored order enough field allowed
  obtain ⟨m',loop,stored'⟩ := foreach_safe_ok order enough keep stored head
  refine ⟨q,m',run,loop,?_,fun other differ => ?_⟩
  · rw [(foreach_stored stored' enough head).1,Function.update_self]
  · rw [(foreach_stored stored' enough other).1,(foreach_stored stored enough other).1,Function.update_of_ne differ]

theorem rb_runs_prune_few : ∃ q m', steps (step by_value 4) ⟨rb_init fun _ => ⟨none,none,none,.black⟩,[]⟩ few_calls = .ok q ∧
    rb_foreach_safe (prune (fun x => x % 2 = 0) 4 0) 4 4 0 q.memory = .ok m' ∧ rb_foreach 4 4 0 m' = .ok [4] := by
  obtain ⟨q,m',run,loop,left,-⟩ := rb_runs_prune by_value_order (show 2 * Nat.log 2 (4 + 1) ≤ 4 by decide) (fun _ => ⟨none,none,none,.black⟩) few_calls
    few_calls_allowed (fun x => x % 2 = 0) 0
  exact ⟨q,m',run,loop,left⟩

end

end Htools.RbTree
