import Htools.SplayRounds
import Htools.OrderedSets

/-!
The calls of the splay tree macros of `hutils/include/hutils/tree.h`. Each of them takes
the tree of its head to another one (`Serves`): the nodes and the result are those that
it is meant to have, and its splays take a number of rounds that is paid for by the
potential of the tree up to a logarithmic share.
-/
namespace Htools.SplayTree
open Zippers Splaying OrderedSets
open TailqSort (Comparison)

/-- The calls that both kinds of trees have. -/
inductive Call (N : Type) where
  | insert (head : Nat) (elm : N)
  | remove (head : Nat) (elm : N)
  | find (head : Nat) (elm : N)
  | min (head : Nat)
  | max (head : Nat)
  | next (head : Nat) (elm : N)
  deriving DecidableEq, Repr

def Call.op {N : Type} : Call N → Op N
  | .insert head elm => .insert head elm
  | .remove head elm => .remove head elm
  | .find head elm => .find head elm
  | .min head => .min head
  | .max head => .max head
  | .next head elm => .next head elm

def Call.head {N : Type} : Call N → Nat
  | .insert head _ => head
  | .remove head _ => head
  | .find head _ => head
  | .min head => head
  | .max head => head
  | .next head _ => head

/-- The node that a call with some result has moved to the root. -/
def Call.top {N : Type} (res : Option N) : Call N → Option N
  | .insert _ elm => some (res.getD elm)
  | .remove _ _ => none
  | .next _ elm => some elm
  | _ => res

/-- The nodes that a call brings along. -/
def Call.news {N : Type} : Call N → List N
  | .insert _ elm => [elm]
  | _ => []

section
variable {N : Type} [DecidableEq N] (cmp : N → N → Int)

/-- A call with fuel for the rounds of its splays, and for the walk of `SPLAY_NEXT`. -/
def run_call (fuel walk : Nat) (m : Memory N) : Call N → Except Stop (Memory N × Option N)
  | .insert head elm => splay_insert cmp fuel head m elm
  | .remove head elm => splay_remove cmp fuel head m elm
  | .find head elm => splay_find cmp fuel head m elm
  | .min head => splay_min fuel head m
  | .max head => splay_max fuel head m
  | .next head elm => splay_next cmp fuel walk head m elm

/-- A call takes a tree to another, with at most `k` rounds for each of its splays. -/
structure Serves (call : Call N) (t : BinaryTree N) (k : Nat) (t' : BinaryTree N) : Prop where
  run : ∀ m fuel walk, Holds m call.head t → k ≤ fuel → t.numNodes ≤ walk →
    ∃ m', run_call cmp fuel walk m call = .ok (m',(served cmp (inorder t) call.op).2) ∧ Holds m' call.head t' ∧
      Only m m' call.head (call.news ++ inorder t)
  nodes : inorder t' = (served cmp (inorder t) call.op).1
  short : k ≤ t.numNodes
  paid : ∀ n, t.numNodes ≤ n → t'.numNodes ≤ n → k + 2 * potential t' ≤ 2 * potential t + (12 * Nat.log 2 n + 2)
  top : ∀ y, call.top (served cmp (inorder t) call.op).2 = some y → rootOf t' = some y

end

variable {N : Type} [DecidableEq N] {cmp : N → N → Int} {n fuel k head : Nat} {m : Memory N} {elm x z : N} {go : N → Int}
  {l r t t' : BinaryTree N}

section
omit [DecidableEq N]

theorem height_le_numNodes (t : BinaryTree N) : t.height ≤ t.numNodes := by
  induction t with
  | nil => exact Nat.le_refl 0
  | node x l r ihl ihr =>
    simp only [BinaryTree.height,BinaryTree.numNodes]
    omega

/-- A splay of a tree that is not empty. -/
theorem splay_some (guides : Guides go (inorder t)) (some_ : t ≠ .nil) :
    ∃ k x l r, Splays go t k (.node x l r) ∧ k ≤ t.numNodes ∧ inorder t = inorder l ++ x :: inorder r ∧
      (∀ z ∈ inorder l, 0 < go z) ∧ ∀ z ∈ inorder r, go z < 0 := by
  obtain ⟨k,t',splays,low⟩ := splays_total go some_
  obtain ⟨x,l,r,rfl⟩ := splays_root splays .left
  obtain ⟨below,above⟩ := splays_between splays guides
  exact ⟨k,x,l,r,splays,low.trans (height_le_numNodes t),(splays_inorder splays).symm,below,above⟩

/-- A node between smaller and greater ones is the only one that can compare equal. -/
theorem find_between {A B : List N} (above : ∀ a ∈ A, 0 < go a) (below : ∀ b ∈ B, go b < 0) :
    ((A ++ x :: B).find? fun y => go y = 0) = if go x = 0 then some x else none := by
  have first : ∀ a ∈ A, decide (go a = 0) = false := fun a there => decide_eq_false (by have := above a there; omega)
  have last : ∀ b ∈ B, decide (go b = 0) = false := fun b there => decide_eq_false (by have := below b there; omega)
  rw [List.find?_append,find_none first,List.find?_cons]
  by_cases equal : go x = 0
  · simp [equal]
  · simp only [equal,decide_false,find_none last]
    rfl

end

/-- The node of a tree that the key is in is the root after a splay. -/
theorem splay_to (order : Comparison cmp) (above : ∀ z ∈ inorder l, 0 < cmp elm z) (below : ∀ z ∈ inorder r, cmp elm z < 0)
    (there : elm ∈ inorder l ++ x :: inorder r) : elm = x := by
  rcases List.mem_append.mp there with first | there
  · have := above elm first
    rw [cmp_self order] at this
    omega
  · obtain rfl | last := List.mem_cons.mp there
    · rfl
    · have := below elm last
      rw [cmp_self order] at this
      omega

/-- A new node takes the root with its part on a side. -/
theorem holds_above {s : Side} {near far : BinaryTree N} (holds : Holds m head (bear s x near far)) (fresh : elm ∉ inorder (bear s x near far)) :
    Holds ((((m.set_child s elm (m.child s x)).set_child s.other elm (some x)).set_child s x none).set_root head (some elm)) head
        (bear s elm near (bear s x .nil far)) ∧
      Only m ((((m.set_child s elm (m.child s x)).set_child s.other elm (some x)).set_child s x none).set_root head (some elm)) head
        (elm :: inorder (bear s x near far)) := by
  obtain ⟨xNear,xFar,nodupNear,nodupFar,two⟩ := nodup_bear.mp holds.nodup
  obtain ⟨toNear,toFar,standsNear,standsFar⟩ := stands_bear.mp holds.stands
  rw [mem_bear,not_or,not_or] at fresh
  obtain ⟨differ,elmNear,elmFar⟩ := fresh
  have same : ∀ {t : BinaryTree N}, elm ∉ inorder t → x ∉ inorder t → Stands m t →
      Stands ((((m.set_child s elm (m.child s x)).set_child s.other elm (some x)).set_child s x none).set_root head (some elm)) t := by
    intro t elmOut xOut stands
    refine stands_set_root.mpr ((stands_congr fun z there => ?_).mpr stands)
    have zElm : z ≠ elm := fun same => elmOut (same ▸ there)
    have zX : z ≠ x := fun same => xOut (same ▸ there)
    rw [field_set_child zX,field_set_child zElm,field_set_child zElm]
  refine ⟨⟨by simp,stands_bear.mpr ⟨?_,?_,same elmNear xNear standsNear,stands_bear.mpr ⟨?_,?_,trivial,same elmFar xFar standsFar⟩⟩,?_⟩,?_⟩
  · simp [differ,toNear]
  · simp
  · simp
  · simp [Ne.symm differ,toFar]
  · refine nodup_bear.mpr ⟨elmNear,?_,nodupNear,nodup_bear.mpr ⟨by simp,xFar,by simp,nodupFar,by simp⟩,?_⟩
    · simp [mem_bear,differ,elmFar]
    · intro z there there'
      rw [mem_bear] at there'
      obtain rfl | none_ | far_ := there'
      · exact xNear there
      · cases none_
      · exact two z there far_
  · refine ((only_set_child ?_).trans ((only_set_child ?_).trans (only_set_child ?_))).trans only_set_root
    · exact List.mem_cons_self
    · exact List.mem_cons_self
    · exact List.mem_cons_of_mem elm (mem_bear.mpr (.inl rfl))

/-- A root without a right subtree takes another tree there. -/
theorem holds_join (holds : Holds m head (.node x l .nil)) (stands : Stands m r)
    (apart : ∀ z ∈ inorder (.node x l .nil), z ∉ inorder r) (nodup : (inorder r).Nodup) :
    Holds (m.set_child .right x (rootOf r)) head (.node x l r) := by
  obtain ⟨out,-,nodupL,-,-⟩ := (nodup_bear (s := .left)).mp holds.nodup
  obtain ⟨near,-,standsL,-⟩ := holds.stands
  have outR : x ∉ inorder r := apart x (by simp)
  have same : ∀ {t : BinaryTree N}, x ∉ inorder t → Stands m t → Stands (m.set_child .right x (rootOf r)) t := fun out stands =>
    (stands_congr fun z there => field_set_child fun here : z = x => out (here ▸ there)).mpr stands
  refine ⟨holds.root,⟨by simpa using near,by simp,same out standsL,same outR stands⟩,?_⟩
  exact (nodup_bear (s := .left)).mpr ⟨out,outR,nodupL,nodup,fun z there => apart z (by simp [there])⟩

omit [DecidableEq N] in
theorem leftmost_ok (stands : Stands m t) (here : rootOf t = some x) (enough : t.height ≤ fuel) :
    ∃ y, leftmost fuel m x = .ok y ∧ (inorder t).head? = some y := by
  induction t generalizing x fuel with
  | nil => cases here
  | node z l r ihl ihr =>
    cases here
    obtain ⟨near,-,standsL,-⟩ := stands
    rw [leftmost.eq_def]
    simp only [near]
    cases left : rootOf l with
    | none =>
      obtain rfl := rootOf_eq_none_iff.mp left
      exact ⟨z,rfl,rfl⟩
    | some w =>
      obtain ⟨k,rfl⟩ : ∃ k, fuel = k + 1 := ⟨fuel - 1,by simp only [BinaryTree.height] at enough; omega⟩
      simp only [BinaryTree.height] at enough
      obtain ⟨y,run,first⟩ := ihl standsL left (show l.height ≤ k by omega)
      exact ⟨y,run,by simp [first]⟩

/-! ### The macros -/

section
variable {near far : BinaryTree N} {s : Side} {k' : Nat} {y : N} {l' : BinaryTree N} {val : Int}

omit [DecidableEq N] in
theorem root_nil (holds : Holds m head .nil) : m.sph_root head = none := holds.root

omit [DecidableEq N] in
theorem root_some (holds : Holds m head t) (splays : Splays go t k t') : m.sph_root head ≠ none := by
  rw [holds.root]
  refine mt rootOf_eq_none_iff.mp ?_
  rintro rfl
  obtain ⟨z,l,r,rfl⟩ := splays_root splays .left
  have := splays_numNodes splays
  simp [numNodes_bear] at this

theorem splay_find_nil (holds : Holds m head .nil) : splay_find cmp fuel head m elm = .ok (m,none) := by
  rw [splay_find,if_pos (root_nil holds)]
  rfl

theorem splay_find_ok (holds : Holds m head t) (splays : Splays (cmp elm) t k (.node x l r)) (enough : k ≤ fuel) :
    ∃ m', splay_find cmp fuel head m elm = .ok (m',if cmp elm x = 0 then some x else none) ∧ Holds m' head (.node x l r) ∧
      Only m m' head (inorder t) := by
  obtain ⟨m',run,holds',only⟩ := splay_ok splays holds enough
  refine ⟨m',?_,holds',only⟩
  rw [splay_find,if_neg (root_some holds splays),run,ok_bind,holds'.root]
  rfl

theorem splay_insert_nil (holds : Holds m head .nil) (elm : N) :
    ∃ m', splay_insert cmp fuel head m elm = .ok (m',none) ∧ Holds m' head (.node elm .nil .nil) ∧ Only m m' head [elm] := by
  rw [splay_insert,if_pos (root_nil holds)]
  refine ⟨_,rfl,⟨by simp,⟨by simp,by simp,trivial,trivial⟩,by simp⟩,?_⟩
  exact ((only_set_child List.mem_cons_self).trans (only_set_child List.mem_cons_self)).trans only_set_root

theorem splay_insert_found (holds : Holds m head t) (splays : Splays (cmp elm) t k (.node x l r)) (enough : k ≤ fuel)
    (equal : cmp elm x = 0) :
    ∃ m', splay_insert cmp fuel head m elm = .ok (m',some x) ∧ Holds m' head (.node x l r) ∧ Only m m' head (inorder t) := by
  obtain ⟨m',run,holds',only⟩ := splay_ok splays holds enough
  refine ⟨m',?_,holds',only⟩
  rw [splay_insert,if_neg (root_some holds splays),run,ok_bind,holds'.root]
  simp [deref,ok_bind,equal,pure,Except.pure]

/-- A new node comes above the root, with the nodes on its side of it. -/
theorem splay_insert_new (holds : Holds m head t) (splays : Splays (cmp elm) t k (bear s x near far)) (enough : k ≤ fuel)
    (beyond : Beyond s (cmp elm x)) (fresh : elm ∉ inorder t) :
    ∃ m', splay_insert cmp fuel head m elm = .ok (m',none) ∧ Holds m' head (bear s elm near (bear s x .nil far)) ∧
      Only m m' head (elm :: inorder t) := by
  obtain ⟨m₁,run,holds₁,only⟩ := splay_ok splays holds enough
  have same := splays_inorder splays
  obtain ⟨holds₂,only₂⟩ := holds_above holds₁ (same ▸ fresh)
  rw [same] at only₂
  refine ⟨_,?_,holds₂,(only.mono fun z there => List.mem_cons_of_mem elm there).trans only₂⟩
  rw [splay_insert,if_neg (root_some holds splays),run,ok_bind,holds₁.root,rootOf_bear,deref,ok_bind]
  cases s with
  | left =>
    have less : cmp elm x < 0 := beyond
    rw [if_pos less]
    rfl
  | right =>
    have more : 0 < cmp elm x := beyond
    rw [if_neg more.le.not_gt,if_pos more]
    rfl

/-- A node without a left subtree is replaced by the right one. -/
theorem splay_remove_right (holds : Holds m head t) (splays : Splays (cmp elm) t k (.node elm .nil r)) (enough : k ≤ fuel)
    (equal : cmp elm elm = 0) :
    ∃ m', splay_remove cmp fuel head m elm = .ok (m',some elm) ∧ Holds m' head r ∧ Only m m' head (inorder t) := by
  obtain ⟨m₁,run,holds₁,only⟩ := splay_ok splays holds enough
  obtain ⟨near,far,-,standsR⟩ := holds₁.stands
  refine ⟨m₁.set_root head (m₁.child .right elm),?_,⟨by simp [far],stands_set_root.mpr standsR,?_⟩,only.trans only_set_root⟩
  · rw [splay_remove,if_neg (root_some holds splays),run,ok_bind,holds₁.root,rootOf_node,deref,ok_bind,if_pos equal,
      if_pos (show m₁.child .left elm = none from near)]
    rfl
  · exact ((nodup_bear (s := .left)).mp holds₁.nodup).2.2.2.1

/-- Of the nodes on its left the last one comes up and takes those on its right. -/
theorem splay_remove_join (holds : Holds m head t) (splays : Splays (cmp elm) t k (.node elm l r)) (enough : k ≤ fuel)
    (equal : cmp elm elm = 0) (splays' : Splays (cmp elm) l k' (.node y l' .nil)) (enough' : k' ≤ fuel) :
    ∃ m', splay_remove cmp fuel head m elm = .ok (m',some elm) ∧ Holds m' head (.node y l' r) ∧ Only m m' head (inorder t) := by
  obtain ⟨m₁,run,holds₁,only⟩ := splay_ok splays holds enough
  obtain ⟨near,far,standsL,standsR⟩ := holds₁.stands
  obtain ⟨-,-,nodupL,nodupR,two⟩ := (nodup_bear (s := .left)).mp holds₁.nodup
  have holdsL : Holds (m₁.set_root head (rootOf l)) head l := ⟨by simp,stands_set_root.mpr standsL,nodupL⟩
  have some_ := root_some holdsL splays'
  rw [holdsL.root] at some_
  obtain ⟨m₂,run₂,holds₂,only₂⟩ := splay_ok splays' holdsL enough'
  have same := splays_inorder splays'
  have standsR₂ : Stands m₂ r :=
    (stands_congr fun z there => only₂.field z fun there' => two z there' there).mpr (stands_set_root.mpr standsR)
  have joined := holds_join holds₂ standsR₂ (by rw [same]; exact two) nodupR
  have inside : ∀ z ∈ inorder l, z ∈ inorder t := fun z there => by
    rw [← splays_inorder splays]
    simp [there]
  have yIn : y ∈ inorder t := inside y (by rw [← same]; simp)
  refine ⟨_,?_,joined,((only.trans only_set_root).trans (only₂.mono inside)).trans (only_set_child yIn)⟩
  rw [splay_remove,if_neg (root_some holds splays),run,ok_bind,holds₁.root,rootOf_node,deref,ok_bind,if_pos equal,near,if_neg some_]
  simp only [run₂,ok_bind,holds₂.root,rootOf_node,deref,far]
  rfl

theorem splay_next_ok {walk : Nat} (holds : Holds m head t) (splays : Splays (cmp elm) t k (.node elm l r)) (enough : k ≤ fuel)
    (far : r.height ≤ walk) :
    ∃ m', splay_next cmp fuel walk head m elm = .ok (m',(inorder r).head?) ∧ Holds m' head (.node elm l r) ∧
      Only m m' head (inorder t) := by
  obtain ⟨m',run,holds',only⟩ := splay_ok splays holds enough
  refine ⟨m',?_,holds',only⟩
  rw [splay_next,run,ok_bind,holds'.stands.2.1]
  cases right : rootOf r with
  | none =>
    obtain rfl := rootOf_eq_none_iff.mp right
    rfl
  | some w =>
    obtain ⟨y,down,first⟩ := leftmost_ok holds'.stands.2.2.2 right far
    simp only [down,ok_bind,first]
    rfl

theorem splay_min_max_nil (holds : Holds m head .nil) : splay_min_max val fuel head m = .ok (m,none) := by
  rw [splay_min_max,if_pos (root_nil holds)]
  rfl

theorem splay_min_max_ok (holds : Holds m head t) (differ : val ≠ 0) (splays : Splays (fun _ => val) t k (.node x l r))
    (enough : k ≤ fuel) :
    ∃ m', splay_min_max val fuel head m = .ok (m',some x) ∧ Holds m' head (.node x l r) ∧ Only m m' head (inorder t) := by
  obtain ⟨m',run,holds',only⟩ := splay_ok splays holds enough
  refine ⟨m',?_,holds',only⟩
  rw [splay_min_max,if_neg (root_some holds splays),splay_minmax_eq differ run,ok_bind,holds'.root]
  rfl

end

/-! ### What each call serves for -/

omit [DecidableEq N] in
/-- A splay is paid for with half of the share of a call. -/
theorem splays_share (splays : Splays go t k t') (few : t.numNodes ≤ n) :
    k + 2 * potential t' ≤ 2 * potential t + (6 * Nat.log 2 n + 1) := by
  have amortized := splays_amortized splays
  have less : rank t ≤ Nat.log 2 n := Nat.log_mono_right few
  omega

/-- A call that leaves the tree as its splay does. -/
theorem serves_splay {call : Call N} {res : Option N} (splays : Splays go t k (.node x l r)) (short : k ≤ t.numNodes)
    (is : served cmp (inorder t) call.op = (inorder t,res)) (top : ∀ y, call.top res = some y → x = y)
    (run : ∀ m fuel walk, Holds m call.head t → k ≤ fuel → t.numNodes ≤ walk → ∃ m', run_call cmp fuel walk m call = .ok (m',res) ∧
      Holds m' call.head (.node x l r) ∧ Only m m' call.head (inorder t)) : Serves cmp call t k (.node x l r) where
  run := fun m fuel walk holds enough far => by
    obtain ⟨m',now,holds',only⟩ := run m fuel walk holds enough far
    rw [is]
    exact ⟨m',now,holds',only.mono fun z there => List.mem_append_right _ there⟩
  nodes := by
    rw [is]
    exact splays_inorder splays
  short := short
  paid := fun n few _ => by
    have := splays_share splays few
    omega
  top := fun y here => by
    rw [is] at here
    exact congrArg some (top y here)

/-- A call that finds nothing in an empty tree. -/
theorem serves_nil {call : Call N} (is : served cmp [] call.op = ([],none)) (top : call.top none = none)
    (run : ∀ m fuel walk, Holds m call.head .nil → run_call cmp fuel walk m call = .ok (m,none)) : Serves cmp call .nil 0 .nil where
  run := fun m fuel walk holds _ _ => by
    refine ⟨m,?_,holds,Only.refl _ _ _⟩
    rw [run m fuel walk holds,inorder_nil,is]
  nodes := by rw [inorder_nil,is]
  short := Nat.le_refl _
  paid := by simp
  top := fun y here => by
    rw [inorder_nil,is,top] at here
    cases here

theorem find_serves (order : Comparison cmp) (ordered : Ordered cmp (inorder t)) (head : Nat) (elm : N) :
    ∃ k t', Serves cmp (.find head elm) t k t' := by
  by_cases some_ : t = .nil
  · subst some_
    exact ⟨0,.nil,serves_nil rfl rfl fun m fuel walk holds => splay_find_nil holds⟩
  obtain ⟨k,x,l,r,splays,short,split,below,above⟩ := splay_some (ordered_guides order ordered elm) some_
  have found := find_between (x := x) below above
  rw [← split] at found
  refine ⟨k,_,serves_splay splays short (congrArg (Prod.mk _) found) (fun y top => ?_) fun m fuel walk holds enough _ =>
    splay_find_ok holds splays enough⟩
  have top : (if cmp elm x = 0 then some x else none) = some y := top
  split_ifs at top
  exact Option.some.inj top

/-- The splay of `SPLAY_MIN` and `SPLAY_MAX` for a tree that is not empty. -/
theorem splay_extreme {val : Int} (differ : val ≠ 0) (some_ : t ≠ .nil) :
    ∃ k x l r, Splays (fun _ => val) t k (.node x l r) ∧ k ≤ t.numNodes ∧ inorder t = inorder l ++ x :: inorder r ∧
      (val < 0 → l = .nil) ∧ (0 < val → r = .nil) := by
  have guides : Guides (fun _ => val) (inorder t) := List.pairwise_of_forall fun _ _ => by
    dsimp only
    omega
  obtain ⟨k,x,l,r,splays,short,split,below,above⟩ := splay_some guides some_
  refine ⟨k,x,l,r,splays,short,split,fun less => ?_,fun more => ?_⟩
  · cases l with
    | nil => rfl
    | node z a b =>
      have := below z (by simp)
      omega
  · cases r with
    | nil => rfl
    | node z a b =>
      have := above z (by simp)
      omega

theorem min_serves (t : BinaryTree N) (head : Nat) : ∃ k t', Serves cmp (.min head) t k t' := by
  by_cases some_ : t = .nil
  · subst some_
    exact ⟨0,.nil,serves_nil rfl rfl fun m fuel walk holds => splay_min_max_nil holds⟩
  obtain ⟨k,x,l,r,splays,short,split,least,-⟩ := splay_extreme (show (-1 : Int) ≠ 0 by decide) some_
  obtain rfl := least (by decide)
  have first : (inorder t).head? = some x := by
    rw [split]
    rfl
  exact ⟨k,_,serves_splay splays short (congrArg (Prod.mk _) first) (fun y top => Option.some.inj top)
    fun m fuel walk holds enough _ => splay_min_max_ok holds (by decide) splays enough⟩

theorem max_serves (t : BinaryTree N) (head : Nat) : ∃ k t', Serves cmp (.max head) t k t' := by
  by_cases some_ : t = .nil
  · subst some_
    exact ⟨0,.nil,serves_nil rfl rfl fun m fuel walk holds => splay_min_max_nil holds⟩
  obtain ⟨k,x,l,r,splays,short,split,-,greatest⟩ := splay_extreme (show (1 : Int) ≠ 0 by decide) some_
  obtain rfl := greatest (by decide)
  have last : (inorder t).getLast? = some x := by
    rw [split]
    simp
  exact ⟨k,_,serves_splay splays short (congrArg (Prod.mk _) last) (fun y top => Option.some.inj top)
    fun m fuel walk holds enough _ => splay_min_max_ok holds (by decide) splays enough⟩

theorem next_serves (order : Comparison cmp) (ordered : Ordered cmp (inorder t)) (head : Nat) (there : elm ∈ inorder t) :
    ∃ k t', Serves cmp (.next head elm) t k t' := by
  have some_ : t ≠ .nil := by
    rintro rfl
    cases there
  obtain ⟨k,x,l,r,splays,short,split,below,above⟩ := splay_some (ordered_guides order ordered elm) some_
  obtain rfl := splay_to order below above (split ▸ there)
  have next : ((inorder t).find? fun y => cmp elm y < 0) = (inorder r).head? := by
    rw [split] at ordered ⊢
    exact find_next order ordered
  have size := splays_numNodes splays
  have low := height_le_numNodes r
  rw [BinaryTree.numNodes] at size
  exact ⟨k,_,serves_splay splays short (congrArg (Prod.mk _) next) (fun y top => Option.some.inj top)
    fun m fuel walk holds enough far => splay_next_ok holds splays enough (show r.height ≤ walk by omega)⟩

omit [DecidableEq N] in
/-- A new element is in order between the two parts of what was there. -/
theorem inorder_new {s : Side} {near far : BinaryTree N} (between : Between (cmp elm) (bear s x near far)) (beyond : Beyond s (cmp elm x)) :
    (inorder (bear s x near far)).orderedInsert (fun a b => cmp a b ≤ 0) elm = inorder (bear s elm near (bear s x .nil far)) := by
  cases s with
  | left =>
    obtain ⟨below,above⟩ := between
    have less : cmp elm x < 0 := beyond
    exact orderedInsert_between below (B := x :: inorder far) (by simpa [less] using above)
  | right =>
    obtain ⟨below,above⟩ := between
    have more : 0 < cmp elm x := beyond
    have below' : ∀ a ∈ inorder far ++ [x], 0 < cmp elm a := by
      intro a there
      obtain there | there := List.mem_append.mp there
      · exact below a there
      · rwa [List.mem_singleton.mp there]
    have inserted := orderedInsert_between below' above
    rwa [List.append_assoc,List.singleton_append] at inserted

theorem insert_serves (order : Comparison cmp) (ordered : Ordered cmp (inorder t)) (head : Nat) (elm : N) :
    ∃ k t', Serves cmp (.insert head elm) t k t' := by
  by_cases some_ : t = .nil
  · subst some_
    refine ⟨0,.node elm .nil .nil,⟨fun m fuel walk holds _ _ => splay_insert_nil holds elm,rfl,Nat.le_refl _,?_,fun y top => top⟩⟩
    simp [potential,rank]
  have guides := ordered_guides order ordered elm
  obtain ⟨k,x,l,r,splays,short,split,below,above⟩ := splay_some guides some_
  have found := find_between (x := x) below above
  rw [← split] at found
  by_cases equal : cmp elm x = 0
  · rw [if_pos equal] at found
    have is : served cmp (inorder t) (Call.insert head elm).op = (inorder t,some x) := by
      simp only [Call.op,served,set_insert,found]
    exact ⟨k,_,serves_splay splays short is (fun y top => Option.some.inj top) fun m fuel walk holds enough _ => by
      obtain ⟨m',run,holds',only⟩ := splay_insert_found holds splays enough equal
      exact ⟨m',run,holds',only⟩⟩
  rw [if_neg equal] at found
  have fresh : elm ∉ inorder t := fun there => by
    have here := splay_to order below above (split ▸ there)
    rw [← here,cmp_self order] at equal
    exact equal rfl
  obtain ⟨s,beyond⟩ := beyond_of_ne equal
  obtain ⟨near,far,at_⟩ := exists_bear s (rootOf_node x l r)
  rw [at_] at splays
  have inserted := inorder_new (splays_between splays guides) beyond
  rw [splays_inorder splays] at inserted
  have is : served cmp (inorder t) (Call.insert head elm).op = (inorder (bear s elm near (bear s x .nil far)),none) := by
    simp only [Call.op,served,set_insert,found,inserted]
  refine ⟨k,bear s elm near (bear s x .nil far),⟨fun m fuel walk holds enough _ => ?_,?_,short,fun n few few' => ?_,fun y top => ?_⟩⟩
  · rw [is]
    exact splay_insert_new holds splays enough beyond fresh
  · rw [is]
  · have share := splays_share splays few
    have whole : rank (bear s elm near (bear s x .nil far)) ≤ Nat.log 2 n := Nat.log_mono_right few'
    have part : rank (bear s x .nil far) ≤ rank (bear s x near far) := rank_le (by simp only [numNodes_bear,BinaryTree.numNodes]; omega)
    simp only [potential_bear,potential] at share ⊢
    omega
  · rw [is] at top
    rw [rootOf_bear]
    exact top

theorem remove_serves (order : Comparison cmp) (ordered : Ordered cmp (inorder t)) (head : Nat) (there : elm ∈ inorder t) :
    ∃ k t', Serves cmp (.remove head elm) t k t' := by
  have some_ : t ≠ .nil := by
    rintro rfl
    cases there
  have guides := ordered_guides order ordered elm
  obtain ⟨k,x,l,r,splays,short,split,below,above⟩ := splay_some guides some_
  obtain rfl := splay_to order below above (split ▸ there)
  have equal := cmp_self order elm
  have out : elm ∉ inorder l := fun inside => by
    have := below elm inside
    omega
  have erased : (inorder t).erase elm = inorder l ++ inorder r := by
    rw [split,List.erase_append_right _ out,List.erase_cons_head]
  have size := splays_numNodes splays
  rw [BinaryTree.numNodes] at size
  by_cases single : l = .nil
  · subst single
    refine ⟨k,r,⟨fun m fuel walk holds enough _ => splay_remove_right holds splays enough equal,erased.symm,short,?_,
      fun y top => by cases top⟩⟩
    intro n few _
    have share := splays_share splays few
    simp only [potential] at share
    omega
  rw [split] at guides
  obtain ⟨k',y,l',r',splays',short',split',-,above'⟩ := splay_some (List.pairwise_append.mp guides).1 single
  have last : r' = .nil := by
    cases r' with
    | nil => rfl
    | node z a b =>
      have wrong := above' z (by simp)
      have right := below z (by rw [split']; simp)
      omega
  subst last
  have order' := splays_inorder splays'
  refine ⟨max k k',.node y l' r,⟨fun m fuel walk holds enough _ => ?_,?_,by omega,fun n few _ => ?_,fun y top => by cases top⟩⟩
  · exact splay_remove_join holds splays (by omega) equal splays' (by omega)
  · rw [Call.op,served,erased,← order']
    simp
  · have share := splays_share splays few
    have share' := splays_share splays' (show l.numNodes ≤ n by omega)
    have whole : rank (.node y l' r) ≤ rank (.node elm l r) := by
      have size' := splays_numNodes splays'
      refine rank_le ?_
      simp only [BinaryTree.numNodes] at size' ⊢
      omega
    simp only [potential] at share share' ⊢
    omega

end Htools.SplayTree
