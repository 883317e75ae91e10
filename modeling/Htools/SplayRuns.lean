import Htools.SplayCalls
import Htools.RbRuns
import Mathlib.Algebra.Ring.Nat

/-!
Runs of the splay tree macros of `hutils/include/hutils/tree.h` on any number of trees.
Every call changes its tree, also one that only looks for a node, but what it returns
and the order of the nodes are those of the ordered set (`splay_runs`), and so those of
the red-black trees (`splay_runs_rb`). The header promises a logarithmic number of rounds
for each call in the long run, which is what `splay_runs_balance` says.
-/
namespace Htools.SplayTree
open Zippers Splaying Runs OrderedSets
open TailqSort (Comparison)

/-- The memory, and the nodes that the calls have returned. -/
structure Program (N : Type) where
  memory : Memory N
  results : List (Option N)

variable {N : Type} [DecidableEq N] (cmp : N → N → Int)

def step (fuel walk : Nat) (p : Program N) (call : Call N) : Except Stop (Program N) := do
  let (m,res) ← run_call cmp fuel walk p.memory call
  return ⟨m,p.results ++ [res]⟩

/-- The trees in memory have the nodes of the lists in order. -/
structure Stored (n : Nat) (m : Memory N) (nodes : Nat → List N) : Prop extends Kept cmp n nodes where
  tree : ∀ head, ∃ t, Holds m head t ∧ inorder t = nodes head

/-- All heads after `SPLAY_INIT`. -/
def splay_init (field : N → Entry N) : Memory N := ⟨fun _ => none,field⟩

/-- What calls are meant to do to the sets. -/
def meant_calls (calls : List (Call N)) : Sets N := meant_all cmp (calls.map Call.op)

def CallsAllowed (n : Nat) (calls : List (Call N)) : Prop := AllAllowed cmp n (calls.map Call.op)

section
variable {cmp} {n fuel walk head : Nat} {m : Memory N} {nodes : Nat → List N} {elm x z : N} {t : BinaryTree N}

omit [DecidableEq N] in
theorem init_stored (field : N → Entry N) : Stored cmp n (splay_init field) (fun _ => []) where
  toKept := kept_init
  tree := fun _ => ⟨.nil,⟨rfl,trivial,List.nodup_nil⟩,rfl⟩

omit [DecidableEq N] in
@[simp] theorem head_op (call : Call N) : call.op.head = call.head := by
  cases call <;> rfl

/-! ### One call -/

theorem call_serves (order : Comparison cmp) (ordered : Ordered cmp (inorder t)) (call : Call N) (same : inorder t = nodes call.head)
    (allowed : Allowed n ⟨nodes,[]⟩ call.op) : ∃ k t', Serves cmp call t k t' := by
  cases call with
  | insert head elm => exact insert_serves order ordered head elm
  | remove head elm => exact remove_serves order ordered head (same ▸ allowed)
  | find head elm => exact find_serves order ordered head elm
  | min head => exact min_serves t head
  | max head => exact max_serves t head
  | next head elm => exact next_serves order ordered head (same ▸ allowed)

omit [DecidableEq N] in
/-- The nodes that a call brings along are in no other tree. -/
theorem news_apart {call : Call N} (allowed : Allowed n ⟨nodes,[]⟩ call.op) :
    ∀ other, other ≠ call.head → ∀ z ∈ call.news, z ∉ nodes other := by
  intro other differ z there
  cases call with
  | insert head elm =>
    rw [List.mem_singleton.mp there]
    exact allowed.1 other differ
  | _ => cases there

/-- A call with enough fuel does to its tree what it does to the set. -/
theorem stored_call (order : Comparison cmp) (stored : Stored cmp n m nodes) {call : Call N} (holds : Holds m call.head t)
    (same : inorder t = nodes call.head) (allowed : Allowed n ⟨nodes,[]⟩ call.op) :
    ∃ k t', k ≤ n ∧ k + 2 * potential t' ≤ 2 * potential t + (12 * Nat.log 2 n + 2) ∧
      inorder t' = (served cmp (nodes call.head) call.op).1 ∧
      (∀ y, call.top (served cmp (nodes call.head) call.op).2 = some y → rootOf t' = some y) ∧
      ∀ fuel walk, k ≤ fuel → n ≤ walk → ∃ m', run_call cmp fuel walk m call = .ok (m',(served cmp (nodes call.head) call.op).2) ∧
        Holds m' call.head t' ∧ Stored cmp n m' (Function.update nodes call.head (served cmp (nodes call.head) call.op).1) := by
  obtain ⟨k,t',serves⟩ := call_serves order (same ▸ stored.ordered call.head) call same allowed
  obtain ⟨kept,few'⟩ : Kept cmp n (Function.update nodes call.head (inorder t')) ∧ (inorder t').length ≤ n := by
    have kept := stored.toKept.meant order (s := ⟨nodes,[]⟩) allowed
    have few := kept.few call.head
    simp only [meant,head_op,← same,← serves.nodes,Function.update_self] at kept few
    exact ⟨kept,few⟩
  have few := stored.few call.head
  rw [← same,length_inorder] at few
  rw [length_inorder] at few'
  rw [← same,← serves.nodes]
  refine ⟨k,t',serves.short.trans few,serves.paid n few few',rfl,serves.top,fun fuel walk enough far => ?_⟩
  obtain ⟨m',run,holds',only⟩ := serves.run m fuel walk holds enough (few.trans far)
  refine ⟨m',run,holds',⟨kept,fun other => ?_⟩⟩
  by_cases here : other = call.head
  · subst here
    exact ⟨t',holds',by rw [Function.update_self]⟩
  · obtain ⟨u,there,is⟩ := stored.tree other
    rw [Function.update_of_ne here]
    refine ⟨u,there.other only here fun z member member' => ?_,is⟩
    rw [is] at member
    obtain new | old := List.mem_append.mp member'
    · exact news_apart allowed other here z new member
    · exact stored.apart call.head other (Ne.symm here) z (same ▸ old) member

/-! ### Loops over a tree -/

theorem foreach_from_ok (order : Comparison cmp) (enough : n ≤ fuel) (far : n ≤ walk) {rounds : Nat} {A rest : List N}
    (stored : Stored cmp n m nodes) (split : nodes head = A ++ rest) (many : rest.length ≤ rounds) :
    ∃ m', foreach_from cmp fuel walk head rounds m rest.head? = .ok (m',rest) ∧ Stored cmp n m' nodes := by
  induction rest generalizing A m rounds with
  | nil => exact ⟨m,by cases rounds <;> rfl,stored⟩
  | cons x rest ih =>
    obtain ⟨rounds,rfl⟩ : ∃ k, rounds = k + 1 := ⟨rounds - 1,by simp only [List.length_cons] at many; omega⟩
    have there : x ∈ nodes head := split ▸ List.mem_append_right _ List.mem_cons_self
    obtain ⟨t,holds,same⟩ := stored.tree head
    have next := @stored_call _ _ _ n m nodes t order stored (.next head x) holds same there
    obtain ⟨k,t',short,-,-,-,serve⟩ := next
    obtain ⟨m₁,run,-,stored₁⟩ := serve fuel walk (short.trans enough) far
    have ordered := stored.ordered head
    have same₁ : (served cmp (nodes head) (Call.next head x).op).1 = nodes head := rfl
    have found : (served cmp (nodes head) (Call.next head x).op).2 = rest.head? := by
      rw [split] at ordered ⊢
      exact find_next order ordered
    rw [Call.head,same₁,Function.update_eq_self] at stored₁
    rw [Call.head,found] at run
    obtain ⟨m₂,loop,stored₂⟩ := ih (A := A ++ [x]) stored₁ (by rw [split]; simp) (by simpa using many)
    refine ⟨m₂,?_,stored₂⟩
    rw [List.head?_cons,foreach_from,show splay_next cmp fuel walk head m x = _ from run,ok_bind]
    simp only [loop,ok_bind]
    rfl

theorem foreach_stored (order : Comparison cmp) (enough : n ≤ fuel) (far : n ≤ walk) (stored : Stored cmp n m nodes) (head : Nat) :
    ∃ m', splay_foreach cmp fuel walk n head m = .ok (m',nodes head) ∧ Stored cmp n m' nodes := by
  obtain ⟨t,holds,same⟩ := stored.tree head
  have first := @stored_call _ _ _ n m nodes t order stored (.min head) holds same trivial
  obtain ⟨k,t',short,-,-,-,serve⟩ := first
  obtain ⟨m₁,run,-,stored₁⟩ := serve fuel walk (short.trans enough) far
  have same₁ : (served cmp (nodes head) (Call.min head).op).1 = nodes head := rfl
  rw [Call.head,same₁,Function.update_eq_self] at stored₁
  obtain ⟨m₂,loop,stored₂⟩ := foreach_from_ok order enough far (A := []) stored₁ rfl (stored.few head)
  refine ⟨m₂,?_,stored₂⟩
  rw [splay_foreach,show splay_min fuel head m = _ from run]
  exact loop

/-! ### All runs -/

theorem step_ok (order : Comparison cmp) (enough : n ≤ fuel) (far : n ≤ walk) (p : Program N) (s : Sets N) (call : Call N)
    (held : Stored cmp n p.memory s.nodes ∧ p.results = s.results) (allowed : Allowed n s call.op) :
    ∃ q, step cmp fuel walk p call = .ok q ∧ Stored cmp n q.memory (meant cmp s call.op).nodes ∧
      q.results = (meant cmp s call.op).results := by
  obtain ⟨stored,same⟩ := held
  obtain ⟨t,holds,is⟩ := stored.tree call.head
  obtain ⟨k,t',short,-,-,-,serve⟩ := stored_call order stored holds is (allowed_nodes.mp allowed)
  obtain ⟨m',run,-,stored'⟩ := serve fuel walk (short.trans enough) far
  refine ⟨⟨m',p.results ++ [_]⟩,by rw [step,run]; rfl,?_,?_⟩
  · rw [meant,head_op]
    exact stored'
  · rw [meant,head_op,same]

theorem runs_stored (order : Comparison cmp) (enough : n ≤ fuel) (far : n ≤ walk) (field : N → Entry N) {calls : List (Call N)}
    (allowed : CallsAllowed cmp n calls) :
    ∃ q, steps (step cmp fuel walk) ⟨splay_init field,[]⟩ calls = .ok q ∧
      Stored cmp n q.memory (meant_calls cmp calls).nodes ∧ q.results = (meant_calls cmp calls).results := by
  rw [meant_calls,meant_all,List.foldl_map]
  exact steps_refine (fun p s call held here => step_ok order enough far p s call held here) ⟨init_stored field,rfl⟩
    (along_map.mp allowed)

/-- A program that inserts, looks for and removes nodes. -/
def few_calls : List (Call Nat) := [.insert 0 5,.insert 0 3,.insert 1 8,.insert 0 4,.find 0 3,.remove 0 5,.next 0 3]

theorem few_calls_allowed : CallsAllowed RbTree.by_value 4 few_calls := by
  simp +contextual [CallsAllowed,AllAllowed,few_calls,Call.op,Along,Allowed,meant,served,Op.head,set_insert,RbTree.by_value,
    Function.update_apply,List.orderedInsert]

/-- Every call of a run returns the node that it should, and a loop over a tree visits its
    nodes in order, although each step of it changes the tree. -/
theorem splay_runs (order : Comparison cmp) (enough : n ≤ fuel) (far : n ≤ walk) (field : N → Entry N) (calls : List (Call N))
    (allowed : CallsAllowed cmp n calls) :
    ∃ q, steps (step cmp fuel walk) ⟨splay_init field,[]⟩ calls = .ok q ∧ q.results = (meant_calls cmp calls).results ∧
      ∀ head, ∃ m', splay_foreach cmp fuel walk n head q.memory = .ok (m',(meant_calls cmp calls).nodes head) := by
  obtain ⟨q,run,stored,same⟩ := runs_stored order enough far field allowed
  refine ⟨q,run,same,fun head => ?_⟩
  obtain ⟨m',loop,-⟩ := foreach_stored order enough far stored head
  exact ⟨m',loop⟩

theorem splay_runs_few : ∃ q, steps (step RbTree.by_value 4 4) ⟨splay_init fun _ => ⟨none,none⟩,[]⟩ few_calls = .ok q ∧
    q.results = [none,none,none,none,some 3,some 5,some 4] ∧
    ∃ m', splay_foreach RbTree.by_value 4 4 4 0 q.memory = .ok (m',[3,4]) := by
  obtain ⟨q,run,results,trees⟩ := splay_runs RbTree.by_value_order (Nat.le_refl 4) (Nat.le_refl 4) (fun _ => ⟨none,none⟩) few_calls
    few_calls_allowed
  exact ⟨q,run,results,trees 0⟩

/-- After a run, the next call moves the node that it is about to the root. -/
theorem splay_runs_top (order : Comparison cmp) (enough : n ≤ fuel) (far : n ≤ walk) (field : N → Entry N) (calls : List (Call N))
    (call : Call N) (allowed : CallsAllowed cmp n (calls ++ [call])) :
    ∃ p m' res, steps (step cmp fuel walk) ⟨splay_init field,[]⟩ calls = .ok p ∧ run_call cmp fuel walk p.memory call = .ok (m',res) ∧
      (meant_calls cmp (calls ++ [call])).results = (meant_calls cmp calls).results ++ [res] ∧
      ∀ y, call.top res = some y → m'.sph_root call.head = some y := by
  rw [CallsAllowed,List.map_append] at allowed
  obtain ⟨before_,last,-⟩ := along_append.mp allowed
  obtain ⟨p,run,stored,-⟩ := runs_stored order enough far field before_
  obtain ⟨t,holds,is⟩ := stored.tree call.head
  obtain ⟨k,t',short,-,-,top,serve⟩ := stored_call order stored holds is (allowed_nodes.mp last)
  obtain ⟨m',now,holds',-⟩ := serve fuel walk (short.trans enough) far
  refine ⟨p,m',_,run,now,?_,fun y here => holds'.root.trans (top y here)⟩
  simp [meant_calls,meant_all,meant,List.foldl_append]

theorem splay_runs_top_few : ∃ p m', steps (step RbTree.by_value 4 4) ⟨splay_init fun _ => ⟨none,none⟩,[]⟩ few_calls.dropLast = .ok p ∧
    run_call RbTree.by_value 4 4 p.memory (.next 0 3) = .ok (m',some 4) ∧ m'.sph_root 0 = some 3 := by
  obtain ⟨p,m',res,run,now,results,top⟩ := splay_runs_top RbTree.by_value_order (Nat.le_refl 4) (Nat.le_refl 4) (fun _ => ⟨none,none⟩)
    few_calls.dropLast (.next 0 3) few_calls_allowed
  have results : [none,none,none,none,some 3,some 5,some 4] = [none,none,none,none,some 3,some 5] ++ [res] := results
  cases results
  exact ⟨p,m',run,now,top 3 rfl⟩

/-- A program cannot tell a splay tree from a red-black tree. -/
theorem splay_runs_rb (order : Comparison cmp) (enough : n ≤ fuel) (far : n ≤ walk) {fuel' : Nat}
    (enough' : 2 * Nat.log 2 (n + 1) ≤ fuel') (field : N → Entry N) (field' : N → RbTree.Entry N) (calls : List (Call N))
    (allowed : CallsAllowed cmp n calls) :
    ∃ q q', steps (step cmp fuel walk) ⟨splay_init field,[]⟩ calls = .ok q ∧
      steps (RbTree.step cmp fuel') ⟨RbTree.rb_init field',[]⟩ (calls.map Call.op) = .ok q' ∧ q.results = q'.results ∧
      ∀ head, ∃ m' l, splay_foreach cmp fuel walk n head q.memory = .ok (m',l) ∧ RbTree.rb_foreach fuel' n head q'.memory = .ok l := by
  obtain ⟨q,run,stored,same⟩ := runs_stored order enough far field allowed
  obtain ⟨q',run',stored',same'⟩ := RbTree.runs_stored order enough' field' allowed
  refine ⟨q,q',run,run',same.trans same'.symm,fun head => ?_⟩
  obtain ⟨m',loop,-⟩ := foreach_stored order enough far stored head
  exact ⟨m',_,loop,(RbTree.foreach_stored stored' enough' head).1⟩

theorem splay_runs_rb_few : ∃ q q', steps (step RbTree.by_value 4 4) ⟨splay_init fun _ => ⟨none,none⟩,[]⟩ few_calls = .ok q ∧
    steps (RbTree.step RbTree.by_value 4) ⟨RbTree.rb_init fun _ => ⟨none,none,none,.black⟩,[]⟩ (few_calls.map Call.op) = .ok q' ∧
    q.results = q'.results := by
  obtain ⟨q,q',run,run',same,-⟩ := splay_runs_rb RbTree.by_value_order (Nat.le_refl 4) (Nat.le_refl 4)
    (show 2 * Nat.log 2 (4 + 1) ≤ 4 by decide) (fun _ => ⟨none,none⟩) (fun _ => ⟨none,none,none,.black⟩) few_calls few_calls_allowed
  exact ⟨q,q',run,run',same⟩

/-! ### The balance theorem -/

/-- A call with its own fuel for each splay. -/
def step_with (cmp : N → N → Int) (walk : Nat) (p : Program N) (call : Call N × Nat) : Except Stop (Program N) :=
  step cmp call.2 walk p call.1

/-- What the rounds of the calls on a tree add up to. -/
theorem balance_from (order : Comparison cmp) (far : n ≤ walk) {calls : List (Call N)} {p : Program N} {s : Sets N}
    (held : Stored cmp n p.memory s.nodes ∧ p.results = s.results) (holds : Holds p.memory head t) (same : inorder t = s.nodes head)
    (one : ∀ call ∈ calls, call.head = head)
    (allowed : Along (fun s op => .ok (meant cmp s op)) (Allowed n) s (calls.map Call.op)) :
    ∃ fuels q, fuels.length = calls.length ∧ fuels.sum ≤ 2 * potential t + calls.length * (12 * Nat.log 2 n + 2) ∧
      steps (step_with cmp walk) p (calls.zip fuels) = .ok q ∧ q.results = ((calls.map Call.op).foldl (meant cmp) s).results := by
  induction calls generalizing p s t with
  | nil => exact ⟨[],p,rfl,Nat.zero_le _,rfl,held.2⟩
  | cons call calls ih =>
    obtain ⟨stored,results⟩ := held
    obtain ⟨here,later⟩ := allowed
    obtain rfl := one call List.mem_cons_self
    obtain ⟨k,t',-,paid,nodes',-,serve⟩ := stored_call order stored holds same (allowed_nodes.mp here)
    obtain ⟨m',run,holds',stored'⟩ := serve k walk (Nat.le_refl k) far
    have first : step_with cmp walk p (call,k) = .ok ⟨m',p.results ++ [(served cmp (s.nodes call.head) call.op).2]⟩ := by
      rw [step_with,step,run]
      rfl
    have next : meant cmp s call.op = ⟨Function.update s.nodes call.head (served cmp (s.nodes call.head) call.op).1,
        p.results ++ [(served cmp (s.nodes call.head) call.op).2]⟩ := by
      rw [meant,head_op,results]
    have later := later _ rfl
    rw [next] at later
    obtain ⟨fuels,q,length,sum,rest,final⟩ := ih (p := ⟨m',_⟩) ⟨stored',rfl⟩ holds' (by simp [nodes'])
      (fun c there => one c (List.mem_cons_of_mem call there)) later
    refine ⟨k :: fuels,q,by simp [length],?_,steps_cons_iff.mpr ⟨_,first,rest⟩,?_⟩
    · rw [List.sum_cons,List.length_cons,Nat.add_mul,Nat.one_mul]
      omega
    · rw [List.map_cons,List.foldl_cons,next]
      exact final

/-- No matter how the tree is shaped in between, calls on an empty tree that never gets
    more than `n` nodes take no more rounds for their splays than a logarithmic number
    for each of them. -/
theorem splay_runs_balance (order : Comparison cmp) (far : n ≤ walk) (field : N → Entry N) (head : Nat) (calls : List (Call N))
    (one : ∀ call ∈ calls, call.head = head) (allowed : CallsAllowed cmp n calls) :
    ∃ fuels q, fuels.length = calls.length ∧ fuels.sum ≤ calls.length * (12 * Nat.log 2 n + 2) ∧
      steps (step_with cmp walk) ⟨splay_init field,[]⟩ (calls.zip fuels) = .ok q ∧ q.results = (meant_calls cmp calls).results := by
  have start := @balance_from _ _ cmp n walk head .nil order far calls ⟨splay_init field,[]⟩ ⟨fun _ => [],[]⟩
    ⟨init_stored field,rfl⟩ ⟨rfl,trivial,List.nodup_nil⟩ rfl one allowed
  rwa [potential,Nat.mul_zero,Nat.zero_add] at start

theorem splay_runs_balance_few : ∃ fuels q, fuels.length = 3 ∧ fuels.sum ≤ 3 * 26 ∧
    steps (step_with RbTree.by_value 4) ⟨splay_init fun _ => ⟨none,none⟩,[]⟩
      ([Call.insert 0 5,.insert 0 3,.remove 0 5].zip fuels) = .ok q ∧ q.results = [none,none,some 5] := by
  have allowed : CallsAllowed RbTree.by_value 4 [.insert 0 5,.insert 0 3,.remove 0 5] := by
    simp +contextual [CallsAllowed,AllAllowed,Call.op,Along,Allowed,meant,served,Op.head,set_insert,RbTree.by_value,
      List.orderedInsert]
  exact splay_runs_balance RbTree.by_value_order (Nat.le_refl 4) (fun _ => ⟨none,none⟩) 0 [.insert 0 5,.insert 0 3,.remove 0 5]
    (by simp [Call.head]) allowed

end

/-! ### The walk of `SPLAY_NEXT` -/

/-- The tree that insertions in ascending order make. -/
def spine : Nat → BinaryTree Nat
  | 0 => .nil
  | n + 1 => .node n (spine n) .nil

/-- What is on the right of 0 when it has come up from the end of it. -/
def comb : Nat → BinaryTree Nat
  | 0 => .nil
  | 1 => .nil
  | 2 => .node 1 .nil .nil
  | n + 3 => .node (n + 1) (comb (n + 1)) (.node (n + 2) .nil .nil)

def ascending (n : Nat) : List (Call Nat) := (List.range n).map (Call.insert 0)

section
open RbTree (by_value)
variable {m : Memory Nat} {n fuel walk head : Nat}

theorem spine_splays (n : Nat) : ∃ k, Splays (by_value 0) (spine (n + 1)) k (.node 0 .nil (comb (n + 1))) ∧ k ≤ n + 1 := by
  induction n using Nat.strong_induction_on with
  | _ n ih =>
    match n with
    | 0 => exact ⟨0,.found rfl,Nat.zero_le _⟩
    | 1 => exact ⟨1,.zig (s := .left) (by decide) (by decide) (.found (l := .nil) (r := .nil) rfl),by decide⟩
    | n + 2 =>
      obtain ⟨k,rest,short⟩ := ih n (by omega)
      have beyond : ∀ i, Beyond .left (by_value 0 (i + 1)) := fun i => by simp only [Beyond,by_value]; omega
      exact ⟨k + 1,.zigzig (s := .left) (beyond (n + 1)) (beyond n) rest,by omega⟩

theorem comb_root (n : Nat) : ∃ y, rootOf (comb (n + 2)) = some y := by
  cases n with
  | zero => exact ⟨1,rfl⟩
  | succ n => exact ⟨n + 1,rfl⟩

/-- The walk to the leftmost node of the comb passes half of its nodes. -/
theorem leftmost_comb {x : Nat} (stands : Stands m (comb n)) (here : rootOf (comb n) = some x) (short : walk + 1 < n / 2) :
    leftmost walk m x = .error .fuel := by
  induction walk generalizing n x with
  | zero =>
    obtain ⟨n,rfl⟩ : ∃ i, n = i + 4 := ⟨n - 4,by omega⟩
    cases here
    obtain ⟨y,next⟩ := comb_root n
    have near : m.child .left (n + 2) = some y := stands.1.trans next
    rw [leftmost.eq_def]
    simp only [near]
  | succ walk ih =>
    obtain ⟨n,rfl⟩ : ∃ i, n = i + 4 := ⟨n - 4,by omega⟩
    cases here
    obtain ⟨y,next⟩ := comb_root n
    have near : m.child .left (n + 2) = some y := stands.1.trans next
    rw [leftmost.eq_def]
    simp only [near]
    exact ih stands.2.2.1 next (by omega)

theorem mem_spine {z : Nat} (there : z ∈ inorder (spine n)) : z < n := by
  induction n with
  | zero => cases there
  | succ n ih =>
    obtain before_ | here := List.mem_append.mp there
    · exact (ih before_).trans (Nat.lt_succ_self n)
    · rw [List.mem_singleton.mp here]
      exact Nat.lt_succ_self n

theorem ascending_runs (field : Nat → Entry Nat) (enough : 0 < fuel) (n : Nat) :
    ∃ q, steps (step by_value fuel walk) ⟨splay_init field,[]⟩ (ascending n) = .ok q ∧ Holds q.memory 0 (spine n) := by
  induction n with
  | zero => exact ⟨⟨splay_init field,[]⟩,rfl,rfl,trivial,List.nodup_nil⟩
  | succ n ih =>
    obtain ⟨p,run,holds⟩ := ih
    rw [ascending,List.range_succ,List.map_append]
    obtain ⟨m',now,holds'⟩ : ∃ m', splay_insert by_value fuel 0 p.memory n = .ok (m',none) ∧ Holds m' 0 (spine (n + 1)) := by
      cases n with
      | zero =>
        obtain ⟨m',now,holds',-⟩ := splay_insert_nil holds 0
        exact ⟨m',now,holds'⟩
      | succ n =>
        have beyond : Beyond .right (by_value (n + 1) n) := by simp only [Beyond,by_value]; omega
        have splays : Splays (by_value (n + 1)) (spine (n + 1)) 1 (bear .right n .nil (spine n)) := .edge (s := .right) beyond
        obtain ⟨m',now,holds',-⟩ := splay_insert_new holds splays enough beyond fun there => absurd (mem_spine there) (by omega)
        exact ⟨m',now,holds'⟩
    refine ⟨⟨m',p.results ++ [none]⟩,steps_append_iff.mpr ⟨p,run,?_⟩,holds'⟩
    rw [List.map_cons,List.map_nil,steps,step,run_call,now]
    rfl

theorem comb_height (n : Nat) : (comb (n + 1)).height ≤ n := by
  induction n using Nat.strong_induction_on with
  | _ n ih =>
    match n with
    | 0 => exact Nat.le_refl 0
    | 1 => exact Nat.le_refl 1
    | n + 2 =>
      have := ih n (by omega)
      simp only [comb,BinaryTree.height]
      omega

theorem next_runs {p : Program Nat} {t : BinaryTree Nat} {k : Nat} (holds : Holds p.memory 0 t)
    (splays : Splays (by_value 0) t k (.node 0 .nil (comb (n + 1)))) (enough : k ≤ fuel) (far : n ≤ walk) :
    ∃ q, step by_value fuel walk p (.next 0 0) = .ok q ∧ Holds q.memory 0 (.node 0 .nil (comb (n + 1))) := by
  obtain ⟨m',now,holds',-⟩ := splay_next_ok holds splays enough ((comb_height n).trans far)
  refine ⟨⟨m',p.results ++ [(inorder (comb (n + 1))).head?]⟩,?_,holds'⟩
  rw [step,run_call,now]
  rfl

/-- The rounds of the splays say nothing about the walk that `SPLAY_NEXT` takes behind
    them: after insertions in ascending order it is half as long as the tree is large,
    each time that the first node is asked for its next one again. -/
theorem splay_next_walks (field : Nat → Entry Nat) (n again fuel walk : Nat) (enough : n + 1 ≤ fuel) (far : n ≤ walk) :
    ∃ q, steps (step by_value fuel walk) ⟨splay_init field,[]⟩ (ascending (n + 1) ++ List.replicate (again + 1) (.next 0 0)) = .ok q ∧
      ∀ short, short + 1 < (n + 1) / 2 → splay_next by_value fuel short 0 q.memory 0 = .error .fuel := by
  obtain ⟨p,run,holds⟩ := @ascending_runs fuel walk field (show 0 < fuel by omega) (n + 1)
  obtain ⟨k,splays,rounds⟩ := spine_splays n
  have still : Splays (by_value 0) (.node 0 .nil (comb (n + 1))) 0 (.node 0 .nil (comb (n + 1))) := .found rfl
  obtain ⟨q,repeated,holds'⟩ : ∃ q, steps (step by_value fuel walk) p (List.replicate (again + 1) (.next 0 0)) = .ok q ∧
      Holds q.memory 0 (.node 0 .nil (comb (n + 1))) := by
    induction again with
    | zero =>
      obtain ⟨q,now,holds'⟩ := next_runs holds splays (rounds.trans enough) far
      exact ⟨q,steps_cons_iff.mpr ⟨q,now,rfl⟩,holds'⟩
    | succ again ih =>
      obtain ⟨q,repeated,holds'⟩ := ih
      obtain ⟨q',now,holds''⟩ := next_runs holds' still (Nat.zero_le fuel) far
      rw [List.replicate_succ']
      exact ⟨q',steps_append_iff.mpr ⟨q,repeated,steps_cons_iff.mpr ⟨q',now,rfl⟩⟩,holds''⟩
  refine ⟨q,steps_append_iff.mpr ⟨p,run,repeated⟩,fun short less => ?_⟩
  obtain ⟨m',splayed,after_,-⟩ := splay_ok still holds' (Nat.zero_le fuel)
  obtain ⟨i,rfl⟩ : ∃ i, n = i + 1 := ⟨n - 1,by omega⟩
  obtain ⟨y,top⟩ := comb_root i
  have far_ : m'.child .right 0 = some y := after_.stands.2.1.trans top
  rw [splay_next,splayed,ok_bind]
  simp only [far_]
  rw [leftmost_comb after_.stands.2.2.2 top less]
  rfl

theorem splay_next_walks_six : ∃ q, steps (step by_value 7 7) ⟨splay_init fun _ => ⟨none,none⟩,[]⟩
    (ascending 6 ++ [.next 0 0,.next 0 0]) = .ok q ∧ splay_next by_value 7 1 0 q.memory 0 = .error .fuel := by
  obtain ⟨q,run,stops⟩ := splay_next_walks (fun _ => ⟨none,none⟩) 5 1 7 7 (by decide) (by decide)
  exact ⟨q,run,stops 1 (by decide)⟩

end

end Htools.SplayTree
