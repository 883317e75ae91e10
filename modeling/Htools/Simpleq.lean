import Htools.ManyLists
import Htools.ListPrograms

/-!
Simple queues of `hutils/include/hutils/queue.h`. The memory has the pointers
`sqh_first` of the heads and `sqe_next` of the nodes, and `sqh_last` of each head: the
place at the end of its queue. Programs of the macros do to the pointers what is meant
for the queues (`simpleq_runs`). Nodes may be moved one by one in a safe loop, which is
the same as `SIMPLEQ_CONCAT`.
-/
namespace Htools.Simpleq
open Places ManyLists ListPrograms Runs Function

structure Memory (H N : Type) where
  pointer : Place H N → Option N
  sqh_last : H → Place H N

section
variable {H N σ : Type}

def simpleq_first (m : Memory H N) (head : H) : Option N := m.pointer (.first head)

def simpleq_next (m : Memory H N) (elm : N) : Option N := m.pointer (.next elm)

def simpleq_empty (m : Memory H N) (head : H) : Bool := (simpleq_first m head).isNone

def simpleq_foreach (body : Memory H N × σ → N → Except Stop (Memory H N × σ)) (fuel : Nat) (head : H) (s : Memory H N × σ) :
    Except Stop (Memory H N × σ) :=
  foreach simpleq_next body fuel s (simpleq_first s.1 head)

def simpleq_foreach_safe (body : Memory H N × σ → N → Except Stop (Memory H N × σ)) (fuel : Nat) (head : H) (s : Memory H N × σ) :
    Except Stop (Memory H N × σ) :=
  foreach_safe simpleq_next body fuel s (simpleq_first s.1 head)

/-- `SIMPLEQ_HEAD_INITIALIZER` for all heads, with nodes that point anywhere. -/
def simpleq_head_initializer (next : N → Option N) : Memory H N where
  pointer
    | .first _ => none
    | .next elm => next elm
  sqh_last := .first

variable [DecidableEq H] [DecidableEq N]

def Memory.write (m : Memory H N) (p : Place H N) (value : Option N) : Memory H N := { m with pointer := update m.pointer p value }

def Memory.set_last (m : Memory H N) (head : H) (p : Place H N) : Memory H N := { m with sqh_last := update m.sqh_last head p }

def simpleq_init (m : Memory H N) (head : H) : Memory H N :=
  let m := m.write (.first head) none
  m.set_last head (.first head)

def simpleq_insert_head (m : Memory H N) (head : H) (elm : N) : Memory H N :=
  let m := m.write (.next elm) (m.pointer (.first head))
  let m := if m.pointer (.next elm) = none then m.set_last head (.next elm) else m
  m.write (.first head) (some elm)

def simpleq_insert_tail (m : Memory H N) (head : H) (elm : N) : Memory H N :=
  let m := m.write (.next elm) none
  let m := m.write (m.sqh_last head) (some elm)
  m.set_last head (.next elm)

def simpleq_insert_after (m : Memory H N) (head : H) (listelm elm : N) : Memory H N :=
  let m := m.write (.next elm) (m.pointer (.next listelm))
  let m := if m.pointer (.next elm) = none then m.set_last head (.next elm) else m
  m.write (.next listelm) (some elm)

def simpleq_remove_head (m : Memory H N) (head : H) : Except Stop (Memory H N) :=
  match m.pointer (.first head) with
  | some first =>
    let m := m.write (.first head) (m.pointer (.next first))
    .ok (if m.pointer (.first head) = none then m.set_last head (.first head) else m)
  | none => .error .fault

def simpleq_remove_after (m : Memory H N) (head : H) (elm : N) : Except Stop (Memory H N) :=
  match m.pointer (.next elm) with
  | some next =>
    let m := m.write (.next elm) (m.pointer (.next next))
    .ok (if m.pointer (.next elm) = none then m.set_last head (.next elm) else m)
  | none => .error .fault

def simpleq_concat (m : Memory H N) (head1 head2 : H) : Memory H N :=
  if simpleq_empty m head2 then m
  else
    let m := m.write (m.sqh_last head1) (m.pointer (.first head2))
    let m := m.set_last head1 (m.sqh_last head2)
    simpleq_init m head2

/-- The body that moves the first node of a queue to the end of another one, and notes it. -/
def move (head head2 : H) (s : Memory H N × List N) (var : N) : Except Stop (Memory H N × List N) := do
  let m ← simpleq_remove_head s.1 head
  return (simpleq_insert_tail m head2 var,s.2 ++ [var])

end

/-- The macros, and the two loops: `move` is `SIMPLEQ_FOREACH_SAFE` with
    `SIMPLEQ_REMOVE_HEAD` and `SIMPLEQ_INSERT_TAIL` in another queue. -/
inductive Call (H N : Type) where
  | init (head : H)
  | insert_head (head : H) (elm : N)
  | insert_tail (head : H) (elm : N)
  | insert_after (head : H) (listelm elm : N)
  | remove_head (head : H)
  | remove_after (head : H) (elm : N)
  | concat (head1 head2 : H)
  | foreach (head : H)
  | move (head head2 : H)

section
variable {H N : Type} [DecidableEq H] [DecidableEq N]

def run_call (fuel : Nat) (m : Memory H N) : Call H N → Except Stop (Memory H N × List N)
  | .init head => .ok (simpleq_init m head,[])
  | .insert_head head elm => .ok (simpleq_insert_head m head elm,[])
  | .insert_tail head elm => .ok (simpleq_insert_tail m head elm,[])
  | .insert_after head listelm elm => .ok (simpleq_insert_after m head listelm elm,[])
  | .remove_head head => do return (← simpleq_remove_head m head,[])
  | .remove_after head elm => do return (← simpleq_remove_after m head elm,[])
  | .concat head1 head2 => .ok (simpleq_concat m head1 head2,[])
  | .foreach head => simpleq_foreach visit fuel head (m,[])
  | .move head head2 => simpleq_foreach_safe (move head head2) fuel head (m,[])

/-- The queues after a call, and the nodes that its loop visits. -/
def meant (nodes : H → List N) : Call H N → (H → List N) × List N
  | .init head => (update nodes head [],[])
  | .insert_head head elm => (update nodes head (elm :: nodes head),[])
  | .insert_tail head elm => (update nodes head (nodes head ++ [elm]),[])
  | .insert_after _ listelm elm => (exchange nodes listelm [listelm,elm],[])
  | .remove_head head => (update nodes head (nodes head).tail,[])
  | .remove_after _ elm => (drop_behind nodes elm,[])
  | .concat head1 head2 => (update (update nodes head1 (nodes head1 ++ nodes head2)) head2 [],[])
  | .foreach head => (nodes,nodes head)
  | .move head head2 => (update (update nodes head2 (nodes head2 ++ nodes head)) head [],nodes head)

/-- New nodes are in no queue, others are where the call needs them, and no loop is over
    more than `fuel` nodes. -/
def Allowed (fuel : Nat) (nodes : H → List N) : Call H N → Prop
  | .init _ => True
  | .insert_head _ elm => Fresh nodes elm
  | .insert_tail _ elm => Fresh nodes elm
  | .insert_after head listelm elm => listelm ∈ nodes head ∧ Fresh nodes elm
  | .remove_head head => nodes head ≠ []
  | .remove_after head elm => ∃ A x B, nodes head = A ++ elm :: x :: B
  | .concat head1 head2 => head1 ≠ head2
  | .foreach head => (nodes head).length ≤ fuel
  | .move head head2 => head2 ≠ head ∧ (nodes head).length ≤ fuel

end

section
variable {H N : Type} {fuel : Nat} {head head2 : H} {m m' : Memory H N} {nodes : H → List N} {A B : List N} {elm x : N} {p : Place H N}
  {value : Option N}

/-- The memory has the queues. -/
structure Stored (m : Memory H N) (nodes : H → List N) : Prop where
  disjoint : Disjoint nodes
  linked : Linked (fun _ v => v) m.pointer nodes
  ended : Ended m.sqh_last nodes

theorem init_stored (next : N → Option N) : Stored (simpleq_head_initializer next : Memory H N) fun _ => [] :=
  ⟨disjoint_init,linked_init fun _ => rfl,fun _ => rfl⟩

variable [DecidableEq H] [DecidableEq N]

@[simp] theorem write_pointer : (m.write p value).pointer = update m.pointer p value := rfl

/-- A new node at any place. -/
theorem Stored.put (stored : Stored m nodes) (at_ : nodes head = A ++ B) (fresh : Fresh nodes elm)
    (pointer : m'.pointer = update (update m.pointer (.next elm) (m.pointer (ends (.first head) A))) (ends (.first head) A) (some elm))
    (last : m'.sqh_last = if B.head? = none then update m.sqh_last head (.next elm) else m.sqh_last) :
    Stored m' (update nodes head (A ++ elm :: B)) where
  disjoint := stored.disjoint.put at_ fresh
  linked := by
    rw [pointer]
    exact stored.linked.put stored.disjoint at_ fresh
  ended := stored.ended.exchange [] [elm] at_ last

theorem Stored.take (stored : Stored m nodes) (at_ : nodes head = A ++ elm :: B)
    (pointer : m'.pointer = update m.pointer (ends (.first head) A) (m.pointer (.next elm)))
    (last : m'.sqh_last = if B.head? = none then update m.sqh_last head (ends (.first head) A) else m.sqh_last) :
    Stored m' (update nodes head (A ++ B)) where
  disjoint := stored.disjoint.take at_
  linked := by
    rw [pointer]
    exact stored.linked.take stored.disjoint at_
  ended := stored.ended.exchange [elm] [] at_ last

theorem simpleq_insert_tail_stored (stored : Stored m nodes) (fresh : Fresh nodes elm) (head : H) :
    Stored (simpleq_insert_tail m head elm) (update nodes head (nodes head ++ [elm])) := by
  have last := stored.ended head
  have end_ : m.pointer (ends (.first head) (nodes head)) = none := chain_end (stored.linked head)
  refine stored.put (List.append_nil _).symm fresh ?_ ?_
  · rw [end_,← last]
    rfl
  · rw [if_pos (by rfl)]
    rfl

theorem simpleq_remove_head_stored (stored : Stored m nodes) (at_ : nodes head = x :: B) :
    ∃ m', simpleq_remove_head m head = .ok m' ∧ Stored m' (update nodes head B) := by
  have first : m.pointer (.first head) = some x := by
    rw [show m.pointer (.first head) = _ from stored.linked.first head,at_]
    rfl
  have next : m.pointer (.next x) = B.head? := stored.linked.next (A := []) at_
  rw [simpleq_remove_head,first]
  refine ⟨_,rfl,stored.take (A := []) at_ ?_ ?_⟩
  · split <;> rfl
  · simp only [write_pointer,update_self,next]
    split <;> rfl

/-- What each call does to the memory is meant for the queues. -/
theorem call_stored (stored : Stored m nodes) {call : Call H N} (allowed : Allowed fuel nodes call) :
    ∃ m', run_call fuel m call = .ok (m',(meant nodes call).2) ∧ Stored m' (meant nodes call).1 := by
  have first : ∀ head, m.pointer (.first head) = (nodes head).head? := stored.linked.first
  cases call with
  | init head =>
    exact ⟨_,rfl,stored.disjoint.sublist (List.nil_sublist _),stored.linked.clear fun _ _ => rfl,stored.ended.clear⟩
  | insert_head head elm =>
    refine ⟨_,rfl,stored.put (A := []) rfl allowed ?_ ?_⟩
    · rw [simpleq_insert_head]
      split <;> rfl
    · rw [← first head,simpleq_insert_head]
      simp only [write_pointer,update_self]
      split <;> rfl
  | insert_tail head elm => exact ⟨_,rfl,simpleq_insert_tail_stored stored allowed head⟩
  | insert_after head listelm elm =>
    obtain ⟨there,fresh⟩ := allowed
    obtain ⟨A,B,at_⟩ := List.append_of_mem there
    have next : m.pointer (.next listelm) = B.head? := stored.linked.next at_
    have place : ends (.first head) (A ++ [listelm]) = .next listelm := ends_concat
    refine ⟨_,rfl,?_⟩
    rw [meant,stored.disjoint.exchange at_]
    refine List.append_cons A listelm (elm :: B) ▸ stored.put (at_.trans (List.append_cons A listelm B)) fresh ?_ ?_
    · rw [place,simpleq_insert_after]
      split <;> rfl
    · rw [← next,simpleq_insert_after]
      simp only [write_pointer,update_self]
      split <;> rfl
  | remove_head head =>
    obtain ⟨x,B,at_⟩ := List.exists_cons_of_ne_nil allowed
    obtain ⟨m',run,stored'⟩ := simpleq_remove_head_stored stored at_
    refine ⟨m',?_,?_⟩
    · rw [run_call,run]
      rfl
    · rw [meant,at_]
      exact stored'
  | remove_after head elm =>
    obtain ⟨A,x,B,at_⟩ := allowed
    have next : m.pointer (.next elm) = some x := stored.linked.next at_
    have at_' : nodes head = (A ++ [elm]) ++ x :: B := at_.trans (List.append_cons A elm (x :: B))
    have next' : m.pointer (.next x) = B.head? := stored.linked.next at_'
    have place : ends (.first head) (A ++ [elm]) = .next elm := ends_concat
    rw [run_call,simpleq_remove_after,next]
    refine ⟨_,rfl,?_⟩
    rw [meant,stored.disjoint.drop_behind at_]
    refine List.append_cons A elm B ▸ stored.take at_' ?_ ?_
    · rw [place]
      split <;> rfl
    · simp only [write_pointer,update_self,next',place]
      split <;> rfl
  | concat head1 head2 =>
    refine ⟨_,rfl,?_⟩
    rw [meant,simpleq_concat]
    by_cases none_ : nodes head2 = []
    · have empty : simpleq_empty m head2 = true := by
        rw [simpleq_empty,simpleq_first,first,none_]
        rfl
      rw [if_pos empty,concat_nil none_]
      exact stored
    · have empty : ¬simpleq_empty m head2 = true := by
        rw [simpleq_empty,simpleq_first,first]
        simpa using none_
      rw [if_neg empty]
      refine ⟨stored.disjoint.concat allowed,?_,stored.ended.concat none_⟩
      have linked := stored.linked.concat stored.disjoint allowed rfl
      rw [← stored.ended head1] at linked
      exact linked
  | foreach head =>
    refine ⟨m,?_,stored⟩
    rw [run_call,simpleq_foreach,show simpleq_first m head = _ from first head]
    exact foreach_visit (fun A var B at_ => stored.linked.next at_) allowed
  | move head head2 =>
    obtain ⟨differ,enough⟩ := allowed
    have one : ∀ A var B (s : Memory H N × List N), nodes head = A ++ var :: B →
        (s.2 = A ∧ ∀ B, nodes head = A ++ B → Stored s.1 (update (update nodes head2 (nodes head2 ++ A)) head B)) →
        simpleq_next s.1 var = B.head? ∧ ∃ s', move head head2 s var = .ok s' ∧ s'.2 = A ++ [var] ∧
          ∀ B, nodes head = (A ++ [var]) ++ B → Stored s'.1 (update (update nodes head2 (nodes head2 ++ (A ++ [var]))) head B) := by
      rintro A var B ⟨m,log⟩ split ⟨rfl,held⟩
      have here := held (var :: B) split
      have first : update (update nodes head2 (nodes head2 ++ log)) head (var :: B) head = var :: B := update_self _ _ _
      obtain ⟨m',run,removed⟩ := simpleq_remove_head_stored here first
      have fresh := here.disjoint.fresh_take (A := []) first
      have tailed := simpleq_insert_tail_stored removed fresh head2
      refine ⟨here.linked.next (A := []) first,(simpleq_insert_tail m' head2 var,log ++ [var]),?_,rfl,fun C split' => ?_⟩
      · rw [move,run]
        rfl
      · have same : C = B := by
          rw [split,List.append_assoc] at split'
          exact (List.cons.inj (List.append_cancel_left split')).2.symm
        rw [same]
        rw [update_idem,update_of_ne differ,update_self,update_comm (Ne.symm differ),update_idem,List.append_assoc] at tailed
        exact tailed
    have start : ∀ B, nodes head = [] ++ B → Stored m (update (update nodes head2 (nodes head2 ++ [])) head B) := by
      rintro B rfl
      rw [List.append_nil,update_eq_self,update_eq_self]
      exact stored
    rw [run_call,simpleq_foreach_safe,show simpleq_first m head = _ from first head]
    obtain ⟨⟨m',log⟩,run,rfl,held⟩ := foreach_safe_ok (s := (m,[]))
      (I := fun A s => s.2 = A ∧ ∀ B, nodes head = A ++ B → Stored s.1 (update (update nodes head2 (nodes head2 ++ A)) head B))
      one ⟨rfl,start⟩ enough
    exact ⟨m',run,held [] (List.append_nil _).symm⟩

theorem runs_stored (fuel : Nat) (next : N → Option N) {calls : List (Call H N)} (allowed : AllAllowed meant (Allowed fuel) calls) :
    ∃ p, steps (step (run_call fuel)) ⟨(simpleq_head_initializer next : Memory H N),[]⟩ calls = .ok p ∧
      p.results = (meant_all meant calls).results ∧ Stored p.memory (meant_all meant calls).nodes :=
  runs_ok (fun _ _ _ stored permitted => call_stored stored permitted) (init_stored next) allowed

/-- A program of the macros sees the nodes of the queues that it is meant to have. -/
theorem simpleq_runs (fuel : Nat) (next : N → Option N) {calls : List (Call H N)} (allowed : AllAllowed meant (Allowed fuel) calls) :
    ∃ p, steps (step (run_call fuel)) ⟨(simpleq_head_initializer next : Memory H N),[]⟩ calls = .ok p ∧
      p.results = (meant_all meant calls).results ∧
      ∀ head, simpleq_empty p.memory head = ((meant_all meant calls).nodes head).isEmpty ∧
        p.memory.sqh_last head = ends (.first head) ((meant_all meant calls).nodes head) := by
  obtain ⟨p,run,same,stored⟩ := runs_stored fuel next allowed
  refine ⟨p,run,same,fun head => ⟨?_,stored.ended head⟩⟩
  rw [simpleq_empty,show simpleq_first p.memory head = _ from stored.linked.first head]
  cases (meant_all meant calls).nodes head <;> rfl

def few_calls : List (Call Nat Nat) :=
  [.insert_tail 0 1,.insert_head 0 2,.insert_after 0 1 3,.remove_head 0,.move 0 1,.concat 0 1,.foreach 0]

theorem few_calls_allowed : AllAllowed meant (Allowed 3) few_calls := by
  refine along_cons_iff.mpr ⟨fresh_init,along_cons_iff.mpr ⟨fresh_init.update (by decide),along_cons_iff.mpr ⟨⟨by decide,?_⟩,?_⟩⟩⟩
  · exact (fresh_init.update (by decide)).update (by decide)
  refine along_cons_iff.mpr ⟨?_,along_cons_iff.mpr ⟨⟨by decide,?_⟩,along_cons_iff.mpr ⟨?_,along_cons_iff.mpr ⟨?_,trivial⟩⟩⟩⟩
  · exact List.cons_ne_nil 2 [1,3]
  · exact Nat.le_succ 2
  · exact Nat.zero_ne_one
  · exact Nat.le_succ 2

theorem simpleq_runs_few : ∃ p, steps (step (run_call 3)) ⟨simpleq_head_initializer fun _ => none,[]⟩ few_calls = .ok p ∧
    p.results = [[],[],[],[],[1,3],[],[1,3]] := by
  obtain ⟨p,run,same,-⟩ := simpleq_runs 3 (fun _ => none) few_calls_allowed
  exact ⟨p,run,same⟩

end

end Htools.Simpleq
