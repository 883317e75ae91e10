import Htools.ManyLists
import Htools.ListPrograms

/-!
Lists of `hutils/include/hutils/queue.h`. The memory has the pointers `lh_first` of
the heads and `le_next` of the nodes, and `le_prev` of each node: the place that
points at it. Nodes are put in, taken out and replaced without a search, and without
the head. Programs of the macros do to the pointers what is meant for the lists
(`list_runs`).
-/
namespace Htools.LinkList
open Places ManyLists ListPrograms Runs Function

structure Memory (H N : Type) where
  pointer : Place H N → Option N
  le_prev : N → Place H N

section
variable {H N σ : Type}

def list_first (m : Memory H N) (head : H) : Option N := m.pointer (.first head)

def list_next (m : Memory H N) (elm : N) : Option N := m.pointer (.next elm)

def list_empty (m : Memory H N) (head : H) : Bool := (list_first m head).isNone

def list_foreach (body : Memory H N × σ → N → Except Stop (Memory H N × σ)) (fuel : Nat) (head : H) (s : Memory H N × σ) :
    Except Stop (Memory H N × σ) :=
  foreach list_next body fuel s (list_first s.1 head)

def list_foreach_safe (body : Memory H N × σ → N → Except Stop (Memory H N × σ)) (fuel : Nat) (head : H) (s : Memory H N × σ) :
    Except Stop (Memory H N × σ) :=
  foreach_safe list_next body fuel s (list_first s.1 head)

/-- `LIST_HEAD_INITIALIZER` for all heads, with nodes that point anywhere. -/
def list_head_initializer (next : N → Option N) (prev : N → Place H N) : Memory H N where
  pointer
    | .first _ => none
    | .next elm => next elm
  le_prev := prev

variable [DecidableEq H] [DecidableEq N]

def Memory.write (m : Memory H N) (p : Place H N) (value : Option N) : Memory H N := { m with pointer := update m.pointer p value }

/-- The pointer back of a node, if there is one. -/
def Memory.back (m : Memory H N) (elm : Option N) (p : Place H N) : Memory H N :=
  match elm with
  | some elm => { m with le_prev := update m.le_prev elm p }
  | none => m

def list_init (m : Memory H N) (head : H) : Memory H N := m.write (.first head) none

def list_insert_after (m : Memory H N) (listelm elm : N) : Memory H N :=
  let m := m.write (.next elm) (m.pointer (.next listelm))
  let m := m.back (m.pointer (.next listelm)) (.next elm)
  let m := m.write (.next listelm) (some elm)
  m.back (some elm) (.next listelm)

def list_insert_before (m : Memory H N) (listelm elm : N) : Memory H N :=
  let m := m.back (some elm) (m.le_prev listelm)
  let m := m.write (.next elm) (some listelm)
  let m := m.write (m.le_prev listelm) (some elm)
  m.back (some listelm) (.next elm)

def list_insert_head (m : Memory H N) (head : H) (elm : N) : Memory H N :=
  let m := m.write (.next elm) (m.pointer (.first head))
  let m := m.back (m.pointer (.first head)) (.next elm)
  let m := m.write (.first head) (some elm)
  m.back (some elm) (.first head)

def list_remove (m : Memory H N) (elm : N) : Memory H N :=
  let m := m.back (m.pointer (.next elm)) (m.le_prev elm)
  m.write (m.le_prev elm) (m.pointer (.next elm))

def list_replace (m : Memory H N) (elm elm2 : N) : Memory H N :=
  let m := m.write (.next elm2) (m.pointer (.next elm))
  let m := m.back (m.pointer (.next elm2)) (.next elm2)
  let m := m.back (some elm2) (m.le_prev elm)
  m.write (m.le_prev elm2) (some elm2)

end

/-- The macros, and the two loops: `remove_where` is `LIST_FOREACH_SAFE` with
    `LIST_REMOVE` of some nodes. -/
inductive Call (H N : Type) where
  | init (head : H)
  | insert_after (listelm elm : N)
  | insert_before (listelm elm : N)
  | insert_head (head : H) (elm : N)
  | remove (elm : N)
  | replace (elm elm2 : N)
  | foreach (head : H)
  | remove_where (head : H) (p : N → Bool)

section
variable {H N : Type} [DecidableEq H] [DecidableEq N]

def run_call (fuel : Nat) (m : Memory H N) : Call H N → Except Stop (Memory H N × List N)
  | .init head => .ok (list_init m head,[])
  | .insert_after listelm elm => .ok (list_insert_after m listelm elm,[])
  | .insert_before listelm elm => .ok (list_insert_before m listelm elm,[])
  | .insert_head head elm => .ok (list_insert_head m head elm,[])
  | .remove elm => .ok (list_remove m elm,[])
  | .replace elm elm2 => .ok (list_replace m elm elm2,[])
  | .foreach head => list_foreach visit fuel head (m,[])
  | .remove_where head p => list_foreach_safe (remove_where (fun m elm => .ok (list_remove m elm)) p) fuel head (m,[])

/-- The lists after a call, and the nodes that its loop visits. -/
def meant (nodes : H → List N) : Call H N → (H → List N) × List N
  | .init head => (update nodes head [],[])
  | .insert_after listelm elm => (exchange nodes listelm [listelm,elm],[])
  | .insert_before listelm elm => (exchange nodes listelm [elm,listelm],[])
  | .insert_head head elm => (update nodes head (elm :: nodes head),[])
  | .remove elm => (exchange nodes elm [],[])
  | .replace elm elm2 => (exchange nodes elm [elm2],[])
  | .foreach head => (nodes,nodes head)
  | .remove_where head p => (update nodes head ((nodes head).filter fun z => !p z),nodes head)

/-- New nodes are in no list, others are in one, and no loop is over more than `fuel` nodes. -/
def Allowed (fuel : Nat) (nodes : H → List N) : Call H N → Prop
  | .init _ => True
  | .insert_after listelm elm => (∃ head, listelm ∈ nodes head) ∧ Fresh nodes elm
  | .insert_before listelm elm => (∃ head, listelm ∈ nodes head) ∧ Fresh nodes elm
  | .insert_head _ elm => Fresh nodes elm
  | .remove elm => ∃ head, elm ∈ nodes head
  | .replace elm elm2 => (∃ head, elm ∈ nodes head) ∧ Fresh nodes elm2
  | .foreach head => (nodes head).length ≤ fuel
  | .remove_where head _ => (nodes head).length ≤ fuel

end

section
variable {H N : Type} {fuel : Nat} {head : H} {m m' : Memory H N} {nodes : H → List N} {A B : List N} {elm x : N} {p q : Place H N}
  {value target : Option N}

/-- The memory has the lists. -/
def Stored (m : Memory H N) (nodes : H → List N) : Prop := DoublyLinked m.pointer m.le_prev nodes

theorem init_stored (next : N → Option N) (prev : N → Place H N) : Stored (list_head_initializer next prev) fun _ => [] :=
  ⟨disjoint_init,linked_init fun _ => rfl,fun _ => trivial⟩

variable [DecidableEq H] [DecidableEq N]

@[simp] theorem write_pointer : (m.write p value).pointer = update m.pointer p value := rfl

@[simp] theorem write_prev : (m.write p value).le_prev = m.le_prev := rfl

omit [DecidableEq H] in
@[simp] theorem back_pointer : (m.back target p).pointer = m.pointer := by
  cases target <;> rfl

omit [DecidableEq H] in
@[simp] theorem back_prev (z : N) : (m.back target p).le_prev z = if target = some z then p else m.le_prev z := by
  cases target with
  | none => simp [Memory.back]
  | some y => simp [Memory.back,update_apply,eq_comm]

theorem list_insert_after_stored (stored : Stored m nodes) (at_ : nodes head = A ++ x :: B) (fresh : Fresh nodes elm) :
    Stored (list_insert_after m x elm) (update nodes head (A ++ x :: elm :: B)) := by
  have differ : x ≠ elm := fresh.ne (at_ ▸ List.mem_append_right A List.mem_cons_self)
  have next : m.pointer (.next x) = B.head? := stored.linked.next at_
  have place : ends (.first head) (A ++ [x]) = .next x := ends_concat
  rw [List.append_cons A x (elm :: B)]
  refine stored.put (at_.trans (List.append_cons A x B)) fresh ?_ fun z => ?_
  · rw [place]
    simp [list_insert_after]
  · rw [place,list_insert_after,back_prev,write_prev,back_prev,write_pointer,write_prev,update_of_ne (by simpa using differ),next]
    simp [eq_comm]

theorem list_insert_head_stored (stored : Stored m nodes) (fresh : Fresh nodes elm) (head : H) :
    Stored (list_insert_head m head elm) (update nodes head (elm :: nodes head)) := by
  have first : m.pointer (.first head) = (nodes head).head? := stored.linked.first head
  refine stored.put (A := []) rfl fresh ?_ fun z => ?_
  · simp [list_insert_head,ends]
  · rw [ends,list_insert_head,back_prev,write_prev,back_prev,write_pointer,write_prev,update_of_ne (by simp),first]
    simp [eq_comm]

theorem list_insert_before_stored (stored : Stored m nodes) (at_ : nodes head = A ++ x :: B) (fresh : Fresh nodes elm) :
    Stored (list_insert_before m x elm) (update nodes head (A ++ elm :: x :: B)) := by
  have differ : elm ≠ x := Ne.symm (fresh.ne (at_ ▸ List.mem_append_right A List.mem_cons_self))
  have points := stored.points at_
  have place := stored.place at_
  refine stored.put at_ fresh ?_ fun z => ?_
  · rw [points,← place]
    simp [list_insert_before,differ]
  · rw [list_insert_before]
    simp only [back_prev,write_prev,place,List.head?_cons]
    by_cases new : elm = z
    · subst new
      simp [Ne.symm differ]
    · simp [new,eq_comm]

theorem list_remove_stored (stored : Stored m nodes) (at_ : nodes head = A ++ elm :: B) :
    Stored (list_remove m elm) (update nodes head (A ++ B)) := by
  have next : m.pointer (.next elm) = B.head? := stored.linked.next at_
  have place := stored.place at_
  have other : B.head? ≠ some elm := fun first => (stored.disjoint.node at_).2 (List.mem_of_head? first)
  refine stored.take at_ ?_ fun z => ?_
  · simp [list_remove,place,next,other]
  · simp [list_remove,place,next]

theorem list_replace_stored (stored : Stored m nodes) (at_ : nodes head = A ++ elm :: B) (fresh : Fresh nodes x) :
    Stored (list_replace m elm x) (update nodes head (A ++ x :: B)) := by
  have next : m.pointer (.next elm) = B.head? := stored.linked.next at_
  have place := stored.place at_
  have other : B.head? ≠ some elm := fun first => (stored.disjoint.node at_).2 (List.mem_of_head? first)
  refine stored.replace at_ fresh ?_ fun z => ?_
  · simp [list_replace,place,next,other]
  · simp [list_replace,place,next,other,eq_comm]

/-- What each call does to the memory is meant for the lists. -/
theorem call_stored (stored : Stored m nodes) {call : Call H N} (allowed : Allowed fuel nodes call) :
    ∃ m', run_call fuel m call = .ok (m',(meant nodes call).2) ∧ Stored m' (meant nodes call).1 := by
  have first : ∀ head, list_first m head = (nodes head).head? := stored.linked.first
  cases call with
  | init head =>
    exact ⟨_,rfl,stored.clear head⟩
  | insert_after listelm elm =>
    obtain ⟨⟨head,there⟩,fresh⟩ := allowed
    obtain ⟨A,B,at_⟩ := List.append_of_mem there
    refine ⟨_,rfl,?_⟩
    rw [meant,stored.disjoint.exchange at_]
    exact list_insert_after_stored stored at_ fresh
  | insert_before listelm elm =>
    obtain ⟨⟨head,there⟩,fresh⟩ := allowed
    obtain ⟨A,B,at_⟩ := List.append_of_mem there
    refine ⟨_,rfl,?_⟩
    rw [meant,stored.disjoint.exchange at_]
    exact list_insert_before_stored stored at_ fresh
  | insert_head head elm => exact ⟨_,rfl,list_insert_head_stored stored allowed head⟩
  | remove elm =>
    obtain ⟨head,there⟩ := allowed
    obtain ⟨A,B,at_⟩ := List.append_of_mem there
    refine ⟨_,rfl,?_⟩
    rw [meant,stored.disjoint.exchange at_]
    exact list_remove_stored stored at_
  | replace elm elm2 =>
    obtain ⟨⟨head,there⟩,fresh⟩ := allowed
    obtain ⟨A,B,at_⟩ := List.append_of_mem there
    refine ⟨_,rfl,?_⟩
    rw [meant,stored.disjoint.exchange at_]
    exact list_replace_stored stored at_ fresh
  | foreach head =>
    refine ⟨m,?_,stored⟩
    rw [run_call,list_foreach,first head]
    exact foreach_visit (fun A var B at_ => stored.linked.next at_) allowed
  | remove_where head p =>
    rw [run_call,list_foreach_safe,first head]
    refine foreach_safe_remove (S := fun m l => Stored m (update nodes head l))
      (fun m A var B held => held.linked.next (update_self head _ nodes)) (fun m A var B held => ⟨_,rfl,?_⟩) p ?_ allowed
    · have taken := list_remove_stored held (update_self head _ nodes)
      rwa [update_idem] at taken
    · rwa [update_eq_self]

/-- A program of the macros sees the nodes of the lists that it is meant to have, and every
    node has the place that points at it. -/
theorem list_runs (fuel : Nat) (next : N → Option N) (prev : N → Place H N) {calls : List (Call H N)}
    (allowed : AllAllowed meant (Allowed fuel) calls) :
    ∃ p, steps (step (run_call fuel)) ⟨list_head_initializer next prev,[]⟩ calls = .ok p ∧
      p.results = (meant_all meant calls).results ∧
      ∀ head, list_empty p.memory head = ((meant_all meant calls).nodes head).isEmpty ∧
        ∀ elm ∈ (meant_all meant calls).nodes head, p.memory.pointer (p.memory.le_prev elm) = some elm := by
  obtain ⟨p,run,same,stored⟩ := runs_ok (fun _ _ _ stored permitted => call_stored stored permitted) (init_stored next prev) allowed
  refine ⟨p,run,same,fun head => ⟨?_,fun elm there => ?_⟩⟩
  · rw [list_empty,show list_first p.memory head = _ from stored.linked.first head]
    cases (meant_all meant calls).nodes head <;> rfl
  · obtain ⟨A,B,at_⟩ := List.append_of_mem there
    rw [stored.place at_]
    exact stored.points at_

def few_calls : List (Call Nat Nat) :=
  [.insert_head 0 1,.insert_before 1 2,.insert_after 1 3,.replace 1 4,.remove_where 0 fun z => z < 3,.foreach 0]

theorem few_calls_allowed : AllAllowed meant (Allowed 3) few_calls := by
  refine along_cons_iff.mpr ⟨fresh_init,along_cons_iff.mpr ⟨⟨⟨0,by decide⟩,?_⟩,along_cons_iff.mpr ⟨⟨⟨0,by decide⟩,?_⟩,?_⟩⟩⟩
  · exact fresh_init.update (by decide)
  · exact (fresh_init.update (by decide)).exchange (by decide)
  refine along_cons_iff.mpr ⟨⟨⟨0,by decide⟩,?_⟩,along_cons_iff.mpr ⟨?_,along_cons_iff.mpr ⟨?_,trivial⟩⟩⟩
  · exact ((fresh_init.update (by decide)).exchange (by decide)).exchange (by decide)
  · exact Nat.le_refl 3
  · exact Nat.le_succ 2

theorem list_runs_few : ∃ p, steps (step (run_call 3)) ⟨list_head_initializer (fun _ => none) .next,[]⟩ few_calls = .ok p ∧
    p.results = [[],[],[],[],[2,4,3],[4,3]] := by
  obtain ⟨p,run,same,-⟩ := list_runs 3 (fun _ => none) .next few_calls_allowed
  exact ⟨p,run,same⟩

end

end Htools.LinkList
