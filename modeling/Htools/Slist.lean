import Htools.ManyLists
import Htools.ListPrograms

/-!
Singly-linked lists of `hutils/include/hutils/queue.h`. The memory has the pointers
`slh_first` of the heads and `sle_next` of the nodes. Programs of the macros do to
them what is meant for the lists (`slist_runs`), also where a safe loop takes nodes
out on its way.
-/
namespace Htools.Slist
open Places ManyLists ListPrograms Runs Function

abbrev Memory (H N : Type) := Place H N → Option N

section
variable {H N σ : Type}

def slist_first (m : Memory H N) (head : H) : Option N := m (.first head)

def slist_next (m : Memory H N) (elm : N) : Option N := m (.next elm)

def slist_empty (m : Memory H N) (head : H) : Bool := (slist_first m head).isNone

def slist_foreach (body : Memory H N × σ → N → Except Stop (Memory H N × σ)) (fuel : Nat) (head : H) (s : Memory H N × σ) :
    Except Stop (Memory H N × σ) :=
  foreach slist_next body fuel s (slist_first s.1 head)

def slist_foreach_safe (body : Memory H N × σ → N → Except Stop (Memory H N × σ)) (fuel : Nat) (head : H) (s : Memory H N × σ) :
    Except Stop (Memory H N × σ) :=
  foreach_safe slist_next body fuel s (slist_first s.1 head)

/-- `SLIST_HEAD_INITIALIZER` for all heads, with nodes that point anywhere. -/
def slist_head_initializer (next : N → Option N) : Memory H N
  | .first _ => none
  | .next elm => next elm

variable [DecidableEq H] [DecidableEq N]

def slist_init (m : Memory H N) (head : H) : Memory H N := update m (.first head) none

def slist_insert_after (m : Memory H N) (slistelm elm : N) : Memory H N :=
  let m := update m (.next elm) (m (.next slistelm))
  update m (.next slistelm) (some elm)

def slist_insert_head (m : Memory H N) (head : H) (elm : N) : Memory H N :=
  let m := update m (.next elm) (m (.first head))
  update m (.first head) (some elm)

def slist_remove_after (m : Memory H N) (elm : N) : Except Stop (Memory H N) :=
  match m (.next elm) with
  | some next => .ok (update m (.next elm) (m (.next next)))
  | none => .error .fault

def slist_remove_head (m : Memory H N) (head : H) : Except Stop (Memory H N) :=
  match m (.first head) with
  | some first => .ok (update m (.first head) (m (.next first)))
  | none => .error .fault

/-- The loop of `SLIST_REMOVE` from `curelm` on, and what follows. -/
def slist_remove_from (m : Memory H N) (elm : N) : Nat → Option N → Except Stop (Memory H N)
  | _,none => .error .fault
  | 0,some _ => .error .fuel
  | fuel + 1,some curelm =>
    if m (.next curelm) = some elm then slist_remove_after m curelm
    else slist_remove_from m elm fuel (m (.next curelm))

def slist_remove (fuel : Nat) (m : Memory H N) (head : H) (elm : N) : Except Stop (Memory H N) :=
  if m (.first head) = some elm then slist_remove_head m head
  else slist_remove_from m elm fuel (m (.first head))

end

/-- The macros, and the two loops: `remove_where` is `SLIST_FOREACH_SAFE` with
    `SLIST_REMOVE` of some nodes. -/
inductive Call (H N : Type) where
  | init (head : H)
  | insert_after (slistelm elm : N)
  | insert_head (head : H) (elm : N)
  | remove_after (elm : N)
  | remove_head (head : H)
  | remove (head : H) (elm : N)
  | foreach (head : H)
  | remove_where (head : H) (p : N → Bool)

section
variable {H N : Type} [DecidableEq H] [DecidableEq N]

def run_call (fuel : Nat) (m : Memory H N) : Call H N → Except Stop (Memory H N × List N)
  | .init head => .ok (slist_init m head,[])
  | .insert_after slistelm elm => .ok (slist_insert_after m slistelm elm,[])
  | .insert_head head elm => .ok (slist_insert_head m head elm,[])
  | .remove_after elm => do return (← slist_remove_after m elm,[])
  | .remove_head head => do return (← slist_remove_head m head,[])
  | .remove head elm => do return (← slist_remove fuel m head elm,[])
  | .foreach head => slist_foreach visit fuel head (m,[])
  | .remove_where head p => slist_foreach_safe (remove_where (fun m elm => slist_remove fuel m head elm) p) fuel head (m,[])

/-- The lists after a call, and the nodes that its loop visits. -/
def meant (nodes : H → List N) : Call H N → (H → List N) × List N
  | .init head => (update nodes head [],[])
  | .insert_after slistelm elm => (exchange nodes slistelm [slistelm,elm],[])
  | .insert_head head elm => (update nodes head (elm :: nodes head),[])
  | .remove_after elm => (drop_behind nodes elm,[])
  | .remove_head head => (update nodes head (nodes head).tail,[])
  | .remove _ elm => (exchange nodes elm [],[])
  | .foreach head => (nodes,nodes head)
  | .remove_where head p => (update nodes head ((nodes head).filter fun z => !p z),nodes head)

/-- New nodes are in no list, others are where the call needs them, and no loop is over more than `fuel` nodes. -/
def Allowed (fuel : Nat) (nodes : H → List N) : Call H N → Prop
  | .init _ => True
  | .insert_after slistelm elm => (∃ head, slistelm ∈ nodes head) ∧ Fresh nodes elm
  | .insert_head _ elm => Fresh nodes elm
  | .remove_after elm => ∃ head A x B, nodes head = A ++ elm :: x :: B
  | .remove_head head => nodes head ≠ []
  | .remove head elm => elm ∈ nodes head ∧ (nodes head).length ≤ fuel
  | .foreach head => (nodes head).length ≤ fuel
  | .remove_where head _ => (nodes head).length ≤ fuel

end

section
variable {H N : Type} {fuel : Nat} {head : H} {m : Memory H N} {nodes : H → List N} {A B C : List N} {elm x : N}

/-- The memory has the lists. -/
structure Stored (m : Memory H N) (nodes : H → List N) : Prop where
  disjoint : Disjoint nodes
  linked : Linked (fun _ v => v) m nodes

theorem init_stored (next : N → Option N) : Stored (slist_head_initializer next : Memory H N) fun _ => [] :=
  ⟨disjoint_init,linked_init fun _ => rfl⟩

variable [DecidableEq H] [DecidableEq N]

/-- A node behind a place is taken out by a write at the place. -/
theorem Stored.take (stored : Stored m nodes) (at_ : nodes head = A ++ elm :: B) :
    Stored (update m (ends (.first head) A) (m (.next elm))) (update nodes head (A ++ B)) :=
  ⟨stored.disjoint.take at_,stored.linked.take stored.disjoint at_⟩

theorem Stored.put (stored : Stored m nodes) (at_ : nodes head = A ++ B) (fresh : Fresh nodes elm) :
    Stored (update (update m (.next elm) (m (ends (.first head) A))) (ends (.first head) A) (some elm))
      (update nodes head (A ++ elm :: B)) :=
  ⟨stored.disjoint.put at_ fresh,stored.linked.put stored.disjoint at_ fresh⟩

/-- The search for the node before one. -/
theorem slist_remove_from_ok (linked : Linked (fun _ v => v) m nodes) (at_ : nodes head = A ++ x :: (C ++ elm :: B)) (fresh : elm ∉ C)
    (enough : C.length < fuel) : slist_remove_from m elm fuel (some x) = .ok (update m (ends (.next x) C) (m (.next elm))) := by
  induction C generalizing A x fuel with
  | nil =>
    have next : m (.next x) = some elm := linked.next at_
    cases fuel with
    | zero => cases enough
    | succ fuel => rw [slist_remove_from,if_pos next,slist_remove_after,next,ends]
  | cons y C ih =>
    have next : m (.next x) = some y := linked.next at_
    have differ : some y ≠ some elm := by
      rintro ⟨⟩
      exact fresh List.mem_cons_self
    cases fuel with
    | zero => cases enough
    | succ fuel =>
      rw [slist_remove_from,next,if_neg differ,ends]
      have at_' : nodes head = (A ++ [x]) ++ y :: (C ++ elm :: B) := by
        rw [at_,List.append_assoc]
        rfl
      exact ih at_' (fun there => fresh (List.mem_cons_of_mem y there)) (Nat.lt_of_succ_lt_succ enough)

theorem slist_remove_ok (stored : Stored m nodes) (at_ : nodes head = A ++ elm :: B) (enough : (nodes head).length ≤ fuel) :
    slist_remove fuel m head elm = .ok (update m (ends (.first head) A) (m (.next elm))) := by
  have first : m (.first head) = (nodes head).head? := stored.linked.first head
  obtain ⟨before,-⟩ := stored.disjoint.node at_
  rw [at_] at first enough
  cases A with
  | nil =>
    have here : m (.first head) = some elm := first
    rw [slist_remove,if_pos here,slist_remove_head,here,ends]
  | cons x C =>
    have there : m (.first head) = some x := first
    have differ : some x ≠ some elm := by
      rintro ⟨⟩
      exact before List.mem_cons_self
    rw [slist_remove,there,if_neg differ]
    refine slist_remove_from_ok (A := []) stored.linked at_ (fun there => before (List.mem_cons_of_mem x there)) ?_
    rw [List.length_append,List.length_cons,List.length_cons] at enough
    omega

/-- What each call does to the memory is meant for the lists. -/
theorem call_stored (stored : Stored m nodes) {call : Call H N} (allowed : Allowed fuel nodes call) :
    ∃ m', run_call fuel m call = .ok (m',(meant nodes call).2) ∧ Stored m' (meant nodes call).1 := by
  obtain ⟨disjoint,linked⟩ := stored
  have stored : Stored m nodes := ⟨disjoint,linked⟩
  have first : ∀ head, slist_first m head = (nodes head).head? := linked.first
  cases call with
  | init head => exact ⟨_,rfl,disjoint.sublist (List.nil_sublist _),linked.clear fun _ _ => rfl⟩
  | insert_after slistelm elm =>
    obtain ⟨⟨head,there⟩,fresh⟩ := allowed
    obtain ⟨A,B,at_⟩ := List.append_of_mem there
    have put := stored.put (A := A ++ [slistelm]) (at_.trans (List.append_cons A slistelm B)) fresh
    rw [ends_concat,List.append_assoc] at put
    refine ⟨_,rfl,?_⟩
    rw [meant,disjoint.exchange at_]
    exact put
  | insert_head head elm => exact ⟨_,rfl,stored.put (A := []) rfl allowed⟩
  | remove_after elm =>
    obtain ⟨head,A,x,B,at_⟩ := allowed
    have next : m (.next elm) = some x := linked.next at_
    have taken := stored.take (A := A ++ [elm]) (at_.trans (List.append_cons A elm (x :: B)))
    rw [ends_concat,List.append_assoc] at taken
    refine ⟨update m (.next elm) (m (.next x)),?_,?_⟩
    · rw [run_call,slist_remove_after,next]
      rfl
    · rw [meant,disjoint.drop_behind at_]
      exact taken
  | remove_head head =>
    obtain ⟨x,B,at_⟩ := List.exists_cons_of_ne_nil allowed
    have here : m (.first head) = some x := by
      rw [show m (.first head) = _ from first head,at_]
      rfl
    refine ⟨update m (.first head) (m (.next x)),?_,?_⟩
    · rw [run_call,slist_remove_head,here]
      rfl
    · rw [meant,at_]
      exact stored.take (A := []) at_
  | remove head elm =>
    obtain ⟨there,enough⟩ := allowed
    obtain ⟨A,B,at_⟩ := List.append_of_mem there
    refine ⟨update m (ends (.first head) A) (m (.next elm)),?_,?_⟩
    · rw [run_call,slist_remove_ok stored at_ enough]
      rfl
    · rw [meant,disjoint.exchange at_]
      exact stored.take at_
  | foreach head =>
    refine ⟨m,?_,stored⟩
    rw [run_call,slist_foreach,first head]
    exact foreach_visit (fun A var B at_ => linked.next at_) allowed
  | remove_where head p =>
    have start : Stored m (update nodes head (nodes head)) ∧ (nodes head).length ≤ fuel := by
      rw [update_eq_self]
      exact ⟨stored,allowed⟩
    rw [run_call,slist_foreach_safe,first head]
    obtain ⟨m',run,stored',-⟩ := foreach_safe_remove (S := fun m l => Stored m (update nodes head l) ∧ l.length ≤ fuel)
      (fun m A var B held => held.1.linked.next (update_self head _ nodes))
      (fun m A var B held => by
        obtain ⟨held,few⟩ := held
        have here : update nodes head (A ++ var :: B) head = A ++ var :: B := update_self _ _ _
        have taken := held.take here
        rw [update_idem] at taken
        refine ⟨_,slist_remove_ok held here (here.symm ▸ few),taken,?_⟩
        rw [List.length_append,List.length_cons] at few
        rw [List.length_append]
        omega) p start allowed
    exact ⟨m',run,stored'⟩

/-- A program of the macros sees the nodes of the lists that it is meant to have. -/
theorem slist_runs (fuel : Nat) (next : N → Option N) {calls : List (Call H N)} (allowed : AllAllowed meant (Allowed fuel) calls) :
    ∃ p, steps (step (run_call fuel)) ⟨(slist_head_initializer next : Memory H N),[]⟩ calls = .ok p ∧
      p.results = (meant_all meant calls).results ∧
      ∀ head, slist_empty p.memory head = ((meant_all meant calls).nodes head).isEmpty ∧
        Chain (fun v => v) p.memory (.first head) ((meant_all meant calls).nodes head) none := by
  obtain ⟨p,run,same,stored⟩ := runs_ok (fun _ _ _ stored permitted => call_stored stored permitted) (init_stored next) allowed
  refine ⟨p,run,same,fun head => ⟨?_,stored.linked head⟩⟩
  rw [slist_empty,show slist_first p.memory head = _ from stored.linked.first head]
  cases (meant_all meant calls).nodes head <;> rfl

def few_calls : List (Call Nat Nat) :=
  [.insert_head 0 1,.insert_head 0 2,.insert_after 1 3,.remove 0 2,.remove_where 0 fun z => z < 2,.foreach 0]

theorem few_calls_allowed : AllAllowed meant (Allowed 3) few_calls := by
  refine along_cons_iff.mpr ⟨fresh_init,along_cons_iff.mpr ⟨fresh_init.update (by decide),along_cons_iff.mpr ⟨⟨⟨0,by decide⟩,?_⟩,?_⟩⟩⟩
  · exact (fresh_init.update (by decide)).update (by decide)
  refine along_cons_iff.mpr ⟨?_,along_cons_iff.mpr ⟨?_,along_cons_iff.mpr ⟨?_,trivial⟩⟩⟩
  · exact ⟨by decide,by decide⟩
  · exact Nat.le_succ 2
  · exact Nat.le_add_left 1 2

theorem slist_runs_few : ∃ p, steps (step (run_call 3)) ⟨slist_head_initializer fun _ => none,[]⟩ few_calls = .ok p ∧
    p.results = [[],[],[],[],[1,3],[3]] := by
  obtain ⟨p,run,same,-⟩ := slist_runs 3 (fun _ => none) few_calls_allowed
  exact ⟨p,run,same⟩

end

end Htools.Slist
