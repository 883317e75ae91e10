import Htools.ManyLists
import Htools.ListPrograms
import Htools.Tailq

/-!
Runs of the tail queue macros of `hutils/include/hutils/queue.h`, with those that put
a node before or behind another one, replace a node and put a queue behind another
one. Programs of the macros do to the links what is meant for the queues
(`tailq_runs`), which the loops see in both directions.
-/
namespace Htools.Tailq
open ManyLists ListPrograms Runs Function
open Places (ends ends_concat ends_append chain_end Chain Back)

section
variable {N σ : Type}

def tailq_first (m : Memory N) (head : Nat) : Option N := m.tqh_first head

def tailq_next (m : Memory N) (elm : N) : Option N := m.tqe_next elm

def tailq_empty (m : Memory N) (head : Nat) : Bool := (tailq_first m head).isNone

def tailq_foreach_safe (body : Memory N × σ → N → Except Stop (Memory N × σ)) (fuel head : Nat) (s : Memory N × σ) :
    Except Stop (Memory N × σ) :=
  foreach_safe tailq_next body fuel s (tailq_first s.1 head)

def tailq_foreach_reverse_safe (body : Memory N × σ → N → Except Stop (Memory N × σ)) (fuel head : Nat) (s : Memory N × σ) :
    Except Stop (Memory N × σ) :=
  foreach_safe tailq_prev body fuel s (tailq_last s.1 head)

/-- `TAILQ_HEAD_INITIALIZER` for all heads, with nodes that point anywhere. -/
def tailq_head_initializer (next : N → Option N) (prev : N → Place N) : Memory N := ⟨fun _ => none,.first,next,prev⟩

variable [DecidableEq N]

def tailq_insert_after (m : Memory N) (head : Nat) (listelm elm : N) : Memory N :=
  let m := { m with tqe_next := update m.tqe_next elm (m.tqe_next listelm) }
  let m :=
    match m.tqe_next elm with
    | some next => { m with tqe_prev := update m.tqe_prev next (.next elm) }
    | none => { m with tqh_last := update m.tqh_last head (.next elm) }
  let m := { m with tqe_next := update m.tqe_next listelm (some elm) }
  { m with tqe_prev := update m.tqe_prev elm (.next listelm) }

def tailq_insert_before (m : Memory N) (listelm elm : N) : Memory N :=
  let m := { m with tqe_prev := update m.tqe_prev elm (m.tqe_prev listelm) }
  let m := { m with tqe_next := update m.tqe_next elm (some listelm) }
  let m := m.write (some elm) (m.tqe_prev listelm)
  { m with tqe_prev := update m.tqe_prev listelm (.next elm) }

def tailq_replace (m : Memory N) (head : Nat) (elm elm2 : N) : Memory N :=
  let m := { m with tqe_next := update m.tqe_next elm2 (m.tqe_next elm) }
  let m :=
    match m.tqe_next elm2 with
    | some next => { m with tqe_prev := update m.tqe_prev next (.next elm2) }
    | none => { m with tqh_last := update m.tqh_last head (.next elm2) }
  let m := { m with tqe_prev := update m.tqe_prev elm2 (m.tqe_prev elm) }
  m.write (some elm2) (m.tqe_prev elm2)

def tailq_concat (m : Memory N) (head1 head2 : Nat) : Memory N :=
  match m.tqh_first head2 with
  | none => m
  | some first =>
    let m := m.write (some first) (m.tqh_last head1)
    let m := { m with tqe_prev := update m.tqe_prev first (m.tqh_last head1) }
    let m := { m with tqh_last := update m.tqh_last head1 (m.tqh_last head2) }
    tailq_init m head2

end

/-- The macros, and the loops: `remove_where` is a safe loop, forward or backward, with
    `TAILQ_REMOVE` of some nodes. -/
inductive Call (N : Type) where
  | init (head : Nat)
  | insert_head (head : Nat) (elm : N)
  | insert_tail (head : Nat) (elm : N)
  | insert_after (head : Nat) (listelm elm : N)
  | insert_before (listelm elm : N)
  | remove (head : Nat) (elm : N)
  | replace (head : Nat) (elm elm2 : N)
  | concat (head1 head2 : Nat)
  | foreach (head : Nat)
  | foreach_reverse (head : Nat)
  | remove_where (head : Nat) (p : N → Bool)
  | remove_where_reverse (head : Nat) (p : N → Bool)

section
variable {N : Type} [DecidableEq N]

def run_call (fuel : Nat) (m : Memory N) : Call N → Except Stop (Memory N × List N)
  | .init head => .ok (tailq_init m head,[])
  | .insert_head head elm => .ok (tailq_insert_head m head elm,[])
  | .insert_tail head elm => .ok (tailq_insert_tail m head elm,[])
  | .insert_after head listelm elm => .ok (tailq_insert_after m head listelm elm,[])
  | .insert_before listelm elm => .ok (tailq_insert_before m listelm elm,[])
  | .remove head elm => .ok (tailq_remove m head elm,[])
  | .replace head elm elm2 => .ok (tailq_replace m head elm elm2,[])
  | .concat head1 head2 => .ok (tailq_concat m head1 head2,[])
  | .foreach head => (tailq_foreach m fuel head).elim (.error .fuel) fun visited => .ok (m,visited)
  | .foreach_reverse head => (tailq_foreach_reverse m fuel head).elim (.error .fuel) fun visited => .ok (m,visited)
  | .remove_where head p => tailq_foreach_safe (remove_where (fun m elm => .ok (tailq_remove m head elm)) p) fuel head (m,[])
  | .remove_where_reverse head p =>
    tailq_foreach_reverse_safe (remove_where (fun m elm => .ok (tailq_remove m head elm)) p) fuel head (m,[])

/-- The queues after a call, and the nodes that its loop visits. -/
def meant (nodes : Nat → List N) : Call N → (Nat → List N) × List N
  | .init head => (update nodes head [],[])
  | .insert_head head elm => (update nodes head (elm :: nodes head),[])
  | .insert_tail head elm => (update nodes head (nodes head ++ [elm]),[])
  | .insert_after _ listelm elm => (exchange nodes listelm [listelm,elm],[])
  | .insert_before listelm elm => (exchange nodes listelm [elm,listelm],[])
  | .remove _ elm => (exchange nodes elm [],[])
  | .replace _ elm elm2 => (exchange nodes elm [elm2],[])
  | .concat head1 head2 => (update (update nodes head1 (nodes head1 ++ nodes head2)) head2 [],[])
  | .foreach head => (nodes,nodes head)
  | .foreach_reverse head => (nodes,(nodes head).reverse)
  | .remove_where head p => (update nodes head ((nodes head).filter fun z => !p z),nodes head)
  | .remove_where_reverse head p => (update nodes head ((nodes head).filter fun z => !p z),(nodes head).reverse)

/-- New nodes are in no queue, others are where the call needs them, and no loop is over
    more than `fuel` nodes. -/
def Allowed (fuel : Nat) (nodes : Nat → List N) : Call N → Prop
  | .init _ => True
  | .insert_head _ elm => Fresh nodes elm
  | .insert_tail _ elm => Fresh nodes elm
  | .insert_after head listelm elm => listelm ∈ nodes head ∧ Fresh nodes elm
  | .insert_before listelm elm => (∃ head, listelm ∈ nodes head) ∧ Fresh nodes elm
  | .remove head elm => elm ∈ nodes head
  | .replace head elm elm2 => elm ∈ nodes head ∧ Fresh nodes elm2
  | .concat head1 head2 => head1 ≠ head2
  | .foreach head => (nodes head).length ≤ fuel
  | .foreach_reverse head => (nodes head).length ≤ fuel
  | .remove_where head _ => (nodes head).length ≤ fuel
  | .remove_where_reverse head _ => (nodes head).length ≤ fuel

end

/-! ### The links as pointers at places -/

section
variable {N : Type} {fuel head : Nat} {m m' : Memory N} {nodes : Nat → List N} {A B l : List N} {elm x : N} {p : Place N}
  {value : Option N}

def place : Place N → Places.Place Nat N
  | .first head => .first head
  | .next elm => .next elm

def at_place : Places.Place Nat N → Place N
  | .first head => .first head
  | .next elm => .next elm

@[simp] theorem place_first : place (.first head : Place N) = .first head := rfl

@[simp] theorem place_next : place (.next elm) = .next elm := rfl

@[simp] theorem place_at (q : Places.Place Nat N) : place (at_place q) = q := by
  cases q <;> rfl

@[simp] theorem at_place_place (p : Place N) : at_place (place p) = p := by
  cases p <;> rfl

def pointers (m : Memory N) (q : Places.Place Nat N) : Option N := m.read (at_place q)

def prevs (m : Memory N) (elm : N) : Places.Place Nat N := place (m.tqe_prev elm)

def lasts (m : Memory N) (head : Nat) : Places.Place Nat N := place (m.tqh_last head)

/-- The memory has the queues. -/
structure Stored (m : Memory N) (nodes : Nat → List N) : Prop extends DoublyLinked (pointers m) (prevs m) nodes where
  ended : Ended (lasts m) nodes

theorem init_stored (next : N → Option N) (prev : N → Place N) : Stored (tailq_head_initializer next prev) fun _ => [] :=
  ⟨⟨disjoint_init,linked_init fun _ => rfl,fun _ => trivial⟩,fun _ => rfl⟩

theorem links_of_chain {q : Places.Place Nat N} (chain : Chain (fun v => v) (pointers m) q l none) (back : Back (prevs m) q l) :
    Links m (at_place q) l (at_place (ends q l)) := by
  induction l generalizing q with
  | nil => rfl
  | cons elm l ih =>
    refine ⟨chain.1,?_,ih chain.2 back.2⟩
    rw [← back.1,prevs,at_place_place]

/-- The queues in memory are those of the single heads. -/
theorem Stored.queue (stored : Stored m nodes) (head : Nat) : Queue m head (nodes head) := by
  have last : m.tqh_last head = at_place (ends (.first head) (nodes head)) := by
    rw [← stored.ended head,lasts,at_place_place]
  refine ⟨?_,?_,stored.disjoint.nodup head⟩
  · rw [last]
    exact links_of_chain (stored.linked head) (stored.backed head)
  · rw [last]
    exact chain_end (stored.linked head)

/-- More rounds than there are nodes make no difference. -/
theorem foreach_stored (stored : Stored m nodes) (enough : (nodes head).length ≤ fuel) :
    tailq_foreach m fuel head = some (nodes head) ∧ tailq_foreach_reverse m fuel head = some (nodes head).reverse := by
  have queue := stored.queue head
  exact ⟨foreach_from_links queue.links queue.end_ enough,foreach_reverse_links queue.links queue.end_ enough⟩

/-! What the places are after an assignment to a field. -/

variable {first : Nat → Option N} {last : Nat → Place N} {next : N → Option N} {prev : N → Place N}

@[simp] theorem pointers_same : pointers ⟨m.tqh_first,last,m.tqe_next,prev⟩ = pointers m := by
  funext q
  cases q <;> rfl

@[simp] theorem prevs_same : prevs ⟨first,last,next,m.tqe_prev⟩ = prevs m := rfl

@[simp] theorem lasts_same : lasts ⟨first,m.tqh_last,next,prev⟩ = lasts m := rfl

@[simp] theorem lasts_update : lasts ⟨first,update last head p,next,prev⟩ = update (lasts ⟨first,last,next,prev⟩) head (place p) :=
  comp_update place last head p

variable [DecidableEq N]

theorem pointers_write : pointers (m.write value p) = update (pointers m) (place p) value := by
  funext q
  rw [pointers,Memory.write_read,update_apply]
  refine if_congr ⟨fun same => ?_,fun same => ?_⟩ rfl rfl
  · rw [← same,place_at]
  · rw [same,at_place_place]

@[simp] theorem pointers_next : pointers ⟨first,last,update next elm value,prev⟩ = update (pointers ⟨first,last,next,prev⟩) (.next elm) value :=
  pointers_write (m := ⟨first,last,next,prev⟩) (p := .next elm)

@[simp] theorem pointers_first :
    pointers ⟨update first head value,last,next,prev⟩ = update (pointers ⟨first,last,next,prev⟩) (.first head) value :=
  pointers_write (m := ⟨first,last,next,prev⟩) (p := .first head)

@[simp] theorem prevs_write : prevs (m.write value p) = prevs m := by
  funext z
  rw [prevs,prevs,Memory.write_prev]

@[simp] theorem lasts_write : lasts (m.write value p) = lasts m := by
  funext z
  rw [lasts,lasts,Memory.write_last]

@[simp] theorem prevs_update : prevs ⟨first,last,next,update prev elm p⟩ = update (prevs ⟨first,last,next,prev⟩) elm (place p) :=
  comp_update place prev elm p

/-- A new node at any place. -/
theorem Stored.put (stored : Stored m nodes) (at_ : nodes head = A ++ B) (fresh : Fresh nodes elm)
    (pointer : pointers m' = update (update (pointers m) (.next elm) (pointers m (ends (.first head) A))) (ends (.first head) A) (some elm))
    (back : ∀ z, prevs m' z = if z = elm then ends (.first head) A else if B.head? = some z then .next elm else prevs m z)
    (last : lasts m' = if B.head? = none then update (lasts m) head (.next elm) else lasts m) :
    Stored m' (update nodes head (A ++ elm :: B)) where
  toDoublyLinked := stored.toDoublyLinked.put at_ fresh pointer back
  ended := stored.ended.exchange [] [elm] at_ last

theorem Stored.take (stored : Stored m nodes) (at_ : nodes head = A ++ elm :: B)
    (pointer : pointers m' = update (pointers m) (ends (.first head) A) (pointers m (.next elm)))
    (back : ∀ z, prevs m' z = if B.head? = some z then ends (.first head) A else prevs m z)
    (last : lasts m' = if B.head? = none then update (lasts m) head (ends (.first head) A) else lasts m) :
    Stored m' (update nodes head (A ++ B)) where
  toDoublyLinked := stored.toDoublyLinked.take at_ pointer back
  ended := stored.ended.exchange [elm] [] at_ last

theorem Stored.replace (stored : Stored m nodes) (at_ : nodes head = A ++ elm :: B) (fresh : Fresh nodes x)
    (pointer : pointers m' = update (update (pointers m) (.next x) (pointers m (.next elm))) (ends (.first head) A) (some x))
    (back : ∀ z, prevs m' z = if z = x then ends (.first head) A else if B.head? = some z then .next x else prevs m z)
    (last : lasts m' = if B.head? = none then update (lasts m) head (.next x) else lasts m) :
    Stored m' (update nodes head (A ++ x :: B)) where
  toDoublyLinked := stored.toDoublyLinked.replace at_ fresh pointer back
  ended := stored.ended.exchange [elm] [x] at_ last

theorem tailq_insert_after_stored (stored : Stored m nodes) (at_ : nodes head = A ++ x :: B) (fresh : Fresh nodes elm) :
    Stored (tailq_insert_after m head x elm) (update nodes head (A ++ x :: elm :: B)) := by
  have next : m.tqe_next x = B.head? := stored.linked.next at_
  have place_ : ends (.first head) (A ++ [x]) = .next x := ends_concat
  rw [List.append_cons A x (elm :: B)]
  refine stored.put (at_.trans (List.append_cons A x B)) fresh ?_ (fun z => ?_) ?_
  · rw [place_,show pointers m (.next x) = m.tqe_next x from rfl]
    cases behind : B.head? <;> simp [tailq_insert_after,next,behind]
  · rw [place_]
    cases behind : B.head? <;> simp [tailq_insert_after,next,behind,update_apply,eq_comm]
  · cases behind : B.head? <;> simp [tailq_insert_after,next,behind]

theorem tailq_insert_head_stored (stored : Stored m nodes) (fresh : Fresh nodes elm) (head : Nat) :
    Stored (tailq_insert_head m head elm) (update nodes head (elm :: nodes head)) := by
  have first : m.tqh_first head = (nodes head).head? := stored.linked.first head
  refine stored.put (A := []) rfl fresh ?_ (fun z => ?_) ?_
  · rw [ends,show pointers m (.first head) = m.tqh_first head from rfl]
    have apart : Places.Place.first head ≠ .next elm := by simp
    cases at_ : (nodes head).head? <;> simp [tailq_insert_head,first,at_,update_comm apart]
  · rw [ends]
    cases at_ : (nodes head).head? <;> simp [tailq_insert_head,first,at_,update_apply,eq_comm]
  · cases at_ : (nodes head).head? <;> simp [tailq_insert_head,first,at_]

theorem tailq_insert_tail_stored (stored : Stored m nodes) (fresh : Fresh nodes elm) (head : Nat) :
    Stored (tailq_insert_tail m head elm) (update nodes head (nodes head ++ [elm])) := by
  have last : place (m.tqh_last head) = ends (.first head) (nodes head) := stored.ended head
  have end_ : pointers m (ends (.first head) (nodes head)) = none := chain_end (stored.linked head)
  refine stored.put (List.append_nil _).symm fresh ?_ (fun z => ?_) ?_
  · simp [tailq_insert_tail,pointers_write,last,end_]
  · simp [tailq_insert_tail,last,update_apply]
  · simp [tailq_insert_tail]

theorem tailq_insert_before_stored (stored : Stored m nodes) (at_ : nodes head = A ++ x :: B) (fresh : Fresh nodes elm) :
    Stored (tailq_insert_before m x elm) (update nodes head (A ++ elm :: x :: B)) := by
  have differ : x ≠ elm := fresh.ne (at_ ▸ List.mem_append_right A List.mem_cons_self)
  have prev : place (m.tqe_prev x) = ends (.first head) A := stored.place at_
  have points : pointers m (ends (.first head) A) = some x := stored.points at_
  refine stored.put at_ fresh ?_ (fun z => ?_) ?_
  · simp [tailq_insert_before,pointers_write,differ,prev,points]
  · by_cases new : z = elm
    · subst new
      simp [tailq_insert_before,prev,update_apply,Ne.symm differ]
    · simp [tailq_insert_before,update_apply,new,eq_comm]
  · simp [tailq_insert_before]

theorem tailq_remove_stored (stored : Stored m nodes) (at_ : nodes head = A ++ elm :: B) :
    Stored (tailq_remove m head elm) (update nodes head (A ++ B)) := by
  have next : m.tqe_next elm = B.head? := stored.linked.next at_
  have prev : place (m.tqe_prev elm) = ends (.first head) A := stored.place at_
  have other : B.head? ≠ some elm := fun first => (stored.disjoint.node at_).2 (List.mem_of_head? first)
  refine stored.take at_ ?_ (fun z => ?_) ?_
  · rw [show pointers m (.next elm) = m.tqe_next elm from rfl]
    cases behind : B.head? with
    | none => simp [tailq_remove,next,behind,pointers_write,prev]
    | some y =>
      have differ : elm ≠ y := fun same => other (same ▸ behind)
      simp [tailq_remove,next,behind,pointers_write,prev,differ]
  · cases behind : B.head? <;> simp [tailq_remove,next,behind,prev,update_apply,eq_comm]
  · cases behind : B.head? <;> simp [tailq_remove,next,behind,prev]

theorem tailq_replace_stored (stored : Stored m nodes) (at_ : nodes head = A ++ elm :: B) (fresh : Fresh nodes x) :
    Stored (tailq_replace m head elm x) (update nodes head (A ++ x :: B)) := by
  have next : m.tqe_next elm = B.head? := stored.linked.next at_
  have prev : place (m.tqe_prev elm) = ends (.first head) A := stored.place at_
  have other : B.head? ≠ some elm := fun first => (stored.disjoint.node at_).2 (List.mem_of_head? first)
  refine stored.replace at_ fresh ?_ (fun z => ?_) ?_
  · rw [show pointers m (.next elm) = m.tqe_next elm from rfl]
    cases behind : B.head? with
    | none => simp [tailq_replace,next,behind,pointers_write,prev]
    | some y =>
      have differ : elm ≠ y := fun same => other (same ▸ behind)
      simp [tailq_replace,next,behind,pointers_write,prev,differ]
  · cases behind : B.head? with
    | none => simp [tailq_replace,next,behind,prev,update_apply]
    | some y =>
      have differ : elm ≠ y := fun same => other (same ▸ behind)
      simp [tailq_replace,next,behind,prev,update_apply,differ,eq_comm]
  · cases behind : B.head? <;> simp [tailq_replace,next,behind]

theorem tailq_concat_stored {head1 head2 : Nat} (stored : Stored m nodes) (differ : head1 ≠ head2) :
    Stored (tailq_concat m head1 head2) (update (update nodes head1 (nodes head1 ++ nodes head2)) head2 []) := by
  have first : m.tqh_first head2 = (nodes head2).head? := stored.linked.first head2
  have last : place (m.tqh_last head1) = ends (.first head1) (nodes head1) := stored.ended head1
  by_cases none_ : nodes head2 = []
  · rw [concat_nil none_,tailq_concat,first,none_]
    exact stored
  · obtain ⟨y,B,at_⟩ := List.exists_cons_of_ne_nil none_
    rw [at_] at first
    have is : tailq_concat m head1 head2 = tailq_init { m.write (some y) (m.tqh_last head1) with
        tqe_prev := update m.tqe_prev y (m.tqh_last head1),
        tqh_last := update m.tqh_last head1 (m.tqh_last head2) } head2 := by
      rw [tailq_concat,first]
      simp
    have pointer : pointers (tailq_concat m head1 head2) =
        update (update (pointers m) (ends (.first head1) (nodes head1)) (pointers m (.first head2))) (.first head2) none := by
      rw [show pointers m (.first head2) = some y from first,is,← last,← pointers_write]
      simp [tailq_init]
    have back : ∀ z, prevs (tailq_concat m head1 head2) z =
        if (nodes head2).head? = some z then ends (.first head1) (nodes head1) else prevs m z := by
      intro z
      rw [is,at_,← last]
      simp [tailq_init,update_apply,eq_comm]
    have lasts_ : lasts (tailq_concat m head1 head2) = update (update (lasts m) head1 (lasts m head2)) head2 (.first head2) := by
      rw [is]
      simp [tailq_init,lasts]
    have whole := stored.toDoublyLinked.concat differ pointer back
    have ended : Ended (update (update (lasts m) head1 (lasts m head2)) head2 (.first head2)) _ := stored.ended.concat none_
    rw [← lasts_] at ended
    exact ⟨whole,ended⟩

/-- What each call does to the memory is meant for the queues. -/
theorem call_stored (stored : Stored m nodes) {call : Call N} (allowed : Allowed fuel nodes call) :
    ∃ m', run_call fuel m call = .ok (m',(meant nodes call).2) ∧ Stored m' (meant nodes call).1 := by
  cases call with
  | init head =>
    refine ⟨_,rfl,?_,?_⟩
    · have cleared := stored.toDoublyLinked.clear head
      have pointer : pointers (tailq_init m head) = update (pointers m) (.first head) none := by simp [tailq_init]
      rw [← pointer] at cleared
      exact cleared
    · have lasts_ : lasts (tailq_init m head) = update (lasts m) head (.first head) := by simp [tailq_init]
      rw [lasts_]
      exact stored.ended.clear
  | insert_head head elm => exact ⟨_,rfl,tailq_insert_head_stored stored allowed head⟩
  | insert_tail head elm => exact ⟨_,rfl,tailq_insert_tail_stored stored allowed head⟩
  | insert_after head listelm elm =>
    obtain ⟨there,fresh⟩ := allowed
    obtain ⟨A,B,at_⟩ := List.append_of_mem there
    refine ⟨_,rfl,?_⟩
    rw [meant,stored.disjoint.exchange at_]
    exact tailq_insert_after_stored stored at_ fresh
  | insert_before listelm elm =>
    obtain ⟨⟨head,there⟩,fresh⟩ := allowed
    obtain ⟨A,B,at_⟩ := List.append_of_mem there
    refine ⟨_,rfl,?_⟩
    rw [meant,stored.disjoint.exchange at_]
    exact tailq_insert_before_stored stored at_ fresh
  | remove head elm =>
    obtain ⟨A,B,at_⟩ := List.append_of_mem allowed
    refine ⟨_,rfl,?_⟩
    rw [meant,stored.disjoint.exchange at_]
    exact tailq_remove_stored stored at_
  | replace head elm elm2 =>
    obtain ⟨there,fresh⟩ := allowed
    obtain ⟨A,B,at_⟩ := List.append_of_mem there
    refine ⟨_,rfl,?_⟩
    rw [meant,stored.disjoint.exchange at_]
    exact tailq_replace_stored stored at_ fresh
  | concat head1 head2 => exact ⟨_,rfl,tailq_concat_stored stored allowed⟩
  | foreach head =>
    refine ⟨m,?_,stored⟩
    rw [run_call,(foreach_stored stored allowed).1]
    rfl
  | foreach_reverse head =>
    refine ⟨m,?_,stored⟩
    rw [run_call,(foreach_stored stored allowed).2]
    rfl
  | remove_where head p =>
    have start : Stored m (update nodes head (nodes head)) := by rwa [update_eq_self]
    rw [run_call,tailq_foreach_safe,show tailq_first m head = _ from (stored.queue head).head?]
    refine foreach_safe_remove (S := fun m l => Stored m (update nodes head l)) (fun m A var B held => ?_)
      (fun m A var B held => ⟨_,rfl,?_⟩) p start allowed
    · exact held.linked.next (update_self head _ nodes)
    · have taken := tailq_remove_stored held (update_self head _ nodes)
      rwa [update_idem] at taken
  | remove_where_reverse head p =>
    have start : Stored m (update nodes head (nodes head).reverse.reverse) := by rwa [List.reverse_reverse,update_eq_self]
    have last : tailq_last m head = (nodes head).reverse.head? := by rw [(stored.queue head).last,List.head?_reverse]
    have turned : ∀ A (var : N) B, (A ++ var :: B).reverse = B.reverse ++ var :: A.reverse := fun A var B => by simp
    have nexts : ∀ m A (var : N) B, Stored m (update nodes head (A ++ var :: B).reverse) → tailq_prev m var = B.head? := by
      intro m A var B held
      have queue := held.queue head
      rw [update_self,turned] at queue
      rw [queue.prev,List.getLast?_reverse]
    have removes : ∀ m A (var : N) B, Stored m (update nodes head (A ++ var :: B).reverse) →
        ∃ m', Except.ok (tailq_remove m head var) = (Except.ok m' : Except Stop (Memory N)) ∧
          Stored m' (update nodes head (A ++ B).reverse) := by
      intro m A var B held
      have taken := tailq_remove_stored held ((update_self head _ nodes).trans (turned A var B))
      rw [update_idem,← List.reverse_append] at taken
      exact ⟨_,rfl,taken⟩
    have few : (nodes head).reverse.length ≤ fuel := by rwa [List.length_reverse]
    obtain ⟨m',run,stored'⟩ := foreach_safe_remove (S := fun m l => Stored m (update nodes head l.reverse)) nexts removes p start few
    rw [← List.filter_reverse,List.reverse_reverse] at stored'
    rw [run_call,tailq_foreach_reverse_safe,last]
    exact ⟨m',run,stored'⟩

/-- A program of the macros sees the nodes of the queues that it is meant to have, in both
    directions. The last node and the node before any one are found by their pointers back. -/
theorem tailq_runs (fuel : Nat) (next : N → Option N) (prev : N → Place N) {calls : List (Call N)}
    (allowed : AllAllowed meant (Allowed fuel) calls) :
    ∃ p, steps (step (run_call fuel)) ⟨tailq_head_initializer next prev,[]⟩ calls = .ok p ∧
      p.results = (meant_all meant calls).results ∧
      ∀ head, tailq_empty p.memory head = ((meant_all meant calls).nodes head).isEmpty ∧
        tailq_last p.memory head = ((meant_all meant calls).nodes head).getLast? ∧
        ∀ A elm B, (meant_all meant calls).nodes head = A ++ elm :: B →
          tailq_next p.memory elm = B.head? ∧ tailq_prev p.memory elm = A.getLast? := by
  obtain ⟨p,run,same,stored⟩ := runs_ok (fun _ _ _ stored permitted => call_stored stored permitted) (init_stored next prev) allowed
  refine ⟨p,run,same,fun head => ?_⟩
  have queue := stored.queue head
  refine ⟨?_,queue.last,fun A elm B at_ => ?_⟩
  · rw [tailq_empty,show tailq_first p.memory head = _ from queue.head?]
    cases (meant_all meant calls).nodes head <;> rfl
  · rw [at_] at queue
    exact ⟨queue.next,queue.prev⟩

def few_calls : List (Call Nat) :=
  [.insert_tail 0 1,.insert_before 1 2,.insert_after 0 1 3,.replace 0 1 4,.concat 1 0,.remove_where_reverse 1 fun z => z < 3,.foreach 1]

theorem few_calls_allowed : AllAllowed meant (Allowed 3) few_calls := by
  refine along_cons_iff.mpr ⟨fresh_init,along_cons_iff.mpr ⟨⟨⟨0,by decide⟩,?_⟩,along_cons_iff.mpr ⟨⟨by decide,?_⟩,?_⟩⟩⟩
  · exact fresh_init.update (by decide)
  · exact (fresh_init.update (by decide)).exchange (by decide)
  refine along_cons_iff.mpr ⟨⟨by decide,?_⟩,along_cons_iff.mpr ⟨?_,along_cons_iff.mpr ⟨?_,along_cons_iff.mpr ⟨?_,trivial⟩⟩⟩⟩
  · exact ((fresh_init.update (by decide)).exchange (by decide)).exchange (by decide)
  · exact Nat.one_ne_zero
  · exact Nat.le_refl 3
  · exact Nat.le_succ 2

theorem tailq_runs_few : ∃ p, steps (step (run_call 3)) ⟨tailq_head_initializer (fun _ => none) .next,[]⟩ few_calls = .ok p ∧
    p.results = [[],[],[],[],[],[3,4,2],[4,3]] := by
  obtain ⟨p,run,same,-⟩ := tailq_runs 3 (fun _ => none) .next few_calls_allowed
  exact ⟨p,run,same⟩

end

end Htools.Tailq
