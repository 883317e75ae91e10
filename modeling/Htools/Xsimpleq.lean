import Htools.Simpleq
import Mathlib.Data.BitVec

/-!
XOR simple queues of `hutils/include/hutils/queue.h`. The memory is one of words at
addresses. All pointers of a queue are combined with the cookie of its head, which
`XSIMPLEQ_INIT` takes from `arc4random_buf`. Whatever the cookies are, and wherever
heads and nodes are, programs of the macros see what programs of the macros of simple
queues see (`xsimpleq_runs`).
-/
namespace Htools.Xsimpleq
open Places ManyLists ListPrograms Runs Function

abbrev Memory := BitVec 64 → BitVec 64

/-! The address of a head is that of its `sqx_first`, and `field` is how far `sqx_next` is
from the address of a node. -/

def sqx_last (head : BitVec 64) : BitVec 64 := head + 8

def sqx_cookie (head : BitVec 64) : BitVec 64 := head + 16

def xsimpleq_xor (m : Memory) (head ptr : BitVec 64) : BitVec 64 := m (sqx_cookie head) ^^^ ptr

def xsimpleq_first (m : Memory) (head : BitVec 64) : BitVec 64 := xsimpleq_xor m head (m head)

def xsimpleq_empty (m : Memory) (head : BitVec 64) : Bool := xsimpleq_first m head == 0

def xsimpleq_init (m : Memory) (head random : BitVec 64) : Memory :=
  let m := update m (sqx_cookie head) random
  let m := update m head (xsimpleq_xor m head 0)
  update m (sqx_last head) (xsimpleq_xor m head head)

section
variable (field : BitVec 64)

def sqx_next (elm : BitVec 64) : BitVec 64 := elm + field

def xsimpleq_next (m : Memory) (head elm : BitVec 64) : BitVec 64 := xsimpleq_xor m head (m (sqx_next field elm))

/-- A pointer that is not `NULL`. -/
def ptr (a : BitVec 64) : Option (BitVec 64) := if a = 0 then none else some a

variable {σ : Type}

def xsimpleq_foreach (body : Memory × σ → BitVec 64 → Except Stop (Memory × σ)) (fuel : Nat) (head : BitVec 64) (s : Memory × σ) :
    Except Stop (Memory × σ) :=
  foreach (fun m elm => ptr (xsimpleq_next field m head elm)) body fuel s (ptr (xsimpleq_first s.1 head))

def xsimpleq_foreach_safe (body : Memory × σ → BitVec 64 → Except Stop (Memory × σ)) (fuel : Nat) (head : BitVec 64)
    (s : Memory × σ) : Except Stop (Memory × σ) :=
  foreach_safe (fun m elm => ptr (xsimpleq_next field m head elm)) body fuel s (ptr (xsimpleq_first s.1 head))

def xsimpleq_insert_head (m : Memory) (head elm : BitVec 64) : Memory :=
  let m := update m (sqx_next field elm) (m head)
  let m := if m (sqx_next field elm) = xsimpleq_xor m head 0 then
      update m (sqx_last head) (xsimpleq_xor m head (sqx_next field elm))
    else m
  update m head (xsimpleq_xor m head elm)

def xsimpleq_insert_tail (m : Memory) (head elm : BitVec 64) : Memory :=
  let m := update m (sqx_next field elm) (xsimpleq_xor m head 0)
  let m := update m (xsimpleq_xor m head (m (sqx_last head))) (xsimpleq_xor m head elm)
  update m (sqx_last head) (xsimpleq_xor m head (sqx_next field elm))

def xsimpleq_insert_after (m : Memory) (head listelm elm : BitVec 64) : Memory :=
  let m := update m (sqx_next field elm) (m (sqx_next field listelm))
  let m := if m (sqx_next field elm) = xsimpleq_xor m head 0 then
      update m (sqx_last head) (xsimpleq_xor m head (sqx_next field elm))
    else m
  update m (sqx_next field listelm) (xsimpleq_xor m head elm)

def xsimpleq_remove_head (m : Memory) (head : BitVec 64) : Except Stop Memory :=
  match ptr (xsimpleq_xor m head (m head)) with
  | some first =>
    let m := update m head (m (sqx_next field first))
    .ok (if m head = xsimpleq_xor m head 0 then update m (sqx_last head) (xsimpleq_xor m head head) else m)
  | none => .error .fault

def xsimpleq_remove_after (m : Memory) (head elm : BitVec 64) : Except Stop Memory :=
  match ptr (xsimpleq_xor m head (m (sqx_next field elm))) with
  | some next =>
    let m := update m (sqx_next field elm) (m (sqx_next field next))
    .ok (if m (sqx_next field elm) = xsimpleq_xor m head 0 then
        update m (sqx_last head) (xsimpleq_xor m head (sqx_next field elm))
      else m)
  | none => .error .fault

end

/-! ### Heads and nodes at addresses -/

/-- The words that heads and nodes have. -/
inductive Word (H N : Type) where
  | place (p : Place H N)
  | last (head : H)
  | cookie (head : H)
  deriving DecidableEq

/-- Where heads and nodes are. -/
structure Addresses (H N : Type) where
  head_at : H → BitVec 64
  node_at : N → BitVec 64
  field : BitVec 64

def Addresses.address {H N : Type} (a : Addresses H N) : Word H N → BitVec 64
  | .place (.first head) => a.head_at head
  | .place (.next elm) => sqx_next a.field (a.node_at elm)
  | .last head => sqx_last (a.head_at head)
  | .cookie head => sqx_cookie (a.head_at head)

/-- No word is at the address of another one, and no node at that of another one or at `NULL`. -/
structure Layout (H N : Type) extends Addresses H N where
  not_null : ∀ elm, node_at elm ≠ 0
  different : Injective node_at
  apart : Injective toAddresses.address

/-- The calls of simple queues, where each head that is initialized gets a random word. -/
inductive Call (H N : Type) where
  | init (head : H) (random : BitVec 64)
  | insert_head (head : H) (elm : N)
  | insert_tail (head : H) (elm : N)
  | insert_after (head : H) (listelm elm : N)
  | remove_head (head : H)
  | remove_after (head : H) (elm : N)
  | foreach (head : H)
  | move (head head2 : H)

/-- The same call for simple queues. -/
def Call.plain {H N : Type} : Call H N → Simpleq.Call H N
  | .init head _ => .init head
  | .insert_head head elm => .insert_head head elm
  | .insert_tail head elm => .insert_tail head elm
  | .insert_after head listelm elm => .insert_after head listelm elm
  | .remove_head head => .remove_head head
  | .remove_after head elm => .remove_after head elm
  | .foreach head => .foreach head
  | .move head head2 => .move head head2

/-- The body that moves the first node of a queue to the end of another one, and notes it. -/
def move (field head head2 : BitVec 64) (s : Memory × List (BitVec 64)) (var : BitVec 64) :
    Except Stop (Memory × List (BitVec 64)) := do
  let m ← xsimpleq_remove_head field s.1 head
  return (xsimpleq_insert_tail field m head2 var,s.2 ++ [var])

section
variable {H N : Type} (L : Layout H N)

def run_call (fuel : Nat) (m : Memory) : Call H N → Except Stop (Memory × List (BitVec 64))
  | .init head random => .ok (xsimpleq_init m (L.head_at head) random,[])
  | .insert_head head elm => .ok (xsimpleq_insert_head L.field m (L.head_at head) (L.node_at elm),[])
  | .insert_tail head elm => .ok (xsimpleq_insert_tail L.field m (L.head_at head) (L.node_at elm),[])
  | .insert_after head listelm elm =>
    .ok (xsimpleq_insert_after L.field m (L.head_at head) (L.node_at listelm) (L.node_at elm),[])
  | .remove_head head => do return (← xsimpleq_remove_head L.field m (L.head_at head),[])
  | .remove_after head elm => do return (← xsimpleq_remove_after L.field m (L.head_at head) (L.node_at elm),[])
  | .foreach head => xsimpleq_foreach L.field visit fuel (L.head_at head) (m,[])
  | .move head head2 => xsimpleq_foreach_safe L.field (move L.field (L.head_at head) (L.head_at head2)) fuel (L.head_at head) (m,[])

/-- The pointer to a node or `NULL`. -/
def Layout.code (v : Option N) : BitVec 64 := v.elim 0 L.node_at

/-! The words of the places, of the ends and of the cookies. -/

def pointers (m : Memory) (p : Place H N) : BitVec 64 := m (L.address (.place p))

def lasts (m : Memory) (head : H) : BitVec 64 := m (L.address (.last head))

def cookies (m : Memory) (head : H) : BitVec 64 := m (L.address (.cookie head))

/-- The memory has the queues. -/
structure Stored (m : Memory) (nodes : H → List N) : Prop where
  disjoint : Disjoint nodes
  linked : Linked (fun head v => cookies L m head ^^^ L.code v) (pointers L m) nodes
  ended : ∀ head, lasts L m head = cookies L m head ^^^ L.address (.place (ends (.first head) (nodes head)))

variable {L} {fuel : Nat} {head head2 : H} {m m' : Memory} {nodes : H → List N} {A B : List N} {elm x : N} {v : Option N}
  {p : Place H N} {a : BitVec 64}

theorem xor_twice (a b : BitVec 64) : a ^^^ (a ^^^ b) = b := by
  rw [← BitVec.xor_assoc,BitVec.xor_self,BitVec.zero_xor]

/-- Only a pointer to nothing is the cookie itself. -/
theorem xor_code : a ^^^ L.code v = a ↔ v = none := by
  have same : a ^^^ 0 = a := BitVec.xor_zero
  have zero : a ^^^ L.code v = a ^^^ 0 ↔ L.code v = 0 := BitVec.xor_right_inj a
  rw [same] at zero
  rw [zero]
  cases v with
  | none => exact iff_of_true rfl rfl
  | some elm => exact iff_of_false (L.not_null elm) (by simp)

theorem ptr_code : ptr (L.code v) = v.map L.node_at := by
  cases v with
  | none => rfl
  | some elm => exact if_neg (L.not_null elm)

theorem Stored.pointer (stored : Stored L m nodes) (at_ : nodes head = A ++ B) :
    pointers L m (ends (.first head) A) = cookies L m head ^^^ L.code B.head? := by
  have chain := stored.linked head
  rw [at_] at chain
  have behind := chain_head (chain_append.mp chain).2
  rwa [Option.or_none] at behind

theorem update_other {w w' : Word H N} (differ : w' ≠ w) : update m (L.address w) a (L.address w') = m (L.address w') :=
  update_of_ne (L.apart.ne differ) a m

@[simp] theorem pointers_last : pointers L (update m (L.address (.last head)) a) = pointers L m := by
  funext q
  exact update_other (by simp)

@[simp] theorem lasts_place : lasts L (update m (L.address (.place p)) a) = lasts L m := by
  funext other
  exact update_other (by simp)

@[simp] theorem cookies_place : cookies L (update m (L.address (.place p)) a) = cookies L m := by
  funext other
  exact update_other (by simp)

@[simp] theorem cookies_last : cookies L (update m (L.address (.last head)) a) = cookies L m := by
  funext other
  exact update_other (by simp)

@[simp] theorem lasts_cookie : lasts L (update m (L.address (.cookie head)) a) = lasts L m := by
  funext other
  exact update_other (by simp)

@[simp] theorem pointers_cookie : pointers L (update m (L.address (.cookie head)) a) = pointers L m := by
  funext q
  exact update_other (by simp)

theorem xsimpleq_first_ok (stored : Stored L m nodes) (head : H) : xsimpleq_first m (L.head_at head) = L.code (nodes head).head? := by
  have first : pointers L m (.first head) = cookies L m head ^^^ L.code (nodes head).head? := stored.linked.first head
  exact (congrArg (cookies L m head ^^^ ·) first).trans (xor_twice _ _)

theorem xsimpleq_next_ok (stored : Stored L m nodes) (at_ : nodes head = A ++ elm :: B) :
    xsimpleq_next L.field m (L.head_at head) (L.node_at elm) = L.code B.head? := by
  have next : pointers L m (.next elm) = cookies L m head ^^^ L.code B.head? := stored.linked.next at_
  exact (congrArg (cookies L m head ^^^ ·) next).trans (xor_twice _ _)

variable [DecidableEq H] [DecidableEq N]

@[simp] theorem pointers_place : pointers L (update m (L.address (.place p)) a) = update (pointers L m) p a := by
  funext q
  rw [pointers,update_apply,update_apply,pointers]
  exact if_congr (L.apart.eq_iff.trans (by simp)) rfl rfl

omit [DecidableEq N] in
@[simp] theorem lasts_last : lasts L (update m (L.address (.last head)) a) = update (lasts L m) head a := by
  funext other
  rw [lasts,update_apply,update_apply,lasts]
  exact if_congr (L.apart.eq_iff.trans (by simp)) rfl rfl

omit [DecidableEq N] in
@[simp] theorem cookies_cookie : cookies L (update m (L.address (.cookie head)) a) = update (cookies L m) head a := by
  funext other
  rw [cookies,update_apply,update_apply,cookies]
  exact if_congr (L.apart.eq_iff.trans (by simp)) rfl rfl

/-! ### Any place -/

omit [DecidableEq N] in
theorem Stored.exchange (stored : Stored L m nodes) (old new : List N) (at_ : nodes head = A ++ (old ++ B))
    (cookie : cookies L m' = cookies L m)
    (last : lasts L m' = if B.head? = none then
        update (lasts L m) head (cookies L m head ^^^ L.address (.place (ends (ends (.first head) A) new)))
      else lasts L m) (other : H) :
    lasts L m' other = cookies L m' other ^^^ L.address (.place (ends (.first other) (update nodes head (A ++ (new ++ B)) other))) := by
  rw [ends_exchange old new at_,last,cookie]
  by_cases none_ : B.head? = none
  · by_cases same : other = head
    · rw [if_pos none_,if_pos ⟨same,none_⟩,same,update_self]
    · rw [if_pos none_,if_neg fun both => same both.1,update_of_ne same,stored.ended]
  · rw [if_neg none_,if_neg fun both => none_ both.2,stored.ended]

theorem Stored.put (stored : Stored L m nodes) (at_ : nodes head = A ++ B) (fresh : Fresh nodes elm)
    (pointer : pointers L m' = update (update (pointers L m) (.next elm) (pointers L m (ends (.first head) A))) (ends (.first head) A)
      (cookies L m head ^^^ L.node_at elm))
    (cookie : cookies L m' = cookies L m)
    (last : lasts L m' = if B.head? = none then update (lasts L m) head (cookies L m head ^^^ L.address (.place (.next elm)))
      else lasts L m) :
    Stored L m' (update nodes head (A ++ elm :: B)) where
  disjoint := stored.disjoint.put at_ fresh
  linked := by
    rw [pointer,cookie]
    exact stored.linked.put stored.disjoint at_ fresh
  ended := stored.exchange [] [elm] at_ cookie last

/-- A node takes the pointer at a place. -/
def put_at (L : Layout H N) (m : Memory) (head : H) (q : Place H N) (elm : N) : Memory :=
  let m := update m (L.address (.place (.next elm))) (pointers L m q)
  let m := if pointers L m (.next elm) = cookies L m head ^^^ 0 then
      update m (L.address (.last head)) (cookies L m head ^^^ L.address (.place (.next elm)))
    else m
  update m (L.address (.place q)) (cookies L m head ^^^ L.node_at elm)

theorem put_at_stored (stored : Stored L m nodes) (at_ : nodes head = A ++ B) (fresh : Fresh nodes elm) :
    Stored L (put_at L m head (ends (.first head) A) elm) (update nodes head (A ++ elm :: B)) := by
  have end_ : pointers L m (ends (.first head) A) = cookies L m head ↔ B.head? = none := by
    rw [stored.pointer at_,xor_code]
  refine stored.put at_ fresh ?_ ?_ ?_ <;> by_cases none_ : B.head? = none <;> simp [put_at,end_,none_]

/-- A place takes the pointer of a node. -/
def take_at (L : Layout H N) (m : Memory) (head : H) (q : Place H N) (elm : N) : Memory :=
  let m := update m (L.address (.place q)) (pointers L m (.next elm))
  if pointers L m q = cookies L m head ^^^ 0 then
    update m (L.address (.last head)) (cookies L m head ^^^ L.address (.place q))
  else m

theorem take_at_stored (stored : Stored L m nodes) (at_ : nodes head = A ++ elm :: B) :
    Stored L (take_at L m head (ends (.first head) A) elm) (update nodes head (A ++ B)) := by
  have end_ : pointers L m (.next elm) = cookies L m head ↔ B.head? = none := by
    rw [show pointers L m (.next elm) = _ from stored.linked.next at_,xor_code]
  have cookie : cookies L (take_at L m head (ends (.first head) A) elm) = cookies L m := by
    by_cases none_ : B.head? = none <;> simp [take_at,end_,none_]
  have pointer : pointers L (take_at L m head (ends (.first head) A) elm) =
      update (pointers L m) (ends (.first head) A) (pointers L m (.next elm)) := by
    by_cases none_ : B.head? = none <;> simp [take_at,end_,none_]
  refine ⟨stored.disjoint.take at_,?_,stored.exchange [elm] [] at_ cookie ?_⟩
  · rw [pointer,cookie]
    exact stored.linked.take stored.disjoint at_
  · by_cases none_ : B.head? = none <;> simp [take_at,end_,none_,ends]

/-! ### The macros -/

theorem xsimpleq_insert_tail_stored (stored : Stored L m nodes) (fresh : Fresh nodes elm) (head : H) :
    Stored L (xsimpleq_insert_tail L.field m (L.head_at head) (L.node_at elm)) (update nodes head (nodes head ++ [elm])) := by
  have end_ : pointers L m (ends (.first head) (nodes head)) = cookies L m head := by
    rw [stored.pointer (List.append_nil _).symm]
    exact BitVec.xor_zero
  have at_ : cookies L m head ^^^ lasts L m head = L.address (.place (ends (.first head) (nodes head))) := by
    rw [stored.ended head,xor_twice]
  have is : xsimpleq_insert_tail L.field m (L.head_at head) (L.node_at elm) =
      update (update (update m (L.address (.place (.next elm))) (cookies L m head ^^^ 0))
        (L.address (.place (ends (.first head) (nodes head)))) (cookies L m head ^^^ L.node_at elm))
        (L.address (.last head)) (cookies L m head ^^^ L.address (.place (.next elm))) := by
    have unfolded : xsimpleq_insert_tail L.field m (L.head_at head) (L.node_at elm) =
        let m := update m (L.address (.place (.next elm))) (cookies L m head ^^^ 0)
        let m := update m (cookies L m head ^^^ lasts L m head) (cookies L m head ^^^ L.node_at elm)
        update m (L.address (.last head)) (cookies L m head ^^^ L.address (.place (.next elm))) := rfl
    rw [unfolded]
    simp only [cookies_place,lasts_place,at_]
  rw [is]
  refine stored.put (List.append_nil _).symm fresh ?_ ?_ ?_ <;> simp [end_]

theorem xsimpleq_init_words (m : Memory) (head : H) (random : BitVec 64) :
    cookies L (xsimpleq_init m (L.head_at head) random) = update (cookies L m) head random ∧
      pointers L (xsimpleq_init m (L.head_at head) random) = update (pointers L m) (.first head) (random ^^^ L.code none) ∧
      lasts L (xsimpleq_init m (L.head_at head) random) = update (lasts L m) head (random ^^^ L.address (.place (.first head))) := by
  have is : xsimpleq_init m (L.head_at head) random =
      let m := update m (L.address (.cookie head)) random
      let m := update m (L.address (.place (.first head))) (cookies L m head ^^^ 0)
      update m (L.address (.last head)) (cookies L m head ^^^ L.address (.place (.first head))) := rfl
  rw [is]
  refine ⟨?_,?_,?_⟩ <;> simp [Layout.code]

theorem xsimpleq_init_stored (stored : Stored L m nodes) (head : H) (random : BitVec 64) :
    Stored L (xsimpleq_init m (L.head_at head) random) (update nodes head []) := by
  obtain ⟨cookie,pointer,last⟩ := xsimpleq_init_words (L := L) m head random
  refine ⟨stored.disjoint.sublist (List.nil_sublist _),?_,fun other => ?_⟩
  · rw [pointer,cookie]
    have cleared : Linked (fun head' v => update (cookies L m) head random head' ^^^ L.code v)
        (update (pointers L m) (.first head) (update (cookies L m) head random head ^^^ L.code none)) (update nodes head []) :=
      stored.linked.clear fun other differ => by rw [update_of_ne differ]
    rwa [update_self] at cleared
  · rw [last,cookie]
    by_cases same : other = head
    · rw [same,update_self,update_self,update_self,ends]
    · rw [update_of_ne same,update_of_ne same,update_of_ne same,stored.ended]

theorem xsimpleq_remove_head_stored (stored : Stored L m nodes) (at_ : nodes head = x :: B) :
    ∃ m', xsimpleq_remove_head L.field m (L.head_at head) = .ok m' ∧ Stored L m' (update nodes head B) := by
  have first : ptr (xsimpleq_xor m (L.head_at head) (m (L.head_at head))) = some (L.node_at x) := by
    rw [show xsimpleq_xor m (L.head_at head) (m (L.head_at head)) = _ from xsimpleq_first_ok stored head,at_,ptr_code]
    rfl
  refine ⟨take_at L m head (.first head) x,?_,take_at_stored (A := []) stored at_⟩
  rw [xsimpleq_remove_head,first]
  rfl

/-- What each call does to the memory is meant for the queues. -/
theorem call_stored (stored : Stored L m nodes) {call : Call H N} (allowed : Simpleq.Allowed fuel nodes call.plain) :
    ∃ m', run_call L fuel m call = .ok (m',(Simpleq.meant nodes call.plain).2.map L.node_at) ∧
      Stored L m' (Simpleq.meant nodes call.plain).1 := by
  have first : ∀ m nodes head, Stored L m nodes → ptr (xsimpleq_first m (L.head_at head)) = ((nodes head).map L.node_at).head? := by
    intro m nodes head stored
    rw [xsimpleq_first_ok stored,ptr_code,List.head?_map]
  have next : ∀ m nodes head A B elm, Stored L m nodes → nodes head = A ++ elm :: B →
      ptr (xsimpleq_next L.field m (L.head_at head) (L.node_at elm)) = (B.map L.node_at).head? := by
    intro m nodes head A B elm stored at_
    rw [xsimpleq_next_ok stored at_,ptr_code,List.head?_map]
  cases call with
  | init head random => exact ⟨_,rfl,xsimpleq_init_stored stored head random⟩
  | insert_head head elm => exact ⟨_,rfl,put_at_stored (A := []) stored rfl allowed⟩
  | insert_tail head elm => exact ⟨_,rfl,xsimpleq_insert_tail_stored stored allowed head⟩
  | insert_after head listelm elm =>
    obtain ⟨there,fresh⟩ := allowed
    obtain ⟨A,B,at_⟩ := List.append_of_mem there
    have put := put_at_stored stored (at_.trans (List.append_cons A listelm B)) fresh
    rw [ends_concat,List.append_assoc] at put
    refine ⟨_,rfl,?_⟩
    rw [Call.plain,Simpleq.meant,stored.disjoint.exchange at_]
    exact put
  | remove_head head =>
    obtain ⟨x,B,at_⟩ := List.exists_cons_of_ne_nil allowed
    obtain ⟨m',run,stored'⟩ := xsimpleq_remove_head_stored stored at_
    refine ⟨m',?_,?_⟩
    · rw [run_call,run]
      rfl
    · rw [Call.plain,Simpleq.meant,at_]
      exact stored'
  | remove_after head elm =>
    obtain ⟨A,x,B,at_⟩ := allowed
    have taken := take_at_stored stored (at_.trans (List.append_cons A elm (x :: B)))
    rw [ends_concat,List.append_assoc] at taken
    have behind : ptr (xsimpleq_xor m (L.head_at head) (m (sqx_next L.field (L.node_at elm)))) = some (L.node_at x) :=
      next m nodes head A (x :: B) elm stored at_
    refine ⟨take_at L m head (.next elm) x,?_,?_⟩
    · rw [run_call,xsimpleq_remove_after,behind]
      rfl
    · rw [Call.plain,Simpleq.meant,stored.disjoint.drop_behind at_]
      exact taken
  | foreach head =>
    refine ⟨m,?_,stored⟩
    rw [run_call,xsimpleq_foreach,first m nodes head stored]
    refine foreach_visit (fun A' var B' at_ => ?_) (by rwa [List.length_map])
    obtain ⟨A,C,split,rfl,is⟩ := List.map_eq_append_iff.mp at_
    obtain ⟨elm,B,rfl,rfl,rfl⟩ := List.map_eq_cons_iff.mp is
    exact next m nodes head A B elm stored split
  | move head head2 =>
    obtain ⟨differ,enough⟩ := allowed
    have one : ∀ A' var B' (s : Memory × List (BitVec 64)), (nodes head).map L.node_at = A' ++ var :: B' →
        (s.2 = A' ∧ ∀ A B, A.map L.node_at = A' → nodes head = A ++ B →
          Stored L s.1 (update (update nodes head2 (nodes head2 ++ A)) head B)) →
        ptr (xsimpleq_next L.field s.1 (L.head_at head) var) = B'.head? ∧
          ∃ s', move L.field (L.head_at head) (L.head_at head2) s var = .ok s' ∧ s'.2 = A' ++ [var] ∧
            ∀ A B, A.map L.node_at = A' ++ [var] → nodes head = A ++ B →
              Stored L s'.1 (update (update nodes head2 (nodes head2 ++ A)) head B) := by
      rintro A' var B' ⟨m,log⟩ at_ ⟨rfl,held⟩
      obtain ⟨A,C,split,same,is⟩ := List.map_eq_append_iff.mp at_
      obtain ⟨elm,B,rfl,rfl,rfl⟩ := List.map_eq_cons_iff.mp is
      have here := held A (elm :: B) same split
      have first : update (update nodes head2 (nodes head2 ++ A)) head (elm :: B) head = elm :: B := update_self _ _ _
      obtain ⟨m',run,removed⟩ := xsimpleq_remove_head_stored here first
      have tailed := xsimpleq_insert_tail_stored removed (here.disjoint.fresh_take (A := []) first) head2
      rw [update_idem,update_of_ne differ,update_self,update_comm (Ne.symm differ),update_idem,List.append_assoc] at tailed
      refine ⟨next m _ head [] B elm here first,
        (xsimpleq_insert_tail L.field m' (L.head_at head2) (L.node_at elm),log ++ [L.node_at elm]),?_,rfl,fun A₂ B₂ same' split' => ?_⟩
      · rw [move,run]
        rfl
      · have isA : A₂ = A ++ [elm] := by
          apply List.map_injective_iff.mpr L.different
          rw [same',List.map_append,same,List.map_singleton]
        have isB : B₂ = B := by
          rw [split,isA,List.append_assoc] at split'
          exact (List.cons.inj (List.append_cancel_left split')).2.symm
        rw [isA,isB]
        exact tailed
    have start : ∀ A B, A.map L.node_at = [] → nodes head = A ++ B → Stored L m (update (update nodes head2 (nodes head2 ++ A)) head B) := by
      intro A B none_ split
      rw [List.map_eq_nil_iff.mp none_,List.nil_append] at split
      rw [List.map_eq_nil_iff.mp none_,List.append_nil,update_eq_self,← split,update_eq_self]
      exact stored
    rw [run_call,xsimpleq_foreach_safe,first m nodes head stored]
    have few : ((nodes head).map L.node_at).length ≤ fuel := by rwa [List.length_map]
    obtain ⟨⟨m',log⟩,run,seen,held⟩ := @foreach_safe_ok _ _ _ (fun m elm => ptr (xsimpleq_next L.field m (L.head_at head) elm)) _ _ _ (m,[])
      (fun A' s => s.2 = A' ∧ ∀ A B, A.map L.node_at = A' → nodes head = A ++ B →
        Stored L s.1 (update (update nodes head2 (nodes head2 ++ A)) head B)) one ⟨rfl,start⟩ few
    cases seen
    exact ⟨m',run,held (nodes head) [] rfl (List.append_nil _).symm⟩

/-! ### Runs -/

/-- `XSIMPLEQ_INIT` of some heads, each with its random word. -/
def init_all (L : Layout H N) (random : H → BitVec 64) (heads : List H) (m : Memory) : Memory :=
  heads.foldl (fun m head => xsimpleq_init m (L.head_at head) (random head)) m

theorem init_all_words {random : H → BitVec 64} {heads : List H} (there : head ∈ heads) :
    cookies L (init_all L random heads m) head = random head ∧
      pointers L (init_all L random heads m) (.first head) = random head ^^^ L.code none ∧
      lasts L (init_all L random heads m) head = random head ^^^ L.address (.place (.first head)) := by
  induction heads using List.reverseRecOn with
  | nil => cases there
  | append_singleton heads last ih =>
    obtain ⟨cookie,pointer,end_⟩ := xsimpleq_init_words (L := L) (init_all L random heads m) last (random last)
    have is : init_all L random (heads ++ [last]) m = xsimpleq_init (init_all L random heads m) (L.head_at last) (random last) :=
      List.foldl_concat _ _ _ _
    rw [is,cookie,pointer,end_]
    by_cases same : head = last
    · rw [same,update_self,update_self,update_self]
      exact ⟨rfl,rfl,rfl⟩
    · have before : head ∈ heads := (List.mem_append.mp there).resolve_right fun at_ => same (List.mem_singleton.mp at_)
      rw [update_of_ne same,update_of_ne (by simpa using same),update_of_ne same]
      exact ih before

/-- Whatever the cookies are, and wherever heads and nodes are, a program sees the nodes
    that the same program sees with simple queues. -/
theorem xsimpleq_runs (L : Layout H N) (random : H → BitVec 64) {heads : List H} (all : ∀ head, head ∈ heads) (m : Memory)
    (fuel : Nat) (next : N → Option N) {calls : List (Call H N)}
    (allowed : AllAllowed Simpleq.meant (Simpleq.Allowed fuel) (calls.map Call.plain)) :
    ∃ p q, steps (step (run_call L fuel)) ⟨init_all L random heads m,[]⟩ calls = .ok p ∧
      steps (step (Simpleq.run_call fuel)) ⟨Simpleq.simpleq_head_initializer next,[]⟩ (calls.map Call.plain) = .ok q ∧
      p.results = q.results.map (List.map L.node_at) ∧
      ∀ head, xsimpleq_empty p.memory (L.head_at head) = Simpleq.simpleq_empty q.memory head := by
  have start : Stored L (init_all L random heads m) fun _ => [] := by
    refine ⟨disjoint_init,linked_init fun head => ?_,fun head => ?_⟩
    · rw [(init_all_words (all head)).1,(init_all_words (all head)).2.1]
    · rw [(init_all_words (all head)).1,(init_all_words (all head)).2.2]
      rfl
  obtain ⟨p,run,same,stored⟩ := runs_refine (S := Stored L) Call.plain (List.map L.node_at)
    (fun _ _ _ stored permitted => call_stored stored permitted) start allowed
  obtain ⟨q,run',same',empty⟩ := Simpleq.runs_stored fuel next allowed
  refine ⟨p,q,run,run',by rw [same,same'],fun head => ?_⟩
  rw [xsimpleq_empty,xsimpleq_first_ok stored,Simpleq.simpleq_empty,show Simpleq.simpleq_first q.memory head = _ from empty.linked.first head]
  cases (meant_all Simpleq.meant (calls.map Call.plain)).nodes head with
  | nil => rfl
  | cons elm l => exact beq_eq_false_iff_ne.mpr (L.not_null elm)

end

/-- Two heads and three nodes. -/
def few_addresses : Addresses Bool (Fin 3) where
  head_at head := if head then 4096 else 8192
  node_at elm := 256 + 64 * BitVec.ofNat 64 elm
  field := 16

def few_words : Layout Bool (Fin 3) where
  toAddresses := few_addresses
  not_null := by decide
  different := by decide
  apart := by
    rintro ((head | elm) | head | head) ((head' | elm') | head' | head') <;> decide +revert

def few_calls : List (Call Bool (Fin 3)) :=
  [.insert_tail false 0,.insert_head false 1,.insert_after false 0 2,.remove_head false,.move false true,.init false 7,.foreach true]

theorem few_calls_allowed : AllAllowed Simpleq.meant (Simpleq.Allowed 3) (few_calls.map Call.plain) := by
  refine along_cons_iff.mpr ⟨fresh_init,along_cons_iff.mpr ⟨fresh_init.update (by decide),along_cons_iff.mpr ⟨⟨by decide,?_⟩,?_⟩⟩⟩
  · exact (fresh_init.update (by decide)).update (by decide)
  refine along_cons_iff.mpr ⟨?_,along_cons_iff.mpr ⟨⟨by decide,?_⟩,along_cons_iff.mpr ⟨trivial,along_cons_iff.mpr ⟨?_,trivial⟩⟩⟩⟩
  · exact List.cons_ne_nil 1 [0,2]
  · exact Nat.le_succ 2
  · exact Nat.le_succ 2

theorem xsimpleq_runs_few : ∃ p, steps (step (run_call few_words 3)) ⟨init_all few_words (fun _ => 12345) [false,true] fun _ => 0,[]⟩ few_calls = .ok p ∧
    p.results = [[],[],[],[],[256,384],[],[256,384]] := by
  obtain ⟨p,q,run,run',same,-⟩ := xsimpleq_runs few_words (fun _ => 12345) (show ∀ head, head ∈ [false,true] by decide) (fun _ => 0) 3 (fun _ => none) few_calls_allowed
  refine ⟨p,run,?_⟩
  cases run'
  exact same

end Htools.Xsimpleq
