import Mathlib.Data.List.Basic
import Mathlib.Data.List.Nodup
import Mathlib.Data.List.Induction
import Mathlib.Logic.Function.Basic

/-!
Tail queues in memory (`hutils/include/hutils/queue.h`). A node has a pointer to
the next one and one to the place that points at it, be it in the node before or
in the head, and the head has one to the place at the end. `Queue` says that
these links are those of a list of nodes. What a macro does to a queue leaves
all others alone that have other heads and other nodes (`Untouched`).
-/
namespace Htools.Tailq

/-- Where a pointer to a node is: `tqh_first` of a head, or `tqe_next` of a node. -/
inductive Place (N : Type) where
  | first (head : Nat)
  | next (elm : N)
  deriving DecidableEq, Repr

/-- The heads, which are numbered, and the links of the nodes. -/
structure Memory (N : Type) where
  tqh_first : Nat → Option N
  tqh_last : Nat → Place N
  tqe_next : N → Option N
  tqe_prev : N → Place N

section
variable {N : Type}

def Memory.read (m : Memory N) : Place N → Option N
  | .first head => m.tqh_first head
  | .next elm => m.tqe_next elm

def Memory.write [DecidableEq N] (m : Memory N) (value : Option N) : Place N → Memory N
  | .first head => { m with tqh_first := Function.update m.tqh_first head value }
  | .next elm => { m with tqe_next := Function.update m.tqe_next elm value }

@[simp] theorem Memory.write_read [DecidableEq N] (m : Memory N) (value : Option N) (p q : Place N) :
    (m.write value p).read q = if q = p then value else m.read q := by
  cases p <;> cases q <;> simp [Memory.write,Memory.read,Function.update_apply]

@[simp] theorem Memory.write_prev [DecidableEq N] (m : Memory N) (value : Option N) (p : Place N) :
    (m.write value p).tqe_prev = m.tqe_prev := by
  cases p <;> rfl

@[simp] theorem Memory.write_last [DecidableEq N] (m : Memory N) (value : Option N) (p : Place N) :
    (m.write value p).tqh_last = m.tqh_last := by
  cases p <;> rfl

/-- The pointers to nodes do not depend on the pointers back. -/
@[simp] theorem Memory.read_back (m : Memory N) (last : Nat → Place N) (prev : N → Place N) (q : Place N) :
    Memory.read { m with tqh_last := last, tqe_prev := prev } q = m.read q := by
  cases q <;> rfl

/-- The second pointer of a place that is taken for a head: a head and the links
    of a node have the same layout. -/
def Memory.second (m : Memory N) : Place N → Place N
  | .first head => m.tqh_last head
  | .next elm => m.tqe_prev elm

def tailq_init (m : Memory N) (head : Nat) : Memory N :=
  { m with
    tqh_first := Function.update m.tqh_first head none
    tqh_last := Function.update m.tqh_last head (.first head) }

def tailq_insert_head [DecidableEq N] (m : Memory N) (head : Nat) (elm : N) : Memory N :=
  let m := { m with tqe_next := Function.update m.tqe_next elm (m.tqh_first head) }
  let m :=
    match m.tqh_first head with
    | some first => { m with tqe_prev := Function.update m.tqe_prev first (.next elm) }
    | none => { m with tqh_last := Function.update m.tqh_last head (.next elm) }
  let m := { m with tqh_first := Function.update m.tqh_first head (some elm) }
  { m with tqe_prev := Function.update m.tqe_prev elm (.first head) }

def tailq_insert_tail [DecidableEq N] (m : Memory N) (head : Nat) (elm : N) : Memory N :=
  let m := { m with tqe_next := Function.update m.tqe_next elm none }
  let m := { m with tqe_prev := Function.update m.tqe_prev elm (m.tqh_last head) }
  let m := m.write (some elm) (m.tqh_last head)
  { m with tqh_last := Function.update m.tqh_last head (.next elm) }

def tailq_remove [DecidableEq N] (m : Memory N) (head : Nat) (elm : N) : Memory N :=
  let m :=
    match m.tqe_next elm with
    | some next => { m with tqe_prev := Function.update m.tqe_prev next (m.tqe_prev elm) }
    | none => { m with tqh_last := Function.update m.tqh_last head (m.tqe_prev elm) }
  m.write (m.tqe_next elm) (m.tqe_prev elm)

def tailq_last (m : Memory N) (head : Nat) : Option N := m.read (m.second (m.tqh_last head))

def tailq_prev (m : Memory N) (elm : N) : Option N := m.read (m.second (m.tqe_prev elm))

/-- The nodes of `TAILQ_FOREACH` from one on, if there are no more than `fuel`. -/
def foreach_from (m : Memory N) : Nat → Option N → Option (List N)
  | _, none => some []
  | 0, some _ => none
  | fuel + 1, some var => (foreach_from m fuel (m.tqe_next var)).map (var :: ·)

def tailq_foreach (m : Memory N) (fuel head : Nat) : Option (List N) := foreach_from m fuel (m.tqh_first head)

def foreach_reverse_from (m : Memory N) : Nat → Option N → Option (List N)
  | _, none => some []
  | 0, some _ => none
  | fuel + 1, some var => (foreach_reverse_from m fuel (tailq_prev m var)).map (var :: ·)

def tailq_foreach_reverse (m : Memory N) (fuel head : Nat) : Option (List N) :=
  foreach_reverse_from m fuel (tailq_last m head)

/-! ### Queues -/

/-- The links of nodes one behind the other, from a place that points at the first one to the last place. -/
def Links (m : Memory N) : Place N → List N → Place N → Prop
  | p, [], q => p = q
  | p, elm :: rest, q => m.read p = some elm ∧ m.tqe_prev elm = p ∧ Links m (.next elm) rest q

/-- A head has exactly the nodes of a list. -/
structure Queue (m : Memory N) (head : Nat) (l : List N) : Prop where
  links : Links m (.first head) l (m.tqh_last head)
  end_ : m.read (m.tqh_last head) = none
  nodup : l.Nodup

/-- A head and nodes that two memories have in common. -/
structure Untouched (m m' : Memory N) (head : Nat) (l : List N) : Prop where
  first : m'.tqh_first head = m.tqh_first head
  last : m'.tqh_last head = m.tqh_last head
  next : ∀ elm ∈ l, m'.tqe_next elm = m.tqe_next elm
  prev : ∀ elm ∈ l, m'.tqe_prev elm = m.tqe_prev elm

variable {m m' : Memory N} {head : Nat} {l front back rest : List N} {p q : Place N} {elm : N}

theorem links_append {first last : List N} :
    Links m p (first ++ last) q ↔ ∃ r, Links m p first r ∧ Links m r last q := by
  induction first generalizing p with
  | nil =>
    constructor
    · intro links
      exact ⟨p,rfl,links⟩
    · rintro ⟨r,rfl,links⟩
      exact links
  | cons elm first ih =>
    simp only [List.cons_append,Links,ih]
    constructor
    · rintro ⟨here,back,r,before,behind⟩
      exact ⟨r,⟨here,back,before⟩,behind⟩
    · rintro ⟨r,⟨here,back,before⟩,behind⟩
      exact ⟨here,back,r,before,behind⟩

/-- The last place is the first one, or in the last node. -/
theorem links_last (links : Links m p l q) : q = p ∨ ∃ elm ∈ l, q = .next elm := by
  induction l generalizing p with
  | nil => exact .inl links.symm
  | cons elm rest ih =>
    rcases ih links.2.2 with here | ⟨other,member,there⟩
    · exact .inr ⟨elm,List.mem_cons_self,here⟩
    · exact .inr ⟨other,List.mem_cons_of_mem elm member,there⟩

theorem links_snoc (links : Links m p (l ++ [elm]) q) : q = .next elm ∧ Links m p l (m.tqe_prev elm) ∧
    m.read (m.tqe_prev elm) = some elm := by
  obtain ⟨r,before,here,back,last⟩ := links_append.mp links
  rw [back]
  exact ⟨last.symm,before,here⟩

/-- Links stay where the pointers to the nodes, and their pointers back, stay. -/
theorem Links.congr (links : Links m p l q) (first : l ≠ [] → m'.read p = m.read p)
    (next : ∀ elm ∈ l, Place.next elm ≠ q → m'.tqe_next elm = m.tqe_next elm)
    (prev : ∀ elm ∈ l, m'.tqe_prev elm = m.tqe_prev elm) (nodup : l.Nodup) : Links m' p l q := by
  induction l generalizing p with
  | nil => exact links
  | cons elm rest ih =>
    obtain ⟨here,back,later⟩ := links
    refine ⟨(first (List.cons_ne_nil elm rest)).trans here,(prev elm List.mem_cons_self).trans back,?_⟩
    cases rest with
    | nil => exact later
    | cons second rest =>
      refine ih later (fun _ => next elm List.mem_cons_self ?_) (fun e member => next e (List.mem_cons_of_mem elm member))
        (fun e member => prev e (List.mem_cons_of_mem elm member)) (List.nodup_cons.mp nodup).2
      rintro rfl
      -- The place behind the last node is not in the one before.
      obtain same | ⟨e,member,same⟩ := links_last later.2.2
      · cases same
        simp at nodup
      · cases same
        simp [member] at nodup

theorem Queue.untouched (queue : Queue m head l) (same : Untouched m m' head l) : Queue m' head l := by
  obtain ⟨links,end_,nodup⟩ := queue
  refine ⟨?_,?_,nodup⟩
  · rw [same.last]
    exact links.congr (fun _ => same.first) (fun elm member _ => same.next elm member) same.prev nodup
  · rw [same.last]
    rcases links_last links with here | ⟨elm,member,there⟩
    · rw [here] at end_ ⊢
      exact same.first.trans end_
    · rw [there] at end_ ⊢
      exact (same.next elm member).trans end_

theorem Untouched.refl : Untouched m m head l := ⟨rfl,rfl,fun _ _ => rfl,fun _ _ => rfl⟩

theorem Untouched.trans {m₂ : Memory N} (first : Untouched m m' head l) (second : Untouched m' m₂ head l) :
    Untouched m m₂ head l :=
  ⟨second.first.trans first.first,second.last.trans first.last,
    fun elm member => (second.next elm member).trans (first.next elm member),
    fun elm member => (second.prev elm member).trans (first.prev elm member)⟩

theorem Queue.head? (queue : Queue m head l) : m.tqh_first head = l.head? := by
  obtain ⟨links,end_,_⟩ := queue
  cases l with
  | nil =>
    rw [← show Place.first head = m.tqh_last head from links] at end_
    exact end_
  | cons elm rest => exact links.1

theorem foreach_from_links {fuel : Nat} (links : Links m p l q) (end_ : m.read q = none) (enough : l.length ≤ fuel) :
    foreach_from m fuel (m.read p) = some l := by
  induction l generalizing fuel p with
  | nil =>
    rw [show p = q from links,end_]
    cases fuel <;> rfl
  | cons elm rest ih =>
    obtain ⟨here,_,later⟩ := links
    cases fuel with
    | zero => simp at enough
    | succ fuel =>
      rw [here,foreach_from,show m.tqe_next elm = m.read (.next elm) from rfl,ih later (by simpa using enough)]
      rfl

/-- The nodes of a queue from the first one on. -/
theorem Queue.foreach (queue : Queue m head l) : tailq_foreach m l.length head = some l :=
  foreach_from_links queue.links queue.end_ (Nat.le_refl _)

/-- The nodes before a place, back to the first one. -/
theorem foreach_reverse_links {fuel : Nat} (links : Links m (.first head) l p) (end_ : m.read (m.tqh_last head) = none)
    (enough : l.length ≤ fuel) : foreach_reverse_from m fuel (m.read (m.second p)) = some l.reverse := by
  induction l using List.reverseRecOn generalizing fuel p with
  | nil =>
    rw [← show Place.first head = p from links,Memory.second,end_]
    cases fuel <;> rfl
  | append_singleton before elm ih =>
    obtain ⟨rfl,earlier,back⟩ := links_snoc links
    cases fuel with
    | zero => simp at enough
    | succ fuel =>
      rw [Memory.second,back,foreach_reverse_from,tailq_prev,ih earlier (by simpa using enough)]
      simp

theorem Queue.foreach_reverse (queue : Queue m head l) : tailq_foreach_reverse m l.length head = some l.reverse :=
  foreach_reverse_links queue.links queue.end_ (Nat.le_refl _)

/-! ### Neighbours -/

theorem links_next (links : Links m p (elm :: back) q) (end_ : m.read q = none) : m.tqe_next elm = back.head? := by
  obtain ⟨_,_,later⟩ := links
  cases back with
  | nil =>
    rw [← show Place.next elm = q from later] at end_
    exact end_
  | cons second back => exact later.1

theorem Queue.next (queue : Queue m head (front ++ elm :: back)) : m.tqe_next elm = back.head? := by
  obtain ⟨r,_,links⟩ := links_append.mp queue.links
  exact links_next links queue.end_

/-- The node before the place behind some nodes. -/
theorem links_before (links : Links m (.first head) front p) (end_ : m.read (m.tqh_last head) = none) :
    m.read (m.second p) = front.getLast? := by
  rcases List.eq_nil_or_concat front with rfl | ⟨before,last,rfl⟩
  · rw [← show Place.first head = p from links,Memory.second,end_]
    rfl
  · rw [List.concat_eq_append] at links ⊢
    obtain ⟨rfl,_,here⟩ := links_snoc links
    rw [Memory.second,here,List.getLast?_concat]

theorem Queue.prev (queue : Queue m head (front ++ elm :: back)) : tailq_prev m elm = front.getLast? := by
  obtain ⟨r,links,here,prev,_⟩ := links_append.mp queue.links
  rw [tailq_prev,prev]
  exact links_before links queue.end_

theorem Queue.last (queue : Queue m head l) : tailq_last m head = l.getLast? := links_before queue.links queue.end_

end

/-! ### What the macros do to queues -/

section
variable {N : Type} {m m' : Memory N} {head other : Nat} {l front back rest : List N} {elm : N}

theorem tailq_init_queue (m : Memory N) (head : Nat) : Queue (tailq_init m head) head [] := by
  refine ⟨?_,?_,List.nodup_nil⟩
  · simp [Links,tailq_init]
  · simp [Memory.read,tailq_init]

theorem tailq_init_untouched (apart : other ≠ head) : Untouched m (tailq_init m head) other rest := by
  refine ⟨?_,?_,fun _ _ => rfl,fun _ _ => rfl⟩
  · simp [tailq_init,apart]
  · simp [tailq_init,apart]

variable [DecidableEq N]

theorem tailq_insert_tail_queue (queue : Queue m head l) (fresh : elm ∉ l) :
    Queue (tailq_insert_tail m head elm) head (l ++ [elm]) := by
  obtain ⟨links,end_,nodup⟩ := queue
  have nodup' : (l ++ [elm]).Nodup := by
    rw [List.nodup_append]
    refine ⟨nodup,List.nodup_singleton elm,?_⟩
    intro a member b same
    rw [List.mem_singleton.mp same]
    rintro rfl
    exact fresh member
  rcases List.eq_nil_or_concat l with rfl | ⟨before,last,rfl⟩
  · have place : m.tqh_last head = .first head := links.symm
    refine ⟨?_,?_,nodup'⟩
    · simp [Links,tailq_insert_tail,place,Memory.write,Memory.read]
    · simp [tailq_insert_tail,place,Memory.write,Memory.read]
  rw [List.concat_eq_append] at links fresh nodup nodup' ⊢
  have place : m.tqh_last head = .next last := (links_snoc links).1
  have apart : elm ≠ last := by
    rintro rfl
    exact fresh (List.mem_append_right before List.mem_cons_self)
  have fresh' : ∀ e ∈ before ++ [last], e ≠ elm := by
    rintro e member rfl
    exact fresh member
  refine ⟨links_append.mpr ⟨.next last,?_,?_⟩,?_,nodup'⟩
  · rw [place] at links
    refine links.congr (fun _ => ?_) ?_ ?_ nodup
    · simp [tailq_insert_tail,place,Memory.write,Memory.read]
    · intro e member behind
      have notLast : e ≠ last := fun same => behind (congrArg Place.next same)
      simp [tailq_insert_tail,place,Memory.write,notLast,fresh' e member]
    · intro e member
      simp [tailq_insert_tail,place,Memory.write,fresh' e member]
  · simp [Links,tailq_insert_tail,place,Memory.write,Memory.read]
  · simp [tailq_insert_tail,place,Memory.write,Memory.read,apart]

theorem tailq_insert_tail_untouched (queue : Queue m head l) (apart : other ≠ head)
    (disjoint : ∀ e ∈ rest, e ∉ elm :: l) : Untouched m (tailq_insert_tail m head elm) other rest := by
  have fresh : ∀ e ∈ rest, e ≠ elm := by
    rintro e member rfl
    exact disjoint e member List.mem_cons_self
  rcases links_last queue.links with place | ⟨last,member,place⟩
  · refine ⟨?_,?_,?_,?_⟩
    · simp [tailq_insert_tail,place,Memory.write,apart]
    · simp [tailq_insert_tail,place,Memory.write,apart]
    · intro e there
      simp [tailq_insert_tail,place,Memory.write,fresh e there]
    · intro e there
      simp [tailq_insert_tail,place,Memory.write,fresh e there]
  · refine ⟨?_,?_,?_,?_⟩
    · simp [tailq_insert_tail,place,Memory.write]
    · simp [tailq_insert_tail,place,Memory.write,apart]
    · intro e there
      have notLast : e ≠ last := by
        rintro rfl
        exact disjoint e there (List.mem_cons_of_mem elm member)
      simp [tailq_insert_tail,place,Memory.write,fresh e there,notLast]
    · intro e there
      simp [tailq_insert_tail,place,Memory.write,fresh e there]

/-- What taking a node out changes: the place that points at it, and the pointer back to it. -/
theorem tailq_remove_changes (m : Memory N) (head : Nat) (elm : N) :
    (tailq_remove m head elm).read (m.tqe_prev elm) = m.tqe_next elm ∧
      (∀ p, p ≠ m.tqe_prev elm → (tailq_remove m head elm).read p = m.read p) ∧
      (∀ e, m.tqe_next elm = some e → (tailq_remove m head elm).tqe_prev e = m.tqe_prev elm) ∧
      (∀ e, m.tqe_next elm ≠ some e → (tailq_remove m head elm).tqe_prev e = m.tqe_prev e) ∧
      (m.tqe_next elm = none → (tailq_remove m head elm).tqh_last head = m.tqe_prev elm) ∧
      ∀ h, h ≠ head ∨ m.tqe_next elm ≠ none → (tailq_remove m head elm).tqh_last h = m.tqh_last h := by
  cases next_ : m.tqe_next elm with
  | none =>
    have is : tailq_remove m head elm =
        Memory.write { m with tqh_last := Function.update m.tqh_last head (m.tqe_prev elm) } none (m.tqe_prev elm) := by
      simp only [tailq_remove,next_]
    rw [is]
    refine ⟨?_,?_,?_,?_,?_,?_⟩
    · simp
    · intro p other
      rw [Memory.write_read,if_neg other]
      exact m.read_back _ m.tqe_prev p
    · rintro e ⟨⟩
    · simp
    · simp
    · rintro h (other | absurd_)
      · simp [other]
      · exact absurd rfl absurd_
  | some next =>
    have same : Function.update m.tqe_prev next (m.tqe_prev elm) elm = m.tqe_prev elm := by
      rw [Function.update_apply]
      split <;> rfl
    have is : tailq_remove m head elm =
        Memory.write { m with tqe_prev := Function.update m.tqe_prev next (m.tqe_prev elm) } (some next) (m.tqe_prev elm) := by
      simp only [tailq_remove,next_,same]
    rw [is]
    refine ⟨?_,?_,?_,?_,?_,?_⟩
    · simp
    · intro p other
      rw [Memory.write_read,if_neg other]
      exact m.read_back m.tqh_last _ p
    · rintro e ⟨⟩
      simp
    · intro e other
      have differ : e ≠ next := fun same => other (congrArg some same.symm)
      simp [differ]
    · rintro ⟨⟩
    · simp

/-- Taking any node out. -/
theorem tailq_remove_inside (queue : Queue m head (front ++ elm :: back)) : Queue (tailq_remove m head elm) head (front ++ back) := by
  have next_ := queue.next
  obtain ⟨links,end_,nodup⟩ := queue
  obtain ⟨r,before,here,prev,later⟩ := links_append.mp links
  obtain ⟨points,reads,back_,prevs,last,lasts⟩ := tailq_remove_changes m head elm
  rw [prev,next_] at points
  rw [prev] at reads
  rw [next_] at prevs back_ last lasts
  rw [prev] at back_ last
  have nodup' : (front ++ back).Nodup := nodup.sublist (List.Sublist.append_left (List.sublist_cons_self elm back) front)
  have apart := (List.nodup_append.mp nodup').2.2
  -- The place that pointed at the node is not in a node behind it.
  have place : ∀ e ∈ back, Place.next e ≠ r := by
    rintro e member rfl
    rcases links_last before with is | ⟨e',member',is⟩
    · cases is
    · cases is
      exact apart e member' e member rfl
  have front_ : Links (tailq_remove m head elm) (.first head) front r := by
    refine before.congr (fun some_ => reads _ ?_) (fun e _ other => reads (.next e) other) (fun e member => prevs e ?_)
      (List.nodup_append.mp nodup').1
    · rintro rfl
      rcases List.eq_nil_or_concat front with is | ⟨l,e,rfl⟩
      · exact some_ is
      · rw [List.concat_eq_append] at before
        cases (links_snoc before).1
    · intro is
      exact apart e member e (List.mem_of_mem_head? is) rfl
  cases back with
  | nil =>
    refine ⟨links_append.mpr ⟨r,front_,(last rfl).symm⟩,?_,nodup'⟩
    rw [last rfl]
    exact points
  | cons second back =>
    obtain ⟨_,_,behind⟩ := later
    have stays := lasts head (.inr (Option.some_ne_none second))
    have nodup'' := (List.nodup_append.mp nodup').2.1
    have notSecond := (List.nodup_cons.mp nodup'').1
    refine ⟨links_append.mpr ⟨r,front_,points,back_ second rfl,?_⟩,?_,nodup'⟩
    · rw [stays]
      refine behind.congr (fun _ => reads _ (place second List.mem_cons_self))
        (fun e member _ => reads (.next e) (place e (List.mem_cons_of_mem _ member))) (fun e member => prevs e ?_)
        (List.nodup_cons.mp nodup'').2
      rintro ⟨⟩
      exact notSecond member
    · rw [stays]
      rcases links_last behind with is | ⟨e,member,is⟩
      · rw [is] at end_ ⊢
        exact (reads _ (place second List.mem_cons_self)).trans end_
      · rw [is] at end_ ⊢
        exact (reads _ (place e (List.mem_cons_of_mem _ member))).trans end_

/-- Other heads and their nodes stay. -/
theorem tailq_remove_apart (queue : Queue m head (front ++ elm :: back)) (apart : other ≠ head)
    (disjoint : ∀ e ∈ rest, e ∉ front ++ back) : Untouched m (tailq_remove m head elm) other rest := by
  have next_ := queue.next
  obtain ⟨r,before,_,prev,_⟩ := links_append.mp queue.links
  obtain ⟨_,reads,_,prevs,_,lasts⟩ := tailq_remove_changes m head elm
  rw [prev] at reads
  rw [next_] at prevs
  have place : r = .first head ∨ ∃ e ∈ front, r = .next e := links_last before
  refine ⟨reads (.first other) ?_,lasts other (.inl apart),fun e member => reads (.next e) ?_,fun e member => prevs e ?_⟩
  · rintro rfl
    rcases place with is | ⟨e,_,is⟩
    · cases is
      exact apart rfl
    · cases is
  · rintro rfl
    rcases place with is | ⟨e',member',is⟩
    · cases is
    · cases is
      exact disjoint e member (List.mem_append_left _ member')
  · intro is
    exact disjoint e member (List.mem_append_right _ (List.mem_of_mem_head? is))

/-- Taking the first node out. -/
theorem tailq_remove_queue (queue : Queue m head (elm :: l)) : Queue (tailq_remove m head elm) head l :=
  @tailq_remove_inside N m head [] l elm _ queue

theorem tailq_remove_untouched (queue : Queue m head (elm :: l)) (apart : other ≠ head)
    (disjoint : ∀ e ∈ rest, e ∉ l) : Untouched m (tailq_remove m head elm) other rest :=
  @tailq_remove_apart N m head other [] l rest elm _ queue apart disjoint

theorem tailq_insert_head_queue (queue : Queue m head l) (fresh : elm ∉ l) :
    Queue (tailq_insert_head m head elm) head (elm :: l) := by
  have first := queue.head?
  obtain ⟨links,end_,nodup⟩ := queue
  have nodup' : (elm :: l).Nodup := List.nodup_cons.mpr ⟨fresh,nodup⟩
  cases l with
  | nil =>
    have none_ : m.tqh_first head = none := first
    refine ⟨⟨?_,?_,?_⟩,?_,nodup'⟩
    · simp [tailq_insert_head,Memory.read]
    · simp [tailq_insert_head]
    · simp [tailq_insert_head,none_,Links]
    · simp [tailq_insert_head,none_,Memory.read]
  | cons second l =>
    have some_ : m.tqh_first head = some second := first
    obtain ⟨_,_,later⟩ := links
    have differ : second ≠ elm := fun same => fresh (same ▸ List.mem_cons_self)
    have stays : ∀ p, p ≠ .next elm → p ≠ .first head → (tailq_insert_head m head elm).read p = m.read p := by
      rintro (h | e) notElm notHead
      · have other : h ≠ head := fun same => notHead (congrArg Place.first same)
        simp [tailq_insert_head,some_,Memory.read,other]
      · have other : e ≠ elm := fun same => notElm (congrArg Place.next same)
        simp [tailq_insert_head,some_,Memory.read,other]
    have last : (tailq_insert_head m head elm).tqh_last head = m.tqh_last head := by simp [tailq_insert_head,some_]
    have others : ∀ e ∈ second :: l, Place.next e ≠ .next elm := by
      rintro e member ⟨⟩
      exact fresh member
    refine ⟨⟨?_,?_,?_,?_,?_⟩,?_,nodup'⟩
    · simp [tailq_insert_head,Memory.read]
    · simp [tailq_insert_head]
    · simp [tailq_insert_head,some_,Memory.read]
    · simp [tailq_insert_head,some_,differ]
    · rw [last]
      refine later.congr (fun _ => stays _ (others second List.mem_cons_self) (by rintro ⟨⟩))
        (fun e member _ => stays (.next e) (others e (List.mem_cons_of_mem _ member)) (by rintro ⟨⟩)) (fun e member => ?_)
        (List.nodup_cons.mp nodup).2
      have notElm : e ≠ elm := fun same => fresh (same ▸ List.mem_cons_of_mem _ member)
      have notSecond : e ≠ second := fun same => (List.nodup_cons.mp nodup).1 (same ▸ member)
      simp [tailq_insert_head,some_,notElm,notSecond]
    · rw [last]
      rcases links_last later with is | ⟨e,member,is⟩
      · rw [is] at end_ ⊢
        exact (stays _ (others second List.mem_cons_self) (by rintro ⟨⟩)).trans end_
      · rw [is] at end_ ⊢
        exact (stays _ (others e (List.mem_cons_of_mem _ member)) (by rintro ⟨⟩)).trans end_

theorem tailq_insert_head_untouched (queue : Queue m head l) (apart : other ≠ head) (disjoint : ∀ e ∈ rest, e ∉ elm :: l) :
    Untouched m (tailq_insert_head m head elm) other rest := by
  have first := queue.head?
  have notElm : ∀ e ∈ rest, e ≠ elm := fun e member same => disjoint e member (same ▸ List.mem_cons_self)
  cases l with
  | nil =>
    have none_ : m.tqh_first head = none := first
    refine ⟨?_,?_,fun e member => ?_,fun e member => ?_⟩
    · simp [tailq_insert_head,none_,apart]
    · simp [tailq_insert_head,none_,apart]
    · simp [tailq_insert_head,none_,notElm e member]
    · simp [tailq_insert_head,none_,notElm e member]
  | cons second l =>
    have some_ : m.tqh_first head = some second := first
    refine ⟨?_,?_,fun e member => ?_,fun e member => ?_⟩
    · simp [tailq_insert_head,some_,apart]
    · simp [tailq_insert_head,some_]
    · simp [tailq_insert_head,some_,notElm e member]
    · have notSecond : e ≠ second := fun same => disjoint e member (same ▸ List.mem_cons_of_mem _ List.mem_cons_self)
      simp [tailq_insert_head,some_,notElm e member,notSecond]

end

end Htools.Tailq
