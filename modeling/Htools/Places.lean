import Htools.Runs
import Mathlib.Data.List.Basic
import Mathlib.Data.List.Nodup
import Mathlib.Logic.Function.Basic
import Mathlib.Tactic.Common

/-!
# Linked lists by the places of their pointers

A place is where a pointer to a node is: in a head or in the node before. The pointers of
a list are a chain through its places, under any encoding of pointers by the values that
the places hold. Lists with pointers back have the place of each node in the node itself.
A node is put in, taken out or exchanged by a write or two at one place, wherever in the
list this is.
-/
namespace Htools.Places

/-- Where a pointer to a node is. -/
inductive Place (H N : Type) where
  | first (head : H)
  | next (elm : N)
  deriving DecidableEq, Repr

section
variable {H N V : Type}

/-- The place behind some nodes. -/
def ends : Place H N → List N → Place H N
  | p,[] => p
  | _,elm :: l => ends (.next elm) l

/-- The places from one on point at the nodes of a list, and the last one at what is behind them. -/
def Chain (enc : Option N → V) (read : Place H N → V) : Place H N → List N → Option N → Prop
  | p,[],behind => read p = enc behind
  | p,elm :: l,behind => read p = enc (some elm) ∧ Chain enc read (.next elm) l behind

/-- Every node has the place that points at it. -/
def Back (prev : N → Place H N) : Place H N → List N → Prop
  | _,[] => True
  | p,elm :: l => prev elm = p ∧ Back prev (.next elm) l

/-- The places of a list are different ones. -/
def Apart : Place H N → List N → Prop
  | .first _,l => l.Nodup
  | .next elm,l => (elm :: l).Nodup

variable {enc : Option N → V} {read read' : Place H N → V} {prev prev' : N → Place H N} {p q : Place H N} {A B l : List N}
  {elm x y : N} {behind behind' : Option N} {value : V}

theorem ends_append : ends p (A ++ B) = ends (ends p A) B := by
  induction A generalizing p with
  | nil => rfl
  | cons elm A ih => exact ih

@[simp] theorem ends_concat : ends p (A ++ [elm]) = .next elm := ends_append

theorem ends_mem (p : Place H N) (l : List N) : ends p l = p ∨ ∃ elm ∈ l, ends p l = .next elm := by
  rcases List.eq_nil_or_concat l with rfl | ⟨A,elm,rfl⟩
  · exact .inl rfl
  · rw [List.concat_eq_append]
    exact .inr ⟨elm,by simp,ends_concat⟩

theorem apart_nodup (apart : Apart p l) : l.Nodup := by
  cases p with
  | first head => exact apart
  | next elm => exact (List.nodup_cons.mp apart).2

theorem apart_next (apart : Apart p l) (there : elm ∈ l) : p ≠ .next elm := by
  cases p with
  | first head => simp
  | next other =>
    rintro ⟨⟩
    exact (List.nodup_cons.mp apart).1 there

theorem apart_tail (apart : Apart p (elm :: l)) : Apart (Place.next elm : Place H N) l := apart_nodup apart

theorem apart_front (apart : Apart p (A ++ B)) : Apart p A := by
  cases p with
  | first head => exact (List.nodup_append.mp apart).1
  | next elm => exact (List.nodup_append.mp (show (elm :: A ++ B).Nodup from apart)).1

theorem apart_sublist (apart : Apart p l) (part : A.Sublist l) : Apart p A := by
  cases p with
  | first head => exact List.Nodup.sublist part apart
  | next elm => exact List.Nodup.sublist (part.cons_cons elm) apart

/-- What is behind a place is not where it leads from. -/
theorem ends_ne (apart : Apart p (A ++ B)) (there : elm ∈ B) : ends p A ≠ .next elm := by
  induction A generalizing p with
  | nil => exact apart_next apart there
  | cons x A ih => exact ih (apart_tail apart)

theorem ends_fresh (new : p ≠ .next elm) (fresh : elm ∉ A) : ends p A ≠ .next elm := by
  obtain same | ⟨x,there,same⟩ := ends_mem p A
  · rw [same]
    exact new
  · rw [same]
    rintro ⟨⟩
    exact fresh there

theorem ends_ne_head {head other : H} (differ : other ≠ head) (l : List N) : ends (.first head) l ≠ .first other := by
  obtain here | ⟨elm,-,there⟩ := ends_mem (.first head) l
  · rw [here]
    simpa using Ne.symm differ
  · rw [there]
    simp

/-! ### Chains -/

theorem chain_end (chain : Chain enc read p l behind) : read (ends p l) = enc behind := by
  induction l generalizing p with
  | nil => exact chain
  | cons elm l ih => exact ih chain.2

theorem chain_head (chain : Chain enc read p l behind) : read p = enc (l.head?.or behind) := by
  cases l with
  | nil => exact chain
  | cons elm l => exact chain.1

theorem chain_append :
    Chain enc read p (A ++ B) behind ↔ Chain enc read p A (B.head?.or behind) ∧ Chain enc read (ends p A) B behind := by
  induction A generalizing p with
  | nil => exact ⟨fun chain => ⟨chain_head chain,chain⟩,And.right⟩
  | cons elm A ih =>
    rw [List.cons_append,Chain,Chain,ih,ends,and_assoc]

theorem chain_congr (first : read' p = read p) (next : ∀ elm ∈ l, read' (.next elm) = read (.next elm)) :
    Chain enc read' p l behind ↔ Chain enc read p l behind := by
  induction l generalizing p with
  | nil => rw [Chain,Chain,first]
  | cons elm l ih =>
    rw [Chain,Chain,first,ih (next elm List.mem_cons_self) fun x there => next x (List.mem_cons_of_mem elm there)]

/-- The same nodes from another place on. -/
theorem chain_from (chain : Chain enc read p l behind) (first : read' q = read p) (next : ∀ elm ∈ l, read' (.next elm) = read (.next elm)) :
    Chain enc read' q l behind := by
  cases l with
  | nil => exact first.trans chain
  | cons elm l =>
    refine ⟨first.trans chain.1,(chain_congr (next elm List.mem_cons_self) fun x there => ?_).mpr chain.2⟩
    exact next x (List.mem_cons_of_mem elm there)

section
variable [DecidableEq H] [DecidableEq N]

/-- A write behind the nodes. -/
theorem chain_aim (chain : Chain enc read p l behind) (apart : Apart p l) (target : Option N) :
    Chain enc (Function.update read (ends p l) (enc target)) p l target := by
  induction l generalizing p with
  | nil => exact Function.update_self _ _ _
  | cons elm l ih =>
    refine ⟨?_,ih chain.2 (apart_tail apart)⟩
    rw [Function.update_of_ne,chain.1]
    obtain same | ⟨x,there,same⟩ := ends_mem (.next elm) l
    · exact fun here => apart_next apart List.mem_cons_self (here.trans same)
    · exact fun here => apart_next apart (List.mem_cons_of_mem elm there) (here.trans same)

/-- A write at a place that is not one of the chain. -/
theorem chain_other (chain : Chain enc read p l behind) (first : p ≠ q) (next : ∀ elm ∈ l, .next elm ≠ q) :
    Chain enc (Function.update read q value) p l behind :=
  (chain_congr (Function.update_of_ne first _ _) fun elm there => Function.update_of_ne (next elm there) _ _).mpr chain

/-- A new node takes the pointer at a place and leaves one to itself there. -/
theorem chain_insert (chain : Chain enc read p (A ++ B) behind) (apart : Apart p (A ++ B)) (fresh : elm ∉ A ++ B)
    (new : p ≠ .next elm) :
    Chain enc (Function.update (Function.update read (.next elm) (read (ends p A))) (ends p A) (enc (some elm))) p
      (A ++ elm :: B) behind := by
  obtain ⟨front,back⟩ := chain_append.mp chain
  have elmA : ∀ x ∈ A, (Place.next x : Place H N) ≠ .next elm := by
    rintro x there ⟨⟩
    exact fresh (List.mem_append_left _ there)
  have elmB : ∀ x ∈ B, (Place.next x : Place H N) ≠ .next elm := by
    rintro x there ⟨⟩
    exact fresh (List.mem_append_right _ there)
  have away : Place.next elm ≠ ends p A := Ne.symm (ends_fresh new fun there => fresh (List.mem_append_left _ there))
  refine chain_append.mpr ⟨chain_aim (chain_other front new elmA) (apart_front apart) (some elm),Function.update_self _ _ _,?_⟩
  refine chain_from back ?_ fun x there => ?_
  · rw [Function.update_of_ne away,Function.update_self]
  · rw [Function.update_of_ne (Ne.symm (ends_ne apart there)),Function.update_of_ne (elmB x there)]

/-- The pointer of a node that is taken out is put in the place before it. -/
theorem chain_remove (chain : Chain enc read p (A ++ elm :: B) behind) (apart : Apart p (A ++ elm :: B)) :
    Chain enc (Function.update read (ends p A) (read (.next elm))) p (A ++ B) behind := by
  obtain ⟨front,-,back⟩ := chain_append.mp chain
  rw [chain_head back]
  refine chain_append.mpr ⟨chain_aim front (apart_front apart) _,chain_from back ?_ fun x there => ?_⟩
  · rw [Function.update_self,chain_head back]
  · exact Function.update_of_ne (Ne.symm (ends_ne apart (List.mem_cons_of_mem elm there))) _ _

/-- A node that takes the place of another. -/
theorem chain_replace (chain : Chain enc read p (A ++ elm :: B) behind) (apart : Apart p (A ++ elm :: B)) (fresh : x ∉ A ++ elm :: B)
    (new : p ≠ .next x) :
    Chain enc (Function.update (Function.update read (.next x) (read (.next elm))) (ends p A) (enc (some x))) p
      (A ++ x :: B) behind := by
  have apart' : Apart p (A ++ B) := apart_sublist apart (List.Sublist.append_left (List.sublist_cons_self elm B) A)
  have fresh' : x ∉ A ++ B := fun there => fresh (List.append_sublist_append_left A |>.mpr (List.sublist_cons_self elm B) |>.subset there)
  have away : ends p A ≠ .next x := ends_fresh new fun there => fresh (List.mem_append_left _ there)
  have put := chain_insert (chain_remove chain apart) apart' fresh' new
  rwa [Function.update_self,Function.update_comm away,Function.update_idem] at put

/-- A list that is put behind another one. -/
theorem chain_concat (first : Chain enc read p A none) (second : Chain enc read q B behind) (apart : Apart p A)
    (disjoint : ∀ x ∈ B, .next x ≠ ends p A) :
    Chain enc (Function.update read (ends p A) (read q)) p (A ++ B) behind := by
  rw [chain_head second]
  refine chain_append.mpr ⟨chain_aim first apart _,chain_from second ?_ fun x there => ?_⟩
  · rw [Function.update_self,chain_head second]
  · exact Function.update_of_ne (disjoint x there) _ _

end

/-! ### Pointers back -/

theorem back_append : Back prev p (A ++ B) ↔ Back prev p A ∧ Back prev (ends p A) B := by
  induction A generalizing p with
  | nil => exact (and_iff_right trivial).symm
  | cons elm A ih => rw [List.cons_append,Back,Back,ih,ends,and_assoc]

theorem back_congr (same : ∀ elm ∈ l, prev' elm = prev elm) : Back prev' p l ↔ Back prev p l := by
  induction l generalizing p with
  | nil => rfl
  | cons elm l ih =>
    rw [Back,Back,same elm List.mem_cons_self,ih fun x there => same x (List.mem_cons_of_mem elm there)]

/-- What comes first points back to another place. -/
theorem back_from (back : Back prev p l) (first : ∀ elm, l.head? = some elm → prev' elm = q)
    (rest : ∀ elm ∈ l.tail, prev' elm = prev elm) : Back prev' q l := by
  cases l with
  | nil => trivial
  | cons elm l => exact ⟨first elm rfl,(back_congr rest).mpr back.2⟩

end

end Htools.Places
