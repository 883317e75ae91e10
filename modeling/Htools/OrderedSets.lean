import Htools.Runs
import Htools.TailqSort
import Htools.Zippers
import Mathlib.Data.List.Sort
import Mathlib.Logic.Function.Basic

/-!
# Sets as lists in order

A set of elements, none equal to another in a comparison, is a list in strict order.
The comparisons with any element guide a search in it, and what is added, taken out
or looked for is a matter of where their sign changes.
-/
namespace Htools.OrderedSets
open Zippers (Guides)
open TailqSort (Comparison)
open Runs (Along)

variable {α : Type} {cmp : α → α → Int} {l A B : List α} {elm : α}

/-- No element comes before one that is not greater. -/
def Ordered (cmp : α → α → Int) (l : List α) : Prop := l.Pairwise fun a b => cmp a b < 0

/-- An insertion, and the element that is there already. -/
def set_insert (cmp : α → α → Int) (l : List α) (elm : α) : List α × Option α :=
  match l.find? fun y => cmp elm y = 0 with
  | some y => (l,some y)
  | none => (l.orderedInsert (fun a b => cmp a b ≤ 0) elm,none)

/-- The calls of a program that keeps several sets, each with the number of the set. -/
inductive Op (α : Type) where
  | insert (head : Nat) (elm : α)
  | remove (head : Nat) (elm : α)
  | find (head : Nat) (elm : α)
  | nfind (head : Nat) (elm : α)
  | min (head : Nat)
  | max (head : Nat)
  | next (head : Nat) (elm : α)
  | prev (head : Nat) (elm : α)
  deriving DecidableEq, Repr

/-- The elements of each set in order, and those that the calls have returned. -/
structure Sets (α : Type) where
  nodes : Nat → List α
  results : List (Option α)

def Op.head : Op α → Nat
  | .insert head _ => head
  | .remove head _ => head
  | .find head _ => head
  | .nfind head _ => head
  | .min head => head
  | .max head => head
  | .next head _ => head
  | .prev head _ => head

/-- What a call makes of its set and what it returns. -/
def served [DecidableEq α] (cmp : α → α → Int) (l : List α) : Op α → List α × Option α
  | .insert _ elm => set_insert cmp l elm
  | .remove _ elm => (l.erase elm,some elm)
  | .find _ elm => (l,l.find? fun y => cmp elm y = 0)
  | .nfind _ elm => (l,l.find? fun y => cmp elm y ≤ 0)
  | .min _ => (l,l.head?)
  | .max _ => (l,l.getLast?)
  | .next _ elm => (l,l.find? fun y => cmp elm y < 0)
  | .prev _ elm => (l,l.reverse.find? fun y => cmp elm y > 0)

def meant [DecidableEq α] (cmp : α → α → Int) (s : Sets α) (op : Op α) : Sets α :=
  ⟨Function.update s.nodes op.head (served cmp (s.nodes op.head) op).1,s.results ++ [(served cmp (s.nodes op.head) op).2]⟩

/-- An element is in one set at most, and only elements of a set are taken out of it or
    left from; no set gets more than `n` elements. -/
def Allowed (n : Nat) (s : Sets α) : Op α → Prop
  | .insert head elm => (∀ other, other ≠ head → elm ∉ s.nodes other) ∧ (s.nodes head).length < n
  | .remove head elm => elm ∈ s.nodes head
  | .next head elm => elm ∈ s.nodes head
  | .prev head elm => elm ∈ s.nodes head
  | _ => True

def meant_all [DecidableEq α] (cmp : α → α → Int) (ops : List (Op α)) : Sets α := ops.foldl (meant cmp) ⟨fun _ => [],[]⟩

/-- Each call of a program is allowed when it comes. -/
def AllAllowed [DecidableEq α] (cmp : α → α → Int) (n : Nat) (ops : List (Op α)) : Prop :=
  Along (fun s op => .ok (meant cmp s op)) (Allowed n) ⟨fun _ => [],[]⟩ ops

theorem allowed_nodes {n : Nat} {s : Sets α} {op : Op α} : Allowed n s op ↔ Allowed n ⟨s.nodes,[]⟩ op := by
  cases op <;> rfl

theorem cmp_self (order : Comparison cmp) (a : α) : cmp a a = 0 := by
  have := order.swap a a
  omega

theorem ordered_guides (order : Comparison cmp) (ordered : Ordered cmp l) (elm : α) :
    Guides (cmp elm) l := by
  refine ordered.imp fun {a b} less le => ?_
  have le' := order.trans elm a b le (by omega)
  by_contra not
  have swapped := order.swap b elm
  have back := order.trans b elm a (by omega) le
  have swapped' := order.swap b a
  omega

theorem ordered_nodup (order : Comparison cmp) (ordered : Ordered cmp l) : l.Nodup := by
  refine ordered.imp fun {a b} less same => ?_
  rw [same,cmp_self order] at less
  omega

theorem find_none {p : α → Bool} (after : ∀ a ∈ l, p a = false) : l.find? p = none := by
  rw [List.find?_eq_none]
  intro a member
  simp [after a member]

theorem orderedInsert_between (above : ∀ a ∈ A, 0 < cmp elm a) (below : ∀ b ∈ B, cmp elm b < 0) :
    (A ++ B).orderedInsert (fun a b => cmp a b ≤ 0) elm = A ++ elm :: B := by
  induction A with
  | nil =>
    cases B with
    | nil => rfl
    | cons b B =>
      have := below b List.mem_cons_self
      rw [List.nil_append,List.orderedInsert_cons,if_pos (by omega)]
      rfl
  | cons a A ih =>
    have := above a List.mem_cons_self
    rw [List.cons_append,List.orderedInsert_cons,if_neg (by omega),ih fun b member => above b (List.mem_cons_of_mem a member)]
    rfl

theorem ordered_insert (order : Comparison cmp) (ordered : Ordered cmp (A ++ B))
    (above : ∀ a ∈ A, 0 < cmp elm a) (below : ∀ b ∈ B, cmp elm b < 0) :
    Ordered cmp (A ++ elm :: B) := by
  obtain ⟨front,back,across⟩ := List.pairwise_append.mp ordered
  refine List.pairwise_append.mpr ⟨front,List.pairwise_cons.mpr ⟨below,back⟩,fun a there b there' => ?_⟩
  obtain rfl | there' := List.mem_cons.mp there'
  · exact (order.swap b a).mp (above a there)
  · exact across a there b there'

/-- A set without an equal element has its place between the smaller and the greater ones. -/
theorem guides_split {go : α → Int} (guides : Guides go l) (differ : ∀ y ∈ l, go y ≠ 0) :
    ∃ A B, l = A ++ B ∧ (∀ a ∈ A, 0 < go a) ∧ ∀ b ∈ B, go b < 0 := by
  induction l with
  | nil => exact ⟨[],[],rfl,by simp,by simp⟩
  | cons x l ih =>
    obtain ⟨first,rest⟩ := List.pairwise_cons.mp guides
    by_cases more : 0 < go x
    · obtain ⟨A,B,rfl,above,below⟩ := ih rest fun y there => differ y (List.mem_cons_of_mem x there)
      exact ⟨x :: A,B,rfl,by simpa [more] using above,below⟩
    · have less : go x < 0 := by
        have := differ x List.mem_cons_self
        omega
      refine ⟨[],x :: l,rfl,by simp,?_⟩
      intro b there
      obtain rfl | there := List.mem_cons.mp there
      · exact less
      · exact first b there (Int.le_of_lt less)

/-- The sets that calls have made: in order, none too large and none with an element of another. -/
structure Kept (cmp : α → α → Int) (n : Nat) (nodes : Nat → List α) : Prop where
  ordered : ∀ head, Ordered cmp (nodes head)
  few : ∀ head, (nodes head).length ≤ n
  apart : ∀ head other, head ≠ other → ∀ z ∈ nodes head, z ∉ nodes other

theorem kept_init {n : Nat} : Kept cmp n fun _ => [] where
  ordered := fun _ => List.Pairwise.nil
  few := fun _ => Nat.zero_le n
  apart := fun _ _ _ _ member => by cases member

theorem Kept.update {n head : Nat} {nodes : Nat → List α} (kept : Kept cmp n nodes) (ordered : Ordered cmp l) (few : l.length ≤ n)
    (outside : ∀ other, other ≠ head → ∀ z ∈ l, z ∉ nodes other) : Kept cmp n (Function.update nodes head l) where
  ordered := fun other => by
    by_cases same : other = head
    · subst same
      rwa [Function.update_self]
    · rw [Function.update_of_ne same]
      exact kept.ordered other
  few := fun other => by
    by_cases same : other = head
    · subst same
      rwa [Function.update_self]
    · rw [Function.update_of_ne same]
      exact kept.few other
  apart := fun a b differ z member => by
    by_cases first : a = head
    · subst first
      rw [Function.update_self] at member
      rw [Function.update_of_ne (Ne.symm differ)]
      exact outside b (Ne.symm differ) z member
    · rw [Function.update_of_ne first] at member
      by_cases second : b = head
      · subst second
        rw [Function.update_self]
        exact fun member' => outside a first z member' member
      · rw [Function.update_of_ne second]
        exact kept.apart a b differ z member

theorem Kept.insert {n head : Nat} {nodes : Nat → List α} (order : Comparison cmp) (kept : Kept cmp n nodes)
    (elsewhere : ∀ other, other ≠ head → elm ∉ nodes other) (room : (nodes head).length < n) :
    Kept cmp n (Function.update nodes head (set_insert cmp (nodes head) elm).1) := by
  rw [set_insert]
  cases found : (nodes head).find? fun y => cmp elm y = 0 with
  | some y =>
    simp only [Function.update_eq_self]
    exact kept
  | none =>
    have differ : ∀ y ∈ nodes head, cmp elm y ≠ 0 := fun y there => by simpa using List.find?_eq_none.mp found y there
    obtain ⟨A,B,split,above,below⟩ := guides_split (ordered_guides order (kept.ordered head) elm) differ
    have ordered := kept.ordered head
    rw [split] at ordered
    have inserted := orderedInsert_between above below
    rw [← split] at inserted
    refine kept.update ?_ ?_ fun other away z member => ?_
    · simp only [inserted]
      exact ordered_insert order ordered above below
    · simp only [List.orderedInsert_length]
      exact room
    · obtain rfl | member := List.mem_cons.mp ((List.perm_orderedInsert _ elm (nodes head)).mem_iff.mp member)
      · exact elsewhere other away
      · exact kept.apart head other (Ne.symm away) z member

theorem Kept.erase [DecidableEq α] {n : Nat} {nodes : Nat → List α} (kept : Kept cmp n nodes) (head : Nat) (elm : α) :
    Kept cmp n (Function.update nodes head ((nodes head).erase elm)) := by
  refine kept.update ((kept.ordered head).sublist List.erase_sublist) (List.erase_sublist.length_le.trans (kept.few head)) ?_
  exact fun other differ z member => kept.apart head other (Ne.symm differ) z (List.mem_of_mem_erase member)

/-- Calls that are allowed keep the sets. -/
theorem Kept.meant [DecidableEq α] {n : Nat} {s : Sets α} (order : Comparison cmp) (kept : Kept cmp n s.nodes) {op : Op α}
    (allowed : Allowed n s op) : Kept cmp n (meant cmp s op).nodes := by
  have same : ∀ head, Kept cmp n (Function.update s.nodes head (s.nodes head)) := fun head => by
    rw [Function.update_eq_self]
    exact kept
  cases op with
  | insert head elm => exact kept.insert order allowed.1 allowed.2
  | remove head elm => exact kept.erase head elm
  | find head elm => exact same head
  | nfind head elm => exact same head
  | min head => exact same head
  | max head => exact same head
  | next head elm => exact same head
  | prev head elm => exact same head

/-- The next element is the first greater one. -/
theorem find_next (order : Comparison cmp) (ordered : Ordered cmp (A ++ elm :: B)) :
    ((A ++ elm :: B).find? fun y => cmp elm y < 0) = B.head? := by
  obtain ⟨-,back,across⟩ := List.pairwise_append.mp ordered
  have passed : ∀ a ∈ A, decide (cmp elm a < 0) = false := fun a member => by
    have less := across a member elm List.mem_cons_self
    have := order.swap elm a
    exact decide_eq_false (by omega)
  rw [List.find?_append,find_none passed,List.find?_cons,decide_eq_false (by rw [cmp_self order]; omega)]
  cases B with
  | nil => rfl
  | cons b B =>
    have next := (List.pairwise_cons.mp back).1 b List.mem_cons_self
    rw [List.find?_cons,decide_eq_true next]
    rfl

theorem find_prev (order : Comparison cmp) (ordered : Ordered cmp (A ++ elm :: B)) :
    ((A ++ elm :: B).reverse.find? fun y => cmp elm y > 0) = A.getLast? := by
  obtain ⟨-,back,across⟩ := List.pairwise_append.mp ordered
  have passed : ∀ b ∈ B.reverse, decide (cmp elm b > 0) = false := fun b member => by
    have less := (List.pairwise_cons.mp back).1 b (List.mem_reverse.mp member)
    exact decide_eq_false (by omega)
  rw [List.reverse_append,List.reverse_cons,List.append_assoc,List.find?_append,find_none passed,List.singleton_append,
    List.find?_cons,decide_eq_false (by rw [cmp_self order]; omega),← List.head?_reverse]
  cases at_ : A.reverse with
  | nil => rfl
  | cons a rest =>
    have member : a ∈ A := List.mem_reverse.mp (at_ ▸ List.mem_cons_self)
    have less := (order.swap elm a).mpr (across a member elm List.mem_cons_self)
    rw [List.find?_cons,decide_eq_true less]
    rfl

end Htools.OrderedSets
