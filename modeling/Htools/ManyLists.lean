import Htools.Places

/-!
# Many lists and their pointers

Each head has a list, and no node is twice in one or in two of them. What a write at
one place does to the list that the place is in, it does to all lists: the others do
not have that place. The lists after an operation are those with something in the
place of a node (`exchange`), or with a new list for one head.
-/
namespace Htools.ManyLists
open Places Function

variable {H N V : Type} {nodes : H → List N} {head head' other : H} {A B l : List N} {elm x y : N}

structure Disjoint (nodes : H → List N) : Prop where
  nodup : ∀ head, (nodes head).Nodup
  apart : ∀ head other, head ≠ other → ∀ z ∈ nodes head, z ∉ nodes other

/-- The pointers are those of the lists, as each head encodes them. -/
def Linked (enc : H → Option N → V) (read : Place H N → V) (nodes : H → List N) : Prop :=
  ∀ head, Chain (enc head) read (.first head) (nodes head) none

/-- The pointers back are those of the lists. -/
def Backed (prev : N → Place H N) (nodes : H → List N) : Prop := ∀ head, Back prev (.first head) (nodes head)

/-- Every head has the place at the end of its list. -/
def Ended (last : H → Place H N) (nodes : H → List N) : Prop := ∀ head, last head = ends (.first head) (nodes head)

def Fresh (nodes : H → List N) (elm : N) : Prop := ∀ head, elm ∉ nodes head

theorem Fresh.ne (fresh : Fresh nodes elm) (there : x ∈ nodes head) : x ≠ elm := fun same => fresh head (same ▸ there)

theorem fresh_init : Fresh (fun _ : H => []) elm := fun _ there => by cases there

theorem Fresh.update [DecidableEq H] (fresh : Fresh nodes elm) (absent : elm ∉ l) : Fresh (update nodes head l) elm := fun other there => by
  by_cases same : other = head
  · subst same
    rw [update_self] at there
    exact absent there
  · rw [update_of_ne same] at there
    exact fresh other there

section
variable [DecidableEq N]

/-- Other nodes in the place of one. -/
def exchange (nodes : H → List N) (elm : N) (new : List N) : H → List N :=
  fun head => (nodes head).flatMap fun z => if z = elm then new else [z]

/-- Without the node behind one. -/
def drop_behind (nodes : H → List N) (elm : N) : H → List N :=
  fun head => (nodes head).eraseIdx ((nodes head).idxOf elm + 1)

theorem Fresh.exchange {new : List N} (fresh : Fresh nodes elm) (absent : elm ∉ new) : Fresh (exchange nodes x new) elm := by
  intro head there
  obtain ⟨z,there,member⟩ := List.mem_flatMap.mp there
  split at member
  · exact absent member
  · rw [List.mem_singleton.mp member] at fresh
    exact fresh head there

theorem flatMap_absent {new : List N} (absent : elm ∉ l) : (l.flatMap fun z => if z = elm then new else [z]) = l := by
  induction l with
  | nil => rfl
  | cons z l ih =>
    have differ : z ≠ elm := fun same => absent (same ▸ List.mem_cons_self)
    rw [List.flatMap_cons,if_neg differ,ih fun there => absent (List.mem_cons_of_mem z there)]
    rfl

end

/-! ### What keeps the lists disjoint -/

theorem disjoint_init : Disjoint fun _ : H => ([] : List N) where
  nodup := fun _ => List.nodup_nil
  apart := fun _ _ _ _ member => by cases member

namespace Disjoint

theorem node (disjoint : Disjoint nodes) (at_ : nodes head = A ++ elm :: B) : elm ∉ A ∧ elm ∉ B := by
  have nodup := disjoint.nodup head
  rw [at_] at nodup
  obtain ⟨-,back,apart⟩ := List.nodup_append.mp nodup
  exact ⟨fun there => apart elm there elm List.mem_cons_self rfl,(List.nodup_cons.mp back).1⟩

theorem elsewhere (disjoint : Disjoint nodes) (there : elm ∈ nodes head) (differ : other ≠ head) : elm ∉ nodes other :=
  disjoint.apart head other (Ne.symm differ) elm there

theorem only (disjoint : Disjoint nodes) (there : elm ∈ nodes head) (there' : elm ∈ nodes other) : other = head :=
  by_contra fun differ => disjoint.elsewhere there differ there'

variable [DecidableEq H]

theorem update (disjoint : Disjoint nodes) (nodup : l.Nodup) (outside : ∀ other, other ≠ head → ∀ z ∈ l, z ∉ nodes other) :
    Disjoint (Function.update nodes head l) where
  nodup := fun other => by
    by_cases same : other = head
    · subst same
      rwa [update_self]
    · rw [update_of_ne same]
      exact disjoint.nodup other
  apart := fun a b differ z member => by
    by_cases first : a = head
    · subst first
      rw [update_self] at member
      rw [update_of_ne (Ne.symm differ)]
      exact outside b (Ne.symm differ) z member
    · rw [update_of_ne first] at member
      by_cases second : b = head
      · subst second
        rw [update_self]
        exact fun member' => outside a first z member' member
      · rw [update_of_ne second]
        exact disjoint.apart a b differ z member

theorem sublist (disjoint : Disjoint nodes) (part : l.Sublist (nodes head)) : Disjoint (Function.update nodes head l) :=
  disjoint.update ((disjoint.nodup head).sublist part) fun _ differ _ member => disjoint.elsewhere (part.subset member) differ

theorem take (disjoint : Disjoint nodes) (at_ : nodes head = A ++ elm :: B) : Disjoint (Function.update nodes head (A ++ B)) := by
  refine disjoint.sublist ?_
  rw [at_]
  exact List.Sublist.append_left (List.sublist_cons_self elm B) A

/-- What has been taken out is in no list. -/
theorem fresh_take (disjoint : Disjoint nodes) (at_ : nodes head = A ++ elm :: B) : Fresh (Function.update nodes head (A ++ B)) elm := by
  intro other there
  by_cases same : other = head
  · subst same
    rw [update_self] at there
    exact (List.mem_append.mp there).elim (disjoint.node at_).1 (disjoint.node at_).2
  · rw [update_of_ne same] at there
    exact disjoint.elsewhere (at_ ▸ List.mem_append_right A List.mem_cons_self) same there

theorem put (disjoint : Disjoint nodes) (at_ : nodes head = A ++ B) (fresh : Fresh nodes elm) :
    Disjoint (Function.update nodes head (A ++ elm :: B)) := by
  have new := fresh head
  have nodup := disjoint.nodup head
  rw [at_] at new nodup
  refine disjoint.update (List.nodup_middle.mpr (List.nodup_cons.mpr ⟨new,nodup⟩)) fun other differ z member => ?_
  obtain rfl | member := List.mem_cons.mp (List.perm_middle.mem_iff.mp member)
  · exact fresh other
  · exact disjoint.elsewhere (at_ ▸ member) differ

theorem replace (disjoint : Disjoint nodes) (at_ : nodes head = A ++ elm :: B) (fresh : Fresh nodes x) :
    Disjoint (Function.update nodes head (A ++ x :: B)) := by
  have new : x ∉ A ++ B := fun there =>
    fresh head (at_ ▸ (List.Sublist.append_left (List.sublist_cons_self elm B) A).subset there)
  have put := (disjoint.take at_).put (update_self _ _ _) (fresh.update new)
  rwa [update_idem] at put

/-- One list behind another, which leaves none. -/
theorem concat (disjoint : Disjoint nodes) (differ : head ≠ head') :
    Disjoint (Function.update (Function.update nodes head (nodes head ++ nodes head')) head' []) := by
  have cleared : Disjoint (Function.update nodes head' []) := disjoint.sublist (List.nil_sublist _)
  rw [update_comm differ]
  refine cleared.update ?_ fun other away z member => ?_
  · refine List.nodup_append.mpr ⟨disjoint.nodup head,disjoint.nodup head',?_⟩
    rintro z there _ there' rfl
    exact disjoint.apart head head' differ z there there'
  · by_cases same : other = head'
    · subst same
      simp
    · rw [update_of_ne same]
      obtain there | there := List.mem_append.mp member
      · exact disjoint.elsewhere there away
      · exact disjoint.elsewhere there same

theorem exchange [DecidableEq N] (disjoint : Disjoint nodes) (at_ : nodes head = A ++ elm :: B) (new : List N) :
    exchange nodes elm new = Function.update nodes head (A ++ (new ++ B)) := by
  funext other
  by_cases same : other = head
  · subst same
    obtain ⟨before,behind⟩ := disjoint.node at_
    rw [update_self,ManyLists.exchange,at_,List.flatMap_append,flatMap_absent before,List.flatMap_cons,flatMap_absent behind,
      if_pos rfl]
  · rw [update_of_ne same]
    exact flatMap_absent (disjoint.elsewhere (at_ ▸ List.mem_append_right A List.mem_cons_self) same)

theorem drop_behind [DecidableEq N] (disjoint : Disjoint nodes) (at_ : nodes head = A ++ elm :: x :: B) :
    drop_behind nodes elm = Function.update nodes head (A ++ elm :: B) := by
  funext other
  by_cases same : other = head
  · subst same
    obtain ⟨before,-⟩ := disjoint.node at_
    rw [update_self,ManyLists.drop_behind,at_,List.idxOf_append_of_notMem before,List.idxOf_cons_self,Nat.add_zero,
      List.eraseIdx_append_of_length_le (Nat.le_succ _)]
    simp
  · have absent := disjoint.elsewhere (at_ ▸ List.mem_append_right A List.mem_cons_self) same
    rw [update_of_ne same,ManyLists.drop_behind,List.idxOf_eq_length absent]
    exact List.eraseIdx_of_length_le (Nat.le_succ _)

end Disjoint

/-! ### What keeps the pointers -/

section
variable {enc enc' : H → Option N → V} {read read' : Place H N → V} {prev prev' : N → Place H N} {last : H → Place H N}

theorem linked_init (none_ : ∀ head, read (.first head) = enc head none) : Linked enc read fun _ => [] := none_

theorem Linked.first (linked : Linked enc read nodes) (head : H) : read (.first head) = enc head (nodes head).head? := by
  rw [chain_head (linked head),Option.or_none]

theorem Linked.next (linked : Linked enc read nodes) (at_ : nodes head = A ++ elm :: B) : read (.next elm) = enc head B.head? := by
  have chain := linked head
  rw [at_] at chain
  obtain ⟨-,-,back⟩ := chain_append.mp chain
  rw [chain_head back,Option.or_none]

/-- The place behind some nodes of a list is not in another one. -/
theorem outside (disjoint : Disjoint nodes) (at_ : nodes head = A ++ B) (differ : other ≠ head) :
    .first other ≠ ends (.first head) A ∧ ∀ z ∈ nodes other, .next z ≠ ends (.first head) A := by
  refine ⟨Ne.symm (ends_ne_head differ A),fun z there => Ne.symm (ends_fresh (by simp) fun member => ?_)⟩
  exact disjoint.elsewhere (at_ ▸ List.mem_append_left B member) differ there

variable [DecidableEq H]

/-- A new list for a head leaves the others alone. -/
theorem Linked.update (linked : Linked enc read nodes) (same : ∀ other, other ≠ head → enc' other = enc other)
    (firsts : ∀ other, other ≠ head → read' (.first other) = read (.first other))
    (nexts : ∀ other, other ≠ head → ∀ z ∈ nodes other, read' (.next z) = read (.next z))
    (chain : Chain (enc' head) read' (.first head) l none) : Linked enc' read' (Function.update nodes head l) := by
  intro other
  by_cases here : other = head
  · subst here
    rwa [update_self]
  · rw [update_of_ne here,same other here]
    exact (chain_congr (firsts other here) (nexts other here)).mpr (linked other)

theorem Backed.update (backed : Backed prev nodes) (prevs : ∀ other, other ≠ head → ∀ z ∈ nodes other, prev' z = prev z)
    (back : Back prev' (.first head) l) : Backed prev' (Function.update nodes head l) := by
  intro other
  by_cases here : other = head
  · subst here
    rwa [update_self]
  · rw [update_of_ne here]
    exact (back_congr (prevs other here)).mpr (backed other)

theorem Ended.update (ended : Ended last nodes) : Ended (Function.update last head (ends (.first head) l)) (Function.update nodes head l) := by
  intro other
  by_cases here : other = head
  · subst here
    rw [update_self,update_self]
  · rw [update_of_ne here,update_of_ne here]
    exact ended other

theorem Ended.clear (ended : Ended last nodes) : Ended (Function.update last head (.first head)) (Function.update nodes head []) := by
  have cleared : Ended _ (Function.update nodes head []) := ended.update
  exact cleared

/-- The place at the end is another one where there is nothing behind the nodes. -/
theorem ends_exchange (old new : List N) (at_ : nodes head = A ++ (old ++ B)) (other : H) :
    ends (.first other) (Function.update nodes head (A ++ (new ++ B)) other) =
      if other = head ∧ B.head? = none then ends (ends (.first head) A) new else ends (.first other) (nodes other) := by
  by_cases same : other = head
  · subst same
    rw [update_self,at_]
    cases B with
    | nil => rw [List.append_nil,ends_append,if_pos ⟨rfl,List.head?_nil⟩]
    | cons b B =>
      rw [if_neg (by simp),ends_append,ends_append,ends_append,ends_append]
      rfl
  · rw [update_of_ne same,if_neg fun both => same both.1]

theorem Ended.exchange (ended : Ended last nodes) (old new : List N) (at_ : nodes head = A ++ (old ++ B)) {last' : H → Place H N}
    (lasts : last' = if B.head? = none then Function.update last head (ends (ends (.first head) A) new) else last) :
    Ended last' (Function.update nodes head (A ++ (new ++ B))) := by
  intro other
  rw [ends_exchange old new at_,lasts,← ended other]
  by_cases none_ : B.head? = none
  · by_cases same : other = head
    · rw [if_pos none_,if_pos ⟨same,none_⟩,same,update_self]
    · rw [if_pos none_,if_neg fun both => same both.1,update_of_ne same]
  · rw [if_neg none_,if_neg fun both => none_ both.2]

theorem Ended.concat (ended : Ended last nodes) (some_ : nodes head' ≠ []) :
    Ended (Function.update (Function.update last head (last head')) head' (.first head'))
      (Function.update (Function.update nodes head (nodes head ++ nodes head')) head' []) := by
  have same : last head' = ends (.first head) (nodes head ++ nodes head') := by
    rw [ended head',ends_append]
    cases at_ : nodes head' with
    | nil => exact absurd at_ some_
    | cons x l => rfl
  have whole : Ended (Function.update last head (last head')) (Function.update nodes head (nodes head ++ nodes head')) := by
    rw [same]
    exact ended.update
  exact whole.clear

/-- Nothing is put behind a list. -/
theorem concat_nil (none_ : nodes head' = []) :
    Function.update (Function.update nodes head (nodes head ++ nodes head')) head' [] = nodes := by
  rw [none_,List.append_nil,update_eq_self,← none_,update_eq_self]

/-- A node or none in the place of another one or none. -/
theorem Backed.exchange (backed : Backed prev nodes) (old new : List N) (disjoint : Disjoint nodes) (at_ : nodes head = A ++ (old ++ B))
    (fresh : ∀ z ∈ new, Fresh nodes z) (first : Back prev' (ends (.first head) A) new)
    (behind : ∀ y, B.head? = some y → prev' y = ends (ends (.first head) A) new)
    (rest : ∀ z, z ∉ new → B.head? ≠ some z → prev' z = prev z) : Backed prev' (Function.update nodes head (A ++ (new ++ B))) := by
  have back := backed head
  rw [at_] at back
  obtain ⟨front,later⟩ := back_append.mp back
  obtain ⟨-,later⟩ := back_append.mp later
  have nodup := disjoint.nodup head
  rw [at_] at nodup
  obtain ⟨-,nodupB,apart⟩ := List.nodup_append.mp nodup
  have there : ∀ z, B.head? = some z → z ∈ nodes head := fun z is =>
    at_ ▸ List.mem_append_right A (List.mem_append_right old (List.mem_of_head? is))
  have unseen : ∀ other, ∀ z ∈ nodes other, z ∉ new := fun other z there member => fresh z member other there
  refine backed.update (fun other away z member => ?_) ?_
  · exact rest z (unseen other z member) fun is => disjoint.elsewhere (there z is) away member
  refine back_append.mpr ⟨(back_congr fun z member => ?_).mpr front,back_append.mpr ⟨first,back_from later behind fun z member => ?_⟩⟩
  · refine rest z (unseen head z (at_ ▸ List.mem_append_left _ member)) fun is => ?_
    exact apart z member z (List.mem_append_right old (List.mem_of_head? is)) rfl
  · have inside : z ∈ B := List.mem_of_mem_tail member
    refine rest z (unseen head z (at_ ▸ List.mem_append_right A (List.mem_append_right old inside))) fun is => ?_
    cases B with
    | nil => cases is
    | cons y B =>
      cases is
      exact (List.nodup_cons.mp (List.nodup_append.mp nodupB).2.1).1 member

theorem Backed.clear (backed : Backed prev nodes) : Backed prev (Function.update nodes head []) :=
  backed.update (fun _ _ _ _ => rfl) trivial

theorem Backed.concat (backed : Backed prev nodes) (disjoint : Disjoint nodes) (differ : head ≠ head')
    (behind : ∀ y, (nodes head').head? = some y → prev' y = ends (.first head) (nodes head))
    (rest : ∀ z, (nodes head').head? ≠ some z → prev' z = prev z) :
    Backed prev' (Function.update (Function.update nodes head (nodes head ++ nodes head')) head' []) := by
  rw [update_comm differ]
  have cleared : Backed prev (Function.update nodes head' []) := backed.clear
  refine Backed.update cleared (fun other away z there => rest z fun is => ?_) (back_append.mpr ⟨?_,?_⟩)
  · by_cases same : other = head'
    · subst same
      rw [update_self] at there
      cases there
    · rw [update_of_ne same] at there
      exact disjoint.elsewhere (List.mem_of_head? is) same there
  · refine (back_congr fun z there => rest z fun is => ?_).mpr (backed head)
    exact disjoint.elsewhere (List.mem_of_head? is) differ there
  · refine back_from (backed head') behind fun z there => rest z fun is => ?_
    have nodup := disjoint.nodup head'
    cases at_ : nodes head' with
    | nil =>
      rw [at_] at there
      cases there
    | cons y l =>
      rw [at_] at there is nodup
      cases is
      exact (List.nodup_cons.mp nodup).1 there

variable [DecidableEq N]

theorem Linked.put (linked : Linked enc read nodes) (disjoint : Disjoint nodes) (at_ : nodes head = A ++ B) (fresh : Fresh nodes elm) :
    Linked enc (Function.update (Function.update read (.next elm) (read (ends (.first head) A))) (ends (.first head) A)
      (enc head (some elm))) (Function.update nodes head (A ++ elm :: B)) := by
  have chain := linked head
  have new := fresh head
  have nodup := disjoint.nodup head
  rw [at_] at chain new nodup
  refine linked.update (fun _ _ => rfl) (fun other differ => ?_) (fun other differ z there => ?_)
    (chain_insert chain nodup new (by simp))
  · rw [update_of_ne (outside disjoint at_ differ).1,update_of_ne (by simp)]
  · have apart : z ≠ elm := fun same => fresh other (same ▸ there)
    rw [update_of_ne ((outside disjoint at_ differ).2 z there),update_of_ne (by simpa using apart)]

theorem Linked.take (linked : Linked enc read nodes) (disjoint : Disjoint nodes) (at_ : nodes head = A ++ elm :: B) :
    Linked enc (Function.update read (ends (.first head) A) (read (.next elm))) (Function.update nodes head (A ++ B)) := by
  have chain := linked head
  have nodup := disjoint.nodup head
  rw [at_] at chain nodup
  refine linked.update (fun _ _ => rfl) (fun other differ => ?_) (fun other differ z there => ?_) (chain_remove chain nodup)
  · rw [update_of_ne (outside disjoint at_ differ).1]
  · rw [update_of_ne ((outside disjoint at_ differ).2 z there)]

theorem Linked.replace (linked : Linked enc read nodes) (disjoint : Disjoint nodes) (at_ : nodes head = A ++ elm :: B)
    (fresh : Fresh nodes x) :
    Linked enc (Function.update (Function.update read (.next x) (read (.next elm))) (ends (.first head) A) (enc head (some x)))
      (Function.update nodes head (A ++ x :: B)) := by
  have chain := linked head
  have new := fresh head
  have nodup := disjoint.nodup head
  rw [at_] at chain new nodup
  refine linked.update (fun _ _ => rfl) (fun other differ => ?_) (fun other differ z there => ?_)
    (chain_replace chain nodup new (by simp))
  · rw [update_of_ne (outside disjoint at_ differ).1,update_of_ne (by simp)]
  · have apart : z ≠ x := fun same => fresh other (same ▸ there)
    rw [update_of_ne ((outside disjoint at_ differ).2 z there),update_of_ne (by simpa using apart)]

theorem Linked.clear (linked : Linked enc read nodes) (same : ∀ other, other ≠ head → enc' other = enc other) :
    Linked enc' (Function.update read (.first head) (enc' head none)) (Function.update nodes head []) := by
  refine linked.update same (fun other differ => ?_) (fun other differ z there => ?_) (update_self _ _ _)
  · rw [update_of_ne (by simpa using differ)]
  · rw [update_of_ne (by simp)]

/-- The pointer at the end of a list takes over another one. -/
theorem Linked.concat (linked : Linked enc read nodes) (disjoint : Disjoint nodes) (differ : head ≠ head') (same : enc head' = enc head) :
    Linked enc (Function.update (Function.update read (ends (.first head) (nodes head)) (read (.first head'))) (.first head')
      (enc head' none)) (Function.update (Function.update nodes head (nodes head ++ nodes head')) head' []) := by
  have away : ∀ other, other ≠ head → .first other ≠ ends (.first head) (nodes head) ∧
      ∀ z ∈ nodes other, .next z ≠ ends (.first head) (nodes head) :=
    fun other => outside disjoint (List.append_nil _).symm
  have second := linked head'
  rw [same] at second
  have whole := chain_concat (linked head) second (disjoint.nodup head) (away head' (Ne.symm differ)).2
  refine Linked.clear ?_ fun _ _ => rfl
  refine linked.update (fun _ _ => rfl) (fun other differ => ?_) (fun other differ z there => ?_) whole
  · rw [update_of_ne (away other differ).1]
  · rw [update_of_ne ((away other differ).2 z there)]

end

/-! ### Lists with pointers back -/

/-- The memory has the lists, in both directions. -/
structure DoublyLinked (read : Place H N → Option N) (prev : N → Place H N) (nodes : H → List N) : Prop where
  disjoint : Disjoint nodes
  linked : Linked (fun _ v => v) read nodes
  backed : Backed prev nodes

namespace DoublyLinked
variable {read read' : Place H N → Option N} {prev prev' : N → Place H N}

theorem place (stored : DoublyLinked read prev nodes) (at_ : nodes head = A ++ elm :: B) : prev elm = ends (.first head) A := by
  have back := stored.backed head
  rw [at_] at back
  exact (back_append.mp back).2.1

theorem points (stored : DoublyLinked read prev nodes) (at_ : nodes head = A ++ elm :: B) : read (ends (.first head) A) = some elm := by
  have chain := stored.linked head
  rw [at_] at chain
  exact (chain_append.mp chain).2.1

variable [DecidableEq H] [DecidableEq N]

/-- A new node at any place. -/
theorem put (stored : DoublyLinked read prev nodes) (at_ : nodes head = A ++ B) (fresh : Fresh nodes elm)
    (pointer : read' = update (update read (.next elm) (read (ends (.first head) A))) (ends (.first head) A) (some elm))
    (back : ∀ z, prev' z = if z = elm then ends (.first head) A else if B.head? = some z then .next elm else prev z) :
    DoublyLinked read' prev' (update nodes head (A ++ elm :: B)) where
  disjoint := stored.disjoint.put at_ fresh
  linked := by
    rw [pointer]
    exact stored.linked.put stored.disjoint at_ fresh
  backed := by
    have fresh' : ∀ z ∈ [elm], Fresh nodes z := by simpa using fresh
    refine stored.backed.exchange [] [elm] stored.disjoint at_ fresh' ⟨?_,trivial⟩ (fun y first => ?_) fun z other rest => ?_
    · rw [back,if_pos rfl]
    · have differ : y ≠ elm := fresh.ne (at_ ▸ List.mem_append_right A (List.mem_of_head? first))
      rw [back,if_neg differ,if_pos first]
      rfl
    · rw [back,if_neg (by simpa using other),if_neg rest]

theorem take (stored : DoublyLinked read prev nodes) (at_ : nodes head = A ++ elm :: B)
    (pointer : read' = update read (ends (.first head) A) (read (.next elm)))
    (back : ∀ z, prev' z = if B.head? = some z then ends (.first head) A else prev z) :
    DoublyLinked read' prev' (update nodes head (A ++ B)) where
  disjoint := stored.disjoint.take at_
  linked := by
    rw [pointer]
    exact stored.linked.take stored.disjoint at_
  backed := by
    refine stored.backed.exchange [elm] [] stored.disjoint at_ (by simp) trivial (fun y first => ?_) fun z _ rest => ?_
    · rw [back,if_pos first]
      rfl
    · rw [back,if_neg rest]

theorem replace (stored : DoublyLinked read prev nodes) (at_ : nodes head = A ++ elm :: B) (fresh : Fresh nodes x)
    (pointer : read' = update (update read (.next x) (read (.next elm))) (ends (.first head) A) (some x))
    (back : ∀ z, prev' z = if z = x then ends (.first head) A else if B.head? = some z then .next x else prev z) :
    DoublyLinked read' prev' (update nodes head (A ++ x :: B)) where
  disjoint := stored.disjoint.replace at_ fresh
  linked := by
    rw [pointer]
    exact stored.linked.replace stored.disjoint at_ fresh
  backed := by
    have fresh' : ∀ z ∈ [x], Fresh nodes z := by simpa using fresh
    refine stored.backed.exchange [elm] [x] stored.disjoint at_ fresh' ⟨?_,trivial⟩ (fun y first => ?_) fun z other rest => ?_
    · rw [back,if_pos rfl]
    · have differ : y ≠ x := fresh.ne (at_ ▸ List.mem_append_right A (List.mem_cons_of_mem elm (List.mem_of_head? first)))
      rw [back,if_neg differ,if_pos first]
      rfl
    · rw [back,if_neg (by simpa using other),if_neg rest]

theorem clear (stored : DoublyLinked read prev nodes) (head : H) :
    DoublyLinked (update read (.first head) none) prev (update nodes head []) :=
  ⟨stored.disjoint.sublist (List.nil_sublist _),stored.linked.clear fun _ _ => rfl,stored.backed.clear⟩

theorem concat (stored : DoublyLinked read prev nodes) (differ : head ≠ head')
    (pointer : read' = update (update read (ends (.first head) (nodes head)) (read (.first head'))) (.first head') none)
    (back : ∀ z, prev' z = if (nodes head').head? = some z then ends (.first head) (nodes head) else prev z) :
    DoublyLinked read' prev' (update (update nodes head (nodes head ++ nodes head')) head' []) where
  disjoint := stored.disjoint.concat differ
  linked := by
    rw [pointer]
    exact stored.linked.concat stored.disjoint differ rfl
  backed := by
    refine stored.backed.concat stored.disjoint differ (fun y first => ?_) fun z rest => ?_
    · rw [back,if_pos first]
    · rw [back,if_neg rest]

end DoublyLinked

end Htools.ManyLists
