import Mathlib.Data.List.Basic
import Mathlib.Order.Basic
import Mathlib.Order.Defs.LinearOrder
import Mathlib.Data.Int.Order.Basic

/-!
The merge sort of `hutils/include/hutils/tailqsort.h`, on the nodes of a tail
queue in their order. `tailq_sort_stable` says all that its callers need: the
result is sorted, and nodes that compare equal keep any order they had.
-/
namespace Htools.TailqSort

section
variable {α : Type} (cmp : α → α → Int)

/-- The merge loop with the two loops that empty the lists; each round moves one of the `rounds` nodes. -/
def tailq_merge : (rounds : Nat) → List α → List α → List α
  | rounds + 1,p_l :: left,p_r :: right =>
    if cmp p_l p_r > 0 then p_r :: tailq_merge rounds (p_l :: left) right
    else p_l :: tailq_merge rounds left (p_r :: right)
  | _,left,right => left ++ right

/-- The sort, with the depth of its recursion bounded by `depth`. -/
def tailq_sort_to : (depth : Nat) → List α → (a_size : Nat) → List α
  | 0,a_list,_ => a_list
  | depth + 1,a_list,a_size =>
    if 1 ≥ a_size then a_list
    else
      let middle := a_size / 2
      let left := tailq_sort_to depth (a_list.take middle) middle
      let right := tailq_sort_to depth (a_list.drop middle) (a_size - middle)
      tailq_merge cmp a_size left right

def tailq_sort (a_list : List α) (a_size : Nat) : List α := tailq_sort_to cmp a_size a_list a_size

end

/-- The comparisons that the sort is meant for: total preorders. -/
structure Comparison {α : Type} (cmp : α → α → Int) : Prop where
  trans : ∀ a b c, cmp a b ≤ 0 → cmp b c ≤ 0 → cmp a c ≤ 0
  swap : ∀ a b, 0 < cmp a b ↔ cmp b a < 0

section
variable {α : Type} {cmp : α → α → Int}

theorem tailq_merge_cons (rounds : Nat) (p_l p_r : α) (left right : List α) :
    tailq_merge cmp (rounds + 1) (p_l :: left) (p_r :: right) =
      if cmp p_l p_r > 0 then p_r :: tailq_merge cmp rounds (p_l :: left) right
      else p_l :: tailq_merge cmp rounds left (p_r :: right) := rfl

theorem tailq_merge_rest {rounds : Nat} {left right : List α} (stopped : rounds = 0 ∨ left = [] ∨ right = []) :
    tailq_merge cmp rounds left right = left ++ right := by
  cases rounds with
  | zero => rfl
  | succ rounds =>
    rcases stopped with impossible | rfl | rfl
    · cases impossible
    · rfl
    · cases left <;> rfl

theorem tailq_sort_to_succ (depth : Nat) (a_list : List α) (a_size : Nat) : tailq_sort_to cmp (depth + 1) a_list a_size =
    if 1 ≥ a_size then a_list
    else tailq_merge cmp a_size (tailq_sort_to cmp depth (a_list.take (a_size / 2)) (a_size / 2))
      (tailq_sort_to cmp depth (a_list.drop (a_size / 2)) (a_size - a_size / 2)) := rfl

/-- A round takes the first node of the right list or of the left one, while there are both. -/
@[elab_as_elim]
theorem merge_induction (cmp : α → α → Int) {motive : Nat → List α → List α → Prop}
    (right_first : ∀ rounds p_l left p_r right,cmp p_l p_r > 0 → motive rounds (p_l :: left) right →
      motive (rounds + 1) (p_l :: left) (p_r :: right))
    (left_first : ∀ rounds p_l left p_r right,¬cmp p_l p_r > 0 → motive rounds left (p_r :: right) →
      motive (rounds + 1) (p_l :: left) (p_r :: right))
    (rest : ∀ rounds left right,rounds = 0 ∨ left = [] ∨ right = [] → motive rounds left right)
    (rounds : Nat) (left right : List α) : motive rounds left right := by
  induction rounds generalizing left right with
  | zero => exact rest 0 left right (.inl rfl)
  | succ rounds ih =>
    cases left with
    | nil => exact rest _ [] right (.inr (.inl rfl))
    | cons p_l left =>
      cases right with
      | nil => exact rest _ _ [] (.inr (.inr rfl))
      | cons p_r right =>
        by_cases greater : cmp p_l p_r > 0
        · exact right_first rounds p_l left p_r right greater (ih _ _)
        · exact left_first rounds p_l left p_r right greater (ih _ _)

theorem tailq_merge_perm (rounds : Nat) (left right : List α) :
    (tailq_merge cmp rounds left right).Perm (left ++ right) := by
  induction rounds, left, right using merge_induction cmp with
  | right_first rounds p_l left p_r right greater ih =>
    rw [tailq_merge_cons,if_pos greater]
    exact (List.Perm.cons p_r ih).trans List.perm_middle.symm
  | left_first rounds p_l left p_r right smaller ih =>
    rw [tailq_merge_cons,if_neg smaller]
    exact List.Perm.cons p_l ih
  | rest rounds left right stopped => rw [tailq_merge_rest stopped]

theorem tailq_sort_to_perm (depth : Nat) (a_list : List α) (a_size : Nat) :
    (tailq_sort_to cmp depth a_list a_size).Perm a_list := by
  induction depth generalizing a_list a_size with
  | zero => exact List.Perm.refl _
  | succ depth ih =>
    rw [tailq_sort_to_succ]
    split
    · exact List.Perm.refl _
    · have halves := (ih (a_list.take (a_size / 2)) (a_size / 2)).append
        (ih (a_list.drop (a_size / 2)) (a_size - a_size / 2))
      rw [List.take_append_drop] at halves
      exact (tailq_merge_perm a_size _ _).trans halves

/-- More depth than nodes does not matter. -/
theorem tailq_sort_to_depth (depth depth' : Nat) (a_list : List α) (a_size : Nat) (enough : a_size ≤ depth)
    (enough' : a_size ≤ depth') : tailq_sort_to cmp depth a_list a_size = tailq_sort_to cmp depth' a_list a_size := by
  induction depth generalizing depth' a_list a_size with
  | zero =>
    obtain rfl := Nat.le_zero.mp enough
    cases depth' with
    | zero => rfl
    | succ depth' => rfl
  | succ depth ih =>
    cases depth' with
    | zero =>
      obtain rfl := Nat.le_zero.mp enough'
      rfl
    | succ depth' =>
      rw [tailq_sort_to_succ,tailq_sort_to_succ]
      split
      · rfl
      · rw [ih depth' _ _ (by omega) (by omega),ih depth' _ _ (by omega) (by omega)]

/-- Nodes that compare as their images do are sorted as these are. -/
theorem tailq_merge_map {β : Type} {cmp' : β → β → Int} (f : α → β) (same : ∀ a b, cmp' (f a) (f b) = cmp a b)
    (rounds : Nat) (left right : List α) :
    tailq_merge cmp' rounds (left.map f) (right.map f) = (tailq_merge cmp rounds left right).map f := by
  induction rounds, left, right using merge_induction cmp with
  | right_first rounds p_l left p_r right greater ih =>
    rw [tailq_merge_cons,if_pos greater,List.map_cons,List.map_cons,tailq_merge_cons,if_pos (by rwa [same]),
      List.map_cons,← ih,List.map_cons]
  | left_first rounds p_l left p_r right smaller ih =>
    rw [tailq_merge_cons,if_neg smaller,List.map_cons,List.map_cons,tailq_merge_cons,if_neg (by rwa [same]),
      List.map_cons,← ih,List.map_cons]
  | rest rounds left right stopped =>
    rw [tailq_merge_rest stopped,tailq_merge_rest (by simpa using stopped),List.map_append]

theorem tailq_sort_to_map {β : Type} {cmp' : β → β → Int} (f : α → β) (same : ∀ a b, cmp' (f a) (f b) = cmp a b)
    (depth : Nat) (a_list : List α) (a_size : Nat) :
    tailq_sort_to cmp' depth (a_list.map f) a_size = (tailq_sort_to cmp depth a_list a_size).map f := by
  induction depth generalizing a_list a_size with
  | zero => rfl
  | succ depth ih =>
    rw [tailq_sort_to_succ,tailq_sort_to_succ]
    split
    · rfl
    · rw [← List.map_take,← List.map_drop,ih,ih,tailq_merge_map f same]

theorem tailq_sort_perm (a_list : List α) (a_size : Nat) : (tailq_sort cmp a_list a_size).Perm a_list :=
  tailq_sort_to_perm a_size a_list a_size

/-- Sorted by `cmp`, and by `R` where `cmp` does not decide. -/
def Stably (cmp : α → α → Int) (R : α → α → Prop) (a b : α) : Prop := cmp a b < 0 ∨ cmp a b ≤ 0 ∧ R a b

theorem Stably.le {R : α → α → Prop} {a b : α} (stably : Stably cmp R a b) : cmp a b ≤ 0 := by
  rcases stably with less | ⟨le,_⟩
  · exact le_of_lt less
  · exact le

theorem Comparison.lt_of_lt_of_le (comparison : Comparison cmp) {a b c : α} (less : cmp a b < 0)
    (le : cmp b c ≤ 0) : cmp a c < 0 := by
  rw [← comparison.swap] at less ⊢
  apply lt_of_not_ge
  intro back
  exact absurd (comparison.trans b c a le back) (not_le_of_gt less)

/-- The merge of two sorted lists, where the nodes of the left one were before those of the right one. -/
theorem tailq_merge_stable (comparison : Comparison cmp) {R : α → α → Prop} (rounds : Nat) (left right : List α)
    (enough : left.length + right.length ≤ rounds) (left_sorted : left.Pairwise (Stably cmp R))
    (right_sorted : right.Pairwise (Stably cmp R)) (before : ∀ a ∈ left,∀ b ∈ right,R a b) :
    (tailq_merge cmp rounds left right).Pairwise (Stably cmp R) := by
  induction rounds, left, right using merge_induction cmp with
  | right_first rounds p_l left p_r right greater ih =>
    have head := List.pairwise_cons.mp right_sorted
    rw [tailq_merge_cons,if_pos greater,List.pairwise_cons]
    constructor
    · intro b member
      rcases List.mem_append.mp ((tailq_merge_perm rounds _ _).mem_iff.mp member) with member | member
      · have less := (comparison.swap p_l p_r).mp greater
        rcases List.mem_cons.mp member with rfl | member
        · exact Or.inl less
        · exact Or.inl (comparison.lt_of_lt_of_le less ((List.pairwise_cons.mp left_sorted).1 b member).le)
      · exact head.1 b member
    · apply ih
      · simp only [List.length_cons] at enough ⊢
        omega
      · exact left_sorted
      · exact head.2
      · intro a first b last
        exact before a first b (List.mem_cons_of_mem p_r last)
  | left_first rounds p_l left p_r right smaller ih =>
    have head := List.pairwise_cons.mp left_sorted
    rw [tailq_merge_cons,if_neg smaller,List.pairwise_cons]
    constructor
    · intro b member
      rcases List.mem_append.mp ((tailq_merge_perm rounds _ _).mem_iff.mp member) with member | member
      · exact head.1 b member
      · refine Or.inr ⟨?_,before p_l List.mem_cons_self b member⟩
        rcases List.mem_cons.mp member with rfl | member
        · exact not_lt.mp smaller
        · exact comparison.trans _ _ _ (not_lt.mp smaller) ((List.pairwise_cons.mp right_sorted).1 b member).le
    · apply ih
      · simp only [List.length_cons] at enough ⊢
        omega
      · exact head.2
      · exact right_sorted
      · intro a first b last
        exact before a (List.mem_cons_of_mem p_l first) b last
  | rest rounds left right stopped =>
    have alone : left = [] ∨ right = [] := by
      rcases stopped with rfl | alone
      · exact .inl (List.length_eq_zero_iff.mp (by omega))
      · exact alone
    rw [tailq_merge_rest stopped]
    rcases alone with rfl | rfl
    · exact right_sorted
    · rwa [List.append_nil]

theorem tailq_sort_to_stable (comparison : Comparison cmp) {R : α → α → Prop} (depth : Nat) (a_list : List α)
    (a_size : Nat) (size : a_list.length = a_size) (enough : a_size ≤ depth) (before : a_list.Pairwise R) :
    (tailq_sort_to cmp depth a_list a_size).Pairwise (Stably cmp R) := by
  have short (l : List α) (at_most : l.length ≤ 1) : l.Pairwise (Stably cmp R) := by
    match l with
    | [] => exact List.Pairwise.nil
    | [a] => exact List.pairwise_singleton _ a
    | _ :: _ :: _ => simp at at_most
  induction depth generalizing a_list a_size with
  | zero => exact short a_list (by omega)
  | succ depth ih =>
    rw [tailq_sort_to_succ]
    by_cases small : 1 ≥ a_size
    · rw [if_pos small]
      exact short _ (by omega)
    rw [if_neg small]
    have left_size : (a_list.take (a_size / 2)).length = a_size / 2 := by
      rw [List.length_take]
      omega
    have right_size : (a_list.drop (a_size / 2)).length = a_size - a_size / 2 := by
      rw [List.length_drop,size]
    have left_perm := @tailq_sort_to_perm _ cmp depth (a_list.take (a_size / 2)) (a_size / 2)
    have right_perm := @tailq_sort_to_perm _ cmp depth (a_list.drop (a_size / 2)) (a_size - a_size / 2)
    have split := before
    rw [← List.take_append_drop (a_size / 2) a_list,List.pairwise_append] at split
    apply tailq_merge_stable comparison
    · rw [left_perm.length_eq,right_perm.length_eq,left_size,right_size]
      omega
    · exact ih _ _ left_size (by omega) split.1
    · exact ih _ _ right_size (by omega) split.2.1
    · intro a first b last
      exact split.2.2 a (left_perm.mem_iff.mp first) b (right_perm.mem_iff.mp last)

/-- The sort of a whole list: sorted, and nodes that compare equal keep the order they had. -/
theorem tailq_sort_stable (comparison : Comparison cmp) {R : α → α → Prop} (a_list : List α)
    (before : a_list.Pairwise R) : (tailq_sort cmp a_list a_list.length).Pairwise (Stably cmp R) :=
  tailq_sort_to_stable comparison _ a_list _ rfl (Nat.le_refl _) before

end

end Htools.TailqSort
