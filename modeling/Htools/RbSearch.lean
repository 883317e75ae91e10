import Htools.RbRepair

/-!
The searches of `hutils/include/hutils/tree.h` in a red-black tree in memory, and its
walks. A walk to the right sees the nodes in order and one to the left sees them in
the opposite order, so a step in either direction is one fact about the list of nodes
ahead (`rb_step_ok`).
-/
namespace Htools.RbTree
open Zippers RedBlack

variable {N : Type}

section
variable {m : Memory N} {head fuel : Nat} {s : Side} {x : Color × N} {K : List (Frame (Color × N))} {f : Frame (Color × N)}
  {t l r : Colored N} {parent : Option N}

/-! ### Searches -/

theorem read_left (stands : Stands m parent (.node x l r)) : m.child .left x.2 = ptr l := stands.1.near

theorem read_right (stands : Stands m parent (.node x l r)) : m.child .right x.2 = ptr r := stands.1.far

theorem find_from_ok {cmp : N → N → Int} {elm : N} (stands : Stands m parent t) (enough : t.height ≤ fuel) :
    find_from cmp m elm fuel (ptr t) = .ok (ptr (descend (fun x => cmp elm x.2) K t).2) := by
  induction t generalizing parent fuel K with
  | nil => cases fuel <;> rfl
  | node x l r ihl ihr =>
    simp only [BinaryTree.height] at enough
    obtain ⟨fuel,rfl⟩ : ∃ k, fuel = k + 1 := ⟨fuel - 1,by omega⟩
    simp only [ptr_node,find_from,descend,read_left stands,read_right stands]
    split_ifs
    · exact ihl stands.2.1 (by omega)
    · exact ihr stands.2.2 (by omega)
    · rfl

/-- The first of the nodes ahead that the search does not go past. -/
theorem nfind_from_ok {cmp : N → N → Int} {elm : N} {res : Option N} (stands : Stands m parent t) (enough : t.height ≤ fuel)
    (guides : Guides (cmp elm) (keys t)) :
    nfind_from cmp m elm fuel (ptr t) res = .ok (((keys t).find? fun y => cmp elm y ≤ 0).or res) := by
  induction t generalizing parent fuel res with
  | nil => cases fuel <;> rfl
  | node x l r ihl ihr =>
    simp only [BinaryTree.height] at enough
    obtain ⟨fuel,rfl⟩ : ∃ k, fuel = k + 1 := ⟨fuel - 1,by omega⟩
    rw [keys_node] at guides ⊢
    obtain ⟨guidesL,guidesR,across⟩ := List.pairwise_append.mp guides
    rw [List.pairwise_cons] at guidesR
    simp only [ptr_node,nfind_from,read_left stands,read_right stands]
    rw [List.find?_append,List.find?_cons]
    have past : ¬ cmp elm x.2 < 0 → (keys l).find? (fun y => cmp elm y ≤ 0) = none := fun not => by
      rw [List.find?_eq_none]
      intro a member le
      exact not (across a member x.2 List.mem_cons_self (of_decide_eq_true le))
    split_ifs with less more
    · have le : decide (cmp elm x.2 ≤ 0) = true := decide_eq_true (by omega)
      rw [ihl stands.2.1 (by omega) guidesL,le]
      cases (keys l).find? fun y => cmp elm y ≤ 0 <;> rfl
    · have gt : decide (cmp elm x.2 ≤ 0) = false := decide_eq_false (by omega)
      rw [ihr stands.2.2 (by omega) guidesR.2,past less,gt]
      rfl
    · have le : decide (cmp elm x.2 ≤ 0) = true := decide_eq_true (by omega)
      rw [past less,le]
      rfl

end

/-! ### Directions -/

/-- The nodes in the order in which a walk to a side comes to them. -/
def onward (s : Side) (l : List N) : List N :=
  match s with
  | .left => l.reverse
  | .right => l

/-- The nodes that a walk to a side comes to outside of a place. -/
def ahead (s : Side) : List (Frame (Color × N)) → List N
  | [] => []
  | f :: K => if f.side = s then ahead s K else f.label.2 :: onward s (keys f.sibling) ++ ahead s K

section
variable {m : Memory N} {head fuel : Nat} {s : Side} {x : Color × N} {K : List (Frame (Color × N))} {f : Frame (Color × N)}
  {t l r : Colored N} {parent : Option N}

theorem onward_bear (s : Side) (x : Color × N) (l r : Colored N) :
    onward s (keys (bear s x l r)) = onward s (keys r) ++ x.2 :: onward s (keys l) := by
  cases s <;> simp [onward,bear]

theorem onward_nodup {l : List N} (nodup : l.Nodup) : (onward s l).Nodup := by
  cases s with
  | left => exact List.nodup_reverse.mpr nodup
  | right => exact nodup

theorem mem_onward {l : List N} {z : N} : z ∈ onward s l ↔ z ∈ l := by
  cases s <;> simp [onward]

theorem length_onward {l : List N} : (onward s l).length = l.length := by
  cases s <;> simp [onward]

/-- What is ahead of a place comes after what is in it. -/
theorem onward_plug (s : Side) (K : List (Frame (Color × N))) (t : Colored N) :
    ∃ passed, onward s (keys (plug K t)) = passed ++ onward s (keys t) ++ ahead s K := by
  induction K generalizing t with
  | nil => exact ⟨[],by simp [plug,ahead]⟩
  | cons f K ih =>
    obtain ⟨passed,here⟩ := ih (f.fill t)
    obtain ⟨fs,x,sibling⟩ := f
    by_cases same : fs = s
    · subst same
      refine ⟨passed ++ onward fs (keys sibling) ++ [x.2],?_⟩
      rw [plug,here,Frame.fill,onward_bear,ahead,if_pos rfl]
      simp
    · obtain rfl := Side.eq_other_of_ne same
      refine ⟨passed,?_⟩
      rw [plug,here,Frame.fill,bear_other,onward_bear,ahead,if_neg same]
      simp

/-- A tree as a node that bears its subtrees. -/
theorem exists_node (s : Side) {z : N} (here : ptr t = some z) : ∃ c near far, t = bear s (c,z) near far := by
  cases t with
  | nil => cases here
  | node x l r =>
    cases here
    exact ⟨x.1,_,_,(bear_sides s x l r).symm⟩

/-- The last node to a side is the first one of a walk the other way. -/
theorem rb_last_ok (stands : Stands m parent t) (enough : t.height ≤ fuel) {z : N} (here : ptr t = some z) :
    ∃ y, rb_last s.other fuel m z = .ok y ∧ (onward s (keys t)).head? = some y := by
  induction fuel generalizing t parent z with
  | zero =>
    obtain ⟨c,near,far,rfl⟩ := exists_node s here
    rw [height_bear] at enough
    omega
  | succ fuel ih =>
    obtain ⟨c,near,far,rfl⟩ := exists_node s here
    obtain ⟨linked,-,below⟩ := stands_bear.mp stands
    rw [height_bear] at enough
    have read : m.child s.other z = ptr far := linked.far
    rw [rb_last.eq_def,onward_bear]
    cases at_ : ptr far with
    | none =>
      rw [ptr,Option.map_eq_none_iff,rootOf_eq_none_iff] at at_
      subst at_
      refine ⟨z,?_,?_⟩
      · simp [read]
      · simp [onward]
        cases s <;> rfl
    | some w =>
      obtain ⟨y,run,first⟩ := ih below (by omega) at_
      refine ⟨y,?_,?_⟩
      · simp only [read,at_]
        exact run
      · rw [List.head?_append,first]
        rfl

theorem climb_ok [DecidableEq N] (holds : Holds m head K t) {z : N} (here : ptr t = some z) (enough : K.length ≤ fuel) :
    ∃ y, climb s fuel m z = .ok y ∧ m.parent y = (ahead s K).head? := by
  induction K generalizing t z fuel with
  | nil =>
    have parent := parent_ptr holds.stands here
    refine ⟨z,?_,parent⟩
    rw [climb.eq_def]
    simp only [parent,up_nil]
  | cons f K ih =>
    have parent := parent_ptr holds.stands here
    have linked := holds.around.1
    rw [climb.eq_def]
    simp only [parent,up_cons]
    obtain ⟨fs,x,sibling⟩ := f
    by_cases same : fs = s
    · subst same
      obtain ⟨fuel,rfl⟩ : ∃ k, fuel = k + 1 := ⟨fuel - 1,by simp only [List.length_cons] at enough; omega⟩
      have on : m.child fs x.2 = some z := linked.near.trans here
      simp only [if_pos on]
      rw [ahead,if_pos rfl]
      exact ih (holds_cons_iff.mp holds) (ptr_fill _ _) (by simpa using enough)
    · obtain rfl := Side.eq_other_of_ne same
      have off : m.child s x.2 ≠ some z := by
        have far := linked.far
        rw [Side.other_other] at far
        rw [far,← here]
        exact (ptr_ne_sibling holds (.inl (by simp [here]))).symm
      simp only [if_neg off]
      refine ⟨z,rfl,?_⟩
      rw [parent,ahead,if_neg same]
      rfl

/-- `RB_NEXT` and `RB_PREV` go to the first node ahead. -/
theorem rb_step_ok [DecidableEq N] {c : Color} {z : N} {near far : Colored N} (holds : Holds m head K (bear s (c,z) near far))
    (enough : (plug K (bear s (c,z) near far)).height ≤ fuel) :
    rb_step s fuel m z = .ok (onward s (keys near) ++ ahead s K).head? := by
  have deep := length_le_height K (bear s (c,z) near far)
  rw [height_bear] at deep
  have read : m.child s z = ptr near := holds.linked.near
  rw [rb_step,read]
  cases at_ : ptr near with
  | some w =>
    obtain ⟨y,run,first⟩ := rb_last_ok (s := s) holds.near.stands (show near.height ≤ fuel by omega) at_
    simp only [run,List.head?_append,first]
    rfl
  | none =>
    rw [ptr,Option.map_eq_none_iff,rootOf_eq_none_iff] at at_
    subst at_
    have parent : m.parent z = up K := holds.linked.parent
    obtain ⟨y,run,next⟩ := climb_ok (s := s) holds (ptr_bear _ _ _ _) (show K.length ≤ fuel by omega)
    have empty : onward s (keys (.nil : Colored N)) = [] := by cases s <;> rfl
    rw [empty,List.nil_append]
    cases K with
    | nil =>
      simp only [parent,up_nil]
      rw [show climb s fuel m z = .ok y from run]
      exact congrArg Except.ok next
    | cons f K =>
      simp only [parent,up_cons]
      split_ifs with other
      · obtain ⟨fs,x,sibling⟩ := f
        have side : fs ≠ s := by
          rintro rfl
          have farAt := holds.around.1.far
          refine ptr_ne_sibling holds (.inl (by simp)) ?_
          rw [← farAt,ptr_bear]
          exact other.symm
        rw [ahead,if_neg side]
        rfl
      · rw [show climb s fuel m z = .ok y from run]
        exact congrArg Except.ok next

/-! ### Walks -/

theorem minmax_from_ok {val : Int} {p : Option N} (side : s = if val < 0 then .right else .left) (stands : Stands m parent t)
    (enough : t.height ≤ fuel) : minmax_from m val fuel (ptr t) p = .ok ((onward s (keys t)).head?.or p) := by
  induction fuel generalizing t parent p with
  | zero =>
    cases t with
    | nil => cases s <;> rfl
    | node x l r => simp at enough
  | succ fuel ih =>
    cases t with
    | nil => cases s <;> rfl
    | node x l r =>
      simp only [BinaryTree.height] at enough
      simp only [ptr_node,minmax_from,read_left stands,read_right stands]
      split_ifs at side ⊢
      · subst side
        rw [ih stands.2.1 (by omega)]
        simp only [onward,keys_node,List.head?_append]
        cases (keys l).head? <;> rfl
      · subst side
        rw [ih stands.2.2 (by omega)]
        simp only [onward,keys_node,List.reverse_append,List.head?_append,List.reverse_cons]
        cases (keys r).reverse.head? <;> rfl

theorem rb_minmax_ok {val : Int} (side : s = if val < 0 then .right else .left) (holds : Holds m head [] t)
    (enough : t.height ≤ fuel) : rb_minmax fuel head m val = .ok (onward s (keys t)).head? := by
  have root : m.rbh_root head = ptr t := holds.around
  rw [rb_minmax,root,minmax_from_ok side holds.stands enough,Option.or_none]

theorem exists_place_of_key (s : Side) {z : N} (member : z ∈ keys t) :
    ∃ K c near far, t = plug K (bear s (c,z) near far) := by
  obtain ⟨⟨c,_⟩,there,rfl⟩ := List.mem_map.mp member
  obtain ⟨K,l,r,rfl⟩ := exists_place there
  exact ⟨K,c,_,_,congrArg (plug K) (bear_sides s _ l r).symm⟩

section
variable [DecidableEq N]

/-- A step from a node goes to the next one of the walk. -/
theorem rb_step_split {z : N} {passed next : List N} (holds : Holds m head [] t) (enough : t.height ≤ fuel)
    (split : onward s (keys t) = passed ++ z :: next) : rb_step s fuel m z = .ok next.head? := by
  have member : z ∈ keys t := mem_onward.mp (split ▸ List.mem_append_right passed List.mem_cons_self)
  obtain ⟨K,c,near,far,rfl⟩ := exists_place_of_key s member
  obtain ⟨before_,here⟩ := onward_plug s K (bear s (c,z) near far)
  have nodup := onward_nodup (s := s) holds.nodup
  rw [onward_bear] at here
  have same : passed ++ z :: next = (before_ ++ onward s (keys far)) ++ z :: (onward s (keys near) ++ ahead s K) := by
    rw [← split,here]
    simp
  have nodup' : (passed ++ z :: next).Nodup := split ▸ nodup
  obtain ⟨-,first,apart⟩ := List.nodup_append.mp nodup'
  have outside : z ∉ passed := fun there => apart z there z List.mem_cons_self rfl
  have once : z ∉ next := (List.nodup_cons.mp first).1
  obtain ⟨-,-,rfl⟩ := (List.append_cons_inj_of_notMem outside once).mp same
  exact rb_step_ok (holds_plug_iff.mp holds) enough

theorem foreach_from_ok (holds : Holds m head [] t) (enough : t.height ≤ fuel) {rounds : Nat} {passed rest : List N}
    (split : onward s (keys t) = passed ++ rest) (many : rest.length ≤ rounds) :
    foreach_from s fuel m rounds rest.head? = .ok rest := by
  induction rest generalizing passed rounds with
  | nil => cases rounds <;> rfl
  | cons z rest ih =>
    obtain ⟨rounds,rfl⟩ : ∃ k, rounds = k + 1 := ⟨rounds - 1,by simp only [List.length_cons] at many; omega⟩
    have step := rb_step_split holds enough split
    have later := @ih rounds (passed ++ [z]) (by rw [split]; simp) (by simpa using many)
    simp only [List.head?_cons,foreach_from,step,ok_bind,later]
    rfl

end

end

end Htools.RbTree
