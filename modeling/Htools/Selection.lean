import Mathlib.Data.List.Basic
import Mathlib.Data.List.Chain
import Mathlib.Data.List.Dedup
import Mathlib.Data.List.Induction
import Mathlib.Logic.Relation
import Mathlib.Order.Basic

/-!
Selecting one element for each key of a list. `keep` keeps the greatest, and
the last of several greatest ones, where it stood; on the whole element and the
trivial order it is Mathlib's `List.dedup`. Selecting from a part of the list first
changes nothing (`keep_append_left`, `keep_append_right`). `last_of_runs` is the
way to select that needs one pass over a sorted list; it finds one element for
each key exactly when the elements of each key are neighbours (`runs_iff`), and
then it agrees with `keep` (`filter_runs`).
-/
namespace Htools.Selection

section
variable {α κ : Type} [DecidableEq κ] (key : α → κ) (le : α → α → Prop) [DecidableRel le]

def keep : List α → List α
  | [] => []
  | a :: l => if ∃ b ∈ l,key b = key a ∧ le a b then keep l else a :: (keep l).filter fun b => key b ≠ key a

theorem keep_cons (a : α) (l : List α) : keep key le (a :: l) =
    if ∃ b ∈ l,key b = key a ∧ le a b then keep key le l else a :: (keep key le l).filter fun b => key b ≠ key a := rfl

theorem keep_sublist (l : List α) : (keep key le l).Sublist l := by
  induction l with
  | nil => exact List.Sublist.refl _
  | cons a l ih =>
    rw [keep_cons]
    split
    · exact ih.cons a
    · exact ((List.filter_sublist).trans ih).cons_cons a

theorem filter_keep (k : κ) (l : List α) :
    (keep key le l).filter (fun b => key b ≠ k) = keep key le (l.filter fun b => key b ≠ k) := by
  induction l with
  | nil => rfl
  | cons a l ih =>
    by_cases same : key a = k
    · rw [List.filter_cons_of_neg (by simpa using same),← ih,keep_cons]
      split
      · rfl
      · rw [List.filter_cons_of_neg (by simpa using same),List.filter_filter,same]
        simp
    · have later : (∃ b ∈ l.filter fun b => key b ≠ k,key b = key a ∧ le a b) ↔
          ∃ b ∈ l,key b = key a ∧ le a b := by
        constructor
        · rintro ⟨b,member,key_same,greater⟩
          exact ⟨b,(List.mem_filter.mp member).1,key_same,greater⟩
        · rintro ⟨b,member,key_same,greater⟩
          exact ⟨b,List.mem_filter.mpr ⟨member,by simpa [key_same] using same⟩,key_same,greater⟩
      rw [List.filter_cons_of_pos (by simpa using same),keep_cons,keep_cons,if_congr later rfl rfl]
      split
      · exact ih
      · rw [List.filter_cons_of_pos (by simpa using same),← ih,List.filter_filter,List.filter_filter]
        simp only [Bool.and_comm]

/-- Elements that a later part outdoes are not kept, and can be left out before. -/
theorem keep_filter_append (k : κ) (l later : List α)
    (outdone : ∀ a ∈ l,key a = k → ∃ b ∈ later,key b = k ∧ le a b) :
    keep key le (l.filter (fun b => key b ≠ k) ++ later) = keep key le (l ++ later) := by
  induction l with
  | nil => rfl
  | cons a l ih =>
    have tail := ih fun b member => outdone b (List.mem_cons_of_mem a member)
    by_cases same : key a = k
    · obtain ⟨b,member,key_same,greater⟩ := outdone a List.mem_cons_self same
      rw [List.filter_cons_of_neg (by simpa using same),tail,List.cons_append,keep_cons,if_pos]
      exact ⟨b,List.mem_append_right l member,key_same.trans same.symm,greater⟩
    · have stays : (∃ b ∈ l.filter (fun b => key b ≠ k) ++ later,key b = key a ∧ le a b) ↔
          ∃ b ∈ l ++ later,key b = key a ∧ le a b := by
        constructor
        · rintro ⟨b,member,key_same,greater⟩
          rcases List.mem_append.mp member with member | member
          · exact ⟨b,List.mem_append_left _ (List.mem_filter.mp member).1,key_same,greater⟩
          · exact ⟨b,List.mem_append_right _ member,key_same,greater⟩
        · rintro ⟨b,member,key_same,greater⟩
          rcases List.mem_append.mp member with member | member
          · refine ⟨b,List.mem_append_left _ (List.mem_filter.mpr ⟨member,?_⟩),key_same,greater⟩
            simpa [key_same] using same
          · exact ⟨b,List.mem_append_right _ member,key_same,greater⟩
      rw [List.filter_cons_of_pos (by simpa using same),List.cons_append,List.cons_append,keep_cons,keep_cons,
        if_congr stays rfl rfl,tail]

/-- Two parts without a common key do not see each other. -/
theorem keep_append_disjoint (l later : List α) (disjoint : ∀ a ∈ l,∀ b ∈ later,key b ≠ key a) :
    keep key le (l ++ later) = keep key le l ++ keep key le later := by
  induction l with
  | nil => rfl
  | cons a l ih =>
    have tail := ih fun b member => disjoint b (List.mem_cons_of_mem a member)
    have apart := disjoint a List.mem_cons_self
    have in_list : (∃ b ∈ l ++ later,key b = key a ∧ le a b) ↔ ∃ b ∈ l,key b = key a ∧ le a b := by
      constructor
      · rintro ⟨b,member,same,greater⟩
        rcases List.mem_append.mp member with member | member
        · exact ⟨b,member,same,greater⟩
        · exact absurd same (apart b member)
      · rintro ⟨b,member,same,greater⟩
        exact ⟨b,List.mem_append_left later member,same,greater⟩
    rw [List.cons_append,keep_cons,keep_cons,if_congr in_list rfl rfl,tail]
    split
    · rfl
    · rw [List.filter_append,List.cons_append]
      congr 2
      apply List.filter_eq_self.mpr
      intro b member
      simpa using apart b ((keep_sublist key le later).mem member)

theorem keep_map {β : Type} (f : β → α) (l : List β) :
    keep key le (l.map f) = (keep (fun b => key (f b)) (fun a b => le (f a) (f b)) l).map f := by
  induction l with
  | nil => rfl
  | cons a l ih =>
    have later : (∃ b ∈ l.map f,key b = key (f a) ∧ le (f a) b) ↔ ∃ b ∈ l,key (f b) = key (f a) ∧ le (f a) (f b) := by
      simp
    rw [List.map_cons,keep_cons,keep_cons,if_congr later rfl rfl]
    split
    · exact ih
    · rw [List.map_cons,ih,List.filter_map]
      rfl

end

/-- On the whole element and the trivial order, the last one of each is kept. -/
theorem keep_dedup {α : Type} [DecidableEq α] (l : List α) : keep id (fun _ _ => True) l = l.dedup := by
  induction l with
  | nil => rfl
  | cons a l ih =>
    by_cases member : a ∈ l
    · rw [List.dedup_cons_of_mem member,keep_cons,if_pos ⟨a,member,rfl,trivial⟩,ih]
    · have alone : ¬∃ b ∈ l,id b = id a ∧ True := by
        rintro ⟨b,b_member,same,_⟩
        exact member (Eq.mp (congrArg (· ∈ l) same) b_member)
      rw [List.dedup_cons_of_notMem member,keep_cons,if_neg alone,ih,List.filter_eq_self.mpr]
      intro b b_member
      have differs : b ≠ a := by
        rintro rfl
        exact member (List.mem_dedup.mp b_member)
      simpa using differs

/-- What the selections by an order ask of it. -/
structure Ranking {α : Type} (le : α → α → Prop) : Prop where
  trans : ∀ a b c,le a b → le b c → le a c
  total : ∀ a b,le a b ∨ le b a

section
variable {α κ : Type} [DecidableEq κ] (key : α → κ) {le : α → α → Prop} [DecidableRel le]

/-- What is kept for a key is as great as all that the list has for it. -/
theorem keep_greatest (order : Ranking le) (l : List α) {a : α} (member : a ∈ l) :
    ∃ b ∈ keep key le l,key b = key a ∧ le a b := by
  induction l generalizing a with
  | nil => exact absurd member List.not_mem_nil
  | cons first l ih =>
    rw [keep_cons]
    split
    case isTrue later =>
      rcases List.mem_cons.mp member with rfl | member
      · obtain ⟨b,b_member,same,greater⟩ := later
        obtain ⟨c,kept,c_same,c_greater⟩ := ih b_member
        exact ⟨c,kept,c_same.trans same,order.trans _ _ _ greater c_greater⟩
      · exact ih member
    case isFalse alone =>
      rcases List.mem_cons.mp member with rfl | member
      · exact ⟨a,List.mem_cons_self,rfl,or_self_iff.mp (order.total a a)⟩
      by_cases same : key a = key first
      · refine ⟨first,List.mem_cons_self,same.symm,?_⟩
        rcases order.total a first with greater | smaller
        · exact greater
        · exact (alone ⟨a,member,same,smaller⟩).elim
      · obtain ⟨b,kept,b_same,greater⟩ := ih member
        refine ⟨b,List.mem_cons_of_mem first (List.mem_filter.mpr ⟨kept,?_⟩),b_same,greater⟩
        simpa [b_same] using same

theorem keep_append_left (order : Ranking le) (l later : List α) :
    keep key le (keep key le l ++ later) = keep key le (l ++ later) := by
  induction l with
  | nil => rfl
  | cons a l ih =>
    by_cases in_list : ∃ b ∈ l,key b = key a ∧ le a b
    · have in_both : ∃ b ∈ l ++ later,key b = key a ∧ le a b := by
        obtain ⟨b,member,same,greater⟩ := in_list
        exact ⟨b,List.mem_append_left later member,same,greater⟩
      rw [keep_cons,if_pos in_list,List.cons_append,keep_cons,if_pos in_both,ih]
    rw [keep_cons,if_neg in_list,List.cons_append,List.cons_append]
    have smaller (b : α) (member : b ∈ keep key le l) (same : key b = key a) : le b a := by
      rcases order.total b a with smaller | greater
      · exact smaller
      · exact (in_list ⟨b,(keep_sublist key le l).mem member,same,greater⟩).elim
    by_cases outdone : ∃ b ∈ later,key b = key a ∧ le a b
    · obtain ⟨b,b_member,b_same,greater⟩ := outdone
      have covered := keep_filter_append key le (key a) (keep key le l) later fun c member same =>
        ⟨b,b_member,b_same,order.trans _ _ _ (smaller c member same) greater⟩
      rw [keep_cons,if_pos ⟨b,List.mem_append_right _ b_member,b_same,greater⟩,covered,ih,keep_cons,
        if_pos ⟨b,List.mem_append_right _ b_member,b_same,greater⟩]
    · have alone : ¬∃ b ∈ l ++ later,key b = key a ∧ le a b := by
        rintro ⟨b,member,same,greater⟩
        rcases List.mem_append.mp member with member | member
        · exact in_list ⟨b,member,same,greater⟩
        · exact outdone ⟨b,member,same,greater⟩
      have alone_kept : ¬∃ b ∈ (keep key le l).filter (fun b => key b ≠ key a) ++ later,key b = key a ∧ le a b := by
        rintro ⟨b,member,same,greater⟩
        rcases List.mem_append.mp member with member | member
        · exact alone ⟨b,List.mem_append_left _ ((keep_sublist key le l).mem (List.mem_filter.mp member).1),same,greater⟩
        · exact outdone ⟨b,member,same,greater⟩
      have once : ((keep key le l).filter (fun b => key b ≠ key a) ++ later).filter (fun b => key b ≠ key a) =
          (keep key le l ++ later).filter fun b => key b ≠ key a := by
        rw [List.filter_append,List.filter_append,List.filter_filter]
        simp
      rw [keep_cons,if_neg alone_kept,keep_cons,if_neg alone,← ih,filter_keep key le (key a) (_ ++ later),
        filter_keep key le (key a) (_ ++ later),once]

theorem keep_keep (order : Ranking le) (l : List α) : keep key le (keep key le l) = keep key le l := by
  have rest := keep_append_left key order l []
  rwa [List.append_nil,List.append_nil] at rest

theorem keep_append_right (order : Ranking le) (l later : List α) :
    keep key le (l ++ keep key le later) = keep key le (l ++ later) := by
  induction l with
  | nil => exact keep_keep key order later
  | cons a l ih =>
    have greater : (∃ b ∈ l ++ keep key le later,key b = key a ∧ le a b) ↔ ∃ b ∈ l ++ later,key b = key a ∧ le a b := by
      constructor
      · rintro ⟨b,member,same,greater⟩
        rcases List.mem_append.mp member with member | member
        · exact ⟨b,List.mem_append_left _ member,same,greater⟩
        · exact ⟨b,List.mem_append_right _ ((keep_sublist key le later).mem member),same,greater⟩
      · rintro ⟨b,member,same,greater⟩
        rcases List.mem_append.mp member with member | member
        · exact ⟨b,List.mem_append_left _ member,same,greater⟩
        · obtain ⟨c,kept,c_same,c_greater⟩ := keep_greatest key order later member
          exact ⟨c,List.mem_append_right _ kept,c_same.trans same,order.trans _ _ _ greater c_greater⟩
    rw [List.cons_append,List.cons_append,keep_cons,keep_cons,if_congr greater rfl rfl,ih]

end

/-! One pass over a sorted list. -/

section
variable {α κ : Type} [DecidableEq κ] (key : α → κ)

/-- The last element of each run of neighbours with one key. -/
def last_of_runs : List α → List α
  | a :: b :: l => if key a = key b then last_of_runs (b :: l) else a :: last_of_runs (b :: l)
  | l => l

theorem last_of_runs_single (a : α) : last_of_runs key [a] = [a] := rfl

theorem last_of_runs_cons (a b : α) (l : List α) : last_of_runs key (a :: b :: l) =
    if key a = key b then last_of_runs key (b :: l) else a :: last_of_runs key (b :: l) := rfl

theorem last_of_runs_same {a b : α} (l : List α) (same : key a = key b) :
    last_of_runs key (a :: b :: l) = last_of_runs key (b :: l) := by
  rw [last_of_runs_cons,if_pos same]

theorem last_of_runs_differ {a b : α} (l : List α) (differs : key a ≠ key b) :
    last_of_runs key (a :: b :: l) = a :: last_of_runs key (b :: l) := by
  rw [last_of_runs_cons,if_neg differs]

/-- An element has the key of the next one, and is left out, or is the last one of its run. -/
@[elab_as_elim]
theorem runs_induction {motive : List α → Prop} (nil : motive []) (single : ∀ a,motive [a])
    (same : ∀ a b l,key a = key b → motive (b :: l) → motive (a :: b :: l))
    (differ : ∀ a b l,key a ≠ key b → motive (b :: l) → motive (a :: b :: l)) (l : List α) : motive l := by
  induction l with
  | nil => exact nil
  | cons a l ih =>
    cases l with
    | nil => exact single a
    | cons b l =>
      by_cases is : key a = key b
      · exact same a b l is ih
      · exact differ a b l is ih

/-- Between two elements with one key, there are only elements with that key. -/
def Neighbours (l : List α) : Prop := ∀ a b c,[a,b,c].Sublist l → key a = key c → key b = key a

omit [DecidableEq κ] in
theorem Neighbours.tail {a : α} {l : List α} (neighbours : Neighbours key (a :: l)) : Neighbours key l :=
  fun b c d within => neighbours b c d (within.cons a)

omit [DecidableEq κ] in
theorem Neighbours.sublist {l all : List α} (neighbours : Neighbours key all) (sub : l.Sublist all) :
    Neighbours key l :=
  fun a b c within => neighbours a b c (within.trans sub)

theorem last_of_runs_sublist (l : List α) : (last_of_runs key l).Sublist l := by
  induction l using runs_induction key with
  | nil => exact List.Sublist.refl _
  | single a => exact List.Sublist.refl _
  | same a b l same ih =>
    rw [last_of_runs_same key l same]
    exact ih.cons a
  | differ a b l differs ih =>
    rw [last_of_runs_differ key l differs]
    exact ih.cons_cons a

theorem last_of_runs_map {β : Type} (f : β → α) (l : List β) :
    last_of_runs key (l.map f) = (last_of_runs (fun b => key (f b)) l).map f := by
  induction l using runs_induction fun b => key (f b) with
  | nil => rfl
  | single _ => rfl
  | same a b l same ih =>
    rw [last_of_runs_same _ l same,← ih,List.map_cons,List.map_cons,last_of_runs_same key _ same]
  | differ a b l differs ih =>
    rw [last_of_runs_differ _ l differs,List.map_cons,List.map_cons,List.map_cons,last_of_runs_differ key _ differs,
      ← List.map_cons,ih]

/-- Each key has a last element. -/
theorem last_of_runs_key (l : List α) {a : α} (member : a ∈ l) : ∃ b ∈ last_of_runs key l,key b = key a := by
  induction l using runs_induction key generalizing a with
  | nil => cases member
  | single b => exact ⟨a,member,rfl⟩
  | same first b l same ih =>
    rw [last_of_runs_same key l same]
    rcases List.mem_cons.mp member with rfl | member
    · obtain ⟨c,last,c_same⟩ := ih List.mem_cons_self
      exact ⟨c,last,c_same.trans same.symm⟩
    · exact ih member
  | differ first b l differs ih =>
    rw [last_of_runs_differ key l differs]
    rcases List.mem_cons.mp member with rfl | member
    · exact ⟨a,List.mem_cons_self,rfl⟩
    · obtain ⟨c,last,c_same⟩ := ih member
      exact ⟨c,List.mem_cons_of_mem first last,c_same⟩

/-- There is one element for each key where, and only where, equal keys are neighbours. -/
theorem runs_iff (l : List α) :
    (last_of_runs key l).Pairwise (fun a b => key a ≠ key b) ↔ Neighbours key l := by
  have few (l : List α) (short : l.length ≤ 1) : Neighbours key l := by
    intro a b c within
    have three := within.length_le
    simp at three
    omega
  induction l using runs_induction key with
  | nil => exact iff_of_true List.Pairwise.nil (few [] (Nat.zero_le 1))
  | single a => exact iff_of_true (List.pairwise_singleton _ a) (few [a] (Nat.le_refl 1))
  | same a b l same ih =>
    rw [last_of_runs_same key l same]
    apply ih.trans
    constructor
    · intro tail x y z within ends
      cases within with
      | cons _ within => exact tail x y z within ends
      | cons_cons _ within =>
        -- The first element counts as the second one, unless the second one is in between.
        cases within with
        | cons _ within =>
          rw [same] at ends ⊢
          exact tail b y z (within.cons_cons b) ends
        | cons_cons _ within => exact same.symm
    · exact Neighbours.tail key
  | differ a b l differs ih =>
    rw [last_of_runs_differ key l differs,List.pairwise_cons]
    apply (and_congr_right' ih).trans
    constructor
    · rintro ⟨first,tail⟩ x y z within ends
      cases within with
      | cons _ within => exact tail x y z within ends
      | cons_cons _ within =>
        have z_member : z ∈ b :: l := within.mem (by simp)
        obtain ⟨c,last,c_same⟩ := last_of_runs_key key (b :: l) z_member
        exact absurd (ends.trans c_same.symm) (first c last)
    · intro neighbours
      refine ⟨?_,neighbours.tail⟩
      intro c last same
      rcases List.mem_cons.mp ((last_of_runs_sublist key (b :: l)).mem last) with rfl | member
      · exact differs same
      · have within : [a,b,c].Sublist (a :: b :: l) :=
          ((List.singleton_sublist.mpr member).cons_cons b).cons_cons a
        exact differs (neighbours a b c within same).symm

/-- An element is the last one of its run where the next one has another key. -/
theorem mem_last_of_runs {front back : List α} {a : α} (nodup : (front ++ a :: back).Nodup) :
    a ∈ last_of_runs key (front ++ a :: back) ↔ ∀ b ∈ back.head?,key a ≠ key b := by
  induction front with
  | nil =>
    obtain ⟨new,_⟩ := List.nodup_cons.mp nodup
    cases back with
    | nil => simp [last_of_runs_single]
    | cons b back =>
      have later : a ∉ last_of_runs key (b :: back) := fun last => new ((last_of_runs_sublist key _).mem last)
      rw [List.nil_append,last_of_runs_cons]
      by_cases same : key a = key b
      · simp [same,later]
      · simp [same]
  | cons first front ih =>
    obtain ⟨new,nodup⟩ := List.nodup_cons.mp nodup
    have other : a ≠ first := fun same => new (same ▸ List.mem_append_right front List.mem_cons_self)
    cases rest : front ++ a :: back with
    | nil => exact absurd rest (List.append_ne_nil_of_right_ne_nil front (List.cons_ne_nil a back))
    | cons second l =>
      rw [← ih nodup,List.cons_append,rest,last_of_runs_cons]
      split
      · rfl
      · rw [List.mem_cons,or_iff_right other]

/-- Of a key whose elements stand together, the last one is kept. -/
theorem last_of_runs_filter (k : κ) (l : List α) (whole : ∀ a b c,[a,b,c].Sublist l → key a = k → key c = k → key b = k) :
    (last_of_runs key l).filter (fun a => key a = k) = (l.filter fun a => key a = k).getLast?.toList := by
  induction l using runs_induction key with
  | nil => rfl
  | single a =>
    by_cases here : key a = k
    · simp [last_of_runs_single,here]
    · simp [last_of_runs_single,here]
  | same a b l same ih =>
    rw [last_of_runs_same key l same,ih fun x y z within => whole x y z (within.cons a)]
    by_cases here : key a = k
    · have next : key b = k := same ▸ here
      simp [here,next]
    · simp [here]
  | differ a b l differs ih =>
    have tail := ih fun x y z within => whole x y z (within.cons a)
    rw [last_of_runs_differ key l differs]
    by_cases here : key a = k
    · have none_later : (b :: l).filter (fun c => key c = k) = [] := by
        rw [List.filter_eq_nil_iff]
        intro c member is
        rw [decide_eq_true_iff] at is
        rcases List.mem_cons.mp member with rfl | member
        · exact differs (here.trans is.symm)
        · have within : [a,b,c].Sublist (a :: b :: l) := ((List.singleton_sublist.mpr member).cons_cons b).cons_cons a
          exact differs (here.trans (whole a b c within here is).symm)
      rw [none_later] at tail
      rw [List.filter_cons,List.filter_cons,tail,none_later,if_pos (decide_eq_true here),if_pos (decide_eq_true here)]
      rfl
    · rw [List.filter_cons,List.filter_cons,if_neg (by simpa using here),if_neg (by simpa using here)]
      exact tail

/-- Where each element has another key than the next one, all are kept. -/
theorem last_of_runs_all (l : List α) (differ : l.IsChain fun a b => key a ≠ key b) : last_of_runs key l = l := by
  induction l using runs_induction key with
  | nil => rfl
  | single _ => rfl
  | same a b l same ih => exact absurd same (List.isChain_cons_cons.mp differ).1
  | differ a b l differs ih => rw [last_of_runs_differ key l differs,ih (List.isChain_cons_cons.mp differ).2]

theorem Neighbours.pairwise {l : List α} (neighbours : Neighbours key l)
    (differ : l.IsChain fun a b => key a ≠ key b) : l.Pairwise fun a b => key a ≠ key b := by
  have runs := (runs_iff key l).mpr neighbours
  rwa [last_of_runs_all key l differ] at runs

/-- The first one that is kept has the key that the list starts with. -/
theorem last_of_runs_head (a : α) (l : List α) : ∀ b ∈ (last_of_runs key (a :: l)).head?,key b = key a := by
  induction l generalizing a with
  | nil => simp [last_of_runs_single]
  | cons second l ih =>
    intro b first
    rw [last_of_runs_cons] at first
    split at first
    case isTrue same => exact (ih second b first).trans same.symm
    case isFalse => rw [Option.mem_some_iff.mp first]

theorem last_of_runs_chain (l : List α) : (last_of_runs key l).IsChain fun a b => key a ≠ key b := by
  induction l using runs_induction key with
  | nil => exact List.IsChain.nil
  | single a => exact List.IsChain.singleton a
  | same a b l same ih => rwa [last_of_runs_same key l same]
  | differ a b l differs ih =>
    rw [last_of_runs_differ key l differs,List.isChain_cons]
    refine ⟨?_,ih⟩
    intro c first same
    exact differs (same.trans (last_of_runs_head key b l c first))

/-- For each key of `all`, `l` has what comes after all others with that key. -/
structure Winners (S : α → α → Prop) (l all : List α) : Prop where
  sub : ∀ a ∈ l,a ∈ all
  last : ∀ a ∈ l,∀ b ∈ all,key b = key a → b = a ∨ S b a
  found : ∀ a ∈ all,∃ b ∈ l,key b = key a

omit [DecidableEq κ] in
theorem Winners.subset {S : α → α → Prop} {l l' all : List α} (asymm : ∀ a b,S a b → ¬S b a)
    (winners : Winners key S l all) (others : Winners key S l' all) {a : α} (member : a ∈ l) : a ∈ l' := by
  obtain ⟨b,b_member,same⟩ := others.found a (winners.sub a member)
  rcases winners.last a member b (others.sub b b_member) same with rfl | earlier
  · exact b_member
  rcases others.last b b_member a (winners.sub a member) same.symm with rfl | later
  · exact b_member
  · exact (asymm _ _ earlier later).elim

theorem last_of_runs_winners {S : α → α → Prop} (l : List α) (sorted : l.Pairwise S) (neighbours : Neighbours key l) :
    Winners key S (last_of_runs key l) l := by
  refine ⟨fun a last => (last_of_runs_sublist key l).mem last,?_,fun a member => last_of_runs_key key l member⟩
  induction l using runs_induction key with
  | nil => exact fun a last => by cases last
  | single a =>
    intro b last c member _
    have is : b = a := List.mem_singleton.mp last
    exact Or.inl ((List.mem_singleton.mp member).trans is.symm)
  | same first second l same ih =>
    rw [last_of_runs_same key l same]
    intro a last b member key_same
    rcases List.mem_cons.mp member with rfl | member
    · exact Or.inr ((List.pairwise_cons.mp sorted).1 a ((last_of_runs_sublist key _).mem last))
    · exact ih (List.pairwise_cons.mp sorted).2 neighbours.tail a last b member key_same
  | differ first second l differs ih =>
    rw [last_of_runs_differ key l differs]
    intro a last b member key_same
    rcases List.mem_cons.mp last with rfl | later
    · rcases List.mem_cons.mp member with rfl | member
      · exact Or.inl rfl
      rcases List.mem_cons.mp member with rfl | member
      · exact absurd key_same.symm differs
      · have within : [a,second,b].Sublist (a :: second :: l) :=
          ((List.singleton_sublist.mpr member).cons_cons second).cons_cons a
        exact absurd (neighbours a second b within key_same.symm).symm differs
    · rcases List.mem_cons.mp member with rfl | member
      · exact Or.inr ((List.pairwise_cons.mp sorted).1 a ((last_of_runs_sublist key _).mem later))
      · exact ih (List.pairwise_cons.mp sorted).2 neighbours.tail a later b member key_same

variable {le : α → α → Prop} [DecidableRel le] {R : α → α → Prop}

/-- By `le`, and by `R` among equals. -/
def Before (le R : α → α → Prop) (a b : α) : Prop := ¬le b a ∨ le a b ∧ R a b

omit [DecidableRel le] in
theorem Before.to_le {a b : α} (order : Ranking le) (before : Before le R a b) : le a b := by
  rcases before with less | ⟨less,_⟩
  · exact (order.total a b).resolve_right less
  · exact less

omit [DecidableRel le] in
theorem before_asymm (order : Ranking le) (asymm : ∀ a b,R a b → ¬R b a) (a b : α) (before : Before le R a b) : ¬Before le R b a := by
  rintro (back | ⟨back,R_back⟩)
  · rcases before with less | ⟨less,_⟩
    · exact (order.total a b).elim back less
    · exact back less
  · rcases before with less | ⟨_,R_before⟩
    · exact less back
    · exact asymm _ _ R_before R_back

theorem keep_winners (order : Ranking le) (all : List α) (before : all.Pairwise R) :
    Winners key (Before le R) (keep key le all) all := by
  refine ⟨fun a kept => (keep_sublist key le all).mem kept,?_,?_⟩
  · induction all with
    | nil => exact fun a kept => by cases kept
    | cons first all ih =>
      obtain ⟨first_before,tail_before⟩ := List.pairwise_cons.mp before
      rw [keep_cons]
      split
      case isTrue later =>
        intro a kept b member same
        rcases List.mem_cons.mp member with rfl | member
        · obtain ⟨c,c_member,c_same,greater⟩ := later
          have le_a : le b a := by
            rcases ih tail_before a kept c c_member (c_same.trans same) with rfl | c_before
            · exact greater
            · exact order.trans _ _ _ greater (Before.to_le order c_before)
          exact Or.inr (Or.inr ⟨le_a,first_before a ((keep_sublist key le all).mem kept)⟩)
        · exact ih tail_before a kept b member same
      case isFalse alone =>
        intro a kept b member same
        rcases List.mem_cons.mp kept with rfl | kept
        · rcases List.mem_cons.mp member with rfl | member
          · exact Or.inl rfl
          · exact Or.inr (Or.inl fun smaller => alone ⟨b,member,same,smaller⟩)
        · obtain ⟨kept,differs⟩ := List.mem_filter.mp kept
          rcases List.mem_cons.mp member with rfl | member
          · simp [same] at differs
          · exact ih tail_before a kept b member same
  · intro a member
    obtain ⟨b,kept,same,_⟩ := keep_greatest key order all member
    exact ⟨b,kept,same⟩

/-- The pass over the sorted list finds what `keep` keeps, where equal keys are neighbours. -/
theorem filter_runs [DecidableEq α] (order : Ranking le) (asymm : ∀ a b,R a b → ¬R b a) {all sorted : List α}
    (before : all.Pairwise R) (perm : sorted.Perm all) (in_order : sorted.Pairwise (Before le R))
    (neighbours : Neighbours key sorted) :
    all.filter (fun a => a ∈ last_of_runs key sorted) = keep key le all := by
  have runs := last_of_runs_winners key sorted in_order neighbours
  have kept := keep_winners key order all before
  have runs_all : Winners key (Before le R) (all.filter fun a => a ∈ last_of_runs key sorted) all := by
    refine ⟨fun a member => (List.mem_filter.mp member).1,?_,?_⟩
    · intro a member b b_member same
      have last : a ∈ last_of_runs key sorted := by simpa using (List.mem_filter.mp member).2
      exact runs.last a last b (perm.mem_iff.mpr b_member) same
    · intro a member
      obtain ⟨b,last,same⟩ := runs.found a (perm.mem_iff.mpr member)
      exact ⟨b,List.mem_filter.mpr ⟨perm.mem_iff.mp (runs.sub b last),by simpa using last⟩,same⟩
  have nodup : all.Nodup := before.imp fun {a b} first same => by
    subst same
    exact asymm _ _ first first
  have same_members := (List.perm_ext_iff_of_nodup (nodup.sublist List.filter_sublist)
    (nodup.sublist (keep_sublist key le all))).mpr fun a =>
      ⟨runs_all.subset key (before_asymm order asymm) kept,kept.subset key (before_asymm order asymm) runs_all⟩
  apply same_members.eq_of_pairwise _ (before.sublist List.filter_sublist) (before.sublist (keep_sublist key le all))
  intro a b _ _ first back
  exact (asymm _ _ first back).elim

end

/-! ### First and last occurrences -/

section
variable {α : Type} [DecidableEq α]

/-- Each element where it stands for the first time. -/
def firsts (l : List α) : List α := (l.zipIdx.filter fun a => a.1 ∉ l.take a.2).map Prod.fst

/-- Each element where it stands for the last time. -/
def lasts (l : List α) : List α := (l.zipIdx.filter fun a => a.1 ∉ l.drop (a.2 + 1)).map Prod.fst

theorem lasts_dedup (l : List α) : lasts l = l.dedup := by
  induction l with
  | nil => rfl
  | cons a l ih =>
    have behind : ((l.zipIdx 1).filter fun b => b.1 ∉ (a :: l).drop (b.2 + 1)).map Prod.fst = lasts l := by
      rw [List.zipIdx_succ,List.filter_map,List.map_map]
      rfl
    rw [lasts,List.zipIdx_cons,List.filter_cons]
    by_cases there : a ∈ l
    · rw [if_neg (by simpa using there),behind,ih,List.dedup_cons_of_mem there]
    · rw [if_pos (by simpa using there),List.map_cons,behind,ih,List.dedup_cons_of_notMem there]

theorem firsts_concat (l : List α) (a : α) : firsts (l ++ [a]) = firsts l ++ if a ∈ l then [] else [a] := by
  have front : (l.zipIdx.filter fun b => b.1 ∉ (l ++ [a]).take b.2) = l.zipIdx.filter fun b => b.1 ∉ l.take b.2 := by
    refine List.filter_congr fun b there => ?_
    have inside : b.2 < l.length := by
      have := (List.mem_zipIdx (x := b.1) (i := b.2) there).2.1
      omega
    rw [List.take_append_of_le_length (Nat.le_of_lt inside)]
  rw [firsts,List.zipIdx_append,List.filter_append,List.map_append,front,firsts]
  congr 1
  rw [List.zipIdx_singleton,Nat.zero_add,List.filter_singleton,List.take_left]
  by_cases there : a ∈ l
  · simp [there]
  · simp [there]

theorem firsts_dedup (l : List α) : firsts l = l.reverse.dedup.reverse := by
  induction l using List.reverseRecOn with
  | nil => rfl
  | append_singleton l a ih =>
    rw [firsts_concat,ih,List.reverse_append,List.reverse_singleton,List.singleton_append]
    by_cases there : a ∈ l
    · rw [if_pos there,List.append_nil,List.dedup_cons_of_mem (List.mem_reverse.mpr there)]
    · rw [if_neg there,List.dedup_cons_of_notMem (mt List.mem_reverse.mp there),List.reverse_cons]

theorem mem_firsts {l : List α} {a : α} : a ∈ firsts l ↔ a ∈ l := by
  rw [firsts_dedup,List.mem_reverse,List.mem_dedup,List.mem_reverse]

/-! ### Orders of several lists -/

/-- `a` stands for the first time in front of where `b` does. -/
def Ahead (l : List α) (a b : α) : Prop := l.idxOf a < l.idxOf b ∧ b ∈ l

theorem Ahead.mem {l : List α} {a b : α} (ahead : Ahead l a b) : a ∈ l ∧ b ∈ l :=
  ⟨List.idxOf_lt_length_iff.mp (ahead.1.trans (List.idxOf_lt_length_of_mem ahead.2)),ahead.2⟩

theorem Ahead.ne {l : List α} {a b : α} (ahead : Ahead l a b) : a ≠ b := by
  rintro rfl
  exact Nat.lt_irrefl _ ahead.1

theorem Ahead.asymm {l : List α} {a b : α} (ahead : Ahead l a b) : ¬Ahead l b a :=
  fun back => Nat.lt_asymm ahead.1 back.1

theorem ahead_total {l : List α} {a b : α} (a_there : a ∈ l) (b_there : b ∈ l) (differ : a ≠ b) : Ahead l a b ∨ Ahead l b a := by
  have places : l.idxOf a ≠ l.idxOf b := fun same => differ ((List.idxOf_inj a_there).mp same)
  rcases Nat.lt_or_gt_of_ne places with less | greater
  · exact .inl ⟨less,b_there⟩
  · exact .inr ⟨greater,a_there⟩

theorem ahead_pair {x y a b : α} (ahead : Ahead [x,y] a b) : a = x ∧ b = y := by
  obtain ⟨a_there,b_there⟩ := ahead.mem
  have less := ahead.1
  rcases List.mem_pair.mp b_there with rfl | rfl
  · rw [List.idxOf_cons_self] at less
    exact absurd less (Nat.not_lt_zero _)
  · rcases List.mem_pair.mp a_there with rfl | rfl
    · exact ⟨rfl,rfl⟩
    · exact absurd rfl ahead.ne

/-- The first list decides, where it has one of the two. -/
theorem ahead_append {front back : List α} {a b : α} (here : a ∈ front ∨ b ∈ front) :
    Ahead (front ++ back) a b ↔ if b ∈ front then Ahead front a b else b ∈ back := by
  by_cases b_here : b ∈ front
  · rw [if_pos b_here,Ahead,Ahead,List.idxOf_append_of_mem b_here]
    have b_inside := List.idxOf_lt_length_of_mem b_here
    by_cases a_here : a ∈ front
    · simp [List.idxOf_append_of_mem a_here,b_here]
    · rw [List.idxOf_append_of_notMem a_here,List.idxOf_eq_length a_here]
      constructor
      · rintro ⟨less,_⟩
        omega
      · rintro ⟨less,_⟩
        omega
  · have a_here := here.resolve_right b_here
    have a_inside := List.idxOf_lt_length_of_mem a_here
    rw [if_neg b_here,Ahead,List.idxOf_append_of_mem a_here,List.idxOf_append_of_notMem b_here]
    constructor
    · rintro ⟨_,there⟩
      exact (List.mem_append.mp there).resolve_left b_here
    · intro there
      exact ⟨by omega,List.mem_append_right front there⟩

theorem ahead_behind {front back : List α} {a b : α} (a_new : a ∉ front) (b_new : b ∉ front) :
    Ahead (front ++ back) a b ↔ Ahead back a b := by
  rw [Ahead,Ahead,List.idxOf_append_of_notMem a_new,List.idxOf_append_of_notMem b_new,List.mem_append,or_iff_right b_new]
  exact and_congr_left fun _ => Nat.add_lt_add_iff_left

theorem ahead_firsts (l : List α) (a b : α) : Ahead (firsts l) a b ↔ Ahead l a b := by
  induction l using List.reverseRecOn with
  | nil => rfl
  | append_singleton l c ih =>
    rw [firsts_concat]
    by_cases here : a ∈ l ∨ b ∈ l
    · rw [ahead_append here,ahead_append (by rwa [mem_firsts,mem_firsts]),if_congr mem_firsts (propext ih) rfl]
      by_cases b_here : b ∈ l
      · rw [if_pos b_here,if_pos b_here]
      · rw [if_neg b_here,if_neg b_here]
        by_cases c_here : c ∈ l
        · have other : b ≠ c := fun same => b_here (same ▸ c_here)
          simp [c_here,other]
        · rw [if_neg c_here]
    · obtain ⟨a_new,b_new⟩ := not_or.mp here
      rw [ahead_behind a_new b_new,ahead_behind (by rwa [mem_firsts]) (by rwa [mem_firsts])]
      by_cases c_here : c ∈ l
      · have other : b ≠ c := fun same => b_new (same ▸ c_here)
        simp [Ahead,c_here,other]
      · rw [if_neg c_here]

/-- No two lists have two elements in opposite orders, also through other lists. -/
def Compatible (ls : List (List α)) : Prop := ∀ a,¬Relation.TransGen (fun a b => ∃ l ∈ ls,Ahead l a b) a a

/-- Where nothing is both ahead and behind, there is no cycle. -/
theorem compatible_of {ls : List (List α)} (apart : ∀ l ∈ ls,∀ k ∈ ls,∀ a b c,Ahead l a b → ¬Ahead k c a) : Compatible ls := by
  intro a cycle
  obtain ⟨b,⟨l,l_member,behind⟩,_⟩ := Relation.TransGen.head'_iff.mp cycle
  obtain ⟨c,_,k,k_member,front⟩ := Relation.TransGen.tail'_iff.mp cycle
  exact apart l l_member k k_member a b c behind front

/-- What each list has in its order is in that order in `all`. -/
def KeepsOrders (ls : List (List α)) (all : List α) : Prop := ∀ l ∈ ls,∀ a b,Ahead l a b → Ahead all a b

/-- Where a list has `a` ahead of `b`, a later list with `b` is one with `a`, or one with `a` comes after it. -/
def Followed (ls : List (List α)) : Prop :=
  ∀ before l between later_l later,ls = before ++ l :: (between ++ later_l :: later) → ∀ a b,Ahead l a b → b ∈ later_l →
    ∃ last ∈ later_l :: later,a ∈ last

/-- The last list with an element, and those behind it, which do not have it. -/
theorem last_with {ls : List (List α)} {b : α} (there : ∃ l ∈ ls,b ∈ l) :
    ∃ between l later,ls = between ++ l :: later ∧ b ∈ l ∧ ∀ other ∈ later,b ∉ other := by
  induction ls with
  | nil =>
    obtain ⟨l,member,_⟩ := there
    cases member
  | cons first ls ih =>
    by_cases later : ∃ l ∈ ls,b ∈ l
    · obtain ⟨between,l,rest,split,has,last⟩ := ih later
      exact ⟨first :: between,l,rest,by rw [split,List.cons_append],has,last⟩
    · obtain ⟨l,member,has⟩ := there
      rcases List.mem_cons.mp member with rfl | member
      · exact ⟨[],l,ls,rfl,has,fun other other_member other_has => later ⟨other,other_member,other_has⟩⟩
      · exact absurd ⟨l,member,has⟩ later

omit [DecidableEq α] in
theorem mem_reverse_flatten {ls : List (List α)} {a : α} : a ∈ ls.reverse.flatten ↔ ∃ l ∈ ls,a ∈ l := by
  simp [List.mem_flatten]

/-- With the last list in front and the first ones kept, the orders of all lists stay exactly where each is followed. -/
theorem keeps_orders_iff {ls : List (List α)} (compatible : Compatible ls) :
    KeepsOrders ls ls.reverse.flatten ↔ Followed ls := by
  have front (before : List (List α)) (l : List α) (after : List (List α)) :
      (before ++ l :: after).reverse.flatten = after.reverse.flatten ++ (l ++ before.reverse.flatten) := by simp
  constructor
  · intro keeps before l between later_l later split a b ahead has
    by_contra missing
    have parts : ls = (before ++ l :: between) ++ later_l :: later := by simp [split]
    have kept := keeps l (by simp [split]) a b ahead
    have a_new : a ∉ (later_l :: later).reverse.flatten := mt mem_reverse_flatten.mp missing
    have b_here : b ∈ (later_l :: later).reverse.flatten := mem_reverse_flatten.mpr ⟨later_l,List.mem_cons_self,has⟩
    rw [parts,List.reverse_append,List.flatten_append,ahead_append (.inr b_here),if_pos b_here] at kept
    exact a_new kept.mem.1
  · intro followed l member a b ahead
    obtain ⟨before,after,split⟩ := List.append_of_mem member
    by_cases again : ∃ other ∈ after,b ∈ other
    · obtain ⟨between,later_l,later,after_split,has,last⟩ := last_with again
      have b_new : b ∉ later.reverse.flatten := fun there => by
        obtain ⟨other,other_member,other_has⟩ := mem_reverse_flatten.mp there
        exact last other other_member other_has
      have parts : ls = (before ++ l :: between) ++ later_l :: later := by simp [split,after_split]
      obtain ⟨other,other_member,a_has⟩ := followed before l between later_l later (by rw [split,after_split]) a b ahead has
      rw [parts,front]
      by_cases a_later : a ∈ later.reverse.flatten
      · rw [ahead_append (.inl a_later),if_neg b_new]
        exact List.mem_append_left _ has
      · rw [ahead_behind a_later b_new]
        have a_here : a ∈ later_l := by
          rcases List.mem_cons.mp other_member with rfl | other_member
          · exact a_has
          · exact absurd (mem_reverse_flatten.mpr ⟨other,other_member,a_has⟩) a_later
        rw [ahead_append (.inl a_here),if_pos has]
        rcases ahead_total a_here has ahead.ne with same | opposite
        · exact same
        · have forth : ∃ l ∈ ls,Ahead l a b := ⟨l,member,ahead⟩
          have back : ∃ l ∈ ls,Ahead l b a := ⟨later_l,by simp [parts],opposite⟩
          exact absurd (Relation.TransGen.tail (.single forth) back) (compatible a)
    · have b_new : b ∉ after.reverse.flatten := mt mem_reverse_flatten.mp again
      rw [split,front]
      by_cases a_later : a ∈ after.reverse.flatten
      · rw [ahead_append (.inl a_later),if_neg b_new]
        exact List.mem_append_left _ ahead.mem.2
      · rw [ahead_behind a_later b_new,ahead_append (.inl ahead.mem.1),if_pos ahead.mem.2]
        exact ahead

end

end Htools.Selection
