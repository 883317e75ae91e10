import Mathlib.Data.List.Basic
import Mathlib.Tactic.Common

/-!
A list cut at delimiters: the maximal runs of other elements, with the places where
they begin. They are found from the front, behind any delimiters (`run_delim`) and
one behind the other (`run_token`).
-/
namespace Htools.Tokens

variable {α : Type} {delim : α → Prop} {s t u b : List α} {d : α} {i : Nat}

/-- No element is a delimiter. -/
def Free (delim : α → Prop) (t : List α) : Prop := ∀ c ∈ t,¬ delim c

/-- The list is empty or begins with a delimiter. -/
def Closed (delim : α → Prop) (b : List α) : Prop := ∀ d ∈ b.head?,delim d

/-- A run of elements that are no delimiters and that none precedes or follows. -/
def Run (delim : α → Prop) (s : List α) (i : Nat) (t : List α) : Prop :=
  ∃ front back,s = front ++ (t ++ back) ∧ front.length = i ∧ t ≠ [] ∧ Free delim t ∧
    (∀ d ∈ front.getLast?,delim d) ∧ Closed delim back

/-- A list is made of delimiters, or it has a first run. -/
theorem cut (delim : α → Prop) (s : List α) : (∀ c ∈ s,delim c) ∨
    ∃ skip token back,s = skip ++ (token ++ back) ∧ (∀ c ∈ skip,delim c) ∧ token ≠ [] ∧ Free delim token ∧
      Closed delim back := by
  induction s with
  | nil => exact .inl (by simp)
  | cons c s ih =>
    by_cases here : delim c
    · obtain all | ⟨skip,token,back,rfl,skipped,some_left,free,closed⟩ := ih
      · exact .inl (List.forall_mem_cons.mpr ⟨here,all⟩)
      · exact .inr ⟨c :: skip,token,back,rfl,List.forall_mem_cons.mpr ⟨here,skipped⟩,some_left,free,closed⟩
    · right
      have alone : Free delim [c] := by
        intro e member
        rw [List.mem_singleton.mp member]
        exact here
      cases s with
      | nil => exact ⟨[],[c],[],rfl,by simp,by simp,alone,by simp [Closed]⟩
      | cons e s =>
        by_cases next : delim e
        · exact ⟨[],[c],e :: s,rfl,by simp,by simp,alone,by simp [Closed,next]⟩
        · obtain all | ⟨skip,token,back,split,skipped,_,free,closed⟩ := ih
          · exact absurd (all e List.mem_cons_self) next
          cases skip with
          | nil =>
            rw [List.nil_append] at split
            exact ⟨[],c :: token,back,by rw [split]; rfl,by simp,by simp,List.forall_mem_cons.mpr ⟨here,free⟩,closed⟩
          | cons first skip =>
            obtain rfl := (List.cons.inj split).1
            exact absurd (skipped e List.mem_cons_self) next

theorem run_nil : ¬ Run delim [] i t := by
  rintro ⟨front,back,split,_,some_left,_⟩
  obtain ⟨_,rest⟩ := List.append_eq_nil_iff.mp split.symm
  exact some_left (List.append_eq_nil_iff.mp rest).1

/-- Where the list begins with a delimiter, no run does. -/
theorem not_run_zero (closed : Closed delim s) : ¬ Run delim s 0 t := by
  rintro ⟨front,back,rfl,zero,some_left,free,_⟩
  obtain rfl := List.eq_nil_of_length_eq_zero zero
  obtain ⟨c,t,rfl⟩ := List.exists_cons_of_ne_nil some_left
  exact free c List.mem_cons_self (closed c rfl)

theorem run_delim (here : delim d) : Run delim (d :: s) i t ↔ ∃ k,i = k + 1 ∧ Run delim s k t := by
  constructor
  · intro run
    obtain ⟨front,back,split,length,some_left,free,before,after⟩ := run
    cases front with
    | nil => exact absurd ⟨[],back,split,rfl,some_left,free,before,after⟩ (not_run_zero (by simp [Closed,here]))
    | cons c front =>
      obtain ⟨rfl,rfl⟩ := List.cons.inj split
      refine ⟨front.length,length.symm,front,back,rfl,rfl,some_left,free,?_,after⟩
      intro e last
      refine before e ?_
      rw [List.getLast?_cons,Option.mem_def.mp last]
      rfl
  · rintro ⟨k,rfl,front,back,rfl,rfl,some_left,free,before,after⟩
    refine ⟨d :: front,back,rfl,rfl,some_left,free,?_,after⟩
    intro e last
    rw [List.getLast?_cons,Option.mem_some_iff] at last
    cases end_ : front.getLast? with
    | none =>
      rw [end_] at last
      exact last ▸ here
    | some e' =>
      rw [end_] at last
      exact last ▸ before e' end_

theorem run_delims {skip : List α} (all : ∀ c ∈ skip,delim c) :
    Run delim (skip ++ s) i t ↔ ∃ k,i = skip.length + k ∧ Run delim s k t := by
  induction skip generalizing i with
  | nil => simp
  | cons c skip ih =>
    obtain ⟨here,all⟩ := List.forall_mem_cons.mp all
    rw [List.cons_append,run_delim here]
    constructor
    · rintro ⟨k,rfl,run⟩
      obtain ⟨j,rfl,run'⟩ := (ih all).mp run
      exact ⟨j,by rw [List.length_cons]; omega,run'⟩
    · rintro ⟨j,rfl,run⟩
      exact ⟨skip.length + j,by rw [List.length_cons]; omega,(ih all).mpr ⟨j,rfl,run⟩⟩

/-- Lists without delimiters in front of ends that are closed. -/
theorem free_split {back : List α} (split : t ++ back = u ++ b) (free : Free delim t) (free' : Free delim u)
    (closed : Closed delim back) (closed' : Closed delim b) : t = u := by
  obtain ⟨x,rfl,rest⟩ | ⟨x,rfl,rest⟩ := List.append_eq_append_iff.mp split
  · cases x with
    | nil => rw [List.append_nil]
    | cons c x =>
      rw [rest] at closed
      exact absurd (closed c rfl) (free' c (List.mem_append_right _ List.mem_cons_self))
  · cases x with
    | nil => rw [List.append_nil]
    | cons c x =>
      rw [rest] at closed'
      exact absurd (closed' c rfl) (free c (List.mem_append_right _ List.mem_cons_self))

/-- A run at the front, and the runs behind it. -/
theorem run_token (some_left : u ≠ []) (free : Free delim u) (closed : Closed delim b) :
    Run delim (u ++ b) i t ↔ (i = 0 ∧ t = u) ∨ ∃ k,i = u.length + k ∧ Run delim b k t := by
  constructor
  · rintro ⟨front,back,split,rfl,some_left',free',before,after⟩
    obtain ⟨x,rfl,rest⟩ | ⟨x,rfl,rest⟩ := List.append_eq_append_iff.mp split
    · refine .inr ⟨x.length,List.length_append,x,back,rest,rfl,some_left',free',?_,after⟩
      intro d last
      refine before d ?_
      rw [List.getLast?_append,Option.mem_def.mp last]
      rfl
    · obtain rfl | ⟨front,c,rfl⟩ := List.eq_nil_or_concat front
      · exact .inl ⟨rfl,free_split rest free' free after closed⟩
      · have last : delim c := before c (by rw [List.concat_eq_append,List.getLast?_concat]; rfl)
        refine absurd last (free c (List.mem_append_left _ ?_))
        rw [List.concat_eq_append]
        exact List.mem_append_right _ (List.mem_singleton_self c)
  · rintro (⟨rfl,rfl⟩ | ⟨k,rfl,run⟩)
    · exact ⟨[],b,rfl,rfl,some_left,free,by simp,closed⟩
    · obtain ⟨front,back,rfl,rfl,some_left',free',before,after⟩ := run
      cases front with
      | nil => exact absurd ⟨[],back,rfl,rfl,some_left',free',before,after⟩ (not_run_zero closed)
      | cons c front =>
        refine ⟨u ++ c :: front,back,(List.append_assoc _ _ _).symm,List.length_append,some_left',free',?_,after⟩
        intro d last
        refine before d ?_
        rw [List.getLast?_append] at last
        rw [List.getLast?_cons] at last ⊢
        exact last

/-- The first run of a list, behind delimiters, and the runs behind it. -/
theorem run_first {skip : List α} (all : ∀ c ∈ skip,delim c) (some_left : u ≠ []) (free : Free delim u)
    (closed : Closed delim b) :
    Run delim (skip ++ (u ++ b)) i t ↔
      (i = skip.length ∧ t = u) ∨ ∃ k,i = skip.length + (u.length + k) ∧ Run delim b k t := by
  rw [run_delims all]
  constructor
  · rintro ⟨k,rfl,run⟩
    obtain ⟨rfl,rfl⟩ | ⟨j,rfl,run'⟩ := (run_token some_left free closed).mp run
    · exact .inl ⟨rfl,rfl⟩
    · exact .inr ⟨j,rfl,run'⟩
  · rintro (⟨rfl,rfl⟩ | ⟨j,rfl,run⟩)
    · exact ⟨0,rfl,(run_token some_left free closed).mpr (.inl ⟨rfl,rfl⟩)⟩
    · exact ⟨u.length + j,rfl,(run_token some_left free closed).mpr (.inr ⟨j,rfl,run⟩)⟩

end Htools.Tokens
