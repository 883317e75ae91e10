import Htools.Vector

/-!
The capacity of vectors (`_reserve` and `_resize` in `hutils/include/hutils/vector.h`).
Both lead to `reserve_`, which computes the number of elements that are left by an
unsigned subtraction and then asserts the margins. They do what they should for
capacities from the front margin to a chunk behind the elements (`reserve_iff`), and
for sizes that do not grow (`resize_iff`).
-/
namespace Htools.Vector
open Htools.Cells

section
variable {α : Type} (chunk : Nat)

def reserve (a_vec : VectorType α) (a_capacity : Nat) : Except Stop (VectorType α) := reserve_ chunk a_vec a_capacity

def resize (a_vec : VectorType α) (a_size : Nat) : Except Stop (VectorType α) :=
  reserve_ chunk a_vec ((a_vec.ofs + a_size) % 2 ^ 64)

/-- The vectors that all operations lead to, and writes to elements, where no capacity
    is less than the front margin and no size wraps around with it. -/
inductive Called (zero : α) : VectorType α → Prop where
  | init {v : VectorType α} (n : Nat) (run : init chunk zero n = .ok v) : Called zero v
  | step {v v' : VectorType α} (op : Op α) (earlier : Called zero v) (run : step chunk zero v op = .ok v') : Called zero v'
  | pop_front {v v' : VectorType α} (earlier : Called zero v) (run : pop_front chunk v = .ok v') : Called zero v'
  | write {v v' : VectorType α} (i slot : Nat) (x : α) (earlier : Called zero v) (here : at_ v i = .ok slot)
      (run : store v slot x = .ok v') : Called zero v'
  | reserve {v v' : VectorType α} (c : Nat) (earlier : Called zero v) (margin : v.ofs ≤ c)
      (run : reserve chunk v c = .ok v') : Called zero v'
  | resize {v v' : VectorType α} (n : Nat) (earlier : Called zero v) (fits : v.ofs + n < 2 ^ 64)
      (run : resize chunk v n = .ok v') : Called zero v'

/-- `reserve` returns with the capacity, the size does not wrap around, and the
    elements that there is room for stay in place. -/
def Reserves (v : VectorType α) (c : Nat) : Prop :=
  ∃ v', reserve chunk v c = .ok v' ∧ v'.capacity = c ∧ v'.ofs + v'.size ≤ c ∧ v'.ofs = v.ofs ∧
    ∀ i < min v.size (c - v.ofs), element v' i = element v i

/-- `resize` returns with the size, and leaves the elements that are in both. -/
def Resizes (v : VectorType α) (n : Nat) : Prop :=
  ∃ v', resize chunk v n = .ok v' ∧ v'.size = n ∧ ∀ i < min n v.size, element v' i = element v i

end

section
variable {α : Type} {chunk : Nat} {zero : α} {v v' : VectorType α} {l : List α} {c : Nat}

theorem assert_invariant_ok {n : Nat} : assert_invariant chunk v n = .ok () ↔
    n ≤ v.capacity ∧ v.ofs ≤ chunk ∧ v.capacity ≤ n + chunk := by
  rw [assert_invariant]
  by_cases holds : n ≤ v.capacity ∧ chunk ≥ v.ofs ∧ v.capacity ≤ n + chunk
  · rw [if_pos holds]
    exact iff_of_true rfl holds
  · rw [if_neg holds]
    exact iff_of_false (by simp) holds

/-- `reserve_` where it cuts elements off. -/
theorem reserve_cut (front : v.ofs ≤ chunk) (cut : c < v.ofs + v.size) :
    reserve_ chunk v c = .ok ⟨v.ofs,size_sub c v.ofs,c,resized v.data c⟩ := by
  have asserted : assert_invariant chunk (⟨v.ofs,size_sub c v.ofs,c,resized v.data c⟩ : VectorType α) c = .ok () :=
    assert_invariant_ok.mpr ⟨Nat.le_refl c,front,Nat.le_add_right c chunk⟩
  rw [reserve_,if_pos cut]
  simp only [asserted,bind,Except.bind]

/-- `reserve_` where it does not. -/
theorem reserve_whole (whole : v.ofs + v.size ≤ c) (run : reserve_ chunk v c = .ok v') :
    v' = { v with capacity := c, data := resized v.data c } ∧ c ≤ v.ofs + v.size + chunk := by
  rw [reserve_,if_neg (by omega)] at run
  obtain ⟨_,asserted,is⟩ := bind_ok_iff.mp run
  cases is
  exact ⟨rfl,(assert_invariant_ok.mp asserted).2.2⟩

theorem window_resized (window : Window v.data v.ofs l) : Window (resized v.data c) v.ofs (l.take (c - v.ofs)) := by
  intro k lt
  rw [List.length_take] at lt
  rw [cell_resized,if_pos (by omega),window k (by omega),List.getElem?_take_of_lt (by omega)]

/-- What `reserve_` leaves of a vector, for a capacity that holds the front margin. -/
theorem reserve_represents (rep : Represents chunk v l) (margin : v.ofs ≤ c) (run : reserve_ chunk v c = .ok v') :
    Represents chunk v' (l.take (c - v.ofs)) ∧ v'.ofs = v.ofs ∧ v'.capacity = c := by
  obtain ⟨⟨inside,front,back,allocated⟩,size,window⟩ := rep
  by_cases cut : c < v.ofs + v.size
  · rw [reserve_cut front cut] at run
    cases run
    have is : size_sub c v.ofs = c - v.ofs := if_pos margin
    refine ⟨⟨⟨?_,front,?_,length_resized _ _⟩,?_,window_resized window⟩,rfl,rfl⟩
    · simp only [is]
      omega
    · simp only [is]
      omega
    · rw [List.length_take]
      simp only [is]
      omega
  · obtain ⟨rfl,bound⟩ := reserve_whole (by omega) run
    refine ⟨⟨⟨by simp only; omega,front,bound,length_resized _ _⟩,?_,window_resized window⟩,rfl,rfl⟩
    rw [List.length_take]
    simp only
    omega

theorem store_represents (rep : Represents chunk v l) {i slot : Nat} {x : α} (here : at_ v i = .ok slot)
    (run : store v slot x = .ok v') : Represents chunk v' (l.set i x) := by
  obtain ⟨⟨inside,front,back,allocated⟩,size,window⟩ := rep
  rw [at_] at here
  split at here
  · cases here
  cases here
  rw [store,if_pos (by omega)] at run
  cases run
  refine ⟨⟨inside,front,back,by rw [List.length_set]; exact allocated⟩,size.trans List.length_set.symm,?_⟩
  intro k lt
  rw [List.length_set] at lt
  simp only
  rw [cell_set x (by omega),List.getElem?_set]
  by_cases same : i = k
  · rw [if_pos (by omega),if_pos same,if_pos (by omega)]
  · rw [if_neg (by omega),if_neg same]
    exact window k lt

theorem Called.represents (positive : 1 ≤ chunk) (called : Called chunk zero v) : ∃ l, Represents chunk v l := by
  induction called with
  | init n run => exact init_represents run
  | step op _ run ih => exact ih.elim fun _ rep => step_represents positive rep run
  | pop_front _ run ih => exact ih.elim fun _ rep => pop_front_represents rep run
  | write i slot x _ here run ih =>
    obtain ⟨l,rep⟩ := ih
    exact ⟨_,store_represents rep here run⟩
  | reserve c _ margin run ih =>
    obtain ⟨l,rep⟩ := ih
    exact ⟨_,(reserve_represents rep margin run).1⟩
  | resize n _ fits run ih =>
    obtain ⟨l,rep⟩ := ih
    rw [Vector.resize,Nat.mod_eq_of_lt fits] at run
    exact ⟨_,(reserve_represents rep (Nat.le_add_right _ _) run).1⟩

/-- Elements that both lists have stay. -/
theorem element_take (rep : Represents chunk v l) (rep' : Represents chunk v' (l.take c)) {i : Nat} (old : i < v.size)
    (new : i < c) : element v' i = element v i := by
  have size := rep.size
  refine (element_eq_iff rep' rep ?_ (by omega)).mpr (List.getElem?_take_of_lt new)
  rw [List.length_take]
  omega

/-! ### Capacities -/

theorem reserves_inside (rep : Represents chunk v l) (margin : v.ofs ≤ c) (bound : c ≤ v.ofs + v.size + chunk) :
    ∃ v', reserve_ chunk v c = .ok v' ∧ v'.capacity = c ∧ v'.ofs + v'.size ≤ c ∧ v'.ofs = v.ofs ∧
      v'.size = min v.size (c - v.ofs) ∧ ∀ i < min v.size (c - v.ofs), element v' i = element v i := by
  have inside := rep.inside
  obtain ⟨v',run⟩ : ∃ v', reserve_ chunk v c = .ok v' := by
    by_cases cut : c < v.ofs + v.size
    · exact ⟨_,reserve_cut rep.front cut⟩
    · exact ⟨_,reserve_total (by omega) rep.front bound⟩
  obtain ⟨rep',ofs,capacity⟩ := reserve_represents rep margin run
  refine ⟨v',run,capacity,capacity ▸ rep'.inside,ofs,?_,fun i less => ?_⟩
  · rw [rep'.size,List.length_take,rep.size,Nat.min_comm]
  · exact element_take rep rep' (by omega) (by omega)

/-- `reserve` does what it should exactly for a capacity that holds the front margin
    and leaves no more than a chunk behind the elements. -/
theorem reserve_iff (chunk : Nat) (positive : 1 ≤ chunk) (zero : α) (v : VectorType α) (called : Called chunk zero v)
    (c : Nat) : Reserves chunk v c ↔ v.ofs ≤ c ∧ c ≤ v.ofs + v.size + chunk := by
  obtain ⟨l,rep⟩ := called.represents positive
  have inside := rep.inside
  have front := rep.front
  constructor
  · rintro ⟨v',run,_,room,_,_⟩
    rw [reserve] at run
    by_cases cut : c < v.ofs + v.size
    · rw [reserve_cut front cut] at run
      cases run
      simp only [size_sub] at room
      split at room <;> omega
    · exact ⟨by omega,(reserve_whole (by omega) run).2⟩
  · rintro ⟨margin,bound⟩
    obtain ⟨v',run,capacity,room,ofs,_,same⟩ := reserves_inside rep margin bound
    exact ⟨v',run,capacity,room,ofs,same⟩

/-- From a vector of two elements with one cell before them to no capacity at all: the
    size wraps around. -/
theorem reserve_wraps : ¬ ∀ v : VectorType Nat, Called 3 0 v → ∀ c, Reserves 3 v c := by
  intro all
  have called : Called 3 0 two_in_front := by
    have first : step 3 0 ⟨0,0,0,[]⟩ (.push_front 1) = .ok ⟨2,1,6,[none,none,some 1,none,none,none]⟩ := by decide
    have second : step 3 0 ⟨2,1,6,[none,none,some 1,none,none,none]⟩ (.push_front 2) = .ok two_in_front := by decide
    exact .step _ (.step _ (.init 0 (by decide)) first) second
  obtain ⟨v',run,_,room,_⟩ := all two_in_front called 0
  have wrapped : reserve 3 two_in_front 0 = .ok ⟨1,2 ^ 64 - 1,0,[]⟩ := by decide
  cases run.symm.trans wrapped
  exact absurd room (by decide)

theorem reserve_iff_three : (1 ≤ 3 ∧ Called 3 0 (⟨0,2,2,[some 0,some 0]⟩ : VectorType Nat)) ∧
    (Reserves 3 (⟨0,2,2,[some 0,some 0]⟩ : VectorType Nat) 5 ↔ 0 ≤ 5 ∧ 5 ≤ 0 + 2 + 3) :=
  have called : Called 3 0 (⟨0,2,2,[some 0,some 0]⟩ : VectorType Nat) := .init 2 (by decide)
  ⟨⟨by decide,called⟩,reserve_iff 3 (by decide) 0 ⟨0,2,2,[some 0,some 0]⟩ called 5⟩

/-! ### Sizes -/

/-- A size that wraps around with the front margin is taken over, and the cells are gone. -/
theorem resize_wrapped (rep : Represents chunk v l) {n : Nat} (fits : n < 2 ^ 64) (wraps : 2 ^ 64 ≤ v.ofs + n)
    (addressable : v.data.length < 2 ^ 64) :
    ∃ v', resize chunk v n = .ok v' ∧ v'.size = n ∧ v'.data.length ≤ v.ofs ∧ v'.ofs = v.ofs := by
  have inside := rep.inside
  have allocated := rep.allocated
  have less : (v.ofs + n) % 2 ^ 64 = v.ofs + n - 2 ^ 64 := by omega
  have run : resize chunk v n = reserve_ chunk v (v.ofs + n - 2 ^ 64) := by rw [resize,less]
  refine ⟨_,run.trans (reserve_cut rep.front (by omega)),?_,?_,rfl⟩
  · simp only [size_sub]
    rw [if_neg (by omega)]
    omega
  · simp only [length_resized]
    omega

/-- `resize` does what it should exactly for a size that is not more than the old one;
    else it leaves the old size or fails the assertion. (Where there are no elements,
    a size that wraps around with the front margin is taken over as well.) -/
theorem resize_iff (chunk : Nat) (positive : 1 ≤ chunk) (zero : α) (v : VectorType α) (called : Called chunk zero v)
    (addressable : v.data.length < 2 ^ 64) (n : Nat) (fits : n < 2 ^ 64) :
    Resizes chunk v n ↔ n ≤ v.size ∨ v.size = 0 ∧ 2 ^ 64 ≤ v.ofs + n := by
  obtain ⟨l,rep⟩ := called.represents positive
  have inside := rep.inside
  have allocated := rep.allocated
  by_cases wraps : 2 ^ 64 ≤ v.ofs + n
  · obtain ⟨v',run,size,few,ofs⟩ := resize_wrapped rep fits wraps addressable
    constructor
    · rintro ⟨v₁,run₁,_,same⟩
      cases run.symm.trans run₁
      by_cases none : v.size = 0
      · exact .inr ⟨none,wraps⟩
      have first := same 0 (by omega)
      have size' := rep.size
      have old : element v 0 = .ok l[0] := (load_total rep).1 0 (by omega)
      have new : element v' 0 = .error .fault := by
        rw [element,at_,if_neg (by omega)]
        simp only [bind,Except.bind]
        rw [load,cell,List.getElem?_eq_none (by omega)]
        rfl
      rw [old,new] at first
      cases first
    · rintro (small | ⟨none,_⟩)
      · omega
      · exact ⟨v',run,size,fun i less => by omega⟩
  · have less : (v.ofs + n) % 2 ^ 64 = v.ofs + n := Nat.mod_eq_of_lt (by omega)
    constructor
    · rintro ⟨v',run,size,_⟩
      rw [resize,less] at run
      by_cases cut : v.ofs + n < v.ofs + v.size
      · exact .inl (by omega)
      · obtain ⟨rfl,_⟩ := reserve_whole (by omega) run
        exact .inl (Nat.le_of_eq size.symm)
    · rintro (small | ⟨_,wraps'⟩)
      · obtain ⟨v',run,_,_,_,size,same⟩ := reserves_inside rep (Nat.le_add_right v.ofs n) (by omega)
        refine ⟨v',by rw [resize,less]; exact run,?_,fun i less => same i (by omega)⟩
        rw [size]
        omega
      · exact absurd wraps' wraps

/-- An empty vector keeps its size. -/
theorem resize_grows : ¬ ∀ v : VectorType Nat, Called 10 0 v → v.data.length < 2 ^ 64 → ∀ n < 2 ^ 64, Resizes 10 v n := by
  intro all
  obtain ⟨v',run,size,_⟩ := all ⟨0,0,0,[]⟩ (.init 0 (by decide)) (by decide) 1 (by decide)
  have same : resize 10 (⟨0,0,0,[]⟩ : VectorType Nat) 1 = .ok ⟨0,0,1,[none]⟩ := by decide
  cases run.symm.trans same
  cases size

theorem resize_iff_three : (1 ≤ 3 ∧ Called 3 0 (⟨0,2,2,[some 0,some 0]⟩ : VectorType Nat) ∧ 2 < 2 ^ 64 ∧ 1 < 2 ^ 64) ∧
    (Resizes 3 (⟨0,2,2,[some 0,some 0]⟩ : VectorType Nat) 1 ↔ 1 ≤ 2 ∨ 2 = 0 ∧ 2 ^ 64 ≤ 0 + 1) :=
  have called : Called 3 0 (⟨0,2,2,[some 0,some 0]⟩ : VectorType Nat) := .init 2 (by decide)
  ⟨⟨by decide,called,by decide,by decide⟩,resize_iff 3 (by decide) 0 ⟨0,2,2,[some 0,some 0]⟩ called (by decide) 1 (by decide)⟩

end

end Htools.Vector
