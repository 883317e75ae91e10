import Mathlib.Data.Nat.Notation

/-!
How a modelled C function ends. A call returns a value, or stops for one of the
reasons of `Stop`; `Except Stop` carries both. Loops that the source leaves to
a condition run on fuel, and running out of it is a stop of its own, so that
"the call returns" always means that the loop has come to its end.
-/
namespace Htools

/-- Why a call does not return. -/
inductive Stop where
  /-- `exit(EXIT_FAILURE)`, also through `hutils_errx`. -/
  | exit
  /-- A failed assertion. -/
  | abort
  /-- A read or write outside of the memory it is meant for. -/
  | fault
  /-- The loop has not ended within its fuel. -/
  | fuel
  deriving DecidableEq, Repr

theorem ok_bind {ε α β : Type} (a : α) (f : α → Except ε β) : ((.ok a : Except ε α) >>= f) = f a := rfl

/-- A sequence of two calls returns where both do. -/
theorem bind_ok_iff {ε α β : Type} {x : Except ε α} {f : α → Except ε β} {b : β} :
    x >>= f = .ok b ↔ ∃ a, x = .ok a ∧ f a = .ok b := by
  cases x with
  | error stop => simp [bind,Except.bind]
  | ok a => simp [bind,Except.bind]

theorem map_ok_iff {ε α β : Type} {x : Except ε α} {f : α → β} {b : β} : f <$> x = .ok b ↔ ∃ a, x = .ok a ∧ f a = b := by
  cases x with
  | error stop => simp [Functor.map,Except.map]
  | ok a => simp [Functor.map,Except.map]

/-- It stops where the first call stops, or the second one does. -/
theorem bind_error_iff {ε α β : Type} {x : Except ε α} {f : α → Except ε β} {e : ε} :
    x >>= f = .error e ↔ x = .error e ∨ ∃ a, x = .ok a ∧ f a = .error e := by
  cases x with
  | error stop => simp [bind,Except.bind]
  | ok a => simp [bind,Except.bind]

/-! ### Loops with a variable that does not depend on the memory -/

section
variable {ε α σ μ : Type}

/-- The elements of a loop, with the value of the variable in front of each. -/
def threaded (next : σ → α → σ) : σ → List α → List (σ × α)
  | _,[] => []
  | s,a :: l => (s,a) :: threaded next (next s a) l

theorem threaded_append (next : σ → α → σ) (s : σ) (front back : List α) :
    threaded next s (front ++ back) = threaded next s front ++ threaded next (front.foldl next s) back := by
  induction front generalizing s with
  | nil => rfl
  | cons a front ih => rw [List.cons_append,threaded,threaded,ih,List.cons_append,List.foldl_cons]

theorem threaded_range (next : σ → Nat → σ) (s : σ) (n : Nat) :
    threaded next s (List.range n) = (List.range n).map fun i => ((List.range i).foldl next s,i) := by
  induction n with
  | zero => rfl
  | succ n ih =>
    rw [List.range_succ,threaded_append,ih,List.map_append]
    rfl

/-- The loop over the memory alone, and the last value of the variable. -/
theorem foldlM_thread {inv : μ → Prop} {f : μ × σ → α → Except ε (μ × σ)} {g : σ → α → μ → Except ε μ} {next : σ → α → σ}
    {l : List α} (step : ∀ m s,∀ a ∈ l,inv m → f (m,s) a = g s a m >>= fun m => .ok (m,next s a))
    (kept : ∀ m s,∀ a ∈ l,∀ m',inv m → g s a m = .ok m' → inv m') {m : μ} {s : σ} (here : inv m) :
    l.foldlM f (m,s) = (threaded next s l).foldlM (fun m call => g call.1 call.2 m) m >>= fun m => .ok (m,l.foldl next s) := by
  induction l generalizing m s with
  | nil => rfl
  | cons a l ih =>
    rw [List.foldlM_cons,step m s a List.mem_cons_self here,threaded,List.foldlM_cons,List.foldl_cons]
    cases called : g s a m with
    | error stop => rfl
    | ok m' =>
      exact ih (fun m s b there => step m s b (List.mem_cons_of_mem a there))
        (fun m s b there => kept m s b (List.mem_cons_of_mem a there)) (kept m s a List.mem_cons_self m' here called)

theorem foldlM_keeps {inv : μ → Prop} {f : μ → α → Except ε μ} {l : List α}
    (kept : ∀ m,∀ a ∈ l,∀ m',inv m → f m a = .ok m' → inv m') {m m' : μ} (here : inv m) (ran : l.foldlM f m = .ok m') : inv m' := by
  induction l generalizing m with
  | nil =>
    cases ran
    exact here
  | cons a l ih =>
    obtain ⟨m₁,first,rest⟩ := bind_ok_iff.mp ran
    exact ih (fun m b there => kept m b (List.mem_cons_of_mem a there)) (kept m a List.mem_cons_self m₁ here first) rest

/-- A loop whose steps can be taken by another. -/
theorem foldlM_follows {f g : μ → α → Except ε μ} (follows : ∀ m a m',f m a = .ok m' → g m a = .ok m') {l : List α} {m m' : μ}
    (ran : l.foldlM f m = .ok m') : l.foldlM g m = .ok m' := by
  induction l generalizing m with
  | nil => exact ran
  | cons a l ih =>
    obtain ⟨m₁,first,rest⟩ := bind_ok_iff.mp ran
    rw [List.foldlM_cons,follows m a m₁ first]
    exact ih rest

/-- A loop over the parts of a list is one over the whole list. -/
theorem foldlM_flatMap {β : Type} (parts : α → List β) (f : μ → β → Except ε μ) (l : List α) (m : μ) :
    (l.flatMap parts).foldlM f m = l.foldlM (fun m a => (parts a).foldlM f m) m := by
  induction l generalizing m with
  | nil => rfl
  | cons a l ih =>
    rw [List.flatMap_cons,List.foldlM_append,List.foldlM_cons]
    exact congrArg _ (funext ih)

end

end Htools
