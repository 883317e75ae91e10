import Htools.Runs
import Mathlib.Data.List.Basic

/-!
# Programs with lists in memory

The loops from the first node of a list on go to the next one either after the body,
or as it was before the body. What the body keeps, with the nodes that have been
visited, holds at the end of the list. A program calls operations on a memory and sees
the nodes that their loops visit. Where each operation does to the memory what is meant
for the lists in it, the program sees what is meant (`runs_ok`).
-/
namespace Htools.ListPrograms
open Runs

variable {N μ σ : Type}

/-- `for (var = first; var != end; var = next(var))`. -/
def foreach (next : μ → N → Option N) (body : μ × σ → N → Except Stop (μ × σ)) : Nat → μ × σ → Option N → Except Stop (μ × σ)
  | _,s,none => .ok s
  | 0,_,some _ => .error .fuel
  | fuel + 1,s,some var => do
    let s ← body s var
    foreach next body fuel s (next s.1 var)

/-- `for (var = first; var != end && (tvar = next(var), 1); var = tvar)`. -/
def foreach_safe (next : μ → N → Option N) (body : μ × σ → N → Except Stop (μ × σ)) : Nat → μ × σ → Option N → Except Stop (μ × σ)
  | _,s,none => .ok s
  | 0,_,some _ => .error .fuel
  | fuel + 1,s,some var => do
    let tvar := next s.1 var
    let s ← body s var
    foreach_safe next body fuel s tvar

variable {next : μ → N → Option N} {body : μ × σ → N → Except Stop (μ × σ)} {l : List N} {fuel : Nat} {s : μ × σ}

theorem foreach_ok {I : List N → μ × σ → Prop}
    (one : ∀ A var B s, l = A ++ var :: B → I A s → ∃ s', body s var = .ok s' ∧ I (A ++ [var]) s' ∧ next s'.1 var = B.head?)
    (start : I [] s) (enough : l.length ≤ fuel) : ∃ s', foreach next body fuel s l.head? = .ok s' ∧ I l s' := by
  induction l generalizing fuel s I with
  | nil =>
    refine ⟨s,?_,start⟩
    cases fuel <;> rfl
  | cons var l ih =>
    cases fuel with
    | zero => exact absurd enough (by simp)
    | succ fuel =>
      obtain ⟨s',run,here,behind⟩ := one [] var l s rfl start
      obtain ⟨s'',rest,there⟩ := ih (I := fun A s => I (var :: A) s) (fun A x B s split held => one (var :: A) x B s
        (by rw [split,List.cons_append]) held) here (Nat.le_of_succ_le_succ enough)
      refine ⟨s'',?_,there⟩
      rw [List.head?_cons,foreach,run,ok_bind,behind]
      exact rest

theorem foreach_safe_ok {I : List N → μ × σ → Prop}
    (one : ∀ A var B s, l = A ++ var :: B → I A s → next s.1 var = B.head? ∧ ∃ s', body s var = .ok s' ∧ I (A ++ [var]) s')
    (start : I [] s) (enough : l.length ≤ fuel) : ∃ s', foreach_safe next body fuel s l.head? = .ok s' ∧ I l s' := by
  induction l generalizing fuel s I with
  | nil =>
    refine ⟨s,?_,start⟩
    cases fuel <;> rfl
  | cons var l ih =>
    cases fuel with
    | zero => exact absurd enough (by simp)
    | succ fuel =>
      obtain ⟨behind,s',run,here⟩ := one [] var l s rfl start
      obtain ⟨s'',rest,there⟩ := ih (I := fun A s => I (var :: A) s) (fun A x B s split held => one (var :: A) x B s
        (by rw [split,List.cons_append]) held) here (Nat.le_of_succ_le_succ enough)
      refine ⟨s'',?_,there⟩
      rw [List.head?_cons,foreach_safe,behind]
      simp only [run,ok_bind]
      exact rest

/-- The body that does nothing but note the nodes. -/
def visit (s : μ × List N) (var : N) : Except Stop (μ × List N) := .ok (s.1,s.2 ++ [var])

theorem foreach_visit {m : μ} (nexts : ∀ A var B, l = A ++ var :: B → next m var = B.head?) (enough : l.length ≤ fuel) :
    foreach next visit fuel (m,[]) l.head? = .ok (m,l) := by
  have one : ∀ A var B (s : μ × List N), l = A ++ var :: B → s = (m,A) →
      ∃ s', visit s var = .ok s' ∧ s' = (m,A ++ [var]) ∧ next s'.1 var = B.head? := by
    rintro A var B s split rfl
    exact ⟨(m,A ++ [var]),rfl,rfl,nexts A var B split⟩
  obtain ⟨s,run,rfl⟩ := foreach_ok (I := fun A s => s = (m,A)) one rfl enough
  exact run

/-- The body that takes some of the nodes out, and notes all. -/
def remove_where (remove : μ → N → Except Stop μ) (p : N → Bool) (s : μ × List N) (var : N) : Except Stop (μ × List N) := do
  let m ← if p var then remove s.1 var else .ok s.1
  return (m,s.2 ++ [var])

/-- Taking nodes out does not harm the safe loop. -/
theorem foreach_safe_remove {S : μ → List N → Prop} {remove : μ → N → Except Stop μ}
    (nexts : ∀ m A var B, S m (A ++ var :: B) → next m var = B.head?)
    (removes : ∀ m A var B, S m (A ++ var :: B) → ∃ m', remove m var = .ok m' ∧ S m' (A ++ B))
    (p : N → Bool) {m : μ} (stored : S m l) (enough : l.length ≤ fuel) :
    ∃ m', foreach_safe next (remove_where remove p) fuel (m,[]) l.head? = .ok (m',l) ∧ S m' (l.filter fun z => !p z) := by
  have one : ∀ A var B (s : μ × List N), l = A ++ var :: B →
      (s.2 = A ∧ ∀ B, l = A ++ B → S s.1 (A.filter (fun z => !p z) ++ B)) →
      next s.1 var = B.head? ∧ ∃ s', remove_where remove p s var = .ok s' ∧
        (s'.2 = A ++ [var] ∧ ∀ B, l = (A ++ [var]) ++ B → S s'.1 ((A ++ [var]).filter (fun z => !p z) ++ B)) := by
    rintro A var B ⟨m,log⟩ split ⟨rfl,held⟩
    have here := held (var :: B) split
    have rest : ∀ C, l = (log ++ [var]) ++ C → C = B := fun C split' => by
      rw [split,List.append_assoc] at split'
      exact (List.cons.inj (List.append_cancel_left split')).2.symm
    refine ⟨nexts m _ var B here,?_⟩
    by_cases out : p var
    · obtain ⟨m',run,stored'⟩ := removes m _ var B here
      refine ⟨(m',log ++ [var]),?_,rfl,fun C split' => ?_⟩
      · rw [remove_where,if_pos out,run]
        rfl
      · rw [rest C split',List.filter_append,List.filter_cons_of_neg (by simp [out]),List.filter_nil,List.append_nil]
        exact stored'
    · refine ⟨(m,log ++ [var]),?_,rfl,fun C split' => ?_⟩
      · rw [remove_where,if_neg out]
        rfl
      · rw [rest C split',List.filter_append,List.filter_cons_of_pos (by simp [out]),List.filter_nil,List.append_assoc]
        exact here
  have start : ∀ B, l = [] ++ B → S m (([] : List N).filter (fun z => !p z) ++ B) := by
    rintro B rfl
    exact stored
  obtain ⟨⟨m',log⟩,run,rfl,held⟩ := foreach_safe_ok (s := (m,[]))
    (I := fun A s => s.2 = A ∧ ∀ B, l = A ++ B → S s.1 (A.filter (fun z => !p z) ++ B)) one ⟨rfl,start⟩ enough
  refine ⟨m',run,?_⟩
  have all := held [] (List.append_nil _).symm
  rwa [List.append_nil] at all

/-! ### Programs -/

/-- What a program has: the memory, and what its calls have returned. -/
structure Program (μ ρ : Type) where
  memory : μ
  results : List ρ

/-- What it is meant to have: the list of each head, and the results. -/
structure Lists (H N ρ : Type) where
  nodes : H → List N
  results : List ρ

section
variable {H κ ρ : Type} (run : μ → κ → Except Stop (μ × ρ)) (meant : (H → List N) → κ → (H → List N) × ρ)

def step (p : Program μ ρ) (call : κ) : Except Stop (Program μ ρ) := do
  let (m,res) ← run p.memory call
  return ⟨m,p.results ++ [res]⟩

def meant_step (s : Lists H N ρ) (call : κ) : Lists H N ρ := ⟨(meant s.nodes call).1,s.results ++ [(meant s.nodes call).2]⟩

/-- All heads have empty lists first. -/
def meant_all (calls : List κ) : Lists H N ρ := calls.foldl (meant_step meant) ⟨fun _ => [],[]⟩

/-- Each call of a program is allowed when it comes. -/
def AllAllowed (allowed : (H → List N) → κ → Prop) (calls : List κ) : Prop :=
  Along (fun s call => .ok (meant_step meant s call)) (fun s => allowed s.nodes) ⟨fun _ => [],[]⟩ calls

variable {run meant}

/-- Calls that are those of another program in disguise see what these are meant to see. -/
theorem runs_refine {κ' ρ' : Type} {run : μ → κ' → Except Stop (μ × ρ')} (plain : κ' → κ) (code : ρ → ρ')
    {S : μ → (H → List N) → Prop} {allowed : (H → List N) → κ → Prop}
    (one : ∀ m nodes call, S m nodes → allowed nodes (plain call) →
      ∃ m', run m call = .ok (m',code (meant nodes (plain call)).2) ∧ S m' (meant nodes (plain call)).1)
    {m : μ} (start : S m fun _ => []) {calls : List κ'} (all : AllAllowed meant allowed (calls.map plain)) :
    ∃ p, steps (step run) ⟨m,[]⟩ calls = .ok p ∧ p.results = (meant_all meant (calls.map plain)).results.map code ∧
      S p.memory (meant_all meant (calls.map plain)).nodes := by
  have one' : ∀ (p : Program μ ρ') (s : Lists H N ρ) (call : κ'), S p.memory s.nodes ∧ p.results = s.results.map code →
      allowed s.nodes (plain call) → ∃ q, step run p call = .ok q ∧ S q.memory (meant_step meant s (plain call)).nodes ∧
        q.results = (meant_step meant s (plain call)).results.map code := by
    rintro p s call ⟨stored,same⟩ permitted
    obtain ⟨m',ran,stored'⟩ := one p.memory s.nodes call stored permitted
    refine ⟨⟨m',p.results ++ [code (meant s.nodes (plain call)).2]⟩,?_,stored',?_⟩
    · rw [step,ran]
      rfl
    · rw [same,meant_step,List.map_append]
      rfl
  obtain ⟨p,done,stored,same⟩ := steps_refine (a := ⟨m,[]⟩) one' ⟨start,rfl⟩ (along_map.mp all)
  rw [meant_all,List.foldl_map]
  exact ⟨p,done,same,stored⟩

theorem runs_ok {S : μ → (H → List N) → Prop} {allowed : (H → List N) → κ → Prop}
    (one : ∀ m nodes call, S m nodes → allowed nodes call →
      ∃ m', run m call = .ok (m',(meant nodes call).2) ∧ S m' (meant nodes call).1)
    {m : μ} (start : S m fun _ => []) {calls : List κ} (all : AllAllowed meant allowed calls) :
    ∃ p, steps (step run) ⟨m,[]⟩ calls = .ok p ∧ p.results = (meant_all meant calls).results ∧
      S p.memory (meant_all meant calls).nodes := by
  rw [← List.map_id calls] at all
  have refined := runs_refine id id one start all
  rwa [List.map_id,List.map_id] at refined

end

end Htools.ListPrograms
