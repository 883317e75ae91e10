import Htools.Machine

/-!
# Runs

A run applies operations one after the other to a state, as far as they return.
`Along` is a condition on every step of a run and `Reached` the states that it
comes to. What a step keeps under the condition, a run keeps (`steps_total`),
also when it is compared with the operations on an abstract state.
-/
namespace Htools.Runs

variable {σ ω μ : Type} {step : σ → ω → Except Stop σ} {a b : σ} {op : ω} {ops : List ω} {P : σ → ω → Prop}

def steps (step : σ → ω → Except Stop σ) (a : σ) : List ω → Except Stop σ
  | [] => .ok a
  | op :: rest => do
    let b ← step a op
    steps step b rest

/-- Every operation of a run meets the condition in the state in which it is called. -/
def Along (step : σ → ω → Except Stop σ) (P : σ → ω → Prop) : σ → List ω → Prop
  | _, [] => True
  | a, op :: rest => P a op ∧ ∀ b, step a op = .ok b → Along step P b rest

/-- A state at the beginning of a run or after one of its operations. -/
def Reached (step : σ → ω → Except Stop σ) (a : σ) (ops : List ω) (b : σ) : Prop :=
  ∃ done rest, ops = done ++ rest ∧ steps step a done = .ok b

theorem steps_cons_iff : steps step a (op :: ops) = .ok b ↔ ∃ c, step a op = .ok c ∧ steps step c ops = .ok b :=
  bind_ok_iff

theorem steps_append_iff {more : List ω} : steps step a (ops ++ more) = .ok b ↔ ∃ c, steps step a ops = .ok c ∧ steps step c more = .ok b := by
  induction ops generalizing a with
  | nil =>
    constructor
    · intro run
      exact ⟨a,rfl,run⟩
    · rintro ⟨c,start,run⟩
      cases start
      exact run
  | cons op ops ih =>
    rw [List.cons_append,steps_cons_iff]
    constructor
    · rintro ⟨d,first,later⟩
      obtain ⟨c,run,rest⟩ := ih.mp later
      exact ⟨c,steps_cons_iff.mpr ⟨d,first,run⟩,rest⟩
    · rintro ⟨c,run,rest⟩
      obtain ⟨d,first,later⟩ := steps_cons_iff.mp run
      exact ⟨d,first,ih.mpr ⟨c,later,rest⟩⟩

theorem reached_nil_iff : Reached step a [] b ↔ b = a := by
  constructor
  · rintro ⟨done,rest,split,run⟩
    obtain ⟨rfl,rfl⟩ := List.append_eq_nil_iff.mp split.symm
    cases run
    rfl
  · rintro rfl
    exact ⟨[],[],rfl,rfl⟩

theorem reached_cons_iff : Reached step a (op :: ops) b ↔ b = a ∨ ∃ c, step a op = .ok c ∧ Reached step c ops b := by
  constructor
  · rintro ⟨done,rest,split,run⟩
    cases done with
    | nil =>
      cases run
      exact .inl rfl
    | cons first done =>
      rw [List.cons_append,List.cons.injEq] at split
      obtain ⟨rfl,rfl⟩ := split
      obtain ⟨c,first,later⟩ := steps_cons_iff.mp run
      exact .inr ⟨c,first,done,rest,rfl,later⟩
  · rintro (rfl | ⟨c,first,done,rest,rfl,run⟩)
    · exact ⟨[],op :: ops,rfl,rfl⟩
    · exact ⟨op :: done,rest,rfl,steps_cons_iff.mpr ⟨c,first,run⟩⟩

/-- What every step keeps holds of all states that a run comes to. -/
theorem reached_keeps {I : σ → Prop} (keeps : ∀ a op b, I a → step a op = .ok b → I b) :
    ∀ {ops : List ω} {a : σ}, I a → Reached step a ops b → I b := by
  intro ops
  induction ops with
  | nil =>
    intro a held reached
    rw [reached_nil_iff.mp reached]
    exact held
  | cons op rest ih =>
    intro a held reached
    rcases reached_cons_iff.mp reached with rfl | ⟨c,first,later⟩
    · exact held
    · exact ih (keeps a op c held first) later

/-- Steps that return and agree with those on an abstract state make up a run
    that does. -/
theorem steps_total {I : σ → μ → Prop} {f : μ → ω → μ}
    (one : ∀ a m op, I a m → P a op → ∃ b, step a op = .ok b ∧ I b (f m op)) :
    ∀ {ops : List ω} {a : σ} {m : μ}, I a m → Along step P a ops →
      ∃ b, steps step a ops = .ok b ∧ I b (ops.foldl f m) := by
  intro ops
  induction ops with
  | nil => intro a m held _; exact ⟨a,rfl,held⟩
  | cons op rest ih =>
    rintro a m held ⟨allowed,later⟩
    obtain ⟨b,first,heldB⟩ := one a m op held allowed
    obtain ⟨c,run,heldC⟩ := ih heldB (later b first)
    exact ⟨c,steps_cons_iff.mpr ⟨b,first,run⟩,heldC⟩

/-- The same where the condition is on the abstract states, which the operations
    on them go through by themselves. -/
theorem steps_refine {I : σ → μ → Prop} {f : μ → ω → μ} {P : μ → ω → Prop}
    (one : ∀ a m op, I a m → P m op → ∃ b, step a op = .ok b ∧ I b (f m op)) :
    ∀ {ops : List ω} {a : σ} {m : μ}, I a m → Along (fun m op => .ok (f m op)) P m ops →
      ∃ b, steps step a ops = .ok b ∧ I b (ops.foldl f m) := by
  intro ops
  induction ops with
  | nil => intro a m held _; exact ⟨a,rfl,held⟩
  | cons op rest ih =>
    rintro a m held ⟨allowed,later⟩
    obtain ⟨b,first,heldB⟩ := one a m op held allowed
    obtain ⟨c,run,heldC⟩ := ih heldB (later _ rfl)
    exact ⟨c,steps_cons_iff.mpr ⟨b,first,run⟩,heldC⟩

theorem along_cons_iff {f : μ → ω → μ} {P : μ → ω → Prop} {m : μ} :
    Along (fun m op => .ok (f m op)) P m (op :: ops) ↔ P m op ∧ Along (fun m op => .ok (f m op)) P (f m op) ops := by
  constructor
  · rintro ⟨first,later⟩
    exact ⟨first,later _ rfl⟩
  · rintro ⟨first,later⟩
    refine ⟨first,?_⟩
    rintro _ ⟨⟩
    exact later

/-- The condition on a longer run of operations on an abstract state. -/
theorem along_append {f : μ → ω → μ} {P : μ → ω → Prop} {ops more : List ω} {m : μ} :
    Along (fun m op => .ok (f m op)) P m (ops ++ more) ↔
      Along (fun m op => .ok (f m op)) P m ops ∧ Along (fun m op => .ok (f m op)) P (ops.foldl f m) more := by
  induction ops generalizing m with
  | nil => exact (and_iff_right trivial).symm
  | cons op ops ih => rw [List.cons_append,along_cons_iff,along_cons_iff,ih,and_assoc,List.foldl_cons]

theorem along_map {κ : Type} {f : κ → ω} {a : σ} {l : List κ} :
    Along step P a (l.map f) ↔ Along (fun a x => step a (f x)) (fun a x => P a (f x)) a l := by
  induction l generalizing a with
  | nil => rfl
  | cons x l ih => exact and_congr Iff.rfl (forall_congr' fun b => imp_congr_right fun _ => ih)

/-- Steps that return and keep an invariant make up a run that does, with whatever
    holds of each of them. -/
theorem along_total {I : σ → Prop} {E : σ → ω → Prop}
    (one : ∀ a op, I a → P a op → (∃ b, step a op = .ok b ∧ I b) ∧ E a op) :
    ∀ {ops : List ω} {a : σ}, I a → Along step P a ops →
      (∃ b, steps step a ops = .ok b) ∧ (∀ b, Reached step a ops b → I b) ∧ Along step E a ops := by
  intro ops
  induction ops with
  | nil =>
    intro a held _
    refine ⟨⟨a,rfl⟩,fun b reached => ?_,trivial⟩
    rw [reached_nil_iff.mp reached]
    exact held
  | cons op rest ih =>
    rintro a held ⟨allowed,later⟩
    obtain ⟨⟨b,first,heldB⟩,fair⟩ := one a op held allowed
    obtain ⟨⟨c,run⟩,all,along⟩ := ih heldB (later b first)
    refine ⟨⟨c,steps_cons_iff.mpr ⟨b,first,run⟩⟩,?_,fair,?_⟩
    · intro d reached
      rcases reached_cons_iff.mp reached with rfl | ⟨e,first',reached'⟩
      · exact held
      · rw [first] at first'
        cases first'
        exact all d reached'
    · intro d first'
      rw [first] at first'
      cases first'
      exact along

theorem along_and {E : σ → ω → Prop} : ∀ {ops : List ω} {a : σ},
    Along step (fun a op => P a op ∧ E a op) a ops ↔ Along step P a ops ∧ Along step E a ops := by
  intro ops
  induction ops with
  | nil => exact ⟨fun _ => ⟨trivial,trivial⟩,fun _ => trivial⟩
  | cons op rest ih =>
    intro a
    constructor
    · rintro ⟨⟨first,fair⟩,later⟩
      exact ⟨⟨first,fun b run => (ih.mp (later b run)).1⟩,fair,fun b run => (ih.mp (later b run)).2⟩
    · rintro ⟨⟨first,later⟩,fair,later'⟩
      exact ⟨⟨first,fair⟩,fun b run => ih.mpr ⟨later b run,later' b run⟩⟩

/-- Where the condition is what it takes for the next state to be good and the
    step to be fair, it is what it takes in a whole run. -/
theorem reached_along_iff {I Q : σ → Prop} {E : σ → ω → Prop}
    (keeps : ∀ a op b, I a → P a op → step a op = .ok b → I b)
    (one : ∀ a op, I a → Q a → (((∀ b, step a op = .ok b → Q b) ∧ E a op) ↔ P a op)) :
    ∀ {ops : List ω} {a : σ}, I a → Q a → (((∀ b, Reached step a ops b → Q b) ∧ Along step E a ops) ↔
      Along step P a ops) := by
  intro ops
  induction ops with
  | nil =>
    intro a _ good
    refine ⟨fun _ => trivial,fun _ => ⟨?_,trivial⟩⟩
    rintro b reached
    rw [reached_nil_iff.mp reached]
    exact good
  | cons op rest ih =>
    intro a held good
    constructor
    · rintro ⟨all,fair,later⟩
      have next : ∀ b, step a op = .ok b → Q b := fun b first =>
        all b (reached_cons_iff.mpr (.inr ⟨b,first,[],rest,rfl,rfl⟩))
      have allowed := (one a op held good).mp ⟨next,fair⟩
      refine ⟨allowed,?_⟩
      intro b first
      refine (ih (keeps a op b held allowed first) (next b first)).mp ⟨?_,later b first⟩
      intro c reached
      exact all c (reached_cons_iff.mpr (.inr ⟨b,first,reached⟩))
    · rintro ⟨allowed,later⟩
      obtain ⟨next,fair⟩ := (one a op held good).mpr allowed
      refine ⟨?_,fair,?_⟩
      · intro b reached
        obtain rfl | ⟨c,first,rest⟩ := reached_cons_iff.mp reached
        · exact good
        · exact ((ih (keeps a op c held allowed first) (next c first)).mpr (later c first)).1 b rest
      · intro c first
        exact ((ih (keeps a op c held allowed first) (next c first)).mpr (later c first)).2

/-- A run that returns is one that leaves out the operations which a relation to
    the shorter run does not see. -/
theorem steps_filter {R : σ → σ → Prop} {own : ω → Bool}
    (mine : ∀ a c op b, R a c → own op → step a op = .ok b → ∃ d, step c op = .ok d ∧ R b d)
    (other : ∀ a c op b, R a c → ¬own op → step a op = .ok b → R b c) :
    ∀ {ops : List ω} {a b c : σ}, R a c → steps step a ops = .ok b →
      ∃ d, steps step c (ops.filter own) = .ok d ∧ R b d := by
  intro ops
  induction ops with
  | nil =>
    intro a b c related run
    cases run
    exact ⟨c,rfl,related⟩
  | cons op rest ih =>
    intro a b c related run
    obtain ⟨next,first,later⟩ := steps_cons_iff.mp run
    by_cases seen : own op
    · obtain ⟨d,first',related'⟩ := mine a c op next related seen first
      obtain ⟨e,run',related''⟩ := ih related' later
      refine ⟨e,?_,related''⟩
      rw [List.filter_cons_of_pos seen]
      exact steps_cons_iff.mpr ⟨d,first',run'⟩
    · obtain ⟨e,run',related''⟩ := ih (other a c op next related seen first) later
      refine ⟨e,?_,related''⟩
      rw [List.filter_cons_of_neg seen]
      exact run'

/-- Conditions that agree in all states that a run can come to agree on the run. -/
theorem along_iff {I : σ → Prop} {E : σ → ω → Prop} (keeps : ∀ a op b, I a → step a op = .ok b → I b)
    (one : ∀ a op, I a → (E a op ↔ P a op)) {ops : List ω} : ∀ {a : σ}, I a → (Along step E a ops ↔ Along step P a ops) := by
  induction ops with
  | nil => exact fun _ => Iff.rfl
  | cons op rest ih =>
    intro a held
    refine and_congr (one a op held) (forall_congr' fun b => ?_)
    exact forall_congr' fun first => ih (keeps a op b held first)

/-- The same where every step is fair. -/
theorem reached_iff {I Q : σ → Prop} (keeps : ∀ a op b, I a → P a op → step a op = .ok b → I b)
    (one : ∀ a op, I a → Q a → ((∀ b, step a op = .ok b → Q b) ↔ P a op)) {ops : List ω} {a : σ} (held : I a) (good : Q a) :
    (∀ b, Reached step a ops b → Q b) ↔ Along step P a ops := by
  have fair : ∀ {ops : List ω} {a : σ}, Along step (fun _ _ => True) a ops := by
    intro ops
    induction ops with
    | nil => exact trivial
    | cons op rest ih => exact ⟨trivial,fun b _ => ih⟩
  rw [← reached_along_iff (E := fun _ _ => True) keeps (fun a op held good => by
    rw [and_iff_left trivial]
    exact one a op held good) held good]
  exact (and_iff_left fair).symm

end Htools.Runs
