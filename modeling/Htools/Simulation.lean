import Htools.Machine

/-!
# Simulation

One computation on two kinds of states. `Simulates` says that the computations
return the same value, or stop with the same error, and leave related states
whenever they start in related states; the rules follow the way in which
computations are put together. The second one may also give up, with an error
of `Out`, and say nothing about the first.
-/
namespace Htools.Simulation

variable {ε σ τ α β : Type}

theorem bind_ok {x : EStateM ε σ α} {f : α → EStateM ε σ β} {a b : σ} {r : α} (run : x a = .ok r b) :
    (x >>= f) a = f r b := by
  simp only [bind,EStateM.bind,run]

theorem bind_error {x : EStateM ε σ α} {f : α → EStateM ε σ β} {a b : σ} {e : ε} (run : x a = .error e b) :
    (x >>= f) a = .error e b := by
  simp only [bind,EStateM.bind,run]

theorem bind_eq_ok_iff {x : EStateM ε σ α} {f : α → EStateM ε σ β} {a b : σ} {r : β} :
    (x >>= f) a = .ok r b ↔ ∃ v c, x a = .ok v c ∧ f v c = .ok r b := by
  constructor
  · intro run
    cases first : x a with
    | ok v c =>
      rw [bind_ok first] at run
      exact ⟨v,c,rfl,run⟩
    | error e c =>
      rw [bind_error first] at run
      cases run
  · rintro ⟨v,c,first,rest⟩
    rw [bind_ok first,rest]

theorem bind_eq_error_iff {x : EStateM ε σ α} {f : α → EStateM ε σ β} {a b : σ} {e : ε} :
    (x >>= f) a = .error e b ↔ x a = .error e b ∨ ∃ v c, x a = .ok v c ∧ f v c = .error e b := by
  cases first : x a with
  | ok v c =>
    rw [bind_ok first]
    constructor
    · exact fun rest => .inr ⟨v,c,rfl,rest⟩
    · rintro (absurd | ⟨v',c',same,rest⟩)
      · cases absurd
      · cases same
        exact rest
  | error stop c => simp [bind_error first]

/-- The same value in states related by `Q`, or the same error in states related by `E`. -/
def Agree (Out : ε → Prop) (E : σ → τ → Prop) (Q : α → σ → τ → Prop) : EStateM.Result ε σ α → EStateM.Result ε τ α → Prop
  | .ok r a,.ok s b => r = s ∧ Q r a b
  | .error e a,.error f b => Out f ∨ e = f ∧ E a b
  | .ok _ _,.error f _ => Out f
  | .error _ _,.ok _ _ => False

def Simulates (Out : ε → Prop) (E : σ → τ → Prop) (P : σ → τ → Prop) (x : EStateM ε σ α) (y : EStateM ε τ α)
    (Q : α → σ → τ → Prop) : Prop :=
  ∀ a b, P a b → Agree Out E Q (x a) (y b)

variable {Out : ε → Prop} {E P P' : σ → τ → Prop} {Q Q' : α → σ → τ → Prop} {x : EStateM ε σ α} {y : EStateM ε τ α}

theorem simulates_pre (sim : Simulates Out E P x y Q) (pre : ∀ a b, P' a b → P a b) : Simulates Out E P' x y Q :=
  fun a b held => sim a b (pre a b held)

theorem agree_post {r : EStateM.Result ε σ α} {s : EStateM.Result ε τ α} (agree : Agree Out E Q r s)
    (post : ∀ v a b, Q v a b → Q' v a b) : Agree Out E Q' r s := by
  cases r <;> cases s
  · exact ⟨agree.1,post _ _ _ agree.2⟩
  · exact agree
  · exact agree
  · exact agree

theorem simulates_post (sim : Simulates Out E P x y Q) (post : ∀ v a b, Q v a b → Q' v a b) : Simulates Out E P x y Q' :=
  fun a b held => agree_post (sim a b held) post

theorem simulates_pure {v : α} (held : ∀ a b, P a b → Q v a b) : Simulates Out E P (pure v) (pure v) Q :=
  fun a b pre => ⟨rfl,held a b pre⟩

theorem simulates_throw {e : ε} (held : ∀ a b, P a b → E a b) : Simulates Out E P (throw e : EStateM ε σ α) (throw e : EStateM ε τ α) Q :=
  fun a b pre => .inr ⟨rfl,held a b pre⟩

theorem agree_cases {r : EStateM.Result ε σ α} {s : EStateM.Result ε τ α} (agree : Agree Out E Q r s) :
    (∃ f b, s = .error f b ∧ Out f) ∨ (∃ v a b, r = .ok v a ∧ s = .ok v b ∧ Q v a b) ∨
      ∃ e a b, r = .error e a ∧ s = .error e b ∧ E a b := by
  cases r with
  | ok v a =>
    cases s with
    | ok w b =>
      obtain ⟨rfl,post⟩ := agree
      exact .inr (.inl ⟨v,a,b,rfl,rfl,post⟩)
    | error f b => exact .inl ⟨f,b,rfl,agree⟩
  | error e a =>
    cases s with
    | ok w b => exact agree.elim
    | error f b =>
      obtain out | ⟨rfl,post⟩ := agree
      · exact .inl ⟨f,b,rfl,out⟩
      · exact .inr (.inr ⟨e,a,b,rfl,rfl,post⟩)

theorem agree_out {r : EStateM.Result ε σ α} {f : ε} {b : τ} (out : Out f) : Agree Out E Q r (.error f b) := by
  cases r with
  | ok v a => exact out
  | error e a => exact .inl out

/-- A computation agrees with itself. -/
theorem simulates_refl {x : EStateM ε σ α} {E : σ → σ → Prop} (refl : ∀ a, E a a) :
    Simulates Out E Eq x x fun _ => Eq := by
  rintro a _ rfl
  cases x a with
  | ok v b => exact ⟨rfl,rfl⟩
  | error e b => exact .inr ⟨rfl,refl b⟩

theorem agree_bind {f : α → EStateM ε σ β} {g : α → EStateM ε τ β} {R : β → σ → τ → Prop} {a : σ} {b : τ}
    (first : Agree Out E Q (x a) (y b)) (rest : ∀ v a b, Q v a b → Agree Out E R (f v a) (g v b)) :
    Agree Out E R ((x >>= f) a) ((y >>= g) b) := by
  cases resultX : x a with
  | ok v a' =>
    cases resultY : y b with
    | ok w b' =>
      rw [resultX,resultY] at first
      obtain ⟨rfl,post⟩ := first
      rw [bind_ok resultX,bind_ok resultY]
      exact rest v a' b' post
    | error f b' =>
      rw [resultX,resultY] at first
      rw [bind_error resultY]
      exact agree_out first
  | error e a' =>
    cases resultY : y b with
    | ok w b' =>
      rw [resultX,resultY] at first
      exact first.elim
    | error f b' =>
      rw [resultX,resultY] at first
      rw [bind_error resultX,bind_error resultY]
      exact first

theorem simulates_bind {f : α → EStateM ε σ β} {g : α → EStateM ε τ β} {R : β → σ → τ → Prop}
    (first : Simulates Out E P x y Q) (rest : ∀ v, Simulates Out E (Q v) (f v) (g v) R) :
    Simulates Out E P (x >>= f) (y >>= g) R := by
  intro a b pre
  exact agree_bind (first a b pre) (fun v a b post => rest v a b post)

theorem simulates_modify {f : σ → σ} {g : τ → τ} {R : σ → τ → Prop} (held : ∀ a b, P a b → R (f a) (g b)) :
    Simulates Out E P (modify f) (modify g) fun _ => R :=
  fun a b pre => ⟨rfl,held a b pre⟩

theorem simulates_ite {c : Prop} [Decidable c] {x' : EStateM ε σ α} {y' : EStateM ε τ α}
    (yes : c → Simulates Out E P x y Q) (no : ¬ c → Simulates Out E P x' y' Q) :
    Simulates Out E P (if c then x else x') (if c then y else y') Q := by
  by_cases held : c
  · rw [if_pos held,if_pos held]
    exact yes held
  · rw [if_neg held,if_neg held]
    exact no held

end Htools.Simulation
