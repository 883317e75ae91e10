import Mathlib.Logic.Function.Basic

/-!
# Owned slots

Slots hold objects, objects own slots, and every object has the slot that holds
it recorded. Where the two agree (`Linked`) an object is in one slot at most,
and the way to it from a slot without an owner is the only one (`path_unique`):
what is below such a slot is a tree. `below_mem` is the rule for what is below
a slot.
-/
namespace Htools.Ownership

variable {S O : Type} {holds later owner : S → Option O} {parent : O → Option S} {s t : S} {o u : O}
  {way other : List S}

/-- A slot holds an object exactly if it is the one that the object has recorded. -/
def Linked (holds : S → Option O) (parent : O → Option S) : Prop :=
  ∀ s o, holds s = some o ↔ parent o = some s

/-- The slots on the way from a slot to an object, from the last one on. -/
inductive Path (holds owner : S → Option O) (s : S) : List S → O → Prop where
  | first {o : O} (here : holds s = some o) : Path holds owner s [s] o
  | under {way : List S} {o u : O} {t : S} (above : Path holds owner s way o) (owned : owner t = some o)
      (here : holds t = some u) : Path holds owner s (t :: way) u

def Below (holds owner : S → Option O) (s : S) (o : O) : Prop :=
  ∃ way, Path holds owner s way o

theorem Linked.attach [DecidableEq S] [DecidableEq O] (linked : Linked holds parent) (empty : holds s = none)
    (free : parent o = none) :
    Linked (Function.update holds s (some o)) (Function.update parent o (some s)) := by
  intro t u
  by_cases slot : t = s
  · subst slot
    by_cases same : u = o
    · subst same
      simp
    · have apart : parent u ≠ some t := fun held => by
        rw [(linked t u).mpr held] at empty
        cases empty
      simp [Function.update_of_ne same,apart,Ne.symm same]
  · by_cases same : u = o
    · subst same
      have apart : holds t ≠ some u := fun held => by
        rw [(linked t u).mp held] at free
        cases free
      simp [Function.update_of_ne slot,apart,Ne.symm slot]
    · simp only [Function.update_of_ne slot,Function.update_of_ne same]
      exact linked t u

theorem Linked.detach [DecidableEq S] [DecidableEq O] (linked : Linked holds parent) (held : parent o = some s) :
    Linked (Function.update holds s none) (Function.update parent o none) := by
  have content := (linked s o).mpr held
  intro t u
  by_cases slot : t = s
  · subst slot
    by_cases same : u = o
    · subst same
      simp
    · have apart : parent u ≠ some t := fun other => by
        rw [(linked t u).mpr other] at content
        exact same (Option.some.inj content)
      simp [Function.update_of_ne same,apart]
  · by_cases same : u = o
    · subst same
      have apart : holds t ≠ some u := fun other => by
        rw [(linked t u).mp other] at held
        exact slot (Option.some.inj held)
      simp [Function.update_of_ne slot,apart]
    · simp only [Function.update_of_ne slot,Function.update_of_ne same]
      exact linked t u

theorem Below.held (here : holds s = some o) : Below holds owner s o := ⟨[s],.first here⟩

theorem Below.step (above : Below holds owner s o) (owned : owner t = some o) (here : holds t = some u) :
    Below holds owner s u := by
  obtain ⟨way,path⟩ := above
  exact ⟨t :: way,.under path owned here⟩

/-- What has the object in the slot, and with an object all that its slots hold,
    has everything below the slot. -/
theorem below_mem {D : O → Prop} (first : ∀ o, holds s = some o → D o)
    (next : ∀ o t u, D o → owner t = some o → holds t = some u → D u) (below : Below holds owner s o) : D o := by
  obtain ⟨way,path⟩ := below
  induction path with
  | first here => exact first _ here
  | under above owned here ih => exact next _ _ _ ih owned here

/-- What is below a slot of an object that is below another one is below that one. -/
theorem Below.trans (above : Below holds owner s o) (owned : owner t = some o) (below : Below holds owner t u) :
    Below holds owner s u :=
  below_mem (fun _ here => above.step owned here) (fun _ _ _ found owned here => found.step owned here) below

/-- Slots that are emptied leave less below a slot. -/
theorem Below.mono (fewer : ∀ t u, later t = some u → holds t = some u) (below : Below later owner s o) :
    Below holds owner s o :=
  below_mem (fun _ here => .held (fewer _ _ here)) (fun _ _ _ found owned here => found.step owned (fewer _ _ here)) below

/-- What is below a slot is in a slot. -/
theorem Below.slot (below : Below holds owner s o) : ∃ t, holds t = some o := by
  obtain ⟨way,path⟩ := below
  cases path with
  | first here => exact ⟨s,here⟩
  | under above owned here => exact ⟨_,here⟩

/-- A slot with something below it is not empty. -/
theorem Below.filled (below : Below holds owner s o) : ∃ u, holds s = some u := by
  obtain ⟨way,path⟩ := below
  induction path with
  | first here => exact ⟨_,here⟩
  | under _ _ _ ih => exact ih

/-- There is one way from a slot without an owner to an object. -/
theorem path_unique (linked : Linked holds parent) (top : owner s = none) (path : Path holds owner s way o)
    (again : Path holds owner s other o) : way = other := by
  induction path generalizing other with
  | first here =>
    have recorded := (linked _ _).mp here
    cases again with
    | first _ => rfl
    | under above owned here' =>
      rw [(linked _ _).mp here'] at recorded
      cases recorded
      rw [top] at owned
      cases owned
  | under above owned here ih =>
    have recorded := (linked _ _).mp here
    cases again with
    | first here' =>
      rw [(linked _ _).mp here'] at recorded
      cases recorded
      rw [top] at owned
      cases owned
    | under above' owned' here' =>
      rw [(linked _ _).mp here'] at recorded
      cases recorded
      rw [owned] at owned'
      cases owned'
      rw [ih above']

/-- The slots on the way are not empty. -/
theorem Path.filled (path : Path holds owner s way o) : ∀ t ∈ way,∃ u,holds t = some u := by
  induction path with
  | first here =>
    intro t member
    obtain rfl := List.mem_singleton.mp member
    exact ⟨_,here⟩
  | under _ _ here ih =>
    intro t member
    obtain rfl | member := List.mem_cons.mp member
    · exact ⟨_,here⟩
    · exact ih t member

/-- No object is met twice on the way. -/
theorem path_nodup (linked : Linked holds parent) (top : owner s = none) (path : Path holds owner s way o) :
    (way.map holds).Nodup := by
  have longer : ∀ {way o},Path holds owner s way o → ∀ {u},some u ∈ way.map holds →
      ∃ part,Path holds owner s part u ∧ part.length ≤ way.length := by
    intro way o path
    induction path with
    | first here =>
      intro u member
      rw [List.map_singleton,List.mem_singleton,here] at member
      cases member
      exact ⟨_,.first here,Nat.le_refl _⟩
    | under above owned here ih =>
      intro u member
      rw [List.map_cons,here] at member
      obtain same | member := List.mem_cons.mp member
      · cases same
        exact ⟨_,.under above owned here,Nat.le_refl _⟩
      · obtain ⟨part,partial_,le⟩ := ih member
        exact ⟨part,partial_,Nat.le_succ_of_le le⟩
  induction path with
  | first here => exact List.nodup_cons.mpr ⟨List.not_mem_nil,List.nodup_nil⟩
  | under above owned here ih =>
    rw [List.map_cons,List.nodup_cons]
    refine ⟨?_,ih⟩
    rw [here]
    intro member
    obtain ⟨part,partial_,le⟩ := longer above member
    have same := congrArg List.length (path_unique linked top partial_ (.under above owned here))
    rw [List.length_cons] at same
    omega

theorem Path.trans (above : Path holds owner s way o) (owned : owner t = some o) (below : Path holds owner t other u) :
    Path holds owner s (other ++ way) u := by
  induction below with
  | first here => exact .under above owned here
  | under _ owned' here ih => exact .under ih owned' here

/-- The way ends with the slot that it begins at. -/
theorem Path.ends (path : Path holds owner s way o) : ∃ front,way = front ++ [s] := by
  induction path with
  | first _ => exact ⟨[],rfl⟩
  | under _ _ _ ih =>
    obtain ⟨front,rfl⟩ := ih
    exact ⟨_ :: front,rfl⟩

/-- An object is not below itself. -/
theorem below_ne (linked : Linked holds parent) (top : owner s = none) (path : Path holds owner s way o)
    (owned : owner t = some o) (below : Below holds owner t u) : u ≠ o := by
  rintro rfl
  obtain ⟨part,under⟩ := below
  obtain ⟨front,rfl⟩ := under.ends
  have same := congrArg List.length (path_unique linked top path (path.trans owned under))
  rw [List.length_append,List.length_append,List.length_singleton] at same
  omega

/-- An object is below one slot of another at most. -/
theorem below_unique (linked : Linked holds parent) (top : owner s = none) (path : Path holds owner s way o) {t' : S}
    (owned : owner t = some o) (owned' : owner t' = some o) (below : Below holds owner t u)
    (below' : Below holds owner t' u) : t = t' := by
  obtain ⟨part,under⟩ := below
  obtain ⟨part',under'⟩ := below'
  obtain ⟨front,rfl⟩ := under.ends
  obtain ⟨front',rfl⟩ := under'.ends
  have same := List.append_cancel_right (path_unique linked top (path.trans owned under) (path.trans owned' under'))
  exact List.head_eq_of_cons_eq (List.append_inj_right' same rfl)

end Htools.Ownership
