import Mathlib.Data.List.Nodup
import Mathlib.Logic.Function.Basic

/-!
Lists whose elements have keys. A list in which no key stands twice is a map in the
order in which its keys came.
-/
namespace Htools.Keyed

section
variable {α κ : Type} {key : α → κ} {l : List α} {i : Nat} {x new : α} {f : α → α}

def OnePerKey (key : α → κ) (l : List α) : Prop := (l.map key).Nodup

theorem modify_map (same : ∀ x, key (f x) = key x) : ∀ {l : List α} {i : Nat},
    (l.modify i f).map key = l.map key := by
  intro l
  induction l with
  | nil => exact fun {i} => by rw [List.modify_nil]
  | cons y l ih =>
    intro i
    cases i with
    | zero => rw [List.modify_zero_cons,List.map_cons,List.map_cons,same]
    | succ i => rw [List.modify_succ_cons,List.map_cons,List.map_cons,ih]

theorem set_map (at_ : l[i]? = some x) (same : key new = key x) : (l.set i new).map key = l.map key := by
  rw [List.map_set,same]
  refine List.ext_getElem? fun j => ?_
  rw [List.getElem?_set]
  split
  · rename_i is
    obtain ⟨inside,rfl⟩ := List.getElem?_eq_some_iff.mp at_
    subst is
    rw [List.length_map,if_pos inside,List.getElem?_map,List.getElem?_eq_getElem inside]
    rfl
  · rfl

theorem distinct_set (distinct : OnePerKey key l) (at_ : l[i]? = some x) (same : key new = key x) :
    OnePerKey key (l.set i new) := by
  rw [OnePerKey,set_map at_ same]
  exact distinct

end

section
variable {α κ : Type} [DecidableEq κ] (key : α → κ)

/-- The element with a key. -/
def lookup (l : List α) (k : κ) : Option α := l.find? fun x => key x = k

def place (l : List α) (k : κ) : Option Nat := l.findIdx? fun x => key x = k

/-- The list with the element at the end, unless its key is there, and the place of the key. -/
def ensure (l : List α) (new : α) : List α × Nat :=
  match place key l (key new) with
  | some i => (l,i)
  | none => (l ++ [new],l.length)

section
variable {key} {l : List α} {i : Nat} {x new : α} {k : κ}

theorem lookup_none_iff : lookup key l k = none ↔ k ∉ l.map key := by
  simp [lookup]

theorem place_none_iff : place key l k = none ↔ lookup key l k = none := by
  simp [place,lookup]

/-- What stands at the place of a key has it. -/
theorem place_some (there : place key l k = some i) : ∃ x, l[i]? = some x ∧ key x = k ∧ lookup key l k = some x := by
  obtain ⟨inside,is,first⟩ := List.findIdx?_eq_some_iff_getElem.mp there
  refine ⟨l[i],List.getElem?_eq_getElem inside,of_decide_eq_true is,?_⟩
  rw [lookup,List.find?_eq_some_iff_getElem]
  exact ⟨is,i,inside,rfl,fun j less => by simpa using first j less⟩

theorem lookup_mem (found : lookup key l k = some x) : x ∈ l ∧ key x = k :=
  ⟨List.mem_of_find?_eq_some found,by simpa using List.find?_some found⟩

theorem lookup_some_iff (distinct : OnePerKey key l) : lookup key l k = some x ↔ x ∈ l ∧ key x = k := by
  refine ⟨lookup_mem,?_⟩
  rintro ⟨there,rfl⟩
  cases found : lookup key l (key x) with
  | none =>
    rw [lookup_none_iff] at found
    exact absurd (List.mem_map_of_mem there) found
  | some y =>
    obtain ⟨inside,same⟩ := lookup_mem found
    exact congrArg some (List.inj_on_of_nodup_map distinct inside there same)

/-- Another element with the same key is another value of the map. -/
theorem lookup_set (distinct : OnePerKey key l) (at_ : l[i]? = some x) (same : key new = key x) :
    lookup key (l.set i new) = Function.update (lookup key l) (key x) (some new) := by
  have distinct' := distinct_set distinct at_ same
  obtain ⟨inside,is⟩ := List.getElem?_eq_some_iff.mp at_
  funext k
  by_cases other : k = key x
  · rw [other,Function.update_self]
    exact (lookup_some_iff distinct').mpr ⟨List.mem_set inside new,same⟩
  rw [Function.update_of_ne other]
  refine Option.ext fun y => ?_
  rw [lookup_some_iff distinct',lookup_some_iff distinct]
  refine and_congr_left fun has => ⟨fun there => ?_,fun there => ?_⟩
  · rcases List.mem_or_eq_of_mem_set there with old | rfl
    · exact old
    · exact absurd (has.symm.trans same) other
  · obtain ⟨j,y_at⟩ := List.mem_iff_getElem?.mp there
    have apart : i ≠ j := by
      rintro rfl
      rw [at_,Option.some.injEq] at y_at
      exact other (y_at ▸ has.symm)
    exact List.mem_iff_getElem?.mpr ⟨j,by rw [List.getElem?_set_ne apart,y_at]⟩

/-- The two ways to ensure a key. -/
theorem ensure_cases (l : List α) (new : α) :
    (∃ i x, ensure key l new = (l,i) ∧ l[i]? = some x ∧ key x = key new ∧ lookup key l (key new) = some x) ∨
      ensure key l new = (l ++ [new],l.length) ∧ lookup key l (key new) = none := by
  rw [ensure]
  cases there : place key l (key new) with
  | some i =>
    obtain ⟨x,at_,has,found⟩ := place_some there
    exact .inl ⟨i,x,rfl,at_,has,found⟩
  | none =>
    rw [place_none_iff] at there
    exact .inr ⟨rfl,there⟩

theorem distinct_new (distinct : OnePerKey key l) (absent : lookup key l (key new) = none) : OnePerKey key (l ++ [new]) := by
  rw [lookup_none_iff] at absent
  rw [OnePerKey,List.map_append,List.map_singleton,← List.concat_eq_append,List.nodup_concat]
  exact ⟨absent,distinct⟩

theorem lookup_new (absent : lookup key l (key new) = none) :
    lookup key (l ++ [new]) = Function.update (lookup key l) (key new) (some new) := by
  funext k
  rw [lookup,List.find?_append]
  by_cases is : k = key new
  · subst is
    rw [lookup] at absent
    rw [Function.update_self,absent]
    simp
  · rw [Function.update_of_ne is,List.find?_singleton,if_neg (by simpa using Ne.symm is),Option.or_none]
    rfl

end

end

end Htools.Keyed
