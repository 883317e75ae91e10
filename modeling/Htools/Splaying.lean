import Htools.Zippers
import Mathlib.Data.Nat.Log
import Mathlib.Tactic.Common

/-!
# Top-down splaying

`Splays` is what a search with splaying makes of a tree in some number of rounds: a
round that finds the key to be on the same side of two nodes rotates them before it goes
on, another one goes on right away. The order of all labels stays, and the root is where
the outcome of the search changes (`splays_between`). No matter how bad the tree is, the
rounds are paid for by what it becomes better (`splays_amortized`).
-/
namespace Htools.Splaying
open Zippers

/-- A comparison with the key on a side. -/
def Beyond : Side → Int → Prop
  | .left,c => c < 0
  | .right,c => 0 < c

instance : (s : Side) → (c : Int) → Decidable (Beyond s c)
  | .left,c => inferInstanceAs (Decidable (c < 0))
  | .right,c => inferInstanceAs (Decidable (0 < c))

variable {α : Type} {go : α → Int} {s : Side} {x y z : α} {t t' l r near far a b c u : BinaryTree α} {k : Nat}

/-- A search takes a tree to another in some rounds. -/
inductive Splays (go : α → Int) : BinaryTree α → Nat → BinaryTree α → Prop where
  | found {x : α} {l r : BinaryTree α} (equal : go x = 0) : Splays go (.node x l r) 0 (.node x l r)
  | edge {s : Side} {x : α} {far : BinaryTree α} (beyond : Beyond s (go x)) :
    Splays go (bear s x .nil far) 1 (bear s x .nil far)
  | turned {s : Side} {x y : α} {b c : BinaryTree α} (beyond : Beyond s (go x)) (further : Beyond s (go y)) :
    Splays go (bear s x (bear s y .nil b) c) 1 (bear s y .nil (bear s x b c))
  | zigzig {s : Side} {x y z : α} {a b c l r : BinaryTree α} {k : Nat} (beyond : Beyond s (go x)) (further : Beyond s (go y))
    (rest : Splays go a k (bear s z l r)) :
    Splays go (bear s x (bear s y a b) c) (k + 1) (bear s z l (bear s y r (bear s x b c)))
  | zig {s : Side} {x y z : α} {a b c l r : BinaryTree α} {k : Nat} (beyond : Beyond s (go x)) (back : ¬Beyond s (go y))
    (rest : Splays go (bear s y a b) k (bear s z l r)) :
    Splays go (bear s x (bear s y a b) c) (k + 1) (bear s z l (bear s x r c))

theorem not_beyond_other {v : Int} (beyond : Beyond s v) : ¬Beyond s.other v := by
  cases s <;> simp only [Beyond,Side.other] at * <;> omega

theorem beyond_of_ne {v : Int} (differ : v ≠ 0) : ∃ s, Beyond s v := by
  by_cases less : v < 0
  · exact ⟨.left,less⟩
  · exact ⟨.right,show 0 < v by omega⟩

/-! ### Order -/

theorem inorder_rotate (s : Side) (x y : α) (a b c : BinaryTree α) :
    inorder (bear s x (bear s y a b) c) = inorder (bear s y a (bear s x b c)) := by
  cases s <;> simp [bear]

theorem inorder_bear_congr (s : Side) (x : α) (same : inorder near = inorder a) (same' : inorder far = inorder b) :
    inorder (bear s x near far) = inorder (bear s x a b) := by
  cases s <;> simp [bear,same,same']

theorem splays_inorder (splays : Splays go t k t') : inorder t' = inorder t := by
  induction splays with
  | found equal => rfl
  | edge beyond => rfl
  | turned beyond further => exact (inorder_rotate _ _ _ _ _ _).symm
  | @zigzig s x y z a b c l r k beyond further rest ih =>
    rw [inorder_rotate s x y a b c,← inorder_rotate s y z l r]
    exact inorder_bear_congr s y ih rfl
  | @zig s x y z a b c l r k beyond back rest ih =>
    rw [← inorder_rotate s x z l r]
    exact inorder_bear_congr s x ih rfl

theorem splays_numNodes (splays : Splays go t k t') : t'.numNodes = t.numNodes := by
  rw [← length_inorder,← length_inorder,splays_inorder splays]

theorem splays_root (splays : Splays go t k t') (s : Side) : ∃ z l r, t' = bear s z l r := by
  obtain ⟨z,here⟩ : ∃ z, rootOf t' = some z := by
    cases splays with
    | found equal => exact ⟨_,rfl⟩
    | edge beyond => exact ⟨_,rootOf_bear _ _ _ _⟩
    | turned beyond further => exact ⟨_,rootOf_bear _ _ _ _⟩
    | zigzig beyond further rest => exact ⟨_,rootOf_bear _ _ _ _⟩
    | zig beyond back rest => exact ⟨_,rootOf_bear _ _ _ _⟩
  obtain ⟨l,r,is⟩ := exists_bear s here
  exact ⟨z,l,r,is⟩

/-- Every search ends, on a way down in the tree. -/
theorem splays_total (go : α → Int) (some_ : t ≠ .nil) : ∃ k t', Splays go t k t' ∧ k ≤ t.height := by
  induction size : t.numNodes using Nat.strong_induction_on generalizing t with
  | _ size ih =>
    subst size
    obtain ⟨x,top⟩ := Option.ne_none_iff_exists'.mp (mt rootOf_eq_none_iff.mp some_)
    by_cases equal : go x = 0
    · obtain ⟨l,r,rfl⟩ := exists_bear .left top
      exact ⟨0,_,.found equal,Nat.zero_le _⟩
    obtain ⟨s,beyond⟩ := beyond_of_ne equal
    obtain ⟨near,far,rfl⟩ := exists_bear s top
    cases top' : rootOf near with
    | none =>
      obtain rfl := rootOf_eq_none_iff.mp top'
      exact ⟨1,_,.edge beyond,by simp [height_bear]⟩
    | some y =>
      obtain ⟨a,b,rfl⟩ := exists_bear s top'
      simp only [numNodes_bear] at ih
      by_cases further : Beyond s (go y)
      · by_cases last : a = .nil
        · subst last
          exact ⟨1,_,.turned beyond further,by simp [height_bear]⟩
        · obtain ⟨k,u,rest,low⟩ := ih a.numNodes (by omega) last rfl
          obtain ⟨z,l,r,rfl⟩ := splays_root rest s
          refine ⟨k + 1,_,.zigzig beyond further rest,?_⟩
          simp only [height_bear]
          omega
      · obtain ⟨k,u,rest,low⟩ := ih (bear s y a b).numNodes (by rw [numNodes_bear]; omega) bear_ne_nil rfl
        obtain ⟨z,l,r,rfl⟩ := splays_root rest s
        refine ⟨k + 1,_,.zig beyond further rest,?_⟩
        simp only [height_bear] at low ⊢
        omega

/-! ### Where the search comes to -/

theorem guides_bear (guides : Guides go (inorder (bear s x near far))) :
    Guides go (inorder near) ∧ Guides go (inorder far) ∧ (Beyond s (go x) → ∀ z ∈ inorder far, Beyond s (go z)) := by
  cases s with
  | left =>
    obtain ⟨first,second,-,after⟩ := guides_node guides
    exact ⟨first,second,fun less z there => after z there (Int.le_of_lt less)⟩
  | right =>
    obtain ⟨first,second,before,-⟩ := guides_node guides
    refine ⟨second,first,fun (more : 0 < go x) z there => ?_⟩
    by_contra not
    have := before z there (by simp only [Beyond] at not; omega)
    omega

/-- A root that the key is at, or that is next to it. -/
def Between (go : α → Int) : BinaryTree α → Prop
  | .nil => False
  | .node _ l r => (∀ z ∈ inorder l, 0 < go z) ∧ ∀ z ∈ inorder r, go z < 0

theorem between_bear : Between go (bear s x near far) ↔
    (∀ z ∈ inorder near, Beyond s.other (go z)) ∧ ∀ z ∈ inorder far, Beyond s (go z) := by
  cases s with
  | left => rfl
  | right => exact and_comm

theorem splays_between (splays : Splays go t k t') (guides : Guides go (inorder t)) : Between go t' := by
  induction splays with
  | @found x l r equal =>
    obtain ⟨-,-,before,after⟩ := guides_node guides
    refine ⟨fun z there => ?_,fun z there => after z there (by omega)⟩
    by_contra not
    have := before z there (by omega)
    omega
  | @edge s x far beyond =>
    exact between_bear.mpr ⟨by simp,(guides_bear guides).2.2 beyond⟩
  | @turned s x y b c beyond further =>
    rw [inorder_rotate] at guides
    exact between_bear.mpr ⟨by simp,(guides_bear guides).2.2 further⟩
  | @zigzig s x y z a b c l r k beyond further rest ih =>
    rw [inorder_rotate] at guides
    obtain ⟨inner,-,outer⟩ := guides_bear guides
    obtain ⟨below,above⟩ := between_bear.mp (ih inner)
    refine between_bear.mpr ⟨below,fun w there => ?_⟩
    obtain rfl | there | there := mem_bear.mp there
    · exact further
    · exact above w there
    · exact outer further w there
  | @zig s x y z a b c l r k beyond back rest ih =>
    obtain ⟨inner,-,outer⟩ := guides_bear guides
    obtain ⟨below,above⟩ := between_bear.mp (ih inner)
    refine between_bear.mpr ⟨below,fun w there => ?_⟩
    obtain rfl | there | there := mem_bear.mp there
    · exact beyond
    · exact above w there
    · exact outer beyond w there

/-! ### What it costs -/

def rank (t : BinaryTree α) : Nat := Nat.log 2 t.numNodes

/-- How much there is to be gained in a tree. -/
def potential : BinaryTree α → Nat
  | .nil => 0
  | .node x l r => rank (.node x l r) + potential l + potential r

theorem rank_le (less : t.numNodes ≤ u.numNodes) : rank t ≤ rank u := Nat.log_mono_right less

/-- Two parts of a tree cannot both be almost as large. -/
theorem rank_add (some_ : a.numNodes ≠ 0) (some_' : b.numNodes ≠ 0) (sum : a.numNodes + b.numNodes ≤ t.numNodes) :
    rank a + rank b + 1 ≤ 2 * rank t := by
  have powA := Nat.pow_log_le_self 2 some_
  have powB := Nat.pow_log_le_self 2 some_'
  have monoA : rank a ≤ rank t := rank_le (by omega)
  have monoB : rank b ≤ rank t := rank_le (by omega)
  obtain less | same | more := lt_trichotomy (rank a) (rank b)
  · omega
  · have double : 2 ^ (rank b + 1) ≤ t.numNodes := by
      rw [← rank,same] at powA
      rw [← rank] at powB
      rw [Nat.pow_succ]
      omega
    have := Nat.le_log_of_pow_le (by decide) double
    rw [← rank] at this
    omega
  · omega

theorem potential_bear (s : Side) (x : α) (near far : BinaryTree α) :
    potential (bear s x near far) = rank (bear s x near far) + potential near + potential far := by
  cases s with
  | left => rfl
  | right =>
    rw [bear,potential]
    omega

theorem bear_inj (same : bear s x near far = bear s z l r) : x = z ∧ near = l ∧ far = r := by
  cases s with
  | left =>
    cases same
    exact ⟨rfl,rfl,rfl⟩
  | right =>
    cases same
    exact ⟨rfl,rfl,rfl⟩

/-- The rounds of a search, with twice what is left to gain after it. -/
def Paid (t : BinaryTree α) (k : Nat) (t' : BinaryTree α) : Prop :=
  k + 2 * potential t' ≤ 2 * potential t + 6 * rank t + 1

/-- The same for a search after a round that went to one side of a node `w`, where this search goes
    to the other side. -/
def Zigged (go : α → Int) (t : BinaryTree α) (k : Nat) (t' : BinaryTree α) : Prop :=
  ∀ s w c z l r y, rootOf t = some y → ¬Beyond s (go y) → t' = bear s z l r →
    Paid (bear s w t c) (k + 1) (bear s z l (bear s w r c))

/-- A search to one side comes after a step to the other one. -/
theorem zigged_of (beyond : Beyond s (go x))
    (paid : ∀ w c, Paid (bear s.other w (bear s x near far) c) (k + 1) (bear s.other z r (bear s.other w l c))) :
    Zigged go (bear s x near far) k (bear s z l r) := by
  rintro s' w c z' l' r' y root back is
  rw [rootOf_bear] at root
  cases root
  have differ : s' ≠ s := by
    rintro rfl
    exact back beyond
  obtain rfl := Side.eq_other_of_ne differ
  rw [bear_other] at is
  obtain ⟨rfl,rfl,rfl⟩ := bear_inj is
  exact paid w c

theorem rank_congr (same : t.numNodes = u.numNodes) : rank t = rank u := congrArg (Nat.log 2) same

theorem splays_paid (splays : Splays go t k t') : Paid t k t' ∧ Zigged go t k t' := by
  induction splays with
  | @found x l r equal =>
    refine ⟨by rw [Paid]; omega,?_⟩
    rintro s w c z near far y - - is
    have up : rank (bear s z near (bear s w far c)) = rank (bear s w (bear s z near far) c) :=
      rank_congr (by simp only [numNodes_bear]; omega)
    have part : rank (bear s w far c) ≤ rank (bear s w (bear s z near far) c) := rank_le (by simp only [numNodes_bear]; omega)
    simp only [Paid,is,potential_bear]
    omega
  | @edge s x far beyond =>
    refine ⟨by rw [Paid]; omega,zigged_of beyond fun w c => ?_⟩
    have up : rank (bear s.other x far (bear s.other w .nil c)) = rank (bear s.other w (bear s x .nil far) c) :=
      rank_congr (by simp only [numNodes_bear,BinaryTree.numNodes]; omega)
    have both : rank (bear s.other w .nil c) + rank (bear s x .nil far) + 1 ≤ 2 * rank (bear s.other w (bear s x .nil far) c) :=
      rank_add (by simp only [numNodes_bear]; omega) (by simp only [numNodes_bear]; omega)
        (by simp only [numNodes_bear,BinaryTree.numNodes]; omega)
    simp only [Paid,potential_bear]
    omega
  | @turned s x y b c beyond further =>
    have up : rank (bear s y .nil (bear s x b c)) = rank (bear s x (bear s y .nil b) c) :=
      rank_congr (by simp only [numNodes_bear,BinaryTree.numNodes]; omega)
    have part : rank (bear s x b c) ≤ rank (bear s x (bear s y .nil b) c) := rank_le (by simp only [numNodes_bear]; omega)
    constructor
    · simp only [Paid,potential_bear]
      omega
    · refine zigged_of beyond fun w d => ?_
      have up' : rank (bear s.other y (bear s x b c) (bear s.other w .nil d)) = rank (bear s.other w (bear s x (bear s y .nil b) c) d) :=
        rank_congr (by simp only [numNodes_bear,BinaryTree.numNodes]; omega)
      have both : rank (bear s.other w .nil d) + rank (bear s x b c) + 1 ≤
          2 * rank (bear s.other w (bear s x (bear s y .nil b) c) d) :=
        rank_add (by simp only [numNodes_bear]; omega) (by simp only [numNodes_bear]; omega)
          (by simp only [numNodes_bear,BinaryTree.numNodes]; omega)
      simp only [Paid,potential_bear]
      omega
  | @zigzig s x y z a b c l r k beyond further rest ih =>
    obtain ⟨paid,-⟩ := ih
    have size := splays_numNodes rest
    have same := rank_congr size
    have some_ : a.numNodes ≠ 0 := by rw [← size,numNodes_bear]; omega
    have child : rank a ≤ rank (bear s y a b) := rank_le (by simp only [numNodes_bear]; omega)
    rw [numNodes_bear] at size
    constructor
    · have up : rank (bear s z l (bear s y r (bear s x b c))) = rank (bear s x (bear s y a b) c) :=
        rank_congr (by simp only [numNodes_bear]; omega)
      have part : rank (bear s y r (bear s x b c)) ≤ rank (bear s x (bear s y a b) c) := rank_le (by simp only [numNodes_bear]; omega)
      have both : rank a + rank (bear s x b c) + 1 ≤ 2 * rank (bear s x (bear s y a b) c) :=
        rank_add some_ (by simp only [numNodes_bear]; omega) (by simp only [numNodes_bear]; omega)
      simp only [Paid,potential_bear] at paid ⊢
      omega
    · refine zigged_of beyond fun w d => ?_
      have up : rank (bear s.other z (bear s y r (bear s x b c)) (bear s.other w l d)) =
          rank (bear s.other w (bear s x (bear s y a b) c) d) := rank_congr (by simp only [numNodes_bear]; omega)
      have part : rank (bear s x b c) ≤ rank (bear s x (bear s y a b) c) := rank_le (by simp only [numNodes_bear]; omega)
      have whole : rank a ≤ rank (bear s.other w (bear s x (bear s y a b) c) d) := rank_le (by simp only [numNodes_bear]; omega)
      have both : rank (bear s y r (bear s x b c)) + rank (bear s.other w l d) + 1 ≤
          2 * rank (bear s.other w (bear s x (bear s y a b) c) d) :=
        rank_add (by simp only [numNodes_bear]; omega) (by simp only [numNodes_bear]; omega)
          (by simp only [numNodes_bear]; omega)
      simp only [Paid,potential_bear] at paid ⊢
      omega
  | @zig s x y z a b c l r k beyond back rest ih =>
    obtain ⟨paid,zigged⟩ := ih
    have size := splays_numNodes rest
    have same := rank_congr size
    have child : rank (bear s y a b) ≤ rank (bear s x (bear s y a b) c) := rank_le (by simp only [numNodes_bear]; omega)
    refine ⟨zigged s x c z l r y (rootOf_bear _ _ _ _) back rfl,zigged_of beyond fun w d => ?_⟩
    simp only [numNodes_bear] at size
    have up : rank (bear s.other z (bear s x r c) (bear s.other w l d)) = rank (bear s.other w (bear s x (bear s y a b) c) d) :=
      rank_congr (by simp only [numNodes_bear]; omega)
    have whole : rank (bear s x (bear s y a b) c) ≤ rank (bear s.other w (bear s x (bear s y a b) c) d) :=
      rank_le (by simp only [numNodes_bear]; omega)
    have both : rank (bear s x r c) + rank (bear s.other w l d) + 1 ≤ 2 * rank (bear s.other w (bear s x (bear s y a b) c) d) :=
      rank_add (by simp only [numNodes_bear]; omega) (by simp only [numNodes_bear]; omega)
        (by simp only [numNodes_bear]; omega)
    simp only [Paid,potential_bear] at paid ⊢
    omega

/-- The rounds of a search are paid for by the gain and a share that is logarithmic in the labels. -/
theorem splays_amortized (splays : Splays go t k t') : k + 2 * potential t' ≤ 2 * potential t + 6 * rank t + 1 :=
  (splays_paid splays).1

end Htools.Splaying
