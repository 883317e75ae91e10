import Htools.Zippers
import Mathlib.Data.Nat.Log

/-!
# Red-black trees

Binary trees with a color at each node, all paths down from the root with the
same number of black ones and no red one below another (`Balanced`). The two
repairs go up from a place: `insertFix` from a red node that may be below a red
one, `removeFix` from a subtree that lacks a black node. Both keep the order of
the labels and end with a balanced tree, and a balanced tree is low
(`Balanced.height_le`).
-/
namespace Htools.RedBlack
open Zippers

inductive Color where
  | black
  | red
  deriving DecidableEq, Repr

abbrev Colored (α : Type) := BinaryTree (Color × α)

section
variable {α : Type}

/-- The color of the root; a tree without nodes counts as black. -/
def colorOf : Colored α → Color
  | .nil => .black
  | .node x _ _ => x.1

/-- The tree with a black root. -/
def blacken : Colored α → Colored α
  | .nil => .nil
  | .node x l r => .node (.black,x.2) l r

def keys (t : Colored α) : List α := (inorder t).map Prod.snd

/-- The tree has a root of the color and `n` black nodes on every path down. -/
inductive Balanced : Colored α → Color → Nat → Prop where
  | nil : Balanced .nil .black 0
  | red {x : α} {l r : Colored α} {n : Nat} :
    Balanced l .black n → Balanced r .black n → Balanced (.node (.red,x) l r) .red n
  | black {x : α} {l r : Colored α} {c d : Color} {n : Nat} :
    Balanced l c n → Balanced r d n → Balanced (.node (.black,x) l r) .black (n + 1)

/-- A subtree with a root of the color and `n` black nodes on each path makes a
    balanced tree in the place. -/
def Fits : List (Frame (Color × α)) → Color → Nat → Prop
  | [],c,_ => c = .black
  | ⟨_,(.red,_),sibling⟩ :: K,c,n => c = .black ∧ Balanced sibling .black n ∧ Fits K .red n
  | ⟨_,(.black,_),sibling⟩ :: K,_,n => (∃ d, Balanced sibling d n) ∧ Fits K .black (n + 1)

/-- The whole tree of a repair is a red-black tree. -/
def RedBlackTree (t : Colored α) : Prop := ∃ n, Balanced t .black n

/-- The turns at a red node below a red one whose sibling is black. -/
def turn (f g : Frame (Color × α)) (t : Colored α) : Colored α :=
  if f.side = g.side then
    bear g.side (.black,f.label.2) t (bear g.side (.red,g.label.2) f.sibling g.sibling)
  else
    match t with
    | .nil => .nil
    | .node e l r =>
      bear g.side (.black,e.2) (bear g.side (.red,f.label.2) f.sibling (side g.side (.node e l r)))
        (bear g.side (.red,g.label.2) (side g.side.other (.node e l r)) g.sibling)

/-- The repair above a red node. -/
def insertFix : List (Frame (Color × α)) → Colored α → Colored α
  | [],t => t
  | [f],t => f.fill t
  | f :: g :: K,t =>
    if f.label.1 = .red then
      if colorOf g.sibling = .red then
        insertFix K (bear g.side (.red,g.label.2) (bear f.side (.black,f.label.2) t f.sibling) (blacken g.sibling))
      else plug K (turn f g t)
    else plug (f :: g :: K) t

/-- The repair at the parent of a subtree that lacks a black node and has a black
    sibling. It leaves a subtree, which may lack one in turn. -/
def settle (s : Side) (p : Color × α) (t : Colored α) : Colored α → Colored α × Bool
  | .nil => (bear s p t .nil,true)
  | .node w l r =>
    let near := side s (.node w l r)
    let far := side s.other (.node w l r)
    if colorOf near = .black ∧ colorOf far = .black then (bear s p t (bear s (.red,w.2) near far),true)
    else if colorOf far = .black then
      match near with
      | .nil => (bear s p t (.node w l r),true)
      | .node y a b =>
        (bear s (p.1,y.2) (bear s (.black,p.2) t (side s (.node y a b)))
          (bear s (.black,w.2) (side s.other (.node y a b)) far),false)
    else (bear s (p.1,w.2) (bear s (.black,p.2) t near) (blacken far),false)

/-- The repair above a subtree that lacks a black node. -/
def removeFix : List (Frame (Color × α)) → Colored α → Colored α
  | [],t => blacken t
  | f :: K,t =>
    if colorOf t = .red then plug (f :: K) (blacken t)
    else if colorOf f.sibling = .red then
      -- the sibling goes up and leaves one of its subtrees in its place, under a red parent
      match f.sibling with
      | .nil => plug (f :: K) t
      | .node w l r =>
        let up : Frame (Color × α) := ⟨f.side,(.black,w.2),side f.side.other (.node w l r)⟩
        let (u,short) := settle f.side (.red,f.label.2) t (side f.side (.node w l r))
        if short then plug (up :: K) (blacken u) else blacken (plug (up :: K) u)
    else
      let (u,short) := settle f.side f.label t f.sibling
      if short then removeFix K u else blacken (plug K u)

@[simp] theorem colorOf_nil : colorOf (.nil : Colored α) = .black := rfl

@[simp] theorem colorOf_node (x : Color × α) (l r : Colored α) : colorOf (.node x l r) = x.1 := rfl

theorem blacken_black {t : Colored α} (black : colorOf t = .black) : blacken t = t := by
  cases t with
  | nil => rfl
  | node x l r => cases x; cases black; rfl

@[simp] theorem colorOf_bear (s : Side) (x : Color × α) (near far : Colored α) : colorOf (bear s x near far) = x.1 := by
  cases s <;> rfl

@[simp] theorem blacken_bear (s : Side) (x : Color × α) (near far : Colored α) :
    blacken (bear s x near far) = bear s (.black,x.2) near far := by
  cases s <;> rfl

@[simp] theorem keys_nil : keys (.nil : Colored α) = [] := rfl

@[simp] theorem keys_node (x : Color × α) (l r : Colored α) : keys (.node x l r) = keys l ++ x.2 :: keys r := by
  simp [keys]

@[simp] theorem keys_blacken (t : Colored α) : keys (blacken t) = keys t := by
  cases t <;> simp [blacken]

theorem length_keys (t : Colored α) : (keys t).length = t.numNodes := by
  rw [keys,List.length_map,length_inorder]

theorem keys_plug (K : List (Frame (Color × α))) (t : Colored α) :
    keys (plug K t) = (before K).map Prod.snd ++ keys t ++ (after K).map Prod.snd := by
  simp [keys,inorder_plug]

theorem keys_plug_congr (K : List (Frame (Color × α))) {t u : Colored α} (same : keys t = keys u) :
    keys (plug K t) = keys (plug K u) := by
  rw [keys_plug,keys_plug,same]

theorem keys_bear_congr (s : Side) {x y : Color × α} {near near' far far' : Colored α} (label : x.2 = y.2)
    (same : keys near = keys near') (same' : keys far = keys far') : keys (bear s x near far) = keys (bear s y near' far') := by
  cases s <;> simp [bear,label,same,same']

/-- Turning a node up past its parent does not change the order. -/
theorem keys_rotate (s : Side) (x y x' y' : Color × α) (a b c : Colored α) (hx : x.2 = x'.2) (hy : y.2 = y'.2) :
    keys (bear s y (bear s x a b) c) = keys (bear s x' a (bear s y' b c)) := by
  cases s <;> simp [bear,hx,hy]

/-! ### Balance -/

theorem Balanced.color {t : Colored α} {c : Color} {n : Nat} (balanced : Balanced t c n) : colorOf t = c := by
  cases balanced <;> rfl

theorem balanced_red_iff {s : Side} {x : α} {near far : Colored α} {c : Color} {n : Nat} :
    Balanced (bear s (.red,x) near far) c n ↔ c = .red ∧ Balanced near .black n ∧ Balanced far .black n := by
  cases s with
  | left =>
    constructor
    · rintro (_ | ⟨near,far⟩)
      exact ⟨rfl,near,far⟩
    · rintro ⟨rfl,near,far⟩
      exact .red near far
  | right =>
    constructor
    · rintro (_ | ⟨far,near⟩)
      exact ⟨rfl,near,far⟩
    · rintro ⟨rfl,near,far⟩
      exact .red far near

theorem balanced_black_iff {s : Side} {x : α} {near far : Colored α} {c : Color} {n : Nat} :
    Balanced (bear s (.black,x) near far) c n ↔
      c = .black ∧ ∃ k, n = k + 1 ∧ (∃ d, Balanced near d k) ∧ ∃ e, Balanced far e k := by
  cases s with
  | left =>
    constructor
    · rintro (_ | _ | ⟨near,far⟩)
      exact ⟨rfl,_,rfl,⟨_,near⟩,_,far⟩
    · rintro ⟨rfl,k,rfl,⟨d,near⟩,e,far⟩
      exact .black near far
  | right =>
    constructor
    · rintro (_ | _ | ⟨far,near⟩)
      exact ⟨rfl,_,rfl,⟨_,near⟩,_,far⟩
    · rintro ⟨rfl,k,rfl,⟨d,near⟩,e,far⟩
      exact .black far near

/-- A tree whose color is known, as a node that bears its subtrees. -/
theorem exists_bear (s : Side) {t : Colored α} {c : Color} (here : rootOf t ≠ none) (color : colorOf t = c) :
    ∃ x near far, t = bear s (c,x) near far := by
  cases t with
  | nil => exact absurd rfl here
  | node x l r =>
    obtain ⟨d,x⟩ := x
    cases color
    exact ⟨x,_,_,(bear_sides s (d,x) l r).symm⟩

theorem exists_red (s : Side) {t : Colored α} (color : colorOf t = .red) : ∃ x near far, t = bear s (.red,x) near far := by
  refine exists_bear s (fun none_ => ?_) color
  rw [rootOf_eq_none_iff] at none_
  rw [none_] at color
  cases color

theorem Balanced.exists_black (s : Side) {t : Colored α} {n : Nat} (balanced : Balanced t .black (n + 1)) :
    ∃ x near far, t = bear s (.black,x) near far := by
  refine exists_bear s (fun none_ => ?_) balanced.color
  rw [rootOf_eq_none_iff] at none_
  rw [none_] at balanced
  cases balanced

theorem Balanced.blacken {t : Colored α} {n : Nat} (balanced : Balanced t .red n) : Balanced (blacken t) .black (n + 1) := by
  cases balanced with
  | red left right => exact .black left right

theorem RedBlackTree.blacken {t : Colored α} (tree : RedBlackTree t) : RedBlackTree (blacken t) := by
  obtain ⟨n,balanced⟩ := tree
  cases balanced with
  | nil => exact ⟨0,.nil⟩
  | black left right => exact ⟨_,.black left right⟩

theorem Fits.black {K : List (Frame (Color × α))} {c : Color} {n : Nat} (fits : Fits K c n) : Fits K .black n := by
  match K with
  | [] => exact rfl
  | ⟨_,(.red,_),_⟩ :: _ => exact ⟨rfl,fits.2⟩
  | ⟨_,(.black,_),_⟩ :: _ => exact fits

/-- A black sibling has the black nodes that a place with a black node more asks for. -/
theorem Fits.sibling {s : Side} {x : Color × α} {sibling : Colored α} {K : List (Frame (Color × α))} {c : Color} {n : Nat}
    (fits : Fits (⟨s,x,sibling⟩ :: K) c n) (black : colorOf sibling = .black) : Balanced sibling .black n := by
  obtain ⟨_ | _,y⟩ := x
  · obtain ⟨⟨d,balanced⟩,-⟩ := fits
    obtain rfl := balanced.color.symm.trans black
    exact balanced
  · exact fits.2.1

theorem Fits.plug {K : List (Frame (Color × α))} {t : Colored α} {c : Color} {n : Nat} (fits : Fits K c n)
    (balanced : Balanced t c n) : RedBlackTree (plug K t) := by
  induction K generalizing t c n with
  | nil =>
    cases fits
    exact ⟨n,balanced⟩
  | cons f K ih =>
    obtain ⟨s,⟨_ | _,x⟩,sibling⟩ := f
    · obtain ⟨⟨d,other⟩,above⟩ := fits
      exact ih above (balanced_black_iff.mpr ⟨rfl,n,rfl,⟨c,balanced⟩,d,other⟩)
    · obtain ⟨rfl,other,above⟩ := fits
      exact ih above (balanced_red_iff.mpr ⟨rfl,balanced,other⟩)

/-- A place in a balanced tree fits what is in it. -/
theorem Balanced.fits {K : List (Frame (Color × α))} {t : Colored α} (tree : RedBlackTree (Zippers.plug K t)) :
    ∃ c n, Balanced t c n ∧ Fits K c n := by
  induction K generalizing t with
  | nil =>
    obtain ⟨n,balanced⟩ := tree
    exact ⟨_,n,balanced,rfl⟩
  | cons f K ih =>
    obtain ⟨c,n,balanced,above⟩ := ih tree
    obtain ⟨s,⟨_ | _,x⟩,sibling⟩ := f
    · obtain ⟨rfl,k,rfl,⟨d,here⟩,e,other⟩ := balanced_black_iff.mp balanced
      exact ⟨d,k,here,⟨e,other⟩,above⟩
    · obtain ⟨rfl,here,other⟩ := balanced_red_iff.mp balanced
      exact ⟨_,n,here,rfl,other,above⟩

/-! ### The repair of an insertion -/

theorem keys_turn (f g : Frame (Color × α)) (t : Colored α) (here : rootOf t ≠ none) :
    keys (turn f g t) = keys (g.fill (f.fill t)) := by
  unfold turn
  split_ifs with same
  · rw [Frame.fill,Frame.fill,same]
    exact (keys_rotate g.side f.label g.label (.black,f.label.2) (.red,g.label.2) t f.sibling g.sibling rfl rfl).symm
  · cases t with
    | nil => exact absurd rfl here
    | node e l r =>
      rw [Frame.fill,Frame.fill,Side.eq_other_of_ne same]
      rw [← bear_sides g.side e l r]
      cases g.side <;> simp [bear,Side.other,side]

theorem keys_insertFix (K : List (Frame (Color × α))) (t : Colored α) (here : rootOf t ≠ none) :
    keys (insertFix K t) = keys (plug K t) := by
  fun_induction insertFix K t with
  | case1 => rfl
  | case2 => rfl
  | case3 f g K t red uncle ih =>
    rw [ih (by simp)]
    refine keys_plug_congr K ?_
    exact keys_bear_congr g.side rfl (keys_bear_congr f.side rfl rfl rfl) (keys_blacken g.sibling)
  | case4 f g K t red uncle => exact keys_plug_congr K (keys_turn f g t here)
  | case5 => rfl

/-- A turn takes a red node below a red one to a black node with two red ones below it. -/
theorem turn_balanced {f g : Frame (Color × α)} {t : Colored α} {n : Nat} {d : Color} (balanced : Balanced t .red n)
    (other : Balanced f.sibling .black n) (uncle : Balanced g.sibling d n) (color : colorOf g.sibling ≠ .red) :
    Balanced (turn f g t) .black (n + 1) := by
  have uncle : Balanced g.sibling .black n := by
    cases d with
    | red => exact absurd uncle.color color
    | black => exact uncle
  have below : ∀ {x : α} {a b : Colored α}, Balanced a .black n → Balanced b .black n →
      ∃ e, Balanced (bear g.side (.red,x) a b) e n := fun left right => ⟨.red,balanced_red_iff.mpr ⟨rfl,left,right⟩⟩
  unfold turn
  split_ifs with same
  · exact balanced_black_iff.mpr ⟨rfl,n,rfl,⟨.red,balanced⟩,below other uncle⟩
  · obtain ⟨e,near,far,rfl⟩ := exists_red g.side balanced.color
    obtain ⟨-,inner,outer⟩ := balanced_red_iff.mp balanced
    cases g.side with
    | left => exact balanced_black_iff.mpr ⟨rfl,n,rfl,⟨.red,.red other inner⟩,.red,.red outer uncle⟩
    | right => exact balanced_black_iff.mpr ⟨rfl,n,rfl,⟨.red,.red inner other⟩,.red,.red uncle outer⟩

/-- Below a red uncle, the red node moves up by two. -/
theorem uncle_balanced {f g : Frame (Color × α)} {K : List (Frame (Color × α))} {t : Colored α} {n : Nat}
    (balanced : Balanced t .red n) (fits : Fits (f :: g :: K) .black n) (parent : f.label.1 = .red)
    (uncle : colorOf g.sibling = .red) :
    Balanced (bear g.side (.red,g.label.2) (bear f.side (.black,f.label.2) t f.sibling) (blacken g.sibling)) .red (n + 1) ∧
      Fits K .black (n + 1) := by
  obtain ⟨s,⟨_,x⟩,sibling⟩ := f
  cases parent
  obtain ⟨-,other,above⟩ := fits
  obtain ⟨s',⟨_ | _,y⟩,sibling'⟩ := g
  · obtain ⟨⟨d,balanced'⟩,above⟩ := above
    obtain rfl := balanced'.color.symm.trans uncle
    refine ⟨balanced_red_iff.mpr ⟨rfl,?_,balanced'.blacken⟩,above⟩
    exact balanced_black_iff.mpr ⟨rfl,n,rfl,⟨.red,balanced⟩,.black,other⟩
  · cases above.1

theorem insertFix_balanced {K : List (Frame (Color × α))} {t : Colored α} {n : Nat} (balanced : Balanced t .red n)
    (fits : Fits K .black n) : RedBlackTree (blacken (insertFix K t)) := by
  fun_induction insertFix K t generalizing n with
  | case1 t => exact ⟨n + 1,balanced.blacken⟩
  | case2 f t =>
    obtain ⟨s,⟨_ | _,x⟩,sibling⟩ := f
    · exact (Fits.plug (c := .red) (K := [⟨s,(.black,x),sibling⟩]) fits balanced).blacken
    · cases fits.2.2
  | case3 f g K t red uncle ih =>
    obtain ⟨balanced',above⟩ := uncle_balanced balanced fits red uncle
    exact ih balanced' above
  | case4 f g K t red uncle =>
    obtain ⟨s,⟨_,x⟩,sibling⟩ := f
    cases red
    obtain ⟨-,other,above⟩ := fits
    obtain ⟨s',⟨_ | _,y⟩,sibling'⟩ := g
    · obtain ⟨⟨d,balanced'⟩,above⟩ := above
      exact (Fits.plug above (turn_balanced balanced other balanced' uncle)).blacken
    · cases above.1
  | case5 f g K t black =>
    obtain ⟨s,⟨_ | _,x⟩,sibling⟩ := f
    · exact (Fits.plug (c := .red) (K := ⟨s,(.black,x),sibling⟩ :: g :: K) fits balanced).blacken
    · exact absurd rfl black

/-! ### The repair of a removal -/

section
variable {s : Side} {p w : Color × α} {y : α} {t near far a b : Colored α}

theorem settle_even (hn : colorOf near = .black) (hf : colorOf far = .black) :
    settle s p t (bear s w near far) = (bear s p t (bear s (.red,w.2) near far),true) := by
  cases s <;> simp [settle,bear,side,Side.other,hn,hf]

theorem settle_near (hf : colorOf far = .black) :
    settle s p t (bear s w (bear s (.red,y) a b) far) =
      (bear s (p.1,y) (bear s (.black,p.2) t a) (bear s (.black,w.2) b far),false) := by
  cases s <;> simp [settle,bear,side,Side.other,hf]

theorem settle_far (hf : colorOf far = .red) :
    settle s p t (bear s w near far) = (bear s (p.1,w.2) (bear s (.black,p.2) t near) (blacken far),false) := by
  cases s <;> simp [settle,bear,side,Side.other,hf]

end

/-- The three shapes of a black sibling. -/
theorem settle_cases {s : Side} {sib : Colored α} {n : Nat} (balanced : Balanced sib .black (n + 1)) :
    (∃ w near far, sib = bear s (.black,w) near far ∧ Balanced near .black n ∧ Balanced far .black n) ∨
    (∃ w y a b far, sib = bear s (.black,w) (bear s (.red,y) a b) far ∧ Balanced a .black n ∧ Balanced b .black n ∧
      Balanced far .black n) ∨
    ∃ w near far d, sib = bear s (.black,w) near far ∧ Balanced near d n ∧ Balanced far .red n := by
  obtain ⟨w,near,far,rfl⟩ := balanced.exists_black s
  obtain ⟨-,k,same,⟨d,left⟩,e,right⟩ := balanced_black_iff.mp balanced
  obtain rfl := Nat.succ.inj same
  cases e with
  | red => exact .inr (.inr ⟨w,near,far,d,rfl,left,right⟩)
  | black =>
    cases d with
    | black => exact .inl ⟨w,near,far,rfl,left,right⟩
    | red =>
      obtain ⟨y,a,b,rfl⟩ := exists_red s left.color
      obtain ⟨-,left,middle⟩ := balanced_red_iff.mp left
      exact .inr (.inl ⟨w,y,a,b,far,rfl,left,middle,right⟩)

theorem keys_settle (s : Side) (p : Color × α) (t sib : Colored α) : keys (settle s p t sib).1 = keys (bear s p t sib) := by
  cases sib with
  | nil => rfl
  | node w l r =>
    rw [← bear_sides s w l r]
    generalize side s (.node w l r) = near,side s.other (.node w l r) = far
    cases hf : colorOf far with
    | red =>
      rw [settle_far hf]
      exact (keys_bear_congr s rfl rfl (keys_blacken far)).trans
        (keys_rotate s (.black,p.2) (p.1,w.2) p w t near far rfl rfl)
    | black =>
      cases hn : colorOf near with
      | black =>
        rw [settle_even hn hf]
        exact keys_bear_congr s rfl rfl (keys_bear_congr s rfl rfl rfl)
      | red =>
        obtain ⟨y,a,b,rfl⟩ := exists_red s hn
        rw [settle_near hf]
        cases s <;> simp [bear]

theorem settle_short {s : Side} {c : Color} {p : α} {t sib u : Colored α} {n : Nat} (balanced : Balanced t .black n)
    (other : Balanced sib .black (n + 1)) (run : settle s (c,p) t sib = (u,true)) :
    colorOf u = c ∧ Balanced (blacken u) .black (n + 1) := by
  obtain ⟨w,near,far,rfl,left,right⟩ | ⟨w,y,a,b,far,rfl,-,-,right⟩ | ⟨w,near,far,d,rfl,-,right⟩ := settle_cases (s := s) other
  · rw [settle_even left.color right.color] at run
    cases run
    refine ⟨colorOf_bear _ _ _ _,?_⟩
    rw [blacken_bear]
    exact balanced_black_iff.mpr ⟨rfl,n,rfl,⟨.black,balanced⟩,.red,balanced_red_iff.mpr ⟨rfl,left,right⟩⟩
  · rw [settle_near right.color] at run
    cases run
  · rw [settle_far right.color] at run
    cases run

/-- Where the repair settles it, the parent's subtree fits as it did before the removal. -/
theorem settle_done {s : Side} {c : Color} {p : α} {t sib u : Colored α} {n : Nat} {K : List (Frame (Color × α))}
    (balanced : Balanced t .black n) (other : Balanced sib .black (n + 1)) (fits : Fits (⟨s,(c,p),sib⟩ :: K) .black (n + 1))
    (run : settle s (c,p) t sib = (u,false)) : RedBlackTree (plug K u) := by
  have step : ∃ x l r, u = bear s (c,x) l r ∧ Balanced l .black (n + 1) ∧ Balanced r .black (n + 1) := by
    obtain ⟨w,near,far,rfl,left,right⟩ | ⟨w,y,a,b,far,rfl,left,middle,right⟩ | ⟨w,near,far,d,rfl,left,right⟩ :=
      settle_cases (s := s) other
    · rw [settle_even left.color right.color] at run
      cases run
    · rw [settle_near right.color] at run
      cases run
      refine ⟨y,_,_,rfl,?_,?_⟩
      · exact balanced_black_iff.mpr ⟨rfl,n,rfl,⟨.black,balanced⟩,.black,left⟩
      · exact balanced_black_iff.mpr ⟨rfl,n,rfl,⟨.black,middle⟩,.black,right⟩
    · rw [settle_far right.color] at run
      cases run
      exact ⟨w,_,_,rfl,balanced_black_iff.mpr ⟨rfl,n,rfl,⟨.black,balanced⟩,d,left⟩,right.blacken⟩
  obtain ⟨x,l,r,rfl,left,right⟩ := step
  cases c with
  | red => exact Fits.plug fits.2.2 (balanced_red_iff.mpr ⟨rfl,left,right⟩)
  | black => exact Fits.plug fits.2 (balanced_black_iff.mpr ⟨rfl,n + 1,rfl,⟨.black,left⟩,.black,right⟩)

/-- A red root makes up for the black node that is missing. -/
theorem removeFix_red {K : List (Frame (Color × α))} {t : Colored α} (red : colorOf t = .red) :
    removeFix K t = plug K (blacken t) := by
  cases K with
  | nil => rfl
  | cons f K => rw [removeFix,if_pos red]

theorem removeFix_black {f : Frame (Color × α)} {K : List (Frame (Color × α))} {t : Colored α}
    (black : colorOf t = .black) (other : colorOf f.sibling = .black) :
    removeFix (f :: K) t = if (settle f.side f.label t f.sibling).2 then removeFix K (settle f.side f.label t f.sibling).1
      else blacken (plug K (settle f.side f.label t f.sibling).1) := by
  rw [removeFix,black,other]
  simp

theorem removeFix_turn {s : Side} {p w : α} {c : Color} {near far t : Colored α} {K : List (Frame (Color × α))}
    (black : colorOf t = .black) :
    removeFix (⟨s,(c,p),bear s (.red,w) near far⟩ :: K) t =
      if (settle s (.red,p) t near).2 then plug (⟨s,(.black,w),far⟩ :: K) (blacken (settle s (.red,p) t near).1)
      else blacken (plug (⟨s,(.black,w),far⟩ :: K) (settle s (.red,p) t near).1) := by
  cases s <;> simp [removeFix,black,bear,side,Side.other] <;> rfl

theorem keys_removeFix (K : List (Frame (Color × α))) (t : Colored α) : keys (removeFix K t) = keys (plug K t) := by
  induction K generalizing t with
  | nil => exact keys_blacken t
  | cons f K ih =>
    cases color : colorOf t with
    | red =>
      rw [removeFix_red color]
      exact keys_plug_congr _ (keys_blacken t)
    | black =>
      cases other : colorOf f.sibling with
      | black =>
        have settled := keys_plug_congr K (keys_settle f.side f.label t f.sibling)
        rw [removeFix_black color other]
        split_ifs with short
        · exact (ih _).trans settled
        · exact (keys_blacken _).trans settled
      | red =>
        obtain ⟨s,⟨c,p⟩,sibling⟩ := f
        obtain ⟨w,near,far,rfl⟩ := exists_red s other
        have turned : keys (bear s (.black,w) (settle s (.red,p) t near).1 far) =
            keys (bear s (c,p) t (bear s (.red,w) near far)) :=
          (keys_bear_congr s rfl (keys_settle s (.red,p) t near) rfl).trans (keys_rotate s _ _ _ _ t near far rfl rfl)
        rw [removeFix_turn color]
        split_ifs with short
        · exact (keys_plug_congr _ (keys_blacken _)).trans (keys_plug_congr K turned)
        · exact (keys_blacken _).trans (keys_plug_congr K turned)

theorem removeFix_balanced {K : List (Frame (Color × α))} {t : Colored α} {c : Color} {n : Nat} (balanced : Balanced t c n)
    (fits : Fits K .black (n + 1)) : RedBlackTree (removeFix K t) := by
  induction K generalizing t c n with
  | nil =>
    cases c with
    | red => exact ⟨n + 1,balanced.blacken⟩
    | black => exact RedBlackTree.blacken ⟨n,balanced⟩
  | cons f K ih =>
    cases c with
    | red =>
      rw [removeFix_red balanced.color]
      exact Fits.plug fits balanced.blacken
    | black =>
      obtain ⟨s,⟨c,p⟩,sibling⟩ := f
      cases other : colorOf sibling with
      | black =>
        have sib := fits.sibling other
        rw [removeFix_black balanced.color other]
        obtain ⟨u,short,run⟩ : ∃ u short, settle s (c,p) t sibling = (u,short) := ⟨_,_,rfl⟩
        rw [run]
        cases short with
        | false => exact (settle_done balanced sib fits run).blacken
        | true =>
          obtain ⟨color,above⟩ := settle_short balanced sib run
          cases c with
          | red =>
            rw [if_pos rfl,removeFix_red color]
            exact Fits.plug fits.2.2.black above
          | black =>
            rw [blacken_black color] at above
            exact ih above fits.2
      | red =>
        obtain ⟨w,near,far,rfl⟩ := exists_red s other
        cases c with
        | red => cases other.symm.trans fits.2.1.color
        | black =>
          obtain ⟨⟨d,sib⟩,above⟩ := fits
          obtain ⟨rfl,left,right⟩ := balanced_red_iff.mp sib
          have up : Fits (⟨s,(.black,w),far⟩ :: K) .red (n + 1) := ⟨⟨.black,right⟩,above⟩
          have below : Fits (⟨s,(.red,p),near⟩ :: ⟨s,(.black,w),far⟩ :: K) .black (n + 1) := ⟨rfl,left,up⟩
          rw [removeFix_turn balanced.color]
          obtain ⟨u,short,run⟩ : ∃ u short, settle s (.red,p) t near = (u,short) := ⟨_,_,rfl⟩
          rw [run]
          cases short with
          | true => exact Fits.plug up.black (settle_short balanced left run).2
          | false => exact (settle_done balanced left below run).blacken

/-- The labels at the nodes above a place do not matter for its balance. -/
theorem fits_relabel {s : Side} {c d : Color} {x y : α} {sib : Colored α} {K S : List (Frame (Color × α))} {n : Nat} :
    Fits (S ++ ⟨s,(c,x),sib⟩ :: K) d n ↔ Fits (S ++ ⟨s,(c,y),sib⟩ :: K) d n := by
  induction S generalizing d n with
  | nil => cases c <;> exact Iff.rfl
  | cons f S ih =>
    obtain ⟨s',⟨_ | _,z⟩,sibling⟩ := f
    · exact and_congr_right fun _ => ih
    · exact and_congr_right fun _ => and_congr_right fun _ => ih

/-- A node with one child at most, taken out of a red-black tree, leaves one that lacks
    a black node if it was black. -/
theorem unlink_fits {s : Side} {c : Color} {x : α} {t : Colored α} {K : List (Frame (Color × α))}
    (tree : RedBlackTree (plug K (bear s (c,x) .nil t))) :
    (c = .red → RedBlackTree (plug K t)) ∧ (c = .black → ∃ d n, Balanced t d n ∧ Fits K .black (n + 1)) := by
  obtain ⟨e,n,balanced,fits⟩ := Balanced.fits tree
  cases c with
  | red =>
    obtain ⟨rfl,-,below⟩ := balanced_red_iff.mp balanced
    exact ⟨fun _ => Fits.plug fits.black below,(by rintro ⟨⟩)⟩
  | black =>
    obtain ⟨rfl,k,rfl,-,d,below⟩ := balanced_black_iff.mp balanced
    exact ⟨(by rintro ⟨⟩),fun _ => ⟨d,k,below,fits⟩⟩

/-! ### The height -/

theorem Balanced.pow_le {t : Colored α} {c : Color} {n : Nat} (balanced : Balanced t c n) : 2 ^ n ≤ t.numNodes + 1 := by
  induction balanced with
  | nil => simp
  | red left right ihl ihr => simp only [BinaryTree.numNodes]; omega
  | black left right ihl ihr => simp only [BinaryTree.numNodes,pow_succ]; omega

theorem Balanced.height_bound {t : Colored α} {c : Color} {n : Nat} (balanced : Balanced t c n) :
    t.height ≤ 2 * n + (if c = .red then 1 else 0) := by
  induction balanced with
  | nil => simp
  | red left right ihl ihr => simp at *; omega
  | @black _ _ _ c d n left right ihl ihr =>
    cases c <;> cases d <;> simp at * <;> omega

/-- A red-black tree with `n` nodes is not higher than `2 lg (n + 1)`. -/
theorem RedBlackTree.height_le {t : Colored α} (tree : RedBlackTree t) : t.height ≤ 2 * Nat.log 2 (t.numNodes + 1) := by
  obtain ⟨n,balanced⟩ := tree
  have low := balanced.height_bound
  have many : n ≤ Nat.log 2 (t.numNodes + 1) := Nat.le_log_of_pow_le (by omega) balanced.pow_le
  simp at low
  omega

end

end Htools.RedBlack
