import Htools.SplayLinks

/-!
The loop of `SPLAY` (`hutils/include/hutils/tree.h`). A round takes nodes off the tree
and puts them at the open end of a part, from where they come back below the root when
the parts are put together. What it comes to is what a search with splaying makes of the
tree, in the same number of rounds (`splay_ok`).
-/
namespace Htools.SplayTree
open Zippers Splaying

variable {N : Type}

/-! ### Putting the parts together -/

/-- A rotation at the root leaves the order of all nodes. -/
theorem whole_rotate (K : Side → List (Frame N)) (s : Side) (x y : N) (a b c : BinaryTree N) :
    whole K (bear s y a (bear s x b c)) = whole K (bear s x (bear s y a b) c) := by
  rw [whole,← inorder_rotate,whole]

section
variable [DecidableEq N] {m : Memory N} {v : Locals N} {head : Nat} {x : N} {l r : BinaryTree N} {K : Side → List (Frame N)}

omit [DecidableEq N] in
/-- The parts have all nodes in order when the root takes them as its subtrees. -/
theorem Apart.whole_plug (apart : Apart m v head K (.node x l r)) :
    inorder (.node x (plug (K .right) l) (plug (K .left) r)) = whole K (.node x l r) := by
  rw [whole,inorder_node,inorder_plug,inorder_plug,after_right (apart.sides .right),before_left (apart.sides .left)]
  simp

theorem Apart.assemble (apart : Apart m v head K (.node x l r)) :
    ∃ m', splay_assemble m v head = .ok m' ∧ Holds m' head (.node x (plug (K .right) l) (plug (K .left) r)) ∧
      Only m m' head (whole K (.node x l r)) := by
  obtain ⟨-,nodups,out,two⟩ := apart.separate
  obtain ⟨near,far,left,right⟩ := apart.stands
  have root : m.sph_root head = some x := apart.root
  choose holes hangs using apart.hangs
  obtain ⟨m₁,v₁,wrote₁,hangs₁,same₁,heads₁,tails₁⟩ := hangs_write hangs nodups two .right (rootOf l)
  obtain ⟨m₂,v₂,wrote₂,hangs₂,same₂,heads₂,-⟩ := hangs_write hangs₁ nodups two .left (rootOf r)
  have keep : ∀ z ∈ inorder (.node x l r), m₂.field z = m.field z := fun z there =>
    (same₂ z (out .left z there)).trans (same₁ z (out .right z there))
  have low := hangs_plug (hangs₂ .right) ((stands_congr fun z there => keep z (by simp [there])).mpr left)
  have high := hangs_plug (hangs₂ .left) ((stands_congr fun z there => keep z (by simp [there])).mpr right)
  have order := apart.whole_plug
  have nodup := order ▸ apart.nodup
  obtain ⟨xLow,xHigh,-,-,-⟩ := (nodup_bear (s := .left)).mp nodup
  have inside : ∀ s, ∀ z ∈ around (K s), z ∈ whole K (.node x l r) := fun s z there => apart.mem_whole.mpr (.inr ⟨s,there⟩)
  have root₂ : m₂.sph_root head = some x := by rw [heads₂,heads₁,root]
  have same : ∀ {t : BinaryTree N}, x ∉ inorder t → Stands m₂ t →
      Stands ((m₂.set_child .left x v₂.node.spe_right).set_child .right x v₂.node.spe_left) t := by
    intro t out stands
    refine (stands_congr fun z there => ?_).mpr stands
    have differ : z ≠ x := fun same => out (same ▸ there)
    rw [field_set_child differ,field_set_child differ]
  refine ⟨(m₂.set_child .left x v₂.node.spe_right).set_child .right x v₂.node.spe_left,?_,⟨root₂,?_,nodup⟩,⟨?_,?_⟩⟩
  · have left₁ : v.left = (K .right).head?.map (·.label) := apart.tail .right
    have right₁ : v₁.right = (K .left).head?.map (·.label) := (tails₁ .right).trans (apart.tail .left)
    have far₁ : m₁.child .right x = rootOf r := (child_congr (same₁ x (out .right x (by simp))) .right).trans far
    simp only [splay_assemble,root,deref,ok_bind,left₁,near,wrote₁,right₁,far₁,wrote₂]
    rfl
  · refine ⟨?_,?_,same xLow low.2,same xHigh high.2⟩
    · simpa using (show v₂.node.spe_right = _ from low.1)
    · simpa using (show v₂.node.spe_left = _ from high.1)
  · intro z outside
    have differ : z ≠ x := by
      rintro rfl
      exact outside (apart.mem_whole.mpr (.inl (by simp)))
    rw [field_set_child differ,field_set_child differ,same₂ z fun there => outside (inside .left z there),
      same₁ z fun there => outside (inside .right z there)]
  · intro other differ
    simp [heads₂,heads₁]

end

/-! ### The loop -/

/-- What the root and the parts of a splay become. -/
def close (K : Side → List (Frame N)) : BinaryTree N → BinaryTree N
  | .nil => .nil
  | .node x l r => .node x (plug (K .right) l) (plug (K .left) r)

section
variable {K : Side → List (Frame N)} {s : Side} {x z : N} {l r sibling : BinaryTree N}

theorem close_bear : close K (bear s z l r) = bear s z (plug (K s.other) l) (plug (K s) r) := by
  cases s <;> rfl

/-- What is linked comes back below the root. -/
theorem close_link : close (Function.update K s (⟨s,x,sibling⟩ :: K s)) (bear s z l r) = close K (bear s z l (bear s x r sibling)) := by
  rw [close_bear,close_bear,Function.update_self,Function.update_of_ne s.other_ne,plug,Frame.fill]

theorem close_nothing (t : BinaryTree N) : close (fun _ => []) t = t := by
  cases t <;> rfl

end

section
variable [DecidableEq N] {m : Memory N} {v : Locals N} {head fuel k : Nat} {x y : N} {s : Side} {t t' a b c : BinaryTree N}
  {K : Side → List (Frame N)} {go : N → Int}

/-- The loop after a round, which is the one that the sign of a comparison leads to. -/
theorem splay_loop_round (here : m.sph_root head = some x) (beyond : Beyond s (go x)) (v : Locals N) :
    splay_loop go head (fuel + 1) m v = splay_round s (fun y => Beyond s (go y)) m v head >>= fun next =>
      if next.2.2 then splay_loop go head fuel next.1 next.2.1 else .ok (next.1,next.2.1) := by
  rw [splay_loop.eq_def]
  cases s with
  | left =>
    have less : go x < 0 := beyond
    simp only [here,deref,ok_bind,if_neg less.ne,if_pos less]
    rfl
  | right =>
    have more : 0 < go x := beyond
    simp only [here,deref,ok_bind,if_neg more.ne',if_neg more.le.not_gt]
    rfl

/-- A rotation, and a stop where the side of the key has come to an end. -/
theorem round_turned (apart : Apart m v head K (bear s x (bear s y .nil b) c)) (further : Beyond s (go y)) :
    ∃ m', splay_round s (fun y => Beyond s (go y)) m v head = .ok (m',v,false) ∧
      Apart m' v head K (bear s y .nil (bear s x b c)) ∧ Only m m' head (whole K (bear s x (bear s y .nil b) c)) := by
  obtain ⟨m',rotated,apart',only⟩ := apart.rotate
  have root : m.sph_root head = some x := apart.root.trans (rootOf_bear _ _ _ _)
  have read : m.child s x = some y := (stands_bear.mp apart.stands).1.trans (rootOf_bear _ _ _ _)
  have root' : m'.sph_root head = some y := apart'.root.trans (rootOf_bear _ _ _ _)
  have read' : m'.child s y = none := (stands_bear.mp apart'.stands).1
  refine ⟨m',?_,apart',only⟩
  simp [splay_round,root,deref,ok_bind,read,further,rotated,root',read',pure,Except.pure]

theorem round_zigzig (apart : Apart m v head K (bear s x (bear s y a b) c)) (further : Beyond s (go y)) (some_ : a ≠ .nil) :
    ∃ m' v', splay_round s (fun y => Beyond s (go y)) m v head = .ok (m',v',true) ∧
      Apart m' v' head (Function.update K s (⟨s,y,bear s x b c⟩ :: K s)) a ∧
      Only m m' head (whole K (bear s x (bear s y a b) c)) := by
  obtain ⟨m₁,rotated,apart₁,only₁⟩ := apart.rotate
  obtain ⟨m₂,v₂,linked,apart₂,only₂⟩ := apart₁.link
  have root : m.sph_root head = some x := apart.root.trans (rootOf_bear _ _ _ _)
  have read : m.child s x = some y := (stands_bear.mp apart.stands).1.trans (rootOf_bear _ _ _ _)
  have root₁ : m₁.sph_root head = some y := apart₁.root.trans (rootOf_bear _ _ _ _)
  have read₁ : m₁.child s y ≠ none := by
    rw [(stands_bear.mp apart₁.stands).1]
    exact mt rootOf_eq_none_iff.mp some_
  rw [whole_rotate] at only₂
  refine ⟨m₂,v₂,?_,apart₂,only₁.trans only₂⟩
  simp [splay_round,root,deref,ok_bind,read,further,rotated,root₁,read₁,linked,pure,Except.pure]

theorem round_zig (apart : Apart m v head K (bear s x (bear s y a b) c)) (back : ¬Beyond s (go y)) :
    ∃ m' v', splay_round s (fun y => Beyond s (go y)) m v head = .ok (m',v',true) ∧
      Apart m' v' head (Function.update K s (⟨s,x,c⟩ :: K s)) (bear s y a b) ∧
      Only m m' head (whole K (bear s x (bear s y a b) c)) := by
  obtain ⟨m',v',linked,apart',only⟩ := apart.link
  have root : m.sph_root head = some x := apart.root.trans (rootOf_bear _ _ _ _)
  have read : m.child s x = some y := (stands_bear.mp apart.stands).1.trans (rootOf_bear _ _ _ _)
  refine ⟨m',v',?_,apart',only⟩
  simp [splay_round,root,deref,ok_bind,read,back,linked,pure,Except.pure]

/-- With as many rounds as the search takes, the loop comes to the root that it does, and
    has taken off what this root gets below it. -/
theorem splay_loop_ok (splays : Splays go t k t') (apart : Apart m v head K t) (enough : k ≤ fuel) :
    ∃ m' v' K' u, splay_loop go head fuel m v = .ok (m',v') ∧ Apart m' v' head K' u ∧ u ≠ .nil ∧
      close K' u = close K t' ∧ whole K' u = whole K t ∧ Only m m' head (whole K t) := by
  induction splays generalizing m v K fuel with
  | @found x l r equal =>
    refine ⟨m,v,K,_,?_,apart,by simp,rfl,rfl,Only.refl _ _ _⟩
    have root : m.sph_root head = some x := apart.root
    rw [splay_loop.eq_def]
    simp [root,deref,ok_bind,equal,pure,Except.pure]
  | @edge s x far beyond =>
    obtain ⟨fuel,rfl⟩ : ∃ f, fuel = f + 1 := ⟨fuel - 1,by omega⟩
    refine ⟨m,v,K,_,?_,apart,bear_ne_nil,rfl,rfl,Only.refl _ _ _⟩
    have root : m.sph_root head = some x := apart.root.trans (rootOf_bear _ _ _ _)
    have read : m.child s x = none := (stands_bear.mp apart.stands).1
    rw [splay_loop_round root beyond]
    simp [splay_round,root,deref,ok_bind,read,pure,Except.pure]
  | @turned s x y b c beyond further =>
    obtain ⟨fuel,rfl⟩ : ∃ f, fuel = f + 1 := ⟨fuel - 1,by omega⟩
    obtain ⟨m',round,apart',only⟩ := round_turned apart further
    refine ⟨m',v,K,_,?_,apart',bear_ne_nil,rfl,whole_rotate _ _ _ _ _ _ _,only⟩
    rw [splay_loop_round (apart.root.trans (rootOf_bear _ _ _ _)) beyond,round]
    rfl
  | @zigzig s x y z a b c l r k beyond further rest ih =>
    obtain ⟨fuel,rfl⟩ : ∃ f, fuel = f + 1 := ⟨fuel - 1,by omega⟩
    have some_ : a ≠ .nil := by
      rintro rfl
      have := splays_numNodes rest
      simp [numNodes_bear] at this
    obtain ⟨m₁,v₁,round,apart₁,only₁⟩ := round_zigzig apart further some_
    obtain ⟨m₂,v₂,K',u,loop,apart₂,some₂,closed,same,only₂⟩ := ih apart₁ (show k ≤ fuel by omega)
    rw [close_link] at closed
    rw [whole_link,whole_rotate] at same only₂
    refine ⟨m₂,v₂,K',u,?_,apart₂,some₂,closed,same,only₁.trans only₂⟩
    rw [splay_loop_round (apart.root.trans (rootOf_bear _ _ _ _)) beyond,round]
    exact loop
  | @zig s x y z a b c l r k beyond back rest ih =>
    obtain ⟨fuel,rfl⟩ : ∃ f, fuel = f + 1 := ⟨fuel - 1,by omega⟩
    obtain ⟨m₁,v₁,round,apart₁,only₁⟩ := round_zig apart back
    obtain ⟨m₂,v₂,K',u,loop,apart₂,some₂,closed,same,only₂⟩ := ih apart₁ (show k ≤ fuel by omega)
    rw [close_link] at closed
    rw [whole_link] at same only₂
    refine ⟨m₂,v₂,K',u,?_,apart₂,some₂,closed,same,only₁.trans only₂⟩
    rw [splay_loop_round (apart.root.trans (rootOf_bear _ _ _ _)) beyond,round]
    exact loop

omit [DecidableEq N] in
theorem apart_locals (holds : Holds m head t) : Apart m locals head (fun _ => []) t where
  root := holds.root
  stands := holds.stands
  hangs := fun s => ⟨none,by cases s <;> rfl⟩
  tail := fun s => by cases s <;> rfl
  nodup := by simpa [whole,before,after] using holds.nodup

/-- `SPLAY` does to the tree in memory what a search with splaying does, in as many rounds. -/
theorem splay_ok (splays : Splays go t k t') (holds : Holds m head t) (enough : k ≤ fuel) :
    ∃ m', splay go fuel head m = .ok m' ∧ Holds m' head t' ∧ Only m m' head (inorder t) := by
  obtain ⟨m₁,v₁,K,u,run,apart,some_,closed,same,only⟩ := splay_loop_ok splays (apart_locals holds) enough
  cases u with
  | nil => exact absurd rfl some_
  | node x l r =>
    obtain ⟨m₂,assembled,holds₂,only₂⟩ := apart.assemble
    have start : whole (fun _ => []) t = inorder t := by simp [whole,before,after]
    rw [same] at only₂
    rw [start] at only only₂
    rw [close_nothing] at closed
    rw [← closed]
    refine ⟨m₂,?_,holds₂,only.trans only₂⟩
    rw [splay,run]
    exact assembled

/-- `SPLAY_MINMAX` splays for a key that is on the same side of all nodes. -/
theorem minmax_loop_eq {val : Int} (differ : val ≠ 0) {m' : Memory N} {v' : Locals N}
    (run : splay_loop (fun _ => val) head fuel m v = .ok (m',v')) : minmax_loop val head fuel m v = .ok (m',v') := by
  induction fuel generalizing m v with
  | zero =>
    rw [splay_loop.eq_def] at run
    obtain ⟨x,-,stop⟩ := bind_ok_iff.mp run
    rw [if_neg differ] at stop
    cases stop
  | succ fuel ih =>
    rw [splay_loop.eq_def] at run
    obtain ⟨x,-,round⟩ := bind_ok_iff.mp run
    simp only [if_neg differ] at round
    rw [minmax_loop]
    by_cases less : val < 0
    · rw [if_pos less] at round ⊢
      obtain ⟨⟨m₁,v₁,more⟩,first,rest⟩ := bind_ok_iff.mp round
      rw [first,ok_bind]
      cases more with
      | false => exact rest
      | true => exact ih rest
    · rw [if_neg less] at round ⊢
      rw [if_pos (by omega)]
      obtain ⟨⟨m₁,v₁,more⟩,first,rest⟩ := bind_ok_iff.mp round
      rw [first,ok_bind]
      cases more with
      | false => exact rest
      | true => exact ih rest

theorem splay_minmax_eq {val : Int} (differ : val ≠ 0) {m' : Memory N} (run : splay (fun _ => val) fuel head m = .ok m') :
    splay_minmax val fuel head m = .ok m' := by
  obtain ⟨⟨m₁,v₁⟩,loop,rest⟩ := bind_ok_iff.mp run
  rw [splay_minmax,minmax_loop_eq differ loop]
  exact rest

end

end Htools.SplayTree
