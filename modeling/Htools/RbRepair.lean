import Htools.RbMoves

/-!
`RB_INSERT_COLOR` and `RB_REMOVE_COLOR` of `hutils/include/hutils/tree.h` at a place
of a tree in memory: each loop ends, within as many rounds as the place is deep, and
leaves the tree of `insertFix` or `removeFix`.
-/
namespace Htools.RbTree
open Zippers RedBlack

variable {N : Type}

section
variable {m : Memory N} {head : Nat} {s : Side} {x : Color × N} {K : List (Frame (Color × N))} {f : Frame (Color × N)}
  {t l r : Colored N}

theorem Holds.back_near (holds : Holds m head (⟨s,x,r⟩ :: K) l) : Holds m head K (bear s x l r) := holds_cons_iff.mp holds

theorem Holds.back_far (holds : Holds m head (⟨s.other,x,l⟩ :: K) r) : Holds m head K (bear s x l r) := by
  have back := holds_cons_iff.mp holds
  rwa [Frame.fill,bear_other] at back

theorem Holds.color (holds : Holds m head K (bear s x l r)) : m.color x.2 = x.1 :=
  holds.linked.color

theorem parent_ptr {parent : Option N} {z : N} (stands : Stands m parent t) (here : ptr t = some z) : m.parent z = parent := by
  cases t with
  | nil => cases here
  | node y l r =>
    cases here
    exact stands.1.parent

/-- The parent is seen if it is red. -/
theorem reds_up (holds : Holds m head (f :: K) t) : reds m (up (f :: K)) = if f.label.1 = .red then some f.label.2 else none := by
  have color : m.color f.label.2 = f.label.1 := holds.around.1.color
  simp only [reds,up_cons,Option.filter,color,decide_eq_true_eq]

theorem reds_sibling (holds : Holds m head (f :: K) t) :
    reds m (m.child f.side.other f.label.2) = if colorOf f.sibling = .red then ptr f.sibling else none := by
  rw [holds.around.1.far]
  exact reds_ptr holds.around.2.1

/-- The parent of a red node in a place, as the loop sees it. -/
theorem reds_above {elm : N} (holds : Holds m head (f :: K) t) (here : ptr t = some elm) :
    reds m (m.parent elm) = if f.label.1 = .red then some f.label.2 else none := by
  rw [parent_ptr holds.stands here,reds_up holds]

/-- Whether both children are black does not depend on which is looked at first. -/
theorem both_black (holds : Holds m head K (bear s x l r)) :
    (reds m (m.child .left x.2) = none ∧ reds m (m.child .right x.2) = none) ↔ colorOf l = .black ∧ colorOf r = .black := by
  obtain ⟨linked,left,right⟩ := stands_bear.mp holds.stands
  have nearRead := linked.near
  have farRead := linked.far
  cases s with
  | left =>
    rw [Side.other] at farRead
    rw [nearRead,farRead,reds_eq_none_iff left,reds_eq_none_iff right]
  | right =>
    rw [Side.other] at farRead
    rw [nearRead,farRead,reds_eq_none_iff left,reds_eq_none_iff right,and_comm]

theorem far_black (holds : Holds m head K (bear s x l r)) :
    reds m (m.child s.other x.2) = none ↔ colorOf r = .black := by
  obtain ⟨linked,-,right⟩ := stands_bear.mp holds.stands
  rw [linked.far,reds_eq_none_iff right]

theorem ptr_ne_sibling (holds : Holds m head (f :: K) t) (some_ : ptr t ≠ none ∨ ptr f.sibling ≠ none) :
    ptr t ≠ ptr f.sibling := by
  intro same
  cases here : ptr t with
  | none =>
    obtain not | not := some_
    · exact not here
    · exact not (same ▸ here)
  | some z =>
    have outside := holds.apart.2 z (ptr_mem here)
    exact outside (mem_keysAround_cons.mpr (.inr (.inl (ptr_mem (same ▸ here)))))

/-- A pointer that is not to a red node, in a place below another node, is not the root. -/
theorem root_ne (holds : Holds m head (f :: K) t) : ptr t ≠ m.rbh_root head := by
  have root : ∀ {K : List (Frame (Color × N))} {f : Frame (Color × N)} {t : Colored N},
      ∃ r ∈ keysAround (f :: K), ptr (plug (f :: K) t) = some r := by
    intro K
    induction K with
    | nil => exact fun {f t} => ⟨f.label.2,mem_keysAround_cons.mpr (.inl rfl),ptr_fill f t⟩
    | cons g K ih =>
      intro f t
      obtain ⟨r,there,is⟩ := @ih g (f.fill t)
      exact ⟨r,mem_keysAround_cons.mpr (.inr (.inr there)),is⟩
  obtain ⟨r,there,is⟩ := @root K f t
  have at_ : m.rbh_root head = some r := holds.whole.around.trans is
  rw [at_]
  exact fun here => holds.apart.2 r (ptr_mem here) there

theorem settle_short_ptr {s : Side} {c : Color} {p : N} {sib : Colored N} {n : Nat} (balanced : Balanced sib .black (n + 1))
    (short : (settle s (c,p) t sib).2 = true) : ptr (settle s (c,p) t sib).1 = some p := by
  obtain ⟨w,near,far,rfl,left,right⟩ | ⟨w,y,a,b,far,rfl,-,-,right⟩ | ⟨w,near,far,d,rfl,-,right⟩ := settle_cases (s := s) balanced
  · rw [settle_even left.color right.color,ptr_bear]
  · rw [settle_near right.color] at short
    cases short
  · rw [settle_far right.color] at short
    cases short

theorem ptr_plug (K : List (Frame (Color × N))) {t : Colored N} (some_ : ptr t ≠ none) : ptr (plug K t) ≠ none := by
  induction K generalizing t with
  | nil => exact some_
  | cons f K ih => exact ih (by simp)

end

section
variable [DecidableEq N] {m : Memory N} {head : Nat} {K : List (Frame (Color × N))} {f g : Frame (Color × N)} {t : Colored N}

/-- The test for the left child finds the side of a place. -/
theorem side_eq (holds : Holds m head (f :: K) t) (some_ : ptr t ≠ none ∨ ptr f.sibling ≠ none) :
    (if m.child .left f.label.2 = ptr t then Side.left else Side.right) = f.side := by
  have linked := holds.around.1
  have differ := ptr_ne_sibling holds some_
  obtain ⟨_ | _,y,sibling⟩ := f
  · exact if_pos linked.near
  · refine if_neg fun here => differ ?_
    exact here.symm.trans linked.far

/-- The root is painted in the end. -/
theorem paint_root (holds : Holds m head [] t) : Holds (paint m (m.rbh_root head) .black) head [] (blacken t) := by
  have root : m.rbh_root head = ptr t := holds.around
  rw [root]
  exact holds.paint

theorem only_paint_root (holds : Holds m head [] t) : Only m (paint m (m.rbh_root head) .black) head (keys t) := by
  have root : m.rbh_root head = ptr t := holds.around
  rw [root]
  exact only_paint fun _ there => there

/-! ### After an insertion -/

/-- The loop ends where the parent is not red. -/
theorem insert_color_end (fuel : Nat) {elm : N} (whole : Holds m head [] t) (some_ : ptr t ≠ none)
    (black : reds m (m.parent elm) = none) :
    ∃ m', rb_insert_color head fuel m elm = .ok m' ∧ Holds m' head [] (blacken t) ∧ Only m m' head (keys t) := by
  refine ⟨_,?_,paint_root whole,only_paint_root whole⟩
  have root : m.rbh_root head = ptr t := whole.around
  rw [rb_insert_color.eq_def]
  simp only [black,root]
  cases t with
  | nil => exact absurd rfl some_
  | node x l r => rfl

/-- The round where the uncle is red. -/
theorem insert_round_uncle (holds : Holds m head (f :: g :: K) t) (red : colorOf g.sibling = .red) (elm : N) :
    ∃ m', insert_color_round m head f.label.2 elm = .ok (m',g.label.2) ∧
      Holds m' head K (bear g.side (.red,g.label.2) (bear f.side (.black,f.label.2) t f.sibling) (blacken g.sibling)) ∧
      Only m m' head (keys (plug (f :: g :: K) t)) := by
  have above : Holds m head (g :: K) (f.fill t) := holds_cons_iff.mp holds
  obtain ⟨u,near,far,uncle⟩ := exists_red .left red
  have side := side_eq above (.inl (by simp))
  rw [ptr_fill] at side
  have uncleAt : ptr g.sibling = some u := by rw [uncle,ptr_bear]
  have run : insert_color_round m head f.label.2 elm =
      .ok (rb_set_blackred (paint m (ptr g.sibling) .black) f.label.2 g.label.2,g.label.2) := by
    simp only [insert_color_round,holds.around.1.parent,up_cons,deref,ok_bind,side]
    rw [reds_sibling above,if_pos red,uncleAt]
    rfl
  have whole : Holds m head K (bear g.side g.label (f.fill t) g.sibling) := holds_cons_iff.mp above
  have painted := whole.far.paint.back_far.near.set_color .black
  refine ⟨_,run,(painted.back_near).set_color .red,?_⟩
  have inside : ∀ {z : N}, z ∈ keys (f.fill t) ∨ z = g.label.2 ∨ z ∈ keys g.sibling → z ∈ keys (plug (f :: g :: K) t) := by
    intro z there
    refine mem_keys_plug (K := K) (t := g.fill (f.fill t)).mpr (.inl (mem_keys_bear.mpr ?_))
    tauto
  refine ((only_paint fun z there => inside (.inr (.inr there))).trans (only_set_color (inside (.inl ?_)))).trans
    (only_set_color (inside (.inr (.inl rfl))))
  exact mem_keys_bear.mpr (.inl rfl)

/-- The round where it is black: what it leaves has a black root above the node of the
    next round. -/
theorem insert_round_turn (holds : Holds m head (f :: g :: K) t) (red : colorOf t = .red) (parent : f.label.1 = .red)
    (black : colorOf g.sibling ≠ .red) {elm : N} (here : ptr t = some elm) :
    ∃ m' elm', insert_color_round m head f.label.2 elm = .ok (m',elm') ∧ Holds m' head K (turn f g t) ∧
      Only m m' head (keys (plug (f :: g :: K) t)) ∧ reds m' (m'.parent elm') = none := by
  have above : Holds m head (g :: K) (f.fill t) := holds_cons_iff.mp holds
  obtain ⟨e,near,far,rfl⟩ := exists_red g.side red
  rw [ptr_bear] at here
  cases here
  have side := side_eq above (.inl (by simp))
  rw [ptr_fill] at side
  obtain ⟨fs,⟨_,p⟩,sib⟩ := f
  obtain rfl := parent
  obtain ⟨gs,⟨gc,gp⟩,uncle⟩ := g
  have start : insert_color_round m head p e =
      (if m.child gs.other p = some e then rb_rotate gs m head p >>= fun m => pure (m,e,p) else pure (m,p,e)) >>= fun r =>
        rb_rotate gs.other (rb_set_blackred r.1 r.2.1 gp) head gp >>= fun m => pure (m,r.2.2) := by
    simp only [insert_color_round,holds.around.1.parent,up_cons,deref,ok_bind,side]
    rw [reds_sibling above,if_neg black]
    by_cases inner : m.child gs.other p = some e
    · simp only [if_pos inner]
      cases rb_rotate gs m head p <;> rfl
    · simp only [if_neg inner]
  -- the second rotation takes the parent or the node up to the black top
  have top : ∀ {m₁ : Memory N} {c : Color} {y : N} {l r : Colored N} {z : N}, Holds m₁ head (⟨gs,(gc,gp),uncle⟩ :: K) (bear gs (c,y) l r) →
      ptr l = some z → ∃ m', rb_rotate gs.other (rb_set_blackred m₁ y gp) head gp = .ok m' ∧
        Holds m' head K (bear gs (.black,y) l (bear gs (.red,gp) r uncle)) ∧
        Only m₁ m' head (keys (plug K (bear gs (gc,gp) (bear gs (c,y) l r) uncle))) ∧ reds m' (m'.parent z) = none := by
    intro m₁ c y l r z holds₁ at_
    obtain ⟨m',run,after,only⟩ := ((holds₁.set_color .black).back_near.set_color .red).rotate_other
    refine ⟨m',run,after,?_,?_⟩
    · have inside : ∀ {z : N}, z = y ∨ z = gp → z ∈ keys (plug K (bear gs (gc,gp) (bear gs (c,y) l r) uncle)) := by
        intro z there
        refine mem_keys_plug.mpr (.inl ?_)
        rw [mem_keys_bear,mem_keys_bear]
        tauto
      have colors : keys (bear gs (.red,gp) (bear gs (.black,y) l r) uncle) = keys (bear gs (gc,gp) (bear gs (c,y) l r) uncle) :=
        keys_bear_congr gs rfl (keys_bear_congr gs rfl rfl rfl) rfl
      rw [keys_plug_congr K colors] at only
      exact ((only_set_color (inside (.inl rfl))).trans (only_set_color (inside (.inr rfl)))).trans only
    · rw [parent_ptr after.near.stands at_,reds_up after.near]
      rfl
  by_cases same : fs = gs
  · subst same
    have outer : m.child fs.other p ≠ some e := by
      rw [holds.around.1.far,← ptr_bear fs (.red,e) near far]
      exact (ptr_ne_sibling holds (.inl (by simp))).symm
    obtain ⟨m',run,after,only,black⟩ := top above (ptr_bear _ _ _ _)
    refine ⟨m',e,?_,?_,only,black⟩
    · rw [start,if_neg outer]
      simp only [pure_bind,run,ok_bind]
      rfl
    · unfold turn
      rw [if_pos rfl]
      exact after
  · obtain rfl := Side.eq_other_of_ne same
    have inner : m.child gs.other p = some e := holds.around.1.near.trans (ptr_bear _ _ _ _)
    have swapped : Holds m head (⟨gs,(gc,gp),uncle⟩ :: K) (bear gs (.red,p) sib (bear gs (.red,e) near far)) := by
      rw [← bear_other]
      exact above
    obtain ⟨m₁,first,holds₁,only₁⟩ := swapped.rotate
    obtain ⟨m',run,after,only,black⟩ := top holds₁ (ptr_bear _ _ _ _)
    refine ⟨m',p,?_,?_,?_,black⟩
    · rw [start,if_pos inner]
      simp only [first,ok_bind,pure_bind,run]
      rfl
    · have turned : turn ⟨gs.other,(.red,p),sib⟩ ⟨gs,(gc,gp),uncle⟩ (bear gs (.red,e) near far) =
          bear gs (.black,e) (bear gs (.red,p) sib near) (bear gs (.red,gp) far uncle) := by
        cases gs <;> rfl
      rw [turned]
      exact after
    · have before_ : plug (⟨gs.other,(.red,p),sib⟩ :: ⟨gs,(gc,gp),uncle⟩ :: K) (bear gs (.red,e) near far) =
          plug (⟨gs,(gc,gp),uncle⟩ :: K) (bear gs (.red,p) sib (bear gs (.red,e) near far)) := by
        rw [plug,Frame.fill,bear_other]
      rw [keys_plug_congr K (keys_bear_congr gs rfl (keys_rotate gs _ _ _ _ _ _ _ rfl rfl) rfl)] at only
      rw [before_]
      exact only₁.trans only

theorem insert_color_step {elm parent : N} {m₁ : Memory N} {elm₁ : N} (fuel : Nat) (red : reds m (m.parent elm) = some parent)
    (round : insert_color_round m head parent elm = .ok (m₁,elm₁)) :
    rb_insert_color head (fuel + 1) m elm = rb_insert_color head fuel m₁ elm₁ := by
  rw [rb_insert_color.eq_def]
  simp only [red,round,ok_bind]

theorem insert_color_ok {n fuel : Nat} {elm : N} (holds : Holds m head K t) (here : ptr t = some elm)
    (balanced : Balanced t .red n) (fits : Fits K .black n) (enough : K.length ≤ 2 * fuel) :
    ∃ m', rb_insert_color head fuel m elm = .ok m' ∧ Holds m' head [] (blacken (insertFix K t)) ∧
      Only m m' head (keys (plug K t)) := by
  have some_ : ptr t ≠ none := by simp [here]
  fun_induction insertFix K t generalizing m elm n fuel with
  | case1 t =>
    refine insert_color_end fuel holds some_ ?_
    rw [parent_ptr holds.stands here]
    rfl
  | case2 f t =>
    obtain ⟨s,⟨_ | _,x⟩,sibling⟩ := f
    · exact insert_color_end fuel holds.whole (by simp) (reds_above holds here)
    · cases fits.2.2
  | case3 f g K t red uncle ih =>
    obtain ⟨m₁,first,holds₁,only₁⟩ := insert_round_uncle holds uncle elm
    obtain ⟨balanced₁,fits₁⟩ := uncle_balanced balanced fits red uncle
    have same : keys (plug K (bear g.side (.red,g.label.2) (bear f.side (.black,f.label.2) t f.sibling) (blacken g.sibling))) =
        keys (plug (f :: g :: K) t) :=
      keys_plug_congr K (keys_bear_congr g.side rfl (keys_bear_congr f.side rfl rfl rfl) (keys_blacken g.sibling))
    cases fuel with
    | zero => simp at enough
    | succ fuel =>
      have low : K.length ≤ 2 * fuel := by
        simp only [List.length_cons] at enough
        omega
      obtain ⟨m',rest,after,only⟩ := ih holds₁ (ptr_bear _ _ _ _) balanced₁ fits₁ low (by simp)
      refine ⟨m',?_,after,only₁.trans (same ▸ only)⟩
      rw [insert_color_step fuel ((reds_above holds here).trans (if_pos red)) first,rest]
  | case4 f g K t red uncle =>
    obtain ⟨m₁,elm₁,first,holds₁,only₁,black⟩ := insert_round_turn holds balanced.color red uncle here
    have same : keys (plug K (turn f g t)) = keys (plug (f :: g :: K) t) :=
      keys_plug_congr K (keys_turn f g t fun none_ => some_ (by rw [ptr,none_]; rfl))
    have root : ptr (turn f g t) ≠ none := by
      unfold turn
      split_ifs
      · simp
      · cases t with
        | nil => exact absurd rfl some_
        | node x l r => simp
    cases fuel with
    | zero => simp at enough
    | succ fuel =>
      obtain ⟨m',rest,after,only⟩ := insert_color_end fuel holds₁.whole (ptr_plug K root) black
      refine ⟨m',?_,after,only₁.trans (same ▸ only)⟩
      rw [insert_color_step fuel ((reds_above holds here).trans (if_pos red)) first,rest]
  | case5 f g K t black =>
    refine insert_color_end fuel holds.whole (ptr_plug _ some_) ?_
    rw [reds_above holds here,if_neg black]

/-! ### After a removal -/

/-- The sibling goes up with the parent's color, between two black nodes. -/
theorem turn_ok {s : Side} {c d : Color} {p w : N} {near far : Colored N}
    (holds : Holds m head K (bear s (c,p) t (bear s (d,w) near far))) :
    ∃ m', remove_color_turn s m head p w = .ok m' ∧
      Holds m' head K (bear s (c,w) (bear s (.black,p) t near) (blacken far)) ∧
      Only m m' head (keys (plug K (bear s (c,p) t (bear s (d,w) near far)))) := by
  have colored := ((holds.far.set_color c).back_far.set_color .black)
  have painted := (colored.far.far.paint.back_far).back_far
  obtain ⟨m',run,after,only⟩ := painted.rotate
  have inside : ∀ {z : N}, z = w ∨ z = p ∨ z ∈ keys far → z ∈ keys (plug K (bear s (c,p) t (bear s (d,w) near far))) := by
    intro z there
    refine mem_keys_plug.mpr (.inl ?_)
    rw [mem_keys_bear,mem_keys_bear]
    tauto
  have same : keys (bear s (.black,p) t (bear s (c,w) near (blacken far))) = keys (bear s (c,p) t (bear s (d,w) near far)) :=
    keys_bear_congr s rfl rfl (keys_bear_congr s rfl rfl (keys_blacken far))
  refine ⟨m',?_,after,?_⟩
  · have read : ((m.set_color w c).set_color p .black).child s.other w = ptr far := by
      rw [child_set_color,child_set_color]
      exact holds.far.linked.far
    rw [remove_color_turn,holds.color]
    simp only [read]
    exact run
  · rw [keys_plug_congr K same] at only
    exact (((only_set_color (inside (.inl rfl))).trans (only_set_color (inside (.inr (.inl rfl))))).trans
      (only_paint fun z there => inside (.inr (.inr there)))).trans only

theorem settle_ok {s : Side} {c : Color} {p w : N} {sib : Colored N} {n : Nat} (holds : Holds m head (⟨s,(c,p),sib⟩ :: K) t)
    (here : ptr sib = some w) (balanced : Balanced sib .black (n + 1)) :
    ∃ m', remove_color_settle s m head p w = .ok (m',(settle s (c,p) t sib).2) ∧ Holds m' head K (settle s (c,p) t sib).1 ∧
      Only m m' head (keys (plug (⟨s,(c,p),sib⟩ :: K) t)) := by
  have back : Holds m head K (bear s (c,p) t sib) := holds.back_near
  obtain ⟨w,near,far,rfl,left,right⟩ | ⟨w,y,a,b,far,rfl,left,middle,right⟩ | ⟨w,near,far,d,rfl,left,right⟩ :=
    settle_cases (s := s) balanced
  all_goals
    rw [ptr_bear] at here
    cases here
    have both := both_black back.far
  · rw [settle_even left.color right.color]
    refine ⟨_,?_,(back.far.set_color .red).back_far,only_set_color (mem_keys_plug.mpr (.inr ?_))⟩
    · rw [remove_color_settle,if_pos (both.mpr ⟨left.color,right.color⟩)]
      rfl
    · exact mem_keysAround_cons.mpr (.inr (.inl (mem_keys_bear.mpr (.inl rfl))))
  · rw [settle_near right.color]
    obtain ⟨m₁,first,holds₁,only₁⟩ := ((back.far.near.set_color .black).back_near.set_color .red).rotate_other
    obtain ⟨m',run,after,only⟩ := turn_ok holds₁.back_far
    have inside : ∀ {z : N}, z = w ∨ z = y → z ∈ keys (plug (⟨s,(c,p),bear s (.black,w) (bear s (.red,y) a b) far⟩ :: K) t) := by
      intro z there
      refine mem_keys_plug.mpr (.inr (mem_keysAround_cons.mpr (.inr (.inl ?_))))
      rw [mem_keys_bear,mem_keys_bear]
      tauto
    refine ⟨m',?_,by simpa using after,?_⟩
    · have not : ¬ (reds m (m.child .left w) = none ∧ reds m (m.child .right w) = none) := fun held => by
        cases (colorOf_bear s (.red,y) a b).symm.trans (both.mp held).1
      have nearAt : m.child s w = some y := back.far.linked.near.trans (ptr_bear _ _ _ _)
      have tmp : m₁.child s.other p = some y := holds₁.back_far.linked.far.trans (ptr_bear _ _ _ _)
      rw [remove_color_settle,if_neg not,if_pos ((far_black back.far).mpr right.color),nearAt]
      simp only [paint,first,ok_bind,tmp,deref,pure_bind,run]
      rfl
    · have colors : keys (bear s (.red,w) (bear s (.black,y) a b) far) = keys (bear s (.black,w) (bear s (.red,y) a b) far) :=
        keys_bear_congr s rfl (keys_bear_congr s rfl rfl rfl) rfl
      have turned : keys (bear s (.black,y) a (bear s (.red,w) b far)) = keys (bear s (.black,w) (bear s (.red,y) a b) far) :=
        (keys_rotate s (.black,y) (.red,w) _ _ a b far rfl rfl).symm.trans colors
      rw [keys_plug_congr _ colors] at only₁
      rw [keys_plug_congr K (keys_bear_congr s rfl rfl turned)] at only
      rw [plug,Frame.fill,bear_other] at only₁
      exact (((only_set_color (inside (.inr rfl))).trans (only_set_color (inside (.inl rfl)))).trans only₁).trans only
  · rw [settle_far right.color]
    obtain ⟨m',run,after,only⟩ := turn_ok back
    refine ⟨m',?_,after,only⟩
    have red : colorOf far ≠ .black := by simp [right.color]
    rw [remove_color_settle,if_neg fun held => red (both.mp held).2,if_neg fun held => red ((far_black back.far).mp held)]
    simp only [pure_bind,run,ok_bind]
    rfl

/-- The round at a black sibling. -/
theorem remove_round_black {s : Side} {c : Color} {p : N} {sib : Colored N} {n : Nat}
    (holds : Holds m head (⟨s,(c,p),sib⟩ :: K) t) (balanced : Balanced sib .black (n + 1)) :
    ∃ m', remove_color_round m head p (ptr t) = .ok (m',(settle s (c,p) t sib).2) ∧ Holds m' head K (settle s (c,p) t sib).1 ∧
      Only m m' head (keys (plug (⟨s,(c,p),sib⟩ :: K) t)) := by
  obtain ⟨w,near,far,rfl⟩ := balanced.exists_black s
  obtain ⟨m',run,after,only⟩ := settle_ok holds (ptr_bear _ _ _ _) balanced
  refine ⟨m',?_,after,only⟩
  have side := side_eq holds (.inr (by simp))
  have tmp : m.child s.other p = some w := holds.around.1.far.trans (ptr_bear _ _ _ _)
  have color : m.color w ≠ .red := by simp [holds.back_near.far.color]
  rw [remove_color_round,side]
  simp only [tmp,deref,ok_bind,if_neg color,pure_bind,run]

/-- The round at a red one, which goes up first. -/
theorem remove_round_red {s : Side} {c : Color} {p w : N} {near far : Colored N} {n : Nat}
    (holds : Holds m head (⟨s,(c,p),bear s (.red,w) near far⟩ :: K) t) (balanced : Balanced near .black (n + 1)) :
    ∃ m', remove_color_round m head p (ptr t) = .ok (m',(settle s (.red,p) t near).2) ∧
      Holds m' head (⟨s,(.black,w),far⟩ :: K) (settle s (.red,p) t near).1 ∧
      Only m m' head (keys (plug (⟨s,(c,p),bear s (.red,w) near far⟩ :: K) t)) := by
  have painted := (holds.back_near.far.set_color .black).back_far.set_color .red
  obtain ⟨m₁,first,holds₁,only₁⟩ := painted.rotate
  have below := holds₁.near.near
  obtain ⟨v,_,_,nearIs⟩ := balanced.exists_black s
  have nearAt : ptr near = some v := by rw [nearIs,ptr_bear]
  obtain ⟨m',run,after,only⟩ := settle_ok below nearAt balanced
  refine ⟨m',?_,after,?_⟩
  · have side := side_eq holds (.inr (by simp))
    have tmp : m.child s.other p = some w := holds.around.1.far.trans (ptr_bear _ _ _ _)
    have color : m.color w = .red := holds.back_near.far.color
    have tmp₁ : m₁.child s.other p = some v := below.around.1.far.trans nearAt
    rw [remove_color_round,side]
    simp only [tmp,deref,ok_bind,if_pos color,rb_set_blackred,first,tmp₁,pure_bind,run]
  · have colors : keys (bear s (.red,p) t (bear s (.black,w) near far)) = keys (bear s (c,p) t (bear s (.red,w) near far)) :=
      keys_bear_congr s rfl rfl (keys_bear_congr s rfl rfl rfl)
    have turned : keys (bear s (.black,w) (bear s (.red,p) t near) far) = keys (bear s (c,p) t (bear s (.red,w) near far)) :=
      keys_rotate s _ _ _ _ t near far rfl rfl
    have inside : ∀ {z : N}, z = w ∨ z = p → z ∈ keys (plug K (bear s (c,p) t (bear s (.red,w) near far))) := by
      intro z there
      refine mem_keys_plug.mpr (.inl ?_)
      rw [mem_keys_bear,mem_keys_bear]
      tauto
    rw [keys_plug_congr K colors] at only₁
    have moved : keys (plug (⟨s,(.red,p),near⟩ :: ⟨s,(.black,w),far⟩ :: K) t) =
        keys (plug K (bear s (c,p) t (bear s (.red,w) near far))) := keys_plug_congr K turned
    rw [moved] at only
    exact (((only_set_color (inside (.inl rfl))).trans (only_set_color (inside (.inr rfl)))).trans only₁).trans only

/-- The loop ends where the node is red. -/
theorem remove_color_red (fuel : Nat) (holds : Holds m head K t) (red : colorOf t = .red) (parent : Option N) :
    ∃ m', rb_remove_color head fuel m parent (ptr t) = .ok m' ∧ Holds m' head [] (plug K (blacken t)) ∧
      Only m m' head (keys (plug K t)) := by
  refine ⟨_,?_,holds.paint.whole,only_paint fun z there => mem_keys_plug.mpr (.inl there)⟩
  have stop : ¬ (reds m (ptr t) = none ∧ ptr t ≠ m.rbh_root head) := fun going => by
    cases red.symm.trans ((reds_eq_none_iff holds.stands).mp going.1)
  rw [rb_remove_color.eq_def]
  simp only [if_neg stop]
  rfl

theorem remove_color_step {p : N} {elm : Option N} {m₁ : Memory N} {more : Bool} (fuel : Nat)
    (going : reds m elm = none ∧ elm ≠ m.rbh_root head) (round : remove_color_round m head p elm = .ok (m₁,more)) :
    rb_remove_color head (fuel + 1) m (some p) elm =
      if more then rb_remove_color head fuel m₁ (m₁.parent p) (some p) else .ok (paint m₁ (m₁.rbh_root head) .black) := by
  rw [rb_remove_color.eq_def]
  simp only [if_pos going,deref,round,ok_bind]
  rfl

theorem remove_color_ok {c : Color} {n fuel : Nat} (holds : Holds m head K t) (balanced : Balanced t c n)
    (fits : Fits K .black (n + 1)) (enough : K.length ≤ fuel) :
    ∃ m', rb_remove_color head fuel m (up K) (ptr t) = .ok m' ∧ Holds m' head [] (removeFix K t) ∧
      Only m m' head (keys (plug K t)) := by
  induction K generalizing m t c n fuel with
  | nil =>
    refine ⟨_,?_,holds.paint,only_paint fun _ there => there⟩
    have stop : ¬ (reds m (ptr t) = none ∧ ptr t ≠ m.rbh_root head) := fun going => going.2 holds.around.symm
    rw [rb_remove_color.eq_def]
    simp only [if_neg stop]
    rfl
  | cons f K ih =>
    cases c with
    | red =>
      rw [removeFix_red balanced.color]
      exact remove_color_red fuel holds balanced.color _
    | black =>
      obtain ⟨fuel,rfl⟩ : ∃ k, fuel = k + 1 := ⟨fuel - 1,by simp only [List.length_cons] at enough; omega⟩
      have going : reds m (ptr t) = none ∧ ptr t ≠ m.rbh_root head :=
        ⟨(reds_eq_none_iff holds.stands).mpr balanced.color,root_ne holds⟩
      obtain ⟨s,⟨c,p⟩,sibling⟩ := f
      cases other : colorOf sibling with
      | black =>
        have sib := fits.sibling other
        obtain ⟨m₁,first,holds₁,only₁⟩ := remove_round_black holds sib
        have same : keys (plug K (settle s (c,p) t sibling).1) = keys (plug (⟨s,(c,p),sibling⟩ :: K) t) :=
          keys_plug_congr K (keys_settle s (c,p) t sibling)
        rw [removeFix_black balanced.color other,up_cons,remove_color_step fuel going first]
        split_ifs with short
        · have at_ := settle_short_ptr sib short
          obtain ⟨color,above⟩ := settle_short balanced sib (Prod.ext (y := (_,true)) rfl short)
          rw [parent_ptr holds₁.stands at_,← at_]
          have rest : ∃ m', rb_remove_color head fuel m₁ (up K) (ptr (settle s (c,p) t sibling).1) = .ok m' ∧
              Holds m' head [] (removeFix K (settle s (c,p) t sibling).1) ∧
              Only m₁ m' head (keys (plug K (settle s (c,p) t sibling).1)) := by
            cases c with
            | red =>
              rw [removeFix_red color]
              exact remove_color_red fuel holds₁ color _
            | black =>
              rw [blacken_black color] at above
              exact ih holds₁ above fits.2 (by simpa using enough)
          obtain ⟨m',run,after,only⟩ := rest
          exact ⟨m',run,after,only₁.trans (same ▸ only)⟩
        · refine ⟨_,rfl,paint_root holds₁.whole,?_⟩
          exact only₁.trans (same ▸ only_paint_root holds₁.whole)
      | red =>
        obtain ⟨w,near,far,rfl⟩ := exists_red s other
        cases c with
        | red => cases other.symm.trans fits.2.1.color
        | black =>
          obtain ⟨⟨d,sib⟩,-⟩ := fits
          obtain ⟨-,left,-⟩ := balanced_red_iff.mp sib
          obtain ⟨m₁,first,holds₁,only₁⟩ := remove_round_red holds left
          have same : keys (plug (⟨s,(.black,w),far⟩ :: K) (settle s (.red,p) t near).1) =
              keys (plug (⟨s,(.black,p),bear s (.red,w) near far⟩ :: K) t) :=
            keys_plug_congr K ((keys_bear_congr s rfl (keys_settle s (.red,p) t near) rfl).trans
              (keys_rotate s (.red,p) (.black,w) _ _ t near far rfl rfl))
          rw [removeFix_turn balanced.color,up_cons,remove_color_step fuel going first]
          split_ifs with short
          · have at_ := settle_short_ptr left short
            obtain ⟨color,-⟩ := settle_short balanced left (Prod.ext (y := (_,true)) rfl short)
            obtain ⟨m',run,after,only⟩ := remove_color_red fuel holds₁ color (m₁.parent p)
            rw [at_] at run
            exact ⟨m',run,after,only₁.trans (same ▸ only)⟩
          · refine ⟨_,rfl,paint_root holds₁.whole,?_⟩
            exact only₁.trans (same ▸ only_paint_root holds₁.whole)


end

end Htools.RbTree
