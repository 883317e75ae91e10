import Htools.RbLinks

/-!
What the macros of `hutils/include/hutils/tree.h` do at a place of a red-black tree:
they paint and rotate, put a leaf in, take a node out and put another one in for it.
-/
namespace Htools.RbTree
open Zippers RedBlack

variable {N : Type} [DecidableEq N]

section
variable {m m' : Memory N} {head other : Nat} {s : Side} {elm z : N} {child parent parent' : Option N} {c : Color}
  {t : Colored N} {K : List (Frame (Color × N))} {f : Frame (Color × N)} {nodes : List N}

/-! ### Single writes -/

theorem field_adopt (differ : child ≠ some z) : (adopt m child parent).field z = m.field z := by
  cases child with
  | none => rfl
  | some y => exact field_set_parent fun same => differ (congrArg some same.symm)

@[simp] theorem child_adopt : (adopt m child parent).child s z = m.child s z := by
  cases child <;> simp [adopt]

@[simp] theorem color_adopt : (adopt m child parent).color z = m.color z := by
  cases child <;> simp [adopt]

@[simp] theorem root_adopt : (adopt m child parent).rbh_root = m.rbh_root := by
  cases child <;> rfl

theorem parent_adopt (differ : child ≠ some z) : (adopt m child parent).parent z = m.parent z := by
  rw [Memory.parent,field_adopt differ,Memory.parent]

theorem field_replace (differ : parent ≠ some z) : (rb_replace m head parent elm child).field z = m.field z := by
  cases parent with
  | none => rfl
  | some p =>
    have differ : z ≠ p := fun same => differ (congrArg some same.symm)
    rw [rb_replace]
    split_ifs
    · exact field_set_child differ
    · exact field_set_child differ

@[simp] theorem parent_replace : (rb_replace m head parent elm child).parent z = m.parent z := by
  cases parent with
  | none => rfl
  | some p => rw [rb_replace]; split_ifs <;> simp

@[simp] theorem color_replace : (rb_replace m head parent elm child).color z = m.color z := by
  cases parent with
  | none => rfl
  | some p => rw [rb_replace]; split_ifs <;> simp

theorem child_replace (differ : parent ≠ some z) : (rb_replace m head parent elm child).child s z = m.child s z := by
  cases s <;> simp [Memory.child,field_replace differ]

theorem root_replace (differ : other ≠ head) : (rb_replace m head parent elm child).rbh_root other = m.rbh_root other := by
  cases parent with
  | none => simp [rb_replace,differ]
  | some p => rw [rb_replace]; split_ifs <;> rfl

theorem only_set_color (there : z ∈ nodes) : Only m (m.set_color z c) head nodes where
  field := fun _ outside => field_set_color fun same => outside (same ▸ there)
  root := fun _ _ => rfl

theorem only_set_child (there : z ∈ nodes) : Only m (m.set_child s z child) head nodes where
  field := fun _ outside => field_set_child fun same => outside (same ▸ there)
  root := fun _ _ => rfl

theorem only_set_parent (there : z ∈ nodes) : Only m (m.set_parent z parent) head nodes where
  field := fun _ outside => field_set_parent fun same => outside (same ▸ there)
  root := fun _ _ => rfl

theorem only_adopt (there : ∀ z, child = some z → z ∈ nodes) : Only m (adopt m child parent) head nodes where
  field := fun y outside => field_adopt fun same => outside (there y same)
  root := fun _ _ => by rw [root_adopt]

theorem only_replace (there : ∀ z, parent = some z → z ∈ nodes) : Only m (rb_replace m head parent elm child) head nodes where
  field := fun y outside => field_replace fun same => outside (there y same)
  root := fun _ differ => root_replace differ

/-! ### Places -/

/-- The pointer in a place can be set apart from what is in it. -/
theorem around_set_child {hole : Option N} (around : Around m head (f :: K) hole) (nodup : (keysAround (f :: K)).Nodup) :
    Around (m.set_child f.side f.label.2 child) head (f :: K) child := by
  obtain ⟨linked,sibling,above⟩ := around
  obtain ⟨notSibling,notAbove,-⟩ := nodup_keysAround_cons.mp nodup
  have differ : ∀ {z : N} {l : List N}, z ∈ l → f.label.2 ∉ l → z ≠ f.label.2 := by
    rintro z l there not rfl
    exact not there
  refine ⟨⟨by simp,?_,?_,?_⟩,?_,?_⟩
  · rw [child_set_child,if_neg (by simp),linked.far]
  · rw [parent_set_child,linked.parent]
  · rw [color_set_child,linked.color]
  · exact (stands_congr fun z there => field_set_child (differ there notSibling)).mpr sibling
  · exact (around_congr (fun z there => field_set_child (differ there notAbove)) rfl).mpr above

theorem around_replace (around : Around m head K (some elm)) (nodup : (keysAround K).Nodup) (outside : elm ∉ keysAround K) :
    Around (rb_replace m head (up K) elm child) head K child := by
  cases K with
  | nil => simp [Around,rb_replace]
  | cons f K =>
    have same : rb_replace m head (up (f :: K)) elm child = m.set_child f.side f.label.2 child := by
      obtain ⟨_ | _,x,sibling⟩ := f
      · exact if_pos around.1.near
      · refine if_neg fun here => outside ?_
        exact mem_keysAround_cons.mpr (.inr (.inl (ptr_mem (around.1.far.symm.trans here))))
    rw [same]
    exact around_set_child around nodup

theorem stands_adopt (stands : Stands m parent t) (nodup : (keys t).Nodup) : Stands (adopt m (ptr t) parent') parent' t := by
  cases t with
  | nil => trivial
  | node x l r =>
    obtain ⟨linked,left,right⟩ := stands
    obtain ⟨notL,notR,-⟩ := nodup_bear.mp (show (keys (bear .left x l r)).Nodup from nodup)
    have differ : ∀ {z : N} {l : List N}, z ∈ l → x.2 ∉ l → z ≠ x.2 := by
      rintro z l there not rfl
      exact not there
    refine ⟨⟨?_,?_,?_,?_⟩,?_,?_⟩
    · exact child_adopt.trans linked.near
    · exact child_adopt.trans linked.far
    · simp [adopt]
    · exact color_adopt.trans linked.color
    · exact (stands_congr fun z there => field_set_parent (differ there notL)).mpr left
    · exact (stands_congr fun z there => field_set_parent (differ there notR)).mpr right

/-! ### Colors -/

theorem Holds.set_color {x : Color × N} {a b : Colored N} (holds : Holds m head K (bear s x a b)) (c : Color) :
    Holds (m.set_color x.2 c) head K (bear s (c,x.2) a b) := by
  obtain ⟨nodup,apart⟩ := holds.apart
  obtain ⟨notA,notB,-⟩ := nodup_bear.mp nodup
  obtain ⟨linked,left,right⟩ := stands_bear.mp holds.stands
  have outside : x.2 ∉ keysAround K := apart x.2 (mem_keys_bear.mpr (.inl rfl))
  have differ : ∀ {z : N} {l : List N}, z ∈ l → x.2 ∉ l → z ≠ x.2 := by
    rintro z l there not rfl
    exact not there
  refine ⟨?_,stands_bear.mpr ⟨⟨?_,?_,?_,?_⟩,?_,?_⟩,?_⟩
  · rw [ptr_bear]
    refine (around_congr (fun z there => field_set_color (differ there outside)) rfl).mpr ?_
    exact ptr_bear s x a b ▸ holds.around
  · exact child_set_color.trans linked.near
  · exact child_set_color.trans linked.far
  · exact parent_set_color.trans linked.parent
  · simp
  · exact (stands_congr fun z there => field_set_color (differ there notA)).mpr left
  · exact (stands_congr fun z there => field_set_color (differ there notB)).mpr right
  · rw [keys_plug_congr K (keys_bear_congr s (x := (c,x.2)) (y := x) rfl rfl rfl)]
    exact holds.nodup

theorem Holds.paint (holds : Holds m head K t) : Holds (paint m (ptr t) .black) head K (blacken t) := by
  cases t with
  | nil => exact holds
  | node x l r => exact Holds.set_color (s := .left) holds .black

theorem only_paint (there : ∀ z ∈ keys t, z ∈ nodes) : Only m (paint m (ptr t) c) head nodes := by
  cases t with
  | nil => exact Only.refl m head nodes
  | node x l r => exact only_set_color (there x.2 (by simp))

end

/-! ### Rotations -/

/-- A rotation takes the child on the other side up. -/
theorem Holds.rotate {m : Memory N} {head : Nat} {s : Side} {x y : Color × N} {a b c : Colored N}
    {K : List (Frame (Color × N))} (holds : Holds m head K (bear s x a (bear s y b c))) :
    ∃ m', rb_rotate s m head x.2 = .ok m' ∧ Holds m' head K (bear s y (bear s x a b) c) ∧
      Only m m' head (keys (plug K (bear s x a (bear s y b c)))) := by
  obtain ⟨nodup,apart⟩ := holds.apart
  obtain ⟨xa,xyz,nodupA,nodupY,ay⟩ := nodup_bear.mp nodup
  obtain ⟨yb,yc,nodupB,nodupC,bc⟩ := nodup_bear.mp nodupY
  simp only [mem_keys_bear,not_or] at xyz ay
  obtain ⟨xy,xb,xc⟩ := xyz
  obtain ⟨linkedX,standsA,standsY⟩ := stands_bear.mp holds.stands
  obtain ⟨linkedY,standsB,standsC⟩ := stands_bear.mp standsY
  have outX : x.2 ∉ keysAround K := apart x.2 (by simp [mem_keys_bear])
  have outY : y.2 ∉ keysAround K := apart y.2 (by simp [mem_keys_bear])
  have ptrB : ∀ {z : N}, z ∉ keys b → ptr b ≠ some z := fun not here => not (ptr_mem here)
  have upK : ∀ {z : N}, z ∉ keysAround K → up K ≠ some z := fun not here => not (up_mem here)
  have run : rb_rotate s m head x.2 = .ok ((((rb_replace ((adopt (m.set_child s.other x.2 (ptr b)) (ptr b) (some x.2)).set_parent
      y.2 (up K)) head (up K) x.2 (some y.2)).set_child s y.2 (some x.2)).set_parent x.2 (some y.2))) := by
    simp only [rb_rotate,linkedX.far,ptr_bear,deref,ok_bind]
    have unread : (m.set_child s.other x.2 (m.child s y.2)).child s y.2 = ptr b := by
      rw [child_set_child,if_neg (by simp),linkedY.near]
    have above : (adopt (m.set_child s.other x.2 (ptr b)) (ptr b) (some x.2)).parent x.2 = up K := by
      rw [parent_adopt (ptrB xb),parent_set_child,linkedX.parent]
    rw [unread,linkedY.near,above,parent_set_parent,if_neg xy,above]
    rfl
  generalize into : (adopt (m.set_child s.other x.2 (ptr b)) (ptr b) (some x.2)).set_parent y.2 (up K) = m₁ at run
  -- the entries of all but four nodes are as they were
  have same₁ : ∀ z, z ≠ x.2 → z ≠ y.2 → ptr b ≠ some z → m₁.field z = m.field z := by
    intro z zx zy zb
    rw [← into,field_set_parent zy,field_adopt zb,field_set_child zx]
  have same : ∀ z, z ≠ x.2 → z ≠ y.2 → ptr b ≠ some z → up K ≠ some z →
      (((rb_replace m₁ head (up K) x.2 (some y.2)).set_child s y.2 (some x.2)).set_parent x.2 (some y.2)).field z = m.field z := by
    intro z zx zy zb zK
    rw [field_set_parent zx,field_set_child zy,field_replace zK,same₁ z zx zy zb]
  have inside : ∀ {u : Colored N}, (∀ z ∈ keys u, z ≠ x.2 ∧ z ≠ y.2 ∧ z ∉ keys b ∧ z ∉ keysAround K) → ∀ z ∈ keys u,
      (((rb_replace m₁ head (up K) x.2 (some y.2)).set_child s y.2 (some x.2)).set_parent x.2 (some y.2)).field z =
        m.field z := fun far z there => by
    obtain ⟨zx,zy,zb,zK⟩ := far z there
    exact same z zx zy (ptrB zb) (upK zK)
  refine ⟨_,run,⟨?_,stands_bear.mpr ⟨⟨?_,?_,?_,?_⟩,stands_bear.mpr ⟨⟨?_,?_,?_,?_⟩,?_,?_⟩,?_⟩,?_⟩,?_⟩
  · have around : Around m₁ head K (some x.2) := by
      refine (around_congr (fun z there => ?_) ?_).mpr (ptr_bear s x a _ ▸ holds.around)
      · refine same₁ z ?_ ?_ (ptrB fun there' => apart z (by simp [mem_keys_bear,there']) there)
        · rintro rfl; exact outX there
        · rintro rfl; exact outY there
      · rw [← into,root_set_parent,root_adopt,root_set_child]
    have replaced : Around (rb_replace m₁ head (up K) x.2 (some y.2)) head K (some y.2) :=
      around_replace around holds.nodup_around outX
    rw [ptr_bear]
    refine (around_congr (fun z there => ?_) ?_).mpr replaced
    · rw [field_set_parent,field_set_child]
      · rintro rfl; exact outY there
      · rintro rfl; exact outX there
    · rfl
  · simp
  · rw [child_set_parent,child_set_child,if_neg (by simp),child_replace (upK outY),← into]
    simp [Ne.symm xy,linkedY.far]
  · rw [parent_set_parent,if_neg (Ne.symm xy),parent_set_child,parent_replace,← into]
    simp
  · rw [color_set_parent,color_set_child,color_replace,← into]
    simp [linkedY.color]
  · rw [child_set_parent,child_set_child,if_neg (by simp [xy]),child_replace (upK outX),← into]
    simp [linkedX.near]
  · rw [child_set_parent,child_set_child,if_neg (by simp [xy]),child_replace (upK outX),← into]
    simp
  · simp
  · rw [color_set_parent,color_set_child,color_replace,← into]
    simp [linkedX.color]
  · refine (stands_congr (inside fun z there => ⟨?_,?_,(ay z there).2.1,apart z (by simp [mem_keys_bear,there])⟩)).mpr standsA
    · rintro rfl; exact xa there
    · rintro rfl; exact (ay _ there).1 rfl
  · have adopted : Stands m₁ (some x.2) b := by
      rw [← into]
      have first : Stands (m.set_child s.other x.2 (ptr b)) (some y.2) b :=
        (stands_congr fun z there => field_set_child (by rintro rfl; exact xb there)).mpr standsB
      refine (stands_congr fun z there => field_set_parent ?_).mpr (stands_adopt first nodupB)
      rintro rfl; exact yb there
    refine (stands_congr fun z there => ?_).mpr adopted
    rw [field_set_parent,field_set_child,field_replace (upK (apart z (by simp [mem_keys_bear,there])))]
    · rintro rfl; exact yb there
    · rintro rfl; exact xb there
  · refine (stands_congr (inside fun z there => ⟨?_,?_,fun there' => bc z there' there,
      apart z (by simp [mem_keys_bear,there])⟩)).mpr standsC
    · rintro rfl; exact xc there
    · rintro rfl; exact yc there
  · rw [keys_plug_congr K (keys_rotate s x y x y a b c rfl rfl)]
    exact holds.nodup
  · have here : ∀ {z : N}, z ∈ keys (bear s x a (bear s y b c)) → z ∈ keys (plug K (bear s x a (bear s y b c))) :=
      fun there => mem_keys_plug.mpr (.inl there)
    have first : Only m m₁ head (keys (plug K (bear s x a (bear s y b c)))) := by
      rw [← into]
      refine ((only_set_child (here (by simp [mem_keys_bear]))).trans (only_adopt fun z is => here ?_)).trans
        (only_set_parent (here (by simp [mem_keys_bear])))
      simp [mem_keys_bear,ptr_mem is]
    refine ((first.trans (only_replace fun z is => mem_keys_plug.mpr (.inr (up_mem is)))).trans
      (only_set_child (here (by simp [mem_keys_bear])))).trans (only_set_parent (here (by simp [mem_keys_bear])))

section
variable {m : Memory N} {head : Nat} {s : Side} {K : List (Frame (Color × N))} {t : Colored N} {elm : N}

/-- The rotation the other way. -/
theorem Holds.rotate_other {x y : Color × N} {a b c : Colored N} (holds : Holds m head K (bear s x (bear s y a b) c)) :
    ∃ m', rb_rotate s.other m head x.2 = .ok m' ∧ Holds m' head K (bear s y a (bear s x b c)) ∧
      Only m m' head (keys (plug K (bear s x (bear s y a b) c))) := by
  rw [← bear_other s x,← bear_other s y] at holds
  obtain ⟨m',run,after,only⟩ := holds.rotate
  rw [bear_other,bear_other] at after only
  exact ⟨m',run,after,only⟩

/-! ### Leaves -/

theorem field_set (m : Memory N) (parent : Option N) {z : N} (differ : z ≠ elm) : (rb_set m elm parent).field z = m.field z :=
  Function.update_of_ne differ _ _

theorem linked_set (m : Memory N) (s : Side) (parent : Option N) : Linked (rb_set m elm parent) s (.red,elm) none none parent := by
  constructor <;> cases s <;> simp [rb_set,Memory.child,Memory.parent,Memory.color,Side.other]

/-- A new red node at the place where a search has ended. -/
theorem Holds.attach (holds : Holds m head K .nil) (fresh : elm ∉ keysAround K) {m' : Memory N}
    (around : Around (rb_set m elm (up K)) head K none → Around m' head K (some elm))
    (only : ∀ z ∉ keysAround K, m'.field z = (rb_set m elm (up K)).field z) :
    Holds m' head K (.node (.red,elm) .nil .nil) := by
  have differ : ∀ {z : N}, z ∈ keysAround K → z ≠ elm := by
    rintro z there rfl
    exact fresh there
  refine ⟨around ?_,⟨?_,trivial,trivial⟩,?_⟩
  · exact (around_congr (fun z there => field_set m (up K) (differ there)) rfl).mpr holds.around
  · exact (linked_congr (only elm fresh)).mpr (linked_set m .left (up K))
  · refine (perm_keys_plug K _).nodup_iff.mpr ?_
    simpa [keys] using ⟨fresh,holds.nodup_around⟩

theorem Holds.attach_root (holds : Holds m head [] .nil) (elm : N) :
    Holds ((rb_set m elm none).set_root head (some elm)) head [] (.node (.red,elm) .nil .nil) :=
  holds.attach (fun there => by cases there) (fun _ => by simp [Around]) fun _ _ => rfl

theorem Holds.attach_cons {f : Frame (Color × N)} (holds : Holds m head (f :: K) .nil) (fresh : elm ∉ keysAround (f :: K)) :
    Holds ((rb_set m elm (some f.label.2)).set_child f.side f.label.2 (some elm)) head (f :: K)
      (.node (.red,elm) .nil .nil) := by
  refine holds.attach fresh (fun around => around_set_child around holds.nodup_around) fun z outside => ?_
  exact field_set_child fun same => outside (mem_keysAround_cons.mpr (.inl same))

/-! ### Nodes that leave -/

/-- A node with one child at most goes out of the tree. -/
theorem Holds.unlink {x : Color × N} (holds : Holds m head K (bear s x .nil t)) :
    Holds (rb_unlink m head x.2 (ptr t)) head K t ∧
      Only m (rb_unlink m head x.2 (ptr t)) head (keys (plug K (bear s x .nil t))) := by
  obtain ⟨nodup,apart⟩ := holds.apart
  obtain ⟨-,xt,-,nodupT,-⟩ := nodup_bear.mp nodup
  obtain ⟨linked,-,below⟩ := stands_bear.mp holds.stands
  have outside : x.2 ∉ keysAround K := apart x.2 (by simp [mem_keys_bear])
  have apartT : ∀ z ∈ keys t, z ∉ keysAround K := fun z there => apart z (by simp [mem_keys_bear,there])
  rw [rb_unlink,linked.parent]
  refine ⟨⟨?_,?_,?_⟩,?_⟩
  · refine around_replace ?_ holds.nodup_around outside
    refine (around_congr (fun z there => field_adopt fun is => ?_) (by rw [root_adopt])).mpr (ptr_bear s x .nil t ▸ holds.around)
    exact apartT z (ptr_mem is) there
  · refine (stands_congr fun z there => field_replace fun is => ?_).mpr (stands_adopt below nodupT)
    exact apartT z there (up_mem is)
  · refine (perm_keys_plug K t).nodup_iff.mpr (List.nodup_append.mpr ⟨nodupT,holds.nodup_around,?_⟩)
    rintro z there _ there' rfl
    exact apartT z there there'
  · refine (only_adopt fun z is => ?_).trans (only_replace fun z is => ?_)
    · exact mem_keys_plug.mpr (.inl (mem_keys_bear.mpr (.inr (.inr (ptr_mem is)))))
    · exact mem_keys_plug.mpr (.inr (up_mem is))

theorem field_copy (m : Memory N) (old : N) {z : N} (differ : z ≠ elm) : (m.copy_field elm old).field z = m.field z :=
  Function.update_of_ne differ _ _

theorem linked_copy {x : Color × N} {a b parent : Option N} (linked : Linked m s x a b parent) :
    Linked (m.copy_field elm x.2) s (x.1,elm) a b parent := by
  have here : (m.copy_field elm x.2).field elm = m.field x.2 := Function.update_self _ _ _
  obtain ⟨near,far,above,color⟩ := linked
  constructor
  · rw [← near]; cases s <;> simp [Memory.child,here]
  · rw [← far]; cases s <;> simp [Memory.child,here,Side.other]
  · rw [← above,Memory.parent,here]; rfl
  · rw [← color,Memory.color,here]; rfl

/-- Another node takes the place of one, with its color and links. -/
theorem Holds.supplant {x : Color × N} {l r : Colored N} (holds : Holds m head K (bear s x l r))
    (fresh : elm ∉ keys (plug K (bear s x l r))) :
    Holds (adopt (adopt (rb_replace (m.copy_field elm x.2) head (up K) x.2 (some elm)) (ptr l) (some elm)) (ptr r) (some elm))
      head K (bear s (x.1,elm) l r) := by
  obtain ⟨nodup,apart⟩ := holds.apart
  obtain ⟨xl,xr,nodupL,nodupR,lr⟩ := nodup_bear.mp nodup
  obtain ⟨linked,left,right⟩ := stands_bear.mp holds.stands
  have outside : x.2 ∉ keysAround K := apart x.2 (by simp [mem_keys_bear])
  have apartL : ∀ z ∈ keys l, z ∉ keysAround K := fun z there => apart z (by simp [mem_keys_bear,there])
  have apartR : ∀ z ∈ keys r, z ∉ keysAround K := fun z there => apart z (by simp [mem_keys_bear,there])
  rw [mem_keys_plug,mem_keys_bear,not_or,not_or,not_or] at fresh
  obtain ⟨⟨-,newL,newR⟩,newK⟩ := fresh
  have differ : ∀ {z : N} {l : List N}, z ∈ l → elm ∉ l → z ≠ elm := by
    rintro z l there not rfl
    exact not there
  have replaced : ∀ {z : N}, z ≠ elm → z ∉ keysAround K →
      (rb_replace (m.copy_field elm x.2) head (up K) x.2 (some elm)).field z = m.field z := fun new not =>
    (field_replace fun is => not (up_mem is)).trans (field_copy m x.2 new)
  refine ⟨?_,stands_bear.mpr ⟨?_,?_,?_⟩,?_⟩
  · rw [ptr_bear]
    have copied : Around (m.copy_field elm x.2) head K (some x.2) :=
      (around_congr (fun z there => field_copy m x.2 (differ there newK)) rfl).mpr (ptr_bear s x l r ▸ holds.around)
    refine (around_congr (fun z there => ?_) (by rw [root_adopt,root_adopt])).mpr
      (around_replace copied holds.nodup_around outside)
    rw [field_adopt fun is => apartR z (ptr_mem is) there,field_adopt fun is => apartL z (ptr_mem is) there]
  · refine (linked_congr (m := m.copy_field elm x.2) ?_).mpr (linked_copy linked)
    rw [field_adopt fun is => newR (ptr_mem is),field_adopt fun is => newL (ptr_mem is),
      field_replace fun is => newK (up_mem is)]
  · have here : Stands (rb_replace (m.copy_field elm x.2) head (up K) x.2 (some elm)) (some x.2) l :=
      (stands_congr fun z there => replaced (differ there newL) (apartL z there)).mpr left
    exact (stands_congr fun z there => field_adopt fun is => lr z there (ptr_mem is)).mpr (stands_adopt here nodupL)
  · refine stands_adopt (show Stands _ (some x.2) r from ?_) nodupR
    refine (stands_congr fun z there => ?_).mpr right
    rw [field_adopt fun is => lr z (ptr_mem is) there,replaced (differ there newR) (apartR z there)]
  · refine (perm_keys_plug K _).nodup_iff.mpr (List.nodup_append.mpr ⟨nodup_bear.mpr ⟨newL,newR,nodupL,nodupR,lr⟩,
      holds.nodup_around,?_⟩)
    rintro z there _ there' rfl
    obtain rfl | there | there := mem_keys_bear.mp there
    · exact newK there'
    · exact apartL z there there'
    · exact apartR z there there'

theorem only_supplant {old : N} {l r : Colored N} {nodes : List N} (new : elm ∈ nodes)
    (there : ∀ z, z ∈ keys l ∨ z ∈ keys r ∨ z ∈ keysAround K → z ∈ nodes) :
    Only m (adopt (adopt (rb_replace (m.copy_field elm old) head (up K) old (some elm)) (ptr l) (some elm)) (ptr r) (some elm))
      head nodes := by
  have copied : Only m (m.copy_field elm old) head nodes :=
    ⟨fun z outside => field_copy m old fun same => outside (same ▸ new),fun _ _ => rfl⟩
  refine ((copied.trans (only_replace fun z is => ?_)).trans (only_adopt fun z is => ?_)).trans (only_adopt fun z is => ?_)
  · exact there z (.inr (.inr (up_mem is)))
  · exact there z (.inl (ptr_mem is))
  · exact there z (.inr (.inl (ptr_mem is)))

end

end Htools.RbTree
