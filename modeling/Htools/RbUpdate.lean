import Htools.RbSearch

/-!
`RB_INSERT` and `RB_REMOVE` of `hutils/include/hutils/tree.h`: each ends, in a tree
that is not too high for its loops, and leaves a red-black tree with one node more or
less in the order of the old ones.
-/
namespace Htools.RbTree
open Zippers RedBlack

variable {N : Type}

section
variable {m : Memory N} {head fuel : Nat} {K : List (Frame (Color × N))} {t : Colored N}

theorem guides_keys {go : N → Int} : Guides (fun x : Color × N => go x.2) (inorder t) ↔ Guides go (keys t) := by
  rw [Guides,Guides,keys,List.pairwise_map]

/-- The last comparison of a search tells on which side of the last parent it ended. -/
def Points : List (Frame (Color × N)) → Int → Prop
  | [],_ => True
  | f :: _,comp => f.side = if comp < 0 then .left else .right

/-- The next node is the first one of the right subtree, at a place with nothing before it. -/
theorem leftmost_ok {parent : Option N} {z : N} (stands : Stands m parent t) (enough : t.height ≤ fuel) (here : ptr t = some z) :
    ∃ S c y u, t = plug S (.node (c,y) .nil u) ∧ before S = [] ∧ rb_last .left fuel m z = .ok y := by
  induction fuel generalizing t parent z with
  | zero =>
    cases t with
    | nil => cases here
    | node x l r => simp at enough
  | succ fuel ih =>
    cases t with
    | nil => cases here
    | node x l r =>
      cases here
      simp only [BinaryTree.height] at enough
      rw [rb_last.eq_def]
      simp only [read_left stands]
      cases at_ : ptr l with
      | none =>
        rw [ptr,Option.map_eq_none_iff,rootOf_eq_none_iff] at at_
        subst at_
        exact ⟨[],x.1,x.2,r,rfl,rfl,rfl⟩
      | some w =>
        obtain ⟨S,c,y,u,rfl,first,run⟩ := ih stands.2.1 (by omega) at_
        refine ⟨S ++ [⟨.left,x,r⟩],c,y,u,?_,?_,run⟩
        · rw [plug_append]
          rfl
        · rw [before_append,first]
          rfl

theorem augment_up_ok {f : Frame (Color × N)} (holds : Holds m head (f :: K) t) (enough : K.length < fuel) :
    rb_augment_up fuel m f.label.2 = .ok () := by
  induction K generalizing f t fuel with
  | nil =>
    obtain ⟨fuel,rfl⟩ : ∃ k, fuel = k + 1 := ⟨fuel - 1,by omega⟩
    have parent : m.parent f.label.2 = none := holds.around.1.parent
    simp only [rb_augment_up,parent]
  | cons g K ih =>
    obtain ⟨fuel,rfl⟩ : ∃ k, fuel = k + 1 := ⟨fuel - 1,by omega⟩
    have parent : m.parent f.label.2 = some g.label.2 := holds.around.1.parent
    simp only [rb_augment_up,parent]
    exact ih (holds_cons_iff.mp holds) (by simpa using enough)

theorem insert_search_ok [DecidableEq N] {cmp : N → N → Int} {elm : N} {comp : Int} (stands : Stands m (up K) t)
    (points : Points K comp) (enough : t.height ≤ fuel) :
    (∃ z, ptr (descend (fun x => cmp elm x.2) K t).2 = some z ∧
      insert_search cmp m elm fuel (ptr t) (up K) comp = .ok (.inl z)) ∨
    ((descend (fun x => cmp elm x.2) K t).2 = .nil ∧ ∃ comp', Points (descend (fun x => cmp elm x.2) K t).1 comp' ∧
      insert_search cmp m elm fuel (ptr t) (up K) comp = .ok (.inr (up (descend (fun x => cmp elm x.2) K t).1,comp'))) := by
  induction t generalizing fuel K comp with
  | nil => exact .inr ⟨rfl,comp,points,by cases fuel <;> rfl⟩
  | node x l r ihl ihr =>
    simp only [BinaryTree.height] at enough
    obtain ⟨fuel,rfl⟩ : ∃ k, fuel = k + 1 := ⟨fuel - 1,by omega⟩
    simp only [descend,ptr_node,insert_search,read_left stands,read_right stands]
    split_ifs with less more
    · exact @ihl fuel (⟨.left,x,r⟩ :: K) (cmp elm x.2) stands.2.1 (by simp [Points,less]) (by omega)
    · exact @ihr fuel (⟨.right,x,l⟩ :: K) (cmp elm x.2) stands.2.2 (by simp [Points,less]) (by omega)
    · exact .inl ⟨x.2,rfl,rfl⟩

end

section
variable [DecidableEq N] {m : Memory N} {head fuel : Nat} {K : List (Frame (Color × N))} {t : Colored N}

/-- The new node goes where the search has ended, and the tree is repaired. -/
theorem attach_ok {elm : N} {comp : Int} (holds : Holds m head K .nil) (tree : RedBlackTree (plug K (.nil : Colored N)))
    (fresh : elm ∉ keysAround K) (points : Points K comp) (enough : K.length ≤ 2 * fuel) :
    ∃ m', rb_insert_color head fuel (rb_attach m head (up K) comp elm) elm = .ok m' ∧
      Holds m' head [] (blacken (insertFix K (.node (.red,elm) .nil .nil))) ∧ Only m m' head (elm :: keysAround K) := by
  obtain ⟨c,n,empty,fits⟩ := Balanced.fits tree
  cases empty
  have leaf : Balanced (.node (.red,elm) .nil .nil) .red 0 := .red .nil .nil
  have inside : ∀ z ∈ keys (plug K (.node (.red,elm) .nil .nil)), z ∈ elm :: keysAround K := fun z there => by
    obtain here | out := mem_keys_plug.mp there
    · simp only [keys_node,keys_nil,List.nil_append,List.mem_singleton] at here
      exact here ▸ List.mem_cons_self
    · exact List.mem_cons_of_mem elm out
  have set : Only m (rb_set m elm (up K)) head (elm :: keysAround K) :=
    ⟨fun z outside => field_set m (up K) fun same => outside (same ▸ List.mem_cons_self),fun _ _ => rfl⟩
  cases K with
  | nil =>
    obtain ⟨m',run,after,only⟩ := insert_color_ok (holds.attach_root elm) rfl leaf fits enough
    have root : Only (rb_set m elm none) (rb_attach m head none comp elm) head [elm] :=
      ⟨fun _ _ => rfl,fun other differ => by simp [rb_attach,differ]⟩
    exact ⟨m',run,after,(set.trans root).trans (only.mono inside)⟩
  | cons f K =>
    obtain ⟨m',run,after,only⟩ := insert_color_ok (holds.attach_cons fresh) rfl leaf fits enough
    refine ⟨m',?_,after,(set.trans (only_set_child ?_)).trans (only.mono inside)⟩
    · rw [points] at run
      simp only [rb_attach,up_cons]
      split_ifs at run ⊢
      · exact run
      · exact run
    · exact List.mem_cons_of_mem elm (mem_keysAround_cons.mpr (.inl rfl))

/-- `RB_INSERT` gives the node that compares equal, if there is one. -/
theorem rb_insert_found {cmp : N → N → Int} {elm z : N} (holds : Holds m head [] t) (enough : t.height ≤ fuel)
    (found : ptr (descend (fun x => cmp elm x.2) [] t).2 = some z) : rb_insert cmp fuel head m elm = .ok (m,some z) := by
  have root : m.rbh_root head = ptr t := holds.around
  obtain ⟨z',is,run⟩ | ⟨nil,-⟩ := @insert_search_ok _ m fuel [] t _ cmp elm 0 holds.stands trivial enough
  · obtain rfl := Option.some.inj (is.symm.trans found)
    rw [up_nil] at run
    simp only [rb_insert,root,run,ok_bind]
    rfl
  · rw [nil] at found
    cases found

/-- Otherwise the node goes in between those before and after it. -/
theorem rb_insert_new {cmp : N → N → Int} {elm : N} (holds : Holds m head [] t) (tree : RedBlackTree t)
    (enough : t.height ≤ fuel) (fresh : elm ∉ keys t) (none_ : (descend (fun x => cmp elm x.2) [] t).2 = .nil) :
    ∃ m' t', rb_insert cmp fuel head m elm = .ok (m',none) ∧ Holds m' head [] t' ∧ RedBlackTree t' ∧
      Only m m' head (elm :: keys t) ∧ keys t' = (before (descend (fun x => cmp elm x.2) [] t).1).map Prod.snd ++
        elm :: (after (descend (fun x => cmp elm x.2) [] t).1).map Prod.snd := by
  have root : m.rbh_root head = ptr t := holds.around
  have whole : plug (descend (fun x : Color × N => cmp elm x.2) [] t).1 (descend (fun x => cmp elm x.2) [] t).2 = t :=
    plug_descend [] t
  obtain ⟨z,is,-⟩ | ⟨-,comp,points,run⟩ := @insert_search_ok _ m fuel [] t _ cmp elm 0 holds.stands trivial enough
  · rw [none_] at is
    cases is
  generalize descend (fun x : Color × N => cmp elm x.2) [] t = place at *
  obtain ⟨K,u⟩ := place
  simp only at none_ whole points run ⊢
  subst none_
  obtain rfl := whole
  have out : ∀ z, z ∈ keys (plug K (.nil : Colored N)) ↔ z ∈ keysAround K := fun z => by
    rw [mem_keys_plug]
    simp
  have short := length_le_height K (.nil : Colored N)
  obtain ⟨m',step,after_,only⟩ := attach_ok (holds_plug_iff.mp holds) tree (fun there => fresh ((out elm).mpr there)) points
    (show K.length ≤ 2 * fuel by omega)
  refine ⟨m',_,?_,after_,?_,?_,?_⟩
  · rw [up_nil] at run
    simp only [rb_insert,root,run,ok_bind,step]
    rfl
  · obtain ⟨c,n,empty,fits⟩ := Balanced.fits tree
    cases empty
    exact insertFix_balanced (.red .nil .nil) fits
  · refine only.mono fun z there => ?_
    obtain rfl | there := List.mem_cons.mp there
    · exact List.mem_cons_self
    · exact List.mem_cons_of_mem elm ((out z).mpr there)
  · rw [keys_blacken,keys_insertFix _ _ (by simp),keys_plug]
    simp [keys]

/-! ### Removals -/

theorem remove_end_ok {c : Color} (holds : Holds m head K t) (red : c = .red → RedBlackTree (plug K t))
    (black : c = .black → ∃ d n, Balanced t d n ∧ Fits K .black (n + 1)) (enough : K.length ≤ fuel) :
    ∃ m' t', remove_end fuel head m c (up K) (ptr t) = .ok m' ∧ Holds m' head [] t' ∧ RedBlackTree t' ∧
      keys t' = keys (plug K t) ∧ Only m m' head (keys (plug K t)) := by
  cases c with
  | red => exact ⟨m,_,rfl,holds.whole,red rfl,rfl,Only.refl _ _ _⟩
  | black =>
    obtain ⟨d,n,balanced,fits⟩ := black rfl
    obtain ⟨m',run,after,only⟩ := remove_color_ok holds balanced fits enough
    exact ⟨m',_,run,after,removeFix_balanced balanced fits,keys_removeFix K t,only⟩

/-- The removal of a node with one child at most. -/
theorem unlink_ok {s : Side} {c : Color} {x : N} (holds : Holds m head K (bear s (c,x) .nil t))
    (tree : RedBlackTree (plug K (bear s (c,x) .nil t))) (enough : K.length ≤ fuel) :
    ∃ m' t', remove_end fuel head (rb_unlink m head x (ptr t)) (m.color x) (m.parent x) (ptr t) = .ok m' ∧ Holds m' head [] t' ∧
      RedBlackTree t' ∧ keys t' = keys (plug K t) ∧ Only m m' head (keys (plug K (bear s (c,x) .nil t))) := by
  obtain ⟨unlinked,only⟩ := holds.unlink
  obtain ⟨red,black⟩ := unlink_fits tree
  obtain ⟨m',t',run,after,tree',same,only'⟩ := remove_end_ok unlinked red black enough
  have color : m.color x = c := holds.color
  have parent : m.parent x = up K := holds.linked.parent
  refine ⟨m',t',by rw [color,parent]; exact run,after,tree',same,only.trans (only'.mono fun z there => ?_)⟩
  rw [mem_keys_plug] at there ⊢
  rw [mem_keys_bear]
  tauto

/-- The parent of the place that the next node leaves, where the node is not itself
    the parent that goes. -/
theorem supplant_parent {c : Color} {x y : N} {l : Colored N} {S : List (Frame (Color × N))}
    (nodup : (keysAround (S ++ ⟨.right,(c,x),l⟩ :: K)).Nodup) :
    (if up (S ++ ⟨.right,(c,x),l⟩ :: K) = some x then some y else up (S ++ ⟨.right,(c,x),l⟩ :: K)) =
      up (S ++ ⟨.right,(c,y),l⟩ :: K) := by
  cases S with
  | nil => exact if_pos rfl
  | cons f S =>
    refine if_neg fun same => ?_
    have there : x ∈ keysAround (S ++ ⟨.right,(c,x),l⟩ :: K) := mem_keysAround_append.mpr (.inr (mem_keysAround_cons.mpr (.inl rfl)))
    obtain ⟨-,out,-⟩ := nodup_keysAround_cons.mp nodup
    exact out (Option.some.inj same ▸ there)

/-- The next node takes the place of a node with two children. -/
theorem supplant_place {c d : Color} {x y z : N} {l u : Colored N} {S : List (Frame (Color × N))}
    (here : Holds m head (S ++ ⟨.right,(c,x),l⟩ :: K) (bear .left (d,y) .nil u)) (left : ptr l ≠ none)
    (last : rb_last .left fuel m z = .ok y) (enough : (S ++ ⟨.right,(c,x),l⟩ :: K).length ≤ fuel) :
    ∃ m', rb_supplant fuel head m x z = remove_end fuel head m' d (up (S ++ ⟨.right,(c,y),l⟩ :: K)) (ptr u) ∧
      Holds m' head (S ++ ⟨.right,(c,y),l⟩ :: K) u ∧
      Only m m' head (keys (plug (S ++ ⟨.right,(c,x),l⟩ :: K) (bear .left (d,y) .nil u))) := by
  obtain ⟨lv,leftAt⟩ := Option.ne_none_iff_exists'.mp left
  obtain ⟨nodup,apart⟩ := here.apart
  have yOut : y ∉ keysAround (S ++ ⟨.right,(c,x),l⟩ :: K) := apart y (by simp [mem_keys_bear])
  have xIn : x ∈ keysAround (S ++ ⟨.right,(c,x),l⟩ :: K) := mem_keysAround_append.mpr (.inr (mem_keysAround_cons.mpr (.inl rfl)))
  have xy : x ≠ y := by
    rintro rfl
    exact yOut xIn
  obtain ⟨-,yu,-⟩ := nodup_bear.mp nodup
  obtain ⟨unlinked,only₁⟩ := here.unlink
  have color : m.color y = d := here.color
  have parent : m.parent y = up (S ++ ⟨.right,(c,x),l⟩ :: K) := here.linked.parent
  have child : m.child .right y = ptr u := here.linked.far
  simp only at unlinked only₁
  generalize at₁ : rb_unlink m head y (ptr u) = m₁ at unlinked only₁
  have parent₁ : m₁.parent y = up (S ++ ⟨.right,(c,x),l⟩ :: K) := by
    rw [← at₁,rb_unlink,parent_replace,parent_adopt fun is => yu (ptr_mem is),parent]
  have below : Holds m₁ head K (bear .left (c,x) l (plug S u)) := Holds.back_near (s := .right) (holds_append_iff.mp unlinked)
  have split : plug K (bear .left (c,x) l (plug S u)) = plug (S ++ ⟨.right,(c,x),l⟩ :: K) u := by
    rw [plug_append]
    rfl
  have fresh : y ∉ keys (plug K (bear .left (c,x) l (plug S u))) := fun there => by
    rw [split,mem_keys_plug] at there
    exact there.elim yu yOut
  have xOut : x ∉ keysAround K := below.apart.2 x (by simp [mem_keys_bear])
  have linked := below.linked
  have after_ := below.supplant fresh
  have placed := holds_append_iff.mpr (Holds.near (s := .right) after_)
  have old : (m₁.copy_field y x).field x = m₁.field x := field_copy m₁ x xy
  have parentX : (m₁.copy_field y x).parent x = up K := by
    rw [Memory.parent,old]
    exact linked.parent
  have childX : ∀ s, (rb_replace (m₁.copy_field y x) head (up K) x (some y)).child s x = m₁.child s x := fun s => by
    rw [child_replace fun is => xOut (up_mem is)]
    cases s <;> simp [Memory.child,old]
  refine ⟨_,?_,placed,only₁.trans (only_supplant (K := K) (l := l) (r := plug S u) ?_ ?_)⟩
  · obtain ⟨f,K',frames⟩ : ∃ f K', S ++ ⟨.right,(c,y),l⟩ :: K = f :: K' := by
      cases S with
      | nil => exact ⟨_,_,rfl⟩
      | cons f S => exact ⟨f,_,rfl⟩
    have walk := augment_up_ok (frames ▸ placed) (show K'.length < fuel by
      have same := congrArg List.length frames
      simp only [List.length_append,List.length_cons] at same enough
      omega)
    have leftX := (childX .left).trans linked.near
    have rightX := (childX .right).trans linked.far
    simp only [rb_supplant,last,ok_bind,child,at₁,parent₁,parent,supplant_parent here.nodup_around,parentX,leftX,leftAt,deref,
      child_set_parent,rightX,color]
    rw [leftAt] at walk
    have walked : rb_augment_up fuel (adopt ((rb_replace (m₁.copy_field y x) head (up K) x (some y)).set_parent lv (some y))
        (ptr (plug S u)) (some y)) f.label.2 = .ok () := walk
    rw [frames,up_cons]
    simp only [walked,ok_bind]
    rfl
  · exact mem_keys_plug.mpr (.inl (mem_keys_bear.mpr (.inl rfl)))
  · intro w there
    rw [mem_keys_plug] at there ⊢
    rw [mem_keysAround_append,mem_keysAround_cons,mem_keys_bear]
    tauto

/-- `RB_REMOVE` takes the node out of the order of the others. -/
theorem rb_remove_ok {c : Color} {x : N} {l r : Colored N} (holds : Holds m head K (.node (c,x) l r))
    (tree : RedBlackTree (plug K (.node (c,x) l r))) (enough : (plug K (.node (c,x) l r)).height ≤ fuel) :
    ∃ m' t', rb_remove fuel head m x = .ok (m',x) ∧ Holds m' head [] t' ∧ RedBlackTree t' ∧
      keys t' = (before K).map Prod.snd ++ (keys l ++ keys r) ++ (after K).map Prod.snd ∧
      Only m m' head (keys (plug K (.node (c,x) l r))) := by
  have deep := length_le_height K (.node (c,x) l r)
  simp only [BinaryTree.height] at deep
  have left : m.child .left x = ptr l := holds.stands.1.near
  have right : m.child .right x = ptr r := holds.stands.1.far
  have none_ : ∀ {t : Colored N}, ptr t = none → t = .nil := fun at_ => by
    rwa [ptr,Option.map_eq_none_iff,rootOf_eq_none_iff] at at_
  cases leftAt : ptr l with
  | none =>
    obtain rfl := none_ leftAt
    obtain ⟨m',t',run,after_,tree',same,only⟩ := unlink_ok (s := .left) holds tree (show K.length ≤ fuel by omega)
    refine ⟨m',t',?_,after_,tree',?_,only⟩
    · simp only [rb_remove,left,leftAt,right,run,ok_bind]
      rfl
    · rw [same,keys_plug,keys_nil,List.nil_append]
  | some lv =>
    cases rightAt : ptr r with
    | none =>
      obtain rfl := none_ rightAt
      obtain ⟨m',t',run,after_,tree',same,only⟩ := unlink_ok (s := .right) holds tree (show K.length ≤ fuel by omega)
      rw [leftAt] at run
      refine ⟨m',t',?_,after_,tree',?_,only⟩
      · simp only [rb_remove,left,leftAt,right,rightAt,run,ok_bind]
        rfl
      · rw [same,keys_plug,keys_nil,List.append_nil]
    | some z =>
      obtain ⟨S,d,y,u,rfl,first,last⟩ := leftmost_ok holds.stands.2.2 (show r.height ≤ fuel by omega) rightAt
      have whole : plug K (.node (c,x) l (plug S (.node (d,y) .nil u))) =
          plug (S ++ ⟨.right,(c,x),l⟩ :: K) (bear .left (d,y) .nil u) := by
        rw [plug_append]
        rfl
      have place : Holds m head (S ++ ⟨.right,(c,x),l⟩ :: K) (bear .left (d,y) .nil u) := by
        rw [← holds_plug_iff,← whole]
        exact holds.whole
      rw [whole] at tree enough ⊢
      have low := length_le_height (S ++ ⟨.right,(c,x),l⟩ :: K) (bear .left (d,y) .nil u)
      have fits : RedBlackTree (plug (S ++ ⟨.right,(c,y),l⟩ :: K) (bear .left (d,y) .nil u)) := by
        obtain ⟨e,n,balanced,fits⟩ := Balanced.fits tree
        exact Fits.plug (fits_relabel.mp fits) balanced
      obtain ⟨m₁,step,placed,only₁⟩ := supplant_place place (by simp [leftAt]) last (by omega)
      obtain ⟨red,black⟩ := unlink_fits fits
      obtain ⟨m',t',run,after_,tree',same,only⟩ := remove_end_ok placed red black (show _ ≤ fuel by
        simp only [List.length_append,List.length_cons] at low ⊢
        omega)
      refine ⟨m',t',?_,after_,tree',?_,only₁.trans (only.mono fun w there => ?_)⟩
      · simp only [rb_remove,left,leftAt,right,rightAt,step,run,ok_bind]
        rfl
      · rw [same,plug_append,keys_plug S,first]
        simp only [plug,Frame.fill,bear,keys_plug,keys_node,first,List.map_nil,keys_nil,List.nil_append,List.append_assoc,
          List.cons_append]
      · rw [mem_keys_plug,mem_keysAround_append,mem_keysAround_cons] at there ⊢
        rw [mem_keys_bear]
        tauto

end

end Htools.RbTree
