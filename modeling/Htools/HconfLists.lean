import Htools.HconfMemory
import Htools.HconfRemerge

/-!
The lists of `merge` in memory give what `merge` writes for lists of texts
(`merge_lists_eq`): each loop takes out the nodes that it is meant to take out,
in whatever order the flags come.
-/
namespace Htools.HconfMerge
open Htools.CString Htools.Selection Htools.Tailq Htools.TailqSort VariableEnum

section
variable {junk s : FlagMemory} {heads h h' num : Nat} {lists : Nat → Nodes} {original front back todo : Nodes} {p : Flag}

/-! ### The loops for duplicates -/

theorem strcmp_zero_iff {l r : List Int8} : 0 = strcmp l r ↔ r = l := by
  rw [eq_comm,strcmp_eq_zero,eq_comm]

theorem Holds.same (holds : Holds heads original num s lists) (is : lists h = front) : Holds heads original num s (Function.update lists h front) := by
  rwa [Function.update_eq_self_iff.mpr is.symm]

/-- What is the same as a flag goes from the rest of the list. -/
theorem remove_behind_holds (inside : h < heads) (other : h ≠ flag_list VAR_CPPFLAGS) {flag : Nat} {text : List Int8} : ∀ {todo front : Nodes} {fuel : Nat}
    {s : FlagMemory} {lists : Nat → Nodes}, Holds heads original num s lists → lists h = front ++ todo → s.str flag = text →
    (∀ p ∈ todo, p.2 ≠ flag) → todo.length ≤ fuel →
    ∃ s', remove_behind junk h flag fuel (todo.map Prod.snd).head? s = .ok s' ∧
      Holds heads original num s' (Function.update lists h (front ++ todo.filter fun p => p.1 ≠ text)) ∧ s'.str flag = text ∧ s'.brk = s.brk := by
  intro todo
  induction todo with
  | nil =>
    intro front fuel s lists holds is str _ _
    exact ⟨s,by cases fuel <;> rfl,holds.same is,str,rfl⟩
  | cons p todo ih =>
    intro front fuel s lists holds is str others enough
    obtain ⟨fuel,rfl⟩ : ∃ k, fuel = k + 1 := ⟨fuel - 1,by rw [List.length_cons] at enough; omega⟩
    have queue := holds.queue h inside
    rw [is,List.map_append,List.map_cons] at queue
    have here : p ∈ lists h := is ▸ List.mem_append_right front List.mem_cons_self
    have others' := fun p' there => others p' (List.mem_cons_of_mem p there)
    have enough' : todo.length ≤ fuel := Nat.le_of_succ_le_succ enough
    rw [List.map_cons,List.head?_cons,remove_behind,queue.next,str,holds.str h inside p here]
    by_cases same : p.1 = text
    · have dropped := @holds_drop junk _ _ _ _ _ _ _ _ _ holds inside other is
      have str' : (free_flag junk (remove_flag s h p.2) p.2).str flag = text :=
        (Function.update_of_ne (others p List.mem_cons_self).symm _ _).trans str
      obtain ⟨s',run,holds',str'',brk⟩ := ih dropped (Function.update_self _ _ _) str' others' enough'
      rw [Function.update_idem] at holds'
      rw [if_pos (strcmp_zero_iff.mpr same),List.filter_cons_of_neg (by simpa using same)]
      exact ⟨s',run,holds',str'',brk⟩
    · rw [if_neg (mt strcmp_zero_iff.mp same),List.filter_cons_of_pos (by simpa using same)]
      have is' : lists h = front ++ [p] ++ todo := by rw [is,List.append_assoc,List.singleton_append]
      obtain ⟨s',run,holds',later⟩ := ih holds is' str others' enough'
      rw [List.append_assoc,List.singleton_append] at holds'
      exact ⟨s',run,holds',later⟩

/-- What is the same as a flag goes from the list before it. -/
theorem remove_before_holds (inside : h < heads) (other : h ≠ flag_list VAR_CPPFLAGS) {flag : Nat} {text : List Int8} : ∀ {todo back : Nodes} {fuel : Nat}
    {s : FlagMemory} {lists : Nat → Nodes}, Holds heads original num s lists → lists h = todo ++ back → s.str flag = text →
    (∀ p ∈ todo, p.2 ≠ flag) → todo.length ≤ fuel →
    ∃ s', remove_before junk h flag fuel (todo.map Prod.snd).getLast? s = .ok s' ∧
      Holds heads original num s' (Function.update lists h ((todo.filter fun p => p.1 ≠ text) ++ back)) ∧ s'.str flag = text ∧ s'.brk = s.brk := by
  intro todo
  induction todo using List.reverseRecOn with
  | nil =>
    intro back fuel s lists holds is str _ _
    exact ⟨s,by cases fuel <;> rfl,holds.same is,str,rfl⟩
  | append_singleton todo p ih =>
    intro back fuel s lists holds is str others enough
    obtain ⟨fuel,rfl⟩ : ∃ k, fuel = k + 1 := ⟨fuel - 1,by rw [List.length_append,List.length_singleton] at enough; omega⟩
    rw [List.append_assoc,List.singleton_append] at is
    have queue := holds.queue h inside
    rw [is,List.map_append,List.map_cons] at queue
    have here : p ∈ lists h := is ▸ List.mem_append_right todo List.mem_cons_self
    have others' := fun p' there => others p' (List.mem_append_left [p] there)
    have enough' : todo.length ≤ fuel := by
      rw [List.length_append,List.length_singleton] at enough
      exact Nat.le_of_succ_le_succ enough
    rw [List.map_append,List.map_singleton,List.getLast?_concat,remove_before,queue.prev,str,holds.str h inside p here,
      List.filter_append]
    by_cases same : p.1 = text
    · have dropped := @holds_drop junk _ _ _ _ _ _ _ _ _ holds inside other is
      have str' : (free_flag junk (remove_flag s h p.2) p.2).str flag = text :=
        (Function.update_of_ne (others p (List.mem_append_right todo List.mem_cons_self)).symm _ _).trans str
      obtain ⟨s',run,holds',str'',brk⟩ := ih dropped (Function.update_self _ _ _) str' others' enough'
      rw [Function.update_idem] at holds'
      rw [if_pos (strcmp_zero_iff.mpr same),List.filter_cons_of_neg (by simpa using same),List.filter_nil,
        List.append_nil]
      exact ⟨s',run,holds',str'',brk⟩
    · rw [if_neg (mt strcmp_zero_iff.mp same),List.filter_cons_of_pos (by simpa using same),List.filter_nil,
        List.append_assoc,List.singleton_append]
      exact ih holds is str others' enough'

theorem filter_texts (todo : Nodes) (text : List Int8) :
    (todo.filter fun p => p.1 ≠ text).map Prod.fst = (todo.map Prod.fst).filter fun next => next ≠ text := by
  rw [List.filter_map]
  rfl

theorem Holds.others (holds : Holds heads original num s lists) (inside : h < heads) (is : lists h = front ++ p :: back) :
    ∀ p' ∈ front ++ back, p'.2 ≠ p.2 := by
  intro p' there
  refine holds.alone inside is inside ?_
  rwa [Function.update_self]

/-- The first one of each flag is left. -/
theorem keep_firsts_holds (inside : h < heads) (other : h ≠ flag_list VAR_CPPFLAGS) : ∀ {fuel : Nat} {todo front : Nodes} {s : FlagMemory} {lists : Nat → Nodes},
    Holds heads original num s lists → lists h = front ++ todo → todo.length ≤ fuel →
    ∃ s' kept, keep_firsts junk h fuel (todo.map Prod.snd).head? s = .ok s' ∧
      Holds heads original num s' (Function.update lists h (front ++ kept)) ∧
      kept.map Prod.fst = remove_dups fuel (todo.map Prod.fst) ∧ s'.brk = s.brk := by
  intro fuel
  induction fuel with
  | zero =>
    intro todo front s lists holds is enough
    obtain rfl := List.length_eq_zero_iff.mp (Nat.le_zero.mp enough)
    exact ⟨s,[],rfl,holds.same is,rfl,rfl⟩
  | succ fuel ih =>
    intro todo front s lists holds is enough
    cases todo with
    | nil => exact ⟨s,[],rfl,holds.same is,rfl,rfl⟩
    | cons p todo =>
      have queue := holds.queue h inside
      rw [is,List.map_append,List.map_cons] at queue
      have is' : lists h = front ++ [p] ++ todo := by rw [is,List.append_assoc,List.singleton_append]
      have here : p ∈ lists h := is ▸ List.mem_append_right front List.mem_cons_self
      have fits : todo.length ≤ s.brk := by
        have few := holds.length inside
        rw [is',List.length_append] at few
        omega
      obtain ⟨s₁,run₁,holds₁,_,brk₁⟩ := remove_behind_holds inside other holds is' (holds.str h inside p here)
        (fun p' there => holds.others inside is p' (List.mem_append_right front there)) fits
      have queue₁ := holds₁.queue h inside
      rw [Function.update_self,List.append_assoc,List.singleton_append,List.map_append,List.map_cons] at queue₁
      have fewer : (todo.filter fun p' => p'.1 ≠ p.1).length ≤ fuel :=
        (List.length_filter_le _ _).trans (Nat.le_of_succ_le_succ enough)
      obtain ⟨s₂,kept,run₂,holds₂,texts,brk₂⟩ := ih holds₁ (Function.update_self _ _ _) fewer
      refine ⟨s₂,p :: kept,?_,?_,?_,brk₂.trans brk₁⟩
      · rw [List.map_cons,List.head?_cons,keep_firsts,queue.next,run₁]
        change keep_firsts junk h fuel (s₁.links.tqe_next p.2) s₁ = _
        rw [queue₁.next]
        exact run₂
      · rw [Function.update_idem,List.append_assoc,List.singleton_append] at holds₂
        exact holds₂
      · rw [List.map_cons,List.map_cons,remove_dups_cons,texts,filter_texts]

/-- The last one of each flag is left. -/
theorem keep_lasts_holds (inside : h < heads) (other : h ≠ flag_list VAR_CPPFLAGS) : ∀ {fuel : Nat} {todo back : Nodes} {s : FlagMemory} {lists : Nat → Nodes},
    Holds heads original num s lists → lists h = todo ++ back → todo.length ≤ fuel →
    ∃ s' kept, keep_lasts junk h fuel (todo.map Prod.snd).getLast? s = .ok s' ∧
      Holds heads original num s' (Function.update lists h (kept ++ back)) ∧
      kept.map Prod.fst = (remove_dups fuel (todo.map Prod.fst).reverse).reverse ∧ s'.brk = s.brk := by
  intro fuel
  induction fuel with
  | zero =>
    intro todo back s lists holds is enough
    obtain rfl := List.length_eq_zero_iff.mp (Nat.le_zero.mp enough)
    exact ⟨s,[],rfl,holds.same is,rfl,rfl⟩
  | succ fuel ih =>
    intro todo back s lists holds is enough
    rcases List.eq_nil_or_concat todo with rfl | ⟨todo,p,rfl⟩
    · exact ⟨s,[],rfl,holds.same is,rfl,rfl⟩
    · rw [List.concat_eq_append] at is enough ⊢
      have is' : lists h = todo ++ p :: back := by rw [is,List.append_assoc,List.singleton_append]
      have queue := holds.queue h inside
      rw [is',List.map_append,List.map_cons] at queue
      have here : p ∈ lists h := is' ▸ List.mem_append_right todo List.mem_cons_self
      have fits : todo.length ≤ s.brk := by
        have few := holds.length inside
        rw [is',List.length_append] at few
        omega
      obtain ⟨s₁,run₁,holds₁,_,brk₁⟩ := remove_before_holds inside other holds is' (holds.str h inside p here)
        (fun p' there => holds.others inside is' p' (List.mem_append_left back there)) fits
      have queue₁ := holds₁.queue h inside
      rw [Function.update_self,List.map_append,List.map_cons] at queue₁
      have fewer : (todo.filter fun p' => p'.1 ≠ p.1).length ≤ fuel := by
        rw [List.length_append,List.length_singleton] at enough
        exact (List.length_filter_le _ _).trans (Nat.le_of_succ_le_succ enough)
      obtain ⟨s₂,kept,run₂,holds₂,texts,brk₂⟩ := ih holds₁ (Function.update_self _ _ _) fewer
      refine ⟨s₂,kept ++ [p],?_,?_,?_,brk₂.trans brk₁⟩
      · rw [List.map_append,List.map_singleton,List.getLast?_concat,keep_lasts,queue.prev,run₁]
        change keep_lasts junk h fuel (tailq_prev s₁.links p.2) s₁ = _
        rw [queue₁.prev]
        exact run₂
      · rw [Function.update_idem] at holds₂
        rwa [List.append_assoc,List.singleton_append]
      · rw [List.map_append,List.map_append,List.reverse_append,List.map_singleton,List.reverse_singleton,List.singleton_append,
          remove_dups_cons,List.reverse_cons,texts,filter_texts,List.filter_reverse]

theorem Holds.first (holds : Holds heads original num s lists) (inside : h < heads) : s.links.tqh_first h = ((lists h).map Prod.snd).head? :=
  (holds.queue h inside).head?

/-- `cat_str` for each flag, and for the blank behind it. -/
def write_flags (var : Option (List Int8)) (flags : List (List Int8)) : Option (List Int8) :=
  flags.foldl (fun var flag => cat_str (cat_str var flag) (lit " ")) var

theorem join_write (flags : List (List Int8)) : join flags = write_flags none flags := rfl

/-- One turn: the first flag goes with all that are the same. -/
theorem write_firsts_turn (inside : h < heads) (other : h ≠ flag_list VAR_CPPFLAGS) (holds : Holds heads original num s lists)
    (is : lists h = p :: todo) :
    ∃ s', remove_behind junk h p.2 s.brk ((remove_flag s h p.2).links.tqh_first h) (remove_flag s h p.2) = .ok s' ∧
      s'.str p.2 = p.1 ∧ s'.brk = s.brk ∧
      Holds heads original num (free_flag junk s' p.2) (Function.update lists h (todo.filter fun p' => p'.1 ≠ p.1)) := by
  have here : p ∈ lists h := is ▸ List.mem_cons_self
  have alone : ∀ h' < heads, ∀ p' ∈ Function.update lists h todo h', p'.2 ≠ p.2 :=
    fun _ inside' _ there => holds.alone inside (show lists h = [] ++ p :: todo from is) inside' there
  have removed : Holds heads original num (remove_flag s h p.2) (Function.update lists h ([] ++ todo)) := holds_remove holds inside is
  rw [List.nil_append] at removed
  have first : (remove_flag s h p.2).links.tqh_first h = (todo.map Prod.snd).head? := by
    rw [removed.first inside,Function.update_self]
  have is₁ : Function.update lists h todo h = [] ++ todo := Function.update_self _ _ _
  have fits : todo.length ≤ s.brk := by
    have few := holds.length inside
    rw [is,List.length_cons] at few
    omega
  obtain ⟨s₁,run₁,holds₁,str₁,brk₁⟩ := remove_behind_holds inside other removed is₁ (holds.str h inside p here)
    (fun p' there => alone h inside p' (by rwa [Function.update_self])) fits
  rw [Function.update_idem,List.nil_append] at holds₁
  rw [first]
  refine ⟨s₁,run₁,str₁,brk₁,holds_free holds₁ (fun h' inside' p' there => alone h' inside' p' ?_) fun p' there =>
    (holds.original_apart h inside other p here p' there).symm⟩
  rw [Function.update_apply] at there ⊢
  split at there
  · rename_i same
    rw [if_pos same]
    exact List.mem_of_mem_filter there
  · rename_i differ
    rwa [if_neg differ]

/-- The first one of each flag is written. -/
theorem write_firsts_holds (inside : h < heads) (other : h ≠ flag_list VAR_CPPFLAGS) : ∀ {fuel : Nat} {var : Option (List Int8)}
    {s : FlagMemory} {lists : Nat → Nodes}, Holds heads original num s lists → (lists h).length ≤ fuel →
    ∃ s', write_firsts junk h fuel var s = .ok (write_flags var (remove_dups fuel ((lists h).map Prod.fst)),s') ∧
      Holds heads original num s' (Function.update lists h []) ∧ s'.brk = s.brk := by
  intro fuel
  induction fuel with
  | zero =>
    intro var s lists holds enough
    have is : lists h = [] := List.length_eq_zero_iff.mp (Nat.le_zero.mp enough)
    refine ⟨s,?_,holds.same is,rfl⟩
    unfold write_firsts
    rw [holds.first inside,is]
    rfl
  | succ fuel ih =>
    intro var s lists holds enough
    cases is : lists h with
    | nil =>
      refine ⟨s,?_,holds.same is,rfl⟩
      unfold write_firsts
      rw [holds.first inside,is]
      rfl
    | cons p todo =>
      obtain ⟨s₁,run₁,str₁,brk₁,holds₁⟩ := @write_firsts_turn junk s _ _ _ _ _ _ _ inside other holds is
      have fewer : (Function.update lists h (todo.filter fun p' => p'.1 ≠ p.1) h).length ≤ fuel := by
        rw [Function.update_self]
        rw [is,List.length_cons] at enough
        exact (List.length_filter_le _ _).trans (Nat.le_of_succ_le_succ enough)
      obtain ⟨s₂,run₂,holds₂,brk₂⟩ := @ih (cat_str (cat_str var p.1) (lit " ")) _ _ holds₁ fewer
      rw [Function.update_idem] at holds₂
      refine ⟨s₂,?_,holds₂,brk₂.trans brk₁⟩
      unfold write_firsts
      rw [holds.first inside,is]
      change (remove_behind junk h p.2 s.brk ((remove_flag s h p.2).links.tqh_first h) (remove_flag s h p.2) >>= fun s =>
        write_firsts junk h fuel (cat_str (cat_str var (s.str p.2)) (lit " ")) (free_flag junk s p.2)) = _
      rw [run₁]
      change write_firsts junk h fuel (cat_str (cat_str var (s₁.str p.2)) (lit " ")) (free_flag junk s₁ p.2) = _
      rw [str₁,run₂,Function.update_self,filter_texts,List.map_cons,remove_dups_cons]
      rfl

/-- All flags are written. -/
theorem write_list_holds (inside : h < heads) (other : h ≠ flag_list VAR_CPPFLAGS) : ∀ {fuel : Nat} {var : Option (List Int8)} {s : FlagMemory} {lists : Nat → Nodes},
    Holds heads original num s lists → (lists h).length ≤ fuel →
    ∃ s', write_list junk h fuel var s = .ok (write_flags var ((lists h).map Prod.fst),s') ∧
      Holds heads original num s' (Function.update lists h []) ∧ s'.brk = s.brk := by
  intro fuel
  induction fuel with
  | zero =>
    intro var s lists holds enough
    have is : lists h = [] := List.length_eq_zero_iff.mp (Nat.le_zero.mp enough)
    refine ⟨s,?_,holds.same is,rfl⟩
    unfold write_list
    rw [holds.first inside,is]
    rfl
  | succ fuel ih =>
    intro var s lists holds enough
    cases is : lists h with
    | nil =>
      refine ⟨s,?_,holds.same is,rfl⟩
      unfold write_list
      rw [holds.first inside,is]
      rfl
    | cons p todo =>
      have queue := holds.queue h inside
      rw [is,List.map_cons] at queue
      have here : p ∈ lists h := is ▸ List.mem_cons_self
      have dropped : Holds heads original num (free_flag junk (remove_flag s h p.2) p.2) (Function.update lists h ([] ++ todo)) :=
        holds_drop holds inside other is
      have fewer : (Function.update lists h ([] ++ todo) h).length ≤ fuel := by
        rw [Function.update_self]
        rw [is,List.length_cons] at enough
        exact Nat.le_of_succ_le_succ enough
      obtain ⟨s',run,holds',brk⟩ := @ih (cat_str (cat_str var p.1) (lit " ")) _ _ dropped fewer
      rw [Function.update_idem] at holds'
      refine ⟨s',?_,holds',brk⟩
      rw [Function.update_self] at run
      unfold write_list
      rw [holds.first inside,is]
      change write_list junk h fuel (cat_str (cat_str var (s.str p.2)) (lit " ")) _ = _
      rw [holds.str h inside p here,run]
      rfl

theorem flag_list_inside (i : VariableEnum) : flag_list i < 5 := by
  cases i <;> decide

theorem flag_list_injective {i j : VariableEnum} (same : flag_list i = flag_list j) : i = j := by
  revert same
  cases i <;> cases j <;> decide

/-- The last loop of `merge` writes what is selected. -/
theorem merge_list_holds {i : VariableEnum} (notCc : VAR_CC ≠ i) (notCppflags : VAR_CPPFLAGS ≠ i) (inside : flag_list i < heads)
    (holds : Holds heads original num s lists) :
    ∃ s', merge_list junk i s = .ok (join (select i ((lists (flag_list i)).map Prod.fst)),s') ∧
      Holds heads original num s' (Function.update lists (flag_list i) []) := by
  have few := holds.length inside
  have queue := holds.queue _ inside
  have texts : ((lists (flag_list i)).map Prod.fst).length ≤ s.brk := by rwa [List.length_map]
  have same : ∀ flags : List (List Int8), flags.length ≤ s.brk → remove_dups s.brk flags = remove_dups flags.length flags := by
    intro flags short
    rw [remove_dups_eq _ _ short,remove_dups_eq _ _ (Nat.le_refl _)]
  have other : flag_list i ≠ flag_list VAR_CPPFLAGS := fun same => notCppflags (flag_list_injective same).symm
  unfold merge_list
  by_cases cflags : VAR_CFLAGS = i
  · obtain ⟨s₁,kept,run₁,holds₁,kept_,brk₁⟩ := @keep_lasts_holds junk heads (flag_list i) num original inside other s.brk (lists (flag_list i)) [] s
      lists holds (List.append_nil _).symm few
    have few₁ := holds₁.length inside
    obtain ⟨s₂,run₂,holds₂,_⟩ := @write_list_holds junk heads (flag_list i) num original inside other s₁.brk none s₁ _ holds₁ few₁
    rw [Function.update_idem] at holds₂
    refine ⟨s₂,?_,holds₂⟩
    rw [if_pos cflags,queue.last,run₁]
    change write_list junk (flag_list i) s₁.brk none s₁ = _
    rw [run₂,Function.update_self,List.append_nil,kept_,same _ (by rwa [List.length_reverse])]
    subst cflags
    rw [List.length_reverse]
    rfl
  · obtain ⟨s₁,kept,run₁,holds₁,kept_,brk₁⟩ := @keep_firsts_holds junk heads (flag_list i) num original inside other s.brk (lists (flag_list i)) [] s
      lists holds rfl few
    have few₁ := holds₁.length inside
    obtain ⟨s₂,run₂,holds₂,_⟩ := @write_list_holds junk heads (flag_list i) num original inside other s₁.brk none s₁ _ holds₁ few₁
    rw [Function.update_idem] at holds₂
    refine ⟨s₂,?_,holds₂⟩
    rw [if_neg cflags,queue.head?,run₁]
    change write_list junk (flag_list i) s₁.brk none s₁ = _
    rw [run₂,Function.update_self,List.nil_append,kept_,same _ texts]
    cases i with
    | VAR_CC => exact absurd rfl notCc
    | VAR_CPPFLAGS => exact absurd rfl notCppflags
    | VAR_CFLAGS => exact absurd rfl cflags
    | VAR_LDFLAGS => rfl
    | VAR_LIBS => rfl

/-! ### Reading the files -/

/-- While the files are read, the list for `VAR_CPPFLAGS` and `original_list` are the same. -/
abbrev Filled (heads : Nat) (s : FlagMemory) (lists : Nat → Nodes) : Prop :=
  Holds heads (lists (flag_list VAR_CPPFLAGS)) (lists (flag_list VAR_CPPFLAGS)).length s lists

theorem pop_flag_filled (filled : Filled heads s lists) {i : VariableEnum} (inside : line_list i < heads) (flag : List Int8) :
    Filled heads (pop_flag i s flag) (Function.update lists (line_list i) (lists (line_list i) ++ [(flag,s.brk)])) := by
  obtain ⟨queue,str,apart,old⟩ := lists_add filled.toLists inside flag
  have fresh : ∀ p ∈ lists (flag_list VAR_CPPFLAGS), p.2 ≠ s.brk := fun p there => Nat.ne_of_lt (filled.original_old p there)
  have texts : ∀ p ∈ lists (flag_list VAR_CPPFLAGS), Function.update s.str s.brk flag p.2 = p.1 := fun p there =>
    (Function.update_of_ne (fresh p there) _ _).trans (filled.original_str p there)
  have room : ∀ p ∈ lists (flag_list VAR_CPPFLAGS), p.2 < s.brk + 1 := fun p there =>
    Nat.lt_succ_of_lt (filled.original_old p there)
  unfold Filled
  by_cases cppflags : VAR_CPPFLAGS = i
  · subst cppflags
    have here : line_list VAR_CPPFLAGS = flag_list VAR_CPPFLAGS := rfl
    have is : pop_flag VAR_CPPFLAGS s flag =
        { add_flag s (line_list VAR_CPPFLAGS) flag with
          original := tailq_insert_tail s.original original_list s.brk
          flag_num := Function.update s.flag_num VAR_CPPFLAGS (s.flag_num VAR_CPPFLAGS + 1) } := rfl
    rw [is]
    rw [here] at queue str apart old ⊢
    rw [Function.update_self]
    refine Holds.mk ⟨queue,str,apart,old⟩ ?_ ?_ ?_ ?_ ?_
    · rw [List.map_append]
      exact tailq_insert_tail_queue filled.original_queue (not_in_nodes fresh)
    · intro p there
      rcases List.mem_append.mp there with there | there
      · exact texts p there
      · rw [List.mem_singleton.mp there]
        exact Function.update_self _ _ _
    · intro h inside' other p there p' there'
      rw [Function.update_of_ne other] at there
      rcases List.mem_append.mp there' with there' | there'
      · exact filled.original_apart h inside' other p there p' there'
      · rw [List.mem_singleton.mp there']
        exact Nat.ne_of_lt (filled.old h inside' p there)
    · intro p there
      rcases List.mem_append.mp there with there | there
      · exact room p there
      · rw [List.mem_singleton.mp there]
        exact Nat.lt_succ_self _
    · rw [List.length_append,List.length_singleton]
      change Function.update s.flag_num VAR_CPPFLAGS (s.flag_num VAR_CPPFLAGS + 1) VAR_CPPFLAGS = _
      rw [Function.update_self,filled.num]
  · have away : flag_list VAR_CPPFLAGS ≠ line_list i := by
      revert cppflags
      cases i <;> decide
    have is : pop_flag i s flag =
        { add_flag s (line_list i) flag with flag_num := Function.update s.flag_num i (s.flag_num i + 1) } := by
      simp only [pop_flag,if_neg cppflags]
      rfl
    rw [is,Function.update_of_ne away]
    refine Holds.mk ⟨queue,str,apart,old⟩ filled.original_queue texts ?_ room ?_
    · intro h inside' other p there p' there'
      rw [Function.update_apply] at there
      split at there
      · rename_i same
        rcases List.mem_append.mp there with there | there
        · exact filled.original_apart _ inside away.symm p there p' there'
        · rw [List.mem_singleton.mp there]
          exact (fresh p' there').symm
      · exact filled.original_apart h inside' other p there p' there'
    · exact (Function.update_of_ne cppflags _ _).trans filled.num

theorem add_line_filled {i : VariableEnum} (inside : line_list i < heads) : ∀ {flags : List (List Int8)} {s : FlagMemory}
    {lists : Nat → Nodes}, Filled heads s lists → ∃ new,
      Filled heads (flags.foldl (pop_flag i) s) (Function.update lists (line_list i) (lists (line_list i) ++ new)) ∧
      new.map Prod.fst = flags := by
  intro flags
  induction flags with
  | nil =>
    intro s lists filled
    refine ⟨[],?_,rfl⟩
    rw [List.append_nil,Function.update_eq_self]
    exact filled
  | cons flag flags ih =>
    intro s lists filled
    obtain ⟨new,filled',texts⟩ := ih (pop_flag_filled filled inside flag)
    rw [Function.update_idem,Function.update_self,List.append_assoc,List.singleton_append] at filled'
    refine ⟨(flag,s.brk) :: new,filled',?_⟩
    rw [List.map_cons,texts]

theorem add_lines_filled (new : FlagLists) {vars : List VariableEnum} (inside : ∀ i ∈ vars, line_list i < heads) :
    ∀ {s : FlagMemory} {lists : Nat → Nodes}, Filled heads s lists →
    ∃ lists', Filled heads (vars.foldl (fun s i => (new i).foldl (pop_flag i) s) s) lists' ∧
      ∀ h, (lists' h).map Prod.fst = (lists h).map Prod.fst ++ (vars.filter fun i => line_list i = h).flatMap new := by
  induction vars with
  | nil =>
    intro s lists filled
    exact ⟨lists,filled,fun h => (List.append_nil _).symm⟩
  | cons i vars ih =>
    intro s lists filled
    obtain ⟨nodes,filled₁,texts₁⟩ := @add_line_filled heads i (inside i List.mem_cons_self) (new i) s lists filled
    obtain ⟨lists',filled',texts⟩ := ih (fun i there => inside i (List.mem_cons_of_mem _ there)) filled₁
    refine ⟨lists',filled',fun h => ?_⟩
    rw [texts]
    by_cases here : line_list i = h
    · subst here
      rw [Function.update_self,List.filter_cons_of_pos (by simp),List.flatMap_cons,List.map_append,texts₁,List.append_assoc]
    · rw [Function.update_of_ne (Ne.symm here),List.filter_cons_of_neg (by simpa using here)]

/-- The flags of the temporary list come to the front in their order. -/
theorem drain_libs_holds : ∀ {fuel : Nat} {s : FlagMemory} {lists : Nat → Nodes}, Holds 6 original num s lists →
    (lists flag_list_libs).length ≤ fuel → ∃ s' lists', drain_libs fuel s = .ok s' ∧ Holds 6 original num s' lists' ∧
      lists' (flag_list VAR_LIBS) = lists flag_list_libs ++ lists (flag_list VAR_LIBS) ∧
      ∀ h, h ≠ flag_list VAR_LIBS → h ≠ flag_list_libs → lists' h = lists h := by
  have temp : flag_list_libs < 6 := by decide
  have libs : flag_list VAR_LIBS < 6 := by decide
  have apart : flag_list VAR_LIBS ≠ flag_list_libs := by decide
  intro fuel
  induction fuel with
  | zero =>
    intro s lists holds enough
    have is : lists flag_list_libs = [] := List.length_eq_zero_iff.mp (Nat.le_zero.mp enough)
    refine ⟨s,lists,?_,holds,by rw [is,List.nil_append],fun _ _ _ => rfl⟩
    unfold drain_libs
    rw [holds.first temp,is]
    rfl
  | succ fuel ih =>
    intro s lists holds enough
    rcases List.eq_nil_or_concat (lists flag_list_libs) with is | ⟨before,p,is⟩
    · refine ⟨s,lists,?_,holds,by rw [is,List.nil_append],fun _ _ _ => rfl⟩
      unfold drain_libs
      rw [holds.first temp,is]
      rfl
    · rw [List.concat_eq_append] at is
      have last : tailq_last s.links flag_list_libs = some p.2 := by
        rw [(holds.queue _ temp).last,is,List.map_append,List.map_singleton,List.getLast?_concat]
      obtain ⟨first,first_⟩ : ∃ first, s.links.tqh_first flag_list_libs = some first := by
        rw [holds.first temp,is]
        cases before with
        | nil => exact ⟨_,rfl⟩
        | cons q before => exact ⟨_,rfl⟩
      have removed := holds_remove holds temp is
      rw [List.append_nil] at removed
      have here : p ∈ lists flag_list_libs := is ▸ List.mem_append_right before List.mem_cons_self
      have fresh : ∀ h' < 6, ∀ p' ∈ Function.update lists flag_list_libs before h', p'.2 ≠ p.2 := by
        intro h' inside' p' there
        refine holds.alone temp is inside' ?_
        rwa [List.append_nil]
      have away := holds.original_apart _ temp (by decide) p here
      have moved := holds_insert_head removed libs fresh away (holds.str _ temp p here) (holds.old _ temp p here)
      rw [Function.update_of_ne apart] at moved
      have temp_ : Function.update (Function.update lists flag_list_libs before) (flag_list VAR_LIBS)
          (p :: lists (flag_list VAR_LIBS)) flag_list_libs = before := by
        rw [Function.update_of_ne apart.symm,Function.update_self]
      have fewer : before.length ≤ fuel := by
        rw [is,List.length_append,List.length_singleton] at enough
        exact Nat.le_of_succ_le_succ enough
      obtain ⟨s',lists',run,holds',libs',others⟩ := ih moved (by rwa [temp_])
      refine ⟨s',lists',?_,holds',?_,fun h notLibs notTemp => ?_⟩
      · unfold drain_libs
        rw [first_,last]
        exact run
      · rw [libs',temp_,Function.update_self,is,List.append_assoc,List.singleton_append]
      · rw [others h notLibs notTemp,Function.update_of_ne notLibs,Function.update_of_ne notTemp]

/-- The flags in the lists are those that `read_files` reads. -/
theorem fill_lists_reads : ∀ {a_argv : List HconfFile} {s : FlagMemory} {lists : Nat → Nodes} {old : FlagLists},
    Filled 5 s lists → (∀ i, (lists (flag_list i)).map Prod.fst = old i) →
    (∀ failure, read_files old a_argv = .error failure → fill_lists s a_argv = .error failure) ∧
      ∀ all, read_files old a_argv = .ok all → ∃ s' lists', fill_lists s a_argv = .ok s' ∧ Filled 5 s' lists' ∧
        ∀ i, (lists' (flag_list i)).map Prod.fst = all i := by
  intro a_argv
  induction a_argv with
  | nil =>
    intro s lists old filled texts
    refine ⟨by rintro failure ⟨⟩,?_⟩
    rintro all ⟨⟩
    exact ⟨s,lists,rfl,filled,texts⟩
  | cons file a_argv ih =>
    intro s lists old filled texts
    cases read : read_file file with
    | error failure =>
      rw [read_files,fill_lists,read]
      refine ⟨?_,by rintro all ⟨⟩⟩
      rintro failure ⟨⟩
      rfl
    | ok new =>
      have inside : ∀ i ∈ VAR_OUTPUT, line_list i < 6 := by decide
      have filled₀ : Filled 6 { s with links := tailq_init s.links 5 } (Function.update lists 5 []) := by
        have away : flag_list VAR_CPPFLAGS ≠ 5 := by decide
        rw [Filled,Function.update_of_ne away]
        exact holds_init filled
      obtain ⟨lists₁,filled₁,texts₁⟩ := add_lines_filled new inside filled₀
      have few := filled₁.length (show flag_list_libs < 6 by decide)
      obtain ⟨s₂,lists₂,run₂,holds₂,libs₂,others₂⟩ := drain_libs_holds filled₁ few
      have filled₂ : Filled 6 s₂ lists₂ := by
        rw [Filled,others₂ _ (by decide) (by decide)]
        exact holds₂
      have read_next : read_files old (file :: a_argv) = read_files (concat old new) a_argv := by
        rw [read_files,read]
        rfl
      have fill_next : fill_lists s (file :: a_argv) = fill_lists s₂ a_argv := by
        rw [fill_lists,read]
        exact congrArg (· >>= fun s => fill_lists s a_argv) run₂
      rw [read_next,fill_next]
      refine ih (filled₂.fewer (Nat.le_succ 5)) fun i => ?_
      by_cases libs : VAR_LIBS = i
      · subst libs
        have temp : Function.update lists 5 [] flag_list_libs = [] := Function.update_self _ _ _
        rw [libs₂,List.map_append,texts₁,texts₁,temp,Function.update_of_ne (by decide),texts,
          show (VAR_OUTPUT.filter fun i => line_list i = flag_list_libs) = [VAR_LIBS] by decide,
          show (VAR_OUTPUT.filter fun i => line_list i = flag_list VAR_LIBS) = [] by decide]
        simp [concat]
      · have away : flag_list i ≠ flag_list VAR_LIBS ∧ flag_list i ≠ 5 := by
          revert libs
          cases i <;> decide
        have alone : (VAR_OUTPUT.filter fun i' => line_list i' = flag_list i) = [i] := by
          revert libs
          cases i <;> decide
        rw [others₂ _ away.1 away.2,texts₁,Function.update_of_ne away.2,texts,alone]
        simp [concat,libs]

/-- The heads of the lists are initialised one after the other. -/
theorem init_filled (s : FlagMemory) :
    Filled 5 { s with
      links := VAR_OUTPUT.foldl (fun links i => tailq_init links (flag_list i)) s.links
      original := tailq_init s.original original_list
      flag_num := fun _ => 0
      brk := 0 } fun _ => [] := by
  have outside : ∀ h, ¬h < 0 := Nat.not_lt_zero
  have none_ : Holds 0 [] 0 { s with original := tailq_init s.original original_list, flag_num := fun _ => 0, brk := 0 } fun _ => [] :=
    Holds.mk ⟨fun h inside => absurd inside (outside h),fun h inside => absurd inside (outside h),
      fun h inside => absurd inside (outside h),fun h inside => absurd inside (outside h)⟩
      (tailq_init_queue s.original original_list) (fun _ there => absurd there List.not_mem_nil)
      (fun h inside => absurd inside (outside h)) (fun _ there => absurd there List.not_mem_nil) rfl
  have all := holds_init (holds_init (holds_init (holds_init (holds_init none_))))
  have same : ∀ n, Function.update (fun _ => []) n [] = fun _ : Nat => ([] : Nodes) := fun n => Function.update_eq_self n _
  rw [same,same,same,same,same] at all
  exact all

/-! ### The flags of the preprocessor -/

/-- The sort on the nodes is the sort on the texts that they have. -/
theorem flag_sort_holds (filled : Filled 5 s lists) :
    ∃ s', flag_sort (flag_list VAR_CPPFLAGS) (s.flag_num VAR_CPPFLAGS) s = .ok s' ∧ s'.brk = s.brk ∧
      Holds 5 (lists (flag_list VAR_CPPFLAGS)) (lists (flag_list VAR_CPPFLAGS)).length s'
        (Function.update lists (flag_list VAR_CPPFLAGS)
          (tailq_sort cmp (lists (flag_list VAR_CPPFLAGS)) (lists (flag_list VAR_CPPFLAGS)).length)) := by
  have inside := flag_list_inside VAR_CPPFLAGS
  let nodes := lists (flag_list VAR_CPPFLAGS)
  let node_cmp (a_l a_r : Nat) : Int := cmp (s.str a_l,a_l) (s.str a_r,a_r)
  let ids := nodes.map Prod.snd
  have number : s.flag_num VAR_CPPFLAGS = ids.length := filled.num.trans (List.length_map _).symm
  have queue : Queue s.links (flag_list VAR_CPPFLAGS) ids := filled.queue _ inside
  obtain ⟨links,run,sorted,others⟩ := SortLinks.sort_queue node_cmp (show flag_list VAR_CPPFLAGS < flag_sort_stack by decide) queue
    (Nat.lt_succ_self ids.length)
  have nodes_ids : ids.map (fun n => (s.str n,n)) = nodes := by
    rw [List.map_map]
    refine (List.map_congr_left fun p there => ?_).trans (List.map_id nodes)
    exact Prod.ext (filled.str _ inside p there) rfl
  have sort_ids : tailq_sort cmp nodes nodes.length = (tailq_sort_to node_cmp (ids.length + 1) ids ids.length).map fun n => (s.str n,n) := by
    rw [tailq_sort,tailq_sort_to_depth nodes.length (ids.length + 1) nodes _ (Nat.le_refl _) (by rw [List.length_map]; exact Nat.le_succ _)]
    have mapped := @tailq_sort_to_map Nat node_cmp Flag cmp (fun n => (s.str n,n)) (fun _ _ => rfl) (ids.length + 1) ids ids.length
    rw [nodes_ids] at mapped
    rw [← mapped]
    congr 1
    exact (List.length_map _).symm
  refine ⟨{ s with links := links },?_,rfl,?_⟩
  · have run' : SortLinks.sort (fun a_l a_r => cmp (s.str a_l,a_l) (s.str a_r,a_r)) (ids.length + 1) s.links flag_sort_stack
      (flag_list VAR_CPPFLAGS) ids.length = .ok links := run
    rw [flag_sort,number,run']
  · have members : ∀ p ∈ tailq_sort cmp nodes nodes.length, p ∈ nodes := fun p => (tailq_sort_perm nodes nodes.length).mem_iff.mp
    refine holds_less filled inside members (lists_less filled.toLists members ?_ fun h' inside' other => ?_)
    · change Queue links _ ((tailq_sort cmp nodes nodes.length).map Prod.snd)
      rw [sort_ids,List.map_map]
      have same : (Prod.snd ∘ fun n => (s.str n,n)) = id := rfl
      rw [same,List.map_id]
      exact sorted
    · exact others h' _ (Nat.lt_trans inside' (by decide)) other (filled.disjoint inside inside' other)

theorem erase_middle {front back : Nodes} {p : Flag} (nodup : ((front ++ p :: back).map Prod.snd).Nodup) :
    (front ++ p :: back).erase p = front ++ back := by
  have outside : p ∉ front := by
    intro there
    rw [List.map_append,List.map_cons,List.nodup_append] at nodup
    exact nodup.2.2 p.2 (List.mem_map_of_mem there) p.2 List.mem_cons_self rfl
  rw [List.erase_append_right _ outside,List.erase_cons_head]

/-- A flag that is not written goes from `original_list` and is freed, while the rest of the sorted list is in it. -/
theorem sweep_drops (holds : Holds 5 original num s lists) {prev : Flag} (stays : prev ∈ original)
    (members : ∀ p ∈ lists (flag_list VAR_CPPFLAGS), p ∈ original) (outside : prev ∉ lists (flag_list VAR_CPPFLAGS)) :
    Holds 5 (original.erase prev) num
      (free_flag junk { s with original := tailq_remove s.original original_list prev.2 } prev.2) lists := by
  have gone : ∀ h < 5, ∀ p ∈ lists h, p.2 ≠ prev.2 := by
    intro h inside p there same
    by_cases cppflags : h = flag_list VAR_CPPFLAGS
    · rw [cppflags] at there
      have text : p.1 = prev.1 := by
        rw [← holds.original_str p (members p there),same,holds.original_str prev stays]
      exact outside (Prod.ext text same ▸ there)
    · exact holds.original_apart h inside cppflags p there prev stays same
  obtain ⟨front,back,rfl⟩ := List.append_of_mem stays
  rw [erase_middle holds.original_queue.nodup]
  exact original_drop holds gone

/-- The sweep leaves in `original_list` what `walk` leaves. -/
theorem sweep_holds : ∀ {todo original : Nodes} {fuel : Nat} {prev : Option Flag} {prev_dname_len : Nat} {s : FlagMemory}
    {lists : Nat → Nodes}, Holds 5 original num s lists → lists (flag_list VAR_CPPFLAGS) = todo →
    (∀ p ∈ todo, p ∈ original) → (∀ p ∈ prev, p ∈ original ∧ p ∉ todo) → todo.length ≤ fuel →
    ∃ s', sweep junk (flag_list VAR_CPPFLAGS) fuel (prev.map Prod.snd) prev_dname_len s = .ok s' ∧
      Holds 5 (walk prev prev_dname_len todo original) num s' (Function.update lists (flag_list VAR_CPPFLAGS) []) ∧
      s'.brk = s.brk := by
  have inside := flag_list_inside VAR_CPPFLAGS
  intro todo
  induction todo with
  | nil =>
    intro original fuel prev prev_dname_len s lists holds is _ _ _
    refine ⟨s,?_,?_,rfl⟩
    · unfold sweep
      rw [holds.first inside,is]
      rfl
    · unfold walk
      exact holds.same is
  | cons flag todo ih =>
    intro original fuel prev prev_dname_len s lists holds is members outside enough
    obtain ⟨fuel,rfl⟩ : ∃ k, fuel = k + 1 := ⟨fuel - 1,by rw [List.length_cons] at enough; omega⟩
    have nodup := (holds.queue _ inside).nodup
    rw [is,List.map_cons,List.nodup_cons] at nodup
    have notLater : flag ∉ todo := fun there => nodup.1 (List.mem_map_of_mem there)
    have text : s.str flag.2 = flag.1 := holds.str _ inside flag (is ▸ List.mem_cons_self)
    have removed : Holds 5 original num (remove_flag s (flag_list VAR_CPPFLAGS) flag.2)
        (Function.update lists (flag_list VAR_CPPFLAGS) ([] ++ todo)) := holds_remove holds inside is
    have is' : Function.update lists (flag_list VAR_CPPFLAGS) ([] ++ todo) (flag_list VAR_CPPFLAGS) = todo := Function.update_self _ _ _
    have members' : ∀ p ∈ todo, p ∈ original := fun p there => members p (List.mem_cons_of_mem flag there)
    -- Whatever goes from `original_list`, the rest of the loop starts at this flag.
    have next : ∀ {original' : Nodes} {s' : FlagMemory}, Holds 5 original' num s'
        (Function.update lists (flag_list VAR_CPPFLAGS) ([] ++ todo)) → (∀ p ∈ flag :: todo, p ∈ original') →
        s'.brk = s.brk → ∃ s'', sweep junk (flag_list VAR_CPPFLAGS) fuel (some flag.2)
          (if 0 = STRBCMP flag.1 "-D" then dname_len flag.1 else prev_dname_len) s' = .ok s'' ∧
          Holds 5 (walk (some flag) (if 0 = STRBCMP flag.1 "-D" then dname_len flag.1 else prev_dname_len) todo original') num s''
            (Function.update lists (flag_list VAR_CPPFLAGS) []) ∧ s''.brk = s.brk := by
      intro original' s' holds' sub brk'
      have alone : ∀ p ∈ some flag, p ∈ original' ∧ p ∉ todo := by
        rintro p ⟨⟩
        exact ⟨sub flag List.mem_cons_self,notLater⟩
      obtain ⟨s'',run,holds'',brk⟩ := @ih original' fuel (some flag)
        (if 0 = STRBCMP flag.1 "-D" then dname_len flag.1 else prev_dname_len) s' _ holds' is'
        (fun p there => sub p (List.mem_cons_of_mem flag there)) alone (Nat.le_of_succ_le_succ enough)
      rw [Function.update_idem] at holds''
      exact ⟨s'',run,holds'',brk.trans brk'⟩
    unfold sweep walk
    rw [holds.first inside,is]
    cases prev with
    | none =>
      change ∃ s', sweep junk (flag_list VAR_CPPFLAGS) fuel (some flag.2)
        (if 0 = STRBCMP (s.str flag.2) "-D" then dname_len (s.str flag.2) else prev_dname_len) _ = .ok s' ∧ _
      rw [text]
      exact next removed members rfl
    | some prev =>
      obtain ⟨stays,notTodo⟩ := outside prev rfl
      change ∃ s', sweep junk (flag_list VAR_CPPFLAGS) fuel (some flag.2)
        (if 0 = STRBCMP (s.str flag.2) "-D" then dname_len (s.str flag.2) else prev_dname_len)
        (if do_write_prev (s.str flag.2) (s.str prev.2) prev_dname_len then remove_flag s (flag_list VAR_CPPFLAGS) flag.2 else _) = .ok s' ∧ _
      rw [text,holds.original_str prev stays]
      dsimp only
      by_cases write : do_write_prev flag.1 prev.1 prev_dname_len
      · rw [if_pos write,if_pos write]
        exact next removed members rfl
      · rw [if_neg write,if_neg write]
        have dropped := @sweep_drops junk _ _ _ _ removed prev stays (by rwa [is'])
          (by rw [is']; exact fun there => notTodo (List.mem_cons_of_mem flag there))
        refine next dropped (fun p there => (List.mem_erase_of_ne ?_).mpr (members p there)) rfl
        rintro rfl
        exact notTodo there

/-- What is left in `original_list` is written. -/
theorem write_original_holds : ∀ {original : Nodes} {fuel : Nat} {var : Option (List Int8)} {s : FlagMemory},
    Holds heads original num s lists → (∀ h < heads, ∀ p ∈ lists h, ∀ p' ∈ original, p.2 ≠ p'.2) → original.length ≤ fuel →
    ∃ s', write_original junk fuel var s = .ok (write_flags var (original.map Prod.fst),s') ∧
      Holds heads [] num s' lists ∧ s'.brk = s.brk := by
  intro original
  induction original with
  | nil =>
    intro fuel var s holds _ _
    refine ⟨s,?_,holds,rfl⟩
    unfold write_original
    rw [holds.original_queue.head?]
    rfl
  | cons p original ih =>
    intro fuel var s holds apart enough
    obtain ⟨fuel,rfl⟩ : ∃ k, fuel = k + 1 := ⟨fuel - 1,by rw [List.length_cons] at enough; omega⟩
    have dropped : Holds heads ([] ++ original) num
        (free_flag junk { s with original := tailq_remove s.original original_list p.2 } p.2) lists :=
      original_drop holds fun h inside p' there => apart h inside p' there p List.mem_cons_self
    obtain ⟨s',run,holds',brk⟩ := @ih fuel (cat_str (cat_str var p.1) (lit " ")) _ dropped
      (fun h inside p' there p'' there' => apart h inside p' there p'' (List.mem_cons_of_mem p there')) (Nat.le_of_succ_le_succ enough)
    refine ⟨s',?_,holds',brk⟩
    unfold write_original
    rw [holds.original_queue.head?]
    change write_original junk fuel (cat_str (cat_str var (s.str p.2)) (lit " ")) _ = _
    rw [holds.original_str p List.mem_cons_self,run]
    rfl

/-- It does not matter which numbers tell the flags apart. -/
theorem walk_places {nodes : Nodes} (nodup : (nodes.map Prod.snd).Nodup) :
    (walk none 0 (tailq_sort cmp nodes nodes.length) nodes).map Prod.fst = merge_cppflags (nodes.map Prod.fst) := by
  let place (flag : Flag) : Flag := (flag.1,(nodes.map Prod.snd).getD flag.2 0)
  let places := (nodes.map Prod.fst).zipIdx
  have images : places.map place = nodes := by
    refine List.ext_getElem (by simp [places]) fun k inside inside' => ?_
    simp [places,place,inside']
  have distinct : nodes.Nodup := List.Nodup.of_map Prod.snd nodup
  have sorted : tailq_sort cmp nodes nodes.length = (tailq_sort cmp places nodes.length).map place := by
    have mapped := @tailq_sort_to_map Flag cmp Flag cmp place (fun _ _ => rfl) nodes.length places nodes.length
    rwa [images] at mapped
  have runs : last_of_runs flag_key (tailq_sort cmp nodes nodes.length) =
      (last_of_runs flag_key (tailq_sort cmp places nodes.length)).map place := by
    rw [sorted]
    exact last_of_runs_map flag_key place _
  have sub : ∀ flag ∈ last_of_runs flag_key (tailq_sort cmp places nodes.length), flag ∈ places := fun flag last =>
    (tailq_sort_perm places nodes.length).mem_iff.mp ((last_of_runs_sublist flag_key _).mem last)
  have kept {last : List Flag} (sub : ∀ flag ∈ last, flag ∈ places) :
      (places.map place).filter (fun flag => flag ∈ last.map place) = (places.filter fun flag => flag ∈ last).map place := by
    have injective := List.inj_on_of_nodup_map (show (places.map place).Nodup by rwa [images])
    rw [List.filter_map]
    congr 1
    refine List.filter_congr fun flag there => decide_eq_decide.mpr ⟨fun image => ?_,List.mem_map_of_mem⟩
    obtain ⟨flag',inLast,same⟩ := List.mem_map.mp image
    exact injective (sub flag' inLast) there same ▸ inLast
  have left := kept sub
  rw [images] at left
  rw [walk_runs (tailq_sort_perm nodes nodes.length) distinct,runs,left,List.map_map,walk_eq,sorted_flags,List.length_map]
  rfl

/-- The loops for `VAR_CPPFLAGS` write what `merge_cppflags` leaves, and leave the other lists alone. -/
theorem cppflags_written (filled : Filled 5 s lists) : ∃ s₁ s₂ s₃ num,
    flag_sort (flag_list VAR_CPPFLAGS) (s.flag_num VAR_CPPFLAGS) s = .ok s₁ ∧
    sweep junk (flag_list VAR_CPPFLAGS) s₁.brk none 0 s₁ = .ok s₂ ∧
    write_original junk s₂.brk none s₂ = .ok (join (merge_cppflags ((lists (flag_list VAR_CPPFLAGS)).map Prod.fst)),s₃) ∧
    Holds 5 [] num s₃ (Function.update lists (flag_list VAR_CPPFLAGS) []) := by
  have inside := flag_list_inside VAR_CPPFLAGS
  obtain ⟨s₁,run₁,_,holds₁⟩ := flag_sort_holds filled
  have sorted := @tailq_sort_perm Flag cmp (lists (flag_list VAR_CPPFLAGS)) (lists (flag_list VAR_CPPFLAGS)).length
  have few₁ := holds₁.length inside
  rw [Function.update_self] at few₁
  obtain ⟨s₂,run₂,holds₂,_⟩ := @sweep_holds junk _ _ _ s₁.brk none 0 s₁ _ holds₁ (Function.update_self _ _ _)
    (fun p => sorted.mem_iff.mp) (by rintro p ⟨⟩) few₁
  rw [Function.update_idem] at holds₂
  have apart : ∀ h < 5, ∀ p ∈ Function.update lists (flag_list VAR_CPPFLAGS) [] h,
      ∀ p' ∈ walk none 0 (tailq_sort cmp (lists (flag_list VAR_CPPFLAGS)) (lists (flag_list VAR_CPPFLAGS)).length)
        (lists (flag_list VAR_CPPFLAGS)), p.2 ≠ p'.2 := by
    intro h inside' p there p' there'
    by_cases cppflags : h = flag_list VAR_CPPFLAGS
    · rw [cppflags,Function.update_self] at there
      exact absurd there List.not_mem_nil
    · exact holds₂.original_apart h inside' cppflags p there p' there'
  obtain ⟨s₃,run₃,holds₃,_⟩ := @write_original_holds junk 5 _ _ _ s₂.brk none s₂ holds₂ apart
    (few_nodes holds₂.original_queue.nodup holds₂.original_old)
  refine ⟨s₁,s₂,s₃,_,run₁,run₂,?_,holds₃⟩
  rw [run₃,walk_places (filled.queue _ inside).nodup,join_write]

/-! ### Merging -/

/-- The lists of some variables hold the flags that have been read. -/
def Reads (vars : List VariableEnum) (all : FlagLists) (s : FlagMemory) : Prop :=
  ∃ original num lists, Holds 5 original num s lists ∧ ∀ i ∈ vars, (lists (flag_list i)).map Prod.fst = all i

section
variable {all : FlagLists} {i : VariableEnum} {vars : List VariableEnum}

/-- When a list is empty, the others still hold what they held. -/
theorem Reads.rest {lists : Nat → Nodes} {s' : FlagMemory} (holds : Holds 5 original num s' (Function.update lists (flag_list i) []))
    (texts : ∀ j ∈ i :: vars, (lists (flag_list j)).map Prod.fst = all j) (others : i ∉ vars) : Reads vars all s' := by
  refine ⟨original,num,_,holds,fun j there => ?_⟩
  have apart : flag_list j ≠ flag_list i := fun same => others (flag_list_injective same ▸ there)
  rw [Function.update_of_ne apart]
  exact texts j (List.mem_cons_of_mem i there)

theorem merge_list_reads (notCc : VAR_CC ≠ i) (notCppflags : VAR_CPPFLAGS ≠ i) (reads : Reads (i :: vars) all s) (others : i ∉ vars) :
    ∃ s', merge_list junk i s = .ok (join (select i (all i)),s') ∧ Reads vars all s' := by
  obtain ⟨original,num,lists,holds,texts⟩ := reads
  obtain ⟨s',run,holds'⟩ := @merge_list_holds junk s 5 num lists original i notCc notCppflags (flag_list_inside i) holds
  refine ⟨s',?_,Reads.rest holds' texts others⟩
  rw [run,texts i List.mem_cons_self]

end

/-- The lists in memory give what `merge` gives. -/
theorem merge_lists_eq (junk : FlagMemory) (a_bucket : Bucket) (a_argv : List HconfFile) :
    merge_lists junk a_bucket a_argv = merge a_bucket a_argv := by
  obtain ⟨errors,reads⟩ := @fill_lists_reads a_argv _ _ (fun _ => []) (init_filled junk) fun _ => rfl
  unfold merge_lists merge merge_flags
  cases read : read_files (fun _ => []) a_argv with
  | error failure =>
    change (fill_lists _ a_argv >>= _) = _
    rw [errors failure read]
    rfl
  | ok all =>
    obtain ⟨s,lists,run,filled,texts⟩ := reads all read
    have few := filled.length (flag_list_inside VAR_CC)
    obtain ⟨s₁,run₁,holds₁,_⟩ := @write_firsts_holds junk 5 _ _ _ (flag_list_inside VAR_CC) (by decide) s.brk none s lists filled few
    have cc : write_flags none (remove_dups s.brk ((lists (flag_list VAR_CC)).map Prod.fst)) = join (select VAR_CC (all VAR_CC)) := by
      have chosen : select VAR_CC (all VAR_CC) = remove_dups (all VAR_CC).length (all VAR_CC) := rfl
      have short : (all VAR_CC).length ≤ s.brk := by rwa [← texts,List.length_map]
      rw [join_write,chosen,texts,remove_dups_eq _ _ short,remove_dups_eq _ _ (Nat.le_refl _)]
    rw [cc] at run₁
    have away : ∀ i, VAR_CC ≠ i → flag_list i ≠ flag_list VAR_CC := fun i other same => other (flag_list_injective same).symm
    have filled₁ : Filled 5 s₁ (Function.update lists (flag_list VAR_CC) []) := by
      rw [Filled,Function.update_of_ne (away VAR_CPPFLAGS (by decide))]
      exact holds₁
    have texts₁ : ∀ i ∈ [VAR_CPPFLAGS,VAR_CFLAGS,VAR_LDFLAGS,VAR_LIBS],
        (Function.update lists (flag_list VAR_CC) [] (flag_list i)).map Prod.fst = all i := by
      intro i there
      rw [Function.update_of_ne (away i (by rintro rfl; exact absurd there (by decide))),texts]
    obtain ⟨s₂,s₃,s₄,num,run₂,run₃,run₄,holds₄⟩ := @cppflags_written junk s₁ _ filled₁
    rw [texts₁ VAR_CPPFLAGS List.mem_cons_self] at run₄
    have reads₄ : Reads [VAR_CFLAGS,VAR_LDFLAGS,VAR_LIBS] all s₄ := Reads.rest holds₄ texts₁ (by decide)
    obtain ⟨s₅,run₅,reads₅⟩ := @merge_list_reads junk s₄ all _ _ (by decide) (by decide) reads₄ (by decide)
    obtain ⟨s₆,run₆,reads₆⟩ := @merge_list_reads junk s₅ all _ _ (by decide) (by decide) reads₅ (by decide)
    obtain ⟨s₇,run₇,_⟩ := @merge_list_reads junk s₆ all _ _ (by decide) (by decide) reads₆ (by decide)
    change (fill_lists _ a_argv >>= _) = _
    rw [run]
    change (write_firsts junk (flag_list VAR_CC) s.brk none s >>= _) = _
    rw [run₁]
    change (flag_sort (flag_list VAR_CPPFLAGS) (s₁.flag_num VAR_CPPFLAGS) s₁ >>= _) = _
    rw [run₂]
    change (sweep junk (flag_list VAR_CPPFLAGS) s₂.brk none 0 s₂ >>= _) = _
    rw [run₃]
    change (write_original junk s₃.brk none s₃ >>= _) = _
    rw [run₄]
    change (merge_list junk VAR_CFLAGS s₄ >>= _) = _
    rw [run₅]
    change (merge_list junk VAR_LDFLAGS s₅ >>= _) = _
    rw [run₆]
    change (merge_list junk VAR_LIBS s₆ >>= _) = _
    rw [run₇]
    refine congrArg (fun var => Except.ok { a_bucket with var := var }) (funext fun i => ?_)
    cases i <;> rfl

end

end Htools.HconfMerge
