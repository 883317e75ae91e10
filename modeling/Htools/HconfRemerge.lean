import Htools.HconfCppflags

/-!
Merging files that have been merged before. The rules for duplicates do not mind
(`select_concat`), and the scanner cuts a merged line into the flags that it was
joined from as long as none of them runs into the next one (`scan_joined`).
-/
namespace Htools.HconfMerge
open Htools.Lexing Htools.ConfigFile Htools.CString Htools.TailqSort Htools.Selection VariableEnum

/-! ### The rules for duplicates -/

/-- The last one of each flag, where it stands. -/
abbrev last_of_each (flags : List (List Int8)) : List (List Int8) := keep id (fun _ _ => True) flags

theorem trivial_ranking : Ranking fun _ _ : List Int8 => True where
  trans _ _ _ _ _ := trivial
  total _ _ := Or.inl trivial

theorem remove_dups_cons (rounds : Nat) (flag : List Int8) (flags : List (List Int8)) :
    remove_dups (rounds + 1) (flag :: flags) = flag :: remove_dups rounds (flags.filter fun next => next ≠ flag) := by
  have others : (flags.filter fun next => 0 ≠ strcmp flag next) = flags.filter fun next => next ≠ flag := by
    apply List.filter_congr
    intro next _
    rw [decide_eq_decide,ne_eq,ne_eq,eq_comm,strcmp_eq_zero,eq_comm]
  rw [remove_dups,others]

theorem remove_dups_eq (rounds : Nat) (flags : List (List Int8)) (enough : flags.length ≤ rounds) :
    remove_dups rounds flags = (last_of_each flags.reverse).reverse := by
  induction rounds generalizing flags with
  | zero =>
    rw [List.length_eq_zero_iff.mp (Nat.le_zero.mp enough)]
    rfl
  | succ rounds ih =>
    cases flags with
    | nil => rfl
    | cons flag flags =>
      have fewer := List.length_filter_le (fun next => decide (next ≠ flag)) flags
      rw [List.length_cons] at enough
      have once : last_of_each (flags.reverse ++ [flag]) =
          last_of_each ((flags.reverse.filter fun next => next ≠ flag) ++ [flag]) :=
        (keep_filter_append id _ flag flags.reverse [flag] (by simp)).symm
      have apart : last_of_each ((flags.reverse.filter fun next => next ≠ flag) ++ [flag]) =
          last_of_each (flags.reverse.filter fun next => next ≠ flag) ++ [flag] := by
        apply keep_append_disjoint
        intro a a_member b b_member
        rw [List.mem_singleton.mp b_member]
        exact Ne.symm (by simpa using (List.mem_filter.mp a_member).2)
      rw [remove_dups_cons,ih _ (by omega),List.reverse_cons,once,apart,List.reverse_append,List.filter_reverse]
      rfl

theorem merge_cppflags_keep (flags : List (List Int8)) (whole : ¬Split flags) :
    merge_cppflags flags = keep macro_key (fun a b => strcmp a b ≤ 0) flags := by
  have older_asymm (a b : Flag) (older : Older a b) : ¬Older b a := Nat.lt_asymm older
  have runs := filter_runs flag_key smaller_ranking older_asymm (zipIdx_older flags) (sorted_flags_perm flags)
    (sorted_flags_before flags) ((neighbours_iff flags).mpr whole)
  have firsts := keep_map macro_key (fun a b => strcmp a b ≤ 0) Prod.fst flags.zipIdx
  rw [List.zipIdx_map_fst] at firsts
  rw [walk_eq,firsts]
  congr 1
  exact (List.filter_congr fun _ _ => decide_eq_decide.mpr Iff.rfl).trans runs

theorem Split.mono {l m : List (List Int8)} (sub : ∀ flag ∈ l,flag ∈ m) (split : Split l) : Split m := by
  obtain ⟨first,first_member,between,between_member,last,last_member,rest⟩ := split
  exact ⟨first,sub first first_member,between,sub between between_member,last,sub last last_member,rest⟩

theorem strcmp_ranking : Ranking fun a b => strcmp a b ≤ 0 where
  trans := strcmp_comparison.trans
  total a b := by
    have swap := strcmp_comparison.swap a b
    rcases le_or_gt (strcmp a b) 0 with le | gt
    · exact Or.inl le
    · exact Or.inr (le_of_lt (swap.mp gt))

theorem merge_cppflags_append (old new : List (List Int8)) (whole : ¬Split (old ++ new)) :
    merge_cppflags (merge_cppflags old ++ new) = merge_cppflags (old ++ new) := by
  have old_whole : ¬Split old := fun split => whole (split.mono fun flag => List.mem_append_left new)
  have kept_whole : ¬Split (merge_cppflags old ++ new) := by
    intro split
    apply whole
    apply split.mono
    intro flag member
    rcases List.mem_append.mp member with member | member
    · exact List.mem_append_left new ((merge_cppflags_sublist old).mem member)
    · exact List.mem_append_right old member
  rw [merge_cppflags_keep _ kept_whole,merge_cppflags_keep _ whole,merge_cppflags_keep _ old_whole]
  exact keep_append_left macro_key strcmp_ranking old new

/-- A text cannot be both before and after another one. -/
theorem strcmp_antisymm {a b : List Int8} (le : strcmp a b ≤ 0) (ge : strcmp b a ≤ 0) : a = b := by
  have swap := strcmp_comparison.swap b a
  exact (strcmp_eq_zero a b).mp (by omega)

/-- What is left has different keys next to each other, so that nothing more is removed. -/
theorem merge_cppflags_again (flags : List (List Int8)) :
    merge_cppflags (merge_cppflags flags) = merge_cppflags flags := by
  have by_text (l : List Flag) (sorted : l.Pairwise (Before Smaller Older)) :
      (l.map Prod.fst).Pairwise fun a b => strcmp a b ≤ 0 :=
    List.pairwise_map.mpr (sorted.imp fun before => Before.to_le smaller_ranking before)
  have left_sorted := by_text _ ((sorted_flags_before flags).sublist (last_of_runs_sublist flag_key _))
  have again_sorted := by_text _ (sorted_flags_before (merge_cppflags flags))
  have again_perm := (sorted_flags_perm (merge_cppflags flags)).map Prod.fst
  rw [List.zipIdx_map_fst] at again_perm
  have same_texts : (sorted_flags (merge_cppflags flags)).map Prod.fst =
      (last_of_runs flag_key (sorted_flags flags)).map Prod.fst :=
    (again_perm.trans (merge_cppflags_perm flags)).eq_of_pairwise
      (fun a b _ _ le ge => strcmp_antisymm le ge) again_sorted left_sorted
  have chain : (sorted_flags (merge_cppflags flags)).IsChain fun a b => flag_key a ≠ flag_key b := by
    have texts : ((last_of_runs flag_key (sorted_flags flags)).map Prod.fst).IsChain
        fun a b => macro_key a ≠ macro_key b :=
      (List.isChain_map Prod.fst).mpr (last_of_runs_chain flag_key (sorted_flags flags))
    rw [← same_texts] at texts
    exact (List.isChain_map Prod.fst).mp texts
  have all := last_of_runs_all flag_key _ chain
  rw [walk_eq (merge_cppflags flags),all,List.filter_eq_self.mpr,List.zipIdx_map_fst]
  intro flag member
  exact decide_eq_true ((sorted_flags_perm (merge_cppflags flags)).mem_iff.mpr member)

/-- What has been selected from the older files can stand for them. -/
theorem select_concat (old new : FlagLists) (i : VariableEnum)
    (whole : VAR_CPPFLAGS = i → ¬Split (old i ++ new i)) :
    select i (concat (fun i => select i (old i)) new i) = select i (concat old new i) := by
  have from_left := keep_append_left id trivial_ranking
  have from_right := keep_append_right id trivial_ranking
  have lists (flags : List (List Int8)) : remove_dups flags.length flags = (last_of_each flags.reverse).reverse :=
    remove_dups_eq _ flags (Nat.le_refl _)
  have reversed (flags : List (List Int8)) :
      (remove_dups flags.length flags.reverse).reverse = last_of_each flags := by
    rw [remove_dups_eq _ flags.reverse (by rw [List.length_reverse]),List.reverse_reverse,List.reverse_reverse]
  cases i with
  | VAR_CPPFLAGS => exact merge_cppflags_append _ _ (whole rfl)
  | VAR_CFLAGS =>
    simp only [select,concat,reversed]
    exact from_left _ _
  | VAR_CC =>
    simp only [select,concat,lists,reduceCtorEq,reduceIte,List.reverse_append,List.reverse_reverse]
    exact congrArg List.reverse (from_right _ _)
  | VAR_LDFLAGS =>
    simp only [select,concat,lists,reduceCtorEq,reduceIte,List.reverse_append,List.reverse_reverse]
    exact congrArg List.reverse (from_right _ _)
  | VAR_LIBS =>
    simp only [select,concat,lists,reduceIte,List.reverse_append,List.reverse_reverse]
    exact congrArg List.reverse (from_left _ _)

theorem select_sublist (i : VariableEnum) (flags : List (List Int8)) : (select i flags).Sublist flags := by
  have lists (flags : List (List Int8)) : (remove_dups flags.length flags).Sublist flags := by
    have kept := (keep_sublist id (fun _ _ => True) flags.reverse).reverse
    rw [List.reverse_reverse] at kept
    rw [remove_dups_eq _ flags (Nat.le_refl _)]
    exact kept
  have reversed := (lists flags.reverse).reverse
  rw [List.reverse_reverse,List.length_reverse] at reversed
  cases i with
  | VAR_CPPFLAGS => exact merge_cppflags_sublist flags
  | VAR_CFLAGS => exact reversed
  | VAR_CC => exact lists flags
  | VAR_LDFLAGS => exact lists flags
  | VAR_LIBS => exact lists flags

/-! ### What the scanner finds -/

/-- A flag begins with a character that is neither a blank nor the terminator. -/
def Starts (flag : List Int8) : Prop := ∃ c rest,flag = c :: rest ∧ c ≠ 0 ∧ isspace c.toInt = false

theorem c_str_cons {c : Int8} (text : c ≠ 0) (rest : List Int8) : c_str (c :: rest) = c :: c_str rest := by
  simp [c_str,text]

theorem skip_spaces_start {c : Int8} (black : isspace c.toInt = false) (p : List Int8) :
    skip_spaces (c :: p) = c :: p := by
  simp [skip_spaces,black]

theorem flag_value_start {c : Int8} {p value q : List Int8} (text : c ≠ 0) (black : isspace c.toInt = false)
    (read : flag_value false (c :: p) = .ok (value,q)) : ∃ rest,value = c :: rest := by
  rw [flag_value,if_neg (by simp [Ne.symm text,black])] at read
  obtain ⟨⟨rest,_⟩,_,result⟩ := bind_ok_iff.mp read
  cases result
  exact ⟨rest,rfl⟩

theorem scan_flag_start {filename : List Int8} {line_no : Nat} {c : Int8} {p flag q : List Int8} (text : c ≠ 0)
    (black : isspace c.toInt = false) (found : scan_flag filename line_no (c :: p) = .ok (flag,q)) : Starts flag := by
  unfold scan_flag at found
  obtain ⟨⟨name,after_name,do_no_arg⟩,named,found⟩ := bind_ok_iff.mp found
  obtain ⟨⟨value,after_value⟩,valued,result⟩ := bind_ok_iff.mp found
  have flag_eq : flag = c_str (name ++ value) := by
    cases result
    rfl
  -- The first character is in the name, or there is no name and it is in the value.
  have first : ∃ rest,name ++ value = c :: rest := by
    unfold flag_name at named
    split at named
    case isTrue =>
      cases tail : (c :: p).drop 10 with
      | nil =>
        rw [tail] at named
        cases named
      | cons next rest =>
        rw [tail] at named
        dsimp only at named
        split at named
        · cases named
          exact ⟨_,rfl⟩
        · cases named
    case isFalse =>
      split at named
      · cases named
        exact ⟨_,rfl⟩
      · cases named
        unfold flag_arg at valued
        rw [if_neg Bool.false_ne_true,skip_spaces_start black] at valued
        obtain ⟨rest,rfl⟩ := flag_value_start text black valued
        exact ⟨rest,rfl⟩
  obtain ⟨rest,first⟩ := first
  rw [flag_eq,first,c_str_cons text]
  exact ⟨c,_,rfl,text,black⟩

/-- A value is what the pointer passes. -/
theorem flag_value_passes {escaped : Bool} {p value q : List Int8} (read : flag_value escaped p = .ok (value,q)) :
    p = value ++ q := by
  fun_induction flag_value escaped p generalizing value q with
  | case1 => cases read
  | case2 c p ih =>
    obtain ⟨⟨rest,after⟩,tail,result⟩ := bind_ok_iff.mp read
    cases result
    rw [ih tail,List.cons_append]
  | case3 c p stopped =>
    cases read
    rfl
  | case4 c p goes_on ih =>
    obtain ⟨⟨rest,after⟩,tail,result⟩ := bind_ok_iff.mp read
    cases result
    rw [ih tail,List.cons_append]

theorem flag_value_shorter {escaped : Bool} {p value q : List Int8} (read : flag_value escaped p = .ok (value,q)) :
    value.length + q.length = p.length := by
  rw [flag_value_passes read,List.length_append]

theorem skip_spaces_le (p : List Int8) : (skip_spaces p).length ≤ p.length :=
  (List.dropWhile_sublist _).length_le

/-- The scanner gets ahead with each flag. -/
theorem scan_flag_shorter {filename : List Int8} {line_no : Nat} {c : Int8} {p flag q : List Int8} (text : c ≠ 0)
    (black : isspace c.toInt = false) (found : scan_flag filename line_no (c :: p) = .ok (flag,q)) :
    q.length < (c :: p).length := by
  unfold scan_flag at found
  obtain ⟨⟨name,after_name,do_no_arg⟩,named,found⟩ := bind_ok_iff.mp found
  obtain ⟨⟨value,after_value⟩,valued,result⟩ := bind_ok_iff.mp found
  cases result
  have rest_le : q.length ≤ after_name.length := by
    unfold flag_arg at valued
    split at valued
    · cases valued
      exact Nat.le_refl _
    · have shorter := flag_value_shorter valued
      have skipped := skip_spaces_le after_name
      omega
  unfold flag_name at named
  split at named
  case isTrue =>
    split at named
    · cases named
    · split at named
      · cases named
        rw [List.length_drop,List.length_cons] at rest_le
        rw [List.length_cons]
        omega
      · cases named
  case isFalse =>
    split at named
    · cases named
      rw [List.length_drop,List.length_cons] at rest_le
      rw [List.length_cons]
      omega
    · cases named
      unfold flag_arg at valued
      rw [if_neg Bool.false_ne_true,skip_spaces_start black] at valued
      obtain ⟨rest,rfl⟩ := flag_value_start text black valued
      have shorter := flag_value_shorter valued
      rw [List.length_cons] at shorter
      omega

theorem skip_spaces_black {p q : List Int8} {c : Int8} (rest : skip_spaces p = c :: q) : isspace c.toInt = false := by
  have stopped := List.head?_dropWhile_not (fun c : Int8 => isspace c.toInt) p
  unfold skip_spaces at rest
  rw [rest] at stopped
  simpa using stopped

/-- One turn of the scanner is all that the fuel is for. -/
theorem scan_loop_cons {filename : List Int8} {line_no fuel : Nat} {p q : List Int8} {c : Int8}
    (rest : skip_spaces p = c :: q) (text : c ≠ 0) :
    scan_loop filename line_no (fuel + 1) p =
      scan_flag filename line_no (c :: q) >>= fun (flag,p) =>
        scan_loop filename line_no fuel p >>= fun flags => .ok (flag :: flags) := by
  rw [scan_loop,rest]
  exact if_neg (Ne.symm text)

/-- Fuel for each character is enough. -/
theorem scan_loop_enough {filename : List Int8} {line_no : Nat} (fuel fuel' : Nat) (p : List Int8)
    (enough : p.length < fuel) (enough' : p.length < fuel') :
    scan_loop filename line_no fuel p = scan_loop filename line_no fuel' p := by
  induction fuel generalizing fuel' p with
  | zero => exact absurd enough (Nat.not_lt_zero _)
  | succ fuel ih =>
    cases fuel' with
    | zero => exact absurd enough' (Nat.not_lt_zero _)
    | succ fuel' =>
      cases rest : skip_spaces p with
      | nil =>
        rw [scan_loop,scan_loop,rest]
      | cons c q =>
        by_cases text : c = 0
        · rw [scan_loop,scan_loop,rest]
          simp only [text,if_true]
        rw [scan_loop_cons rest text,scan_loop_cons rest text]
        cases found : scan_flag filename line_no (c :: q) with
        | error failure => rfl
        | ok result =>
          obtain ⟨flag,after⟩ := result
          have shorter := scan_flag_shorter text (skip_spaces_black rest) found
          have within := skip_spaces_le p
          rw [rest] at within
          change scan_loop filename line_no fuel after >>= _ = scan_loop filename line_no fuel' after >>= _
          rw [ih fuel' after (by omega) (by omega)]

/-- How `merge` ends where it does not return. -/
def MergeFailure : Failure → Prop
  | .fopen _ | .funny_framework _ _ | .corrupt_hconf _ | .fault => True
  | _ => False

theorem flag_value_error {escaped : Bool} {p : List Int8} {failure : Failure}
    (stopped : flag_value escaped p = .error failure) : MergeFailure failure := by
  fun_induction flag_value escaped p with
  | case1 =>
    cases stopped
    trivial
  | case2 c p ih =>
    rcases bind_error_iff.mp stopped with tail | ⟨_,_,result⟩
    · exact ih tail
    · cases result
  | case3 => cases stopped
  | case4 c p goes_on ih =>
    rcases bind_error_iff.mp stopped with tail | ⟨_,_,result⟩
    · exact ih tail
    · cases result

theorem flag_name_error {filename : List Int8} {line_no : Nat} {p : List Int8} {failure : Failure}
    (stopped : flag_name filename line_no p = .error failure) : MergeFailure failure := by
  unfold flag_name at stopped
  split at stopped
  · split at stopped
    · cases stopped
      trivial
    · split at stopped
      · cases stopped
      · cases stopped
        trivial
  · split at stopped
    · cases stopped
    · cases stopped

theorem scan_flag_error {filename : List Int8} {line_no : Nat} {p : List Int8} {failure : Failure}
    (stopped : scan_flag filename line_no p = .error failure) : MergeFailure failure := by
  rcases bind_error_iff.mp stopped with named | ⟨⟨name,after_name,do_no_arg⟩,_,stopped⟩
  · exact flag_name_error named
  rcases bind_error_iff.mp stopped with valued | ⟨_,_,result⟩
  · unfold flag_arg at valued
    split at valued
    · cases valued
    · exact flag_value_error valued
  · cases result

/-- The scanner does not run out of fuel. -/
theorem scan_loop_error {filename : List Int8} {line_no fuel : Nat} {p : List Int8} {failure : Failure}
    (enough : p.length < fuel) (stopped : scan_loop filename line_no fuel p = .error failure) : MergeFailure failure := by
  induction fuel generalizing p with
  | zero => exact absurd enough (Nat.not_lt_zero _)
  | succ fuel ih =>
    cases rest : skip_spaces p with
    | nil =>
      rw [scan_loop,rest] at stopped
      cases stopped
      trivial
    | cons c q =>
      by_cases text : c = 0
      · rw [scan_loop,rest] at stopped
        simp only [text,if_true] at stopped
        cases stopped
      rw [scan_loop_cons rest text] at stopped
      rcases bind_error_iff.mp stopped with first | ⟨⟨flag,after⟩,first,stopped⟩
      · exact scan_flag_error first
      have shorter := scan_flag_shorter text (skip_spaces_black rest) first
      have within := skip_spaces_le p
      rw [rest] at within
      rcases bind_error_iff.mp stopped with tail | ⟨_,_,result⟩
      · exact ih (by omega) tail
      · cases result

theorem read_lines_error {filename file : List Int8} {line_no : Nat} {vars : List VariableEnum} {failure : Failure}
    (stopped : read_lines filename line_no vars file = .error failure) : MergeFailure failure := by
  induction vars generalizing line_no file with
  | nil =>
    unfold read_lines at stopped
    split at stopped
    · cases stopped
    · cases stopped
      trivial
  | cons i vars ih =>
    unfold read_lines at stopped
    split at stopped
    · cases stopped
      trivial
    · rcases bind_error_iff.mp stopped with found | ⟨flags,_,stopped⟩
      · exact scan_loop_error (by simp) found
      rcases bind_error_iff.mp stopped with tail | ⟨_,_,result⟩
      · exact ih tail
      · cases result

theorem read_files_error {a_argv : List HconfFile} {old : FlagLists} {failure : Failure}
    (stopped : read_files old a_argv = .error failure) : MergeFailure failure := by
  induction a_argv generalizing old with
  | nil => cases stopped
  | cons file a_argv ih =>
    rcases bind_error_iff.mp stopped with found | ⟨lists,_,rest⟩
    · unfold read_file at found
      split at found
      · cases found
        trivial
      · exact read_lines_error found
    · exact ih rest

theorem merge_error {a_bucket : Bucket} {a_argv : List HconfFile} {failure : Failure}
    (stopped : merge a_bucket a_argv = .error failure) : MergeFailure failure := by
  rcases bind_error_iff.mp stopped with read | ⟨_,_,result⟩
  · rcases bind_error_iff.mp read with read | ⟨_,_,result⟩
    · exact read_files_error read
    · cases result
  · cases result

theorem scan_loop_start {filename : List Int8} {line_no fuel : Nat} {p : List Int8} {flags : List (List Int8)}
    (found : scan_loop filename line_no fuel p = .ok flags) : ∀ flag ∈ flags,Starts flag := by
  induction fuel generalizing p flags with
  | zero => cases found
  | succ fuel ih =>
    unfold scan_loop at found
    cases rest : skip_spaces p with
    | nil =>
      rw [rest] at found
      cases found
    | cons c q =>
      rw [rest] at found
      dsimp only at found
      split at found
      case isTrue =>
        cases found
        exact fun _ member => absurd member List.not_mem_nil
      case isFalse text =>
        obtain ⟨⟨flag,after⟩,first,found⟩ := bind_ok_iff.mp found
        obtain ⟨others,rest_found,result⟩ := bind_ok_iff.mp found
        cases result
        have black := skip_spaces_black rest
        intro other member
        rcases List.mem_cons.mp member with rfl | member
        · exact scan_flag_start (Ne.symm text) black first
        · exact ih rest_found other member

theorem read_lines_start {filename file : List Int8} {line_no : Nat} {vars : List VariableEnum} {lists : FlagLists}
    (read : read_lines filename line_no vars file = .ok lists) : ∀ i,∀ flag ∈ lists i,Starts flag := by
  induction vars generalizing line_no file lists with
  | nil =>
    unfold read_lines at read
    split at read
    · cases read
      exact fun _ _ member => absurd member List.not_mem_nil
    · cases read
  | cons i vars ih =>
    unfold read_lines at read
    split at read
    · cases read
    · obtain ⟨flags,found,read⟩ := bind_ok_iff.mp read
      obtain ⟨others,rest,result⟩ := bind_ok_iff.mp read
      cases result
      intro j
      by_cases same : j = i
      · subst same
        rw [Function.update_self]
        exact scan_loop_start found
      · rw [Function.update_of_ne same]
        exact ih rest j

theorem read_files_start {a_argv : List HconfFile} {old lists : FlagLists} (old_start : ∀ i,∀ flag ∈ old i,Starts flag)
    (read : read_files old a_argv = .ok lists) : ∀ i,∀ flag ∈ lists i,Starts flag := by
  induction a_argv generalizing old with
  | nil =>
    cases read
    exact old_start
  | cons file a_argv ih =>
    obtain ⟨new,file_read,rest⟩ := bind_ok_iff.mp read
    have new_start : ∀ i,∀ flag ∈ new i,Starts flag := by
      unfold read_file at file_read
      split at file_read
      · cases file_read
      · exact read_lines_start file_read
    apply ih _ rest
    intro i flag member
    unfold concat at member
    split at member
    · exact (List.mem_append.mp member).elim (new_start i flag) (old_start i flag)
    · exact (List.mem_append.mp member).elim (old_start i flag) (new_start i flag)

theorem merge_flags_start {a_argv : List HconfFile} {flags : FlagLists} (merged : merge_flags a_argv = .ok flags) :
    ∀ i,∀ flag ∈ flags i,Starts flag := by
  obtain ⟨lists,read,result⟩ := bind_ok_iff.mp merged
  cases result
  intro i flag member
  exact read_files_start (fun _ _ none_member => absurd none_member List.not_mem_nil) read i flag
    ((select_sublist i (lists i)).mem member)

/-! ### Cutting a joined line -/

/-- A flag that the scanner takes for itself where another flag follows. -/
def Rescans (flag : List Int8) : Prop :=
  ∀ filename line_no rest,scan_flag filename line_no (flag ++ (lit " " ++ rest)) = .ok (flag,lit " " ++ rest)

/-- A flag that the scanner takes for itself at the end of a line. -/
def Ends (flag : List Int8) : Prop :=
  ∀ filename line_no,∃ q,scan_flag filename line_no (flag ++ (lit " \n" ++ [0])) = .ok (flag,q) ∧ skip_spaces q = [0]

/-- The flags of a line, joined, are the same flags again. -/
structure Rejoins (flags : List (List Int8)) : Prop where
  one_line : ∀ flag ∈ flags,∀ c ∈ flag,chr '\n' ≠ c.toInt
  inner : ∀ flag ∈ flags.dropLast,Rescans flag
  last : ∀ flag ∈ flags.getLast?,Ends flag

def joined (flags : List (List Int8)) : List Int8 := flags.flatMap fun flag => flag ++ lit " "

theorem join_eq (flags : List (List Int8)) : (join flags).getD [] = joined flags := by
  have loop (var : Option (List Int8)) :
      (flags.foldl (fun var flag => cat_str (cat_str var flag) (lit " ")) var).getD [] = var.getD [] ++ joined flags := by
    induction flags generalizing var with
    | nil => simp [joined]
    | cons flag flags ih =>
      rw [List.foldl_cons,ih]
      simp [joined,cat_str]
  have start := loop none
  rwa [Option.getD_none,List.nil_append] at start

theorem scan_loop_joined (filename : List Int8) (line_no : Nat) (flags : List (List Int8))
    (starts : ∀ flag ∈ flags,Starts flag) (inner : ∀ flag ∈ flags.dropLast,Rescans flag)
    (last : ∀ flag ∈ flags.getLast?,Ends flag) (fuel : Nat) (enough : flags.length < fuel) (p : List Int8)
    (at_flags : skip_spaces p = skip_spaces (joined flags ++ (lit "\n" ++ [0]))) :
    scan_loop filename line_no fuel p = .ok flags := by
  induction flags generalizing fuel p with
  | nil =>
    cases fuel with
    | zero => exact absurd enough (Nat.not_lt_zero _)
    | succ fuel =>
      unfold scan_loop
      rw [at_flags]
      rfl
  | cons flag flags ih =>
    cases fuel with
    | zero => exact absurd enough (Nat.not_lt_zero _)
    | succ fuel =>
      obtain ⟨c,rest,flag_eq,text,black⟩ := starts flag List.mem_cons_self
      have here : skip_spaces p = c :: (rest ++ (lit " " ++ (joined flags ++ (lit "\n" ++ [0])))) := by
        rw [at_flags,flag_eq,joined,List.flatMap_cons,List.cons_append,List.cons_append,List.cons_append,
          skip_spaces_start black]
        simp [joined]
      unfold scan_loop
      rw [here]
      dsimp only
      rw [if_neg (Ne.symm text),← List.cons_append,← flag_eq]
      have tail_starts := fun other member => starts other (List.mem_cons_of_mem flag member)
      have tail_enough : flags.length < fuel := by
        rw [List.length_cons] at enough
        omega
      cases flags with
      | nil =>
        obtain ⟨q,found,ended⟩ := last flag rfl filename line_no
        have end_text : flag ++ (lit " " ++ (joined [] ++ (lit "\n" ++ [0]))) = flag ++ (lit " \n" ++ [0]) := rfl
        have tail := ih tail_starts (by simp) (by simp) fuel tail_enough q (by rw [ended]; rfl)
        rw [end_text]
        exact bind_ok_iff.mpr ⟨_,found,bind_ok_iff.mpr ⟨_,tail,rfl⟩⟩
      | cons next flags =>
        have found := inner flag (by simp [List.dropLast]) filename line_no (joined (next :: flags) ++ (lit "\n" ++ [0]))
        have tail := ih tail_starts (fun other member => inner other (List.mem_cons_of_mem flag member))
          (fun other member => last other member) fuel tail_enough
          (lit " " ++ (joined (next :: flags) ++ (lit "\n" ++ [0]))) rfl
        exact bind_ok_iff.mpr ⟨_,found,bind_ok_iff.mpr ⟨_,tail,rfl⟩⟩

/-- Each flag takes a blank at least. -/
theorem joined_length (flags : List (List Int8)) : flags.length ≤ (joined flags).length := by
  induction flags with
  | nil => exact Nat.le_refl 0
  | cons flag flags ih =>
    have one : (lit " ").length = 1 := rfl
    rw [joined,List.flatMap_cons,List.length_append,List.length_append,List.length_cons,one]
    unfold joined at ih
    omega

theorem scan_joined {flags : List (List Int8)} (starts : ∀ flag ∈ flags,Starts flag) (rejoins : Rejoins flags)
    (filename : List Int8) (line_no : Nat) :
    scan filename line_no (joined flags ++ lit "\n") = .ok flags := by
  have enough : flags.length < (joined flags ++ lit "\n").length + 2 := by
    have blanks := joined_length flags
    rw [List.length_append]
    omega
  apply scan_loop_joined filename line_no flags starts rejoins.inner rejoins.last _ enough
  rw [List.append_assoc]

theorem cut_line_text (room : Nat) (line rest : List Int8) (one_line : ∀ c ∈ line,chr '\n' ≠ c.toInt)
    (fits : line.length < room) : cut_line room (line ++ (lit "\n" ++ rest)) = (line ++ lit "\n",rest) := by
  induction line generalizing room with
  | nil =>
    cases room with
    | zero => exact absurd fits (Nat.not_lt_zero _)
    | succ room => rfl
  | cons c line ih =>
    cases room with
    | zero => exact absurd fits (Nat.not_lt_zero _)
    | succ room =>
      have tail := ih room (fun d member => one_line d (List.mem_cons_of_mem c member))
        (by rw [List.length_cons] at fits; omega)
      rw [List.cons_append,cut_line,if_neg (one_line c List.mem_cons_self),tail]
      rfl

theorem joined_one_line {flags : List (List Int8)} (rejoins : Rejoins flags) :
    ∀ c ∈ joined flags,chr '\n' ≠ c.toInt := by
  intro c member
  obtain ⟨flag,flag_member,member⟩ := List.mem_flatMap.mp member
  rcases List.mem_append.mp member with member | member
  · exact rejoins.one_line flag flag_member c member
  · have blank : c = 32 := List.mem_singleton.mp member
    rw [blank]
    decide

/-- The lines of a merged file are read back. -/
theorem read_lines_joined {flags : FlagLists} (starts : ∀ i,∀ flag ∈ flags i,Starts flag)
    (rejoins : ∀ i,Rejoins (flags i)) (fits : ∀ i,(joined (flags i)).length < 65535) (filename : List Int8)
    (line_no : Nat) (vars : List VariableEnum) :
    ∃ lists,read_lines filename line_no vars (vars.flatMap fun i => joined (flags i) ++ lit "\n") = .ok lists ∧
      ∀ i ∈ vars,lists i = flags i := by
  induction vars generalizing line_no with
  | nil => exact ⟨fun _ => [],rfl,fun i member => absurd member List.not_mem_nil⟩
  | cons i vars ih =>
    obtain ⟨lists,read,same⟩ := ih (line_no + 1)
    have line : fgets 65536 ((i :: vars).flatMap fun i => joined (flags i) ++ lit "\n") =
        some (joined (flags i) ++ lit "\n",vars.flatMap fun i => joined (flags i) ++ lit "\n") := by
      rw [List.flatMap_cons,List.append_assoc,fgets,if_neg (by simp [lit]),
        cut_line_text 65535 _ _ (joined_one_line (rejoins i)) (fits i)]
    refine ⟨Function.update lists i (flags i),?_,?_⟩
    · rw [read_lines,line]
      exact bind_ok_iff.mpr ⟨_,scan_joined (starts i) (rejoins i) filename line_no,
        bind_ok_iff.mpr ⟨_,read,rfl⟩⟩
    · intro j member
      by_cases here : j = i
      · subst here
        exact Function.update_self ..
      · rw [Function.update_of_ne here]
        exact same j ((List.mem_cons.mp member).resolve_left here)

/-- What `hconf_merge` writes is read as the flags that it has left. -/
theorem read_file_merged {flags : FlagLists} (starts : ∀ i,∀ flag ∈ flags i,Starts flag)
    (rejoins : ∀ i,Rejoins (flags i)) (fits : ∀ i,(joined (flags i)).length < 65535) {bucket : Bucket}
    (written : ∀ i,bucket.var i = join (flags i)) (filename : List Int8) :
    read_file ⟨filename,some (bucket_lines bucket)⟩ = .ok flags := by
  obtain ⟨lists,read,same⟩ := read_lines_joined starts rejoins fits filename 1 VAR_OUTPUT
  have all : lists = flags := by
    funext i
    apply same
    cases i <;> decide
  have text : bucket_lines bucket = VAR_OUTPUT.flatMap fun i => joined (flags i) ++ lit "\n" := by
    unfold bucket_lines
    congr 1
    funext i
    rw [written,join_eq]
  unfold read_file
  dsimp only
  rw [text,read,all]

/-! ### Merging again -/

theorem concat_assoc (a b c : FlagLists) : concat (concat a b) c = concat a (concat b c) := by
  funext i
  unfold concat
  split
  · rw [List.append_assoc]
  · rw [List.append_assoc]

theorem concat_nil (a : FlagLists) : concat (fun _ => []) a = a := by
  funext i
  unfold concat
  simp

/-- The flags that were there before do not matter for reading. -/
theorem read_files_concat (a b : FlagLists) (a_argv : List HconfFile) :
    read_files (concat a b) a_argv = (read_files b a_argv).map (concat a) := by
  induction a_argv generalizing b with
  | nil => rfl
  | cons file a_argv ih =>
    unfold read_files
    cases read_file file with
    | error stop => rfl
    | ok new =>
      change read_files (concat (concat a b) new) a_argv = (read_files (concat b new) a_argv).map (concat a)
      rw [concat_assoc]
      exact ih (concat b new)

theorem read_files_from (lists : FlagLists) (a_argv : List HconfFile) :
    read_files lists a_argv = (read_files (fun _ => []) a_argv).map (concat lists) := by
  rw [← read_files_concat]
  congr 1
  funext i
  unfold concat
  simp

theorem read_files_append (lists : FlagLists) (first second : List HconfFile) :
    read_files lists (first ++ second) = read_files lists first >>= fun lists => read_files lists second := by
  induction first generalizing lists with
  | nil => rfl
  | cons file first ih =>
    rw [List.cons_append,read_files,read_files]
    cases read_file file with
    | error stop => rfl
    | ok new => exact ih (concat lists new)

theorem select_select (i : VariableEnum) (flags : List (List Int8)) : select i (select i flags) = select i flags := by
  by_cases cppflags : VAR_CPPFLAGS = i
  · subst cppflags
    exact merge_cppflags_again flags
  · have alone := select_concat (fun _ => flags) (fun _ => []) i fun same => absurd same cppflags
    simpa [concat] using alone

/-- A file that `merge` has written stands for the files that it has read: by itself, and in front of more
    files as long as no macro name comes between the `-D` flags of another one. -/
theorem merge_merged {old a_bucket bucket : Bucket} {first second : List HconfFile} {flags : FlagLists}
    (merged : merge old first = .ok bucket) (left_over : merge_flags first = .ok flags)
    (rejoins : ∀ i,Rejoins (flags i)) (fits : ∀ i,((bucket.var i).getD []).length < 65535) (filename : List Int8) :
    merge a_bucket [⟨filename,some (bucket_lines bucket)⟩] = .ok { a_bucket with var := bucket.var } ∧
      ((∀ lists,read_files (fun _ => []) (first ++ second) = .ok lists → ¬Split (lists VAR_CPPFLAGS)) →
        merge a_bucket (⟨filename,some (bucket_lines bucket)⟩ :: second) = merge a_bucket (first ++ second)) := by
  have written : bucket.var = fun i => join (flags i) := by
    unfold merge at merged
    rw [left_over] at merged
    cases merged
    rfl
  have again : read_file ⟨filename,some (bucket_lines bucket)⟩ = .ok flags := by
    apply read_file_merged (merge_flags_start left_over) rejoins _ (fun i => congrFun written i)
    intro i
    rw [← join_eq,← congrFun written i]
    exact fits i
  obtain ⟨lists,read,selected⟩ := bind_ok_iff.mp left_over
  have flags_eq : flags = fun i => select i (lists i) := (Except.ok.inj selected).symm
  constructor
  · have one : merge_flags [⟨filename,some (bucket_lines bucket)⟩] = .ok flags := by
      unfold merge_flags read_files
      rw [again]
      change Except.ok (fun i => select i (concat (fun _ => []) flags i)) = _
      rw [concat_nil,flags_eq]
      congr 1
      funext i
      exact select_select i (lists i)
    unfold merge
    rw [one,written]
    rfl
  · intro whole
    have both : read_files (fun _ => []) (first ++ second) = (read_files (fun _ => []) second).map (concat lists) := by
      rw [read_files_append,read]
      exact read_files_from lists second
    have after : read_files (fun _ => []) (⟨filename,some (bucket_lines bucket)⟩ :: second) =
        (read_files (fun _ => []) second).map (concat flags) := by
      rw [read_files,again]
      change read_files (concat (fun _ => []) flags) second = _
      rw [concat_nil]
      exact read_files_from flags second
    unfold merge merge_flags
    rw [both,after]
    rw [both] at whole
    cases rest : read_files (fun _ => []) second with
    | error stop => rfl
    | ok new =>
      rw [rest] at whole
      have same : (fun i => select i (concat flags new i)) = fun i => select i (concat lists new i) := by
        funext i
        rw [flags_eq]
        apply select_concat
        intro cppflags
        have apart := whole _ rfl
        subst cppflags
        exact apart
      change Except.ok { a_bucket with var := fun i => join (select i (concat flags new i)) } =
        Except.ok { a_bucket with var := fun i => join (select i (concat lists new i)) }
      rw [show (fun i => join (select i (concat flags new i))) = fun i => join (select i (concat lists new i)) from
        funext fun i => congrArg join (congrFun same i)]

def hconf_file (content : String) : HconfFile := ⟨lit "hconf",some (lit content)⟩

def two_files : List HconfFile :=
  [hconf_file "gcc\n-DA=1\n-I1\n\n-lm -lc\n",hconf_file "gcc\n-DA=2\n-I2 -I1\n\n-la\n"]

def third_file : HconfFile := hconf_file "cc\n-DB\n\n\n-lc -lm\n"

theorem no_more {P : List Int8 → Prop} : ∀ flag ∈ ([] : List (List Int8)),P flag :=
  fun _ member => absurd member List.not_mem_nil

/-- A file that is written from two, before a third one. -/
theorem merge_merged_files :
    ∃ bucket,merge empty_bucket two_files = .ok bucket ∧
      bucket_lines bucket = lit "gcc \n-DA=2 \n-I2 -I1 \n\n-la -lm -lc \n" ∧
      merge empty_bucket [⟨lit "merged",some (bucket_lines bucket)⟩] = .ok { empty_bucket with var := bucket.var } ∧
      merge empty_bucket [⟨lit "merged",some (bucket_lines bucket)⟩,third_file] =
        merge empty_bucket (two_files ++ [third_file]) := by
  obtain ⟨flags,left_over,lists⟩ := of_map_ok (show
    (merge_flags two_files).map (fun flags => VAR_OUTPUT.map flags) =
      .ok [[lit "gcc"],[lit "-DA=2"],[lit "-I2",lit "-I1"],[],[lit "-la",lit "-lm",lit "-lc"]] by decide)
  obtain ⟨cc,cppflags,cflags,ldflags,libs⟩ : flags VAR_CC = [lit "gcc"] ∧ flags VAR_CPPFLAGS = [lit "-DA=2"] ∧
      flags VAR_CFLAGS = [lit "-I2",lit "-I1"] ∧ flags VAR_LDFLAGS = [] ∧
      flags VAR_LIBS = [lit "-la",lit "-lm",lit "-lc"] := by
    simpa [VAR_OUTPUT] using lists
  have whole : ∀ lists,read_files (fun _ => []) (two_files ++ [third_file]) = .ok lists →
      ¬Split (lists VAR_CPPFLAGS) := by
    intro lists read
    have cppflags : (read_files (fun _ => []) (two_files ++ [third_file])).map (· VAR_CPPFLAGS) =
        .ok [lit "-DA=1",lit "-DA=2",lit "-DB"] := by decide
    rw [read] at cppflags
    rw [show lists VAR_CPPFLAGS = _ from Except.ok.inj cppflags]
    unfold Split
    decide
  have rejoins (i : VariableEnum) : Rejoins (flags i) := by
    cases i with
    | VAR_CC =>
      rw [cc]
      exact ⟨by decide +kernel,no_more,fun _ only => by cases only; exact fun _ _ => ⟨_,rfl,rfl⟩⟩
    | VAR_CPPFLAGS =>
      rw [cppflags]
      exact ⟨by decide +kernel,no_more,fun _ only => by cases only; exact fun _ _ => ⟨_,rfl,rfl⟩⟩
    | VAR_CFLAGS =>
      rw [cflags]
      exact ⟨by decide +kernel,List.forall_mem_cons.mpr ⟨fun _ _ _ => rfl,no_more⟩,
        fun _ only => by cases only; exact fun _ _ => ⟨_,rfl,rfl⟩⟩
    | VAR_LDFLAGS =>
      rw [ldflags]
      exact ⟨by decide,no_more,fun _ only => by cases only⟩
    | VAR_LIBS =>
      rw [libs]
      exact ⟨by decide +kernel,List.forall_mem_cons.mpr ⟨fun _ _ _ => rfl,List.forall_mem_cons.mpr ⟨fun _ _ _ => rfl,no_more⟩⟩,
        fun _ only => by cases only; exact fun _ _ => ⟨_,rfl,rfl⟩⟩
  have merged : merge empty_bucket two_files = .ok { empty_bucket with var := fun i => join (flags i) } := by
    unfold merge
    rw [left_over]
    rfl
  have fits (i : VariableEnum) : ((join (flags i)).getD []).length < 65535 := by
    rw [join_eq]
    cases i <;> simp only [cc,cppflags,cflags,ldflags,libs] <;> decide
  have again := @merge_merged _ empty_bucket _ _ [third_file] _ merged left_over rejoins fits (lit "merged")
  refine ⟨_,merged,?_,again.1,again.2 whole⟩
  simp only [bucket_lines,VAR_OUTPUT,List.flatMap_cons,List.flatMap_nil,cc,cppflags,cflags,ldflags,libs]
  decide

/-- A flag of two characters takes the next one for its value when the merged line is read. -/
theorem merge_merged_fails :
    ∃ bucket again,merge empty_bucket [hconf_file "\n\n-g\n\n\n",hconf_file "\n\n-O2\n\n\n"] = .ok bucket ∧
      merge empty_bucket [⟨lit "merged",some (bucket_lines bucket)⟩] = .ok again ∧
      bucket_lines bucket = lit "\n\n-g -O2 \n\n\n" ∧ bucket_lines again = lit "\n\n-g-O2 \n\n\n" := by
  obtain ⟨bucket,merged,lines⟩ := of_map_ok (show
    (merge empty_bucket [hconf_file "\n\n-g\n\n\n",hconf_file "\n\n-O2\n\n\n"]).map bucket_lines =
      .ok (lit "\n\n-g -O2 \n\n\n") by decide)
  obtain ⟨again,merged_again,again_lines⟩ := of_map_ok (show
    (merge empty_bucket [⟨lit "merged",some (lit "\n\n-g -O2 \n\n\n")⟩]).map bucket_lines =
      .ok (lit "\n\n-g-O2 \n\n\n") by decide)
  refine ⟨bucket,again,merged,?_,lines,again_lines⟩
  rw [lines]
  exact merged_again

end Htools.HconfMerge
