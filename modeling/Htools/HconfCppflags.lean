import Htools.HconfMerge

/-!
What `merge` leaves of the CPPFLAGS. `walk` compares neighbours of the sorted
list only (`walk_eq`), so that it finds one `-D` flag for each macro name where
the sorted flags of a name stand together, and only there (`merge_cppflags_iff`).
-/
namespace Htools.HconfMerge
open Htools.Lexing Htools.ConfigFile Htools.CString Htools.TailqSort Htools.Selection VariableEnum

/-- `#define` by a flag. -/
def Define (flag : List Int8) : Prop := lit "-D" <+: flag

instance (flag : List Int8) : Decidable (Define flag) := inferInstanceAs (Decidable (lit "-D" <+: flag))

/-- The longest run of letters, digits and underscores after `-D`. -/
def macro_name (flag : List Int8) : List Int8 :=
  (flag.drop 2).takeWhile fun c => chr '_' = c.toInt ∨ isalnum c.toInt

/-- What flags must share to stand for one another. -/
def macro_key (flag : List Int8) : List Int8 := if Define flag then lit "-D" ++ macro_name flag else flag

abbrev flag_key (flag : Flag) : List Int8 := macro_key flag.1

theorem define_take {flag : List Int8} (define : Define flag) :
    flag.take (dname_len flag) = lit "-D" ++ macro_name flag := by
  obtain ⟨rest,rfl⟩ := define
  have tail : (lit "-D" ++ rest).drop 2 = rest := rfl
  have two : (lit "-D").length = 2 := rfl
  rw [dname_len,macro_name,tail,List.take_append,two,Nat.add_sub_cancel_left,List.take_of_length_le (by rw [two]; omega)]
  congr 1
  exact (List.prefix_iff_eq_take.mp (List.takeWhile_prefix _)).symm

theorem macro_key_define {flag : List Int8} (define : Define flag) : macro_key flag = lit "-D" ++ macro_name flag :=
  if_pos define

theorem macro_key_other {flag : List Int8} (other : ¬Define flag) : macro_key flag = flag := if_neg other

theorem define_key {flag : List Int8} : Define (macro_key flag) ↔ Define flag := by
  by_cases define : Define flag
  · rw [macro_key_define define]
    exact ⟨fun _ => define,fun _ => List.prefix_append _ _⟩
  · rw [macro_key_other define]

theorem macro_key_eq_iff {flag other : List Int8} (define : Define flag) :
    macro_key other = macro_key flag ↔ Define other ∧ macro_name other = macro_name flag := by
  constructor
  · intro same
    have other_define : Define other := by
      rw [← define_key,same,define_key]
      exact define
    rw [macro_key_define define,macro_key_define other_define] at same
    exact ⟨other_define,List.append_cancel_left same⟩
  · rintro ⟨other_define,same⟩
    rw [macro_key_define define,macro_key_define other_define,same]

/-- The comparison of the loop is one of keys. -/
theorem do_write_prev_iff {flag prev : List Int8} {prev_dname_len : Nat}
    (known : Define prev → prev_dname_len = dname_len prev) :
    do_write_prev flag prev prev_dname_len = true ↔ macro_key prev ≠ macro_key flag := by
  have same_start (n : Nat) : 0 = strncmp flag prev n ↔ flag.take n = prev.take n := by
    rw [strncmp,eq_comm,strcmp_eq_zero]
  unfold do_write_prev
  by_cases define : Define flag
  · rw [if_pos ((strbcmp_iff flag "-D").mpr define),decide_eq_true_iff]
    by_cases prev_define : Define prev
    · rw [known prev_define,macro_key_define prev_define,macro_key_define define,← define_take define,
        ← define_take prev_define,ne_eq (0 : Int),same_start,← not_and_or,not_iff_not,define_take define,
        define_take prev_define]
      constructor
      · rintro ⟨len,same⟩
        rw [len,define_take prev_define] at same
        exact same.symm
      · intro same
        have len : dname_len flag = dname_len prev := by
          have names := List.append_cancel_left same
          unfold macro_name at names
          unfold dname_len
          rw [names]
        rw [len,define_take prev_define]
        exact ⟨rfl,same.symm⟩
    · have key_differs : macro_key prev ≠ macro_key flag := fun same =>
        prev_define ((macro_key_eq_iff define).mp same).1
      have start_differs : 0 ≠ strncmp flag prev (dname_len flag) := by
        rw [ne_eq,same_start,define_take define]
        intro same
        have start : lit "-D" ++ macro_name flag <+: prev := by
          rw [same]
          exact List.take_prefix _ _
        exact prev_define ((List.prefix_append _ _).trans start)
      exact ⟨fun _ => key_differs,fun _ => Or.inr start_differs⟩
  · rw [if_neg (fun start => define ((strbcmp_iff flag "-D").mp start)),decide_eq_true_iff,ne_eq,eq_comm,strcmp_eq_zero,not_iff_not]
    by_cases prev_define : Define prev
    · constructor
      · rintro rfl
        exact absurd prev_define define
      · intro same
        exact absurd ((macro_key_eq_iff prev_define).mp same.symm).1 define
    · rw [macro_key_other define,macro_key_other prev_define]
      exact eq_comm

/-- The loop removes what is not the last of its run. -/
theorem walk_some (prev : Flag) (prev_dname_len : Nat) (flag_list original_list : List Flag)
    (known : Define prev.1 → prev_dname_len = dname_len prev.1) (nodup : (prev :: flag_list).Nodup)
    (original_nodup : original_list.Nodup) :
    walk (some prev) prev_dname_len flag_list original_list =
      original_list.filter fun flag => flag ∈ last_of_runs flag_key (prev :: flag_list) ∨ flag ∉ prev :: flag_list := by
  induction flag_list generalizing prev prev_dname_len original_list with
  | nil =>
    rw [walk,last_of_runs,List.filter_eq_self.mpr]
    intro flag _
    exact decide_eq_true (Classical.em _)
    simp
  | cons flag flag_list ih =>
    have flag_known : Define flag.1 →
        (if 0 = STRBCMP flag.1 "-D" then dname_len flag.1 else prev_dname_len) = dname_len flag.1 :=
      fun define => if_pos ((strbcmp_iff flag.1 "-D").mpr define)
    obtain ⟨prev_new,tail_nodup⟩ := List.nodup_cons.mp nodup
    have keeps := @do_write_prev_iff flag.1 _ _ known
    rw [walk,last_of_runs]
    by_cases same : flag_key prev = flag_key flag
    · rw [if_neg (fun write => keeps.mp write same),if_pos same,ih flag _ _ flag_known tail_nodup (original_nodup.erase prev),
        original_nodup.erase_eq_filter,List.filter_filter]
      apply List.filter_congr
      intro e _
      have prev_out : prev ∉ last_of_runs flag_key (flag :: flag_list) := fun last =>
        prev_new ((last_of_runs_sublist flag_key _).mem last)
      by_cases e_prev : e = prev
      · subst e_prev
        simp [prev_out]
      · simp [e_prev]
    · rw [if_pos (keeps.mpr same),if_neg same,ih flag _ _ flag_known tail_nodup original_nodup]
      apply List.filter_congr
      intro e _
      by_cases e_prev : e = prev
      · subst e_prev
        simp [prev_new]
      · simp [e_prev]

abbrev sorted_flags (flags : List (List Int8)) : List Flag := tailq_sort cmp flags.zipIdx flags.length

abbrev Older (a b : Flag) : Prop := a.2 < b.2

abbrev Smaller (a b : Flag) : Prop := cmp a b ≤ 0

theorem cmp_comparison : Comparison cmp where
  trans a b c := strcmp_comparison.trans a.1 b.1 c.1
  swap a b := strcmp_comparison.swap a.1 b.1

theorem smaller_ranking : Ranking Smaller where
  trans := cmp_comparison.trans
  total a b := by
    have swap := cmp_comparison.swap a b
    unfold Smaller
    omega

theorem zipIdx_older (flags : List (List Int8)) : flags.zipIdx.Pairwise Older := by
  have places : (flags.zipIdx.map Prod.snd).Pairwise (· < ·) := by
    rw [List.zipIdx_map_snd]
    exact List.pairwise_lt_range'
  exact (List.pairwise_map (f := Prod.snd)).mp places

theorem zipIdx_nodup (flags : List (List Int8)) : flags.zipIdx.Nodup :=
  (zipIdx_older flags).imp fun older same => by
    subst same
    exact Nat.lt_irrefl _ older

theorem sorted_flags_perm (flags : List (List Int8)) : (sorted_flags flags).Perm flags.zipIdx :=
  tailq_sort_perm _ _

theorem sorted_flags_mem {flags : List (List Int8)} {flag : List Int8} :
    flag ∈ flags ↔ ∃ place,(flag,place) ∈ sorted_flags flags := by
  have firsts : ((sorted_flags flags).map Prod.fst).Perm flags := by
    have perm := (sorted_flags_perm flags).map Prod.fst
    rwa [List.zipIdx_map_fst] at perm
  rw [← firsts.mem_iff,List.mem_map]
  constructor
  · rintro ⟨⟨_,place⟩,member,rfl⟩
    exact ⟨place,member⟩
  · rintro ⟨place,member⟩
    exact ⟨_,member,rfl⟩

theorem sorted_flags_before (flags : List (List Int8)) : (sorted_flags flags).Pairwise (Before Smaller Older) := by
  have stable := tailq_sort_stable cmp_comparison flags.zipIdx (zipIdx_older flags)
  rw [List.length_zipIdx] at stable
  apply stable.imp
  rintro a b (less | ⟨le,older⟩)
  · left
    have swap := cmp_comparison.swap b a
    unfold Smaller
    omega
  · exact Or.inr ⟨le,older⟩

/-- The loop over a sorted list leaves the last of each run. -/
theorem walk_runs {sorted original_list : List Flag} (perm : sorted.Perm original_list) (nodup : original_list.Nodup) :
    walk none 0 sorted original_list = original_list.filter fun flag => flag ∈ last_of_runs flag_key sorted := by
  cases is : sorted with
  | nil =>
    rw [is] at perm
    rw [List.nil_perm.mp perm]
    rfl
  | cons flag flag_list =>
    rw [is] at perm
    have start : Define flag.1 → (if 0 = STRBCMP flag.1 "-D" then dname_len flag.1 else 0) = dname_len flag.1 :=
      fun define => if_pos ((strbcmp_iff flag.1 "-D").mpr define)
    rw [walk,walk_some flag _ _ _ start (perm.nodup_iff.mpr nodup) nodup]
    apply List.filter_congr
    intro other member
    simp [perm.mem_iff.mpr member]

theorem walk_eq (flags : List (List Int8)) :
    merge_cppflags flags =
      (flags.zipIdx.filter fun flag => flag ∈ last_of_runs flag_key (sorted_flags flags)).map Prod.fst :=
  congrArg (List.map Prod.fst) (walk_runs (sorted_flags_perm flags) (zipIdx_nodup flags))

theorem merge_cppflags_sublist (flags : List (List Int8)) : (merge_cppflags flags).Sublist flags := by
  have all := (List.filter_sublist (l := flags.zipIdx)
    (p := fun flag => flag ∈ last_of_runs flag_key (sorted_flags flags))).map Prod.fst
  rw [List.zipIdx_map_fst] at all
  rw [walk_eq]
  exact all

/-- The flags that are left, as they stand in the sorted list. -/
theorem merge_cppflags_perm (flags : List (List Int8)) :
    (merge_cppflags flags).Perm ((last_of_runs flag_key (sorted_flags flags)).map Prod.fst) := by
  rw [walk_eq]
  apply List.Perm.map
  have runs := last_of_runs_sublist flag_key (sorted_flags flags)
  have nodup := (sorted_flags_perm flags).nodup_iff.mpr (zipIdx_nodup flags)
  apply (List.perm_ext_iff_of_nodup ((zipIdx_nodup flags).sublist List.filter_sublist) (nodup.sublist runs)).mpr
  intro flag
  rw [List.mem_filter,decide_eq_true_iff,and_iff_right_iff_imp]
  intro last
  exact (sorted_flags_perm flags).mem_iff.mp (runs.mem last)

/-- One `-D` flag for each macro name, the greatest one, and each other flag once. -/
structure OncePerName (input output : List (List Int8)) : Prop where
  from_input : ∀ flag ∈ output,flag ∈ input
  define : ∀ flag ∈ input,Define flag → ∃ greatest ∈ input,
    (output.filter fun other => Define other ∧ macro_name other = macro_name flag) = [greatest] ∧
      ∀ other ∈ input,Define other → macro_name other = macro_name flag → strcmp other greatest ≤ 0
  other : ∀ flag ∈ input,¬Define flag → output.count flag = 1

/-- A `-D` flag is between two `-D` flags of another name. -/
def Split (flags : List (List Int8)) : Prop :=
  ∃ first ∈ flags,∃ between ∈ flags,∃ last ∈ flags,Define first ∧ Define between ∧ Define last ∧
    macro_name first = macro_name last ∧ macro_name between ≠ macro_name first ∧
    strcmp first between < 0 ∧ strcmp between last < 0

theorem filter_key {l : List (List Int8)} (nodup : (l.map macro_key).Nodup) {flag : List Int8} (member : flag ∈ l) :
    l.filter (fun other => macro_key other = macro_key flag) = [flag] := by
  induction l with
  | nil => exact absurd member List.not_mem_nil
  | cons first l ih =>
    rw [List.map_cons,List.nodup_cons] at nodup
    rcases List.mem_cons.mp member with rfl | member
    · rw [List.filter_cons_of_pos (by simp),List.filter_eq_nil_iff.mpr]
      intro other other_member same
      rw [decide_eq_true_iff] at same
      exact nodup.1 (same ▸ List.mem_map_of_mem other_member)
    · have differs : macro_key first ≠ macro_key flag := fun same =>
        nodup.1 (same ▸ List.mem_map_of_mem member)
      rw [List.filter_cons_of_neg (by simpa using differs)]
      exact ih nodup.2 member

/-- The flags of one key, for a key of each kind. -/
theorem filter_define {flag : List Int8} (define : Define flag) (l : List (List Int8)) :
    (l.filter fun other => Define other ∧ macro_name other = macro_name flag) =
      l.filter fun other => macro_key other = macro_key flag := by
  apply List.filter_congr
  intro other _
  rw [decide_eq_decide]
  exact (macro_key_eq_iff define).symm

theorem macro_key_eq_other {flag other : List Int8} (no_define : ¬Define flag) :
    macro_key other = macro_key flag ↔ other = flag := by
  constructor
  · intro same
    have other_no_define : ¬Define other := by
      rw [← define_key,same,define_key]
      exact no_define
    rwa [macro_key_other no_define,macro_key_other other_no_define] at same
  · rintro rfl
    rfl

theorem OncePerName.nodup {input output : List (List Int8)} (once : OncePerName input output) :
    (output.map macro_key).Nodup := by
  rw [List.nodup_iff_count_le_one]
  intro key
  by_cases found : key ∈ output.map macro_key
  · obtain ⟨flag,member,rfl⟩ := List.mem_map.mp found
    rw [List.count_eq_countP,List.countP_map,List.countP_eq_length_filter]
    have filter_eq : output.filter ((· == macro_key flag) ∘ macro_key) =
        output.filter fun other => macro_key other = macro_key flag := by
      apply List.filter_congr
      intro other _
      exact Bool.beq_eq_decide_eq _ _
    rw [filter_eq]
    by_cases define : Define flag
    · obtain ⟨greatest,_,single,_⟩ := once.define flag (once.from_input flag member) define
      rw [filter_define define] at single
      rw [single]
      exact Nat.le_refl 1
    · have count := once.other flag (once.from_input flag member) define
      rw [List.count_eq_countP,List.countP_eq_length_filter] at count
      rw [← count]
      apply Nat.le_of_eq
      congr 1
      apply List.filter_congr
      intro other _
      rw [Bool.beq_eq_decide_eq,decide_eq_decide]
      exact macro_key_eq_other define
  · rw [List.count_eq_zero_of_not_mem found]
    exact Nat.zero_le 1

theorem once_iff_neighbours (flags : List (List Int8)) :
    OncePerName flags (merge_cppflags flags) ↔ Neighbours flag_key (sorted_flags flags) := by
  have keys_iff : ((merge_cppflags flags).map macro_key).Nodup ↔ Neighbours flag_key (sorted_flags flags) := by
    rw [← runs_iff,((merge_cppflags_perm flags).map macro_key).nodup_iff,List.map_map,List.Nodup,List.pairwise_map]
    rfl
  constructor
  · intro once
    exact keys_iff.mp once.nodup
  intro neighbours
  have nodup := keys_iff.mpr neighbours
  have winners := last_of_runs_winners flag_key (sorted_flags flags) (sorted_flags_before flags) neighbours
  have greatest (flag : List Int8) (member : flag ∈ flags) : ∃ first ∈ merge_cppflags flags,
      macro_key first = macro_key flag ∧ ∀ other ∈ flags,macro_key other = macro_key flag → strcmp other first ≤ 0 := by
    obtain ⟨place,placed⟩ := sorted_flags_mem.mp member
    obtain ⟨first,last,same⟩ := winners.found _ placed
    refine ⟨first.1,(merge_cppflags_perm flags).mem_iff.mpr (List.mem_map_of_mem last),same,?_⟩
    intro other other_member other_same
    obtain ⟨other_place,other_placed⟩ := sorted_flags_mem.mp other_member
    rcases winners.last first last _ other_placed (other_same.trans same.symm) with rfl | before
    · exact le_of_eq (strcmp_self _)
    · have smaller : Smaller (other,other_place) first := Before.to_le smaller_ranking before
      exact smaller
  refine ⟨fun flag kept => (merge_cppflags_sublist flags).mem kept,?_,?_⟩
  · intro flag member define
    obtain ⟨first,kept,same,largest⟩ := greatest flag member
    refine ⟨first,(merge_cppflags_sublist flags).mem kept,?_,?_⟩
    · rw [filter_define define,← same]
      exact filter_key nodup kept
    · intro other other_member other_define name
      exact largest other other_member ((macro_key_eq_iff define).mpr ⟨other_define,name⟩)
  · intro flag member no_define
    obtain ⟨first,kept,same,_⟩ := greatest flag member
    rw [macro_key_eq_other no_define] at same
    rw [← same]
    exact List.count_eq_one_of_mem nodup.of_map kept

/-- What is between two texts in the order begins as they both begin. -/
theorem prefix_between {start l m r : List Int8} (l_start : start <+: l) (r_start : start <+: r)
    (l_le : strcmp l m ≤ 0) (le_r : strcmp m r ≤ 0) : start <+: m := by
  induction start generalizing l m r with
  | nil => exact List.nil_prefix
  | cons c start ih =>
    obtain ⟨l',rfl⟩ := l_start
    obtain ⟨r',rfl⟩ := r_start
    cases m with
    | nil => simp [strcmp] at l_le
    | cons d m =>
      rw [List.cons_append,strcmp] at l_le le_r
      have same : c = d := by
        by_contra differ
        rw [if_neg differ] at l_le
        rw [if_neg (Ne.symm differ)] at le_r
        have codes : c.toUInt8.toNat ≠ d.toUInt8.toNat := fun codes => differ (unsigned_inj codes)
        omega
      subst same
      rw [if_pos rfl] at l_le le_r
      exact List.cons_prefix_cons.mpr ⟨rfl,ih (List.prefix_append start l') (List.prefix_append start r') l_le le_r⟩

/-- What is greater than an element of a sorted list is not its first one. -/
theorem sorted_later {first : Flag} {l : List Flag} (sorted : (first :: l).Pairwise Smaller) {a b : Flag}
    (a_member : a ∈ first :: l) (b_member : b ∈ first :: l) (less : cmp a b < 0) : b ∈ l := by
  rcases List.mem_cons.mp b_member with rfl | member
  · have swap := (cmp_comparison.swap b a).mpr less
    rcases List.mem_cons.mp a_member with rfl | a_member
    · omega
    · have le : cmp b a ≤ 0 := (List.pairwise_cons.mp sorted).1 a a_member
      omega
  · exact member

theorem sorted_two {l : List Flag} (sorted : l.Pairwise Smaller) {a b : Flag} (a_member : a ∈ l) (b_member : b ∈ l)
    (less : cmp a b < 0) : [a,b].Sublist l := by
  induction l with
  | nil => exact absurd a_member List.not_mem_nil
  | cons first l ih =>
    have b_later := sorted_later sorted a_member b_member less
    rcases List.mem_cons.mp a_member with rfl | a_later
    · exact (List.singleton_sublist.mpr b_later).cons_cons a
    · exact (ih (List.pairwise_cons.mp sorted).2 a_later b_later).cons first

theorem sorted_three {l : List Flag} (sorted : l.Pairwise Smaller) {a b c : Flag} (a_member : a ∈ l) (b_member : b ∈ l)
    (c_member : c ∈ l) (a_b : cmp a b < 0) (b_c : cmp b c < 0) : [a,b,c].Sublist l := by
  induction l with
  | nil => exact absurd a_member List.not_mem_nil
  | cons first l ih =>
    have tail := (List.pairwise_cons.mp sorted).2
    have b_later := sorted_later sorted a_member b_member a_b
    have c_later := sorted_later sorted b_member c_member b_c
    rcases List.mem_cons.mp a_member with rfl | a_later
    · exact (sorted_two tail b_later c_later b_c).cons_cons a
    · exact (ih tail a_later b_later c_later).cons first

/-- The flags of a key stand apart where another name is between them, and only there. -/
theorem neighbours_iff (flags : List (List Int8)) :
    Neighbours flag_key (sorted_flags flags) ↔ ¬Split flags := by
  have sorted : (sorted_flags flags).Pairwise Smaller :=
    (sorted_flags_before flags).imp fun before => Before.to_le smaller_ranking before
  constructor
  · rintro neighbours ⟨first,first_member,between,between_member,last,last_member,first_define,between_define,
      last_define,same,differs,first_less,last_greater⟩
    obtain ⟨first_place,first_placed⟩ := sorted_flags_mem.mp first_member
    obtain ⟨between_place,between_placed⟩ := sorted_flags_mem.mp between_member
    obtain ⟨last_place,last_placed⟩ := sorted_flags_mem.mp last_member
    have within := sorted_three sorted first_placed between_placed last_placed first_less last_greater
    have keys := neighbours _ _ _ within ((macro_key_eq_iff last_define).mpr ⟨first_define,same⟩)
    exact differs ((macro_key_eq_iff first_define).mp keys).2
  · intro whole first between last within ends
    by_contra differs
    obtain ⟨first_le,tail⟩ := List.pairwise_cons.mp (sorted.sublist within)
    have first_between := first_le between List.mem_cons_self
    have between_last := (List.pairwise_cons.mp tail).1 last List.mem_cons_self
    have members (flag : Flag) (member : flag ∈ [first,between,last]) : flag.1 ∈ flags :=
      sorted_flags_mem.mpr ⟨flag.2,within.mem member⟩
    by_cases define : Define first.1
    · obtain ⟨last_define,same⟩ := (macro_key_eq_iff define).mp ends.symm
      have between_define : Define between.1 := prefix_between define last_define first_between between_last
      have name_differs : macro_name between.1 ≠ macro_name first.1 := fun same =>
        differs ((macro_key_eq_iff define).mpr ⟨between_define,same⟩)
      apply whole
      refine ⟨first.1,members _ (by simp),between.1,members _ (by simp),last.1,members _ (by simp),define,between_define,
        last_define,same.symm,name_differs,?_,?_⟩
      · apply lt_of_le_of_ne first_between
        intro equal
        rw [cmp,strcmp_eq_zero] at equal
        exact name_differs (by rw [equal])
      · apply lt_of_le_of_ne between_last
        intro equal
        rw [cmp,strcmp_eq_zero] at equal
        exact name_differs (by rw [equal,same])
    · have equal : last.1 = first.1 := (macro_key_eq_other define).mp ends.symm
      have back : strcmp between.1 first.1 ≤ 0 := equal ▸ between_last
      have swap := strcmp_comparison.swap between.1 first.1
      have zero : strcmp first.1 between.1 = 0 := by
        have le : strcmp first.1 between.1 ≤ 0 := first_between
        have swap' := strcmp_comparison.swap first.1 between.1
        omega
      rw [strcmp_eq_zero] at zero
      exact differs (by rw [flag_key,flag_key,zero])

/-- The merged CPPFLAGS have one flag for each macro name and each other flag once, exactly
    where no name comes between the flags of another one. -/
theorem merge_cppflags_iff (a_bucket : Bucket) (a_argv : List HconfFile) (flag_list : FlagLists)
    (read : read_files (fun _ => []) a_argv = .ok flag_list) :
    ∃ bucket,merge a_bucket a_argv = .ok bucket ∧
      bucket.var VAR_CPPFLAGS = join (merge_cppflags (flag_list VAR_CPPFLAGS)) ∧
      (OncePerName (flag_list VAR_CPPFLAGS) (merge_cppflags (flag_list VAR_CPPFLAGS)) ↔
        ¬Split (flag_list VAR_CPPFLAGS)) := by
  refine ⟨{ a_bucket with var := fun i => join (select i (flag_list i)) },?_,rfl,?_⟩
  · unfold merge merge_flags
    rw [read]
    rfl
  · exact (once_iff_neighbours _).trans (neighbours_iff _)

/-- A file with the given CPPFLAGS only. -/
def cppflags_file (cppflags : String) : HconfFile := ⟨lit "hconf",some (lit ("\n" ++ cppflags ++ "\n\n\n\n"))⟩

def empty_bucket : Bucket := ⟨fun _ => none,none,true,true⟩

theorem of_map_ok {ε α β : Type} {x : Except ε α} {f : α → β} {b : β} (mapped : x.map f = .ok b) :
    ∃ a,x = .ok a ∧ f a = b := by
  cases x with
  | error e => cases mapped
  | ok a => exact ⟨a,rfl,Except.ok.inj mapped⟩

/-- `-DA=1` replaces `-DA`, as nothing is between them. -/
theorem merge_cppflags_replaces :
    ∃ flag_list bucket,merge empty_bucket [cppflags_file "-I. -DA",cppflags_file "-DA=1 -I."] = .ok bucket ∧
      bucket.var VAR_CPPFLAGS = some (lit "-DA=1 -I. ") ∧
      flag_list = [lit "-I.",lit "-DA",lit "-DA=1",lit "-I."] ∧ OncePerName flag_list (merge_cppflags flag_list) := by
  obtain ⟨flag_list,read,cppflags⟩ := of_map_ok (show
    (read_files (fun _ => []) [cppflags_file "-I. -DA",cppflags_file "-DA=1 -I."]).map (· VAR_CPPFLAGS) =
      .ok [lit "-I.",lit "-DA",lit "-DA=1",lit "-I."] by decide)
  obtain ⟨bucket,merged,text,once⟩ := merge_cppflags_iff empty_bucket _ flag_list read
  refine ⟨flag_list VAR_CPPFLAGS,bucket,merged,?_,cppflags,once.mpr ?_⟩
  · rw [text,cppflags]
    decide
  · rw [cppflags]
    unfold Split
    decide

/-- `-DA1` is between `-DA` and `-DA=1`, and both of them stay. -/
theorem merge_cppflags_fails :
    ∃ flag_list bucket,read_files (fun _ => []) [cppflags_file "-DA -DA1 -DA=1"] = .ok flag_list ∧
      merge empty_bucket [cppflags_file "-DA -DA1 -DA=1"] = .ok bucket ∧
      bucket.var VAR_CPPFLAGS = some (lit "-DA -DA1 -DA=1 ") ∧
      bucket.var VAR_CPPFLAGS = join (merge_cppflags (flag_list VAR_CPPFLAGS)) ∧
      ¬OncePerName (flag_list VAR_CPPFLAGS) (merge_cppflags (flag_list VAR_CPPFLAGS)) := by
  obtain ⟨flag_list,read,cppflags⟩ := of_map_ok (show
    (read_files (fun _ => []) [cppflags_file "-DA -DA1 -DA=1"]).map (· VAR_CPPFLAGS) =
      .ok [lit "-DA",lit "-DA1",lit "-DA=1"] by decide)
  have left_over : merge_cppflags (flag_list VAR_CPPFLAGS) = [lit "-DA",lit "-DA1",lit "-DA=1"] := by
    rw [cppflags]
    decide
  refine ⟨flag_list,{ empty_bucket with var := fun i => join (select i (flag_list i)) },read,?_,?_,rfl,?_⟩
  · unfold merge merge_flags
    rw [read]
    rfl
  · change join (merge_cppflags (flag_list VAR_CPPFLAGS)) = _
    rw [left_over]
    decide
  · intro once
    have distinct := once.nodup
    rw [left_over] at distinct
    exact absurd distinct (by decide)

end Htools.HconfMerge
