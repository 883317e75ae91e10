import Htools.HconfLists
import Htools.HconfUnion

/-!
Where the flags of several files come out. A file of five lines is read line by
line, or it is refused (`read_lines_found`), so that the lists of `merge` are
those of the lines. For each variable but `VAR_CPPFLAGS` the first or the last
one of each flag is written, in the order of the files or against it
(`merge_lists_order`).
-/
namespace Htools.HconfMerge
open Htools.Lexing Htools.ConfigFile Htools.CString Htools.Selection Htools.HconfConf VariableEnum

/-! ### First and last occurrences -/

theorem last_of_each_dedup (flags : List (List Int8)) : last_of_each flags = flags.dedup := by
  induction flags with
  | nil => rfl
  | cons flag flags ih =>
    have later : (∃ next ∈ flags,id next = id flag ∧ True) ↔ flag ∈ flags := by simp
    rw [last_of_each,keep,if_congr later rfl rfl]
    by_cases there : flag ∈ flags
    · rw [if_pos there,List.dedup_cons_of_mem there]
      exact ih
    · have apart : (last_of_each flags).filter (fun next => id next ≠ id flag) = last_of_each flags := by
        refine List.filter_eq_self.mpr fun next kept => decide_eq_true ?_
        rintro rfl
        exact there ((keep_sublist id _ flags).mem kept)
      rw [if_neg there,List.dedup_cons_of_notMem there,apart]
      exact congrArg (flag :: ·) ih

theorem remove_dups_firsts (flags : List (List Int8)) : remove_dups flags.length flags = firsts flags := by
  rw [remove_dups_eq _ _ (Nat.le_refl _),last_of_each_dedup,firsts_dedup]

theorem select_lasts (flags : List (List Int8)) : select VAR_CFLAGS flags = lasts flags := by
  change (remove_dups flags.length flags.reverse).reverse = _
  rw [remove_dups_eq _ _ (by rw [List.length_reverse]),last_of_each_dedup,lasts_dedup,List.reverse_reverse,List.reverse_reverse]

/-- Every flag and a space, or the null pointer where there is no flag. -/
def written (flags : List (List Int8)) : Option (List Int8) := if flags = [] then none else some (joined flags)

theorem write_flags_some (var : List Int8) (flags : List (List Int8)) :
    write_flags (some var) flags = some (var ++ joined flags) := by
  induction flags generalizing var with
  | nil => exact congrArg some (List.append_nil var).symm
  | cons flag flags ih =>
    change write_flags (some (var ++ flag ++ lit " ")) flags = _
    rw [ih,joined,joined,List.flatMap_cons,List.append_assoc,List.append_assoc,List.append_assoc]

theorem join_written (flags : List (List Int8)) : join flags = written flags := by
  cases flags with
  | nil => rfl
  | cons flag flags =>
    change write_flags (some (flag ++ lit " ")) flags = _
    rw [write_flags_some]
    rfl

/-! ### Lines -/

/-- The flags that the scanner finds on a line, with its end. -/
def line_flags (line : List Int8) : List (List Int8) := (scan [] 1 line).toOption.getD []

theorem line_flags_scan {filename line : List Int8} {line_no : Nat} {flags : List (List Int8)}
    (scanned : scan filename line_no line = .ok flags) : line_flags line = flags := by
  have same : scan [] 1 line = .ok flags := scan_loop_ok scanned
  rw [line_flags,same]
  rfl

/-- Text and the end of the line, which the last line can be without. -/
def Line (last : Bool) (line : List Int8) : Prop :=
  ∃ text,(∀ c ∈ text,chr '\n' ≠ c.toInt) ∧ (line = text ++ lit "\n" ∨ last = true ∧ text ≠ [] ∧ line = text)

/-- A file with a line for each variable. -/
structure FiveLines (file : HconfFile) (lines : VariableEnum → List Int8) : Prop where
  content : file.content = some (VAR_OUTPUT.flatMap lines)
  line : ∀ i,Line (VAR_LIBS = i) (lines i)

/-- The lines of a text, with one at the end that is not ended. -/
def line_count : List Int8 → Nat
  | [] => 0
  | c :: text => if chr '\n' = c.toInt then line_count text + 1 else max 1 (line_count text)

theorem line_count_pos {text : List Int8} (some_ : text ≠ []) : 0 < line_count text := by
  cases text with
  | nil => exact absurd rfl some_
  | cons c text =>
    unfold line_count
    split
    · exact Nat.succ_pos _
    · exact Nat.lt_of_lt_of_le Nat.one_pos (Nat.le_max_left 1 _)

theorem line_count_line {text : List Int8} (one_line : ∀ c ∈ text,chr '\n' ≠ c.toInt) (rest : List Int8) :
    line_count (text ++ (lit "\n" ++ rest)) = line_count rest + 1 := by
  induction text with
  | nil => rfl
  | cons c text ih =>
    rw [List.cons_append,line_count,if_neg (one_line c List.mem_cons_self),
      ih fun d there => one_line d (List.mem_cons_of_mem c there)]
    exact Nat.max_eq_right (Nat.succ_le_succ (Nat.zero_le _))

theorem line_count_alone {text : List Int8} (one_line : ∀ c ∈ text,chr '\n' ≠ c.toInt) : line_count text ≤ 1 := by
  induction text with
  | nil => exact Nat.zero_le 1
  | cons c text ih =>
    rw [line_count,if_neg (one_line c List.mem_cons_self)]
    exact Nat.max_le.mpr ⟨Nat.le_refl 1,ih fun d there => one_line d (List.mem_cons_of_mem c there)⟩

/-- A read takes no more than a line. -/
theorem cut_line_count (room : Nat) (text : List Int8) : line_count text ≤ line_count (cut_line (room + 1) text).2 + 1 := by
  induction room generalizing text with
  | zero =>
    cases text with
    | nil => exact Nat.zero_le _
    | cons c text =>
      rw [cut_line,line_count]
      split
      · exact Nat.le_refl _
      · exact Nat.max_le.mpr ⟨Nat.le_add_left 1 _,Nat.le_succ _⟩
  | succ room ih =>
    cases text with
    | nil => exact Nat.zero_le _
    | cons c text =>
      rw [cut_line,line_count]
      split
      · exact Nat.le_refl _
      · exact Nat.max_le.mpr ⟨Nat.le_add_left 1 _,ih text⟩

/-- A line that does not fit is not ended by the first read. -/
theorem cut_line_count_long {room : Nat} {text : List Int8} (one_line : ∀ c ∈ text,chr '\n' ≠ c.toInt)
    (long : room ≤ text.length) (rest : List Int8) :
    line_count (cut_line room (text ++ (lit "\n" ++ rest))).2 = line_count rest + 1 := by
  induction room generalizing text with
  | zero => exact line_count_line one_line rest
  | succ room ih =>
    cases text with
    | nil => cases long
    | cons c text =>
      rw [List.cons_append,cut_line,if_neg (one_line c List.mem_cons_self)]
      exact ih (fun d there => one_line d (List.mem_cons_of_mem c there)) (Nat.le_of_succ_le_succ long)

theorem cut_line_alone {room : Nat} {text : List Int8} (one_line : ∀ c ∈ text,chr '\n' ≠ c.toInt) :
    cut_line room text = (text.take room,text.drop room) := by
  induction room generalizing text with
  | zero => rfl
  | succ room ih =>
    cases text with
    | nil => rfl
    | cons c text =>
      rw [cut_line,if_neg (one_line c List.mem_cons_self),ih fun d there => one_line d (List.mem_cons_of_mem c there)]
      rfl

/-- There is no more than one line for each variable. -/
theorem read_lines_count {filename file : List Int8} {line_no : Nat} {vars : List VariableEnum} {lists : FlagLists}
    (read : read_lines filename line_no vars file = .ok lists) : line_count file ≤ vars.length :=
  read_lines_most rfl (cut_line_count 65534) read

section
variable {last : Bool} {line rest : List Int8}

theorem Line.some (is : Line last line) : line ≠ [] := by
  obtain ⟨text,_,rfl | ⟨_,some_,rfl⟩⟩ := is
  · exact List.append_ne_nil_of_right_ne_nil text (List.cons_ne_nil _ _)
  · exact some_

theorem Line.count (is : Line last line) (end_ : last = true → rest = []) : line_count (line ++ rest) = line_count rest + 1 := by
  obtain ⟨text,one_line,rfl | ⟨last_,some_,rfl⟩⟩ := is
  · rw [List.append_assoc]
    exact line_count_line one_line rest
  · rw [end_ last_,List.append_nil]
    exact Nat.le_antisymm (line_count_alone one_line) (line_count_pos some_)

theorem Line.fits (is : Line last line) (end_ : last = true → rest = []) (fits : line.length ≤ 65535) :
    cut_line 65535 (line ++ rest) = (line,rest) := by
  obtain ⟨text,one_line,rfl | ⟨last_,_,rfl⟩⟩ := is
  · rw [List.length_append] at fits
    rw [List.append_assoc]
    exact cut_line_text 65535 text rest one_line fits
  · rw [end_ last_,List.append_nil,cut_line_alone one_line,List.take_of_length_le fits,List.drop_of_length_le fits]

theorem Line.misfits (is : Line last line) (end_ : last = true → rest = []) (long : 65535 < line.length) :
    line_count rest < line_count (cut_line 65535 (line ++ rest)).2 := by
  obtain ⟨text,one_line,rfl | ⟨last_,_,rfl⟩⟩ := is
  · rw [List.length_append] at long
    rw [List.append_assoc,cut_line_count_long one_line (Nat.le_of_lt_succ long)]
    exact Nat.lt_succ_self _
  · rw [end_ last_,List.append_nil,cut_line_alone one_line]
    apply line_count_pos
    rw [ne_eq,List.drop_eq_nil_iff,Nat.not_le]
    exact long

end

section
variable {lines : VariableEnum → List Int8} {i : VariableEnum} {vars : List VariableEnum}

theorem last_line (ends : VAR_LIBS ∉ (i :: vars).dropLast) : decide (VAR_LIBS = i) = true → vars.flatMap lines = [] := by
  intro is
  cases vars with
  | nil => rfl
  | cons j vars => exact absurd (List.mem_cons.mpr (.inl (of_decide_eq_true is))) ends

theorem ends_tail (ends : VAR_LIBS ∉ (i :: vars).dropLast) : VAR_LIBS ∉ vars.dropLast := by
  cases vars with
  | nil => exact List.not_mem_nil
  | cons j vars => exact fun there => ends (List.mem_cons_of_mem i there)

theorem line_count_lines (ends : VAR_LIBS ∉ vars.dropLast) (line : ∀ i ∈ vars,Line (VAR_LIBS = i) (lines i)) :
    line_count (vars.flatMap lines) = vars.length := by
  induction vars with
  | nil => rfl
  | cons i vars ih =>
    rw [List.flatMap_cons,(line i List.mem_cons_self).count (last_line ends),
      ih (ends_tail ends) fun j there => line j (List.mem_cons_of_mem i there),List.length_cons]

/-- A file with a line for each variable is read line by line: a line that did not fit would leave one too many. -/
theorem read_lines_found {filename : List Int8} (nodup : vars.Nodup) (ends : VAR_LIBS ∉ vars.dropLast)
    (line : ∀ i ∈ vars,Line (VAR_LIBS = i) (lines i)) :
    (∀ line_no lists,read_lines filename line_no vars (vars.flatMap lines) = .ok lists →
      ∀ i ∈ vars,lists i = line_flags (lines i)) ∧
    ((∀ i ∈ vars,(lines i).length ≤ 65535 ∧ ∃ flags,scan [] 1 (lines i) = .ok flags) →
      ∀ line_no,∃ lists,read_lines filename line_no vars (vars.flatMap lines) = .ok lists) := by
  induction vars with
  | nil => exact ⟨fun _ _ _ _ there => absurd there List.not_mem_nil,fun _ _ => ⟨_,rfl⟩⟩
  | cons first vars ih =>
    obtain ⟨apart,nodup⟩ := List.nodup_cons.mp nodup
    have here := line first List.mem_cons_self
    have line' := fun i there => line i (List.mem_cons_of_mem first there)
    have end_ : decide (VAR_LIBS = first) = true → vars.flatMap lines = [] := last_line ends
    obtain ⟨found,returns⟩ := ih nodup (ends_tail ends) line'
    have text : fgets 65536 ((first :: vars).flatMap lines) = some (cut_line 65535 (lines first ++ vars.flatMap lines)) := by
      rw [List.flatMap_cons,fgets,if_neg (List.append_ne_nil_of_left_ne_nil here.some _)]
    constructor
    · intro line_no lists read
      unfold read_lines at read
      rw [text] at read
      obtain ⟨flags,scanned,read⟩ := bind_ok_iff.mp read
      obtain ⟨others,rest,result⟩ := bind_ok_iff.mp read
      cases result
      have fits : (lines first).length ≤ 65535 := by
        by_contra long
        have left := here.misfits end_ (Nat.lt_of_not_le long)
        have few := read_lines_count rest
        rw [line_count_lines (ends_tail ends) line'] at left
        exact absurd left (Nat.not_lt.mpr few)
      rw [here.fits end_ fits] at scanned rest
      intro i there
      by_cases same : i = first
      · subst same
        rw [Function.update_self]
        exact (line_flags_scan scanned).symm
      · rw [Function.update_of_ne same]
        exact found _ _ rest i ((List.mem_cons.mp there).resolve_left same)
    · intro accepted line_no
      obtain ⟨fits,flags,scanned⟩ := accepted first List.mem_cons_self
      obtain ⟨lists,read⟩ := returns (fun i there => accepted i (List.mem_cons_of_mem first there)) (line_no + 1)
      refine ⟨Function.update lists first flags,?_⟩
      have scanned' : scan filename line_no (lines first) = .ok flags := scan_loop_ok scanned
      unfold read_lines
      rw [text,here.fits end_ fits]
      exact bind_ok_iff.mpr ⟨flags,scanned',bind_ok_iff.mpr ⟨lists,read,rfl⟩⟩

end

/-! ### Files -/

/-- A file with its lines. -/
abbrev LinedFile := HconfFile × (VariableEnum → List Int8)

/-- The flags of a line of each file, one file after the other. -/
abbrev all_flags (files : List LinedFile) (i : VariableEnum) : List (List Int8) := files.flatMap fun file => line_flags (file.2 i)

/-- `fgets` has room for each line, and the scanner does not refuse any. -/
def Accepted (file : LinedFile) : Prop := ∀ i,(file.2 i).length ≤ 65535 ∧ ∃ flags,scan [] 1 (file.2 i) = .ok flags

theorem read_file_found {file : HconfFile} {lines : VariableEnum → List Int8} (five : FiveLines file lines) :
    (∀ lists,read_file file = .ok lists → ∀ i,lists i = line_flags (lines i)) ∧
      (Accepted (file,lines) → ∃ lists,read_file file = .ok lists) := by
  have nodup : VAR_OUTPUT.Nodup := by decide
  have ends : VAR_LIBS ∉ VAR_OUTPUT.dropLast := by decide
  have all : ∀ i,i ∈ VAR_OUTPUT := by
    intro i
    cases i <;> decide
  obtain ⟨found,returns⟩ := @read_lines_found lines VAR_OUTPUT file.filename nodup ends fun i _ => five.line i
  unfold read_file
  rw [five.content]
  exact ⟨fun lists read i => found 1 lists read i (all i),fun accepted => returns (fun i _ => accepted i) 1⟩

theorem read_files_found {files : List LinedFile} (five : ∀ file ∈ files,FiveLines file.1 file.2) (old : FlagLists) :
    (∀ lists,read_files old (files.map Prod.fst) = .ok lists →
      ∀ i,lists i = if VAR_LIBS = i then all_flags files.reverse i ++ old i else old i ++ all_flags files i) ∧
    ((∀ file ∈ files,Accepted file) → ∃ lists,read_files old (files.map Prod.fst) = .ok lists) := by
  induction files generalizing old with
  | nil =>
    refine ⟨?_,fun _ => ⟨old,rfl⟩⟩
    rintro lists ⟨⟩ i
    split
    · rfl
    · exact (List.append_nil _).symm
  | cons file files ih =>
    obtain ⟨found,returns⟩ := read_file_found (five file List.mem_cons_self)
    have five' := fun other there => five other (List.mem_cons_of_mem file there)
    constructor
    · intro lists read i
      obtain ⟨new,here,read⟩ := bind_ok_iff.mp read
      rw [(ih five' (concat old new)).1 lists read i,concat,found new here i]
      split
      · rw [List.reverse_cons,all_flags,all_flags,List.flatMap_append,List.flatMap_singleton,List.append_assoc]
      · rw [all_flags,all_flags,List.flatMap_cons,List.append_assoc]
    · intro accepted
      obtain ⟨new,here⟩ := returns (accepted file List.mem_cons_self)
      obtain ⟨lists,read⟩ := (ih five' (concat old new)).2 fun other there => accepted other (List.mem_cons_of_mem file there)
      exact ⟨lists,bind_ok_iff.mpr ⟨new,here,read⟩⟩

/-- Where the flags of the files are in the bucket. -/
structure Ordered (files : List LinedFile) (bucket : Bucket) : Prop where
  cc : bucket.var VAR_CC = written (firsts (all_flags files VAR_CC))
  cflags : bucket.var VAR_CFLAGS = written (lasts (all_flags files VAR_CFLAGS))
  ldflags : bucket.var VAR_LDFLAGS = written (firsts (all_flags files VAR_LDFLAGS))
  libs : bucket.var VAR_LIBS = written (firsts (all_flags files.reverse VAR_LIBS))

/-- The loops of `merge` that walk lists in memory write the first ones of the flags of all files, or the last ones
    for `VAR_CFLAGS`; for `VAR_LIBS` the last file comes first. -/
theorem merge_lists_order (junk : FlagMemory) (a_bucket : Bucket) {files : List LinedFile}
    (five : ∀ file ∈ files,FiveLines file.1 file.2) :
    (∀ bucket,merge_lists junk a_bucket (files.map Prod.fst) = .ok bucket → Ordered files bucket) ∧
      ((∀ file ∈ files,Accepted file) → ∃ bucket,merge_lists junk a_bucket (files.map Prod.fst) = .ok bucket) := by
  obtain ⟨found,returns⟩ := read_files_found five fun _ => []
  rw [merge_lists_eq]
  constructor
  · intro bucket merged
    obtain ⟨flags,selected,result⟩ := bind_ok_iff.mp merged
    cases result
    obtain ⟨lists,read,result⟩ := bind_ok_iff.mp selected
    cases result
    have others : ∀ i,VAR_LIBS ≠ i → lists i = all_flags files i := by
      intro i other
      rw [found lists read i,if_neg other,List.nil_append]
    have libs : lists VAR_LIBS = all_flags files.reverse VAR_LIBS := by
      rw [found lists read VAR_LIBS,if_pos rfl,List.append_nil]
    constructor
    · change join (remove_dups (lists VAR_CC).length (lists VAR_CC)) = _
      rw [remove_dups_firsts,join_written,others VAR_CC (by decide)]
    · change join (select VAR_CFLAGS (lists VAR_CFLAGS)) = _
      rw [select_lasts,join_written,others VAR_CFLAGS (by decide)]
    · change join (remove_dups (lists VAR_LDFLAGS).length (lists VAR_LDFLAGS)) = _
      rw [remove_dups_firsts,join_written,others VAR_LDFLAGS (by decide)]
    · change join (remove_dups (lists VAR_LIBS).length (lists VAR_LIBS)) = _
      rw [remove_dups_firsts,join_written,libs]
  · intro accepted
    obtain ⟨lists,read⟩ := returns accepted
    exact ⟨_,bind_ok_iff.mpr ⟨_,bind_ok_iff.mpr ⟨lists,read,rfl⟩,rfl⟩⟩

/-- A file with a text on each line. -/
def lined_file (text : VariableEnum → String) : LinedFile :=
  (⟨lit "hconf",some (VAR_OUTPUT.flatMap fun i => lit (text i) ++ lit "\n")⟩,fun i => lit (text i) ++ lit "\n")

/-- Memory in which nothing points anywhere. -/
def no_flags : FlagMemory :=
  ⟨⟨fun _ => none,fun _ => .first 0,fun _ => none,fun _ => .first 0⟩,⟨fun _ => none,fun _ => .first 0,fun _ => none,fun _ => .first 0⟩,
    fun _ => [],fun _ => 0,0⟩

def repeating_files : List LinedFile :=
  [lined_file fun
    | VAR_CFLAGS => "-I1"
    | VAR_LIBS => "-la -lc"
    | _ => "",
  lined_file fun
    | VAR_CFLAGS => "-I2 -I1"
    | VAR_LIBS => "-la -lb"
    | _ => ""]

theorem merge_lists_order_two : ∃ bucket,merge_lists no_flags empty_bucket (repeating_files.map Prod.fst) = .ok bucket ∧
    bucket.var VAR_CFLAGS = some (lit "-I2 -I1 ") ∧ bucket.var VAR_LIBS = some (lit "-la -lb -lc ") := by
  have five : ∀ file ∈ repeating_files,FiveLines file.1 file.2 := by
    intro file there
    rw [repeating_files,List.mem_pair] at there
    rcases there with rfl | rfl
    · refine ⟨rfl,fun i => ⟨_,?_,.inl rfl⟩⟩
      cases i <;> decide +kernel
    · refine ⟨rfl,fun i => ⟨_,?_,.inl rfl⟩⟩
      cases i <;> decide +kernel
  obtain ⟨ordered,returns⟩ := merge_lists_order no_flags empty_bucket five
  have accepted : ∀ file ∈ repeating_files,Accepted file := by
    have found : ∀ file ∈ repeating_files,∀ i ∈ VAR_OUTPUT,
        (file.2 i).length ≤ 65535 ∧ (scan [] 1 (file.2 i)).toOption.isSome = true := by decide
    intro file there i
    obtain ⟨fits,some_⟩ := found file there i (by cases i <;> decide)
    refine ⟨fits,?_⟩
    cases scanned : scan [] 1 (file.2 i) with
    | error failure =>
      rw [scanned] at some_
      cases some_
    | ok flags => exact ⟨flags,rfl⟩
  obtain ⟨bucket,merged⟩ := returns accepted
  refine ⟨bucket,merged,?_,?_⟩
  · rw [(ordered bucket merged).cflags]
    decide
  · rw [(ordered bucket merged).libs]
    decide

/-! ### The flags of the preprocessor -/

/-- The flags that are written, with their places among all of them. -/
abbrev left_over (flags : List (List Int8)) : List Flag := walk none 0 (sorted_flags flags) flags.zipIdx

section
variable {flags : List (List Int8)} {flag : List Int8} {place : Nat}

theorem sorted_place : (flag,place) ∈ sorted_flags flags ↔ flags[place]? = some flag := by
  rw [(sorted_flags_perm flags).mem_iff,List.mem_zipIdx_iff_getElem?]

/-- Where a flag stands again further on. -/
theorem mem_later : flag ∈ flags.drop (place + 1) ↔ ∃ later,place < later ∧ flags[later]? = some flag := by
  rw [List.mem_iff_getElem?]
  constructor
  · rintro ⟨i,there⟩
    rw [List.getElem?_drop] at there
    exact ⟨place + 1 + i,by omega,there⟩
  · rintro ⟨later,behind,there⟩
    refine ⟨later - (place + 1),?_⟩
    rw [List.getElem?_drop,Nat.add_sub_cancel' behind,there]

theorem older_of_before {a b : Flag} (before : Before Smaller Older a b) (same : a.1 = b.1) : Older a b := by
  have equal : cmp b a = 0 := (strcmp_eq_zero b.1 a.1).mpr same.symm
  rcases before with less | ⟨_,older⟩
  · exact absurd (le_of_eq equal) less
  · exact older

theorem left_over_runs (flags : List (List Int8)) :
    left_over flags = flags.zipIdx.filter fun flag => flag ∈ last_of_runs flag_key (sorted_flags flags) :=
  walk_runs (sorted_flags_perm flags) (zipIdx_nodup flags)

/-- Of a flag other than `-D`, the last one is written. -/
theorem left_over_iff (other : ¬Define flag) :
    (flag,place) ∈ left_over flags ↔ flags[place]? = some flag ∧ flag ∉ flags.drop (place + 1) := by
  rw [left_over_runs,List.mem_filter,List.mem_zipIdx_iff_getElem?,decide_eq_true_iff]
  refine and_congr_right fun there => ?_
  obtain ⟨front,back,sorted⟩ := List.append_of_mem (sorted_place.mpr there)
  have nodup : (sorted_flags flags).Nodup := (sorted_flags_perm flags).nodup_iff.mpr (zipIdx_nodup flags)
  have before := sorted_flags_before flags
  rw [sorted] at before nodup
  rw [sorted,mem_last_of_runs flag_key nodup]
  obtain ⟨_,behind,ahead⟩ := List.pairwise_append.mp before
  obtain ⟨first,rest⟩ := List.pairwise_cons.mp behind
  constructor
  · intro differs again
    obtain ⟨later,less,there'⟩ := mem_later.mp again
    have found : (flag,later) ∈ back := by
      have member : (flag,later) ∈ sorted_flags flags := sorted_place.mpr there'
      rw [sorted] at member
      rcases List.mem_append.mp member with member | member
      · have back_ : later < place := older_of_before (ahead _ member _ List.mem_cons_self) rfl
        omega
      · rcases List.mem_cons.mp member with same | member
        · cases same
          exact absurd less (Nat.lt_irrefl _)
        · exact member
    cases back with
    | nil => exact absurd found List.not_mem_nil
    | cons next back =>
      -- What stands between two equal texts in the sorted list is equal to them.
      have le : Smaller (flag,place) next := Before.to_le smaller_ranking (first next List.mem_cons_self)
      have ge : Smaller next (flag,later) := by
        rcases List.mem_cons.mp found with same | found
        · rw [← same]
          exact le_of_eq (strcmp_self flag)
        · exact Before.to_le smaller_ranking ((List.pairwise_cons.mp rest).1 _ found)
      exact differs next rfl (congrArg macro_key (strcmp_antisymm le ge))
  · intro last next is same
    have inBack : next ∈ back := List.mem_of_mem_head? is
    have text : next.1 = flag := (macro_key_eq_other other).mp same.symm
    have older : place < next.2 := older_of_before (first next inBack) text.symm
    have member : (next.1,next.2) ∈ sorted_flags flags := by
      rw [sorted]
      exact List.mem_append_right front (List.mem_cons_of_mem _ inBack)
    rw [text] at member
    exact last (mem_later.mpr ⟨next.2,older,sorted_place.mp member⟩)

/-- The flags are written in their order, those other than `-D` from where they stand for the first time. -/
structure FirstKept (flags : List (List Int8)) (left : List Flag) : Prop where
  in_order : left.Sublist flags.zipIdx
  survives : ∀ flag ∈ flags,¬Define flag → ∃ place,(flag,place) ∈ left
  first : ∀ a ∈ left,¬Define a.1 → a.1 ∉ flags.take a.2

theorem exists_last (there : flag ∈ flags) : ∃ place,flags[place]? = some flag ∧ flag ∉ flags.drop (place + 1) := by
  obtain ⟨behind,before,is,last⟩ := List.eq_append_cons_of_mem (List.mem_reverse.mpr there)
  have parts : flags = before.reverse ++ flag :: behind.reverse := by
    rw [← List.reverse_reverse flags,is,List.reverse_append,List.reverse_cons,List.append_assoc,List.singleton_append]
  refine ⟨before.reverse.length,?_,?_⟩
  · rw [parts,List.getElem?_append_right (Nat.le_refl _),Nat.sub_self]
    rfl
  · rw [parts,List.drop_append,List.drop_of_length_le (Nat.le_succ _),List.nil_append,Nat.add_sub_cancel_left,List.drop_one,List.tail_cons,
      List.mem_reverse]
    exact last

theorem count_split (there : flags[place]? = some flag) :
    flags.count flag = (flags.take place).count flag + 1 + (flags.drop (place + 1)).count flag := by
  obtain ⟨inside,is⟩ := List.getElem?_eq_some_iff.mp there
  have parts : flags = flags.take place ++ flag :: flags.drop (place + 1) := by
    rw [← is,List.getElem_cons_drop,List.take_append_drop]
  conv_lhs => rw [parts]
  rw [List.count_append,List.count_cons_self]
  omega

theorem first_kept_iff (flags : List (List Int8)) :
    FirstKept flags (left_over flags) ↔ ∀ flag ∈ flags,¬Define flag → flags.count flag = 1 := by
  constructor
  · intro kept flag there other
    obtain ⟨place,left⟩ := kept.survives flag there other
    obtain ⟨found,last⟩ := (left_over_iff other).mp left
    rw [count_split found,List.count_eq_zero.mpr last,List.count_eq_zero.mpr (kept.first _ left other)]
  · intro once
    refine ⟨?_,fun flag there other => ?_,fun a left other => ?_⟩
    · rw [left_over_runs]
      exact List.filter_sublist
    · obtain ⟨place,found,last⟩ := exists_last there
      exact ⟨place,(left_over_iff other).mpr ⟨found,last⟩⟩
    · obtain ⟨found,last⟩ := (left_over_iff other).mp left
      have one := once a.1 (List.mem_of_getElem? found) other
      rw [count_split found] at one
      exact List.count_eq_zero.mp (by omega)

end

/-- The merged CPPFLAGS are those that are left, in their order, and a flag other than `-D` is written from where it
    stands first exactly where no such flag stands twice. -/
theorem merge_lists_first_iff (junk : FlagMemory) (a_bucket : Bucket) (a_argv : List HconfFile) (all : FlagLists)
    (read : read_files (fun _ => []) a_argv = .ok all) :
    ∃ bucket,merge_lists junk a_bucket a_argv = .ok bucket ∧
      bucket.var VAR_CPPFLAGS = written ((left_over (all VAR_CPPFLAGS)).map Prod.fst) ∧
      (FirstKept (all VAR_CPPFLAGS) (left_over (all VAR_CPPFLAGS)) ↔
        ∀ flag ∈ all VAR_CPPFLAGS,¬Define flag → (all VAR_CPPFLAGS).count flag = 1) := by
  refine ⟨{ a_bucket with var := fun i => join (select i (all i)) },?_,?_,first_kept_iff _⟩
  · rw [merge_lists_eq,merge,merge_flags,read]
    rfl
  · exact join_written _

/-- The first `-I.` is the one that goes, so that `-Da=1` comes first. -/
theorem merge_lists_first_fails :
    ∃ all bucket,read_files (fun _ => []) [cppflags_file "-I. -Da=1",cppflags_file "-Da=0",cppflags_file "-I."] = .ok all ∧
      merge_lists no_flags empty_bucket [cppflags_file "-I. -Da=1",cppflags_file "-Da=0",cppflags_file "-I."] = .ok bucket ∧
      bucket.var VAR_CPPFLAGS = some (lit "-Da=1 -I. ") ∧
      left_over (all VAR_CPPFLAGS) = [(lit "-Da=1",1),(lit "-I.",3)] ∧
      ¬FirstKept (all VAR_CPPFLAGS) (left_over (all VAR_CPPFLAGS)) := by
  obtain ⟨all,read,cppflags⟩ := of_map_ok (show
    (read_files (fun _ => []) [cppflags_file "-I. -Da=1",cppflags_file "-Da=0",cppflags_file "-I."]).map (· VAR_CPPFLAGS) =
      .ok [lit "-I.",lit "-Da=1",lit "-Da=0",lit "-I."] by decide)
  have left : left_over (all VAR_CPPFLAGS) = [(lit "-Da=1",1),(lit "-I.",3)] := by
    rw [cppflags]
    decide
  refine ⟨all,{ empty_bucket with var := fun i => join (select i (all i)) },read,?_,?_,left,?_⟩
  · rw [merge_lists_eq,merge,merge_flags,read]
    rfl
  · change join ((left_over (all VAR_CPPFLAGS)).map Prod.fst) = _
    rw [left]
    decide
  · intro kept
    have first := kept.first (lit "-I.",3) (by rw [left]; decide) (by decide)
    rw [cppflags] at first
    exact absurd first (by decide)

theorem merge_lists_first_once :
    ∃ all bucket,read_files (fun _ => []) [cppflags_file "-I. -Da=1",cppflags_file "-Da=0"] = .ok all ∧
      merge_lists no_flags empty_bucket [cppflags_file "-I. -Da=1",cppflags_file "-Da=0"] = .ok bucket ∧
      bucket.var VAR_CPPFLAGS = some (lit "-I. -Da=1 ") ∧ FirstKept (all VAR_CPPFLAGS) (left_over (all VAR_CPPFLAGS)) := by
  obtain ⟨all,read,cppflags⟩ := of_map_ok (show
    (read_files (fun _ => []) [cppflags_file "-I. -Da=1",cppflags_file "-Da=0"]).map (· VAR_CPPFLAGS) =
      .ok [lit "-I.",lit "-Da=1",lit "-Da=0"] by decide)
  obtain ⟨bucket,merged,text,first⟩ := merge_lists_first_iff no_flags empty_bucket _ all read
  refine ⟨all,bucket,read,merged,?_,first.mpr ?_⟩
  · rw [text,cppflags]
    decide
  · rw [cppflags]
    decide

end Htools.HconfMerge
