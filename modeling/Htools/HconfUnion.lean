import Htools.HconfSelect

/-!
The flags of the final hconf file. `write_files` joins the buckets of all
modules in a line for each variable, scans it again together with the base
file, and leaves the result in the bucket of the last module. Where every flag
can stand in front of another one, the scanner finds the flags of the buckets
(`scan_local`), so that each trial that passes adds its flags (`gathered_trial`)
and the others add none.
-/
namespace Htools.HconfConf
open Htools.Lexing Htools.ConfigFile Htools.CString Htools.HconfMerge Htools.Simulation Htools.Selection VariableEnum

/-- The flags that `merge` finds in a line. -/
def flags_of (line : List Int8) : List (List Int8) := (scan [] 1 (line ++ lit "\n")).toOption.getD []

/-- A flag that is found again where another one follows, and does not break the line. -/
structure Stable (flag : List Int8) : Prop where
  rescans : Rescans flag
  one_line : ∀ c ∈ flag,chr '\n' ≠ c.toInt

/-! ### Scanning a line -/

theorem scan_loop_blank {filename : List Int8} {line_no fuel : Nat} (p : List Int8) :
    scan_loop filename line_no fuel (lit " " ++ p) = scan_loop filename line_no fuel p := by
  cases fuel with
  | zero => rfl
  | succ fuel =>
    have blank : skip_spaces (lit " " ++ p) = skip_spaces p := rfl
    rw [scan_loop,scan_loop,blank]

/-- Flags in front of a text are found before those of the text. -/
theorem scan_loop_joined_append {filename : List Int8} {line_no : Nat} (flags : List (List Int8))
    (starts : ∀ flag ∈ flags,Starts flag) (rescans : ∀ flag ∈ flags,Rescans flag) (rest : List Int8) (fuel : Nat)
    (enough : (joined flags ++ rest).length < fuel) :
    scan_loop filename line_no fuel (joined flags ++ rest) =
      (scan_loop filename line_no fuel rest).map (flags ++ ·) := by
  induction flags generalizing fuel with
  | nil =>
    change scan_loop filename line_no fuel rest = (scan_loop filename line_no fuel rest).map id
    cases scan_loop filename line_no fuel rest <;> rfl
  | cons flag flags ih =>
    obtain ⟨c,tail,flag_eq,text,black⟩ := starts flag List.mem_cons_self
    have line : joined (flag :: flags) ++ rest = flag ++ (lit " " ++ (joined flags ++ rest)) := by
      simp [joined]
    have found := rescans flag List.mem_cons_self filename line_no (joined flags ++ rest)
    rw [line] at enough ⊢
    have shorter : (joined flags ++ rest).length + 1 < fuel := by
      rw [flag_eq] at enough
      have one : (lit " ").length = 1 := rfl
      simp only [List.length_append,List.length_cons,one] at enough ⊢
      omega
    cases fuel with
    | zero => exact absurd shorter (Nat.not_lt_zero _)
    | succ fuel =>
      have here : skip_spaces (flag ++ (lit " " ++ (joined flags ++ rest))) =
          c :: (tail ++ (lit " " ++ (joined flags ++ rest))) := by
        rw [flag_eq,List.cons_append,skip_spaces_start black]
      rw [scan_loop_cons here text,← List.cons_append,← flag_eq,found]
      change (scan_loop filename line_no fuel (lit " " ++ (joined flags ++ rest)) >>= fun flags => .ok (flag :: flags)) = _
      have within : rest.length < fuel := by
        rw [List.length_append] at shorter
        omega
      rw [scan_loop_blank,ih (fun other member => starts other (List.mem_cons_of_mem flag member))
        (fun other member => rescans other (List.mem_cons_of_mem flag member)) fuel (by omega),
        scan_loop_enough (fuel + 1) fuel rest (by omega) within]
      cases scan_loop filename line_no fuel rest <;> rfl

theorem scan_enough {filename line : List Int8} {line_no fuel : Nat} (enough : (line ++ [0]).length < fuel) :
    scan_loop filename line_no fuel (line ++ [0]) = scan filename line_no line :=
  scan_loop_enough fuel (line.length + 2) (line ++ [0]) enough (by simp)

/-- The line that is written for the joined flags of some buckets and the text of one more. -/
def local_line (Fs : List (List (List Int8))) (raw : List Int8) : List Int8 :=
  (lit " ").intercalate (Fs.map joined ++ [raw])

theorem local_line_cons (flags : List (List Int8)) (Fs : List (List (List Int8))) (raw : List Int8) :
    local_line (flags :: Fs) raw = joined flags ++ (lit " " ++ local_line Fs raw) := by
  unfold local_line
  cases Fs with
  | nil => simp [List.intercalate]
  | cons => simp [List.intercalate]

theorem scan_local {filename : List Int8} {line_no : Nat} (Fs : List (List (List Int8))) (raw : List Int8)
    (starts : ∀ flags ∈ Fs,∀ flag ∈ flags,Starts flag) (rescans : ∀ flags ∈ Fs,∀ flag ∈ flags,Rescans flag) :
    scan filename line_no (local_line Fs raw ++ lit "\n") =
      (scan filename line_no (raw ++ lit "\n")).map (Fs.flatten ++ ·) := by
  induction Fs with
  | nil =>
    have alone : local_line [] raw = raw := by simp [local_line]
    rw [alone]
    change scan filename line_no (raw ++ lit "\n") = (scan filename line_no (raw ++ lit "\n")).map id
    cases scan filename line_no (raw ++ lit "\n") <;> rfl
  | cons flags Fs ih =>
    have others := ih (fun other member => starts other (List.mem_cons_of_mem flags member))
      (fun other member => rescans other (List.mem_cons_of_mem flags member))
    have line : local_line (flags :: Fs) raw ++ lit "\n" ++ [0] =
        joined flags ++ (lit " " ++ (local_line Fs raw ++ lit "\n" ++ [0])) := by
      rw [local_line_cons]
      simp
    have enough : (joined flags ++ (lit " " ++ (local_line Fs raw ++ lit "\n" ++ [0]))).length <
        (local_line (flags :: Fs) raw ++ lit "\n").length + 2 := by
      rw [← line,List.length_append]
      exact Nat.lt_succ_self _
    have within : (local_line Fs raw ++ lit "\n" ++ [0]).length < (local_line (flags :: Fs) raw ++ lit "\n").length + 2 := by
      refine Nat.lt_of_le_of_lt ?_ enough
      simp only [List.length_append]
      omega
    rw [scan,line,scan_loop_joined_append flags (starts flags List.mem_cons_self) (rescans flags List.mem_cons_self) _ _
      enough,scan_loop_blank,scan_enough within,others]
    cases scan filename line_no (raw ++ lit "\n") with
    | error => rfl
    | ok found => exact congrArg Except.ok (List.append_assoc flags Fs.flatten found).symm

/-! The name of the file and the line matter for messages only. -/

theorem flag_name_ok {filename filename' : List Int8} {line_no line_no' : Nat} {p : List Int8}
    {found : List Int8 × List Int8 × Bool} (named : flag_name filename line_no p = .ok found) :
    flag_name filename' line_no' p = .ok found := by
  unfold flag_name at named ⊢
  split
  · rw [if_pos ‹_›] at named
    split at named
    · cases named
    · split at named
      · rw [if_pos ‹_›]
        exact named
      · cases named
  · rw [if_neg ‹_›] at named
    exact named

theorem scan_flag_ok {filename filename' : List Int8} {line_no line_no' : Nat} {p : List Int8}
    {found : List Int8 × List Int8} (scanned : scan_flag filename line_no p = .ok found) :
    scan_flag filename' line_no' p = .ok found := by
  obtain ⟨name,named,rest⟩ := bind_ok_iff.mp scanned
  exact bind_ok_iff.mpr ⟨name,flag_name_ok named,rest⟩

theorem scan_loop_ok {filename filename' : List Int8} {line_no line_no' fuel : Nat} {p : List Int8}
    {flags : List (List Int8)} (scanned : scan_loop filename line_no fuel p = .ok flags) :
    scan_loop filename' line_no' fuel p = .ok flags := by
  induction fuel generalizing p flags with
  | zero => cases scanned
  | succ fuel ih =>
    unfold scan_loop at scanned ⊢
    split at scanned
    · cases scanned
    · split at scanned
      case isTrue ended =>
        rw [if_pos ended]
        exact scanned
      case isFalse goes_on =>
        rw [if_neg goes_on]
        obtain ⟨⟨flag,after⟩,first,scanned⟩ := bind_ok_iff.mp scanned
        obtain ⟨others,rest,result⟩ := bind_ok_iff.mp scanned
        exact bind_ok_iff.mpr ⟨_,scan_flag_ok first,bind_ok_iff.mpr ⟨_,ih rest,result⟩⟩

theorem flags_of_scan {filename line : List Int8} {line_no : Nat} {flags : List (List Int8)}
    (scanned : scan filename line_no (line ++ lit "\n") = .ok flags) : flags_of line = flags := by
  have same : scan [] 1 (line ++ lit "\n") = .ok flags := scan_loop_ok scanned
  rw [flags_of,same]
  rfl

/-! ### Reading the local file -/

/-- The ends of lines in a text. -/
def line_ends (text : List Int8) : Nat := text.countP fun c => chr '\n' = c.toInt

theorem line_ends_append (text rest : List Int8) : line_ends (text ++ rest) = line_ends text + line_ends rest :=
  List.countP_append

theorem line_ends_text {line : List Int8} (one_line : ∀ c ∈ line,chr '\n' ≠ c.toInt) : line_ends line = 0 :=
  List.countP_eq_zero.mpr fun c member => by simpa using one_line c member

theorem cut_line_ends (room : Nat) (file : List Int8) : line_ends file ≤ line_ends (cut_line room file).2 + 1 := by
  fun_induction cut_line room file with
  | case1 file => exact Nat.le_succ _
  | case2 room => exact Nat.zero_le _
  | case3 room c file newline =>
    rw [line_ends,List.countP_cons_of_pos (by simpa using newline)]
    rfl
  | case4 room c file other line rest cut ih =>
    rw [cut] at ih
    rw [line_ends,List.countP_cons_of_neg (by simpa using other)]
    exact ih

/-- A line that does not fit is not ended by the first read. -/
theorem cut_line_long (room : Nat) (line rest : List Int8) (one_line : ∀ c ∈ line,chr '\n' ≠ c.toInt)
    (long : room ≤ line.length) : line_ends (cut_line room (line ++ rest)).2 = line_ends rest := by
  induction room generalizing line with
  | zero =>
    change line_ends (line ++ rest) = _
    rw [line_ends_append,line_ends_text one_line,Nat.zero_add]
  | succ room ih =>
    cases line with
    | nil => cases long
    | cons c line =>
      rw [List.cons_append,cut_line,if_neg (one_line c List.mem_cons_self)]
      exact ih line (fun d member => one_line d (List.mem_cons_of_mem c member)) (Nat.le_of_succ_le_succ long)

/-- What each line takes no more than one of is no more than there are variables. -/
theorem read_lines_most {count : List Int8 → Nat} (none_left : count [] = 0)
    (cut : ∀ file,count file ≤ count (cut_line (65536 - 1) file).2 + 1) {filename file : List Int8} {line_no : Nat}
    {vars : List VariableEnum} {lists : FlagLists} (read : read_lines filename line_no vars file = .ok lists) :
    count file ≤ vars.length := by
  induction vars generalizing line_no file lists with
  | nil =>
    unfold read_lines fgets at read
    by_cases empty : file = []
    · rw [empty,none_left]
      exact Nat.le_refl 0
    · rw [if_neg empty] at read
      cases read
  | cons i vars ih =>
    unfold read_lines fgets at read
    by_cases empty : file = []
    · rw [empty,none_left]
      exact Nat.zero_le _
    · rw [if_neg empty] at read
      obtain ⟨flags,_,read⟩ := bind_ok_iff.mp read
      obtain ⟨others,rest,_⟩ := bind_ok_iff.mp read
      exact (cut file).trans (Nat.succ_le_succ (ih rest))

/-- There is no more than one end of a line for each variable. -/
theorem read_lines_ends {filename file : List Int8} {line_no : Nat} {vars : List VariableEnum} {lists : FlagLists}
    (read : read_lines filename line_no vars file = .ok lists) : line_ends file ≤ vars.length :=
  read_lines_most rfl (cut_line_ends (65536 - 1)) read

theorem line_ends_lines (lines : VariableEnum → List Int8) (one_line : ∀ i,∀ c ∈ lines i,chr '\n' ≠ c.toInt)
    (vars : List VariableEnum) : line_ends (vars.flatMap fun i => lines i ++ lit "\n") = vars.length := by
  induction vars with
  | nil => rfl
  | cons i vars ih =>
    have one : line_ends (lit "\n") = 1 := rfl
    rw [List.flatMap_cons,line_ends_append,line_ends_append,line_ends_text (one_line i),one,ih,List.length_cons]
    omega

/-- A file with a line for each variable is read line by line: a line that did not fit would leave one too many. -/
theorem read_lines_scan {filename : List Int8} {line_no : Nat} {vars : List VariableEnum} {lists : FlagLists}
    (nodup : vars.Nodup) (lines : VariableEnum → List Int8) (one_line : ∀ i,∀ c ∈ lines i,chr '\n' ≠ c.toInt)
    (read : read_lines filename line_no vars (vars.flatMap fun i => lines i ++ lit "\n") = .ok lists) :
    ∀ i ∈ vars,∃ line_no,scan filename line_no (lines i ++ lit "\n") = .ok (lists i) := by
  induction vars generalizing line_no lists with
  | nil => exact fun i member => absurd member List.not_mem_nil
  | cons first vars ih =>
    obtain ⟨apart,nodup⟩ := List.nodup_cons.mp nodup
    have text : (first :: vars).flatMap (fun i => lines i ++ lit "\n") =
        lines first ++ (lit "\n" ++ vars.flatMap fun i => lines i ++ lit "\n") := by simp
    rw [text] at read
    unfold read_lines fgets at read
    rw [if_neg (by simp [lit])] at read
    obtain ⟨flags,found,read⟩ := bind_ok_iff.mp read
    obtain ⟨others,rest,result⟩ := bind_ok_iff.mp read
    cases result
    have fits : (lines first).length < 65535 := by
      by_contra long
      have left := cut_line_long (65536 - 1) (lines first) (lit "\n" ++ vars.flatMap fun i => lines i ++ lit "\n")
        (one_line first) (Nat.le_of_not_lt long)
      have few := read_lines_ends rest
      have one : line_ends (lit "\n") = 1 := rfl
      rw [left,line_ends_append,one,line_ends_lines lines one_line] at few
      omega
    rw [cut_line_text 65535 _ _ (one_line first) fits] at found rest
    intro i member
    by_cases same : i = first
    · subst same
      rw [Function.update_self]
      exact ⟨_,found⟩
    · rw [Function.update_of_ne same]
      exact ih nodup rest i ((List.mem_cons.mp member).resolve_left same)

/-! ### Merging the local file -/

/-- The flags of the base file, which a run that ends has read. -/
def base_flags (g : Globals) : FlagLists :=
  match g.g_hconf_base with
  | none => fun _ => []
  | some file => (read_file file).toOption.getD fun _ => []

/-- The text of a variable, as it is written. -/
def bucket_line (bucket : Bucket) (i : VariableEnum) : List Int8 := (bucket.var i).getD []

/-- What the merge for a text behind some buckets can choose from. -/
def Offered (g : Globals) (Fs : List FlagLists) (raw : VariableEnum → List Int8) (i : VariableEnum) (flag : List Int8) :
    Prop :=
  flag ∈ base_flags g i ∨ (∃ F ∈ Fs,flag ∈ F i) ∨ flag ∈ flags_of (raw i)

theorem local_bucket_eq {branches : List Branch} {Fs : List FlagLists} (last : Branch)
    (lines : branches.map (fun branch => bucket_line branch.bucket) = Fs.map fun F i => joined (F i)) :
    local_bucket (branches ++ [last]) =
      VAR_OUTPUT.flatMap fun i => local_line (Fs.map (· i)) (bucket_line last.bucket i) ++ lit "\n" := by
  have line (i : VariableEnum) : branches.map (fun branch => (branch.bucket.var i).getD []) = (Fs.map (· i)).map joined := by
    have one := congrArg (List.map fun text : VariableEnum → List Int8 => text i) lines
    rw [List.map_map,List.map_map] at one
    rw [List.map_map]
    exact one
  unfold local_bucket local_line
  congr 1
  funext i
  rw [List.map_append,line]
  rfl

theorem local_line_one_line {Fs : List (List (List Int8))} {raw : List Int8}
    (flags_line : ∀ flags ∈ Fs,∀ flag ∈ flags,∀ c ∈ flag,chr '\n' ≠ c.toInt) (raw_line : ∀ c ∈ raw,chr '\n' ≠ c.toInt) :
    ∀ c ∈ local_line Fs raw,chr '\n' ≠ c.toInt := by
  have blank : ∀ c ∈ lit " ",chr '\n' ≠ c.toInt := each_char (by decide)
  induction Fs with
  | nil => simpa [local_line] using raw_line
  | cons flags Fs ih =>
    rw [local_line_cons]
    intro c member
    rcases List.mem_append.mp member with member | member
    · obtain ⟨flag,flag_member,member⟩ := List.mem_flatMap.mp member
      rcases List.mem_append.mp member with member | member
      · exact flags_line flags List.mem_cons_self flag flag_member c member
      · exact blank c member
    · rcases List.mem_append.mp member with member | member
      · exact blank c member
      · exact ih (fun other other_member => flags_line other (List.mem_cons_of_mem flags other_member)) c member

theorem mem_select {i : VariableEnum} (other : i ≠ VAR_CPPFLAGS) (flags : List (List Int8)) (flag : List Int8) :
    flag ∈ select i flags ↔ flag ∈ flags := by
  have lists (flags : List (List Int8)) : flag ∈ remove_dups flags.length flags ↔ flag ∈ flags := by
    rw [remove_dups_eq _ flags (Nat.le_refl _),List.mem_reverse,last_of_each,keep_dedup,List.mem_dedup,List.mem_reverse]
  cases i with
  | VAR_CPPFLAGS => exact absurd rfl other
  | VAR_CFLAGS =>
    have reversed := lists flags.reverse
    rw [List.length_reverse,List.mem_reverse] at reversed
    rw [select,List.mem_reverse]
    exact reversed
  | VAR_CC => exact lists flags
  | VAR_LDFLAGS => exact lists flags
  | VAR_LIBS => exact lists flags

theorem mem_concat (old new : FlagLists) (i : VariableEnum) (flag : List Int8) :
    flag ∈ concat old new i ↔ flag ∈ old i ∨ flag ∈ new i := by
  unfold concat
  split
  · rw [List.mem_append,or_comm]
  · rw [List.mem_append]

theorem read_base {g : Globals} {lists : FlagLists} (read : read_files (fun _ => []) g.g_hconf_base.toList = .ok lists) :
    lists = base_flags g := by
  unfold base_flags
  cases base : g.g_hconf_base with
  | none =>
    rw [base] at read
    cases read
    rfl
  | some file =>
    rw [base] at read
    obtain ⟨found,file_read,rest⟩ := bind_ok_iff.mp read
    cases rest
    dsimp only
    rw [file_read]
    exact concat_nil found

/-- The flags of a merge are among those that it is offered, and all of those but for the preprocessor's. -/
theorem merge_local {g : Globals} {old merged : Bucket} {filename : List Int8} {branches : List Branch} {last : Branch}
    {Fs : List FlagLists}
    (lines : branches.map (fun branch => bucket_line branch.bucket) = Fs.map fun F i => joined (F i))
    (starts : ∀ F ∈ Fs,∀ i,∀ flag ∈ F i,Starts flag) (stable : ∀ F ∈ Fs,∀ i,∀ flag ∈ F i,Stable flag)
    (one_line : ∀ i,∀ c ∈ bucket_line last.bucket i,chr '\n' ≠ c.toInt)
    (merge_ok : merge old (g.g_hconf_base.toList ++ [⟨filename,some (local_bucket (branches ++ [last]))⟩]) = .ok merged) :
    ∃ F : FlagLists,merged.var = (fun i => join (F i)) ∧ (∀ i,∀ flag ∈ F i,Starts flag) ∧
      ∀ i flag,(flag ∈ F i → Offered g Fs (bucket_line last.bucket) i flag) ∧
        (i ≠ VAR_CPPFLAGS → Offered g Fs (bucket_line last.bucket) i flag → flag ∈ F i) := by
  obtain ⟨F,merge_flags_ok,result⟩ := bind_ok_iff.mp merge_ok
  cases result
  refine ⟨F,rfl,merge_flags_start merge_flags_ok,?_⟩
  obtain ⟨lists,read,result⟩ := bind_ok_iff.mp merge_flags_ok
  cases result
  rw [read_files_append] at read
  obtain ⟨base,base_read,read⟩ := bind_ok_iff.mp read
  obtain ⟨new,local_read,result⟩ := bind_ok_iff.mp read
  cases result
  rw [read_base base_read]
  rw [local_bucket_eq last lines] at local_read
  change read_lines filename 1 VAR_OUTPUT _ = .ok new at local_read
  have local_lines (i : VariableEnum) :
      ∀ c ∈ local_line (Fs.map (· i)) (bucket_line last.bucket i),chr '\n' ≠ c.toInt := by
    apply local_line_one_line _ (one_line i)
    intro flags member flag flag_member
    obtain ⟨F,F_member,rfl⟩ := List.mem_map.mp member
    exact (stable F F_member i flag flag_member).one_line
  have in_order : VAR_OUTPUT.Nodup := by decide
  have scans := read_lines_scan in_order _ local_lines local_read
  have found (i : VariableEnum) : new i = (Fs.map (· i)).flatten ++ flags_of (bucket_line last.bucket i) := by
    obtain ⟨line_no,scanned⟩ := scans i (by cases i <;> decide)
    rw [scan_local] at scanned
    · cases raw : scan filename line_no (bucket_line last.bucket i ++ lit "\n") with
      | error failure =>
        rw [raw] at scanned
        cases scanned
      | ok flags =>
        rw [raw] at scanned
        rw [flags_of_scan raw]
        exact (Except.ok.inj scanned).symm
    · intro flags member flag flag_member
      obtain ⟨F,F_member,rfl⟩ := List.mem_map.mp member
      exact starts F F_member i flag flag_member
    · intro flags member flag flag_member
      obtain ⟨F,F_member,rfl⟩ := List.mem_map.mp member
      exact (stable F F_member i flag flag_member).rescans
  have offered (i : VariableEnum) (flag : List Int8) :
      flag ∈ concat (base_flags g) new i ↔ Offered g Fs (bucket_line last.bucket) i flag := by
    rw [mem_concat,found,List.mem_append,List.mem_flatten]
    simp [Offered]
  intro i flag
  refine ⟨fun member => (offered i flag).mp ((select_sublist i _).mem member),fun other is => ?_⟩
  exact (mem_select other _ flag).mpr ((offered i flag).mpr is)

/-! ### The trials -/

/-- The variables that a trial finds are single lines. -/
theorem echo_loop_line {vars : List VariableEnum} {pip : List Int8} {var : VariableEnum → List Int8}
    (found : echo_loop vars pip = .ok var) : ∀ i,∀ c ∈ var i,chr '\n' ≠ c.toInt := by
  induction vars generalizing pip var with
  | nil =>
    unfold echo_loop at found
    split at found
    · cases found
      exact fun _ _ member => absurd member List.not_mem_nil
    · cases found
  | cons i vars ih =>
    unfold echo_loop at found
    split at found
    · cases found
    · obtain ⟨others,rest,result⟩ := bind_ok_iff.mp found
      cases result
      intro j c member
      by_cases same : j = i
      · subst same
        rw [Function.update_self] at member
        have text : 0 ≠ c ∧ chr '\n' ≠ c.toInt := by simpa using List.mem_takeWhile_imp member
        exact text.2
      · rw [Function.update_of_ne same] at member
        exact ih rest j c member

theorem resolve_variables_ok {echo : List Int8 → List Int8} {branch : Branch} {bucket : Bucket}
    {var : VariableEnum → List Int8} (resolved : resolve_variables echo branch = .ok (bucket,var)) :
    bucket_line bucket = var ∧ ∀ i,∀ c ∈ var i,chr '\n' ≠ c.toInt := by
  unfold resolve_variables at resolved
  split at resolved
  · cases resolved
  · obtain ⟨⟨_,script⟩,_,rest⟩ := bind_ok_iff.mp resolved
    obtain ⟨found,echoed,result⟩ := bind_ok_iff.mp rest
    cases result
    exact ⟨rfl,echo_loop_line echoed⟩

/-- The buckets of the branches that have passed. -/
def buckets (modules : List Module) : List Bucket :=
  modules.filterMap fun module => (module.branch.filter Branch.is_ok).map Branch.bucket

/-- A flag of the base file, or of a trial that has passed. -/
def Given (g : Globals) (trials : List Trial) (i : VariableEnum) (flag : List Int8) : Prop :=
  flag ∈ base_flags g i ∨ ∃ trial ∈ trials,trial.passed = true ∧ flag ∈ flags_of (trial.resolved i)

/-- What the buckets hold between the steps: nothing but flags that are given, and all of those of the trials. -/
structure Gathered (g : Globals) (trials : List Trial) (found : List Bucket) (Fs : List FlagLists) : Prop where
  lines : found.map bucket_line = Fs.map fun F i => joined (F i)
  starts : ∀ F ∈ Fs,∀ i,∀ flag ∈ F i,Starts flag
  sound : ∀ F ∈ Fs,∀ i,∀ flag ∈ F i,Given g trials i flag
  complete : ∀ trial ∈ trials,trial.passed = true → ∀ i,i ≠ VAR_CPPFLAGS →
    ∀ flag ∈ flags_of (trial.resolved i),∃ F ∈ Fs,flag ∈ F i

theorem buckets_append (modules others : List Module) : buckets (modules ++ others) = buckets modules ++ buckets others :=
  List.filterMap_append

theorem buckets_none (m : List Int8) : buckets [⟨m,none⟩] = [] := rfl

theorem buckets_some (m : List Int8) (branch : Branch) :
    buckets [⟨m,some branch⟩] = if branch.is_ok = true then [branch.bucket] else [] := by
  unfold buckets
  cases marked : branch.is_ok <;> simp [marked]

/-- The branches of modules that are done have the buckets. -/
theorem buckets_branches {modules : List Module} {choices : List Choice} {branches : List Branch}
    (chosen : modules.map selected = choices.map fun choice => some choice.selected)
    (found : modules.mapM branch_of = .ok branches) : buckets modules = branches.map Branch.bucket := by
  induction modules generalizing choices branches with
  | nil =>
    cases found
    rfl
  | cons module modules ih =>
    cases choices with
    | nil => cases chosen
    | cons choice choices =>
      obtain ⟨first,rest⟩ := List.cons.inj chosen
      obtain ⟨branch,current,marked,_,_⟩ := selected_iff.mp first
      rw [List.mapM_cons,branch_of,current] at found
      obtain ⟨_,same,found⟩ := bind_ok_iff.mp found
      cases same
      obtain ⟨others,others_found,result⟩ := bind_ok_iff.mp found
      cases result
      obtain ⟨name,_⟩ := module
      cases current
      rw [← List.singleton_append,buckets_append,buckets_some,if_pos marked,ih rest others_found]
      rfl

theorem Given.mono {g : Globals} {trials more : List Trial} {i : VariableEnum} {flag : List Int8}
    (given : Given g trials i flag) : Given g (trials ++ more) i flag := by
  rcases given with base | ⟨trial,member,passed,found⟩
  · exact .inl base
  · exact .inr ⟨trial,List.mem_append_left more member,passed,found⟩

section
variable {g : Globals} {world : World}

/-- A trial that fails adds nothing. -/
theorem Gathered.failed {trials : List Trial} {trial : Trial} {found : List Bucket} {Fs : List FlagLists}
    (gathered : Gathered g trials found Fs) (fails : trial.passed ≠ true) : Gathered g (trials ++ [trial]) found Fs where
  lines := gathered.lines
  starts := gathered.starts
  sound := fun G member i flag flag_member => (gathered.sound G member i flag flag_member).mono
  complete := by
    intro other member passed
    rcases List.mem_append.mp member with member | member
    · exact gathered.complete other member passed
    · rw [List.mem_singleton.mp member] at passed
      exact absurd passed fails

/-- A trial that passes adds a bucket with its flags. -/
theorem Gathered.passed {trials : List Trial} {trial : Trial} {found : List Bucket} {bucket : Bucket} {Fs : List FlagLists}
    {F : FlagLists} (gathered : Gathered g trials found Fs) (passes : trial.passed = true)
    (line : bucket_line bucket = fun i => joined (F i)) (starts : ∀ i,∀ flag ∈ F i,Starts flag)
    (offered : ∀ i flag,(flag ∈ F i → Offered g Fs trial.resolved i flag) ∧
      (i ≠ VAR_CPPFLAGS → Offered g Fs trial.resolved i flag → flag ∈ F i)) :
    Gathered g (trials ++ [trial]) (found ++ [bucket]) (Fs ++ [F]) where
  lines := by
    rw [List.map_append,List.map_append,gathered.lines,List.map_singleton,line]
    rfl
  starts := by
    intro G member
    rcases List.mem_append.mp member with member | member
    · exact gathered.starts G member
    · rw [List.mem_singleton.mp member]
      exact starts
  sound := by
    intro G member i flag flag_member
    rcases List.mem_append.mp member with member | member
    · exact (gathered.sound G member i flag flag_member).mono
    · rw [List.mem_singleton.mp member] at flag_member
      rcases (offered i flag).1 flag_member with base | ⟨H,H_member,found⟩ | own
      · exact .inl base
      · exact (gathered.sound H H_member i flag found).mono
      · exact .inr ⟨trial,List.mem_append_right _ List.mem_cons_self,passes,own⟩
  complete := by
    intro earlier member passed i other flag found
    rcases List.mem_append.mp member with member | member
    · obtain ⟨G,G_member,held⟩ := gathered.complete earlier member passed i other flag found
      exact ⟨G,List.mem_append_left _ G_member,held⟩
    · rw [List.mem_singleton.mp member] at found
      exact ⟨F,List.mem_append_right _ List.mem_cons_self,(offered i flag).2 other (.inr (.inr found))⟩

theorem gathered_trial {taken : List Guard} {s t : State} {older : List Module} {module : Module} {branch : Branch}
    {branches : List Branch} {resolved bucket : Bucket} {var : VariableEnum → List Int8} {Fs : List FlagLists}
    (tracks : Tracks taken s) (listed : s.g_module_list = older ++ [module]) (current : module.branch = some branch)
    (untried : branch.is_ok = false) (tried : Tried g world older module branch s t branches resolved bucket var)
    (gathered : Gathered g s.trials (buckets s.g_module_list) Fs)
    (stable : ∀ i flag,Given g s.trials i flag → Stable flag) :
    ∃ Fs,Gathered g t.trials (buckets t.g_module_list) Fs := by
  obtain ⟨choices,chosen⟩ := tracks_older tracks listed
  have older_buckets := buckets_branches chosen tried.older_branches
  obtain ⟨name,_⟩ := module
  cases current
  have all_buckets : buckets s.g_module_list = branches.map Branch.bucket := by
    rw [listed,buckets_append,older_buckets,buckets_some,if_neg (by simp [untried]),List.append_nil]
  rw [all_buckets] at gathered
  obtain ⟨raw,raw_line⟩ := resolve_variables_ok tried.resolves
  subst raw
  have lines := gathered.lines
  rw [List.map_map] at lines
  obtain ⟨F,written,starts,offered⟩ := merge_local lines gathered.starts
    (fun F member i flag flag_member => stable i flag (gathered.sound F member i flag flag_member))
    raw_line tried.merged
  have modules := tried.listed
  rw [tried.trials]
  by_cases passes : try_builds (outcome_of g world s.trials.length name bucket) = true
  · rw [if_pos passes] at modules
    rw [modules,buckets_append,older_buckets,buckets_some,if_pos rfl]
    refine ⟨Fs ++ [F],gathered.passed passes ?_ starts offered⟩
    funext i
    rw [bucket_line,written,join_eq]
  · rw [if_neg passes] at modules
    rw [modules,buckets_append,buckets_none,List.append_nil,older_buckets]
    exact ⟨Fs,gathered.failed passes⟩

theorem gathered_step {taken new : List Guard} {s t : State} {Fs : List FlagLists} (tracks : Tracks taken s)
    (step : Step g world new s t) (gathered : Gathered g s.trials (buckets s.g_module_list) Fs)
    (stable : ∀ i flag,Given g s.trials i flag → Stable flag) :
    ∃ Fs,Gathered g t.trials (buckets t.g_module_list) Fs := by
  have waiting (m b : List Int8) : buckets [⟨m,some (fresh b)⟩] = [] :=
    buckets_some m (fresh b)
  cases step with
  | trial listed current untried tried => exact gathered_trial tracks listed current untried tried gathered stable
  | @module _ m b =>
    refine ⟨Fs,?_⟩
    rw [buckets_append,waiting,List.append_nil]
    exact gathered
  | @branch _ older m b listed =>
    refine ⟨Fs,?_⟩
    rw [listed,buckets_append,buckets_none] at gathered
    rw [buckets_append,waiting]
    exact gathered
  | skip => exact ⟨Fs,gathered⟩
  | @expression _ older m branch var listed =>
    refine ⟨Fs,?_⟩
    rw [listed,buckets_append,buckets_some] at gathered
    rw [buckets_append,buckets_some]
    exact gathered

theorem Step.trials {s t : State} {new : List Guard} (step : Step g world new s t) : ∃ more,t.trials = s.trials ++ more := by
  cases step with
  | trial _ _ _ tried => exact ⟨_,tried.trials⟩
  | module | branch | skip | expression => exact ⟨[],(List.append_nil _).symm⟩

theorem Run.trials {s t : State} {guards : List Guard} (run : Run g world guards s t) :
    ∃ more,t.trials = s.trials ++ more := by
  induction run with
  | nil => exact ⟨[],(List.append_nil _).symm⟩
  | cons step _ ih =>
    obtain ⟨first,first_eq⟩ := step.trials
    obtain ⟨rest,rest_eq⟩ := ih
    exact ⟨first ++ rest,by rw [rest_eq,first_eq,List.append_assoc]⟩

theorem gathered_run {taken new : List Guard} {s t : State} {Fs : List FlagLists} (tracks : Tracks taken s)
    (run : Run g world new s t) (gathered : Gathered g s.trials (buckets s.g_module_list) Fs)
    (stable : ∀ i flag,Given g t.trials i flag → Stable flag) :
    ∃ Fs,Gathered g t.trials (buckets t.g_module_list) Fs := by
  induction run generalizing taken Fs with
  | nil => exact ⟨Fs,gathered⟩
  | @cons s _ _ _ _ step rest ih =>
    have before : ∀ i flag,Given g s.trials i flag → Stable flag := by
      intro i flag given
      obtain ⟨more,trials⟩ := (Run.cons step rest).trials
      apply stable
      rw [trials]
      exact given.mono
    obtain ⟨Fs,gathered⟩ := gathered_step tracks step gathered before
    exact ih (tracks_step tracks step) gathered stable

theorem gathered_start : Gathered g start.trials (buckets start.g_module_list) [] where
  lines := rfl
  starts _ member := absurd member List.not_mem_nil
  sound _ member := absurd member List.not_mem_nil
  complete _ member := absurd member List.not_mem_nil

/-! ### The whole run -/

theorem passed_selected {trials : List Trial} {choices : List Choice}
    (results : trials.map summary = choices.flatMap Choice.trials) :
    (trials.filter Trial.passed).map (fun trial => (trial.module,trial.branch)) = choices.map Choice.selected := by
  have of_summary : (trials.filter Trial.passed).map (fun trial => (trial.module,trial.branch)) =
      ((trials.map summary).filter fun result => result.2.2).map fun result => (result.1,result.2.1) := by
    rw [List.filter_map,List.map_map]
    rfl
  rw [of_summary,results]
  clear of_summary results
  induction choices with
  | nil => rfl
  | cons choice choices ih =>
    have failed : (choice.failed.map fun branch => (choice.module,branch,false)).filter (fun result => result.2.2) = [] := by
      simp
    rw [List.flatMap_cons,Choice.trials,List.filter_append,List.filter_append,failed,List.map_append,ih]
    rfl

theorem ends_of_rescans {flag : List Int8} (rescans : Rescans flag) : Ends flag := by
  intro filename line_no
  have blanks : skip_spaces (lit " " ++ (lit "\n" ++ [0])) = [0] := by decide
  have line : lit " \n" ++ [0] = lit " " ++ (lit "\n" ++ [0]) := by decide
  rw [line]
  exact ⟨_,rescans filename line_no _,blanks⟩

theorem rejoins_of_stable {flags : List (List Int8)} (stable : ∀ flag ∈ flags,Stable flag) : Rejoins flags where
  one_line flag member := (stable flag member).one_line
  inner flag member := (stable flag ((List.dropLast_sublist flags).mem member)).rescans
  last flag member := ends_of_rescans (stable flag (List.mem_of_getLast? member)).rescans

theorem flags_of_joined {flags : List (List Int8)} (starts : ∀ flag ∈ flags,Starts flag)
    (stable : ∀ flag ∈ flags,Stable flag) : flags_of (joined flags) = flags :=
  flags_of_scan (scan_joined starts (rejoins_of_stable stable) [] 1)

theorem write_files_gathered {t s : State} {choices : List Choice} {Fs : List FlagLists}
    (some_module : t.g_module_list ≠ [])
    (chosen : t.g_module_list.map selected = choices.map fun choice => some choice.selected)
    (gathered : Gathered g t.trials (buckets t.g_module_list) Fs) (stable : ∀ i flag,Given g t.trials i flag → Stable flag)
    (wrote : write_files g t = .ok () s) :
    ∃ lines : VariableEnum → List Int8,s.hconf = VAR_OUTPUT.flatMap (fun i => lines i ++ lit "\n") ∧
      (∀ i,∀ c ∈ lines i,chr '\n' ≠ c.toInt) ∧
      ∀ i,i ≠ VAR_CPPFLAGS → ∀ flag,flag ∈ flags_of (lines i) ↔ Given g t.trials i flag := by
  obtain ⟨older,⟨name,_⟩,listed⟩ := (listed_or t).resolve_left some_module
  rw [listed] at chosen
  obtain ⟨_,_,_,before,last⟩ := chosen_last chosen
  obtain ⟨branch,current,is_ok,_⟩ := selected_iff.mp last
  cases current
  obtain ⟨branches,bucket,files⟩ := write_files_ok listed rfl wrote
  have all_lines := gathered.lines
  rw [listed,buckets_append,buckets_some,if_pos is_ok,buckets_branches before files.older_branches,List.map_append] at all_lines
  -- The last bucket counts as the text of the last variables.
  rcases List.eq_nil_or_concat Fs with rfl | ⟨Gs,G,rfl⟩
  · simp at all_lines
  rw [List.concat_eq_append] at all_lines gathered
  rw [List.map_append] at all_lines
  obtain ⟨lines,last_line⟩ := List.append_inj' all_lines rfl
  have last_line : bucket_line branch.bucket = fun i => joined (G i) := List.head_eq_of_cons_eq last_line
  rw [List.map_map] at lines
  have held (F : FlagLists) (member : F ∈ Gs ++ [G]) (i : VariableEnum) : ∀ flag ∈ F i,Stable flag :=
    fun flag found => stable i flag (gathered.sound F member i flag found)
  have in_front (F : FlagLists) (member : F ∈ Gs) : F ∈ Gs ++ [G] := List.mem_append_left [G] member
  have at_end : G ∈ Gs ++ [G] := List.mem_append_right Gs List.mem_cons_self
  have own (i : VariableEnum) : flags_of (bucket_line branch.bucket i) = G i := by
    rw [last_line]
    exact flags_of_joined (gathered.starts G at_end i) (held G at_end i)
  obtain ⟨F,written,starts,offered⟩ := merge_local lines (fun F member => gathered.starts F (in_front F member))
    (fun F member => held F (in_front F member))
    (by rw [last_line]; exact fun i => joined_one_line (rejoins_of_stable (held G at_end i))) files.merged
  have given (i : VariableEnum) (flag : List Int8) (found : flag ∈ F i) : Given g t.trials i flag := by
    rcases (offered i flag).1 found with in_base | ⟨H,member,found⟩ | last_found
    · exact .inl in_base
    · exact gathered.sound H (in_front H member) i flag found
    · rw [own] at last_found
      exact gathered.sound G at_end i flag last_found
  have F_stable (i : VariableEnum) : ∀ flag ∈ F i,Stable flag := fun flag found => stable i flag (given i flag found)
  refine ⟨fun i => joined (F i),?_,fun i => joined_one_line (rejoins_of_stable (F_stable i)),?_⟩
  · rw [files.hconf,bucket_lines]
    congr 1
    funext i
    rw [written,join_eq]
  · intro i other flag
    rw [flags_of_joined (starts i) (F_stable i)]
    refine ⟨given i flag,?_⟩
    rintro (in_base | ⟨trial,member,passed,found⟩)
    · exact (offered i flag).2 other (.inl in_base)
    · obtain ⟨H,H_member,H_found⟩ := gathered.complete trial member passed i other flag found
      rcases List.mem_append.mp H_member with H_member | H_member
      · exact (offered i flag).2 other (.inr (.inl ⟨H,H_member,H_found⟩))
      · rw [List.mem_singleton.mp H_member] at H_found
        exact (offered i flag).2 other (.inr (.inr (by rw [own]; exact H_found)))

/-- The flags of the final file are those of the base file and of the branches that the header selects. -/
theorem hconf_conf_union (g : Globals) (world : World) (header : List Int8) {s : State}
    (ended : hconf_conf g world header start = .ok () s) (base : ∀ i,∀ flag ∈ base_flags g i,Stable flag)
    (resolved : ∀ trial ∈ s.trials,trial.passed = true → ∀ i,∀ flag ∈ flags_of (trial.resolved i),Stable flag) :
    s.h = header_text g ((s.trials.filter Trial.passed).map fun trial => (trial.module,trial.branch)) ∧
      ∃ lines : VariableEnum → List Int8,s.hconf = VAR_OUTPUT.flatMap (fun i => lines i ++ lit "\n") ∧
        (∀ i,∀ c ∈ lines i,chr '\n' ≠ c.toInt) ∧
        ∀ i,i ≠ VAR_CPPFLAGS → ∀ flag,flag ∈ flags_of (lines i) ↔
          flag ∈ base_flags g i ∨ ∃ trial ∈ s.trials,trial.passed = true ∧ flag ∈ flags_of (trial.resolved i) := by
  rcases @main_loop_runs g world (header_lines header) 1 _ ready_start with
    ⟨t,loop,run,ready,marked,_⟩ | ⟨_,_,_,_,_,stopped,_⟩
  · unfold hconf_conf at ended
    rw [bind_ok loop,bind_get] at ended
    split at ended
    · cases ended
    rename_i some_module
    have listed_some : t.g_module_list ≠ [] := by simpa using some_module
    have tracks : Tracks (guards header) t := tracks_run tracks_start run
    obtain ⟨choices,_,chosen,results,_⟩ := tracks_settled tracks ready marked
    obtain ⟨trials,h⟩ := write_files_chosen listed_some chosen ended
    have stable : ∀ i flag,Given g t.trials i flag → Stable flag := by
      rintro i flag (in_base | ⟨trial,member,passed,found⟩)
      · exact base i flag in_base
      · exact resolved trial (by rw [trials]; exact member) passed i flag found
    obtain ⟨Fs,gathered⟩ := gathered_run tracks_start run gathered_start stable
    obtain ⟨lines,hconf,one_line,found⟩ := write_files_gathered listed_some chosen gathered stable ended
    rw [trials,h,passed_selected results]
    exact ⟨rfl,lines,hconf,one_line,found⟩
  · unfold hconf_conf at ended
    rw [bind_error stopped] at ended
    cases ended

end

/-! Two branches with flags of their own, and a base file. -/

def flag_globals : Globals := { some_globals with g_hconf_base := some ⟨lit "base",some (lit "\n\n-Wall\n\n\n")⟩ }

def flag_world : World :=
  { first_fails with echo := fun trial _ => if trial = 0 then lit "cc\n\n-O1\n\n-la\n" else lit "gcc\n\n-O2\n\n-lm\n" }

/-- The results of the trials, with their variables. -/
def resolves (header : List Int8) : Option (List (Bool × List (List Int8))) :=
  match hconf_conf flag_globals flag_world header start with
  | .ok _ s => some (s.trials.map fun trial => (trial.passed,VAR_OUTPUT.map trial.resolved))
  | .error _ _ => none

theorem stable_empty {flags : List (List Int8)} (none_found : flags = []) : ∀ flag ∈ flags,Stable flag := by
  rw [none_found]
  exact fun flag member => absurd member List.not_mem_nil

theorem stable_one {flags : List (List Int8)} {flag : List Int8} (one : flags = [flag]) (stable : Stable flag) :
    ∀ flag ∈ flags,Stable flag := by
  rw [one]
  exact fun other member => by rw [List.mem_singleton.mp member]; exact stable

theorem hconf_conf_two_branches :
    ∃ (s : State) (lines : VariableEnum → List Int8),hconf_conf flag_globals flag_world two_branches start = .ok () s ∧
      s.hconf = VAR_OUTPUT.flatMap (fun i => lines i ++ lit "\n") ∧
      lit "-Wall" ∈ flags_of (lines VAR_CFLAGS) ∧ lit "-O2" ∈ flags_of (lines VAR_CFLAGS) ∧
      lit "-O1" ∉ flags_of (lines VAR_CFLAGS) := by
  have result : resolves two_branches =
      some [(false,[lit "cc",[],lit "-O1",[],lit "-la"]),(true,[lit "gcc",[],lit "-O2",[],lit "-lm"])] := by
    unfold resolves hconf_conf
    rw [two_lines]
    decide +kernel
  -- The run is evaluated in `result` only.
  generalize two_branches = header at *
  unfold resolves at result
  cases ended : hconf_conf flag_globals flag_world header start with
  | error failure s =>
    rw [ended] at result
    cases result
  | ok _ s =>
    rw [ended] at result
    have trials : s.trials.map (fun trial => (trial.passed,VAR_OUTPUT.map trial.resolved)) =
      [(false,[lit "cc",[],lit "-O1",[],lit "-la"]),(true,[lit "gcc",[],lit "-O2",[],lit "-lm"])] := Option.some.inj result
    obtain ⟨failed,rest,split,failed_eq,rest_eq⟩ := List.map_eq_cons_iff.mp trials
    obtain ⟨passed,more,rfl,passed_eq,more_eq⟩ := List.map_eq_cons_iff.mp rest_eq
    rw [List.map_eq_nil_iff.mp more_eq] at split
    obtain ⟨failed_no,failed_vars⟩ := Prod.mk.inj failed_eq
    obtain ⟨passed_yes,passed_vars⟩ := Prod.mk.inj passed_eq
    obtain ⟨cc,cppflags,cflags,ldflags,libs⟩ : passed.resolved VAR_CC = lit "gcc" ∧ passed.resolved VAR_CPPFLAGS = [] ∧
        passed.resolved VAR_CFLAGS = lit "-O2" ∧ passed.resolved VAR_LDFLAGS = [] ∧
        passed.resolved VAR_LIBS = lit "-lm" := by
      simpa [VAR_OUTPUT] using passed_vars
    have base : ∀ i,∀ flag ∈ base_flags flag_globals i,Stable flag := by
      intro i
      cases i with
      | VAR_CFLAGS =>
        exact stable_one (show base_flags flag_globals VAR_CFLAGS = [lit "-Wall"] by decide)
          ⟨fun _ _ _ => rfl,each_char (by decide)⟩
      | VAR_CC | VAR_CPPFLAGS | VAR_LDFLAGS | VAR_LIBS => exact stable_empty (by decide)
    have resolved : ∀ trial ∈ s.trials,trial.passed = true → ∀ i,∀ flag ∈ flags_of (trial.resolved i),Stable flag := by
      intro trial member yes i
      rw [split] at member
      rcases List.mem_cons.mp member with rfl | member
      · rw [failed_no] at yes
        cases yes
      rw [List.mem_singleton.mp member]
      cases i with
      | VAR_CC =>
        rw [cc]
        exact stable_one (show flags_of (lit "gcc") = [lit "gcc"] by decide) ⟨fun _ _ _ => rfl,each_char (by decide)⟩
      | VAR_CFLAGS =>
        rw [cflags]
        exact stable_one (show flags_of (lit "-O2") = [lit "-O2"] by decide) ⟨fun _ _ _ => rfl,each_char (by decide)⟩
      | VAR_LIBS =>
        rw [libs]
        exact stable_one (show flags_of (lit "-lm") = [lit "-lm"] by decide) ⟨fun _ _ _ => rfl,each_char (by decide)⟩
      | VAR_CPPFLAGS =>
        rw [cppflags]
        exact stable_empty (by decide)
      | VAR_LDFLAGS =>
        rw [ldflags]
        exact stable_empty (by decide)
    obtain ⟨_,lines,hconf,_,found⟩ := hconf_conf_union flag_globals flag_world header ended base resolved
    have cflags_found := found VAR_CFLAGS (by decide)
    have base_cflags : base_flags flag_globals VAR_CFLAGS = [lit "-Wall"] := by decide
    have flags_cflags : flags_of (lit "-O2") = [lit "-O2"] := by decide
    refine ⟨s,lines,rfl,hconf,?_,?_,?_⟩
    · exact (cflags_found _).mpr (.inl (by rw [base_cflags]; exact List.mem_cons_self))
    · refine (cflags_found _).mpr (.inr ⟨passed,by rw [split]; simp,passed_yes,?_⟩)
      rw [cflags,flags_cflags]
      exact List.mem_cons_self
    · intro member
      rcases (cflags_found _).mp member with in_base | ⟨trial,trial_member,yes,own⟩
      · rw [base_cflags] at in_base
        exact absurd in_base (by decide)
      · rw [split] at trial_member
        rcases List.mem_cons.mp trial_member with rfl | trial_member
        · rw [failed_no] at yes
          cases yes
        rw [List.mem_singleton.mp trial_member,cflags,flags_cflags] at own
        exact absurd own (by decide)

end Htools.HconfConf
