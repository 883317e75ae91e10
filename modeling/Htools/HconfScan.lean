import Htools.HconfRemerge
import Htools.ConfigMade

/-!
Where the pointer of the flag scanner goes, turn by turn. The steps over blanks and
over a value look at each character, but the one over `-` and the character behind
it does not, nor does that over the blank behind `-framework`; they are what can
pass the terminator or take the end of the line into a flag (`scan_stays_iff`).
-/
namespace Htools.HconfMerge
open Htools.Lexing Htools.ConfigFile Htools.CString VariableEnum

section
variable (filename : List Int8) (line_no : Nat)

/-- The pointer at each flag. -/
def turn_starts : (fuel : Nat) → List Int8 → List (List Int8)
  | 0,_ => []
  | fuel + 1,p =>
    match skip_spaces p with
    | [] => []
    | c :: p =>
      if 0 = c then []
      else (c :: p) ::
        match scan_flag filename line_no (c :: p) with
        | .error _ => []
        | .ok (_,p) => turn_starts fuel p

def line_starts (line : List Int8) : List (List Int8) := turn_starts filename line_no (line.length + 2) (line ++ [0])

/-- The pointer at a flag, behind its name, behind its value and behind the blanks after it. -/
def turn_pointers (p : List Int8) : List (List Int8) :=
  p ::
    match flag_name filename line_no p with
    | .error _ => [p.drop 10]
    | .ok (_,name_end,do_no_arg) =>
      name_end ::
        match flag_arg do_no_arg name_end with
        | .error _ => [[]]
        | .ok (_,value_end) => [value_end,skip_spaces value_end]

/-- The places that the pointer comes to. -/
def pointers (line : List Int8) : List (List Int8) :=
  skip_spaces (line ++ [0]) :: (line_starts filename line_no line).flatMap (turn_pointers filename line_no)

/-- The flags that are added, also where the program ends at a later one. -/
def extracted (line : List Int8) : List (List Int8) :=
  (line_starts filename line_no line).filterMap fun p => (scan_flag filename line_no p).toOption.map Prod.fst

end

/-- The pointer has not passed the terminator. -/
def Inside (line q : List Int8) : Prop := ∃ passed,line ++ [0] = passed ++ q ∧ 0 ∉ passed

/-- Each end of a line has a backslash in front of it. -/
def Escaped (flag : List Int8) : Prop :=
  ∀ front c back,flag = front ++ c :: back → chr '\n' = c.toInt → ∃ before,front = before ++ lit "\\"

/-- The line ends where the scanner does not look. -/
def EndsEarly (p : List Int8) : Prop :=
  [45,0] <+: p ∨ lit "-\n" <+: p ∨ lit "-framework\n" <+: p

instance (p : List Int8) : Decidable (EndsEarly p) := inferInstanceAs (Decidable (_ ∨ _ ∨ _))

/-! ### One turn -/

/-- There is no terminator in a value, as only blanks are escaped. -/
theorem flag_value_text {escaped : Bool} {p value q : List Int8} (read : flag_value escaped p = .ok (value,q))
    (blank : escaped = true → isspace (p.headD 0).toInt = true) : 0 ∉ value := by
  fun_induction flag_value escaped p generalizing value q with
  | case1 => cases read
  | case2 c p ih =>
    obtain ⟨⟨rest,after⟩,tail,result⟩ := bind_ok_iff.mp read
    cases result
    have text : c ≠ 0 := by
      rintro rfl
      exact absurd (show isspace (0 : Int8).toInt = true from blank rfl) (by decide)
    rw [List.mem_cons,not_or]
    exact ⟨Ne.symm text,ih tail (by rintro ⟨⟩)⟩
  | case3 c p stopped =>
    cases read
    exact List.not_mem_nil
  | case4 c p goes_on ih =>
    obtain ⟨⟨rest,after⟩,tail,result⟩ := bind_ok_iff.mp read
    cases result
    rw [List.mem_cons,not_or]
    exact ⟨fun zero => goes_on (.inl zero),ih tail fun escapes => (of_decide_eq_true escapes).2⟩

/-- An end of a line in a value is there because it is escaped. -/
theorem flag_value_escaped {escaped : Bool} {p value q : List Int8} (read : flag_value escaped p = .ok (value,q))
    {front back : List Int8} {c : Int8} (split : value = front ++ c :: back) (newline : chr '\n' = c.toInt) :
    front = [] ∧ escaped = true ∨ ∃ before,front = before ++ lit "\\" := by
  fun_induction flag_value escaped p generalizing value q front with
  | case1 => cases read
  | case2 d p ih =>
    obtain ⟨⟨rest,after⟩,tail,result⟩ := bind_ok_iff.mp read
    cases result
    cases front with
    | nil => exact .inl ⟨rfl,rfl⟩
    | cons first front =>
      obtain ⟨rfl,rest_split⟩ := List.cons.inj split
      rcases ih tail rest_split with ⟨_,none_⟩ | ⟨before,rfl⟩
      · cases none_
      · exact .inr ⟨d :: before,rfl⟩
  | case3 d p stopped =>
    cases read
    cases front <;> cases split
  | case4 d p goes_on ih =>
    obtain ⟨⟨rest,after⟩,tail,result⟩ := bind_ok_iff.mp read
    cases result
    cases front with
    | nil =>
      obtain ⟨rfl,_⟩ := List.cons.inj split
      exact absurd (.inr (by rw [← newline]; rfl)) goes_on
    | cons first front =>
      obtain ⟨rfl,rest_split⟩ := List.cons.inj split
      rcases ih tail rest_split with ⟨rfl,escapes⟩ | ⟨before,rfl⟩
      · have backslash : d = 92 := Int8.toInt_inj.mp (of_decide_eq_true escapes).1.symm
        exact .inr ⟨[],by rw [backslash]; rfl⟩
      · exact .inr ⟨d :: before,rfl⟩

/-- In front of the terminator a value ends. -/
theorem flag_value_ends {escaped : Bool} {p : List Int8} (ends : 0 ∈ p)
    (blank : escaped = true → isspace (p.headD 0).toInt = true) : ∃ value q,flag_value escaped p = .ok (value,q) := by
  fun_induction flag_value escaped p with
  | case1 => cases ends
  | case2 c p ih =>
    have text : 0 ≠ c := by
      rintro rfl
      exact absurd (show isspace (0 : Int8).toInt = true from blank rfl) (by decide)
    obtain ⟨value,q,read⟩ := ih ((List.mem_cons.mp ends).resolve_left text) (by rintro ⟨⟩)
    exact ⟨c :: value,q,bind_ok_iff.mpr ⟨_,read,rfl⟩⟩
  | case3 c p stopped => exact ⟨[],c :: p,rfl⟩
  | case4 c p goes_on ih =>
    have text : 0 ≠ c := fun zero => goes_on (.inl zero)
    obtain ⟨value,q,read⟩ := ih ((List.mem_cons.mp ends).resolve_left text) fun escapes => (of_decide_eq_true escapes).2
    exact ⟨c :: value,q,bind_ok_iff.mpr ⟨_,read,rfl⟩⟩

/-- Neither a terminator nor an end of a line. -/
def Plain (text : List Int8) : Prop := ∀ c ∈ text,0 ≠ c ∧ chr '\n' ≠ c.toInt

/-- A name is passed as a whole, or the program ends. -/
theorem flag_name_passes (filename : List Int8) (line_no : Nat) {p : List Int8} (late : ¬EndsEarly p) :
    (∃ name q do_no_arg,flag_name filename line_no p = .ok (name,q,do_no_arg) ∧ p = name ++ q ∧ Plain name) ∨
      ∃ failure q,flag_name filename line_no p = .error failure ∧ p = lit "-framework" ++ q := by
  unfold flag_name
  split
  case isTrue framework =>
    obtain ⟨q,rfl⟩ := (strbcmp_iff p "-framework").mp framework
    have drop : (lit "-framework" ++ q).drop 10 = q := rfl
    rw [drop]
    cases q with
    | nil => exact .inr ⟨_,_,rfl,rfl⟩
    | cons c q =>
      dsimp only
      split
      case isTrue blank =>
        refine .inl ⟨lit "-framework" ++ [c],q,false,rfl,by rw [List.append_assoc]; rfl,?_⟩
        intro d there
        rcases List.mem_append.mp there with there | there
        · have all : ∀ d ∈ lit "-framework",0 ≠ d ∧ chr '\n' ≠ d.toInt := each_char (by decide)
          exact all d there
        · rw [List.mem_singleton.mp there]
          constructor
          · rintro rfl
            exact absurd blank (by decide)
          · intro newline
            have c_is : c = 10 := Int8.toInt_inj.mp newline.symm
            subst c_is
            exact late (.inr (.inr ⟨q,rfl⟩))
      case isFalse => exact .inr ⟨_,_,rfl,rfl⟩
  case isFalse =>
    split
    case isTrue minus =>
      refine .inl ⟨p.take 2,p.drop 2,_,rfl,(List.take_append_drop 2 p).symm,?_⟩
      cases p with
      | nil => cases minus
      | cons first p =>
        have first_is : first = 45 := Int8.toInt_inj.mp minus.symm
        subst first_is
        cases p with
        | nil =>
          intro d there
          rw [List.mem_singleton.mp there]
          decide
        | cons c p =>
          intro d there
          rcases List.mem_pair.mp there with rfl | rfl
          · decide
          · constructor
            · rintro rfl
              exact late (.inl ⟨p,rfl⟩)
            · intro newline
              have d_is : d = 10 := Int8.toInt_inj.mp newline.symm
              subst d_is
              exact late (.inr (.inl ⟨p,rfl⟩))
    case isFalse => exact .inl ⟨[],p,false,rfl,rfl,fun c there => absurd there List.not_mem_nil⟩

/-! ### Places -/

section
variable {line p q passed : List Int8}

theorem Inside.pass (inside : Inside line (passed ++ q)) (none_ : 0 ∉ passed) : Inside line q := by
  obtain ⟨before,split,plain⟩ := inside
  refine ⟨before ++ passed,by rw [split,List.append_assoc],?_⟩
  rw [List.mem_append,not_or]
  exact ⟨plain,none_⟩

theorem Inside.ends (inside : Inside line q) : 0 ∈ q := by
  obtain ⟨before,split,plain⟩ := inside
  have there : 0 ∈ before ++ q := by
    rw [← split]
    exact List.mem_concat_self
  exact (List.mem_append.mp there).resolve_left plain

theorem Inside.blanks (inside : Inside line q) : Inside line (skip_spaces q) := by
  have split : q = q.takeWhile (fun c => isspace c.toInt) ++ skip_spaces q := List.takeWhile_append_dropWhile.symm
  rw [split] at inside
  refine inside.pass fun there => ?_
  have blank : isspace (0 : Int8).toInt = true := List.mem_takeWhile_imp (p := fun c : Int8 => isspace c.toInt) there
  exact absurd blank (by decide)

theorem plain_zero {text : List Int8} (plain : Plain text) : 0 ∉ text := fun there => (plain 0 there).1 rfl

/-- The value of a flag, with where it ends. -/
theorem flag_arg_inside (inside : Inside line q) (do_no_arg : Bool) : ∃ value value_end,
    flag_arg do_no_arg q = .ok (value,value_end) ∧ Inside line value_end ∧ 0 ∉ value ∧ Escaped value := by
  unfold flag_arg
  split
  · refine ⟨[],q,rfl,inside,List.not_mem_nil,fun front c back split => ?_⟩
    exact absurd split.symm (List.append_ne_nil_of_right_ne_nil front (List.cons_ne_nil c back))
  · have start := inside.blanks
    have unescaped : false = true → isspace ((skip_spaces q).headD 0).toInt = true := by rintro ⟨⟩
    obtain ⟨value,value_end,read⟩ := flag_value_ends start.ends unescaped
    have text := flag_value_text read unescaped
    rw [flag_value_passes read] at start
    refine ⟨value,value_end,read,start.pass text,text,fun front c back split newline => ?_⟩
    rcases flag_value_escaped read split newline with ⟨_,none_⟩ | escaped
    · cases none_
    · exact escaped

theorem Plain.escaped {name value : List Int8} (plain : Plain name) (escaped : Escaped value) : Escaped (name ++ value) := by
  intro front c back split newline
  rcases List.append_eq_append_iff.mp split with ⟨more,rfl,value_split⟩ | ⟨more,name_split,rest⟩
  · obtain ⟨before,rfl⟩ := escaped more c back value_split newline
    exact ⟨name ++ before,by rw [List.append_assoc]⟩
  · cases more with
    | nil =>
      obtain ⟨before,none_⟩ := escaped [] c back rest.symm newline
      exact absurd none_.symm (List.append_ne_nil_of_right_ne_nil before (List.cons_ne_nil _ _))
    | cons d more =>
      obtain ⟨rfl,_⟩ := List.cons.inj rest
      exact absurd newline (plain c (by rw [name_split]; simp)).2

/-- A turn that does not end early stays inside, and what it adds has no end of a line in it but escaped ones. -/
theorem turn_inside (filename : List Int8) (line_no : Nat) (inside : Inside line p) (late : ¬EndsEarly p) :
    (∀ q ∈ turn_pointers filename line_no p,Inside line q) ∧
      ∀ flag q,scan_flag filename line_no p = .ok (flag,q) → Escaped flag ∧ Inside line q := by
  rcases flag_name_passes filename line_no late with ⟨name,name_end,do_no_arg,named,rfl,plain⟩ | ⟨failure,behind,stopped,rfl⟩
  · have behind := inside.pass (plain_zero plain)
    obtain ⟨value,value_end,valued,ended,text,escaped⟩ := flag_arg_inside behind do_no_arg
    constructor
    · intro q there
      rw [turn_pointers,named] at there
      dsimp only at there
      rw [valued] at there
      simp only [List.mem_cons,List.not_mem_nil,or_false] at there
      rcases there with rfl | rfl | rfl | rfl
      · exact inside
      · exact behind
      · exact ended
      · exact ended.blanks
    · intro flag q found
      unfold scan_flag at found
      rw [named] at found
      change (flag_arg do_no_arg name_end >>= _) = _ at found
      rw [valued] at found
      cases found
      have zero : 0 ∉ name ++ value := by
        rw [List.mem_append,not_or]
        exact ⟨plain_zero plain,text⟩
      rw [c_str_self zero]
      exact ⟨plain.escaped escaped,ended⟩
  · constructor
    · intro q' there
      rw [turn_pointers,stopped] at there
      dsimp only at there
      rcases List.mem_pair.mp there with rfl | rfl
      · exact inside
      · exact inside.pass (by decide)
    · intro flag q' found
      unfold scan_flag at found
      rw [stopped] at found
      cases found

/-- The turns of a line, one after the other. -/
theorem starts_inside (filename : List Int8) (line_no : Nat) {fuel : Nat} (inside : Inside line q)
    (late : ∀ p ∈ turn_starts filename line_no fuel q,¬EndsEarly p) :
    ∀ p ∈ turn_starts filename line_no fuel q,Inside line p := by
  induction fuel generalizing q with
  | zero => exact fun p there => absurd there List.not_mem_nil
  | succ fuel ih =>
    intro p there
    have start := inside.blanks
    rw [turn_starts] at there late
    cases rest : skip_spaces q with
    | nil =>
      rw [rest] at there
      cases there
    | cons c q' =>
      rw [rest] at there late start
      dsimp only at there late
      by_cases text : 0 = c
      · rw [if_pos text] at there
        cases there
      · rw [if_neg text] at there late
        have first := turn_inside filename line_no start (late _ List.mem_cons_self)
        rcases List.mem_cons.mp there with rfl | there
        · exact start
        · cases found : scan_flag filename line_no (c :: q') with
          | error failure =>
            rw [found] at there
            cases there
          | ok result =>
            obtain ⟨flag,after⟩ := result
            rw [found] at there late
            exact ih (first.2 flag after found).2 (fun p there => late p (List.mem_cons_of_mem _ there)) p there

end

/-- `fgets` stops behind the end of a line. -/
theorem cut_line_newline {room : Nat} {file front back : List Int8} {c : Int8}
    (split : (cut_line room file).1 = front ++ c :: back) (newline : chr '\n' = c.toInt) : back = [] := by
  induction room generalizing file front with
  | zero => exact absurd split.symm (List.append_ne_nil_of_right_ne_nil front (List.cons_ne_nil c back))
  | succ room ih =>
    cases file with
    | nil => exact absurd split.symm (List.append_ne_nil_of_right_ne_nil front (List.cons_ne_nil c back))
    | cons d file =>
      rw [cut_line] at split
      split at split
      · cases front with
        | nil => exact (List.cons.inj split).2.symm
        | cons first front =>
          exact absurd (List.cons.inj split).2.symm (List.append_ne_nil_of_right_ne_nil front (List.cons_ne_nil c back))
      · rename_i other
        cases front with
        | nil =>
          obtain ⟨rfl,_⟩ := List.cons.inj split
          exact absurd newline other
        | cons first front => exact ih (List.cons.inj split).2

theorem scan_loop_extracts (filename : List Int8) (line_no : Nat) {fuel : Nat} {p : List Int8} {flags : List (List Int8)}
    (scanned : scan_loop filename line_no fuel p = .ok flags) : flags =
      (turn_starts filename line_no fuel p).filterMap fun p => (scan_flag filename line_no p).toOption.map Prod.fst := by
  induction fuel generalizing p flags with
  | zero => cases scanned
  | succ fuel ih =>
    rw [turn_starts]
    cases rest : skip_spaces p with
    | nil =>
      rw [scan_loop,rest] at scanned
      cases scanned
    | cons c q =>
      dsimp only
      by_cases text : 0 = c
      · rw [scan_loop,rest] at scanned
        dsimp only at scanned
        rw [if_pos text] at scanned ⊢
        cases scanned
        rfl
      · rw [scan_loop_cons rest (Ne.symm text)] at scanned
        obtain ⟨⟨flag,after⟩,found,others⟩ := bind_ok_iff.mp scanned
        obtain ⟨more,rest_scanned,result⟩ := bind_ok_iff.mp others
        cases result
        rw [if_neg text,found,List.filterMap_cons,found,ih rest_scanned]
        rfl

theorem no_backslash {front : List Int8} (other : front.getLast? ≠ some 92) : ¬∃ before,front = before ++ lit "\\" := by
  rintro ⟨before,rfl⟩
  exact other List.getLast?_concat

/-- A turn that ends early passes the terminator or adds the end of the line. -/
theorem early_fails (filename : List Int8) (line_no : Nat) {file line rest p : List Int8}
    (read : fgets 65536 file = some (line,rest)) (inside : Inside line p) (early : EndsEarly p) :
    (∃ q ∈ turn_pointers filename line_no p,¬Inside line q) ∨
      ∃ flag q,scan_flag filename line_no p = .ok (flag,q) ∧ ¬Escaped flag := by
  -- The end of the line is the last character in front of the terminator.
  have last {front back : List Int8} (split : p = front ++ lit "\n" ++ back) : back = [0] := by
    obtain ⟨passed,parts,_⟩ := inside
    rw [split] at parts
    cases back using List.reverseRecOn with
    | nil =>
      rw [List.append_nil,← List.append_assoc] at parts
      exact absurd (List.append_inj_right' parts rfl) (by decide)
    | append_singleton back c =>
      have line_is : line = (passed ++ front) ++ 10 :: back := by
        have whole : line ++ [0] = ((passed ++ front) ++ 10 :: back) ++ [c] := by
          rw [parts,show lit "\n" = [10] from rfl]
          simp
        exact List.append_inj_left' whole rfl
      have end_is : c = 0 := by
        rw [← List.append_assoc,← List.append_assoc] at parts
        exact (List.cons.inj (List.append_inj_right' parts rfl)).1.symm
      unfold fgets at read
      split at read
      · cases read
      · have cut : cut_line 65535 file = (line,rest) := Option.some.inj read
        have line_cut : (cut_line 65535 file).1 = (passed ++ front) ++ 10 :: back := by rw [cut,line_is]
        rw [cut_line_newline line_cut rfl,end_is]
        rfl
  rcases early with ⟨q,rfl⟩ | ⟨q,rfl⟩ | ⟨q,rfl⟩
  · refine .inl ⟨q,?_,?_⟩
    · have named : flag_name filename line_no ([45,0] ++ q) = .ok ([45,0],q,false) := rfl
      rw [turn_pointers,named]
      exact List.mem_cons_of_mem _ List.mem_cons_self
    · rintro ⟨passed,parts,plain⟩
      obtain ⟨before,split,_⟩ := inside
      rw [split,← List.append_assoc] at parts
      rw [← List.append_cancel_right parts] at plain
      simp at plain
  · have behind : q = [0] := @last [45] q rfl
    subst behind
    refine .inr ⟨lit "-\n",[0],rfl,fun escaped => ?_⟩
    exact no_backslash (by decide) (escaped [45] 10 [] rfl rfl)
  · have behind : q = [0] := @last (lit "-framework") q rfl
    subst behind
    refine .inr ⟨lit "-framework\n",[0],rfl,fun escaped => ?_⟩
    exact no_backslash (by decide) (escaped (lit "-framework") 10 [] rfl rfl)

/-- The scanner stays in front of the terminator and finds no end of a line but escaped ones exactly where no flag is
    `-` at the end of the line, or `-framework` and the end of the line. -/
theorem scan_stays_iff (filename : List Int8) (line_no : Nat) {file line rest : List Int8}
    (read : fgets 65536 file = some (line,rest)) :
    (∀ flags,scan filename line_no line = .ok flags → flags = extracted filename line_no line) ∧
      ((∀ q ∈ pointers filename line_no line,Inside line q) ∧ (∀ flag ∈ extracted filename line_no line,Escaped flag) ↔
        ∀ p ∈ line_starts filename line_no line,¬EndsEarly p) := by
  refine ⟨fun flags scanned => scan_loop_extracts filename line_no scanned,?_⟩
  have start : Inside line (line ++ [0]) := ⟨[],rfl,List.not_mem_nil⟩
  constructor
  · rintro ⟨inside,escaped⟩ p there early
    have all (q : List Int8) (turn : q ∈ turn_pointers filename line_no p) : Inside line q :=
      inside q (List.mem_cons_of_mem _ (List.mem_flatMap.mpr ⟨p,there,turn⟩))
    rcases early_fails filename line_no read (all p List.mem_cons_self) early with
      ⟨q,turn,outside⟩ | ⟨flag,q,found,unescaped⟩
    · exact outside (all q turn)
    · refine unescaped (escaped flag (List.mem_filterMap.mpr ⟨p,there,?_⟩))
      rw [found]
      rfl
  · intro late
    have inside := starts_inside filename line_no start late
    constructor
    · intro q there
      rcases List.mem_cons.mp there with rfl | there
      · exact start.blanks
      · obtain ⟨p,p_there,turn⟩ := List.mem_flatMap.mp there
        exact (turn_inside filename line_no (inside p p_there) (late p p_there)).1 q turn
    · intro flag there
      obtain ⟨p,p_there,found⟩ := List.mem_filterMap.mp there
      cases result : scan_flag filename line_no p with
      | error failure =>
        rw [result] at found
        cases found
      | ok result' =>
        obtain ⟨text,q⟩ := result'
        rw [result] at found
        cases found
        exact ((turn_inside filename line_no (inside p p_there) (late p p_there)).2 text q result).1

/-- `-` is the value of `-I`, and no flag of its own. -/
theorem scan_stays_two : extracted [] 1 (lit "-framework Cocoa -I -\n") = [lit "-framework Cocoa",lit "-I-"] ∧
    ∀ q ∈ pointers [] 1 (lit "-framework Cocoa -I -\n"),Inside (lit "-framework Cocoa -I -\n") q := by
  have read : fgets 65536 (lit "-framework Cocoa -I -\n") = some (lit "-framework Cocoa -I -\n",[]) := by decide
  refine ⟨by decide,((scan_stays_iff [] 1 read).2.mpr ?_).1⟩
  decide

/-- The last character of a line is `-`, with the end of the line behind it and without. -/
theorem scan_stays_fails :
    fgets 65536 (lit "-\n") = some (lit "-\n",[]) ∧ extracted [] 1 (lit "-\n") = [lit "-\n"] ∧ ¬Escaped (lit "-\n") ∧
      fgets 65536 (lit "-") = some (lit "-",[]) ∧ [] ∈ pointers [] 1 (lit "-") ∧ ¬Inside (lit "-") [] := by
  refine ⟨by decide,by decide,fun escaped => ?_,by decide,by decide,fun inside => ?_⟩
  · exact no_backslash (by decide) (escaped [45] 10 [] rfl rfl)
  · exact absurd inside.ends List.not_mem_nil

end Htools.HconfMerge
