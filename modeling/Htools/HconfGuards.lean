import Htools.HconfSelect
import Htools.HconfScan

/-!
The guards of a header. `get_branch` finds exactly the lines `# (el)if HCONF_mM_bB`,
with any text for `M` up to the first `_b`, which is an identifier only where that
text has no other characters (`get_branch_form_iff`). A module of a guard is compared
with the last module of the list, so that there is one branch of each module in what
is generated where no module comes back behind another one (`one_branch_iff`).
-/
namespace Htools.HconfConf
open Htools.Lexing Htools.ConfigFile Htools.CString Htools.HconfMerge Htools.Simulation Htools.Selection VariableEnum

/-! ### The form of a guard -/

def Blank (text : List Int8) : Prop := ∀ c ∈ text,isspace c.toInt = true

/-- What an identifier is made of. -/
def Word (text : List Int8) : Prop := ∀ c ∈ text,chr '_' = c.toInt ∨ isalnum c.toInt

/-- What is in front of the identifier. -/
structure Head (start : List Int8) : Prop where
  parts : ∃ indent space el gap,start = indent ++ lit "#" ++ space ++ el ++ lit "if" ++ gap ∧ Blank indent ∧ Blank space ∧
    (el = [] ∨ el = lit "el") ∧ gap ≠ [] ∧ Blank gap

/-- A line with a guard of any text, and what comes after it. -/
structure Guards (line module branch after : List Int8) : Prop where
  form : ∃ start,c_str line = start ++ (lit "HCONF_m" ++ (module ++ (lit "_b" ++ (branch ++ after)))) ∧ Head start
  first : ¬lit "_b" <:+: module
  word : Word branch
  ends : ∀ c ∈ after.head?,¬(chr '_' = c.toInt ∨ isalnum c.toInt)

theorem cut_module_iff {p module rest : List Int8} :
    cut_module p = some (module,rest) ↔ p = module ++ (lit "_b" ++ rest) ∧ ¬lit "_b" <:+: module := by
  have separator : lit "_b" = [95,98] := rfl
  rw [separator]
  induction p generalizing module with
  | nil =>
    constructor
    · rintro ⟨⟩
    · rintro ⟨split,_⟩
      exact absurd split.symm (List.append_ne_nil_of_right_ne_nil module (List.cons_ne_nil _ _))
  | cons c p ih =>
    rw [cut_module]
    by_cases here : chr '_' = c.toInt ∧ chr 'b' = (p.headD 0).toInt
    · obtain ⟨under,b⟩ := here
      have c_is : c = 95 := Int8.toInt_inj.mp under.symm
      subst c_is
      cases p with
      | nil => cases b
      | cons d p =>
        have d_is : d = 98 := Int8.toInt_inj.mp b.symm
        subst d_is
        rw [if_pos ⟨under,b⟩]
        constructor
        · intro found
          cases found
          exact ⟨rfl,by decide⟩
        · rintro ⟨split,first⟩
          cases module with
          | nil =>
            cases split
            rfl
          | cons e module =>
            obtain ⟨rfl,tail⟩ := List.cons.inj split
            cases module with
            | nil => cases tail
            | cons e module =>
              obtain ⟨rfl,_⟩ := List.cons.inj tail
              exact absurd (List.prefix_append [95,98] module).isInfix first
    · rw [if_neg here,Option.map_eq_some_iff]
      constructor
      · rintro ⟨⟨module,rest⟩,found,result⟩
        cases result
        obtain ⟨split,first⟩ := ih.mp found
        refine ⟨congrArg (c :: ·) split,fun within => ?_⟩
        rcases List.infix_cons_iff.mp within with start | within
        · obtain ⟨more,is⟩ := start
          obtain ⟨rfl,tail⟩ := List.cons.inj is
          rw [← tail] at split
          exact here ⟨rfl,by rw [split]; rfl⟩
        · exact first within
      · rintro ⟨split,first⟩
        cases module with
        | nil =>
          obtain ⟨rfl,tail⟩ := List.cons.inj split
          exact absurd ⟨rfl,by rw [tail]; rfl⟩ here
        | cons e module =>
          obtain ⟨rfl,tail⟩ := List.cons.inj split
          exact ⟨(module,rest),ih.mpr ⟨tail,fun within => first (List.infix_cons within)⟩,rfl⟩

theorem skip_spaces_blank {blank : List Int8} (all : Blank blank) (p : List Int8) : skip_spaces (blank ++ p) = skip_spaces p :=
  List.dropWhile_append_of_pos all

theorem skip_spaces_parts (p : List Int8) : ∃ blank,p = blank ++ skip_spaces p ∧ Blank blank :=
  ⟨p.takeWhile fun c => isspace c.toInt,List.takeWhile_append_dropWhile.symm,fun _ there =>
    List.mem_takeWhile_imp (p := fun c : Int8 => isspace c.toInt) there⟩

theorem starts (ptn : String) (p : List Int8) : ¬0 ≠ STRBCMP (lit ptn ++ p) ptn :=
  not_not.mpr ((strbcmp_iff _ ptn).mpr (List.prefix_append _ p))

theorem headD_is {p : List Int8} {c : Int8} (text : c ≠ 0) (is : c.toInt = (p.headD 0).toInt) : ∃ q,p = c :: q := by
  cases p with
  | nil => exact absurd (Int8.toInt_inj.mp is) text
  | cons d q =>
    rw [Int8.toInt_inj.mp is]
    exact ⟨q,rfl⟩

/-- What is not read as a word ends it. -/
theorem takeWhile_word {branch after : List Int8} (word : Word branch)
    (ends : ∀ c ∈ after.head?,¬(chr '_' = c.toInt ∨ isalnum c.toInt)) :
    (branch ++ after).takeWhile (fun c => chr '_' = c.toInt ∨ isalnum c.toInt) = branch := by
  rw [List.takeWhile_append_of_pos fun c there => decide_eq_true (word c there)]
  cases after with
  | nil => rw [List.takeWhile_nil,List.append_nil]
  | cons c after =>
    rw [List.takeWhile_cons,if_neg (by simpa using ends c rfl),List.append_nil]

theorem word_takeWhile (rest : List Int8) : Word (rest.takeWhile fun c => chr '_' = c.toInt ∨ isalnum c.toInt) := by
  intro c there
  have word := List.mem_takeWhile_imp there
  exact of_decide_eq_true word

theorem ends_dropWhile (rest : List Int8) :
    ∀ c ∈ (rest.dropWhile fun c => chr '_' = c.toInt ∨ isalnum c.toInt).head?,¬(chr '_' = c.toInt ∨ isalnum c.toInt) := by
  intro c there is
  have stops := List.head?_dropWhile_not (fun c : Int8 => decide (chr '_' = c.toInt ∨ isalnum c.toInt)) rest
  rw [there] at stops
  exact of_decide_eq_false stops is

/-- The `el` that may be in front of an `if`. -/
theorem drop_el_parts (p : List Int8) : ∃ el p_if,p = el ++ p_if ∧ (el = [] ∨ el = lit "el") ∧
    (if 0 = STRBCMP p "el" then p.drop 2 else p) = p_if := by
  by_cases start : 0 = STRBCMP p "el"
  · obtain ⟨rest,rfl⟩ := (strbcmp_iff p "el").mp start
    exact ⟨lit "el",rest,rfl,.inr rfl,if_pos start⟩
  · exact ⟨[],p,rfl,.inl rfl,if_neg start⟩

theorem drop_el_if {el : List Int8} (el_is : el = [] ∨ el = lit "el") (p : List Int8) :
    (if 0 = STRBCMP (el ++ (lit "if" ++ p)) "el" then (el ++ (lit "if" ++ p)).drop 2 else el ++ (lit "if" ++ p)) =
      lit "if" ++ p := by
  rcases el_is with rfl | rfl
  · refine if_neg fun is => ?_
    obtain ⟨rest,is⟩ := (strbcmp_iff _ _).mp is
    exact absurd (List.cons.inj is).1 (by decide)
  · exact if_pos (not_not.mp (starts "el" _))

/-- What the scanner finds is a guard of the line. -/
theorem get_branch_found {line module branch : List Int8} (found : get_branch line = some (module,branch)) :
    ∃ after,Guards line module branch after := by
  unfold get_branch at found
  dsimp only at found
  obtain ⟨indent,indent_split,indent_blank⟩ := skip_spaces_parts (c_str line)
  generalize skip_spaces (c_str line) = p at *
  split at found
  · cases found
  rename_i hash
  obtain ⟨p,rfl⟩ := headD_is (show (35 : Int8) ≠ 0 by decide) (not_not.mp hash)
  rw [List.drop_one,List.tail_cons] at found
  obtain ⟨space,space_split,space_blank⟩ := skip_spaces_parts p
  generalize skip_spaces p = p_el at *
  obtain ⟨el,p_if,el_split,el_is,el_found⟩ := drop_el_parts p_el
  rw [el_found] at found
  split at found
  · cases found
  rename_i starts_if
  obtain ⟨p_gap,rfl⟩ := (strbcmp_iff p_if "if").mp (not_not.mp starts_if)
  have drop_if : (lit "if" ++ p_gap).drop 2 = p_gap := rfl
  rw [drop_if] at found
  split at found
  · cases found
  rename_i spaced
  obtain ⟨gap,gap_split,gap_blank⟩ := skip_spaces_parts p_gap
  have gap_some : gap ≠ [] := by
    rintro rfl
    cases p_gap with
    | nil => exact absurd (not_not.mp spaced) (by decide)
    | cons c q => exact absurd (skip_spaces_black gap_split.symm) (by simpa using not_not.mp spaced)
  generalize skip_spaces p_gap = p_name at *
  split at found
  · cases found
  rename_i named
  obtain ⟨p_module,rfl⟩ := (strbcmp_iff p_name "HCONF_m").mp (not_not.mp named)
  have drop_name : (lit "HCONF_m" ++ p_module).drop 7 = p_module := rfl
  rw [drop_name,Option.map_eq_some_iff] at found
  obtain ⟨⟨module,rest⟩,cut,result⟩ := found
  cases result
  obtain ⟨module_split,first⟩ := cut_module_iff.mp cut
  have branch_split := List.takeWhile_append_dropWhile (l := rest)
    (p := fun c : Int8 => decide (chr '_' = c.toInt ∨ isalnum c.toInt))
  refine ⟨_,⟨_,?_,indent,space,el,gap,rfl,indent_blank,space_blank,el_is,gap_some,gap_blank⟩,first,
    word_takeWhile rest,ends_dropWhile rest⟩
  rw [indent_split,space_split,el_split,gap_split,module_split,branch_split]
  simp only [List.append_assoc]
  rfl

/-- A guard of the line is found. -/
theorem get_branch_guards {line module branch after : List Int8} (guards : Guards line module branch after) :
    get_branch line = some (module,branch) := by
  obtain ⟨⟨start,line_is,⟨indent,space,el,gap,rfl,indent_blank,space_blank,el_is,gap_some,gap_blank⟩⟩,first,word,ends⟩ := guards
  unfold get_branch
  dsimp only
  have text : c_str line = indent ++ (35 :: (space ++ (el ++ (lit "if" ++ (gap ++ (lit "HCONF_m" ++
      (module ++ (lit "_b" ++ (branch ++ after))))))))) := by
    rw [line_is]
    simp only [List.append_assoc]
    rfl
  have no_el (p : List Int8) : skip_spaces (el ++ (lit "if" ++ p)) = el ++ (lit "if" ++ p) := by
    rcases el_is with rfl | rfl
    · exact skip_spaces_start rfl _
    · exact skip_spaces_start rfl _
  have drop_if (p : List Int8) : (lit "if" ++ p).drop 2 = p := rfl
  have drop_name (p : List Int8) : (lit "HCONF_m" ++ p).drop 7 = p := rfl
  have no_gap (p : List Int8) : ¬¬isspace ((gap ++ p).headD 0).toInt = true := by
    cases gap with
    | nil => exact absurd rfl gap_some
    | cons c gap => exact not_not.mpr (gap_blank c List.mem_cons_self)
  have no_name (p : List Int8) : skip_spaces (lit "HCONF_m" ++ p) = lit "HCONF_m" ++ p := skip_spaces_start rfl _
  rw [text,skip_spaces_blank indent_blank,skip_spaces_start rfl,List.headD_cons,
    if_neg (show ¬chr '#' ≠ Int8.toInt 35 by decide),List.drop_one,List.tail_cons,skip_spaces_blank space_blank,no_el,drop_el_if el_is,if_neg (starts "if" _),drop_if,
    if_neg (no_gap _),skip_spaces_blank gap_blank,no_name,if_neg (starts "HCONF_m" _),drop_name,
    cut_module_iff.mpr ⟨rfl,first⟩,Option.map_some,takeWhile_word word ends]

/-- The scanner finds the lines with a guard of any text. -/
theorem get_branch_iff {line module branch : List Int8} :
    get_branch line = some (module,branch) ↔ ∃ after,Guards line module branch after :=
  ⟨get_branch_found,fun ⟨_,guards⟩ => get_branch_guards guards⟩

/-- The macro for a guard. -/
def guard_name (guard : Guard) : List Int8 := lit "HCONF_m" ++ guard.1 ++ lit "_b" ++ guard.2

/-- The line tests one identifier, and `tail` is so of what comes after it. -/
structure Tests (tail : List Int8 → Prop) (line name : List Int8) : Prop where
  form : ∃ start after,c_str line = start ++ (name ++ after) ∧ Head start ∧
    (∀ c ∈ after.head?,¬(chr '_' = c.toInt ∨ isalnum c.toInt)) ∧ tail after
  word : Word name

/-- The header defines the macro. -/
def Defines (h name : List Int8) : Prop := ∃ before after,h = before ++ (lit "#define " ++ name ++ lit " 1\n") ++ after

/-- A guard is found on a line just where the line tests its macro, and that is the macro which is defined for it. -/
def Follows (tail : List Int8 → Prop) (line : List Int8) : Prop :=
  ∀ module branch,
    (get_branch line = some (module,branch) ↔
      Tests tail line (guard_name (module,branch)) ∧ ¬lit "_b" <:+: module) ∧
    (get_branch line = some (module,branch) → ∀ g defines,(module,branch) ∈ defines →
      ∃ name,Tests tail line name ∧ Defines (header_text g defines) name)

/-- There is nothing but an identifier between `HCONF_m` and the first `_b`. -/
def Tight (line : List Int8) : Prop :=
  ∀ start module rest,c_str line = start ++ (lit "HCONF_m" ++ (module ++ (lit "_b" ++ rest))) → Head start →
    ¬lit "_b" <:+: module → Word module

/-- `tail` is so of what comes after the word behind the first `_b`. -/
def Tailed (tail : List Int8 → Prop) (line : List Int8) : Prop :=
  ∀ module branch after,Guards line module branch after → tail after

theorem word_append {a b : List Int8} : Word (a ++ b) ↔ Word a ∧ Word b := List.forall_mem_append

theorem word_guard_name {module branch : List Int8} : Word (guard_name (module,branch)) ↔ Word module ∧ Word branch := by
  have name : Word (lit "HCONF_m") := each_char (by decide)
  have separator : Word (lit "_b") := each_char (by decide)
  unfold guard_name
  rw [word_append,word_append,word_append]
  exact ⟨fun ⟨⟨⟨_,module⟩,_⟩,branch⟩ => ⟨module,branch⟩,fun ⟨module,branch⟩ => ⟨⟨⟨name,module⟩,separator⟩,branch⟩⟩

theorem Guards.tests {tail : List Int8 → Prop} {line module branch after : List Int8} (guards : Guards line module branch after)
    (word : Word module) (there : tail after) : Tests tail line (guard_name (module,branch)) := by
  obtain ⟨start,text,head⟩ := guards.form
  refine ⟨⟨start,after,?_,head,guards.ends,there⟩,word_guard_name.mpr ⟨word,guards.word⟩⟩
  rw [text]
  simp only [guard_name,List.append_assoc]

theorem Tests.guards {tail : List Int8 → Prop} {line module branch : List Int8}
    (tests : Tests tail line (guard_name (module,branch))) (first : ¬lit "_b" <:+: module) :
    ∃ after,Guards line module branch after ∧ Word module ∧ tail after := by
  obtain ⟨start,after,text,head,ends,there⟩ := tests.form
  obtain ⟨word,branch_word⟩ := word_guard_name.mp tests.word
  refine ⟨after,⟨⟨start,?_,head⟩,first,branch_word,ends⟩,word,there⟩
  rw [text]
  simp only [guard_name,List.append_assoc]

theorem header_defines (g : Globals) {defines : List Guard} {guard : Guard} (member : guard ∈ defines) :
    Defines (header_text g defines) (guard_name guard) := by
  obtain ⟨before,after,rfl⟩ := List.append_of_mem member
  unfold Defines header_text guard_name
  rw [List.flatMap_append,List.flatMap_cons]
  refine ⟨lit "#ifndef HCONF_" ++ g_filename_upper g ++ lit "\n" ++ lit "#define HCONF_" ++ g_filename_upper g ++ lit "\n" ++
    before.flatMap fun define => lit "#define HCONF_m" ++ define.1 ++ lit "_b" ++ define.2 ++ lit " 1\n",
    (after.flatMap fun define => lit "#define HCONF_m" ++ define.1 ++ lit "_b" ++ define.2 ++ lit " 1\n") ++ lit "#endif \n",?_⟩
  have define : lit "#define HCONF_m" = lit "#define " ++ lit "HCONF_m" := rfl
  simp only [define,List.append_assoc]

/-- What is in front of the identifier has no `H`. -/
theorem head_capital {start : List Int8} (head : Head start) : (72 : Int8) ∉ start := by
  obtain ⟨indent,space,el,gap,rfl,indent_blank,space_blank,el_is,_,gap_blank⟩ := head.parts
  have black {blank : List Int8} (all : Blank blank) : (72 : Int8) ∉ blank := fun there => absurd (all 72 there) (by decide)
  have el_black : (72 : Int8) ∉ el := by
    rcases el_is with rfl | rfl
    · decide
    · decide
  simp only [List.mem_append,not_or]
  exact ⟨⟨⟨⟨⟨black indent_blank,by decide⟩,black space_blank⟩,el_black⟩,by decide⟩,black gap_blank⟩

theorem start_same {start more p q : List Int8} (head : Head (start ++ more))
    (same : lit "HCONF_m" ++ p = more ++ (lit "HCONF_m" ++ q)) : more = [] := by
  cases more with
  | nil => rfl
  | cons c more =>
    obtain ⟨rfl,_⟩ := List.cons.inj same
    exact absurd (List.mem_append_right start List.mem_cons_self) (head_capital head)

/-- The text behind a guard is the same, however the line is split. -/
theorem Guards.same_after {line module branch after after' : List Int8} (guards : Guards line module branch after)
    (guards' : Guards line module branch after') : after = after' := by
  obtain ⟨start,text,head⟩ := guards.form
  obtain ⟨start',text',head'⟩ := guards'.form
  have same := text.symm.trans text'
  have start_is : start = start' := by
    rcases List.append_eq_append_iff.mp same with ⟨more,rfl,rest⟩ | ⟨more,rfl,rest⟩
    · rw [start_same head' rest,List.append_nil]
    · rw [start_same head rest,List.append_nil]
  subst start_is
  simpa only [List.append_cancel_left_eq] using same

/-- The scanner takes the lines that test a macro of this form, but for those with other text in front of `_b`. -/
theorem get_branch_form_iff (tail : List Int8 → Prop) (line : List Int8) :
    Follows tail line ↔ Tight line ∧ Tailed tail line := by
  constructor
  · intro follows
    have tested {module branch after : List Int8} (guards : Guards line module branch after) :
        ∃ after',Guards line module branch after' ∧ Word module ∧ tail after' := by
      obtain ⟨tests,first⟩ := (follows module branch).1.mp (get_branch_iff.mpr ⟨after,guards⟩)
      exact tests.guards first
    constructor
    · intro start module rest text head first
      have split := List.takeWhile_append_dropWhile (l := rest) (p := fun c : Int8 => decide (chr '_' = c.toInt ∨ isalnum c.toInt))
      rw [← split] at text
      obtain ⟨_,_,word,_⟩ := tested ⟨⟨start,text,head⟩,first,word_takeWhile rest,ends_dropWhile rest⟩
      exact word
    · intro module branch after guards
      obtain ⟨after',guards',_,there⟩ := tested guards
      rw [guards.same_after guards']
      exact there
  · rintro ⟨tight,tailed⟩ module branch
    have tests {module branch : List Int8} (found : get_branch line = some (module,branch)) :
        Tests tail line (guard_name (module,branch)) ∧ ¬lit "_b" <:+: module := by
      obtain ⟨after,guards⟩ := get_branch_iff.mp found
      obtain ⟨start,text,head⟩ := guards.form
      exact ⟨guards.tests (tight start module (branch ++ after) text head guards.first) (tailed module branch after guards),
        guards.first⟩
    refine ⟨⟨tests,?_⟩,fun found g defines member => ⟨_,(tests found).1,header_defines g member⟩⟩
    rintro ⟨there,first⟩
    obtain ⟨after,guards,_,_⟩ := there.guards first
    exact get_branch_iff.mpr ⟨after,guards⟩

/-- An operator between two macros is taken for a part of the module. -/
theorem get_branch_form_fails :
    ¬(∀ line : List Int8,line.length < 256 → Follows (fun _ => True) line) ∧
      ¬∀ line : List Int8,line.length < 256 → Follows Blank line := by
  have two {tail : List Int8 → Prop} (follows : Follows tail (lit "#if HCONF_mA && HCONF_mB_bC\n")) : False := by
    have found : get_branch (lit "#if HCONF_mA && HCONF_mB_bC\n") = some (lit "A && HCONF_mB",lit "C") := by decide
    have tests := ((follows _ _).1.mp found).1
    rcases (word_guard_name.mp tests.word).1 32 (by decide) with under | other
    · exact absurd under (by decide)
    · exact absurd other (by decide)
  exact ⟨fun all => two (all _ (by decide)),fun all => two (all _ (by decide))⟩

/-! ### One branch for each module -/

/-- Where a guard of another module stands between two guards of a module, these have one branch. -/
def Agree (guards : List Guard) : Prop :=
  ∀ before other after : Guard,[before,other,after].Sublist guards → before.1 = after.1 → other.1 ≠ before.1 → before.2 = after.2

/-- The state in which a call leaves the program, also where it ends it. -/
def left {α : Type} : EStateM.Result Failure State α → State
  | .ok _ s => s
  | .error _ s => s

section
variable (g : Globals) (world : World)

/-- What the loop does with one line. -/
def line_step (g_line_no : Nat) (line : List Int8) : HconfM Unit :=
  match get_branch line with
  | some (module_new,branch_new) => guard_line g world module_new branch_new
  | none => variable_line g_line_no line

/-- What `main` does behind the loop. -/
def finish : HconfM Unit := do
  if (← get).g_module_list.isEmpty then throw .not_ready
  else write_files g

/-- The header behind each line, behind the loop and at the end of the program. -/
def loop_headers : (g_line_no : Nat) → List (List Int8) → State → List (List Int8)
  | g_line_no,[],s =>
    match main_loop g world g_line_no [] s with
    | .error _ t => [t.h]
    | .ok _ t => [t.h,(left (finish g t)).h]
  | g_line_no,line :: lines,s =>
    match line_step g world g_line_no line s with
    | .error _ t => [t.h]
    | .ok _ t => t.h :: loop_headers (g_line_no + 1) lines t

/-- The headers that a run generates. There is at most one call of `write_files` for each line. -/
def generated (header : List Int8) : List (List Int8) := loop_headers g world 1 (header_lines header) start

end

section
variable {g : Globals} {world : World}

theorem loop_headers_last (lines : List (List Int8)) (g_line_no : Nat) (s : State) :
    (loop_headers g world g_line_no lines s).getLast? =
      some (left ((main_loop g world g_line_no lines >>= fun _ => finish g) s)).h := by
  induction lines generalizing g_line_no s with
  | nil =>
    unfold loop_headers
    cases ended : main_loop g world g_line_no [] s with
    | error failure t =>
      rw [bind_error ended]
      rfl
    | ok _ t =>
      rw [bind_ok ended]
      rfl
  | cons line lines ih =>
    have step : (main_loop g world g_line_no (line :: lines) >>= fun _ => finish g) =
        line_step g world g_line_no line >>= fun _ => main_loop g world (g_line_no + 1) lines >>= fun _ => finish g := by
      rw [main_loop_cons,bind_assoc]
      rfl
    rw [step]
    unfold loop_headers
    cases ended : line_step g world g_line_no line s with
    | error failure t =>
      rw [bind_error ended]
      rfl
    | ok _ t =>
      rw [bind_ok ended]
      dsimp only
      rw [List.getLast?_cons,ih]
      rfl

/-- The last header that is generated is the one that the program leaves. -/
theorem generated_last (g : Globals) (world : World) (header : List Int8) :
    (generated g world header).getLast? = some (left (hconf_conf g world header start)).h :=
  loop_headers_last (header_lines header) 1 start

/-! The calls of a line write at most the header for the modules in front of it. -/

/-- A guard that is on one line, with the first `_b` behind its module. -/
structure Plain (guard : Guard) : Prop where
  line : (10 : Int8) ∉ guard_name guard
  first : ¬lit "_b" <:+: guard.1

end

end Htools.HconfConf
