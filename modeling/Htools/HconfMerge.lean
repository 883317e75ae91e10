import Htools.CString
import Htools.Selection

/-!
Merging hconf files (`hgmake/common.c`, `hgmake/hconf_merge.c`). An hconf file
has a line for each output variable; `merge` cuts the lines into flags, removes
duplicates by a rule for each variable, and joins what is left.
-/
namespace Htools.HconfMerge
open Htools.Lexing Htools.ConfigFile Htools.CString Htools.TailqSort Htools.Selection

/-- How the programs of `hgmake` end before they are done: with a message and
    `EXIT_FAILURE`, or where C does not say what happens. -/
inductive Failure where
  /-- `fopen(%s, rb)` with the reason of the system. -/
  | fopen (filename : List Int8)
  /-- `%s:%d: Funny -framework flag.` -/
  | funny_framework (filename : List Int8) (line_no : Nat)
  /-- `%s: Corrupt hconf.` -/
  | corrupt_hconf (filename : List Int8)
  /-- `%s: %s failed, check log %s.`, for the module. -/
  | module_failed (name : List Int8)
  /-- `%s:%d: Variable missing value.` -/
  | missing_value (line_no : Nat)
  /-- `%s:%d: Variable missing end of comment.` -/
  | missing_end (line_no : Nat)
  /-- `%s: Didn't echo %d expected variables.` -/
  | missing_echo
  /-- `%s: Is this file ready for hconf?` -/
  | not_ready
  /-- A failed assertion. -/
  | abort
  /-- A read behind what was written, or through the null pointer. -/
  | fault
  /-- A loop has not ended within its fuel. -/
  | fuel
  deriving DecidableEq, Repr

inductive VariableEnum where
  | VAR_CC
  | VAR_CPPFLAGS
  | VAR_CFLAGS
  | VAR_LDFLAGS
  | VAR_LIBS
  deriving DecidableEq, Repr

open VariableEnum

/-- The `VAR_OUTPUT_NUM` variables in their order. -/
def VAR_OUTPUT : List VariableEnum := [VAR_CC,VAR_CPPFLAGS,VAR_CFLAGS,VAR_LDFLAGS,VAR_LIBS]

/-- `struct Bucket`, with `VAR_SRC` on its own; none is the null pointer. -/
structure Bucket where
  var : VariableEnum → Option (List Int8)
  src : Option (List Int8)
  do_link : Bool
  do_exec : Bool

/-- A file by its name; it has no content where it cannot be opened. -/
structure HconfFile where
  filename : List Int8
  content : Option (List Int8)

def cat_str (a_dst : Option (List Int8)) (a_src : List Int8) : Option (List Int8) := some (a_dst.getD [] ++ a_src)

/-! The flag scanner. It gets the line as it is in memory, with the terminator. -/

def skip_spaces (p : List Int8) : List Int8 := p.dropWhile fun c => isspace c.toInt

/-- The loop over the characters of a value; it has passed a blank behind a backslash where `escaped` is set. -/
def flag_value : (escaped : Bool) → List Int8 → Except Failure (List Int8 × List Int8)
  | _,[] => .error .fault
  | true,c :: p => do
    let (value,p) ← flag_value false p
    return (c :: value,p)
  | false,c :: p =>
    if 0 = c ∨ isspace c.toInt then .ok ([],c :: p)
    else do
      let (value,p) ← flag_value (chr '\\' = c.toInt ∧ isspace (p.headD 0).toInt) p
      return (c :: value,p)

/-- From `name_start` to `name_end`, and whether there can be a value. -/
def flag_name (filename : List Int8) (line_no : Nat) (p : List Int8) :
    Except Failure (List Int8 × List Int8 × Bool) :=
  if 0 = STRBCMP p "-framework" then
    match p.drop 10 with
    | [] => .error .fault
    | c :: _ => if isspace c.toInt then .ok (p.take 11,p.drop 11,false) else .error (.funny_framework filename line_no)
  else if chr '-' = (p.headD 0).toInt then
    let c := (p.drop 2).headD 0
    let do_no_arg : Bool := 0 = STRBCMP p "-W" ∧ (0 = c ∨ isspace c.toInt)
    .ok (p.take 2,p.drop 2,do_no_arg)
  else .ok ([],p,false)

/-- From `value_start` to `value_end`. -/
def flag_arg (do_no_arg : Bool) (p : List Int8) : Except Failure (List Int8 × List Int8) :=
  if do_no_arg then .ok ([],p) else flag_value false (skip_spaces p)

/-- One turn of the scanner, at the first character of a flag. -/
def scan_flag (filename : List Int8) (line_no : Nat) (p : List Int8) : Except Failure (List Int8 × List Int8) := do
  let (name,p,do_no_arg) ← flag_name filename line_no p
  let (value,p) ← flag_arg do_no_arg p
  return (c_str (name ++ value),p)

def scan_loop (filename : List Int8) (line_no : Nat) : (fuel : Nat) → List Int8 → Except Failure (List (List Int8))
  | 0,_ => .error .fuel
  | fuel + 1,p =>
    match skip_spaces p with
    | [] => .error .fault
    | c :: p =>
      if 0 = c then .ok []
      else do
        let (flag,p) ← scan_flag filename line_no (c :: p)
        let flags ← scan_loop filename line_no fuel p
        return flag :: flags

/-- The flags of a line. -/
def scan (filename : List Int8) (line_no : Nat) (line : List Int8) : Except Failure (List (List Int8)) :=
  scan_loop filename line_no (line.length + 2) (line ++ [0])

/-- The flags of each variable. -/
abbrev FlagLists := VariableEnum → List (List Int8)

/-- The loop over the lines of a file, for the variables that are left. -/
def read_lines (filename : List Int8) : (line_no : Nat) → List VariableEnum → List Int8 → Except Failure FlagLists
  | _,[],file =>
    match fgets 65536 file with
    | none => .ok fun _ => []
    | some _ => .error (.corrupt_hconf filename)
  | line_no,i :: rest,file =>
    match fgets 65536 file with
    | none => .error (.corrupt_hconf filename)
    | some (line,file) => do
      let flags ← scan filename line_no line
      let lists ← read_lines filename (line_no + 1) rest file
      return Function.update lists i flags

def read_file (file : HconfFile) : Except Failure FlagLists :=
  match file.content with
  | none => .error (.fopen file.filename)
  | some content => read_lines file.filename 1 VAR_OUTPUT content

/-- The flags of a file after those of the older files; its `-l` flags go in front of the older ones. -/
def concat (old new : FlagLists) : FlagLists := fun i => if VAR_LIBS = i then new i ++ old i else old i ++ new i

/-- The loop over the files. -/
def read_files : FlagLists → List HconfFile → Except Failure FlagLists
  | flag_list,[] => .ok flag_list
  | flag_list,file :: a_argv => do
    let lists ← read_file file
    read_files (concat flag_list lists) a_argv

/-! The rules for duplicates. -/

/-- Each flag in turn removes its duplicates from the flags after it. -/
def remove_dups : (rounds : Nat) → List (List Int8) → List (List Int8)
  | rounds + 1,flag :: flags => flag :: remove_dups rounds (flags.filter fun next => 0 ≠ strcmp flag next)
  | _,flags => flags

/-- A flag with its place in `original_list`. -/
abbrev Flag := List Int8 × Nat

def cmp (a_l a_r : Flag) : Int := strcmp a_l.1 a_r.1

/-- `-D` and the macro name. -/
def dname_len (str : List Int8) : Nat :=
  2 + ((str.drop 2).takeWhile fun c => chr '_' = c.toInt ∨ isalnum c.toInt).length

/-- Whether `prev` stays, at the flag after it. -/
def do_write_prev (flag prev : List Int8) (prev_dname_len : Nat) : Bool :=
  if 0 = STRBCMP flag "-D" then dname_len flag ≠ prev_dname_len ∨ 0 ≠ strncmp flag prev (dname_len flag)
  else 0 ≠ strcmp flag prev

/-- The loop over the sorted list, which leaves the flags to write in `original_list`. -/
def walk : (prev : Option Flag) → (prev_dname_len : Nat) → (flag_list original_list : List Flag) → List Flag
  | _,_,[],original_list => original_list
  | prev,prev_dname_len,flag :: flag_list,original_list =>
    let original_list :=
      match prev with
      | none => original_list
      | some prev => if do_write_prev flag.1 prev.1 prev_dname_len then original_list else original_list.erase prev
    walk (some flag) (if 0 = STRBCMP flag.1 "-D" then dname_len flag.1 else prev_dname_len) flag_list original_list

def merge_cppflags (flags : List (List Int8)) : List (List Int8) :=
  (walk none 0 (tailq_sort cmp flags.zipIdx flags.length) flags.zipIdx).map Prod.fst

/-- What is left of the flags of a variable. -/
def select (i : VariableEnum) (flags : List (List Int8)) : List (List Int8) :=
  match i with
  | VAR_CPPFLAGS => merge_cppflags flags
  | VAR_CFLAGS => (remove_dups flags.length flags.reverse).reverse
  | _ => remove_dups flags.length flags

/-- The flags that are written for each variable. -/
def merge_flags (a_argv : List HconfFile) : Except Failure FlagLists := do
  let flag_list ← read_files (fun _ => []) a_argv
  return fun i => select i (flag_list i)

/-- The loops that write the flags of a variable. -/
def join (flags : List (List Int8)) : Option (List Int8) :=
  flags.foldl (fun var flag => cat_str (cat_str var flag) (lit " ")) none

def merge (a_bucket : Bucket) (a_argv : List HconfFile) : Except Failure Bucket := do
  let flags ← merge_flags a_argv
  return { a_bucket with var := fun i => join (flags i) }

/-- `NULL == var ? "" : var`, a line for each variable. -/
def bucket_lines (bucket : Bucket) : List Int8 :=
  VAR_OUTPUT.flatMap fun i => (bucket.var i).getD [] ++ lit "\n"

end Htools.HconfMerge
