import Htools.HconfMerge
import Htools.Simulation
import Mathlib.Data.List.DropRight

/-!
The program `hgmake/hconf_conf.c`. It reads a header line by line, tries the
branches that the header has for each module, and writes the header and the
hconf file that select one branch for each module. A branch is tried when the
next guard or the end of the file is seen. What the shell, the compiler and
the tests do is an input, for each trial of the run.
-/
namespace Htools.HconfConf
open Htools.Lexing Htools.ConfigFile Htools.CString Htools.HconfMerge Htools.Simulation VariableEnum

/-- How a process ends, for `waitpid`. -/
inductive Status where
  | exited (status : UInt8)
  | signaled (signal : Nat)
  deriving DecidableEq, Repr

/-- `WIFEXITED(status) && 0 == WEXITSTATUS(status)`. -/
def Status.normal : Status → Bool
  | .exited status => status = 0
  | .signaled _ => false

/-- A process, with its output in the pieces that `read` returns. -/
structure Process where
  output : List (List Int8)
  status : Status
  deriving DecidableEq, Repr

/-- What happens outside of the program in each trial of a run: the output of the
    variable script, the two builds, and the end of the test. -/
structure World where
  echo : Nat → (script : List Int8) → List Int8
  compile : Nat → (script : List Int8) → Process
  link : Nat → (script : List Int8) → Process
  test : Nat → Status

structure Variable where
  expr : List Int8
  line_no : Nat

structure Branch where
  is_ok : Bool
  name : List Int8
  var_list : List Variable
  bucket : Bucket

/-- `struct Module`; none is the null pointer. -/
structure Module where
  name : List Int8
  branch : Option Branch

/-- What one call of `try` has done. The program does not keep it, but for its log. -/
structure Trial where
  module : List Int8
  branch : List Int8
  resolved : VariableEnum → List Int8
  passed : Bool

/-- The global variables that do not change. -/
structure Globals where
  g_out_dir : List Int8
  g_filename : List Int8
  g_filename_h : List Int8
  g_hconf_base : Option HconfFile

/-- The module list, the contents of `g_filename_h` and `g_filename_hconf`, and the trials so far. -/
structure State where
  g_module_list : List Module
  h : List Int8
  hconf : List Int8
  trials : List Trial

abbrev HconfM := EStateM Failure State

/-- A call that does not change the global variables. -/
def call {α : Type} (result : Except Failure α) : HconfM α :=
  match result with
  | .ok a => pure a
  | .error failure => throw failure

/-- What `calloc` gives for a bucket. -/
def no_bucket : Bucket := ⟨fun _ => none,none,false,false⟩

/-- The text that `strctv_` joins; null pointers count as nothing. -/
def strctv_ (texts : List (Option (List Int8))) : List Int8 := texts.flatMap fun text => text.getD []

section
variable (g : Globals)

def g_filename_hconf : List Int8 := g.g_filename_h ++ lit ".hconf"

def g_filename_main_bin : List Int8 := g.g_out_dir ++ lit "/_hconf/main.bin"

def g_filename_main_c : List Int8 := g.g_filename_h ++ lit ".main.c"

def g_filename_o : List Int8 := g.g_filename_h ++ lit ".o"

def g_filename_upper : List Int8 :=
  g.g_filename.map fun c =>
    if chr 'a' ≤ c.toInt ∧ c.toInt ≤ chr 'z' then c - 32
    else if isalnum c.toInt then c
    else Int8.ofInt (chr '_')

/-! `build` and `try`. -/

/-- The loop over a piece of the output. -/
def count_lines (line_no : Int32) (buf : List Int8) : Int32 :=
  (c_str buf).foldl (fun line_no c => if chr '\n' = c.toInt then line_no + 1 else line_no) line_no

def build_script (a_out a_in : List Int8) (a_cc : Option (List Int8)) (a_cppflags : List Int8)
    (a_cflags a_ldflags a_libs : Option (List Int8)) : List Int8 :=
  strctv_ [a_cc,lit " ",a_cppflags,lit " ",a_cflags,lit " -o ",a_out,lit " ",a_in,lit " ",a_ldflags,lit " ",a_libs]

/-- What `build` returns for the process that runs its script. -/
def build (process : Process) : Int32 :=
  let line_no := process.output.foldl count_lines 0
  if process.status.normal then 0 else line_no

/-- The suffix of the text that begins with `ptn`. -/
def strstr (ptn : List Int8) : List Int8 → Option (List Int8)
  | [] => if ptn = [] then some [] else none
  | c :: text => if ptn <+: c :: text then some (c :: text) else strstr ptn text

/-- The text behind the first `=`. -/
def value_of (expr : List Int8) : Except Failure (List Int8) :=
  match expr.dropWhile fun c => chr '=' ≠ c.toInt with
  | [] => .error .abort
  | _ :: value => .ok value

/-- The loop over the variables, with the script so far. -/
def resolve_loop : List Variable → Bucket → List Int8 → Except Failure (Bucket × List Int8)
  | [],bucket,script => .ok (bucket,script)
  | var :: var_list,bucket,script =>
    if 0 = STRBCMP var.expr "HCONF_SRC" then do
      let value ← value_of var.expr
      resolve_loop var_list { bucket with src := cat_str bucket.src value } script
    else if 0 = STRBCMP var.expr "HCONF_OPT" then do
      let value ← value_of var.expr
      resolve_loop var_list
        { bucket with
          do_link := bucket.do_link && (strstr (lit "nolink") value).isNone
          do_exec := bucket.do_exec && (strstr (lit "noexec") value).isNone }
        script
    else resolve_loop var_list bucket (script ++ var.expr ++ lit " # " ++ lit (toString var.line_no) ++ lit "\n")

/-- The loop over the lines that the script has written, for the variables that are left. -/
def echo_loop : List VariableEnum → List Int8 → Except Failure (VariableEnum → List Int8)
  | [],pip =>
    match fgets 65536 pip with
    | none => .ok fun _ => []
    | some _ => .error .missing_echo
  | i :: rest,pip =>
    match fgets 65536 pip with
    | none => .error .missing_echo
    | some (line,pip) => do
      let var ← echo_loop rest pip
      return Function.update var i (line.takeWhile fun c => 0 ≠ c ∧ chr '\n' ≠ c.toInt)

def echo_script : List Int8 :=
  lit "echo $HCONF_CC\n" ++ lit "echo $HCONF_CPPFLAGS\n" ++ lit "echo $HCONF_CFLAGS\n" ++ lit "echo $HCONF_LDFLAGS\n" ++
    lit "echo $HCONF_LIBS\n"

/-- The variables are freed first, but not set to null, so that there must be none. -/
def resolve_variables (echo : (script : List Int8) → List Int8) (a_branch : Branch) :
    Except Failure (Bucket × (VariableEnum → List Int8)) :=
  if a_branch.bucket.src.isSome then .error .fault
  else do
    let (bucket,script) ← resolve_loop a_branch.var_list { a_branch.bucket with do_link := true, do_exec := true } []
    let var ← echo_loop VAR_OUTPUT (echo (script ++ echo_script))
    return ({ bucket with var := fun i => some (var i) },var)

/-- The branch that a module pointer leads to. -/
def branch_of (module : Module) : Except Failure Branch :=
  match module.branch with
  | none => .error .fault
  | some branch => .ok branch

def header_text (defines : List (List Int8 × List Int8)) : List Int8 :=
  lit "#ifndef HCONF_" ++ g_filename_upper g ++ lit "\n" ++ lit "#define HCONF_" ++ g_filename_upper g ++ lit "\n" ++
    (defines.flatMap fun define => lit "#define HCONF_m" ++ define.1 ++ lit "_b" ++ define.2 ++ lit " 1\n") ++
    lit "#endif \n"

/-- The variables of all buckets, before they are merged. -/
def local_bucket (branches : List Branch) : List Int8 :=
  VAR_OUTPUT.flatMap fun i =>
    (lit " ").intercalate (branches.map fun branch => (branch.bucket.var i).getD []) ++ lit "\n"

/-- `TAILQ_LAST(&g_module_list, ModuleList)->branch`. -/
def last_branch : HconfM Branch := do
  match (← get).g_module_list.getLast? with
  | none => throw .fault
  | some module => call (branch_of module)

/-- The branch of the last module gets another value. -/
def set_branch (branch : Option Branch) (s : State) : State :=
  match s.g_module_list.getLast? with
  | none => s
  | some module => { s with g_module_list := s.g_module_list.dropLast ++ [{ module with branch := branch }] }

/-- `write_files`, which does not use its argument. -/
def write_files : HconfM Unit := do
  let modules := (← get).g_module_list
  let branches ← call (modules.mapM branch_of)
  modify fun s => { s with h := header_text g ((modules.map Module.name).zip (branches.map Branch.name)) }
  match branches.getLast? with
  | none => throw .fault
  | some branch =>
    let bucket ← call (merge branch.bucket
      (g.g_hconf_base.toList ++ [⟨g_filename_hconf g,some (local_bucket branches)⟩]))
    modify fun s => { set_branch (some { branch with bucket := bucket }) s with hconf := bucket_lines bucket }

def compile_script (module : List Int8) (bucket : Bucket) : List Int8 :=
  let cppflags := strctv_ [lit "-DHCONFING_m",module,lit " -I. -I",g.g_out_dir,lit "/_hconf ",bucket.var VAR_CPPFLAGS]
  let cflags := strctv_ [lit "-c ",bucket.var VAR_CFLAGS]
  build_script (g_filename_o g) (g_filename_main_c g) (bucket.var VAR_CC) cppflags cflags (lit "") (lit "")

def link_script (bucket : Bucket) : List Int8 :=
  let cppflags := strctv_ [lit "-I",g.g_out_dir,lit "/_hconf ",bucket.var VAR_CPPFLAGS]
  let src := strctv_ [g_filename_o g,lit " ",bucket.src]
  let cflags := if bucket.src.isNone then some (lit "") else bucket.var VAR_CFLAGS
  build_script (g_filename_main_bin g) src (bucket.var VAR_CC) cppflags cflags (bucket.var VAR_LDFLAGS)
    (bucket.var VAR_LIBS)

/-- The processes of a trial, as far as they are needed, and its options. -/
structure Outcome where
  compile : Process
  link : Process
  test : Status
  do_link : Bool
  do_exec : Bool

/-- The part of `try` behind `write_files`: whether it ends at `try_passed`. -/
def try_builds (outcome : Outcome) : Bool :=
  if 0 ≠ build outcome.compile then false
  else if ¬outcome.do_link then true
  else if 0 ≠ build outcome.link then false
  else if ¬outcome.do_exec then true
  else outcome.test.normal

variable (world : World)

def outcome_of (trial : Nat) (module : List Int8) (bucket : Bucket) : Outcome where
  compile := world.compile trial (compile_script g module bucket)
  link := world.link trial (link_script g bucket)
  test := world.test trial
  do_link := bucket.do_link
  do_exec := bucket.do_exec

def try_ : HconfM Unit := do
  let s ← get
  match s.g_module_list.getLast? with
  | none => return ()
  | some module => do
    let branch ← call (branch_of module)
    if branch.is_ok then return ()
    else do
      let trial := s.trials.length
      let (bucket,resolved) ← call (resolve_variables (world.echo trial) branch)
      modify (set_branch (some { branch with bucket := bucket }))
      write_files g
      let merged ← last_branch
      let passed := try_builds (outcome_of g world trial module.name merged.bucket)
      modify (set_branch (if passed then some { merged with is_ok := true } else none))
      modify fun s =>
        { s with trials := s.trials ++ [⟨module.name,branch.name,resolved,passed⟩] }

/-! The loop over the lines of the header. -/

/-- The text up to the first `_b`, and the text behind it. -/
def cut_module : List Int8 → Option (List Int8 × List Int8)
  | [] => none
  | c :: p =>
    if chr '_' = c.toInt ∧ chr 'b' = (p.headD 0).toInt then some ([],p.drop 1)
    else (cut_module p).map fun (module,rest) => (c :: module,rest)

/-- The module and the branch of `# (el)if HCONF_mMODULE_bBRANCH`. -/
def get_branch (a_str : List Int8) : Option (List Int8 × List Int8) :=
  let p := skip_spaces (c_str a_str)
  if chr '#' ≠ (p.headD 0).toInt then none
  else
    let p := skip_spaces (p.drop 1)
    let p := if 0 = STRBCMP p "el" then p.drop 2 else p
    if 0 ≠ STRBCMP p "if" then none
    else
      let p := p.drop 2
      if ¬isspace (p.headD 0).toInt then none
      else
        let p := skip_spaces p
        if 0 ≠ STRBCMP p "HCONF_m" then none
        else
          (cut_module (p.drop 7)).map fun (module,p) =>
            (module,p.takeWhile fun c => chr '_' = c.toInt ∨ isalnum c.toInt)

def module_add (a_name : Option (List Int8)) : HconfM Unit := do
  let s ← get
  match s.g_module_list.getLast? with
  | some ⟨name,none⟩ => throw (.module_failed name)
  | _ =>
    match a_name with
    | none => return ()
    | some name => set ({ s with g_module_list := s.g_module_list ++ [⟨name,none⟩] } : State)

/-- A new branch for the last module. -/
def branch_add (name : List Int8) : HconfM Unit := do
  let s ← get
  match s.g_module_list.getLast? with
  | some ⟨_,none⟩ => set (set_branch (some ⟨false,name,[],no_bucket⟩) s)
  | _ => throw .abort

/-- The part of the loop for a guard. -/
def guard_line (module_new branch_new : List Int8) : HconfM Unit := do
  try_ g world
  match (← get).g_module_list.getLast? with
  | none => do
    module_add (some module_new)
    branch_add branch_new
  | some module =>
    if module.name ≠ module_new then do
      module_add (some module_new)
      branch_add branch_new
    else if (module.branch.map Branch.is_ok).getD false then return ()
    else branch_add branch_new

/-- The expression of `/* HCONF_VAR=.. */`. -/
def variable_expr (g_line_no : Nat) (line : List Int8) : Except Failure (Option (List Int8)) :=
  let p := skip_spaces (c_str line)
  if 0 ≠ STRBCMP p "/*" then .ok none
  else
    let expr_start := skip_spaces (p.drop 2)
    if 0 ≠ STRBCMP expr_start "HCONF_" then .ok none
    else
      let p := skip_spaces ((expr_start.drop 6).dropWhile fun c => chr '_' = c.toInt ∨ isalnum c.toInt)
      if chr '=' ≠ (p.headD 0).toInt then .error (.missing_value g_line_no)
      else
        match strstr (lit "*/") (p.drop 1) with
        | none => .error (.missing_end g_line_no)
        | some p => .ok (some ((expr_start.take (expr_start.length - p.length)).rdropWhile fun c => isspace c.toInt))

/-- The part of the loop for any other line. -/
def variable_line (g_line_no : Nat) (line : List Int8) : HconfM Unit := do
  let s ← get
  match s.g_module_list.getLast? with
  | none => return ()
  | some module => do
    match ← call (variable_expr g_line_no line) with
    | none => return ()
    | some expr => do
      let branch ← call (branch_of module)
      set (set_branch (some { branch with var_list := branch.var_list ++ [⟨expr,g_line_no⟩] }) s)

def main_loop : (g_line_no : Nat) → List (List Int8) → HconfM Unit
  | _,[] => do
    try_ g world
    module_add none
  | g_line_no,line :: lines => do
    match get_branch line with
    | some (module_new,branch_new) => guard_line g world module_new branch_new
    | none => variable_line g_line_no line
    main_loop (g_line_no + 1) lines

/-- The lines that `fgets` reads, one call after the other. -/
def fgets_lines (size : Nat) : (fuel : Nat) → List Int8 → List (List Int8)
  | 0,_ => []
  | fuel + 1,file =>
    match fgets size file with
    | none => []
    | some (line,file) => line :: fgets_lines size fuel file

/-- The lines of a header, as the program sees them. -/
def header_lines (header : List Int8) : List (List Int8) := fgets_lines 256 header.length header

/-- `main`, from where it has read its arguments. -/
def hconf_conf (header : List Int8) : HconfM Unit := do
  main_loop g world 1 (header_lines header)
  if (← get).g_module_list.isEmpty then throw .not_ready
  else write_files g

end

def start : State := ⟨[],[],[],[]⟩

end Htools.HconfConf
