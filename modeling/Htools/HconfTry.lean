import Htools.HconfConf

/-!
One trial of a branch (`try` of `hgmake/hconf_conf.c`). `build` returns the
number of lines that it has seen for a process that fails, so that a failure
without output counts as a success (`try_iff`).
-/
namespace Htools.HconfConf
open Htools.Lexing Htools.ConfigFile Htools.CString Htools.HconfMerge Htools.Simulation VariableEnum

/-! ### The module list -/

@[simp] theorem set_branch_h (branch : Option Branch) (s : State) : (set_branch branch s).h = s.h := by
  unfold set_branch
  split <;> rfl

@[simp] theorem set_branch_hconf (branch : Option Branch) (s : State) : (set_branch branch s).hconf = s.hconf := by
  unfold set_branch
  split <;> rfl

@[simp] theorem set_branch_trials (branch : Option Branch) (s : State) : (set_branch branch s).trials = s.trials := by
  unfold set_branch
  split <;> rfl

theorem set_branch_listed {s : State} {older : List Module} {module : Module} (branch : Option Branch)
    (listed : s.g_module_list = older ++ [module]) :
    (set_branch branch s).g_module_list = older ++ [{ module with branch := branch }] := by
  simp [set_branch,listed]

theorem call_ok {α : Type} (a : α) (s : State) : call (.ok a) s = .ok a s := rfl

theorem call_error {α : Type} (failure : Failure) (s : State) :
    (call (.error failure) : HconfM α) s = .error failure s := rfl

theorem call_eq_ok_iff {α : Type} {result : Except Failure α} {s s' : State} {a : α} :
    call result s = .ok a s' ↔ result = .ok a ∧ s = s' := by
  cases result with
  | error failure => simp [call_error]
  | ok b => simp [call_ok]

theorem bind_get {α : Type} (f : State → HconfM α) (s : State) : (get >>= f) s = f s s := rfl

theorem bind_modify {α : Type} (change : State → State) (f : Unit → HconfM α) (s : State) :
    (modify change >>= f) s = f () (change s) := rfl

theorem last_branch_append {s : State} {older : List Module} {module : Module}
    (listed : s.g_module_list = older ++ [module]) : last_branch s = call (branch_of module) s := by
  unfold last_branch
  rw [bind_get,listed,List.getLast?_concat]

section
variable {g : Globals} {world : World}

/-- What `write_files` does: the files, and the bucket that it merges. -/
structure Written (g : Globals) (older : List Module) (module : Module) (branch : Branch) (s s' : State)
    (branches : List Branch) (bucket : Bucket) : Prop where
  older_branches : older.mapM branch_of = .ok branches
  merged : merge branch.bucket
    (g.g_hconf_base.toList ++ [⟨g_filename_hconf g,some (local_bucket (branches ++ [branch]))⟩]) = .ok bucket
  listed : s'.g_module_list = older ++ [{ module with branch := some { branch with bucket := bucket } }]
  h : s'.h = header_text g (((older ++ [module]).map Module.name).zip ((branches ++ [branch]).map Branch.name))
  hconf : s'.hconf = bucket_lines bucket
  trials : s'.trials = s.trials

theorem mapM_branch_of {older : List Module} {module : Module} {branch : Branch} {all : List Branch}
    (current : module.branch = some branch) :
    (older ++ [module]).mapM branch_of = .ok all ↔ ∃ branches,older.mapM branch_of = .ok branches ∧ all = branches ++ [branch] := by
  have last : [module].mapM branch_of = .ok [branch] := by
    simp [branch_of,current,pure,Except.pure,bind,Except.bind]
  rw [List.mapM_append,last,bind_ok_iff]
  constructor
  · rintro ⟨branches,found,result⟩
    exact ⟨branches,found,(Except.ok.inj result).symm⟩
  · rintro ⟨branches,found,rfl⟩
    exact ⟨branches,found,rfl⟩

theorem write_files_ok {s s' : State} {older : List Module} {module : Module} {branch : Branch}
    (listed : s.g_module_list = older ++ [module]) (current : module.branch = some branch)
    (wrote : write_files g s = .ok () s') :
    ∃ branches bucket,Written g older module branch s s' branches bucket := by
  unfold write_files at wrote
  rw [bind_get] at wrote
  obtain ⟨all,_,branches_found,wrote⟩ := bind_eq_ok_iff.mp wrote
  obtain ⟨all_found,rfl⟩ := call_eq_ok_iff.mp branches_found
  rw [listed] at all_found
  obtain ⟨branches,older_branches,rfl⟩ := (mapM_branch_of current).mp all_found
  rw [bind_modify] at wrote
  rw [List.getLast?_concat] at wrote
  obtain ⟨bucket,_,merged_found,wrote⟩ := bind_eq_ok_iff.mp wrote
  obtain ⟨merged,rfl⟩ := call_eq_ok_iff.mp merged_found
  cases wrote
  refine ⟨branches,bucket,older_branches,merged,set_branch_listed _ listed,?_,rfl,set_branch_trials ..⟩
  exact (set_branch_h ..).trans (by rw [listed])

/-- What a call of `try` does for a branch that has not passed yet. -/
structure Tried (g : Globals) (world : World) (older : List Module) (module : Module) (branch : Branch) (s s' : State)
    (branches : List Branch) (resolved bucket : Bucket) (var : VariableEnum → List Int8) : Prop where
  resolves : resolve_variables (world.echo s.trials.length) branch = .ok (resolved,var)
  older_branches : older.mapM branch_of = .ok branches
  merged : merge resolved (g.g_hconf_base.toList ++
    [⟨g_filename_hconf g,some (local_bucket (branches ++ [{ branch with bucket := resolved }]))⟩]) = .ok bucket
  trials : s'.trials = s.trials ++
    [⟨module.name,branch.name,var,try_builds (outcome_of g world s.trials.length module.name bucket)⟩]
  listed : s'.g_module_list = older ++ [{ module with
    branch := if try_builds (outcome_of g world s.trials.length module.name bucket) then
      some { branch with bucket := bucket, is_ok := true } else none }]

theorem try_ok {s s' : State} {older : List Module} {module : Module} {branch : Branch}
    (listed : s.g_module_list = older ++ [module]) (current : module.branch = some branch)
    (untried : branch.is_ok = false) (tried : try_ g world s = .ok () s') :
    ∃ branches resolved bucket var,Tried g world older module branch s s' branches resolved bucket var := by
  unfold try_ at tried
  rw [bind_get,listed,List.getLast?_concat] at tried
  obtain ⟨_,_,found,tried⟩ := bind_eq_ok_iff.mp tried
  obtain ⟨branch_found,rfl⟩ := call_eq_ok_iff.mp found
  rw [branch_of,current] at branch_found
  cases branch_found
  rw [if_neg (by simp [untried])] at tried
  obtain ⟨⟨resolved,var⟩,_,resolve_found,tried⟩ := bind_eq_ok_iff.mp tried
  obtain ⟨resolves,rfl⟩ := call_eq_ok_iff.mp resolve_found
  dsimp only at tried
  rw [bind_modify] at tried
  obtain ⟨_,written,wrote,tried⟩ := bind_eq_ok_iff.mp tried
  obtain ⟨branches,bucket,files⟩ := write_files_ok (set_branch_listed _ listed) rfl wrote
  obtain ⟨_,_,merged_found,tried⟩ := bind_eq_ok_iff.mp tried
  rw [last_branch_append files.listed] at merged_found
  obtain ⟨merged_branch,rfl⟩ := call_eq_ok_iff.mp merged_found
  cases merged_branch
  dsimp only at tried
  rw [bind_modify] at tried
  cases tried
  refine ⟨branches,resolved,bucket,var,resolves,files.older_branches,files.merged,?_,?_⟩
  · exact congrArg (· ++ _) ((set_branch_trials ..).trans (files.trials.trans (set_branch_trials ..)))
  · exact (set_branch_listed _ files.listed).trans rfl

end

/-! ### The result of `build` -/

/-- The newlines that `build` sees in the output of a process. -/
def newlines (process : Process) : Nat :=
  (process.output.map fun buf => (c_str buf).countP fun c => chr '\n' = c.toInt).sum

theorem count_lines_eq (line_no : Int32) (buf : List Int8) :
    count_lines line_no buf = line_no + Int32.ofNat ((c_str buf).countP fun c => chr '\n' = c.toInt) := by
  unfold count_lines
  induction c_str buf generalizing line_no with
  | nil => simp
  | cons c text ih =>
    rw [List.foldl_cons,ih,List.countP_cons]
    split
    case isTrue newline =>
      rw [if_pos (by simpa using newline),Int32.ofNat_add,Int32.add_comm (Int32.ofNat _) (Int32.ofNat 1),← Int32.add_assoc]
      rfl
    case isFalse other =>
      rw [if_neg (by simpa using other)]
      rfl

theorem build_lines (line_no : Int32) (output : List (List Int8)) :
    output.foldl count_lines line_no =
      line_no + Int32.ofNat (output.map fun buf => (c_str buf).countP fun c => chr '\n' = c.toInt).sum := by
  induction output generalizing line_no with
  | nil => simp
  | cons buf output ih =>
    rw [List.foldl_cons,ih,count_lines_eq,List.map_cons,List.sum_cons,Int32.ofNat_add,Int32.add_assoc]

theorem ofNat_eq_zero (n : Nat) : Int32.ofNat n = 0 ↔ 2 ^ 32 ∣ n := by
  rw [← Int32.toBitVec_inj,← BitVec.toNat_inj]
  change n % 2 ^ 32 = 0 ↔ _
  exact (Nat.dvd_iff_mod_eq_zero).symm

/-- A process that fails without a line of output, as far as an `int` can tell. -/
def Silent (process : Process) : Prop := process.status.normal = false ∧ 2 ^ 32 ∣ newlines process

/-- A process that fails with a line of output. -/
def Loud (process : Process) : Prop := process.status.normal = false ∧ ¬2 ^ 32 ∣ newlines process

theorem build_eq_zero (process : Process) : 0 = build process ↔ process.status.normal = true ∨ Silent process := by
  unfold build Silent
  cases normal : process.status.normal with
  | true => simp
  | false =>
    simp only [Bool.false_eq_true,if_false,false_or,true_and]
    rw [build_lines,Int32.zero_add,eq_comm]
    exact ofNat_eq_zero (newlines process)

/-- The steps of a trial that its options ask for have gone well. -/
def Passed (outcome : Outcome) : Prop :=
  outcome.compile.status.normal = true ∧
    (outcome.do_link = true → outcome.link.status.normal = true ∧
      (outcome.do_exec = true → outcome.test.normal = true))

/-- A build that the options ask for fails silently. -/
def Unseen (outcome : Outcome) : Prop :=
  Silent outcome.compile ∨ outcome.do_link = true ∧ Silent outcome.link

/-- A step that the options ask for fails, and can be seen to. -/
def Seen (outcome : Outcome) : Prop :=
  Loud outcome.compile ∨ outcome.do_link = true ∧
    (Loud outcome.link ∨ outcome.do_exec = true ∧ outcome.test.normal = false)

theorem loud_iff {process : Process} : Loud process ↔ ¬(process.status.normal = true ∨ Silent process) := by
  unfold Silent Loud
  cases process.status.normal <;> simp

theorem try_builds_iff (outcome : Outcome) : try_builds outcome = true ↔ ¬Seen outcome := by
  unfold Seen
  rw [loud_iff,loud_iff,← build_eq_zero,← build_eq_zero]
  unfold try_builds
  by_cases compiled : 0 = build outcome.compile
  · rw [if_neg (not_not.mpr compiled)]
    cases do_link : outcome.do_link with
    | false => simp [compiled]
    | true =>
      by_cases linked : 0 = build outcome.link
      · cases do_exec : outcome.do_exec <;> simp [compiled,← linked]
      · simp [linked]
  · simp [compiled]

theorem normal_iff {process : Process} : process.status.normal = true ↔ ¬(Silent process ∨ Loud process) := by
  unfold Silent Loud
  cases process.status.normal <;> simp [Classical.em]

theorem passed_iff (outcome : Outcome) : Passed outcome ↔ ¬(Unseen outcome ∨ Seen outcome) := by
  unfold Passed Unseen Seen
  rw [normal_iff,normal_iff,← Bool.not_eq_true outcome.test.normal]
  tauto

/-- `try` sees what went wrong exactly where nothing fails silently, or something is seen to fail beside it. -/
theorem try_builds_passed (outcome : Outcome) :
    (try_builds outcome = true ↔ Passed outcome) ↔ (Unseen outcome → Seen outcome) := by
  rw [try_builds_iff,passed_iff]
  by_cases seen : Seen outcome
  · simp [seen]
  · simp [seen]

section
variable {g : Globals} {world : World}

/-- A trial that comes to its builds marks the branch that passes, and frees the others, exactly where failures are
    noticed. -/
theorem try_iff {s s' : State} {older : List Module} {module : Module} {branch : Branch}
    (listed : s.g_module_list = older ++ [module]) (current : module.branch = some branch)
    (untried : branch.is_ok = false) (tried : try_ g world s = .ok () s') :
    ∃ branches resolved bucket var,Tried g world older module branch s s' branches resolved bucket var ∧
      ((Passed (outcome_of g world s.trials.length module.name bucket) ∧
          (∃ marked,s'.g_module_list = older ++ [{ module with branch := some marked }] ∧ marked.is_ok = true) ∨
        ¬Passed (outcome_of g world s.trials.length module.name bucket) ∧
          s'.g_module_list = older ++ [{ module with branch := none }]) ↔
        (Unseen (outcome_of g world s.trials.length module.name bucket) →
          Seen (outcome_of g world s.trials.length module.name bucket))) := by
  obtain ⟨branches,resolved,bucket,var,trial⟩ := try_ok listed current untried tried
  refine ⟨branches,resolved,bucket,var,trial,?_⟩
  rw [← try_builds_passed,trial.listed]
  by_cases passes : try_builds (outcome_of g world s.trials.length module.name bucket) = true
  · simp [passes]
  · simp [passes]

end

/-! A compiler that says nothing. -/

def one_branch : State := ⟨[⟨lit "A",some ⟨false,lit "X",[],no_bucket⟩⟩],[],[],[]⟩

def some_globals : Globals := ⟨lit "build",lit "a.h",lit "build/_hconf/hconf/a.h",none⟩

/-- Each variable is empty, and each process ends as given. -/
def some_world (compile link : Process) (test : Status) : World where
  echo _ _ := lit "\n\n\n\n\n"
  compile _ _ := compile
  link _ _ := link
  test _ := test

/-- What `try` has left of the branch. -/
def result_of (world : World) : Except Failure (List (List Int8 × Option Bool)) :=
  match try_ some_globals world one_branch with
  | .ok _ s => .ok (s.g_module_list.map fun module => (module.name,module.branch.map Branch.is_ok))
  | .error failure _ => .error failure

theorem of_result {world : World} {left : List (List Int8 × Option Bool)} (result : result_of world = .ok left) :
    ∃ s,try_ some_globals world one_branch = .ok () s ∧
      s.g_module_list.map (fun module => (module.name,module.branch.map Branch.is_ok)) = left := by
  unfold result_of at result
  cases run : try_ some_globals world one_branch with
  | ok _ s =>
    rw [run] at result
    exact ⟨s,rfl,Except.ok.inj result⟩
  | error failure s =>
    rw [run] at result
    cases result

/-- A compiler that says what is wrong. -/
theorem try_loud :
    ∃ s,try_ some_globals (some_world ⟨[lit "error\n"],.exited 1⟩ ⟨[],.exited 0⟩ (.exited 0)) one_branch = .ok () s ∧
      s.g_module_list = [⟨lit "A",none⟩] := by
  obtain ⟨s,run,_⟩ := of_result (show result_of (some_world ⟨[lit "error\n"],.exited 1⟩ ⟨[],.exited 0⟩ (.exited 0)) =
    .ok [(lit "A",none)] by decide)
  refine ⟨s,run,?_⟩
  obtain ⟨_,_,bucket,_,_,judged⟩ := try_iff (show one_branch.g_module_list = [] ++ [_] from rfl) rfl rfl run
  have heard : newlines ⟨[lit "error\n"],.exited 1⟩ = 1 := by decide
  have loud : Loud (outcome_of some_globals
      (some_world ⟨[lit "error\n"],.exited 1⟩ ⟨[],.exited 0⟩ (.exited 0)) 0 (lit "A") bucket).compile := by
    refine ⟨rfl,?_⟩
    change ¬2 ^ 32 ∣ newlines ⟨[lit "error\n"],.exited 1⟩
    rw [heard]
    decide
  rcases judged.mpr fun _ => Or.inl loud with ⟨passed,_⟩ | ⟨_,freed⟩
  · exact absurd passed.1 Bool.false_ne_true
  · exact freed

/-- A compiler that fails without a word: the branch is marked, although the first step has not passed. -/
theorem try_silent :
    ∃ s,try_ some_globals (some_world ⟨[],.exited 1⟩ ⟨[],.exited 0⟩ (.exited 0)) one_branch = .ok () s ∧
      (∀ bucket,¬Passed (outcome_of some_globals (some_world ⟨[],.exited 1⟩ ⟨[],.exited 0⟩ (.exited 0)) 0 (lit "A")
        bucket)) ∧
      s.g_module_list.map (fun module => (module.name,module.branch.map Branch.is_ok)) = [(lit "A",some true)] := by
  obtain ⟨s,run,marked⟩ := of_result (show result_of (some_world ⟨[],.exited 1⟩ ⟨[],.exited 0⟩ (.exited 0)) =
    .ok [(lit "A",some true)] by decide)
  exact ⟨s,run,fun _ passed => absurd passed.1 Bool.false_ne_true,marked⟩

end Htools.HconfConf
