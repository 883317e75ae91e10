import Htools.HconfTry

/-!
What a run of the main loop of `hgmake/hconf_conf.c` is made of. `Step` has a
constructor for each thing that the loop does to the module list, with what the
program has checked before; a run that ends is a sequence of these steps
(`main_loop_runs`), and a run that does not end has a reason of `Stops`.
-/
namespace Htools.HconfConf
open Htools.Lexing Htools.ConfigFile Htools.CString Htools.HconfMerge Htools.Simulation VariableEnum

/-- The module and the branch of a guard. -/
abbrev Guard := List Int8 × List Int8

def fresh (name : List Int8) : Branch := ⟨false,name,[],no_bucket⟩

/-- A step of the loop, with the guards that it takes. -/
inductive Step (g : Globals) (world : World) : List Guard → State → State → Prop
  | trial {s s' : State} {older : List Module} {module : Module} {branch : Branch} {branches : List Branch}
      {resolved bucket : Bucket} {var : VariableEnum → List Int8} (listed : s.g_module_list = older ++ [module])
      (current : module.branch = some branch) (untried : branch.is_ok = false)
      (tried : Tried g world older module branch s s' branches resolved bucket var) : Step g world [] s s'
  | module {s : State} {m b : List Int8}
      (settled : ∀ module ∈ s.g_module_list.getLast?,module.name ≠ m ∧
        ∃ branch,module.branch = some branch ∧ branch.is_ok = true) :
      Step g world [(m,b)] s { s with g_module_list := s.g_module_list ++ [⟨m,some (fresh b)⟩] }
  | branch {s : State} {older : List Module} {m b : List Int8} (listed : s.g_module_list = older ++ [⟨m,none⟩]) :
      Step g world [(m,b)] s { s with g_module_list := older ++ [⟨m,some (fresh b)⟩] }
  | skip {s : State} {older : List Module} {m b : List Int8} {branch : Branch}
      (listed : s.g_module_list = older ++ [⟨m,some branch⟩]) (passed : branch.is_ok = true) :
      Step g world [(m,b)] s s
  | expression {s : State} {older : List Module} {m : List Int8} {branch : Branch} {var : Variable}
      (listed : s.g_module_list = older ++ [⟨m,some branch⟩]) (value : ∃ c ∈ var.expr,chr '=' = c.toInt) :
      Step g world [] s
        { s with g_module_list := older ++ [⟨m,some { branch with var_list := branch.var_list ++ [var] }⟩] }

inductive Run (g : Globals) (world : World) : List Guard → State → State → Prop
  | nil (s : State) : Run g world [] s s
  | cons {s t u : State} {new guards : List Guard} (step : Step g world new s t) (run : Run g world guards t u) :
      Run g world (new ++ guards) s u

/-- Why a trial is not carried out. -/
inductive Blocked (g : Globals) (world : World) (s : State) (failure : Failure) : Prop
  | resolve {older : List Module} {module : Module} {branch : Branch} (listed : s.g_module_list = older ++ [module])
      (current : module.branch = some branch) (untried : branch.is_ok = false)
      (stopped : resolve_variables (world.echo s.trials.length) branch = .error failure)
  | older {older : List Module} {module : Module} (listed : s.g_module_list = older ++ [module])
      (stopped : older.mapM branch_of = .error failure)
  | merge {bucket : Bucket} {text : List Int8}
      (stopped : merge bucket (g.g_hconf_base.toList ++ [⟨g_filename_hconf g,some text⟩]) = .error failure)

/-- Why the loop stops in front of the lines that are left. -/
inductive Stops (g : Globals) (world : World) (g_line_no : Nat) (lines : List (List Int8)) (s : State) : Failure → Prop
  | blocked {failure : Failure} (blocked : Blocked g world s failure) : Stops g world g_line_no lines s failure
  | failed {older : List Module} {name : List Int8} (listed : s.g_module_list = older ++ [⟨name,none⟩])
      (last : ∀ guard ∈ (lines.filterMap get_branch).head?,guard.1 ≠ name) :
      Stops g world g_line_no lines s (.module_failed name)
  | misread {line : List Int8} {rest : List (List Int8)} {failure : Failure} (here : lines = line :: rest)
      (other : get_branch line = none) (listed : s.g_module_list ≠ [])
      (stopped : variable_expr g_line_no line = .error failure) : Stops g world g_line_no lines s failure

/-- The last module has a branch. -/
def Ready (s : State) : Prop := ∀ module ∈ s.g_module_list.getLast?,module.branch ≠ none

/-- The branch of the last module is marked, where it has one. -/
def Marked (s : State) : Prop :=
  ∀ module ∈ s.g_module_list.getLast?,∀ branch ∈ module.branch,branch.is_ok = true

section
variable {g : Globals} {world : World}

theorem Run.trans {s t u : State} {guards others : List Guard} (run : Run g world guards s t)
    (rest : Run g world others t u) : Run g world (guards ++ others) s u := by
  induction run with
  | nil => exact rest
  | cons step _ ih =>
    rw [List.append_assoc]
    exact .cons step (ih rest)

theorem Step.run {s t : State} {new : List Guard} (step : Step g world new s t) : Run g world new s t := by
  have run := Run.cons step (.nil t)
  rwa [List.append_nil] at run

/-! ### The calls of a line -/

theorem listed_or (s : State) : s.g_module_list = [] ∨ ∃ older module,s.g_module_list = older ++ [module] := by
  rcases List.eq_nil_or_concat s.g_module_list with none | ⟨older,module,listed⟩
  · exact .inl none
  · exact .inr ⟨older,module,by rw [listed,List.concat_eq_append]⟩

theorem write_files_error {s s' : State} {older : List Module} {module : Module} {branch : Branch} {failure : Failure}
    (listed : s.g_module_list = older ++ [module]) (current : module.branch = some branch)
    (stopped : write_files g s = .error failure s') :
    s'.trials = s.trials ∧ (older.mapM branch_of = .error failure ∨ ∃ text,
      merge branch.bucket (g.g_hconf_base.toList ++ [⟨g_filename_hconf g,some text⟩]) = .error failure) := by
  unfold write_files at stopped
  rw [bind_get,listed] at stopped
  cases found : older.mapM branch_of with
  | error other =>
    have all : (older ++ [module]).mapM branch_of = .error other := by
      rw [List.mapM_append,found]
      rfl
    rw [all] at stopped
    cases stopped
    exact ⟨rfl,.inl rfl⟩
  | ok branches =>
    rw [(mapM_branch_of current).mpr ⟨branches,found,rfl⟩,bind_ok (call_ok ..),bind_modify] at stopped
    rw [List.getLast?_concat] at stopped
    dsimp only at stopped
    cases merged : merge branch.bucket
        (g.g_hconf_base.toList ++ [⟨g_filename_hconf g,some (local_bucket (branches ++ [branch]))⟩]) with
    | error other =>
      rw [merged] at stopped
      cases stopped
      exact ⟨rfl,.inr ⟨_,merged⟩⟩
    | ok bucket =>
      rw [merged] at stopped
      cases stopped

theorem try_runs {s s' : State} (tried : try_ g world s = .ok () s') : Run g world [] s s' ∧ Marked s' := by
  rcases listed_or s with none | ⟨older,module,listed⟩
  · unfold try_ at tried
    rw [bind_get,none] at tried
    cases tried
    exact ⟨.nil s,by simp [Marked,none]⟩
  cases current : module.branch with
  | none =>
    unfold try_ at tried
    rw [bind_get,listed,List.getLast?_concat] at tried
    dsimp only at tried
    rw [branch_of,current] at tried
    cases tried
  | some branch =>
    cases passed : branch.is_ok with
    | true =>
      unfold try_ at tried
      rw [bind_get,listed,List.getLast?_concat] at tried
      dsimp only at tried
      rw [branch_of,current,bind_ok (call_ok ..),if_pos passed] at tried
      cases tried
      refine ⟨.nil s,?_⟩
      intro last last_member other other_member
      rw [listed,List.getLast?_concat] at last_member
      cases last_member
      rw [current] at other_member
      cases other_member
      exact passed
    | false =>
      obtain ⟨branches,resolved,bucket,var,trial⟩ := try_ok listed current passed tried
      refine ⟨(Step.trial listed current passed trial).run,?_⟩
      intro last last_member other other_member
      rw [trial.listed,List.getLast?_concat] at last_member
      cases last_member
      dsimp only at other_member
      split at other_member
      · cases other_member
        rfl
      · cases other_member

theorem try_error {s s' : State} {failure : Failure} (ready : Ready s) (stopped : try_ g world s = .error failure s') :
    s'.trials = s.trials ∧ Blocked g world s failure := by
  unfold try_ at stopped
  rw [bind_get] at stopped
  rcases listed_or s with none | ⟨older,module,listed⟩
  · rw [none] at stopped
    cases stopped
  rw [listed,List.getLast?_concat] at stopped
  cases current : module.branch with
  | none => exact absurd current (ready module (by rw [listed,List.getLast?_concat]; rfl))
  | some branch =>
    dsimp only at stopped
    rw [branch_of,current,bind_ok (call_ok ..)] at stopped
    split at stopped
    case isTrue => cases stopped
    case isFalse untried =>
      rcases bind_eq_error_iff.mp stopped with resolve | ⟨⟨resolved,var⟩,_,resolve,stopped⟩
      · cases resolves : resolve_variables (world.echo s.trials.length) branch with
        | error other =>
          rw [resolves] at resolve
          cases resolve
          exact ⟨rfl,.resolve listed current (Bool.eq_false_iff.mpr untried) resolves⟩
        | ok result =>
          rw [resolves] at resolve
          cases resolve
      obtain ⟨_,rfl⟩ := call_eq_ok_iff.mp resolve
      dsimp only at stopped
      rw [bind_modify] at stopped
      rcases bind_eq_error_iff.mp stopped with wrote | ⟨_,written,wrote,stopped⟩
      · obtain ⟨trials,older_stopped | ⟨text,merge_stopped⟩⟩ := write_files_error (set_branch_listed _ listed) rfl wrote
        · exact ⟨trials.trans (set_branch_trials ..),.older listed older_stopped⟩
        · exact ⟨trials.trans (set_branch_trials ..),.merge merge_stopped⟩
      · obtain ⟨branches,bucket,files⟩ := write_files_ok (set_branch_listed _ listed) rfl wrote
        have last := last_branch_append files.listed
        rw [bind_ok last] at stopped
        cases stopped

theorem module_add_none {s : State} {older : List Module} {name : List Int8} (a_name : Option (List Int8))
    (listed : s.g_module_list = older ++ [⟨name,none⟩]) :
    module_add a_name s = .error (.module_failed name) s := by
  unfold module_add
  rw [bind_get,listed,List.getLast?_concat]
  rfl

theorem module_add_ready {s : State} (a_name : Option (List Int8)) (ready : Ready s) :
    module_add a_name s = .ok () { s with
      g_module_list := s.g_module_list ++ a_name.toList.map fun name => ⟨name,none⟩ } := by
  unfold module_add
  rw [bind_get]
  rcases listed_or s with empty | ⟨older,⟨name,branch⟩,listed⟩
  · rw [empty]
    cases a_name with
    | none =>
      change EStateM.Result.ok () s = _
      rw [Option.toList_none,List.map_nil,List.append_nil,← empty]
    | some name => rfl
  · rw [listed,List.getLast?_concat]
    cases branch with
    | none => exact absurd rfl (ready ⟨name,none⟩ (by rw [listed,List.getLast?_concat]; rfl))
    | some branch =>
      cases a_name with
      | none =>
        change EStateM.Result.ok () s = _
        rw [Option.toList_none,List.map_nil,List.append_nil,← listed]
      | some name => rfl

theorem branch_add_none {s : State} {older : List Module} {m : List Int8} (b : List Int8)
    (listed : s.g_module_list = older ++ [⟨m,none⟩]) :
    branch_add b s = .ok () { s with g_module_list := older ++ [⟨m,some (fresh b)⟩] } := by
  unfold branch_add
  rw [bind_get,listed,List.getLast?_concat]
  change EStateM.Result.ok () (set_branch (some (fresh b)) s) = _
  rw [set_branch,listed,List.getLast?_concat]
  dsimp only
  rw [List.dropLast_concat]

/-- A new module with its first branch. -/
theorem module_branch {s : State} (m b : List Int8) (ready : Ready s) :
    (module_add (some m) >>= fun _ => branch_add b) s =
      .ok () { s with g_module_list := s.g_module_list ++ [⟨m,some (fresh b)⟩] } := by
  rw [bind_ok (module_add_ready (some m) ready)]
  exact branch_add_none b rfl

theorem ready_concat {s : State} {older : List Module} {m : List Int8} {branch : Branch}
    (listed : s.g_module_list = older ++ [⟨m,some branch⟩]) : Ready s := by
  intro module member
  rw [listed,List.getLast?_concat] at member
  cases member
  exact Option.some_ne_none branch

theorem marked_ready {s : State} (marked : Marked s) (ready : Ready s) :
    ∀ module ∈ s.g_module_list.getLast?,∃ branch,module.branch = some branch ∧ branch.is_ok = true := by
  intro module member
  cases current : module.branch with
  | none => exact absurd current (ready module member)
  | some branch => exact ⟨branch,rfl,marked module member branch current⟩

/-- The part of `guard_line` behind `try`. -/
theorem guard_line_tried {s t : State} (m b : List Int8) (tried : try_ g world s = .ok () t) (marked : Marked t) :
    (∃ u,guard_line g world m b s = .ok () u ∧ Step g world [(m,b)] t u ∧ Ready u) ∨
      ∃ older name,t.g_module_list = older ++ [⟨name,none⟩] ∧ m ≠ name ∧
        guard_line g world m b s = .error (.module_failed name) t := by
  unfold guard_line
  rw [bind_ok tried,bind_get]
  rcases listed_or t with empty | ⟨older,⟨name,branch⟩,listed⟩
  · have ready : Ready t := by simp [Ready,empty]
    rw [empty]
    refine .inl ⟨_,module_branch m b ready,.module ?_,ready_concat rfl⟩
    simp [empty]
  rw [listed,List.getLast?_concat]
  dsimp only
  by_cases same : name = m
  · subst same
    rw [if_neg (not_not.mpr rfl)]
    cases branch with
    | none => exact .inl ⟨_,branch_add_none b listed,.branch listed,ready_concat rfl⟩
    | some branch =>
      have passed : branch.is_ok = true :=
        marked ⟨name,some branch⟩ (by rw [listed,List.getLast?_concat]; rfl) branch rfl
      rw [if_pos (by exact passed)]
      exact .inl ⟨t,rfl,.skip listed passed,ready_concat listed⟩
  · rw [if_pos same]
    cases branch with
    | none =>
      refine .inr ⟨older,name,rfl,Ne.symm same,?_⟩
      rw [bind_error (module_add_none (some m) listed)]
    | some branch =>
      have ready := ready_concat listed
      refine .inl ⟨_,module_branch m b ready,.module ?_,ready_concat rfl⟩
      intro module member
      refine ⟨?_,marked_ready marked ready module member⟩
      rw [listed,List.getLast?_concat] at member
      cases member
      exact same

theorem strstr_suffix {ptn text p : List Int8} (found : strstr ptn text = some p) : p <:+ text := by
  induction text with
  | nil =>
    unfold strstr at found
    split at found
    · cases found
      exact List.suffix_refl []
    · cases found
  | cons c text ih =>
    unfold strstr at found
    split at found
    · cases found
      exact List.suffix_refl _
    · exact (ih found).trans (List.suffix_cons c text)

/-- Only the blanks in front of the end of the comment are cut off, so that the `=` stays. -/
theorem variable_expr_value {g_line_no : Nat} {line expr : List Int8}
    (found : variable_expr g_line_no line = .ok (some expr)) : ∃ c ∈ expr,chr '=' = c.toInt := by
  unfold variable_expr at found
  dsimp only at found
  split at found
  · cases found
  split at found
  · cases found
  split at found
  · cases found
  rename_i _ _ equals
  split at found
  · cases found
  rename_i _ after ends
  generalize skip_spaces ((skip_spaces (c_str line)).drop 2) = expr_start at *
  have value_suffix : skip_spaces ((expr_start.drop 6).dropWhile fun c => chr '_' = c.toInt ∨ isalnum c.toInt) <:+
      expr_start :=
    (List.dropWhile_suffix _).trans ((List.dropWhile_suffix _).trans (List.drop_suffix 6 expr_start))
  generalize skip_spaces ((expr_start.drop 6).dropWhile fun c => chr '_' = c.toInt ∨ isalnum c.toInt) = value at *
  cases value with
  | nil => exact absurd (not_not.mp equals) (by decide)
  | cons c rest =>
    have is_equals : chr '=' = c.toInt := not_not.mp equals
    obtain ⟨before,start_eq⟩ := value_suffix
    obtain ⟨between,rest_eq⟩ := strstr_suffix ends
    have cut : expr_start = (before ++ c :: between) ++ after := by
      rw [← start_eq,show rest = between ++ after from rest_eq.symm]
      simp
    have kept : c ∈ (before ++ c :: between).rdropWhile fun c => isspace c.toInt := by
      have member : c ∈ before ++ c :: between := by simp
      rw [← List.rdropWhile_append_rtakeWhile (p := fun c : Int8 => isspace c.toInt)
        (l := before ++ c :: between)] at member
      rcases List.mem_append.mp member with member | blank
      · exact member
      · have space := List.mem_rtakeWhile_imp blank
        rw [← is_equals] at space
        cases space
    cases found
    refine ⟨c,?_,is_equals⟩
    rw [cut,List.length_append,Nat.add_sub_cancel,List.take_left]
    exact kept

theorem variable_line_runs {g_line_no : Nat} {line : List Int8} {s : State} (ready : Ready s)
    (other : get_branch line = none) (lines : List (List Int8)) :
    (∃ t,variable_line g_line_no line s = .ok () t ∧ Run g world [] s t ∧ Ready t ∧
      (s.g_module_list ≠ [] → ∃ expr,variable_expr g_line_no line = .ok expr)) ∨
    ∃ failure,variable_line g_line_no line s = .error failure s ∧
      Stops g world g_line_no (line :: lines) s failure := by
  unfold variable_line
  rw [bind_get]
  rcases listed_or s with empty | ⟨older,⟨name,branch⟩,listed⟩
  · rw [empty]
    exact .inl ⟨s,rfl,.nil s,ready,fun some => absurd rfl some⟩
  rw [listed,List.getLast?_concat]
  dsimp only
  cases found : variable_expr g_line_no line with
  | error failure =>
    refine .inr ⟨failure,rfl,.misread rfl other ?_ found⟩
    rw [listed]
    exact List.append_ne_nil_of_right_ne_nil older (List.cons_ne_nil _ _)
  | ok expr =>
    rw [bind_ok (call_ok ..)]
    cases expr with
    | none => exact .inl ⟨s,rfl,.nil s,ready,fun _ => ⟨none,rfl⟩⟩
    | some expr =>
      cases branch with
      | none => exact absurd rfl (ready ⟨name,none⟩ (by rw [listed,List.getLast?_concat]; rfl))
      | some branch =>
        have value : ∃ c ∈ (⟨expr,g_line_no⟩ : Variable).expr,chr '=' = c.toInt := variable_expr_value found
        refine .inl ⟨_,?_,(Step.expression listed value).run,ready_concat rfl,fun _ => ⟨some expr,rfl⟩⟩
        change EStateM.Result.ok () (set_branch _ s) = _
        rw [set_branch,listed,List.getLast?_concat]
        dsimp only
        rw [List.dropLast_concat]

/-! ### The loop -/

/-- The lines behind a first guard that are no guards can be read. -/
def Legible (listed : Prop) (g_line_no : Nat) (lines : List (List Int8)) : Prop :=
  ∀ before line after,lines = before ++ line :: after → listed ∨ before.filterMap get_branch ≠ [] →
    get_branch line = none → ∃ expr,variable_expr (g_line_no + before.length) line = .ok expr

theorem Step.listed {s t : State} {new : List Guard} (step : Step g world new s t)
    (listed : s.g_module_list ≠ [] ∨ new ≠ []) : t.g_module_list ≠ [] := by
  cases step with
  | trial _ _ _ tried =>
    rw [tried.listed]
    exact List.concat_ne_nil _ _
  | module => exact List.concat_ne_nil _ _
  | branch => exact List.concat_ne_nil _ _
  | skip listed =>
    rw [listed]
    exact List.concat_ne_nil _ _
  | expression => exact List.concat_ne_nil _ _

theorem Run.listed {s t : State} {guards : List Guard} (run : Run g world guards s t)
    (listed : s.g_module_list ≠ [] ∨ guards ≠ []) : t.g_module_list ≠ [] := by
  induction run with
  | nil => simpa using listed
  | @cons s t u new guards step _ ih =>
    apply ih
    by_cases more : guards = []
    · rw [more,List.append_nil] at listed
      exact .inl (step.listed listed)
    · exact .inr more

theorem main_loop_cons (g_line_no : Nat) (line : List Int8) (lines : List (List Int8)) :
    main_loop g world g_line_no (line :: lines) =
      (match get_branch line with
        | some (m,b) => guard_line g world m b
        | none => variable_line g_line_no line) >>= fun _ => main_loop g world (g_line_no + 1) lines := by
  rw [main_loop]
  cases get_branch line <;> rfl

/-- One line of the header, in front of the others. -/
theorem line_runs {s : State} (ready : Ready s) (g_line_no : Nat) (line : List Int8) (lines : List (List Int8)) :
    (∃ t,(match get_branch line with
        | some (m,b) => guard_line g world m b
        | none => variable_line g_line_no line) s = .ok () t ∧
      Run g world ([line].filterMap get_branch) s t ∧ Ready t ∧
      (s.g_module_list ≠ [] → get_branch line = none → ∃ expr,variable_expr g_line_no line = .ok expr)) ∨
    ∃ failure s' t,(match get_branch line with
        | some (m,b) => guard_line g world m b
        | none => variable_line g_line_no line) s = .error failure s' ∧
      s'.trials = t.trials ∧ Run g world [] s t ∧ Stops g world g_line_no (line :: lines) t failure := by
  cases guard : get_branch line with
  | none =>
    rcases variable_line_runs (g := g) ready guard lines with
      ⟨t,ran,run,ready',legible⟩ | ⟨failure,stopped,stops⟩
    · refine .inl ⟨t,ran,?_,ready',fun listed _ => legible listed⟩
      simpa [guard] using run
    · exact .inr ⟨failure,s,s,stopped,rfl,.nil s,stops⟩
  | some names =>
    obtain ⟨m,b⟩ := names
    dsimp only
    cases tried : try_ g world s with
    | error failure s' =>
      obtain ⟨trials,blocked⟩ := try_error ready tried
      exact .inr ⟨failure,s',s,bind_error tried,trials,.nil s,.blocked blocked⟩
    | ok _ t =>
      obtain ⟨run,marked⟩ := try_runs tried
      rcases guard_line_tried m b tried marked with ⟨u,ran,step,ready'⟩ | ⟨older,name,listed,differs,stopped⟩
      · refine .inl ⟨u,ran,?_,ready',fun _ absurd_none => by cases absurd_none⟩
        simpa [guard] using run.trans step.run
      · refine .inr ⟨_,t,t,stopped,rfl,run,.failed listed ?_⟩
        simpa [guard] using differs

/-- The end of the header. -/
theorem main_loop_end (g_line_no : Nat) {s : State} (ready : Ready s) :
    (∃ t,main_loop g world g_line_no [] s = .ok () t ∧ Run g world [] s t ∧ Ready t ∧ Marked t) ∨
    ∃ failure s' t,main_loop g world g_line_no [] s = .error failure s' ∧ s'.trials = t.trials ∧ Run g world [] s t ∧
      Stops g world g_line_no [] t failure := by
  unfold main_loop
  cases tried : try_ g world s with
  | error failure s' =>
    obtain ⟨trials,blocked⟩ := try_error ready tried
    exact .inr ⟨failure,s',s,bind_error tried,trials,.nil s,.blocked blocked⟩
  | ok _ t =>
    obtain ⟨run,marked⟩ := try_runs tried
    rw [bind_ok tried]
    by_cases ready' : Ready t
    · refine .inl ⟨t,?_,run,ready',marked⟩
      rw [module_add_ready none ready',Option.toList_none,List.map_nil,List.append_nil]
    · unfold Ready at ready'
      push Not at ready'
      obtain ⟨⟨name,branch⟩,last,none⟩ := ready'
      obtain ⟨older,listed⟩ := List.getLast?_eq_some_iff.mp last
      cases none
      exact .inr ⟨_,t,t,module_add_none none listed,rfl,run,.failed listed (by simp)⟩

theorem filterMap_line (line : List Int8) (others : List (List Int8)) :
    (line :: others).filterMap get_branch = [line].filterMap get_branch ++ others.filterMap get_branch :=
  List.filterMap_append (l := [line])

/-- A line in front of those that can be read. -/
theorem Legible.cons {listed later : Prop} {g_line_no : Nat} {line : List Int8} {lines : List (List Int8)}
    (first : listed → get_branch line = none → ∃ expr,variable_expr g_line_no line = .ok expr)
    (seen : listed ∨ [line].filterMap get_branch ≠ [] → later) (rest : Legible later (g_line_no + 1) lines) :
    Legible listed g_line_no (line :: lines) := by
  intro before other after split guards unguarded
  cases before with
  | nil =>
    obtain ⟨rfl,rfl⟩ := List.cons.inj split
    exact first (by simpa using guards) unguarded
  | cons front before =>
    obtain ⟨rfl,tail⟩ := List.cons.inj split
    rw [List.length_cons,Nat.add_comm before.length 1,← Nat.add_assoc]
    apply rest before other after tail _ unguarded
    rw [filterMap_line] at guards
    by_cases first_guard : [line].filterMap get_branch = []
    · rw [first_guard,List.nil_append] at guards
      rcases guards with listed | behind
      · exact .inl (seen (.inl listed))
      · exact .inr behind
    · exact .inl (seen (.inr first_guard))

/-- The loop comes to its end by steps for all guards, or stops behind the steps for some of the lines. -/
theorem main_loop_runs (lines : List (List Int8)) (g_line_no : Nat) {s : State} (ready : Ready s) :
    (∃ t,main_loop g world g_line_no lines s = .ok () t ∧ Run g world (lines.filterMap get_branch) s t ∧
      Ready t ∧ Marked t ∧ Legible (s.g_module_list ≠ []) g_line_no lines) ∨
    ∃ failure s' before after t,main_loop g world g_line_no lines s = .error failure s' ∧ lines = before ++ after ∧
      s'.trials = t.trials ∧ Run g world (before.filterMap get_branch) s t ∧
      Stops g world (g_line_no + before.length) after t failure := by
  induction lines generalizing g_line_no s with
  | nil =>
    rcases main_loop_end g_line_no ready with ⟨t,ran,run,ready',marked⟩ | ⟨failure,s',t,stopped,trials,run,stops⟩
    · refine .inl ⟨t,ran,run,ready',marked,?_⟩
      intro before line after split
      simp at split
    · exact .inr ⟨failure,s',[],[],t,stopped,rfl,trials,run,stops⟩
  | cons line lines ih =>
    rw [main_loop_cons]
    rcases line_runs (g := g) ready g_line_no line lines with
      ⟨t,ran,run,ready',legible⟩ | ⟨failure,s',t,stopped,trials,run,stops⟩
    · rw [bind_ok ran]
      rcases ih (g_line_no + 1) ready' with
        ⟨u,ended,rest,ready'',marked,legible'⟩ | ⟨failure,s',before,after,u,stopped,split,trials,rest,stops⟩
      · refine .inl ⟨u,ended,?_,ready'',marked,legible'.cons legible run.listed⟩
        rw [filterMap_line]
        exact run.trans rest
      · refine .inr ⟨failure,s',line :: before,after,u,stopped,by rw [split,List.cons_append],trials,?_,?_⟩
        · rw [filterMap_line]
          exact run.trans rest
        · rw [List.length_cons,Nat.add_comm before.length 1,← Nat.add_assoc]
          exact stops
    · exact .inr ⟨failure,s',[],line :: lines,t,bind_error stopped,rfl,trials,run,stops⟩

end

end Htools.HconfConf
