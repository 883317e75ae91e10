import Htools.HconfRemerge
import Htools.HconfRuns

/-!
Which branches a run of `hconf_conf` tries and selects. `Tracks` is what the
module list and the trials say about the guards so far; each step keeps it
(`tracks_step`), so that a run that ends has selected the first branch of each
module that passes, and a run that stops says why (`hconf_conf_selects`).
-/
namespace Htools.HconfConf
open Htools.Lexing Htools.ConfigFile Htools.CString Htools.HconfMerge Htools.Simulation Htools.Selection VariableEnum

def guards (header : List Int8) : List Guard := (header_lines header).filterMap get_branch

/-- The module, the branch and the result of a trial. -/
def summary (trial : Trial) : List Int8 × List Int8 × Bool := (trial.module,trial.branch,trial.passed)

/-- A module: its branches up to the first one that passes, and those behind. -/
structure Choice where
  module : List Int8
  failed : List (List Int8)
  branch : List Int8
  rest : List (List Int8)

def Choice.guards (choice : Choice) : List Guard :=
  (choice.failed ++ choice.branch :: choice.rest).map fun branch => (choice.module,branch)

def Choice.trials (choice : Choice) : List (List Int8 × List Int8 × Bool) :=
  choice.failed.map (fun branch => (choice.module,branch,false)) ++ [(choice.module,choice.branch,true)]

def Choice.selected (choice : Choice) : Guard := (choice.module,choice.branch)

/-- The branch of a module that has passed. -/
def selected (module : Module) : Option Guard :=
  (module.branch.filter Branch.is_ok).map fun branch => (module.name,branch.name)

/-- A branch that waits for its trial. -/
structure Untried (branch : Branch) : Prop where
  unmarked : branch.is_ok = false
  bucket : branch.bucket = no_bucket
  values : ∀ var ∈ branch.var_list,∃ c ∈ var.expr,chr '=' = c.toInt

/-- The guards so far, and the state behind them. The last module may have no branch that passes yet. -/
inductive Tracks (guards : List Guard) (s : State) : Prop
  | settled {choices : List Choice} (taken : guards = choices.flatMap Choice.guards)
      (chosen : s.g_module_list.map selected = choices.map fun choice => some choice.selected)
      (trials : s.trials.map summary = choices.flatMap Choice.trials)
      (differ : (choices.map Choice.module).IsChain (· ≠ ·))
  | trying {choices : List Choice} {older : List Module} {m : List Int8} {failed : List (List Int8)}
      {branch : Option Branch}
      (taken : guards = choices.flatMap Choice.guards ++
        (failed ++ branch.toList.map Branch.name).map fun b => (m,b))
      (listed : s.g_module_list = older ++ [⟨m,branch⟩])
      (chosen : older.map selected = choices.map fun choice => some choice.selected)
      (trials : s.trials.map summary = choices.flatMap Choice.trials ++ failed.map fun b => (m,b,false))
      (differ : (choices.map Choice.module ++ [m]).IsChain (· ≠ ·)) (untried : ∀ b ∈ branch,Untried b)
      (lost : branch = none → failed ≠ [])

/-! ### The steps -/

section
variable {g : Globals} {world : World}

theorem selected_some (m : List Int8) (branch : Branch) :
    selected ⟨m,some branch⟩ = if branch.is_ok = true then some (m,branch.name) else none := by
  unfold selected
  cases passed : branch.is_ok <;> simp [passed]

theorem selected_iff {module : Module} {m b : List Int8} :
    selected module = some (m,b) ↔
      ∃ branch,module.branch = some branch ∧ branch.is_ok = true ∧ module.name = m ∧ branch.name = b := by
  unfold selected
  cases module.branch with
  | none => simp
  | some branch => cases passed : branch.is_ok <;> simp [passed]

theorem chosen_last {older : List Module} {module : Module} {choices : List Choice}
    (chosen : (older ++ [module]).map selected = choices.map fun choice => some choice.selected) :
    ∃ others choice,choices = others ++ [choice] ∧
      older.map selected = others.map (fun choice => some choice.selected) ∧
      selected module = some choice.selected := by
  rcases List.eq_nil_or_concat choices with rfl | ⟨others,choice,rfl⟩
  · simp at chosen
  · rw [List.concat_eq_append,List.map_append,List.map_append] at chosen
    obtain ⟨before,last⟩ := List.append_inj' chosen rfl
    exact ⟨others,choice,List.concat_eq_append,before,List.head_eq_of_cons_eq last⟩

theorem tracks_trial {guards : List Guard} {s t : State} {older : List Module} {module : Module} {branch : Branch}
    {branches : List Branch} {resolved bucket : Bucket} {var : VariableEnum → List Int8} (tracks : Tracks guards s)
    (listed : s.g_module_list = older ++ [module]) (current : module.branch = some branch)
    (untried : branch.is_ok = false) (tried : Tried g world older module branch s t branches resolved bucket var) :
    Tracks guards t := by
  cases tracks with
  | settled _ chosen =>
    rw [listed] at chosen
    obtain ⟨_,choice,_,_,last⟩ := chosen_last chosen
    obtain ⟨_,same,passed,_⟩ := selected_iff.mp last
    rw [current] at same
    cases same
    exact absurd passed (by simp [untried])
  | @trying choices older' m failed branch' taken listed' chosen trials differ waiting lost =>
    rw [listed] at listed'
    obtain ⟨rfl,last⟩ := List.append_inj' listed' rfl
    cases List.head_eq_of_cons_eq last
    cases current
    have all_trials := congrArg (List.map summary) tried.trials
    have all_modules := tried.listed
    rw [List.map_append,trials] at all_trials
    by_cases passes : try_builds (outcome_of g world s.trials.length m bucket) = true
    · rw [if_pos passes] at all_modules
      refine .settled (show guards = (choices ++ [Choice.mk m failed branch.name []]).flatMap Choice.guards from ?_) ?_ ?_ (by simpa using differ)
      · rw [taken]
        simp [Choice.guards]
      · rw [all_modules,List.map_append,chosen]
        simp [selected,Choice.selected]
      · rw [all_trials]
        simp [Choice.trials,summary,passes]
    · rw [if_neg passes] at all_modules
      refine .trying (by simpa using taken) all_modules chosen ?_ differ (by simp)
        (fun _ => List.concat_ne_nil _ _)
      rw [all_trials]
      simp [summary,passes]

/-- The module after the last one begins with a branch that waits. -/
theorem tracks_module {guards : List Guard} {s : State} {m b : List Int8} (tracks : Tracks guards s)
    (settled : ∀ module ∈ s.g_module_list.getLast?,module.name ≠ m ∧
      ∃ branch,module.branch = some branch ∧ branch.is_ok = true) :
    Tracks (guards ++ [(m,b)]) { s with g_module_list := s.g_module_list ++ [⟨m,some (fresh b)⟩] } := by
  cases tracks with
  | @settled choices taken chosen trials differ =>
    have grown : guards ++ [(m,b)] = choices.flatMap Choice.guards ++
        ([] ++ (some (fresh b)).toList.map Branch.name).map fun b => (m,b) := by
      rw [taken]
      rfl
    refine .trying grown rfl chosen (by simpa using trials) ?_ ?_ (by simp)
    · rw [List.isChain_append]
      refine ⟨differ,List.IsChain.singleton m,?_⟩
      intro last last_member next next_member
      cases next_member
      have both := congrArg List.getLast? chosen
      rw [List.getLast?_map,List.getLast?_map] at both
      rw [List.getLast?_map] at last_member
      obtain ⟨choice,choice_last,rfl⟩ := Option.map_eq_some_iff.mp last_member
      rw [choice_last] at both
      obtain ⟨module,module_last,same⟩ := Option.map_eq_some_iff.mp both
      obtain ⟨_,_,_,name,_⟩ := selected_iff.mp same
      rw [← name]
      exact (settled module module_last).1
    · intro branch member
      cases member
      exact ⟨rfl,rfl,fun _ member => absurd member List.not_mem_nil⟩
  | trying _ listed _ _ _ untried =>
    obtain ⟨_,branch,current,passed⟩ := settled _ (by rw [listed,List.getLast?_concat]; rfl)
    have waiting := (untried branch current).unmarked
    rw [passed] at waiting
    cases waiting

/-- The next branch of a module that has none. -/
theorem tracks_branch {guards : List Guard} {s : State} {older : List Module} {m b : List Int8}
    (tracks : Tracks guards s) (listed : s.g_module_list = older ++ [⟨m,none⟩]) :
    Tracks (guards ++ [(m,b)]) { s with g_module_list := older ++ [⟨m,some (fresh b)⟩] } := by
  cases tracks with
  | settled _ chosen =>
    rw [listed] at chosen
    obtain ⟨_,_,_,_,last⟩ := chosen_last chosen
    obtain ⟨_,none_branch,_⟩ := selected_iff.mp last
    cases none_branch
  | @trying choices older' m' failed branch taken listed' chosen trials differ waiting lost =>
    rw [listed] at listed'
    obtain ⟨rfl,last⟩ := List.append_inj' listed' rfl
    cases List.head_eq_of_cons_eq last
    refine .trying ?_ rfl chosen trials differ ?_ (by simp)
    · rw [taken]
      simp [fresh]
    · intro branch member
      cases member
      exact ⟨rfl,rfl,fun _ member => absurd member List.not_mem_nil⟩

/-- A branch of a module that is done is left alone. -/
theorem tracks_skip {guards : List Guard} {s : State} {older : List Module} {m b : List Int8} {branch : Branch}
    (tracks : Tracks guards s) (listed : s.g_module_list = older ++ [⟨m,some branch⟩]) (passed : branch.is_ok = true) :
    Tracks (guards ++ [(m,b)]) s := by
  cases tracks with
  | settled taken chosen trials differ =>
    have last_chosen := chosen
    rw [listed] at last_chosen
    obtain ⟨others,⟨m',failed,first,rest⟩,rfl,before,last⟩ := chosen_last last_chosen
    obtain ⟨_,_,_,name,_⟩ := selected_iff.mp last
    cases name
    refine .settled (show _ = (others ++ [Choice.mk m failed first (rest ++ [b])]).flatMap Choice.guards from ?_) (by simpa [Choice.selected] using chosen)
      (by simpa [Choice.trials] using trials) (by simpa using differ)
    rw [taken]
    simp [Choice.guards]
  | trying _ listed' _ _ _ waiting =>
    rw [listed] at listed'
    obtain ⟨rfl,last⟩ := List.append_inj' listed' rfl
    cases List.head_eq_of_cons_eq last
    have unmarked := (waiting branch rfl).unmarked
    rw [passed] at unmarked
    cases unmarked

theorem tracks_expression {guards : List Guard} {s : State} {older : List Module} {m : List Int8} {branch : Branch}
    {var : Variable} (tracks : Tracks guards s) (listed : s.g_module_list = older ++ [⟨m,some branch⟩])
    (value : ∃ c ∈ var.expr,chr '=' = c.toInt) :
    Tracks guards
      { s with g_module_list := older ++ [⟨m,some { branch with var_list := branch.var_list ++ [var] }⟩] } := by
  cases tracks with
  | settled taken chosen trials differ =>
    refine .settled taken ?_ trials differ
    rw [← chosen,listed,List.map_append,List.map_append]
    simp [selected_some]
  | trying taken listed' chosen trials differ waiting lost =>
    rw [listed] at listed'
    obtain ⟨rfl,last⟩ := List.append_inj' listed' rfl
    cases List.head_eq_of_cons_eq last
    have wait := waiting branch rfl
    refine .trying (by simpa using taken) rfl
      chosen trials differ ?_ (by simp)
    intro other member
    cases member
    refine ⟨wait.unmarked,wait.bucket,?_⟩
    intro v v_member
    rcases List.mem_append.mp v_member with old | new
    · exact wait.values v old
    · rw [List.mem_singleton.mp new]
      exact value

theorem tracks_step {guards new : List Guard} {s t : State} (tracks : Tracks guards s) (step : Step g world new s t) :
    Tracks (guards ++ new) t := by
  cases step with
  | trial listed current untried tried =>
    rw [List.append_nil]
    exact tracks_trial tracks listed current untried tried
  | module settled => exact tracks_module tracks settled
  | branch listed => exact tracks_branch tracks listed
  | skip listed passed => exact tracks_skip tracks listed passed
  | expression listed value =>
    rw [List.append_nil]
    exact tracks_expression tracks listed value

theorem tracks_run {guards new : List Guard} {s t : State} (tracks : Tracks guards s) (run : Run g world new s t) :
    Tracks (guards ++ new) t := by
  induction run generalizing guards with
  | nil =>
    rw [List.append_nil]
    exact tracks
  | cons step _ ih =>
    rw [← List.append_assoc]
    exact ih (tracks_step tracks step)

theorem tracks_start : Tracks [] start := .settled (show [] = ([] : List Choice).flatMap Choice.guards from rfl) rfl rfl List.IsChain.nil

/-! ### Where a run stops -/

theorem resolve_loop_ok {var_list : List Variable} (values : ∀ var ∈ var_list,∃ c ∈ var.expr,chr '=' = c.toInt)
    (bucket : Bucket) (script : List Int8) : ∃ result,resolve_loop var_list bucket script = .ok result := by
  induction var_list generalizing bucket script with
  | nil => exact ⟨_,rfl⟩
  | cons var var_list ih =>
    have tail := ih fun v member => values v (List.mem_cons_of_mem var member)
    have found : ∃ value,value_of var.expr = .ok value := by
      obtain ⟨c,member,equals⟩ := values var List.mem_cons_self
      unfold value_of
      cases rest : var.expr.dropWhile fun c => chr '=' ≠ c.toInt with
      | nil =>
        have other := List.dropWhile_eq_nil_iff.mp rest c member
        simp [equals] at other
      | cons => exact ⟨_,rfl⟩
    obtain ⟨value,found⟩ := found
    unfold resolve_loop
    rw [found]
    split
    · exact tail _ _
    · split
      · exact tail _ _
      · exact tail _ _

theorem echo_loop_error {vars : List VariableEnum} {pip : List Int8} {failure : Failure}
    (stopped : echo_loop vars pip = .error failure) : failure = .missing_echo := by
  induction vars generalizing pip with
  | nil =>
    unfold echo_loop at stopped
    split at stopped
    · cases stopped
    · cases stopped
      rfl
  | cons i vars ih =>
    unfold echo_loop at stopped
    split at stopped
    · cases stopped
      rfl
    · rcases bind_error_iff.mp stopped with tail | ⟨_,_,result⟩
      · exact ih tail
      · cases result

/-- What keeps the program from carrying out a trial: the script does not echo a line for each variable, or the
    files cannot be merged. -/
inductive Obstructed (g : Globals) (world : World) (trial : Nat) (failure : Failure) : Prop
  | echo {script : List Int8} (kind : failure = .missing_echo)
      (stopped : echo_loop VAR_OUTPUT (world.echo trial script) = .error failure)
  | merge {bucket : Bucket} {text : List Int8} (kind : MergeFailure failure)
      (stopped : merge bucket (g.g_hconf_base.toList ++ [⟨g_filename_hconf g,some text⟩]) = .error failure)

theorem chosen_branches {modules : List Module} {choices : List Choice}
    (chosen : modules.map selected = choices.map fun choice => some choice.selected) :
    ∃ branches,modules.mapM branch_of = .ok branches ∧
      (modules.map Module.name).zip (branches.map Branch.name) = choices.map Choice.selected := by
  induction modules generalizing choices with
  | nil =>
    cases choices with
    | nil => exact ⟨[],rfl,rfl⟩
    | cons => cases chosen
  | cons module modules ih =>
    cases choices with
    | nil => cases chosen
    | cons choice choices =>
      obtain ⟨first,rest⟩ := List.cons.inj chosen
      obtain ⟨branch,current,_,name,branch_name⟩ := selected_iff.mp first
      obtain ⟨branches,found,names⟩ := ih rest
      refine ⟨branch :: branches,?_,?_⟩
      · rw [List.mapM_cons,branch_of,current,found]
        rfl
      · rw [List.map_cons,List.map_cons,List.zip_cons_cons,names,List.map_cons,name,branch_name]
        rfl

/-- All modules but the last one are done. -/
theorem tracks_older {guards : List Guard} {s : State} {older : List Module} {module : Module}
    (tracks : Tracks guards s) (listed : s.g_module_list = older ++ [module]) :
    ∃ choices : List Choice,older.map selected = choices.map fun choice => some choice.selected := by
  cases tracks with
  | settled _ chosen =>
    rw [listed] at chosen
    obtain ⟨others,_,_,before,_⟩ := chosen_last chosen
    exact ⟨others,before⟩
  | trying _ listed' chosen =>
    rw [listed] at listed'
    obtain ⟨rfl,_⟩ := List.append_inj' listed' rfl
    exact ⟨_,chosen⟩

theorem tracks_obstructed {guards : List Guard} {s : State} {failure : Failure} (tracks : Tracks guards s)
    (blocked : Blocked g world s failure) : Obstructed g world s.trials.length failure := by
  cases blocked with
  | @resolve older module branch listed current untried stopped =>
    have waiting : Untried branch := by
      cases tracks with
      | settled _ chosen =>
        rw [listed] at chosen
        obtain ⟨_,_,_,_,last⟩ := chosen_last chosen
        obtain ⟨_,same,passed,_⟩ := selected_iff.mp last
        rw [current] at same
        cases same
        exact absurd passed (by simp [untried])
      | trying _ listed' _ _ _ waiting =>
        rw [listed] at listed'
        cases List.head_eq_of_cons_eq (List.append_inj' listed' rfl).2
        exact waiting branch current
    unfold resolve_variables at stopped
    rw [waiting.bucket,if_neg (by simp [no_bucket])] at stopped
    obtain ⟨⟨bucket,script⟩,resolved⟩ := resolve_loop_ok waiting.values
      { no_bucket with do_link := true, do_exec := true } []
    rw [resolved] at stopped
    rcases bind_error_iff.mp stopped with absurd_error | ⟨_,same,stopped⟩
    · cases absurd_error
    cases same
    rcases bind_error_iff.mp stopped with echo | ⟨_,_,result⟩
    · exact .echo (echo_loop_error echo) echo
    · cases result
  | older listed stopped =>
    obtain ⟨choices,chosen⟩ := tracks_older tracks listed
    obtain ⟨branches,found,_⟩ := chosen_branches chosen
    rw [found] at stopped
    cases stopped
  | merge stopped => exact .merge (merge_error stopped) stopped

/-! ### The whole run -/

theorem selected_sublist (choices : List Choice) :
    (choices.map Choice.selected).Sublist (choices.flatMap Choice.guards) := by
  induction choices with
  | nil => exact List.Sublist.refl []
  | cons choice choices ih =>
    have here : [choice.selected].Sublist choice.guards := by
      rw [List.singleton_sublist]
      exact List.mem_map.mpr ⟨choice.branch,by simp,rfl⟩
    rw [List.flatMap_cons]
    exact here.append ih

/-- A selection of guards with another module each time has each module once. -/
theorem names_nodup {all l : List Guard} (contiguous : Neighbours Prod.fst all) (sub : l.Sublist all)
    (differ : (l.map Prod.fst).IsChain (· ≠ ·)) : (l.map Prod.fst).Nodup :=
  List.pairwise_map.mpr ((contiguous.sublist _ sub).pairwise _ ((List.isChain_map Prod.fst).mp differ))

theorem selected_modules (choices : List Choice) :
    (choices.map Choice.selected).map Prod.fst = choices.map Choice.module := by
  rw [List.map_map]
  rfl

theorem modules_nodup {all : List Guard} {choices : List Choice} (contiguous : Neighbours Prod.fst all)
    (sub : (choices.flatMap Choice.guards).Sublist all) (differ : (choices.map Choice.module).IsChain (· ≠ ·)) :
    (choices.map Choice.module).Nodup := by
  rw [← selected_modules] at differ ⊢
  exact names_nodup contiguous ((selected_sublist choices).trans sub) differ

/-- The trials so far, in the order of the guards. -/
theorem tracks_parts {taken : List Guard} {s : State} (tracks : Tracks taken s) :
    ∃ (choices : List Choice) (m : List Int8) (failed : List (List Int8)) (waiting : List Guard),
      taken = choices.flatMap Choice.guards ++ failed.map (fun b => (m,b)) ++ waiting ∧
      s.trials.map summary = choices.flatMap Choice.trials ++ failed.map (fun b => (m,b,false)) ∧
      (choices.map Choice.module).IsChain (· ≠ ·) := by
  cases tracks with
  | @settled choices taken _ trials differ => exact ⟨choices,[],[],[],by simpa using taken,by simpa using trials,differ⟩
  | @trying choices _ m failed branch taken _ _ trials differ =>
    refine ⟨choices,m,failed,(branch.toList.map Branch.name).map fun b => (m,b),?_,trials,differ.left_of_append⟩
    rw [taken,List.map_append,List.append_assoc]

/-- A variable comment behind the first guard has no `=`, or no end on its line. -/
def Illegible (header : List Int8) (failure : Failure) : Prop :=
  ∃ before line after,header_lines header = before ++ line :: after ∧ before.filterMap get_branch ≠ [] ∧
    get_branch line = none ∧ variable_expr (1 + before.length) line = .error failure

/-- A module whose branches have all failed is the first one, and its guards are over. -/
theorem tracks_failed {before after all : List Guard} {s : State} {older : List Module} {m : List Int8}
    (tracks : Tracks before s) (listed : s.g_module_list = older ++ [⟨m,none⟩])
    (last : ∀ guard ∈ after.head?,guard.1 ≠ m) (contiguous : Neighbours Prod.fst all) (whole : all = before ++ after) :
    ∃ (choices : List Choice) (failed : List (List Int8)),
      all = choices.flatMap Choice.guards ++ failed.map (fun b => (m,b)) ++ after ∧
      s.trials.map summary = choices.flatMap Choice.trials ++ failed.map (fun b => (m,b,false)) ∧
      (choices.map Choice.module).Nodup ∧ failed ≠ [] ∧ m ∉ choices.map Choice.module ∧ ∀ guard ∈ after,guard.1 ≠ m := by
  cases tracks with
  | settled _ chosen =>
    rw [listed] at chosen
    obtain ⟨_,_,_,_,done⟩ := chosen_last chosen
    obtain ⟨_,none_branch,_⟩ := selected_iff.mp done
    cases none_branch
  | @trying choices _ _ failed _ taken listed' _ trials differ _ lost =>
    rw [listed] at listed'
    cases List.head_eq_of_cons_eq (List.append_inj' listed' rfl).2
    have tried := lost rfl
    obtain ⟨first,rest,rfl⟩ := List.exists_cons_of_ne_nil tried
    have split : all = choices.flatMap Choice.guards ++ (first :: rest).map (fun b => (m,b)) ++ after := by
      rw [whole,taken]
      simp
    have one : (choices.map Choice.selected ++ [(m,first)]).Sublist all := by
      rw [split,List.append_assoc]
      refine (selected_sublist choices).append ?_
      rw [List.singleton_sublist]
      simp
    have names := names_nodup contiguous one (by rw [List.map_append,selected_modules]; exact differ)
    rw [List.map_append,selected_modules,List.nodup_append] at names
    refine ⟨choices,first :: rest,split,trials,names.1,tried,?_,?_⟩
    · exact fun member => names.2.2 m member m (by simp) rfl
    · intro guard member same
      cases after with
      | nil => cases member
      | cons next after =>
        have differs := last next rfl
        rcases List.mem_cons.mp member with rfl | member
        · exact differs same
        · have three : [(m,first),next,guard].Sublist all := by
            rw [split,List.append_assoc]
            refine List.Sublist.trans ?_ (List.sublist_append_right _ _)
            rw [List.map_cons,List.cons_append]
            refine List.Sublist.cons_cons _ (List.Sublist.trans ?_ (List.sublist_append_right _ _))
            exact (List.singleton_sublist.mpr member).cons_cons next
          exact differs (contiguous _ _ _ three same.symm)

/-- Without a guard there is no module. -/
theorem tracks_nil {s : State} (tracks : Tracks [] s) : s.g_module_list = [] := by
  cases tracks with
  | @settled choices taken chosen =>
    cases choices with
    | nil => simpa using chosen
    | cons => simp [Choice.guards] at taken
  | @trying _ _ _ _ branch taken _ _ _ _ _ lost =>
    cases branch with
    | none => simp [lost rfl] at taken
    | some => simp at taken

/-- Behind the last trial, each module has the branch that is selected, if the last one has any. -/
theorem tracks_settled {taken : List Guard} {s : State} (tracks : Tracks taken s) (ready : Ready s)
    (marked : Marked s) :
    ∃ choices : List Choice,taken = choices.flatMap Choice.guards ∧
      s.g_module_list.map selected = choices.map (fun choice => some choice.selected) ∧
      s.trials.map summary = choices.flatMap Choice.trials ∧ (choices.map Choice.module).IsChain (· ≠ ·) := by
  cases tracks with
  | settled taken chosen trials differ => exact ⟨_,taken,chosen,trials,differ⟩
  | @trying _ _ m _ branch _ listed _ _ _ waiting =>
    have last : s.g_module_list.getLast? = some ⟨m,branch⟩ := by rw [listed,List.getLast?_concat]
    cases branch with
    | none => exact absurd rfl (ready _ last)
    | some branch =>
      have passed := marked _ last branch rfl
      rw [(waiting branch rfl).unmarked] at passed
      cases passed

theorem ready_start : Ready start := fun _ member => absurd member (by simp [start])

/-- The selection is written at the end. -/
theorem write_files_chosen {s s' : State} {choices : List Choice} (some_module : s.g_module_list ≠ [])
    (chosen : s.g_module_list.map selected = choices.map fun choice => some choice.selected)
    (wrote : write_files g s = .ok () s') :
    s'.trials = s.trials ∧ s'.h = header_text g (choices.map Choice.selected) := by
  obtain ⟨older,module,listed⟩ := (listed_or s).resolve_left some_module
  have last_chosen := chosen
  rw [listed] at last_chosen
  obtain ⟨_,_,_,_,last⟩ := chosen_last last_chosen
  obtain ⟨branch,current,_⟩ := selected_iff.mp last
  obtain ⟨branches,bucket,files⟩ := write_files_ok listed current wrote
  obtain ⟨all,found,names⟩ := chosen_branches chosen
  rw [listed] at found names
  obtain ⟨_,older_found,rfl⟩ := (mapM_branch_of current).mp found
  rw [files.older_branches] at older_found
  cases older_found
  refine ⟨files.trials,?_⟩
  rw [files.h,names]

theorem write_files_obstructed {s s' : State} {choices : List Choice} {failure : Failure}
    (some_module : s.g_module_list ≠ [])
    (chosen : s.g_module_list.map selected = choices.map fun choice => some choice.selected)
    (stopped : write_files g s = .error failure s') :
    s'.trials = s.trials ∧ Obstructed g world s.trials.length failure := by
  obtain ⟨older,module,listed⟩ := (listed_or s).resolve_left some_module
  rw [listed] at chosen
  obtain ⟨_,_,_,before,last⟩ := chosen_last chosen
  obtain ⟨branch,current,_⟩ := selected_iff.mp last
  obtain ⟨branches,found,_⟩ := chosen_branches before
  obtain ⟨trials,older_stopped | ⟨text,merge_stopped⟩⟩ := write_files_error listed current stopped
  · rw [found] at older_stopped
    cases older_stopped
  · exact ⟨trials,.merge (merge_error merge_stopped) merge_stopped⟩

/-- How a run can end. One that succeeds has tried the branches of each module in their order up to the first one that
    passes, and has selected that one; one that fails has tried them in this way as far as it got, and has one of four
    reasons. -/
def Selects (g : Globals) (world : World) (header : List Int8) : EStateM.Result Failure State Unit → Prop
  | .ok _ s =>
    (∃ choices : List Choice,choices ≠ [] ∧ (choices.map Choice.module).Nodup ∧
      guards header = choices.flatMap Choice.guards ∧
      s.trials.map summary = choices.flatMap Choice.trials ∧
      s.h = header_text g (choices.map Choice.selected)) ∧ ∀ failure,¬Illegible header failure
  | .error failure s =>
    ∃ (choices : List Choice) (m : List Int8) (failed : List (List Int8)) (rest : List Guard),
      (choices.map Choice.module).Nodup ∧
      guards header = choices.flatMap Choice.guards ++ failed.map (fun b => (m,b)) ++ rest ∧
      s.trials.map summary = choices.flatMap Choice.trials ++ failed.map (fun b => (m,b,false)) ∧
      (failure = .not_ready ∧ guards header = [] ∨
        failure = .module_failed m ∧ failed ≠ [] ∧ m ∉ choices.map Choice.module ∧ (∀ guard ∈ rest,guard.1 ≠ m) ∨
        Illegible header failure ∨ Obstructed g world s.trials.length failure)

theorem hconf_conf_selects (g : Globals) (world : World) (header : List Int8)
    (contiguous : Neighbours Prod.fst (guards header)) : Selects g world header (hconf_conf g world header start) := by
  rcases main_loop_runs (g := g) (header_lines header) 1 ready_start with
    ⟨t,ended,run,ready,marked,legible⟩ | ⟨failure,s',before,after,t,stopped,split,trials,run,stops⟩
  · unfold hconf_conf
    rw [bind_ok ended,bind_get]
    have tracks : Tracks (guards header) t := tracks_run tracks_start run
    obtain ⟨choices,taken,chosen,trials,differ⟩ := tracks_settled tracks ready marked
    have nodup := modules_nodup contiguous (by rw [← taken]) differ
    have readable (failure : Failure) : ¬Illegible header failure := by
      rintro ⟨before,line,after,split,seen,other,stopped⟩
      obtain ⟨expr,read⟩ := legible before line after split (.inr seen) other
      rw [stopped] at read
      cases read
    by_cases none_module : t.g_module_list = []
    · rw [none_module] at chosen ⊢
      cases choices with
      | nil => exact ⟨[],[],[],[],nodup,by simpa using taken,by simpa using trials,.inl ⟨rfl,taken⟩⟩
      | cons => cases chosen
    · have some_choice : choices ≠ [] := by
        rintro rfl
        exact none_module (by simpa using chosen)
      rw [if_neg (by simpa using none_module)]
      cases wrote : write_files g t with
      | ok _ s =>
        obtain ⟨same,h⟩ := write_files_chosen none_module chosen wrote
        rw [Selects,same]
        exact ⟨⟨choices,some_choice,nodup,taken,trials,h⟩,readable⟩
      | error failure s =>
        obtain ⟨same,obstructed⟩ := write_files_obstructed none_module chosen wrote
        rw [Selects,same]
        exact ⟨choices,[],[],[],nodup,by simpa using taken,by simpa using trials,.inr (.inr (.inr obstructed))⟩
  · unfold hconf_conf
    rw [bind_error stopped,Selects,trials]
    have tracks := tracks_run tracks_start run
    rw [List.nil_append] at tracks
    have whole : guards header = before.filterMap get_branch ++ after.filterMap get_branch := by
      rw [guards,split,List.filterMap_append]
    have so_far : ∃ (choices : List Choice) (m : List Int8) (failed : List (List Int8)) (rest : List Guard),
        (choices.map Choice.module).Nodup ∧
        guards header = choices.flatMap Choice.guards ++ failed.map (fun b => (m,b)) ++ rest ∧
        t.trials.map summary = choices.flatMap Choice.trials ++ failed.map (fun b => (m,b,false)) := by
      obtain ⟨choices,m,failed,waiting,taken,results,differ⟩ := tracks_parts tracks
      have parts : guards header =
          choices.flatMap Choice.guards ++ failed.map (fun b => (m,b)) ++ (waiting ++ after.filterMap get_branch) := by
        rw [whole,taken,List.append_assoc]
      refine ⟨choices,m,failed,_,modules_nodup contiguous ?_ differ,parts,results⟩
      rw [parts,List.append_assoc]
      exact List.sublist_append_left _ _
    cases stops with
    | failed listed last =>
      obtain ⟨choices,failed,parts,results,nodup,tried,other,beyond⟩ := tracks_failed tracks listed last contiguous whole
      exact ⟨choices,_,failed,_,nodup,parts,results,.inr (.inl ⟨rfl,tried,other,beyond⟩)⟩
    | blocked blocked =>
      obtain ⟨choices,m,failed,rest,nodup,parts,results⟩ := so_far
      exact ⟨choices,m,failed,rest,nodup,parts,results,.inr (.inr (.inr (tracks_obstructed tracks blocked)))⟩
    | @misread line rest failure here other listed stopped =>
      obtain ⟨choices,m,failed,rest,nodup,parts,results⟩ := so_far
      have illegible : Illegible header failure := by
        refine ⟨before,line,_,by rw [split,here],?_,other,stopped⟩
        intro none_guard
        rw [none_guard] at tracks
        exact listed (tracks_nil tracks)
      exact ⟨choices,m,failed,rest,nodup,parts,results,.inr (.inr (.inl illegible))⟩

end

/-! A first branch that fails, and a comment that cannot be read. -/

def two_branches : List Int8 := lit "#if HCONF_mA_bX\n#elif HCONF_mA_bY\n#endif\n"

def no_value : List Int8 := lit "#if HCONF_mA_bX\n#elif HCONF_mA_bY\n/* HCONF_CC */\n#endif\n"

/-- The first compilation fails. -/
def first_fails : World where
  echo _ _ := lit "\n\n\n\n\n"
  compile trial _ := if trial = 0 then ⟨[lit "error\n"],.exited 1⟩ else ⟨[],.exited 0⟩
  link _ _ := ⟨[],.exited 0⟩
  test _ := .exited 0

def ends (world : World) (header : List Int8) :
    Except (Failure × List (List Int8 × List Int8 × Bool)) (List (List Int8 × List Int8 × Bool)) :=
  match hconf_conf some_globals world header start with
  | .ok _ s => .ok (s.trials.map summary)
  | .error failure s => .error (failure,s.trials.map summary)

theorem two_lines :
    header_lines two_branches = [lit "#if HCONF_mA_bX\n",lit "#elif HCONF_mA_bY\n",lit "#endif\n"] := by decide

theorem no_value_lines : header_lines no_value =
    [lit "#if HCONF_mA_bX\n",lit "#elif HCONF_mA_bY\n",lit "/* HCONF_CC */\n",lit "#endif\n"] := by decide

theorem two_guards : guards two_branches = [(lit "A",lit "X"),(lit "A",lit "Y")] := by
  rw [guards,two_lines]
  decide

theorem neighbours_pair (a b : Guard) : Neighbours Prod.fst [a,b] := by
  intro x y z within
  have three := within.length_le
  simp at three

theorem hconf_conf_second_branch :
    ∃ (s : State) (choices : List Choice),hconf_conf some_globals first_fails two_branches start = .ok () s ∧
      s.trials.map summary = [(lit "A",lit "X",false),(lit "A",lit "Y",true)] ∧
      s.trials.map summary = choices.flatMap Choice.trials ∧
      s.h = header_text some_globals (choices.map Choice.selected) := by
  have result : ends first_fails two_branches = .ok [(lit "A",lit "X",false),(lit "A",lit "Y",true)] := by
    unfold ends hconf_conf
    rw [two_lines]
    decide +kernel
  have contiguous : Neighbours Prod.fst (guards two_branches) := by
    rw [two_guards]
    exact neighbours_pair _ _
  -- The run is evaluated in `result` only.
  generalize two_branches = header at *
  have run := hconf_conf_selects some_globals first_fails header contiguous
  unfold ends at result
  cases ended : hconf_conf some_globals first_fails header start with
  | error failure s =>
    rw [ended] at result
    cases result
  | ok _ s =>
    rw [ended] at result run
    obtain ⟨⟨choices,_,_,_,trials,h⟩,_⟩ := run
    exact ⟨s,choices,rfl,Except.ok.inj result,trials,h⟩

/-- The first branch has passed, but the run fails at the comment behind it. -/
theorem hconf_conf_no_value :
    Neighbours Prod.fst (guards no_value) ∧ guards no_value = [(lit "A",lit "X"),(lit "A",lit "Y")] ∧
      ∃ s,hconf_conf some_globals (some_world ⟨[],.exited 0⟩ ⟨[],.exited 0⟩ (.exited 0)) no_value start =
          .error (.missing_value 3) s ∧
        s.trials.map summary = [(lit "A",lit "X",true)] := by
  have taken : guards no_value = [(lit "A",lit "X"),(lit "A",lit "Y")] := by
    rw [guards,no_value_lines]
    decide +kernel
  have result : ends (some_world ⟨[],.exited 0⟩ ⟨[],.exited 0⟩ (.exited 0)) no_value =
      .error (.missing_value 3,[(lit "A",lit "X",true)]) := by
    unfold ends hconf_conf
    rw [no_value_lines]
    decide +kernel
  refine ⟨by rw [taken]; exact neighbours_pair _ _,taken,?_⟩
  unfold ends at result
  cases ended : hconf_conf some_globals (some_world ⟨[],.exited 0⟩ ⟨[],.exited 0⟩ (.exited 0)) no_value start with
  | error failure s =>
    rw [ended] at result
    obtain ⟨rfl,trials⟩ := Prod.mk.inj (Except.error.inj result)
    exact ⟨s,rfl,trials⟩
  | ok _ s =>
    rw [ended] at result
    cases result

end Htools.HconfConf
