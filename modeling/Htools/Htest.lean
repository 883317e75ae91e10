import Htools.Machine
import Mathlib.Algebra.Order.Group.Nat
import Mathlib.Data.List.Basic

/-!
The test runner of `htest/src/htest.c` with its recovery, where each test has a
process of its own. The tests of a suite are counted by a call of its function, and
picked one by one by further calls (`suite_call_one`). The verdict is right where
the counters do not overflow and no process dies of a signal (`main_judges_iff`).
-/
namespace Htools.Htest

/-! ### Processes -/

abbrev Signal := { number : Fin 127 // number ≠ 0 }

/-- How a process ends. -/
inductive Ending where
  | exited (status : UInt8)
  | signaled (signal : Signal) (core : Bool)
  deriving DecidableEq, Repr

/-- The status that `waitpid` stores. -/
def Ending.status : Ending → Int32
  | .exited status => Int32.ofNat (status.toNat * 256)
  | .signaled signal core => Int32.ofNat (signal.val + if core then 128 else 0)

def WEXITSTATUS (status : Int32) : Int32 := (status &&& 0xff00) >>> 8

def EXIT_SUCCESS : UInt8 := 0

def EXIT_FAILURE : UInt8 := 1

/-- `SIGILL`, `SIGABRT`, `SIGBUS`, `SIGFPE` and `SIGSEGV`, which have the handler `suite_sighandler`. -/
def suite_signals : List Nat := [4,6,7,8,11]

/-- How the code of a test leaves its process: it returns, it exits, or a signal is raised, where the
    test may have put back the default action. -/
inductive Body where
  | returns (passed : Bool)
  | exits (status : UInt8)
  | raises (signal : Signal) (core : Bool)
  | killed (signal : Signal) (core : Bool)

/-- `suite_sighandler`, as far as the main process can see it. -/
def suite_sighandler : Ending := .exited EXIT_FAILURE

def child_ending : Body → Ending
  | .returns passed => .exited (if passed then EXIT_SUCCESS else EXIT_FAILURE)
  | .exits status => .exited status
  | .raises signal core => if signal.val.val ∈ suite_signals then suite_sighandler else .signaled signal core
  | .killed signal core => .signaled signal core

/-- A process that `main` has made: the tests that it runs, its end, and whether it is counted. -/
structure Forked (τ : Type) where
  ran : List τ
  ending : Ending
  counted : Bool

structure State (τ : Type) where
  test_num : UInt32
  test_pass_num : UInt32
  forked : List (Forked τ)

section
variable {τ : Type}

/-- One test of a suite, with the enumerator and the tests that have run. -/
def HTEST_ADD (a_test_index_ : UInt32) (call : UInt32 × List τ) (test : τ) : UInt32 × List τ :=
  let a_test_enumerator_ := call.1 + 1
  (a_test_enumerator_,if a_test_enumerator_ = a_test_index_ then call.2 ++ [test] else call.2)

/-- A call of the function of a suite, with an enumerator that is zero. -/
def suite_call (suite : List τ) (a_test_index : UInt32) : UInt32 × List τ := suite.foldl (HTEST_ADD a_test_index) (0,[])

variable (fork : Nat → Option Body)

/-- The loop over the tests of a suite. -/
def test_loop (suite : List τ) (test_enumerator : UInt32) : (fuel : Nat) → (test_index : UInt32) → State τ → Except Stop (State τ)
  | 0,_,_ => .error .fuel
  | fuel + 1,test_index,s =>
    if test_enumerator ≥ test_index then
      match fork s.forked.length with
      | none => .error .exit
      | some body =>
        let ending := child_ending body
        let passed : Bool := WEXITSTATUS ending.status = 0
        test_loop suite test_enumerator fuel (test_index + 1)
          { s with
            test_pass_num := if passed then s.test_pass_num + 1 else s.test_pass_num
            forked := s.forked ++ [⟨(suite_call suite test_index).2,ending,passed⟩] }
    else .ok s

/-- The loop over the suites. A test that runs in the call for the number of tests has no `a_passed` to write to. -/
def suite_loop (fuel : Nat) : List (List τ) → State τ → Except Stop (State τ)
  | [],s => .ok s
  | suite :: suites,s =>
    let (test_enumerator,ran) := suite_call suite 0
    if ¬ran.isEmpty then .error .fault
    else if 0 = test_enumerator then suite_loop fuel suites s
    else do
      let s ← test_loop fork suite test_enumerator fuel 1 { s with test_num := s.test_num + test_enumerator }
      suite_loop fuel suites s

/-- `main` with its recovery, from where it has read its options. -/
def main (fuel : Nat) (g_htest_suite_list_ : List (List τ)) : Except Stop (UInt8 × List (Forked τ)) := do
  let s ← suite_loop fork fuel g_htest_suite_list_ ⟨0,0,[]⟩
  return (if s.test_pass_num = s.test_num then EXIT_SUCCESS else EXIT_FAILURE,s.forked)

/-! ### The calls of a suite -/

/-- The tests that a call runs behind those that the enumerator has passed. -/
def picked (a_test_index : UInt32) : (enumerator : UInt32) → List τ → List τ
  | _,[] => []
  | enumerator,test :: tests =>
    (if enumerator + 1 = a_test_index then [test] else []) ++ picked a_test_index (enumerator + 1) tests

theorem ofNat_succ (n : Nat) : UInt32.ofNat (n + 1) = 1 + UInt32.ofNat n := by
  rw [Nat.add_comm,UInt32.ofNat_add]
  rfl

theorem ofNat_inj {a b : Nat} : UInt32.ofNat a = UInt32.ofNat b ↔ a % 2 ^ 32 = b % 2 ^ 32 := by
  rw [← UInt32.toNat_inj,UInt32.toNat_ofNat',UInt32.toNat_ofNat']

theorem fold_picked (a_test_index enumerator : UInt32) (ran tests : List τ) :
    tests.foldl (HTEST_ADD a_test_index) (enumerator,ran) =
      (enumerator + UInt32.ofNat tests.length,ran ++ picked a_test_index enumerator tests) := by
  induction tests generalizing enumerator ran with
  | nil => simp [picked]
  | cons test tests ih =>
    rw [List.foldl_cons,HTEST_ADD,ih,List.length_cons,ofNat_succ,UInt32.add_assoc,picked]
    split
    · rw [List.append_assoc]
    · rw [List.nil_append]

theorem suite_call_eq (suite : List τ) (a_test_index : UInt32) :
    suite_call suite a_test_index = (UInt32.ofNat suite.length,picked a_test_index 0 suite) := by
  rw [suite_call,fold_picked,UInt32.zero_add,List.nil_append]

theorem picked_append (a_test_index enumerator : UInt32) (front back : List τ) :
    picked a_test_index enumerator (front ++ back) =
      picked a_test_index enumerator front ++ picked a_test_index (enumerator + UInt32.ofNat front.length) back := by
  induction front generalizing enumerator with
  | nil => simp [picked]
  | cons test front ih => rw [List.cons_append,picked,picked,ih,List.append_assoc,List.length_cons,ofNat_succ,UInt32.add_assoc]

/-- No test is run where the enumerator does not come to the index. -/
theorem picked_none {index start : Nat} {tests : List τ} (apart : ∀ k < tests.length,(start + k + 1) % 2 ^ 32 ≠ index % 2 ^ 32) :
    picked (UInt32.ofNat index) (UInt32.ofNat start) tests = [] := by
  induction tests generalizing start with
  | nil => rfl
  | cons test tests ih =>
    have next : UInt32.ofNat start + 1 = UInt32.ofNat (start + 1) := (UInt32.ofNat_add start 1).symm
    have here : ¬UInt32.ofNat (start + 1) = UInt32.ofNat index := fun same =>
      apart 0 (Nat.succ_pos tests.length) (ofNat_inj.mp same)
    rw [picked,next,if_neg here,List.nil_append]
    apply ih
    intro k within
    have later := apart (k + 1) (Nat.succ_lt_succ within)
    rwa [Nat.add_right_comm start 1 k]

/-- A call with an index runs the test at that place. -/
theorem suite_call_one (front back : List τ) (test : τ) (small : (front ++ test :: back).length < 2 ^ 32) :
    suite_call (front ++ test :: back) (UInt32.ofNat (front.length + 1)) =
      (UInt32.ofNat (front ++ test :: back).length,[test]) := by
  rw [List.length_append,List.length_cons] at small
  have before : picked (UInt32.ofNat (front.length + 1)) (UInt32.ofNat 0) front = [] := by
    apply picked_none
    intro k within
    rw [Nat.mod_eq_of_lt (by omega),Nat.mod_eq_of_lt (by omega)]
    omega
  have after : picked (UInt32.ofNat (front.length + 1)) (UInt32.ofNat (front.length + 1)) back = [] := by
    apply picked_none
    intro k within
    rw [Nat.mod_eq_of_lt (by omega),Nat.mod_eq_of_lt (by omega)]
    omega
  have here : UInt32.ofNat front.length + 1 = UInt32.ofNat (front.length + 1) := (UInt32.ofNat_add front.length 1).symm
  have zero : (0 : UInt32) = UInt32.ofNat 0 := rfl
  rw [suite_call_eq,picked_append,zero,before,List.nil_append,← zero,UInt32.zero_add,picked,here,if_pos rfl,after,List.append_nil]

/-- The call for the number of tests runs none of them, where they can be counted. -/
theorem suite_call_zero (suite : List τ) : (suite_call suite 0).2 = [] ↔ suite.length < 2 ^ 32 := by
  rw [suite_call_eq]
  have zero : (0 : UInt32) = UInt32.ofNat 0 := rfl
  constructor
  · intro none
    by_contra large
    have split : suite = suite.take (2 ^ 32 - 1) ++ suite.drop (2 ^ 32 - 1) := (List.take_append_drop _ suite).symm
    have taken : (suite.take (2 ^ 32 - 1)).length = 2 ^ 32 - 1 := by
      rw [List.length_take]
      omega
    cases rest : suite.drop (2 ^ 32 - 1) with
    | nil =>
      have short := List.drop_eq_nil_iff.mp rest
      omega
    | cons test back =>
      rw [split,picked_append,taken,rest,picked] at none
      have wraps : 0 + UInt32.ofNat (2 ^ 32 - 1) + 1 = 0 := rfl
      rw [if_pos wraps] at none
      exact absurd none (by simp)
  · intro small
    rw [zero]
    apply picked_none
    intro k within
    rw [Nat.mod_eq_of_lt (by omega)]
    omega

/-! ### The status of a process -/

theorem exited_status (status : UInt8) : WEXITSTATUS (Ending.exited status).status = 0 ↔ status = EXIT_SUCCESS := by
  have all : ∀ n : Fin 256,WEXITSTATUS (Int32.ofNat (n.val * 256)) = 0 ↔ n.val = 0 := by decide +kernel
  rw [← UInt8.toNat_inj]
  exact all ⟨status.toNat,status.toNat_lt⟩

/-- The status of a process that a signal has ended reads as a success. -/
theorem signaled_status (signal : Signal) (core : Bool) : WEXITSTATUS (Ending.signaled signal core).status = 0 := by
  have all : ∀ (n : Fin 127) (core : Bool),WEXITSTATUS (Int32.ofNat (n + if core then 128 else 0)) = 0 := by decide
  exact all signal.val core

theorem ending_status {ending : Ending} (alive : ∀ signal core,ending ≠ .signaled signal core) :
    WEXITSTATUS ending.status = 0 ↔ ending = .exited EXIT_SUCCESS := by
  cases ending with
  | exited status => rw [exited_status,Ending.exited.injEq]
  | signaled signal core => exact absurd rfl (alive signal core)

/-! ### The loops -/

variable (bodies : Nat → Body)

/-- What is known of the process for a test. -/
def entry (k : Nat) (test : τ) : Forked τ :=
  ⟨[test],child_ending (bodies k),decide (WEXITSTATUS (child_ending (bodies k)).status = 0)⟩

/-- The processes for the tests, from the one with number `k` on. -/
def entries : (k : Nat) → List τ → List (Forked τ)
  | _,[] => []
  | k,test :: tests => entry bodies k test :: entries (k + 1) tests

/-- The tests have been run one by one, and those that pass are counted. -/
structure Adds (tests : List τ) (s t : State τ) : Prop where
  forked : t.forked = s.forked ++ entries bodies s.forked.length tests
  passes : t.test_pass_num =
    s.test_pass_num + UInt32.ofNat ((entries bodies s.forked.length tests).countP fun process => process.counted)

variable {bodies}

theorem entries_length (k : Nat) (tests : List τ) : (entries bodies k tests).length = tests.length := by
  induction tests generalizing k with
  | nil => rfl
  | cons test tests ih => rw [entries,List.length_cons,List.length_cons,ih]

theorem entries_append (k : Nat) (front back : List τ) :
    entries bodies k (front ++ back) = entries bodies k front ++ entries bodies (k + front.length) back := by
  induction front generalizing k with
  | nil => rfl
  | cons test front ih =>
    rw [List.cons_append,entries,entries,ih,List.cons_append,List.length_cons,Nat.add_assoc,Nat.add_comm 1]

theorem Adds.nil (s : State τ) : Adds bodies [] s s := ⟨by rw [entries,List.append_nil],by simp [entries]⟩

theorem Adds.append {front back : List τ} {s t u : State τ} (first : Adds bodies front s t) (second : Adds bodies back t u) :
    Adds bodies (front ++ back) s u := by
  have behind : t.forked.length = s.forked.length + front.length := by
    rw [first.forked,List.length_append,entries_length]
  constructor
  · rw [second.forked,first.forked,entries_append,List.append_assoc,← first.forked,behind]
  · rw [second.passes,first.passes,entries_append,List.countP_append,UInt32.ofNat_add,behind,UInt32.add_assoc]

theorem ofNat_le {a b : Nat} (a_small : a < 2 ^ 32) (b_small : b < 2 ^ 32) : UInt32.ofNat a ≤ UInt32.ofNat b ↔ a ≤ b := by
  rw [UInt32.le_iff_toNat_le,UInt32.toNat_ofNat_of_lt' a_small,UInt32.toNat_ofNat_of_lt' b_small]

/-- The state behind one test. -/
def one_test (bodies : Nat → Body) (test : τ) (s : State τ) : State τ :=
  let process := entry bodies s.forked.length test
  { s with
    test_pass_num := if process.counted then s.test_pass_num + 1 else s.test_pass_num
    forked := s.forked ++ [process] }

theorem one_test_adds (test : τ) (s : State τ) : Adds bodies [test] s (one_test bodies test s) := by
  refine ⟨rfl,?_⟩
  change (if (entry bodies s.forked.length test).counted = true then s.test_pass_num + 1 else s.test_pass_num) = _
  rw [entries,entries,List.countP_singleton]
  split
  · rfl
  · exact (UInt32.add_zero _).symm

/-- A turn of the loop. -/
theorem test_loop_turn {suite front back : List τ} {test : τ} (split : suite = front ++ test :: back)
    (small : suite.length < 2 ^ 32) (fuel : Nat) (s : State τ) :
    test_loop (fun k => some (bodies k)) suite (UInt32.ofNat suite.length) (fuel + 1) (UInt32.ofNat (front.length + 1)) s =
      test_loop (fun k => some (bodies k)) suite (UInt32.ofNat suite.length) fuel (UInt32.ofNat (front.length + 1 + 1))
        (one_test bodies test s) := by
  have within : front.length + 1 ≤ suite.length := by
    rw [split,List.length_append,List.length_cons]
    omega
  have call : suite_call suite (UInt32.ofNat (front.length + 1)) = (UInt32.ofNat suite.length,[test]) := by
    rw [split] at small ⊢
    exact suite_call_one front back test small
  rw [test_loop,if_pos ((ofNat_le (by omega) small).mpr within),call,UInt32.ofNat_add (front.length + 1) 1]
  rfl

/-- The loop ends behind the last test. -/
theorem test_loop_done {suite : List τ} (small : suite.length < 2 ^ 32 - 1) (fuel : Nat) (s : State τ) :
    test_loop (fun k => some (bodies k)) suite (UInt32.ofNat suite.length) (fuel + 1) (UInt32.ofNat (suite.length + 1)) s = .ok s := by
  have past : ¬UInt32.ofNat suite.length ≥ UInt32.ofNat (suite.length + 1) := fun le => by
    have wrong := (ofNat_le (by omega) (by omega)).mp le
    omega
  rw [test_loop,if_neg past]

/-- The loop comes to its end. -/
theorem test_loop_ends {suite front back : List τ} (split : suite = front ++ back) (small : suite.length < 2 ^ 32 - 1)
    {fuel : Nat} (enough : back.length < fuel) (s : State τ) :
    ∃ t,test_loop (fun k => some (bodies k)) suite (UInt32.ofNat suite.length) fuel (UInt32.ofNat (front.length + 1)) s = .ok t := by
  induction back generalizing front fuel s with
  | nil =>
    rw [List.append_nil] at split
    subst split
    obtain ⟨fuel,rfl⟩ := Nat.exists_eq_add_of_lt enough
    exact ⟨s,test_loop_done small _ s⟩
  | cons test back ih =>
    obtain ⟨fuel,rfl⟩ := Nat.exists_eq_add_of_lt enough
    rw [List.length_cons] at *
    have next : suite = (front ++ [test]) ++ back := by
      rw [split,List.append_assoc,List.singleton_append]
    obtain ⟨t,ran⟩ := ih next (show back.length < back.length + 1 + fuel by omega) (one_test bodies test s)
    refine ⟨t,?_⟩
    rw [test_loop_turn split (by omega)]
    rw [List.length_append,List.length_singleton] at ran
    exact ran

/-- It has run the tests that were left. -/
theorem test_loop_ok {suite front back : List τ} (split : suite = front ++ back) (small : suite.length < 2 ^ 32 - 1)
    {fuel : Nat} {s t : State τ}
    (ran : test_loop (fun k => some (bodies k)) suite (UInt32.ofNat suite.length) fuel (UInt32.ofNat (front.length + 1)) s = .ok t) :
    Adds bodies back s t ∧ t.test_num = s.test_num := by
  induction back generalizing front fuel s with
  | nil =>
    rw [List.append_nil] at split
    subst split
    cases fuel with
    | zero => cases ran
    | succ fuel =>
      rw [test_loop_done small] at ran
      cases ran
      exact ⟨Adds.nil t,rfl⟩
  | cons test back ih =>
    cases fuel with
    | zero => cases ran
    | succ fuel =>
      have next : suite = (front ++ [test]) ++ back := by
        rw [split,List.append_assoc,List.singleton_append]
      rw [test_loop_turn split (by omega)] at ran
      obtain ⟨adds,num⟩ := ih next (by rw [List.length_append,List.length_singleton]; exact ran)
      exact ⟨(one_test_adds test s).append adds,num⟩

/-- With the largest number of tests, the index never gets past it. -/
theorem test_loop_endless (suite : List τ) (fork : Nat → Option Body) (fuel : Nat) (test_index : UInt32) (s t : State τ) :
    test_loop fork suite (UInt32.ofNat (2 ^ 32 - 1)) fuel test_index s ≠ .ok t := by
  induction fuel generalizing test_index s with
  | zero =>
    rintro ⟨⟩
  | succ fuel ih =>
    have within : UInt32.ofNat (2 ^ 32 - 1) ≥ test_index := by
      have below := test_index.toNat_lt
      rw [ge_iff_le,UInt32.le_iff_toNat_le,UInt32.toNat_ofNat_of_lt' (by decide)]
      omega
    rw [test_loop,if_pos within]
    cases fork s.forked.length with
    | none =>
      rintro ⟨⟩
    | some body => exact ih _ _

theorem suite_loop_ends {fuel : Nat} {suites : List (List τ)}
    (small : ∀ suite ∈ suites,suite.length < 2 ^ 32 - 1 ∧ suite.length < fuel) (s : State τ) :
    ∃ t,suite_loop (fun k => some (bodies k)) fuel suites s = .ok t := by
  induction suites generalizing s with
  | nil => exact ⟨s,rfl⟩
  | cons suite suites ih =>
    obtain ⟨few,enough⟩ := small suite List.mem_cons_self
    have rest := ih fun other there => small other (List.mem_cons_of_mem suite there)
    have none_run : (suite_call suite 0).2 = [] := (suite_call_zero suite).mpr (by omega)
    rw [suite_call_eq] at none_run
    rw [suite_loop,suite_call_eq]
    dsimp only at none_run ⊢
    rw [none_run,if_neg (by simp)]
    split
    · exact rest s
    · obtain ⟨t,ran⟩ := test_loop_ends (show suite = [] ++ suite from rfl) few enough { s with test_num := s.test_num + UInt32.ofNat suite.length }
      obtain ⟨u,ended⟩ := rest t
      exact ⟨u,bind_ok_iff.mpr ⟨t,ran,ended⟩⟩

theorem suite_loop_ok {fuel : Nat} {suites : List (List τ)} {s t : State τ}
    (ran : suite_loop (fun k => some (bodies k)) fuel suites s = .ok t) :
    (∀ suite ∈ suites,suite.length < 2 ^ 32 - 1) ∧ Adds bodies suites.flatten s t ∧
      t.test_num = s.test_num + UInt32.ofNat suites.flatten.length := by
  induction suites generalizing s with
  | nil =>
    cases ran
    exact ⟨by simp,Adds.nil t,(UInt32.add_zero _).symm⟩
  | cons suite suites ih =>
    rw [suite_loop,suite_call_eq] at ran
    dsimp only at ran
    split at ran
    · cases ran
    rename_i none_run
    have few : suite.length < 2 ^ 32 := (suite_call_zero suite).mp (by rw [suite_call_eq]; simpa using none_run)
    split at ran
    · rename_i empty
      have zero : suite.length = 0 := by
        have same : UInt32.ofNat 0 = UInt32.ofNat suite.length := empty
        rw [ofNat_inj,Nat.mod_eq_of_lt few] at same
        exact same.symm
      obtain ⟨small,adds,num⟩ := ih ran
      rw [List.length_eq_zero_iff.mp zero,List.flatten_cons,List.nil_append]
      refine ⟨List.forall_mem_cons.mpr ⟨by simp,small⟩,adds,num⟩
    · obtain ⟨u,ran,ended⟩ := bind_ok_iff.mp ran
      obtain ⟨small,adds,num⟩ := ih ended
      have fewer : suite.length < 2 ^ 32 - 1 := by
        by_contra most
        have all : suite.length = 2 ^ 32 - 1 := by omega
        rw [all] at ran
        exact test_loop_endless suite _ fuel 1 _ u ran
      obtain ⟨first,first_num⟩ := test_loop_ok (show suite = [] ++ suite from rfl) fewer ran
      rw [List.flatten_cons]
      refine ⟨List.forall_mem_cons.mpr ⟨fewer,small⟩,Adds.append ⟨first.forked,first.passes⟩ adds,?_⟩
      rw [num,first_num,List.length_append,UInt32.ofNat_add,UInt32.add_assoc]

/-! ### The verdict -/

/-- What a run of `main` is for: each test has a process of its own, and the verdict is that of all processes. -/
structure Judges (bodies : Nat → Body) (suites : List (List τ)) (code : UInt8) (forked : List (Forked τ)) : Prop where
  once : forked.map Forked.ran = suites.flatten.map fun test => [test]
  ends : forked.map Forked.ending = (List.range suites.flatten.length).map fun k => child_ending (bodies k)
  counts : ∀ process ∈ forked,process.counted = true ↔ process.ending = .exited EXIT_SUCCESS
  verdict : code = EXIT_SUCCESS ↔ ∀ process ∈ forked,process.ending = .exited EXIT_SUCCESS

/-- The number of tests whose process does not end with success. -/
def failures (bodies : Nat → Body) (suites : List (List τ)) : Nat :=
  (List.range suites.flatten.length).countP fun k => child_ending (bodies k) ≠ .exited EXIT_SUCCESS

/-- No process dies of a signal, and the counters do not overflow. -/
structure Countable (bodies : Nat → Body) (suites : List (List τ)) : Prop where
  small : ∀ suite ∈ suites,suite.length < 2 ^ 32 - 1
  alive : ∀ k < suites.flatten.length,∀ signal core,child_ending (bodies k) ≠ .signaled signal core
  fails : 2 ^ 32 ∣ failures bodies suites → failures bodies suites = 0

theorem entries_ran (k : Nat) (tests : List τ) : (entries bodies k tests).map Forked.ran = tests.map fun test => [test] := by
  induction tests generalizing k with
  | nil => rfl
  | cons test tests ih =>
    rw [entries,List.map_cons,List.map_cons,ih]
    rfl

theorem entries_ending (k : Nat) (tests : List τ) :
    (entries bodies k tests).map Forked.ending = (List.range tests.length).map fun i => child_ending (bodies (k + i)) := by
  induction tests generalizing k with
  | nil => rfl
  | cons test tests ih =>
    rw [entries,List.map_cons,ih,List.length_cons,List.range_succ_eq_map,List.map_cons,List.map_map]
    refine congrArg₂ _ rfl (List.map_congr_left fun i _ => ?_)
    rw [Function.comp_apply,Nat.succ_eq_add_one,Nat.add_assoc,Nat.add_comm 1]

theorem entries_counted {k : Nat} {tests : List τ} {process : Forked τ} (there : process ∈ entries bodies k tests) :
    process.counted = decide (WEXITSTATUS process.ending.status = 0) := by
  induction tests generalizing k with
  | nil => cases there
  | cons test tests ih =>
    rcases List.mem_cons.mp there with rfl | later
    · rfl
    · exact ih later

/-- The process with number `k` is one of them. -/
theorem entries_mem {tests : List τ} {ending : Ending} :
    (∃ process ∈ entries bodies 0 tests,process.ending = ending) ↔ ∃ k < tests.length,child_ending (bodies k) = ending := by
  rw [← List.mem_map,entries_ending,List.mem_map]
  simp only [List.mem_range,Nat.zero_add]

theorem main_ok {fuel : Nat} {suites : List (List τ)} {code : UInt8} {forked : List (Forked τ)}
    (ran : main (fun k => some (bodies k)) fuel suites = .ok (code,forked)) :
    (∀ suite ∈ suites,suite.length < 2 ^ 32 - 1) ∧ forked = entries bodies 0 suites.flatten ∧
      (code = EXIT_SUCCESS ↔ UInt32.ofNat (forked.countP fun process => process.counted) = UInt32.ofNat suites.flatten.length) := by
  obtain ⟨s,ended,result⟩ := bind_ok_iff.mp ran
  obtain ⟨small,adds,num⟩ := suite_loop_ok ended
  obtain ⟨code_is,forked_is⟩ := Prod.mk.inj (Except.ok.inj result)
  have forked_are : forked = entries bodies 0 suites.flatten := by
    rw [← forked_is,adds.forked]
    rfl
  have num_is : s.test_num = UInt32.ofNat suites.flatten.length := by rw [num,UInt32.zero_add]
  have passes_are : s.test_pass_num = UInt32.ofNat (forked.countP fun process => process.counted) := by
    rw [adds.passes,forked_are,UInt32.zero_add]
    rfl
  refine ⟨small,forked_are,?_⟩
  rw [← code_is,← num_is,← passes_are]
  split
  · rename_i same
    exact iff_of_true rfl same
  · rename_i differ
    exact iff_of_false (by decide) differ

/-- A process that is counted has ended with success, where no signal is in play. -/
theorem entries_counts {tests : List τ} (alive : ∀ k < tests.length,∀ signal core,child_ending (bodies k) ≠ .signaled signal core)
    {process : Forked τ} (there : process ∈ entries bodies 0 tests) :
    process.counted = true ↔ process.ending = .exited EXIT_SUCCESS := by
  obtain ⟨k,within,ending⟩ := entries_mem.mp ⟨process,there,rfl⟩
  rw [entries_counted there,decide_eq_true_iff]
  apply ending_status
  rw [← ending]
  exact alive k within

/-- The counters agree where the number of failures is lost. -/
theorem counters_agree {suites : List (List τ)}
    (alive : ∀ k < suites.flatten.length,∀ signal core,child_ending (bodies k) ≠ .signaled signal core) :
    UInt32.ofNat ((entries bodies 0 suites.flatten).countP fun process => process.counted) = UInt32.ofNat suites.flatten.length ↔
      2 ^ 32 ∣ failures bodies suites := by
  have passes : (entries bodies 0 suites.flatten).countP (fun process => process.counted) =
      (List.range suites.flatten.length).countP fun k => child_ending (bodies k) = .exited EXIT_SUCCESS := by
    have endings := @entries_ending _ bodies 0 suites.flatten
    simp only [Nat.zero_add] at endings
    have mapped := congrArg (List.countP fun ending => decide (ending = Ending.exited EXIT_SUCCESS)) endings
    rw [List.countP_map,List.countP_map] at mapped
    refine Eq.trans (List.countP_congr fun process there => ?_) mapped
    rw [entries_counts alive there,Function.comp_apply,decide_eq_true_iff]
  have total : suites.flatten.length = (List.range suites.flatten.length).countP
      (fun k => child_ending (bodies k) = .exited EXIT_SUCCESS) + failures bodies suites := by
    have parts := List.length_eq_countP_add_countP (l := List.range suites.flatten.length)
      fun k => decide (child_ending (bodies k) = .exited EXIT_SUCCESS)
    rw [List.length_range] at parts
    simpa [failures] using parts
  rw [passes,ofNat_inj]
  omega

theorem failures_zero {suites : List (List τ)} :
    failures bodies suites = 0 ↔ ∀ process ∈ entries bodies 0 suites.flatten,process.ending = .exited EXIT_SUCCESS := by
  unfold failures
  rw [List.countP_eq_zero]
  constructor
  · intro none process there
    obtain ⟨k,within,ending⟩ := entries_mem.mp ⟨process,there,rfl⟩
    rw [← ending]
    simpa using none k (List.mem_range.mpr within)
  · intro all k within
    obtain ⟨process,there,ending⟩ := entries_mem.mpr ⟨k,List.mem_range.mp within,rfl⟩
    rw [← ending,all process there]
    simp

/-- The runner judges its tests where no process dies of a signal and the counters do not overflow. -/
theorem main_judges_iff (bodies : Nat → Body) (suites : List (List τ)) :
    (∃ fuel code forked,main (fun k => some (bodies k)) fuel suites = .ok (code,forked) ∧ Judges bodies suites code forked) ↔
      Countable bodies suites := by
  constructor
  · rintro ⟨fuel,code,forked,ran,judges⟩
    obtain ⟨small,rfl,code_iff⟩ := main_ok ran
    have alive : ∀ k < suites.flatten.length,∀ signal core,child_ending (bodies k) ≠ .signaled signal core := by
      intro k within signal core dead
      obtain ⟨process,there,ending⟩ := entries_mem.mpr ⟨k,within,dead⟩
      have counted : process.counted = true := by
        rw [entries_counted there,ending,signaled_status]
        rfl
      have exited := (judges.counts process there).mp counted
      rw [ending] at exited
      cases exited
    refine ⟨small,alive,fun lost => ?_⟩
    have success := code_iff.mpr ((counters_agree alive).mpr lost)
    exact failures_zero.mpr (judges.verdict.mp success)
  · rintro ⟨small,alive,fails⟩
    have fuel_enough : ∀ suite ∈ suites,suite.length < 2 ^ 32 - 1 ∧ suite.length < suites.flatten.length + 1 :=
      fun suite there => ⟨small suite there,Nat.lt_succ_of_le (List.sublist_flatten_of_mem there).length_le⟩
    obtain ⟨s,ended⟩ := @suite_loop_ends _ bodies _ _ fuel_enough ⟨0,0,[]⟩
    have ran : main (fun k => some (bodies k)) (suites.flatten.length + 1) suites =
        .ok (if s.test_pass_num = s.test_num then EXIT_SUCCESS else EXIT_FAILURE,s.forked) := bind_ok_iff.mpr ⟨s,ended,rfl⟩
    obtain ⟨_,forked_is,code_iff⟩ := main_ok ran
    refine ⟨_,_,_,ran,?_⟩
    rw [forked_is] at code_iff ⊢
    refine ⟨entries_ran 0 _,?_,fun process there => entries_counts alive there,?_⟩
    · have endings := @entries_ending _ bodies 0 suites.flatten
      simpa only [Nat.zero_add] using endings
    · rw [code_iff,counters_agree alive,← failures_zero]
      exact ⟨fails,fun none => none ▸ Nat.dvd_zero _⟩

end

/-- `SIGKILL`, which no handler can catch. -/
def sigkill : Signal := ⟨9,by decide⟩

/-- A test that is killed counts as passed. -/
theorem main_judges_fails :
    ¬∀ (bodies : Nat → Body) (suites : List (List Nat)),∃ fuel code forked,
      main (fun k => some (bodies k)) fuel suites = .ok (code,forked) ∧ Judges bodies suites code forked := by
  intro all
  obtain ⟨fuel,code,forked,ran,judges⟩ := all (fun _ => .killed sigkill false) [[1]]
  obtain ⟨_,rfl,_⟩ := main_ok ran
  have exited := (judges.counts (entry (fun _ => .killed sigkill false) 0 1) List.mem_cons_self).mp (by decide)
  cases exited

end Htools.Htest
