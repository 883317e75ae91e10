import Htools.HconfOrder

/-!
The order of the libraries. A file's flags go in front of those of the files before
it and the first one of each flag stays, so that a flag that a later file has again
comes ahead of flags it stood behind, where that file does not have these, too
(`merge_lists_libs_iff`).
-/
namespace Htools.HconfMerge
open Htools.Lexing Htools.ConfigFile Htools.CString Htools.Selection VariableEnum

/-- What `merge` takes out of each file. -/
abbrev Found (a_argv : List HconfFile) (found : List FlagLists) : Prop :=
  List.Forall₂ (fun file lists => read_file file = .ok lists) a_argv found

theorem read_files_libs {a_argv : List HconfFile} {found : List FlagLists} (each : Found a_argv found) (old : FlagLists) :
    ∃ all,read_files old a_argv = .ok all ∧
      all VAR_LIBS = (found.map fun lists => lists VAR_LIBS).reverse.flatten ++ old VAR_LIBS := by
  induction each generalizing old with
  | nil => exact ⟨old,rfl,rfl⟩
  | @cons file lists a_argv found read _ ih =>
    obtain ⟨all,reads,libs⟩ := ih (concat old lists)
    refine ⟨all,bind_ok_iff.mpr ⟨lists,read,reads⟩,?_⟩
    rw [libs,concat,if_pos rfl,List.map_cons,List.reverse_cons,List.flatten_append,List.flatten_singleton,List.append_assoc]

/-- The merged libraries are the first ones from the last file on, and where the files do not have them in opposite
    orders, the order of each file stays exactly where a flag is followed by those that a file had in front of it. -/
theorem merge_lists_libs_iff (junk : FlagMemory) (a_bucket : Bucket) {a_argv : List HconfFile} {found : List FlagLists}
    (each : Found a_argv found) :
    ∃ bucket libs,libs = found.map (fun lists => lists VAR_LIBS) ∧ merge_lists junk a_bucket a_argv = .ok bucket ∧
      bucket.var VAR_LIBS = written (firsts libs.reverse.flatten) ∧
      (Compatible libs → (KeepsOrders libs (firsts libs.reverse.flatten) ↔ Followed libs)) := by
  obtain ⟨all,read,is⟩ := read_files_libs each fun _ => []
  rw [List.append_nil] at is
  refine ⟨{ a_bucket with var := fun i => join (select i (all i)) },_,rfl,?_,?_,fun compatible => ?_⟩
  · rw [merge_lists_eq,merge,merge_flags,read]
    rfl
  · change join (remove_dups (all VAR_LIBS).length (all VAR_LIBS)) = _
    rw [remove_dups_firsts,join_written,is]
  · rw [← keeps_orders_iff compatible]
    unfold KeepsOrders
    simp only [ahead_firsts]

/-- A file with the given LIBS only. -/
def libs_file (libs : String) : HconfFile := ⟨lit "hconf",some (lit ("\n\n\n\n" ++ libs ++ "\n"))⟩

/-- The second file brings `-lb` ahead of `-la`. -/
theorem merge_lists_libs_fails : ∃ bucket found,Found [libs_file "-la -lb",libs_file "-lb"] found ∧
    found.map (fun lists => lists VAR_LIBS) = [[lit "-la",lit "-lb"],[lit "-lb"]] ∧
    merge_lists no_flags empty_bucket [libs_file "-la -lb",libs_file "-lb"] = .ok bucket ∧
    bucket.var VAR_LIBS = some (lit "-lb -la ") ∧
    Compatible [[lit "-la",lit "-lb"],[lit "-lb"]] ∧
    ¬KeepsOrders [[lit "-la",lit "-lb"],[lit "-lb"]] [lit "-lb",lit "-la"] := by
  obtain ⟨one,read_one,one_libs⟩ := of_map_ok (show
    (read_file (libs_file "-la -lb")).map (· VAR_LIBS) = .ok [lit "-la",lit "-lb"] by decide)
  obtain ⟨two,read_two,two_libs⟩ := of_map_ok (show
    (read_file (libs_file "-lb")).map (· VAR_LIBS) = .ok [lit "-lb"] by decide)
  have each : Found [libs_file "-la -lb",libs_file "-lb"] [one,two] := .cons read_one (.cons read_two .nil)
  have libs : [one,two].map (fun lists => lists VAR_LIBS) = [[lit "-la",lit "-lb"],[lit "-lb"]] := by
    rw [List.map_cons,List.map_singleton,one_libs,two_libs]
  obtain ⟨all,read,all_libs⟩ := read_files_libs each fun _ => []
  rw [libs] at all_libs
  refine ⟨{ empty_bucket with var := fun i => join (select i (all i)) },[one,two],each,libs,?_,?_,?_,?_⟩
  · rw [merge_lists_eq,merge,merge_flags,read]
    rfl
  · change join (remove_dups (all VAR_LIBS).length (all VAR_LIBS)) = _
    rw [all_libs]
    decide
  · refine compatible_of fun l l_member k k_member a b c behind front => ?_
    have pair {l : List (List Int8)} {a b : List Int8} (member : l ∈ [[lit "-la",lit "-lb"],[lit "-lb"]])
        (ahead : Ahead l a b) : a = lit "-la" ∧ b = lit "-lb" := by
      rcases List.mem_pair.mp member with rfl | rfl
      · exact ahead_pair ahead
      · have same := List.mem_singleton.mp ahead.mem.1
        exact absurd (same.trans (List.mem_singleton.mp ahead.mem.2).symm) ahead.ne
    exact absurd ((pair l_member behind).1.symm.trans (pair k_member front).2) (by decide)
  · intro keeps
    have kept := keeps _ List.mem_cons_self (lit "-la") (lit "-lb") ⟨by decide,by decide⟩
    exact absurd kept.1 (by decide)

/-- `-la` stays ahead of `-lc`, as the second file has it, too. -/
theorem merge_lists_libs_two : ∃ bucket,
    merge_lists no_flags empty_bucket [libs_file "-la -lc",libs_file "-la -lb"] = .ok bucket ∧
    bucket.var VAR_LIBS = some (lit "-la -lb -lc ") ∧
    KeepsOrders [[lit "-la",lit "-lc"],[lit "-la",lit "-lb"]] [lit "-la",lit "-lb",lit "-lc"] := by
  obtain ⟨one,read_one,one_libs⟩ := of_map_ok (show
    (read_file (libs_file "-la -lc")).map (· VAR_LIBS) = .ok [lit "-la",lit "-lc"] by decide)
  obtain ⟨two,read_two,two_libs⟩ := of_map_ok (show
    (read_file (libs_file "-la -lb")).map (· VAR_LIBS) = .ok [lit "-la",lit "-lb"] by decide)
  obtain ⟨bucket,libs,is,merged,text,kept⟩ :=
    @merge_lists_libs_iff no_flags empty_bucket [libs_file "-la -lc",libs_file "-la -lb"] [one,two]
      (.cons read_one (.cons read_two .nil))
  rw [List.map_cons,List.map_singleton,one_libs,two_libs] at is
  subst is
  have firsts_is : firsts [[lit "-la",lit "-lc"],[lit "-la",lit "-lb"]].reverse.flatten = [lit "-la",lit "-lb",lit "-lc"] := by
    decide
  rw [firsts_is] at text kept
  refine ⟨bucket,merged,?_,(kept ?_).mpr ?_⟩
  · rw [text]
    decide
  · refine compatible_of fun l l_member k k_member a b c behind front => ?_
    have first : a = lit "-la" := by
      rcases List.mem_pair.mp l_member with rfl | rfl
      · exact (ahead_pair behind).1
      · exact (ahead_pair behind).1
    rcases List.mem_pair.mp k_member with rfl | rfl
    · exact absurd (first.symm.trans (ahead_pair front).2) (by decide)
    · exact absurd (first.symm.trans (ahead_pair front).2) (by decide)
  · intro before l between later_l later split a b ahead _
    have sizes := congrArg List.length split
    simp only [List.length_append,List.length_cons,List.length_nil] at sizes
    have before_nil : before = [] := List.length_eq_zero_iff.mp (by omega)
    have between_nil : between = [] := List.length_eq_zero_iff.mp (by omega)
    subst before_nil between_nil
    obtain ⟨rfl,rest⟩ := List.cons.inj split
    obtain ⟨rfl,_⟩ := List.cons.inj rest
    rw [(ahead_pair ahead).1]
    exact ⟨_,List.mem_cons_self,List.mem_cons_self⟩

end Htools.HconfMerge
