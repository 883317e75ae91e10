import Htools.HconfMerge
import Htools.SortLinks
import Mathlib.Data.List.Perm.Subperm

/-!
`merge` on lists in memory. Flags are nodes of tail queues; those for
`VAR_CPPFLAGS` are in a second queue by links of their own, and the `-l` flags of
a file go through a list of their own. `Holds` says which nodes the lists have,
and that they have none in common, so that a node can be taken out and freed
while the others stay.
-/
namespace Htools.HconfMerge
open Htools.CString Htools.Selection Htools.Tailq Htools.TailqSort VariableEnum

/-! ### Flags in memory -/

/-- The links of `next` and of `original_next`, the texts, the numbers of flags, and the first node that has not been
    allocated. -/
structure FlagMemory where
  links : Memory Nat
  original : Memory Nat
  str : Nat → List Int8
  flag_num : VariableEnum → Nat
  brk : Nat

/-- `&flag_list[i]` -/
def flag_list : VariableEnum → Nat
  | VAR_CC => 0
  | VAR_CPPFLAGS => 1
  | VAR_CFLAGS => 2
  | VAR_LDFLAGS => 3
  | VAR_LIBS => 4

def flag_list_libs : Nat := 5

/-- The first head on the stack of the sort. -/
def flag_sort_stack : Nat := 6

def original_list : Nat := 0

/-- The new flag is the one at `brk`. -/
def add_flag (s : FlagMemory) (a_list : Nat) (flag : List Int8) : FlagMemory :=
  { s with
    links := tailq_insert_tail s.links a_list s.brk
    str := Function.update s.str s.brk flag
    brk := s.brk + 1 }

/-- `REMOVE` -/
def remove_flag (s : FlagMemory) (a_list flag : Nat) : FlagMemory :=
  { s with links := tailq_remove s.links a_list flag }

section
variable (junk : FlagMemory)

/-- A freed node has anything in it. -/
def free_flag (s : FlagMemory) (flag : Nat) : FlagMemory :=
  { s with
    links :=
      { s.links with
        tqe_next := Function.update s.links.tqe_next flag (junk.links.tqe_next flag)
        tqe_prev := Function.update s.links.tqe_prev flag (junk.links.tqe_prev flag) }
    original :=
      { s.original with
        tqe_next := Function.update s.original.tqe_next flag (junk.original.tqe_next flag)
        tqe_prev := Function.update s.original.tqe_prev flag (junk.original.tqe_prev flag) }
    str := Function.update s.str flag (junk.str flag) }

/-! Reading the files. -/

/-- Where the flags of a line go. -/
def line_list (i : VariableEnum) : Nat := if VAR_LIBS = i then flag_list_libs else flag_list i

/-- What the loop over a line does with each flag. -/
def pop_flag (i : VariableEnum) (s : FlagMemory) (flag : List Int8) : FlagMemory :=
  let new := s.brk
  let s := add_flag s (line_list i) flag
  let s := if VAR_CPPFLAGS = i then { s with original := tailq_insert_tail s.original original_list new } else s
  { s with flag_num := Function.update s.flag_num i (s.flag_num i + 1) }

/-- The flags of the lines of a file. -/
def add_lines (lists : FlagLists) (s : FlagMemory) : FlagMemory :=
  VAR_OUTPUT.foldl (fun s i => (lists i).foldl (pop_flag i) s) s

/-- The loop that empties `flag_list_libs`. -/
def drain_libs : (fuel : Nat) → FlagMemory → Except Failure FlagMemory
  | fuel,s =>
    match s.links.tqh_first flag_list_libs,fuel with
    | none,_ => .ok s
    | some _,0 => .error .fuel
    | some _,fuel + 1 =>
      match tailq_last s.links flag_list_libs with
      | none => .error .fault
      | some flag =>
        let s := remove_flag s flag_list_libs flag
        drain_libs fuel { s with links := tailq_insert_head s.links (flag_list VAR_LIBS) flag }

def fill_lists (s : FlagMemory) : List HconfFile → Except Failure FlagMemory
  | [] => .ok s
  | file :: a_argv => do
    let lists ← read_file file
    let s := add_lines lists { s with links := tailq_init s.links flag_list_libs }
    let s ← drain_libs s.brk s
    fill_lists s a_argv

/-! The loops for duplicates. -/

/-- From one node on to the end, what is the same as `flag` goes. -/
def remove_behind (a_list flag : Nat) : (fuel : Nat) → Option Nat → FlagMemory → Except Failure FlagMemory
  | _,none,s => .ok s
  | 0,some _,_ => .error .fuel
  | fuel + 1,some p,s =>
    let next := s.links.tqe_next p
    if 0 = strcmp (s.str flag) (s.str p) then
      remove_behind a_list flag fuel next (free_flag junk (remove_flag s a_list p) p)
    else remove_behind a_list flag fuel next s

/-- From one node back to the beginning, what is the same as `flag` goes. -/
def remove_before (a_list flag : Nat) : (fuel : Nat) → Option Nat → FlagMemory → Except Failure FlagMemory
  | _,none,s => .ok s
  | 0,some _,_ => .error .fuel
  | fuel + 1,some p,s =>
    let prev := tailq_prev s.links p
    if 0 = strcmp (s.str flag) (s.str p) then
      remove_before a_list flag fuel prev (free_flag junk (remove_flag s a_list p) p)
    else remove_before a_list flag fuel prev s

/-- The loop for `CC`, which also writes. -/
def write_firsts (a_list : Nat) : (fuel : Nat) → Option (List Int8) → FlagMemory →
    Except Failure (Option (List Int8) × FlagMemory)
  | fuel,var,s =>
    match s.links.tqh_first a_list,fuel with
    | none,_ => .ok (var,s)
    | some _,0 => .error .fuel
    | some flag,fuel + 1 => do
      let s := remove_flag s a_list flag
      let s ← remove_behind junk a_list flag s.brk (s.links.tqh_first a_list) s
      write_firsts a_list fuel (cat_str (cat_str var (s.str flag)) (lit " ")) (free_flag junk s flag)

/-- The loop for `CFLAGS`. -/
def keep_lasts (a_list : Nat) : (fuel : Nat) → Option Nat → FlagMemory → Except Failure FlagMemory
  | _,none,s => .ok s
  | 0,some _,_ => .error .fuel
  | fuel + 1,some flag,s => do
    let s ← remove_before junk a_list flag s.brk (tailq_prev s.links flag) s
    keep_lasts a_list fuel (tailq_prev s.links flag) s

/-- The loop for `LDFLAGS` and `LIBS`. -/
def keep_firsts (a_list : Nat) : (fuel : Nat) → Option Nat → FlagMemory → Except Failure FlagMemory
  | _,none,s => .ok s
  | 0,some _,_ => .error .fuel
  | fuel + 1,some flag,s => do
    let s ← remove_behind junk a_list flag s.brk (s.links.tqe_next flag) s
    keep_firsts a_list fuel (s.links.tqe_next flag) s

/-- The loop that writes a list and frees it. -/
def write_list (a_list : Nat) : (fuel : Nat) → Option (List Int8) → FlagMemory →
    Except Failure (Option (List Int8) × FlagMemory)
  | fuel,var,s =>
    match s.links.tqh_first a_list,fuel with
    | none,_ => .ok (var,s)
    | some _,0 => .error .fuel
    | some flag,fuel + 1 =>
      let var := cat_str (cat_str var (s.str flag)) (lit " ")
      write_list a_list fuel var (free_flag junk (remove_flag s a_list flag) flag)

/-- `flag_sort` -/
def flag_sort (a_list a_size : Nat) (s : FlagMemory) : Except Failure FlagMemory :=
  let node_cmp (a_l a_r : Nat) : Int := cmp (s.str a_l,a_l) (s.str a_r,a_r)
  match SortLinks.sort node_cmp (a_size + 1) s.links flag_sort_stack a_list a_size with
  | .ok links => .ok { s with links := links }
  | .error .abort => .error .abort
  | .error .fuel => .error .fuel
  | .error _ => .error .fault

/-- The loop over the sorted flags, which takes out of `original_list` what is not written. -/
def sweep (a_list : Nat) : (fuel : Nat) → (prev : Option Nat) → (prev_dname_len : Nat) → FlagMemory → Except Failure FlagMemory
  | fuel,prev,prev_dname_len,s =>
    match s.links.tqh_first a_list,fuel with
    | none,_ => .ok s
    | some _,0 => .error .fuel
    | some flag,fuel + 1 =>
      let s := remove_flag s a_list flag
      let str := s.str flag
      let s :=
        match prev with
        | none => s
        | some prev =>
          if do_write_prev str (s.str prev) prev_dname_len then s
          else free_flag junk { s with original := tailq_remove s.original original_list prev } prev
      sweep a_list fuel (some flag) (if 0 = STRBCMP str "-D" then dname_len str else prev_dname_len) s

/-- The loop that writes `original_list` and frees it. -/
def write_original : (fuel : Nat) → Option (List Int8) → FlagMemory → Except Failure (Option (List Int8) × FlagMemory)
  | fuel,var,s =>
    match s.original.tqh_first original_list,fuel with
    | none,_ => .ok (var,s)
    | some _,0 => .error .fuel
    | some flag,fuel + 1 =>
      let s := { s with original := tailq_remove s.original original_list flag }
      let var := cat_str (cat_str var (s.str flag)) (lit " ")
      write_original fuel var (free_flag junk s flag)

/-- The last loop of `merge`, for one variable. -/
def merge_list (i : VariableEnum) (s : FlagMemory) : Except Failure (Option (List Int8) × FlagMemory) := do
  let s ←
    if VAR_CFLAGS = i then keep_lasts junk (flag_list i) s.brk (tailq_last s.links (flag_list i)) s
    else keep_firsts junk (flag_list i) s.brk (s.links.tqh_first (flag_list i)) s
  write_list junk (flag_list i) s.brk none s

/-- `merge` -/
def merge_lists (a_bucket : Bucket) (a_argv : List HconfFile) : Except Failure Bucket := do
  let s :=
    { junk with
      links := VAR_OUTPUT.foldl (fun links i => tailq_init links (flag_list i)) junk.links
      original := tailq_init junk.original original_list
      flag_num := fun _ => 0
      brk := 0 }
  let s ← fill_lists s a_argv
  let (cc,s) ← write_firsts junk (flag_list VAR_CC) s.brk none s
  let s ← flag_sort (flag_list VAR_CPPFLAGS) (s.flag_num VAR_CPPFLAGS) s
  let s ← sweep junk (flag_list VAR_CPPFLAGS) s.brk none 0 s
  let (cppflags,s) ← write_original junk s.brk none s
  let (cflags,s) ← merge_list junk VAR_CFLAGS s
  let (ldflags,s) ← merge_list junk VAR_LDFLAGS s
  let (libs,_) ← merge_list junk VAR_LIBS s
  .ok { a_bucket with var := fun
    | VAR_CC => cc
    | VAR_CPPFLAGS => cppflags
    | VAR_CFLAGS => cflags
    | VAR_LDFLAGS => ldflags
    | VAR_LIBS => libs }

end

/-! ### What the lists hold -/

/-- The texts of a list, each with its node. -/
abbrev Nodes := List Flag

/-- The first `heads` heads are those of lists, which have no node in common. -/
structure Lists (heads : Nat) (s : FlagMemory) (lists : Nat → Nodes) : Prop where
  queue : ∀ h < heads, Queue s.links h ((lists h).map Prod.snd)
  str : ∀ h < heads, ∀ p ∈ lists h, s.str p.2 = p.1
  apart : ∀ h < heads, ∀ h' < heads, ∀ p ∈ lists h, ∀ p' ∈ lists h', p.2 = p'.2 → h = h'
  old : ∀ h < heads, ∀ p ∈ lists h, p.2 < s.brk

/-- `original_list` has nodes that may be in the list for `VAR_CPPFLAGS` too, and in no other one. -/
structure Holds (heads : Nat) (original : Nodes) (num : Nat) (s : FlagMemory) (lists : Nat → Nodes) : Prop
    extends Lists heads s lists where
  original_queue : Queue s.original original_list (original.map Prod.snd)
  original_str : ∀ p ∈ original, s.str p.2 = p.1
  original_apart : ∀ h < heads, h ≠ flag_list VAR_CPPFLAGS → ∀ p ∈ lists h, ∀ p' ∈ original, p.2 ≠ p'.2
  original_old : ∀ p ∈ original, p.2 < s.brk
  num : s.flag_num VAR_CPPFLAGS = num

section
variable {junk s : FlagMemory} {heads h h' num : Nat} {lists : Nat → Nodes} {original front back todo : Nodes} {p : Flag}

theorem Lists.fewer (holds : Lists heads s lists) {fewer : Nat} (le : fewer ≤ heads) : Lists fewer s lists :=
  ⟨fun h less => holds.queue h (Nat.lt_of_lt_of_le less le),fun h less => holds.str h (Nat.lt_of_lt_of_le less le),
    fun h less h' less' => holds.apart h (Nat.lt_of_lt_of_le less le) h' (Nat.lt_of_lt_of_le less' le),
    fun h less => holds.old h (Nat.lt_of_lt_of_le less le)⟩

/-- No node of the list is another node of any list. -/
theorem Lists.alone (holds : Lists heads s lists) (inside : h < heads) (is : lists h = front ++ p :: back) {h' : Nat}
    (inside' : h' < heads) {p' : Flag} (there : p' ∈ Function.update lists h (front ++ back) h') : p'.2 ≠ p.2 := by
  intro same
  have here : p ∈ lists h := is ▸ List.mem_append_right front List.mem_cons_self
  rw [Function.update_apply] at there
  split at there
  · rename_i is_h
    have nodup := (holds.queue h inside).nodup
    rw [is,List.map_append,List.map_cons,List.nodup_middle,List.nodup_cons,← List.map_append] at nodup
    exact nodup.1 (same ▸ List.mem_map_of_mem there)
  · rename_i other
    exact other (holds.apart h' inside' h inside p' there p here same)

/-- Some nodes of a list, in any order, are what is left of it. -/
theorem lists_less {links : Memory Nat} {new : Nodes} (holds : Lists heads s lists) (members : ∀ p ∈ new, p ∈ lists h)
    (queue : Queue links h (new.map Prod.snd))
    (others : ∀ h' < heads, h' ≠ h → Untouched s.links links h' ((lists h').map Prod.snd)) :
    Lists heads { s with links := links } (Function.update lists h new) := by
  have sub : ∀ h', ∀ p' ∈ Function.update lists h new h', p' ∈ lists h' := by
    intro h' p' there
    rw [Function.update_apply] at there
    split at there
    · rename_i same
      exact same ▸ members p' there
    · exact there
  refine ⟨fun h' inside' => ?_,fun h' inside' p' there => holds.str h' inside' p' (sub h' p' there),
    fun h₁ inside₁ h₂ inside₂ p₁ there₁ p₂ there₂ => holds.apart h₁ inside₁ h₂ inside₂ p₁ (sub h₁ p₁ there₁) p₂ (sub h₂ p₂ there₂),
    fun h' inside' p' there => holds.old h' inside' p' (sub h' p' there)⟩
  by_cases same : h' = h
  · rw [same,Function.update_self]
    exact queue
  · rw [Function.update_of_ne same]
    exact (holds.queue h' inside').untouched (others h' inside' same)

theorem Lists.disjoint (holds : Lists heads s lists) (inside : h < heads) (inside' : h' < heads) (other : h' ≠ h) :
    ∀ e ∈ (lists h').map Prod.snd, e ∉ (lists h).map Prod.snd := by
  intro e there there'
  obtain ⟨p₁,there₁,rfl⟩ := List.mem_map.mp there
  obtain ⟨p₂,there₂,equal⟩ := List.mem_map.mp there'
  exact other (holds.apart h' inside' h inside p₁ there₁ p₂ there₂ equal.symm)

theorem drop_members (is : lists h = front ++ p :: back) : ∀ p' ∈ front ++ back, p' ∈ lists h := by
  intro p' there
  rw [is]
  rcases List.mem_append.mp there with there | there
  · exact List.mem_append_left _ there
  · exact List.mem_append_right _ (List.mem_cons_of_mem _ there)

theorem lists_remove (holds : Lists heads s lists) (inside : h < heads) (is : lists h = front ++ p :: back) :
    Lists heads (remove_flag s h p.2) (Function.update lists h (front ++ back)) := by
  have queue := holds.queue h inside
  rw [is,List.map_append,List.map_cons] at queue
  refine lists_less holds (drop_members is) ?_ fun h' inside' other => ?_
  · rw [List.map_append]
    exact tailq_remove_inside queue
  · refine tailq_remove_apart queue other fun e there there' => ?_
    rw [← List.map_append] at there'
    obtain ⟨p',inList,rfl⟩ := List.mem_map.mp there'
    exact holds.disjoint inside inside' other _ there (List.mem_map_of_mem (drop_members is p' inList))

theorem lists_free (holds : Lists heads s lists) {flag : Nat} (gone : ∀ h < heads, ∀ p ∈ lists h, p.2 ≠ flag) :
    Lists heads (free_flag junk s flag) lists := by
  refine ⟨fun h inside => ?_,fun h inside p there => ?_,holds.apart,holds.old⟩
  · refine (holds.queue h inside).untouched ⟨rfl,rfl,fun e there => ?_,fun e there => ?_⟩
    all_goals
      obtain ⟨p,inList,rfl⟩ := List.mem_map.mp there
      exact Function.update_of_ne (gone h inside p inList) _ _
  · exact (Function.update_of_ne (gone h inside p there) _ _).trans (holds.str h inside p there)

/-- A new node comes into a list. -/
theorem lists_put {s' : FlagMemory} {new : Nodes} (holds : Lists heads s lists) (inside : h < heads)
    (fresh : ∀ h' < heads, ∀ p' ∈ lists h', p'.2 ≠ p.2) (members : ∀ p' ∈ new, p' ∈ lists h ∨ p' = p)
    (queue : Queue s'.links h (new.map Prod.snd))
    (others : ∀ h' ≠ h, ∀ rest : List Nat, (∀ e ∈ rest, e ∉ p.2 :: (lists h).map Prod.snd) → Untouched s.links s'.links h' rest)
    (text : s'.str p.2 = p.1) (texts : ∀ n ≠ p.2, s'.str n = s.str n) (room : s.brk ≤ s'.brk) (below : p.2 < s'.brk) :
    Lists heads s' (Function.update lists h new) := by
  have cases_ : ∀ h', ∀ p' ∈ Function.update lists h new h', p' ∈ lists h' ∨ h' = h ∧ p' = p := by
    intro h' p' there
    rw [Function.update_apply] at there
    split at there
    · rename_i same
      exact (members p' there).imp (fun old => same ▸ old) fun is => ⟨same,is⟩
    · exact .inl there
  refine ⟨fun h' inside' => ?_,fun h' inside' p' there => ?_,fun h₁ inside₁ h₂ inside₂ p₁ there₁ p₂ there₂ same => ?_,
    fun h' inside' p' there => ?_⟩
  · by_cases same : h' = h
    · rw [same,Function.update_self]
      exact queue
    · rw [Function.update_of_ne same]
      refine (holds.queue h' inside').untouched (others h' same _ fun e there there' => ?_)
      obtain ⟨p₁,there₁,rfl⟩ := List.mem_map.mp there
      rcases List.mem_cons.mp there' with is | there'
      · exact fresh h' inside' p₁ there₁ is
      · obtain ⟨p₂,there₂,equal⟩ := List.mem_map.mp there'
        exact same (holds.apart h' inside' h inside p₁ there₁ p₂ there₂ equal.symm)
  · rcases cases_ h' p' there with old | ⟨_,rfl⟩
    · exact (texts _ (fresh h' inside' p' old)).trans (holds.str h' inside' p' old)
    · exact text
  · rcases cases_ h₁ p₁ there₁ with old₁ | ⟨is₁,rfl⟩ <;> rcases cases_ h₂ p₂ there₂ with old₂ | ⟨is₂,rfl⟩
    · exact holds.apart h₁ inside₁ h₂ inside₂ p₁ old₁ p₂ old₂ same
    · exact absurd same (fresh h₁ inside₁ p₁ old₁)
    · exact absurd same.symm (fresh h₂ inside₂ p₂ old₂)
    · exact is₁.trans is₂.symm
  · rcases cases_ h' p' there with old | ⟨_,rfl⟩
    · exact Nat.lt_of_lt_of_le (holds.old h' inside' p' old) room
    · exact below

theorem not_in_nodes {l : Nodes} {n : Nat} (fresh : ∀ p ∈ l, p.2 ≠ n) : n ∉ l.map Prod.snd := by
  intro there
  obtain ⟨p,there,is⟩ := List.mem_map.mp there
  exact fresh p there is

theorem lists_add (holds : Lists heads s lists) (inside : h < heads) (flag : List Int8) :
    Lists heads (add_flag s h flag) (Function.update lists h (lists h ++ [(flag,s.brk)])) := by
  have fresh : ∀ h' < heads, ∀ p ∈ lists h', p.2 ≠ s.brk := fun h' inside' p there => Nat.ne_of_lt (holds.old h' inside' p there)
  refine @lists_put s heads h lists (flag,s.brk) _ _ holds inside fresh (fun p' there => ?_) ?_
    (fun h' other rest disjoint => tailq_insert_tail_untouched (holds.queue h inside) other disjoint)
    (Function.update_self _ _ _) (fun n other => Function.update_of_ne other _ _) (Nat.le_succ _) (Nat.lt_succ_self _)
  · exact (List.mem_append.mp there).imp id List.mem_singleton.mp
  · rw [List.map_append]
    exact tailq_insert_tail_queue (holds.queue h inside) (not_in_nodes (fresh h inside))

theorem lists_insert_head (holds : Lists heads s lists) (inside : h < heads) (fresh : ∀ h' < heads, ∀ p' ∈ lists h', p'.2 ≠ p.2)
    (text : s.str p.2 = p.1) (below : p.2 < s.brk) :
    Lists heads { s with links := tailq_insert_head s.links h p.2 } (Function.update lists h (p :: lists h)) := by
  refine lists_put holds inside fresh (fun p' there => ?_) ?_
    (fun h' other rest disjoint => tailq_insert_head_untouched (holds.queue h inside) other disjoint)
    text (fun _ _ => rfl) (Nat.le_refl _) below
  · exact (List.mem_cons.mp there).symm
  · exact tailq_insert_head_queue (holds.queue h inside) (not_in_nodes (fresh h inside))

theorem lists_init (holds : Lists heads s lists) :
    Lists (heads + 1) { s with links := tailq_init s.links heads } (Function.update lists heads []) := by
  have cases_ : ∀ h < heads + 1, ∀ p ∈ Function.update lists heads [] h, h < heads ∧ p ∈ lists h := by
    intro h inside p there
    rw [Function.update_apply] at there
    split at there
    · exact (List.not_mem_nil there).elim
    · rename_i other
      exact ⟨by omega,there⟩
  refine ⟨fun h inside => ?_,fun h inside p there => ?_,fun h₁ inside₁ h₂ inside₂ p₁ there₁ p₂ there₂ same => ?_,
    fun h inside p there => ?_⟩
  · by_cases same : h = heads
    · rw [same,Function.update_self]
      exact tailq_init_queue s.links heads
    · rw [Function.update_of_ne same]
      exact (holds.queue h (by omega)).untouched (tailq_init_untouched same)
  · obtain ⟨inside',old⟩ := cases_ h inside p there
    exact holds.str h inside' p old
  · obtain ⟨inside₁',old₁⟩ := cases_ h₁ inside₁ p₁ there₁
    obtain ⟨inside₂',old₂⟩ := cases_ h₂ inside₂ p₂ there₂
    exact holds.apart h₁ inside₁' h₂ inside₂' p₁ old₁ p₂ old₂ same
  · obtain ⟨inside',old⟩ := cases_ h inside p there
    exact holds.old h inside' p old

/-- There are no more nodes than have been allocated. -/
theorem few_nodes {nodes : Nodes} {brk : Nat} (nodup : (nodes.map Prod.snd).Nodup) (old : ∀ p ∈ nodes, p.2 < brk) :
    nodes.length ≤ brk := by
  have sub : nodes.map Prod.snd ⊆ List.range brk := by
    intro n there
    obtain ⟨p,inList,rfl⟩ := List.mem_map.mp there
    exact List.mem_range.mpr (old p inList)
  have few := (List.subperm_of_subset nodup sub).length_le
  rwa [List.length_map,List.length_range] at few

theorem Lists.length (holds : Lists heads s lists) (inside : h < heads) : (lists h).length ≤ s.brk :=
  few_nodes (holds.queue h inside).nodup (holds.old h inside)

/-! ### What else `original_list` holds -/

theorem Holds.fewer (holds : Holds heads original num s lists) {fewer : Nat} (le : fewer ≤ heads) :
    Holds fewer original num s lists :=
  { holds with
    toLists := holds.toLists.fewer le
    original_apart := fun h less => holds.original_apart h (Nat.lt_of_lt_of_le less le) }

/-- What does not touch the nodes of `original_list`, and puts none of them into another list. -/
theorem Holds.change {s' : FlagMemory} {lists' : Nat → Nodes} (holds : Holds heads original num s lists)
    (new : Lists heads s' lists') (links : Untouched s.original s'.original original_list (original.map Prod.snd))
    (texts : ∀ p ∈ original, s'.str p.2 = s.str p.2) (room : s.brk ≤ s'.brk) (same : s'.flag_num = s.flag_num)
    (members : ∀ h < heads, h ≠ flag_list VAR_CPPFLAGS → ∀ p ∈ lists' h, ∀ p' ∈ original, p.2 ≠ p'.2) :
    Holds heads original num s' lists' where
  toLists := new
  original_queue := holds.original_queue.untouched links
  original_str := fun p there => (texts p there).trans (holds.original_str p there)
  original_apart := members
  original_old := fun p there => Nat.lt_of_lt_of_le (holds.original_old p there) room
  num := same ▸ holds.num

theorem holds_less {links : Memory Nat} {new : Nodes} (holds : Holds heads original num s lists) (inside : h < heads)
    (members : ∀ p ∈ new, p ∈ lists h) (less : Lists heads { s with links := links } (Function.update lists h new)) :
    Holds heads original num { s with links := links } (Function.update lists h new) := by
  refine holds.change less .refl (fun _ _ => rfl) (Nat.le_refl _) rfl fun h' inside' other p' there => ?_
  rw [Function.update_apply] at there
  split at there
  · rename_i same
    exact holds.original_apart h inside (same ▸ other) p' (members p' there)
  · exact holds.original_apart h' inside' other p' there

theorem holds_remove (holds : Holds heads original num s lists) (inside : h < heads) (is : lists h = front ++ p :: back) :
    Holds heads original num (remove_flag s h p.2) (Function.update lists h (front ++ back)) :=
  holds_less holds inside (drop_members is) (lists_remove holds.toLists inside is)

theorem holds_free (holds : Holds heads original num s lists) {flag : Nat} (gone : ∀ h < heads, ∀ p ∈ lists h, p.2 ≠ flag)
    (away : ∀ p ∈ original, p.2 ≠ flag) : Holds heads original num (free_flag junk s flag) lists := by
  refine holds.change (lists_free holds.toLists gone) ⟨rfl,rfl,fun e there => ?_,fun e there => ?_⟩
    (fun p there => Function.update_of_ne (away p there) _ _) (Nat.le_refl _) rfl holds.original_apart
  all_goals
    obtain ⟨p,inList,rfl⟩ := List.mem_map.mp there
    exact Function.update_of_ne (away p inList) _ _

/-- A node goes and is freed. -/
theorem holds_drop (holds : Holds heads original num s lists) (inside : h < heads) (other : h ≠ flag_list VAR_CPPFLAGS)
    (is : lists h = front ++ p :: back) :
    Holds heads original num (free_flag junk (remove_flag s h p.2) p.2) (Function.update lists h (front ++ back)) := by
  have here : p ∈ lists h := is ▸ List.mem_append_right front List.mem_cons_self
  refine holds_free (holds_remove holds inside is) (fun _ inside' _ there => holds.alone inside is inside' there) ?_
  exact fun p' there => (holds.original_apart h inside other p here p' there).symm

theorem holds_insert_head (holds : Holds heads original num s lists) (inside : h < heads)
    (fresh : ∀ h' < heads, ∀ p' ∈ lists h', p'.2 ≠ p.2) (away : ∀ p' ∈ original, p.2 ≠ p'.2) (text : s.str p.2 = p.1)
    (below : p.2 < s.brk) :
    Holds heads original num { s with links := tailq_insert_head s.links h p.2 } (Function.update lists h (p :: lists h)) := by
  refine holds.change (lists_insert_head holds.toLists inside fresh text below) .refl
    (fun _ _ => rfl) (Nat.le_refl _) rfl fun h' inside' other p' there => ?_
  rw [Function.update_apply] at there
  split at there
  · rename_i same
    rcases List.mem_cons.mp there with rfl | there
    · exact away
    · exact holds.original_apart h inside (same ▸ other) p' there
  · exact holds.original_apart h' inside' other p' there

theorem holds_init (holds : Holds heads original num s lists) :
    Holds (heads + 1) original num { s with links := tailq_init s.links heads } (Function.update lists heads []) := by
  refine Holds.mk (lists_init holds.toLists) holds.original_queue holds.original_str ?_ holds.original_old holds.num
  intro h inside other p there
  rw [Function.update_apply] at there
  split at there
  · exact absurd there List.not_mem_nil
  · exact holds.original_apart h (by omega) other p there

/-- `original_list` loses a node that is in no other list, and the node is freed. -/
theorem original_drop (holds : Holds heads (front ++ p :: back) num s lists) (gone : ∀ h < heads, ∀ p' ∈ lists h, p'.2 ≠ p.2) :
    Holds heads (front ++ back) num (free_flag junk { s with original := tailq_remove s.original original_list p.2 } p.2) lists := by
  have queue := holds.original_queue
  rw [List.map_append,List.map_cons] at queue
  have fewer : ∀ p' ∈ front ++ back, p' ∈ front ++ p :: back := by
    intro p' there
    rcases List.mem_append.mp there with there | there
    · exact List.mem_append_left _ there
    · exact List.mem_append_right _ (List.mem_cons_of_mem _ there)
  have away : ∀ p' ∈ front ++ back, p'.2 ≠ p.2 := by
    intro p' there same
    have nodup := queue.nodup
    rw [List.nodup_middle,List.nodup_cons,← List.map_append] at nodup
    exact nodup.1 (same ▸ List.mem_map_of_mem there)
  have removed : Holds heads (front ++ back) num { s with original := tailq_remove s.original original_list p.2 } lists := by
    refine Holds.mk ⟨holds.queue,holds.str,holds.apart,holds.old⟩ ?_ (fun p' there => holds.original_str p' (fewer p' there))
      (fun h inside other p₁ there₁ p₂ there₂ => holds.original_apart h inside other p₁ there₁ p₂ (fewer p₂ there₂))
      (fun p' there => holds.original_old p' (fewer p' there)) holds.num
    rw [List.map_append]
    exact tailq_remove_inside queue
  exact holds_free removed gone away

end

end Htools.HconfMerge
