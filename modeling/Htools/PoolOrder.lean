import Htools.Pool

/-!
The order of the list of freed nodes (`hutils/include/hutils/pool.h`). A node that is
freed while its page is the last one goes to the end of the list, so that it is taken
again only after all others. The last page can change later on: where the last page
goes with its last object, the nodes of the page before it stay where they are. They
come last in every state of a run exactly if none of them is ahead of a node of
another page at such a time (`last_behind_iff`).
-/
namespace Htools.Pool
open Htools.Runs

/-- The node is one of the last page. -/
def LastIn (page_list : List Page) (node : Node) : Prop := page_list.getLast?.map (·.address) = some node.page

instance (page_list : List Page) (node : Node) : Decidable (LastIn page_list node) :=
  inferInstanceAs (Decidable (_ = _))

/-- The freed nodes of a kind come after all others, so that one of them is allocated
    only where there are no others. -/
def Behind (num : Nat) (a_pool : PoolType) (kind : Node → Prop) : Prop :=
  (a_pool.freed_list.Pairwise fun a b => kind a → kind b) ∧
    ∀ malloc node pool', alloc num malloc a_pool = .ok (node,pool') → node ∈ a_pool.freed_list → kind node →
      ∀ other ∈ a_pool.freed_list, kind other

/-- A program, with the nodes whose page was the last one when they were freed last. -/
structure Traced where
  program : Program
  late : List Node

def trace (num : Nat) (t : Traced) (op : Op) : Except Stop Traced := do
  let program ← step num t.program op
  return ⟨program,
    match op with
    | .alloc _ => t.late
    | .free node =>
      if LastIn t.program.pool.page_list node then node :: t.late else t.late.filter fun other => other ≠ node⟩

/-- A free that empties the last page leaves no freed node of the page before it ahead
    of one of another page. -/
def Keeps (t : Traced) : Op → Prop
  | .alloc _ => True
  | .free node =>
    LastIn t.program.pool.page_list node → (t.program.live.erase node).countP (·.page = node.page) = 0 →
      (t.program.pool.freed_list.filter fun other => ¬ LastIn t.program.pool.page_list other).Pairwise fun a b =>
        LastIn t.program.pool.page_list.dropLast a → LastIn t.program.pool.page_list.dropLast b

section
variable {num malloc : Nat} {a_pool pool' : PoolType} {live : List Node} {node : Node} {kind : Node → Prop}

theorem behind_iff : Behind num a_pool kind ↔ a_pool.freed_list.Pairwise fun a b => kind a → kind b := by
  refine and_iff_left_of_imp fun pairwise => ?_
  intro malloc node pool' run there late other member
  cases freed : a_pool.freed_list with
  | nil =>
    rw [freed] at there
    cases there
  | cons first rest =>
    rw [alloc,freed] at run
    obtain ⟨page,_,is⟩ := bind_ok_iff.mp run
    cases is
    rw [freed] at pairwise member
    rcases List.mem_cons.mp member with rfl | later
    · exact late
    · exact (List.pairwise_cons.mp pairwise).1 other later late

theorem store_addresses (page_list : List Page) (page : Page) :
    (store page_list page).map (·.address) = page_list.map (·.address) := by
  rw [store,List.map_map]
  refine List.map_congr_left fun other _ => ?_
  simp only [Function.comp]
  split_ifs with same
  · exact same.symm
  · rfl

theorem lastIn_congr {front back : List Page} (same : front.map (·.address) = back.map (·.address)) (node : Node) :
    LastIn front node ↔ LastIn back node := by
  rw [LastIn,LastIn,← List.getLast?_map,← List.getLast?_map,same]

theorem lastIn_mid {front back : List Page} {page : Page} (alone : Alone front page back) (here : page.address = node.page) :
    LastIn (front ++ page :: back) node ↔ back = [] := by
  have is := is_last_alone alone
  rw [is_last,here,decide_eq_decide] at is
  exact is

/-- The list after an allocation, and that the last page is the same where there is
    any list. -/
theorem alloc_shape (run : alloc num malloc a_pool = .ok (node,pool')) :
    pool'.freed_list = a_pool.freed_list.tail ∧
      (a_pool.freed_list ≠ [] → pool'.page_list.map (·.address) = a_pool.page_list.map (·.address)) := by
  cases freed : a_pool.freed_list with
  | nil =>
    rw [alloc,freed] at run
    simp only at run
    split_ifs at run
    cases run
    exact ⟨rfl,fun some_ => absurd rfl some_⟩
  | cons first rest =>
    rw [alloc,freed] at run
    obtain ⟨page,_,is⟩ := bind_ok_iff.mp run
    cases is
    exact ⟨rfl,fun _ => store_addresses _ _⟩

theorem pairwise_congr {kind' : Node → Prop} {l : List Node} (same : ∀ n ∈ l, kind n ↔ kind' n) :
    (l.Pairwise fun a b => kind a → kind b) ↔ l.Pairwise fun a b => kind' a → kind' b :=
  List.Pairwise.iff_of_mem fun {a b} there there' => imp_congr (same a there) (same b there')

/-- A freed node goes where its kind belongs. -/
theorem pairwise_freed {back : List Page} (behind : a_pool.freed_list.Pairwise fun a b => kind a → kind b)
    (belongs : kind node ↔ back = []) : (freed_list_after a_pool node back).Pairwise fun a b => kind a → kind b := by
  rw [freed_list_after]
  split_ifs with last
  · refine List.pairwise_append.mpr ⟨behind,List.pairwise_singleton _ _,fun a _ b new => ?_⟩
    rw [List.mem_singleton.mp new]
    exact fun _ => belongs.mpr last
  · exact List.pairwise_cons.mpr ⟨fun _ _ late => absurd (belongs.mp late) last,behind⟩

theorem handed_last {front : List Page} {page : Page} (alone : Alone front page [])
    (handed : Handed (front ++ [page]) node) (here : node.page = page.address) : node ∈ nodes_of page := by
  rw [handed_append,handed_cons] at handed
  rcases handed with found | ⟨_,less⟩ | ⟨_,⟨⟩,_⟩
  · exact absurd here (handed_apart alone.1 found)
  · exact mem_nodes_of.mpr ⟨here,less⟩

/-- What is left of the list where the last page goes. -/
theorem without_last {front : List Page} {page : Page} (sound : Sound num a_pool live) (there : node ∈ live)
    (split : a_pool.page_list = front ++ [page]) (alone : Alone front page []) (here : page.address = node.page)
    (freed : Freed a_pool live node (freed_list_after a_pool node [])) :
    (freed_list_after a_pool node []).diff (nodes_of page) =
      a_pool.freed_list.filter fun other => ¬ LastIn a_pool.page_list other := by
  have own : node ∈ nodes_of page := handed_last alone (split ▸ sound.handed node there) here.symm
  have kept : ∀ other ∈ a_pool.freed_list, other ∈ nodes_of page ↔ LastIn a_pool.page_list other := by
    intro other member
    have handed := ((sound.freed.2 other).mp member).1
    rw [split] at handed
    rw [split,LastIn,List.getLast?_concat,Option.map_some,Option.some.injEq]
    exact ⟨fun last => (mem_nodes_of.mp last).1.symm,fun is => handed_last alone handed is.symm⟩
  have appended : freed_list_after a_pool node [] = a_pool.freed_list ++ [node] := if_pos rfl
  rw [appended] at freed ⊢
  rw [freed.1.sdiff_eq_filter,List.filter_append,List.filter_cons_of_neg (by simpa using own),List.filter_nil,List.append_nil]
  exact List.filter_congr fun other member => decide_eq_decide.mpr (not_congr (kept other member))

/-! ### Steps -/

/-- A program whose pool is sound. -/
abbrev Fine (num : Nat) (t : Traced) : Prop := Sound num t.program.pool t.program.live

theorem trace_program {t t' : Traced} {op : Op} (run : trace num t op = .ok t') :
    step num t.program op = .ok t'.program := by
  obtain ⟨program,ran,is⟩ := bind_ok_iff.mp run
  cases is
  exact ran

theorem trace_fine (positive : 1 ≤ num) {t t' : Traced} {op : Op} (fine : Fine num t) (allowed : Allowed t.program op)
    (run : trace num t op = .ok t') : Fine num t' := by
  obtain ⟨⟨program,run',sound⟩,_⟩ := step_sound positive t.program op fine allowed
  rw [trace_program run,Except.ok.injEq] at run'
  rw [Fine,run']
  exact sound

theorem trace_returns (positive : 1 ≤ num) {t : Traced} {op : Op} (fine : Fine num t) (allowed : Allowed t.program op) :
    ∃ t', trace num t op = .ok t' := by
  obtain ⟨⟨program,run,_⟩,_⟩ := step_sound positive t.program op fine allowed
  exact ⟨_,bind_ok_iff.mpr ⟨program,run,rfl⟩⟩

/-- Nodes that were freed in the last page stay behind all others. -/
theorem trace_late {t t' : Traced} {op : Op} (fine : Fine num t) (allowed : Allowed t.program op)
    (behind : Behind num t.program.pool (· ∈ t.late)) (run : trace num t op = .ok t') :
    Behind num t'.program.pool (· ∈ t'.late) := by
  rw [behind_iff] at behind ⊢
  obtain ⟨program,ran,is⟩ := bind_ok_iff.mp run
  cases is
  cases op with
  | alloc malloc =>
    obtain ⟨⟨node,pool'⟩,run',is⟩ := bind_ok_iff.mp ran
    cases is
    simp only
    rw [(alloc_shape run').1]
    exact behind.sublist (List.tail_sublist _)
  | free node =>
    obtain ⟨front,page,back,split,here,alone,freed,shape⟩ := free_shape fine allowed
    obtain ⟨pool',run',is⟩ := bind_ok_iff.mp ran
    cases is
    rw [shape] at run'
    cases run'
    have last : LastIn t.program.pool.page_list node ↔ back = [] := by
      rw [split]
      exact lastIn_mid alone here
    obtain ⟨late,lateIs⟩ : ∃ late, late = if LastIn t.program.pool.page_list node then node :: t.late
      else t.late.filter fun other => other ≠ node := ⟨_,rfl⟩
    simp only
    rw [← lateIs]
    have new : node ∉ t.program.pool.freed_list := fun there => ((fine.freed.2 node).mp there).2 allowed
    have belongs : node ∈ late ↔ back = [] := by
      rw [lateIs,← last]
      split_ifs with is
      · exact iff_of_true List.mem_cons_self is
      · exact iff_of_false (by simp) is
    have others : ∀ other ∈ t.program.pool.freed_list, other ∈ t.late ↔ other ∈ late := by
      intro other member
      have apart : other ≠ node := fun is => new (is ▸ member)
      rw [lateIs]
      split_ifs <;> simp [apart]
    have all := pairwise_freed ((pairwise_congr others).mp behind) belongs
    split_ifs
    · exact all.sublist (List.diff_sublist _ _)
    · exact all

/-- The nodes of the last page stay behind all others where the condition holds, and
    only there. -/
theorem trace_last {t t' : Traced} {op : Op} (fine : Fine num t) (allowed : Allowed t.program op)
    (behind : Behind num t.program.pool (LastIn t.program.pool.page_list)) (run : trace num t op = .ok t') :
    Behind num t'.program.pool (LastIn t'.program.pool.page_list) ↔ Keeps t op := by
  rw [behind_iff] at behind ⊢
  obtain ⟨program,ran,is⟩ := bind_ok_iff.mp run
  cases is
  cases op with
  | alloc malloc =>
    obtain ⟨⟨node,pool'⟩,run',is⟩ := bind_ok_iff.mp ran
    cases is
    refine iff_of_true ?_ trivial
    simp only
    rw [(alloc_shape run').1]
    by_cases none : t.program.pool.freed_list = []
    · rw [none]
      exact List.Pairwise.nil
    · refine (pairwise_congr fun other _ => ?_).mp (behind.sublist (List.tail_sublist _))
      exact (lastIn_congr ((alloc_shape run').2 none) other).symm
  | free node =>
    obtain ⟨front,page,back,split,here,alone,freed,shape⟩ := free_shape fine allowed
    obtain ⟨pool',run',is⟩ := bind_ok_iff.mp ran
    cases is
    rw [shape] at run'
    cases run'
    have last : LastIn t.program.pool.page_list node ↔ back = [] := by
      rw [split]
      exact lastIn_mid alone here
    have all := pairwise_freed behind last
    simp only [Keeps]
    rw [here]
    by_cases empty : (t.program.live.erase node).countP (·.page = node.page) = 0
    · rw [if_pos empty]
      cases back with
      -- The last page goes.
      | nil =>
        simp only
        rw [without_last fine allowed split alone here freed,forall_prop_of_true (last.mpr rfl),forall_prop_of_true empty,
          List.append_nil,split,List.dropLast_concat]
      -- The last page stays the last one.
      | cons next back =>
        refine iff_of_true ?_ fun is => absurd (last.mp is) nofun
        refine (pairwise_congr fun other _ => ?_).mp (all.sublist (List.diff_sublist _ _))
        rw [split,LastIn,LastIn]
        simp
    · rw [if_neg empty]
      refine iff_of_true ?_ fun _ is => absurd is empty
      refine (pairwise_congr fun other _ => ?_).mp all
      refine lastIn_congr ?_ other
      rw [split]
      simp [here]

/-! ### Runs -/

/-- A program with an empty pool. -/
def fresh : Traced := ⟨⟨init,[]⟩,[]⟩

theorem fresh_behind (kind : Node → Prop) : Behind num fresh.program.pool kind := behind_iff.mpr List.Pairwise.nil

/-- In every run of allocations, and of frees of live objects, the nodes that were freed
    while their page was the last one stay behind all others in the list. The nodes of
    the page that is the last one do so in all states of the run exactly if no free that
    empties the last page leaves a node of the page before it ahead of one of another. -/
theorem last_behind_iff (num : Nat) (positive : 1 ≤ num) (ops : List Op)
    (allowed : Along (trace num) (fun t => Allowed t.program) fresh ops) :
    (∀ t, Reached (trace num) fresh ops t → Behind num t.program.pool (· ∈ t.late)) ∧
      ((∀ t, Reached (trace num) fresh ops t → Behind num t.program.pool (LastIn t.program.pool.page_list)) ↔
        Along (trace num) Keeps fresh ops) := by
  have fine : Fine num fresh := init_sound num
  refine ⟨?_,?_⟩
  · have all := along_total (I := fun t => Fine num t ∧ Behind num t.program.pool (· ∈ t.late)) (E := fun _ _ => True) ?_
      ⟨fine,fresh_behind _⟩ allowed
    · exact fun t reached => (all.2.1 t reached).2
    · rintro t op ⟨fine,behind⟩ allowed
      obtain ⟨t',run⟩ := trace_returns positive fine allowed
      exact ⟨⟨t',run,trace_fine positive fine allowed run,trace_late fine allowed behind run⟩,trivial⟩
  · have one : ((∀ t, Reached (trace num) fresh ops t → Behind num t.program.pool (LastIn t.program.pool.page_list)) ∧
        Along (trace num) (fun t => Allowed t.program) fresh ops) ↔
        Along (trace num) (fun t op => Allowed t.program op ∧ Keeps t op) fresh ops := by
      refine reached_along_iff (I := Fine num) (Q := fun t => Behind num t.program.pool (LastIn t.program.pool.page_list))
        ?_ ?_ fine (fresh_behind _)
      · intro t op t' fine both run
        exact trace_fine positive fine both.1 run
      · intro t op fine behind
        rw [and_comm]
        refine and_congr_right fun allowed => ?_
        obtain ⟨t',run⟩ := trace_returns positive fine allowed
        rw [← trace_last fine allowed behind run]
        refine ⟨fun all => all t' run,fun next t'' run' => ?_⟩
        rw [run,Except.ok.injEq] at run'
        exact run' ▸ next
    rw [along_and] at one
    exact ⟨fun all => (one.mp ⟨all,allowed⟩).2,fun keeps => (one.mpr ⟨allowed,keeps⟩).1⟩

/-- Three pages of two objects each, where the last one holds only one: an object of the
    first page is freed, one of the second, and then the one of the third. -/
def three_pages : List Op :=
  [.alloc 7,.alloc 0,.alloc 8,.alloc 0,.alloc 9,.free ⟨7,0⟩,.free ⟨8,0⟩,.free ⟨9,0⟩]

/-- The second page has become the last one, and its node is the next to be allocated. -/
theorem last_ahead : Along (trace 2) (fun t => Allowed t.program) fresh three_pages ∧
    ¬ ∀ t, Reached (trace 2) fresh three_pages t → Behind 2 t.program.pool (LastIn t.program.pool.page_list) := by
  constructor
  · refine ⟨by decide,?_⟩
    rintro _ ⟨⟩
    refine ⟨by decide,?_⟩
    rintro _ ⟨⟩
    refine ⟨by decide,?_⟩
    rintro _ ⟨⟩
    refine ⟨by decide,?_⟩
    rintro _ ⟨⟩
    refine ⟨by decide,?_⟩
    rintro _ ⟨⟩
    refine ⟨by decide,?_⟩
    rintro _ ⟨⟩
    refine ⟨by decide,?_⟩
    rintro _ ⟨⟩
    exact ⟨by decide,fun _ _ => trivial⟩
  · intro all
    have run : steps (trace 2) fresh three_pages =
        .ok ⟨⟨⟨[⟨7,2,1⟩,⟨8,2,1⟩],[⟨8,0⟩,⟨7,0⟩]⟩,[⟨8,1⟩,⟨7,1⟩]⟩,[⟨9,0⟩]⟩ := rfl
    have behind := all _ ⟨three_pages,[],rfl,run⟩
    exact absurd (behind.2 0 ⟨8,0⟩ ⟨[⟨7,2,1⟩,⟨8,2,2⟩],[⟨7,0⟩]⟩ (by decide) (by decide) (by decide) ⟨7,0⟩ (by decide)) (by decide)

/-- Two objects of one page, of which one is freed. -/
theorem last_behind_iff_two : (1 ≤ 2 ∧ Along (trace 2) (fun t => Allowed t.program) fresh [.alloc 7,.alloc 8,.free ⟨7,1⟩]) ∧
    (∀ t, Reached (trace 2) fresh [.alloc 7,.alloc 8,.free ⟨7,1⟩] t → Behind 2 t.program.pool (· ∈ t.late)) ∧
      ((∀ t, Reached (trace 2) fresh [.alloc 7,.alloc 8,.free ⟨7,1⟩] t →
          Behind 2 t.program.pool (LastIn t.program.pool.page_list)) ↔
        Along (trace 2) Keeps fresh [.alloc 7,.alloc 8,.free ⟨7,1⟩]) := by
  have allowed : Along (trace 2) (fun t => Allowed t.program) fresh [.alloc 7,.alloc 8,.free ⟨7,1⟩] := by
    refine ⟨by decide,?_⟩
    rintro _ ⟨⟩
    refine ⟨by decide,?_⟩
    rintro _ ⟨⟩
    exact ⟨by decide,fun _ _ => trivial⟩
  exact ⟨⟨by decide,allowed⟩,last_behind_iff 2 (by decide) _ allowed⟩

end

end Htools.Pool
