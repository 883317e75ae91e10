import Htools.Runs
import Mathlib.Data.List.Nodup

/-!
The memory pool (`hutils/include/hutils/pool.h`). Objects lie in the nodes of
pages; nodes that have been freed are kept in a list and handed out again, and a
page goes when the last of its objects is freed. Every run of a program that
frees what it holds keeps the list and the pages in agreement (`run_sound`).
-/
namespace Htools.Pool
open Htools.Runs

/-- The address of `page->node_array[i]`; its field `page` is the page in which it lies. -/
@[ext]
structure Node where
  page : Nat
  i : Nat
  deriving DecidableEq, Repr

structure Page where
  address : Nat
  ofs : Nat
  used_num : Nat
  deriving DecidableEq, Repr

structure PoolType where
  page_list : List Page
  freed_list : List Node
  deriving DecidableEq, Repr

def init : PoolType := ⟨[],[]⟩

/-- The page at an address; there must be one. -/
def page_at (page_list : List Page) (address : Nat) : Except Stop Page :=
  match page_list.find? (·.address = address) with
  | none => .error .fault
  | some page => .ok page

def store (page_list : List Page) (page : Page) : List Page :=
  page_list.map fun other => if other.address = page.address then page else other

/-- `TAILQ_REMOVE`; the element must be in the list. -/
def remove (freed_list : List Node) (node : Node) : Except Stop (List Node) :=
  if node ∈ freed_list then .ok (freed_list.erase node) else .error .fault

/-- The last page, which is a new one where there is none or it is full, and those
    before it. The address is what `malloc` returns. -/
def last_page (num malloc : Nat) (page_list : List Page) : List Page × Page :=
  match page_list.getLast? with
  | none => ([],⟨malloc,0,0⟩)
  | some page => if num = page.ofs then (page_list,⟨malloc,0,0⟩) else (page_list.dropLast,page)

def alloc (num malloc : Nat) (a_pool : PoolType) : Except Stop (Node × PoolType) :=
  match a_pool.freed_list with
  | node :: freed_list => do
    let page ← page_at a_pool.page_list node.page
    return (node,⟨store a_pool.page_list { page with used_num := page.used_num + 1 },freed_list⟩)
  | [] =>
    let (before,page) := last_page num malloc a_pool.page_list
    if page.ofs < num then
      .ok (⟨page.address,page.ofs⟩,
        ⟨before ++ [{ page with ofs := page.ofs + 1, used_num := page.used_num + 1 }],[]⟩)
    else .error .fault

/-- `TAILQ_END(..) == TAILQ_NEXT(page, page_list)`. -/
def is_last (page_list : List Page) (page : Page) : Bool :=
  (page_list.getLast?.map (·.address)) = some page.address

def free (num : Nat) (a_pool : PoolType) (node : Node) : Except Stop PoolType := do
  let page ← page_at a_pool.page_list node.page
  if num ≤ node.i then .error .abort
  else do
    let freed_list := if is_last a_pool.page_list page then a_pool.freed_list ++ [node] else node :: a_pool.freed_list
    let page := { page with used_num := page.used_num - 1 }
    if 0 = page.used_num then do
      let freed_list ← (List.range page.ofs).foldlM (fun freed_list i => remove freed_list ⟨page.address,i⟩) freed_list
      return ⟨a_pool.page_list.eraseP (·.address = page.address),freed_list⟩
    else return ⟨store a_pool.page_list page,freed_list⟩

/-! ### What holds of a pool -/

/-- The node has been handed out once at least. -/
def Handed (page_list : List Page) (node : Node) : Prop :=
  ∃ page ∈ page_list, page.address = node.page ∧ node.i < page.ofs

/-- The pool and the objects that the program holds. -/
structure Sound (num : Nat) (a_pool : PoolType) (live : List Node) : Prop where
  distinct : (a_pool.page_list.map (·.address)).Nodup
  held : live.Nodup
  handed : ∀ node ∈ live, Handed a_pool.page_list node
  freed : a_pool.freed_list.Nodup ∧ ∀ node, node ∈ a_pool.freed_list ↔ Handed a_pool.page_list node ∧ node ∉ live
  filled : ∀ page ∈ a_pool.page_list.dropLast, page.ofs = num
  ofs_le : ∀ page ∈ a_pool.page_list, page.ofs ≤ num
  used : ∀ page ∈ a_pool.page_list, page.used_num = live.countP (·.page = page.address)
  needed : ∀ page ∈ a_pool.page_list, ∃ node ∈ live, node.page = page.address

section
variable {num malloc : Nat} {a_pool : PoolType} {live : List Node} {node : Node} {front back : List Page} {page page' : Page}

/-- A page that has an address for itself. -/
def Alone (front : List Page) (page : Page) (back : List Page) : Prop :=
  (∀ other ∈ front, other.address ≠ page.address) ∧ ∀ other ∈ back, other.address ≠ page.address

theorem alone_of_distinct (distinct : ((front ++ page :: back).map (·.address)).Nodup) : Alone front page back := by
  rw [List.map_append,List.map_cons,List.nodup_append] at distinct
  obtain ⟨_,nodup,apart⟩ := distinct
  refine ⟨fun other there is => ?_,fun other there is => ?_⟩
  · exact apart _ (List.mem_map_of_mem there) _ List.mem_cons_self is
  · exact (List.nodup_cons.mp nodup).1 (List.mem_map.mpr ⟨other,there,is⟩)

theorem page_at_alone (alone : Alone front page back) : page_at (front ++ page :: back) page.address = .ok page := by
  have before : front.find? (·.address = page.address) = none :=
    List.find?_eq_none.mpr fun other there => by simpa using alone.1 other there
  simp [page_at,List.find?_append,before]

theorem store_alone (alone : Alone front page back) (same : page'.address = page.address) :
    store (front ++ page :: back) page' = front ++ page' :: back := by
  have others : ∀ list : List Page, (∀ other ∈ list, other.address ≠ page.address) → store list page' = list := by
    intro list apart
    refine (List.map_congr_left fun other there => ?_).trans (List.map_id list)
    rw [same,if_neg (apart other there)]
    rfl
  have split : store (front ++ page :: back) page' = store front page' ++ store [page] page' ++ store back page' := by
    simp [store]
  rw [split,others front alone.1,others back alone.2]
  simp [store,same]

theorem erase_alone (alone : Alone front page back) :
    (front ++ page :: back).eraseP (·.address = page.address) = front ++ back := by
  rw [List.eraseP_append_right _ (fun other there => by simpa using alone.1 other there),
    List.eraseP_cons_of_pos (by simp)]

theorem is_last_alone (alone : Alone front page back) : is_last (front ++ page :: back) page = decide (back = []) := by
  rcases List.eq_nil_or_concat back with rfl | ⟨more,last,rfl⟩
  · simp [is_last]
  · have apart := alone.2 last (by simp)
    have split : front ++ page :: more.concat last = (front ++ page :: more) ++ [last] := by simp
    rw [is_last,split,List.getLast?_concat]
    simp [apart]

/-- The node's page, and those around it. -/
theorem page_of_handed (distinct : (a_pool.page_list.map (·.address)).Nodup) (handed : Handed a_pool.page_list node) :
    ∃ front page back, a_pool.page_list = front ++ page :: back ∧ page.address = node.page ∧ node.i < page.ofs ∧
      Alone front page back := by
  obtain ⟨page,there,address,inside⟩ := handed
  obtain ⟨front,back,split⟩ := List.append_of_mem there
  rw [split] at distinct
  exact ⟨front,page,back,split,address,inside,alone_of_distinct distinct⟩

theorem handed_append : Handed (front ++ back) node ↔ Handed front node ∨ Handed back node := by
  simp only [Handed,List.mem_append,or_and_right,exists_or]

theorem handed_cons : Handed (page :: back) node ↔ (page.address = node.page ∧ node.i < page.ofs) ∨ Handed back node := by
  simp only [Handed,List.mem_cons,or_and_right,exists_or,exists_eq_left]

theorem handed_apart (apart : ∀ other ∈ front, other.address ≠ page.address) (handed : Handed front node) :
    node.page ≠ page.address := by
  obtain ⟨other,there,is,_⟩ := handed
  rw [← is]
  exact apart other there

/-- A page that changes in its number of objects has handed out the same nodes. -/
theorem handed_store (address : page'.address = page.address) (ofs : page'.ofs = page.ofs) :
    Handed (front ++ page' :: back) node ↔ Handed (front ++ page :: back) node := by
  rw [handed_append,handed_append,handed_cons,handed_cons,address,ofs]

theorem handed_around (alone : Alone front page back) :
    Handed (front ++ back) node ↔ Handed (front ++ page :: back) node ∧ node.page ≠ page.address := by
  rw [handed_append,handed_append,handed_cons]
  constructor
  · rintro (found | found)
    · exact ⟨.inl found,handed_apart alone.1 found⟩
    · exact ⟨.inr (.inr found),handed_apart alone.2 found⟩
  · rintro ⟨found | ⟨is,_⟩ | found,other⟩
    · exact .inl found
    · exact absurd is.symm other
    · exact .inr found

theorem dropLast_mid (front : List Page) (page : Page) (back : List Page) :
    (front ++ page :: back).dropLast = if back = [] then front else front ++ page :: back.dropLast := by
  cases back with
  | nil => simp
  | cons first back => simp [List.dropLast_append_of_ne_nil]

theorem filled_store (ofs : page'.ofs = page.ofs) (filled : ∀ other ∈ (front ++ page :: back).dropLast, other.ofs = num) :
    ∀ other ∈ (front ++ page' :: back).dropLast, other.ofs = num := by
  rw [dropLast_mid] at filled ⊢
  intro other there
  split at filled
  · rename_i none
    rw [if_pos none] at there
    exact filled other there
  · rename_i some_
    rw [if_neg some_] at there
    rcases List.mem_append.mp there with before | there
    · exact filled other (List.mem_append_left _ before)
    rcases List.mem_cons.mp there with rfl | after
    · rw [ofs]
      exact filled page (by simp)
    · exact filled other (by simp [after])

theorem filled_around (filled : ∀ other ∈ (front ++ page :: back).dropLast, other.ofs = num) :
    ∀ other ∈ (front ++ back).dropLast, other.ofs = num := by
  rw [dropLast_mid] at filled
  intro other there
  split at filled
  · rename_i none
    rw [none,List.append_nil] at there
    exact filled other (List.dropLast_subset _ there)
  · rename_i some_
    rw [List.dropLast_append_of_ne_nil some_] at there
    rcases List.mem_append.mp there with before | after
    · exact filled other (List.mem_append_left _ before)
    · exact filled other (List.mem_append_right _ (List.mem_cons_of_mem _ after))

theorem mem_mid {other : Page} : other ∈ front ++ page :: back ↔ other = page ∨ other ∈ front ++ back := by
  simp only [List.mem_append,List.mem_cons]
  exact or_left_comm

theorem alone_around {other : Page} (alone : Alone front page back) (there : other ∈ front ++ back) :
    other.address ≠ page.address :=
  (List.mem_append.mp there).elim (alone.1 other) (alone.2 other)

/-- The number of objects that a page has after one of them is handed out. -/
theorem count_cons (node : Node) (live : List Node) (address : Nat) : (node :: live).countP (·.page = address) =
    live.countP (·.page = address) + if node.page = address then 1 else 0 := by
  simp [List.countP_cons]

theorem count_erase (there : node ∈ live) (address : Nat) : (live.erase node).countP (·.page = address) =
    live.countP (·.page = address) - if node.page = address then 1 else 0 := by
  have split := (List.perm_cons_erase there).countP_eq (fun n => decide (n.page = address))
  rw [count_cons] at split
  omega

/-- Removing nodes that are in the list, each once. -/
theorem remove_all {nodes : List Node} : ∀ {freed_list : List Node}, nodes.Nodup → (∀ node ∈ nodes, node ∈ freed_list) →
    nodes.foldlM remove freed_list = .ok (freed_list.diff nodes) := by
  induction nodes with
  | nil => exact fun _ _ => rfl
  | cons node nodes ih =>
    intro freed_list nodup inside
    obtain ⟨apart,nodup⟩ := List.nodup_cons.mp nodup
    have first : remove freed_list node = .ok (freed_list.erase node) := if_pos (inside node List.mem_cons_self)
    rw [List.foldlM_cons,first,List.diff_cons]
    refine ih nodup fun other there => ?_
    refine (List.mem_erase_of_ne ?_).mpr (inside other (List.mem_cons_of_mem _ there))
    rintro rfl
    exact apart there

/-- The nodes that a page has handed out. -/
def nodes_of (page : Page) : List Node := (List.range page.ofs).map fun i => ⟨page.address,i⟩

theorem mem_nodes_of : node ∈ nodes_of page ↔ node.page = page.address ∧ node.i < page.ofs := by
  simp only [nodes_of,List.mem_map,List.mem_range]
  constructor
  · rintro ⟨i,less,rfl⟩
    exact ⟨rfl,less⟩
  · rintro ⟨is,less⟩
    exact ⟨node.i,less,by rw [← is]⟩

theorem nodup_nodes_of (page : Page) : (nodes_of page).Nodup :=
  List.nodup_range.map fun i j same => by simpa using same

/-! ### Allocation -/

/-- A node that was freed is handed out again. -/
theorem alloc_freed (sound : Sound num a_pool live) {rest : List Node} (freed : a_pool.freed_list = node :: rest) :
    ∃ pool', alloc num malloc a_pool = .ok (node,pool') ∧ node ∉ live ∧ Sound num pool' (node :: live) := by
  have first : node ∈ a_pool.freed_list := by
    rw [freed]
    exact List.mem_cons_self
  obtain ⟨handed,fresh⟩ := (sound.freed.2 node).mp first
  obtain ⟨front,page,back,split,address,inside,alone⟩ := page_of_handed sound.distinct handed
  obtain ⟨page',is⟩ : ∃ page', page' = { page with used_num := page.used_num + 1 } := ⟨_,rfl⟩
  have same : page'.address = page.address ∧ page'.ofs = page.ofs := by
    rw [is]
    exact ⟨rfl,rfl⟩
  have distinct := sound.distinct
  have filled := sound.filled
  have ofs_le := sound.ofs_le
  have used := sound.used
  have needed := sound.needed
  have nodup := sound.freed.1
  rw [split] at distinct filled ofs_le used needed
  rw [freed] at nodup
  refine ⟨⟨front ++ page' :: back,rest⟩,?_,fresh,?_⟩
  · rw [alloc,freed]
    simp only [split]
    rw [← address,page_at_alone alone,← store_alone alone same.1,is]
    rfl
  constructor
  case distinct =>
    rw [List.map_append,List.map_cons] at distinct ⊢
    rw [same.1]
    exact distinct
  case held => exact List.nodup_cons.mpr ⟨fresh,sound.held⟩
  case handed =>
    intro other there
    rw [handed_store same.1 same.2,← split]
    rcases List.mem_cons.mp there with rfl | there
    · exact handed
    · exact sound.handed other there
  case freed =>
    obtain ⟨apart,nodup⟩ := List.nodup_cons.mp nodup
    refine ⟨nodup,fun other => ?_⟩
    have all := sound.freed.2 other
    rw [freed,List.mem_cons] at all
    rw [handed_store same.1 same.2,← split,List.mem_cons,not_or]
    constructor
    · intro there
      obtain ⟨handed',dead⟩ := all.mp (.inr there)
      refine ⟨handed',?_,dead⟩
      rintro rfl
      exact apart there
    · rintro ⟨handed',other,dead⟩
      exact (all.mpr ⟨handed',dead⟩).resolve_left other
  case filled => exact filled_store same.2 filled
  case ofs_le =>
    intro other there
    rcases mem_mid.mp there with rfl | there
    · rw [same.2]
      exact ofs_le page (mem_mid.mpr (.inl rfl))
    · exact ofs_le other (mem_mid.mpr (.inr there))
  case used =>
    intro other there
    rw [count_cons]
    rcases mem_mid.mp there with rfl | there
    · rw [same.1,if_pos address.symm,← used page (mem_mid.mpr (.inl rfl)),is]
    · rw [if_neg (address ▸ Ne.symm (alone_around alone there)),used other (mem_mid.mpr (.inr there))]
      rfl
  case needed =>
    intro other there
    rcases mem_mid.mp there with rfl | there
    · exact ⟨node,List.mem_cons_self,by rw [same.1,address]⟩
    · obtain ⟨n,live',is'⟩ := needed other (mem_mid.mpr (.inr there))
      exact ⟨n,List.mem_cons_of_mem _ live',is'⟩

/-- A new address has no objects. -/
theorem count_none {page_list : List Page} (handed : ∀ node ∈ live, Handed page_list node)
    (fresh : malloc ∉ page_list.map (·.address)) : live.countP (·.page = malloc) = 0 := by
  refine List.countP_eq_zero.mpr fun node there is => ?_
  obtain ⟨page,inside,address,_⟩ := handed node there
  exact fresh (List.mem_map.mpr ⟨page,inside,address.trans (of_decide_eq_true is)⟩)

/-- The page from which a node is taken has room, and the pages before it have handed
    out all that they have. -/
structure Opened (num : Nat) (page_list : List Page) (live : List Node) (before : List Page) (page : Page) : Prop where
  room : page.ofs < num
  distinct : ((before ++ [page]).map (·.address)).Nodup
  handed : ∀ node, Handed page_list node ↔ Handed (before ++ [page]) node
  filled : ∀ other ∈ before, other.ofs = num
  used : ∀ other ∈ before ++ [page], other.used_num = live.countP (·.page = other.address)
  needed : ∀ other ∈ before, ∃ node ∈ live, node.page = other.address

theorem opened_new (sound : Sound num a_pool live) (positive : 1 ≤ num) (fresh : malloc ∉ a_pool.page_list.map (·.address))
    (full : ∀ other ∈ a_pool.page_list, other.ofs = num) : Opened num a_pool.page_list live a_pool.page_list ⟨malloc,0,0⟩ where
  room := positive
  distinct := by
    rw [List.map_append,List.nodup_append]
    refine ⟨sound.distinct,List.nodup_singleton _,?_⟩
    rintro address there _ new rfl
    rw [List.mem_singleton.mp new] at there
    exact fresh there
  handed node := by
    rw [handed_append,handed_cons]
    refine ⟨.inl,?_⟩
    rintro (found | ⟨_,less⟩ | ⟨_,⟨⟩,_⟩)
    · exact found
    · exact absurd less (Nat.not_lt_zero _)
  filled := full
  used other there := by
    rcases List.mem_append.mp there with before | new
    · exact sound.used other before
    · rw [List.mem_singleton.mp new]
      exact (count_none sound.handed fresh).symm
  needed := sound.needed

theorem last_page_opened (sound : Sound num a_pool live) (positive : 1 ≤ num)
    (fresh : malloc ∉ a_pool.page_list.map (·.address)) :
    Opened num a_pool.page_list live (last_page num malloc a_pool.page_list).1 (last_page num malloc a_pool.page_list).2 := by
  rcases List.eq_nil_or_concat a_pool.page_list with none | ⟨before,page,split⟩
  · have full : ∀ other ∈ a_pool.page_list, other.ofs = num := by
      rw [none]
      exact nofun
    have new := opened_new sound positive fresh full
    rw [none] at new ⊢
    exact new
  · rw [List.concat_eq_append] at split
    have filled := sound.filled
    have ofs_le := sound.ofs_le page (by simp [split])
    rw [split,List.dropLast_concat] at filled
    by_cases full : num = page.ofs
    · have opened := opened_new sound positive fresh fun other there => by
        rw [split] at there
        rcases List.mem_append.mp there with first | last
        · exact filled other first
        · rw [List.mem_singleton.mp last,full]
      have new : last_page num malloc a_pool.page_list = (a_pool.page_list,⟨malloc,0,0⟩) := by
        rw [last_page,split,List.getLast?_concat]
        exact if_pos full
      rw [new]
      exact opened
    · have old : last_page num malloc a_pool.page_list = (before,page) := by
        rw [last_page,split,List.getLast?_concat,List.dropLast_concat]
        exact if_neg full
      have distinct := sound.distinct
      have used := sound.used
      have needed := sound.needed
      rw [split] at distinct used needed
      rw [old,split]
      exact ⟨Nat.lt_of_le_of_ne ofs_le (Ne.symm full),distinct,fun _ => Iff.rfl,filled,used,fun other there => needed other (List.mem_append_left _ there)⟩

/-- A node that has not been handed out before is taken from the last page. -/
theorem alloc_last (sound : Sound num a_pool live) (positive : 1 ≤ num) (fresh : malloc ∉ a_pool.page_list.map (·.address))
    (freed : a_pool.freed_list = []) :
    ∃ node pool', alloc num malloc a_pool = .ok (node,pool') ∧ node ∉ live ∧ Sound num pool' (node :: live) := by
  have opened := last_page_opened sound positive fresh
  obtain ⟨before,page,last⟩ : ∃ before page, last_page num malloc a_pool.page_list = (before,page) := ⟨_,_,rfl⟩
  rw [last] at opened
  have alone : Alone before page [] := alone_of_distinct opened.distinct
  have dead : ⟨page.address,page.ofs⟩ ∉ live := by
    intro there
    have handed := (opened.handed _).mp (sound.handed _ there)
    rw [handed_append,handed_cons] at handed
    rcases handed with found | ⟨_,less⟩ | ⟨_,⟨⟩,_⟩
    · exact handed_apart alone.1 found rfl
    · exact absurd less (Nat.lt_irrefl _)
  obtain ⟨page',is⟩ : ∃ page', page' = { page with ofs := page.ofs + 1, used_num := page.used_num + 1 } := ⟨_,rfl⟩
  have handed_iff : ∀ node, Handed (before ++ [page']) node ↔
      Handed a_pool.page_list node ∨ node = ⟨page.address,page.ofs⟩ := by
    intro node
    rw [opened.handed,handed_append,handed_append,handed_cons,handed_cons,is,or_assoc,or_assoc]
    refine or_congr_right ?_
    have none : ¬ Handed [] node := by
      rintro ⟨_,⟨⟩,_⟩
    simp only [none,or_false,false_or,Node.ext_iff]
    omega
  refine ⟨⟨page.address,page.ofs⟩,⟨before ++ [page'],[]⟩,?_,dead,?_⟩
  · rw [alloc,freed,is]
    simp only [last]
    exact if_pos opened.room
  constructor
  case distinct =>
    have := opened.distinct
    rw [List.map_append,List.map_singleton] at this ⊢
    rw [is]
    exact this
  case held => exact List.nodup_cons.mpr ⟨dead,sound.held⟩
  case handed =>
    intro node there
    rw [handed_iff]
    rcases List.mem_cons.mp there with rfl | there
    · exact .inr rfl
    · exact .inl (sound.handed node there)
  case freed =>
    refine ⟨List.nodup_nil,fun node => iff_of_false List.not_mem_nil ?_⟩
    rw [handed_iff,List.mem_cons]
    rintro ⟨handed | new,old⟩
    · have := (sound.freed.2 node).mpr ⟨handed,fun there => old (.inr there)⟩
      rw [freed] at this
      cases this
    · exact old (.inl new)
  case filled =>
    rw [List.dropLast_concat]
    exact opened.filled
  case ofs_le =>
    intro other there
    rcases List.mem_append.mp there with first | last
    · exact Nat.le_of_eq (opened.filled other first)
    · rw [List.mem_singleton.mp last,is]
      exact opened.room
  case used =>
    intro other there
    rw [count_cons]
    rcases List.mem_append.mp there with first | last
    · rw [if_neg (Ne.symm (alone.1 other first)),opened.used other (List.mem_append_left _ first)]
      rfl
    · rw [List.mem_singleton.mp last,is,if_pos rfl,← opened.used page (by simp)]
  case needed =>
    intro other there
    rcases List.mem_append.mp there with first | last
    · obtain ⟨node,live',is'⟩ := opened.needed other first
      exact ⟨node,List.mem_cons_of_mem _ live',is'⟩
    · exact ⟨_,List.mem_cons_self,by rw [List.mem_singleton.mp last,is]⟩

/-! ### Freeing -/

/-- A list that holds what has been freed, after one more object. -/
def Freed (a_pool : PoolType) (live : List Node) (node : Node) (freed_list : List Node) : Prop :=
  freed_list.Nodup ∧ ∀ other, other ∈ freed_list ↔ Handed a_pool.page_list other ∧ other ∉ live.erase node

theorem freed_cons (sound : Sound num a_pool live) (there : node ∈ live) {freed_list : List Node}
    (perm : freed_list.Perm (node :: a_pool.freed_list)) : Freed a_pool live node freed_list := by
  have alive : node ∉ a_pool.freed_list := fun freed => ((sound.freed.2 node).mp freed).2 there
  refine ⟨perm.nodup_iff.mpr (List.nodup_cons.mpr ⟨alive,sound.freed.1⟩),fun other => ?_⟩
  rw [perm.mem_iff,List.mem_cons,sound.freed.2,sound.held.mem_erase_iff]
  by_cases same : other = node
  · rw [same]
    exact iff_of_true (.inl rfl) ⟨sound.handed node there,fun still => still.1 rfl⟩
  · simp only [same,false_or,ne_eq,not_false_eq_true,true_and]

/-- With its last object the page is gone, and so are all its nodes. -/
theorem sound_without (sound : Sound num a_pool live) (there : node ∈ live) (split : a_pool.page_list = front ++ page :: back)
    (alone : Alone front page back) (last : (live.erase node).countP (·.page = page.address) = 0)
    (address : page.address = node.page) {freed_list : List Node} (freed : Freed a_pool live node freed_list) :
    Sound num ⟨front ++ back,freed_list.diff (nodes_of page)⟩ (live.erase node) := by
  have gone : ∀ other ∈ live.erase node, other.page ≠ page.address := fun other alive is =>
    List.countP_eq_zero.mp last other alive (decide_eq_true is)
  have distinct := sound.distinct
  have filled := sound.filled
  rw [split] at distinct filled
  constructor
  case distinct =>
    refine List.Nodup.sublist (List.Sublist.map _ ?_) distinct
    exact List.Sublist.append_left (List.sublist_cons_self page back) front
  case held => exact sound.held.erase node
  case handed =>
    intro other alive
    rw [handed_around alone,← split]
    exact ⟨sound.handed other (List.mem_of_mem_erase alive),gone other alive⟩
  case freed =>
    refine ⟨freed.1.diff,fun other => ?_⟩
    rw [freed.1.mem_sdiff_iff,freed.2,handed_around alone,← split,mem_nodes_of,and_right_comm]
    refine and_congr_left fun _ => and_congr_right fun handed => not_congr (and_iff_left_of_imp fun is => ?_)
    rw [split,handed_append,handed_cons] at handed
    rcases handed with found | ⟨_,less⟩ | found
    · exact absurd is (handed_apart alone.1 found)
    · exact less
    · exact absurd is (handed_apart alone.2 found)
  case filled => exact filled_around filled
  case ofs_le =>
    intro other inside
    exact sound.ofs_le other (split ▸ mem_mid.mpr (.inr inside))
  case used =>
    intro other inside
    rw [count_erase there,sound.used other (split ▸ mem_mid.mpr (.inr inside)),
      if_neg (address ▸ Ne.symm (alone_around alone inside))]
    rfl
  case needed =>
    intro other inside
    obtain ⟨n,alive,is⟩ := sound.needed other (split ▸ mem_mid.mpr (.inr inside))
    refine ⟨n,(List.mem_erase_of_ne ?_).mpr alive,is⟩
    rintro rfl
    exact alone_around alone inside (is.symm.trans address.symm)

/-- Otherwise only the page's counter and the list change. -/
theorem sound_with (sound : Sound num a_pool live) (there : node ∈ live) (split : a_pool.page_list = front ++ page :: back)
    (alone : Alone front page back) (more : (live.erase node).countP (·.page = page.address) ≠ 0)
    (address : page.address = node.page) {freed_list : List Node} (freed : Freed a_pool live node freed_list) :
    Sound num ⟨front ++ { page with used_num := page.used_num - 1 } :: back,freed_list⟩ (live.erase node) := by
  obtain ⟨page',is⟩ : ∃ page', page' = { page with used_num := page.used_num - 1 } := ⟨_,rfl⟩
  have same : page'.address = page.address ∧ page'.ofs = page.ofs := by
    rw [is]
    exact ⟨rfl,rfl⟩
  have distinct := sound.distinct
  have filled := sound.filled
  have ofs_le := sound.ofs_le
  have used := sound.used
  rw [split] at distinct filled ofs_le used
  rw [← is]
  constructor
  case distinct =>
    rw [List.map_append,List.map_cons] at distinct ⊢
    rw [same.1]
    exact distinct
  case held => exact sound.held.erase node
  case handed =>
    intro other alive
    rw [handed_store same.1 same.2,← split]
    exact sound.handed other (List.mem_of_mem_erase alive)
  case freed =>
    refine ⟨freed.1,fun other => ?_⟩
    rw [handed_store same.1 same.2,← split]
    exact freed.2 other
  case filled => exact filled_store same.2 filled
  case ofs_le =>
    intro other inside
    rcases mem_mid.mp inside with rfl | inside
    · rw [same.2]
      exact ofs_le page (mem_mid.mpr (.inl rfl))
    · exact ofs_le other (mem_mid.mpr (.inr inside))
  case used =>
    intro other inside
    rw [count_erase there]
    rcases mem_mid.mp inside with rfl | inside
    · rw [same.1,if_pos address.symm,← used page (mem_mid.mpr (.inl rfl)),is]
    · rw [if_neg (address ▸ Ne.symm (alone_around alone inside)),used other (mem_mid.mpr (.inr inside))]
      rfl
  case needed =>
    intro other inside
    rcases mem_mid.mp inside with rfl | inside
    · obtain ⟨n,alive,held⟩ := List.countP_pos_iff.mp (Nat.pos_of_ne_zero more)
      exact ⟨n,alive,by rw [same.1,← of_decide_eq_true held]⟩
    · obtain ⟨n,alive,held⟩ := sound.needed other (split ▸ mem_mid.mpr (.inr inside))
      refine ⟨n,(List.mem_erase_of_ne ?_).mpr alive,held⟩
      rintro rfl
      exact alone_around alone inside (held.symm.trans address.symm)

/-- The list with a freed node, which depends on whether its page is the last one. -/
def freed_list_after (a_pool : PoolType) (node : Node) (back : List Page) : List Node :=
  if back = [] then a_pool.freed_list ++ [node] else node :: a_pool.freed_list

/-- What `free` does to a live object: the page goes with its last one. -/
theorem free_shape (sound : Sound num a_pool live) (there : node ∈ live) :
    ∃ front page back, a_pool.page_list = front ++ page :: back ∧ page.address = node.page ∧ Alone front page back ∧
      Freed a_pool live node (freed_list_after a_pool node back) ∧ free num a_pool node = .ok (
        if (live.erase node).countP (·.page = page.address) = 0 then
          ⟨front ++ back,(freed_list_after a_pool node back).diff (nodes_of page)⟩
        else ⟨front ++ { page with used_num := page.used_num - 1 } :: back,freed_list_after a_pool node back⟩) := by
  obtain ⟨front,page,back,split,address,inside,alone⟩ := page_of_handed sound.distinct (sound.handed node there)
  have here : page ∈ a_pool.page_list := split ▸ mem_mid.mpr (.inl rfl)
  have few := sound.ofs_le page here
  obtain ⟨freed_list,isFreed⟩ : ∃ freed_list, freed_list = freed_list_after a_pool node back := ⟨_,rfl⟩
  have freed : Freed a_pool live node freed_list := by
    apply freed_cons sound there
    rw [isFreed,freed_list_after]
    split_ifs
    · exact List.perm_append_singleton node _
    · exact List.Perm.refl _
  refine ⟨front,page,back,split,address,alone,isFreed ▸ freed,?_⟩
  have count : page.used_num - 1 = (live.erase node).countP (·.page = page.address) := by
    rw [count_erase there,if_pos address.symm,sound.used page here]
  have found : page_at a_pool.page_list node.page = .ok page := by
    rw [split,← address]
    exact page_at_alone alone
  have last : (if is_last a_pool.page_list page then a_pool.freed_list ++ [node] else node :: a_pool.freed_list) =
      freed_list := by
    rw [isFreed,freed_list_after,split,is_last_alone alone]
    simp only [decide_eq_true_eq]
  rw [free,found]
  simp only [bind,Except.bind]
  rw [if_neg (Nat.not_le_of_lt (Nat.lt_of_lt_of_le inside few)),last,← isFreed]
  by_cases empty : 0 = page.used_num - 1
  · rw [if_pos empty,if_pos (count ▸ empty.symm)]
    have removed : (List.range page.ofs).foldlM (fun freed_list i => remove freed_list ⟨page.address,i⟩) freed_list =
        .ok (freed_list.diff (nodes_of page)) := by
      rw [← remove_all (nodup_nodes_of page),nodes_of,List.foldlM_map]
      intro other inside
      obtain ⟨is,less⟩ := mem_nodes_of.mp inside
      refine (freed.2 other).mpr ⟨⟨page,here,is.symm,less⟩,fun alive => ?_⟩
      exact List.countP_eq_zero.mp (count ▸ empty.symm) other alive (decide_eq_true is)
    rw [removed,split]
    simp only
    rw [erase_alone alone]
    rfl
  · rw [if_neg empty,if_neg (count ▸ Ne.symm empty),split]
    exact congrArg (fun pages => Except.ok (⟨pages,freed_list⟩ : PoolType)) (store_alone alone rfl)

/-- A live object can be freed. -/
theorem free_sound (sound : Sound num a_pool live) (there : node ∈ live) :
    ∃ pool', free num a_pool node = .ok pool' ∧ Sound num pool' (live.erase node) := by
  obtain ⟨front,page,back,split,address,alone,freed,run⟩ := free_shape sound there
  refine ⟨_,run,?_⟩
  by_cases last : (live.erase node).countP (·.page = page.address) = 0
  · rw [if_pos last]
    exact sound_without sound there split alone last address freed
  · rw [if_neg last]
    exact sound_with sound there split alone last address freed

/-! ### Runs -/

inductive Op where
  | alloc (malloc : Nat)
  | free (node : Node)

/-- A program and the objects that it holds. -/
structure Program where
  pool : PoolType
  live : List Node

def step (num : Nat) (p : Program) : Op → Except Stop Program
  | .alloc malloc => do
    let (node,pool) ← alloc num malloc p.pool
    return ⟨pool,node :: p.live⟩
  | .free node => do
    let pool ← free num p.pool node
    return ⟨pool,p.live.erase node⟩

/-- `malloc` returns memory that is not in use, and only live objects are freed. -/
def Allowed (p : Program) : Op → Prop
  | .alloc malloc => malloc ∉ p.pool.page_list.map (·.address)
  | .free node => node ∈ p.live

instance (p : Program) (op : Op) : Decidable (Allowed p op) :=
  match op with
  | .alloc malloc => inferInstanceAs (Decidable (malloc ∉ p.pool.page_list.map (·.address)))
  | .free node => inferInstanceAs (Decidable (node ∈ p.live))

/-- What is allocated is not live. -/
def Fresh (num : Nat) (p : Program) (op : Op) : Prop :=
  ∀ malloc node pool, op = .alloc malloc → alloc num malloc p.pool = .ok (node,pool) → node ∉ p.live

theorem alloc_sound (sound : Sound num a_pool live) (positive : 1 ≤ num) (fresh : malloc ∉ a_pool.page_list.map (·.address)) :
    ∃ node pool', alloc num malloc a_pool = .ok (node,pool') ∧ node ∉ live ∧ Sound num pool' (node :: live) := by
  cases freed : a_pool.freed_list with
  | nil => exact alloc_last sound positive fresh freed
  | cons node rest =>
    obtain ⟨pool',run⟩ := alloc_freed sound freed
    exact ⟨node,pool',run⟩

theorem step_sound (positive : 1 ≤ num) (p : Program) (op : Op) (sound : Sound num p.pool p.live) (allowed : Allowed p op) :
    (∃ q, step num p op = .ok q ∧ Sound num q.pool q.live) ∧ Fresh num p op := by
  cases op with
  | alloc malloc =>
    obtain ⟨node,pool',run,dead,sound'⟩ := alloc_sound sound positive allowed
    refine ⟨⟨⟨pool',node :: p.live⟩,by rw [step,run]; rfl,sound'⟩,?_⟩
    rintro _ _ _ ⟨⟩ run'
    rw [run] at run'
    cases run'
    exact dead
  | free node =>
    obtain ⟨pool',run,sound'⟩ := free_sound sound allowed
    exact ⟨⟨⟨pool',p.live.erase node⟩,by rw [step,run]; rfl,sound'⟩,nofun⟩

theorem init_sound (num : Nat) : Sound num init [] where
  distinct := List.nodup_nil
  held := List.nodup_nil
  handed := nofun
  freed := ⟨List.nodup_nil,fun node => iff_of_false List.not_mem_nil (by rintro ⟨⟨_,⟨⟩,_⟩,_⟩)⟩
  filled := nofun
  ofs_le := nofun
  used := nofun
  needed := nofun

/-- Every run of allocations, and of frees of live objects, returns; in every state
    that it comes to the pool is sound, and no object is handed out twice. -/
theorem run_sound (num : Nat) (positive : 1 ≤ num) (ops : List Op) (allowed : Along (step num) Allowed ⟨init,[]⟩ ops) :
    (∃ p, steps (step num) ⟨init,[]⟩ ops = .ok p) ∧
      (∀ p, Reached (step num) ⟨init,[]⟩ ops p → Sound num p.pool p.live) ∧ Along (step num) (Fresh num) ⟨init,[]⟩ ops :=
  along_total (I := fun p : Program => Sound num p.pool p.live) (step_sound positive) (init_sound num) allowed

/-- Two pages of one object each, of which the first is freed and taken anew. -/
theorem run_sound_pages : (1 ≤ 1 ∧ Along (step 1) Allowed ⟨init,[]⟩ [.alloc 7,.alloc 8,.free ⟨7,0⟩,.alloc 7]) ∧
    (∃ p, steps (step 1) ⟨init,[]⟩ [.alloc 7,.alloc 8,.free ⟨7,0⟩,.alloc 7] = .ok p) ∧
      (∀ p, Reached (step 1) ⟨init,[]⟩ [.alloc 7,.alloc 8,.free ⟨7,0⟩,.alloc 7] p → Sound 1 p.pool p.live) ∧
        Along (step 1) (Fresh 1) ⟨init,[]⟩ [.alloc 7,.alloc 8,.free ⟨7,0⟩,.alloc 7] := by
  have allowed : Along (step 1) Allowed ⟨init,[]⟩ [.alloc 7,.alloc 8,.free ⟨7,0⟩,.alloc 7] := by
    refine ⟨by decide,?_⟩
    rintro _ ⟨⟩
    refine ⟨by decide,?_⟩
    rintro _ ⟨⟩
    refine ⟨by decide,?_⟩
    rintro _ ⟨⟩
    exact ⟨by decide,fun _ _ => trivial⟩
  exact ⟨⟨Nat.le_refl 1,allowed⟩,run_sound 1 (Nat.le_refl 1) _ allowed⟩

end

end Htools.Pool
