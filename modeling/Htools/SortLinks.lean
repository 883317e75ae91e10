import Htools.Machine
import Htools.Tailq
import Htools.TailqSort

/-!
The links that `TAILQ_SORT_DEFINE` makes. A queue is split by pointing two heads
on the stack into it, and its halves are merged node by node. The memory that
the sort leaves is shown to be a queue again, with the nodes in the order of the
sort on lists (`sort_queue`).
-/
namespace Htools.SortLinks
open Htools.Tailq Htools.TailqSort

section
variable {N : Type}

/-- The loop that finds the middle: the nodes `cur` and `prev` after `i` steps. -/
def find_middle (m : Memory N) : Nat → Option N → Option N → Option N × Option N
  | _, none, prev => (none,prev)
  | 0, some cur, prev => (some cur,prev)
  | i + 1, some cur, _ => find_middle m i (m.tqe_next cur) (some cur)

theorem find_middle_links {m : Memory N} {p q : Place N} {l : List N} (links : Links m p l q) {i : Nat}
    (inside : i < l.length) (prev : Option N) :
    find_middle m i (m.read p) prev = (l[i]?,if i = 0 then prev else l[i - 1]?) := by
  induction l generalizing p i prev with
  | nil => simp at inside
  | cons elm rest ih =>
    rw [links.1]
    cases i with
    | zero => rfl
    | succ i =>
      have later := ih links.2.2 (by simpa using inside) (some elm)
      rw [find_middle,show m.tqe_next elm = m.read (.next elm) from rfl,later]
      cases i with
      | zero => rfl
      | succ i => rfl

/-- The nodes around the middle of a list. -/
theorem middle_parts {l : List N} {middle : Nat} (positive : 0 < middle) (inside : middle < l.length) :
    ∃ before prev cur behind first, l.take middle = before ++ [prev] ∧ l.drop middle = cur :: behind ∧
      l[middle - 1]? = some prev ∧ l[middle]? = some cur ∧ (before ++ [prev]).head? = some first ∧
      l.head? = some first := by
  obtain ⟨i,rfl⟩ : ∃ i, middle = i + 1 := ⟨middle - 1,by omega⟩
  have front : l.take (i + 1) = l.take i ++ [l[i]] := List.take_succ_eq_append_getElem (by omega)
  refine ⟨l.take i,l[i],l[i + 1],l.drop (i + 2),l[0],front,List.drop_eq_getElem_cons inside,?_,?_,?_,?_⟩
  · rw [Nat.add_sub_cancel,List.getElem?_eq_getElem (by omega)]
  · rw [List.getElem?_eq_getElem inside]
  · rw [← front,List.head?_take,if_neg (by omega),List.head?_eq_getElem?,List.getElem?_eq_getElem (by omega)]
  · rw [List.head?_eq_getElem?,List.getElem?_eq_getElem (by omega)]

/-- One element of a list is before another one. -/
def Before (l : List N) (a b : N) : Prop := ∃ i j : Nat, i < j ∧ l[i]? = some a ∧ l[j]? = some b

theorem pairwise_before (l : List N) : l.Pairwise (Before l) := by
  rw [List.pairwise_iff_getElem]
  intro i j insideI insideJ less
  exact ⟨i,j,less,List.getElem?_eq_getElem insideI,List.getElem?_eq_getElem insideJ⟩

variable [DecidableEq N] (cmp : N → N → Int)

/-- The head `left` gets the nodes before `cur`, and `right` the others. -/
def split (m : Memory N) (a_list left right : Nat) (prev first cur : N) : Memory N :=
  let m := { m with tqh_first := Function.update m.tqh_first left (m.tqh_first a_list) }
  let m := { m with tqh_last := Function.update m.tqh_last left (.next prev) }
  let m := { m with tqe_prev := Function.update m.tqe_prev first (.first left) }
  let m := { m with tqe_next := Function.update m.tqe_next prev none }
  let m := { m with tqh_first := Function.update m.tqh_first right (some cur) }
  let m := { m with tqh_last := Function.update m.tqh_last right (m.tqh_last a_list) }
  { m with tqe_prev := Function.update m.tqe_prev cur (.first right) }

/-- A node moves from the head of one queue to the tail of another one. -/
def move (m : Memory N) (source a_list : Nat) (elm : N) : Memory N :=
  tailq_insert_tail (tailq_remove m source elm) a_list elm

def merge_loop (a_list left right : Nat) : Nat → Memory N → Except Stop (Memory N)
  | 0, _ => .error .fuel
  | fuel + 1, m =>
    match m.tqh_first left, m.tqh_first right with
    | some p_l, some p_r =>
      if cmp p_l p_r > 0 then merge_loop a_list left right fuel (move m right a_list p_r)
      else merge_loop a_list left right fuel (move m left a_list p_l)
    | _, _ => .ok m

/-- The loops that append what is left of a half. -/
def drain (a_list source : Nat) : Nat → Memory N → Except Stop (Memory N)
  | 0, _ => .error .fuel
  | fuel + 1, m =>
    match m.tqh_first source with
    | some cur => drain a_list source fuel (move m source a_list cur)
    | none => .ok m

/-- The sort, with the heads on the stack from `stack` on. -/
def sort : (depth : Nat) → Memory N → (stack a_list a_size : Nat) → Except Stop (Memory N)
  | 0, _, _, _, _ => .error .fuel
  | depth + 1, m, stack, a_list, a_size =>
    if 1 ≥ a_size then .ok m
    else
      let left := stack
      let right := stack + 1
      let m := tailq_init m left
      let m := tailq_init m right
      let middle := a_size / 2
      match find_middle m middle (m.tqh_first a_list) none, m.tqh_first a_list with
      | (_,none), _ => .error .abort
      | (none,_), _ | _, none => .error .fault
      | (some cur,some prev), some first => do
        let m := split m a_list left right prev first cur
        let m ← sort depth m (stack + 2) left middle
        let m ← sort depth m (stack + 2) right (a_size - middle)
        let m := tailq_init m a_list
        let m ← merge_loop cmp a_list left right (a_size + 1) m
        let m ← drain a_list left (a_size + 1) m
        drain a_list right (a_size + 1) m

/-! ### Moving nodes -/

variable {m : Memory N} {a_list source left right : Nat} {done l : List N} {elm : N}

/-- A node goes to the tail of another queue. -/
theorem move_queue (giving : Queue m source (elm :: l)) (taking : Queue m a_list done) (apart : source ≠ a_list)
    (nodup : (done ++ elm :: l).Nodup) :
    Queue (move m source a_list elm) source l ∧ Queue (move m source a_list elm) a_list (done ++ [elm]) := by
  have disjoint : ∀ e ∈ done, e ∉ l := by grind
  have fresh : elm ∉ done := by grind
  have outside : ∀ e ∈ l, e ∉ elm :: done := by grind
  have removed := tailq_remove_queue giving
  have target := taking.untouched (tailq_remove_untouched giving apart.symm disjoint)
  exact ⟨removed.untouched (tailq_insert_tail_untouched target apart outside),tailq_insert_tail_queue target fresh⟩

theorem move_untouched {other : Nat} {rest : List N} (giving : Queue m source (elm :: l)) (taking : Queue m a_list done)
    (apart : source ≠ a_list) (nodup : (done ++ elm :: l).Nodup) (notSource : other ≠ source) (notTarget : other ≠ a_list)
    (outside : ∀ e ∈ rest, e ∉ done ++ elm :: l) : Untouched m (move m source a_list elm) other rest := by
  have disjoint : ∀ e ∈ done, e ∉ l := by grind
  have away : ∀ e ∈ rest, e ∉ l := by grind
  have away' : ∀ e ∈ rest, e ∉ elm :: done := by grind
  have target := taking.untouched (tailq_remove_untouched giving apart.symm disjoint)
  exact (tailq_remove_untouched giving notSource away).trans (tailq_insert_tail_untouched target notTarget away')

/-- What is left of a half goes to the end. -/
theorem drain_queue (apart : source ≠ a_list) : ∀ {k : Nat} {m : Memory N} {done l : List N},
    Queue m source l → Queue m a_list done → (done ++ l).Nodup → l.length ≤ k →
    ∃ m', drain a_list source (k + 1) m = .ok m' ∧ Queue m' a_list (done ++ l) ∧
      ∀ other rest, other ≠ source → other ≠ a_list → (∀ e ∈ rest, e ∉ done ++ l) → Untouched m m' other rest := by
  intro k
  induction k with
  | zero =>
    intro m done l giving taking nodup enough
    obtain rfl := List.length_eq_zero_iff.mp (Nat.le_zero.mp enough)
    refine ⟨m,?_,by rwa [List.append_nil],fun _ _ _ _ _ => .refl⟩
    rw [drain,giving.head?]
    rfl
  | succ k ih =>
    intro m done l giving taking nodup enough
    rw [drain,giving.head?]
    cases l with
    | nil => exact ⟨m,rfl,by rwa [List.append_nil],fun _ _ _ _ _ => .refl⟩
    | cons elm l =>
      obtain ⟨giving',taking'⟩ := move_queue giving taking apart nodup
      have nodup' : ((done ++ [elm]) ++ l).Nodup := by rwa [List.append_assoc]
      obtain ⟨m',run,queue,untouched⟩ := ih giving' taking' nodup' (by simpa using enough)
      rw [List.append_assoc] at queue untouched
      refine ⟨m',run,queue,?_⟩
      intro other rest notSource notTarget outside
      exact (move_untouched giving taking apart nodup notSource notTarget outside).trans
        (untouched other rest notSource notTarget outside)

/-- The nodes of the three queues while they are merged: those that are placed,
    and those that the merge of the rest gives. -/
theorem merge_loop_queue (cmp : N → N → Int) (notLeft : left ≠ a_list) (notRight : right ≠ a_list)
    (apart : left ≠ right) : ∀ {rounds : Nat} {m : Memory N} {done ls rs : List N}, Queue m left ls → Queue m right rs →
    Queue m a_list done → (done ++ ls ++ rs).Nodup → ls.length + rs.length ≤ rounds →
    ∃ m' placed ls' rs', merge_loop cmp a_list left right (rounds + 1) m = .ok m' ∧ Queue m' left ls' ∧
      Queue m' right rs' ∧ Queue m' a_list placed ∧ placed ++ ls' ++ rs' = done ++ tailq_merge cmp rounds ls rs ∧
      ∀ other rest, other ≠ left → other ≠ right → other ≠ a_list → (∀ e ∈ rest, e ∉ done ++ ls ++ rs) →
        Untouched m m' other rest := by
  have same : ∀ {m : Memory N} {other : Nat} {rest : List N}, Untouched m m other rest :=
    Untouched.refl
  intro rounds
  induction rounds with
  | zero =>
    intro m done ls rs first second taking nodup enough
    obtain rfl : ls = [] := List.length_eq_zero_iff.mp (by omega)
    obtain rfl : rs = [] := List.length_eq_zero_iff.mp (by omega)
    refine ⟨m,done,[],[],?_,first,second,taking,by simp [tailq_merge],fun _ _ _ _ _ _ => same⟩
    rw [merge_loop,first.head?]
    rfl
  | succ rounds ih =>
    intro m done ls rs first second taking nodup enough
    rw [merge_loop,first.head?,second.head?]
    cases ls with
    | nil => exact ⟨m,done,[],rs,rfl,first,second,taking,by simp [tailq_merge],fun _ _ _ _ _ _ => same⟩
    | cons p_l ls =>
      cases rs with
      | nil => exact ⟨m,done,p_l :: ls,[],rfl,first,second,taking,by simp [tailq_merge],fun _ _ _ _ _ _ => same⟩
      | cons p_r rs =>
        simp only [List.head?_cons,tailq_merge,List.length_cons] at enough ⊢
        by_cases greater : cmp p_l p_r > 0
        · have nodup' : (done ++ p_r :: rs).Nodup := by grind
          obtain ⟨second',taking'⟩ := move_queue second taking notRight nodup'
          have first' := first.untouched (move_untouched second taking notRight nodup' apart notLeft (by grind))
          obtain ⟨m',placed,ls',rs',run,firstEnd,secondEnd,takingEnd,merged,untouched⟩ :=
            ih first' second' taking' (by grind) (by simp only [List.length_cons]; omega)
          rw [if_pos greater,if_pos greater]
          refine ⟨m',placed,ls',rs',run,firstEnd,secondEnd,takingEnd,by rw [merged]; simp,?_⟩
          intro other rest notFirst notSecond notTaking outside
          exact (move_untouched second taking notRight nodup' notSecond notTaking (by grind)).trans
            (untouched other rest notFirst notSecond notTaking (by grind))
        · have nodup' : (done ++ p_l :: ls).Nodup := by grind
          obtain ⟨first',taking'⟩ := move_queue first taking notLeft nodup'
          have second' := second.untouched (move_untouched first taking notLeft nodup' apart.symm notRight (by grind))
          obtain ⟨m',placed,ls',rs',run,firstEnd,secondEnd,takingEnd,merged,untouched⟩ :=
            ih first' second' taking' (by grind) (by simp only [List.length_cons]; omega)
          rw [if_neg greater,if_neg greater]
          refine ⟨m',placed,ls',rs',run,firstEnd,secondEnd,takingEnd,by rw [merged]; simp,?_⟩
          intro other rest notFirst notSecond notTaking outside
          exact (move_untouched first taking notLeft nodup' notFirst notTaking (by grind)).trans
            (untouched other rest notFirst notSecond notTaking (by grind))

/-! ### Splitting -/

section
variable {before behind : List N} {prev first cur : N}

/-- The halves of a queue around the place between `prev` and `cur`. -/
theorem split_left (queue : Queue m a_list ((before ++ [prev]) ++ cur :: behind))
    (head : (before ++ [prev]).head? = some first) (apart : left ≠ right) :
    Queue (split m a_list left right prev first cur) left (before ++ [prev]) := by
  have start := queue.head?
  obtain ⟨links,_,nodup⟩ := queue
  obtain ⟨r,links,_⟩ := links_append.mp links
  obtain ⟨rfl,_⟩ := links_snoc links
  rw [List.head?_append,head] at start
  have notCur : ∀ e ∈ before ++ [prev], e ≠ cur := by grind
  have nodup' : (before ++ [prev]).Nodup := by grind
  have last : (split m a_list left right prev first cur).tqh_last left = .next prev := by
    simp [split,apart]
  generalize whole : before ++ [prev] = l at *
  cases l with
  | nil => simp at whole
  | cons e rest =>
    obtain rfl : e = first := by simpa using head
    obtain ⟨_,_,later⟩ := links
    refine ⟨⟨?_,?_,?_⟩,?_,nodup'⟩
    · simp [split,Memory.read,apart,start]
    · have := notCur e List.mem_cons_self
      simp [split,this]
    · rw [last]
      refine later.congr ?_ ?_ ?_ (List.nodup_cons.mp nodup').2
      · intro more
        have apart' : e ≠ prev := by
          rintro rfl
          cases before with
          | nil =>
            simp only [List.nil_append,List.cons.injEq,true_and] at whole
            exact more whole.symm
          | cons b before =>
            simp only [List.cons_append,List.cons.injEq] at whole
            exact (List.nodup_cons.mp nodup').1 (by simp [← whole.2])
        simp [split,Memory.read,apart']
      · intro x member notLast
        have apart' : x ≠ prev := fun same => notLast (congrArg Place.next same)
        simp [split,apart']
      · intro x member
        have := notCur x (List.mem_cons_of_mem e member)
        have notFirst : x ≠ e := by grind
        simp [split,this,notFirst]
    · rw [last]
      simp [split,Memory.read]

theorem split_right (queue : Queue m a_list ((before ++ [prev]) ++ cur :: behind))
    (head : (before ++ [prev]).head? = some first) (notLeft : left ≠ a_list) :
    Queue (split m a_list left right prev first cur) right (cur :: behind) := by
  obtain ⟨links,end_,nodup⟩ := queue
  obtain ⟨r,_,here,_,links⟩ := links_append.mp links
  have firstMember : first ∈ before ++ [prev] := List.mem_of_mem_head? (by rw [head]; rfl)
  have notFirst : ∀ e ∈ cur :: behind, e ≠ first := by grind
  have notPrev : ∀ e ∈ cur :: behind, e ≠ prev := by grind
  have nodup' : (cur :: behind).Nodup := by grind
  have last : (split m a_list left right prev first cur).tqh_last right = m.tqh_last a_list := by
    simp [split,notLeft.symm]
  refine ⟨⟨?_,?_,?_⟩,?_,nodup'⟩
  · simp [split,Memory.read]
  · simp [split]
  · rw [last]
    refine links.congr ?_ ?_ ?_ (List.nodup_cons.mp nodup').2
    · intro _
      have := notPrev cur List.mem_cons_self
      simp [split,Memory.read,this]
    · intro x member _
      have := notPrev x (List.mem_cons_of_mem cur member)
      simp [split,this]
    · intro x member
      have := notFirst x (List.mem_cons_of_mem cur member)
      have notCur : x ≠ cur := by grind
      simp [split,this,notCur]
  · rw [last]
    have place : ∃ e ∈ cur :: behind, m.tqh_last a_list = .next e := by
      rcases links_last links with same | ⟨e,member,same⟩
      · exact ⟨cur,List.mem_cons_self,same⟩
      · exact ⟨e,List.mem_cons_of_mem cur member,same⟩
    obtain ⟨e,member,place⟩ := place
    rw [place] at end_ ⊢
    have := notPrev e member
    simpa [split,Memory.read,this] using end_

theorem split_untouched {other : Nat} {rest : List N} (notLeft : other ≠ left) (notRight : other ≠ right)
    (head : (before ++ [prev]).head? = some first) (outside : ∀ e ∈ rest, e ∉ (before ++ [prev]) ++ cur :: behind) :
    Untouched m (split m a_list left right prev first cur) other rest := by
  have firstMember : first ∈ before ++ [prev] := List.mem_of_mem_head? (by rw [head]; rfl)
  refine ⟨?_,?_,?_,?_⟩
  · simp [split,notLeft,notRight]
  · simp [split,notLeft,notRight]
  · intro e member
    have apart : e ≠ prev := by grind
    simp [split,apart]
  · intro e member
    have notFirst : e ≠ first := by grind
    have notCur : e ≠ cur := by grind
    simp [split,notFirst,notCur]

end

/-! ### The sort -/

/-- Two new heads on the stack have the halves of a queue. -/
theorem halved_queue {stack : Nat} (below : a_list < stack) (queue : Queue m a_list l) (long : 1 < l.length) :
    ∃ m₁ prev cur first,m₁ = tailq_init (tailq_init m stack) (stack + 1) ∧
      find_middle m₁ (l.length / 2) (m₁.tqh_first a_list) none = (some cur,some prev) ∧ m₁.tqh_first a_list = some first ∧
      Queue (split m₁ a_list stack (stack + 1) prev first cur) stack (l.take (l.length / 2)) ∧
      Queue (split m₁ a_list stack (stack + 1) prev first cur) (stack + 1) (l.drop (l.length / 2)) ∧
      ∀ other rest, other < stack → (∀ e ∈ rest, e ∉ l) →
        Untouched m (split m₁ a_list stack (stack + 1) prev first cur) other rest := by
  have inside : l.length / 2 < l.length := by omega
  obtain ⟨before,prev,cur,behind,first,front,back,prevIs,curIs,head,headIs⟩ :=
    middle_parts (show 0 < l.length / 2 by omega) inside
  have whole : l = (before ++ [prev]) ++ cur :: behind := by rw [← front,← back,List.take_append_drop]
  -- The new heads leave the queue as it is.
  have fresh : ∀ other rest, other < stack →
      Untouched m (tailq_init (tailq_init m stack) (stack + 1)) other rest := by
    intro other rest lower
    exact (tailq_init_untouched (by omega)).trans (tailq_init_untouched (by omega))
  have queue1 := queue.untouched (fresh a_list l below)
  refine ⟨_,prev,cur,first,rfl,?_,queue1.head?.trans headIs,?_,?_,?_⟩
  · have found := find_middle_links queue1.links inside none
    rw [if_neg (by omega),curIs,prevIs] at found
    exact found
  · rw [front]
    exact split_left (whole ▸ queue1) head (show stack ≠ stack + 1 by omega)
  · rw [back]
    exact split_right (whole ▸ queue1) head (by omega)
  · intro other rest lower outside
    have there : ∀ e ∈ rest, e ∉ (before ++ [prev]) ++ cur :: behind := by rwa [← whole]
    exact (fresh other rest lower).trans (split_untouched (by omega) (by omega) head there)

/-- Two queues are merged into an emptied one: the loop comes to the end of one of them, and what is left of
    both follows. -/
theorem merged_queue (cmp : N → N → Int) (notLeft : left ≠ a_list) (notRight : right ≠ a_list) (apart : left ≠ right)
    {ls rs : List N} (first : Queue m left ls) (second : Queue m right rs) (nodup : (ls ++ rs).Nodup) {k : Nat}
    (size : ls.length + rs.length = k) :
    ∃ m₁ m₂ m₃,merge_loop cmp a_list left right (k + 1) (tailq_init m a_list) = .ok m₁ ∧
      drain a_list left (k + 1) m₁ = .ok m₂ ∧ drain a_list right (k + 1) m₂ = .ok m₃ ∧
      Queue m₃ a_list (tailq_merge cmp k ls rs) ∧
      ∀ other rest, other ≠ left → other ≠ right → other ≠ a_list → (∀ e ∈ rest, e ∉ ls ++ rs) →
        Untouched m m₃ other rest := by
  have new : ∀ other rest, other ≠ a_list → Untouched m (tailq_init m a_list) other rest :=
    fun _ _ away => tailq_init_untouched away
  obtain ⟨m₁,placed,ls',rs',run₁,left₁,right₁,placed₁,merged,frame₁⟩ := merge_loop_queue cmp notLeft notRight apart
    (first.untouched (new left ls notLeft)) (second.untouched (new right rs notRight)) (tailq_init_queue m a_list)
    nodup (Nat.le_of_eq size)
  rw [List.nil_append] at merged
  have perm := @tailq_merge_perm _ cmp k ls rs
  rw [← merged] at perm
  have nodup' := perm.nodup_iff.mpr nodup
  have members : ∀ e, e ∈ placed ++ ls' ++ rs' ↔ e ∈ ls ++ rs := fun e => perm.mem_iff
  have length := perm.length_eq
  simp only [List.length_append] at length
  obtain ⟨m₂,run₂,placed₂,frame₂⟩ := drain_queue (k := k) notLeft left₁ placed₁ (by grind) (by omega)
  have right₂ := right₁.untouched (frame₂ right rs' (Ne.symm apart) notRight (by grind))
  obtain ⟨m₃,run₃,placed₃,frame₃⟩ := drain_queue (k := k) notRight right₂ placed₂ nodup' (by omega)
  rw [merged] at placed₃
  refine ⟨m₁,m₂,m₃,run₁,run₂,run₃,placed₃,?_⟩
  intro other rest offLeft offRight away outside
  have step₁ := frame₁ other rest offLeft offRight away outside
  have step₂ := frame₂ other rest offLeft away (by grind)
  have step₃ := frame₃ other rest offRight away (by grind)
  exact (((new other rest away).trans step₁).trans step₂).trans step₃

/-- The sort leaves a queue in the order of the sort on lists, and all else alone
    but for the heads on its stack. -/
theorem sort_queue (cmp : N → N → Int) : ∀ {depth : Nat} {m : Memory N} {stack a_list : Nat} {l : List N},
    a_list < stack → Queue m a_list l → l.length < depth →
    ∃ m', sort cmp depth m stack a_list l.length = .ok m' ∧
      Queue m' a_list (tailq_sort_to cmp depth l l.length) ∧
      ∀ other rest, other < stack → other ≠ a_list → (∀ e ∈ rest, e ∉ l) → Untouched m m' other rest := by
  intro depth
  induction depth with
  | zero => intro m stack a_list l _ _ enough; omega
  | succ depth ih =>
    intro m stack a_list l below queue enough
    by_cases short : 1 ≥ l.length
    · rw [sort,if_pos short,tailq_sort_to,if_pos short]
      exact ⟨m,rfl,queue,fun _ _ _ _ _ => .refl⟩
    obtain ⟨m₁,prev,cur,first,m₁Is,found,start,left₁,right₁,frame₁⟩ := halved_queue below queue (by omega)
    have whole := List.take_append_drop (l.length / 2) l
    have sizes : (l.take (l.length / 2)).length = l.length / 2 ∧ (l.drop (l.length / 2)).length = l.length - l.length / 2 := by
      rw [List.length_take,List.length_drop]
      omega
    have nodup := queue.nodup
    rw [← whole] at nodup
    -- The halves are sorted one after the other.
    obtain ⟨m₂,run₂,left₂,frame₂⟩ := ih (show stack < stack + 2 by omega) left₁ (by omega)
    have right₂ := right₁.untouched (frame₂ (stack + 1) _ (by omega) (by omega) (by grind))
    obtain ⟨m₃,run₃,right₃,frame₃⟩ := ih (show stack + 1 < stack + 2 by omega) right₂ (by omega)
    have leftPerm := @tailq_sort_to_perm _ cmp depth (l.take (l.length / 2)) (l.take (l.length / 2)).length
    have rightPerm := @tailq_sort_to_perm _ cmp depth (l.drop (l.length / 2)) (l.drop (l.length / 2)).length
    have result : tailq_sort_to cmp (depth + 1) l l.length = tailq_merge cmp l.length
        (tailq_sort_to cmp depth (l.take (l.length / 2)) (l.take (l.length / 2)).length)
        (tailq_sort_to cmp depth (l.drop (l.length / 2)) (l.drop (l.length / 2)).length) := by
      rw [tailq_sort_to,if_neg short,sizes.1,sizes.2]
    generalize tailq_sort_to cmp depth (l.take (l.length / 2)) (l.take (l.length / 2)).length = ls at left₂ leftPerm result
    generalize tailq_sort_to cmp depth (l.drop (l.length / 2)) (l.drop (l.length / 2)).length = rs at right₃ rightPerm result
    have perm : (ls ++ rs).Perm l := by
      have both := leftPerm.append rightPerm
      rwa [whole] at both
    have nodup' := perm.nodup_iff.mpr queue.nodup
    have left₃ := left₂.untouched (frame₃ stack ls (by omega) (by omega) (by
      intro e member there
      exact List.disjoint_of_nodup_append nodup' member (rightPerm.mem_iff.mpr there)))
    -- They are merged into the head of the whole queue.
    obtain ⟨m₄,m₅,m₆,run₄,run₅,run₆,placed,frame₄⟩ := merged_queue cmp (show stack ≠ a_list by omega)
      (show stack + 1 ≠ a_list by omega) (by omega) left₃ right₃ nodup' ((List.length_append).symm.trans perm.length_eq)
    rw [← result] at placed
    refine ⟨m₆,?_,placed,?_⟩
    · rw [sizes.1] at run₂
      rw [sizes.2] at run₃
      rw [sort,if_neg short]
      rw [start] at found
      simp only [← m₁Is,start,found,run₂,run₃,run₄,run₅,run₆,bind,Except.bind]
    · intro other rest lower notHead outside
      have front : ∀ e ∈ rest, e ∉ l.take (l.length / 2) := fun e there taken => outside e there (List.mem_of_mem_take taken)
      have back : ∀ e ∈ rest, e ∉ l.drop (l.length / 2) := fun e there left => outside e there (List.mem_of_mem_drop left)
      have members : ∀ e ∈ rest, e ∉ ls ++ rs := fun e there sorted => outside e there (perm.mem_iff.mp sorted)
      have step₁ := frame₁ other rest lower outside
      have step₂ := frame₂ other rest (by omega) (by omega) front
      have step₃ := frame₃ other rest (by omega) (by omega) back
      have step₄ := frame₄ other rest (by omega) (by omega) notHead members
      exact ((step₁.trans step₂).trans step₃).trans step₄

/-- The sort of a queue by a total preorder is a queue of the same nodes, sorted,
    with equal nodes in the order that they had, and it is traversed in both
    directions. -/
theorem sort_links (cmp : N → N → Int) (comparison : Comparison cmp) (m : Memory N) (stack a_list : Nat)
    (below : a_list < stack) (l : List N) (queue : Queue m a_list l) :
    ∃ m' l', sort cmp (l.length + 1) m stack a_list l.length = .ok m' ∧ l'.Perm l ∧
      (l'.Pairwise fun a b => cmp a b ≤ 0) ∧ (l'.Pairwise fun a b => cmp a b = 0 → Before l a b) ∧
      Queue m' a_list l' ∧ tailq_foreach m' l'.length a_list = some l' ∧
      tailq_foreach_reverse m' l'.length a_list = some l'.reverse := by
  obtain ⟨m',run,queue',_⟩ := sort_queue cmp below queue (Nat.lt_succ_self l.length)
  have perm := @tailq_sort_to_perm _ cmp (l.length + 1) l l.length
  have stable := tailq_sort_to_stable comparison (l.length + 1) l l.length rfl (Nat.le_succ _) (pairwise_before l)
  refine ⟨m',_,run,perm,stable.imp Stably.le,stable.imp ?_,queue',queue'.foreach,queue'.foreach_reverse⟩
  intro a b stably equal
  rcases stably with less | ⟨_,before⟩
  · exact absurd equal (ne_of_lt less)
  · exact before

end

/-- Numbers in ascending order. -/
def ascending (a b : Nat) : Int := a - b

/-- The queue of 5, 3 and 4. -/
def three_nodes : Memory Nat :=
  tailq_insert_tail (tailq_insert_tail (tailq_insert_tail (tailq_init ⟨fun _ => none,.first,fun _ => none,.next⟩ 0) 0 5) 0 3) 0 4

theorem sort_links_three : (Comparison ascending ∧ 0 < 1 ∧ Queue three_nodes 0 [5,3,4]) ∧
    ∃ m' l', sort ascending 4 three_nodes 1 0 3 = .ok m' ∧ l'.Perm [5,3,4] ∧
      (l'.Pairwise fun a b => ascending a b ≤ 0) ∧ (l'.Pairwise fun a b => ascending a b = 0 → Before [5,3,4] a b) ∧
      Queue m' 0 l' ∧ tailq_foreach m' l'.length 0 = some l' ∧ tailq_foreach_reverse m' l'.length 0 = some l'.reverse := by
  have comparison : Comparison ascending := by
    refine ⟨?_,?_⟩
    · intro a b c first second
      simp only [ascending] at *
      omega
    · intro a b
      simp only [ascending]
      omega
  have queue : Queue three_nodes 0 [5,3,4] := by
    refine tailq_insert_tail_queue (l := [5,3]) (tailq_insert_tail_queue (l := [5]) (tailq_insert_tail_queue (l := []) ?_ ?_) ?_) ?_
    · exact tailq_init_queue _ 0
    · decide
    · decide
    · decide
  exact ⟨⟨comparison,by decide,queue⟩,sort_links ascending comparison three_nodes 1 0 (by decide) [5,3,4] queue⟩

end Htools.SortLinks
