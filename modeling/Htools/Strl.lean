import Htools.Strings

/-!
`strlcpy` and `strlcat` (`hutils/src/strlcpy.c`, `hutils/src/strlcat.c`). The memory of
a destination is a list of characters, and so is that of a source from its string on;
places in them are counted from the pointers that are passed. Copying and appending
builds up the beginning of the whole text, as much as has room before the terminator,
and the returned lengths tell whether that is all of it (`strl_builds`).
-/
namespace Htools.Strl
open Strings (char_at text text_eq)
open CString (lit)

/-! ### The functions -/

def put (mem : List Int8) (p : Nat) (c : Int8) : Except Stop (List Int8) :=
  if p < mem.length then .ok (mem.set p c) else .error .fault

/-- `while (*src++)`, on the memory from a place on. -/
def skip : List Int8 → (src : Nat) → Except Stop Nat
  | [],_ => .error .fault
  | c :: mem,src => if c ≠ 0 then skip mem (src + 1) else .ok (src + 1)

def strlen (src : List Int8) : Except Stop Nat := do
  let p ← skip src 0
  .ok (p - 1)

/-- The loop of `strlcpy` that copies, with the places and `nleft` at its end. -/
def strlcpy_loop (src : List Int8) : (nleft : Nat) → (mem : List Int8) → (dst p : Nat) → Except Stop (List Int8 × Nat × Nat × Nat)
  | 0,mem,dst,p => .ok (mem,dst,p,0)
  | nleft + 1,mem,dst,p =>
    if nleft = 0 then .ok (mem,dst,p,nleft)
    else do
      let c ← char_at src p
      let mem ← put mem dst c
      if c = 0 then .ok (mem,dst + 1,p + 1,nleft) else strlcpy_loop src nleft mem (dst + 1) (p + 1)

def strlcpy (mem src : List Int8) (dsize : Nat) : Except Stop (List Int8 × Nat) := do
  let (mem,dst,p,nleft) ← if dsize ≠ 0 then strlcpy_loop src dsize mem 0 0 else .ok (mem,0,0,dsize)
  if nleft = 0 then
    let mem ← if dsize ≠ 0 then put mem dst 0 else .ok mem
    let p ← skip (src.drop p) p
    .ok (mem,p - 1)
  else .ok (mem,p - 1)

/-- The loop of `strlcat` for the end of the destination. -/
def find_end (mem : List Int8) : (n dst : Nat) → Except Stop Nat
  | 0,dst => .ok dst
  | n + 1,dst => do
    let c ← char_at mem dst
    if c ≠ 0 then find_end mem n (dst + 1) else .ok dst

/-- The loop of `strlcat` that appends, on the source from a place on. -/
def strlcat_loop : List Int8 → (n : Nat) → (mem : List Int8) → (dst p : Nat) → Except Stop (List Int8 × Nat × Nat)
  | [],_,_,_,_ => .error .fault
  | c :: src,n,mem,dst,p =>
    if c ≠ 0 then
      if n ≠ 0 then do
        let mem ← put mem dst c
        strlcat_loop src (n - 1) mem (dst + 1) (p + 1)
      else strlcat_loop src n mem dst (p + 1)
    else .ok (mem,dst,p)

def strlcat (mem src : List Int8) (dsize : Nat) : Except Stop (List Int8 × Nat) := do
  let dlen ← find_end mem dsize 0
  let n := dsize - dlen
  if n = 0 then
    let len ← strlen src
    .ok (mem,dlen + len)
  else
    let (mem,dst,p) ← strlcat_loop src (n - 1) mem dlen 0
    let mem ← put mem dst 0
    .ok (mem,dlen + p)

/-- `strlcpy` of the first source and `strlcat` of the others, with what the calls return. -/
def append_all (dsize : Nat) : (mem : List Int8) → (srcs : List (List Int8)) → Except Stop (List Int8 × List Nat)
  | mem,[] => .ok (mem,[])
  | mem,src :: srcs => do
    let (mem,ret) ← strlcat mem src dsize
    let (mem,rets) ← append_all dsize mem srcs
    .ok (mem,ret :: rets)

def build (dsize : Nat) (mem src : List Int8) (srcs : List (List Int8)) : Except Stop (List Int8 × List Nat) := do
  let (mem,ret) ← strlcpy mem src dsize
  let (mem,rets) ← append_all dsize mem srcs
  .ok (mem,ret :: rets)

/-! ### What they leave -/

section
variable {done old str more before mem rest : List Int8} {c e : Int8} {n p dsize : Nat}

theorem put_eq : put (done ++ c :: more) done.length e = .ok (done ++ e :: more) := by
  rw [put,if_pos (by simp),List.set_append_right _ _ (Nat.le_refl _),Nat.sub_self,List.set_cons_zero]

theorem skip_eq (string : ∀ c ∈ str,c ≠ 0) : skip (str ++ 0 :: more) p = .ok (p + str.length + 1) := by
  induction str generalizing p with
  | nil => rfl
  | cons c str ih =>
    obtain ⟨here,string⟩ := List.forall_mem_cons.mp string
    rw [List.cons_append,skip,if_pos here,ih string,List.length_cons]
    congr 1
    omega

theorem strlen_eq (string : ∀ c ∈ str,c ≠ 0) : strlen (str ++ 0 :: more) = .ok str.length := by
  rw [strlen,skip_eq string,ok_bind]
  congr 1
  omega

/-- The string has room in front of the last character. -/
theorem strlcpy_loop_fits (string : ∀ c ∈ str,c ≠ 0) (fits : str.length < n) (roomy : str.length < old.length) :
    strlcpy_loop (before ++ (str ++ 0 :: more)) (n + 1) (done ++ old) done.length before.length =
      .ok (done ++ (str ++ 0 :: old.drop (str.length + 1)),done.length + str.length + 1,before.length + str.length + 1,n - str.length) := by
  induction str generalizing done before old n with
  | nil =>
    obtain ⟨c,old,rfl⟩ := List.exists_cons_of_length_pos roomy
    have left : n ≠ 0 := Nat.ne_of_gt fits
    rw [strlcpy_loop,if_neg left,List.nil_append,Strings.char_at_eq,ok_bind,put_eq,ok_bind,if_pos rfl]
    rfl
  | cons c str ih =>
    obtain ⟨here,string⟩ := List.forall_mem_cons.mp string
    obtain ⟨d,old,rfl⟩ := List.exists_cons_of_length_pos (Nat.zero_lt_of_lt roomy)
    cases n with
    | zero => cases fits
    | succ n =>
      rw [strlcpy_loop,if_neg (Nat.succ_ne_zero n),List.cons_append,Strings.char_at_eq,ok_bind,put_eq,ok_bind,if_neg here]
      have later := @ih (done ++ [c]) old (before ++ [c]) n string (Nat.lt_of_succ_lt_succ fits) (Nat.lt_of_succ_lt_succ roomy)
      simp only [List.append_assoc,List.singleton_append,List.length_append,List.length_singleton] at later
      rw [later]
      simp only [List.length_cons,List.cons_append,List.drop_succ_cons]
      congr 4 <;> omega

/-- It does not. -/
theorem strlcpy_loop_cut (string : ∀ c ∈ str,c ≠ 0) (cut : n ≤ str.length) (roomy : n ≤ old.length) :
    strlcpy_loop (before ++ (str ++ 0 :: more)) (n + 1) (done ++ old) done.length before.length =
      .ok (done ++ (str.take n ++ old.drop n),done.length + n,before.length + n,0) := by
  induction n generalizing done before old str with
  | zero => simp [strlcpy_loop]
  | succ n ih =>
    obtain ⟨c,str,rfl⟩ := List.exists_cons_of_length_pos (Nat.zero_lt_of_lt cut)
    obtain ⟨d,old,rfl⟩ := List.exists_cons_of_length_pos (Nat.zero_lt_of_lt roomy)
    obtain ⟨here,string⟩ := List.forall_mem_cons.mp string
    rw [strlcpy_loop,if_neg (Nat.succ_ne_zero n),List.cons_append,Strings.char_at_eq,ok_bind,put_eq,ok_bind,if_neg here]
    have later := @ih (done ++ [c]) old str (before ++ [c]) string (Nat.le_of_succ_le_succ cut) (Nat.le_of_succ_le_succ roomy)
    simp only [List.append_assoc,List.singleton_append,List.length_append,List.length_singleton] at later
    rw [later]
    simp only [List.take_succ_cons,List.drop_succ_cons,List.cons_append,Nat.add_assoc,Nat.add_comm 1 n]

/-- A destination holds the beginning of a text that has room in front of its
    terminator, and behind the size it is as before. -/
structure Holds (dsize : Nat) (mem whole mem' : List Int8) : Prop where
  there : ∃ tail,mem' = whole.take (dsize - 1) ++ 0 :: tail
  length : mem'.length = mem.length
  beyond : mem'.drop dsize = mem.drop dsize

theorem drop_past {front back : List Int8} (within : front.length ≤ n) :
    (front ++ c :: back).drop (n + 1) = back.drop (n - front.length) := by
  rw [List.drop_append,List.drop_of_length_le (Nat.le_succ_of_le within),List.nil_append,Nat.succ_sub within,List.drop_succ_cons]

theorem strlcpy_eq (string : ∀ c ∈ str,c ≠ 0) (roomy : n < mem.length) :
    ∃ mem',strlcpy mem (str ++ 0 :: more) (n + 1) = .ok (mem',str.length) ∧ Holds (n + 1) mem str mem' := by
  have size : n + 1 ≠ 0 := Nat.succ_ne_zero n
  obtain fits | cut := Nat.lt_or_ge str.length n
  · refine ⟨str ++ 0 :: mem.drop (str.length + 1),?_,⟨mem.drop (str.length + 1),?_⟩,?_,?_⟩
    · have loop := @strlcpy_loop_fits [] mem str more [] n string fits (Nat.lt_trans fits roomy)
      simp only [List.nil_append,List.length_nil,Nat.zero_add] at loop
      have left : n - str.length ≠ 0 := by omega
      rw [strlcpy,if_pos size,loop,ok_bind]
      exact if_neg left
    · rw [Nat.add_sub_cancel,List.take_of_length_le (Nat.le_of_lt fits)]
    · simp only [List.length_append,List.length_cons,List.length_drop]
      omega
    · rw [drop_past (Nat.le_of_lt fits),List.drop_drop]
      congr 1
      omega
  · obtain ⟨c,rest,behind⟩ := List.exists_cons_of_length_pos (show 0 < (mem.drop n).length by rw [List.length_drop]; omega)
    have taken : (str.take n).length = n := List.length_take_of_le cut
    refine ⟨str.take n ++ 0 :: rest,?_,⟨rest,rfl⟩,?_,?_⟩
    · have loop := @strlcpy_loop_cut [] mem str more [] n string cut (Nat.le_of_lt roomy)
      have ended := @put_eq (str.take n) rest c 0
      have skipped : skip (str.drop n ++ 0 :: more) n = .ok (str.length + 1) := by
        rw [skip_eq fun c member => string c (List.mem_of_mem_drop member),List.length_drop]
        congr 1
        omega
      rw [taken] at ended
      simp only [List.nil_append,List.length_nil,Nat.zero_add,behind] at loop
      simp only [strlcpy,if_pos size,loop,ok_bind,if_true,ended,List.drop_append_of_le_length cut,skipped,Nat.add_sub_cancel]
    · have count := congrArg List.length behind
      rw [List.length_drop,List.length_cons] at count
      rw [List.length_append,List.length_cons,taken]
      omega
    · rw [drop_past (Nat.le_of_eq taken),taken,Nat.sub_self,← List.drop_drop,behind]
      rfl

theorem find_end_eq (string : ∀ c ∈ str,c ≠ 0) (fits : str.length < n) :
    find_end (done ++ (str ++ 0 :: more)) n done.length = .ok (done.length + str.length) := by
  induction str generalizing done n with
  | nil =>
    obtain ⟨n,rfl⟩ := Nat.exists_eq_succ_of_ne_zero (Nat.ne_of_gt fits)
    rw [find_end,List.nil_append,Strings.char_at_eq,ok_bind]
    rfl
  | cons c str ih =>
    obtain ⟨here,string⟩ := List.forall_mem_cons.mp string
    obtain ⟨n,rfl⟩ := Nat.exists_eq_succ_of_ne_zero (Nat.ne_of_gt (Nat.zero_lt_of_lt fits))
    rw [find_end,List.cons_append,Strings.char_at_eq,ok_bind,if_pos here]
    have later := @ih (done ++ [c]) n string (Nat.lt_of_succ_lt_succ fits)
    simp only [List.append_assoc,List.singleton_append,List.length_append,List.length_singleton] at later
    rw [later,List.length_cons]
    congr 1
    omega

theorem strlcat_loop_eq (string : ∀ c ∈ str,c ≠ 0) (roomy : n ≤ old.length) :
    strlcat_loop (str ++ 0 :: more) n (done ++ old) done.length p =
      .ok (done ++ (str.take n ++ old.drop (str.take n).length),done.length + (str.take n).length,p + str.length) := by
  induction str generalizing done old n p with
  | nil => simp [strlcat_loop]
  | cons c str ih =>
    obtain ⟨here,string⟩ := List.forall_mem_cons.mp string
    cases n with
    | zero =>
      have later := @ih done old 0 (p + 1) string roomy
      rw [List.take_zero] at later
      rw [List.cons_append,strlcat_loop,if_pos here,if_neg (by decide),later,List.take_zero,List.length_cons]
      congr 3
      omega
    | succ n =>
      obtain ⟨d,old,rfl⟩ := List.exists_cons_of_length_pos (Nat.zero_lt_of_lt roomy)
      have later := @ih (done ++ [c]) old n (p + 1) string (Nat.le_of_succ_le_succ roomy)
      simp only [List.append_assoc,List.singleton_append,List.length_append,List.length_singleton] at later
      rw [List.cons_append,strlcat_loop,if_pos here,if_pos (Nat.succ_ne_zero n),put_eq,ok_bind,Nat.add_sub_cancel,later]
      simp only [List.take_succ_cons,List.length_cons,List.drop_succ_cons,List.cons_append]
      congr 3 <;> omega

/-- The whole text counts with what the destination holds of it. -/
theorem strlcat_eq {whole : List Int8} (stringW : ∀ c ∈ whole,c ≠ 0) (string : ∀ c ∈ str,c ≠ 0) (roomy : n < mem.length)
    (holds : Holds (n + 1) mem whole old) :
    ∃ mem',strlcat old (str ++ 0 :: more) (n + 1) = .ok (mem',(whole.take n).length + str.length) ∧
      Holds (n + 1) mem (whole ++ str) mem' := by
  obtain ⟨⟨tail,rfl⟩,length,beyond⟩ := holds
  rw [Nat.add_sub_cancel] at length beyond ⊢
  have short : (whole.take n).length = min n whole.length := List.length_take
  have left : (whole ++ str).take n = whole.take n ++ str.take (n - (whole.take n).length) := by
    rw [List.take_append,short]
    congr 2
    omega
  have stringT : ∀ c ∈ whole.take n,c ≠ 0 := fun c member => stringW c (List.mem_of_mem_take member)
  generalize whole.take n = cur at *
  rw [List.length_append,List.length_cons] at length
  have ended := @find_end_eq [] cur tail (n + 1) stringT (by omega)
  have loop := @strlcat_loop_eq cur (0 :: tail) str more (n - cur.length) 0 string (by rw [List.length_cons]; omega)
  have few : (str.take (n - cur.length)).length ≤ n - cur.length := List.length_take_le _ _
  generalize str.take (n - cur.length) = part at *
  obtain ⟨d,rest,behind⟩ := List.exists_cons_of_length_pos
    (show 0 < ((0 :: tail).drop part.length).length by rw [List.length_drop,List.length_cons]; omega)
  have rest_eq : rest = tail.drop part.length := by
    rw [← @List.drop_succ_cons _ 0,← List.drop_drop,behind]
    rfl
  refine ⟨cur ++ part ++ 0 :: rest,?_,⟨rest,?_⟩,?_,?_⟩
  · have there : find_end (cur ++ 0 :: tail) (n + 1) 0 = .ok cur.length := by simpa using ended
    have room : ¬ n + 1 - cur.length = 0 := by omega
    have one : n + 1 - cur.length - 1 = n - cur.length := by omega
    have last := @put_eq (cur ++ part) rest d 0
    rw [List.append_assoc,List.length_append] at last
    rw [strlcat,there,ok_bind]
    simp only [if_neg room,one,loop,ok_bind,behind,last,Nat.zero_add]
  · rw [Nat.add_sub_cancel,left]
  · rw [rest_eq]
    simp only [List.length_append,List.length_cons,List.length_drop]
    omega
  · have both : (cur ++ part).length ≤ n := by
      rw [List.length_append]
      omega
    rw [← beyond,drop_past both,drop_past (Nat.le_of_add_right_le (List.length_append ▸ both)),rest_eq,List.drop_drop,List.length_append]
    congr 1
    omega

/-- Without a terminator within the size there is nothing to append to. -/
theorem find_end_unended (string : ∀ c ∈ str,c ≠ 0) : find_end (done ++ (str ++ more)) str.length done.length = .ok (done.length + str.length) := by
  induction str generalizing done with
  | nil => rfl
  | cons c str ih =>
    obtain ⟨here,string⟩ := List.forall_mem_cons.mp string
    have later := @ih (done ++ [c]) string
    simp only [List.append_assoc,List.singleton_append,List.length_append,List.length_singleton] at later
    rw [List.length_cons,find_end,List.cons_append,Strings.char_at_eq,ok_bind,if_pos here,later]
    congr 1
    omega

theorem strlcat_unended (full : ∀ c ∈ old,c ≠ 0) (string : ∀ c ∈ str,c ≠ 0) :
    strlcat (old ++ rest) (str ++ 0 :: more) old.length = .ok (old ++ rest,old.length + str.length) := by
  have ended := @find_end_unended [] old rest full
  simp only [List.nil_append,List.length_nil,Nat.zero_add] at ended
  rw [strlcat,ended,ok_bind]
  simp only [Nat.sub_self,if_true,strlen_eq string,ok_bind]

/-! ### The text they build -/

/-- The memory of a string, with what is behind it. -/
def source (t : List Int8 × List Int8) : List Int8 := t.1 ++ 0 :: t.2

def whole (texts : List (List Int8 × List Int8)) : List Int8 := (texts.map Prod.fst).flatten

/-- By induction on the sources, with what was copied before. -/
theorem append_all_eq (texts : List (List Int8 × List Int8)) (strings : ∀ t ∈ texts,∀ c ∈ t.1,c ≠ 0) {before old : List Int8}
    (string : ∀ c ∈ before,c ≠ 0) (roomy : n < mem.length) (holds : Holds (n + 1) mem before old) :
    ∃ mem' rets,append_all (n + 1) old (texts.map source) = .ok (mem',rets) ∧ Holds (n + 1) mem (before ++ whole texts) mem' ∧
      (before.length ≤ n → ((∀ ret ∈ rets,ret ≤ n) ↔ (before ++ whole texts).length ≤ n)) := by
  induction texts generalizing before old with
  | nil =>
    refine ⟨old,[],rfl,?_,?_⟩
    · simpa [whole] using holds
    · simp [whole]
  | cons t texts ih =>
    obtain ⟨here,strings⟩ := List.forall_mem_cons.mp strings
    obtain ⟨mid,call,held⟩ := @strlcat_eq old t.1 t.2 mem n before string here roomy holds
    have stringB : ∀ c ∈ before ++ t.1,c ≠ 0 := List.forall_mem_append.mpr ⟨string,here⟩
    obtain ⟨mem',rets,calls,last,fits⟩ := ih strings stringB held
    have split : before ++ whole (t :: texts) = before ++ t.1 ++ whole texts := by simp [whole]
    refine ⟨mem',((before.take n).length + t.1.length) :: rets,?_,?_,?_⟩
    · rw [List.map_cons,append_all,source,call,ok_bind]
      simp only [calls,ok_bind]
    · rwa [split]
    · intro short
      rw [split,List.take_of_length_le short,List.forall_mem_cons,← List.length_append]
      constructor
      · rintro ⟨one,all⟩
        exact (fits one).mp all
      · intro all
        have one : (before ++ t.1).length ≤ n := by
          rw [List.length_append] at all
          omega
        exact ⟨one,(fits one).mpr all⟩

end

/-- A text copied and appended from parts is what has room in front of the
    terminator; it is all of it exactly if each call returns less than the size. -/
theorem strl_builds (dsize : Nat) (mem : List Int8) (first : List Int8 × List Int8) (others : List (List Int8 × List Int8))
    (sized : 0 < dsize) (roomy : dsize ≤ mem.length) (strings : ∀ t ∈ first :: others,∀ c ∈ t.1,c ≠ 0) :
    ∃ mem' rets,build dsize mem (source first) (others.map source) = .ok (mem',rets) ∧
      text mem' 0 = (whole (first :: others)).take (dsize - 1) ∧ mem'.length = mem.length ∧
      mem'.drop dsize = mem.drop dsize ∧ ((∀ ret ∈ rets,ret < dsize) ↔ (whole (first :: others)).length < dsize) := by
  obtain ⟨n,rfl⟩ := Nat.exists_eq_succ_of_ne_zero (Nat.ne_of_gt sized)
  obtain ⟨here,later⟩ := List.forall_mem_cons.mp strings
  obtain ⟨mid,call,held⟩ := @strlcpy_eq first.1 first.2 mem n here roomy
  obtain ⟨mem',rets,calls,holds,fits⟩ := append_all_eq others later here roomy held
  have joined : whole (first :: others) = first.1 ++ whole others := rfl
  obtain ⟨⟨tail,rfl⟩,length,beyond⟩ := holds
  refine ⟨_,first.1.length :: rets,?_,?_,length,beyond,?_⟩
  · rw [build,source,call,ok_bind]
    simp only [calls,ok_bind]
  · have free : ∀ c ∈ (first.1 ++ whole others).take n,c ≠ 0 := by
      intro c member
      obtain ⟨string,there,inside⟩ := List.mem_flatten.mp (List.mem_of_mem_take (joined ▸ member))
      obtain ⟨t,among,rfl⟩ := List.mem_map.mp there
      exact strings t among c inside
    exact @text_eq [] _ tail free
  · rw [joined,List.forall_mem_cons]
    constructor
    · rintro ⟨one,all⟩
      exact Nat.lt_succ_of_le ((fits (Nat.le_of_lt_succ one)).mp fun ret member => Nat.le_of_lt_succ (all ret member))
    · intro all
      have one : first.1.length < n + 1 := by
        rw [List.length_append] at all
        omega
      exact ⟨one,fun ret member => Nat.lt_succ_of_le ((fits (Nat.le_of_lt_succ one)).mpr (Nat.le_of_lt_succ all) ret member)⟩

theorem strl_builds_path : ∃ mem' rets,
    build 6 (lit "........") (lit "usr" ++ [0]) [lit "/lib" ++ [0]] = .ok (mem',rets) ∧ text mem' 0 = lit "usr/l" := by
  obtain ⟨mem',rets,call,built,_⟩ := strl_builds 6 (lit "........") (lit "usr",[]) [(lit "/lib",[])] (by decide) (by decide)
    (by decide +kernel)
  exact ⟨mem',rets,call,built.trans (by decide)⟩

end Htools.Strl
