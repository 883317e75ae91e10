import Htools.CString
import Htools.Tokens

/-!
The functions of `hutils/src/string.c` on strings. `strtkn` cuts a string into
tokens in its own memory, and its calls find the runs between the delimiters
(`strtkn_tokens`). `strbcmp` compares with the beginning of a string by plain
characters, not as `strcmp` does (`compares_iff`).
-/
namespace Htools.Strings
open Htools.CString
open Htools.Tokens (Run cut run_first run_delims run_delim run_nil)

/-! ### Tokens -/

/-- `strspn`, on the memory from a pointer on. -/
def strspn (a_accept : List Int8) : List Int8 → Except Stop Nat
  | [] => .error .fault
  | c :: mem =>
    if c ≠ 0 ∧ c ∈ a_accept then do
      let n ← strspn a_accept mem
      .ok (n + 1)
    else .ok 0

/-- `strcspn`, on the memory from a pointer on. -/
def strcspn (a_reject : List Int8) : List Int8 → Except Stop Nat
  | [] => .error .fault
  | c :: mem =>
    if c = 0 ∨ c ∈ a_reject then .ok 0
    else do
      let n ← strcspn a_reject mem
      .ok (n + 1)

def char_at (mem : List Int8) (p : Nat) : Except Stop Int8 :=
  match mem[p]? with
  | none => .error .fault
  | some c => .ok c

/-- The result has what is returned, the memory and `*a_stringp`; pointers into the
    memory are places, none for `NULL`. -/
def strtkn (mem : List Int8) (a_stringp : Option Nat) (a_delim : List Int8) :
    Except Stop (Option Nat × List Int8 × Option Nat) :=
  match a_stringp with
  | none => .ok (none,mem,none)
  | some p => do
    let ofs ← strspn a_delim (mem.drop p)
    let c ← char_at mem (p + ofs)
    if 0 = c then .ok (none,mem,none)
    else
      let ret := p + ofs
      let n ← strcspn a_delim (mem.drop ret)
      let p := ret + n
      let c ← char_at mem p
      if 0 = c then .ok (some ret,mem,none) else .ok (some ret,mem.set p 0,some (p + 1))

/-- The string at a pointer. -/
def text (mem : List Int8) (p : Nat) : List Int8 := (mem.drop p).takeWhile (· ≠ 0)

/-- Calls until one returns `NULL`, with what they return and the strings there. -/
def tokens (a_delim : List Int8) : (calls : Nat) → List Int8 → Option Nat →
    Except Stop (List (Nat × List Int8) × List Int8 × Option Nat)
  | 0,_,_ => .error .fuel
  | calls + 1,mem,stringp => do
    let (ret,mem,stringp) ← strtkn mem stringp a_delim
    match ret with
    | none => .ok ([],mem,stringp)
    | some p => do
      let (found,later) ← tokens a_delim calls mem stringp
      .ok ((p,text mem p) :: found,later)

section
variable {done skip token rest delims : List Int8} {c e : Int8}

theorem strspn_eq (all : ∀ c ∈ skip,c ≠ 0 ∧ c ∈ delims) (stop : ¬ (e ≠ 0 ∧ e ∈ delims)) :
    strspn delims (skip ++ e :: rest) = .ok skip.length := by
  induction skip with
  | nil => rw [List.nil_append,strspn,if_neg stop,List.length_nil]
  | cons c skip ih =>
    obtain ⟨here,all⟩ := List.forall_mem_cons.mp all
    rw [List.cons_append,strspn,if_pos here,ih all,ok_bind,List.length_cons]

theorem strcspn_eq (all : ∀ c ∈ token,c ≠ 0 ∧ c ∉ delims) (stop : e = 0 ∨ e ∈ delims) :
    strcspn delims (token ++ e :: rest) = .ok token.length := by
  induction token with
  | nil => rw [List.nil_append,strcspn,if_pos stop,List.length_nil]
  | cons c token ih =>
    obtain ⟨here,all⟩ := List.forall_mem_cons.mp all
    rw [List.cons_append,strcspn,if_neg (not_or.mpr here),ih all,ok_bind,List.length_cons]

theorem char_at_eq : char_at (done ++ e :: rest) done.length = .ok e := by
  rw [char_at,List.getElem?_append_right (Nat.le_refl _),Nat.sub_self]
  rfl

theorem text_eq (string : ∀ c ∈ token,c ≠ 0) : text (done ++ (token ++ 0 :: rest)) done.length = token := by
  rw [text,List.drop_left]
  rw [List.takeWhile_append_of_pos (by simpa using string),List.takeWhile_cons_of_neg (by decide),List.append_nil]

/-- Where only delimiters are left, the calls end. -/
theorem strtkn_none (all : ∀ c ∈ skip,c ≠ 0 ∧ c ∈ delims) :
    strtkn (done ++ (skip ++ 0 :: rest)) (some done.length) delims = .ok (none,done ++ (skip ++ 0 :: rest),none) := by
  have last : char_at (done ++ (skip ++ 0 :: rest)) (done.length + skip.length) = .ok 0 := by
    rw [← List.append_assoc,← List.length_append]
    exact char_at_eq
  simp only [strtkn,List.drop_left,strspn_eq all (fun stop => stop.1 rfl),ok_bind,last]
  rfl

/-- A call returns the token behind the delimiters and ends it. -/
theorem strtkn_token (all : ∀ c ∈ skip,c ≠ 0 ∧ c ∈ delims) (some_left : token ≠ [])
    (free : ∀ c ∈ token,c ≠ 0 ∧ c ∉ delims) (stop : e = 0 ∨ e ∈ delims) :
    strtkn (done ++ (skip ++ (token ++ e :: rest))) (some done.length) delims =
      .ok (some (done ++ skip).length,done ++ (skip ++ (token ++ 0 :: rest)),
        if 0 = e then none else some (done ++ skip ++ token ++ [0]).length) := by
  obtain ⟨c,more,rfl⟩ := List.exists_cons_of_ne_nil some_left
  obtain ⟨nonzero,other⟩ := free c List.mem_cons_self
  have spanned : strspn delims (skip ++ (c :: more ++ e :: rest)) = .ok skip.length :=
    strspn_eq all fun both => other both.2
  have first : char_at (done ++ (skip ++ (c :: more ++ e :: rest))) (done.length + skip.length) = .ok c := by
    rw [← List.append_assoc,← List.length_append]
    exact char_at_eq
  have behind : (done ++ (skip ++ (c :: more ++ e :: rest))).drop (done.length + skip.length) = c :: more ++ e :: rest := by
    rw [← List.append_assoc,← List.length_append,List.drop_left]
  have last : char_at (done ++ (skip ++ (c :: more ++ e :: rest))) (done.length + skip.length + (c :: more).length) = .ok e := by
    rw [← List.append_assoc,← List.append_assoc,← List.length_append,← List.length_append]
    exact char_at_eq
  have ended : (done ++ (skip ++ (c :: more ++ e :: rest))).set (done.length + skip.length + (c :: more).length) 0 =
      done ++ (skip ++ (c :: more ++ 0 :: rest)) := by
    rw [← List.append_assoc,← List.append_assoc,← List.length_append,← List.length_append,List.set_append_right _ _ (Nat.le_refl _),
      Nat.sub_self,List.set_cons_zero,List.append_assoc,List.append_assoc]
  simp only [strtkn,List.drop_left,spanned,ok_bind,first,if_neg (Ne.symm nonzero),behind,strcspn_eq free stop,last,ended]
  by_cases here : 0 = e
  · rw [if_pos here,if_pos here,← here,List.length_append]
  · rw [if_neg here,if_neg here]
    simp only [List.length_append,List.length_singleton]

theorem tokens_null (mem : List Int8) : tokens delims 1 mem none = .ok ([],mem,none) := rfl

/-- A call that returns a token, and the calls behind it. -/
theorem tokens_cons {calls p : Nat} {mem mem' later : List Int8} {stringp stringp' last : Option Nat}
    {found : List (Nat × List Int8)} (call : strtkn mem stringp delims = .ok (some p,mem',stringp'))
    (rest : tokens delims calls mem' stringp' = .ok (found,later,last)) :
    tokens delims (calls + 1) mem stringp = .ok ((p,text mem' p) :: found,later,last) := by
  rw [tokens,call,ok_bind]
  simp only [rest,ok_bind]

/-- What the calls find in the rest of a string, with the place where it begins. -/
structure Found (delims done rest : List Int8) (found : List (Nat × List Int8)) (later : List Int8) : Prop where
  run : tokens delims (found.length + 1) (done ++ (rest ++ [0])) (some done.length) = .ok (found,done ++ later,none)
  order : found.Pairwise fun a b => a.1 < b.1
  exact : ∀ i t,(i,t) ∈ found ↔ ∃ k,i = done.length + k ∧ Run (· ∈ delims) rest k t
  kept : ∀ f ∈ found,text (done ++ later) f.1 = f.2

/-- Only delimiters. -/
theorem found_none (string : ∀ c ∈ skip,c ≠ 0) (all : ∀ c ∈ skip,c ∈ delims) :
    Found delims done skip [] (skip ++ [0]) := by
  have call : strtkn (done ++ (skip ++ [0])) (some done.length) delims = .ok (none,done ++ (skip ++ [0]),none) :=
    strtkn_none fun c member => ⟨string c member,all c member⟩
  refine ⟨?_,List.Pairwise.nil,?_,by simp⟩
  · rw [List.length_nil,tokens,call]
    rfl
  · intro i t
    refine iff_of_false List.not_mem_nil ?_
    rintro ⟨k,_,run⟩
    rw [← List.append_nil skip,run_delims all] at run
    obtain ⟨_,_,none⟩ := run
    exact run_nil none

/-- A token at the end of the string. -/
theorem found_last (string : ∀ c ∈ skip ++ token,c ≠ 0) (all : ∀ c ∈ skip,c ∈ delims) (some_left : token ≠ [])
    (free : ∀ c ∈ token,c ∉ delims) :
    Found delims done (skip ++ token) [((done ++ skip).length,token)] (skip ++ (token ++ [0])) := by
  obtain ⟨stringS,stringT⟩ := List.forall_mem_append.mp string
  have call : strtkn (done ++ (skip ++ token ++ [0])) (some done.length) delims =
      .ok (some (done ++ skip).length,done ++ (skip ++ (token ++ [0])),none) := by
    rw [List.append_assoc]
    exact strtkn_token (fun c member => ⟨stringS c member,all c member⟩) some_left
      (fun c member => ⟨stringT c member,free c member⟩) (.inl rfl)
  have there : text (done ++ (skip ++ (token ++ [0]))) (done ++ skip).length = token := by
    rw [← List.append_assoc]
    exact text_eq stringT
  refine ⟨?_,List.pairwise_singleton _ _,?_,?_⟩
  · have both := tokens_cons call (tokens_null _)
    rw [there] at both
    exact both
  · intro i t
    have first : Run (· ∈ delims) (skip ++ token) = Run (· ∈ delims) (skip ++ (token ++ [])) := by rw [List.append_nil]
    simp only [first,run_first all some_left free (show Tokens.Closed (· ∈ delims) [] by simp [Tokens.Closed]),run_nil,
      and_false,exists_false,or_false,List.mem_singleton,Prod.mk.injEq,List.length_append]
    constructor
    · rintro ⟨rfl,rfl⟩
      exact ⟨_,rfl,rfl,rfl⟩
    · rintro ⟨_,rfl,rfl,rfl⟩
      exact ⟨rfl,rfl⟩
  · intro f member
    rw [List.mem_singleton.mp member]
    exact there

/-- A token with a delimiter behind it. -/
theorem found_next {tail later : List Int8} {found : List (Nat × List Int8)} (string : ∀ c ∈ skip ++ token,c ≠ 0)
    (all : ∀ c ∈ skip,c ∈ delims) (some_left : token ≠ []) (free : ∀ c ∈ token,c ∉ delims) (nonzero : 0 ≠ e)
    (ends : e ∈ delims) (next : Found delims (done ++ skip ++ token ++ [0]) tail found later) :
    Found delims done (skip ++ (token ++ e :: tail)) (((done ++ skip).length,token) :: found)
      (skip ++ (token ++ 0 :: later)) := by
  obtain ⟨stringS,stringT⟩ := List.forall_mem_append.mp string
  have cut : ∀ l,done ++ skip ++ token ++ [0] ++ l = done ++ (skip ++ (token ++ 0 :: l)) := by
    intro l
    simp only [List.append_assoc,List.singleton_append]
  have call : strtkn (done ++ (skip ++ (token ++ e :: tail) ++ [0])) (some done.length) delims =
      .ok (some (done ++ skip).length,done ++ (skip ++ (token ++ 0 :: (tail ++ [0]))),
        some (done ++ skip ++ token ++ [0]).length) := by
    have one := @strtkn_token done skip token (tail ++ [0]) delims e (fun c member => ⟨stringS c member,all c member⟩)
      some_left (fun c member => ⟨stringT c member,free c member⟩) (.inr ends)
    rw [if_neg nonzero] at one
    simpa only [List.append_assoc,List.cons_append] using one
  have there : ∀ l,text (done ++ (skip ++ (token ++ 0 :: l))) (done ++ skip).length = token := by
    intro l
    rw [← List.append_assoc]
    exact text_eq stringT
  obtain ⟨run,order,exact_,kept⟩ := next
  rw [cut,cut] at run
  rw [cut] at kept
  refine ⟨?_,?_,?_,?_⟩
  · rw [List.length_cons]
    have both := tokens_cons call run
    rw [there] at both
    exact both
  · refine List.pairwise_cons.mpr ⟨?_,order⟩
    rintro ⟨i,t⟩ member
    obtain ⟨k,rfl,_⟩ := (exact_ i t).mp member
    simp only [List.length_append,List.length_singleton]
    omega
  · intro i t
    have closed : Tokens.Closed (· ∈ delims) (e :: tail) := by simp [Tokens.Closed,ends]
    simp only [List.mem_cons,exact_,run_first all some_left free closed,run_delim ends,Prod.mk.injEq,List.length_append,
      List.length_singleton]
    constructor
    · rintro (⟨rfl,rfl⟩ | ⟨k,rfl,run⟩)
      · exact ⟨_,rfl,.inl ⟨rfl,rfl⟩⟩
      · exact ⟨_,by omega,.inr ⟨k + 1,rfl,k,rfl,run⟩⟩
    · rintro ⟨_,rfl,⟨rfl,rfl⟩ | ⟨_,rfl,k,rfl,run⟩⟩
      · exact .inl ⟨rfl,rfl⟩
      · exact .inr ⟨k,by omega,run⟩
  · rintro f member
    obtain rfl | member := List.mem_cons.mp member
    · exact there later
    · exact kept f member

/-- By induction on what is left of the string. -/
theorem found_all (delims : List Int8) : ∀ n (rest done : List Int8),rest.length ≤ n → (∀ c ∈ rest,c ≠ 0) →
    ∃ found later,Found delims done rest found later := by
  intro n
  induction n with
  | zero =>
    intro rest done short string
    obtain rfl := List.eq_nil_of_length_eq_zero (Nat.le_zero.mp short)
    exact ⟨_,_,found_none string (by simp)⟩
  | succ n ih =>
    intro rest done short string
    obtain all | ⟨skip,token,back,rfl,all,some_left,free,closed⟩ := cut (· ∈ delims) rest
    · exact ⟨_,_,found_none string all⟩
    cases back with
    | nil =>
      rw [List.append_nil] at string ⊢
      exact ⟨_,_,found_last string all some_left free⟩
    | cons e tail =>
      rw [← List.append_assoc] at string
      obtain ⟨before,after⟩ := List.forall_mem_append.mp string
      obtain ⟨nonzero,stringR⟩ := List.forall_mem_cons.mp after
      simp only [List.length_append,List.length_cons] at short
      obtain ⟨found,later,next⟩ := ih tail (done ++ skip ++ token ++ [0]) (by omega) stringR
      exact ⟨_,_,found_next before all some_left free (Ne.symm nonzero) (closed e rfl) next⟩

/-- The calls on a string return the runs of characters that are no delimiters, in
    their order and each once, then `NULL` from there on; the strings stay where
    they were returned. -/
theorem strtkn_tokens (string a_delim : List Int8) (ends : (0 : Int8) ∉ string) :
    ∃ found mem,tokens a_delim (found.length + 1) (string ++ [0]) (some 0) = .ok (found,mem,none) ∧
      found.Pairwise (fun a b => a.1 < b.1) ∧ (∀ i t,(i,t) ∈ found ↔ Run (· ∈ a_delim) string i t) ∧
      (∀ f ∈ found,text mem f.1 = f.2) ∧ strtkn mem none a_delim = .ok (none,mem,none) := by
  obtain ⟨found,later,run,order,exact_,kept⟩ := found_all a_delim string.length string [] (Nat.le_refl _)
    fun c member zero => ends (zero ▸ member)
  refine ⟨found,later,run,order,?_,kept,rfl⟩
  intro i t
  rw [exact_]
  simp

end

example : tokens (lit ",;") 3 (lit ",ab;;c" ++ [0]) (some 0) =
    .ok ([(1,lit "ab"),(5,lit "c")],lit ",ab" ++ 0 :: lit ";c" ++ [0],none) := by decide

theorem strtkn_tokens_slash : ∃ found mem,
    tokens (lit "/") (found.length + 1) (lit "/usr//lib/" ++ [0]) (some 0) = .ok (found,mem,none) ∧
      (1,lit "usr") ∈ found := by
  obtain ⟨found,mem,run,_,exact_,_⟩ := strtkn_tokens (lit "/usr//lib/") (lit "/") (by decide)
  refine ⟨found,mem,run,(exact_ _ _).mpr ⟨lit "/",lit "//lib/",?_⟩⟩
  exact ⟨by decide,by decide,by decide,by simp only [Tokens.Free]; decide +kernel,
    by decide +kernel,by simp only [Tokens.Closed]; decide +kernel⟩

/-! ### Comparisons -/

/-- Characters are compared as `char`, which is signed. -/
def strbcmp : (a_big a_pattern : List Int8) → Int
  | _,[] => 0
  | [],_ :: _ => -1
  | b :: big,p :: pattern => if b < p then -1 else if b > p then 1 else strbcmp big pattern

def strecmp (a_big a_pattern : List Int8) : Int :=
  let big_len := a_big.length
  let pattern_len := a_pattern.length
  if big_len < pattern_len then -1 else strcmp (a_big.drop (big_len - pattern_len)) a_pattern

/-- The comparisons have the signs of those of the C library, and tell beginnings and ends. -/
structure Compares (big pattern : List Int8) : Prop where
  beginning : (strbcmp big pattern).sign = (strncmp big pattern pattern.length).sign
  ending : ∀ front back,big = front ++ back → back.length = pattern.length →
    (strecmp big pattern).sign = (strcmp back pattern).sign
  begins : strbcmp big pattern = 0 ↔ pattern <+: big
  ends : strecmp big pattern = 0 ↔ pattern <:+ big

/-- Where the string first differs from the pattern, both characters are ASCII or neither is. -/
def SameHalf (big pattern : List Int8) : Prop :=
  ∀ front b p back back',big = front ++ b :: back → pattern = front ++ p :: back' → b ≠ p → (b < 0 ↔ p < 0)

section
variable {big pattern : List Int8} {b p : Int8}

theorem same_half_cons : SameHalf (b :: big) (b :: pattern) ↔ SameHalf big pattern := by
  constructor
  · rintro half front c q back back' rfl rfl
    exact half (b :: front) c q back back' rfl rfl
  · rintro half front c q back back' split split' differ
    cases front with
    | nil =>
      obtain ⟨rfl,_⟩ := List.cons.inj split
      obtain ⟨rfl,_⟩ := List.cons.inj split'
      exact absurd rfl differ
    | cons e front => exact half front c q back back' (List.cons.inj split).2 (List.cons.inj split').2 differ

theorem same_half_ne (differ : b ≠ p) : SameHalf (b :: big) (p :: pattern) ↔ (b < 0 ↔ p < 0) := by
  constructor
  · intro half
    exact half [] b p big pattern rfl rfl differ
  · rintro half front c q back back' split split' _
    cases front with
    | nil =>
      obtain ⟨rfl,_⟩ := List.cons.inj split
      obtain ⟨rfl,_⟩ := List.cons.inj split'
      exact half
    | cons e front => exact absurd ((List.cons.inj split).1.trans (List.cons.inj split').1.symm) differ

/-- The value of a character by the code that `strcmp` compares. -/
theorem toInt_code (c : Int8) : c.toInt = if c.toUInt8.toNat < 128 then (c.toUInt8.toNat : Int) else c.toUInt8.toNat - 256 := by
  have value := BitVec.toInt_eq_toNat_cond c.toBitVec
  rw [show c.toBitVec.toInt = c.toInt from rfl,show c.toBitVec.toNat = c.toUInt8.toNat from rfl] at value
  rw [value]
  split <;> split <;> omega

/-- Signed characters are ordered as their codes are within a half, and the other way across. -/
theorem lt_code (differ : b ≠ p) : (b < p ↔ b.toUInt8.toNat < p.toUInt8.toNat) ↔ (b < 0 ↔ p < 0) := by
  have codes : b.toUInt8.toNat ≠ p.toUInt8.toNat := fun same => differ (unsigned_inj same)
  have topB := b.toUInt8.toNat_lt
  have topP := p.toUInt8.toNat_lt
  rw [Int8.lt_iff_toInt_lt,Int8.lt_iff_toInt_lt,Int8.lt_iff_toInt_lt,toInt_code b,toInt_code p,
    show (0 : Int8).toInt = 0 from rfl]
  split <;> split <;> omega

theorem strncmp_cons (n : Nat) : strncmp (b :: big) (p :: pattern) (n + 1) =
    if b = p then strncmp big pattern n else b.toUInt8.toNat - p.toUInt8.toNat := rfl

/-- `strbcmp` has the sign of `strncmp` exactly if it is told by characters of one half. -/
theorem beginning_iff : (strbcmp big pattern).sign = (strncmp big pattern pattern.length).sign ↔ SameHalf big pattern := by
  fun_induction strbcmp big pattern with
  | case1 big =>
    refine iff_of_true rfl ?_
    rintro front b p back back' _ split
    cases front <;> cases split
  | case2 p pattern =>
    refine iff_of_true rfl ?_
    rintro front b p back back' split
    cases front <;> cases split
  | case3 b big p pattern less =>
    have differ : b ≠ p := Int8.ne_of_lt less
    rw [same_half_ne differ,← lt_code differ,List.length_cons,strncmp_cons,if_neg differ,iff_true_left less]
    rw [show Int.sign (-1) = -1 from rfl,eq_comm,Int.sign_eq_neg_one_iff_neg]
    omega
  | case4 b big p pattern less more =>
    have differ : b ≠ p := (Int8.ne_of_lt more).symm
    have codes : b.toUInt8.toNat ≠ p.toUInt8.toNat := fun same => differ (unsigned_inj same)
    rw [same_half_ne differ,← lt_code differ,List.length_cons,strncmp_cons,if_neg differ,iff_false_left less]
    rw [show Int.sign 1 = 1 from rfl,eq_comm,Int.sign_eq_one_iff_pos]
    omega
  | case5 b big p pattern less more ih =>
    obtain rfl : b = p := Int8.le_antisymm (Int8.not_lt.mp more) (Int8.not_lt.mp less)
    rw [same_half_cons,← ih,List.length_cons,strncmp_cons,if_pos rfl]

theorem strbcmp_eq_zero : strbcmp big pattern = 0 ↔ pattern <+: big := by
  fun_induction strbcmp big pattern with
  | case1 big => exact iff_of_true rfl List.nil_prefix
  | case2 p pattern => simp
  | case3 b big p pattern less =>
    have differ : p ≠ b := (Int8.ne_of_lt less).symm
    simp [List.cons_prefix_cons,differ]
  | case4 b big p pattern less more =>
    have differ : p ≠ b := Int8.ne_of_lt more
    simp [List.cons_prefix_cons,differ]
  | case5 b big p pattern less more ih =>
    obtain rfl : b = p := Int8.le_antisymm (Int8.not_lt.mp more) (Int8.not_lt.mp less)
    rw [ih,List.cons_prefix_cons,and_iff_right rfl]

theorem strecmp_eq {front back : List Int8} (split : big = front ++ back) (length : back.length = pattern.length) :
    strecmp big pattern = strcmp back pattern := by
  have long : ¬ (front ++ back).length < pattern.length := by
    rw [List.length_append]
    omega
  have place : (front ++ back).length - pattern.length = front.length := by
    rw [List.length_append]
    omega
  rw [strecmp,split,if_neg long,place,List.drop_left]

theorem strecmp_eq_zero : strecmp big pattern = 0 ↔ pattern <:+ big := by
  by_cases short : big.length < pattern.length
  · refine iff_of_false ?_ fun suffix_ => absurd suffix_.length_le (Nat.not_le.mpr short)
    rw [strecmp,if_pos short]
    decide
  · have length : (big.drop (big.length - pattern.length)).length = pattern.length := by
      rw [List.length_drop]
      omega
    rw [strecmp_eq (List.take_append_drop _ big).symm length,strcmp_eq_zero,List.suffix_iff_eq_drop,eq_comm]

end

/-- The comparisons agree with those of the C library exactly if the string differs
    from the pattern by characters of one half first, or not at all. -/
theorem compares_iff (big pattern : List Int8) : Compares big pattern ↔ SameHalf big pattern := by
  constructor
  · intro compares
    exact beginning_iff.mp compares.beginning
  · intro half
    refine ⟨beginning_iff.mpr half,?_,strbcmp_eq_zero,strecmp_eq_zero⟩
    intro front back split length
    rw [strecmp_eq split length]

theorem compares_fails : ¬ ∀ big pattern,(0 : Int8) ∉ big → (0 : Int8) ∉ pattern → Compares big pattern := by
  intro compares
  have wrong := (compares [-128] [97] (by decide) (by decide)).beginning
  exact absurd wrong (by decide)

end Htools.Strings
