import Htools.LexerWords
import Mathlib.Data.List.TakeWhile

/-!
The numbers of the lexer. A text begins with a number exactly if a prefix of it has the
form of one, and the tokenizer takes the longest such prefix (`number_end_longest`).
-/
namespace Htools.Lexing
open Htools.Runs Htools.Simulation

def Sign (w : List Int8) : Prop := w = [] ∨ w = [43] ∨ w = [45]

/-- Digits, perhaps with a point and more digits, or a point and digits. -/
def Mantissa (w : List Int8) : Prop :=
  (∃ whole fraction, whole ≠ [] ∧ Digits whole ∧ (fraction = [] ∨ ∃ frac, fraction = 46 :: frac ∧ Digits frac) ∧
    w = whole ++ fraction) ∨
  ∃ frac, frac ≠ [] ∧ Digits frac ∧ w = 46 :: frac

/-- Nothing, or one of the letters, perhaps a sign, and digits. -/
def Exponent (w : List Int8) : Prop :=
  w = [] ∨ ∃ letter sign digits, (letter = 101 ∨ letter = 69) ∧ Sign sign ∧ digits ≠ [] ∧ Digits digits ∧
    w = letter :: (sign ++ digits)

def NumberForm (w : List Int8) : Prop :=
  ∃ sign mantissa exponent, Sign sign ∧ Mantissa mantissa ∧ Exponent exponent ∧ w = sign ++ (mantissa ++ exponent)

/-- The longest prefix of a text that has a form. -/
def Longest (Form : List Int8 → Prop) (text w : List Int8) : Prop :=
  w <+: text ∧ Form w ∧ ∀ v, v <+: text → Form v → v.length ≤ w.length

section
variable {b b' : Lexer (List Int8)} {c : Int8} {text w v rest more : List Int8} {i n : Nat}

/-! ### What is taken has the form -/

/-- The digits from a place on. -/
abbrev run (text : List Int8) (i : Nat) : List Int8 := (text.drop i).takeWhile fun c => isdigit c.toInt

theorem run_digits (text : List Int8) (i : Nat) : Digits (run text i) := by
  intro c there
  exact List.mem_takeWhile_imp (p := fun c : Int8 => isdigit c.toInt) there

theorem take_digits_end (text : List Int8) (i : Nat) : text.take (digits_end text i) = text.take i ++ run text i := by
  rw [digits_end,List.take_add]
  exact congrArg _ (List.prefix_iff_eq_take.mp (List.takeWhile_prefix _)).symm

theorem digits_end_self (empty : run text i = []) : digits_end text i = i := by
  rw [digits_end,show (text.drop i).takeWhile _ = [] from empty]
  rfl

theorem take_char {c : Int8} (is : c.toInt = glance text i) (char : c ≠ -1) : text.take (i + 1) = text.take i ++ [c] := by
  rw [List.take_add_one]
  rw [glance] at is
  cases there : text[i]? with
  | none =>
    rw [there] at is
    exact absurd (Int8.toInt_inj.mp (is.trans (by rfl : PEEK_EOF = (-1 : Int8).toInt))) char
  | some d =>
    rw [there] at is
    rw [Int8.toInt_inj.mp is]
    rfl

theorem exponent_form (text : List Int8) (i : Nat) :
    ∃ e, Exponent e ∧ text.take (exponent_end text i) = text.take i ++ e := by
  have none_ : ∃ e, Exponent e ∧ text.take i = text.take i ++ e := ⟨[],.inl rfl,(List.append_nil _).symm⟩
  rw [exponent_end]
  split
  · rename_i letter
    obtain ⟨c,is_letter,taken⟩ : ∃ c : Int8, (c = 101 ∨ c = 69) ∧ text.take (i + 1) = text.take i ++ [c] := by
      rcases letter with is | is
      · exact ⟨101,.inl rfl,take_char is (by decide)⟩
      · exact ⟨69,.inr rfl,take_char is (by decide)⟩
    obtain ⟨j,isJ⟩ : ∃ j : Nat, j = if chr '+' = glance text (i + 1) ∨ chr '-' = glance text (i + 1) then i + 2 else i + 1 :=
      ⟨_,rfl⟩
    obtain ⟨sign,signed,taken'⟩ : ∃ sign, Sign sign ∧ text.take j = text.take (i + 1) ++ sign := by
      rw [isJ]
      split
      · rename_i sign
        rcases sign with is | is
        · exact ⟨[43],.inr (.inl rfl),take_char is (by decide)⟩
        · exact ⟨[45],.inr (.inr rfl),take_char is (by decide)⟩
      · exact ⟨[],.inl rfl,(List.append_nil _).symm⟩
    simp only [← isJ]
    split
    · rename_i digit
      have some_ : run text j ≠ [] := by
        intro empty
        have same := digits_end_digit digit
        have less := le_digits_end text (j + 1)
        rw [digits_end_self empty] at same
        omega
      refine ⟨c :: (sign ++ run text j),.inr ⟨c,sign,_,is_letter,signed,some_,run_digits text j,rfl⟩,?_⟩
      rw [take_digits_end,taken',taken]
      simp
    · exact none_
  · exact none_

/-- What the tokenizer takes for a number has the form of one. -/
theorem number_end_form (is : number_end text = some n) : NumberForm (text.take n) := by
  obtain ⟨i,isI⟩ : ∃ i : Nat, i = if chr '-' = glance text 0 ∨ chr '+' = glance text 0 then 1 else 0 := ⟨_,rfl⟩
  obtain ⟨j,isJ⟩ : ∃ j : Nat, j = digits_end text i := ⟨_,rfl⟩
  obtain ⟨k,isK⟩ : ∃ k : Nat, k = if chr '.' = glance text j then j + 1 else j := ⟨_,rfl⟩
  obtain ⟨sign,signed,taken⟩ : ∃ sign, Sign sign ∧ text.take i = sign := by
    refine ⟨_,?_,rfl⟩
    rw [isI]
    split
    · rename_i sign
      rcases sign with is | is
      · exact .inr (.inr (take_char is (by decide)))
      · exact .inr (.inl (take_char is (by decide)))
    · exact .inl rfl
  have upTo : text.take j = sign ++ run text i := by rw [isJ,take_digits_end,taken]
  rw [number_end] at is
  simp only [← isI,← isJ,← isK] at is
  split at is
  · rename_i some_
    cases is
    obtain ⟨e,exponent,last⟩ := exponent_form text (digits_end text k)
    have mantissa : ∃ m, Mantissa m ∧ text.take (digits_end text k) = sign ++ m := by
      rw [take_digits_end,isK]
      split
      · rename_i point
        rw [if_pos point] at isK
        rw [take_char (c := 46) point (by decide),upTo]
        by_cases whole : run text i = []
        · have frac : run text (j + 1) ≠ [] := by
            intro empty
            rw [isK,digits_end_self empty,isJ,digits_end_self whole] at some_
            omega
          refine ⟨46 :: run text (j + 1),.inr ⟨_,frac,run_digits _ _,rfl⟩,?_⟩
          rw [whole]
          simp
        · refine ⟨run text i ++ 46 :: run text (j + 1),.inl ⟨_,_,whole,run_digits _ _,.inr ⟨_,rfl,run_digits _ _⟩,rfl⟩,?_⟩
          simp
      · rename_i noPoint
        rw [if_neg noPoint] at isK
        have whole : run text i ++ run text j ≠ [] := by
          intro empty
          obtain ⟨before,behind⟩ := List.append_eq_nil_iff.mp empty
          rw [isK,digits_end_self behind,isJ,digits_end_self before] at some_
          omega
        have digits : Digits (run text i ++ run text j) := fun c there =>
          (List.mem_append.mp there).elim (run_digits text i c) (run_digits text j c)
        refine ⟨run text i ++ run text j,.inl ⟨_,[],whole,digits,.inl rfl,(List.append_nil _).symm⟩,?_⟩
        rw [upTo,List.append_assoc]
    obtain ⟨m,form,upTo'⟩ := mantissa
    refine ⟨sign,m,e,signed,form,exponent,?_⟩
    rw [last,upTo',List.append_assoc]
  · cases is

/-! ### What has the form is taken -/

theorem digits_end_least (front rest : List Int8) (digits : Digits w) :
    front.length + w.length ≤ digits_end (front ++ (w ++ rest)) front.length := by
  rw [digits_end,List.drop_left,List.takeWhile_append_of_pos digits,List.length_append]
  omega

theorem exponent_end_least (front rest : List Int8) (exponent : Exponent w) :
    front.length + w.length ≤ exponent_end (front ++ (w ++ rest)) front.length := by
  rcases exponent with rfl | ⟨letter,sign,digits,is_letter,signed,some_,all,rfl⟩
  · exact le_exponent_end _ _
  have first : glance (front ++ (letter :: (sign ++ digits) ++ rest)) front.length = letter.toInt := glance_append_right 0
  have letters : chr 'e' = letter.toInt ∨ chr 'E' = letter.toInt := by
    rcases is_letter with rfl | rfl
    · exact .inl rfl
    · exact .inr rfl
  obtain ⟨d,more,rfl⟩ := List.exists_cons_of_ne_nil some_
  have digit := all d List.mem_cons_self
  have text : front ++ (letter :: (sign ++ d :: more) ++ rest) = front ++ [letter] ++ (sign ++ (d :: more ++ rest)) := by simp
  have second : glance (front ++ [letter] ++ (sign ++ (d :: more ++ rest))) (front.length + 1) =
      glance (sign ++ (d :: more ++ rest)) 0 := by
    rw [show front.length + 1 = (front ++ [letter]).length + 0 by rw [List.length_append,List.length_singleton]]
    exact glance_append_right 0
  have sign_end : (if chr '+' = glance (sign ++ (d :: more ++ rest)) 0 ∨ chr '-' = glance (sign ++ (d :: more ++ rest)) 0 then
      front.length + 2 else front.length + 1) = (front ++ [letter] ++ sign).length := by
    rcases signed with rfl | rfl | rfl
    · rw [if_neg]
      · simp
      · rintro (is | is)
        · exact absurd digit (by rw [← show chr '+' = d.toInt from is]; decide)
        · exact absurd digit (by rw [← show chr '-' = d.toInt from is]; decide)
    · exact (if_pos (.inl rfl)).trans (by simp)
    · exact (if_pos (.inr rfl)).trans (by simp)
  have third : glance (front ++ [letter] ++ sign ++ (d :: more ++ rest)) (front ++ [letter] ++ sign).length = d.toInt :=
    glance_append_right 0
  have least := digits_end_least (front ++ [letter] ++ sign) rest all
  rw [exponent_end,first,if_pos letters,text,second,sign_end]
  simp only [← List.append_assoc] at third least ⊢
  rw [third,if_pos digit]
  refine Nat.le_trans (Nat.le_of_eq ?_) least
  simp
  omega

/-- A mantissa ends where the digits do, or before. -/
theorem mantissa_end {front mantissa : List Int8} (form : Mantissa mantissa) {j k l : Nat}
    (isJ : j = digits_end (front ++ (mantissa ++ rest)) front.length)
    (isK : k = if chr '.' = glance (front ++ (mantissa ++ rest)) j then j + 1 else j)
    (isL : l = digits_end (front ++ (mantissa ++ rest)) k) :
    (front.length < j ∨ k < l) ∧ front.length + mantissa.length ≤ l ∧
      (isdigit (glance rest 0) = false → chr '.' ≠ glance rest 0 → l = front.length + mantissa.length) := by
  -- Where there is a point after the digits so far.
  have point : ∀ before frac : List Int8, mantissa = before ++ 46 :: frac → Digits before → Digits frac →
      j = front.length + before.length ∧ front.length + mantissa.length ≤ l ∧ k + frac.length ≤ l ∧
        (isdigit (glance rest 0) = false → l = front.length + mantissa.length) := by
    intro before frac is digits more
    have text : front ++ (mantissa ++ rest) = front ++ (before ++ (46 :: (frac ++ rest))) := by
      rw [is]
      simp
    rw [text] at isJ isK isL
    rw [digits_end_run digits rfl] at isJ
    have dot : glance (front ++ (before ++ (46 :: (frac ++ rest)))) j = 46 := by
      rw [isJ,← List.append_assoc,← List.length_append]
      exact glance_append_right 0
    rw [dot,if_pos (by decide),isJ] at isK
    have text' : front ++ (before ++ (46 :: (frac ++ rest))) = front ++ before ++ [46] ++ (frac ++ rest) := by simp
    have there : k = (front ++ before ++ [46]).length := by
      rw [isK]
      simp only [List.length_append,List.length_singleton]
    rw [text',there] at isL
    have least := digits_end_least (front ++ before ++ [46]) rest more
    have count : (front ++ before ++ [46]).length + frac.length = front.length + mantissa.length := by
      rw [is]
      simp
      omega
    rw [← isL] at least
    refine ⟨isJ,by omega,by omega,fun stops => ?_⟩
    rw [isL,digits_end_run more stops,count]
  rcases form with ⟨whole,fraction,some_,digits,rfl | ⟨frac,rfl,more⟩,is⟩ | ⟨frac,some_,more,is⟩
  · rw [List.append_nil] at is
    rw [is] at isJ isK isL ⊢
    have positive := List.length_pos_iff.mpr some_
    have least := digits_end_least front rest digits
    rw [← isJ] at least
    have past : j ≤ k := by
      rw [isK]
      split <;> omega
    have far := le_digits_end (front ++ (whole ++ rest)) k
    rw [← isL] at far
    refine ⟨by omega,by omega,fun stops noPoint => ?_⟩
    rw [digits_end_run digits stops] at isJ
    have next : glance (front ++ (whole ++ rest)) j = glance rest 0 := by
      rw [isJ,← List.append_assoc,← List.length_append]
      exact glance_append_right 0
    rw [next,if_neg noPoint] at isK
    rw [isL,isK,digits_end_other (by rw [next,stops]; decide),isJ]
  · obtain ⟨isJ',least,_,same⟩ := point whole frac is digits more
    have positive := List.length_pos_iff.mpr some_
    exact ⟨by omega,least,fun stops _ => same stops⟩
  · obtain ⟨isJ',least,past,same⟩ := point [] frac is (fun c there => (List.not_mem_nil there).elim) more
    have positive := List.length_pos_iff.mpr some_
    exact ⟨by omega,least,fun stops _ => same stops⟩

theorem mantissa_begins (form : Mantissa w) : ∃ c more, w = c :: more ∧ (isdigit c.toInt = true ∨ c = 46) := by
  rcases form with ⟨whole,fraction,some_,digits,_,rfl⟩ | ⟨frac,_,_,rfl⟩
  · obtain ⟨c,more,rfl⟩ := List.exists_cons_of_ne_nil some_
    exact ⟨c,more ++ fraction,rfl,.inl (digits c List.mem_cons_self)⟩
  · exact ⟨46,frac,rfl,.inr rfl⟩

/-- A prefix that has the form of a number is taken, and perhaps more. -/
theorem number_end_least (rest : List Int8) (form : NumberForm v) : ∃ n, number_end (v ++ rest) = some n ∧ v.length ≤ n := by
  obtain ⟨sign,mantissa,exponent,signed,mantissa_,exponent_,rfl⟩ := form
  have text : sign ++ (mantissa ++ exponent) ++ rest = sign ++ (mantissa ++ (exponent ++ rest)) := by simp
  have start : (if chr '-' = glance (sign ++ (mantissa ++ (exponent ++ rest))) 0 ∨
      chr '+' = glance (sign ++ (mantissa ++ (exponent ++ rest))) 0 then 1 else 0) = sign.length := by
    rcases signed with rfl | rfl | rfl
    · obtain ⟨c,more,rfl,begins⟩ := mantissa_begins mantissa_
      refine if_neg ?_
      rw [List.nil_append,List.cons_append,glance_cons]
      rcases begins with digit | rfl
      · rintro (is | is) <;> rw [← is] at digit <;> cases digit
      · decide
    · exact if_pos (.inr rfl)
    · exact if_pos (.inl rfl)
  obtain ⟨whole,isWhole⟩ : ∃ w, w = sign ++ (mantissa ++ (exponent ++ rest)) := ⟨_,rfl⟩
  obtain ⟨j,isJ⟩ : ∃ j, j = digits_end whole sign.length := ⟨_,rfl⟩
  obtain ⟨k,isK⟩ : ∃ k, k = if chr '.' = glance whole j then j + 1 else j := ⟨_,rfl⟩
  obtain ⟨l,isL⟩ : ∃ l, l = digits_end whole k := ⟨_,rfl⟩
  rw [← isWhole] at text start
  rw [text]
  refine ⟨exponent_end whole l,?_,?_⟩
  · rw [number_end]
    simp only [start]
    rw [← isJ,← isK,← isL]
    rw [isWhole] at isJ isK isL
    exact if_pos (mantissa_end mantissa_ isJ isK isL).1
  · have far := le_exponent_end whole l
    rw [isWhole] at isJ isK isL
    obtain ⟨_,least,same⟩ := mantissa_end mantissa_ isJ isK isL
    rw [← List.append_assoc,List.length_append,List.length_append]
    by_cases none_ : exponent = []
    · rw [none_,List.length_nil]
      omega
    · have letter : isdigit (glance (exponent ++ rest) 0) = false ∧ chr '.' ≠ glance (exponent ++ rest) 0 := by
        rcases exponent_ with empty | ⟨c,_,_,is,_,_,_,rfl⟩
        · exact absurd empty none_
        · rw [List.cons_append,glance_cons]
          rcases is with rfl | rfl <;> decide
      have last := exponent_end_least (sign ++ mantissa) rest exponent_
      rw [List.length_append,List.append_assoc,← isWhole,← same letter.1 letter.2] at last
      rw [← same letter.1 letter.2]
      exact last

/-- The tokenizer takes the longest number that the text begins with. -/
theorem number_end_longest (text : List Int8) : match number_end text with
    | some n => n ≤ text.length ∧ Longest NumberForm text (text.take n)
    | none => ∀ v, v <+: text → ¬ NumberForm v := by
  cases is : number_end text with
  | none =>
    rintro v ⟨rest,rfl⟩ form
    obtain ⟨n,some_,_⟩ := number_end_least rest form
    rw [is] at some_
    cases some_
  | some n =>
    refine ⟨number_end_le is,List.take_prefix n text,number_end_form is,?_⟩
    rintro v ⟨rest,rfl⟩ form
    obtain ⟨m,some_,le⟩ := number_end_least rest form
    rw [is,Option.some.injEq] at some_
    rw [List.length_take,Nat.min_eq_left (number_end_le is),some_]
    exact le

/-! ### Numbers as far as the ring buffer goes -/

/-- No character is seen from 256 on, as at the end of the first 256 of a text. -/
theorem peek_cap (k : Nat) : ∃ c, peek_text k b = .ok c b ∧ isdigit c = isdigit (glance ((left b).take 256) k) ∧
    ∀ d, 0 < chr d → (chr d = c ↔ chr d = glance ((left b).take 256) k) := by
  by_cases inside : k < 256
  · have same : glance ((left b).take 256) k = glance (left b) k := by
      rw [glance,glance,List.getElem?_take_of_lt inside]
    rw [same]
    exact ⟨_,peek_text_eq inside,rfl,fun _ _ => Iff.rfl⟩
  · have past : glance ((left b).take 256) k = PEEK_EOF := by
      rw [glance,List.getElem?_take_eq_none (by omega)]
    have look : peek_text k b = .ok PEEK_OVERFLOW b := by rw [peek_text,peek_list,if_pos (by omega)]
    rw [past]
    refine ⟨PEEK_OVERFLOW,look,rfl,fun d positive => iff_of_false ?_ ?_⟩
    · rw [PEEK_OVERFLOW]
      omega
    · rw [PEEK_EOF]
      omega

theorem digits_end_take {text : List Int8} {m i : Nat} (_ : i ≤ m) : digits_end (text.take m) i = min (digits_end text i) m := by
  rw [digits_end,digits_end,List.drop_take,← List.take_takeWhile,List.length_take]
  omega

theorem exponent_cap {i : Nat} (_ : i ≤ 256) : exponent peek_text i b = .ok (exponent_end ((left b).take 256) i) b := by
  obtain ⟨c,look,_,letters⟩ := peek_cap (b := b) i
  obtain ⟨d,look',_,signs⟩ := peek_cap (b := b) (i + 1)
  rw [exponent,bind_ok look,exponent_end]
  by_cases letter : chr 'e' = c ∨ chr 'E' = c
  · have letter' := (or_congr (letters 'e' (by decide)) (letters 'E' (by decide))).mp letter
    obtain ⟨j,is⟩ : ∃ j, j = if chr '+' = d ∨ chr '-' = d then i + 2 else i + 1 := ⟨_,rfl⟩
    obtain ⟨e,look'',digit,_⟩ := peek_cap (b := b) j
    rw [if_pos letter,if_pos letter',bind_ok look']
    simp only [← signs '+' (by decide),← signs '-' (by decide),← is]
    rw [bind_ok look'',← digit]
    by_cases more : isdigit e = true
    · have inside : j < 256 := by
        rw [digit] at more
        have := seen_inside (Int.le_of_lt (isdigit_positive more))
        rw [List.length_take] at this
        omega
      rw [if_pos more,if_pos more,digit_loop_cap (by omega) (by omega),digits_end_take (by omega)]
    · rw [if_neg more,if_neg more]
      rfl
  · have letter' := mt (or_congr (letters 'e' (by decide)) (letters 'E' (by decide))).mpr letter
    rw [if_neg letter,if_neg letter']
    rfl

/-- The branch for numbers and symbols takes the number that the first 256 characters begin with. -/
theorem number_cap : number peek_text (glance (left b) 0) b = (match number_end ((left b).take 256) with
    | some n => extract peek_text n >>= fun str => pure (true,(⟨.number,some str⟩ : LexerToken))
    | none => extract peek_text 1 >>= fun str => pure (true,(⟨.symbol,some str⟩ : LexerToken))) b := by
  obtain ⟨text,isText⟩ : ∃ text, text = (left b).take 256 := ⟨_,rfl⟩
  have few : text.length ≤ 256 := by
    rw [isText,List.length_take]
    omega
  have start : glance text 0 = glance (left b) 0 := by rw [isText,glance,glance,List.getElem?_take_of_lt (by decide)]
  obtain ⟨i,isI⟩ : ∃ i : Nat, i = if chr '-' = glance (left b) 0 ∨ chr '+' = glance (left b) 0 then 1 else 0 := ⟨_,rfl⟩
  obtain ⟨j,isJ⟩ : ∃ j : Nat, j = digits_end text i := ⟨_,rfl⟩
  obtain ⟨k,isK⟩ : ∃ k, k = if chr '.' = glance text j then j + 1 else j := ⟨_,rfl⟩
  obtain ⟨l,isL⟩ : ∃ l, l = digits_end text k := ⟨_,rfl⟩
  have ends : number_end text = if i < j ∨ k < l then some (exponent_end text l) else none := by
    rw [number_end,start]
    rw [← isI,← isJ,← isK,← isL]
  have leI : i ≤ 1 := by
    rw [isI]
    split <;> omega
  have leJ : j ≤ 256 := by
    rw [isJ,isText,digits_end_take (by omega)]
    omega
  have leK : k ≤ 256 := by
    rw [isK]
    split
    · rename_i point
      have := char_inside point
      omega
    · exact leJ
  have leL : l ≤ 256 := by
    rw [isL,isText,digits_end_take leK]
    omega
  have first := digits_cap (b := b) false (i := i) (by omega)
  have second := digits_cap (b := b) (false || i < j) leK
  rw [← digits_end_take (by omega),← isText,← isJ] at first
  rw [← digits_end_take leK,← isText,← isL] at second
  obtain ⟨c,look,_,point⟩ := peek_cap (b := b) j
  have dot := point '.' (by decide)
  rw [← isText] at dot
  have main : number peek_text (glance (left b) 0) b = (if (false || decide (i < j) || decide (k < l)) = true then
      exponent peek_text l >>= fun i => extract peek_text i >>= fun str => pure (true,⟨.number,some str⟩)
    else extract peek_text 1 >>= fun str => pure (true,⟨.symbol,some str⟩)) b := by
    rw [number,← isI]
    refine (bind_ok first).trans ((bind_ok look).trans ?_)
    simp only [dot,← isK]
    exact bind_ok second
  rw [main,← isText,ends]
  by_cases some_ : i < j ∨ k < l
  · have held : (false || decide (i < j) || decide (k < l)) = true := by
      rw [Bool.false_or,Bool.or_eq_true,decide_eq_true_eq,decide_eq_true_eq]
      exact some_
    have last := exponent_cap (b := b) leL
    rw [← isText] at last
    rw [if_pos held,if_pos some_]
    exact bind_ok last
  · have failed : ¬ (false || decide (i < j) || decide (k < l)) = true := by
      rw [Bool.false_or,Bool.or_eq_true,decide_eq_true_eq,decide_eq_true_eq]
      exact some_
    rw [if_neg failed,if_neg some_]

/-! ### The tokens -/

theorem number_chars (form : NumberForm w) : ∀ c ∈ w, isdigit c.toInt = true ∨ c = 43 ∨ c = 45 ∨ c = 46 ∨ c = 101 ∨ c = 69 := by
  obtain ⟨sign,mantissa,exponent,signed,mantissa_,exponent_,rfl⟩ := form
  intro c there
  have signs : ∀ sign, Sign sign → c ∈ sign → c = 43 ∨ c = 45 := by
    rintro _ (rfl | rfl | rfl) there
    · exact (List.not_mem_nil there).elim
    · exact .inl (List.mem_singleton.mp there)
    · exact .inr (List.mem_singleton.mp there)
  rcases List.mem_append.mp there with there | there
  · rcases signs sign signed there with rfl | rfl <;> simp
  rcases List.mem_append.mp there with there | there
  · rcases mantissa_ with ⟨whole,fraction,_,digits,after,rfl⟩ | ⟨frac,_,digits,rfl⟩
    · rcases List.mem_append.mp there with there | there
      · exact .inl (digits c there)
      rcases after with rfl | ⟨frac,rfl,more⟩
      · exact (List.not_mem_nil there).elim
      rcases List.mem_cons.mp there with rfl | there
      · simp
      · exact .inl (more c there)
    · rcases List.mem_cons.mp there with rfl | there
      · simp
      · exact .inl (digits c there)
  · rcases exponent_ with rfl | ⟨letter,sign,digits,is_letter,signed,_,all,rfl⟩
    · exact (List.not_mem_nil there).elim
    rcases List.mem_cons.mp there with rfl | there
    · rcases is_letter with rfl | rfl <;> simp
    rcases List.mem_append.mp there with there | there
    · rcases signs sign signed there with rfl | rfl <;> simp
    · exact .inl (all c there)

theorem number_positive (form : NumberForm w) : ∀ c ∈ w, 0 < c.toInt := by
  intro c there
  rcases number_chars form c there with digit | rfl | rfl | rfl | rfl | rfl
  · exact isdigit_positive digit
  all_goals decide

theorem number_begins (form : NumberForm w) : ∃ c more, w = c :: more ∧ (isdigit c.toInt = true ∨ c = 43 ∨ c = 45 ∨ c = 46) := by
  obtain ⟨sign,mantissa,exponent,signed,mantissa_,_,rfl⟩ := form
  rcases signed with rfl | rfl | rfl
  · obtain ⟨c,more,rfl,begins⟩ := mantissa_begins mantissa_
    exact ⟨c,more ++ exponent,rfl,begins.imp id fun is => .inr (.inr is)⟩
  · exact ⟨43,_,rfl,.inr (.inl rfl)⟩
  · exact ⟨45,_,rfl,.inr (.inr (.inl rfl))⟩

/-- A token of type number comes out of the branch for numbers. -/
theorem number_branch {c : Int} {str : Option (List Int8)} (run : Lexing.token peek_text c b = .ok (true,⟨.number,str⟩) b') :
    number peek_text c b = .ok (true,⟨.number,str⟩) b' := by
  have other : ∀ {type : LexerType}, type ≠ .number → ¬ Found (· = type) (true,(⟨.number,str⟩ : LexerToken)) := by
    intro type differ found
    exact differ (found_type found (show LexerType.number ≠ .error by decide)).symm
  rw [Lexing.token] at run
  split at run
  · obtain ⟨_,_,_,run⟩ := bind_eq_ok_iff.mp run
    exact absurd (extracted_found run) (other (by decide))
  split at run
  · exact absurd (literal_found run) (other (by decide))
  split at run
  · obtain ⟨x,look,_⟩ := peek_text_pure (b := b) 1
    rw [bind_ok look] at run
    split at run
    · exact absurd (hex_found run) (other (by decide))
    · exact run
  · exact run

/-- A token of type number has the form of one, and no more characters than the buffer. -/
theorem number_token_form {fuel : Nat} (run : lexer_token_get peek_text fuel b = .ok (true,⟨.number,some w⟩) b') :
    NumberForm w ∧ w.length ≤ 256 := by
  have more := lexer_token_get_at (Nat.le_max_left fuel ((left b).length + 1)) run
  obtain ⟨b₁,_,starts⟩ := token_loop_text peek_text_sees (b := { b with error := .none })
    (Nat.lt_of_lt_of_le (Nat.lt_succ_self _) (Nat.le_max_right fuel _))
  have main : lexer_token_get peek_text (max fuel ((left b).length + 1)) b = _ := token_get_cleared.trans starts
  rw [main] at more
  split at more
  · cases more
  have taken := number_branch more
  rw [number_cap] at taken
  cases is : number_end ((left b₁).take 256) with
  | none =>
    rw [is] at taken
    cases found_type (extracted_found taken) LexerType.noConfusion
  | some n =>
    rw [is] at taken
    simp only at taken
    have form := number_end_form is
    have fits := number_end_le is
    rw [List.length_take] at fits
    rw [List.take_take,Nat.min_eq_left (by omega)] at form
    obtain ⟨b₂,run',_⟩ := @extracted_run b₁ _ _ .number (List.take_append_drop n (left b₁)).symm fun c there =>
      positive_plain (number_positive form c there)
    rw [List.length_take,Nat.min_eq_left (by omega)] at run'
    rw [run'] at taken
    cases taken
    refine ⟨form,?_⟩
    rw [List.length_take]
    omega

theorem token_number (here : left b = c :: more) (noWord : ¬ (chr '_' = c.toInt ∨ isalpha c.toInt)) (noQuote : chr '"' ≠ c.toInt)
    (noHex : ¬ (chr '0' = c.toInt ∧ chr 'x' = glance (c :: more) 1)) :
    Lexing.token peek_text c.toInt b = number peek_text (glance (left b) 0) b := by
  have first : glance (left b) 0 = c.toInt := by rw [here,glance_cons]
  rw [Lexing.token,if_neg noWord,if_neg noQuote,first]
  split
  · rename_i zero
    have look : peek_text 1 b = .ok (glance (c :: more) 1) b := by rw [peek_text_eq (by decide),here]
    rw [bind_ok look,if_neg fun x => noHex ⟨zero,x⟩]
  · rfl

/-- The text of a number is one token. -/
theorem number_form_token (form : NumberForm w) (short : w.length ≤ 256) : Emits w ⟨.number,some w⟩ [] := by
  have positive := number_positive form
  obtain ⟨c,more,rfl,begins⟩ := number_begins form
  obtain ⟨n,ends,least⟩ := number_end_least [] form
  rw [List.append_nil] at ends
  have whole : n = (c :: more).length := Nat.le_antisymm (number_end_le ends) least
  have word : ¬ (chr '_' = c.toInt ∨ isalpha c.toInt) ∧ chr '"' ≠ c.toInt ∧ upcoming false (c :: more) = c :: more := by
    rcases begins with digit | rfl | rfl | rfl
    · obtain ⟨low,high⟩ := of_decide_eq_true digit
      rw [show chr '0' = 48 from rfl] at low
      have above : ∀ d : Char, chr d < 48 → chr d ≠ c.toInt := fun d less => by omega
      refine ⟨digit_no_word digit,above _ (by decide),?_⟩
      rw [upcoming,if_neg (above _ (by decide)),if_neg Bool.false_ne_true,
        if_neg (not_or.mpr ⟨above _ (by decide),above _ (by decide)⟩),if_neg (above _ (by decide))]
    all_goals exact ⟨by decide,by decide,rfl⟩
  have noHex : ¬ (chr '0' = c.toInt ∧ chr 'x' = glance (c :: more) 1) := by
    rintro ⟨_,x⟩
    have inside := char_inside x
    rw [glance_there inside] at x
    rcases number_chars form _ (List.getElem_mem inside) with digit | is | is | is | is | is
    · rw [← x] at digit
      cases digit
    all_goals exact absurd x (by rw [is]; decide)
  refine emits_of_token word.2.2 (positive_plain (positive c List.mem_cons_self)).1 fun b here => ?_
  have cut : (left b).take 256 = c :: more := by rw [here,List.take_of_length_le short]
  rw [token_number here word.1 word.2.1 noHex,number_cap,cut,ends,whole]
  exact extracted_run (here.trans (List.append_nil _).symm) fun d there => positive_plain (positive d there)

/-- A text that a call of the lexer gives for a number, after any other calls on any source. -/
def NumberToken (w : List Int8) : Prop :=
  ∃ (σ : Type) (reader : Reader σ) (stale : Nat → Nat → Int8) (data : σ) (fuel : Nat) (ops : List Op) (p : Program σ)
    (a : Lexer (Buffer σ)), Reached (step (peek_char reader.callback stale) fuel) ⟨lexer_create data,none⟩ ops p ∧
      p.stopped = none ∧ lexer_token_get (peek_char reader.callback stale) fuel p.lexer = .ok (true,⟨.number,some w⟩) a

/-- The tokens of type number are the numbers of at most 256 characters. -/
theorem number_token_iff : NumberToken w ↔ NumberForm w ∧ w.length ≤ 256 := by
  constructor
  · rintro ⟨σ,reader,stale,data,_ | fuel,ops,p,a,reached,going,run⟩
    · obtain ⟨_,_,_,run⟩ := bind_eq_ok_iff.mp run
      cases run
    have placed := reached_keeps (I := Placed reader (reader.rest data)) (fun _ op _ held first => placed_step op held first)
      (created_placed reader data) reached
    rcases placed going with ⟨b,same⟩ | passed
    · have agree := lexer_token_get_alike (gives_alike reader _ stale) (fuel + 1) p.lexer b same
      rw [run] at agree
      obtain ⟨_,_,_,⟨⟩,_⟩ | ⟨_,_,b',⟨⟩,text,_⟩ | ⟨_,_,_,⟨⟩,_⟩ := agree_cases agree
      exact number_token_form text
    · cases ((right_passed passed).2 _ _ run).1
  · rintro ⟨form,short⟩
    obtain ⟨fuel,enough⟩ : ∃ fuel, w.length < fuel := ⟨_,Nat.lt_succ_self _⟩
    obtain ⟨b,text,_⟩ := number_form_token form short (list_lexer w) fuel List.drop_zero enough
    have start : Same (Gives file_reader w) 0 (lexer_create w) (list_lexer w) := created_shows trivial rfl
    have agree := lexer_token_get_alike (gives_alike file_reader w fun _ _ => 0) fuel _ _ start
    rw [text] at agree
    obtain ⟨_,_,⟨⟩,_⟩ | ⟨_,a,_,ring,⟨⟩,_⟩ | ⟨_,_,_,_,⟨⟩,_⟩ := agree_cases agree
    exact ⟨_,file_reader,fun _ _ => 0,w,fuel,[],_,a,reached_nil_iff.mpr rfl,rfl,ring⟩

end

end Htools.Lexing
