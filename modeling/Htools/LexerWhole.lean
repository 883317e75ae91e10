import Htools.LexerText

/-!
The tokenizer on an unbounded array. As long as no identifier, number or literal
is too long for the ring buffer, the lexer gives the tokens of its source
(`tokens_whole`): every character that it looks at is the one that the source has
there. Only numbers are looked at without a bound in the tokenizer itself.
-/
namespace Htools.Lexing
open Htools.Simulation

/-- `peek_char` on an unbounded array. -/
def peek_whole (a_ofs : Nat) : LexerM (List Int8) Int := fun a => .ok (glance (left a) a_ofs) a

/-- The return values and tokens of as many calls of `lexer_token_get`. -/
def tokens {ι : Type} (peek_char : Nat → LexerM ι Int) (fuel : Nat) : Nat → LexerM ι (List (Bool × LexerToken))
  | 0 => return []
  | calls + 1 => do
    let r ← lexer_token_get peek_char fuel
    let rest ← tokens peek_char fuel calls
    return r :: rest

/-- With the assertion that the character is the one of the source, or the end of
    input past the end. -/
def asserted {ι : Type} (source : List Int8) (peek_char : Nat → LexerM ι Int) (a_ofs : Nat) : LexerM ι Int := fun a =>
  match peek_char a_ofs a with
  | .ok c a' => if c = glance (source.drop a.ofs) a_ofs then .ok c a' else .error .abort a'
  | .error stop a' => .error stop a'

/-! ### Numbers -/

def digits_end (text : List Int8) (i : Nat) : Nat := i + ((text.drop i).takeWhile fun c => isdigit c.toInt).length

def exponent_end (text : List Int8) (i : Nat) : Nat :=
  if chr 'e' = glance text i ∨ chr 'E' = glance text i then
    let j := if chr '+' = glance text (i + 1) ∨ chr '-' = glance text (i + 1) then i + 2 else i + 1
    if isdigit (glance text j) then digits_end text j else i
  else i

/-- The length of the number that the text begins with; none where it has no digits. -/
def number_end (text : List Int8) : Option Nat :=
  let i := if chr '-' = glance text 0 ∨ chr '+' = glance text 0 then 1 else 0
  let j := digits_end text i
  let k := if chr '.' = glance text j then j + 1 else j
  let l := digits_end text k
  if i < j ∨ k < l then some (exponent_end text l) else none

/-- The identifier, number or hex number that the text begins with has at most 250
    characters, and a quote at its beginning is followed within 250 characters by
    another one or the end of the text. -/
def Short (text : List Int8) : Prop :=
  if chr '_' = glance text 0 ∨ isalpha (glance text 0) then
    (text.takeWhile fun c => chr '_' = c.toInt ∨ isalnum c.toInt).length ≤ 250
  else if chr '"' = glance text 0 then ((text.drop 1).takeWhile fun c => chr '"' ≠ c.toInt).length ≤ 250
  else if chr '0' = glance text 0 ∧ chr 'x' = glance text 1 then
    2 + ((text.drop 2).takeWhile fun c => isxdigit c.toInt).length ≤ 250
  else ∀ n, number_end text = some n → n ≤ 250

section
variable {b : Lexer (List Int8)} {peek peek' : Nat → LexerM (List Int8) Int} {text : List Int8}

theorem peek_whole_sees : Sees peek_whole := fun _ _ _ => rfl

theorem glance_there {i : Nat} (inside : i < text.length) : glance text i = text[i].toInt := by
  rw [glance,List.getElem?_eq_getElem inside]

theorem digits_end_digit {i : Nat} (digit : isdigit (glance text i) = true) : digits_end text i = digits_end text (i + 1) := by
  by_cases inside : i < text.length
  · rw [glance_there inside] at digit
    rw [digits_end,digits_end,List.drop_eq_getElem_cons inside,
      List.takeWhile_cons_of_pos (p := fun c : Int8 => isdigit c.toInt) digit,List.length_cons]
    omega
  · rw [glance,List.getElem?_eq_none (Nat.le_of_not_lt inside)] at digit
    cases digit

theorem digits_end_other {i : Nat} (other : ¬ isdigit (glance text i) = true) : digits_end text i = i := by
  by_cases inside : i < text.length
  · rw [glance_there inside] at other
    rw [digits_end,List.drop_eq_getElem_cons inside,
      List.takeWhile_cons_of_neg (p := fun c : Int8 => isdigit c.toInt) other]
    rfl
  · rw [digits_end,List.drop_eq_nil_of_le (Nat.le_of_not_lt inside)]
    rfl

theorem le_digits_end (text : List Int8) (i : Nat) : i ≤ digits_end text i := Nat.le_add_right _ _

theorem le_exponent_end (text : List Int8) (i : Nat) : i ≤ exponent_end text i := by
  obtain ⟨j,is⟩ : ∃ j : Nat, j = if chr '+' = glance text (i + 1) ∨ chr '-' = glance text (i + 1) then i + 2 else i + 1 :=
    ⟨_,rfl⟩
  have le : i ≤ j := by
    rw [is]
    split <;> omega
  simp only [exponent_end,← is]
  split
  · split
    · exact Nat.le_trans le (le_digits_end text j)
    · exact Nat.le_refl _
  · exact Nat.le_refl _

theorem seen_inside {i : Nat} (seen : 0 ≤ glance text i) : i < text.length := by
  by_contra past
  rw [glance,List.getElem?_eq_none (Nat.le_of_not_lt past)] at seen
  exact absurd seen (by decide)

theorem char_inside {i : Nat} {c : Char} (is : chr c = glance text i) : i < text.length :=
  seen_inside (is ▸ Int.natCast_nonneg _)

theorem digits_end_le {i : Nat} (le : i ≤ text.length) : digits_end text i ≤ text.length := by
  have few := (List.takeWhile_sublist (l := text.drop i) fun c => isdigit c.toInt).length_le
  rw [List.length_drop] at few
  rw [digits_end]
  omega

theorem exponent_end_le {i : Nat} (le : i ≤ text.length) : exponent_end text i ≤ text.length := by
  obtain ⟨j,is⟩ : ∃ j : Nat, j = if chr '+' = glance text (i + 1) ∨ chr '-' = glance text (i + 1) then i + 2 else i + 1 :=
    ⟨_,rfl⟩
  simp only [exponent_end,← is]
  split
  · split
    · rename_i digit
      exact digits_end_le (Nat.le_of_lt (seen_inside (Int.le_of_lt (isdigit_positive digit))))
    · exact le
  · exact le

theorem number_end_le {n : Nat} (is : number_end text = some n) : n ≤ text.length := by
  obtain ⟨i,isI⟩ : ∃ i : Nat, i = if chr '-' = glance text 0 ∨ chr '+' = glance text 0 then 1 else 0 := ⟨_,rfl⟩
  obtain ⟨k,isK⟩ : ∃ k : Nat, k = if chr '.' = glance text (digits_end text i) then digits_end text i + 1 else digits_end text i :=
    ⟨_,rfl⟩
  have sign : i ≤ text.length := by
    rw [isI]
    split
    · rename_i sign
      exact sign.elim char_inside char_inside
    · exact Nat.zero_le _
  have point : k ≤ text.length := by
    rw [isK]
    split
    · rename_i point
      exact char_inside point
    · exact digits_end_le sign
  simp only [number_end,← isI,← isK] at is
  split at is
  · cases is
    exact exponent_end_le (digits_end_le point)
  · cases is

/-- Everything in a text of at most 250 characters is short. -/
theorem short_of_small (small : text.length ≤ 250) : Short text := by
  have front : ∀ (p : Int8 → Bool) (l : List Int8), (l.takeWhile p).length ≤ l.length :=
    fun p l => (List.takeWhile_sublist p).length_le
  rw [Short]
  split
  · exact Nat.le_trans (front _ _) small
  split
  · refine Nat.le_trans (front _ _) ?_
    rw [List.length_drop]
    omega
  split
  · rename_i both
    have two := char_inside both.2
    have := front (fun c => isxdigit c.toInt) (text.drop 2)
    rw [List.length_drop] at this
    omega
  · exact fun n is => Nat.le_trans (number_end_le is) small

section
variable (sees : Sees peek)

include sees

theorem digit_loop_end {fuel : Nat} : ∀ {i}, digits_end (left b) i < 256 → digits_end (left b) i - i < fuel →
    digit_loop peek fuel i b = .ok (digits_end (left b) i) b := by
  induction fuel with
  | zero => intro i _ enough; omega
  | succ fuel ih =>
    intro i small enough
    have le := le_digits_end (left b) i
    rw [digit_loop,bind_ok (sees i (by omega) b)]
    by_cases digit : isdigit (glance (left b) i) = true
    · have same := digits_end_digit digit
      have le' := le_digits_end (left b) (i + 1)
      rw [if_pos digit,same]
      exact ih (by omega) (by omega)
    · rw [if_neg digit,digits_end_other digit]
      rfl

theorem digits_to_end (is_number : Bool) {i : Nat} (small : digits_end (left b) i < 256) :
    digits peek is_number i b = .ok (is_number || i < digits_end (left b) i,digits_end (left b) i) b := by
  have le := le_digits_end (left b) i
  rw [digits,bind_ok (sees i (by omega) b)]
  by_cases digit : isdigit (glance (left b) i) = true
  · have same := digits_end_digit digit
    have le' := le_digits_end (left b) (i + 1)
    rw [if_pos digit,bind_ok (digit_loop_end sees (by omega) (by omega)),← same,decide_eq_true (by omega),Bool.or_true]
    rfl
  · rw [if_neg digit,digits_end_other digit,decide_eq_false (Nat.lt_irrefl i),Bool.or_false]
    rfl

theorem exponent_to_end {i : Nat} (small : exponent_end (left b) i ≤ 250) :
    exponent peek i b = .ok (exponent_end (left b) i) b := by
  have few : i ≤ 250 := Nat.le_trans (le_exponent_end _ _) small
  rw [exponent,bind_ok (sees i (by omega) b)]
  rw [exponent_end] at small ⊢
  by_cases letter : chr 'e' = glance (left b) i ∨ chr 'E' = glance (left b) i
  · rw [if_pos letter] at small ⊢
    simp only at small ⊢
    obtain ⟨j,is⟩ : ∃ j, j = if chr '+' = glance (left b) (i + 1) ∨ chr '-' = glance (left b) (i + 1) then i + 2 else i + 1 :=
      ⟨_,rfl⟩
    have near : j ≤ i + 2 := by
      rw [is]
      split <;> omega
    rw [if_pos letter,bind_ok (sees (i + 1) (by omega) b),← is,bind_ok (sees j (by omega) b)]
    rw [← is] at small
    by_cases digit : isdigit (glance (left b) j) = true
    · rw [if_pos digit] at small
      rw [if_pos digit,if_pos digit]
      exact digit_loop_end sees (by omega) (by omega)
    · rw [if_neg digit,if_neg digit]
      rfl
  · rw [if_neg letter,if_neg letter]
    rfl

/-- What the branch for numbers and symbols takes of the text. -/
theorem number_to_end (small : ∀ n, number_end (left b) = some n → n ≤ 250) :
    number peek (glance (left b) 0) b = (match number_end (left b) with
      | some n => extract peek n >>= fun str => pure (true,(⟨.number,some str⟩ : LexerToken))
      | none => extract peek 1 >>= fun str => pure (true,(⟨.symbol,some str⟩ : LexerToken))) b := by
  obtain ⟨i,isI⟩ : ∃ i : Nat, i = if chr '-' = glance (left b) 0 ∨ chr '+' = glance (left b) 0 then 1 else 0 := ⟨_,rfl⟩
  obtain ⟨j,isJ⟩ : ∃ j : Nat, j = digits_end (left b) i := ⟨_,rfl⟩
  obtain ⟨k,isK⟩ : ∃ k, k = if chr '.' = glance (left b) j then j + 1 else j := ⟨_,rfl⟩
  obtain ⟨l,isL⟩ : ∃ l, l = digits_end (left b) k := ⟨_,rfl⟩
  have ends : number_end (left b) = if i < j ∨ k < l then some (exponent_end (left b) l) else none := by
    rw [number_end]
    rw [← isI,← isJ,← isK,← isL]
  have leI : i ≤ 1 := by
    rw [isI]
    split <;> omega
  have leJ := le_digits_end (left b) i
  have leK : j ≤ k ∧ k ≤ j + 1 := by
    rw [isK]
    split <;> omega
  have leL := le_digits_end (left b) k
  have leM := le_exponent_end (left b) l
  rw [← isJ] at leJ
  rw [← isL] at leL
  have bound : l ≤ 250 := by
    by_cases some_ : i < j ∨ k < l
    · have := small _ (by rw [ends,if_pos some_])
      omega
    · omega
  have first := digits_to_end sees false (i := i) (by rw [← isJ]; omega)
  have second := digits_to_end sees (false || i < j) (i := k) (by rw [← isL]; omega)
  rw [← isJ] at first
  rw [← isL] at second
  have look := sees j (by omega) b
  have main : number peek (glance (left b) 0) b = (if (false || decide (i < j) || decide (k < l)) = true then
      exponent peek l >>= fun i => extract peek i >>= fun str => pure (true,⟨.number,some str⟩)
    else extract peek 1 >>= fun str => pure (true,⟨.symbol,some str⟩)) b := by
    rw [number,← isI]
    refine (bind_ok first).trans ((bind_ok look).trans ?_)
    rw [← isK]
    exact bind_ok second
  rw [main,ends]
  by_cases some_ : i < j ∨ k < l
  · have held : (false || decide (i < j) || decide (k < l)) = true := by
      rw [Bool.false_or,Bool.or_eq_true,decide_eq_true_eq,decide_eq_true_eq]
      exact some_
    have few := small _ (by rw [ends,if_pos some_])
    rw [if_pos held,if_pos some_]
    exact bind_ok (exponent_to_end sees few)
  · have failed : ¬ (false || decide (i < j) || decide (k < l)) = true := by
      rw [Bool.false_or,Bool.or_eq_true,decide_eq_true_eq,decide_eq_true_eq]
      exact some_
    rw [if_neg failed,if_neg some_]

end

/-! ### Ways to look at a text -/

section
variable (sees : Sees peek) (sees' : Sees peek')

include sees sees'

theorem peek_same {k : Nat} (less : k < 256) : peek k = peek' k :=
  funext fun b => (sees k less b).trans (sees' k less b).symm

theorem span_loop_same {class_ : Int → Bool} {n : Nat} : ∀ {len}, n + len ≤ 256 →
    span_loop peek class_ n len = span_loop peek' class_ n len := by
  induction n with
  | zero => exact fun _ => rfl
  | succ n ih =>
    intro len le
    rw [span_loop,span_loop,peek_same sees sees' (by omega),ih (by omega)]

theorem literal_loop_same {n : Nat} : ∀ {len}, n + len ≤ 256 → literal_loop peek n len = literal_loop peek' n len := by
  induction n with
  | zero => exact fun _ => rfl
  | succ n ih =>
    intro len le
    rw [literal_loop,literal_loop,peek_same sees sees' (by omega),ih (by omega)]

theorem extract_same {len : Nat} : extract peek len = extract peek' len := by
  induction len with
  | zero => rfl
  | succ len ih => rw [extract,extract,peek_same sees sees' (by decide),ih]

theorem alnum_same : alnum peek = alnum peek' := by
  rw [alnum,alnum,span_loop_same sees sees' (by decide)]
  exact congrArg _ (funext fun len => by rw [extract_same sees sees'])

theorem literal_same : literal peek = literal peek' := by
  rw [literal,literal,literal_loop_same sees sees' (by decide)]
  refine congrArg _ (funext fun _ => congrArg _ (funext fun r => ?_))
  cases r with
  | none => rfl
  | some len => simp only [extract_same sees sees']

theorem hex_same : hex peek = hex peek' := by
  rw [hex,hex,peek_same sees sees' (by decide),span_loop_same sees sees' (by decide)]
  refine congrArg _ (funext fun c => ?_)
  simp only [extract_same sees sees']

theorem number_same (small : ∀ n, number_end (left b) = some n → n ≤ 250) :
    number peek (glance (left b) 0) b = number peek' (glance (left b) 0) b := by
  rw [number_to_end sees small,number_to_end sees' small]
  cases number_end (left b) with
  | none => simp only [extract_same sees sees']
  | some n => simp only [extract_same sees sees']

theorem token_same (short : Short (left b)) : token peek (glance (left b) 0) b = token peek' (glance (left b) 0) b := by
  rw [Short] at short
  rw [token,token,alnum_same sees sees',literal_same sees sees',peek_same sees sees' (by decide : 1 < 256)]
  by_cases word : chr '_' = glance (left b) 0 ∨ isalpha (glance (left b) 0)
  · rw [if_pos word,if_pos word]
  rw [if_neg word] at short ⊢
  rw [if_neg word]
  by_cases quote : chr '"' = glance (left b) 0
  · rw [if_pos quote,if_pos quote]
  rw [if_neg quote] at short ⊢
  rw [if_neg quote]
  by_cases zero : chr '0' = glance (left b) 0
  · rw [if_pos zero,if_pos zero,bind_ok (sees' 1 (by decide) b),bind_ok (sees' 1 (by decide) b)]
    by_cases x : chr 'x' = glance (left b) 1
    · rw [if_pos x,if_pos x,hex_same sees sees']
    · rw [if_neg fun both => x both.2] at short
      rw [if_neg x,if_neg x]
      exact number_same sees sees' short
  · rw [if_neg fun both => zero both.1] at short
    rw [if_neg zero,if_neg zero]
    exact number_same sees sees' short

theorem blank_loop_same {fuel : Nat} : blank_loop peek fuel = blank_loop peek' fuel := by
  induction fuel with
  | zero => rfl
  | succ fuel ih => rw [blank_loop,blank_loop,peek_same sees sees' (by decide),ih]

theorem comment_loop_same {fuel : Nat} : comment_loop peek fuel = comment_loop peek' fuel := by
  induction fuel with
  | zero => rfl
  | succ fuel ih => rw [comment_loop,comment_loop,peek_same sees sees' (by decide),ih]

theorem gap_loop_same {fuel : Nat} : gap_loop peek fuel = gap_loop peek' fuel := by
  induction fuel with
  | zero => rfl
  | succ fuel ih =>
    rw [gap_loop,gap_loop,blanks,blanks,blank_loop_same sees sees',comment_loop_same sees sees',ih]

/-- A short token is the same for all of them. -/
theorem lexer_token_get_same {fuel : Nat} (enough : (left b).length < fuel) (short : Short (upcoming false (left b))) :
    lexer_token_get peek fuel b = lexer_token_get peek' fuel b := by
  obtain ⟨b',⟨_,left'⟩,run⟩ := gap_loop_text sees' (b := { b with error := .none }) enough
  have there : left { b with error := .none } = left b := rfl
  rw [there] at left'
  rw [← left'] at short
  have main : ∀ {p}, gap_loop p fuel = gap_loop peek' fuel → lexer_token_get p fuel b =
      (if PEEK_EOF = glance (left b') 0 then pure (false,⟨.eof,none⟩) else token p (glance (left b') 0)) b' := by
    intro p same
    refine token_get_cleared.trans ?_
    rw [token_loop_gap,same]
    exact bind_ok run
  rw [main (gap_loop_same sees sees'),main rfl]
  split
  · rfl
  · exact token_same sees sees' short

end

/-! ### The sequence of tokens -/

/-- Where a program fails that looks past the ring buffer. -/
def peek_strict (a_ofs : Nat) : LexerM (List Int8) Int := fun a =>
  if 256 ≤ a_ofs then .error .abort a else peek_text a_ofs a

theorem peek_strict_sees : Sees peek_strict := by
  intro k less b
  rw [peek_strict,if_neg (Nat.not_le_of_lt less)]
  exact peek_text_eq less

theorem takeWhile_long {text : List Int8} : ∀ {m}, (∀ k < m, glance text k ≠ PEEK_EOF ∧ glance text k ≠ chr '"') →
    m ≤ (text.takeWhile fun c => chr '"' ≠ c.toInt).length := by
  induction text with
  | nil =>
    intro m all
    cases m with
    | zero => exact Nat.zero_le _
    | succ m => exact absurd rfl (all 0 (Nat.succ_pos m)).1
  | cons c rest ih =>
    intro m all
    cases m with
    | zero => exact Nat.zero_le _
    | succ m =>
      have other : decide (chr '"' ≠ c.toInt) = true := decide_eq_true (Ne.symm (all 0 (Nat.succ_pos m)).2)
      rw [List.takeWhile_cons_of_pos (p := fun c : Int8 => decide (chr '"' ≠ c.toInt)) other,List.length_cons]
      exact Nat.succ_le_succ (ih fun k less => all (k + 1) (Nat.succ_lt_succ less))

theorem short_not_overlong (short : Short (upcoming false text)) : ¬ Overlong text := by
  rintro ⟨quote,more,next,is,all⟩
  rw [next,Short,glance_cons,← is,if_neg (by decide),if_pos rfl] at short
  have := takeWhile_long fun k less => ⟨(all k less).1,(all k less).2.2⟩
  simp only [List.drop_one,List.tail_cons] at short
  omega

end

section
variable {σ ι : Type} {R : Nat → Nat → ι → List Int8 → Prop} {source : List Int8}
  {peek : Nat → LexerM ι Int} {peek' : Nat → LexerM (List Int8) Int}

/-- The assertion holds of a lexer that gives the characters of its source. -/
theorem asserted_alike (alike : Alike (Past false) R peek peek_text) (seven : ∀ c ∈ source, 0 < c.toInt)
    (whole : ∀ {n ofs i j}, R n ofs i j → j = source ∧ n ≤ 256) :
    Alike (Past false) R (asserted source peek) peek_strict := by
  have right : ∀ {n a b}, Same R n a b → left b = source.drop a.ofs := by
    intro n a b same
    rw [left,(whole same.inputs).1,same.ofs]
  refine ⟨alike.fewer,alike.later,?_,?_⟩
  · intro n a b same
    have next := alike.next n a b same
    by_cases large : 256 ≤ n
    · have overflow : peek_text n b = .ok PEEK_OVERFLOW b := by rw [peek_text,peek_list,if_pos large]
      have other : PEEK_OVERFLOW ≠ glance (source.drop a.ofs) n := by
        rw [glance]
        split
        · decide
        · rename_i c there
          have := seven c (List.mem_of_mem_drop (List.mem_of_getElem? there))
          rw [PEEK_OVERFLOW]
          omega
      rw [overflow] at next
      obtain ⟨_,_,⟨⟩,_⟩ | ⟨_,a',_,run,⟨⟩,same'⟩ | ⟨_,_,_,_,⟨⟩,_⟩ := agree_cases next
      simp only [asserted,run,if_neg other,peek_strict,if_pos large]
      exact .inr ⟨rfl,same_fewer alike same'.1 (Nat.zero_le n)⟩
    · have look := peek_text_eq (b := b) (Nat.lt_of_not_le large)
      rw [look] at next
      obtain ⟨_,_,⟨⟩,_⟩ | ⟨_,a',_,run,⟨⟩,same'⟩ | ⟨_,_,_,_,⟨⟩,_⟩ := agree_cases next
      simp only [asserted,run,peek_strict,if_neg large,look,right same]
      rw [right same] at same'
      exact ⟨rfl,same'⟩
  · intro k n a b less same
    have small := (whole same.inputs).2
    have look := peek_text_eq (b := b) (k := k) (by omega)
    obtain ⟨c,there,there'⟩ := alike.seen less same
    rw [there'] at look
    cases look
    refine ⟨_,?_,(peek_strict_sees k (by omega) b)⟩
    simp only [asserted,there,right same,if_pos]

/-- A lexer for which every token is short gives the tokens of the array. -/
theorem tokens_alike (alike : Alike (Past false) R peek peek') (sees : Sees peek') (seven : ∀ c ∈ source, 0 < c.toInt)
    (whole : ∀ {n ofs i j}, R n ofs i j → j = source) {fuel : Nat} (enough : source.length < fuel) {calls : Nat} :
    ∀ {a b}, Same R 0 a b → (∀ n ts b', tokens peek_whole fuel n b = .ok ts b' → Short (upcoming false (left b'))) →
      ∃ ts a' b', ts.length = calls ∧ tokens peek fuel calls a = .ok ts a' ∧ tokens peek_whole fuel calls b = .ok ts b' := by
  induction calls with
  | zero => exact fun {a b} _ _ => ⟨[],a,b,rfl,rfl,rfl⟩
  | succ calls ih =>
    intro a b same short
    have input := whole same.inputs
    have first := short 0 [] b rfl
    have few : (left b).length < fuel := by
      rw [left,input,List.length_drop]
      omega
    have text := lexer_token_get_same sees peek_text_sees few first
    have array := lexer_token_get_same peek_whole_sees peek_text_sees few first
    have takes := (lexer_token_get_returns few).1
    have agree := lexer_token_get_alike alike fuel a b same
    rw [text] at agree
    cases run : lexer_token_get peek_text fuel b with
    | error stop b' =>
      rw [run] at takes
      have there := takes.2
      rw [input] at there
      exact absurd (seven _ there) (by decide)
    | ok r b' =>
      rw [run] at agree array
      obtain ⟨_,_,⟨⟩,_⟩ | ⟨_,a',_,ring,⟨⟩,ends⟩ | ⟨_,_,_,_,⟨⟩,_⟩ := agree_cases agree
      have notFull : ¬ Full r.2 := fun full =>
        short_not_overlong first ((lexer_token_get_text few).mp ⟨r,b',run,full⟩)
      obtain ⟨ts,a'',b'',length,ring',array'⟩ := ih (ends.2 notFull) fun n ts b'' later => by
        refine short (n + 1) (r :: ts) b'' ?_
        exact (bind_ok array).trans (bind_ok later)
      refine ⟨r :: ts,a'',b'',congrArg (· + 1) length,?_,?_⟩
      · exact (bind_ok ring).trans (bind_ok ring')
      · exact (bind_ok array).trans (bind_ok array')

/-- A new lexer shows its source. -/
theorem created_same (reader : Reader σ) (data : σ) :
    Same (Shows (fun e s => reader.rest s = (reader.rest data).drop e) (fun _ => True) (reader.rest data) false) 0
      (lexer_create data) (list_lexer (reader.rest data)) :=
  created_shows trivial rfl

/-- A callback that fills its requests gives the tokens of its source, also where
    the program stops at any character that is not the one of the source. -/
theorem tokens_whole (reader : Reader σ) (stale : Nat → Nat → Int8) (data : σ) (extra calls : Nat)
    (seven : ∀ c ∈ reader.rest data, 0 < c.toInt)
    (short : ∀ n ts b, tokens peek_whole ((reader.rest data).length + 1 + extra) n (list_lexer (reader.rest data)) = .ok ts b →
      Short (upcoming false (left b))) :
    ∃ ts a a' b, ts.length = calls ∧
      tokens (peek_char reader.callback stale) ((reader.rest data).length + 1 + extra) calls (lexer_create data) = .ok ts a ∧
      tokens (asserted (reader.rest data) (peek_char reader.callback stale)) ((reader.rest data).length + 1 + extra) calls
        (lexer_create data) = .ok ts a' ∧
      tokens peek_whole ((reader.rest data).length + 1 + extra) calls (list_lexer (reader.rest data)) = .ok ts b := by
  have alike : Alike (Past false) (Shows _ (fun _ => True) _ false) (peek_char reader.callback stale) (peek_list false) :=
    shows_alike (reader_feeds reader (reader.rest data)) stale fun _ _ _ _ _ => trivial
  have whole : ∀ {n ofs i j}, Shows (fun e s => reader.rest s = (reader.rest data).drop e) (fun _ => True)
      (reader.rest data) false n ofs i j → j = reader.rest data ∧ n ≤ 256 := by
    intro n ofs i j shows_
    have seen := shows_.seen
    have room := shows_.room
    exact ⟨shows_.whole,by omega⟩
  have enough : (reader.rest data).length < (reader.rest data).length + 1 + extra := by omega
  have start := created_same reader data
  obtain ⟨ts,a,b,length,ring,array⟩ := tokens_alike alike peek_text_sees seven (fun held => (whole held).1) enough
    start short
  obtain ⟨ts',a',b',_,ring',array'⟩ := tokens_alike (asserted_alike alike seven whole) peek_strict_sees seven
    (fun held => (whole held).1) enough start short
  rw [array] at array'
  cases array'
  exact ⟨ts,a,a',b,length,ring,ring',array⟩

/-- Where the whole text is small, so is what is left of it after any tokens. -/
theorem small_tokens {fuel n : Nat} : ∀ {b : Lexer (List Int8)} {ts b'}, b.input.length ≤ 250 → b.input.length < fuel →
    tokens peek_whole fuel n b = .ok ts b' → Short (upcoming false (left b')) := by
  induction n with
  | zero =>
    intro b ts b' small _ run
    cases run
    refine short_of_small (Nat.le_trans upcoming_length ?_)
    rw [left,List.length_drop]
    omega
  | succ n ih =>
    intro b ts b' small enough run
    obtain ⟨r,b₁,first,run⟩ := bind_eq_ok_iff.mp run
    obtain ⟨ts',b₂,later,last⟩ := bind_eq_ok_iff.mp run
    cases last
    have fewer : (left b).length ≤ b.input.length := by
      rw [left,List.length_drop]
      omega
    have short : Short (upcoming false (left b)) :=
      short_of_small (Nat.le_trans upcoming_length (Nat.le_trans fewer small))
    have takes := (lexer_token_get_returns (show (left b).length < fuel by omega)).1
    rw [lexer_token_get_same peek_whole_sees peek_text_sees (by omega) short] at first
    rw [first] at takes
    exact ih (by rw [takes.1]; exact small) (by rw [takes.1]; exact enough) later

/-- The file `[a]` and the value `1` under `b`, token by token. -/
theorem tokens_whole_file : (∀ c ∈ [91,97,93,98,61,49], 0 < Int8.toInt c) ∧ ∃ ts a a' b, ts.length = 7 ∧
    tokens (peek_char stdio_fread fun _ _ => 0) 7 7 (lexer_create [91,97,93,98,61,49]) = .ok ts a ∧
    tokens (asserted [91,97,93,98,61,49] (peek_char stdio_fread fun _ _ => 0)) 7 7 (lexer_create [91,97,93,98,61,49]) = .ok ts a' ∧
    tokens peek_whole 7 7 (list_lexer [91,97,93,98,61,49]) = .ok ts b :=
  ⟨by decide +kernel,tokens_whole file_reader (fun _ _ => 0) [91,97,93,98,61,49] 0 7 (by decide +kernel) fun _ _ _ run =>
    small_tokens (by decide) (by decide) run⟩
end

end Htools.Lexing
