import Htools.LexerWhole
import Htools.LexerBytes

/-!
Texts that the tokenizer takes as one token: a symbol, an identifier, a number or a
literal, followed by something that cannot belong to it. Numbers are cut off where
the ring buffer ends (`emits_number`), and literals where it ends or at the first
quote (`emits_literal`).
-/
namespace Htools.Lexing
open Htools.Simulation

/-- The next call on the text returns the token and leaves the rest. -/
def Emits (text : List Int8) (token : LexerToken) (rest : List Int8) : Prop :=
  ∀ b fuel, left b = text → text.length < fuel →
    ∃ b', lexer_token_get peek_text fuel b = .ok (true,token) b' ∧ Later b rest b'

def Identifier (name : List Int8) : Prop :=
  (chr '_' = (name.headD 0).toInt ∨ isalpha (name.headD 0).toInt) ∧ ∀ c ∈ name, chr '_' = c.toInt ∨ isalnum c.toInt

def Digits (w : List Int8) : Prop := ∀ c ∈ w, isdigit c.toInt = true

instance (w : List Int8) : Decidable (Digits w) := inferInstanceAs (Decidable (∀ c ∈ w, isdigit c.toInt = true))

/-- An optional minus, digits, and perhaps a point and more digits. -/
def Numeral (t : List Int8) : Prop :=
  ∃ sign whole fraction, (sign = [] ∨ sign = [45]) ∧ whole ≠ [] ∧ Digits whole ∧
    (fraction = [] ∨ ∃ frac, fraction = 46 :: frac ∧ Digits frac) ∧ t = sign ++ (whole ++ fraction)

section
variable {b b' : Lexer (List Int8)} {text rest w more : List Int8} {token : LexerToken} {fuel : Nat} {c : Int8}

theorem chr_iff {d : Char} {e : Int8} (is : chr d = e.toInt) : chr d = c.toInt ↔ c = e := by
  rw [is,Int8.toInt_inj]
  exact eq_comm

theorem glance_append_left {k : Nat} (less : k < w.length) : glance (w ++ rest) k = w[k].toInt := by
  rw [glance,List.getElem?_append_left less,List.getElem?_eq_getElem less]

theorem glance_append_right (k : Nat) : glance (w ++ rest) (w.length + k) = glance rest k := by
  rw [glance,List.getElem?_append_right (Nat.le_add_right _ _),Nat.add_sub_cancel_left]
  rfl

/-- A call begins with the next character that is not skipped. -/
theorem next_token (enough : (left b).length < fuel) (next : upcoming false (left b) = c :: more) (noEof : c ≠ -1) :
    ∃ b₁, Later b (c :: more) b₁ ∧ lexer_token_get peek_text fuel b = Lexing.token peek_text c.toInt b₁ := by
  obtain ⟨b₁,⟨input,rest⟩,run⟩ := token_loop_text peek_text_sees (b := { b with error := .none }) enough
  have here : left b₁ = c :: more := rest.trans next
  have first : glance (left b₁) 0 = c.toInt := by rw [here,glance_cons]
  refine ⟨b₁,⟨input,here⟩,?_⟩
  have main : lexer_token_get peek_text fuel b = _ := token_get_cleared.trans run
  rw [main,first,if_neg]
  intro eof
  exact noEof (Int8.toInt_inj.mp eof.symm)

/-- Nothing is left but what is skipped. -/
theorem next_eof (enough : (left b).length < fuel) (next : upcoming false (left b) = []) :
    ∃ b', lexer_token_get peek_text fuel b = .ok (false,⟨.eof,none⟩) b' := by
  obtain ⟨b₁,⟨_,rest⟩,run⟩ := token_loop_text peek_text_sees (b := { b with error := .none }) enough
  have here : left b₁ = [] := rest.trans next
  refine ⟨b₁,(token_get_cleared.trans run).trans (if_pos ?_)⟩
  rw [here,glance_nil]

theorem emits_of_token (next : upcoming false text = c :: more) (noEof : c ≠ -1)
    (run : ∀ b, left b = c :: more → ∃ b', Lexing.token peek_text c.toInt b = .ok (true,token) b' ∧ Later b rest b') :
    Emits text token rest := by
  intro b fuel here enough
  rw [← here] at next enough
  obtain ⟨b₁,⟨input,left₁⟩,starts⟩ := next_token enough next noEof
  obtain ⟨b',taken,input',left'⟩ := run b₁ left₁
  exact ⟨b',starts.trans taken,input'.trans input,left'⟩

/-- `extract` takes a text without the values of `peek_char` as it is. -/
theorem extract_run : ∀ {w : List Int8} {b}, left b = w ++ rest → (∀ c ∈ w, c ≠ -1 ∧ c ≠ -2) →
    ∃ b', extract peek_text w.length b = .ok w b' ∧ Later b rest b' := by
  intro w
  induction w with
  | nil => exact fun {b} here _ => ⟨b,rfl,rfl,here⟩
  | cons c w ih =>
    intro b here plain
    obtain ⟨noEof,noOverflow⟩ := plain c List.mem_cons_self
    have first : glance (left b) 0 = c.toInt := by rw [here,List.cons_append,glance_cons]
    obtain ⟨b₁,passed,input,left₁⟩ := consume_char_text (d := c) here
    obtain ⟨b',run,input',left'⟩ := ih left₁ fun d there => plain d (List.mem_cons_of_mem _ there)
    refine ⟨b',?_,input'.trans input,left'⟩
    rw [List.length_cons,extract,bind_ok (peek_text_eq (by decide)),first,if_neg,if_neg,bind_ok passed,bind_ok run,
      Int8.ofInt_toInt]
    · rfl
    · exact fun eof => noEof (Int8.toInt_inj.mp eof.symm)
    · exact fun overflow => noOverflow (Int8.toInt_inj.mp overflow.symm)

theorem extracted_run {type : LexerType} (here : left b = w ++ rest) (plain : ∀ c ∈ w, c ≠ -1 ∧ c ≠ -2) :
    ∃ b', (extract peek_text w.length >>= fun str => pure (true,(⟨type,some str⟩ : LexerToken))) b =
      .ok (true,⟨type,some w⟩) b' ∧ Later b rest b' := by
  obtain ⟨b',run,later⟩ := extract_run here plain
  exact ⟨b',bind_ok run,later⟩

theorem positive_plain (positive : 0 < c.toInt) : c ≠ -1 ∧ c ≠ -2 := by
  constructor <;> rintro rfl <;> exact absurd positive (by decide)

/-! ### Identifiers -/

/-- The loop over a class ends where the class does. -/
theorem span_loop_run (class_ : Int → Bool) {front : List Int8} (here : left b = front ++ (w ++ rest))
    (all : ∀ c ∈ w, class_ c.toInt = true) (stops : class_ (glance rest 0) = false) {n : Nat} : ∀ {len}, n + len = 256 →
      front.length ≤ len → len ≤ (front ++ w).length → (front ++ w).length ≤ 256 →
      span_loop peek_text class_ n len b = .ok (front ++ w).length b := by
  induction n with
  | zero =>
    intro len sum _ le most
    obtain rfl : len = (front ++ w).length := by omega
    rfl
  | succ n ih =>
    intro len sum past le most
    rw [span_loop,bind_ok (peek_text_eq (by omega)),here]
    by_cases inside : len < (front ++ w).length
    · obtain ⟨k,rfl⟩ : ∃ k, len = front.length + k := ⟨len - front.length,by omega⟩
      rw [List.length_append] at inside
      have there : k < w.length := by omega
      rw [glance_append_right,glance_append_left there,if_pos (all _ (List.getElem_mem there))]
      exact ih (by omega) (by omega) (by rw [List.length_append]; omega) most
    · obtain rfl : len = (front ++ w).length := by omega
      rw [← List.append_assoc,show glance (front ++ w ++ rest) (front ++ w).length = glance rest 0 from glance_append_right 0,
        stops]
      rfl

theorem emits_word (name : Identifier w) (most : w.length ≤ 256) (next : upcoming false text = w ++ rest)
    (stops : ¬ (chr '_' = glance rest 0 ∨ isalnum (glance rest 0))) : Emits text ⟨.alnum,some w⟩ rest := by
  obtain ⟨first,all⟩ := name
  have positive : ∀ c ∈ w, c ≠ -1 ∧ c ≠ -2 := fun c there => positive_plain (word_positive (decide_eq_true (all c there)))
  cases w with
  | nil => exact absurd first (by decide)
  | cons c w =>
    have letter : chr '_' = c.toInt ∨ isalpha c.toInt := first
    refine emits_of_token next (positive c List.mem_cons_self).1 fun b here => ?_
    have start : left b = [] ++ (c :: w ++ rest) := here
    have span := span_loop_run (fun c => chr '_' = c ∨ isalnum c) start (fun d there => decide_eq_true (all d there))
      (decide_eq_false stops) (show 255 + 1 = 256 from rfl) (Nat.zero_le 1) (Nat.succ_le_succ (Nat.zero_le w.length)) most
    rw [List.nil_append] at span
    rw [Lexing.token,if_pos letter,alnum,bind_ok span]
    exact extracted_run here positive

/-- The loop over a class passes characters of the class only. -/
theorem span_loop_class (class_ : Int → Bool) {n : Nat} : ∀ {len}, n + len = 256 →
    ∃ len', span_loop peek_text class_ n len b = .ok len' b ∧ len ≤ len' ∧ len' ≤ 256 ∧
      ∀ k, len ≤ k → k < len' → class_ (glance (left b) k) = true := by
  induction n with
  | zero =>
    intro len sum
    exact ⟨len,rfl,Nat.le_refl _,by omega,fun k le less => absurd less (Nat.not_lt_of_le le)⟩
  | succ n ih =>
    intro len sum
    rw [span_loop,bind_ok (peek_text_eq (by omega))]
    by_cases inside : class_ (glance (left b) len) = true
    · obtain ⟨len',run,le,most,all⟩ := @ih (len + 1) (by omega)
      rw [if_pos inside]
      refine ⟨len',run,by omega,most,fun k after before => ?_⟩
      obtain rfl | later := Nat.eq_or_lt_of_le after
      · exact inside
      · exact all k later before
    · rw [if_neg inside]
      exact ⟨len,rfl,Nat.le_refl _,by omega,fun k le less => absurd less (Nat.not_lt_of_le le)⟩

theorem letter_word {c : Int} (letter : chr '_' = c ∨ isalpha c) : chr '_' = c ∨ isalnum c :=
  letter.imp id fun alpha => decide_eq_true (.inl alpha)

/-- A token of type alnum is an identifier, of as many characters as the buffer has at most. -/
theorem alnum_identifier {str : List Int8} (run : lexer_token_get peek_text fuel b = .ok (true,⟨.alnum,some str⟩) b') :
    Identifier str ∧ str.length ≤ 256 := by
  have begins := lexer_token_get_alnum run rfl
  have more := lexer_token_get_at (Nat.le_max_left fuel ((left b).length + 1)) run
  obtain ⟨b₁,_,starts⟩ := token_loop_text peek_text_sees (b := { b with error := .none })
    (Nat.lt_of_lt_of_le (Nat.lt_succ_self _) (Nat.le_max_right fuel _))
  have main : lexer_token_get peek_text (max fuel ((left b).length + 1)) b = _ := token_get_cleared.trans starts
  rw [main] at more
  split at more
  · cases more
  have letter := (found_type (token_found more) nofun).2.1 rfl
  obtain ⟨len,span,le,most,all⟩ := span_loop_class (b := b₁) (fun c => chr '_' = c ∨ isalnum c)
    (show 255 + 1 = 256 from rfl)
  rw [Lexing.token,if_pos letter,alnum,bind_ok span] at more
  have word : ∀ k < len, chr '_' = glance (left b₁) k ∨ isalnum (glance (left b₁) k) := by
    intro k less
    by_cases start : k = 0
    · rw [start]
      exact letter_word letter
    · exact of_decide_eq_true (all k (by omega) less)
  have inside : len ≤ (left b₁).length := by
    have := seen_inside (Int.le_of_lt (word_positive (decide_eq_true (word (len - 1) (by omega)))))
    omega
  have chars : ∀ c ∈ (left b₁).take len, chr '_' = c.toInt ∨ isalnum c.toInt := by
    intro c there
    obtain ⟨k,less,rfl⟩ := List.mem_iff_getElem.mp there
    rw [List.length_take] at less
    rw [List.getElem_take,← glance_there (show k < (left b₁).length by omega)]
    exact word k (by omega)
  obtain ⟨b₂,taken,_⟩ := extracted_run (List.take_append_drop len (left b₁)).symm fun c there =>
    positive_plain (word_positive (decide_eq_true (chars c there)))
  rw [List.length_take,Nat.min_eq_left inside] at taken
  rw [taken] at more
  cases more
  refine ⟨⟨begins,chars⟩,?_⟩
  rw [List.length_take]
  omega

/-! ### Symbols and numbers -/

theorem number_end_symbol {i : Nat} (sign : i = if chr '-' = glance text 0 ∨ chr '+' = glance text 0 then 1 else 0)
    (noDigit : isdigit (glance text i) = false) (noPoint : chr '.' ≠ glance text i) : number_end text = none := by
  have ends : digits_end text i = i := digits_end_other (by rw [noDigit]; decide)
  rw [number_end]
  simp only [← sign,ends,if_neg noPoint,Nat.lt_irrefl,or_self,if_false]

/-- A symbol is not a part of anything longer. -/
theorem emits_symbol (next : upcoming false text = c :: rest) (noWord : ¬ (chr '_' = c.toInt ∨ isalpha c.toInt))
    (noQuote : chr '"' ≠ c.toInt) (noZero : chr '0' ≠ c.toInt) (plain : c ≠ -1 ∧ c ≠ -2)
    (noNumber : number_end (c :: rest) = none) : Emits text ⟨.symbol,some [c]⟩ rest := by
  refine emits_of_token next plain.1 fun b here => ?_
  have number_ := number_to_end (b := b) peek_text_sees (by
    rw [here,noNumber]
    exact nofun)
  rw [here,noNumber,glance_cons] at number_
  rw [Lexing.token,if_neg noWord,if_neg noQuote,if_neg noZero,number_]
  exact extracted_run (w := [c]) here fun d there => List.mem_singleton.mp there ▸ plain

/-- The loop over digits ends with the digits, or with the ring buffer. -/
theorem digit_loop_cap {fuel : Nat} : ∀ {i}, i ≤ 256 → 256 < fuel + i →
    digit_loop peek_text fuel i b = .ok (min (digits_end (left b) i) 256) b := by
  induction fuel with
  | zero => intro i le enough; omega
  | succ fuel ih =>
    intro i le enough
    have far := le_digits_end (left b) i
    rw [digit_loop]
    by_cases last : i = 256
    · have look : peek_text i b = .ok PEEK_OVERFLOW b := by rw [peek_text,peek_list,if_pos (by omega)]
      rw [bind_ok look,if_neg (by decide),Nat.min_eq_right (by omega),last]
      rfl
    · rw [bind_ok (peek_text_eq (by omega))]
      by_cases digit : isdigit (glance (left b) i) = true
      · rw [if_pos digit,digits_end_digit digit]
        exact ih (by omega) (by omega)
      · rw [if_neg digit,digits_end_other digit,Nat.min_eq_left le]
        rfl

theorem digits_cap (is_number : Bool) {i : Nat} (le : i ≤ 256) : digits peek_text is_number i b =
    .ok (is_number || i < min (digits_end (left b) i) 256,min (digits_end (left b) i) 256) b := by
  have far := le_digits_end (left b) i
  rw [digits]
  by_cases last : i = 256
  · have look : peek_text i b = .ok PEEK_OVERFLOW b := by rw [peek_text,peek_list,if_pos (by omega)]
    rw [bind_ok look,if_neg (by decide),Nat.min_eq_right (by omega),last,decide_eq_false (by omega),Bool.or_false]
    rfl
  · rw [bind_ok (peek_text_eq (by omega))]
    by_cases digit : isdigit (glance (left b) i) = true
    · have far' := le_digits_end (left b) (i + 1)
      have same := digits_end_digit digit
      rw [if_pos digit,bind_ok (digit_loop_cap (by omega) (by omega)),← same,decide_eq_true (by omega),Bool.or_true]
      rfl
    · rw [if_neg digit,digits_end_other digit,Nat.min_eq_left le,decide_eq_false (Nat.lt_irrefl i),Bool.or_false]
      rfl

theorem digits_end_run {front : List Int8} (digits : Digits w) (stops : isdigit (glance rest 0) = false) :
    digits_end (front ++ (w ++ rest)) front.length = front.length + w.length := by
  have taken : (w ++ rest).takeWhile (fun c => isdigit c.toInt) = w := by
    rw [List.takeWhile_append_of_pos digits]
    cases rest with
    | nil => rw [List.takeWhile_nil,List.append_nil]
    | cons c rest =>
      rw [glance_cons] at stops
      rw [List.takeWhile_cons_of_neg (by rw [stops]; decide),List.append_nil]
  rw [digits_end,List.drop_left,taken]

/-- A numeral at the end of a line is one number, as far as the ring buffer goes. -/
theorem number_run {t : List Int8} (numeral : Numeral t) (here : left b = t ++ 10 :: rest) :
    number peek_text (glance (left b) 0) b =
      (extract peek_text (min t.length 256) >>= fun str => pure (true,(⟨.number,some str⟩ : LexerToken))) b := by
  obtain ⟨sign,whole,fraction,signed,some_,digits,after,rfl⟩ := numeral
  have positive := List.length_pos_iff.mpr some_
  have short : sign.length ≤ 1 := by rcases signed with rfl | rfl <;> decide
  -- The text after the digits, and what follows the numeral.
  have ends : ∀ k, glance (left b) (sign.length + (whole.length + k)) = glance (fraction ++ 10 :: rest) k := by
    intro k
    rw [here,List.append_assoc,List.append_assoc,glance_append_right,glance_append_right]
  have start : sign.length = if chr '-' = glance (left b) 0 ∨ chr '+' = glance (left b) 0 then 1 else 0 := by
    rcases signed with rfl | rfl
    · rw [if_neg]
      · rfl
      · rw [here,List.nil_append,List.append_assoc,glance_append_left positive]
        have digit := digits _ (List.getElem_mem positive)
        rintro (is | is) <;> rw [← is] at digit <;> cases digit
    · rw [if_pos]
      · rfl
      · rw [here]
        exact .inl rfl
  have stops : isdigit (glance (fraction ++ 10 :: rest) 0) = false := by
    rcases after with rfl | ⟨frac,rfl,_⟩ <;> rfl
  have first : digits_end (left b) sign.length = sign.length + whole.length := by
    rw [here,List.append_assoc,List.append_assoc]
    exact digits_end_run digits stops
  obtain ⟨i,isI⟩ : ∃ i, i = min (sign.length + whole.length) 256 := ⟨_,rfl⟩
  have one := digits_cap (b := b) false (i := sign.length) (by omega)
  rw [first,← isI,decide_eq_true (by omega),Bool.false_or] at one
  -- Where the text after the point, if there is one, leads to.
  have point : ∃ d, peek_text i b = .ok d b ∧ (if chr '.' = d then i + 1 else i) ≤ 256 ∧
      min (digits_end (left b) (if chr '.' = d then i + 1 else i)) 256 =
        min (sign ++ (whole ++ fraction)).length 256 := by
    simp only [List.length_append]
    by_cases inside : sign.length + whole.length < 256
    · rw [Nat.min_eq_left (by omega)] at isI
      refine ⟨_,peek_text_eq (by omega),?_⟩
      rw [isI,show glance (left b) (sign.length + whole.length) = _ from ends 0]
      rcases after with rfl | ⟨frac,rfl,more⟩
      · have none_ : chr '.' ≠ glance ([] ++ 10 :: rest) 0 := by
          rw [List.nil_append,glance_cons]
          decide
        have same : digits_end (left b) (sign.length + whole.length) = sign.length + whole.length := digits_end_other (by
          rw [show glance (left b) (sign.length + whole.length) = _ from ends 0,stops]
          decide)
        rw [if_neg none_,same]
        exact ⟨by omega,rfl⟩
      · have there : chr '.' = glance (46 :: frac ++ 10 :: rest) 0 := rfl
        have same : digits_end (sign ++ (whole ++ [46]) ++ (frac ++ 10 :: rest)) _ = _ := digits_end_run more rfl
        have split : left b = sign ++ (whole ++ [46]) ++ (frac ++ 10 :: rest) := by
          rw [here]
          simp only [List.append_assoc,List.cons_append,List.nil_append]
        rw [← split] at same
        simp only [List.length_append,List.length_cons,List.length_nil] at same ⊢
        rw [if_pos there,show sign.length + whole.length + 1 = sign.length + (whole.length + (0 + 1)) by omega,same]
        exact ⟨by omega,by congr 1; omega⟩
    · rw [Nat.min_eq_right (by omega)] at isI
      have far := le_digits_end (left b) 256
      refine ⟨PEEK_OVERFLOW,by rw [peek_text,peek_list,if_pos (by omega)],?_⟩
      rw [if_neg (by decide),isI]
      exact ⟨Nat.le_refl _,by omega⟩
  have last : exponent peek_text (min (sign ++ (whole ++ fraction)).length 256) b =
      .ok (min (sign ++ (whole ++ fraction)).length 256) b := by
    rw [exponent]
    by_cases inside : (sign ++ (whole ++ fraction)).length < 256
    · rw [Nat.min_eq_left (by omega),bind_ok (peek_text_eq inside),here,
        show glance (sign ++ (whole ++ fraction) ++ 10 :: rest) (sign ++ (whole ++ fraction)).length = _ from
          glance_append_right 0,glance_cons,if_neg (by decide)]
      rfl
    · have look : peek_text 256 b = .ok PEEK_OVERFLOW b := by rw [peek_text,peek_list,if_pos (by omega)]
      rw [Nat.min_eq_right (by omega),bind_ok look,if_neg (by decide)]
      rfl
  obtain ⟨d,look,fits,same⟩ := point
  have two := digits_cap (b := b) true fits
  rw [same,Bool.true_or] at two
  rw [number,← start]
  refine (bind_ok one).trans ((bind_ok look).trans ((bind_ok two).trans ?_))
  exact bind_ok last

theorem numeral_plain {t : List Int8} (numeral : Numeral t) : ∀ c ∈ t, 0 < c.toInt := by
  obtain ⟨sign,whole,fraction,signed,_,digits,after,rfl⟩ := numeral
  intro c there
  rcases List.mem_append.mp there with there | there
  · rcases signed with rfl | rfl
    · cases there
    · rw [List.mem_singleton.mp there]
      decide
  rcases List.mem_append.mp there with there | there
  · exact isdigit_positive (digits c there)
  rcases after with rfl | ⟨frac,rfl,more⟩
  · cases there
  rcases List.mem_cons.mp there with rfl | there
  · decide
  · exact isdigit_positive (more c there)

theorem digit_no_word {c : Int} (digit : isdigit c = true) : ¬ (chr '_' = c ∨ isalpha c) := by
  obtain ⟨low,high⟩ := of_decide_eq_true digit
  rw [show chr '0' = 48 from rfl] at low
  rw [show chr '9' = 57 from rfl] at high
  rintro (is | alpha)
  · rw [show chr '_' = 95 from rfl] at is
    omega
  · rcases of_decide_eq_true alpha with ⟨le,_⟩ | ⟨le,_⟩
    · rw [show chr 'A' = 65 from rfl] at le
      omega
    · rw [show chr 'a' = 97 from rfl] at le
      omega

/-- A numeral begins like a number, and is not followed by an `x`. -/
theorem numeral_begins {t : List Int8} (numeral : Numeral t) (rest : List Int8) : ∃ c w, t = c :: w ∧ (chr '-' = c.toInt ∨ isdigit c.toInt = true) ∧
    (chr '0' = c.toInt → chr 'x' ≠ glance (t ++ 10 :: rest) 1) := by
  obtain ⟨sign,whole,fraction,signed,some_,digits,after,rfl⟩ := numeral
  obtain ⟨c,w,rfl⟩ := List.exists_cons_of_ne_nil some_
  rcases signed with rfl | rfl
  · refine ⟨c,w ++ fraction,rfl,.inr (digits c List.mem_cons_self),fun _ x => ?_⟩
    cases w with
    | nil => rcases after with rfl | ⟨frac,rfl,_⟩ <;> cases x
    | cons d w =>
      have digit := digits d (List.mem_cons_of_mem _ List.mem_cons_self)
      have is : chr 'x' = d.toInt := x
      rw [← is] at digit
      cases digit
  · exact ⟨45,_,rfl,.inl rfl,fun zero => absurd zero (by decide)⟩

theorem emits_number {t : List Int8} (numeral : Numeral t) (next : upcoming false text = t ++ 10 :: rest) :
    Emits text ⟨.number,some (t.take 256)⟩ (t.drop 256 ++ 10 :: rest) := by
  have plain := numeral_plain numeral
  obtain ⟨c,w,rfl,begins,noHex⟩ := numeral_begins numeral rest
  refine emits_of_token next (positive_plain (plain c List.mem_cons_self)).1 fun b here => ?_
  have first : glance (left b) 0 = c.toInt := by rw [here,glance_cons]
  have noWord : ¬ (chr '_' = c.toInt ∨ isalpha c.toInt) := by
    rcases begins with is | digit
    · rw [← is]
      decide
    · exact digit_no_word digit
  have noQuote : chr '"' ≠ c.toInt := by
    intro is
    rw [← is] at begins
    exact absurd begins (by decide)
  have number_ : Lexing.token peek_text c.toInt b = number peek_text (glance (left b) 0) b := by
    rw [Lexing.token,if_neg noWord,if_neg noQuote,first]
    split
    · rename_i zero
      have look : peek_text 1 b = .ok (glance (c :: w ++ 10 :: rest) 1) b := by
        rw [peek_text_eq (by decide),here]
        rfl
      rw [bind_ok look,if_neg (noHex zero)]
    · rfl
  have split : left b = (c :: w).take 256 ++ ((c :: w).drop 256 ++ 10 :: rest) := by
    rw [here,← List.append_assoc,List.take_append_drop]
    rfl
  have count : ((c :: w).take 256).length = min (c :: w).length 256 := by
    rw [List.length_take,Nat.min_comm]
  rw [number_,number_run numeral here,← count]
  exact extracted_run split fun d there => positive_plain (plain d (List.mem_of_mem_take there))

/-! ### Literals -/

/-- Where a literal ends that is not cut off by the end of the source: at the first
    quote, or after 256 characters. -/
def Ending (more : List Int8) (l : Nat) : Prop := l ≤ 256 ∧ Body more l ∧ (l < 256 → glance more l = chr '"')

theorem literal_loop_run {l : Nat} (ending : Ending (left b) l) : literal_loop peek_text 256 0 b = .ok (some l) b := by
  obtain ⟨most,body,quote⟩ := ending
  obtain ⟨r,run,ends⟩ := literal_loop_text (b := b) (n := 256) rfl body_none
  rw [run]
  cases r with
  | none =>
    obtain ⟨k,less,before,eof⟩ := ends
    by_cases behind : k < l
    · exact absurd eof (body k behind).1
    by_cases same : k = l
    · rw [same,quote (by omega)] at eof
      exact absurd eof (by decide)
    · exact absurd (quote (by omega)) (before l (by omega)).2
  | some l' =>
    obtain ⟨most',body',quote'⟩ := ends
    obtain rfl : l' = l := by
      rcases Nat.lt_trichotomy l' l with less | same | less
      · exact absurd (quote' (by omega)) (body l' less).2
      · exact same
      · exact absurd (quote (by omega)) (body' l less).2
    rfl

theorem body_inside {l : Nat} (body : Body more l) : l ≤ more.length := by
  by_contra past
  have := (body more.length (by omega)).1
  rw [glance,List.getElem?_eq_none (Nat.le_refl _)] at this
  exact this rfl

theorem body_mem {l : Nat} (body : Body more l) : ∀ c ∈ more.take l, c ≠ -1 ∧ c ≠ 34 := by
  intro c there
  obtain ⟨k,less,rfl⟩ := List.mem_iff_getElem.mp there
  rw [List.length_take] at less
  rw [List.getElem_take]
  have apart := body k (by omega)
  rw [glance_there (show k < more.length by omega)] at apart
  exact ⟨fun is => apart.1 (congrArg Int8.toInt is),fun is => apart.2 (congrArg Int8.toInt is)⟩

/-- What is left after the quote at the end of a literal. -/
theorem consume_quote {l : Nat} (here : left b = more.drop l) : ∃ b', consume 1 b = .ok () b' ∧ Later b (more.drop (l + 1)) b' := by
  refine ⟨_,rfl,rfl,?_⟩
  simp only [left] at here ⊢
  rw [← List.drop_drop,here,List.drop_drop]

theorem emits_literal {l : Nat} (next : upcoming false text = 34 :: more) (ending : Ending more l)
    (plain : ∀ c ∈ more.take l, c ≠ -2) : Emits text ⟨.literal,some (more.take l)⟩ (more.drop (l + 1)) := by
  refine emits_of_token next (by decide) fun b here => ?_
  obtain ⟨b₁,passed,input₁,left₁⟩ := consume_text here
  have loop := literal_loop_run (b := b₁) (by rw [left₁]; exact ending)
  have split : left b₁ = more.take l ++ more.drop l := by rw [left₁,List.take_append_drop]
  obtain ⟨b₂,taken,input₂,left₂⟩ := extract_run split fun c there => ⟨(body_mem ending.2.1 c there).1,plain c there⟩
  obtain ⟨b',closed,input',left'⟩ := consume_quote left₂
  rw [List.length_take,Nat.min_eq_left (body_inside ending.2.1)] at taken
  refine ⟨b',?_,(input'.trans input₂).trans (input₁),left'⟩
  rw [show (34 : Int8).toInt = chr '"' from rfl,token_quote,literal,bind_ok passed,bind_ok loop]
  exact (bind_ok taken).trans (bind_ok closed)

/-- A literal that is got is one that ends before the source does, without 0xfe. -/
theorem literal_ending (next : upcoming false (left b) = 34 :: more) (enough : (left b).length < fuel)
    (run : lexer_token_get peek_text fuel b = .ok (true,token) b') :
    ∃ l, Ending more l ∧ ∀ c ∈ more.take l, c ≠ -2 := by
  obtain ⟨b₁,⟨_,left₁⟩,starts⟩ := next_token enough next (by decide)
  obtain ⟨b₂,passed,_,left₂⟩ := consume_text left₁
  obtain ⟨r,loop,ends⟩ := literal_loop_text (b := b₂) (n := 256) rfl body_none
  rw [starts,show (34 : Int8).toInt = chr '"' from rfl,token_quote,literal,bind_ok passed,bind_ok loop] at run
  rw [left₂] at ends
  cases r with
  | none => cases run
  | some l =>
    obtain ⟨str,b₃,taken,_⟩ := bind_eq_ok_iff.mp run
    refine ⟨l,ends,?_⟩
    have none_ := (extract_plain (b := b₂) (by
      rw [left₂]
      exact fun k less => (ends.2.1 k less).1)).mp ⟨str,b₃,taken⟩
    intro c there
    obtain ⟨k,less,rfl⟩ := List.mem_iff_getElem.mp there
    rw [List.length_take] at less
    rw [List.getElem_take]
    have apart := none_ k (by omega)
    rw [left₂,glance_there (show k < more.length by omega)] at apart
    exact fun is => apart (congrArg Int8.toInt is)

/-! ### How tokens begin -/

/-- A token other than a literal has the character that it begins with. -/
theorem token_begins (next : upcoming false (left b) = c :: more) (positive : 0 < c.toInt) (noQuote : chr '"' ≠ c.toInt)
    (enough : (left b).length < fuel) {type : LexerType} {str : List Int8}
    (run : lexer_token_get peek_text fuel b = .ok (true,⟨type,some str⟩) b') : (str.headD 0).toInt = c.toInt := by
  obtain ⟨b₁,⟨_,left₁⟩,starts⟩ := next_token enough next (positive_plain positive).1
  have first : glance (left b₁) 0 = c.toInt := by rw [left₁,glance_cons]
  have taken : ∀ {len : Nat} {type' : LexerType}, 0 < len →
      (extract peek_text len >>= fun str => pure (true,(⟨type',some str⟩ : LexerToken))) b₁ = .ok (true,⟨type,some str⟩) b' →
      (str.headD 0).toInt = c.toInt := by
    intro len type' some_ run
    obtain ⟨len,rfl⟩ : ∃ k, len = k + 1 := ⟨len - 1,by omega⟩
    obtain ⟨str',b₂,run',last⟩ := bind_eq_ok_iff.mp run
    cases last
    rw [← first]
    exact extract_first (by rw [first]; exact positive) run'
  have number_ : number peek_text c.toInt b₁ = .ok (true,⟨type,some str⟩) b' → (str.headD 0).toInt = c.toInt := by
    intro run
    obtain ⟨_,i,some_,_,_,is⟩ := number_text (b := b₁) _ first.symm
    rw [is] at run
    exact taken some_ run
  rw [starts,Lexing.token,if_neg noQuote] at run
  split at run
  · obtain ⟨len,span,le,_⟩ := span_loop_text (b := b₁) word_positive (show 255 + 1 = 256 from rfl)
    rw [alnum,bind_ok span] at run
    exact taken (by omega) run
  split at run
  · rw [bind_ok (peek_text_eq (by decide))] at run
    split at run
    · rw [hex,bind_ok (peek_text_eq (by decide))] at run
      split at run
      · cases run
      · obtain ⟨len,span,le,_⟩ := span_loop_text (b := b₁) isxdigit_positive (show 253 + 3 = 256 from rfl)
        rw [bind_ok span] at run
        exact taken (by omega) run
    · exact number_ run
  · exact number_ run

/-- A call that finds a character returns a token or an error. -/
theorem token_or_error (next : upcoming false (left b) = c :: more) (noEof : c ≠ -1) (enough : (left b).length < fuel)
    (run : lexer_token_get peek_text fuel b = .ok (false,token) b') : token.type = .error := by
  obtain ⟨b₁,_,starts⟩ := next_token enough next noEof
  rw [starts] at run
  rcases token_found run with is | ⟨_,_,⟨⟩,_⟩
  cases is
  rfl

end

end Htools.Lexing
