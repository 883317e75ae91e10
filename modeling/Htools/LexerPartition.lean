import Htools.LexerNumbers

/-!
The tokens of a text take it apart. Between two of them are blanks, newlines and
comments, and each one is the text that it stands for: identifiers and hex numbers as
far as they go, and the longest number (`tokens_cut`).
-/
namespace Htools.Lexing
open Htools.Simulation

/-- Blanks, newlines and comments, and what follows them. -/
inductive Gap : List Int8 → List Int8 → Prop where
  | none {rest : List Int8} : Gap [] rest
  | blank {c : Int8} {gap rest : List Int8} (blank : c = 32 ∨ c = 9 ∨ c = 10) (more : Gap gap rest) : Gap (c :: gap) rest
  | comment {body gap rest : List Int8} (one_line : ∀ c ∈ body, c ≠ 10)
      (ends : gap ++ rest = [] ∨ (gap ++ rest).head? = some 10) (more : Gap gap rest) : Gap (35 :: (body ++ gap)) rest

/-- A part of the text that is a token, and what follows it. -/
inductive Piece : List Int8 → LexerToken → List Int8 → Prop where
  | alnum {word rest : List Int8} (name : Identifier word)
      (maximal : ¬ (chr '_' = glance rest 0 ∨ isalnum (glance rest 0))) : Piece word ⟨.alnum,some word⟩ rest
  | literal {body rest : List Int8} (inside : ∀ c ∈ body, c ≠ 34) : Piece (34 :: (body ++ [34])) ⟨.literal,some body⟩ rest
  | hex {digits rest : List Int8} (some_ : digits ≠ []) (all : ∀ c ∈ digits, isxdigit c.toInt = true)
      (maximal : isxdigit (glance rest 0) = false) : Piece (48 :: 120 :: digits) ⟨.hex,some (48 :: 120 :: digits)⟩ rest
  | number {word rest : List Int8} (noHex : ¬ [48,120] <+: word ++ rest) (longest : Longest NumberForm (word ++ rest) word) :
      Piece word ⟨.number,some word⟩ rest
  | symbol {c : Int8} {rest : List Int8} (other : c ≠ 32 ∧ c ≠ 9 ∧ c ≠ 10 ∧ c ≠ 35 ∧ c ≠ 34)
      (noWord : ¬ (chr '_' = c.toInt ∨ isalpha c.toInt)) (noNumber : ∀ v, v <+: c :: rest → ¬ NumberForm v) :
      Piece [c] ⟨.symbol,some [c]⟩ rest

/-- A literal that the source ends in, or a hex number without digits. -/
inductive Broken : List Int8 → Prop where
  | literal {body : List Int8} (inside : ∀ c ∈ body, c ≠ 34) : Broken (34 :: body)
  | hex {rest : List Int8} (none_ : isxdigit (glance rest 0) = false) : Broken (48 :: 120 :: rest)

/-- The text is cut into these tokens up to the first error or the end. What is returned
    after that is left open. -/
inductive Cut : List Int8 → List (Bool × LexerToken) → Prop where
  | none {text : List Int8} : Cut text []
  | eof {gap : List Int8} {ts : List (Bool × LexerToken)} (gap_ : Gap gap []) : Cut gap ((false,⟨.eof,.none⟩) :: ts)
  | error {gap rest : List Int8} {ts : List (Bool × LexerToken)} (gap_ : Gap gap rest) (broken : Broken rest) :
      Cut (gap ++ rest) ((false,⟨.error,.none⟩) :: ts)
  | token {gap word rest : List Int8} {token : LexerToken} {ts : List (Bool × LexerToken)} (gap_ : Gap gap (word ++ rest))
      (piece : Piece word token rest) (more : Cut rest ts) : Cut (gap ++ (word ++ rest)) ((true,token) :: ts)

section
variable {b : Lexer (List Int8)} {text more rest : List Int8} {c : Int8} {fuel : Nat}

/-- What is skipped is a gap. -/
theorem upcoming_gap : ∀ {text : List Int8}, (∀ c ∈ text, 0 < c.toInt) →
    (∃ gap, text = gap ++ upcoming false text ∧ Gap gap (upcoming false text)) ∧
      ∃ body gap, text = body ++ (gap ++ upcoming true text) ∧ (∀ c ∈ body, c ≠ 10) ∧
        (gap ++ upcoming true text = [] ∨ (gap ++ upcoming true text).head? = some 10) ∧ Gap gap (upcoming true text) := by
  intro text
  induction text with
  | nil => exact fun _ => ⟨⟨[],rfl,.none⟩,[],[],rfl,by simp,.inl rfl,.none⟩
  | cons c text ih =>
    intro seven
    obtain ⟨⟨gap,is,gap_⟩,body,gap',is',one_line,ends,gap_'⟩ := ih fun d there => seven d (List.mem_cons_of_mem c there)
    have positive := seven c List.mem_cons_self
    have newline_iff : chr '\n' = c.toInt ↔ c = 10 := chr_iff rfl
    have blank_iff : chr ' ' = c.toInt ∨ chr '\t' = c.toInt ↔ c = 32 ∨ c = 9 := or_congr (chr_iff rfl) (chr_iff rfl)
    have comment_iff : chr '#' = c.toInt ↔ c = 35 := chr_iff rfl
    by_cases newline : c = 10
    · have skips : ∀ comment, upcoming comment (c :: text) = upcoming false text := fun comment => by
        rw [upcoming,if_pos (newline_iff.mpr newline)]
      rw [skips,skips]
      refine ⟨⟨c :: gap,congrArg _ is,.blank (.inr (.inr newline)) gap_⟩,[],c :: gap,congrArg _ is,by simp,.inr ?_,
        .blank (.inr (.inr newline)) gap_⟩
      rw [newline]
      rfl
    · have within : upcoming true (c :: text) = upcoming true text := by
        rw [upcoming,if_neg (newline_iff.not.mpr newline),if_pos rfl,if_pos positive]
      have outside : upcoming false (c :: text) = if chr ' ' = c.toInt ∨ chr '\t' = c.toInt then upcoming false text
          else if chr '#' = c.toInt then upcoming true text else c :: text := by
        rw [upcoming,if_neg (newline_iff.not.mpr newline),if_neg Bool.false_ne_true]
      constructor
      · rw [outside]
        split
        · rename_i blank
          exact ⟨c :: gap,congrArg _ is,.blank ((blank_iff.mp blank).imp_right .inl) gap_⟩
        split
        · rename_i comment
          rw [comment_iff.mp comment]
          refine ⟨35 :: (body ++ gap'),?_,.comment one_line ends gap_'⟩
          rw [List.cons_append,List.append_assoc]
          exact congrArg _ is'
        · exact ⟨[],rfl,.none⟩
      · rw [within]
        refine ⟨c :: body,gap',congrArg _ is',?_,ends,gap_'⟩
        intro d there
        rcases List.mem_cons.mp there with rfl | there
        · exact newline
        · exact one_line d there

/-- A token does not begin with a character that is skipped. -/
theorem upcoming_begins : ∀ {text : List Int8} {comment : Bool}, (∀ c ∈ text, 0 < c.toInt) → upcoming comment text = c :: more →
    c ≠ 32 ∧ c ≠ 9 ∧ c ≠ 10 ∧ c ≠ 35 := by
  intro text
  induction text with
  | nil =>
    intro comment _ next
    cases next
  | cons d text ih =>
    intro comment seven next
    have later : ∀ e ∈ text, 0 < e.toInt := fun e there => seven e (List.mem_cons_of_mem d there)
    have positive := seven d List.mem_cons_self
    rw [upcoming] at next
    split at next
    · exact ih later next
    rename_i newline
    split at next
    · exact ih later (by simpa only [if_pos positive] using next)
    split at next
    · exact ih later next
    rename_i blank
    split at next
    · exact ih later next
    rename_i comment_
    cases next
    refine ⟨?_,?_,?_,?_⟩
    · exact fun is => blank (.inl ((chr_iff rfl).mpr is))
    · exact fun is => blank (.inr ((chr_iff rfl).mpr is))
    · exact fun is => newline ((chr_iff rfl).mpr is)
    · exact fun is => comment_ ((chr_iff rfl).mpr is)

/-! ### One token -/

/-- The longest prefix in a class, and what follows it. -/
theorem class_split (class_ : Int → Bool) (text : List Int8) :
    ∃ word rest, text = word ++ rest ∧ word = text.takeWhile (fun c => class_ c.toInt) ∧ (∀ c ∈ word, class_ c.toInt = true) ∧
      (rest = [] ∨ ∃ c more, rest = c :: more ∧ class_ c.toInt = false) := by
  refine ⟨_,text.dropWhile fun c => class_ c.toInt,List.takeWhile_append_dropWhile.symm,rfl,?_,?_⟩
  · intro c there
    exact List.mem_takeWhile_imp (p := fun c : Int8 => class_ c.toInt) there
  · cases rest : text.dropWhile fun c => class_ c.toInt with
    | nil => exact .inl rfl
    | cons c more =>
      have first := List.head_dropWhile_not (l := text) (fun c : Int8 => class_ c.toInt) (by rw [rest]; exact List.cons_ne_nil c more)
      simp only [rest,List.head_cons] at first
      exact .inr ⟨c,more,rfl,first⟩

/-- A class without the end of the source ends at the next character, or the end. -/
theorem class_stops (class_ : Int → Bool) (eof : class_ PEEK_EOF = false)
    (stops : rest = [] ∨ ∃ c more, rest = c :: more ∧ class_ c.toInt = false) : class_ (glance rest 0) = false := by
  rcases stops with rfl | ⟨c,more,rfl,other⟩
  · exact eof
  · exact other

theorem token_hex (here : left b = 48 :: 120 :: more) : Lexing.token peek_text (48 : Int8).toInt b = hex peek_text b := by
  have look : peek_text 1 b = .ok (120 : Int8).toInt b := by
    rw [peek_text_eq (by decide),here]
    rfl
  rw [Lexing.token,if_neg (by decide),if_neg (by decide),if_pos (by decide),bind_ok look]
  rfl

theorem emits_hex {digits : List Int8} (some_ : digits ≠ []) (all : ∀ c ∈ digits, isxdigit c.toInt = true)
    (stops : isxdigit (glance rest 0) = false) (most : digits.length ≤ 254)
    (next : upcoming false text = 48 :: 120 :: digits ++ rest) : Emits text ⟨.hex,some (48 :: 120 :: digits)⟩ rest := by
  refine emits_of_token next (by decide) fun b here => ?_
  obtain ⟨d,digits,rfl⟩ := List.exists_cons_of_ne_nil some_
  have look : peek_text 2 b = .ok d.toInt b := by
    rw [peek_text_eq (by decide),here]
    rfl
  have start : left b = [48,120] ++ (d :: digits ++ rest) := here
  have span := span_loop_run isxdigit start all stops (show 253 + 3 = 256 from rfl) (by decide)
    (Nat.succ_le_succ (Nat.succ_le_succ (Nat.succ_le_succ (Nat.zero_le digits.length))))
    (Nat.succ_le_succ (Nat.succ_le_succ most))
  have plain : ∀ c ∈ 48 :: 120 :: d :: digits, c ≠ -1 ∧ c ≠ -2 := by
    intro c there
    rcases List.mem_cons.mp there with rfl | there
    · decide
    rcases List.mem_cons.mp there with rfl | there
    · decide
    · exact positive_plain (isxdigit_positive (all c there))
  rw [token_hex here,hex,bind_ok look,if_neg (not_not.mpr (all d List.mem_cons_self)),bind_ok span]
  exact extracted_run (w := 48 :: 120 :: d :: digits) here plain

/-- What a call that is right for its text returns and leaves, for those that come after it. -/
def Cuts (b : Lexer (List Int8)) (fuel : Nat) : Prop :=
  ∃ r b', lexer_token_get peek_text fuel b = .ok r b' ∧ (r.1 = true → b'.input = b.input) ∧
    ∀ ts, (r.1 = true → Cut (left b') ts) → Cut (left b) (r :: ts)

theorem cuts_token {gap word : List Int8} {token : LexerToken} (enough : (left b).length < fuel)
    (whole : left b = gap ++ (word ++ rest)) (gap_ : Gap gap (word ++ rest)) (piece : Piece word token rest)
    (emits : Emits (left b) token rest) : Cuts b fuel := by
  obtain ⟨b',run,input,left'⟩ := emits b fuel rfl enough
  refine ⟨_,b',run,fun _ => input,fun ts more => ?_⟩
  rw [whole]
  exact .token gap_ piece (left' ▸ more rfl)

theorem cuts_error {gap : List Int8} {b' : Lexer (List Int8)} (whole : left b = gap ++ rest) (gap_ : Gap gap rest)
    (broken : Broken rest) (run : lexer_token_get peek_text fuel b = .ok (false,⟨.error,none⟩) b') : Cuts b fuel := by
  refine ⟨_,b',run,fun ended => absurd ended (by decide),fun ts _ => ?_⟩
  rw [whole]
  exact .error gap_ broken

/-- A number or a symbol. -/
theorem cuts_number {gap : List Int8} (enough : (left b).length < fuel) (next : upcoming false (left b) = c :: more)
    (positive : ∀ d ∈ c :: more, 0 < d.toInt) (whole : left b = gap ++ (c :: more)) (gap_ : Gap gap (c :: more))
    (begins : c ≠ 32 ∧ c ≠ 9 ∧ c ≠ 10 ∧ c ≠ 35) (noWord : ¬ (chr '_' = c.toInt ∨ isalpha c.toInt)) (noQuote : chr '"' ≠ c.toInt)
    (noHex : ¬ (chr '0' = c.toInt ∧ chr 'x' = glance (c :: more) 1)) (small : ∀ n, number_end (c :: more) = some n → n ≤ 250) :
    Cuts b fuel := by
  have plain := fun d there => positive_plain (positive d there)
  have noEof := (plain c List.mem_cons_self).1
  have longest := number_end_longest (c :: more)
  have noHex' : ¬ [48,120] <+: c :: more := by
    rintro ⟨rest,rest_⟩
    cases rest_
    exact noHex ⟨rfl,rfl⟩
  cases is : number_end (c :: more) with
  | some n =>
    rw [is] at longest
    obtain ⟨fits,longest⟩ := longest
    have split : c :: more = (c :: more).take n ++ (c :: more).drop n := (List.take_append_drop n _).symm
    have count : ((c :: more).take n).length = n := by rw [List.length_take,Nat.min_eq_left fits]
    refine cuts_token enough (whole.trans (congrArg _ split)) (split ▸ gap_) (.number ?_ (split ▸ longest)) ?_
    · rw [← split]
      exact noHex'
    · refine emits_of_token next noEof fun b₁ here => ?_
      have taken := @extracted_run b₁ _ _ .number (here.trans split) fun d there => plain d (List.mem_of_mem_take there)
      rw [count] at taken
      rw [token_number here noWord noQuote noHex,number_to_end peek_text_sees (by rw [here]; exact small),here,is]
      exact taken
  | none =>
    rw [is] at longest
    refine cuts_token enough whole gap_ (.symbol ?_ noWord longest) ?_
    · obtain ⟨a₁,a₂,a₃,a₄⟩ := begins
      exact ⟨a₁,a₂,a₃,a₄,fun quote => noQuote ((chr_iff rfl).mpr quote)⟩
    · refine emits_of_token next noEof fun b₁ here => ?_
      rw [token_number here noWord noQuote noHex,number_to_end peek_text_sees (by rw [here]; exact small),here,is]
      exact extracted_run (w := [c]) here fun d there => plain d (List.mem_singleton.mp there ▸ List.mem_cons_self)

/-- A quote begins a literal, or is an error. -/
theorem cuts_quote {gap : List Int8} (enough : (left b).length < fuel) (next : upcoming false (left b) = 34 :: more)
    (positive : ∀ d ∈ more, 0 < d.toInt) (whole : left b = gap ++ (34 :: more)) (gap_ : Gap gap (34 :: more))
    (small : (more.takeWhile fun c => chr '"' ≠ c.toInt).length ≤ 250) : Cuts b fuel := by
  obtain ⟨body,rest,split,is,inside,stops⟩ := class_split (fun c => chr '"' ≠ c) more
  rw [← is] at small
  have noQuote : ∀ c ∈ body, c ≠ 34 := fun c there quote => of_decide_eq_true (inside c there) ((chr_iff rfl).mpr quote)
  have within : Body more body.length := by
    intro k less
    rw [split,glance_append_left less]
    have there := List.getElem_mem less
    have some_ := positive body[k] (split ▸ List.mem_append_left rest there)
    refine ⟨?_,Ne.symm (of_decide_eq_true (inside _ there))⟩
    rw [PEEK_EOF]
    omega
  rcases stops with rfl | ⟨c,rest,rfl,quote⟩
  · rw [List.append_nil] at split
    obtain ⟨b₁,⟨_,left₁⟩,starts⟩ := next_token enough next (by decide)
    obtain ⟨b₂,passed,_,left₂⟩ := consume_text left₁
    obtain ⟨r,loop,ends⟩ := literal_loop_text (b := b₂) (n := 256) rfl body_none
    rw [left₂] at ends
    -- The loop does not come upon a quote.
    have none_ : r = none := by
      cases r with
      | none => rfl
      | some l =>
        obtain ⟨_,body_,last⟩ := ends
        have le := body_inside body_
        rw [split] at le last
        have last := last (by omega)
        by_cases inner : l < body.length
        · rw [glance_there inner] at last
          exact absurd last.symm (of_decide_eq_true (inside _ (List.getElem_mem inner)))
        · rw [glance,List.getElem?_eq_none (by omega)] at last
          exact absurd last (by decide)
    rw [none_] at loop
    have run : lexer_token_get peek_text fuel b = .ok (false,⟨.error,none⟩) { b₂ with error := .unterminated_literal } := by
      rw [starts,show (34 : Int8).toInt = chr '"' from rfl,token_quote,literal,bind_ok passed,bind_ok loop]
      rfl
    exact cuts_error whole gap_ (.literal (split ▸ noQuote)) run
  · have is_quote : c = 34 := (chr_iff rfl).mp (not_not.mp (of_decide_eq_false quote))
    rw [is_quote] at split
    have ending : Ending more body.length := by
      refine ⟨by omega,within,fun _ => ?_⟩
      rw [split]
      exact glance_append_right 0
    have front : more.take body.length = body := by rw [split,List.take_left]
    have back : more.drop (body.length + 1) = rest := by rw [split,← List.drop_drop,List.drop_left]; rfl
    have emits := emits_literal next ending fun c there => (positive_plain (positive c (List.mem_of_mem_take there))).2
    rw [front,back] at emits
    have parts : 34 :: more = 34 :: (body ++ [34]) ++ rest := by
      rw [split]
      simp
    exact cuts_token enough (whole.trans (congrArg _ parts)) (parts ▸ gap_) (.literal noQuote) emits

/-- A letter or an underscore begins an identifier. -/
theorem cuts_word {gap : List Int8} (enough : (left b).length < fuel) (next : upcoming false (left b) = c :: more)
    (whole : left b = gap ++ (c :: more)) (gap_ : Gap gap (c :: more)) (letter : chr '_' = c.toInt ∨ isalpha c.toInt)
    (small : ((c :: more).takeWhile fun c => chr '_' = c.toInt ∨ isalnum c.toInt).length ≤ 250) : Cuts b fuel := by
  obtain ⟨word,rest,split,is,inside,stops⟩ := class_split (fun c => chr '_' = c ∨ isalnum c) (c :: more)
  rw [← is] at small
  have maximal := of_decide_eq_false (class_stops (fun c => chr '_' = c ∨ isalnum c) (by decide) stops)
  have all : ∀ d ∈ word, chr '_' = d.toInt ∨ isalnum d.toInt := fun d there => of_decide_eq_true (inside d there)
  have name : Identifier word := by
    refine ⟨?_,all⟩
    rw [is,List.takeWhile_cons_of_pos (p := fun c : Int8 => decide (chr '_' = c.toInt ∨ isalnum c.toInt))
      (decide_eq_true (letter_word letter))]
    exact letter
  exact cuts_token enough (whole.trans (congrArg _ split)) (split ▸ gap_) (.alnum name maximal)
    (emits_word name (by omega) (next.trans split) maximal)

/-- A hex number, or an error. -/
theorem cuts_hex {gap : List Int8} (enough : (left b).length < fuel) (next : upcoming false (left b) = 48 :: 120 :: more)
    (whole : left b = gap ++ (48 :: 120 :: more)) (gap_ : Gap gap (48 :: 120 :: more))
    (small : 2 + (more.takeWhile fun c => isxdigit c.toInt).length ≤ 250) : Cuts b fuel := by
  obtain ⟨digits,rest,split,is,inside,stops⟩ := class_split isxdigit more
  rw [← is] at small
  have maximal := class_stops isxdigit (by decide) stops
  by_cases some_ : digits = []
  · rw [some_,List.nil_append] at split
    rw [← split] at maximal
    obtain ⟨b₁,⟨_,left₁⟩,starts⟩ := next_token enough next (by decide)
    have look : peek_text 2 b₁ = .ok (glance more 0) b₁ := by
      rw [peek_text_eq (by decide),left₁]
      rfl
    obtain ⟨b',consumed⟩ : ∃ b', consume 2 { b₁ with error := .invalid_hex } = .ok () b' := ⟨_,rfl⟩
    have run : lexer_token_get peek_text fuel b = .ok (false,⟨.error,none⟩) b' := by
      rw [starts,token_hex left₁,hex,bind_ok look,if_pos (by rw [maximal]; decide)]
      exact (bind_ok rfl).trans (bind_ok consumed)
    exact cuts_error whole gap_ (.hex maximal) run
  · have parts : 48 :: 120 :: more = 48 :: 120 :: digits ++ rest := congrArg _ (congrArg _ split)
    exact cuts_token enough (whole.trans (congrArg _ parts)) (parts ▸ gap_) (.hex some_ inside maximal)
      (emits_hex some_ inside maximal (by omega) (next.trans parts))

/-- A call cuts off the gap before the next token, and the token. -/
theorem next_cuts (seven : ∀ c ∈ left b, 0 < c.toInt) (enough : (left b).length < fuel)
    (short : Short (upcoming false (left b))) : Cuts b fuel := by
  obtain ⟨gap,whole,gap_⟩ := (upcoming_gap seven).1
  cases next : upcoming false (left b) with
  | nil =>
    obtain ⟨b',run⟩ := next_eof enough next
    rw [next,List.append_nil] at whole
    rw [next] at gap_
    refine ⟨_,b',run,fun ended => absurd ended (by decide),fun ts _ => ?_⟩
    rw [whole]
    exact .eof gap_
  | cons c more =>
    rw [next] at whole gap_ short
    have positive : ∀ d ∈ c :: more, 0 < d.toInt := fun d there => seven d (whole ▸ List.mem_append_right gap there)
    have begins := upcoming_begins seven next
    rw [Short,glance_cons] at short
    by_cases letter : chr '_' = c.toInt ∨ isalpha c.toInt
    · rw [if_pos letter] at short
      exact cuts_word enough next whole gap_ letter short
    rw [if_neg letter] at short
    by_cases quote : chr '"' = c.toInt
    · rw [if_pos quote] at short
      obtain rfl : c = 34 := (chr_iff rfl).mp quote
      exact cuts_quote enough next (fun d there => positive d (List.mem_cons_of_mem _ there)) whole gap_ short
    rw [if_neg quote] at short
    by_cases hex_ : chr '0' = c.toInt ∧ chr 'x' = glance (c :: more) 1
    · rw [if_pos hex_] at short
      obtain rfl : c = 48 := (chr_iff rfl).mp hex_.1
      cases more with
      | nil => exact absurd hex_.2 (by decide)
      | cons d more =>
        obtain rfl : d = 120 := (chr_iff rfl).mp hex_.2
        exact cuts_hex enough next whole gap_ short
    rw [if_neg hex_] at short
    exact cuts_number enough next positive whole gap_ begins letter quote hex_ short

/-! ### All tokens -/

/-- The tokens of a text cut it. -/
theorem tokens_whole_cut {calls : Nat} : ∀ {b b' : Lexer (List Int8)} {ts : List (Bool × LexerToken)},
    (∀ c ∈ b.input, 0 < c.toInt) → b.input.length < fuel →
    (∀ n ts b', tokens peek_whole fuel n b = .ok ts b' → Short (upcoming false (left b'))) →
    tokens peek_whole fuel calls b = .ok ts b' → Cut (left b) ts := by
  induction calls with
  | zero =>
    intro b b' ts _ _ _ run
    cases run
    exact .none
  | succ calls ih =>
    intro b b' ts seven enough short run
    have few : (left b).length < fuel := by
      rw [left,List.length_drop]
      omega
    have first := short 0 [] b rfl
    obtain ⟨r,b₁,text,input,cut⟩ := next_cuts (fun c there => seven c (List.mem_of_mem_drop there)) few first
    rw [← lexer_token_get_same peek_whole_sees peek_text_sees few first] at text
    obtain ⟨_,b₂,run₁,run⟩ := bind_eq_ok_iff.mp run
    rw [text] at run₁
    cases run₁
    obtain ⟨ts',b₃,run',last⟩ := bind_eq_ok_iff.mp run
    cases last
    refine cut ts' fun more => ih (by rw [input more]; exact seven) (by rw [input more]; exact enough) (fun n ts b' later => ?_) run'
    exact short (n + 1) (r :: ts) b' ((bind_ok text).trans (bind_ok later))

theorem piece_some {word : List Int8} {token : LexerToken} (piece : Piece word token rest) : word ≠ [] := by
  cases piece with
  | alnum name _ =>
    rintro rfl
    exact absurd name.1 (by decide)
  | literal _ => exact List.cons_ne_nil _ _
  | hex _ _ _ => exact List.cons_ne_nil _ _
  | number _ longest =>
    rintro rfl
    obtain ⟨sign,mantissa,exponent,_,form,_,is⟩ := longest.2.1
    obtain ⟨c,more,rfl,_⟩ := mantissa_begins form
    have count := congrArg List.length is
    simp at count
  | symbol _ _ _ => exact List.cons_ne_nil _ _

/-- There are no more tokens than characters. -/
theorem cut_ends {ts : List (Bool × LexerToken)} (cut : Cut text ts) : (∀ r ∈ ts, r.1 = true) → ts.length ≤ text.length := by
  induction cut with
  | none => exact fun _ => Nat.zero_le _
  | eof _ => exact fun all => absurd (all _ List.mem_cons_self) (by decide)
  | error _ _ => exact fun all => absurd (all _ List.mem_cons_self) (by decide)
  | token _ piece _ ih =>
    intro all
    have some_ := List.length_pos_iff.mpr (piece_some piece)
    have fewer := ih fun r there => all r (List.mem_cons_of_mem _ there)
    simp only [List.length_cons,List.length_append]
    omega

/-- The lexer, with its ring buffer or on an array, cuts its source into tokens up to the
    first error or the end, and comes there after as many calls as there are characters
    and one more. -/
theorem tokens_cut {σ : Type} (reader : Reader σ) (stale : Nat → Nat → Int8) (data : σ) (extra calls : Nat)
    (seven : ∀ c ∈ reader.rest data, 0 < c.toInt)
    (short : ∀ n ts b, tokens peek_whole ((reader.rest data).length + 1 + extra) n (list_lexer (reader.rest data)) = .ok ts b →
      Short (upcoming false (left b))) :
    ∃ ts a b, ts.length = calls ∧
      tokens (peek_char reader.callback stale) ((reader.rest data).length + 1 + extra) calls (lexer_create data) = .ok ts a ∧
      tokens peek_whole ((reader.rest data).length + 1 + extra) calls (list_lexer (reader.rest data)) = .ok ts b ∧
      Cut (reader.rest data) ts ∧ ((reader.rest data).length < calls → ∃ r ∈ ts, r.1 = false) := by
  have enough : (reader.rest data).length < (reader.rest data).length + 1 + extra := by omega
  obtain ⟨ts,a,b,length,ring,array⟩ : ∃ ts a b, ts.length = calls ∧
      tokens (peek_char reader.callback stale) ((reader.rest data).length + 1 + extra) calls (lexer_create data) = .ok ts a ∧
      tokens peek_whole ((reader.rest data).length + 1 + extra) calls (list_lexer (reader.rest data)) = .ok ts b :=
    tokens_alike (gives_alike reader _ stale) peek_text_sees seven (fun shows_ => shows_.whole) enough
      (created_same reader data) short
  have cut := tokens_whole_cut (b := list_lexer (reader.rest data)) seven enough short array
  refine ⟨ts,a,b,length,ring,array,cut,fun many => ?_⟩
  by_contra none_
  have all : ∀ r ∈ ts, r.1 = true := fun r there => Bool.not_eq_false _ ▸ fun ended => none_ ⟨r,there,ended⟩
  have := cut_ends cut all
  simp only [left,list_lexer,List.drop_zero] at this
  omega

/-- A number with an incomplete exponent, and an identifier. -/
theorem tokens_cut_number : (∀ c ∈ [49,101,97], 0 < Int8.toInt c) ∧ ∃ ts a b, ts.length = 3 ∧
    tokens (peek_char stdio_fread fun _ _ => 0) 4 3 (lexer_create [49,101,97]) = .ok ts a ∧
    tokens peek_whole 4 3 (list_lexer [49,101,97]) = .ok ts b ∧ Cut [49,101,97] ts ∧ (3 < 3 → ∃ r ∈ ts, r.1 = false) :=
  ⟨by decide +kernel,tokens_cut file_reader (fun _ _ => 0) [49,101,97] 0 3 (by decide +kernel) fun _ _ _ run =>
    small_tokens (by decide) (by decide) run⟩

end

end Htools.Lexing
