import Htools.Lexing

/-!
The tokenizer on a text that is there as a whole. Between two tokens it skips blanks,
newlines and comments of the text that is left (`token_loop_text`). It ends a literal
because of its length exactly if the literal is `Overlong`, and every call returns
or fails the assertion of `extract` (`lexer_token_get_returns`).
-/
namespace Htools.Lexing
open Htools.Simulation

/-- A lexer for a text that is there as a whole. -/
def list_lexer (text : List Int8) : Lexer (List Int8) := ⟨.none,1,1,0,text⟩

section
variable {σ : Type} {F : Nat → σ → Prop} {Fine : σ → Prop} {source : List Int8} {part : Bool} {data : σ}

/-- A new lexer has shown nothing of its source. -/
theorem shows_nothing (fine : Fine data) (fed : F 0 data) : Shows F Fine source part 0 0 (lexer_create data).input source := by
  refine ⟨rfl,Nat.le_refl _,Nat.zero_le _,List.length_replicate,fine,fun _ _ => fed,Nat.zero_le _,?_,?_⟩
  · intro p _ before
    exact absurd before (Nat.not_lt_zero p)
  · intro ended
    cases ended

theorem created_shows (fine : Fine data) (fed : F 0 data) :
    Same (Shows F Fine source part) 0 (lexer_create data) (list_lexer source) :=
  ⟨rfl,rfl,rfl,rfl,shows_nothing fine fed⟩

end

/-- The text that is left. -/
def left (b : Lexer (List Int8)) : List Int8 := b.input.drop b.ofs

/-- The text from the next token on, within a comment or outside of one. -/
def upcoming (comment : Bool) : List Int8 → List Int8
  | [] => []
  | c :: rest =>
    if chr '\n' = c.toInt then upcoming false rest
    else if comment then if 0 < c.toInt then upcoming true rest else c :: rest
    else if chr ' ' = c.toInt ∨ chr '\t' = c.toInt then upcoming false rest
    else if chr '#' = c.toInt then upcoming true rest
    else c :: rest

/-- The character that `peek_text` gives. -/
def glance (text : List Int8) (k : Nat) : Int :=
  match text[k]? with
  | none => PEEK_EOF
  | some c => c.toInt

/-- The next token is a literal without a quote in the next 256 characters; the
    source has that many, and none of them is taken for another value of `peek_char`. -/
def Overlong (text : List Int8) : Prop :=
  ∃ quote more, upcoming false text = quote :: more ∧ chr '"' = quote.toInt ∧ ∀ k < 256,
    glance more k ≠ PEEK_EOF ∧ glance more k ≠ PEEK_OVERFLOW ∧ glance more k ≠ chr '"'

variable {b : Lexer (List Int8)}

/-- Negative characters and the null character end a comment, and are not skipped. -/
theorem upcoming_low {comment : Bool} {c : Int8} {rest : List Int8} (other : chr '\n' ≠ c.toInt) (low : c.toInt ≤ 0) :
    upcoming comment (c :: rest) = c :: rest := by
  have different : ∀ d, 0 < chr d → chr d ≠ c.toInt := by
    intro d positive is
    omega
  rw [upcoming,if_neg other]
  cases comment with
  | true => rw [if_pos rfl,if_neg (Int.not_lt.mpr low)]
  | false =>
    rw [if_neg Bool.false_ne_true,if_neg (not_or.mpr ⟨different ' ' (by decide),different '\t' (by decide)⟩),
      if_neg (different '#' (by decide))]

theorem peek_text_eq {k : Nat} (less : k < 256) : peek_text k b = .ok (glance (left b) k) b := by
  rw [peek_text,peek_list,if_neg (Nat.not_le_of_lt less),glance,left,List.getElem?_drop]
  cases b.input[b.ofs + k]? with
  | none => rfl
  | some c => rfl

/-- A way to look at a text that gives its next 256 characters. -/
def Sees (peek : Nat → LexerM (List Int8) Int) : Prop := ∀ k < 256, ∀ b, peek k b = .ok (glance (left b) k) b

theorem peek_text_sees : Sees peek_text := fun _ less _ => peek_text_eq less

/-- The lexer with less of the text left. -/
def Later (b : Lexer (List Int8)) (text : List Int8) (b' : Lexer (List Int8)) : Prop :=
  b'.input = b.input ∧ left b' = text

theorem consume_text {c : Int8} {rest : List Int8} (here : left b = c :: rest) :
    ∃ b', consume 1 b = .ok () b' ∧ Later b rest b' := by
  refine ⟨_,rfl,rfl,?_⟩
  simp only [left] at here ⊢
  rw [← List.drop_drop,here]
  rfl

theorem consume_newline_text {c : Int8} {rest : List Int8} (here : left b = c :: rest) :
    ∃ b', consume_newline b = .ok () b' ∧ Later b rest b' := by
  refine ⟨_,rfl,rfl,?_⟩
  simp only [left] at here ⊢
  rw [← List.drop_drop,here]
  rfl

theorem glance_nil {k : Nat} : glance [] k = PEEK_EOF := rfl

theorem glance_cons {c : Int8} {rest : List Int8} : glance (c :: rest) 0 = c.toInt := rfl

section
variable {ι : Type} (peek : Nat → LexerM ι Int)

/-- The part of the loop of `lexer_token_get` that comes before a token. -/
def gap_loop : Nat → LexerM ι Int
  | 0 => throw .fuel
  | fuel + 1 => do
    let c ← blanks peek (fuel + 1)
    if chr '\n' = c then do
      consume_newline
      gap_loop fuel
    else return c

theorem token_loop_gap (fuel : Nat) : token_loop peek fuel =
    gap_loop peek fuel >>= fun c => if PEEK_EOF = c then pure (false,⟨.eof,none⟩) else token peek c := by
  induction fuel with
  | zero => rfl
  | succ fuel ih =>
    rw [token_loop,gap_loop,bind_assoc]
    refine congrArg _ (funext fun c => ?_)
    by_cases newline : chr '\n' = c
    · have noEof : PEEK_EOF ≠ c := by
        rw [← newline]
        decide
      rw [if_neg noEof,if_pos newline,if_pos newline,bind_assoc,ih]
    · rw [if_neg newline,if_neg newline,pure_bind]

variable {peek} in
/-- A call forgets the error of the last one. -/
theorem token_get_cleared {fuel : Nat} {a : Lexer ι} :
    lexer_token_get peek fuel a = token_loop peek fuel { a with error := .none } := rfl

end

section
variable {peek : Nat → LexerM (List Int8) Int} (sees : Sees peek)

include sees

/-- Blanks are skipped. -/
theorem blank_loop_text {fuel : Nat} : ∀ {b}, (left b).length < fuel → ∃ b', Later b (left b') b' ∧
    blank_loop peek fuel b = .ok (glance (left b') 0) b' ∧ (left b').length ≤ (left b).length ∧
    upcoming false (left b') = upcoming false (left b) ∧
    chr ' ' ≠ glance (left b') 0 ∧ chr '\t' ≠ glance (left b') 0 := by
  induction fuel with
  | zero => intro b enough; omega
  | succ fuel ih =>
    intro b enough
    rw [blank_loop,bind_ok (sees 0 (by decide) b)]
    by_cases stop : chr ' ' ≠ glance (left b) 0 ∧ chr '\t' ≠ glance (left b) 0
    · rw [if_pos stop]
      exact ⟨b,⟨rfl,rfl⟩,rfl,Nat.le_refl _,rfl,stop⟩
    · rw [if_neg stop]
      cases here : left b with
      | nil =>
        rw [here] at stop
        exact absurd ⟨by decide,by decide⟩ stop
      | cons c rest =>
        rw [here,glance_cons] at stop
        rw [here,List.length_cons] at enough
        obtain ⟨b₁,passed,input,left₁⟩ := consume_text here
        obtain ⟨b',⟨input',_⟩,run,length,same,last⟩ := ih (b := b₁) (by rw [left₁]; omega)
        rw [left₁] at length same
        refine ⟨b',⟨input'.trans input,rfl⟩,?_,by rw [List.length_cons]; omega,?_,last⟩
        · rw [bind_ok passed,run]
        · rw [same,upcoming]
          have blank : chr ' ' = c.toInt ∨ chr '\t' = c.toInt := by
            rw [not_and_or,not_not,not_not] at stop
            exact stop
          have other : chr '\n' ≠ c.toInt := by
            obtain is | is := blank <;> rw [← is] <;> decide
          rw [if_neg other,if_neg Bool.false_ne_true,if_pos blank]

/-- A comment is skipped up to its end. -/
theorem comment_loop_text {fuel : Nat} : ∀ {b} {c : Int8} {rest : List Int8}, left b = c :: rest → rest.length < fuel →
    ∃ b', Later b (left b') b' ∧ comment_loop peek fuel b = .ok (glance (left b') 0) b' ∧
      (left b').length ≤ rest.length ∧ upcoming false (left b') = upcoming true rest ∧
      (chr '\n' = glance (left b') 0 ∨ glance (left b') 0 ≤ 0) := by
  induction fuel with
  | zero => intro b c rest _ enough; omega
  | succ fuel ih =>
    intro b c rest here enough
    obtain ⟨b₁,passed,input,left₁⟩ := consume_text here
    rw [comment_loop,bind_ok passed,bind_ok (sees 0 (by decide) b₁)]
    by_cases stop : 0 < glance (left b₁) 0 ∧ chr '\n' ≠ glance (left b₁) 0
    · rw [if_pos stop]
      cases here₁ : left b₁ with
      | nil =>
        rw [here₁] at stop
        exact absurd stop.1 (by decide)
      | cons d more =>
        rw [here₁,glance_cons] at stop
        have split_ := left₁.symm.trans here₁
        rw [split_,List.length_cons] at enough
        obtain ⟨b',⟨input',_⟩,run,length,same,last⟩ := ih here₁ (by omega)
        refine ⟨b',⟨input'.trans input,rfl⟩,run,by rw [split_,List.length_cons]; omega,?_,last⟩
        rw [same,split_,upcoming,if_neg stop.2,if_pos rfl,if_pos stop.1]
    · rw [if_neg stop]
      refine ⟨b₁,⟨input,rfl⟩,rfl,by rw [left₁],?_,?_⟩
      · cases here₁ : left b₁ with
        | nil =>
          rw [← left₁,here₁]
          rfl
        | cons d more =>
          rw [← left₁,here₁]
          rw [here₁,glance_cons] at stop
          by_cases newline : chr '\n' = d.toInt
          · rw [upcoming,upcoming,if_pos newline,if_pos newline]
          · have low : d.toInt ≤ 0 := by
              by_contra positive
              exact stop ⟨by omega,newline⟩
            rw [upcoming_low newline low,upcoming_low newline low]
      · rw [not_and_or,not_not] at stop
        obtain low | is := stop
        · exact .inr (by omega)
        · exact .inl is

/-- Without a newline in sight, what follows blanks and a comment is the next token. -/
theorem blanks_text {fuel : Nat} (enough : (left b).length < fuel) : ∃ b', Later b (left b') b' ∧
    blanks peek fuel b = .ok (glance (left b') 0) b' ∧ (left b').length ≤ (left b).length ∧
    upcoming false (left b') = upcoming false (left b) ∧
    (chr '\n' ≠ glance (left b') 0 → upcoming false (left b') = left b') := by
  obtain ⟨b₁,⟨input₁,_⟩,run₁,length₁,same₁,noSpace,noTab⟩ := blank_loop_text sees enough
  rw [blanks,bind_ok run₁]
  by_cases comment : chr '#' = glance (left b₁) 0
  · rw [if_pos comment]
    cases here : left b₁ with
    | nil =>
      rw [here] at comment
      exact absurd comment (by decide)
    | cons c rest =>
      rw [here,glance_cons] at comment
      rw [here,List.length_cons] at length₁
      obtain ⟨b',⟨input',_⟩,run,length,same,last⟩ := comment_loop_text sees here (show rest.length < fuel by omega)
      refine ⟨b',⟨input'.trans input₁,rfl⟩,run,by omega,?_,?_⟩
      · rw [same,← same₁,here,upcoming,if_neg,if_neg Bool.false_ne_true,if_neg,if_pos comment]
        · rintro (is | is) <;> rw [← is] at comment <;> exact absurd comment (by decide)
        · intro is
          rw [← is] at comment
          exact absurd comment (by decide)
      · intro noNewline
        have low := last.resolve_left noNewline
        cases here' : left b' with
        | nil => rfl
        | cons d more =>
          rw [here',glance_cons] at low noNewline
          exact upcoming_low noNewline low
  · rw [if_neg comment]
    refine ⟨b₁,⟨input₁,rfl⟩,rfl,length₁,same₁,?_⟩
    intro noNewline
    cases here : left b₁ with
    | nil => rfl
    | cons c rest =>
      rw [here,glance_cons] at noNewline comment noSpace noTab
      rw [upcoming,if_neg noNewline,if_neg Bool.false_ne_true,if_neg (not_or.mpr ⟨noSpace,noTab⟩),if_neg comment]

/-- Before a token, the lexer comes to its first character. -/
theorem gap_loop_text {fuel : Nat} : ∀ {b}, (left b).length < fuel → ∃ b', Later b (upcoming false (left b)) b' ∧
    gap_loop peek fuel b = .ok (glance (left b') 0) b' := by
  induction fuel with
  | zero => intro b enough; omega
  | succ fuel ih =>
    intro b enough
    obtain ⟨b₁,⟨input₁,_⟩,run₁,length₁,same₁,next⟩ := blanks_text sees enough
    rw [gap_loop,bind_ok run₁]
    by_cases newline : chr '\n' = glance (left b₁) 0
    · rw [if_pos newline]
      cases here : left b₁ with
      | nil =>
        rw [here] at newline
        exact absurd newline (by decide)
      | cons c rest =>
        rw [here,glance_cons] at newline
        rw [here,List.length_cons] at length₁
        obtain ⟨b₂,passed,input₂,left₂⟩ := consume_newline_text here
        obtain ⟨b',⟨input',left'⟩,run⟩ := ih (b := b₂) (by rw [left₂]; omega)
        refine ⟨b',⟨(input'.trans input₂).trans input₁,?_⟩,by rw [bind_ok passed,run]⟩
        rw [left',left₂,← same₁,here,upcoming,if_pos newline]
    · refine ⟨b₁,⟨input₁,(next newline).symm.trans same₁⟩,?_⟩
      rw [if_neg newline]
      rfl

/-- The lexer comes to the next token. -/
theorem token_loop_text {fuel : Nat} (enough : (left b).length < fuel) : ∃ b', Later b (upcoming false (left b)) b' ∧
    token_loop peek fuel b = if PEEK_EOF = glance (left b') 0 then .ok (false,⟨.eof,none⟩) b'
      else token peek (glance (left b') 0) b' := by
  obtain ⟨b',later,run⟩ := gap_loop_text sees enough
  refine ⟨b',later,?_⟩
  rw [token_loop_gap,bind_ok run]
  split <;> rfl

end

/-! ### Literals -/

/-- The first `k` characters are in the source and none of them is a quote. -/
def Body (text : List Int8) (k : Nat) : Prop := ∀ j < k, glance text j ≠ PEEK_EOF ∧ glance text j ≠ chr '"'

/-- Where the loop over a literal ends: at the end of the source, at a quote, or
    because of its length. -/
theorem literal_loop_text {n : Nat} : ∀ {len}, n + len = 256 → Body (left b) len →
    ∃ r, literal_loop peek_text n len b = .ok r b ∧
      match r with
      | none => ∃ k < 256, Body (left b) k ∧ glance (left b) k = PEEK_EOF
      | some l => l ≤ 256 ∧ Body (left b) l ∧ (l < 256 → glance (left b) l = chr '"') := by
  induction n with
  | zero =>
    intro len sum body
    rw [Nat.zero_add] at sum
    exact ⟨some len,rfl,Nat.le_of_eq sum,body,fun less => absurd sum (Nat.ne_of_lt less)⟩
  | succ n ih =>
    intro len sum body
    have less : len < 256 := by omega
    rw [literal_loop,bind_ok (peek_text_eq less)]
    by_cases eof : PEEK_EOF = glance (left b) len
    · rw [if_pos eof]
      exact ⟨none,rfl,len,less,body,eof.symm⟩
    rw [if_neg eof]
    by_cases quote : chr '"' = glance (left b) len
    · rw [if_pos quote]
      exact ⟨some len,rfl,Nat.le_of_lt less,body,fun _ => quote.symm⟩
    rw [if_neg quote]
    refine ih (by omega) fun j before => ?_
    obtain rfl | more := Nat.eq_or_lt_of_le (Nat.le_of_lt_succ before)
    · exact ⟨Ne.symm eof,Ne.symm quote⟩
    · exact body j more

theorem body_none {text : List Int8} : Body text 0 := fun j less => absurd less (Nat.not_lt_zero j)

theorem consume_char_text {c d : Int8} {rest : List Int8} (here : left b = c :: rest) :
    ∃ b', consume_char d.toInt b = .ok () b' ∧ Later b rest b' := by
  by_cases newline : chr '\n' = d.toInt
  · rw [consume_char,if_pos newline]
    exact consume_newline_text here
  · rw [consume_char,if_neg newline]
    exact consume_text here

/-- `extract` takes as many characters as it is told to, unless the source or a
    character that looks like an error is in its way. -/
theorem extract_text {len : Nat} : ∀ {b}, (∃ str b', extract peek_text len b = .ok str b' ∧ str.length = len) ↔
    ∀ k < len, glance (left b) k ≠ PEEK_EOF ∧ glance (left b) k ≠ PEEK_OVERFLOW := by
  induction len with
  | zero => exact fun {b} => iff_of_true ⟨[],b,rfl,rfl⟩ fun k less => absurd less (Nat.not_lt_zero k)
  | succ len ih =>
    intro b
    rw [extract,bind_ok (peek_text_eq (by decide))]
    by_cases overflow : PEEK_OVERFLOW = glance (left b) 0
    · rw [if_pos overflow]
      refine iff_of_false ?_ fun all => (all 0 (Nat.succ_pos _)).2 overflow.symm
      rintro ⟨_,_,⟨⟩,_⟩
    rw [if_neg overflow]
    by_cases eof : PEEK_EOF = glance (left b) 0
    · rw [if_pos eof]
      refine iff_of_false ?_ fun all => (all 0 (Nat.succ_pos _)).1 eof.symm
      rintro ⟨_,_,⟨⟩,length⟩
      exact absurd length (Nat.succ_ne_zero _).symm
    rw [if_neg eof]
    cases here : left b with
    | nil =>
      rw [here] at eof
      exact absurd rfl eof
    | cons c rest =>
      rw [here,glance_cons] at overflow eof
      rw [glance_cons]
      obtain ⟨b₁,passed,_,left₁⟩ := consume_char_text (d := c) here
      rw [bind_ok passed]
      have later := ih (b := b₁)
      rw [left₁] at later
      constructor
      · rintro ⟨str,b',run,length⟩
        obtain ⟨str',b₂,run',last⟩ := bind_eq_ok_iff.mp run
        cases last
        have all := later.mp ⟨str',_,run',Nat.succ.inj length⟩
        rintro (_ | k) less
        · exact ⟨Ne.symm eof,Ne.symm overflow⟩
        · exact all k (Nat.lt_of_succ_lt_succ less)
      · intro all
        obtain ⟨str,b',run,length⟩ := later.mpr fun k less => all (k + 1) (Nat.succ_lt_succ less)
        exact ⟨_,b',by rw [bind_ok run]; rfl,congrArg (· + 1) length⟩

theorem extract_length {len : Nat} : ∀ {b b'} {str : List Int8}, extract peek_text len b = .ok str b' →
    str.length ≤ len := by
  induction len with
  | zero =>
    rintro b b' str ⟨⟩
    exact Nat.le_refl _
  | succ len ih =>
    intro b b' str run
    rw [extract,bind_ok (peek_text_eq (by decide))] at run
    split at run
    · cases run
    split at run
    · cases run
      exact Nat.zero_le _
    obtain ⟨_,b₁,_,run⟩ := bind_eq_ok_iff.mp run
    obtain ⟨str',b₂,run',last⟩ := bind_eq_ok_iff.mp run
    cases last
    exact Nat.succ_le_succ (ih run')

/-- A literal is full exactly if there are 256 characters for it. -/
theorem literal_text {quote : Int8} {more : List Int8} (here : left b = quote :: more) :
    (∃ r b', literal peek_text b = .ok r b' ∧ Full r.2) ↔
      ∀ k < 256, glance more k ≠ PEEK_EOF ∧ glance more k ≠ PEEK_OVERFLOW ∧ glance more k ≠ chr '"' := by
  obtain ⟨b₁,passed,_,left₁⟩ := consume_text here
  obtain ⟨r,run,ends⟩ := literal_loop_text (b := b₁) (n := 256) rfl body_none
  rw [left₁] at ends
  rw [literal,bind_ok passed,bind_ok run]
  cases r with
  | none =>
    obtain ⟨k,less,_,eof⟩ := ends
    refine iff_of_false ?_ fun all => (all k less).1 eof
    rintro ⟨_,_,⟨⟩,other,_⟩
    cases other
  | some len =>
    obtain ⟨most,body,quote⟩ := ends
    constructor
    · rintro ⟨r,b',run,_,str,is,length⟩
      obtain ⟨str',b₂,run',last⟩ := bind_eq_ok_iff.mp run
      cases last
      cases is
      have := extract_length run'
      obtain rfl : len = 256 := by omega
      have chars := extract_text.mp ⟨str,b₂,run',length⟩
      rw [left₁] at chars
      exact fun k less => ⟨(chars k less).1,(chars k less).2,(body k less).2⟩
    · intro all
      obtain rfl : len = 256 := by
        by_contra other
        exact (all len (by omega)).2.2 (quote (by omega))
      obtain ⟨str,b₂,run',length⟩ := (extract_text (b := b₁)).mpr fun k less => by
        rw [left₁]
        exact ⟨(all k less).1,(all k less).2.1⟩
      exact ⟨(true,⟨.literal,some str⟩),_,bind_eq_ok_iff.mpr ⟨str,b₂,run',rfl⟩,rfl,str,rfl,length⟩

section
variable {ι : Type} {peek : Nat → LexerM ι Int} {a a' : Lexer ι} {r : Bool × LexerToken}

/-- What a call returns once it has found a character: an error, or a token of a
    certain type with a text. -/
def Found (fits : LexerType → Prop) (r : Bool × LexerToken) : Prop :=
  r = (false,⟨.error,none⟩) ∨ ∃ type str, r = (true,⟨type,some str⟩) ∧ fits type

theorem found_mono {fits fits' : LexerType → Prop} (weaker : ∀ type, fits type → fits' type) {r : Bool × LexerToken}
    (found : Found fits r) : Found fits' r := by
  rcases found with error | ⟨type,str,is,held⟩
  · exact .inl error
  · exact .inr ⟨type,str,is,weaker type held⟩

theorem found_type {fits : LexerType → Prop} {r : Bool × LexerToken} (found : Found fits r) (error : r.2.type ≠ .error) :
    fits r.2.type := by
  rcases found with rfl | ⟨type,str,rfl,held⟩
  · exact absurd rfl error
  · exact held

theorem extracted_found {type : LexerType} {len : Nat}
    (run : (extract peek len >>= fun str => pure (true,⟨type,some str⟩)) a = .ok r a') : Found (· = type) r := by
  obtain ⟨str,_,_,last⟩ := bind_eq_ok_iff.mp run
  cases last
  exact .inr ⟨type,str,rfl,rfl⟩

theorem literal_found (run : literal peek a = .ok r a') : Found (· = .literal) r := by
  obtain ⟨_,_,_,run⟩ := bind_eq_ok_iff.mp run
  obtain ⟨_ | len,_,_,run⟩ := bind_eq_ok_iff.mp run
  · obtain ⟨_,_,_,last⟩ := bind_eq_ok_iff.mp run
    cases last
    exact .inl rfl
  · obtain ⟨str,_,_,run⟩ := bind_eq_ok_iff.mp run
    obtain ⟨_,_,_,last⟩ := bind_eq_ok_iff.mp run
    cases last
    exact .inr ⟨.literal,str,rfl,rfl⟩

theorem hex_found (run : hex peek a = .ok r a') : Found (· = .hex) r := by
  obtain ⟨c,_,_,run⟩ := bind_eq_ok_iff.mp run
  split at run
  · obtain ⟨_,_,_,run⟩ := bind_eq_ok_iff.mp run
    obtain ⟨_,_,_,last⟩ := bind_eq_ok_iff.mp run
    cases last
    exact .inl rfl
  · obtain ⟨_,_,_,run⟩ := bind_eq_ok_iff.mp run
    exact extracted_found run

theorem number_found {c : Int} (run : number peek c a = .ok r a') : Found (fun type => type = .number ∨ type = .symbol) r := by
  obtain ⟨⟨_,_⟩,_,_,run⟩ := bind_eq_ok_iff.mp run
  obtain ⟨_,_,_,run⟩ := bind_eq_ok_iff.mp run
  obtain ⟨⟨is_number,_⟩,_,_,run⟩ := bind_eq_ok_iff.mp run
  cases is_number with
  | true =>
    obtain ⟨_,_,_,run⟩ := bind_eq_ok_iff.mp run
    exact found_mono (fun _ => .inl) (extracted_found run)
  | false => exact found_mono (fun _ => .inr) (extracted_found run)

/-- Only a quote begins a literal, and only a letter or an underscore an identifier. -/
def Begins (c : Int) (type : LexerType) : Prop :=
  (type = .literal → chr '"' = c) ∧ (type = .alnum → chr '_' = c ∨ isalpha c) ∧ type ≠ .eof ∧ type ≠ .error

theorem token_found {c : Int} (run : token peek c a = .ok r a') : Found (Begins c) r := by
  have others : ∀ type, type ≠ .literal → type ≠ .alnum → type ≠ .eof → type ≠ .error → Begins c type :=
    fun type noLiteral noAlnum some_ fine => ⟨fun is => absurd is noLiteral,fun is => absurd is noAlnum,some_,fine⟩
  have numbers : ∀ type, type = .number ∨ type = .symbol → Begins c type := by
    rintro _ (rfl | rfl)
    · exact others _ (by decide) (by decide) (by decide) (by decide)
    · exact others _ (by decide) (by decide) (by decide) (by decide)
  rw [token] at run
  split at run
  · rename_i word
    obtain ⟨_,_,_,run⟩ := bind_eq_ok_iff.mp run
    refine found_mono ?_ (extracted_found run)
    rintro _ rfl
    exact ⟨nofun,fun _ => word,by decide,by decide⟩
  split at run
  · rename_i quote
    refine found_mono ?_ (literal_found run)
    rintro _ rfl
    exact ⟨fun _ => quote,nofun,by decide,by decide⟩
  split at run
  · obtain ⟨x,_,_,run⟩ := bind_eq_ok_iff.mp run
    split at run
    · refine found_mono ?_ (hex_found run)
      rintro _ rfl
      exact others _ (by decide) (by decide) (by decide) (by decide)
    · exact found_mono numbers (number_found run)
  · exact found_mono numbers (number_found run)

/-- Only a quote begins a literal. -/
theorem token_type {c : Int} (noQuote : chr '"' ≠ c) (run : token peek c a = .ok r a') : r.2.type ≠ .literal := by
  rcases token_found run with rfl | ⟨type,str,rfl,quote,_⟩
  · decide
  · exact fun is => noQuote (quote is)

/-- There is always another character. -/
def Endless (peek : Nat → LexerM ι Int) : Prop := ∀ k a c a', peek k a = .ok c a' → c ≠ PEEK_EOF

theorem blank_loop_endless (endless : Endless peek) {fuel : Nat} {c : Int} : ∀ {a}, blank_loop peek fuel a = .ok c a' →
    c ≠ PEEK_EOF := by
  induction fuel with
  | zero =>
    intro a run
    cases run
  | succ fuel ih =>
    intro a run
    obtain ⟨d,_,look,run⟩ := bind_eq_ok_iff.mp run
    split at run
    · cases run
      exact endless _ _ _ _ look
    · obtain ⟨_,_,_,run⟩ := bind_eq_ok_iff.mp run
      exact ih run

theorem comment_loop_endless (endless : Endless peek) {fuel : Nat} {c : Int} : ∀ {a}, comment_loop peek fuel a = .ok c a' →
    c ≠ PEEK_EOF := by
  induction fuel with
  | zero =>
    intro a run
    cases run
  | succ fuel ih =>
    intro a run
    obtain ⟨_,_,_,run⟩ := bind_eq_ok_iff.mp run
    obtain ⟨d,_,look,run⟩ := bind_eq_ok_iff.mp run
    split at run
    · exact ih run
    · cases run
      exact endless _ _ _ _ look

theorem blanks_endless (endless : Endless peek) {fuel : Nat} {c : Int} (run : blanks peek fuel a = .ok c a') :
    c ≠ PEEK_EOF := by
  obtain ⟨d,_,first,run⟩ := bind_eq_ok_iff.mp run
  split at run
  · exact comment_loop_endless endless run
  · cases run
    exact blank_loop_endless endless first

/-- A call returns what it has found, or the end of the source. -/
theorem token_loop_found {fuel : Nat} : ∀ {a}, token_loop peek fuel a = .ok r a' →
    (r = (false,⟨.eof,none⟩) ∧ ¬ Endless peek) ∨ Found (fun type => type ≠ .eof ∧ type ≠ .error) r := by
  induction fuel with
  | zero =>
    intro a run
    cases run
  | succ fuel ih =>
    intro a run
    obtain ⟨c,_,first,run⟩ := bind_eq_ok_iff.mp run
    split at run
    · rename_i eof
      cases run
      exact .inl ⟨rfl,fun endless => blanks_endless endless first eof.symm⟩
    split at run
    · obtain ⟨_,_,_,run⟩ := bind_eq_ok_iff.mp run
      exact ih run
    · exact .inr (found_mono (fun _ begins => begins.2.2) (token_found run))

theorem lexer_token_get_found {fuel : Nat} (run : lexer_token_get peek fuel a = .ok r a') :
    (r = (false,⟨.eof,none⟩) ∧ ¬ Endless peek) ∨ Found (fun type => type ≠ .eof ∧ type ≠ .error) r := by
  obtain ⟨_,_,_,run⟩ := bind_eq_ok_iff.mp run
  exact token_loop_found run

end

theorem token_quote {ι : Type} (peek : Nat → LexerM ι Int) : token peek (chr '"') = literal peek := by
  rw [token,if_neg (by decide),if_pos rfl]

/-- The tokenizer ends a literal because of its length exactly if it comes upon an overlong one. -/
theorem lexer_token_get_text {fuel : Nat} (enough : (left b).length < fuel) :
    (∃ r b', lexer_token_get peek_text fuel b = .ok r b' ∧ Full r.2) ↔ Overlong (left b) := by
  obtain ⟨b₀,cleared,same⟩ : ∃ b₀, set_error .none b = .ok () b₀ ∧ left b₀ = left b := ⟨_,rfl,rfl⟩
  obtain ⟨b₁,⟨_,left₁⟩,run⟩ := token_loop_text peek_text_sees (b := b₀) (by rw [same]; exact enough)
  rw [same] at left₁
  rw [lexer_token_get,bind_ok cleared,run]
  by_cases quote : chr '"' = glance (left b₁) 0
  · have noEof : PEEK_EOF ≠ glance (left b₁) 0 := by
      rw [← quote]
      decide
    rw [if_neg noEof,← quote,token_quote]
    cases here : left b₁ with
    | nil =>
      rw [here] at quote
      exact absurd quote (by decide)
    | cons c more =>
      rw [here,glance_cons] at quote
      rw [literal_text here]
      constructor
      · exact fun all => ⟨c,more,left₁.symm.trans here,quote,all⟩
      · rintro ⟨c',more',next,_,all⟩
        rw [← left₁,here] at next
        cases next
        exact all
  · refine iff_of_false ?_ ?_
    · rintro ⟨r,b',run,type,_⟩
      split at run
      · cases run
        cases type
      · exact token_type quote run type
    · rintro ⟨c,more,next,is,_⟩
      rw [← left₁] at next
      rw [next,glance_cons] at quote
      exact quote is

/-! ### Calls return -/

/-- The text stays and `n` characters at least are taken, unless a character looks
    like `PEEK_OVERFLOW`. -/
def Takes {α : Type} (b : Lexer (List Int8)) (n : Nat) : EStateM.Result Stop (Lexer (List Int8)) α → Prop
  | .ok _ b' => b'.input = b.input ∧ (left b').length + n ≤ (left b).length
  | .error stop _ => stop = .abort ∧ (-2 : Int8) ∈ b.input

section
variable {α β : Type} {n : Nat}

theorem takes_bind {x : LexerM (List Int8) α} {f : α → LexerM (List Int8) β} (first : Takes b n (x b))
    (rest : ∀ v b', x b = .ok v b' → Takes b' 0 (f v b')) : Takes b n ((x >>= f) b) := by
  cases run : x b with
  | ok v b' =>
    rw [run] at first
    rw [bind_ok run]
    have later := rest v b' run
    cases last : f v b' with
    | ok w b'' =>
      rw [last] at later
      obtain ⟨input,less⟩ := later
      exact ⟨input.trans first.1,Nat.le_trans (by omega) first.2⟩
    | error stop b'' =>
      rw [last] at later
      obtain ⟨is,there⟩ := later
      rw [first.1] at there
      exact ⟨is,there⟩
  | error stop b' =>
    rw [run] at first
    rw [bind_error run]
    exact first

theorem takes_fewer {m : Nat} {r : EStateM.Result Stop (Lexer (List Int8)) α} (takes : Takes b n r) (le : m ≤ n) :
    Takes b m r := by
  cases r with
  | ok v b' => exact ⟨takes.1,Nat.le_trans (Nat.add_le_add_left le _) takes.2⟩
  | error stop b' => exact takes

theorem takes_pure {v : α} : Takes b 0 ((pure v : LexerM (List Int8) α) b) := ⟨rfl,Nat.le_refl _⟩

theorem takes_consume (n : Nat) : Takes b 0 (consume n b) := by
  refine ⟨rfl,?_⟩
  simp only [left,List.length_drop]
  omega

theorem takes_some {n : Nat} (positive : 0 < n) (here : glance (left b) 0 ≠ PEEK_EOF) : Takes b 1 (consume n b) := by
  have more : 0 < (left b).length := by
    refine List.length_pos_iff.mpr fun none => ?_
    rw [none] at here
    exact here rfl
  refine ⟨rfl,?_⟩
  simp only [left,List.length_drop] at more ⊢
  omega

theorem takes_after_error {error : LexerError} {f : Unit → LexerM (List Int8) β}
    (rest : ∀ b', left b' = left b → Takes b' n (f () b')) : Takes b n ((set_error error >>= f) b) :=
  rest { b with error := error } rfl

theorem glance_ne {c : Int8} (seen : glance (left b) 0 = c.toInt) (other : glance (left b) 0 ≠ PEEK_EOF) : c ∈ b.input := by
  cases here : left b with
  | nil =>
    rw [here] at other
    exact absurd rfl other
  | cons d rest =>
    rw [here,glance_cons] at seen
    rw [← Int8.toInt_inj.mp seen]
    exact List.mem_of_mem_drop (i := b.ofs) (by
      rw [← left,here]
      exact List.mem_cons_self)

theorem takes_extract {len : Nat} : ∀ {b}, Takes b 0 (extract peek_text len b) ∧
    (0 < len → glance (left b) 0 ≠ PEEK_EOF → Takes b 1 (extract peek_text len b)) := by
  induction len with
  | zero => exact fun {b} => ⟨takes_pure,fun less => absurd less (Nat.lt_irrefl 0)⟩
  | succ len ih =>
    intro b
    rw [extract,bind_ok (peek_text_eq (by decide))]
    by_cases overflow : PEEK_OVERFLOW = glance (left b) 0
    · rw [if_pos overflow]
      have there : (-2 : Int8) ∈ b.input := glance_ne overflow.symm (by
        rw [← overflow]
        decide)
      exact ⟨⟨rfl,there⟩,fun _ _ => ⟨rfl,there⟩⟩
    rw [if_neg overflow]
    by_cases eof : PEEK_EOF = glance (left b) 0
    · rw [if_pos eof]
      exact ⟨takes_pure,fun _ other => absurd eof.symm other⟩
    rw [if_neg eof]
    have one : Takes b 1 ((consume_char (glance (left b) 0) >>= fun _ => extract peek_text len >>= fun str =>
        pure (Int8.ofInt (glance (left b) 0) :: str)) b) := by
      cases here : left b with
      | nil =>
        rw [here] at eof
        exact absurd rfl eof
      | cons c rest =>
        obtain ⟨b₁,passed,input,left₁⟩ := consume_char_text (d := c) here
        rw [glance_cons]
        refine takes_bind (by rw [passed]; exact ⟨input,by rw [left₁,here,List.length_cons]⟩) fun _ b₁ _ => ?_
        exact takes_bind ih.1 fun _ _ _ => takes_pure
    exact ⟨takes_fewer one (Nat.zero_le 1),fun _ _ => one⟩

/-- The text has a character above zero at each of these places. -/
def Positive (b : Lexer (List Int8)) (i j : Nat) : Prop := ∀ k, i ≤ k → k < j → 0 < glance (left b) k

theorem positive_none {i : Nat} : Positive b i i := fun _ le less => absurd le (Nat.not_le_of_lt less)

theorem positive_cons {i j : Nat} (first : 0 < glance (left b) i) (rest : Positive b (i + 1) j) : Positive b i j := by
  intro k le less
  obtain rfl | more := Nat.eq_or_lt_of_le le
  · exact first
  · exact rest k more less

theorem positive_append {i j l : Nat} (front : Positive b i j) (back : Positive b j l) : Positive b i l := by
  intro k le less
  by_cases before : k < j
  · exact front k le before
  · exact back k (Nat.le_of_not_lt before) less

/-- The loop over a class looks ahead and changes nothing. -/
theorem span_loop_text {class_ : Int → Bool} (chars : ∀ {c}, class_ c = true → 0 < c) {n : Nat} : ∀ {len}, n + len = 256 →
    ∃ len', span_loop peek_text class_ n len b = .ok len' b ∧ len ≤ len' ∧ Positive b len len' := by
  induction n with
  | zero => exact fun {len} _ => ⟨len,rfl,Nat.le_refl _,positive_none⟩
  | succ n ih =>
    intro len sum
    rw [span_loop,bind_ok (peek_text_eq (by omega))]
    split
    · rename_i inside
      obtain ⟨len',run,le,positive⟩ := @ih (len + 1) (by omega)
      exact ⟨len',run,by omega,positive_cons (chars inside) positive⟩
    · exact ⟨len,rfl,Nat.le_refl _,positive_none⟩

theorem peek_text_pure (k : Nat) : ∃ c, peek_text k b = .ok c b ∧ (256 ≤ k → c = PEEK_OVERFLOW) ∧
    (0 < c → 0 < glance (left b) k) := by
  by_cases less : k < 256
  · exact ⟨_,peek_text_eq less,fun le => absurd less (Nat.not_lt_of_le le),id⟩
  · refine ⟨PEEK_OVERFLOW,by rw [peek_text,peek_list,if_pos (Nat.le_of_not_lt less)],fun _ => rfl,fun positive => ?_⟩
    exact absurd positive (by decide)

theorem isdigit_positive {c : Int} (held : isdigit c = true) : 0 < c := by
  have := (of_decide_eq_true held).1
  exact Int.lt_of_lt_of_le (by decide) this

theorem isalpha_positive {c : Int} (held : isalpha c = true) : 0 < c := by
  obtain ⟨le,_⟩ | ⟨le,_⟩ := of_decide_eq_true held
  · exact Int.lt_of_lt_of_le (by decide) le
  · exact Int.lt_of_lt_of_le (by decide) le

theorem chr_positive {c : Int} {d : Char} (positive : 0 < chr d) (same : chr d = c) : 0 < c := same ▸ positive

theorem digit_loop_text {fuel : Nat} : ∀ {i}, 256 ≤ fuel + i →
    ∃ i', digit_loop peek_text (fuel + 1) i b = .ok i' b ∧ i ≤ i' ∧ Positive b i i' := by
  induction fuel with
  | zero =>
    intro i large
    obtain ⟨c,look,beyond,_⟩ := peek_text_pure (b := b) i
    rw [digit_loop,bind_ok look,beyond (by omega),if_neg (by decide)]
    exact ⟨i,rfl,Nat.le_refl _,positive_none⟩
  | succ fuel ih =>
    intro i large
    obtain ⟨c,look,_,same⟩ := peek_text_pure (b := b) i
    rw [digit_loop,bind_ok look]
    split
    · rename_i digit
      obtain ⟨i',run,le,positive⟩ := ih (i := i + 1) (by omega)
      exact ⟨i',run,by omega,positive_cons (same (isdigit_positive digit)) positive⟩
    · exact ⟨i,rfl,Nat.le_refl _,positive_none⟩

theorem digits_text (is_number : Bool) (i : Nat) : ∃ is_number' i',
    digits peek_text is_number i b = .ok (is_number',i') b ∧ i ≤ i' ∧ (is_number' = true → is_number = true ∨ i < i') ∧
      Positive b i i' := by
  obtain ⟨c,look,_,same⟩ := peek_text_pure (b := b) i
  rw [digits,bind_ok look]
  split
  · rename_i digit
    obtain ⟨i',run,le,positive⟩ := digit_loop_text (b := b) (show 256 ≤ 256 + (i + 1) by omega)
    exact ⟨true,i',by rw [bind_ok run]; rfl,by omega,fun _ => .inr le,positive_cons (same (isdigit_positive digit)) positive⟩
  · exact ⟨is_number,i,rfl,Nat.le_refl _,.inl,positive_none⟩

theorem exponent_text (i : Nat) : ∃ i', exponent peek_text i b = .ok i' b ∧ i ≤ i' ∧ Positive b i i' := by
  obtain ⟨c,look,_,same⟩ := peek_text_pure (b := b) i
  rw [exponent,bind_ok look]
  split
  · rename_i letter
    obtain ⟨c',look',_,same'⟩ := peek_text_pure (b := b) (i + 1)
    rw [bind_ok look']
    obtain ⟨j,is⟩ : ∃ j, j = if chr '+' = c' ∨ chr '-' = c' then i + 2 else i + 1 := ⟨_,rfl⟩
    obtain ⟨c'',look'',_⟩ := peek_text_pure (b := b) j
    have front : i ≤ j ∧ Positive b i j := by
      have first : 0 < glance (left b) i := same (letter.elim (chr_positive (by decide)) (chr_positive (by decide)))
      rw [is]
      split
      · rename_i sign
        refine ⟨by omega,positive_cons first (positive_cons ?_ positive_none)⟩
        exact same' (sign.elim (chr_positive (by decide)) (chr_positive (by decide)))
      · exact ⟨by omega,positive_cons first positive_none⟩
    rw [← is,bind_ok look'']
    split
    · obtain ⟨i',run,le,positive⟩ := digit_loop_text (b := b) (show 256 ≤ 256 + j by omega)
      exact ⟨i',run,Nat.le_trans front.1 le,positive_append front.2 positive⟩
    · exact ⟨i,rfl,Nat.le_refl _,positive_none⟩
  · exact ⟨i,rfl,Nat.le_refl _,positive_none⟩

/-- A number, or else a symbol, is as many characters as the lexer looks at. -/
theorem number_text (c : Int) (same : c = glance (left b) 0) : ∃ is_number i, 0 < i ∧ (is_number = true → Positive b 0 i) ∧
    (is_number = false → i = 1) ∧ number peek_text c b =
      (extract peek_text i >>= fun str => pure (true,⟨if is_number then .number else .symbol,some str⟩)) b := by
  obtain ⟨is_number,i,run,_,digit,positive⟩ := digits_text (b := b) false (if chr '-' = c ∨ chr '+' = c then 1 else 0)
  obtain ⟨d,look,_,dot⟩ := peek_text_pure (b := b) i
  obtain ⟨is_number',i',run',le,digit',positive'⟩ := digits_text (b := b) is_number (if chr '.' = d then i + 1 else i)
  obtain ⟨i'',run'',le',positive''⟩ := exponent_text (b := b) i'
  have main : number peek_text c b = (if is_number' = true then
      exponent peek_text i' >>= fun i => extract peek_text i >>= fun str => pure (true,⟨.number,some str⟩)
    else extract peek_text 1 >>= fun str => pure (true,⟨.symbol,some str⟩)) b :=
    (bind_ok run).trans ((bind_ok look).trans (bind_ok run'))
  rw [main]
  cases is_number' with
  | true =>
    refine ⟨true,i'',?_,fun _ => ?_,nofun,?_⟩
    · obtain is | less := digit' rfl
      · have := (digit is).resolve_left Bool.false_ne_true
        split at le <;> omega
      · omega
    · have sign : Positive b 0 (if chr '-' = c ∨ chr '+' = c then 1 else 0) := by
        split
        · rename_i sign
          refine positive_cons ?_ positive_none
          rw [← same]
          exact sign.elim (chr_positive (by decide)) (chr_positive (by decide))
        · exact positive_none
      have point : Positive b i (if chr '.' = d then i + 1 else i) := by
        split
        · rename_i point
          exact positive_cons (dot (chr_positive (by decide) point)) positive_none
        · exact positive_none
      exact positive_append sign (positive_append positive (positive_append point (positive_append positive' positive'')))
    · rw [if_pos rfl,bind_ok run'']
      rfl
  | false => exact ⟨false,1,Nat.one_pos,nofun,fun _ => rfl,rfl⟩

theorem takes_extracted {type : LexerType} {len : Nat} (some_ : 0 < len) (here : glance (left b) 0 ≠ PEEK_EOF) :
    Takes b 1 ((extract peek_text len >>= fun str => pure (true,(⟨type,some str⟩ : LexerToken))) b) :=
  takes_bind (takes_extract.2 some_ here) fun _ _ _ => takes_pure

theorem takes_number (c : Int) (same : c = glance (left b) 0) (here : glance (left b) 0 ≠ PEEK_EOF) :
    Takes b 1 (number peek_text c b) := by
  obtain ⟨is_number,i,some_,_,_,run⟩ := number_text c same
  rw [run]
  exact takes_extracted some_ here

theorem isxdigit_positive {c : Int} (held : isxdigit c = true) : 0 < c := by
  obtain digit | ⟨le,_⟩ | ⟨le,_⟩ := of_decide_eq_true held
  · exact isdigit_positive digit
  · exact Int.lt_of_lt_of_le (by decide) le
  · exact Int.lt_of_lt_of_le (by decide) le

theorem word_positive {c : Int} (held : decide (chr '_' = c ∨ isalnum c) = true) : 0 < c := by
  obtain is | alnum := of_decide_eq_true held
  · exact chr_positive (by decide) is
  obtain alpha | digit := of_decide_eq_true alnum
  · exact isalpha_positive alpha
  · exact isdigit_positive digit

theorem takes_hex (here : glance (left b) 0 ≠ PEEK_EOF) : Takes b 1 (hex peek_text b) := by
  rw [hex,bind_ok (peek_text_eq (by decide))]
  split
  · refine takes_after_error fun b₁ same => ?_
    exact takes_bind (takes_some (by decide) (by rw [same]; exact here)) fun _ _ _ => takes_pure
  · obtain ⟨len,run,le,_⟩ := span_loop_text (b := b) isxdigit_positive (show 253 + 3 = 256 from rfl)
    rw [bind_ok run]
    exact takes_extracted (by omega) here

theorem takes_literal (here : glance (left b) 0 ≠ PEEK_EOF) : Takes b 1 (literal peek_text b) := by
  refine takes_bind (takes_some Nat.one_pos here) ?_
  intro _ b₁ _
  obtain ⟨r,run,_⟩ := literal_loop_text (b := b₁) (n := 256) rfl body_none
  rw [bind_ok run]
  cases r with
  | none => exact takes_after_error fun _ _ => takes_pure
  | some len =>
    refine takes_bind takes_extract.1 fun _ b₂ _ => ?_
    exact takes_bind (takes_consume 1) fun _ _ _ => takes_pure

theorem takes_token (here : glance (left b) 0 ≠ PEEK_EOF) : Takes b 1 (token peek_text (glance (left b) 0) b) := by
  rw [token]
  split
  · obtain ⟨len,run,le,_⟩ := span_loop_text (b := b) word_positive (show 255 + 1 = 256 from rfl)
    rw [alnum,bind_ok run]
    exact takes_extracted le here
  split
  · exact takes_literal here
  split
  · rw [bind_ok (peek_text_eq (by decide))]
    split
    · exact takes_hex here
    · exact takes_number _ rfl here
  · exact takes_number _ rfl here

theorem upcoming_length {comment : Bool} {text : List Int8} : (upcoming comment text).length ≤ text.length := by
  induction text generalizing comment with
  | nil => exact Nat.le_refl 0
  | cons c rest ih =>
    rw [upcoming,List.length_cons]
    split
    · exact Nat.le_succ_of_le ih
    split
    · split
      · exact Nat.le_succ_of_le ih
      · exact Nat.le_refl _
    split
    · exact Nat.le_succ_of_le ih
    split
    · exact Nat.le_succ_of_le ih
    · exact Nat.le_refl _

/-- A call of the tokenizer on a text returns, unless the assertion of `extract` fails
    on a character that looks like `PEEK_OVERFLOW`; a token takes a character at least. -/
theorem lexer_token_get_returns {fuel : Nat} (enough : (left b).length < fuel) :
    Takes b 0 (lexer_token_get peek_text fuel b) ∧
      ∀ r b', lexer_token_get peek_text fuel b = .ok r b' → r.1 = true → Takes b 1 (.ok r b') := by
  obtain ⟨b₁,⟨input₁,left₁⟩,run⟩ := token_loop_text peek_text_sees (b := { b with error := .none }) enough
  have main : lexer_token_get peek_text fuel b = _ := token_get_cleared.trans run
  have length : (left b₁).length ≤ (left b).length := by
    rw [left₁]
    exact upcoming_length
  rw [main]
  by_cases eof : PEEK_EOF = glance (left b₁) 0
  · rw [if_pos eof]
    refine ⟨⟨input₁,length⟩,?_⟩
    rintro r b' ⟨⟩ more
    cases more
  · rw [if_neg eof]
    have takes := takes_token (Ne.symm eof)
    cases last : token peek_text (glance (left b₁) 0) b₁ with
    | ok r b' =>
      rw [last] at takes
      have one : Takes b 1 (.ok r b' : EStateM.Result Stop (Lexer (List Int8)) (Bool × LexerToken)) :=
        ⟨takes.1.trans input₁,Nat.le_trans takes.2 length⟩
      refine ⟨takes_fewer one (Nat.zero_le 1),?_⟩
      rintro r' b'' ⟨⟩ _
      exact one
    | error stop b' =>
      rw [last] at takes
      refine ⟨⟨takes.1,?_⟩,?_⟩
      · have there := takes.2
        rw [input₁] at there
        exact there
      · rintro r' b'' ⟨⟩

theorem skip_loop_text {a_c : Int8} {fuel : Nat} : ∀ {b}, (left b).length < fuel →
    ∃ r b', skip_loop peek_text a_c fuel b = .ok r b' := by
  induction fuel with
  | zero => intro b enough; omega
  | succ fuel ih =>
    intro b enough
    rw [skip_loop,bind_ok (peek_text_eq (by decide))]
    split
    · exact ⟨_,_,rfl⟩
    · rename_i noEof
      cases here : left b with
      | nil =>
        rw [here] at noEof
        exact absurd rfl noEof
      | cons c rest =>
        rw [here,List.length_cons] at enough
        obtain ⟨b₁,passed,_,left₁⟩ := consume_char_text (d := c) here
        rw [glance_cons,bind_ok passed]
        split
        · exact ⟨_,_,rfl⟩
        · exact ih (by rw [left₁]; omega)

theorem lexer_skip_returns {a_c : Int8} {fuel : Nat} (enough : (left b).length < fuel) :
    ∃ r b', lexer_skip peek_text fuel a_c b = .ok r b' :=
  skip_loop_text (b := { b with error := .none }) enough

end

/-! ### More fuel -/

/-- The loop has been cut off. -/
def CutOff (stop : Stop) : Prop := stop = .fuel

section
variable {ι : Type} {peek : Nat → LexerM ι Int} {n : Nat}

theorem same_run {α : Type} {x : LexerM ι α} : Simulates CutOff Eq Eq x x fun _ => Eq := simulates_refl fun _ => rfl

theorem cut_off {α : Type} {x : LexerM ι α} {Q : α → Lexer ι → Lexer ι → Prop} :
    Simulates CutOff Eq Eq x (throw .fuel) Q :=
  fun _ _ _ => agree_out rfl

theorem blank_loop_more : ∀ {m}, n ≤ m → Simulates CutOff Eq Eq (blank_loop peek m) (blank_loop peek n) fun _ => Eq := by
  induction n with
  | zero => exact fun _ => cut_off
  | succ n ih =>
    intro m le
    obtain ⟨m,rfl⟩ : ∃ k, m = k + 1 := ⟨m - 1,by omega⟩
    refine simulates_bind same_run fun c => ?_
    refine simulates_ite (fun _ => same_run) fun _ => ?_
    exact simulates_bind same_run fun _ => ih (Nat.le_of_succ_le_succ le)

theorem comment_loop_more : ∀ {m}, n ≤ m →
    Simulates CutOff Eq Eq (comment_loop peek m) (comment_loop peek n) fun _ => Eq := by
  induction n with
  | zero => exact fun _ => cut_off
  | succ n ih =>
    intro m le
    obtain ⟨m,rfl⟩ : ∃ k, m = k + 1 := ⟨m - 1,by omega⟩
    refine simulates_bind same_run fun _ => ?_
    refine simulates_bind same_run fun c => ?_
    exact simulates_ite (fun _ => ih (Nat.le_of_succ_le_succ le)) fun _ => same_run

theorem blanks_more {m : Nat} (le : n ≤ m) : Simulates CutOff Eq Eq (blanks peek m) (blanks peek n) fun _ => Eq := by
  refine simulates_bind (blank_loop_more le) fun c => ?_
  exact simulates_ite (fun _ => comment_loop_more le) fun _ => same_run

theorem token_loop_more : ∀ {m}, n ≤ m → Simulates CutOff Eq Eq (token_loop peek m) (token_loop peek n) fun _ => Eq := by
  induction n with
  | zero => exact fun _ => cut_off
  | succ n ih =>
    intro m le
    obtain ⟨m,rfl⟩ : ∃ k, m = k + 1 := ⟨m - 1,by omega⟩
    refine simulates_bind (blanks_more le) fun c => ?_
    refine simulates_ite (fun _ => same_run) fun _ => ?_
    refine simulates_ite (fun _ => ?_) fun _ => same_run
    exact simulates_bind same_run fun _ => ih (Nat.le_of_succ_le_succ le)

/-- A call that returns with some fuel returns the same with more of it. -/
theorem lexer_token_get_more {m : Nat} (le : n ≤ m) :
    Simulates CutOff Eq Eq (lexer_token_get peek m) (lexer_token_get peek n) fun _ => Eq :=
  simulates_bind same_run fun _ => token_loop_more le

end

theorem lexer_token_get_at {ι : Type} {peek : Nat → LexerM ι Int} {m n : Nat} (le : n ≤ m) {a a' : Lexer ι}
    {r : Bool × LexerToken} (run : lexer_token_get peek n a = .ok r a') : lexer_token_get peek m a = .ok r a' := by
  obtain ⟨_,_,last,_⟩ | ⟨_,_,_,first,last,rfl⟩ | ⟨_,_,_,_,last,_⟩ := agree_cases (lexer_token_get_more le a a rfl)
  · rw [run] at last
    cases last
  · rw [run] at last
    cases last
    exact first
  · rw [run] at last
    cases last

/-! ### Identifiers -/

theorem extract_first {len : Nat} {b' : Lexer (List Int8)} {str : List Int8} (positive : 0 < glance (left b) 0)
    (run : extract peek_text (len + 1) b = .ok str b') : (str.headD 0).toInt = glance (left b) 0 := by
  rw [extract,bind_ok (peek_text_eq (by decide))] at run
  have noOverflow : PEEK_OVERFLOW ≠ glance (left b) 0 := by
    rw [PEEK_OVERFLOW]
    omega
  have noEof : PEEK_EOF ≠ glance (left b) 0 := by
    rw [PEEK_EOF]
    omega
  rw [if_neg noOverflow,if_neg noEof] at run
  obtain ⟨_,_,_,run⟩ := bind_eq_ok_iff.mp run
  obtain ⟨rest,_,_,last⟩ := bind_eq_ok_iff.mp run
  cases last
  cases here : left b with
  | nil =>
    rw [here] at positive
    exact absurd positive (by decide)
  | cons c more =>
    rw [glance_cons,Int8.ofInt_toInt]
    rfl

/-- An identifier begins with a letter or an underscore. -/
theorem lexer_token_get_alnum {fuel : Nat} {b' : Lexer (List Int8)} {type : LexerType} {str : List Int8}
    (run : lexer_token_get peek_text fuel b = .ok (true,⟨type,some str⟩) b') (alnum_ : type = .alnum) :
    chr '_' = (str.headD 0).toInt ∨ isalpha (str.headD 0).toInt := by
  have more := lexer_token_get_at (Nat.le_max_left fuel ((left b).length + 1)) run
  obtain ⟨b₁,_,run₁⟩ := token_loop_text peek_text_sees (b := { b with error := .none })
    (Nat.lt_of_lt_of_le (Nat.lt_succ_self _) (Nat.le_max_right _ _))
  have main : lexer_token_get peek_text (max fuel ((left b).length + 1)) b = _ := token_get_cleared.trans run₁
  rw [main] at more
  split at more
  · cases more
  have word := (found_type (token_found more) (alnum_ ▸ nofun)).2.1 alnum_
  have positive : 0 < glance (left b₁) 0 := word.elim (chr_positive (by decide)) isalpha_positive
  rw [token,if_pos word] at more
  obtain ⟨len,span,le,_⟩ := span_loop_text (b := b₁) word_positive (show 255 + 1 = 256 from rfl)
  obtain ⟨len,rfl⟩ : ∃ k, len = k + 1 := ⟨len - 1,by omega⟩
  rw [alnum,bind_ok span] at more
  obtain ⟨str',_,taken,last⟩ := bind_eq_ok_iff.mp more
  cases last
  rw [extract_first positive taken]
  exact word

/-! ### A part of a text -/

/-- The inputs are one text, which has the next `n` characters. -/
def Known (n ofs : Nat) (i j : List Int8) : Prop := i = j ∧ (n = 0 ∨ ofs + n ≤ i.length)

theorem part_alike : Alike (Past true) Known peek_text (peek_list true) where
  fewer known le := ⟨known.1,by
    have := known.2
    omega⟩
  later known := ⟨known.1,by
    have := known.2
    omega⟩
  next n := by
    intro a b same
    obtain ⟨is,_⟩ := same.inputs
    have ofs := same.ofs
    by_cases large : 256 ≤ n
    · rw [peek_text,peek_list,peek_list,if_pos large,if_pos large]
      exact ⟨rfl,same,fun _ other => absurd rfl (other.resolve_left (by omega))⟩
    by_cases past : b.input.length ≤ b.ofs + n
    · rw [peek_past (by omega) past,if_pos rfl]
      exact agree_out ⟨rfl,rfl⟩
    · obtain ⟨c,there⟩ : ∃ c, b.input[b.ofs + n]? = some c := ⟨_,List.getElem?_eq_getElem (by omega)⟩
      rw [peek_text,peek_there (by omega) there,peek_there (by omega) (by rw [is,ofs]; exact there)]
      exact ⟨rfl,same,fun _ _ => { same with inputs := ⟨is,.inr (by rw [is,ofs]; omega)⟩ }⟩
  seen := by
    intro k n a b less same
    obtain ⟨is,inside⟩ := same.inputs
    have ofs := same.ofs
    by_cases large : 256 ≤ k
    · refine ⟨PEEK_OVERFLOW,?_,?_⟩
      · rw [peek_text,peek_list,if_pos large]
      · rw [peek_list,if_pos large]
    · obtain ⟨c,there⟩ : ∃ c, b.input[b.ofs + k]? = some c :=
        ⟨_,List.getElem?_eq_getElem (by rw [← is,← ofs]; omega)⟩
      exact ⟨c.toInt,peek_there (by omega) (by rw [is,ofs]; exact there),peek_there (by omega) there⟩

/-- A text of at most 256 characters has no room for an overlong literal. -/
theorem not_full {part : Bool} {fuel : Nat} {r : Bool × LexerToken} {b' : Lexer (List Int8)} (small : b.input.length ≤ 256)
    (enough : (left b).length < fuel) (run : lexer_token_get (peek_list part) fuel b = .ok r b') : ¬ Full r.2 := by
  intro full
  obtain ⟨b'',text⟩ : ∃ b'', lexer_token_get peek_text fuel b = .ok r b'' := by
    cases part with
    | false => exact ⟨b',run⟩
    | true =>
      have same : Same Known 0 b b := ⟨rfl,rfl,rfl,rfl,rfl,.inl rfl⟩
      obtain ⟨_,_,last,_⟩ | ⟨_,b'',_,text,last,_⟩ | ⟨_,_,_,_,last,_⟩ :=
        agree_cases (lexer_token_get_alike part_alike fuel b b same)
      · rw [run] at last
        cases last
      · rw [run] at last
        cases last
        exact ⟨b'',text⟩
      · rw [run] at last
        cases last
  obtain ⟨quote,more,next,_,all⟩ := (lexer_token_get_text enough).mp ⟨r,b'',text,full⟩
  have short : (upcoming false (left b)).length ≤ (left b).length := upcoming_length
  rw [next,List.length_cons,left,List.length_drop] at short
  have past : more[255]? = none := List.getElem?_eq_none (by omega)
  have := (all 255 (by decide)).1
  rw [glance,past] at this
  exact this rfl

end Htools.Lexing
