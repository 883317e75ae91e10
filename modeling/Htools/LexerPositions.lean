import Htools.LexerWords

/-!
The position of the lexer. `line_no` and `col_no` follow `ofs` through every call, on
tokens, on errors and when characters are skipped, but they are counted modulo 2^32
(`positions_follow`).
-/
namespace Htools.Lexing
open Htools.Runs Htools.Simulation

def newlines (text : List Int8) : Nat := text.count 10

/-- The number of characters since the last newline. -/
def column (text : List Int8) : Nat := (text.reverse.takeWhile fun c => c ≠ 10).length

/-- The position is the one after the characters up to `ofs`. -/
structure Positioned {ι : Type} (source : List Int8) (a : Lexer ι) : Prop where
  inside : a.ofs ≤ source.length
  line_no : a.line_no.toNat = (1 + newlines (source.take a.ofs)) % 2 ^ 32
  col_no : a.col_no.toNat = (1 + column (source.take a.ofs)) % 2 ^ 32

/-- Every quote is followed by another one or the end within 250 characters. -/
def QuotesClose (source : List Int8) : Prop :=
  ∀ k, source[k]? = some 34 → ((source.drop (k + 1)).takeWhile fun c => chr '"' ≠ c.toInt).length ≤ 250

theorem newlines_snoc (text : List Int8) (c : Int8) : newlines (text ++ [c]) = newlines text + if c = 10 then 1 else 0 := by
  simp [newlines,List.count_append,List.count_singleton]

theorem column_snoc (text : List Int8) (c : Int8) : column (text ++ [c]) = if c = 10 then 0 else column text + 1 := by
  by_cases newline : c = 10 <;> simp [column,newline]

/-- A lexer on the source at the right position. -/
def At (source : List Int8) (b : Lexer (List Int8)) : Prop := b.input = source ∧ Positioned source b

section
variable {source rest more : List Int8} {b b' : Lexer (List Int8)} {c : Int8} {fuel : Nat}

/-- The error is not a part of the position. -/
theorem error_positioned (at_ : At source b) (error : LexerError) : At source { b with error := error } :=
  ⟨at_.1,at_.2.inside,at_.2.line_no,at_.2.col_no⟩

theorem take_next (at_ : At source b) (here : left b = c :: rest) :
    b.ofs < source.length ∧ source.take (b.ofs + 1) = source.take b.ofs ++ [c] := by
  obtain ⟨rfl,_⟩ := at_
  have there : b.input[b.ofs]? = some c := by
    rw [← Nat.add_zero b.ofs,← List.getElem?_drop,show b.input.drop b.ofs = c :: rest from here]
    rfl
  refine ⟨(List.getElem?_eq_some_iff.mp there).1,?_⟩
  rw [List.take_add_one,there]
  rfl

theorem consume_positioned (at_ : At source b) (here : left b = c :: rest) (other : c ≠ 10) (run : consume 1 b = .ok () b') : At source b' := by
  obtain ⟨inside,next⟩ := take_next at_ here
  obtain ⟨input,_,line_no,col_no⟩ := at_
  cases run
  refine ⟨input,inside,?_,?_⟩
  · simp only [next,newlines_snoc,if_neg other]
    exact line_no
  · simp only [next,column_snoc,if_neg other,UInt32.toNat_add,col_no]
    rw [show (UInt32.ofNat 1).toNat = 1 from rfl]
    omega

theorem consume_newline_positioned (at_ : At source b) (here : left b = 10 :: rest) (run : consume_newline b = .ok () b') : At source b' := by
  obtain ⟨inside,next⟩ := take_next at_ here
  obtain ⟨input,_,line_no,col_no⟩ := at_
  cases run
  refine ⟨input,inside,?_,?_⟩
  · simp only [next,newlines_snoc,if_true,UInt32.toNat_add,line_no]
    rw [show (1 : UInt32).toNat = 1 from rfl]
    omega
  · simp only [next,column_snoc,if_true]
    rfl

theorem consume_char_positioned (at_ : At source b) (here : left b = c :: rest) (run : consume_char c.toInt b = .ok () b') : At source b' := by
  rw [consume_char] at run
  split at run
  · rename_i newline
    obtain rfl : c = 10 := (chr_iff rfl).mp newline
    exact consume_newline_positioned at_ here run
  · rename_i other
    exact consume_positioned at_ here (fun is => other (is ▸ rfl)) run

theorem extract_positioned {len : Nat} : ∀ {b b' : Lexer (List Int8)} {str : List Int8}, At source b →
    extract peek_text len b = .ok str b' → At source b' := by
  induction len with
  | zero =>
    intro b b' str at_ run
    cases run
    exact at_
  | succ len ih =>
    intro b b' str at_ run
    rw [extract,bind_ok (peek_text_eq (by decide))] at run
    split at run
    · cases run
    split at run
    · cases run
      exact at_
    rename_i noEof
    cases here : left b with
    | nil =>
      rw [here] at noEof
      exact absurd rfl noEof
    | cons c rest =>
      rw [here,glance_cons] at run
      obtain ⟨_,b₁,passed,run⟩ := bind_eq_ok_iff.mp run
      obtain ⟨str',b₂,taken,last⟩ := bind_eq_ok_iff.mp run
      cases last
      exact ih (consume_char_positioned at_ here passed) taken

theorem extracted_positioned {type : LexerType} {len : Nat} {r : Bool × LexerToken} (at_ : At source b)
    (run : (extract peek_text len >>= fun str => pure (true,⟨type,some str⟩)) b = .ok r b') : At source b' := by
  obtain ⟨str,b₁,taken,last⟩ := bind_eq_ok_iff.mp run
  cases last
  exact extract_positioned at_ taken

/-! ### Between tokens -/

theorem blank_loop_positioned {d : Int} : ∀ {b : Lexer (List Int8)}, At source b → blank_loop peek_text fuel b = .ok d b' →
    At source b' ∧ d = glance (left b') 0 := by
  induction fuel with
  | zero =>
    intro b _ run
    cases run
  | succ fuel ih =>
    intro b at_ run
    rw [blank_loop,bind_ok (peek_text_eq (by decide))] at run
    split at run
    · cases run
      exact ⟨at_,rfl⟩
    rename_i blank
    obtain ⟨_,b₁,passed,run⟩ := bind_eq_ok_iff.mp run
    cases here : left b with
    | nil =>
      rw [here] at blank
      exact absurd ⟨by decide,by decide⟩ blank
    | cons c rest =>
      rw [here,glance_cons] at blank
      refine ih (consume_positioned at_ here ?_ passed) run
      rintro rfl
      exact blank ⟨by decide,by decide⟩

theorem comment_loop_positioned {d : Int} : ∀ {b : Lexer (List Int8)} {c : Int8} {rest : List Int8}, At source b →
    left b = c :: rest → c ≠ 10 → comment_loop peek_text fuel b = .ok d b' → At source b' ∧ d = glance (left b') 0 := by
  induction fuel with
  | zero =>
    intro b c rest _ _ _ run
    cases run
  | succ fuel ih =>
    intro b c rest at_ here other run
    obtain ⟨_,b₁,passed,run⟩ := bind_eq_ok_iff.mp run
    have at₁ := consume_positioned at_ here other passed
    rw [bind_ok (peek_text_eq (by decide))] at run
    split at run
    · rename_i inside
      cases here₁ : left b₁ with
      | nil =>
        rw [here₁] at inside
        exact absurd inside.1 (by decide)
      | cons d rest =>
        rw [here₁,glance_cons] at inside
        exact ih at₁ here₁ (fun is => inside.2 ((chr_iff rfl).mpr is)) run
    · cases run
      exact ⟨at₁,rfl⟩

theorem gap_loop_positioned {d : Int} : ∀ {b : Lexer (List Int8)}, At source b → gap_loop peek_text fuel b = .ok d b' →
    At source b' ∧ d = glance (left b') 0 := by
  induction fuel with
  | zero =>
    intro b _ run
    cases run
  | succ fuel ih =>
    intro b at_ run
    obtain ⟨e,b₁,blanks_,run⟩ := bind_eq_ok_iff.mp run
    obtain ⟨f,b₂,blank,comment⟩ := bind_eq_ok_iff.mp blanks_
    obtain ⟨at₂,is₂⟩ := blank_loop_positioned at_ blank
    have first : At source b₁ ∧ e = glance (left b₁) 0 := by
      split at comment
      · rename_i hash
        cases here : left b₂ with
        | nil =>
          rw [is₂,here] at hash
          exact absurd hash (by decide)
        | cons c rest =>
          rw [is₂,here,glance_cons] at hash
          obtain rfl : c = 35 := (chr_iff rfl).mp hash
          exact comment_loop_positioned at₂ here (by decide) comment
      · cases comment
        exact ⟨at₂,is₂⟩
    split at run
    · rename_i newline
      obtain ⟨_,b₃,passed,run⟩ := bind_eq_ok_iff.mp run
      cases here : left b₁ with
      | nil =>
        rw [first.2,here] at newline
        exact absurd newline (by decide)
      | cons c rest =>
        rw [first.2,here,glance_cons] at newline
        obtain rfl : c = 10 := (chr_iff rfl).mp newline
        exact ih (consume_newline_positioned first.1 here passed) run
    · cases run
      exact first

/-! ### Tokens -/

/-- The text from a quote on comes to another one, or its end, soon. -/
theorem quote_closes (quotes : QuotesClose source) (at_ : At source b) (here : left b = 34 :: more) :
    (more.takeWhile fun c => chr '"' ≠ c.toInt).length ≤ 250 := by
  obtain ⟨rfl,_⟩ := at_
  have there : b.input[b.ofs]? = some 34 := by
    rw [← Nat.add_zero b.ofs,← List.getElem?_drop,show b.input.drop b.ofs = 34 :: more from here]
    rfl
  have after : b.input.drop (b.ofs + 1) = more := by
    rw [← List.drop_drop,show b.input.drop b.ofs = 34 :: more from here]
    rfl
  have small := quotes b.ofs there
  rwa [after] at small

theorem literal_positioned {r : Bool × LexerToken} (quotes : QuotesClose source) (seven : ∀ c ∈ source, 0 < c.toInt)
    (at_ : At source b) (here : left b = 34 :: more) (run : literal peek_text b = .ok r b') : At source b' := by
  have small := quote_closes quotes at_ here
  obtain ⟨b₁,passed,input₁,left₁⟩ := consume_text here
  have at₁ := consume_positioned at_ here (by decide) passed
  obtain ⟨s,loop,ends⟩ := literal_loop_text (b := b₁) (n := 256) rfl body_none
  rw [left₁] at ends
  rw [literal,bind_ok passed,bind_ok loop] at run
  cases s with
  | none =>
    cases run
    exact error_positioned at₁ _
  | some l =>
    obtain ⟨most,body,quote⟩ := ends
    have less : l < 256 := by
      by_contra far
      have := takeWhile_long fun k less => body k (by omega : k < l)
      omega
    obtain ⟨str,b₂,taken,run⟩ := bind_eq_ok_iff.mp run
    obtain ⟨_,b₃,closed,last⟩ := bind_eq_ok_iff.mp run
    cases last
    have at₂ := extract_positioned at₁ taken
    -- What is extracted is the text up to the quote.
    have split : left b₁ = more.take l ++ more.drop l := by rw [left₁,List.take_append_drop]
    obtain ⟨b₂',taken',_,left₂⟩ := extract_run split fun c there =>
      positive_plain (seven c (at_.1 ▸ List.mem_of_mem_drop (show c ∈ left b by
        rw [here]
        exact List.mem_cons_of_mem _ (List.mem_of_mem_take there))))
    rw [List.length_take,Nat.min_eq_left (body_inside body),taken] at taken'
    cases taken'
    have there : l < more.length := char_inside (quote less).symm
    have next : left b₂ = 34 :: more.drop (l + 1) := by
      rw [left₂,List.drop_eq_getElem_cons there]
      have is := quote less
      rw [glance_there there] at is
      rw [(chr_iff (e := 34) rfl).mp is.symm]
    exact consume_positioned at₂ next (by decide) closed

theorem hex_positioned {r : Bool × LexerToken} (at_ : At source b) (here : left b = 48 :: 120 :: rest)
    (run : hex peek_text b = .ok r b') : At source b' := by
  rw [hex,bind_ok (peek_text_eq (by decide))] at run
  split at run
  · -- Both characters are passed at once.
    obtain ⟨b₁,passed₁,_,left₁⟩ := consume_text here
    obtain ⟨b₂,passed₂,_,left₂⟩ := consume_text left₁
    have at₂ := consume_positioned (consume_positioned at_ here (by decide) passed₁) left₁ (by decide) passed₂
    cases passed₁
    cases passed₂
    cases run
    obtain ⟨input,inside,line_no,col_no⟩ := at₂
    have two : b.col_no + UInt32.ofNat 2 = b.col_no + UInt32.ofNat 1 + UInt32.ofNat 1 := by
      rw [UInt32.add_assoc]
      rfl
    exact ⟨input,inside,line_no,col_no ▸ congrArg UInt32.toNat two⟩
  · obtain ⟨len,span,_⟩ := span_loop_class (b := b) isxdigit (show 253 + 3 = 256 from rfl)
    rw [bind_ok span] at run
    exact extracted_positioned at_ run

theorem number_positioned {r : Bool × LexerToken} (at_ : At source b) (run : number peek_text (glance (left b) 0) b = .ok r b') :
    At source b' := by
  obtain ⟨is_number,i,_,_,_,is⟩ := number_text (b := b) _ rfl
  rw [is] at run
  exact extracted_positioned at_ run

theorem token_positioned {r : Bool × LexerToken} (quotes : QuotesClose source) (seven : ∀ c ∈ source, 0 < c.toInt)
    (at_ : At source b) (run : Lexing.token peek_text (glance (left b) 0) b = .ok r b') : At source b' := by
  rw [Lexing.token] at run
  split at run
  · obtain ⟨len,span,_⟩ := span_loop_class (b := b) (fun c => chr '_' = c ∨ isalnum c) (show 255 + 1 = 256 from rfl)
    rw [alnum,bind_ok span] at run
    exact extracted_positioned at_ run
  split at run
  · rename_i quote
    cases here : left b with
    | nil =>
      rw [here] at quote
      exact absurd quote (by decide)
    | cons c more =>
      rw [here,glance_cons] at quote
      obtain rfl : c = 34 := (chr_iff rfl).mp quote
      exact literal_positioned quotes seven at_ here run
  split at run
  · rename_i zero
    rw [bind_ok (peek_text_eq (by decide))] at run
    split at run
    · rename_i x
      cases here : left b with
      | nil =>
        rw [here] at zero
        exact absurd zero (by decide)
      | cons c more =>
        cases more with
        | nil =>
          rw [here] at x
          exact absurd (show chr 'x' = PEEK_EOF from x) (by decide)
        | cons d more =>
          rw [here,glance_cons] at zero
          rw [here] at x
          obtain rfl : c = 48 := (chr_iff rfl).mp zero
          obtain rfl : d = 120 := (chr_iff rfl).mp x
          exact hex_positioned at_ here run
    · exact number_positioned at_ run
  · exact number_positioned at_ run

/-- A call for a token, with whatever it returns. -/
theorem token_get_positioned {r : Bool × LexerToken} (quotes : QuotesClose source) (seven : ∀ c ∈ source, 0 < c.toInt)
    (at_ : At source b) (run : lexer_token_get peek_text fuel b = .ok r b') : At source b' := by
  obtain ⟨_,b₁,cleared,run⟩ := bind_eq_ok_iff.mp run
  cases cleared
  rw [token_loop_gap] at run
  obtain ⟨c,b₂,gap,run⟩ := bind_eq_ok_iff.mp run
  obtain ⟨at₂,is⟩ := gap_loop_positioned (error_positioned at_ .none) gap
  split at run
  · cases run
    exact at₂
  · rw [is] at run
    exact token_positioned quotes seven at₂ run

theorem skip_loop_positioned {a_c : Int8} {r : Bool} : ∀ {b : Lexer (List Int8)}, At source b →
    skip_loop peek_text a_c fuel b = .ok r b' → At source b' := by
  induction fuel with
  | zero =>
    intro b _ run
    cases run
  | succ fuel ih =>
    intro b at_ run
    rw [skip_loop,bind_ok (peek_text_eq (by decide))] at run
    split at run
    · cases run
      exact at_
    rename_i noEof
    cases here : left b with
    | nil =>
      rw [here] at noEof
      exact absurd rfl noEof
    | cons c rest =>
      rw [here,glance_cons] at run
      obtain ⟨_,b₁,passed,run⟩ := bind_eq_ok_iff.mp run
      have at₁ := consume_char_positioned at_ here passed
      split at run
      · cases run
        exact at₁
      · exact ih at₁ run

/-! ### Runs -/

theorem upcoming_suffix : ∀ {text : List Int8} {comment : Bool}, upcoming comment text <:+ text := by
  intro text
  induction text with
  | nil => exact List.suffix_refl []
  | cons c text ih =>
    intro comment
    rw [upcoming]
    have later : ∀ comment, upcoming comment text <:+ c :: text := fun _ => ih.trans (List.suffix_cons c text)
    split_ifs
    · exact later false
    · exact later true
    · exact List.suffix_refl _
    · exact later false
    · exact later true
    · exact List.suffix_refl _

/-- No literal is as long as the buffer. -/
theorem closes_not_overlong (quotes : QuotesClose source) (at_ : At source b) : ¬ Overlong (left b) := by
  rintro ⟨quote,more,next,is,all⟩
  obtain rfl : quote = 34 := (chr_iff rfl).mp is
  obtain ⟨front,split⟩ : 34 :: more <:+ source := by
    rw [← next]
    refine upcoming_suffix.trans ?_
    rw [left,at_.1]
    exact List.drop_suffix _ _
  have there : source[front.length]? = some 34 := by
    rw [← split,List.getElem?_append_right (Nat.le_refl _),Nat.sub_self]
    rfl
  have after : source.drop (front.length + 1) = more := by
    rw [← split,← List.drop_drop,List.drop_left]
    rfl
  have small := quotes front.length there
  rw [after] at small
  have := takeWhile_long fun k less => ⟨(all k less).1,(all k less).2.2⟩
  omega

end

section
variable {σ : Type} {reader : Reader σ} {source : List Int8} {stale : Nat → Nat → Int8} {fuel : Nat} {p q : Program σ} {op : Op}

/-- The program has not stopped, and its lexer shows the source at the right position. -/
def Tracks (reader : Reader σ) (source : List Int8) (p : Program σ) : Prop :=
  p.stopped = none ∧ ∃ b, Same (Gives reader source) 0 p.lexer b ∧ At source b

theorem tracks_positioned (tracks : Tracks reader source p) : p.stopped = none ∧ Positioned source p.lexer := by
  obtain ⟨going,b,same,_,inside,line_no,col_no⟩ := tracks
  rw [← same.ofs] at inside line_no col_no
  exact ⟨going,inside,by rw [same.line_no]; exact line_no,by rw [same.col_no]; exact col_no⟩

theorem tracks_step (quotes : QuotesClose source) (seven : ∀ c ∈ source, 0 < c.toInt) (enough : source.length < fuel)
    (tracks : Tracks reader source p) (run : step (peek_char reader.callback stale) fuel p op = .ok q) : Tracks reader source q := by
  obtain ⟨going,b,same,at_⟩ := tracks
  have alike := gives_alike reader source stale
  have few : (left b).length < fuel := by
    rw [left,at_.1,List.length_drop]
    omega
  rw [step,going] at run
  cases op with
  | token_get =>
    have takes := (lexer_token_get_returns few).1
    cases text : lexer_token_get peek_text fuel b with
    | error stop b' =>
      rw [text] at takes
      exact absurd (seven _ (at_.1 ▸ takes.2)) (by decide)
    | ok r b' =>
      have agree := lexer_token_get_alike alike fuel p.lexer b same
      rw [text] at agree
      obtain ⟨_,_,⟨⟩,_⟩ | ⟨_,a',_,ring,⟨⟩,ends⟩ | ⟨_,_,_,_,⟨⟩,_⟩ := agree_cases agree
      have called : call (peek_char reader.callback stale) fuel .token_get p.lexer = .ok () a' :=
        bind_eq_ok_iff.mpr ⟨r,a',ring,rfl⟩
      simp only [called] at run
      cases run
      have notFull : ¬ Full r.2 := fun full =>
        closes_not_overlong quotes at_ ((lexer_token_get_text few).mp ⟨r,b',text,full⟩)
      exact ⟨rfl,b',ends.2 notFull,token_get_positioned quotes seven at_ text⟩
  | skip a_c =>
    obtain ⟨r,b',text⟩ : ∃ r b', lexer_skip peek_text fuel a_c b = .ok r b' := lexer_skip_returns few
    have agree := lexer_skip_alike alike fuel a_c p.lexer b same
    rw [text] at agree
    obtain ⟨_,_,⟨⟩,_⟩ | ⟨_,a',_,ring,⟨⟩,same'⟩ | ⟨_,_,_,_,⟨⟩,_⟩ := agree_cases agree
    have called : call (peek_char reader.callback stale) fuel (.skip a_c) p.lexer = .ok () a' :=
      bind_eq_ok_iff.mpr ⟨r,a',ring,rfl⟩
    simp only [called] at run
    cases run
    obtain ⟨_,b₁,cleared,skipped⟩ := bind_eq_ok_iff.mp text
    cases cleared
    exact ⟨rfl,b',same',skip_loop_positioned (error_positioned at_ .none) skipped⟩

theorem created_tracks (reader : Reader σ) (data : σ) : Tracks reader (reader.rest data) ⟨lexer_create data,none⟩ := by
  refine ⟨rfl,list_lexer (reader.rest data),created_same reader data,rfl,Nat.zero_le _,?_,?_⟩
  · rfl
  · rfl

/-- In every state of a run, `line_no` and `col_no` are one more than the number of
    newlines up to `ofs`, and than that of the characters after the last one, as
    `unsigned` numbers. -/
theorem positions_follow (reader : Reader σ) (stale : Nat → Nat → Int8) (data : σ) (extra : Nat) (ops : List Op)
    (seven : ∀ c ∈ reader.rest data, 0 < c.toInt) (quotes : QuotesClose (reader.rest data)) (p : Program σ)
    (reached : Reached (step (peek_char reader.callback stale) ((reader.rest data).length + 1 + extra))
      ⟨lexer_create data,none⟩ ops p) :
    p.stopped = none ∧ Positioned (reader.rest data) p.lexer := by
  refine tracks_positioned (reached_keeps (I := Tracks reader (reader.rest data)) ?_ (created_tracks reader data) reached)
  intro p op q tracks run
  exact tracks_step quotes seven (by omega) tracks run

/-- A line of blanks is passed by one call. -/
theorem blanks_passed (n : Nat) : ∃ p : Program (List Int8),
    Reached (step (peek_char stdio_fread fun _ _ => 0) ((List.replicate n (32 : Int8)).length + 1))
      ⟨lexer_create (List.replicate n (32 : Int8)),none⟩ [.token_get] p ∧ p.lexer.ofs = n := by
  obtain ⟨source,is⟩ : ∃ source, source = List.replicate n (32 : Int8) := ⟨_,rfl⟩
  have length : source.length = n := by rw [is,List.length_replicate]
  have skipped : upcoming false source = [] := by
    rw [is]
    clear is length
    induction n with
    | zero => rfl
    | succ n ih => exact ih
  have few : (left (list_lexer source)).length < source.length + 1 := Nat.lt_succ_self _
  obtain ⟨b₁,⟨input₁,left₁⟩,run⟩ := token_loop_text peek_text_sees (b := list_lexer source) few
  have here : left b₁ = [] := left₁.trans skipped
  have text : lexer_token_get peek_text (source.length + 1) (list_lexer source) = .ok (false,⟨.eof,none⟩) b₁ := by
    refine token_get_cleared.trans (run.trans (if_pos ?_))
    rw [here,glance_nil]
  obtain ⟨a,isA⟩ : ∃ a, a = lexer_create source := ⟨_,rfl⟩
  have created : Same (Gives file_reader source) 0 a (list_lexer source) := isA ▸ created_same file_reader source
  have agree := lexer_token_get_alike (gives_alike file_reader source fun _ _ => 0) (source.length + 1) a (list_lexer source) created
  rw [text] at agree
  obtain ⟨_,_,⟨⟩,_⟩ | ⟨_,a',_,ring,⟨⟩,ends⟩ | ⟨_,_,_,_,⟨⟩,_⟩ := agree_cases agree
  have same := ends.2 fun full => by cases full.1
  have called : call (peek_char stdio_fread fun _ _ => 0) (source.length + 1) .token_get a = .ok () a' :=
    bind_eq_ok_iff.mpr ⟨_,a',ring,rfl⟩
  rw [← is,← isA]
  refine ⟨⟨a',none⟩,⟨[.token_get],[],rfl,steps_cons_iff.mpr ⟨_,step_ok called,rfl⟩⟩,?_⟩
  have at_end := List.drop_eq_nil_iff.mp (show b₁.input.drop b₁.ofs = [] from here)
  have source_ : b₁.input = source := input₁
  have inside := same.inputs.inside
  have seen := same.inputs.seen
  have ofs := same.ofs
  rw [source_] at at_end inside
  simp only
  omega

theorem blanks_plain (n : Nat) : (∀ c ∈ List.replicate n (32 : Int8), 0 < c.toInt) ∧ QuotesClose (List.replicate n 32) := by
  constructor
  · intro c there
    rw [(List.mem_replicate.mp there).2]
    decide
  · intro k there
    have is := (List.mem_replicate.mp (List.mem_of_getElem? there)).2
    exact absurd is (by decide)

/-- Three blanks. -/
theorem positions_follow_blanks : (∀ c ∈ List.replicate 3 (32 : Int8), 0 < c.toInt) ∧ QuotesClose (List.replicate 3 32) ∧
    ∃ p : Program (List Int8), Reached (step (peek_char stdio_fread fun _ _ => 0) ((List.replicate 3 (32 : Int8)).length + 1))
      ⟨lexer_create (List.replicate 3 (32 : Int8)),none⟩ [.token_get] p ∧ p.lexer.ofs = 3 ∧ p.stopped = none ∧
      Positioned (List.replicate 3 32) p.lexer := by
  obtain ⟨seven,quotes⟩ := blanks_plain 3
  obtain ⟨p,reached,ofs⟩ := blanks_passed 3
  exact ⟨seven,quotes,p,reached,ofs,
    positions_follow file_reader (fun _ _ => 0) (List.replicate 3 32) 0 [.token_get] seven quotes p reached⟩

/-- Behind 2^32 blanks on one line, `col_no` is 1 again. -/
theorem positions_wrap : (∀ c ∈ List.replicate (2 ^ 32) (32 : Int8), 0 < c.toInt) ∧
    QuotesClose (List.replicate (2 ^ 32) 32) ∧
    ¬ ∀ p : Program (List Int8), Reached (step (peek_char stdio_fread fun _ _ => 0) ((List.replicate (2 ^ 32) (32 : Int8)).length + 1))
        ⟨lexer_create (List.replicate (2 ^ 32) (32 : Int8)),none⟩ [.token_get] p →
      p.lexer.line_no.toNat = 1 + newlines ((List.replicate (2 ^ 32) 32).take p.lexer.ofs) ∧
        p.lexer.col_no.toNat = 1 + column ((List.replicate (2 ^ 32) 32).take p.lexer.ofs) := by
  obtain ⟨n,nIs⟩ : ∃ n, n = 2 ^ 32 := ⟨_,rfl⟩
  rw [← nIs]
  refine ⟨(blanks_plain n).1,(blanks_plain n).2,fun all => ?_⟩
  obtain ⟨p,reached,ofs⟩ := blanks_passed n
  have col_no := (all p reached).2
  have small := UInt32.toNat_lt p.lexer.col_no
  have wide : column (List.replicate n 32) = n := by simp [column]
  rw [ofs,List.take_of_length_le (by rw [List.length_replicate]),wide] at col_no
  omega

end

end Htools.Lexing
