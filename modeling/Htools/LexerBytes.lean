import Htools.LexerRuns

/-!
The lexer and bytes above 127. Characters are signed, so that such a byte is below
zero: it ends a comment, and 0xff and 0xfe look like the two other values of
`peek_char`. A run of a lexer is right exactly if it never comes upon such a byte
in one of these places (`right_iff`).
-/
namespace Htools.Lexing
open Htools.Runs Htools.Simulation

/-- The text from the next token on, where a comment ends at the end of its line and
    nowhere else. -/
def skipped (comment : Bool) : List Int8 → List Int8
  | [] => []
  | c :: rest =>
    if chr '\n' = c.toInt then skipped false rest
    else if comment then skipped true rest
    else if chr ' ' = c.toInt ∨ chr '\t' = c.toInt then skipped false rest
    else if chr '#' = c.toInt then skipped true rest
    else c :: rest

/-- The comments before the next token have only positive characters. -/
def PlainComments (comment : Bool) : List Int8 → Prop
  | [] => True
  | c :: rest =>
    if chr '\n' = c.toInt then PlainComments false rest
    else if comment then 0 < c.toInt ∧ PlainComments true rest
    else if chr ' ' = c.toInt ∨ chr '\t' = c.toInt then PlainComments false rest
    else if chr '#' = c.toInt then PlainComments true rest
    else True

/-- A literal with this text after its quote ends with an error, or has no 0xfe. -/
def PlainLiteral (text : List Int8) : Prop :=
  (∃ k < 256, Body text k ∧ glance text k = PEEK_EOF) ∨ ∀ k < 256, Body text (k + 1) → glance text k ≠ PEEK_OVERFLOW

/-- The comments before the next token have only positive characters, and the token
    does not begin with 0xff or 0xfe, nor is it a literal with 0xfe. -/
def Plain (text : List Int8) : Prop :=
  PlainComments false text ∧ ∀ c rest, skipped false text = c :: rest →
    c ≠ -1 ∧ c ≠ -2 ∧ (chr '"' = c.toInt → PlainLiteral rest)

section
variable {b : Lexer (List Int8)}

theorem extract_plain {len : Nat} : ∀ {b}, (∀ k < len, glance (left b) k ≠ PEEK_EOF) →
    ((∃ str b', extract peek_text len b = .ok str b') ↔ ∀ k < len, glance (left b) k ≠ PEEK_OVERFLOW) := by
  induction len with
  | zero => exact fun {b} _ => iff_of_true ⟨[],b,rfl⟩ fun k less => absurd less (Nat.not_lt_zero k)
  | succ len ih =>
    intro b there
    rw [extract,bind_ok (peek_text_eq (by decide))]
    by_cases overflow : PEEK_OVERFLOW = glance (left b) 0
    · rw [if_pos overflow]
      refine iff_of_false ?_ fun all => all 0 (Nat.succ_pos _) overflow.symm
      rintro ⟨_,_,⟨⟩⟩
    rw [if_neg overflow,if_neg (Ne.symm (there 0 (Nat.succ_pos _)))]
    cases here : left b with
    | nil =>
      rw [here] at there
      exact absurd rfl (there 0 (Nat.succ_pos _))
    | cons c rest =>
      rw [here] at there
      rw [here,glance_cons] at overflow
      rw [glance_cons]
      obtain ⟨b₁,passed,_,left₁⟩ := consume_char_text (d := c) here
      have later := ih (b := b₁) (by
        rw [left₁]
        exact fun k less => there (k + 1) (Nat.succ_lt_succ less))
      rw [left₁] at later
      rw [bind_ok passed]
      constructor
      · rintro ⟨str,b',run⟩
        obtain ⟨str',b₂,run',_⟩ := bind_eq_ok_iff.mp run
        have all := later.mp ⟨str',b₂,run'⟩
        rintro (_ | k) less
        · exact Ne.symm overflow
        · exact all k (Nat.lt_of_succ_lt_succ less)
      · intro all
        obtain ⟨str,b',run⟩ := later.mpr fun k less => all (k + 1) (Nat.succ_lt_succ less)
        exact ⟨_,b',by rw [bind_ok run]; rfl⟩

/-- A call is right: it passes comments as it should, says that the source is at its end
    only there, and no assertion fails. -/
structure Right {ι : Type} (peek : Nat → LexerM ι Int) (fuel : Nat) (source : List Int8) (a : Lexer ι) : Prop where
  comments : ∀ c a', gap_loop peek fuel a = .ok c a' → source.drop a'.ofs = skipped false (source.drop a.ofs)
  consumed : ∀ r a', lexer_token_get peek fuel a = .ok r a' → r.2.type = .eof → source.length ≤ a'.ofs
  asserts : ∀ a', lexer_token_get peek fuel a ≠ .error .abort a'

end

/-! ### Runs of a lexer -/

section
variable {ι κ : Type} {Out : Stop → Prop} {R : Nat → Nat → ι → κ → Prop} {peek : Nat → LexerM ι Int} {peek' : Nat → LexerM κ Int}

end

section
variable {σ : Type} {callback : LexerCallback σ} {F : Nat → σ → Prop} {source : List Int8} {stale : Nat → Nat → Int8}
  {fuel : Nat} {a : Lexer (Buffer σ)} {b : Lexer (List Int8)}

/-- The characters of the source come through the ring buffer. -/
abbrev Through (F : Nat → σ → Prop) (source : List Int8) (n ofs : Nat) (i : Buffer σ) (text : List Int8) : Prop :=
  Shows F (fun _ => True) source false n ofs i text

end

section
variable {σ : Type} {reader : Reader σ} {source : List Int8} {stale : Nat → Nat → Int8} {fuel : Nat} {a : Lexer (Buffer σ)}
  {p : Program σ} {op : Op}

abbrev Gives (reader : Reader σ) (source : List Int8) (n ofs : Nat) (i : Buffer σ) (text : List Int8) : Prop :=
  Through (fun e s => reader.rest s = source.drop e) source n ofs i text

/-- The lexer has passed its buffer by a character. -/
def Passed (reader : Reader σ) (source : List Int8) (a : Lexer (Buffer σ)) : Prop :=
  ∃ ofs, a.ofs = ofs + 257 ∧ Gives reader source 256 ofs a.input source

/-- A lexer that has passed its buffer gives the end of the source, or makes a request
    that is too large. -/
theorem peek_passed (passed : Passed reader source a) :
    (∃ a', peek_char reader.callback stale 0 a = .ok PEEK_EOF a' ∧ a'.ofs = a.ofs ∧ source.length ≤ a.ofs ∧
      Passed reader source a') ∨ ∃ a', peek_char reader.callback stale 0 a = .error .fault a' := by
  obtain ⟨ofs,is,shows_⟩ := passed
  have seen := shows_.seen
  have room := shows_.room
  have beyond : a.ofs = a.input.buf_end + 1 := by omega
  rw [peek_char,if_neg (by decide),if_pos (by omega)]
  cases going : a.input.buf_ended with
  | true =>
    have length := shows_.ended going
    rw [if_pos rfl]
    exact .inl ⟨a,rfl,rfl,by omega,ofs,is,shows_⟩
  | false =>
    rw [if_neg Bool.false_ne_true,request_over beyond]
    obtain ⟨chars,callback_data,run⟩ : ∃ chars callback_data,
      reader.callback a.input.callback_data 257 = (chars,callback_data) := ⟨_,_,rfl⟩
    have fed := shows_.feeds going fun part => by cases part
    cases chars with
    | nil =>
      have none := reader.fills a.input.callback_data 257
      rw [run] at none
      have rest := (List.take_eq_nil_iff.mp none.symm).resolve_left (by decide)
      have drains := reader.drains a.input.callback_data 257
      rw [run,rest,List.drop_nil] at drains
      rw [fed,List.drop_eq_nil_iff] at rest
      rw [read_nothing run]
      refine .inl ⟨_,rfl,rfl,by omega,ofs,is,{ shows_ with fine := trivial,feeds := fun _ _ => ?_ }⟩
      exact drains.trans (List.drop_eq_nil_of_le rest).symm
    | cons c chars =>
      have some_ : ¬ 0 = (c :: chars).length := Nat.succ_ne_zero _ ∘ Eq.symm
      refine .inr ⟨{ a with input := { a.input with callback_data := callback_data } },?_⟩
      simp only [Lexing.read,run]
      rw [if_neg some_,if_pos (by decide)]

theorem gap_loop_eof {ι : Type} {peek : Nat → LexerM ι Int} {a a' : Lexer ι} (eof : peek 0 a = .ok PEEK_EOF a') :
    gap_loop peek (fuel + 1) a = .ok PEEK_EOF a' := by
  have blank : blank_loop peek (fuel + 1) a = .ok PEEK_EOF a' := (bind_ok eof).trans rfl
  have first : blanks peek (fuel + 1) a = .ok PEEK_EOF a' := (bind_ok blank).trans rfl
  exact (bind_ok first).trans rfl

theorem gap_loop_fault {ι : Type} {peek : Nat → LexerM ι Int} {a a' : Lexer ι} {stop : Stop}
    (fault : peek 0 a = .error stop a') : gap_loop peek (fuel + 1) a = .error stop a' :=
  bind_error (bind_error (bind_error fault))

/-- There is nothing wrong with the calls of a lexer that has passed its buffer, as
    far as they return. -/
theorem right_passed (passed : Passed reader source a) : Right (peek_char reader.callback stale) (fuel + 1) source a ∧
    ∀ r a', lexer_token_get (peek_char reader.callback stale) (fuel + 1) a = .ok r a' →
      r = (false,⟨.eof,none⟩) ∧ Passed reader source a' := by
  have cleared : Passed reader source { a with error := .none } := passed
  have main : ∀ {c b}, gap_loop (peek_char reader.callback stale) (fuel + 1) { a with error := .none } = .ok c b →
      lexer_token_get (peek_char reader.callback stale) (fuel + 1) a =
        (if PEEK_EOF = c then pure (false,⟨.eof,none⟩) else token (peek_char reader.callback stale) c) b := by
    intro c b gap
    refine token_get_cleared.trans ?_
    rw [token_loop_gap]
    exact bind_ok gap
  have gaps : ∀ c b, gap_loop (peek_char reader.callback stale) (fuel + 1) a = .ok c b →
      source.drop b.ofs = skipped false (source.drop a.ofs) := by
    intro c b gap
    obtain ⟨a',look,ofs,past,_⟩ | ⟨a',look⟩ := peek_passed passed
    · rw [gap_loop_eof look] at gap
      cases gap
      rw [ofs,List.drop_eq_nil_of_le past]
      rfl
    · rw [gap_loop_fault look] at gap
      cases gap
  obtain ⟨a',look,ofs,past,later⟩ | ⟨a',look⟩ := peek_passed cleared
  · have run := main (gap_loop_eof look)
    rw [if_pos rfl] at run
    rw [run]
    refine ⟨⟨gaps,?_,?_⟩,?_⟩
    · rw [run]
      rintro _ _ ⟨⟩ _
      rw [ofs]
      exact past
    · rw [run]
      rintro _ ⟨⟩
    · rintro _ _ ⟨⟩
      exact ⟨rfl,later⟩
  · have run : lexer_token_get (peek_char reader.callback stale) (fuel + 1) a = .error .fault a' := by
      refine token_get_cleared.trans ?_
      rw [token_loop_gap]
      exact bind_error (gap_loop_fault look)
    rw [run]
    refine ⟨⟨gaps,?_,?_⟩,by rintro _ _ ⟨⟩⟩
    · rw [run]
      rintro _ _ ⟨⟩
    · rw [run]
      rintro _ ⟨⟩

/-- The next text is plain, unless the lexer has passed its buffer. -/
def Harmless (source : List Int8) (p : Program σ) (op : Op) : Prop :=
  op = .token_get → p.stopped = none → p.lexer.ofs ≤ p.lexer.input.buf_end → Plain (source.drop p.lexer.ofs)

/-- What a lexer is like that has not stopped. -/
def Placed (reader : Reader σ) (source : List Int8) (p : Program σ) : Prop :=
  p.stopped = none → (∃ b, Same (Gives reader source) 0 p.lexer b) ∨ Passed reader source p.lexer

theorem gives_alike (reader : Reader σ) (source : List Int8) (stale : Nat → Nat → Int8) :
    Alike (Past false) (Gives reader source) (peek_char reader.callback stale) peek_text :=
  shows_alike (reader_feeds reader source) stale fun _ _ _ _ _ => trivial

theorem step_stopped {peek : Nat → LexerM (Buffer σ) Int} {stop : Stop} (stopped : p.stopped = some stop) :
    step peek fuel p op = .ok p := by
  rw [step,stopped]

/-- A step that was not stopped leaves what its call leaves. -/
theorem step_call {peek : Nat → LexerM (Buffer σ) Int} {q : Program σ} (going : p.stopped = none)
    (run : step peek fuel p op = .ok q) (alive : q.stopped = none) : call peek fuel op p.lexer = .ok () q.lexer := by
  rw [step,going] at run
  cases last : call peek fuel op p.lexer with
  | ok _ b =>
    rw [last] at run
    cases run
    rfl
  | error stop b =>
    rw [last] at run
    cases run
    cases alive

theorem placed_step (op : Op) (placed : Placed reader source p) {q : Program σ}
    (run : step (peek_char reader.callback stale) (fuel + 1) p op = .ok q) : Placed reader source q := by
  intro alive
  cases going : p.stopped with
  | some stop =>
    rw [step_stopped going] at run
    cases run
    exact placed alive
  | none =>
    have called := step_call going run alive
    rcases placed going with ⟨b,same⟩ | passed
    · cases op with
      | token_get =>
        obtain ⟨r,a',ring,last⟩ := bind_eq_ok_iff.mp called
        cases last
        have agree := lexer_token_get_alike (gives_alike reader source stale) (fuel + 1) p.lexer b same
        rw [ring] at agree
        obtain ⟨_,_,_,⟨⟩,_⟩ | ⟨_,_,b',⟨⟩,_,ends⟩ | ⟨_,_,_,⟨⟩,_⟩ := agree_cases agree
        by_cases full : Full r.2
        · obtain ⟨ofs,passed,shows_⟩ := (ends.1 full).inputs
          rw [shows_.whole] at shows_
          exact .inr ⟨ofs,passed,shows_⟩
        · exact .inl ⟨b',ends.2 full⟩
      | skip a_c =>
        obtain ⟨r,a',ring,last⟩ := bind_eq_ok_iff.mp called
        cases last
        have agree := lexer_skip_alike (gives_alike reader source stale) (fuel + 1) a_c p.lexer b same
        rw [ring] at agree
        obtain ⟨_,_,_,⟨⟩,_⟩ | ⟨_,_,b',⟨⟩,_,same'⟩ | ⟨_,_,_,⟨⟩,_⟩ := agree_cases agree
        exact .inl ⟨b',same'⟩
    · cases op with
      | token_get =>
        obtain ⟨r,a',ring,last⟩ := bind_eq_ok_iff.mp called
        cases last
        exact .inr ((right_passed passed).2 r _ ring).2
      | skip a_c =>
        obtain ⟨r,a',ring,last⟩ := bind_eq_ok_iff.mp called
        cases last
        have cleared : Passed reader source { p.lexer with error := .none } := passed
        obtain ⟨a',look,_,_,later⟩ | ⟨a',look⟩ := peek_passed cleared
        · have skips : lexer_skip (peek_char reader.callback stale) (fuel + 1) a_c p.lexer = .ok false a' :=
            (bind_ok rfl).trans ((bind_ok look).trans rfl)
          rw [skips] at ring
          cases ring
          exact .inr later
        · have skips : lexer_skip (peek_char reader.callback stale) (fuel + 1) a_c p.lexer = .error .fault a' :=
            (bind_ok rfl).trans (bind_error look)
          rw [skips] at ring
          cases ring

theorem created_placed (reader : Reader σ) (data : σ) : Placed reader (reader.rest data) ⟨lexer_create data,none⟩ :=
  fun _ => .inl ⟨list_lexer (reader.rest data),created_shows trivial rfl⟩

end

end Htools.Lexing
