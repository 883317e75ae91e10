import Htools.LexerText
import Htools.Runs

/-!
Runs of a program that uses a lexer. A literal that is not closed within 256
characters is the one token after which `ofs` has passed `buf_end` (`bounded_iff`):
the closing quote is taken as read where there is none.
-/
namespace Htools.Lexing
open Htools.Runs Htools.Simulation

/-! ### Runs -/

inductive Op where
  | token_get
  | skip (a_c : Int8)

section
variable {σ : Type}

/-- A program that uses a lexer; where it stops, the lexer stays as it is. -/
structure Program (σ : Type) where
  lexer : Lexer (Buffer σ)
  stopped : Option Stop

def call (peek : Nat → LexerM (Buffer σ) Int) (fuel : Nat) : Op → LexerM (Buffer σ) Unit
  | .token_get => do
    let _ ← lexer_token_get peek fuel
    return ()
  | .skip a_c => do
    let _ ← lexer_skip peek fuel a_c
    return ()

def step (peek : Nat → LexerM (Buffer σ) Int) (fuel : Nat) (p : Program σ) (op : Op) : Except Stop (Program σ) :=
  match p.stopped with
  | some _ => .ok p
  | none =>
    match call peek fuel op p.lexer with
    | .ok _ a => .ok ⟨a,none⟩
    | .error stop a => .ok ⟨a,some stop⟩

/-- A callback that also keeps the numbers of characters that it is asked for. -/
def logged (callback : LexerCallback σ) : LexerCallback (σ × List Nat) := fun s n =>
  let (chars,callback_data) := callback s.1 n
  (chars,callback_data,s.2 ++ [n])

def Reader.logged (reader : Reader σ) : Reader (σ × List Nat) where
  callback := Lexing.logged reader.callback
  rest s := reader.rest s.1
  fills s n := reader.fills s.1 n
  drains s n := reader.drains s.1 n

/-- Every request fits into the local array. -/
def Fits (requests : List Nat) : Prop := ∀ n ∈ requests, 1 ≤ n ∧ n ≤ 256

/-- The positions are in order and at most a buffer apart, and all requests fit;
    no loop has been cut off. -/
structure Bounded (p : Program (σ × List Nat)) : Prop where
  ofs_le : p.lexer.ofs ≤ p.lexer.input.buf_end
  le_ofs : p.lexer.input.buf_end ≤ p.lexer.ofs + 256
  fits : Fits p.lexer.input.callback_data.2
  fuel : p.stopped ≠ some .fuel

/-- The next token is not an overlong literal. -/
def Closes (source : List Int8) (p : Program (σ × List Nat)) (op : Op) : Prop :=
  op = .token_get → p.stopped = none → ¬ Overlong (source.drop p.lexer.ofs)

/-- The lexer shows the source. -/
def Follows (reader : Reader σ) (source : List Int8) (p : Program (σ × List Nat)) : Prop :=
  p.stopped ≠ some .fuel ∧
    ∃ b, Same (Shows (fun e s => reader.rest s.1 = source.drop e) (fun s => Fits s.2) source false) 0 p.lexer b

section
variable {reader : Reader σ} {source : List Int8} {stale : Nat → Nat → Int8} {fuel : Nat} {p : Program (σ × List Nat)}

theorem logged_alike (reader : Reader σ) (source : List Int8) (stale : Nat → Nat → Int8) :
    Alike (Past false) (Shows (fun e s => reader.rest s.1 = source.drop e) (fun s => Fits s.2) source false)
      (peek_char (logged reader.callback) stale) peek_text := by
  refine shows_alike (reader_feeds reader.logged source) stale ?_
  intro s n positive small fits m there
  obtain before | new := List.mem_append.mp there
  · exact fits m before
  · rw [List.mem_singleton.mp new]
    exact ⟨positive,small⟩

theorem bounded_of_follows (follows : Follows reader source p) : Bounded p := by
  obtain ⟨fuel,b,same⟩ := follows
  exact ⟨same.inputs.seen,same.inputs.room,same.inputs.fine,fuel⟩

theorem step_ok {peek : Nat → LexerM (Buffer σ) Int} {a a' : Lexer (Buffer σ)} {op : Op}
    (run : call peek fuel op a = .ok () a') : step peek fuel ⟨a,none⟩ op = .ok ⟨a',none⟩ := by
  simp only [step,run]

theorem step_error {peek : Nat → LexerM (Buffer σ) Int} {a a' : Lexer (Buffer σ)} {op : Op} {stop : Stop}
    (run : call peek fuel op a = .error stop a') : step peek fuel ⟨a,none⟩ op = .ok ⟨a',some stop⟩ := by
  simp only [step,run]

/-- One call leaves a lexer that shows the source, or has passed its buffer after
    an overlong literal. -/
theorem step_follows (enough : source.length < fuel) (follows : Follows reader source p) (op : Op) :
    ∃ q, step (peek_char (logged reader.callback) stale) fuel p op = .ok q ∧
      ((Closes source p op ∧ Follows reader source q) ∨ (¬ Closes source p op ∧ ¬ Bounded q)) := by
  obtain ⟨running,b,same⟩ := follows
  have alike := logged_alike reader source stale
  obtain ⟨a,_ | stop⟩ := p
  case some =>
    refine ⟨⟨a,some stop⟩,rfl,.inl ⟨?_,running,b,same⟩⟩
    intro _ going
    cases going
  have leftIs : left b = source.drop a.ofs := by
    rw [left,same.inputs.whole,same.ofs]
  have short : (left b).length < fuel := by
    rw [leftIs,List.length_drop]
    omega
  cases op with
  | token_get =>
    have overlong := lexer_token_get_text short
    rw [leftIs] at overlong
    obtain ⟨_,_,_,⟨⟩,_⟩ | ⟨r,a',b',ring,text,beyond,settled⟩ | ⟨stop,a',b',ring,text,same'⟩ :=
      agree_cases (lexer_token_get_alike alike fuel a b same)
    · refine ⟨⟨a',none⟩,step_ok (bind_eq_ok_iff.mpr ⟨r,a',ring,rfl⟩),?_⟩
      by_cases full : Full r.2
      · obtain ⟨ofs,passed,shown⟩ := (beyond full).inputs
        refine .inr ⟨fun closes => closes rfl rfl (overlong.mp ⟨r,b',text,full⟩),fun bounded => ?_⟩
        have le := bounded.ofs_le
        have room := shown.room
        simp only at le
        omega
      · refine .inl ⟨fun _ _ found => ?_,(fun is => by cases is),b',settled full⟩
        obtain ⟨r',b'',text',full'⟩ := overlong.mpr found
        rw [text] at text'
        cases text'
        exact full full'
    · have takes := (lexer_token_get_returns short).1
      rw [text] at takes
      rw [takes.1] at ring text
      refine ⟨⟨a',some .abort⟩,step_error (by rw [call,bind_error ring]),.inl ⟨fun _ _ found => ?_,(fun is => by cases is),b',same'⟩⟩
      obtain ⟨r,b'',text',_⟩ := overlong.mpr found
      rw [text] at text'
      cases text'
  | skip a_c =>
    have closes : Closes source ⟨a,none⟩ (.skip a_c) := by
      intro is
      cases is
    obtain ⟨_,_,_,⟨⟩,_⟩ | ⟨r,a',b',ring,_,same'⟩ | ⟨_,_,_,_,text,_⟩ :=
      agree_cases (lexer_skip_alike alike fuel a_c a b same)
    · exact ⟨⟨a',none⟩,step_ok (bind_eq_ok_iff.mpr ⟨r,a',ring,rfl⟩),.inl ⟨closes,(fun is => by cases is),b',same'⟩⟩
    · obtain ⟨r,b',returns⟩ := lexer_skip_returns short
      rw [returns] at text
      cases text

theorem lexer_create_follows (reader : Reader σ) (data : σ) :
    Follows reader (reader.rest data) ⟨lexer_create (data,[]),none⟩ := by
  refine ⟨nofun,⟨.none,1,1,0,reader.rest data⟩,rfl,rfl,rfl,rfl,?_⟩
  exact shows_nothing (fun n none => by cases none) rfl

/-- In every state that a program comes to the positions are in order, and the
    callback has been asked for 1 to 256 characters at a time, exactly if no token
    that it gets is an overlong literal. The fuel is more than the source needs. -/
theorem bounded_iff (reader : Reader σ) (stale : Nat → Nat → Int8) (data : σ) (extra : Nat) (ops : List Op) :
    (∀ p, Reached (step (peek_char (logged reader.callback) stale) ((reader.rest data).length + 1 + extra))
      ⟨lexer_create (data,[]),none⟩ ops p → Bounded p) ↔
    Along (step (peek_char (logged reader.callback) stale) ((reader.rest data).length + 1 + extra))
      (Closes (reader.rest data)) ⟨lexer_create (data,[]),none⟩ ops := by
  have enough : (reader.rest data).length < (reader.rest data).length + 1 + extra := by omega
  refine reached_iff (I := Follows reader (reader.rest data)) ?_ ?_ (lexer_create_follows reader data)
    (bounded_of_follows (lexer_create_follows reader data))
  · intro p op q follows closes run
    obtain ⟨q',run',⟨_,follows'⟩ | ⟨passes,_⟩⟩ := step_follows enough follows op
    · rw [run'] at run
      cases run
      exact follows'
    · exact absurd closes passes
  · intro p op follows _
    obtain ⟨q,run,⟨closes,follows'⟩ | ⟨passes,unbounded⟩⟩ := step_follows enough follows op
    · refine iff_of_true ?_ closes
      intro q' run'
      rw [run] at run'
      cases run'
      exact bounded_of_follows follows'
    · exact iff_of_false (fun all => unbounded (all q run)) passes

/-- A file of a quote and 256 letters. -/
theorem bounded_fails : ¬ ∀ p, Reached (step (peek_char (logged stdio_fread) fun _ _ => 0) 258)
    ⟨lexer_create (34 :: List.replicate 256 97,[]),none⟩ [.token_get] p → Bounded p := by
  intro all
  have enough : (34 :: List.replicate 256 97 : List Int8).length < 258 := by
    rw [List.length_cons,List.length_replicate]
    decide
  obtain ⟨q,run,⟨closes,_⟩ | ⟨_,unbounded⟩⟩ := step_follows enough
    (lexer_create_follows file_reader (34 :: List.replicate 256 97)) .token_get
  · refine closes rfl rfl ⟨34,List.replicate 256 97,rfl,rfl,fun k less => ?_⟩
    have : glance (List.replicate 256 97) k = 97 := by
      rw [glance,List.getElem?_replicate_of_lt less]
      rfl
    rw [this]
    decide
  · exact unbounded (all q ⟨[.token_get],[],rfl,steps_cons_iff.mpr ⟨q,run,rfl⟩⟩)

end

end

end Htools.Lexing
