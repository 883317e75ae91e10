import Htools.LexerText

/-!
The configuration reader (`hutils/src/config.c`). A configuration is a list of
sections, each with its named values; `load` reads one from a lexer. The reader
of `config_collection_load_from_memory` does not move on in its buffer, so that
it is right only as far as one request goes (`memory_matches`).
-/
namespace Htools.ConfigFile
open Htools.Lexing Htools.Simulation

inductive ConfigType where
  | d
  | i32
  | str
  deriving DecidableEq, Repr

/-- What the code uses of `double`. -/
structure Doubles (D : Type) where
  strtod : List Int8 → D
  of_int32 : Int32 → D

/-- A value; the string is none for the null pointer. -/
structure Config (D : Type) where
  name : List Int8
  type : ConfigType
  d : D
  i32 : Int32
  str : Option (List Int8)
  deriving DecidableEq, Repr

structure ConfigSection (D : Type) where
  name : List Int8
  config_list : List (Config D)
  deriving DecidableEq, Repr

/-- The section list of `struct ConfigCollection`. -/
abbrev ConfigCollection (D : Type) := List (ConfigSection D)

/-- The string that a text holds. -/
def c_str (text : List Int8) : List Int8 := text.takeWhile (· ≠ 0)

/-! `strtol`, without the end pointer. -/

def isspace (c : Int) : Bool := chr ' ' = c ∨ chr '\t' ≤ c ∧ c ≤ chr '\r'

def digit_value (c : Int) : Nat :=
  if isdigit c then (c - chr '0').toNat
  else if chr 'a' ≤ c ∧ c ≤ chr 'z' then (c - chr 'a' + 10).toNat
  else if chr 'A' ≤ c ∧ c ≤ chr 'Z' then (c - chr 'A' + 10).toNat
  else 36

def digits_value (base : Nat) : Nat → List Int8 → Nat
  | value,[] => value
  | value,c :: rest =>
    if digit_value c.toInt < base then digits_value base (value * base + digit_value c.toInt) rest else value

/-- The text after the prefix `0x`, where base 16 has one. -/
def after_prefix (base : Nat) : List Int8 → List Int8
  | zero :: x :: c :: rest =>
    if base = 16 ∧ chr '0' = zero.toInt ∧ (chr 'x' = x.toInt ∨ chr 'X' = x.toInt) ∧ isxdigit c.toInt then c :: rest
    else zero :: x :: c :: rest
  | text => text

def strtol (text : List Int8) (base : Nat) : Int :=
  let text := text.dropWhile fun c => isspace c.toInt
  let sign := (text.headD 0).toInt
  let text := if chr '-' = sign ∨ chr '+' = sign then text.drop 1 else text
  let value := digits_value base 0 ( after_prefix base text)
  if chr '-' = sign then max (-2 ^ 63) (-(value : Int)) else min (2 ^ 63 - 1) (value : Int)

section
variable {D : Type} (doubles : Doubles D)

def config_sets (a_config : Config D) (a_str : List Int8) : Config D :=
  if chr '0' = (a_str.headD 0).toInt ∧ chr 'x' = ((a_str.drop 1).headD 0).toInt then
    let i32 := Int32.ofInt (strtol (c_str (a_str.drop 2)) 16)
    { a_config with type := .str, i32 := i32, d := doubles.of_int32 i32, str := some (c_str a_str) }
  else
    { a_config with
      type := .str
      d := doubles.strtod (c_str a_str)
      i32 := Int32.ofInt (strtol (c_str a_str) 10)
      str := some (c_str a_str) }

/-- The entry that `create_config` puts at the end of the list. -/
def create_config (a_name : List Int8) : Config D where
  name := c_str a_name
  type := .d
  d := doubles.of_int32 0
  i32 := 0
  str := none

def create_section (a_coll : ConfigCollection D) (a_name : List Int8) : ConfigCollection D :=
  a_coll ++ [{ name := c_str a_name, config_list := [] }]

/-- The pointer is an index. -/
def get_section (a_coll : ConfigCollection D) (a_name : List Int8) : Option Nat :=
  a_coll.findIdx? fun section_ => section_.name = c_str a_name

def get_config (a_section : ConfigSection D) (a_name : List Int8) : Option (Config D) :=
  a_section.config_list.find? fun config => config.name = c_str a_name

/-- What `load` writes to `stderr` before it returns the null pointer. -/
structure Message where
  line_no : UInt32
  col_no : UInt32
  descr : String
  deriving DecidableEq, Repr

section
variable {ι : Type}

def LOAD_ERROR {α : Type} (descr : String) : LexerM ι (Except Message α) := fun a =>
  .ok (.error ⟨a.line_no,a.col_no,descr⟩) a

/-- `token.str`, where it is used. -/
def text (token : LexerToken) : LexerM ι (List Int8) :=
  match token.str with
  | none => throw .fault
  | some str => return str

/-- `token.str[0]`. -/
def first (token : LexerToken) : LexerM ι Int := do
  let str ← text token
  return (str.headD 0).toInt

variable (peek_char : Nat → LexerM ι Int) (fuel : Nat)

/-- The part of `load` after a `[`. -/
def load_section (coll : ConfigCollection D) : LexerM ι (Except Message (ConfigCollection D)) := do
  let (got,token) ← lexer_token_get peek_char fuel
  if ¬ got ∨ token.type ≠ .alnum then LOAD_ERROR "Missing section name"
  else do
    let name ← text token
    if (get_section coll name).isSome then LOAD_ERROR "Duplicated section"
    else do
      let (got,token) ← lexer_token_get peek_char fuel
      if ¬ got then LOAD_ERROR "Missing ']'"
      else do
        let c ← first token
        if chr ']' ≠ c then LOAD_ERROR "Missing ']'" else return .ok (create_section coll name)

/-- The part of `load` after the name of a value. -/
def load_config (coll : ConfigCollection D) (last_section : Nat) (name : List Int8) :
    LexerM ι (Except Message (ConfigCollection D)) := do
  let (got,token) ← lexer_token_get peek_char fuel
  if ¬ got then LOAD_ERROR "Missing '='"
  else do
    let c ← first token
    if chr '=' ≠ c then LOAD_ERROR "Expected '='"
    else do
      let (got,token) ← lexer_token_get peek_char fuel
      if ¬ got then LOAD_ERROR "Missing value"
      else do
        let str ← text token
        let config := config_sets doubles (create_config doubles name) str
        let config := if token.type = .number then { config with type := .d } else config
        return .ok (coll.modify last_section fun s => { s with config_list := s.config_list ++ [config] })

/-- The loop of `load`. -/
def load_loop : Nat → ConfigCollection D → Option Nat → LexerM ι (Except Message (ConfigCollection D))
  | 0,_,_ => throw .fuel
  | rounds + 1,coll,last_section => do
    let (got,token) ← lexer_token_get peek_char fuel
    if ¬ got then
      if token.type = .error then LOAD_ERROR "Lexer parser error" else return .ok coll
    else do
      let c ← first token
      if chr '[' = c then do
        match ← load_section peek_char fuel coll with
        | .error message => return .error message
        | .ok coll => load_loop rounds coll (some (coll.length - 1))
      else if token.type = .alnum then do
        let name ← text token
        match last_section with
        | none => LOAD_ERROR "Section required before config"
        | some i =>
          if (coll[i]?.bind fun s => get_config s name).isSome then LOAD_ERROR "Duplicated config"
          else do
            match ← load_config doubles peek_char fuel coll i name with
            | .error message => return .error message
            | .ok coll => load_loop rounds coll last_section
      else LOAD_ERROR "Missing section or config name"

def load : LexerM ι (Except Message (ConfigCollection D)) := load_loop doubles peek_char fuel fuel [] none

end

structure MemoryData where
  buf : List Int8
  len : Nat
  ofs : Nat
  deriving DecidableEq, Repr

/-- The offset stays what it is. -/
def memory_read : LexerCallback MemoryData := fun memory_data a_max =>
  let len := min (memory_data.len - memory_data.ofs) a_max
  ((memory_data.buf.drop memory_data.ofs).take len,memory_data)

/-- How a call ends, without the lexer that it leaves. -/
def outcome {ε σ α : Type} : EStateM.Result ε σ α → Except ε α
  | .ok r _ => .ok r
  | .error e _ => .error e

/-- `load` with a lexer for the callback. -/
def load_with {σ : Type} (callback : LexerCallback σ) (stale : Nat → Nat → Int8) (callback_data : σ) (fuel : Nat) :
    Except Stop (Except Message (ConfigCollection D)) :=
  outcome (load doubles (peek_char callback stale) fuel (lexer_create callback_data))

/-- The file is none where it cannot be opened. -/
def config_collection_load_from_file (stale : Nat → Nat → Int8) (file : Option (List Int8)) (fuel : Nat) :
    Except Stop (Except Message (ConfigCollection D)) :=
  match file with
  | none => .ok (.ok [])
  | some file => load_with doubles stdio_fread stale file fuel

def config_collection_load_from_memory (stale : Nat → Nat → Int8) (a_buf : List Int8) (fuel : Nat) :
    Except Stop (Except Message (ConfigCollection D)) :=
  load_with doubles memory_read stale ⟨a_buf,a_buf.length,0⟩ fuel

end

/-! ### Lexers that give the same tokens -/

section
variable {D ι κ : Type} {doubles : Doubles D} {Out : Stop → Prop} {E P : Lexer ι → Lexer κ → Prop}

/-- Lexers at the same place, also where they stop. -/
structure Together (E P : Lexer ι → Lexer κ → Prop) : Prop where
  stops : ∀ a b, P a b → E a b
  line_no : ∀ a b, P a b → a.line_no = b.line_no
  col_no : ∀ a b, P a b → a.col_no = b.col_no

theorem load_error_alike (together : Together E P) {α : Type} (descr : String) :
    Simulates Out E P (LOAD_ERROR descr : LexerM ι (Except Message α)) (LOAD_ERROR descr) fun _ => P := by
  intro a b held
  refine ⟨?_,held⟩
  rw [together.line_no a b held,together.col_no a b held]

theorem text_alike (together : Together E P) (token : LexerToken) :
    Simulates Out E P (text token : LexerM ι (List Int8)) (text token) fun _ => P := by
  rw [text,text]
  cases token.str with
  | none => exact simulates_throw together.stops
  | some str => exact simulates_pure fun _ _ held => held

theorem first_alike (together : Together E P) (token : LexerToken) :
    Simulates Out E P (first token : LexerM ι Int) (first token) fun _ => P :=
  simulates_bind (text_alike together token) fun _ => simulates_pure fun _ _ held => held

variable {peek : Nat → LexerM ι Int} {peek' : Nat → LexerM κ Int} {fuel fuel' : Nat} (together : Together E P)
  (next : Simulates Out E P (lexer_token_get peek fuel) (lexer_token_get peek' fuel') fun _ => P)

include together next

theorem load_section_alike (coll : ConfigCollection D) :
    Simulates Out E P (load_section peek fuel coll) (load_section peek' fuel' coll) fun _ => P := by
  refine simulates_bind next ?_
  rintro ⟨got,token⟩
  refine simulates_ite (fun _ => load_error_alike together _) fun _ => ?_
  refine simulates_bind (text_alike together token) fun name => ?_
  refine simulates_ite (fun _ => load_error_alike together _) fun _ => ?_
  refine simulates_bind next ?_
  rintro ⟨got,token⟩
  refine simulates_ite (fun _ => load_error_alike together _) fun _ => ?_
  refine simulates_bind (first_alike together token) fun c => ?_
  exact simulates_ite (fun _ => load_error_alike together _) fun _ => simulates_pure fun _ _ held => held

theorem load_config_alike (coll : ConfigCollection D) (last_section : Nat) (name : List Int8) :
    Simulates Out E P (load_config doubles peek fuel coll last_section name)
      (load_config doubles peek' fuel' coll last_section name) fun _ => P := by
  refine simulates_bind next ?_
  rintro ⟨got,token⟩
  refine simulates_ite (fun _ => load_error_alike together _) fun _ => ?_
  refine simulates_bind (first_alike together token) fun c => ?_
  refine simulates_ite (fun _ => load_error_alike together _) fun _ => ?_
  refine simulates_bind next ?_
  rintro ⟨got,token⟩
  refine simulates_ite (fun _ => load_error_alike together _) fun _ => ?_
  exact simulates_bind (text_alike together token) fun str => simulates_pure fun _ _ held => held

/-- The second loop may have fewer rounds where being cut off says nothing. -/
theorem load_loop_alike (rounds' : Nat) : ∀ {rounds}, rounds = rounds' ∨ rounds' ≤ rounds ∧ Out .fuel →
    ∀ (coll : ConfigCollection D) (last_section : Option Nat),
    Simulates Out E P (load_loop doubles peek fuel rounds coll last_section)
      (load_loop doubles peek' fuel' rounds' coll last_section) fun _ => P := by
  induction rounds' with
  | zero =>
    rintro rounds more coll last_section
    obtain rfl | ⟨_,out⟩ := more
    · exact simulates_throw together.stops
    · exact fun _ _ _ => agree_out out
  | succ rounds' ih =>
    intro rounds more coll last_section
    obtain ⟨rounds,rfl⟩ : ∃ k, rounds = k + 1 := ⟨rounds - 1,by omega⟩
    have fewer : rounds = rounds' ∨ rounds' ≤ rounds ∧ Out .fuel := by
      obtain is | ⟨le,out⟩ := more
      · exact .inl (Nat.succ.inj is)
      · exact .inr ⟨Nat.le_of_succ_le_succ le,out⟩
    refine simulates_bind next ?_
    rintro ⟨got,token⟩
    refine simulates_ite (fun _ => ?_) fun _ => ?_
    · exact simulates_ite (fun _ => load_error_alike together _) fun _ => simulates_pure fun _ _ held => held
    refine simulates_bind (first_alike together token) fun c => ?_
    refine simulates_ite (fun _ => ?_) fun _ => ?_
    · refine simulates_bind (load_section_alike together next coll) ?_
      rintro (message | coll)
      · exact simulates_pure fun _ _ held => held
      · exact ih fewer coll _
    refine simulates_ite (fun _ => ?_) fun _ => load_error_alike together _
    refine simulates_bind (text_alike together token) fun name => ?_
    cases last_section with
    | none => exact load_error_alike together _
    | some i =>
      refine simulates_ite (fun _ => load_error_alike together _) fun _ => ?_
      refine simulates_bind (load_config_alike together next coll i name) ?_
      rintro (message | coll)
      · exact simulates_pure fun _ _ held => held
      · exact ih fewer coll _

/-- Lexers that give the same tokens give the same configuration. -/
theorem load_alike (more : fuel = fuel' ∨ fuel' ≤ fuel ∧ Out .fuel) :
    Simulates Out E P (load doubles peek fuel) (load doubles peek' fuel') fun _ => P :=
  load_loop_alike together next fuel' more [] none

end

/-! ### One request -/

section
variable {D σ : Type} {doubles : Doubles D}

/-- `load` on the first 256 characters of a text; where there are as many, the
    program stops if it looks past them. -/
def load_start (doubles : Doubles D) (a_buf : List Int8) (fuel : Nat) :
    Except Stop (Except Message (ConfigCollection D)) :=
  outcome (load doubles (peek_list (256 ≤ a_buf.length)) fuel (list_lexer (a_buf.take 256)))

/-- With enough fuel a call comes to a result. -/
def Returns {α : Type} (call : Nat → Except Stop α) (r : α) : Prop := ∃ fuel, call fuel = .ok r

theorem settled_alike {ι : Type} {R : Nat → Nat → ι → List Int8 → Prop} {part : Bool} {peek : Nat → LexerM ι Int} {fuel : Nat}
    {source : List Int8} (alike : Alike (Past part) R peek (peek_list part)) (small : source.length ≤ 256)
    (enough : source.length < fuel) (whole : ∀ {n ofs i j}, R n ofs i j → j = source) :
    Simulates (Past part) (Same R 0) (Same R 0) (lexer_token_get peek fuel) (lexer_token_get (peek_list part) fuel)
      fun _ => Same R 0 := by
  intro a b same
  have input : b.input = source := whole same.inputs
  have agree := lexer_token_get_alike alike fuel a b same
  cases last : lexer_token_get (peek_list part) fuel b with
  | ok r b' =>
    have notFull : ¬ Full r.2 := by
      refine not_full (by rw [input]; exact small) ?_ last
      rw [left,input,List.length_drop]
      omega
    rw [last] at agree
    obtain ⟨_,_,⟨⟩,_⟩ | ⟨_,a',_,ring,⟨⟩,ends⟩ | ⟨_,_,_,_,⟨⟩,_⟩ := agree_cases agree
    rw [ring]
    exact ⟨rfl,ends.2 notFull⟩
  | error stop b' =>
    rw [last] at agree
    obtain ⟨_,_,⟨⟩,out⟩ | ⟨_,_,_,_,⟨⟩,_⟩ | ⟨_,a',_,ring,⟨⟩,same'⟩ := agree_cases agree
    · exact agree_out out
    · rw [ring]
      exact .inr ⟨rfl,same'⟩

/-- `load` with a lexer for a callback does what it does on the source, if the source
    fits into one request. -/
theorem load_with_eq {callback : LexerCallback σ} {source : List Int8} {part : Bool} {F : Nat → σ → Prop}
    (feeds : Feeds callback source part F) (stale : Nat → Nat → Int8) {data : σ} (fed : F 0 data)
    (small : source.length ≤ 256) {fuel : Nat} (enough : source.length < fuel) :
    load_with doubles callback stale data fuel = outcome (load doubles (peek_list part) fuel (list_lexer source)) ∨
      (part = true ∧ outcome (load doubles (peek_list part) fuel (list_lexer source)) = .error .fault) := by
  have alike : Alike (Past part) (Shows F (fun _ => True) source part) (peek_char callback stale) (peek_list part) :=
    shows_alike feeds stale fun _ _ _ _ _ => trivial
  have next := settled_alike alike small enough fun shows_ => shows_.whole
  have start : Same (Shows F (fun _ => True) source part) 0 (lexer_create data) (list_lexer source) := created_shows trivial fed
  have together : Together (Same (Shows F (fun _ => True) source part) 0) (Same (Shows F (fun _ => True) source part) 0) :=
    ⟨fun _ _ same => same,fun _ _ same => same.line_no,fun _ _ same => same.col_no⟩
  rw [load_with]
  obtain ⟨_,_,last,out⟩ | ⟨_,_,_,ring,last,_⟩ | ⟨_,_,_,ring,last,_⟩ :=
    agree_cases (load_alike together next (.inl rfl) _ _ start)
  · rw [last,out.2]
    exact .inr ⟨out.1,rfl⟩
  · rw [ring,last]
    exact .inl rfl
  · rw [ring,last]
    exact .inl rfl

/-- `memory_read` is right for the first request. -/
theorem memory_feeds (a_buf : List Int8) : Feeds memory_read (a_buf.take 256) (256 ≤ a_buf.length)
    fun e s => e = 0 ∧ s = ⟨a_buf,a_buf.length,0⟩ where
  chars := by
    rintro e s n ⟨rfl,rfl⟩ _ small large _
    obtain rfl : n = 256 := by omega
    simp only [memory_read,List.drop_zero,Nat.sub_zero]
    rw [List.take_take,Nat.min_self,Nat.min_comm]
    exact List.take_eq_take_min.symm
  nothing := by
    rintro e s n ⟨rfl,rfl⟩ _ _
    exact ⟨rfl,rfl⟩
  filled := by
    rintro e s n ⟨rfl,rfl⟩ large full more
    simp only [memory_read,List.drop_zero,Nat.sub_zero,List.length_take] at full
    have := more (decide_eq_true (by omega))
    rw [List.length_take] at this
    omega

/-- A reader is right for every request. -/
theorem reader_start_feeds (reader : Reader σ) (a_buf : List Int8) : Feeds reader.callback (a_buf.take 256)
    (256 ≤ a_buf.length) fun e s => reader.rest s = a_buf.drop e ∧ (256 ≤ a_buf.length → e = 0) where
  chars := by
    rintro e s n ⟨fed,first⟩ _ small large _
    rw [reader.fills,fed]
    by_cases long : 256 ≤ a_buf.length
    · obtain rfl := first long
      obtain rfl : n = 256 := by omega
      rw [List.drop_zero,List.drop_zero,List.take_take,Nat.min_self]
    · rw [List.take_of_length_le (l := a_buf) (by omega)]
  nothing := by
    rintro e s n ⟨fed,first⟩ positive empty
    rw [reader.fills] at empty
    have none : reader.rest s = [] := (List.take_eq_nil_iff.mp empty).resolve_left (by omega)
    exact ⟨by rw [reader.drains,← fed,none,List.drop_nil],first⟩
  filled := by
    rintro e s n ⟨fed,first⟩ large full more
    refine ⟨by rw [reader.drains,fed,List.drop_drop],fun long => ?_⟩
    have := more (decide_eq_true long)
    rw [List.length_take] at this
    omega

end

/-! ### Loading a text ends -/

section
variable {D : Type} {doubles : Doubles D} {b b' : Lexer (List Int8)} {fuel : Nat}

/-- One token of a text. -/
theorem next_text (enough : (left b).length < fuel) {got : Bool} {token : LexerToken}
    (run : lexer_token_get peek_text fuel b = .ok (got,token) b') : (left b').length + got.toNat ≤ (left b).length ∧
      (got = true → ∃ str, token.str = some str) := by
  obtain ⟨takes,one⟩ := lexer_token_get_returns enough
  rw [run] at takes
  constructor
  · cases got with
    | true => exact (one _ _ run rfl).2
    | false => exact takes.2
  · rintro rfl
    obtain ⟨is,_⟩ | is | ⟨type,str,is,_⟩ := lexer_token_get_found run
    · cases is
    · cases is
    · cases is
      exact ⟨str,rfl⟩

theorem takes_load_error {α : Type} {descr : String} :
    Takes b 0 ((LOAD_ERROR descr : LexerM (List Int8) (Except Message α)) b) := ⟨rfl,Nat.le_refl _⟩

theorem text_some {ι : Type} {token : LexerToken} {str : List Int8} (is : token.str = some str) :
    (text token : LexerM ι (List Int8)) = pure str := by
  rw [text,is]

theorem first_some {ι : Type} {token : LexerToken} {str : List Int8} (is : token.str = some str) :
    (first token : LexerM ι Int) = pure (str.headD 0).toInt := by
  rw [first,text_some is]
  rfl

theorem takes_load_section (enough : (left b).length < fuel) (coll : ConfigCollection D) :
    Takes b 0 (load_section peek_text fuel coll b) := by
  refine takes_bind (lexer_token_get_returns enough).1 ?_
  rintro ⟨got,token⟩ b₁ run
  obtain ⟨less,str⟩ := next_text enough run
  simp only
  by_cases noName : ¬ got = true ∨ token.type ≠ .alnum
  · rw [if_pos noName]
    exact takes_load_error
  rw [if_neg noName]
  obtain ⟨name,is⟩ := str (not_not.mp (not_or.mp noName).1)
  rw [text_some is,pure_bind]
  split
  · exact takes_load_error
  refine takes_bind (lexer_token_get_returns (by omega)).1 ?_
  rintro ⟨got,token⟩ b₂ run
  obtain ⟨_,str⟩ := next_text (by omega) run
  simp only
  by_cases noToken : ¬ got = true
  · rw [if_pos noToken]
    exact takes_load_error
  rw [if_neg noToken]
  obtain ⟨str,is⟩ := str (not_not.mp noToken)
  rw [first_some is,pure_bind]
  split
  · exact takes_load_error
  · exact takes_pure

theorem takes_load_config (enough : (left b).length < fuel) (coll : ConfigCollection D) (last_section : Nat)
    (name : List Int8) : Takes b 0 (load_config doubles peek_text fuel coll last_section name b) := by
  refine takes_bind (lexer_token_get_returns enough).1 ?_
  rintro ⟨got,token⟩ b₁ run
  obtain ⟨less,str⟩ := next_text enough run
  simp only
  by_cases noToken : ¬ got = true
  · rw [if_pos noToken]
    exact takes_load_error
  rw [if_neg noToken]
  obtain ⟨str,is⟩ := str (not_not.mp noToken)
  rw [first_some is,pure_bind]
  split
  · exact takes_load_error
  refine takes_bind (lexer_token_get_returns (by omega)).1 ?_
  rintro ⟨got,token⟩ b₂ run
  obtain ⟨_,str⟩ := next_text (by omega) run
  simp only
  by_cases noValue : ¬ got = true
  · rw [if_pos noValue]
    exact takes_load_error
  rw [if_neg noValue]
  obtain ⟨str,is⟩ := str (not_not.mp noValue)
  rw [text_some is]
  exact takes_pure

/-- `load` takes a token a round, so that the text has an end. -/
theorem takes_load_loop {rounds : Nat} : ∀ {b}, (left b).length < rounds → (left b).length < fuel →
    ∀ (coll : ConfigCollection D) (last_section : Option Nat),
      Takes b 0 (load_loop doubles peek_text fuel rounds coll last_section b) := by
  induction rounds with
  | zero => intro b few; omega
  | succ rounds ih =>
    intro b few enough coll last_section
    refine takes_bind (lexer_token_get_returns enough).1 ?_
    rintro ⟨got,token⟩ b₁ run
    obtain ⟨less,str⟩ := next_text enough run
    simp only
    by_cases noToken : ¬ got = true
    · rw [if_pos noToken]
      split
      · exact takes_load_error
      · exact takes_pure
    rw [if_neg noToken]
    rw [not_not.mp noToken,Bool.toNat_true] at less
    obtain ⟨str,is⟩ := str (not_not.mp noToken)
    rw [first_some is,pure_bind]
    split
    · have takes := takes_load_section (show (left b₁).length < fuel by omega) coll
      refine takes_bind takes ?_
      rintro (message | coll) b₂ run
      · exact takes_pure
      · rw [run] at takes
        have := takes.2
        exact ih (by omega) (by omega) coll _
    split
    · rw [text_some is,pure_bind]
      cases last_section with
      | none => exact takes_load_error
      | some i =>
        simp only
        split
        · exact takes_load_error
        have takes : Takes b₁ 0 (load_config doubles peek_text fuel coll i str b₁) :=
          takes_load_config (by omega) coll i str
        refine takes_bind takes ?_
        rintro (message | coll) b₂ run
        · exact takes_pure
        · rw [run] at takes
          have := takes.2
          exact ih (by omega) (by omega) coll _
    · exact takes_load_error

end

/-! ### Two readers -/

section
variable {D σ : Type} {doubles : Doubles D}

theorem load_start_returns {a_buf : List Int8} (small : a_buf.length ≤ 255) (plain : (-2 : Int8) ∉ a_buf) :
    ∃ r, Returns (load_start doubles a_buf) r := by
  have part : (decide (256 ≤ a_buf.length)) = false := decide_eq_false (by omega)
  have takes : Takes (list_lexer (a_buf.take 256)) 0
      (load_loop doubles peek_text 256 256 [] none (list_lexer (a_buf.take 256))) := takes_load_loop
    (by simp only [left,list_lexer,List.length_drop,List.length_take]; omega)
    (by simp only [left,list_lexer,List.length_drop,List.length_take]; omega) [] none
  cases run : load_loop doubles peek_text 256 256 [] none (list_lexer (a_buf.take 256)) with
  | ok r b =>
    refine ⟨r,256,?_⟩
    rw [load_start,part,load,run]
    rfl
  | error stop b =>
    rw [run] at takes
    exact absurd (List.mem_of_mem_take takes.2) plain

theorem load_more {ι : Type} {peek : Nat → LexerM ι Int} {m n : Nat} (le : n ≤ m) {a : Lexer ι}
    {r : Except Message (ConfigCollection D)} (run : outcome (load doubles peek n a) = .ok r) :
    outcome (load doubles peek m a) = .ok r := by
  have together : Together (Eq : Lexer ι → Lexer ι → Prop) Eq :=
    ⟨fun _ _ same => same,fun _ _ same => by rw [same],fun _ _ same => by rw [same]⟩
  obtain ⟨f,_,last,_⟩ | ⟨_,_,_,first,last,_⟩ | ⟨_,_,_,_,last,_⟩ :=
    agree_cases (load_alike together (lexer_token_get_more le) (.inr ⟨le,rfl⟩) a a rfl)
  · rw [last] at run
    cases run
  · rw [last] at run
    rw [first]
    exact run
  · rw [last] at run
    cases run

/-- `load` returns a configuration only at the end of its source. -/
theorem load_loop_end {ι : Type} {peek : Nat → LexerM ι Int} {fuel rounds : Nat} {coll' : ConfigCollection D} {a' : Lexer ι} :
    ∀ {a : Lexer ι} {coll : ConfigCollection D} {last_section : Option Nat},
      load_loop doubles peek fuel rounds coll last_section a = .ok (.ok coll') a' → ¬ Endless peek := by
  induction rounds with
  | zero =>
    intro a coll last_section run
    cases run
  | succ rounds ih =>
    intro a coll last_section run
    obtain ⟨⟨got,token⟩,b,first_,run⟩ := bind_eq_ok_iff.mp run
    simp only at run
    split at run
    · rename_i noToken
      split at run
      · cases run
      · rename_i noError
        obtain ⟨_,ends⟩ | is | ⟨_,_,is,_⟩ := lexer_token_get_found first_
        · exact ends
        · cases is
          exact absurd rfl noError
        · cases is
          exact absurd rfl noToken
    obtain ⟨c,_,_,run⟩ := bind_eq_ok_iff.mp run
    split at run
    · obtain ⟨message | coll,_,_,run⟩ := bind_eq_ok_iff.mp run
      · cases run
      · exact ih run
    split at run
    · obtain ⟨name,_,_,run⟩ := bind_eq_ok_iff.mp run
      split at run
      · cases run
      split at run
      · cases run
      obtain ⟨message | coll,_,_,run⟩ := bind_eq_ok_iff.mp run
      · cases run
      · exact ih run
    · cases run

end

/-! ### More than one request -/

section
variable {D : Type} {doubles : Doubles D} {a_buf : List Int8} {stale : Nat → Nat → Int8}

/-- The buffer is full of characters of `a_buf`, and there will be more. -/
structure Still (a_buf : List Int8) (n ofs : Nat) (i : Buffer MemoryData) : Prop where
  seen : ofs + n ≤ i.buf_end
  room : i.buf_end ≤ ofs + 256
  length : i.buf.length = 256
  data : i.callback_data = ⟨a_buf,a_buf.length,0⟩
  going : i.buf_ended = false
  window : ∀ p, ofs ≤ p → p < i.buf_end → ∃ c ∈ a_buf.take 256, i.buf[p % 256]? = some c

/-- A look at a character that is in the buffer. -/
theorem peek_seen {n k : Nat} {a : Lexer (Buffer MemoryData)} (still : Still a_buf n a.ofs a.input) (less : k < n) :
    ∃ c ∈ a_buf.take 256, peek_char memory_read stale k a = .ok c.toInt a := by
  have seen := still.seen
  have room := still.room
  obtain ⟨c,there,is⟩ := still.window (a.ofs + k) (by omega) (by omega)
  exact ⟨c,there,peek_buffered (by omega) (by omega) (by rw [and_255]; exact is)⟩

/-- A look at the next character, for which the buffer may be filled again. -/
theorem peek_still (long : 256 ≤ a_buf.length) {n : Nat} (less : n < 256) {a : Lexer (Buffer MemoryData)}
    (still : Still a_buf n a.ofs a.input) : ∃ c ∈ a_buf.take 256, ∃ i, Still a_buf (n + 1) a.ofs i ∧
      peek_char memory_read stale n a = .ok c.toInt { a with input := i } := by
  have seen := still.seen
  have room := still.room
  by_cases before : a.ofs + n < a.input.buf_end
  · have still' : Still a_buf (n + 1) a.ofs a.input := { still with seen := before }
    obtain ⟨c,there,look⟩ := peek_seen still' (Nat.lt_succ_self n)
    exact ⟨c,there,a.input,still',look⟩
  have at_end : a.ofs + n = a.input.buf_end := by omega
  have run : memory_read a.input.callback_data (256 - n) = (a_buf.take (256 - n),⟨a_buf,a_buf.length,0⟩) := by
    rw [still.data]
    simp only [memory_read,List.drop_zero,Nat.sub_zero]
    rw [Nat.min_eq_right (by omega)]
  have count : (a_buf.take (256 - n)).length = 256 - n := by
    rw [List.length_take]
    omega
  have some_ : a_buf.take (256 - n) ≠ [] := by
    rw [← List.length_pos_iff]
    omega
  obtain ⟨i,is⟩ : ∃ i : Buffer MemoryData, i = {
      callback_data := ⟨a_buf,a_buf.length,0⟩
      buf := refill a.input.buf a.input.buf_end
        ((List.range (256 - n)).map fun k => (a_buf.take (256 - n)).getD k (stale a.input.buf_end k))
      buf_end := a.input.buf_end + (a_buf.take (256 - n)).length
      buf_ended := a.input.buf_ended || (a_buf.take (256 - n)).length < 256 - n } := ⟨_,rfl⟩
  have still' : Still a_buf (n + 1) a.ofs i := by
    have stored : ∀ k < 256 - n, ∃ c ∈ a_buf.take 256,
        ((List.range (256 - n)).map fun k => (a_buf.take (256 - n)).getD k (stale a.input.buf_end k))[k]? = some c := by
      intro k inside
      refine ⟨a_buf[k],List.mem_take_iff_getElem.mpr ⟨k,by omega,rfl⟩,?_⟩
      have := @stored_text _ _ _ (stale a.input.buf_end) k
        (by rw [List.drop_zero,count]; exact inside)
      rw [List.drop_zero,Nat.zero_add] at this
      rw [this]
      exact List.getElem?_eq_getElem (by omega)
    have small : ((List.range (256 - n)).map fun k => (a_buf.take (256 - n)).getD k (stale a.input.buf_end k)).length =
        256 - n := by
      rw [List.length_map,List.length_range]
    rw [is,refill_eq (by omega) (by omega)]
    refine ⟨?_,?_,Ring.length_wrap still.length (by omega) (by decide),rfl,?_,?_⟩
    · simp only
      omega
    · simp only
      omega
    · simp only [still.going,count,Nat.lt_irrefl,decide_false,Bool.or_false]
    · intro p after inside
      simp only at inside ⊢
      by_cases old : p < a.input.buf_end
      · rw [Ring.wrap_old still.length (by omega) old (by omega)]
        exact still.window p after old
      · rw [Ring.wrap_new still.length (by omega) (by omega) (by omega)]
        exact stored (p - a.input.buf_end) (by omega)
  obtain ⟨c,there,look_⟩ : ∃ c ∈ a_buf.take 256,peek_char memory_read stale n { a with input := i } = .ok c.toInt { a with input := i } :=
    peek_seen still' (Nat.lt_succ_self n)
  refine ⟨c,there,i,still',?_⟩
  rw [peek_reads less at_end still.going,read_some run some_ (by omega),← is]
  have inside := still'.seen
  rw [peek_char,if_neg (by omega),if_neg (by simp only; omega)] at look_
  exact look_

/-- A way to look ahead that stops instead of giving the end of the source. -/
def gated {ι : Type} (peek : Nat → LexerM ι Int) (k : Nat) : LexerM ι Int := do
  let c ← peek k
  if c = PEEK_EOF then throw .fault else return c

theorem gated_endless {ι : Type} (peek : Nat → LexerM ι Int) : Endless (gated peek) := by
  intro k a c a' run
  obtain ⟨d,_,_,run⟩ := bind_eq_ok_iff.mp run
  split at run
  · cases run
  · cases run
    assumption

theorem gated_ok {ι : Type} {peek : Nat → LexerM ι Int} {k : Nat} {a a' : Lexer ι} {c : Int} (run : peek k a = .ok c a')
    (other : c ≠ PEEK_EOF) : gated peek k a = .ok c a' := by
  rw [gated,bind_ok run,if_neg other]
  rfl

/-- One lexer, twice, that reads from memory. -/
abbrev Twice (a_buf : List Int8) (n ofs : Nat) (i j : Buffer MemoryData) : Prop := i = j ∧ Still a_buf n ofs i

theorem same_twice {n : Nat} {a b : Lexer (Buffer MemoryData)} (same : Same (Twice a_buf) n a b) : a = b := by
  obtain ⟨error,line_no,col_no,ofs,is,_⟩ := same
  cases a
  cases b
  simp only at error line_no col_no ofs is
  rw [error,line_no,col_no,ofs,is]

theorem twice_same {n : Nat} {a : Lexer (Buffer MemoryData)} (still : Still a_buf n a.ofs a.input) :
    Same (Twice a_buf) n a a :=
  ⟨rfl,rfl,rfl,rfl,rfl,still⟩

/-- `memory_read` never comes to the end of a buffer that fills a request. -/
theorem memory_alike (stale : Nat → Nat → Int8) (long : 256 ≤ a_buf.length) (plain : (-1 : Int8) ∉ a_buf.take 256) :
    Alike (fun _ => False) (Twice a_buf) (peek_char memory_read stale) (gated (peek_char memory_read stale)) where
  fewer still le := ⟨still.1,{ still.2 with seen := by have := still.2.seen; omega }⟩
  later still := ⟨still.1,{ still.2 with
    seen := by have := still.2.seen; omega
    room := by have := still.2.room; omega
    window := fun p after before => still.2.window p (by omega) before }⟩
  next n := by
    intro a b same
    obtain rfl := same_twice same
    have still := same.inputs.2
    by_cases large : 256 ≤ n
    · have look : peek_char memory_read stale n a = .ok PEEK_OVERFLOW a := by rw [peek_char,if_pos large]
      rw [gated_ok look (by decide),look]
      exact ⟨rfl,same,fun _ other => absurd rfl (other.resolve_left (by omega))⟩
    · obtain ⟨c,there,i,still',look⟩ := peek_still long (by omega) still
      have other : c.toInt ≠ PEEK_EOF := by
        intro is
        have : c = -1 := Int8.toInt_inj.mp is
        exact plain (this ▸ there)
      rw [gated_ok look other,look]
      exact ⟨rfl,twice_same { still' with seen := Nat.le_of_succ_le still'.seen },fun _ _ => twice_same still'⟩
  seen := by
    intro k n a b less same
    obtain rfl := same_twice same
    obtain ⟨c,there,look⟩ := peek_seen same.inputs.2 less
    have other : c.toInt ≠ PEEK_EOF := by
      intro is
      have : c = -1 := Int8.toInt_inj.mp is
      exact plain (this ▸ there)
    exact ⟨_,look,gated_ok look other⟩

/-- The lexer has passed its buffer, and can only fault. -/
def Lost (a_buf : List Int8) (a : Lexer (Buffer MemoryData)) : Prop := ∃ ofs, a.ofs = ofs + 257 ∧ Still a_buf 256 ofs a.input

theorem lost_faults (long : 256 ≤ a_buf.length) {a : Lexer (Buffer MemoryData)} (lost : Lost a_buf a) :
    ∃ a', peek_char memory_read stale 0 a = .error .fault a' := by
  obtain ⟨ofs,passed,still⟩ := lost
  have seen := still.seen
  have room := still.room
  have more : request a = 257 := request_over (by omega)
  rw [peek_char,if_neg (by decide),if_pos (by omega),if_neg (by rw [still.going]; decide),more,Lexing.read,still.data]
  have some_ : ¬ 0 = (memory_read ⟨a_buf,a_buf.length,0⟩ 257).1.length := by
    simp only [memory_read,List.length_take,List.length_drop]
    omega
  simp only
  rw [if_neg some_,if_pos (by decide)]
  exact ⟨_,rfl⟩

theorem lexer_token_get_lost (long : 256 ≤ a_buf.length) {a : Lexer (Buffer MemoryData)} (lost : Lost a_buf a)
    (fuel : Nat) : ∃ stop a' a'', lexer_token_get (peek_char memory_read stale) fuel a = .error stop a' ∧
      lexer_token_get (gated (peek_char memory_read stale)) fuel a = .error stop a'' := by
  obtain ⟨a',fault⟩ := lost_faults (a := { a with error := .none }) long lost
  cases fuel with
  | zero => exact ⟨.fuel,_,_,rfl,rfl⟩
  | succ fuel =>
    refine ⟨.fault,a',a',?_,?_⟩
    · exact (bind_ok rfl).trans (bind_error (bind_error (bind_error fault)))
    · exact (bind_ok rfl).trans (bind_error (bind_error (bind_error (bind_error fault))))

/-- A buffer that fills a request, and has no byte there that looks like the end of the
    source, is never loaded. -/
theorem memory_never (long : 256 ≤ a_buf.length) (plain : (-1 : Int8) ∉ a_buf.take 256) (coll : ConfigCollection D) :
    ¬ Returns (config_collection_load_from_memory doubles stale a_buf) (.ok coll) := by
  rintro ⟨fuel,run⟩
  have together : Together (fun _ _ => True) fun a b : Lexer (Buffer MemoryData) =>
      a = b ∧ (Still a_buf 0 a.ofs a.input ∨ Lost a_buf a) :=
    ⟨fun _ _ _ => trivial,fun _ _ same => by rw [same.1],fun _ _ same => by rw [same.1]⟩
  have next : Simulates (fun _ => False) (fun _ _ => True)
      (fun a b => a = b ∧ (Still a_buf 0 a.ofs a.input ∨ Lost a_buf a))
      (lexer_token_get (peek_char memory_read stale) fuel) (lexer_token_get (gated (peek_char memory_read stale)) fuel)
      fun _ a b => a = b ∧ (Still a_buf 0 a.ofs a.input ∨ Lost a_buf a) := by
    rintro a _ ⟨rfl,still | lost⟩
    · obtain ⟨_,_,_,⟨⟩⟩ | ⟨r,b,b',one,two,beyond,settled⟩ | ⟨stop,b,b',one,two,_⟩ :=
        agree_cases (lexer_token_get_alike (memory_alike stale long plain) fuel a a (twice_same still))
      · rw [one,two]
        refine ⟨rfl,?_⟩
        by_cases full : Full r.2
        · obtain ⟨error,line_no,col_no,ofs,ofs',passed,is,still'⟩ := beyond full
          refine ⟨?_,.inr ⟨ofs',passed,still'⟩⟩
          cases b
          cases b'
          simp only at error line_no col_no ofs is
          rw [error,line_no,col_no,ofs,is]
        · have same := settled full
          exact ⟨same_twice same,.inl same.inputs.2⟩
      · rw [one,two]
        exact .inr ⟨rfl,trivial⟩
    · obtain ⟨stop,b,b',one,two⟩ := lexer_token_get_lost long lost fuel
      rw [one,two]
      exact .inr ⟨rfl,trivial⟩
  have start : Still a_buf 0 0 (lexer_create (⟨a_buf,a_buf.length,0⟩ : MemoryData)).input := by
    refine ⟨Nat.le_refl _,Nat.zero_le _,List.length_replicate,rfl,rfl,?_⟩
    intro p _ before
    exact absurd before (Nat.not_lt_zero p)
  rw [config_collection_load_from_memory,load_with] at run
  obtain ⟨_,_,_,⟨⟩⟩ | ⟨r,b,b',one,two,_⟩ | ⟨stop,b,b',one,_,_⟩ :=
    agree_cases (load_alike together next (.inl rfl) (lexer_create ⟨a_buf,a_buf.length,0⟩)
      (lexer_create ⟨a_buf,a_buf.length,0⟩) ⟨rfl,.inl start⟩)
  · rw [one] at run
    cases run
    exact load_loop_end two (gated_endless _)
  · rw [one] at run
    cases run

end

section
variable {D σ : Type}

/-- Loading from memory comes to the outcome of a reader for the same bytes. -/
def Matches (doubles : Doubles D) (stale stale' : Nat → Nat → Int8) (reader : Reader σ) (data : σ) : Prop :=
  ∃ r r', Returns (config_collection_load_from_memory doubles stale (reader.rest data)) r ∧
    Returns (load_with doubles reader.callback stale' data) r' ∧ r.toOption = r'.toOption

theorem load_with_more {doubles : Doubles D} {callback : LexerCallback σ} {stale : Nat → Nat → Int8} {data : σ} {m n : Nat}
    (le : n ≤ m) {r : Except Message (ConfigCollection D)} (run : load_with doubles callback stale data n = .ok r) :
    load_with doubles callback stale data m = .ok r :=
  load_more le run

/-- A run that returns does so with one result. -/
theorem returns_unique {doubles : Doubles D} {callback : LexerCallback σ} {stale : Nat → Nat → Int8} {data : σ}
    {r r' : Except Message (ConfigCollection D)} (one : Returns (load_with doubles callback stale data) r)
    (two : Returns (load_with doubles callback stale data) r') : r = r' := by
  obtain ⟨m,one⟩ := one
  obtain ⟨n,two⟩ := two
  have both := load_with_more (Nat.le_max_left m n) one
  rw [load_with_more (Nat.le_max_right m n) two] at both
  cases both
  rfl

/-- What `load` makes of the first request, any lexer for the source makes of it. -/
theorem load_with_start {doubles : Doubles D} {callback : LexerCallback σ} {a_buf : List Int8} {F : Nat → σ → Prop}
    (feeds : Feeds callback (a_buf.take 256) (256 ≤ a_buf.length) F) (stale : Nat → Nat → Int8) {data : σ} (fed : F 0 data)
    {r : Except Message (ConfigCollection D)} (start : Returns (load_start doubles a_buf) r) :
    Returns (load_with doubles callback stale data) r := by
  obtain ⟨fuel,run⟩ := start
  have more : load_start doubles a_buf (fuel + 257) = .ok r := load_more (Nat.le_add_right _ _) run
  have small : (a_buf.take 256).length ≤ 256 := by
    rw [List.length_take]
    exact Nat.min_le_left _ _
  refine ⟨fuel + 257,?_⟩
  obtain is | ⟨_,fault⟩ := load_with_eq feeds stale fed small (show _ < fuel + 257 by omega)
  · exact is.trans more
  · exact absurd (more.symm.trans fault) (by intro impossible; cases impossible)

/-- Where the buffer is shorter than a request, there is nothing but its start. -/
theorem start_of_memory {doubles : Doubles D} {stale : Nat → Nat → Int8} {a_buf : List Int8} (few : a_buf.length ≤ 255)
    {r : Except Message (ConfigCollection D)} (returns : Returns (config_collection_load_from_memory doubles stale a_buf) r) :
    Returns (load_start doubles a_buf) r := by
  obtain ⟨fuel,run⟩ := returns
  have more : config_collection_load_from_memory doubles stale a_buf (fuel + 257) = .ok r :=
    load_with_more (Nat.le_add_right _ _) run
  have small : (a_buf.take 256).length ≤ 256 := by
    rw [List.length_take]
    exact Nat.min_le_left _ _
  refine ⟨fuel + 257,?_⟩
  obtain is | ⟨part,_⟩ := load_with_eq (memory_feeds a_buf) stale ⟨rfl,rfl⟩ small
    (show _ < fuel + 257 by omega)
  · exact is.symm.trans more
  · exact absurd (of_decide_eq_true part) (by omega)

/-- Loading from memory is loading from a reader where `load` returns without
    a look past the first request. Nothing else will do for a buffer that is
    shorter, nor for one without 0xff that the reader's bytes make a
    configuration. -/
theorem memory_matches (doubles : Doubles D) (stale stale' : Nat → Nat → Int8) (reader : Reader σ) (data : σ) :
    ((∃ r, Returns (load_start doubles (reader.rest data)) r) → Matches doubles stale stale' reader data) ∧
      ((reader.rest data).length ≤ 255 ∨
          (-1 : Int8) ∉ reader.rest data ∧ (∃ coll, Returns (load_with doubles reader.callback stale' data) (.ok coll)) →
        Matches doubles stale stale' reader data → ∃ r, Returns (load_start doubles (reader.rest data)) r) ∧
      ((reader.rest data).length ≤ 255 → (-2 : Int8) ∉ reader.rest data →
        ∃ r, Returns (load_start doubles (reader.rest data)) r) := by
  refine ⟨?_,?_,load_start_returns⟩
  · rintro ⟨r,start⟩
    refine ⟨r,r,load_with_start (memory_feeds _) stale ⟨rfl,rfl⟩ start,?_,rfl⟩
    exact load_with_start (reader_start_feeds reader _) stale' ⟨rfl,fun _ => rfl⟩ start
  · rintro known ⟨r,r',memory,file,same⟩
    by_cases few : (reader.rest data).length ≤ 255
    · exact ⟨r,start_of_memory few memory⟩
    obtain ⟨plain,coll,loads⟩ := known.resolve_left few
    obtain rfl := returns_unique file loads
    cases r with
    | error message => cases same
    | ok coll' => exact absurd memory (memory_never (by omega) (fun there => plain (List.mem_of_mem_take there)) coll')

theorem upcoming_blanks (n : Nat) : upcoming false (List.replicate n 32) = [] := by
  induction n with
  | zero => rfl
  | succ n ih =>
    have newline : chr '\n' ≠ (32 : Int8).toInt := by decide
    rw [List.replicate_succ,upcoming,if_neg newline,if_neg Bool.false_ne_true,if_pos (.inl rfl),ih]

/-- Where no token is left, nothing is loaded. -/
theorem load_blank (doubles : Doubles D) {text : List Int8} {fuel : Nat} (enough : text.length < fuel)
    (blank : upcoming false text = []) : outcome (load doubles (peek_list false) fuel (list_lexer text)) = .ok (.ok []) := by
  obtain ⟨b,⟨_,rest⟩,run⟩ := token_loop_text peek_text_sees (b := { list_lexer text with error := .none }) enough
  have nothing : left b = [] := rest.trans blank
  have eof : lexer_token_get (peek_list false) fuel (list_lexer text) = .ok (false,⟨.eof,none⟩) b :=
    (token_get_cleared.trans run).trans (if_pos (by rw [nothing,glance_nil]))
  cases fuel with
  | zero => omega
  | succ fuel =>
    rw [load,load_loop,bind_ok eof]
    rfl

/-- A file of 256 blanks is an empty configuration, and never loaded from memory. -/
theorem blanks_differ : ¬ Matches (⟨fun _ => 0,fun _ => 0⟩ : Doubles Nat) (fun _ _ => 0) (fun _ _ => 0) file_reader
    (List.replicate 256 32) := by
  rintro ⟨r,r',memory,file,same⟩
  have loads : Returns (load_with (⟨fun _ => 0,fun _ => 0⟩ : Doubles Nat) file_reader.callback (fun _ _ => 0)
      (List.replicate 256 32)) (.ok []) := by
    refine ⟨257,?_⟩
    have enough : (List.replicate 256 (32 : Int8)).length < 257 := by
      rw [List.length_replicate]
      decide
    have whole : load_with (⟨fun _ => 0,fun _ => 0⟩ : Doubles Nat) _ _ _ 257 = _ ∨ _ :=
      load_with_eq (reader_feeds file_reader (List.replicate 256 32)) (fun _ _ => 0) rfl List.length_replicate.le enough
    obtain is | ⟨⟨⟩,_⟩ := whole
    exact is.trans (load_blank _ enough (upcoming_blanks 256))
  obtain rfl := returns_unique file loads
  cases r with
  | error message => cases same
  | ok coll =>
    have plain : (-1 : Int8) ∉ List.replicate 256 (32 : Int8) := fun has => by cases List.eq_of_mem_replicate has
    exact memory_never List.length_replicate.ge (fun there => plain (List.mem_of_mem_take there)) coll memory

end

end Htools.ConfigFile
