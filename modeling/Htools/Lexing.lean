import Htools.Ring
import Htools.Simulation
import Mathlib.Data.Nat.Bitwise

/-!
The lexer (`hutils/src/lexer.c`). It sees its source through `peek_char`, which
keeps the characters from the current one on, 256 at most, in a ring buffer and
asks a callback for more. Characters are signed, and share `int` with the two
values `PEEK_EOF` and `PEEK_OVERFLOW`. The tokenizer is stated for any
`peek_char`, so that it can also read a text that is there as a whole.
-/
namespace Htools.Lexing
open Htools.Simulation

def PEEK_EOF : Int := -1

def PEEK_OVERFLOW : Int := -2

/-- The value of a character constant. -/
def chr (c : Char) : Int := c.toNat

/-! `ctype.h` in the "C" locale; negative values belong to no class. -/

def isdigit (c : Int) : Bool := chr '0' ≤ c ∧ c ≤ chr '9'

def isalpha (c : Int) : Bool := chr 'A' ≤ c ∧ c ≤ chr 'Z' ∨ chr 'a' ≤ c ∧ c ≤ chr 'z'

def isalnum (c : Int) : Bool := isalpha c ∨ isdigit c

def isxdigit (c : Int) : Bool := isdigit c ∨ chr 'A' ≤ c ∧ c ≤ chr 'F' ∨ chr 'a' ≤ c ∧ c ≤ chr 'f'

inductive LexerError where
  | none
  | invalid_hex
  | invalid_number
  | unterminated_literal
  deriving DecidableEq, Repr

inductive LexerType where
  | alnum
  | eof
  | error
  | hex
  | literal
  | number
  | symbol
  deriving DecidableEq, Repr

/-- A text is without its terminator; none is the null pointer. -/
structure LexerToken where
  type : LexerType
  str : Option (List Int8)
  deriving DecidableEq, Repr

/-- `struct Lexer`, with the fields that only `peek_char` uses in `input`. The
    position `ofs` counts characters of the source, and is not taken modulo 2^64. -/
structure Lexer (ι : Type) where
  error : LexerError
  line_no : UInt32
  col_no : UInt32
  ofs : Nat
  input : ι
  deriving DecidableEq, Repr

/-- What a function of the lexer does; the lexer also has a state where the program stops. -/
abbrev LexerM (ι : Type) := EStateM Stop (Lexer ι)

section
variable {ι : Type} (peek_char : Nat → LexerM ι Int)

/-- `ofs += n, col_no += n`. -/
def consume (n : Nat) : LexerM ι Unit :=
  modify fun a => { a with ofs := a.ofs + n, col_no := a.col_no + UInt32.ofNat n }

/-- `++ofs, ++line_no, col_no = 1`. -/
def consume_newline : LexerM ι Unit :=
  modify fun a => { a with ofs := a.ofs + 1, line_no := a.line_no + 1, col_no := 1 }

def consume_char (c : Int) : LexerM ι Unit := if chr '\n' = c then consume_newline else consume 1

def set_error (error : LexerError) : LexerM ι Unit := modify fun a => { a with error := error }

def extract : Nat → LexerM ι (List Int8)
  | 0 => return []
  | a_len + 1 => do
    let c ← peek_char 0
    if PEEK_OVERFLOW = c then throw .abort
    else if PEEK_EOF = c then return []
    else do
      consume_char c
      let str ← extract a_len
      return Int8.ofInt c :: str

def skip_loop (a_c : Int8) : Nat → LexerM ι Bool
  | 0 => throw .fuel
  | fuel + 1 => do
    let c ← peek_char 0
    if PEEK_EOF = c then return false
    else do
      consume_char c
      if a_c.toInt = c then return true else skip_loop a_c fuel

def lexer_skip (fuel : Nat) (a_c : Int8) : LexerM ι Bool := do
  set_error .none
  skip_loop peek_char a_c fuel

/-- The loop over blanks. -/
def blank_loop : Nat → LexerM ι Int
  | 0 => throw .fuel
  | fuel + 1 => do
    let c ← peek_char 0
    if chr ' ' ≠ c ∧ chr '\t' ≠ c then return c
    else do
      consume 1
      blank_loop fuel

/-- The loop over a comment. -/
def comment_loop : Nat → LexerM ι Int
  | 0 => throw .fuel
  | fuel + 1 => do
    consume 1
    let c ← peek_char 0
    if 0 < c ∧ chr '\n' ≠ c then comment_loop fuel else return c

/-- `for (; LENGTH(buf) > len; ++len)` over the characters of a class; the first
    argument is what is left of the buffer. -/
def span_loop (class_ : Int → Bool) : Nat → Nat → LexerM ι Nat
  | 0,len => return len
  | left + 1,len => do
    let c ← peek_char len
    if class_ c then span_loop class_ left (len + 1) else return len

/-- The loop over a literal; none where the source ends before the quote. -/
def literal_loop : Nat → Nat → LexerM ι (Option Nat)
  | 0,len => return some len
  | left + 1,len => do
    let c ← peek_char len
    if PEEK_EOF = c then return none
    else if chr '"' = c then return some len
    else literal_loop left (len + 1)

/-- `for (; isdigit(peek_char(i)); ++i)`. -/
def digit_loop : Nat → Nat → LexerM ι Nat
  | 0,_ => throw .fuel
  | fuel + 1,i => do
    let c ← peek_char i
    if isdigit c then digit_loop fuel (i + 1) else return i

/-- The digits from `i` on, if any. -/
def digits (is_number : Bool) (i : Nat) : LexerM ι (Bool × Nat) := do
  let c ← peek_char i
  if isdigit c then do
    let i ← digit_loop peek_char 257 (i + 1)
    return (true,i)
  else return (is_number,i)

/-- The exponent from `i` on, if it is complete. -/
def exponent (i : Nat) : LexerM ι Nat := do
  let c ← peek_char i
  if chr 'e' = c ∨ chr 'E' = c then do
    let c ← peek_char (i + 1)
    let j := if chr '+' = c ∨ chr '-' = c then i + 2 else i + 1
    let c ← peek_char j
    if isdigit c then digit_loop peek_char 257 j else return i
  else return i

def alnum : LexerM ι (Bool × LexerToken) := do
  let len ← span_loop peek_char (fun c => chr '_' = c ∨ isalnum c) 255 1
  let str ← extract peek_char len
  return (true,⟨.alnum,some str⟩)

def literal : LexerM ι (Bool × LexerToken) := do
  consume 1
  match ← literal_loop peek_char 256 0 with
  | none => do
    set_error .unterminated_literal
    return (false,⟨.error,none⟩)
  | some len => do
    let str ← extract peek_char len
    consume 1
    return (true,⟨.literal,some str⟩)

def hex : LexerM ι (Bool × LexerToken) := do
  let c ← peek_char 2
  if ¬ isxdigit c then do
    set_error .invalid_hex
    consume 2
    return (false,⟨.error,none⟩)
  else do
    let len ← span_loop peek_char isxdigit 253 3
    let str ← extract peek_char len
    return (true,⟨.hex,some str⟩)

/-- A number, or else a symbol. -/
def number (c : Int) : LexerM ι (Bool × LexerToken) := do
  let i := if chr '-' = c ∨ chr '+' = c then 1 else 0
  let (is_number,i) ← digits peek_char false i
  let c ← peek_char i
  let (is_number,i) ← digits peek_char is_number (if chr '.' = c then i + 1 else i)
  if is_number then do
    let i ← exponent peek_char i
    let str ← extract peek_char i
    return (true,⟨.number,some str⟩)
  else do
    let str ← extract peek_char 1
    return (true,⟨.symbol,some str⟩)

/-- The token that begins with `c`. -/
def token (c : Int) : LexerM ι (Bool × LexerToken) :=
  if chr '_' = c ∨ isalpha c then alnum peek_char
  else if chr '"' = c then literal peek_char
  else if chr '0' = c then do
    let x ← peek_char 1
    if chr 'x' = x then hex peek_char else number peek_char c
  else number peek_char c

/-- The character after blanks and a comment. -/
def blanks (fuel : Nat) : LexerM ι Int := do
  let c ← blank_loop peek_char fuel
  if chr '#' = c then comment_loop peek_char fuel else return c

def token_loop : Nat → LexerM ι (Bool × LexerToken)
  | 0 => throw .fuel
  | fuel + 1 => do
    let c ← blanks peek_char (fuel + 1)
    if PEEK_EOF = c then return (false,⟨.eof,none⟩)
    else if chr '\n' = c then do
      consume_newline
      token_loop fuel
    else token peek_char c

/-- The result has the return value and the token. -/
def lexer_token_get (fuel : Nat) : LexerM ι (Bool × LexerToken) := do
  set_error .none
  token_loop peek_char fuel

end

/-! ### The ring buffer -/

/-- `LexerCallback`: the characters that it stores for a request, and the
    `callback_data` afterwards. -/
abbrev LexerCallback (σ : Type) := σ → Nat → List Int8 × σ

/-- The other fields of `struct Lexer`. -/
structure Buffer (σ : Type) where
  callback_data : σ
  buf : List Int8
  buf_end : Nat
  buf_ended : Bool
  deriving DecidableEq, Repr

section
variable {σ : Type} (callback : LexerCallback σ) (stale : Nat → Nat → Int8)

/-- The number of characters that `peek_char` requests, in the arithmetic of `size_t`. -/
def request (a : Lexer (Buffer σ)) : Nat :=
  (256 + 2 ^ 64 - (a.input.buf_end + 2 ^ 64 - a.ofs) % 2 ^ 64) % 2 ^ 64

/-- The copies of `len` characters into the ring. -/
def refill (buf : List Int8) (buf_end : Nat) (src : List Int8) : List Int8 :=
  let len := src.length
  let buf_first := 255 &&& buf_end
  let buf_last := 255 &&& (buf_end + len - 1)
  if buf_first > buf_last then
    let len1 := 256 - buf_first
    Ring.place (Ring.place buf buf_first (src.take len1)) 0 (src.drop len1)
  else Ring.place buf buf_first src

/-- `buf[(LENGTH(buf) - 1) & ofs]`. -/
def look (ofs : Nat) : LexerM (Buffer σ) Int := fun a =>
  match a.input.buf[255 &&& ofs]? with
  | none => .error .fault a
  | some c => .ok c.toInt a

/-- The part of `peek_char` that asks for `len` characters. Where the callback stores
    fewer, the rest of the local array is copied as well; `stale` is what it holds. -/
def read (len ofs : Nat) : LexerM (Buffer σ) Int := fun a =>
  let (chars,callback_data) := callback a.input.callback_data len
  let asked := { a.input with callback_data := callback_data }
  if 0 = chars.length then .ok PEEK_EOF { a with input := asked }
  -- More than the local array has room for.
  else if 256 < len then .error .fault { a with input := asked }
  else
    let src := (List.range len).map fun i => chars.getD i (stale a.input.buf_end i)
    look ofs { a with input := {
      callback_data := callback_data
      buf := refill a.input.buf a.input.buf_end src
      buf_end := a.input.buf_end + chars.length
      buf_ended := a.input.buf_ended || chars.length < len } }

def peek_char (a_ofs : Nat) : LexerM (Buffer σ) Int := fun a =>
  if 256 ≤ a_ofs then .ok PEEK_OVERFLOW a
  else if a.ofs + a_ofs ≥ a.input.buf_end then
    if a.input.buf_ended then .ok PEEK_EOF a else read callback stale (request a) (a.ofs + a_ofs) a
  else look (a.ofs + a_ofs) a

/-- `stdio_fread` on a file of which the characters are left. -/
def stdio_fread : LexerCallback (List Int8) := fun a_user_data a_max => (a_user_data.take a_max,a_user_data.drop a_max)

/-- The source is what the pointer points to, up to the terminator. -/
def lexer_cstr_callback : LexerCallback (List Int8) := fun a_src a_dst_size =>
  let len := min (a_src.takeWhile (· ≠ 0)).length a_dst_size
  (a_src.take len,a_src.drop len)

def lexer_create (callback_data : σ) : Lexer (Buffer σ) where
  error := .none
  line_no := 1
  col_no := 1
  ofs := 0
  input := { callback_data := callback_data, buf := List.replicate 256 0, buf_end := 0, buf_ended := false }

end

/-! ### Tokenizers that see the same characters -/

section
variable {ι κ : Type}

/-- Lexers at the same place; the inputs are related for the next `n` characters. -/
structure Same (R : Nat → Nat → ι → κ → Prop) (n : Nat) (a : Lexer ι) (b : Lexer κ) : Prop where
  error : a.error = b.error
  line_no : a.line_no = b.line_no
  col_no : a.col_no = b.col_no
  ofs : a.ofs = b.ofs
  inputs : R n a.ofs a.input b.input

/-- Two ways to look ahead that give the same characters, as long as every character
    before the one that is looked at has been seen. `R n ofs` holds of inputs
    that have shown `n` characters from `ofs` on. -/
structure Alike (Out : Stop → Prop) (R : Nat → Nat → ι → κ → Prop) (peek : Nat → LexerM ι Int) (peek' : Nat → LexerM κ Int) : Prop where
  fewer : ∀ {m n ofs i j}, R n ofs i j → m ≤ n → R m ofs i j
  later : ∀ {m n ofs i j}, R (n + m) ofs i j → R n (ofs + m) i j
  next : ∀ n, Simulates Out (Same R 0) (Same R n) (peek n) (peek' n) fun c a b =>
    Same R n a b ∧ (c ≠ PEEK_EOF → n < 256 ∨ c ≠ PEEK_OVERFLOW → Same R (n + 1) a b)
  seen : ∀ {k n a b}, k < n → Same R n a b → ∃ c, peek k a = .ok c a ∧ peek' k b = .ok c b

variable {Out : Stop → Prop} {R : Nat → Nat → ι → κ → Prop} {peek : Nat → LexerM ι Int} {peek' : Nat → LexerM κ Int}

theorem same_fewer (alike : Alike Out R peek peek') {m n : Nat} {a : Lexer ι} {b : Lexer κ} (same : Same R n a b) (le : m ≤ n) :
    Same R m a b :=
  ⟨same.error,same.line_no,same.col_no,same.ofs,alike.fewer same.inputs le⟩

theorem consume_alike (alike : Alike Out R peek peek') (n m : Nat) :
    Simulates Out (Same R 0) (Same R (n + m)) (consume m) (consume m) fun _ => Same R n := by
  refine simulates_modify ?_
  intro a b same
  exact ⟨same.error,same.line_no,by rw [same.col_no],by rw [same.ofs],alike.later same.inputs⟩

theorem consume_newline_alike (alike : Alike Out R peek peek') (n : Nat) :
    Simulates Out (Same R 0) (Same R (n + 1)) consume_newline consume_newline fun _ => Same R n := by
  refine simulates_modify ?_
  intro a b same
  exact ⟨same.error,by rw [same.line_no],rfl,by rw [same.ofs],alike.later same.inputs⟩

theorem consume_char_alike (alike : Alike Out R peek peek') (c : Int) (n : Nat) :
    Simulates Out (Same R 0) (Same R (n + 1)) (consume_char c) (consume_char c) fun _ => Same R n :=
  simulates_ite (fun _ => consume_newline_alike alike n) (fun _ => consume_alike alike n 1)

theorem consumed_alike (alike : Alike Out R peek peek') (c : Int) {n : Nat} {a : Lexer ι} {b : Lexer κ}
    (same : Same R (n + 1) a b) : ∃ a₁ b₁, consume_char c a = .ok () a₁ ∧ consume_char c b = .ok () b₁ ∧
      a₁.ofs = a.ofs + 1 ∧ a₁.input = a.input ∧ b₁.input = b.input ∧ Same R n a₁ b₁ := by
  have agree := consume_char_alike alike c n a b same
  by_cases newline : chr '\n' = c
  · simp only [consume_char,if_pos newline] at agree ⊢
    exact ⟨_,_,rfl,rfl,rfl,rfl,rfl,agree.2⟩
  · simp only [consume_char,if_neg newline] at agree ⊢
    exact ⟨_,_,rfl,rfl,rfl,rfl,rfl,agree.2⟩

theorem set_error_alike (error : LexerError) (n : Nat) :
    Simulates Out (Same R 0) (Same R n) (set_error error) (set_error error) fun _ => Same R n := by
  refine simulates_modify ?_
  intro a b same
  exact ⟨rfl,same.line_no,same.col_no,same.ofs,same.inputs⟩

/-- A look at the next character that has not been seen. -/
theorem next_alike (alike : Alike Out R peek peek') (n : Nat) {β : Type} {f : Int → LexerM ι β} {g : Int → LexerM κ β}
    {Q : β → Lexer ι → Lexer κ → Prop}
    (rest : ∀ c, Simulates Out (Same R 0) (fun a b => Same R n a b ∧ (c ≠ PEEK_EOF → n < 256 ∨ c ≠ PEEK_OVERFLOW →
      Same R (n + 1) a b)) (f c) (g c) Q) :
    Simulates Out (Same R 0) (Same R n) (peek n >>= f) (peek' n >>= g) Q :=
  simulates_bind (alike.next n) rest

/-- What `extract` leaves where it takes characters that have been seen. -/
theorem extract_alike (alike : Alike Out R peek peek') {len : Nat} : ∀ {n : Nat} {a : Lexer ι} {b : Lexer κ}, len ≤ n →
    Same R n a b → Agree Out (Same R 0) (fun str a' b' => str.length ≤ len ∧ a'.ofs = a.ofs + str.length ∧
      a'.input = a.input ∧ b'.input = b.input ∧ Same R (n - str.length) a' b')
      (extract peek len a) (extract peek' len b) := by
  induction len with
  | zero =>
    intro n a b _ same
    exact ⟨rfl,Nat.le_refl _,rfl,rfl,rfl,same⟩
  | succ len ih =>
    intro n a b le same
    obtain ⟨n,rfl⟩ : ∃ m, n = m + 1 := ⟨n - 1,by omega⟩
    obtain ⟨c,look,look'⟩ := alike.seen (Nat.succ_pos n) same
    rw [extract,extract,bind_ok look,bind_ok look']
    by_cases overflow : PEEK_OVERFLOW = c
    · rw [if_pos overflow,if_pos overflow]
      exact .inr ⟨rfl,same_fewer alike same (Nat.zero_le _)⟩
    rw [if_neg overflow,if_neg overflow]
    by_cases eof : PEEK_EOF = c
    · rw [if_pos eof,if_pos eof]
      exact ⟨rfl,Nat.zero_le _,rfl,rfl,rfl,same⟩
    rw [if_neg eof,if_neg eof]
    obtain ⟨a₁,b₁,passA,passB,ofs,inputA,inputB,same₁⟩ := consumed_alike alike c same
    rw [bind_ok passA,bind_ok passB]
    refine agree_bind (ih (Nat.le_of_succ_le_succ le) same₁) ?_
    rintro str a₂ b₂ ⟨length,ofs₂,inputA₂,inputB₂,same₂⟩
    refine ⟨rfl,Nat.succ_le_succ length,?_,inputA₂.trans inputA,inputB₂.trans inputB,?_⟩
    · rw [ofs₂,ofs,List.length_cons]
      omega
    · rw [List.length_cons,Nat.add_sub_add_right]
      exact same₂

theorem isdigit_seen {c : Int} (held : isdigit c = true) : c ≠ PEEK_EOF ∧ c ≠ PEEK_OVERFLOW := by
  constructor <;> rintro rfl <;> cases held

theorem span_loop_alike (alike : Alike Out R peek peek') {class_ : Int → Bool}
    (chars : ∀ {c}, class_ c = true → c ≠ PEEK_EOF ∧ c ≠ PEEK_OVERFLOW) (left : Nat) : ∀ len,
    Simulates Out (Same R 0) (Same R len) (span_loop peek class_ left len) (span_loop peek' class_ left len) (Same R) := by
  induction left with
  | zero => exact fun len => simulates_pure fun _ _ same => same
  | succ left ih =>
    intro len
    refine next_alike alike len fun c => ?_
    refine simulates_ite ?_ ?_
    · intro held
      obtain ⟨noEof,noOverflow⟩ := chars held
      exact simulates_pre (ih (len + 1)) fun a b same => same.2 noEof (.inr noOverflow)
    · exact fun _ => simulates_pure fun a b same => same.1

/-- A look at a character after which `m` characters at least have been seen. -/
theorem look_alike (alike : Alike Out R peek peek') (m i : Nat) {β : Type} {f : Int → LexerM ι β} {g : Int → LexerM κ β}
    {Q : β → Lexer ι → Lexer κ → Prop}
    (rest : ∀ c, Simulates Out (Same R 0) (fun a b => Same R (max m i) a b ∧ (c ≠ PEEK_EOF → c ≠ PEEK_OVERFLOW →
      Same R (max m (i + 1)) a b)) (f c) (g c) Q) :
    Simulates Out (Same R 0) (Same R (max m i)) (peek i >>= f) (peek' i >>= g) Q := by
  by_cases before : i < m
  · intro a b same
    obtain ⟨c,look,look'⟩ := alike.seen (Nat.lt_of_lt_of_le before (Nat.le_max_left m i)) same
    rw [bind_ok look,bind_ok look']
    refine rest c a b ⟨same,fun _ _ => ?_⟩
    rw [Nat.max_eq_left before]
    rw [Nat.max_eq_left (Nat.le_of_lt before)] at same
    exact same
  · rw [Nat.max_eq_right (Nat.le_of_not_lt before)] at rest ⊢
    refine next_alike alike i fun c => simulates_pre (rest c) ?_
    intro a b same
    refine ⟨same.1,fun noEof noOverflow => ?_⟩
    rw [Nat.max_eq_right (by omega)]
    exact same.2 noEof (.inr noOverflow)

theorem digit_loop_alike (alike : Alike Out R peek peek') (m fuel : Nat) : ∀ i,
    Simulates Out (Same R 0) (Same R (max m i)) (digit_loop peek fuel i) (digit_loop peek' fuel i) fun i => Same R (max m i) := by
  induction fuel with
  | zero => exact fun i => simulates_throw fun a b same => same_fewer alike same (Nat.zero_le _)
  | succ fuel ih =>
    intro i
    refine look_alike alike m i fun c => ?_
    refine simulates_ite ?_ ?_
    · intro held
      obtain ⟨noEof,noOverflow⟩ := isdigit_seen held
      exact simulates_pre (ih (i + 1)) fun a b same => same.2 noEof noOverflow
    · exact fun _ => simulates_pure fun a b same => same.1

theorem digits_alike (alike : Alike Out R peek peek') (is_number : Bool) (m i : Nat) :
    Simulates Out (Same R 0) (Same R (max m i)) (digits peek is_number i) (digits peek' is_number i) fun r =>
      Same R (max m r.2) := by
  refine look_alike alike m i fun c => ?_
  refine simulates_ite ?_ ?_
  · intro held
    obtain ⟨noEof,noOverflow⟩ := isdigit_seen held
    refine simulates_bind (simulates_pre (digit_loop_alike alike m 257 (i + 1)) fun a b same =>
      same.2 noEof noOverflow) fun i => ?_
    exact simulates_pure fun a b same => same
  · exact fun _ => simulates_pure fun a b same => same.1

/-- A character constant is not one of the other values. -/
theorem seen_char {c : Int} {d : Char} (same : chr d = c) : c ≠ PEEK_EOF ∧ c ≠ PEEK_OVERFLOW := by
  rw [← same,chr,PEEK_EOF,PEEK_OVERFLOW]
  omega

/-- A choice between two places to go on at, of which the farther one takes a character. -/
theorem step_alike {p : Prop} [Decidable p] (m i : Nat) {c : Int}
    (seen : p → c ≠ PEEK_EOF ∧ c ≠ PEEK_OVERFLOW) {a : Lexer ι} {b : Lexer κ}
    (same : Same R (max m i) a b ∧ (c ≠ PEEK_EOF → c ≠ PEEK_OVERFLOW → Same R (max m (i + 1)) a b)) :
    Same R (max m (if p then i + 1 else i)) a b := by
  split
  · exact same.2 (seen ‹p›).1 (seen ‹p›).2
  · exact same.1

theorem exponent_alike (alike : Alike Out R peek peek') (m i : Nat) :
    Simulates Out (Same R 0) (Same R (max m i)) (exponent peek i) (exponent peek' i) fun i => Same R (max m i) := by
  refine look_alike alike m i fun c => ?_
  refine simulates_ite ?_ ?_
  · intro held
    obtain ⟨noEof,noOverflow⟩ : c ≠ PEEK_EOF ∧ c ≠ PEEK_OVERFLOW := held.elim seen_char seen_char
    refine simulates_pre (P := Same R (max m (i + 1))) ?_ fun a b same => same.2 noEof noOverflow
    refine look_alike alike m (i + 1) fun c => ?_
    refine simulates_pre (P := Same R (max m (if chr '+' = c ∨ chr '-' = c then i + 2 else i + 1))) ?_
      fun a b same => step_alike m (i + 1) (fun sign => sign.elim seen_char seen_char) same
    refine look_alike alike m _ fun c => ?_
    refine simulates_ite ?_ ?_
    · exact fun _ => simulates_pre (digit_loop_alike alike m 257 _) fun a b same => same.1
    · refine fun _ => simulates_pure fun a b same => same_fewer alike same.1 ?_
      split <;> omega
  · exact fun _ => simulates_pure fun a b same => same.1

theorem literal_loop_alike (alike : Alike Out R peek peek') (left : Nat) : ∀ len, left + len = 256 →
    Simulates Out (Same R 0) (Same R len) (literal_loop peek left len) (literal_loop peek' left len) fun r a b =>
      match r with
      | none => Same R 0 a b
      | some len => (len < 256 ∧ Same R (len + 1) a b) ∨ (len = 256 ∧ Same R 256 a b) := by
  induction left with
  | zero =>
    rintro len sum
    rw [Nat.zero_add] at sum
    rw [sum]
    exact simulates_pure fun _ _ same => .inr ⟨rfl,same⟩
  | succ left ih =>
    intro len sum
    have inside : len < 256 := by omega
    refine next_alike alike len fun c => ?_
    refine simulates_ite ?_ fun noEof => ?_
    · exact fun _ => simulates_pure fun a b same => same_fewer alike same.1 (Nat.zero_le _)
    have one : ∀ a b, (Same R len a b ∧ (c ≠ PEEK_EOF → len < 256 ∨ c ≠ PEEK_OVERFLOW → Same R (len + 1) a b)) →
        Same R (len + 1) a b := fun a b same => same.2 (Ne.symm noEof) (.inl inside)
    refine simulates_ite ?_ ?_
    · exact fun _ => simulates_pure fun a b same => .inl ⟨inside,one a b same⟩
    · exact fun _ => simulates_pre (ih (len + 1) (by omega)) one

/-- A literal that the lexer has ended because it is as long as the buffer. -/
def Full (t : LexerToken) : Prop := t.type = .literal ∧ ∃ str, t.str = some str ∧ str.length = 256

/-- Lexers that have come one character farther than they have seen. -/
structure Over (R : Nat → Nat → ι → κ → Prop) (a : Lexer ι) (b : Lexer κ) : Prop where
  error : a.error = b.error
  line_no : a.line_no = b.line_no
  col_no : a.col_no = b.col_no
  ofs : a.ofs = b.ofs
  inputs : ∃ ofs, a.ofs = ofs + 257 ∧ R 256 ofs a.input b.input

/-- Where the lexers are after a token. -/
def Ends (R : Nat → Nat → ι → κ → Prop) (r : Bool × LexerToken) (a : Lexer ι) (b : Lexer κ) : Prop :=
  (Full r.2 → Over R a b) ∧ (¬ Full r.2 → Same R 0 a b)

theorem ends_of_same {r : Bool × LexerToken} {a : Lexer ι} {b : Lexer κ} (other : r.2.type ≠ .literal)
    (same : Same R 0 a b) : Ends R r a b :=
  ⟨fun full => absurd full.1 other,fun _ => same⟩

/-- A token of characters that have been seen. -/
theorem extracted_alike (alike : Alike Out R peek peek') {type : LexerType} (other : type ≠ .literal) {n len : Nat} (le : len ≤ n) :
    Simulates Out (Same R 0) (Same R n) (extract peek len >>= fun str => pure (true,⟨type,some str⟩))
      (extract peek' len >>= fun str => pure (true,⟨type,some str⟩)) (Ends R) := by
  intro a b same
  refine agree_bind (extract_alike alike le same) ?_
  rintro str a' b' ⟨_,_,_,_,same'⟩
  exact ⟨rfl,ends_of_same other (same_fewer alike same' (Nat.zero_le _))⟩

theorem alnum_alike (alike : Alike Out R peek peek') :
    Simulates Out (Same R 0) (Same R 1) (alnum peek) (alnum peek') (Ends R) := by
  refine simulates_bind (span_loop_alike alike ?_ 255 1) fun len => ?_
  · intro c held
    constructor <;> rintro rfl <;> cases held
  · exact extracted_alike alike (by decide) (Nat.le_refl _)

theorem hex_alike (alike : Alike Out R peek peek') :
    Simulates Out (Same R 0) (Same R 2) (hex peek) (hex peek') (Ends R) := by
  have chars : ∀ {c}, isxdigit c = true → c ≠ PEEK_EOF ∧ c ≠ PEEK_OVERFLOW := by
    intro c held
    constructor <;> rintro rfl <;> cases held
  refine next_alike alike 2 fun c => ?_
  refine simulates_ite ?_ ?_
  · intro _
    refine simulates_pre (P := Same R 2) ?_ fun a b same => same.1
    refine simulates_bind (set_error_alike .invalid_hex 2) fun _ => ?_
    refine simulates_bind (consume_alike alike 0 2) fun _ => ?_
    exact simulates_pure fun a b same => ends_of_same (by decide) same
  · intro held
    rw [Bool.not_eq_true,Bool.not_eq_false] at held
    obtain ⟨noEof,noOverflow⟩ := chars held
    refine simulates_pre (P := Same R 3) ?_ fun a b same => same.2 noEof (.inr noOverflow)
    refine simulates_bind (span_loop_alike alike chars 253 3) fun len => ?_
    exact extracted_alike alike (by decide) (Nat.le_refl _)

theorem number_alike (alike : Alike Out R peek peek') (c : Int) :
    Simulates Out (Same R 0) (Same R 1) (number peek c) (number peek' c) (Ends R) := by
  refine simulates_pre (P := Same R (max 1 (if chr '-' = c ∨ chr '+' = c then 1 else 0))) ?_ ?_
  swap
  · intro a b same
    refine same_fewer alike same ?_
    split <;> omega
  refine simulates_bind (digits_alike alike false 1 _) ?_
  rintro ⟨is_number,i⟩
  refine look_alike alike 1 i fun c => ?_
  refine simulates_pre (P := Same R (max 1 (if chr '.' = c then i + 1 else i))) ?_ fun a b same =>
    step_alike 1 i seen_char same
  refine simulates_bind (digits_alike alike is_number 1 _) ?_
  rintro ⟨is_number,i⟩
  refine simulates_ite ?_ ?_
  · intro _
    refine simulates_bind (exponent_alike alike 1 i) fun i => ?_
    exact extracted_alike alike (by decide) (Nat.le_max_right 1 i)
  · exact fun _ => extracted_alike alike (by decide) (Nat.le_max_left 1 i)

theorem literal_alike (alike : Alike Out R peek peek') :
    Simulates Out (Same R 0) (Same R 1) (literal peek) (literal peek') (Ends R) := by
  refine simulates_bind (consume_alike alike 0 1) fun _ => ?_
  refine simulates_bind (literal_loop_alike alike 256 0 rfl) ?_
  rintro (_ | len)
  · refine simulates_bind (set_error_alike .unterminated_literal 0) fun _ => ?_
    exact simulates_pure fun a b same => ends_of_same (by decide) same
  · intro a b held
    obtain ⟨n,le,bound,same,full⟩ : ∃ n, len ≤ n ∧ n ≤ 256 ∧ Same R n a b ∧ (n = len → len = 256) := by
      obtain ⟨_,same⟩ | ⟨is,same⟩ := held
      · exact ⟨len + 1,by omega,by omega,same,by omega⟩
      · exact ⟨256,by omega,by omega,same,fun _ => is⟩
    refine agree_bind (extract_alike alike le same) ?_
    rintro str a₁ b₁ ⟨short,ofs,inputA,inputB,same₁⟩
    by_cases all : n = str.length
    · -- The lexers have seen no more than the text of the literal.
      have lenIs : len = 256 := full (by omega)
      have strIs : str.length = 256 := by omega
      refine ⟨rfl,fun _ => ⟨same₁.error,same₁.line_no,?_,?_,a.ofs,?_,?_⟩,fun other => absurd ⟨rfl,str,rfl,strIs⟩ other⟩
      · exact congrArg (· + UInt32.ofNat 1) same₁.col_no
      · exact congrArg (· + 1) same₁.ofs
      · exact congrArg (· + 1) (ofs.trans (by rw [strIs]))
      · have inputs := same.inputs
        rw [← inputA,← inputB,all,strIs] at inputs
        exact inputs
    · have one : Same R (0 + 1) a₁ b₁ := same_fewer alike same₁ (by omega)
      refine agree_bind (consume_alike alike 0 1 a₁ b₁ one) ?_
      intro _ a₂ b₂ same₂
      refine ⟨rfl,?_,fun _ => same₂⟩
      rintro ⟨_,str',is,length⟩
      cases is
      omega

theorem token_alike (alike : Alike Out R peek peek') (c : Int) :
    Simulates Out (Same R 0) (Same R 1) (token peek c) (token peek' c) (Ends R) := by
  refine simulates_ite (fun _ => alnum_alike alike) fun _ => ?_
  refine simulates_ite (fun _ => literal_alike alike) fun _ => ?_
  refine simulates_ite (fun _ => ?_) fun _ => number_alike alike c
  refine next_alike alike 1 fun x => ?_
  refine simulates_ite ?_ ?_
  · intro held
    obtain ⟨noEof,noOverflow⟩ := seen_char held
    exact simulates_pre (hex_alike alike) fun a b same => same.2 noEof (.inr noOverflow)
  · exact fun _ => simulates_pre (number_alike alike c) fun a b same => same.1

/-- Where `c` is the next character, it has been seen. -/
def Ahead (R : Nat → Nat → ι → κ → Prop) (c : Int) (a : Lexer ι) (b : Lexer κ) : Prop :=
  Same R 0 a b ∧ (c ≠ PEEK_EOF → Same R 1 a b)

theorem first_alike (alike : Alike Out R peek peek') {β : Type} {f : Int → LexerM ι β} {g : Int → LexerM κ β}
    {Q : β → Lexer ι → Lexer κ → Prop} (rest : ∀ c, Simulates Out (Same R 0) (Ahead R c) (f c) (g c) Q) :
    Simulates Out (Same R 0) (Same R 0) (peek 0 >>= f) (peek' 0 >>= g) Q :=
  next_alike alike 0 fun c => simulates_pre (rest c) fun _ _ same =>
    ⟨same.1,fun noEof => same.2 noEof (.inl (by decide))⟩

theorem blank_loop_alike (alike : Alike Out R peek peek') (fuel : Nat) :
    Simulates Out (Same R 0) (Same R 0) (blank_loop peek fuel) (blank_loop peek' fuel) (Ahead R) := by
  induction fuel with
  | zero => exact simulates_throw fun a b same => same
  | succ fuel ih =>
    refine first_alike alike fun c => ?_
    refine simulates_ite (fun _ => simulates_pure fun a b same => same) fun blank => ?_
    have noEof : c ≠ PEEK_EOF := by
      rintro rfl
      exact blank ⟨by decide,by decide⟩
    refine simulates_pre (P := Same R 1) ?_ fun a b same => same.2 noEof
    exact simulates_bind (consume_alike alike 0 1) fun _ => ih

theorem comment_loop_alike (alike : Alike Out R peek peek') (fuel : Nat) :
    Simulates Out (Same R 0) (Same R 1) (comment_loop peek fuel) (comment_loop peek' fuel) (Ahead R) := by
  induction fuel with
  | zero => exact simulates_throw fun a b same => same_fewer alike same (Nat.zero_le _)
  | succ fuel ih =>
    refine simulates_bind (consume_alike alike 0 1) fun _ => ?_
    refine first_alike alike fun c => ?_
    refine simulates_ite (fun inside => ?_) fun _ => simulates_pure fun a b same => same
    refine simulates_pre ih fun a b same => same.2 ?_
    rintro rfl
    exact absurd inside.1 (by decide)

theorem blanks_alike (alike : Alike Out R peek peek') (fuel : Nat) :
    Simulates Out (Same R 0) (Same R 0) (blanks peek fuel) (blanks peek' fuel) (Ahead R) := by
  refine simulates_bind (blank_loop_alike alike fuel) fun c => ?_
  refine simulates_ite (fun comment => ?_) fun _ => simulates_pure fun a b same => same
  exact simulates_pre (comment_loop_alike alike fuel) fun a b same => same.2 (seen_char comment).1

theorem token_loop_alike (alike : Alike Out R peek peek') (fuel : Nat) :
    Simulates Out (Same R 0) (Same R 0) (token_loop peek fuel) (token_loop peek' fuel) (Ends R) := by
  induction fuel with
  | zero => exact simulates_throw fun a b same => same
  | succ fuel ih =>
    refine simulates_bind (blanks_alike alike (fuel + 1)) fun c => ?_
    refine simulates_ite (fun _ => simulates_pure fun a b same => ends_of_same (by decide) same.1) fun noEof => ?_
    refine simulates_pre (P := Same R 1) ?_ fun a b same => same.2 (Ne.symm noEof)
    refine simulates_ite (fun _ => ?_) fun _ => token_alike alike c
    exact simulates_bind (consume_newline_alike alike 0) fun _ => ih

/-- Tokenizers that see the same characters get the same tokens. -/
theorem lexer_token_get_alike (alike : Alike Out R peek peek') (fuel : Nat) :
    Simulates Out (Same R 0) (Same R 0) (lexer_token_get peek fuel) (lexer_token_get peek' fuel) (Ends R) :=
  simulates_bind (set_error_alike .none 0) fun _ => token_loop_alike alike fuel

theorem skip_loop_alike (alike : Alike Out R peek peek') (a_c : Int8) (fuel : Nat) :
    Simulates Out (Same R 0) (Same R 0) (skip_loop peek a_c fuel) (skip_loop peek' a_c fuel) fun _ => Same R 0 := by
  induction fuel with
  | zero => exact simulates_throw fun a b same => same
  | succ fuel ih =>
    refine first_alike alike fun c => ?_
    refine simulates_ite (fun _ => simulates_pure fun a b same => same.1) fun noEof => ?_
    refine simulates_pre (P := Same R 1) ?_ fun a b same => same.2 (Ne.symm noEof)
    refine simulates_bind (consume_char_alike alike c 0) fun _ => ?_
    exact simulates_ite (fun _ => simulates_pure fun a b same => same) fun _ => ih

theorem lexer_skip_alike (alike : Alike Out R peek peek') (fuel : Nat) (a_c : Int8) :
    Simulates Out (Same R 0) (Same R 0) (lexer_skip peek fuel a_c) (lexer_skip peek' fuel a_c) fun _ => Same R 0 :=
  simulates_bind (set_error_alike .none 0) fun _ => skip_loop_alike alike a_c fuel

end

/-! ### The ring buffer shows the source -/

/-- `peek_char` on a text that is there as a whole, or of which only a part is
    there; then the program stops where it looks past the part. -/
def peek_list (part : Bool) (a_ofs : Nat) : LexerM (List Int8) Int := fun a =>
  if 256 ≤ a_ofs then .ok PEEK_OVERFLOW a
  else
    match a.input[a.ofs + a_ofs]? with
    | none => if part then .error .fault a else .ok PEEK_EOF a
    | some c => .ok c.toInt a

abbrev peek_text : Nat → LexerM (List Int8) Int := peek_list false

/-- The program has looked past the part of a text. -/
def Past (part : Bool) (stop : Stop) : Prop := part = true ∧ stop = .fault

/-- A callback that fills its request unless the source, of which `rest` is left,
    has fewer characters. -/
structure Reader (σ : Type) where
  callback : LexerCallback σ
  rest : σ → List Int8
  fills : ∀ s n, (callback s n).1 = (rest s).take n
  drains : ∀ s n, rest (callback s n).2 = (rest s).drop n

def file_reader : Reader (List Int8) where
  callback := stdio_fread
  rest := id
  fills _ _ := rfl
  drains _ _ := rfl

/-- Taking no more than a first part takes from that part. -/
theorem take_part (part : Int8 → Bool) (l : List Int8) (n : Nat) :
    l.take (min (l.takeWhile part).length n) = (l.takeWhile part).take n ∧
      (l.drop (min (l.takeWhile part).length n)).takeWhile part = (l.takeWhile part).drop n := by
  induction l generalizing n with
  | nil => simp
  | cons c l ih =>
    cases n with
    | zero => simp
    | succ n =>
      by_cases inside : part c
      · rw [List.takeWhile_cons_of_pos inside]
        simp only [List.length_cons,Nat.succ_min_succ,List.take_succ_cons,List.drop_succ_cons]
        exact ⟨congrArg _ (ih n).1,(ih n).2⟩
      · simp [List.takeWhile_cons_of_neg inside]

def string_reader : Reader (List Int8) where
  callback := lexer_cstr_callback
  rest a_src := a_src.takeWhile (· ≠ 0)
  fills a_src n := (take_part _ a_src n).1
  drains a_src n := (take_part _ a_src n).2

/-- A callback that gives the characters of the source in order. After `e` of them the
    `callback_data` meets `F e`; where only a part of the source is of interest, as long
    as there is more of the part. A request that is not filled is the last one. -/
structure Feeds {σ : Type} (callback : LexerCallback σ) (source : List Int8) (part : Bool) (F : Nat → σ → Prop) : Prop where
  chars : ∀ {e s n}, F e s → 1 ≤ n → n ≤ 256 → 256 ≤ e + n → (part = true → e < source.length) →
    (callback s n).1 = (source.drop e).take n
  nothing : ∀ {e s n}, F e s → 1 ≤ n → (callback s n).1 = [] → F e (callback s n).2
  filled : ∀ {e s n}, F e s → 256 ≤ e + n → (callback s n).1.length = n → (part = true → e + n < source.length) →
    F (e + n) (callback s n).2

/-- The buffer has `n` characters of the text from `ofs` on at least, and the
    callback has those that come after the buffer. -/
structure Shows {σ : Type} (F : Nat → σ → Prop) (Fine : σ → Prop) (source : List Int8) (part : Bool) (n ofs : Nat)
    (i : Buffer σ) (text : List Int8) : Prop where
  whole : text = source
  seen : ofs + n ≤ i.buf_end
  room : i.buf_end ≤ ofs + 256
  length : i.buf.length = 256
  fine : Fine i.callback_data
  feeds : i.buf_ended = false → (part = true → i.buf_end < source.length) → F i.buf_end i.callback_data
  inside : i.buf_end ≤ text.length
  window : ∀ p, ofs ≤ p → p < i.buf_end → i.buf[p % 256]? = text[p]?
  ended : i.buf_ended = true → i.buf_end = text.length

section
variable {σ : Type} {callback : LexerCallback σ} {F : Nat → σ → Prop} {Fine : σ → Prop} {source : List Int8} {part : Bool}
  {stale : Nat → Nat → Int8}

theorem and_255 (x : Nat) : 255 &&& x = x % 256 := by
  rw [Nat.and_comm]
  exact Nat.and_two_pow_sub_one_eq_mod x 8

theorem refill_eq {buf src : List Int8} {buf_end : Nat} (some_ : 0 < src.length) (fits : src.length ≤ 256) :
    refill buf buf_end src = Ring.wrap 256 buf buf_end src := by
  have inside := Nat.mod_lt buf_end (by decide : 0 < 256)
  have last := @Ring.mod_add 256 buf_end (src.length - 1) (by omega)
  simp only [refill,and_255,Ring.wrap]
  rw [show buf_end + src.length - 1 = buf_end + (src.length - 1) by omega,last]
  by_cases beyond : buf_end % 256 + src.length ≤ 256
  · rw [if_pos beyond,if_neg]
    split <;> omega
  · rw [if_neg beyond,if_pos]
    split <;> omega

theorem request_eq {a : Lexer (Buffer σ)} {n : Nat} (less : n < 256) (at_end : a.ofs + n = a.input.buf_end) :
    request a = 256 - n := by
  rw [request,← at_end,show a.ofs + n + 2 ^ 64 - a.ofs = n + 2 ^ 64 by omega,Nat.add_mod_right]
  omega

/-- One character past the buffer, the request does not fit any more. -/
theorem request_over {a : Lexer (Buffer σ)} (beyond : a.ofs = a.input.buf_end + 1) : request a = 257 := by
  rw [request,show a.input.buf_end + 2 ^ 64 - a.ofs = 2 ^ 64 - 1 by omega]
  decide

/-- What has been stored of a text is the text. -/
theorem stored_text {text : List Int8} {start len : Nat} {stale : Nat → Int8} {k : Nat}
    (inside : k < ((text.drop start).take len).length) :
    ((List.range len).map fun i => ((text.drop start).take len).getD i (stale i))[k]? = text[start + k]? := by
  have less : k < len := by
    rw [List.length_take] at inside
    omega
  rw [List.getElem?_map,List.getElem?_range less,Option.map_some,List.getD_eq_getElem?_getD,
    List.getElem?_eq_getElem inside,Option.getD_some,← List.getElem?_eq_getElem inside,
    List.getElem?_take_of_lt less,List.getElem?_drop]

/-- The buffer after a refill that has brought characters. -/
theorem refill_shows (feeds : Feeds callback source part F) (stale : Nat → Nat → Int8)
    (keeps : ∀ s n, 1 ≤ n → n ≤ 256 → Fine s → Fine (callback s n).2) {n ofs : Nat} {i : Buffer σ} {text : List Int8}
    (shows_ : Shows F Fine source part n ofs i text) (less : n < 256) (at_end : ofs + n = i.buf_end)
    (going : i.buf_ended = false) (more : part = true → i.buf_end < source.length)
    {chars : List Int8} {callback_data : σ} (run : callback i.callback_data (256 - n) = (chars,callback_data))
    (some_ : chars ≠ []) :
    Shows F Fine source part (n + 1) ofs {
      callback_data := callback_data
      buf := refill i.buf i.buf_end
        ((List.range (256 - n)).map fun k => chars.getD k (stale i.buf_end k))
      buf_end := i.buf_end + chars.length
      buf_ended := i.buf_ended || chars.length < 256 - n } text := by
  have fed := shows_.feeds going more
  have charsIs : chars = (text.drop i.buf_end).take (256 - n) := by
    rw [shows_.whole,← feeds.chars fed (by omega) (by omega) (by omega) more,run]
  have count : chars.length = min (256 - n) (text.length - i.buf_end) := by
    rw [charsIs,List.length_take,List.length_drop]
  have positive := List.length_pos_iff.mpr some_
  have inside := shows_.inside
  have small : ((List.range (256 - n)).map fun k => chars.getD k (stale i.buf_end k)).length = 256 - n := by
    rw [List.length_map,List.length_range]
  rw [refill_eq (by omega) (by omega)]
  constructor
  case whole => exact shows_.whole
  case seen =>
    simp only
    omega
  case room =>
    simp only
    omega
  case length => exact Ring.length_wrap shows_.length (by omega) (by decide)
  case fine =>
    have := keeps i.callback_data (256 - n) (by omega) (by omega) shows_.fine
    rw [run] at this
    exact this
  case feeds =>
    intro still beyond
    simp only [going,Bool.false_or,decide_eq_false_iff_not] at still beyond ⊢
    have full : chars.length = 256 - n := by omega
    have := feeds.filled (n := 256 - n) fed (by omega) (by rw [run]; exact full) (by rw [← full]; exact beyond)
    rw [run] at this
    rw [full]
    exact this
  case inside =>
    simp only
    omega
  case window =>
    intro p after before
    simp only at before ⊢
    by_cases old : p < i.buf_end
    · rw [Ring.wrap_old shows_.length (by omega) old (by omega)]
      exact shows_.window p after old
    · rw [Ring.wrap_new shows_.length (by omega) (by omega) (by omega),charsIs,
        stored_text (by rw [← charsIs]; omega)]
      congr 1
      omega
  case ended =>
    intro ended
    simp only [Bool.or_eq_true,decide_eq_true_eq] at ended
    simp only
    obtain before | short := ended
    · have := shows_.ended before
      omega
    · omega

/-- The characters in the buffer are those of the text. -/
theorem look_shows {n ofs k : Nat} {i : Buffer σ} {text : List Int8} (shows_ : Shows F Fine source part n ofs i text)
    (before : ofs + k < i.buf_end) : ∃ c, i.buf[255 &&& (ofs + k)]? = some c ∧ text[ofs + k]? = some c := by
  have inside := shows_.inside
  refine ⟨text[ofs + k],?_,List.getElem?_eq_getElem (by omega)⟩
  rw [and_255,shows_.window (ofs + k) (by omega) before,List.getElem?_eq_getElem (by omega)]

theorem peek_buffered {callback : LexerCallback σ} {a : Lexer (Buffer σ)} {n : Nat} {c : Int8} (less : n < 256)
    (before : a.ofs + n < a.input.buf_end) (there : a.input.buf[255 &&& (a.ofs + n)]? = some c) :
    peek_char callback stale n a = .ok c.toInt a := by
  rw [peek_char,if_neg (Nat.not_le_of_lt less),if_neg (Nat.not_le_of_lt before),look,there]

section
variable {callback : LexerCallback σ} {a : Lexer (Buffer σ)} {n : Nat} (less : n < 256)
  (at_end : a.ofs + n = a.input.buf_end)

include less at_end in
theorem peek_ended (ended : a.input.buf_ended = true) : peek_char callback stale n a = .ok PEEK_EOF a := by
  rw [peek_char,if_neg (Nat.not_le_of_lt less),if_pos (Nat.le_of_eq at_end.symm),if_pos ended]

include less at_end in
theorem peek_reads (going : a.input.buf_ended = false) :
    peek_char callback stale n a = read callback stale (256 - n) (a.ofs + n) a := by
  rw [peek_char,if_neg (Nat.not_le_of_lt less),if_pos (Nat.le_of_eq at_end.symm),going,request_eq less at_end]
  exact if_neg Bool.false_ne_true

end

/-- A read that brings nothing. -/
theorem read_nothing {callback : LexerCallback σ} {a : Lexer (Buffer σ)} {len ofs : Nat} {callback_data : σ}
    (run : callback a.input.callback_data len = ([],callback_data)) : read callback stale len ofs a =
      .ok PEEK_EOF { a with input := { a.input with callback_data := callback_data } } := by
  rw [read,run]
  rfl

/-- A read that brings characters. -/
theorem read_some {callback : LexerCallback σ} {a : Lexer (Buffer σ)} {len ofs : Nat} {chars : List Int8}
    {callback_data : σ} (run : callback a.input.callback_data len = (chars,callback_data)) (some_ : chars ≠ [])
    (fits : len ≤ 256) : read callback stale len ofs a = look ofs { a with input := {
      callback_data := callback_data
      buf := refill a.input.buf a.input.buf_end
        ((List.range len).map fun i => chars.getD i (stale a.input.buf_end i))
      buf_end := a.input.buf_end + chars.length
      buf_ended := a.input.buf_ended || chars.length < len } } := by
  have positive := List.length_pos_iff.mpr some_
  simp only [read,run]
  rw [if_neg (by omega),if_neg (by omega)]

theorem peek_there {b : Lexer (List Int8)} {n : Nat} {c : Int8} (less : n < 256) (there : b.input[b.ofs + n]? = some c) :
    peek_list part n b = .ok c.toInt b := by
  simp only [peek_list,if_neg (Nat.not_le_of_lt less),there]

theorem peek_past {b : Lexer (List Int8)} {n : Nat} (less : n < 256) (past : b.input.length ≤ b.ofs + n) :
    peek_list part n b = if part then .error .fault b else .ok PEEK_EOF b := by
  simp only [peek_list,if_neg (Nat.not_le_of_lt less),List.getElem?_eq_none past]

/-- The ring buffer shows what the list does. -/
theorem shows_alike (feeds : Feeds callback source part F) (stale : Nat → Nat → Int8)
    (keeps : ∀ s n, 1 ≤ n → n ≤ 256 → Fine s → Fine (callback s n).2) :
    Alike (Past part) (Shows F Fine source part) (peek_char callback stale) (peek_list part) where
  fewer shows_ le := { shows_ with seen := by have := shows_.seen; omega }
  later shows_ := { shows_ with
    seen := by have := shows_.seen; omega
    room := by have := shows_.room; omega
    window := fun p after before => shows_.window p (by omega) before }
  next n := by
    intro a b same
    have shows_ := same.inputs
    have ofs := same.ofs
    have whole := shows_.whole
    by_cases large : 256 ≤ n
    · rw [peek_char,peek_list,if_pos large,if_pos large]
      exact ⟨rfl,same,fun _ other => absurd rfl (other.resolve_left (by omega))⟩
    have seen := shows_.seen
    by_cases before : a.ofs + n < a.input.buf_end
    · obtain ⟨c,there,there'⟩ := look_shows shows_ before
      rw [peek_buffered (by omega) before there,peek_there (by omega) (by rw [← ofs]; exact there')]
      exact ⟨rfl,same,fun _ _ => ⟨same.error,same.line_no,same.col_no,ofs,{ shows_ with seen := before }⟩⟩
    have at_end : a.ofs + n = a.input.buf_end := by omega
    by_cases out : part = true ∧ b.input.length ≤ b.ofs + n
    · rw [peek_past (by omega) out.2,if_pos out.1]
      exact agree_out ⟨out.1,rfl⟩
    have more : part = true → a.input.buf_end < source.length := by
      intro is
      rw [not_and] at out
      have := out is
      rw [whole] at this
      omega
    -- Here the list, too, gives the character or the end of the source.
    have past : b.input.length ≤ b.ofs + n → peek_list part n b = .ok PEEK_EOF b := by
      intro past
      rw [peek_past (by omega) past,if_neg fun is => out ⟨is,past⟩]
    cases going : a.input.buf_ended with
    | true =>
      have := shows_.ended going
      rw [peek_ended (by omega) at_end going,past (by omega)]
      exact ⟨rfl,same,fun noEof => absurd rfl noEof⟩
    | false =>
      have fed := shows_.feeds going more
      obtain ⟨chars,callback_data,run⟩ : ∃ chars callback_data,
        callback a.input.callback_data (256 - n) = (chars,callback_data) := ⟨_,_,rfl⟩
      by_cases empty : chars = []
      · have := congrArg List.length (feeds.chars (n := 256 - n) fed (by omega) (by omega) (by omega) more)
        rw [run,empty,List.length_take,List.length_drop,List.length_nil,← whole] at this
        rw [empty] at run
        rw [peek_reads (by omega) at_end going,read_nothing run,past (by omega)]
        refine ⟨rfl,⟨same.error,same.line_no,same.col_no,ofs,{ shows_ with fine := ?_,feeds := ?_ }⟩,
          fun noEof => absurd rfl noEof⟩
        · have := keeps a.input.callback_data (256 - n) (by omega) (by omega) shows_.fine
          rw [run] at this
          exact this
        · intro _ _
          have := feeds.nothing (n := 256 - n) fed (by omega) (by rw [run])
          rw [run] at this
          exact this
      · have shown := refill_shows feeds stale keeps shows_ (by omega) at_end going more run empty
        obtain ⟨c,there,there'⟩ := look_shows shown (k := n) (by
          have := List.length_pos_iff.mpr empty
          simp only
          omega)
        rw [peek_reads (by omega) at_end going,read_some run empty (by omega),look,
          peek_there (by omega) (by rw [← ofs]; exact there')]
        simp only [there]
        exact ⟨rfl,⟨same.error,same.line_no,same.col_no,ofs,{ shown with seen := Nat.le_of_succ_le shown.seen }⟩,
          fun _ _ => ⟨same.error,same.line_no,same.col_no,ofs,shown⟩⟩
  seen := by
    intro k n a b less same
    have seen := same.inputs.seen
    have room := same.inputs.room
    obtain ⟨c,there,there'⟩ := look_shows same.inputs (k := k) (by omega)
    refine ⟨c.toInt,peek_buffered (by omega) (by omega) there,peek_there (by omega) ?_⟩
    rw [← same.ofs]
    exact there'

/-- A reader gives the characters of its source. -/
theorem reader_feeds {σ : Type} (reader : Reader σ) (source : List Int8) :
    Feeds reader.callback source false fun e s => reader.rest s = source.drop e where
  chars := by
    intro e s n fed _ _ _ _
    rw [reader.fills,fed]
  nothing := by
    intro e s n fed positive empty
    rw [reader.fills] at empty
    have none : reader.rest s = [] := (List.take_eq_nil_iff.mp empty).resolve_left (by omega)
    rw [reader.drains,← fed,none,List.drop_nil]
  filled := by
    intro e s n fed _ full _
    rw [reader.drains,fed,List.drop_drop]

end

end Htools.Lexing
