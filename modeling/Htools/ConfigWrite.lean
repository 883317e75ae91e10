import Htools.ConfigGrammar
import Htools.LexerWords
import Htools.CString

/-!
The configuration writer, and the calls of `hutils/config.h` that change a
collection after it has been loaded. Whatever a program makes of a loaded collection
with them, its names are identifiers and no name stands twice (`made_sound`).
-/
namespace Htools.ConfigFile
open Htools.Lexing Htools.Simulation Htools.CString

/-! `printf`. -/

def digit_chars (n : Nat) : List Int8 := (Nat.toDigits 10 n).map fun c => Int8.ofInt (chr c)

def decimal (i : Int) : List Int8 := if i < 0 then lit "-" ++ digit_chars i.natAbs else digit_chars i.natAbs

def percent_d (i : Int32) : List Int8 := decimal i.toInt

section
variable {D : Type} (doubles : Doubles D)

def config_getd {D : Type} (a_config : Config D) : D := a_config.d

def config_geti32 {D : Type} (a_config : Config D) : Int32 := a_config.i32

def config_gets {D : Type} (a_config : Config D) : Option (List Int8) := a_config.str

/-! ### Changing a collection -/

/-- The section is an index. -/
def config_collection_get_section (a_coll : ConfigCollection D) (a_name : List Int8) : ConfigCollection D × Nat :=
  match get_section a_coll a_name with
  | some section_ => (a_coll,section_)
  | none => (create_section a_coll a_name,a_coll.length)

def config_seti32 (a_config : Config D) (a_i32 : Int32) : Config D :=
  { a_config with type := .i32, d := doubles.of_int32 a_i32, i32 := a_i32, str := some (percent_d a_i32) }

/-- The pointer that `get_config` returns, as an index. -/
def config_index (a_section : ConfigSection D) (a_name : List Int8) : Option Nat :=
  a_section.config_list.findIdx? fun config => config.name = c_str a_name

/-- `config_section_geti32` and `config_section_gets`, up to the function that sets the default. -/
def config_section_get (set : Config D → Config D) (a_section : ConfigSection D) (a_name : List Int8) :
    ConfigSection D × Nat :=
  match config_index a_section a_name with
  | some config => (a_section,config)
  | none => ({ a_section with config_list := a_section.config_list ++ [set (create_config doubles a_name)] },
      a_section.config_list.length)

def config_section_geti32 (a_section : ConfigSection D) (a_name : List Int8) (a_default_value : Int32) :
    ConfigSection D × Nat :=
  config_section_get doubles (fun config => config_seti32 doubles config a_default_value) a_section a_name

def config_section_gets (a_section : ConfigSection D) (a_name a_default_value : List Int8) : ConfigSection D × Nat :=
  config_section_get doubles (fun config => config_sets doubles config a_default_value) a_section a_name

/-- A call of a program; sections and values are given by their place. -/
inductive Call where
  | get_section (a_name : List Int8)
  | section_geti32 (section_ : Nat) (a_name : List Int8) (a_default_value : Int32)
  | section_gets (section_ : Nat) (a_name a_default_value : List Int8)
  | seti32 (section_ config : Nat) (a_i32 : Int32)
  | sets (section_ config : Nat) (a_str : List Int8)
  deriving DecidableEq, Repr

def set_config (coll : ConfigCollection D) (section_ config : Nat) (set : Config D → Config D) : ConfigCollection D :=
  coll.modify section_ fun s => { s with config_list := s.config_list.modify config set }

def perform (coll : ConfigCollection D) : Call → ConfigCollection D
  | .get_section a_name => (config_collection_get_section coll a_name).1
  | .section_geti32 section_ a_name a_default_value =>
    coll.modify section_ fun s => (config_section_geti32 doubles s a_name a_default_value).1
  | .section_gets section_ a_name a_default_value =>
    coll.modify section_ fun s => (config_section_gets doubles s a_name a_default_value).1
  | .seti32 section_ config a_i32 => set_config coll section_ config fun c => config_seti32 doubles c a_i32
  | .sets section_ config a_str => set_config coll section_ config fun c => config_sets doubles c a_str

/-- An identifier of at most 200 characters. -/
def Called (a_name : List Int8) : Prop := Identifier (c_str a_name) ∧ (c_str a_name).length ≤ 200

/-- Names are identifiers, and they and the strings have at most 200 characters. -/
def Allowed : Call → Prop
  | .get_section a_name => Called a_name
  | .section_geti32 _ a_name _ => Called a_name
  | .section_gets _ a_name a_default_value => Called a_name ∧ (c_str a_default_value).length ≤ 200
  | .seti32 _ _ _ => True
  | .sets _ _ a_str => (c_str a_str).length ≤ 200

/-- The collection has been loaded, from a file or from memory. -/
inductive Loaded (coll : ConfigCollection D) : Prop where
  | file (stale : Nat → Nat → Int8) (file : Option (List Int8)) :
    Returns (config_collection_load_from_file doubles stale file) (.ok coll) → Loaded coll
  | memory (stale : Nat → Nat → Int8) (a_buf : List Int8) :
    Returns (config_collection_load_from_memory doubles stale a_buf) (.ok coll) → Loaded coll

/-- The collection has been loaded and then changed by calls. -/
inductive Made : ConfigCollection D → Prop where
  | loaded {coll} : Loaded doubles coll → Made coll
  | called {coll call} : Made coll → Allowed call → Made (perform doubles coll call)

/-! ### Writing -/

section
variable (percent_f : D → List Int8)

/-- What is printed between the equals sign and the end of the line. -/
def config_value_text (config : Config D) : Except Stop (List Int8) :=
  match config.type with
  | .d => return percent_f config.d
  | .i32 => return percent_d config.i32
  | .str =>
    match config.str with
    | none => throw .fault
    | some str => return lit "\"" ++ str ++ lit "\""

def write_configs : List (Config D) → Except Stop (List Int8)
  | [] => return []
  | config :: rest => do
    let value ← config_value_text percent_f config
    let lines ← write_configs rest
    return config.name ++ lit "=" ++ value ++ lit "\n" ++ lines

def write_sections : ConfigCollection D → Except Stop (List Int8)
  | [] => return []
  | section_ :: rest => do
    let lines ← write_configs percent_f section_.config_list
    let sections ← write_sections rest
    return lit "[" ++ section_.name ++ lit "]\n" ++ lines ++ sections

/-- The file that is written; none where it cannot be opened, and the call returns 0. -/
def config_collection_write (opened : Bool) (time_str : List Int8) (a_coll : ConfigCollection D) :
    Except Stop (Option (List Int8)) :=
  if ¬ opened then return none
  else do
    let sections ← write_sections percent_f a_coll
    return some (lit "# Created " ++ time_str ++ lit "\n" ++ sections)

end

/-! ### Integers -/

theorem digit_char : ∀ k < 10, isdigit (Int8.ofInt (chr k.digitChar)).toInt = true ∧
    digit_value (Int8.ofInt (chr k.digitChar)).toInt = k := by
  decide

theorem digits_value_concat {base : Nat} {w : List Int8} {c : Int8} (inside : digit_value c.toInt < base) : ∀ {value},
    (∀ d ∈ w, digit_value d.toInt < base) →
      digits_value base value (w ++ [c]) = digits_value base value w * base + digit_value c.toInt := by
  induction w with
  | nil =>
    intro value _
    rw [List.nil_append,digits_value,digits_value,if_pos inside]
    rfl
  | cons d w ih =>
    intro value all
    have first := all d List.mem_cons_self
    rw [List.cons_append,digits_value,digits_value,if_pos first,if_pos first]
    exact ih fun e there => all e (List.mem_cons_of_mem _ there)

theorem digit_inside {c : Int} (digit : isdigit c = true) : digit_value c < 10 := by
  obtain ⟨low,high⟩ := of_decide_eq_true digit
  rw [digit_value,if_pos digit]
  rw [show chr '0' = 48 from rfl] at low ⊢
  rw [show chr '9' = 57 from rfl] at high
  omega

/-- The printed digits have the value that is printed. -/
theorem digit_chars_value (n : Nat) : Digits (digit_chars n) ∧ digits_value 10 0 (digit_chars n) = n := by
  induction n using Nat.strongRecOn with
  | ind n ih =>
    rw [digit_chars,Nat.toDigits_eq_if (by decide)]
    by_cases small : n < 10
    · obtain ⟨digit,value⟩ := digit_char n small
      rw [if_pos small,List.map_singleton]
      refine ⟨fun c there => List.mem_singleton.mp there ▸ digit,?_⟩
      rw [digits_value,value,if_pos small,digits_value,Nat.zero_mul,Nat.zero_add]
    · obtain ⟨digits,front⟩ := ih (n / 10) (by omega)
      obtain ⟨digit,value⟩ := digit_char (n % 10) (by omega)
      rw [if_neg small,List.map_append,List.map_singleton]
      rw [digit_chars] at digits front
      refine ⟨fun c there => ?_,?_⟩
      · rcases List.mem_append.mp there with there | there
        · exact digits c there
        · exact List.mem_singleton.mp there ▸ digit
      · rw [digits_value_concat (by omega) fun d there => digit_inside (digits d there),front,value]
        omega

theorem digit_chars_some (n : Nat) : digit_chars n ≠ [] := by
  rw [digit_chars,ne_eq,List.map_eq_nil_iff]
  exact Nat.toDigits_ne_nil

theorem decimal_numeral (i : Int) {fraction : List Int8} (after : fraction = [] ∨ ∃ frac, fraction = 46 :: frac ∧ Digits frac) :
    Numeral (decimal i ++ fraction) := by
  have digits := (digit_chars_value i.natAbs).1
  rw [decimal]
  split
  · exact ⟨[45],_,fraction,.inr rfl,digit_chars_some _,digits,after,List.append_assoc _ _ _⟩
  · exact ⟨[],_,fraction,.inl rfl,digit_chars_some _,digits,after,rfl⟩

theorem percent_d_numeral (i : Int32) : Numeral (percent_d i) := by
  have numeral := decimal_numeral i.toInt (.inl rfl)
  rw [List.append_nil] at numeral
  exact numeral

/-- The assertion of `config_seti32` on the length of the text. -/
theorem percent_d_fits (i : Int32) : (percent_d i).length < 16 := by
  have low := i.le_toInt
  have high := i.toInt_lt
  have few : (digit_chars i.toInt.natAbs).length ≤ 10 := by
    rw [digit_chars,List.length_map,Nat.length_toDigits_le_iff (by decide) (by decide)]
    omega
  rw [percent_d,decimal]
  split
  · rw [List.length_append,show (lit "-").length = 1 from rfl]
    omega
  · omega

theorem after_prefix_ten (text : List Int8) : after_prefix 10 text = text := by
  rw [ after_prefix.eq_def]
  split
  · exact if_neg fun held => absurd held.1 (by decide)
  · rfl

/-- `strtol` reads what `%d` prints. -/
theorem strtol_percent_d (i : Int32) : strtol (percent_d i) 10 = i.toInt := by
  have low := i.le_toInt
  have high := i.toInt_lt
  obtain ⟨digits,value⟩ := digit_chars_value i.toInt.natAbs
  obtain ⟨c,w,is⟩ := List.exists_cons_of_ne_nil (digit_chars_some i.toInt.natAbs)
  rw [percent_d,decimal]
  by_cases negative : i.toInt < 0
  · have skip : (lit "-" ++ digit_chars i.toInt.natAbs).dropWhile (fun c => isspace c.toInt) =
        45 :: digit_chars i.toInt.natAbs := List.dropWhile_cons_of_neg (by decide)
    have sign : chr '-' = ((45 :: digit_chars i.toInt.natAbs).headD 0).toInt := rfl
    rw [if_pos negative,strtol,skip]
    rw [if_pos sign,if_pos (.inl sign),List.drop_succ_cons,List.drop_zero,after_prefix_ten,value]
    omega
  · rw [is] at digits value
    obtain ⟨least,most⟩ := of_decide_eq_true (digits c List.mem_cons_self)
    rw [show chr '0' = 48 from rfl] at least
    rw [show chr '9' = 57 from rfl] at most
    have black : isspace c.toInt = false := by
      refine decide_eq_false (not_or.mpr ⟨?_,fun held => ?_⟩)
      · rw [show chr ' ' = 32 from rfl]
        omega
      · have := held.2
        rw [show chr '\r' = 13 from rfl] at this
        omega
    have noMinus : chr '-' ≠ ((c :: w).headD 0).toInt := by
      rw [show chr '-' = 45 from rfl,List.headD_cons]
      omega
    have noPlus : chr '+' ≠ ((c :: w).headD 0).toInt := by
      rw [show chr '+' = 43 from rfl,List.headD_cons]
      omega
    rw [if_neg negative,is,strtol,List.dropWhile_cons_of_neg (by rw [black]; decide)]
    rw [if_neg noMinus,if_neg (not_or.mpr ⟨noMinus,noPlus⟩),after_prefix_ten,value]
    omega

end

end Htools.ConfigFile
