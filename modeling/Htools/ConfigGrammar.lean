import Htools.ConfigFile
import Htools.LexerBytes

/-!
The grammar of configurations. What `load` makes of its source depends on the tokens
alone (`load_loop_tokens`), and always on three of them at a time. It tells a symbol
by the first character of the text, so that a quoted literal passes for one
(`load_grammar_iff`).
-/
namespace Htools.ConfigFile
open Htools.Lexing Htools.Simulation

/-- The tokens that a lexer gives, up to the first call that returns 0. -/
inductive Delivers {ι : Type} (peek : Nat → LexerM ι Int) (fuel : Nat) : Lexer ι → List LexerToken → LexerType → Prop where
  | last {a a' token} : lexer_token_get peek fuel a = .ok (false,token) a' → Delivers peek fuel a [] token.type
  | more {a a' token tokens last} : lexer_token_get peek fuel a = .ok (true,token) a' →
      Delivers peek fuel a' tokens last → Delivers peek fuel a (token :: tokens) last

def text_of (token : LexerToken) : List Int8 := token.str.getD []

/-- `token.str[0]`. -/
def first_char (token : LexerToken) : Int := ((text_of token).headD 0).toInt

section
variable {D : Type} (doubles : Doubles D)

/-- The value that a name and a token make. -/
def entry_of (entry : List Int8 × LexerToken) : Config D :=
  let config := config_sets doubles (create_config doubles entry.1) (text_of entry.2)
  if entry.2.type = .number then { config with type := .d } else config

def add_entry (coll : ConfigCollection D) (entry : List Int8 × LexerToken) : ConfigCollection D :=
  coll.modify (coll.length - 1) fun s => { s with config_list := s.config_list ++ [entry_of doubles entry] }

/-- `load` on the tokens that are left; none is the null pointer. -/
def load_tokens (last : LexerType) : ConfigCollection D → List LexerToken → Option (ConfigCollection D)
  | coll,[] => if last = .error then none else some coll
  | _,[_] => none
  | _,[_,_] => none
  | coll,a :: b :: c :: rest =>
    if chr '[' = first_char a then
      if b.type = .alnum ∧ get_section coll (text_of b) = none ∧ chr ']' = first_char c then
        load_tokens last (create_section coll (text_of b)) rest
      else none
    else if a.type = .alnum ∧ coll ≠ [] ∧ ((coll[coll.length - 1]?.bind fun s => get_config s (text_of a)) = none) ∧
        chr '=' = first_char b then
      load_tokens last (add_entry doubles coll (text_of a,c)) rest
    else none

/-! ### The tokens decide -/

section
variable {ι : Type} {doubles : Doubles D} {peek : Nat → LexerM ι Int} {fuel : Nat} {a : Lexer ι} {coll : ConfigCollection D}
  {token : LexerToken} {tokens : List LexerToken} {last : LexerType}

theorem delivers_cons (delivers : Delivers peek fuel a (token :: tokens) last) :
    ∃ a', lexer_token_get peek fuel a = .ok (true,token) a' ∧ Delivers peek fuel a' tokens last ∧
      token.str = some (text_of token) := by
  cases delivers with
  | more run rest =>
    refine ⟨_,run,rest,?_⟩
    rcases lexer_token_get_found run with ⟨⟨⟩,_⟩ | ⟨⟨⟩⟩ | ⟨type,str,is,_⟩
    cases is
    rfl

theorem delivers_nil (delivers : Delivers peek fuel a [] last) :
    ∃ token a', lexer_token_get peek fuel a = .ok (false,token) a' ∧ token.type = last := by
  cases delivers with
  | last run => exact ⟨_,_,run,rfl⟩

/-- What `load_section` makes of the tokens after a `[`. -/
def section_tokens (coll : ConfigCollection D) : List LexerToken → Option (ConfigCollection D)
  | b :: c :: _ =>
    if b.type = .alnum ∧ get_section coll (text_of b) = none ∧ chr ']' = first_char c then
      some (create_section coll (text_of b))
    else none
  | _ => none

/-- `load_section` after the name. -/
def section_end (peek : Nat → LexerM ι Int) (fuel : Nat) (coll : ConfigCollection D) (name : LexerToken) :
    LexerM ι (Except Message (ConfigCollection D)) := do
  let (got,token) ← lexer_token_get peek fuel
  if ¬ got then LOAD_ERROR "Missing ']'"
  else do
    let c ← first token
    if chr ']' ≠ c then LOAD_ERROR "Missing ']'" else return .ok (create_section coll (text_of name))

theorem load_section_tokens (delivers : Delivers peek fuel a tokens last) :
    ∃ r a', load_section peek fuel coll a = .ok r a' ∧ r.toOption = section_tokens coll tokens ∧
      ∀ coll', r = .ok coll' → Delivers peek fuel a' (tokens.drop 2) last := by
  cases tokens with
  | nil =>
    obtain ⟨token,a₁,run,_⟩ := delivers_nil delivers
    exact ⟨_,a₁,(bind_ok run).trans rfl,rfl,fun _ is => by cases is⟩
  | cons b tokens =>
    obtain ⟨a₁,run,later,str⟩ := delivers_cons delivers
    by_cases noName : b.type ≠ .alnum
    · refine ⟨_,a₁,(bind_ok run).trans (congrFun (if_pos (.inr noName)) a₁),?_,fun _ is => by cases is⟩
      cases tokens with
      | nil => rfl
      | cons c tokens => exact (if_neg fun held => noName held.1).symm
    have main : load_section peek fuel coll a = (if (get_section coll (text_of b)).isSome then LOAD_ERROR "Duplicated section"
        else section_end peek fuel coll b) a₁ := by
      refine (bind_ok run).trans ((congrFun (if_neg (not_or.mpr ⟨not_not.mpr rfl,noName⟩)) a₁).trans ?_)
      rw [text_some str]
      rfl
    rw [main]
    by_cases dup : (get_section coll (text_of b)).isSome
    · rw [if_pos dup]
      refine ⟨_,a₁,rfl,?_,fun _ is => by cases is⟩
      cases tokens with
      | nil => rfl
      | cons c tokens =>
        refine (if_neg fun held => ?_).symm
        rw [held.2.1] at dup
        cases dup
    rw [if_neg dup]
    cases tokens with
    | nil =>
      obtain ⟨token,a₂,run,_⟩ := delivers_nil later
      exact ⟨_,a₂,(bind_ok run).trans rfl,rfl,fun _ is => by cases is⟩
    | cons c tokens =>
      obtain ⟨a₂,run,later,str⟩ := delivers_cons later
      have closing : section_end peek fuel coll b a₁ =
          (if chr ']' ≠ first_char c then LOAD_ERROR "Missing ']'" else
            (return .ok (create_section coll (text_of b)) : LexerM ι (Except Message (ConfigCollection D)))) a₂ := by
        refine (bind_ok run).trans ((congrFun (if_neg (not_not.mpr rfl)) a₂).trans ?_)
        rw [first_some str]
        rfl
      by_cases noClose : chr ']' ≠ first_char c
      · rw [if_pos noClose] at closing
        exact ⟨_,a₂,closing,(if_neg fun held => noClose held.2.2).symm,fun _ is => by cases is⟩
      · rw [if_neg noClose] at closing
        have unknown : get_section coll (text_of b) = none := Option.not_isSome_iff_eq_none.mp dup
        refine ⟨_,a₂,closing,(if_pos ⟨not_not.mp noName,unknown,not_not.mp noClose⟩).symm,?_⟩
        exact fun _ _ => later

/-- What `load_config` makes of the tokens after the name of a value. -/
def config_tokens (doubles : Doubles D) (coll : ConfigCollection D) (last_section : Nat) (name : List Int8) :
    List LexerToken → Option (ConfigCollection D)
  | b :: c :: _ =>
    if chr '=' = first_char b then
      some (coll.modify last_section fun s => { s with config_list := s.config_list ++ [entry_of doubles (name,c)] })
    else none
  | _ => none

/-- `load_config` after the `=`. -/
def config_value (doubles : Doubles D) (peek : Nat → LexerM ι Int) (fuel : Nat) (coll : ConfigCollection D)
    (last_section : Nat) (name : List Int8) : LexerM ι (Except Message (ConfigCollection D)) := do
  let (got,token) ← lexer_token_get peek fuel
  if ¬ got then LOAD_ERROR "Missing value"
  else do
    let str ← text token
    let config := config_sets doubles (create_config doubles name) str
    let config := if token.type = .number then { config with type := .d } else config
    return .ok (coll.modify last_section fun s => { s with config_list := s.config_list ++ [config] })

theorem load_config_tokens {last_section : Nat} {name : List Int8} (delivers : Delivers peek fuel a tokens last) :
    ∃ r a', load_config doubles peek fuel coll last_section name a = .ok r a' ∧
      r.toOption = config_tokens doubles coll last_section name tokens ∧
      ∀ coll', r = .ok coll' → Delivers peek fuel a' (tokens.drop 2) last := by
  cases tokens with
  | nil =>
    obtain ⟨token,a₁,run,_⟩ := delivers_nil delivers
    exact ⟨_,a₁,(bind_ok run).trans rfl,rfl,fun _ is => by cases is⟩
  | cons b tokens =>
    obtain ⟨a₁,run,later,str⟩ := delivers_cons delivers
    have main : load_config doubles peek fuel coll last_section name a = (if chr '=' ≠ first_char b then LOAD_ERROR "Expected '='"
        else config_value doubles peek fuel coll last_section name) a₁ := by
      refine (bind_ok run).trans ((congrFun (if_neg (not_not.mpr rfl)) a₁).trans ?_)
      rw [first_some str]
      rfl
    rw [main]
    by_cases noSign : chr '=' ≠ first_char b
    · rw [if_pos noSign]
      refine ⟨_,a₁,rfl,?_,fun _ is => by cases is⟩
      cases tokens with
      | nil => rfl
      | cons c tokens => exact (if_neg noSign).symm
    rw [if_neg noSign]
    cases tokens with
    | nil =>
      obtain ⟨token,a₂,run,_⟩ := delivers_nil later
      exact ⟨_,a₂,(bind_ok run).trans rfl,rfl,fun _ is => by cases is⟩
    | cons c tokens =>
      obtain ⟨a₂,run,later,str⟩ := delivers_cons later
      refine ⟨.ok (coll.modify last_section fun s => { s with config_list := s.config_list ++ [entry_of doubles (name,c)] }),
        a₂,(bind_ok run).trans ((congrFun (if_neg (not_not.mpr rfl)) a₂).trans ?_),?_,fun _ _ => later⟩
      · rw [text_some str]
        rfl
      · exact (if_pos (not_not.mp noSign)).symm

/-- `load` puts entries into the last section. -/
def Current (coll : ConfigCollection D) (last_section : Option Nat) : Prop :=
  last_section = if coll = [] then none else some (coll.length - 1)

theorem current_create {name : List Int8} : Current (create_section coll name) (some ((create_section coll name).length - 1)) :=
  (if_neg (by simp [create_section])).symm

/-- A new section is the current one. -/
theorem section_tokens_current {coll' : ConfigCollection D} (is : section_tokens coll tokens = some coll') :
    Current coll' (some (coll'.length - 1)) := by
  rcases tokens with _ | ⟨b,_ | ⟨c,rest⟩⟩
  · cases is
  · cases is
  · rw [section_tokens] at is
    split at is
    · cases is
      exact current_create
    · cases is

/-- A new config leaves the current section. -/
theorem config_tokens_current {coll' : ConfigCollection D} {name : List Int8} (inside : coll ≠ [])
    (is : config_tokens doubles coll (coll.length - 1) name tokens = some coll') :
    Current coll' (some (coll.length - 1)) := by
  rcases tokens with _ | ⟨b,_ | ⟨c,rest⟩⟩
  · cases is
  · cases is
  · rw [config_tokens] at is
    split at is
    · cases is
      rw [Current,List.length_modify,if_neg]
      exact fun none => inside (List.eq_nil_of_length_eq_zero (by
        rw [← List.length_modify,none]
        rfl))
    · cases is

theorem load_tokens_nil : load_tokens doubles last coll [] = if last = .error then none else some coll := rfl

theorem load_tokens_cons (a b c : LexerToken) (rest : List LexerToken) : load_tokens doubles last coll (a :: b :: c :: rest) =
    if chr '[' = first_char a then
      if b.type = .alnum ∧ get_section coll (text_of b) = none ∧ chr ']' = first_char c then
        load_tokens doubles last (create_section coll (text_of b)) rest
      else none
    else if a.type = .alnum ∧ coll ≠ [] ∧ ((coll[coll.length - 1]?.bind fun s => get_config s (text_of a)) = none) ∧
        chr '=' = first_char b then
      load_tokens doubles last (add_entry doubles coll (text_of a,c)) rest
    else none := rfl

theorem load_tokens_section (opens : chr '[' = first_char token) : load_tokens doubles last coll (token :: tokens) =
    (section_tokens coll tokens).bind fun coll => load_tokens doubles last coll (tokens.drop 2) := by
  match tokens with
  | [] => rfl
  | [_] => rfl
  | b :: c :: rest =>
    rw [load_tokens_cons,if_pos opens,section_tokens]
    split <;> rfl

theorem load_tokens_entry (other : chr '[' ≠ first_char token) (named : token.type = .alnum) (inside : coll ≠ [])
    (new : (coll[coll.length - 1]?.bind fun s => get_config s (text_of token)) = none) :
    load_tokens doubles last coll (token :: tokens) = (config_tokens doubles coll (coll.length - 1) (text_of token) tokens).bind
      fun coll => load_tokens doubles last coll (tokens.drop 2) := by
  match tokens with
  | [] => rfl
  | [_] => rfl
  | b :: c :: rest =>
    rw [load_tokens_cons,if_neg other,config_tokens]
    by_cases sign : chr '=' = first_char b
    · rw [if_pos ⟨named,inside,new,sign⟩,if_pos sign]
      rfl
    · rw [if_neg fun held => sign held.2.2.2,if_neg sign]
      rfl

theorem load_tokens_other (other : chr '[' ≠ first_char token) (wrong : ¬ (token.type = .alnum ∧ coll ≠ [] ∧
    (coll[coll.length - 1]?.bind fun s => get_config s (text_of token)) = none)) :
    load_tokens doubles last coll (token :: tokens) = none := by
  match tokens with
  | [] => rfl
  | [_] => rfl
  | b :: c :: rest =>
    rw [load_tokens_cons,if_neg other]
    exact if_neg fun held => wrong ⟨held.1,held.2.1,held.2.2.1⟩

/-- The loop of `load` after a `[`. -/
def loop_section (doubles : Doubles D) (peek : Nat → LexerM ι Int) (fuel rounds : Nat) (coll : ConfigCollection D) :
    LexerM ι (Except Message (ConfigCollection D)) := do
  match ← load_section peek fuel coll with
  | .error message => return .error message
  | .ok coll => load_loop doubles peek fuel rounds coll (some (coll.length - 1))

/-- The loop of `load` after a name. -/
def loop_config (doubles : Doubles D) (peek : Nat → LexerM ι Int) (fuel rounds : Nat) (coll : ConfigCollection D)
    (last_section : Option Nat) (name : List Int8) : LexerM ι (Except Message (ConfigCollection D)) :=
  match last_section with
  | none => LOAD_ERROR "Section required before config"
  | some i =>
    if (coll[i]?.bind fun s => get_config s name).isSome then LOAD_ERROR "Duplicated config"
    else do
      match ← load_config doubles peek fuel coll i name with
      | .error message => return .error message
      | .ok coll => load_loop doubles peek fuel rounds coll last_section

/-- What `load` returns depends on the tokens alone. -/
theorem load_loop_tokens {rounds : Nat} : ∀ {a coll last_section tokens}, Delivers peek fuel a tokens last →
    tokens.length < rounds → Current coll last_section →
    ∃ r a', load_loop doubles peek fuel rounds coll last_section a = .ok r a' ∧
      r.toOption = load_tokens doubles last coll tokens := by
  induction rounds with
  | zero => intro _ _ _ _ _ few; omega
  | succ rounds ih =>
    intro a coll last_section tokens delivers few current
    cases tokens with
    | nil =>
      obtain ⟨token,a₁,run,rfl⟩ := delivers_nil delivers
      rw [load_tokens_nil]
      by_cases error : token.type = .error
      · refine ⟨_,a₁,(bind_ok run).trans (congrFun (if_pos error) a₁),?_⟩
        rw [if_pos error]
        rfl
      · refine ⟨_,a₁,(bind_ok run).trans (congrFun (if_neg error) a₁),?_⟩
        rw [if_neg error]
        rfl
    | cons t tokens =>
      obtain ⟨a₁,run,later,str⟩ := delivers_cons delivers
      rw [List.length_cons] at few
      have main : load_loop doubles peek fuel (rounds + 1) coll last_section a = (
          if chr '[' = first_char t then loop_section doubles peek fuel rounds coll
          else if t.type = .alnum then do
            let name ← text t
            loop_config doubles peek fuel rounds coll last_section name
          else LOAD_ERROR "Missing section or config name") a₁ := by
        refine (bind_ok run).trans ((congrFun (if_neg (not_not.mpr rfl)) a₁).trans ?_)
        rw [first_some str]
        rfl
      rw [main]
      by_cases opens : chr '[' = first_char t
      · rw [if_pos opens]
        rw [load_tokens_section opens]
        obtain ⟨message | coll',a₂,run₂,is,next⟩ := load_section_tokens later
        · exact ⟨.error message,a₂,bind_ok run₂,by rw [← is]; rfl⟩
        · have dropped : (tokens.drop 2).length < rounds := by
            rw [List.length_drop]
            omega
          obtain ⟨r,a₃,run₃,same⟩ := ih (next coll' rfl) dropped (section_tokens_current is.symm)
          exact ⟨r,a₃,(bind_ok run₂).trans run₃,by rw [same,← is]; rfl⟩
      rw [if_neg opens]
      by_cases named : t.type = .alnum
      · rw [if_pos named,text_some str,pure_bind]
        by_cases empty : coll = []
        · rw [current,if_pos empty,load_tokens_other opens fun held => held.2.1 empty]
          exact ⟨_,a₁,rfl,rfl⟩
        · rw [current,if_neg empty]
          simp only [loop_config]
          by_cases dup : (coll[coll.length - 1]?.bind fun s => get_config s (text_of t)).isSome
          · rw [if_pos dup,load_tokens_other opens fun held => ?_]
            · exact ⟨_,a₁,rfl,rfl⟩
            · rw [held.2.2] at dup
              cases dup
          · rw [if_neg dup,load_tokens_entry opens named empty (Option.not_isSome_iff_eq_none.mp dup)]
            obtain ⟨message | coll',a₂,run₂,is,next⟩ := load_config_tokens later
            · exact ⟨.error message,a₂,bind_ok run₂,by rw [← is]; rfl⟩
            · have dropped : (tokens.drop 2).length < rounds := by
                rw [List.length_drop]
                omega
              obtain ⟨r,a₃,run₃,same⟩ := ih (next coll' rfl) dropped (config_tokens_current empty is.symm)
              exact ⟨r,a₃,(bind_ok run₂).trans run₃,by rw [same,← is]; rfl⟩
      · rw [if_neg named,load_tokens_other opens fun held => named held.1]
        exact ⟨_,a₁,rfl,rfl⟩

end

end

/-! ### The grammar -/

/-- A symbol of one character. -/
def Symbol (c : Char) (token : LexerToken) : Prop := token = ⟨.symbol,some [Int8.ofInt (chr c)]⟩

/-- What `load` takes for a symbol. -/
def Passes (c : Char) (token : LexerToken) : Prop := chr c = first_char token

/-- A name and the token of its value. -/
abbrev Entry := List Int8 × LexerToken

/-- Section names, each with its entries. -/
abbrev Document := List (List Int8 × List Entry)

inductive Entries (sym : Char → LexerToken → Prop) : List Entry → List LexerToken → Prop where
  | nil : Entries sym [] []
  | cons {name value sign : LexerToken} {entries tokens} : name.type = .alnum → sym '=' sign →
      Entries sym entries tokens → Entries sym ((text_of name,value) :: entries) (name :: sign :: value :: tokens)

inductive Sections (sym : Char → LexerToken → Prop) : Document → List LexerToken → Prop where
  | nil : Sections sym [] []
  | cons {opening name closing : LexerToken} {entries tokens document more} : sym '[' opening → name.type = .alnum →
      sym ']' closing → Entries sym entries tokens → Sections sym document more →
      Sections sym ((text_of name,entries) :: document) (opening :: name :: closing :: (tokens ++ more))

/-- No name stands twice. -/
def Distinct (document : Document) : Prop :=
  (document.map fun s => c_str s.1).Nodup ∧ ∀ s ∈ document, (s.2.map fun e => c_str e.1).Nodup

/-- The tokens of type alnum begin like an identifier. -/
def Lexed (tokens : List LexerToken) : Prop := ∀ token ∈ tokens, token.type = .alnum → chr '[' ≠ first_char token

section
variable {D : Type} {doubles : Doubles D} {last : LexerType} {coll : ConfigCollection D} {tokens : List LexerToken}

def section_of (doubles : Doubles D) (s : List Int8 × List Entry) : ConfigSection D :=
  ⟨c_str s.1,s.2.map (entry_of doubles)⟩

theorem entry_of_name (entry : Entry) : (entry_of doubles entry).name = c_str entry.1 := by
  have set_name : ∀ config : Config D, ∀ str, (config_sets doubles config str).name = config.name := by
    intro config str
    rw [config_sets]
    split <;> rfl
  rw [entry_of]
  split
  · exact set_name _ _
  · exact set_name _ _

/-- Every entry has the text of its token. -/
theorem entry_of_str (entry : Entry) : (entry_of doubles entry).str = some (c_str (text_of entry.2)) := by
  have set_str : ∀ config : Config D, ∀ str, (config_sets doubles config str).str = some (c_str str) := by
    intro config str
    rw [config_sets]
    split <;> rfl
  rw [entry_of]
  split
  · exact set_str _ _
  · exact set_str _ _

theorem get_section_none {name : List Int8} : get_section coll name = none ↔ c_str name ∉ coll.map (·.name) := by
  rw [get_section,List.findIdx?_eq_none_iff]
  simp only [List.mem_map,decide_eq_false_iff_not,not_exists,not_and]

theorem get_config_none {s : ConfigSection D} {name : List Int8} :
    get_config s name = none ↔ c_str name ∉ s.config_list.map (·.name) := by
  rw [get_config,List.find?_eq_none]
  simp only [List.mem_map,decide_eq_true_eq,not_exists,not_and]

theorem last_concat (coll : ConfigCollection D) (s : ConfigSection D) :
    (coll ++ [s])[(coll ++ [s]).length - 1]? = some s := by
  rw [List.length_append,List.length_singleton,Nat.add_sub_cancel,List.getElem?_concat_length]

theorem modify_concat {α : Type} (l : List α) (x : α) (f : α → α) : (l ++ [x]).modify l.length f = l ++ [f x] := by
  induction l with
  | nil => rfl
  | cons y l ih => exact congrArg (y :: ·) ih

theorem add_entry_concat (coll : ConfigCollection D) (s : ConfigSection D) (entry : Entry) :
    add_entry doubles (coll ++ [s]) entry =
      coll ++ [{ s with config_list := s.config_list ++ [entry_of doubles entry] }] := by
  rw [add_entry,List.length_append,List.length_singleton,Nat.add_sub_cancel]
  exact modify_concat coll s _

/-- The collection with more entries in its last section, and more sections. -/
def extend (doubles : Doubles D) (coll : ConfigCollection D) (entries : List Entry) (document : Document) :
    ConfigCollection D :=
  (coll.modify (coll.length - 1) fun s => { s with config_list := s.config_list ++ entries.map (entry_of doubles) }) ++
    document.map (section_of doubles)

theorem extend_concat (s : ConfigSection D) (entries : List Entry) (document : Document) :
    extend doubles (coll ++ [s]) entries document =
      coll ++ { s with config_list := s.config_list ++ entries.map (entry_of doubles) } :: document.map (section_of doubles) := by
  rw [extend,List.length_append,List.length_singleton,Nat.add_sub_cancel,modify_concat,List.append_assoc]
  rfl

theorem extend_nil (coll : ConfigCollection D) (document : Document) :
    extend doubles coll [] document = coll ++ document.map (section_of doubles) := by
  have same : (fun s : ConfigSection D => { s with config_list := s.config_list ++ [].map (entry_of doubles) }) = id := by
    funext s
    simp
  rw [extend,same,List.modify_id]

/-- No name stands twice in a collection. -/
def Apart (coll : ConfigCollection D) : Prop :=
  (coll.map (·.name)).Nodup ∧ ∀ s ∈ coll, (s.config_list.map (·.name)).Nodup

theorem apart_section {name : List Int8} (apart : Apart coll) (new : get_section coll name = none) :
    Apart (create_section coll name) := by
  rw [get_section_none] at new
  constructor
  · rw [create_section,List.map_append,List.nodup_append]
    refine ⟨apart.1,by simp,?_⟩
    rintro other there _ last rfl
    rw [List.mem_singleton.mp last] at there
    exact new there
  · intro s there
    rcases List.mem_append.mp there with old | last
    · exact apart.2 s old
    · rw [List.mem_singleton.mp last]
      exact List.nodup_nil

theorem apart_entry {s : ConfigSection D} {entry : Entry} (apart : Apart (coll ++ [s])) (new : get_config s entry.1 = none) :
    Apart (coll ++ [{ s with config_list := s.config_list ++ [entry_of doubles entry] }]) := by
  rw [get_config_none] at new
  constructor
  · have names := apart.1
    rw [List.map_append,List.map_singleton] at names ⊢
    exact names
  · intro other there
    rcases List.mem_append.mp there with old | last
    · exact apart.2 other (List.mem_append_left _ old)
    · rw [List.mem_singleton.mp last,List.map_append,List.map_singleton,entry_of_name,List.nodup_append]
      refine ⟨apart.2 s (by simp),by simp,?_⟩
      rintro other there _ last rfl
      rw [List.mem_singleton.mp last] at there
      exact new there

theorem load_tokens_sound {coll' : ConfigCollection D} (loads : load_tokens doubles last coll tokens = some coll') :
    last ≠ .error ∧ (Apart coll → Apart coll') ∧ ∃ entries document front back, tokens = front ++ back ∧
      Entries Passes entries front ∧ Sections Passes document back ∧ (coll = [] → entries = []) ∧
      coll' = extend doubles coll entries document := by
  fun_induction load_tokens doubles last coll tokens with
  | case1 => cases loads
  | case2 coll noError =>
    cases loads
    exact ⟨noError,id,[],[],[],[],rfl,.nil,.nil,fun _ => rfl,by rw [extend_nil,List.map_nil,List.append_nil]⟩
  | case3 => cases loads
  | case4 => cases loads
  | case5 coll a b c rest opens held ih =>
    obtain ⟨noError,apart,entries,document,front,back,rfl,isFront,isBack,_,rfl⟩ := ih loads
    obtain ⟨named,new,closes⟩ := held
    refine ⟨noError,fun all => apart (apart_section all new),[],(text_of b,entries) :: document,[],_,rfl,.nil,?_,
      fun _ => rfl,?_⟩
    · exact .cons opens named closes isFront isBack
    · rw [create_section,extend_concat,extend_nil]
      rfl
  | case6 => cases loads
  | case7 coll a b c rest other held ih =>
    obtain ⟨named,inside,new,sign⟩ := held
    obtain ⟨noError,apart,entries,document,front,back,rfl,isFront,isBack,_,rfl⟩ := ih loads
    rcases List.eq_nil_or_concat coll with rfl | ⟨init,s,rfl⟩
    · exact absurd rfl inside
    rw [List.concat_eq_append] at new inside ⊢
    rw [List.concat_eq_append,add_entry_concat] at apart
    rw [last_concat,Option.bind_some] at new
    rw [add_entry_concat]
    refine ⟨noError,fun all => apart (apart_entry all new),(text_of a,c) :: entries,document,_,back,rfl,
      .cons named sign isFront,isBack,fun none => absurd none inside,?_⟩
    rw [extend_concat,extend_concat,List.map_cons,List.append_assoc]
    rfl
  | case8 => cases loads

theorem lexed_tail {token : LexerToken} (lexed : Lexed (token :: tokens)) : Lexed tokens :=
  fun other there => lexed other (List.mem_cons_of_mem _ there)

/-- Entries with new names are put into the section. -/
theorem load_entries {entries : List Entry} {front back : List LexerToken} (isFront : Entries Passes entries front) :
    ∀ {s : ConfigSection D}, Lexed front → ((s.config_list ++ entries.map (entry_of doubles)).map (·.name)).Nodup →
      load_tokens doubles last (coll ++ [s]) (front ++ back) =
        load_tokens doubles last (coll ++ [{ s with config_list := s.config_list ++ entries.map (entry_of doubles) }]) back := by
  induction isFront with
  | nil =>
    intro s _ _
    rw [List.map_nil,List.append_nil]
    rfl
  | @cons name value sign entries tokens named passes _ ih =>
    intro s lexed apart
    have other : chr '[' ≠ first_char name := lexed name List.mem_cons_self named
    have new : get_config s (text_of name) = none := by
      rw [get_config_none]
      rw [List.map_append,List.map_cons,List.map_cons,entry_of_name,List.nodup_append] at apart
      exact fun there => apart.2.2 _ there _ List.mem_cons_self rfl
    have inside : coll ++ [s] ≠ [] := by simp
    rw [List.cons_append,List.cons_append,List.cons_append,load_tokens_cons,if_neg other,
      if_pos ⟨named,inside,by rw [last_concat]; exact new,passes⟩,add_entry_concat]
    rw [ih (lexed_tail (lexed_tail (lexed_tail lexed))) (by
      rw [List.append_assoc]
      exact apart)]
    rw [List.append_assoc]
    rfl

/-- Sections with new names are put at the end. -/
theorem load_sections {document : Document} (sections : Sections Passes document tokens) (noError : last ≠ .error) :
    ∀ {coll : ConfigCollection D}, Lexed tokens → Apart (coll ++ document.map (section_of doubles)) →
      load_tokens doubles last coll tokens = some (coll ++ document.map (section_of doubles)) := by
  induction sections with
  | nil =>
    intro coll _ _
    rw [load_tokens_nil,if_neg noError,List.map_nil,List.append_nil]
  | @cons opening name closing entries tokens document more opens named closes isFront _ ih =>
    intro coll lexed apart
    have new : get_section coll (text_of name) = none := by
      rw [get_section_none]
      have names := apart.1
      rw [List.map_append,List.map_cons,List.nodup_append] at names
      exact fun there => names.2.2 _ there _ List.mem_cons_self rfl
    have unique : ((entries.map (entry_of doubles)).map (·.name)).Nodup :=
      apart.2 (section_of doubles (text_of name,entries)) (by simp)
    have lexed' := lexed_tail (lexed_tail (lexed_tail lexed))
    rw [Passes] at opens closes
    rw [load_tokens_cons,if_pos opens,if_pos ⟨named,new,closes⟩,create_section,
      load_entries isFront (fun other there => lexed' other (List.mem_append_left _ there)) unique,List.nil_append]
    have split : ∀ s : ConfigSection D, coll ++ s :: document.map (section_of doubles) =
        (coll ++ [s]) ++ document.map (section_of doubles) := fun s => by simp
    rw [List.map_cons,split]
    rw [List.map_cons,split] at apart
    exact ih (fun other there => lexed' other (List.mem_append_right _ there)) apart

theorem apart_document {document : Document} : Apart (document.map (section_of doubles)) ↔ Distinct document := by
  have names : (document.map (section_of doubles)).map (·.name) = document.map fun s => c_str s.1 := by
    rw [List.map_map]
    rfl
  have entries : ∀ list : List Entry, (list.map (entry_of doubles)).map (·.name) = list.map fun e => c_str e.1 := by
    intro list
    rw [List.map_map]
    exact List.map_congr_left fun e _ => entry_of_name e
  rw [Apart,Distinct,names]
  refine and_congr_right fun _ => ?_
  simp only [List.mem_map,forall_exists_index,and_imp,forall_apply_eq_imp_iff₂]
  refine forall_congr' fun s => forall_congr' fun _ => ?_
  rw [section_of,entries]

/-- A collection is loaded exactly from the tokens of a document, when everything passes
    for a symbol that begins like one. -/
theorem load_tokens_iff (lexed : Lexed tokens) {coll : ConfigCollection D} :
    load_tokens doubles last [] tokens = some coll ↔
      last ≠ .error ∧ ∃ document, Sections Passes document tokens ∧ Distinct document ∧ coll = document.map (section_of doubles) := by
  constructor
  · intro loads
    obtain ⟨noError,apart,entries,document,front,back,rfl,isFront,isBack,none,rfl⟩ := load_tokens_sound loads
    obtain rfl := none rfl
    cases isFront
    rw [extend_nil,List.nil_append] at apart ⊢
    exact ⟨noError,document,isBack,apart_document.mp (apart ⟨List.nodup_nil,nofun⟩),rfl⟩
  · rintro ⟨noError,document,sections,distinct,rfl⟩
    exact load_sections sections noError lexed (apart_document.mpr distinct)

end

/-! ### Loading -/

section
variable {D σ : Type} {doubles : Doubles D} {reader : Reader σ} {stale : Nat → Nat → Int8} {source : List Int8} {fuel : Nat}
  {a : Lexer (Buffer σ)} {tokens : List LexerToken} {last : LexerType}

/-- What holds of every token of a text holds of the tokens of a lexer. -/
theorem delivers_forall {p : LexerToken → Prop}
    (holds : ∀ {fuel b b' token}, lexer_token_get peek_text fuel b = .ok (true,token) b' → p token)
    (delivers : Delivers (peek_char reader.callback stale) (fuel + 1) a tokens last) :
    (∃ b, Same (Gives reader source) 0 a b) ∨ Passed reader source a → ∀ token ∈ tokens, p token := by
  induction delivers with
  | last run => exact fun _ => nofun
  | @more a a' token tokens last run _ ih =>
    rintro (⟨b,same⟩ | passed)
    · have agree := lexer_token_get_alike (gives_alike reader source stale) (fuel + 1) a b same
      rw [run] at agree
      obtain ⟨_,_,_,⟨⟩,_⟩ | ⟨_,_,b',⟨⟩,text,ends⟩ | ⟨_,_,_,⟨⟩,_⟩ := agree_cases agree
      have later : (∃ b, Same (Gives reader source) 0 a' b) ∨ Passed reader source a' := by
        by_cases full : Full token
        · obtain ⟨ofs,passed,shows_⟩ := (ends.1 full).inputs
          rw [shows_.whole] at shows_
          exact .inr ⟨ofs,passed,shows_⟩
        · exact .inl ⟨b',ends.2 full⟩
      intro other there
      rcases List.mem_cons.mp there with rfl | there
      · exact holds text
      · exact ih later other there
    · cases ((right_passed passed).2 _ _ run).1

/-- The tokens of a lexer are what they should be. -/
theorem delivers_lexed (delivers : Delivers (peek_char reader.callback stale) (fuel + 1) a tokens last)
    (start : (∃ b, Same (Gives reader source) 0 a b) ∨ Passed reader source a) : Lexed tokens := by
  refine delivers_forall (fun {fuel b b' token} run named opens => ?_) delivers start
  obtain ⟨type,str⟩ := token
  rcases lexer_token_get_found run with ⟨⟨⟩,_⟩ | ⟨⟨⟩⟩ | ⟨_,str,⟨⟩,_⟩
  have word := lexer_token_get_alnum run named
  have is : (str.headD 0).toInt = chr '[' := opens.symm
  rw [is] at word
  exact absurd word (by decide)

theorem symbol_passes {c : Char} (small : (Int8.ofInt (chr c)).toInt = chr c) {token : LexerToken} (symbol : Symbol c token) :
    Passes c token := by
  rw [symbol]
  exact small.symm

theorem entries_pass {entries : List Entry} (isEntries : Entries Symbol entries tokens) : Entries Passes entries tokens := by
  induction isEntries with
  | nil => exact .nil
  | cons named symbol _ ih => exact .cons named (symbol_passes (by decide) symbol) ih

theorem sections_pass {document : Document} (isSections : Sections Symbol document tokens) :
    Sections Passes document tokens := by
  induction isSections with
  | nil => exact .nil
  | cons opens named closes isEntries _ ih =>
    exact .cons (symbol_passes (by decide) opens) named (symbol_passes (by decide) closes) (entries_pass isEntries) ih

/-- The names and texts of a collection. -/
def contents (coll : ConfigCollection D) : List (List Int8 × List (List Int8 × Option (List Int8))) :=
  coll.map fun s => (s.name,s.config_list.map fun config => (config.name,config.str))

/-- The names and texts of a document, as strings. -/
def strings (document : Document) : List (List Int8 × List (List Int8 × Option (List Int8))) :=
  document.map fun s => (c_str s.1,s.2.map fun e => (c_str e.1,some (c_str (text_of e.2))))

theorem contents_document (document : Document) : contents (document.map (section_of doubles)) = strings document := by
  rw [contents,strings,List.map_map]
  refine List.map_congr_left fun s _ => ?_
  simp only [Function.comp,section_of,List.map_map]
  refine congrArg _ (List.map_congr_left fun e _ => ?_)
  simp only [Function.comp,entry_of_name,entry_of_str]

/-- `load` comes to a collection exactly for the documents of the grammar, and to their contents. -/
def Grammatical (doubles : Doubles D) (reader : Reader σ) (stale : Nat → Nat → Int8) (data : σ) (tokens : List LexerToken)
    (last : LexerType) : Prop :=
  ((∃ coll, Returns (load_with doubles reader.callback stale data) (.ok coll)) ↔
    last ≠ .error ∧ ∃ document, Sections Symbol document tokens ∧ Distinct document) ∧
  ∀ coll document, Returns (load_with doubles reader.callback stale data) (.ok coll) → Sections Symbol document tokens →
    Distinct document → contents coll = strings document

theorem delivers_more {ι : Type} {peek : Nat → LexerM ι Int} {m n : Nat} (le : n ≤ m) {a : Lexer ι}
    (delivers : Delivers peek n a tokens last) : Delivers peek m a tokens last := by
  induction delivers with
  | last run => exact .last (lexer_token_get_at le run)
  | more run _ ih => exact .more (lexer_token_get_at le run) ih

/-- The outcome of `load` is that of its tokens. -/
theorem load_delivered {data : σ} (delivers : Delivers (peek_char reader.callback stale) fuel (lexer_create data) tokens last) :
    ∃ r, Returns (load_with doubles reader.callback stale data) r ∧ r.toOption = load_tokens doubles last [] tokens := by
  have more := delivers_more (Nat.le_max_left fuel (tokens.length + 1)) delivers
  have few : tokens.length < max fuel (tokens.length + 1) := Nat.lt_of_lt_of_le (Nat.lt_succ_self _) (Nat.le_max_right _ _)
  obtain ⟨r,a',run,is⟩ := load_loop_tokens more few (show Current [] none from rfl)
  refine ⟨r,⟨max fuel (tokens.length + 1),?_⟩,is⟩
  rw [load_with,load,run]
  rfl

/-- A lexer with a short source gives the tokens of its text. -/
theorem delivers_text {b : Lexer (List Int8)} (small : b.input.length ≤ 256) (enough : b.input.length < fuel)
    (delivers : Delivers peek_text fuel b tokens last) :
    ∀ {a}, Same (Gives reader source) 0 a b → Delivers (peek_char reader.callback stale) fuel a tokens last := by
  induction delivers with
  | @last b b' token run =>
    intro a same
    have agree := lexer_token_get_alike (gives_alike reader source stale) fuel a b same
    rw [run] at agree
    obtain ⟨_,_,⟨⟩,_⟩ | ⟨_,a',_,ring,⟨⟩,_⟩ | ⟨_,_,_,_,⟨⟩,_⟩ := agree_cases agree
    exact .last ring
  | @more b b' token tokens last run _ ih =>
    intro a same
    have few : (left b).length < fuel := by
      rw [left,List.length_drop]
      omega
    have takes := (lexer_token_get_returns few).1
    rw [run] at takes
    have agree := lexer_token_get_alike (gives_alike reader source stale) fuel a b same
    rw [run] at agree
    obtain ⟨_,_,⟨⟩,_⟩ | ⟨_,a',_,ring,⟨⟩,ends⟩ | ⟨_,_,_,_,⟨⟩,_⟩ := agree_cases agree
    refine .more ring (ih ?_ ?_ (ends.2 (not_full small few run)))
    · rw [takes.1]
      exact small
    · rw [takes.1]
      exact enough

/-- `load` returns for all sequences of tokens that a lexer gives. It accepts exactly its
    grammar, unless the sequence would belong to it with symbols for quoted literals that
    begin like them. -/
theorem load_grammar_iff (doubles : Doubles D) (reader : Reader σ) (stale : Nat → Nat → Int8) (data : σ) (fuel : Nat)
    (tokens : List LexerToken) (last : LexerType)
    (delivers : Delivers (peek_char reader.callback stale) fuel (lexer_create data) tokens last) :
    (∃ r, Returns (load_with doubles reader.callback stale data) r) ∧
      (Grammatical doubles reader stale data tokens last ↔
        (last ≠ .error → (∃ document, Sections Passes document tokens ∧ Distinct document) →
          ∃ document, Sections Symbol document tokens ∧ Distinct document)) := by
  obtain ⟨r,returns,is⟩ := load_delivered delivers
  have lexed : Lexed tokens := delivers_lexed (delivers_more (Nat.le_succ fuel) delivers)
    ((created_placed reader data) rfl)
  have accepts : ∀ coll, Returns (load_with doubles reader.callback stale data) (.ok coll) ↔
      load_tokens doubles last [] tokens = some coll := by
    intro coll
    rw [← is]
    constructor
    · intro loads
      rw [returns_unique returns loads]
      rfl
    · intro same
      cases r with
      | error message => cases same
      | ok coll' =>
        cases same
        exact returns
  have passing : (∃ coll, Returns (load_with doubles reader.callback stale data) (.ok coll)) ↔
      last ≠ .error ∧ ∃ document, Sections Passes document tokens ∧ Distinct document := by
    constructor
    · rintro ⟨coll,loads⟩
      obtain ⟨noError,document,sections,distinct,_⟩ := (load_tokens_iff lexed).mp ((accepts coll).mp loads)
      exact ⟨noError,document,sections,distinct⟩
    · rintro ⟨noError,document,sections,distinct⟩
      exact ⟨_,(accepts _).mpr ((load_tokens_iff lexed).mpr ⟨noError,document,sections,distinct,rfl⟩)⟩
  refine ⟨⟨r,returns⟩,fun grammatical noError passes => ?_,fun strict => ⟨?_,?_⟩⟩
  · exact (grammatical.1.mp (passing.mpr ⟨noError,passes⟩)).2
  · rw [passing]
    refine and_congr_right fun noError => ⟨strict noError,?_⟩
    rintro ⟨document,sections,distinct⟩
    exact ⟨document,sections_pass sections,distinct⟩
  · intro coll document loads sections distinct
    have loaded := (accepts coll).mp loads
    have noError := ((load_tokens_iff lexed).mp loaded).1
    rw [(load_tokens_iff lexed).mpr ⟨noError,document,sections_pass sections,distinct,rfl⟩] at loaded
    cases loaded
    exact contents_document document

/-- The file `[a]`. -/
theorem load_grammar_section : Delivers (peek_char stdio_fread fun _ _ => 0) 4 (lexer_create [91,97,93])
      [⟨.symbol,some [91]⟩,⟨.alnum,some [97]⟩,⟨.symbol,some [93]⟩] .eof ∧
    (∃ r, Returns (load_with (⟨fun _ => 0,fun _ => 0⟩ : Doubles Nat) stdio_fread (fun _ _ => 0) [91,97,93]) r) ∧
      (Grammatical (⟨fun _ => 0,fun _ => 0⟩ : Doubles Nat) file_reader (fun _ _ => 0) [91,97,93]
          [⟨.symbol,some [91]⟩,⟨.alnum,some [97]⟩,⟨.symbol,some [93]⟩] .eof ↔
        (LexerType.eof ≠ .error → (∃ document, Sections Passes document
            [⟨.symbol,some [91]⟩,⟨.alnum,some [97]⟩,⟨.symbol,some [93]⟩] ∧ Distinct document) →
          ∃ document, Sections Symbol document [⟨.symbol,some [91]⟩,⟨.alnum,some [97]⟩,⟨.symbol,some [93]⟩] ∧
            Distinct document)) := by
  have text : Delivers peek_text 4 (list_lexer [91,97,93]) [⟨.symbol,some [91]⟩,⟨.alnum,some [97]⟩,⟨.symbol,some [93]⟩] .eof := by
    refine .more rfl ?_
    refine .more rfl ?_
    refine .more rfl ?_
    exact @Delivers.last _ _ _ _ _ ⟨.eof,none⟩ rfl
  have delivers : Delivers (peek_char file_reader.callback fun _ _ => 0) _ _ _ _ :=
    delivers_text (by decide) (by decide) text (created_shows trivial rfl)
  exact ⟨delivers,load_grammar_iff _ file_reader (fun _ _ => 0) [91,97,93] 4 _ _ delivers⟩

/-- In the file `"[" a ]` a literal passes for the bracket. -/
theorem load_grammar_fails : ∃ tokens last,
    Delivers (peek_char stdio_fread fun _ _ => 0) 8 (lexer_create [34,91,34,32,97,32,93]) tokens last ∧
      ¬ Grammatical (⟨fun _ => 0,fun _ => 0⟩ : Doubles Nat) file_reader (fun _ _ => 0) [34,91,34,32,97,32,93] tokens last := by
  have text : Delivers peek_text 8 (list_lexer [34,91,34,32,97,32,93])
      [⟨.literal,some [91]⟩,⟨.alnum,some [97]⟩,⟨.symbol,some [93]⟩] .eof := by
    refine .more rfl ?_
    refine .more rfl ?_
    refine .more rfl ?_
    exact @Delivers.last _ _ _ _ _ ⟨.eof,none⟩ rfl
  have delivers : Delivers (peek_char file_reader.callback fun _ _ => 0) _ _ _ _ :=
    delivers_text (by decide) (by decide) text (created_shows trivial rfl)
  refine ⟨_,_,delivers,fun grammatical => ?_⟩
  obtain ⟨r,returns,is⟩ := load_delivered delivers
  cases r with
  | error message => cases is
  | ok coll =>
    obtain ⟨_,document,sections,_⟩ := grammatical.1.mp ⟨coll,returns⟩
    generalize split : [_,_,_] = ts at sections
    cases sections with
    | nil => cases split
    | cons opens _ _ _ _ =>
      rw [← (List.cons.inj split).1] at opens
      cases opens

end

end Htools.ConfigFile
