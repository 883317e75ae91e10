import Htools.ConfigMade

/-!
Writing a configuration and loading it again. The writer knows no escapes, so that a
string with a quote ends early, and the lexer stops at 0xff and 0xfe and cuts literals
and numbers off at the end of its ring buffer. What is loaded is what was written
exactly if no value has any of these (`round_trips_iff`).
-/
namespace Htools.ConfigFile
open Htools.Lexing Htools.Simulation Htools.CString

/-- One line, as `asctime_r` prints it. -/
def Line (time_str : List Int8) : Prop := ∃ date, time_str = date ++ lit "\n" ∧ ∀ c ∈ date, 0 < c.toInt ∧ chr '\n' ≠ c.toInt

/-- What `%f` prints: digits with a point, or a word for a value that is not finite. -/
def Printed (t : List Int8) : Prop :=
  Numeral t ∨ ∃ sign word, (sign = [] ∨ sign = lit "-") ∧ word ∈ [lit "inf",lit "infinity",lit "nan"] ∧ t = sign ++ word

section
variable {D : Type} (doubles : Doubles D) (percent_f : D → List Int8)

/-- The name stays, and what the type of the value is about. -/
def Agrees (config config' : Config D) : Prop :=
  config'.name = config.name ∧ (config.type = .str → config'.str = config.str) ∧
    (config.type = .i32 → config'.i32 = config.i32)

/-- The same sections and entries in the same order. -/
def Preserved (coll coll' : ConfigCollection D) : Prop :=
  List.Forall₂ (fun s s' => s'.name = s.name ∧ List.Forall₂ Agrees s.config_list s'.config_list) coll coll'

/-- The collection is written and loaded again. -/
def RoundTrips (stale : Nat → Nat → Int8) (time_str : List Int8) (coll : ConfigCollection D) : Prop :=
  ∃ file coll', config_collection_write percent_f true time_str coll = .ok (some file) ∧
    Returns (config_collection_load_from_file doubles stale (some file)) (.ok coll') ∧ Preserved coll coll'

/-- A string has at most 255 characters and no quote, 0xff or 0xfe; a number is not
    longer than the ring buffer, and does not begin with a minus unless digits follow. -/
def Writable (config : Config D) : Prop :=
  match config.type with
  | .d => (percent_f config.d).length ≤ 256 ∧ percent_f config.d ∉ [lit "-inf",lit "-infinity",lit "-nan"]
  | .i32 => True
  | .str => ∀ str, config.str = some str → str.length ≤ 255 ∧ ∀ c ∈ str, c ≠ 34 ∧ c ≠ -1 ∧ c ≠ -2

/-! ### The file -/

def value_text (config : Config D) : List Int8 :=
  match config.type with
  | .d => percent_f config.d
  | .i32 => percent_d config.i32
  | .str => 34 :: (config.str.getD [] ++ [34])

def configs_text : List (Config D) → List Int8
  | [] => []
  | config :: rest => config.name ++ 61 :: (value_text percent_f config ++ 10 :: configs_text rest)

def sections_text : ConfigCollection D → List Int8
  | [] => []
  | s :: rest => 91 :: (s.name ++ 93 :: 10 :: (configs_text percent_f s.config_list ++ sections_text rest))

variable {percent_f}

theorem config_value_eq {config : Config D} (valued : Valued config) :
    config_value_text percent_f config = .ok (value_text percent_f config) := by
  rw [config_value_text,value_text]
  cases type : config.type with
  | d => rfl
  | i32 => rfl
  | str =>
    obtain ⟨str,is,_⟩ := valued type
    rw [is]
    rfl

theorem write_configs_eq : ∀ {list : List (Config D)}, (∀ config ∈ list, Valued config) →
    write_configs percent_f list = .ok (configs_text percent_f list) := by
  intro list
  induction list with
  | nil => exact fun _ => rfl
  | cons config list ih =>
    intro valued
    rw [write_configs,config_value_eq (valued config List.mem_cons_self),
      ih fun other there => valued other (List.mem_cons_of_mem _ there),configs_text]
    simp [bind,Except.bind,pure,Except.pure,show lit "=" = [61] from rfl,show lit "\n" = [10] from rfl]

theorem write_sections_eq : ∀ {coll : ConfigCollection D}, (∀ s ∈ coll, SoundSection s) →
    write_sections percent_f coll = .ok (sections_text percent_f coll) := by
  intro coll
  induction coll with
  | nil => exact fun _ => rfl
  | cons s coll ih =>
    intro sound
    rw [write_sections,write_configs_eq fun config there => ((sound s List.mem_cons_self).configs config there).2,
      ih fun other there => sound other (List.mem_cons_of_mem _ there),sections_text]
    simp [bind,Except.bind,pure,Except.pure,show lit "[" = [91] from rfl,show lit "]\n" = [93,10] from rfl]

/-- The comment is skipped. -/
theorem upcoming_line {date rest : List Int8} (positive : ∀ c ∈ date, 0 < c.toInt ∧ chr '\n' ≠ c.toInt) :
    upcoming true (date ++ 10 :: rest) = upcoming false rest := by
  induction date with
  | nil => exact if_pos rfl
  | cons c date ih =>
    obtain ⟨above,other⟩ := positive c List.mem_cons_self
    rw [List.cons_append,upcoming,if_neg other,if_pos rfl,if_pos above]
    exact ih fun d there => positive d (List.mem_cons_of_mem _ there)

theorem upcoming_newline {rest : List Int8} : upcoming false (10 :: rest) = upcoming false rest := if_pos rfl

theorem upcoming_char {c : Int8} {rest : List Int8} (black : chr '\n' ≠ c.toInt ∧ chr ' ' ≠ c.toInt ∧ chr '\t' ≠ c.toInt ∧
    chr '#' ≠ c.toInt) : upcoming false (c :: rest) = c :: rest := by
  rw [upcoming,if_neg black.1,if_neg Bool.false_ne_true,if_neg (not_or.mpr ⟨black.2.1,black.2.2.1⟩),if_neg black.2.2.2]

/-- What is written, and how it begins. -/
theorem write_eq {time_str : List Int8} (line : Line time_str) {coll : ConfigCollection D} (sound : Sound coll) :
    ∃ file, config_collection_write percent_f true time_str coll = .ok (some file) ∧
      upcoming false file = upcoming false (sections_text percent_f coll) := by
  obtain ⟨date,rfl,positive⟩ := line
  refine ⟨lit "# Created " ++ (date ++ lit "\n") ++ lit "\n" ++ sections_text percent_f coll,?_,?_⟩
  · rw [config_collection_write,if_neg (by decide),write_sections_eq sound.sections]
    rfl
  · have header : ∀ c ∈ lit " Created ", 0 < c.toInt ∧ chr '\n' ≠ c.toInt := each_char (by decide)
    have front : lit "# Created " ++ (date ++ lit "\n") ++ lit "\n" ++ sections_text percent_f coll =
        35 :: ((lit " Created " ++ date) ++ 10 :: 10 :: sections_text percent_f coll) := by
      rw [show lit "# Created " = 35 :: lit " Created " from rfl,show lit "\n" = [10] from rfl]
      simp only [List.append_assoc,List.cons_append,List.nil_append]
    have comment : upcoming false (35 :: ((lit " Created " ++ date) ++ 10 :: 10 :: sections_text percent_f coll)) =
        upcoming true ((lit " Created " ++ date) ++ 10 :: 10 :: sections_text percent_f coll) := rfl
    rw [front,comment,upcoming_line,upcoming_newline]
    intro c there
    rcases List.mem_append.mp there with there | there
    · exact header c there
    · exact positive c there

end

/-! ### A lexer in the file -/

section
variable {σ : Type} {reader : Reader σ} {source : List Int8} {stale : Nat → Nat → Int8} {fuel : Nat}
  {a a' : Lexer (Buffer σ)} {text rest more : List Int8} {token : LexerToken} {tokens : List LexerToken} {last : LexerType}

/-- The lexer shows its source, of which the text is left. -/
def At (reader : Reader σ) (source : List Int8) (a : Lexer (Buffer σ)) (text : List Int8) : Prop :=
  ∃ b, Same (Gives reader source) 0 a b ∧ left b = text

/-- Before the next token. -/
def Ready (reader : Reader σ) (source : List Int8) (a : Lexer (Buffer σ)) (text : List Int8) : Prop :=
  ∃ behind, At reader source a behind ∧ upcoming false behind = upcoming false text

theorem at_enough (enough : source.length < fuel) {b : Lexer (List Int8)} (same : Same (Gives reader source) 0 a b) :
    (left b).length < fuel := by
  rw [left,same.inputs.whole,List.length_drop]
  omega

/-- Where a lexer is after a token that it should get. -/
structure Got (reader : Reader σ) (source : List Int8) (token : LexerToken) (a : Lexer (Buffer σ)) (rest : List Int8) : Prop where
  shown : ¬ Full token → At reader source a rest
  passed : Full token → Passed reader source a ∧ source.drop a.ofs = rest

theorem emits_at (emits : Emits text token rest) (here : At reader source a text) (enough : source.length < fuel) :
    ∃ a', lexer_token_get (peek_char reader.callback stale) fuel a = .ok (true,token) a' ∧ Got reader source token a' rest := by
  obtain ⟨b,same,left_⟩ := here
  obtain ⟨b',run,input,rest_⟩ := emits b fuel left_ (left_ ▸ at_enough enough same)
  have agree := lexer_token_get_alike (gives_alike reader source stale) fuel a b same
  rw [run] at agree
  obtain ⟨_,_,⟨⟩,_⟩ | ⟨_,a',_,ring,⟨⟩,ends⟩ | ⟨_,_,_,_,⟨⟩,_⟩ := agree_cases agree
  refine ⟨a',ring,fun other => ⟨b',ends.2 other,rest_⟩,fun full => ?_⟩
  obtain ⟨ofs,passed,shows_⟩ := (ends.1 full).inputs
  rw [shows_.whole] at shows_
  refine ⟨⟨ofs,passed,shows_⟩,?_⟩
  rw [← rest_,left,input,same.inputs.whole,(ends.1 full).ofs]

/-- A token of the lexer is one of the text. -/
theorem at_run (here : At reader source a text) {r : Bool × LexerToken}
    (run : lexer_token_get (peek_char reader.callback stale) fuel a = .ok r a') :
    ∃ b b', left b = text ∧ b.input = source ∧ lexer_token_get peek_text fuel b = .ok r b' := by
  obtain ⟨b,same,left_⟩ := here
  have agree := lexer_token_get_alike (gives_alike reader source stale) fuel a b same
  rw [run] at agree
  obtain ⟨_,_,_,⟨⟩,_⟩ | ⟨_,_,b',⟨⟩,text,_⟩ | ⟨_,_,_,⟨⟩,_⟩ := agree_cases agree
  exact ⟨b,b',left_,same.inputs.whole,text⟩

/-- The next token that a lexer delivers is the one of its text. -/
theorem delivers_emits (emits : Emits text token rest) (here : At reader source a text) (enough : source.length < fuel)
    (delivers : Delivers (peek_char reader.callback stale) fuel a tokens last) :
    ∃ a' tokens', tokens = token :: tokens' ∧ Delivers (peek_char reader.callback stale) fuel a' tokens' last ∧
      Got reader source token a' rest := by
  obtain ⟨a',run,got⟩ := @emits_at _ _ _ stale _ _ _ _ _ emits here enough
  cases delivers with
  | last run' =>
    rw [run] at run'
    cases run'
  | more run' later =>
    rw [run] at run'
    cases run'
    exact ⟨a',_,rfl,later,got⟩

/-- A lexer that has passed its buffer delivers nothing where there is more text. -/
theorem passed_delivers (passed : Passed reader source a) (some_ : source.drop a.ofs ≠ [])
    (delivers : Delivers (peek_char reader.callback stale) (fuel + 1) a tokens last) : False := by
  have cleared : Passed reader source { a with error := .none } := passed
  obtain ⟨_,_,_,past,_⟩ | ⟨a',look⟩ := @peek_passed _ _ _ stale _ cleared
  · exact some_ (List.drop_eq_nil_of_le past)
  · have stops : lexer_token_get (peek_char reader.callback stale) (fuel + 1) a = .error .fault a' := by
      refine (bind_ok rfl).trans ?_
      rw [token_loop_gap]
      exact bind_error (gap_loop_fault look)
    cases delivers with
    | last run =>
      rw [stops] at run
      cases run
    | more run _ =>
      rw [stops] at run
      cases run

/-- The next token that a lexer delivers begins with the next character. -/
theorem delivers_begins {c : Int8} (ready : Ready reader source a text) (next : upcoming false text = c :: rest)
    (positive : 0 < c.toInt) (noQuote : chr '"' ≠ c.toInt) (enough : source.length < fuel) (noError : last ≠ .error)
    (delivers : Delivers (peek_char reader.callback stale) fuel a tokens last) :
    ∃ token tokens', tokens = token :: tokens' ∧ first_char token = c.toInt ∧
      (token.type = .alnum → chr '_' = c.toInt ∨ isalpha c.toInt) := by
  obtain ⟨behind,here,same⟩ := ready
  have few : ∀ b : Lexer (List Int8), left b = behind → b.input = source → (left b).length < fuel := by
    intro b _ whole
    rw [left,whole,List.length_drop]
    omega
  cases delivers with
  | @last _ _ token run =>
    obtain ⟨b,b',left_,whole,run'⟩ := at_run here run
    have starts : upcoming false (left b) = c :: rest := by rw [left_,same,next]
    exact absurd (token_or_error starts (positive_plain positive).1 (few b left_ whole) run') noError
  | @more _ _ token tokens' _ run _ =>
    obtain ⟨b,b',left_,whole,run'⟩ := at_run here run
    rcases lexer_token_get_found run' with ⟨⟨⟩,_⟩ | ⟨⟨⟩⟩ | ⟨type,str,⟨⟩,_⟩
    have begins := token_begins (by rw [left_,same,next]) positive noQuote (few b left_ whole) run'
    refine ⟨_,_,rfl,begins,fun named => ?_⟩
    rw [← begins]
    exact lexer_token_get_alnum run' named

end

/-! ### Names and values -/

section
variable {D : Type} {doubles : Doubles D} {percent_f : D → List Int8} {text rest w : List Int8} {config : Config D}

/-- A letter or an underscore is not skipped. -/
theorem letter_black {c : Int} (letter : chr '_' = c ∨ isalpha c) : chr '\n' ≠ c ∧ chr ' ' ≠ c ∧ chr '\t' ≠ c ∧ chr '#' ≠ c := by
  refine ⟨?_,?_,?_,?_⟩ <;> rintro rfl <;> exact absurd letter (by decide)

theorem upcoming_word (identifier : Identifier w) : upcoming false (w ++ rest) = w ++ rest := by
  obtain ⟨first,_⟩ := identifier
  cases w with
  | nil => exact absurd first (by decide)
  | cons c w => exact upcoming_char (letter_black first)

/-- The words of `%f` are names to the lexer. -/
theorem word_name (is_word : w ∈ [lit "inf",lit "infinity",lit "nan"]) : Name w := by
  simp only [List.mem_cons,List.not_mem_nil,or_false] at is_word
  rcases is_word with rfl | rfl | rfl <;> exact ⟨⟨by decide,each_char (by decide)⟩,by decide⟩

theorem upcoming_numeral {t : List Int8} (numeral : Numeral t) : upcoming false (t ++ 10 :: rest) = t ++ 10 :: rest := by
  obtain ⟨c,w,rfl,begins,_⟩ := numeral_begins numeral rest
  refine upcoming_char ⟨?_,?_,?_,?_⟩ <;> intro is <;> rw [← is] at begins <;> exact absurd begins (by decide)

theorem name_emits (name : Name w) (next : upcoming false text = w ++ rest)
    (stops : ¬ (chr '_' = glance rest 0 ∨ isalnum (glance rest 0))) : Emits text ⟨.alnum,some w⟩ rest :=
  emits_word name.1 name.2 next stops

theorem sign_emits {c : Int8} (sign : c = 91 ∨ c = 93 ∨ c = 61) (next : upcoming false text = c :: rest) :
    Emits text ⟨.symbol,some [c]⟩ rest := by
  have none_ : number_end (c :: rest) = none := by
    rcases sign with rfl | rfl | rfl
    · exact number_end_symbol (i := 0) rfl rfl (by rw [glance_cons]; decide)
    · exact number_end_symbol (i := 0) rfl rfl (by rw [glance_cons]; decide)
    · exact number_end_symbol (i := 0) rfl rfl (by rw [glance_cons]; decide)
  rcases sign with rfl | rfl | rfl
  · exact emits_symbol next (by decide) (by decide) (by decide) (by decide) none_
  · exact emits_symbol next (by decide) (by decide) (by decide) (by decide) none_
  · exact emits_symbol next (by decide) (by decide) (by decide) (by decide) none_

/-- A string with nothing in it that ends a literal early. -/
theorem str_emits {str : List Int8} (short : str.length ≤ 255) (plain : ∀ c ∈ str, c ≠ 34 ∧ c ≠ -1 ∧ c ≠ -2)
    (next : upcoming false text = 34 :: (str ++ [34]) ++ 10 :: rest) : Emits text ⟨.literal,some str⟩ (10 :: rest) := by
  have more : upcoming false text = 34 :: (str ++ (34 :: 10 :: rest)) := by
    rw [next]
    simp
  have ending : Ending (str ++ (34 :: 10 :: rest)) str.length := by
    refine ⟨by omega,fun k less => ?_,fun _ => (glance_append_right 0).trans rfl⟩
    obtain ⟨noQuote,noEof,_⟩ := plain _ (List.getElem_mem less)
    rw [glance_append_left less]
    exact ⟨fun is => noEof (Int8.toInt_inj.mp is),fun is => noQuote (Int8.toInt_inj.mp is)⟩
  have emits := emits_literal more ending
  rw [List.take_left,← List.drop_drop,List.drop_left] at emits
  exact emits fun c there => (plain c there).2.2

theorem numeral_emits {t : List Int8} (numeral : Numeral t) (short : t.length ≤ 256) (next : upcoming false text = t ++ 10 :: rest) :
    Emits text ⟨.number,some t⟩ (10 :: rest) := by
  have emits := emits_number numeral next
  rw [List.take_of_length_le short,List.drop_eq_nil_of_le short] at emits
  exact emits

theorem sets_percent_d (config : Config D) (i : Int32) : (config_sets doubles config (percent_d i)).i32 = i := by
  obtain ⟨c,w,is,_,noHex⟩ := numeral_begins (percent_d_numeral i) []
  have decimal : ¬ (chr '0' = ((percent_d i).headD 0).toInt ∧ chr 'x' = (((percent_d i).drop 1).headD 0).toInt) := by
    rw [is] at noHex ⊢
    rintro ⟨zero,x⟩
    refine noHex zero ?_
    cases w with
    | nil => cases x
    | cons d w => exact x
  have whole : c_str (percent_d i) = percent_d i :=
    c_str_self fun there => absurd (numeral_plain (percent_d_numeral i) 0 there) (by decide)
  rw [config_sets,if_neg decimal]
  simp only
  rw [whole,strtol_percent_d,Int32.ofInt_toInt]

/-- An integer is read as it was written. -/
theorem percent_d_read (i : Int32) (name : List Int8) :
    (entry_of doubles (name,⟨.number,some (percent_d i)⟩)).i32 = i :=
  sets_percent_d (create_config doubles name) i

/-- A value that is neither too long nor has anything in it that ends it early is one
    token, from which it is read again. -/
theorem value_emits (printed : ∀ d, Printed (percent_f d)) (name : Name config.name) (valued : Valued config)
    (writable : Writable percent_f config) : ∃ v, Agrees config (entry_of doubles (config.name,v)) ∧ ¬ Full v ∧
      ∀ {text rest}, upcoming false text = upcoming false (value_text percent_f config ++ 10 :: rest) → Emits text v (10 :: rest) := by
  have named : ∀ v, (entry_of doubles (config.name,v)).name = config.name := fun v =>
    (entry_of_name _).trans (identifier_c_str name)
  rw [Writable] at writable
  simp only [value_text,Agrees]
  cases type : config.type with
  | d =>
    rw [type] at writable
    obtain ⟨short,noMinus⟩ := writable
    rcases printed config.d with numeral | ⟨sign,word,signed,is_word,is⟩
    · refine ⟨⟨.number,some (percent_f config.d)⟩,⟨named _,nofun,nofun⟩,fun full => (by cases full.1),fun next => ?_⟩
      rw [upcoming_numeral numeral] at next
      exact numeral_emits numeral short next
    · obtain rfl : sign = [] := by
        rcases signed with rfl | rfl
        · rfl
        · refine absurd ?_ noMinus
          rw [is]
          simp only [List.mem_cons,List.not_mem_nil,or_false] at is_word
          rcases is_word with rfl | rfl | rfl <;> decide
      have identifier := word_name is_word
      rw [List.nil_append] at is
      refine ⟨⟨.alnum,some word⟩,⟨named _,nofun,nofun⟩,fun full => (by cases full.1),fun next => ?_⟩
      rw [is,upcoming_word identifier.1] at next
      exact name_emits identifier next (by rw [glance_cons]; decide)
  | i32 =>
    have numeral := percent_d_numeral config.i32
    have short := percent_d_fits config.i32
    refine ⟨⟨.number,some (percent_d config.i32)⟩,⟨named _,nofun,fun _ => percent_d_read _ _⟩,
      fun full => (by cases full.1),fun next => ?_⟩
    rw [upcoming_numeral numeral] at next
    exact numeral_emits numeral (by omega) next
  | str =>
    obtain ⟨str,is,none_⟩ := valued type
    rw [type] at writable
    obtain ⟨short,plain⟩ := writable str is
    refine ⟨⟨.literal,some str⟩,⟨named _,fun _ => ?_,nofun⟩,?_,fun next => ?_⟩
    · rw [entry_of_str,is]
      exact congrArg some (c_str_self none_)
    · rintro ⟨_,_,⟨⟩,length⟩
      omega
    · rw [is] at next
      exact str_emits short plain (next.trans (upcoming_char (by decide)))

end

/-! ### What can be written is loaded -/

section
variable {D σ : Type} {doubles : Doubles D} {percent_f : D → List Int8} {reader : Reader σ} {source : List Int8}
  {stale : Nat → Nat → Int8} {fuel : Nat} {last : LexerType}

/-- A token that is not a full literal is got and left behind. -/
theorem ready_emits {text rest : List Int8} {token : LexerToken} {a : Lexer (Buffer σ)} (ready : Ready reader source a text)
    (emits : ∀ behind, upcoming false behind = upcoming false text → Emits behind token rest) (other : ¬ Full token)
    (enough : source.length < fuel) : ∃ a', lexer_token_get (peek_char reader.callback stale) fuel a = .ok (true,token) a' ∧
      At reader source a' rest := by
  obtain ⟨behind,here,same⟩ := ready
  obtain ⟨a',run,got⟩ := @emits_at _ _ _ stale _ _ _ _ _ (emits behind same) here enough
  exact ⟨a',run,got.shown other⟩

theorem ready_at {text : List Int8} {a : Lexer (Buffer σ)} (here : At reader source a text) : Ready reader source a text :=
  ⟨text,here,rfl⟩

theorem ready_newline {text : List Int8} {a : Lexer (Buffer σ)} (here : At reader source a (10 :: text)) :
    Ready reader source a text :=
  ⟨_,here,upcoming_newline⟩

/-- The entries of a section. -/
theorem entries_delivered (printed : ∀ d, Printed (percent_f d)) (enough : source.length < fuel) : ∀ {es : List (Config D)},
    (∀ config ∈ es, Name config.name ∧ Valued config) → (∀ config ∈ es, Writable percent_f config) →
    ∃ entries front, Entries Passes entries front ∧ List.Forall₂ Agrees es (entries.map (entry_of doubles)) ∧
      ∀ {more back a}, Ready reader source a (configs_text percent_f es ++ more) →
        (∀ a', Ready reader source a' more → Delivers (peek_char reader.callback stale) fuel a' back last) →
        Delivers (peek_char reader.callback stale) fuel a (front ++ back) last := by
  intro es
  induction es with
  | nil => exact fun _ _ => ⟨[],[],.nil,.nil,fun ready later => later _ ready⟩
  | cons config es ih =>
    intro sound writable
    obtain ⟨name,valued⟩ := sound config List.mem_cons_self
    obtain ⟨entries,front,isFront,agrees,delivers⟩ :=
      ih (fun other there => sound other (List.mem_cons_of_mem _ there))
        (fun other there => writable other (List.mem_cons_of_mem _ there))
    obtain ⟨v,agree,other,emits⟩ := @value_emits D doubles percent_f config printed name valued
      (writable config List.mem_cons_self)
    refine ⟨(config.name,v) :: entries,⟨.alnum,some config.name⟩ :: ⟨.symbol,some [61]⟩ :: v :: front,
      @Entries.cons Passes ⟨.alnum,some config.name⟩ v ⟨.symbol,some [61]⟩ _ _ rfl (show chr '=' = first_char _ from rfl) isFront,
      .cons agree agrees,fun {more back a} ready later => ?_⟩
    have text : configs_text percent_f (config :: es) ++ more =
        config.name ++ 61 :: (value_text percent_f config ++ 10 :: (configs_text percent_f es ++ more)) := by
      rw [configs_text]
      simp only [List.append_assoc,List.cons_append]
    rw [text] at ready
    obtain ⟨a₁,run₁,here₁⟩ := @ready_emits _ _ _ stale fuel _ _ _ _ ready (fun behind same =>
      name_emits name (same.trans (upcoming_word name.1)) (by rw [glance_cons]; decide)) (fun full => by cases full.1) enough
    obtain ⟨a₂,run₂,here₂⟩ := @ready_emits _ _ _ stale fuel _ _ _ _ (ready_at here₁) (fun behind same =>
      sign_emits (.inr (.inr rfl)) (same.trans (upcoming_char (by decide)))) (fun full => by cases full.1) enough
    obtain ⟨a₃,run₃,here₃⟩ := @ready_emits _ _ _ stale fuel _ _ _ _ (ready_at here₂) (fun behind same => emits same) other enough
    exact .more run₁ (.more run₂ (.more run₃ (delivers (ready_newline here₃) later)))

/-- The sections of a collection. -/
theorem sections_delivered (printed : ∀ d, Printed (percent_f d)) (enough : source.length < fuel) :
    ∀ {ss : ConfigCollection D}, (∀ s ∈ ss, SoundSection s) → (∀ s ∈ ss, ∀ config ∈ s.config_list, Writable percent_f config) →
    ∃ document tokens, Sections Passes document tokens ∧ Preserved ss (document.map (section_of doubles)) ∧
      ∀ {a}, Ready reader source a (sections_text percent_f ss) →
        Delivers (peek_char reader.callback stale) fuel a tokens .eof := by
  intro ss
  induction ss with
  | nil =>
    refine fun _ _ => ⟨[],[],.nil,.nil,fun {a} ready => ?_⟩
    obtain ⟨_,⟨b,same,rfl⟩,next⟩ := ready
    obtain ⟨b',run⟩ := next_eof (at_enough enough same) next
    have agree := lexer_token_get_alike (gives_alike reader source stale) fuel a b same
    rw [run] at agree
    obtain ⟨_,_,⟨⟩,_⟩ | ⟨_,a',_,ring,⟨⟩,_⟩ | ⟨_,_,_,_,⟨⟩,_⟩ := agree_cases agree
    exact @Delivers.last _ _ _ _ _ ⟨.eof,none⟩ ring
  | cons s ss ih =>
    intro sound writable
    have held := sound s List.mem_cons_self
    obtain ⟨document,tokens,isSections,preserved,delivers⟩ :=
      ih (fun other there => sound other (List.mem_cons_of_mem _ there))
        (fun other there => writable other (List.mem_cons_of_mem _ there))
    obtain ⟨entries,front,isFront,agrees,delivers'⟩ := @entries_delivered D σ doubles percent_f reader source stale fuel .eof
      printed enough s.config_list held.configs (writable s List.mem_cons_self)
    refine ⟨(s.name,entries) :: document,⟨.symbol,some [91]⟩ :: ⟨.alnum,some s.name⟩ :: ⟨.symbol,some [93]⟩ :: (front ++ tokens),
      @Sections.cons Passes ⟨.symbol,some [91]⟩ ⟨.alnum,some s.name⟩ ⟨.symbol,some [93]⟩ _ _ _ _
        (show chr '[' = first_char _ from rfl) rfl (show chr ']' = first_char _ from rfl) isFront isSections,.cons ⟨identifier_c_str held.name,agrees⟩ preserved,fun {a} ready => ?_⟩
    rw [sections_text] at ready
    obtain ⟨a₁,run₁,here₁⟩ := @ready_emits _ _ _ stale fuel _ _ _ _ ready (fun behind same =>
      sign_emits (.inl rfl) (same.trans (upcoming_char (by decide)))) (fun full => by cases full.1) enough
    obtain ⟨a₂,run₂,here₂⟩ := @ready_emits _ _ _ stale fuel _ _ _ _ (ready_at here₁) (fun behind same =>
      name_emits held.name (same.trans (upcoming_word held.name.1)) (by rw [glance_cons]; decide))
      (fun full => by cases full.1) enough
    obtain ⟨a₃,run₃,here₃⟩ := @ready_emits _ _ _ stale fuel _ _ _ _ (ready_at here₂) (fun behind same =>
      sign_emits (.inr (.inl rfl)) (same.trans (upcoming_char (by decide)))) (fun full => by cases full.1) enough
    exact .more run₁ (.more run₂ (.more run₃ (delivers' (ready_newline here₃) fun a' ready' => delivers ready')))

theorem forall₂_map {α β γ : Type} {R : α → β → Prop} {f : α → γ} {g : β → γ} (same : ∀ x y, R x y → g y = f x) {l : List α}
    {r : List β} (related : List.Forall₂ R l r) : r.map g = l.map f := by
  induction related with
  | nil => rfl
  | cons head _ ih => rw [List.map_cons,List.map_cons,same _ _ head,ih]

theorem preserved_apart {coll coll' : ConfigCollection D} (preserved : Preserved coll coll') (sound : Sound coll) : Apart coll' := by
  constructor
  · rw [forall₂_map (fun s s' held => held.1) preserved]
    exact sound.apart
  · have sections := sound.sections
    clear sound
    induction preserved with
    | nil => exact nofun
    | cons head _ ih =>
      intro s there
      rcases List.mem_cons.mp there with rfl | there
      · rw [forall₂_map (fun c c' held => held.1) head.2]
        exact (sections _ List.mem_cons_self).apart
      · exact ih (fun other inside => sections other (List.mem_cons_of_mem _ inside)) s there

theorem created_ready {file text : List Int8} (begins : upcoming false file = upcoming false text) :
    Ready file_reader file (lexer_create file) text :=
  ⟨file,⟨list_lexer file,created_shows trivial rfl,rfl⟩,begins⟩

/-- What can be written is loaded again. -/
theorem writable_trips (printed : ∀ d, Printed (percent_f d)) (stale : Nat → Nat → Int8) {time_str : List Int8}
    (line : Line time_str) {coll : ConfigCollection D} (sound : Sound coll)
    (writable : ∀ s ∈ coll, ∀ config ∈ s.config_list, Writable percent_f config) :
    RoundTrips doubles percent_f stale time_str coll := by
  obtain ⟨file,written,begins⟩ := @write_eq D percent_f time_str line coll sound
  obtain ⟨document,tokens,isSections,preserved,delivers⟩ := @sections_delivered D _ doubles percent_f file_reader file stale
    (file.length + 1) printed (Nat.lt_succ_self _) coll sound.sections writable
  have delivered := delivers (created_ready begins)
  obtain ⟨r,returns,is⟩ := @load_delivered D _ doubles file_reader stale _ _ _ _ delivered
  have distinct := apart_document.mp (preserved_apart preserved sound)
  have lexed : Lexed tokens := delivers_lexed delivered (created_placed file_reader file rfl)
  rw [(load_tokens_iff lexed).mpr ⟨by decide,document,isSections,distinct,rfl⟩] at is
  cases r with
  | error message => cases is
  | ok coll' =>
    cases is
    exact ⟨file,_,written,returns,preserved⟩

end

/-! ### What is loaded could be written -/

/-- The tokens of entries and then of sections. -/
def Follows (tokens : List LexerToken) : Prop :=
  ∃ entries front document back, Entries Passes entries front ∧ Sections Passes document back ∧ tokens = front ++ back

theorem follows_cases {tokens : List LexerToken} (follows : Follows tokens) : tokens = [] ∨
    (∃ name sign rest, tokens = name :: sign :: rest ∧ name.type = .alnum ∧ Passes '=' sign) ∨
    ∃ opening rest, tokens = opening :: rest ∧ Passes '[' opening := by
  obtain ⟨entries,front,document,back,isFront,isBack,rfl⟩ := follows
  cases isFront with
  | nil =>
    cases isBack with
    | nil => exact .inl rfl
    | cons opens _ _ _ _ => exact .inr (.inr ⟨_,_,rfl,opens⟩)
  | cons named sign _ => exact .inr (.inl ⟨_,_,_,rfl,named,sign⟩)

/-- The next token of the text does not begin with an equals sign or a quote. -/
def Resumes (text : List Int8) : Prop :=
  ∀ c more, upcoming false text = c :: more → 0 < c.toInt ∧ chr '"' ≠ c.toInt ∧ chr '=' ≠ c.toInt

section
variable {D σ : Type} {doubles : Doubles D} {percent_f : D → List Int8} {reader : Reader σ} {source : List Int8}
  {stale : Nat → Nat → Int8} {fuel : Nat} {last : LexerType}

theorem letter_starts {c : Int8} (letter : chr '_' = c.toInt ∨ isalpha c.toInt) :
    0 < c.toInt ∧ chr '"' ≠ c.toInt ∧ chr '=' ≠ c.toInt := by
  refine ⟨letter.elim (chr_positive (by decide)) isalpha_positive,?_,?_⟩
  · intro is
    rw [← is] at letter
    exact absurd letter (by decide)
  · intro is
    rw [← is] at letter
    exact absurd letter (by decide)

theorem sections_start (ss : ConfigCollection D) : Resumes (sections_text percent_f ss) := by
  intro c more next
  cases ss with
  | nil => cases next
  | cons s ss =>
    rw [sections_text,upcoming_char (by decide)] at next
    cases next
    decide

theorem entries_start {es : List (Config D)} (named : ∀ config ∈ es, Name config.name) (ss : ConfigCollection D) :
    Resumes (configs_text percent_f es ++ sections_text percent_f ss) := by
  cases es with
  | nil => exact sections_start ss
  | cons config es =>
    intro c more next
    obtain ⟨identifier,_⟩ := named config List.mem_cons_self
    rw [configs_text,List.append_assoc,upcoming_word identifier] at next
    obtain ⟨letter,_⟩ := identifier
    cases word : config.name with
    | nil =>
      rw [word] at letter
      exact absurd letter (by decide)
    | cons d w =>
      rw [word] at letter next
      cases next
      exact letter_starts letter

/-- Only the first character of a numeral may be something else than a digit or a point. -/
theorem numeral_tail {t : List Int8} (numeral : Numeral t) : ∀ c ∈ t.drop 1, isdigit c.toInt = true ∨ chr '.' = c.toInt := by
  obtain ⟨sign,whole,fraction,signed,_,digits,after,rfl⟩ := numeral
  intro c there
  have inside : c ∈ whole ++ fraction := by
    rcases signed with rfl | rfl
    · exact List.mem_of_mem_drop there
    · exact there
  rcases List.mem_append.mp inside with there | there
  · exact .inl (digits c there)
  rcases after with rfl | ⟨frac,rfl,more⟩
  · cases there
  rcases List.mem_cons.mp there with rfl | there
  · exact .inr rfl
  · exact .inl (more c there)

/-- After a number that has been cut off, there is something that is no entry. -/
theorem numeral_forced {t rest : List Int8} {a : Lexer (Buffer σ)} {v : LexerToken} {tokens : List LexerToken}
    (numeral : Numeral t) (ready : Ready reader source a (t ++ 10 :: rest)) (enough : source.length < fuel)
    (delivers : Delivers (peek_char reader.callback stale) fuel a (v :: tokens) last) (noError : last ≠ .error)
    (follows : Follows tokens) : t.length ≤ 256 := by
  by_contra long
  obtain ⟨behind,here,same⟩ := ready
  rw [upcoming_numeral numeral] at same
  obtain ⟨a₁,_,⟨⟩,later,got⟩ := delivers_emits (emits_number numeral same) here enough delivers
  have here₁ := got.shown fun full => by cases full.1
  obtain ⟨c,w,is⟩ := List.exists_cons_of_ne_nil (show t.drop 256 ≠ [] by
    intro none_
    exact long (List.drop_eq_nil_iff.mp none_))
  have char : isdigit c.toInt = true ∨ chr '.' = c.toInt := by
    refine numeral_tail numeral c (List.mem_of_mem_drop (i := 255) ?_)
    rw [List.drop_drop,is]
    exact List.mem_cons_self
  rw [is,List.cons_append] at here₁
  have black : chr '\n' ≠ c.toInt ∧ chr ' ' ≠ c.toInt ∧ chr '\t' ≠ c.toInt ∧ chr '#' ≠ c.toInt := by
    refine ⟨?_,?_,?_,?_⟩ <;> intro is <;> rw [← is] at char <;> exact absurd char (by decide)
  have noQuote : chr '"' ≠ c.toInt := by
    intro is
    rw [← is] at char
    exact absurd char (by decide)
  obtain ⟨token,tokens',rfl,first,letter⟩ := delivers_begins (ready_at here₁) (upcoming_char black)
    (char.elim isdigit_positive (chr_positive (by decide))) noQuote enough noError later
  rcases follows_cases follows with none_ | ⟨_,_,_,is,named,_⟩ | ⟨_,_,is,opens⟩
  · cases none_
  · cases is
    rcases char with digit | is
    · exact digit_no_word digit (letter named)
    · have := letter named
      rw [← is] at this
      exact absurd this (by decide)
  · cases is
    have is : chr '[' = c.toInt := opens.trans first
    rw [← is] at char
    exact absurd char (by decide)

/-- At the end of the text, a lexer delivers nothing. -/
theorem delivers_end {text : List Int8} {a : Lexer (Buffer σ)} {tokens : List LexerToken} (ready : Ready reader source a text)
    (ends : upcoming false text = []) (enough : source.length < fuel)
    (delivers : Delivers (peek_char reader.callback stale) fuel a tokens last) : tokens = [] := by
  obtain ⟨behind,here,same⟩ := ready
  cases delivers with
  | last => rfl
  | more run _ =>
    obtain ⟨b,b',left_,whole,run'⟩ := at_run here run
    have few : (left b).length < fuel := by
      rw [left,whole,List.length_drop]
      omega
    obtain ⟨_,eof⟩ := next_eof few (by rw [left_,same,ends])
    rw [eof] at run'
    cases run'

/-- A minus before a word is taken for a value, and the word for a name without one. -/
theorem word_forced {word rest : List Int8} {a : Lexer (Buffer σ)} {v : LexerToken} {tokens : List LexerToken}
    (is_word : word ∈ [lit "inf",lit "infinity",lit "nan"]) (ready : Ready reader source a (45 :: (word ++ 10 :: rest)))
    (starts : Resumes rest) (enough : source.length < fuel)
    (delivers : Delivers (peek_char reader.callback stale) fuel a (v :: tokens) last) (noError : last ≠ .error)
    (follows : Follows tokens) : False := by
  have name := word_name is_word
  simp only [List.mem_cons,List.not_mem_nil,or_false] at is_word
  have noNumber : number_end (45 :: (word ++ 10 :: rest)) = none := by
    rcases is_word with rfl | rfl | rfl <;> exact number_end_symbol (i := 1) rfl rfl nofun
  obtain ⟨behind,here,same⟩ := ready
  rw [upcoming_char (by decide)] at same
  have minus : Emits behind ⟨.symbol,some [45]⟩ (word ++ 10 :: rest) :=
    emits_symbol same (by decide) (by decide) (by decide) (by decide) noNumber
  obtain ⟨a₁,_,⟨⟩,later,got⟩ := delivers_emits minus here enough delivers
  have emits : Emits (word ++ 10 :: rest) ⟨.alnum,some word⟩ (10 :: rest) :=
    name_emits name (upcoming_word name.1) (by rw [glance_cons]; decide)
  obtain ⟨a₂,tokens',rfl,later',got'⟩ := delivers_emits emits (got.shown fun full => by cases full.1) enough later
  have ready := ready_newline (got'.shown fun full => by cases full.1)
  rcases follows_cases follows with none_ | ⟨_,sign,_,is,_,passes⟩ | ⟨_,_,is,opens⟩
  · cases none_
  · cases is
    cases next : upcoming false rest with
    | nil => cases delivers_end ready next enough later'
    | cons c more =>
      obtain ⟨positive,noQuote,other⟩ := starts c more next
      obtain ⟨token,_,is,first,_⟩ := delivers_begins ready next positive noQuote enough noError later'
      cases is
      exact other (passes.trans first)
  · cases is
    rw [Passes] at opens
    rcases is_word with rfl | rfl | rfl <;> exact absurd opens (by decide)

/-- A string that is read again does not end early. -/
theorem str_forced {str rest : List Int8} {a : Lexer (Buffer σ)} {v : LexerToken} {tokens : List LexerToken} (none_ : 0 ∉ str)
    (ready : Ready reader source a (34 :: (str ++ 34 :: 10 :: rest))) (enough : source.length < fuel + 1)
    (delivers : Delivers (peek_char reader.callback stale) (fuel + 1) a (v :: tokens) last) (same : c_str (text_of v) = str) :
    str.length ≤ 255 ∧ ∀ c ∈ str, c ≠ 34 ∧ c ≠ -1 ∧ c ≠ -2 := by
  obtain ⟨behind,here,next⟩ := ready
  rw [upcoming_char (by decide)] at next
  -- Where the literal ends.
  obtain ⟨l,ending,plain⟩ : ∃ l, Ending (str ++ 34 :: 10 :: rest) l ∧ ∀ c ∈ (str ++ 34 :: 10 :: rest).take l, c ≠ -2 := by
    cases delivers with
    | more run _ =>
      obtain ⟨b,b',left_,whole,run'⟩ := at_run here run
      refine literal_ending (by rw [left_,next]) ?_ run'
      rw [left,whole,List.length_drop]
      omega
  obtain ⟨a₁,_,⟨⟩,later,got⟩ := delivers_emits (emits_literal next ending plain) here enough delivers
  have inside : l ≤ str.length := by
    by_contra past
    have quote := (ending.2.1 str.length (by omega)).2
    exact quote (glance_append_right 0)
  have taken : (str ++ 34 :: 10 :: rest).take l = str.take l := List.take_append_of_le_length inside
  rw [taken] at plain got same
  have whole : l = str.length := by
    have is : c_str (str.take l) = str := same
    rw [c_str_self fun there => none_ (List.mem_of_mem_take there)] at is
    have := congrArg List.length is
    rw [List.length_take] at this
    omega
  have chars := body_mem ending.2.1
  rw [whole,List.take_length] at plain got
  rw [taken,whole,List.take_length] at chars
  refine ⟨?_,fun c there => ⟨(chars c there).2,(chars c there).1,plain c there⟩⟩
  by_contra long
  obtain ⟨passed,rest_⟩ := got.passed ⟨rfl,str,rfl,by
    have := ending.1
    omega⟩
  refine passed_delivers passed ?_ later
  rw [rest_,← List.drop_drop,List.drop_left]
  exact List.cons_ne_nil _ _

theorem numeral_no_word {t : List Int8} (word : List Int8) (is_word : word ∈ [lit "inf",lit "infinity",lit "nan"]) (is : t = lit "-" ++ word) :
    ¬ Numeral t := by
  intro numeral
  simp only [List.mem_cons,List.not_mem_nil,or_false] at is_word
  have tail := numeral_tail numeral
  rw [is] at tail
  rcases is_word with rfl | rfl | rfl <;> exact absurd tail (by decide +kernel)

/-- A value that is read again could be written. -/
theorem value_forced (printed : ∀ d, Printed (percent_f d)) {config : Config D} (valued : Valued config) {rest name : List Int8}
    {a : Lexer (Buffer σ)} {v : LexerToken} {tokens : List LexerToken}
    (ready : Ready reader source a (value_text percent_f config ++ 10 :: rest)) (starts : Resumes rest)
    (enough : source.length < fuel + 1)
    (delivers : Delivers (peek_char reader.callback stale) (fuel + 1) a (v :: tokens) last) (noError : last ≠ .error)
    (follows : Follows tokens) (agrees : Agrees config (entry_of doubles (name,v))) : Writable percent_f config := by
  rw [Writable]
  rw [value_text] at ready
  cases type : config.type with
  | d =>
    rw [type] at ready
    rcases printed config.d with numeral | ⟨sign,word,signed,is_word,is⟩
    · refine ⟨numeral_forced numeral ready enough delivers noError follows,fun there => ?_⟩
      simp only [List.mem_cons,List.not_mem_nil,or_false] at there
      rcases there with is | is | is
      · exact numeral_no_word (lit "inf") (by decide) (is.trans rfl) numeral
      · exact numeral_no_word (lit "infinity") (by decide) (is.trans rfl) numeral
      · exact numeral_no_word (lit "nan") (by decide) (is.trans rfl) numeral
    · rcases signed with rfl | rfl
      · simp only [List.mem_cons,List.not_mem_nil,or_false] at is_word
        rw [is,List.nil_append]
        rcases is_word with rfl | rfl | rfl <;> exact ⟨by decide,by decide⟩
      · simp only [is] at ready
        exact absurd (word_forced is_word ready starts enough delivers noError follows) id
  | i32 => trivial
  | str =>
    intro str is
    obtain ⟨str',is',none_⟩ := valued type
    rw [is] at is'
    cases is'
    rw [type,is] at ready
    have same := agrees.2.1 type
    rw [entry_of_str,is] at same
    have quoted : Ready reader source a (34 :: (str ++ 34 :: 10 :: rest)) := by simpa using ready
    exact str_forced none_ quoted enough delivers (Option.some.inj same)

/-- The entries of a section. -/
theorem entries_forced (printed : ∀ d, Printed (percent_f d)) (enough : source.length < fuel + 1) (noError : last ≠ .error)
    {ss : ConfigCollection D} {document : Document} {back : List LexerToken} (isBack : Sections Passes document back) :
    ∀ {es : List (Config D)}, (∀ config ∈ es, Name config.name ∧ Valued config) → ∀ {entries front a},
      Ready reader source a (configs_text percent_f es ++ sections_text percent_f ss) →
      Delivers (peek_char reader.callback stale) (fuel + 1) a (front ++ back) last → Entries Passes entries front →
      List.Forall₂ Agrees es (entries.map (entry_of doubles)) → (∀ config ∈ es, Writable percent_f config) ∧
        ∃ a', Ready reader source a' (sections_text percent_f ss) ∧
          Delivers (peek_char reader.callback stale) (fuel + 1) a' back last := by
  intro es
  induction es with
  | nil =>
    intro _ entries front a ready delivers isFront agrees
    cases isFront with
    | nil => exact ⟨nofun,a,ready,delivers⟩
    | cons => cases agrees
  | cons config es ih =>
    intro sound entries front a ready delivers isFront agrees
    obtain ⟨name,valued⟩ := sound config List.mem_cons_self
    have sound' := fun other there => sound other (List.mem_cons_of_mem _ there)
    cases isFront with
    | nil => cases agrees
    | @cons nameToken v sign entries front _ _ isFront =>
      rw [List.map_cons,List.forall₂_cons] at agrees
      obtain ⟨agree,agrees⟩ := agrees
      have text : configs_text percent_f (config :: es) ++ sections_text percent_f ss = config.name ++
          61 :: (value_text percent_f config ++ 10 :: (configs_text percent_f es ++ sections_text percent_f ss)) := by
        rw [configs_text]
        simp only [List.append_assoc,List.cons_append]
      rw [text] at ready
      obtain ⟨behind,here,same⟩ := ready
      obtain ⟨a₁,_,⟨⟩,later₁,got₁⟩ := delivers_emits
        (name_emits name (same.trans (upcoming_word name.1)) (by rw [glance_cons]; decide)) here enough delivers
      obtain ⟨a₂,_,⟨⟩,later₂,got₂⟩ := delivers_emits (sign_emits (.inr (.inr rfl)) (upcoming_char (by decide)))
        (got₁.shown fun full => by cases full.1) enough later₁
      have here₂ := got₂.shown fun full => by cases full.1
      have starts := @entries_start D percent_f es (fun other there => (sound' other there).1) ss
      have writable := value_forced printed valued (ready_at here₂) starts enough later₂ noError
        ⟨entries,front,document,back,isFront,isBack,rfl⟩ agree
      obtain ⟨v',_,other,emits⟩ := @value_emits D doubles percent_f config printed name valued writable
      obtain ⟨a₃,_,⟨⟩,later₃,got₃⟩ := delivers_emits (emits rfl) here₂ enough later₂
      obtain ⟨writables,rest⟩ := ih sound' (ready_newline (got₃.shown other)) later₃ isFront agrees
      refine ⟨fun other there => ?_,rest⟩
      rcases List.mem_cons.mp there with rfl | there
      · exact writable
      · exact writables other there

/-- The sections of a collection. -/
theorem sections_forced (printed : ∀ d, Printed (percent_f d)) (enough : source.length < fuel + 1) (noError : last ≠ .error) :
    ∀ {ss : ConfigCollection D}, (∀ s ∈ ss, SoundSection s) → ∀ {document tokens a},
      Ready reader source a (sections_text percent_f ss) →
      Delivers (peek_char reader.callback stale) (fuel + 1) a tokens last → Sections Passes document tokens →
      Preserved ss (document.map (section_of doubles)) → ∀ s ∈ ss, ∀ config ∈ s.config_list, Writable percent_f config := by
  intro ss
  induction ss with
  | nil => exact fun _ _ _ _ _ _ _ _ => nofun
  | cons s ss ih =>
    intro sound document tokens a ready delivers isSections preserved
    have held := sound s List.mem_cons_self
    cases isSections with
    | nil => cases preserved
    | @cons opening nameToken closing entries front document back _ _ _ isFront isBack =>
      rw [Preserved,List.map_cons,List.forall₂_cons] at preserved
      obtain ⟨⟨_,agrees⟩,preserved⟩ := preserved
      rw [sections_text] at ready
      obtain ⟨behind,here,same⟩ := ready
      obtain ⟨a₁,_,⟨⟩,later₁,got₁⟩ := delivers_emits (sign_emits (.inl rfl) (same.trans (upcoming_char (by decide))))
        here enough delivers
      obtain ⟨a₂,_,⟨⟩,later₂,got₂⟩ := delivers_emits
        (name_emits held.name (upcoming_word held.name.1) (by rw [glance_cons]; decide))
        (got₁.shown fun full => by cases full.1) enough later₁
      obtain ⟨a₃,_,⟨⟩,later₃,got₃⟩ := delivers_emits (sign_emits (.inr (.inl rfl)) (upcoming_char (by decide)))
        (got₂.shown fun full => by cases full.1) enough later₂
      have ready₃ := ready_newline (got₃.shown fun full => by cases full.1)
      obtain ⟨writable,a₄,ready₄,later₄⟩ := entries_forced printed enough noError isBack held.configs ready₃ later₃ isFront agrees
      intro other there
      rcases List.mem_cons.mp there with rfl | there
      · exact writable
      · exact ih (fun s inside => sound s (List.mem_cons_of_mem _ inside)) ready₄ later₄ isBack preserved other there

/-- What is loaded again could be written. -/
theorem trips_writable (printed : ∀ d, Printed (percent_f d)) {stale : Nat → Nat → Int8} {time_str : List Int8}
    (line : Line time_str) {coll : ConfigCollection D} (sound : Sound coll)
    (trips : RoundTrips doubles percent_f stale time_str coll) :
    ∀ s ∈ coll, ∀ config ∈ s.config_list, Writable percent_f config := by
  obtain ⟨file,coll',written,returns,preserved⟩ := trips
  obtain ⟨file',written',begins⟩ := @write_eq D percent_f time_str line coll sound
  rw [written] at written'
  cases written'
  obtain ⟨fuel,tokens,last,delivers,loads⟩ := @returns_delivers D _ doubles file_reader stale file coll' returns
  have delivers' := delivers_more (show fuel ≤ max fuel file.length + 1 by omega) delivers
  obtain ⟨noError,document,isSections,_,rfl⟩ :=
    (load_tokens_iff (delivers_lexed delivers' (created_placed file_reader file rfl))).mp loads
  exact sections_forced printed (show file.length < max fuel file.length + 1 by omega) noError sound.sections
    (created_ready begins) delivers' isSections preserved

end

/-- Whatever a program has made of a loaded collection, it is loaded from the file that it
    is written to exactly if every value could be written. -/
theorem round_trips_iff {D : Type} (doubles : Doubles D) (percent_f : D → List Int8) (printed : ∀ d, Printed (percent_f d))
    (stale : Nat → Nat → Int8) (time_str : List Int8) (line : Line time_str) (coll : ConfigCollection D)
    (made : Made doubles coll) : RoundTrips doubles percent_f stale time_str coll ↔
      ∀ s ∈ coll, ∀ config ∈ s.config_list, Writable percent_f config :=
  ⟨trips_writable printed line (made_sound made),writable_trips printed stale line (made_sound made)⟩

/-! Integers, where all values are integers. -/

def whole_doubles : Doubles Int where
  strtod text := strtol text 10
  of_int32 i := i.toInt

def percent_whole (i : Int) : List Int8 := decimal i ++ lit ".000000"

theorem whole_printed (i : Int) : Printed (percent_whole i) :=
  .inl (decimal_numeral i (.inr ⟨lit "000000",rfl,show ∀ c ∈ lit "000000", isdigit c.toInt = true from each_char (by decide)⟩))

theorem epoch_line : Line (lit "Thu Jan  1 00:00:00 1970\n") := ⟨lit "Thu Jan  1 00:00:00 1970",by decide,each_char (by decide)⟩

theorem made_empty : Made whole_doubles [] := .loaded (.file (fun _ _ => 0) none ⟨0,rfl⟩)

/-- A string and an integer in a new section. -/
theorem round_trips_two : RoundTrips whole_doubles percent_whole (fun _ _ => 0) (lit "Thu Jan  1 00:00:00 1970\n")
    (perform whole_doubles (perform whole_doubles (perform whole_doubles [] (.get_section (lit "a")))
      (.section_gets 0 (lit "b") (lit "c d"))) (.section_geti32 0 (lit "n") (-5))) := by
  refine (round_trips_iff whole_doubles percent_whole whole_printed _ _ epoch_line _ ?_).mpr ?_
  · refine .called (.called (.called made_empty ?_) ⟨?_,by decide⟩) ?_ <;> exact ⟨⟨by decide,each_char (by decide)⟩,by decide⟩
  · have is : perform whole_doubles (perform whole_doubles (perform whole_doubles [] (.get_section (lit "a")))
        (.section_gets 0 (lit "b") (lit "c d"))) (.section_geti32 0 (lit "n") (-5)) =
          [⟨lit "a",[⟨lit "b",.str,0,0,some (lit "c d")⟩,⟨lit "n",.i32,-5,-5,some (lit "-5")⟩]⟩] := by decide
    rw [is]
    intro s there config inside
    rw [List.mem_singleton.mp there,List.mem_cons,List.mem_singleton] at inside
    rcases inside with rfl | rfl
    · rintro _ ⟨⟩
      exact ⟨by decide,each_char (by decide)⟩
    · trivial

/-- A string of one quote. -/
theorem round_trips_quote : Made whole_doubles (perform whole_doubles (perform whole_doubles [] (.get_section (lit "a")))
      (.section_gets 0 (lit "b") (lit "\""))) ∧
    ¬ RoundTrips whole_doubles percent_whole (fun _ _ => 0) (lit "Thu Jan  1 00:00:00 1970\n")
      (perform whole_doubles (perform whole_doubles [] (.get_section (lit "a"))) (.section_gets 0 (lit "b") (lit "\""))) := by
  have made : Made whole_doubles (perform whole_doubles (perform whole_doubles [] (.get_section (lit "a")))
      (.section_gets 0 (lit "b") (lit "\""))) := by
    refine .called (.called made_empty ?_) ⟨?_,by decide⟩ <;> exact ⟨⟨by decide,each_char (by decide)⟩,by decide⟩
  refine ⟨made,fun trips => ?_⟩
  have writable := trips_writable whole_printed epoch_line (made_sound made) trips _ List.mem_cons_self _ List.mem_cons_self
  exact absurd rfl (((writable (lit "\"") (by decide)).2 34 (by decide)).1)

end Htools.ConfigFile
