import Htools.ConfigWrite
import Htools.Keyed
import Mathlib.Data.List.TakeWhile

/-!
The collections that programs come to. Names of a loaded collection are tokens of type
alnum, the calls put names at the end that are not there yet, and no call changes a
name: `made_sound`.
-/
namespace Htools.ConfigFile
open Htools.Lexing Htools.Simulation Htools.CString Htools.Keyed

/-- An identifier that fits into the ring buffer. -/
def Name (name : List Int8) : Prop := Identifier name ∧ name.length ≤ 256

section
variable {D : Type}

/-- A value of type str has a string. -/
def Valued (config : Config D) : Prop := config.type = .str → ∃ str, config.str = some str ∧ 0 ∉ str

structure SoundSection (s : ConfigSection D) : Prop where
  name : Name s.name
  apart : (s.config_list.map (·.name)).Nodup
  configs : ∀ config ∈ s.config_list, Name config.name ∧ Valued config

/-- What the writer relies on. -/
structure Sound (coll : ConfigCollection D) : Prop where
  apart : (coll.map (·.name)).Nodup
  sections : ∀ s ∈ coll, SoundSection s

/-! ### Strings -/

theorem c_str_self {text : List Int8} (none_ : 0 ∉ text) : c_str text = text := by
  rw [c_str,List.takeWhile_eq_self_iff]
  exact fun c there => decide_eq_true fun is => none_ (is ▸ there)

theorem c_str_zero (text : List Int8) : 0 ∉ c_str text := by
  intro there
  have other := List.mem_takeWhile_imp there
  exact absurd rfl (of_decide_eq_true other)

theorem identifier_zero {name : List Int8} (identifier : Identifier name) : 0 ∉ name :=
  fun there => absurd (identifier.2 0 there) (by decide)

/-! ### Calls -/

theorem modify_forall {α : Type} {p : α → Prop} {f : α → α} (keeps : ∀ x, p x → p (f x)) : ∀ {l : List α} {i : Nat},
    (∀ x ∈ l, p x) → ∀ x ∈ l.modify i f, p x := by
  intro l
  induction l with
  | nil =>
    intro i all x there
    rw [List.modify_nil] at there
    exact all x there
  | cons y l ih =>
    intro i all x there
    cases i with
    | zero =>
      rw [List.modify_zero_cons] at there
      rcases List.mem_cons.mp there with rfl | there
      · exact keeps y (all y List.mem_cons_self)
      · exact all x (List.mem_cons_of_mem _ there)
    | succ i =>
      rw [List.modify_succ_cons] at there
      rcases List.mem_cons.mp there with rfl | there
      · exact all x List.mem_cons_self
      · exact ih (fun z inside => all z (List.mem_cons_of_mem _ inside)) x there

theorem sound_modify {coll : ConfigCollection D} (sound : Sound coll) {f : ConfigSection D → ConfigSection D}
    (same : ∀ s, (f s).name = s.name) (keeps : ∀ s, SoundSection s → SoundSection (f s)) (i : Nat) :
    Sound (coll.modify i f) := by
  refine ⟨?_,modify_forall keeps sound.sections⟩
  rw [modify_map same]
  exact sound.apart

/-- A function that sets a value, and leaves its name. -/
structure Sets (set : Config D → Config D) : Prop where
  name : ∀ config, (set config).name = config.name
  valued : ∀ config, Valued (set config)

section
variable {doubles : Doubles D}

theorem sets_seti32 (a_i32 : Int32) : Sets fun config => config_seti32 doubles config a_i32 :=
  ⟨fun _ => rfl,fun _ => nofun⟩

theorem sets_sets (a_str : List Int8) : Sets fun config => config_sets doubles config a_str := by
  constructor <;> intro config <;> simp only [config_sets] <;> split
  · rfl
  · rfl
  · exact fun _ => ⟨_,rfl,c_str_zero a_str⟩
  · exact fun _ => ⟨_,rfl,c_str_zero a_str⟩

theorem set_config_sound {coll : ConfigCollection D} (sound : Sound coll) {set : Config D → Config D} (sets : Sets set)
    (section_ config : Nat) : Sound (set_config coll section_ config set) := by
  refine @sound_modify D coll sound (fun s => { s with config_list := s.config_list.modify config set }) (fun _ => rfl)
    (fun s held => ⟨held.name,?_,?_⟩) section_
  · rw [modify_map sets.name]
    exact held.apart
  · refine modify_forall (fun c held => ?_) held.configs
    rw [sets.name]
    exact ⟨held.1,sets.valued c⟩

theorem called_name {a_name : List Int8} (called : Called a_name) : Name (c_str a_name) :=
  ⟨called.1,Nat.le_trans called.2 (by decide)⟩

theorem config_section_get_name {set : Config D → Config D} (s : ConfigSection D) (a_name : List Int8) :
    (config_section_get doubles set s a_name).1.name = s.name := by
  rw [config_section_get]
  cases config_index s a_name <;> rfl

theorem config_section_get_sound {set : Config D → Config D} (sets : Sets set) {a_name : List Int8} (called : Called a_name)
    {s : ConfigSection D} (held : SoundSection s) : SoundSection (config_section_get doubles set s a_name).1 := by
  rw [config_section_get]
  cases found : config_index s a_name with
  | some config => exact held
  | none =>
    have new : (set (create_config doubles a_name)).name = c_str a_name := sets.name _
    have absent : ∀ config ∈ s.config_list, config.name ≠ c_str a_name :=
      fun config there => of_decide_eq_false (List.findIdx?_eq_none_iff.mp found config there)
    refine ⟨held.name,?_,fun config there => ?_⟩
    · rw [List.map_append,List.map_singleton,new,List.nodup_append]
      refine ⟨held.apart,by simp,?_⟩
      rintro other there _ last rfl
      obtain ⟨config,inside,is⟩ := List.mem_map.mp there
      exact absent config inside (is.trans (List.mem_singleton.mp last))
    · rcases List.mem_append.mp there with old | last
      · exact held.configs config old
      · rw [List.mem_singleton.mp last,new]
        exact ⟨called_name called,sets.valued _⟩

theorem get_section_sound {coll : ConfigCollection D} (sound : Sound coll) {a_name : List Int8} (called : Called a_name) :
    Sound (config_collection_get_section coll a_name).1 := by
  rw [config_collection_get_section]
  cases found : get_section coll a_name with
  | some section_ => exact sound
  | none =>
    have apart := apart_section ⟨sound.apart,fun s there => (sound.sections s there).apart⟩ found
    refine ⟨apart.1,fun s there => ?_⟩
    rcases List.mem_append.mp there with old | last
    · exact sound.sections s old
    · rw [List.mem_singleton.mp last]
      exact ⟨called_name called,List.nodup_nil,nofun⟩

/-- A call keeps a collection sound. -/
theorem perform_sound {coll : ConfigCollection D} (sound : Sound coll) {call : Call} (allowed : Allowed call) :
    Sound (perform doubles coll call) := by
  cases call with
  | get_section a_name => exact get_section_sound sound allowed
  | section_geti32 section_ a_name a_default_value =>
    exact sound_modify sound (fun s => config_section_get_name s a_name)
      (fun s held => config_section_get_sound (sets_seti32 a_default_value) allowed held) section_
  | section_gets section_ a_name a_default_value =>
    exact sound_modify sound (fun s => config_section_get_name s a_name)
      (fun s held => config_section_get_sound (sets_sets a_default_value) allowed.1 held) section_
  | seti32 section_ config a_i32 => exact set_config_sound sound (sets_seti32 a_i32) section_ config
  | sets section_ config a_str => exact set_config_sound sound (sets_sets a_str) section_ config

end

/-! ### Loaded collections -/

section
variable {doubles : Doubles D} {ι : Type} {peek : Nat → LexerM ι Int} {fuel : Nat} {tokens : List LexerToken}
  {last : LexerType}

/-- The lexer comes to the end of its source, or to an error. -/
def Finishes (peek : Nat → LexerM ι Int) (fuel : Nat) (a : Lexer ι) : Prop := ∃ tokens last, Delivers peek fuel a tokens last

theorem finishes_more {a a' : Lexer ι} {token : LexerToken} (run : lexer_token_get peek fuel a = .ok (true,token) a')
    (later : Finishes peek fuel a') : Finishes peek fuel a := by
  obtain ⟨tokens,last,delivers⟩ := later
  exact ⟨_,last,.more run delivers⟩

theorem text_ok {token : LexerToken} {str : List Int8} {a a' : Lexer ι} (run : text token a = .ok str a') : a' = a := by
  rw [text] at run
  cases is : token.str with
  | none =>
    rw [is] at run
    cases run
  | some str' =>
    rw [is] at run
    cases run
    rfl

theorem first_ok {token : LexerToken} {c : Int} {a a' : Lexer ι} (run : first token a = .ok c a') : a' = a := by
  obtain ⟨str,b,taken,last⟩ := bind_eq_ok_iff.mp run
  cases last
  exact text_ok taken

theorem section_finishes {coll coll' : ConfigCollection D} {a a' : Lexer ι}
    (run : load_section peek fuel coll a = .ok (.ok coll') a') (later : Finishes peek fuel a') : Finishes peek fuel a := by
  obtain ⟨⟨got,token⟩,b,get,run⟩ := bind_eq_ok_iff.mp run
  simp only at run
  split at run
  · cases run
  rename_i named
  rw [not_or,not_not] at named
  rw [named.1] at get
  refine finishes_more get ?_
  obtain ⟨name,_,str,run⟩ := bind_eq_ok_iff.mp run
  rw [text_ok str] at run
  split at run
  · cases run
  obtain ⟨⟨got,token⟩,b,get,run⟩ := bind_eq_ok_iff.mp run
  simp only at run
  split at run
  · cases run
  rename_i closed
  rw [not_not.mp closed] at get
  refine finishes_more get ?_
  obtain ⟨c,_,char,run⟩ := bind_eq_ok_iff.mp run
  rw [first_ok char] at run
  split at run
  · cases run
  · cases run
    exact later

theorem config_finishes {coll coll' : ConfigCollection D} {last_section : Nat} {name : List Int8} {a a' : Lexer ι}
    (run : load_config doubles peek fuel coll last_section name a = .ok (.ok coll') a') (later : Finishes peek fuel a') :
    Finishes peek fuel a := by
  obtain ⟨⟨got,token⟩,b,get,run⟩ := bind_eq_ok_iff.mp run
  simp only at run
  split at run
  · cases run
  rename_i there
  rw [not_not.mp there] at get
  refine finishes_more get ?_
  obtain ⟨c,_,char,run⟩ := bind_eq_ok_iff.mp run
  rw [first_ok char] at run
  split at run
  · cases run
  obtain ⟨⟨got,token⟩,b,get,run⟩ := bind_eq_ok_iff.mp run
  simp only at run
  split at run
  · cases run
  rename_i valued
  rw [not_not.mp valued] at get
  refine finishes_more get ?_
  obtain ⟨str,_,taken,run⟩ := bind_eq_ok_iff.mp run
  rw [text_ok taken] at run
  cases run
  exact later

/-- A configuration is loaded from all the tokens of the source. -/
theorem loop_finishes {rounds : Nat} {coll' : ConfigCollection D} {a' : Lexer ι} :
    ∀ {a : Lexer ι} {coll : ConfigCollection D} {last_section : Option Nat},
      load_loop doubles peek fuel rounds coll last_section a = .ok (.ok coll') a' → Finishes peek fuel a := by
  induction rounds with
  | zero =>
    intro a coll last_section run
    cases run
  | succ rounds ih =>
    intro a coll last_section run
    obtain ⟨⟨got,token⟩,b,get,run⟩ := bind_eq_ok_iff.mp run
    simp only at run
    split at run
    · rename_i nothing
      rw [Bool.not_eq_true] at nothing
      rw [nothing] at get
      exact ⟨[],_,.last get⟩
    rename_i there
    rw [not_not.mp there] at get
    refine finishes_more get ?_
    obtain ⟨c,_,char,run⟩ := bind_eq_ok_iff.mp run
    rw [first_ok char] at run
    split at run
    · obtain ⟨message | coll,_,opened,run⟩ := bind_eq_ok_iff.mp run
      · cases run
      · exact section_finishes opened (ih run)
    split at run
    · obtain ⟨name,_,str,run⟩ := bind_eq_ok_iff.mp run
      rw [text_ok str] at run
      split at run
      · cases run
      split at run
      · cases run
      obtain ⟨message | coll,_,valued,run⟩ := bind_eq_ok_iff.mp run
      · cases run
      · exact config_finishes valued (ih run)
    · cases run

end

section
variable {σ : Type} {doubles : Doubles D} {reader : Reader σ} {stale : Nat → Nat → Int8} {data : σ} {coll : ConfigCollection D}

/-- What is loaded is what `load_tokens` makes of the tokens. -/
theorem returns_delivers (returns : Returns (load_with doubles reader.callback stale data) (.ok coll)) :
    ∃ fuel tokens last, Delivers (peek_char reader.callback stale) fuel (lexer_create data) tokens last ∧
      load_tokens doubles last [] tokens = some coll := by
  obtain ⟨fuel,run⟩ := returns
  obtain ⟨tokens,last,delivers⟩ : Finishes (peek_char reader.callback stale) fuel (lexer_create data) := by
    rw [load_with,load] at run
    cases loop : load_loop doubles (peek_char reader.callback stale) fuel fuel [] none (lexer_create data) with
    | ok r a' =>
      rw [loop] at run
      cases run
      exact loop_finishes loop
    | error stop a' =>
      rw [loop] at run
      cases run
  obtain ⟨r,returns,is⟩ := load_delivered delivers
  rw [returns_unique returns ⟨fuel,run⟩] at is
  exact ⟨fuel,tokens,last,delivers,is.symm⟩

theorem identifier_c_str {name : List Int8} (held : Name name) : c_str name = name := c_str_self (identifier_zero held.1)

theorem entries_named {entries : List Entry} {tokens : List LexerToken} (isEntries : Entries Passes entries tokens)
    (named : ∀ token ∈ tokens, token.type = .alnum → Name (text_of token)) : ∀ e ∈ entries, Name e.1 := by
  induction isEntries with
  | nil => exact nofun
  | cons is _ _ ih =>
    intro e there
    rcases List.mem_cons.mp there with rfl | there
    · exact named _ List.mem_cons_self is
    · exact ih (fun token inside => named token (by simp [inside])) e there

theorem sections_named {document : Document} {tokens : List LexerToken} (isSections : Sections Passes document tokens)
    (named : ∀ token ∈ tokens, token.type = .alnum → Name (text_of token)) :
    ∀ s ∈ document, Name s.1 ∧ ∀ e ∈ s.2, Name e.1 := by
  induction isSections with
  | nil => exact nofun
  | cons _ is _ isEntries _ ih =>
    intro s there
    rcases List.mem_cons.mp there with rfl | there
    · exact ⟨named _ (by simp) is,entries_named isEntries fun token inside => named token (by simp [inside])⟩
    · exact ih (fun token inside => named token (by simp [inside])) s there

/-- A loaded collection is sound. -/
theorem loaded_sound (returns : Returns (load_with doubles reader.callback stale data) (.ok coll)) : Sound coll := by
  obtain ⟨fuel,tokens,last,delivers,loads⟩ := returns_delivers returns
  have delivers' := delivers_more (Nat.le_succ fuel) delivers
  have start := created_placed reader data rfl
  obtain ⟨_,document,sections,distinct,rfl⟩ := (load_tokens_iff (delivers_lexed delivers' start)).mp loads
  have named : ∀ token ∈ tokens, token.type = .alnum → Name (text_of token) := by
    refine delivers_forall (fun {fuel b b' token} run is => ?_) delivers' start
    rcases lexer_token_get_found run with ⟨⟨⟩,_⟩ | ⟨⟨⟩⟩ | ⟨type,str,⟨⟩,_⟩
    obtain rfl : type = .alnum := is
    exact alnum_identifier run
  have names := sections_named sections named
  obtain ⟨apart,inner⟩ := apart_document.mpr distinct
  refine ⟨apart,fun s there => ?_⟩
  have apart' := inner s there
  obtain ⟨s,inside,rfl⟩ := List.mem_map.mp there
  obtain ⟨name,entries⟩ := names s inside
  refine ⟨?_,apart',fun config there => ?_⟩
  · rw [section_of,identifier_c_str name]
    exact name
  · obtain ⟨e,inside,rfl⟩ := List.mem_map.mp there
    rw [entry_of_name,identifier_c_str (entries e inside)]
    exact ⟨entries e inside,fun _ => ⟨_,entry_of_str e,c_str_zero _⟩⟩

end

/-! ### Loading from memory -/

section
variable {doubles : Doubles D} {stale : Nat → Nat → Int8} {a_buf : List Int8} {p : Nat}

/-- The buffer shows the first characters of the memory, and the lexer has not come
    past one that looks like the end of the source. -/
def Before (a_buf : List Int8) (p n ofs : Nat) (i : Buffer MemoryData) (j : List Int8) : Prop :=
  Shows (fun e s => e = 0 ∧ s = (⟨a_buf,a_buf.length,0⟩ : MemoryData)) (fun _ => True) (a_buf.take 256) (256 ≤ a_buf.length)
    n ofs i j ∧ ofs + n ≤ p

theorem before_alike (there : (a_buf.take 256)[p]? = some (-1)) : Alike (fun _ => False) (Before a_buf p)
    (peek_char memory_read stale) (peek_list (256 ≤ a_buf.length)) where
  fewer before le := ⟨(shows_alike (memory_feeds a_buf) stale fun _ _ _ _ _ => trivial).fewer before.1 le,by
    have := before.2
    omega⟩
  later before := ⟨(shows_alike (memory_feeds a_buf) stale fun _ _ _ _ _ => trivial).later before.1,by
    have := before.2
    omega⟩
  next n := by
    intro a b same
    obtain ⟨shows_,le⟩ := same.inputs
    have ofs := same.ofs
    have few : p < 256 := by
      obtain ⟨inside,_⟩ := List.getElem?_eq_some_iff.mp there
      rw [List.length_take] at inside
      omega
    have small : n < 256 := by omega
    obtain ⟨c,is⟩ : ∃ c, b.input[b.ofs + n]? = some c := by
      obtain ⟨inside,_⟩ := List.getElem?_eq_some_iff.mp there
      exact ⟨_,List.getElem?_eq_getElem (by rw [shows_.whole,← ofs]; omega)⟩
    have look : peek_list (256 ≤ a_buf.length) n b = .ok c.toInt b := peek_there small is
    have agree := (shows_alike (memory_feeds a_buf) stale fun _ _ _ _ _ => trivial).next n a b
      ⟨same.error,same.line_no,same.col_no,ofs,shows_⟩
    rw [look] at agree ⊢
    obtain ⟨_,_,⟨⟩,_⟩ | ⟨_,a',_,ring,⟨⟩,shown,more⟩ | ⟨_,_,_,_,⟨⟩,_⟩ := agree_cases agree
    have ofs' : a'.ofs + n = a.ofs + n := by rw [shown.ofs,ofs]
    rw [ring]
    refine ⟨rfl,⟨shown.error,shown.line_no,shown.col_no,shown.ofs,shown.inputs,by omega⟩,fun noEof other => ?_⟩
    have shown' := more noEof other
    refine ⟨shown'.error,shown'.line_no,shown'.col_no,shown'.ofs,shown'.inputs,?_⟩
    have inside : a.ofs + n ≠ p := by
      intro last
      rw [shows_.whole,← ofs,last,there] at is
      cases is
      exact noEof rfl
    omega
  seen := by
    intro k n a b less same
    exact (shows_alike (memory_feeds a_buf) stale fun _ _ _ _ _ => trivial).seen less
      ⟨same.error,same.line_no,same.col_no,same.ofs,same.inputs.1⟩

/-- Where the memory seems to end, loading from it is loading its start. -/
theorem load_before (there : (a_buf.take 256)[p]? = some (-1)) (fuel : Nat) :
    config_collection_load_from_memory doubles stale a_buf fuel = load_start doubles a_buf fuel := by
  have next : Simulates (fun _ => False) (Same (Before a_buf p) 0) (Same (Before a_buf p) 0)
      (lexer_token_get (peek_char memory_read stale) fuel) (lexer_token_get (peek_list (256 ≤ a_buf.length)) fuel)
      fun _ => Same (Before a_buf p) 0 := by
    refine simulates_post (lexer_token_get_alike (before_alike there) fuel) fun r a b ends => ends.2 fun full => ?_
    obtain ⟨ofs,_,_,le⟩ := (ends.1 full).inputs
    obtain ⟨inside,_⟩ := List.getElem?_eq_some_iff.mp there
    rw [List.length_take] at inside
    omega
  have together : Together (Same (Before a_buf p) 0) (Same (Before a_buf p) 0) :=
    ⟨fun _ _ same => same,fun _ _ same => same.line_no,fun _ _ same => same.col_no⟩
  have start : Same (Before a_buf p) 0 (lexer_create (⟨a_buf,a_buf.length,0⟩ : MemoryData)) (list_lexer (a_buf.take 256)) :=
    ⟨rfl,rfl,rfl,rfl,shows_nothing trivial ⟨rfl,rfl⟩,Nat.zero_le _⟩
  rw [config_collection_load_from_memory,load_with,load_start]
  obtain ⟨_,_,_,⟨⟩⟩ | ⟨_,_,_,ring,last,_⟩ | ⟨_,_,_,ring,last,_⟩ :=
    agree_cases (load_alike together next (.inl rfl) _ _ start)
  · rw [ring,last]
    rfl
  · rw [ring,last]
    rfl

/-- What can be loaded from memory can be loaded from a file. -/
theorem memory_file {coll : ConfigCollection D}
    (returns : Returns (config_collection_load_from_memory doubles stale a_buf) (.ok coll)) :
    Returns (load_with doubles stdio_fread stale a_buf) (.ok coll) := by
  have start : Returns (load_start doubles a_buf) (.ok coll) := by
    by_cases few : a_buf.length ≤ 255
    · exact start_of_memory few returns
    by_cases there : (-1 : Int8) ∈ a_buf.take 256
    · obtain ⟨p,is⟩ := List.mem_iff_getElem?.mp there
      obtain ⟨fuel,run⟩ := returns
      exact ⟨fuel,(load_before is fuel).symm.trans run⟩
    · exact absurd returns (memory_never (by omega) there coll)
  exact load_with_start (reader_start_feeds file_reader a_buf) stale ⟨rfl,fun _ => rfl⟩ start

theorem Loaded.sound {coll : ConfigCollection D} (loaded : Loaded doubles coll) : Sound coll := by
  cases loaded with
  | file stale file returns =>
    cases file with
    | none =>
      obtain ⟨_,⟨⟩⟩ := returns
      exact ⟨List.nodup_nil,nofun⟩
    | some file => exact @loaded_sound D _ doubles file_reader stale file _ returns
  | memory stale a_buf returns => exact @loaded_sound D _ doubles file_reader stale a_buf _ (memory_file returns)

/-- What programs come to is sound. -/
theorem made_sound {coll : ConfigCollection D} (made : Made doubles coll) : Sound coll := by
  induction made with
  | loaded loaded => exact loaded.sound
  | called _ allowed ih => exact perform_sound ih allowed

end

end

end Htools.ConfigFile
