import Htools.Machine
import Htools.CString

/-!
The function `getopt` of `hutils/src/getopt.c`, which keeps its place in the
arguments in `optind` and `optsubind`. `reading` is what the calls are to find in the
words: it is found where all letters are declared (`getopt_reads`), but a letter that
is not leads back to the beginning of its word (`getopt_ends_iff`).
-/
namespace Htools.Getopt
open Htools.Lexing Htools.CString

/-- A string, without its terminator. -/
abbrev CStr := { text : List Int8 // (0 : Int8) ∉ text }

/-- The character at a place of a string, up to the terminator. -/
def char_at (str : CStr) (i : Int) : Except Stop Int8 :=
  if 0 ≤ i ∧ i ≤ str.val.length then .ok (str.val.getD i.toNat 0) else .error .fault

/-- The global variables. -/
structure State where
  optarg : Option (List Int8)
  optopt : Int
  optind : Nat
  optsubind : Int
  deriving DecidableEq

def start : State := ⟨none,-1,1,1⟩

/-- The text behind a letter of the option string, where it has the letter. -/
def find_letter (optopt : Int) : List Int8 → Option (List Int8)
  | [] => none
  | c :: rest => if c.toInt = optopt then some rest else find_letter optopt rest

section
variable (a_optstring : CStr) (a_argv : List CStr)

/-- What is returned for the letter at `optsubind`, and how the place moves on. -/
def getopt_letter (word : CStr) (s : State) : Except Stop (Int × State) :=
  match find_letter s.optopt a_optstring.val with
  | none => .ok (chr '?',{ s with optsubind := 1 })
  | some rest =>
    if chr ':' = (rest.headD 0).toInt then do
      let next ← char_at word (s.optsubind + 1)
      if 0 ≠ next then
        return (s.optopt,{ s with optarg := some (word.val.drop (s.optsubind + 1).toNat), optsubind := -1 })
      else
        let s := { s with optind := s.optind + 1 }
        if s.optind = a_argv.length then return (chr '?',{ s with optsubind := 1 })
        else
          match a_argv[s.optind]? with
          | none => throw .fault
          | some value => return (s.optopt,{ s with optarg := some value.val, optsubind := -1 })
    else do
      let s := { s with optsubind := s.optsubind + 1 }
      let next ← char_at word s.optsubind
      return (s.optopt,{ s with optsubind := if 0 = next then -1 else s.optsubind })

/-- The loop over the words that are no options. -/
def getopt_loop : (fuel : Nat) → State → Except Stop (Int × State)
  | 0,_ => .error .fuel
  | fuel + 1,s =>
    let s := if -1 = s.optsubind then { s with optind := s.optind + 1, optsubind := 1 } else s
    if ¬s.optind ≤ a_argv.length then .error .abort
    else if s.optind = a_argv.length then .ok (-1,{ s with optsubind := 1 })
    else
      match a_argv[s.optind]? with
      | none => .error .fault
      | some word =>
        if 0 = strcmp word.val (lit "--") then .ok (-1,{ s with optsubind := 1 })
        else if chr '-' ≠ (word.val.headD 0).toInt then getopt_loop fuel { s with optind := s.optind + 1, optsubind := 1 }
        else do
          let letter ← char_at word s.optsubind
          if 0 = letter then getopt_loop fuel { s with optind := s.optind + 1, optsubind := 1 }
          else getopt_letter a_optstring a_argv word { s with optopt := letter.toInt }

/-- `getopt` for all words of `a_argv`. -/
def getopt (s : State) : Except Stop (Int × State) :=
  getopt_loop a_optstring a_argv (a_argv.length + 1) { s with optarg := none, optopt := -1 }

/-- The results and values of the calls up to the first one that returns -1. -/
inductive Gives : State → List (Int × Option (List Int8)) → Prop
  | stop {s t : State} (call : getopt a_optstring a_argv s = .ok (-1,t)) : Gives s []
  | more {s t : State} {result : Int} {results : List (Int × Option (List Int8))}
      (call : getopt a_optstring a_argv s = .ok (result,t)) (goes_on : result ≠ -1) (rest : Gives t results) :
      Gives s ((result,t.optarg) :: results)

end

/-! ### What is to be read -/

/-- What is found in the words: a letter, with its value where it has one, or a letter that has been
    declared with a value, where no word is left for it, or a letter that is not declared. -/
inductive Event where
  | option (letter : Int8) (value : Option (List Int8))
  | missing (letter : Int8)
  | unknown (letter : Int8)
  deriving DecidableEq

/-- A letter has a value where a colon comes after it, where it is declared first. -/
def marked (optstring : List Int8) (letter : Int8) : Bool := (optstring.dropWhile fun c => c ≠ letter)[1]? = some (Int8.ofInt (chr ':'))

section
variable (optstring : List Int8)

/-- The letters of a word. `behind` is what the words behind it have, and `next` is the next word with what comes
    after that one. -/
def letters_reading (behind : List Event) (next : Option (List Int8 × List Event)) : List Int8 → List Event
  | [] => behind
  | letter :: letters =>
    if letter ∉ optstring then [.unknown letter]
    else if marked optstring letter then
      if letters ≠ [] then .option letter (some letters) :: behind
      else
        match next with
        | none => [.missing letter]
        | some (value,events) => .option letter (some value) :: events
    else .option letter none :: letters_reading behind next letters

/-- The words in their order. It ends at `--`, and at a letter that is not declared. -/
def reading : List CStr → List Event
  | [] => []
  | word :: words =>
    if word.val = lit "--" then []
    else if word.val.head? = some (Int8.ofInt (chr '-')) then
      letters_reading optstring (reading words)
        (match words with
          | [] => none
          | value :: words => some (value.val,reading words))
        word.val.tail
    else reading words

end

/-- What a call returns for an event. -/
def Event.result : Event → Int × Option (List Int8)
  | .option letter value => (letter.toInt,value)
  | .missing _ => (chr '?',none)
  | .unknown _ => (chr '?',none)

/-- The character that cannot be told from the end. -/
def Event.ends : Event → Bool
  | .option letter _ => letter = -1
  | .missing _ => false
  | .unknown _ => false

example : reading (lit "a:b") [⟨lit "x",by decide⟩,⟨lit "-ba",by decide⟩,⟨lit "--",by decide⟩,⟨lit "-",by decide⟩,
    ⟨lit "-bav",by decide⟩,⟨lit "--",by decide⟩,⟨lit "-b",by decide⟩] =
    [.option 98 none,.option 97 (some (lit "--")),.option 98 none,.option 97 (some (lit "v"))] := by decide

/-! ### One call -/

/-- The next word as a value, with what comes after it. -/
def next_word (optstring : List Int8) : List CStr → Option (List Int8 × List Event)
  | [] => none
  | value :: words => some (value.val,reading optstring words)

/-- What is left to read behind a place in a word. -/
def events (optstring : List Int8) (letters : List Int8) (words : List CStr) : List Event :=
  letters_reading optstring (reading optstring words) (next_word optstring words) letters

/-- The letter is declared, and has no value. -/
def Flag (optstring : List Int8) (letter : Int8) : Prop := letter ∈ optstring ∧ marked optstring letter = false

/-- The place of a state: the letters of the word that have been read, those that are left, and the words behind. -/
inductive At (optstring : List Int8) (a_argv : List CStr) (s : State) : List Int8 → List Int8 → List CStr → Prop
  | start {words : List CStr} (here : a_argv.drop s.optind = words) (within : s.optind ≤ a_argv.length) (sub : s.optsubind = 1) :
      At optstring a_argv s [] [] words
  | behind {word : CStr} {words : List CStr} (here : a_argv.drop s.optind = word :: words) (sub : s.optsubind = -1) :
      At optstring a_argv s [] [] words
  | inside {word : CStr} {words : List CStr} {pre letters : List Int8} {letter : Int8}
      (here : a_argv.drop s.optind = word :: words) (text : word.val = 45 :: (pre ++ letter :: letters)) (read : pre ≠ [])
      (sub : s.optsubind = pre.length + 1) (flags : ∀ c ∈ pre,Flag optstring c) :
      At optstring a_argv s pre (letter :: letters) words

/-- How a call can end, by the first of the events that are left. -/
inductive Answer (optstring : List Int8) (a_argv : List CStr) (pre : List Int8) (t : State) : List Event → Int → Prop
  | stop : Answer optstring a_argv pre t [] (-1)
  | option {letter : Int8} {value : Option (List Int8)} {pre' letters : List Int8} {words : List CStr}
      (place : At optstring a_argv t pre' letters words) (read : pre' = [] ∨ pre' = pre ++ [letter]) (given : t.optarg = value) :
      Answer optstring a_argv pre t (.option letter value :: events optstring letters words) letter.toInt
  | missing {letter : Int8} (place : At optstring a_argv t [] [] []) (given : t.optarg = none) :
      Answer optstring a_argv pre t [.missing letter] (chr '?')
  | unknown {letter : Int8} {words : List CStr} (place : At optstring a_argv t [] [] words) (given : t.optarg = none)
      (again : reading optstring words = pre.map (fun c => .option c none) ++ [.unknown letter]) :
      Answer optstring a_argv pre t [.unknown letter] (chr '?')

section
variable {a_optstring : CStr} {a_argv : List CStr}

theorem reading_cons (optstring : List Int8) (word : CStr) (words : List CStr) :
    reading optstring (word :: words) =
      if word.val = lit "--" then []
      else if word.val.head? = some (Int8.ofInt (chr '-')) then events optstring word.val.tail words
      else reading optstring words := by
  cases words <;> rfl

theorem find_letter_declared {letter : Int8} {optstring : List Int8} (declared : letter ∈ optstring) :
    find_letter letter.toInt optstring = some (optstring.dropWhile fun c => c ≠ letter).tail := by
  induction optstring with
  | nil => cases declared
  | cons c optstring ih =>
    rw [find_letter]
    by_cases same : c = letter
    · rw [if_pos (congrArg Int8.toInt same),List.dropWhile_cons_of_neg (by simp [same]),List.tail_cons]
    · rw [if_neg fun equal => same (Int8.toInt_inj.mp equal),List.dropWhile_cons_of_pos (by simpa using same)]
      exact ih ((List.mem_cons.mp declared).resolve_left (Ne.symm same))

theorem find_letter_unknown {letter : Int8} {optstring : List Int8} (unknown : letter ∉ optstring) :
    find_letter letter.toInt optstring = none := by
  induction optstring with
  | nil => rfl
  | cons c optstring ih =>
    rw [List.mem_cons,not_or] at unknown
    rw [find_letter,if_neg fun equal => unknown.1 (Int8.toInt_inj.mp equal).symm,ih unknown.2]

theorem marked_iff (optstring : List Int8) (letter : Int8) :
    marked optstring letter = true ↔ chr ':' = ((optstring.dropWhile fun c => c ≠ letter).tail.headD 0).toInt := by
  unfold marked
  rw [decide_eq_true_iff]
  generalize optstring.dropWhile _ = rest
  cases rest with
  | nil => decide
  | cons c rest =>
    rw [List.getElem?_cons_succ,List.tail_cons]
    cases rest with
    | nil => decide
    | cons d rest =>
      rw [List.getElem?_cons_zero,Option.some.injEq,List.headD_cons,eq_comm,← Int8.toInt_inj]
      rfl

theorem events_unknown {optstring letters : List Int8} {letter : Int8} (words : List CStr) (unknown : letter ∉ optstring) :
    events optstring (letter :: letters) words = [.unknown letter] := if_pos unknown

theorem events_flag {optstring letters : List Int8} {letter : Int8} (words : List CStr) (flag : Flag optstring letter) :
    events optstring (letter :: letters) words = .option letter none :: events optstring letters words := by
  obtain ⟨declared,plain⟩ := flag
  exact (if_neg (not_not.mpr declared)).trans (if_neg (by rw [plain]; decide))

theorem events_value {optstring letters : List Int8} {letter : Int8} (words : List CStr) (declared : letter ∈ optstring)
    (has_value : marked optstring letter = true) (inline_ : letters ≠ []) :
    events optstring (letter :: letters) words = .option letter (some letters) :: reading optstring words :=
  (if_neg (not_not.mpr declared)).trans ((if_pos has_value).trans (if_pos inline_))

theorem events_next {optstring : List Int8} {letter : Int8} (words : List CStr) (declared : letter ∈ optstring)
    (has_value : marked optstring letter = true) :
    events optstring [letter] words =
      (next_word optstring words).elim [.missing letter] fun next => .option letter (some next.1) :: next.2 := by
  cases words with
  | nil => exact (if_neg (not_not.mpr declared)).trans ((if_pos has_value).trans (if_neg (not_not.mpr rfl)))
  | cons value words => exact (if_neg (not_not.mpr declared)).trans ((if_pos has_value).trans (if_neg (not_not.mpr rfl)))

theorem events_flags {optstring pre letters : List Int8} {words : List CStr} (flags : ∀ c ∈ pre,Flag optstring c) :
    events optstring (pre ++ letters) words = pre.map (fun c => .option c none) ++ events optstring letters words := by
  induction pre with
  | nil => rfl
  | cons c pre ih =>
    rw [List.cons_append,events_flag words (flags c List.mem_cons_self),ih fun d there => flags d (List.mem_cons_of_mem c there),
      List.map_cons,List.cons_append]

theorem char_at_pre {word : CStr} {front back : List Int8} (text : word.val = front ++ back) :
    char_at word front.length = .ok (back.headD 0) := by
  have within : (0 : Int) ≤ front.length ∧ (front.length : Int) ≤ word.val.length := by
    rw [text,List.length_append]
    omega
  rw [char_at,if_pos within,Int.toNat_natCast,text,List.getD_append_right _ _ _ _ (Nat.le_refl _),Nat.sub_self]
  cases back <;> rfl

theorem text_char {str : CStr} {c : Int8} (there : c ∈ str.val) : c ≠ 0 := by
  rintro rfl
  exact str.property there

theorem drop_within {α : Type} {l rest : List α} {a : α} {n : Nat} (here : l.drop n = a :: rest) : n < l.length := by
  by_contra past
  rw [List.drop_eq_nil_of_le (Nat.le_of_not_lt past)] at here
  cases here

theorem drop_found {α : Type} {l rest : List α} {a : α} {n : Nat} (here : l.drop n = a :: rest) : l[n]? = some a := by
  rw [← List.head?_drop,here]
  rfl

theorem drop_next {α : Type} {l rest : List α} {a : α} {n : Nat} (here : l.drop n = a :: rest) : l.drop (n + 1) = rest := by
  rw [← List.tail_drop,here,List.tail_cons]

theorem answer_behind {pre : List Int8} {letter : Int8} {value : Option (List Int8)} {word : CStr} {words : List CStr} {t : State}
    (here : a_argv.drop t.optind = word :: words) (sub : t.optsubind = -1) (given : t.optarg = value) :
    Answer a_optstring.val a_argv pre t (.option letter value :: reading a_optstring.val words) letter.toInt :=
  .option (.behind here sub) (.inl rfl) given

/-- What is left of a word behind a letter. -/
theorem behind_letter {word : CStr} {pre letters : List Int8} {letter : Int8} {place : Int}
    (text : word.val = 45 :: (pre ++ letter :: letters)) (sub : place = pre.length + 1) :
    char_at word (place + 1) = .ok (letters.headD 0) ∧ word.val.drop (place + 1).toNat = letters := by
  have split : word.val = (45 :: (pre ++ [letter])) ++ letters := by
    rw [text]
    simp
  have behind : place + 1 = (45 :: (pre ++ [letter])).length := by
    rw [sub,List.length_cons,List.length_append,List.length_singleton]
    omega
  rw [behind,char_at_pre split,Int.toNat_natCast,split,List.drop_left]
  exact ⟨rfl,rfl⟩

/-- A letter with a value is answered as it is read. -/
theorem value_answers {word : CStr} {words : List CStr} {pre letters : List Int8} {letter : Int8} {s : State}
    (here : a_argv.drop s.optind = word :: words) (text : word.val = 45 :: (pre ++ letter :: letters))
    (sub : s.optsubind = pre.length + 1) (current : s.optopt = letter.toInt) (none_yet : s.optarg = none)
    (declared : letter ∈ a_optstring.val) (has_value : marked a_optstring.val letter = true) :
    ∃ r t,getopt_letter a_optstring a_argv word s = .ok (r,t) ∧
      Answer a_optstring.val a_argv pre t (events a_optstring.val (letter :: letters) words) r := by
  obtain ⟨next_char,rest⟩ := behind_letter text sub
  have within := drop_within here
  unfold getopt_letter
  rw [current,find_letter_declared declared]
  dsimp only
  rw [if_pos ((marked_iff _ _).mp has_value),next_char]
  cases letters with
  | cons next letters =>
    have next_text : next ≠ 0 := @text_char word _ (by rw [text]; simp)
    rw [events_value words declared has_value (List.cons_ne_nil next letters)]
    exact ⟨_,_,if_pos next_text.symm,answer_behind here rfl (congrArg some rest)⟩
  | nil =>
    rw [events_next words declared has_value,ok_bind,List.headD_nil,if_neg (not_not.mpr rfl)]
    have behind := drop_next here
    cases words with
    | nil =>
      have last : s.optind + 1 = a_argv.length := by
        have none_left := List.drop_eq_nil_iff.mp behind
        omega
      rw [if_pos last]
      exact ⟨_,_,rfl,.missing (.start behind (Nat.le_of_eq last) rfl) none_yet⟩
    | cons value words =>
      rw [if_neg (Nat.ne_of_lt (drop_within behind)),drop_found behind]
      exact ⟨_,_,rfl,answer_behind behind rfl rfl⟩

/-- A letter without a value is answered as it is read. -/
theorem flag_answers {word : CStr} {words : List CStr} {pre letters : List Int8} {letter : Int8} {s : State}
    (here : a_argv.drop s.optind = word :: words) (text : word.val = 45 :: (pre ++ letter :: letters))
    (flags : ∀ c ∈ pre,Flag a_optstring.val c) (sub : s.optsubind = pre.length + 1) (current : s.optopt = letter.toInt)
    (none_yet : s.optarg = none) (flag : Flag a_optstring.val letter) :
    ∃ r t,getopt_letter a_optstring a_argv word s = .ok (r,t) ∧
      Answer a_optstring.val a_argv pre t (events a_optstring.val (letter :: letters) words) r := by
  have no_mark : ¬marked a_optstring.val letter = true := Bool.eq_false_iff.mp flag.2
  unfold getopt_letter
  rw [current,find_letter_declared flag.1]
  dsimp only
  rw [if_neg (fun is => no_mark ((marked_iff _ _).mpr is)),(behind_letter text sub).1,ok_bind,events_flag words flag]
  cases letters with
  | nil => exact ⟨_,_,rfl,answer_behind here rfl none_yet⟩
  | cons next letters =>
    have next_text : next ≠ 0 := @text_char word _ (by rw [text]; simp)
    rw [List.headD_cons,if_neg next_text.symm]
    refine ⟨_,_,rfl,.option (.inside here ?_ (List.concat_ne_nil letter pre) ?_ ?_) (.inr rfl) none_yet⟩
    · rw [text]
      simp
    · rw [List.length_append,List.length_singleton]
      exact congrArg (· + 1) sub
    · intro c there
      rcases List.mem_append.mp there with old | new
      · exact flags c old
      · rw [List.mem_singleton.mp new]
        exact flag

/-- A letter is answered as it is read. -/
theorem letter_answers {word : CStr} {words : List CStr} {pre letters : List Int8} {letter : Int8} {s : State}
    (here : a_argv.drop s.optind = word :: words) (text : word.val = 45 :: (pre ++ letter :: letters))
    (flags : ∀ c ∈ pre,Flag a_optstring.val c) (dash : word.val ≠ lit "--") (sub : s.optsubind = pre.length + 1)
    (current : s.optopt = letter.toInt) (none_yet : s.optarg = none) :
    ∃ r t,getopt_letter a_optstring a_argv word s = .ok (r,t) ∧
      Answer a_optstring.val a_argv pre t (events a_optstring.val (letter :: letters) words) r := by
  by_cases declared : letter ∈ a_optstring.val
  · by_cases has_value : marked a_optstring.val letter = true
    · exact value_answers here text sub current none_yet declared has_value
    · exact flag_answers here text flags sub current none_yet ⟨declared,Bool.eq_false_iff.mpr has_value⟩
  · unfold getopt_letter
    rw [current,find_letter_unknown declared,events_unknown words declared]
    refine ⟨_,_,rfl,.unknown (.start here (Nat.le_of_lt (drop_within here)) rfl) none_yet ?_⟩
    rw [reading_cons,if_neg dash,if_pos (by rw [text]; rfl),text,List.tail_cons,events_flags flags,events_unknown words declared]

/-- A turn of the loop at a word that is not `--`. -/
theorem loop_word {word : CStr} {words : List CStr} {s : State} (fuel : Nat) (here : a_argv.drop s.optind = word :: words)
    (dash : word.val ≠ lit "--") (no_mark : ¬-1 = s.optsubind) :
    getopt_loop a_optstring a_argv (fuel + 1) s =
      if chr '-' ≠ (word.val.headD 0).toInt then
        getopt_loop a_optstring a_argv fuel { s with optind := s.optind + 1, optsubind := 1 }
      else
        (char_at word s.optsubind >>= fun letter =>
          if 0 = letter then getopt_loop a_optstring a_argv fuel { s with optind := s.optind + 1, optsubind := 1 }
          else getopt_letter a_optstring a_argv word { s with optopt := letter.toInt }) := by
  have within := drop_within here
  have found := drop_found here
  have other : ¬0 = strcmp word.val (lit "--") := fun same => dash ((strcmp_eq_zero _ _).mp same.symm)
  rw [getopt_loop,if_neg no_mark,if_neg (not_not.mpr (Nat.le_of_lt within)),if_neg (Nat.ne_of_lt within),found]
  exact if_neg other

/-- A turn of the loop that comes to a letter. -/
theorem loop_letter {word : CStr} {words : List CStr} {pre letters : List Int8} {letter : Int8} {s : State} (fuel : Nat)
    (here : a_argv.drop s.optind = word :: words) (text : word.val = 45 :: (pre ++ letter :: letters))
    (dash : word.val ≠ lit "--") (sub : s.optsubind = pre.length + 1) :
    getopt_loop a_optstring a_argv (fuel + 1) s = getopt_letter a_optstring a_argv word { s with optopt := letter.toInt } := by
  have char : char_at word s.optsubind = .ok letter := by
    have split : word.val = (45 :: pre) ++ letter :: letters := text
    have place : s.optsubind = (45 :: pre).length := by
      rw [sub,List.length_cons]
      rfl
    rw [place,char_at_pre split,List.headD_cons]
  have letter_text : letter ≠ 0 := @text_char word _ (by rw [text]; simp)
  have first : ¬chr '-' ≠ (word.val.headD 0).toInt := by
    rw [text,List.headD_cons]
    decide
  rw [loop_word fuel here dash (by omega),if_neg first,char,ok_bind,if_neg letter_text.symm]

/-- A turn of the loop that skips a word. -/
theorem loop_skip {word : CStr} {words : List CStr} {s : State} (fuel : Nat) (here : a_argv.drop s.optind = word :: words)
    (dash : word.val ≠ lit "--") (sub : s.optsubind = 1) (plain : word.val.head? ≠ some (Int8.ofInt (chr '-')) ∨ word.val.tail = []) :
    getopt_loop a_optstring a_argv (fuel + 1) s = getopt_loop a_optstring a_argv fuel { s with optind := s.optind + 1, optsubind := 1 } := by
  rw [loop_word fuel here dash (by omega)]
  by_cases first : chr '-' = (word.val.headD 0).toInt
  · obtain ⟨letters,text⟩ : ∃ letters,word.val = 45 :: letters := by
      cases text : word.val with
      | nil =>
        rw [text] at first
        exact absurd first (by decide)
      | cons c letters =>
        rw [text,List.headD_cons] at first
        exact ⟨letters,congrArg (· :: letters) (Int8.toInt_inj.mp first.symm)⟩
    rw [text] at plain
    have none_left : letters = [] := plain.resolve_left fun other => other rfl
    subst none_left
    have stop : char_at word 1 = .ok 0 := by
      have split : word.val = [45] ++ [] := text
      exact char_at_pre split
    rw [if_neg (not_not.mpr first),sub,stop,ok_bind,if_pos rfl]
  · exact if_pos first

/-- A mark moves the place to the next word. -/
theorem loop_mark {s : State} (fuel : Nat) (mark : -1 = s.optsubind) :
    getopt_loop a_optstring a_argv (fuel + 1) s =
      getopt_loop a_optstring a_argv (fuel + 1) { s with optind := s.optind + 1, optsubind := 1 } := by
  rw [getopt_loop,if_pos mark]
  rfl

/-- From the beginning of a word. -/
theorem loop_answers {words : List CStr} {s : State} {fuel : Nat} (here : a_argv.drop s.optind = words)
    (within : s.optind ≤ a_argv.length) (sub : s.optsubind = 1) (none_yet : s.optarg = none) (enough : words.length < fuel) :
    ∃ r t,getopt_loop a_optstring a_argv fuel s = .ok (r,t) ∧ Answer a_optstring.val a_argv [] t (reading a_optstring.val words) r := by
  induction words generalizing s fuel with
  | nil =>
    have last : s.optind = a_argv.length := by
      have none_left := List.drop_eq_nil_iff.mp here
      omega
    obtain ⟨fuel,rfl⟩ := Nat.exists_eq_add_of_lt enough
    refine ⟨-1,{ s with optsubind := 1 },?_,.stop⟩
    rw [getopt_loop,if_neg (show ¬-1 = s.optsubind by omega),if_neg (not_not.mpr within),if_pos last]
  | cons word words ih =>
    obtain ⟨fuel,rfl⟩ := Nat.exists_eq_add_of_lt enough
    rw [List.length_cons] at *
    have further : s.optind + 1 ≤ a_argv.length := drop_within here
    rw [reading_cons]
    by_cases dash : word.val = lit "--"
    · have found := drop_found here
      have same : 0 = strcmp word.val (lit "--") := ((strcmp_eq_zero _ _).mpr dash).symm
      refine ⟨-1,{ s with optsubind := 1 },?_,?_⟩
      · rw [getopt_loop,if_neg (show ¬-1 = s.optsubind by omega),if_neg (not_not.mpr within),if_neg (show ¬s.optind = a_argv.length by omega),
          found]
        exact if_pos same
      · rw [if_pos dash]
        exact .stop
    rw [if_neg dash]
    have skipped := ih (s := { s with optind := s.optind + 1, optsubind := 1 }) (drop_next here) further rfl none_yet
      (show words.length < words.length + 1 + fuel by omega)
    by_cases option : word.val.head? = some (Int8.ofInt (chr '-'))
    · rw [if_pos option]
      cases left : word.val.tail with
      | nil =>
        rw [loop_skip _ here dash sub (.inr left)]
        exact skipped
      | cons letter letters =>
        have text : word.val = 45 :: ([] ++ letter :: letters) := by
          rw [← List.cons_head?_tail option,left]
          rfl
        rw [loop_letter _ here text dash sub]
        exact letter_answers here text (fun _ absurd_there => absurd absurd_there List.not_mem_nil) dash sub rfl none_yet
    · rw [if_neg option,loop_skip _ here dash sub (.inl option)]
      exact skipped

theorem getopt_answers {s : State} {pre letters : List Int8} {words : List CStr}
    (place : At a_optstring.val a_argv s pre letters words) :
    ∃ r t,getopt a_optstring a_argv s = .ok (r,t) ∧ Answer a_optstring.val a_argv pre t (events a_optstring.val letters words) r := by
  unfold getopt
  cases place with
  | start here within sub =>
    apply loop_answers (s := { s with optarg := none, optopt := -1 }) here within sub rfl
    rw [← here,List.length_drop]
    omega
  | behind here sub =>
    have further : s.optind + 1 ≤ a_argv.length := drop_within here
    rw [@loop_mark a_optstring a_argv { s with optarg := none, optopt := -1 } _ sub.symm]
    apply loop_answers (s := { s with optarg := none, optopt := -1, optind := s.optind + 1, optsubind := 1 }) (drop_next here) further rfl rfl
    rw [← drop_next here,List.length_drop]
    omega
  | @inside word _ _ _ _ here text read sub flags =>
    have dash : word.val ≠ lit "--" := by
      intro is
      rw [is] at text
      have long := congrArg List.length text
      have some_read := List.length_pos_iff.mpr read
      rw [List.length_cons,List.length_append,List.length_cons] at long
      change 2 = _ at long
      omega
    rw [@loop_letter a_optstring a_argv word words pre _ _ { s with optarg := none, optopt := -1 } _ here text dash sub]
    exact letter_answers here text flags dash sub rfl rfl

/-! ### The run -/

/-- The events that are returned: those in front of the character that ends the calls. -/
def returned (read : List Event) : List (Int × Option (List Int8)) := (read.takeWhile fun event => !event.ends).map Event.result

/-- Each letter that comes before the end of the calls is declared. -/
def Known (read : List Event) : Prop := ∀ letter,.unknown letter ∈ read → ∃ event ∈ read,event.ends = true

theorem char_question : chr '?' ≠ -1 := by decide

/-- The place behind the missing value is the end. -/
theorem gives_end {s : State} {pre : List Int8} (place : At a_optstring.val a_argv s pre [] []) : Gives a_optstring a_argv s [] := by
  obtain ⟨r,t,call,answer⟩ := getopt_answers place
  cases answer
  exact .stop call

theorem Known.tail {event : Event} {read : List Event} (known : Known (event :: read)) (goes_on : event.ends = false) : Known read := by
  intro letter there
  obtain ⟨last,last_there,ends⟩ := known letter (List.mem_cons_of_mem event there)
  rcases List.mem_cons.mp last_there with rfl | later
  · rw [goes_on] at ends
    cases ends
  · exact ⟨last,later,ends⟩

theorem option_ends {letter : Int8} {value : Option (List Int8)} :
    (Event.option letter value).ends = true ↔ letter.toInt = -1 := by
  rw [Event.ends,decide_eq_true_iff,← Int8.toInt_inj]
  rfl

/-- The calls return what is read, up to the character that ends them. -/
theorem gives_reading {s : State} {pre letters : List Int8} {words : List CStr} {read : List Event}
    (place : At a_optstring.val a_argv s pre letters words) (events_are : events a_optstring.val letters words = read)
    (known : Known read) : Gives a_optstring a_argv s (returned read) := by
  induction read generalizing s pre letters words with
  | nil =>
    obtain ⟨r,t,call,answer⟩ := getopt_answers place
    rw [events_are] at answer
    cases answer
    exact .stop call
  | cons event read ih =>
    obtain ⟨r,t,call,answer⟩ := getopt_answers place
    rw [events_are] at answer
    cases answer with
    | @option letter value _ _ _ place' _ given =>
      by_cases ends : (Event.option letter value).ends = true
      · rw [option_ends.mp ends] at call
        rw [returned,List.takeWhile_cons_of_neg (by simp [ends]),List.map_nil]
        exact .stop call
      · have more := Gives.more call (fun is => ends (option_ends.mpr is)) (ih place' rfl (known.tail (Bool.eq_false_iff.mpr ends)))
        rw [returned,List.takeWhile_cons_of_pos (by simpa using ends),List.map_cons,Event.result]
        rwa [given] at more
    | missing place' given =>
      have more := Gives.more call char_question (gives_end place')
      rwa [given] at more
    | unknown =>
      obtain ⟨last,there,ends⟩ := known _ List.mem_cons_self
      rw [List.mem_singleton.mp there] at ends
      cases ends

/-- Where a letter that is not declared comes first, the calls do not end. -/
theorem unknown_endless {s : State} {results : List (Int × Option (List Int8))} (gives : Gives a_optstring a_argv s results)
    {pre letters : List Int8} {words : List CStr} (place : At a_optstring.val a_argv s pre letters words)
    {front : List Event} {letter : Int8} (events_are : events a_optstring.val letters words = front ++ [.unknown letter])
    (goes_on : ∀ event ∈ front,event.ends = false) (before : ∀ c ∈ pre,c ≠ -1) : False := by
  induction gives generalizing pre letters words front letter with
  | @stop s t call =>
    obtain ⟨r,t',call',answer⟩ := getopt_answers place
    rw [call] at call'
    obtain ⟨r_is,_⟩ := Prod.mk.inj (Except.ok.inj call')
    rw [events_are] at answer
    cases front with
    | nil =>
      cases answer
      exact char_question r_is.symm
    | cons event front =>
      rw [List.cons_append] at answer
      generalize tail_is : front ++ [Event.unknown letter] = read at answer
      cases answer with
      | @option c value =>
        have ends : (Event.option c value).ends = true := option_ends.mpr r_is.symm
        rw [goes_on _ List.mem_cons_self] at ends
        cases ends
      | missing => exact absurd tail_is (List.append_ne_nil_of_right_ne_nil front (List.cons_ne_nil _ _))
      | unknown => exact absurd tail_is (List.append_ne_nil_of_right_ne_nil front (List.cons_ne_nil _ _))
  | @more s t result results call result_not rest ih =>
    obtain ⟨r,t',call',answer⟩ := getopt_answers place
    rw [call] at call'
    obtain ⟨rfl,rfl⟩ := Prod.mk.inj (Except.ok.inj call')
    rw [events_are] at answer
    cases front with
    | nil =>
      cases answer with
      | unknown place' _ again =>
        refine ih place' again ?_ (fun _ absurd_there => absurd absurd_there List.not_mem_nil)
        intro event there
        obtain ⟨c,c_there,rfl⟩ := List.mem_map.mp there
        exact decide_eq_false (before c c_there)
    | cons event front =>
      rw [List.cons_append] at answer
      generalize tail_is : front ++ [Event.unknown letter] = read at answer
      cases answer with
      | option place' read' =>
        refine ih place' tail_is.symm (fun e there => goes_on e (List.mem_cons_of_mem _ there)) ?_
        rcases read' with rfl | rfl
        · exact fun _ absurd_there => absurd absurd_there List.not_mem_nil
        · intro c there
          rcases List.mem_append.mp there with old | new
          · exact before c old
          · rw [List.mem_singleton.mp new]
            exact of_decide_eq_false (goes_on _ List.mem_cons_self)
      | missing => exact absurd tail_is (List.append_ne_nil_of_right_ne_nil front (List.cons_ne_nil _ _))
      | unknown => exact absurd tail_is (List.append_ne_nil_of_right_ne_nil front (List.cons_ne_nil _ _))

/-- A letter that is not declared is the last event. -/
def LastUnknown (read : List Event) : Prop := ∀ letter,.unknown letter ∈ read → ∃ front,read = front ++ [.unknown letter]

theorem LastUnknown.cons {event : Event} {read : List Event} (last : LastUnknown read) (declared : ∀ letter,event ≠ .unknown letter) :
    LastUnknown (event :: read) := by
  intro letter there
  rcases List.mem_cons.mp there with same | later
  · exact absurd same.symm (declared letter)
  · obtain ⟨front,split⟩ := last letter later
    exact ⟨event :: front,by rw [split,List.cons_append]⟩

theorem lastUnknown_nil : LastUnknown [] := fun _ there => absurd there List.not_mem_nil

theorem lastUnknown_events {optstring : List Int8} {words : List CStr} (behind : LastUnknown (reading optstring words))
    (next : LastUnknown (reading optstring words.tail)) (letters : List Int8) : LastUnknown (events optstring letters words) := by
  induction letters with
  | nil => exact behind
  | cons letter letters ih =>
    by_cases declared : letter ∈ optstring
    · by_cases has_value : marked optstring letter = true
      · cases letters with
        | nil =>
          rw [events_next words declared has_value]
          cases words with
          | nil => exact lastUnknown_nil.cons (by rintro _ ⟨⟩)
          | cons value words => exact LastUnknown.cons next (by rintro _ ⟨⟩)
        | cons c letters =>
          rw [events_value words declared has_value (List.cons_ne_nil c letters)]
          exact behind.cons (by rintro _ ⟨⟩)
      · rw [events_flag words ⟨declared,Bool.eq_false_iff.mpr has_value⟩]
        exact ih.cons (by rintro _ ⟨⟩)
    · rw [events_unknown words declared]
      intro other there
      rw [List.mem_singleton.mp there]
      exact ⟨[],rfl⟩

theorem lastUnknown_reading (optstring : List Int8) (words : List CStr) :
    LastUnknown (reading optstring words) ∧ LastUnknown (reading optstring words.tail) := by
  induction words with
  | nil => exact ⟨lastUnknown_nil,lastUnknown_nil⟩
  | cons word words ih =>
    refine ⟨?_,ih.1⟩
    rw [reading_cons]
    split
    · exact lastUnknown_nil
    · split
      · exact lastUnknown_events ih.1 ih.2 _
      · exact ih.1

theorem start_place (arg0 : CStr) (words : List CStr) : At a_optstring.val (arg0 :: words) start [] [] words :=
  .start rfl (Nat.succ_le_succ (Nat.zero_le _)) rfl

end

/-- The calls end exactly where each letter that is read before the end is declared. -/
theorem getopt_ends_iff (a_optstring arg0 : CStr) (words : List CStr) :
    (∃ results,Gives a_optstring (arg0 :: words) start results) ↔ Known (reading a_optstring.val words) := by
  constructor
  · rintro ⟨results,gives⟩ letter there
    by_contra goes_on
    push Not at goes_on
    obtain ⟨front,split⟩ := (lastUnknown_reading a_optstring.val words).1 letter there
    refine unknown_endless gives (start_place arg0 words) split ?_ (fun _ absurd_there => absurd absurd_there List.not_mem_nil)
    intro event front_there
    exact Bool.eq_false_iff.mpr (goes_on event (by rw [split]; exact List.mem_append_left _ front_there))
  · intro known
    exact ⟨_,gives_reading (start_place arg0 words) rfl known⟩

/-- A letter that is not declared is returned as `?` again and again. -/
theorem getopt_ends_fails :
    ¬∀ (a_optstring arg0 : CStr) (words : List CStr),∃ results,Gives a_optstring (arg0 :: words) start results := by
  intro all
  obtain ⟨results,gives⟩ := all ⟨lit "ab",by decide⟩ ⟨lit "arg0",by decide⟩ [⟨lit "-c",by decide⟩]
  refine unknown_endless gives (start_place _ _) (show reading _ _ = [] ++ [.unknown 99] by decide) ?_ ?_
  · exact fun _ absurd_there => absurd absurd_there List.not_mem_nil
  · exact fun _ absurd_there => absurd absurd_there List.not_mem_nil

theorem Gives.unique {a_optstring : CStr} {a_argv : List CStr} {s : State} {results others : List (Int × Option (List Int8))}
    (gives : Gives a_optstring a_argv s results) (gives' : Gives a_optstring a_argv s others) : results = others := by
  induction gives generalizing others with
  | stop call =>
    cases gives' with
    | stop => rfl
    | more call' goes_on =>
      rw [call] at call'
      exact absurd (Prod.mk.inj (Except.ok.inj call')).1.symm goes_on
  | more call goes_on _ ih =>
    cases gives' with
    | stop call' =>
      rw [call] at call'
      exact absurd (Prod.mk.inj (Except.ok.inj call')).1 goes_on
    | more call' _ rest' =>
      rw [call] at call'
      obtain ⟨rfl,rfl⟩ := Prod.mk.inj (Except.ok.inj call')
      rw [ih rest']

/-- Each letter is declared, and each value is there. -/
def AllRead (read : List Event) : Prop := ∀ event ∈ read,∃ letter value,event = .option letter value

/-- The calls return what is to be read, up to the character that is the end. -/
theorem getopt_reads (a_optstring arg0 : CStr) (words : List CStr) (all : AllRead (reading a_optstring.val words))
    (results : List (Int × Option (List Int8))) :
    Gives a_optstring (arg0 :: words) start results ↔ results = returned (reading a_optstring.val words) := by
  have known : Known (reading a_optstring.val words) := by
    intro letter there
    obtain ⟨_,_,⟨⟩⟩ := all _ there
  have gives := gives_reading (start_place arg0 words) rfl known
  constructor
  · exact fun gives' => gives'.unique gives
  · rintro rfl
    exact gives

theorem getopt_reads_values :
    Gives ⟨lit "a:b",by decide⟩ [⟨lit "arg0",by decide⟩,⟨lit "-a",by decide⟩,⟨lit "value1",by decide⟩,⟨lit "-bavalue2",by decide⟩] start
      [(chr 'a',some (lit "value1")),(chr 'b',none),(chr 'a',some (lit "value2"))] := by
  refine (getopt_reads _ _ _ ?_ _).mpr ?_
  · have read : reading (lit "a:b") [⟨lit "-a",by decide⟩,⟨lit "value1",by decide⟩,⟨lit "-bavalue2",by decide⟩] =
        [.option 97 (some (lit "value1")),.option 98 none,.option 97 (some (lit "value2"))] := by decide
    rw [read]
    intro event there
    simp only [List.mem_cons,List.not_mem_nil,or_false] at there
    rcases there with rfl | rfl | rfl
    · exact ⟨_,_,rfl⟩
    · exact ⟨_,_,rfl⟩
    · exact ⟨_,_,rfl⟩
  · decide

/-- A letter that is -1 as a character ends the calls. -/
theorem getopt_reads_fails :
    ¬∀ (a_optstring arg0 : CStr) (words : List CStr),AllRead (reading a_optstring.val words) →
      Gives a_optstring (arg0 :: words) start ((reading a_optstring.val words).map Event.result) := by
  intro all
  have read : reading [-1] [⟨[45,-1],by decide⟩] = [.option (-1) none] := by decide
  have gives := all ⟨[-1],by decide⟩ ⟨lit "arg0",by decide⟩ [⟨[45,-1],by decide⟩] (by
    rw [read]
    intro event there
    rw [List.mem_singleton.mp there]
    exact ⟨_,_,rfl⟩)
  rw [read] at gives
  generalize result : [Event.option (-1) none].map Event.result = results at gives
  cases gives with
  | stop => cases result
  | more _ goes_on => exact goes_on (congrArg Prod.fst (List.cons.inj result).1).symm

end Htools.Getopt
