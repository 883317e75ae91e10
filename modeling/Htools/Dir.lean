import Htools.CString

/-!
The names of paths (`hutils/src/dir.c`). `getnames` cuts a path at its last
separator and `dir_substext` replaces what is behind the last dot, with a scan of
its own that knows `/` only. On Windows, where a backslash is a separator too, it
can replace a part of the directory (`names_iff`).
-/
namespace Htools.Dir
open Htools.CString

def dot : Int8 := 46
def slash : Int8 := 47
def backslash : Int8 := 92

/-- The loop of `getnames` for the last separator. -/
def getnames_loop (a_delim : List Int8) : List Int8 → (p : Nat) → (slash : Option Nat) → Option Nat
  | [],_,slash => slash
  | c :: rest,p,slash => getnames_loop a_delim rest (p + 1) (a_delim.foldl (fun slash d => if d = c then some p else slash) slash)

/-- The names that are asked for. -/
def getnames (a_path : List Int8) (a_dir a_base : Bool) (a_delim : List Int8) : Option (List Int8) × Option (List Int8) :=
  let slash := getnames_loop a_delim a_path 0 none
  let dir :=
    match slash with
    | none => [dot]
    | some p => a_path.take p
  let base :=
    match slash with
    | none => a_path
    | some p => a_path.drop (p + 1)
  (if a_dir then some dir else none,if a_base then some base else none)

inductive Platform where
  | posix
  | windows
  deriving DecidableEq

/-- The separators of the builds. -/
def Platform.delim : Platform → List Int8
  | posix => [slash]
  | windows => [slash,backslash]

def dir_getnames (platform : Platform) (a_path : List Int8) (a_dir a_base : Bool) :
    Option (List Int8) × Option (List Int8) :=
  getnames a_path a_dir a_base platform.delim

/-- The loop of `dir_substext` for the last dot and the last slash. -/
def substext_loop : List Int8 → (p : Nat) → (dot slash : Option Nat) → Option Nat × Option Nat
  | [],_,dot,slash => (dot,slash)
  | c :: rest,p,dot_,slash_ =>
    if slash = c then substext_loop rest (p + 1) dot_ (some p)
    else if dot = c then substext_loop rest (p + 1) (some p) slash_
    else substext_loop rest (p + 1) dot_ slash_

/-- `slash > dot`, where the null pointer is below all others. -/
def above : Option Nat → Nat → Bool
  | none,_ => false
  | some slash,dot => decide (slash > dot)

def dir_substext (a_path a_ext : List Int8) : List Int8 :=
  let (dot_,slash_) := substext_loop a_path 0 none none
  match dot_ with
  | none => a_path
  | some p => if above slash_ p then a_path else a_path.take p ++ dot :: a_ext

section
variable {delim path pre post front back : List Int8} {c : Int8}

/-- A text has none of the characters, or it has a last one. -/
theorem last_split (delim : List Int8) (path : List Int8) : (∀ c ∈ path,c ∉ delim) ∨
    ∃ front c back,path = front ++ c :: back ∧ c ∈ delim ∧ ∀ c ∈ back,c ∉ delim := by
  induction path with
  | nil => exact .inl (by simp)
  | cons c path ih =>
    obtain none | ⟨front,d,back,rfl,last,behind⟩ := ih
    · by_cases here : c ∈ delim
      · exact .inr ⟨[],c,path,rfl,here,none⟩
      · exact .inl (List.forall_mem_cons.mpr ⟨here,none⟩)
    · exact .inr ⟨c :: front,d,back,rfl,last,behind⟩

/-- The last one is at one place only. -/
theorem last_unique {front' back' : List Int8} {c' : Int8} (same : front ++ c :: back = front' ++ c' :: back')
    (last : c ∈ delim) (behind : ∀ c ∈ back,c ∉ delim) (last' : c' ∈ delim) (behind' : ∀ c ∈ back',c ∉ delim) :
    front = front' ∧ c = c' ∧ back = back' := by
  obtain ⟨x,rfl,rest⟩ | ⟨x,rfl,rest⟩ := List.append_eq_append_iff.mp same
  · cases x with
    | nil =>
      rw [List.nil_append,List.cons.injEq] at rest
      exact ⟨(List.append_nil _).symm,rest⟩
    | cons e x =>
      rw [List.cons_append,List.cons.injEq] at rest
      obtain ⟨rfl,rfl⟩ := rest
      exact absurd last' (behind c' (List.mem_append_right _ List.mem_cons_self))
  · cases x with
    | nil =>
      rw [List.nil_append,List.cons.injEq] at rest
      exact ⟨List.append_nil _,rest.1.symm,rest.2.symm⟩
    | cons e x =>
      rw [List.cons_append,List.cons.injEq] at rest
      obtain ⟨rfl,rfl⟩ := rest
      exact absurd last (behind' c (List.mem_append_right _ List.mem_cons_self))

/-! ### Names -/

theorem delim_loop (delim : List Int8) (c : Int8) (p : Nat) (slash_ : Option Nat) :
    delim.foldl (fun slash d => if d = c then some p else slash) slash_ = if c ∈ delim then some p else slash_ := by
  induction delim generalizing slash_ with
  | nil => rfl
  | cons d delim ih =>
    rw [List.foldl_cons,ih]
    by_cases here : d = c
    · simp [here]
    · simp [here,Ne.symm here]

theorem getnames_loop_none (none : ∀ c ∈ back,c ∉ delim) (p : Nat) (slash_ : Option Nat) :
    getnames_loop delim back p slash_ = slash_ := by
  induction back generalizing p with
  | nil => rfl
  | cons c back ih =>
    obtain ⟨here,none⟩ := List.forall_mem_cons.mp none
    rw [getnames_loop,delim_loop,if_neg here,ih none]

theorem getnames_loop_last (last : c ∈ delim) (behind : ∀ c ∈ back,c ∉ delim) (p : Nat) (slash_ : Option Nat) :
    getnames_loop delim (front ++ c :: back) p slash_ = some (p + front.length) := by
  induction front generalizing p slash_ with
  | nil => rw [List.nil_append,getnames_loop,delim_loop,if_pos last,getnames_loop_none behind,List.length_nil,Nat.add_zero]
  | cons e front ih =>
    rw [List.cons_append,getnames_loop,ih,List.length_cons]
    congr 1
    omega

theorem getnames_none (none : ∀ c ∈ path,c ∉ delim) : getnames path true true delim = (some [dot],some path) := by
  simp only [getnames,getnames_loop_none none,if_true]

theorem getnames_last (last : c ∈ delim) (behind : ∀ c ∈ back,c ∉ delim) :
    getnames (front ++ c :: back) true true delim = (some front,some back) := by
  have place : (front ++ c :: back).drop (front.length + 1) = back := by
    rw [← List.singleton_append,← List.append_assoc]
    exact List.drop_left' (by rw [List.length_append,List.length_singleton])
  simp only [getnames,getnames_loop_last last behind,Nat.zero_add,List.take_left,place,if_true]

/-! ### Extensions -/

/-- Neither a dot nor a slash. -/
def Plain (text : List Int8) : Prop := ∀ c ∈ text,c ∉ [dot,slash]

theorem plain_iff : Plain back ↔ dot ∉ back ∧ slash ∉ back := by
  constructor
  · intro plain
    exact ⟨fun member => plain dot member (by decide),fun member => plain slash member (by decide)⟩
  · rintro ⟨noDot,noSlash⟩ c member special
    rw [List.mem_cons,List.mem_singleton] at special
    obtain rfl | rfl := special
    · exact noDot member
    · exact noSlash member

theorem substext_loop_plain (plain : Plain back) (p : Nat) (dot_ slash_ : Option Nat) :
    substext_loop back p dot_ slash_ = (dot_,slash_) := by
  induction back generalizing p with
  | nil => rfl
  | cons c back ih =>
    obtain ⟨here,plain⟩ := List.forall_mem_cons.mp plain
    rw [List.mem_cons,List.mem_singleton,not_or] at here
    rw [substext_loop,if_neg (Ne.symm here.2),if_neg (Ne.symm here.1),ih plain]

theorem substext_loop_append (p : Nat) (dot_ slash_ : Option Nat) :
    substext_loop (front ++ back) p dot_ slash_ = substext_loop back (p + front.length)
      (substext_loop front p dot_ slash_).1 (substext_loop front p dot_ slash_).2 := by
  induction front generalizing p dot_ slash_ with
  | nil => rfl
  | cons c front ih =>
    rw [List.cons_append,List.length_cons,show p + (front.length + 1) = p + 1 + front.length by omega]
    simp only [substext_loop]
    split
    · exact ih _ _ _
    · split
      · exact ih _ _ _
      · exact ih _ _ _

/-- The pointers stay behind the place of the loop. -/
theorem substext_loop_below {p : Nat} {dot_ slash_ : Option Nat} (dots : ∀ k ∈ dot_,k < p) (slashes : ∀ k ∈ slash_,k < p) :
    (∀ k ∈ (substext_loop front p dot_ slash_).1,k < p + front.length) ∧
      ∀ k ∈ (substext_loop front p dot_ slash_).2,k < p + front.length := by
  induction front generalizing p dot_ slash_ with
  | nil => exact ⟨dots,slashes⟩
  | cons c front ih =>
    have later : ∀ {o : Option Nat},(∀ k ∈ o,k < p) → ∀ k ∈ o,k < p + 1 :=
      fun before k member => Nat.lt_succ_of_lt (before k member)
    have here : ∀ k ∈ some p,k < p + 1 := by
      rintro k ⟨⟩
      exact Nat.lt_succ_self p
    rw [List.length_cons,show p + (front.length + 1) = p + 1 + front.length by omega,substext_loop]
    split
    · exact ih (later dots) here
    · split
      · exact ih here (later slashes)
      · exact ih (later dots) (later slashes)

theorem not_above {slash_ : Option Nat} {p : Nat} (below : ∀ k ∈ slash_,k < p) : above slash_ p = false := by
  cases slash_ with
  | none => rfl
  | some k => exact decide_eq_false (Nat.not_lt.mpr (Nat.le_of_lt (below k rfl)))

/-- The last dot with no slash behind it: the extension is replaced. -/
theorem substext_dot (plain : Plain post) (a_ext : List Int8) :
    dir_substext (pre ++ dot :: post) a_ext = pre ++ dot :: a_ext := by
  obtain ⟨_,slashes⟩ := @substext_loop_below pre 0 none none (by simp) (by simp)
  rw [Nat.zero_add] at slashes
  have ended : substext_loop (pre ++ dot :: post) 0 none none = (some pre.length,(substext_loop pre 0 none none).2) := by
    rw [substext_loop_append,substext_loop,if_neg (by decide),if_pos rfl,substext_loop_plain plain,Nat.zero_add]
  simp only [dir_substext,ended,not_above slashes,Bool.false_eq_true,if_false,List.take_left]

/-- A slash behind the last dot: the path stays. -/
theorem substext_slash (plain : Plain post) (a_ext : List Int8) :
    dir_substext (pre ++ slash :: post) a_ext = pre ++ slash :: post := by
  obtain ⟨dots,_⟩ := @substext_loop_below pre 0 none none (by simp) (by simp)
  rw [Nat.zero_add] at dots
  have ended : substext_loop (pre ++ slash :: post) 0 none none = ((substext_loop pre 0 none none).1,some pre.length) := by
    rw [substext_loop_append,substext_loop,if_pos rfl,substext_loop_plain plain,Nat.zero_add]
  simp only [dir_substext,ended]
  split
  · rfl
  · rename_i k there
    have behind : above (some pre.length) k = true := decide_eq_true (dots k there)
    rw [if_pos behind]

theorem substext_plain (plain : Plain path) (a_ext : List Int8) : dir_substext path a_ext = path := by
  rw [dir_substext,substext_loop_plain plain]

end

/-! ### Both scans -/

/-- An extension without separators and dots. -/
structure Extension (platform : Platform) (ext : List Int8) : Prop where
  names : ∀ c ∈ ext,c ∉ platform.delim
  dots : dot ∉ ext

/-- What the names of a path are to be, also after its extension has been replaced. -/
structure Names (platform : Platform) (path first second : List Int8) : Prop where
  whole : (∃ c ∈ path,c ∈ platform.delim) → ∃ dir base c,dir_getnames platform path true true = (some dir,some base) ∧
    c ∈ platform.delim ∧ dir ++ c :: base = path ∧ ∀ e ∈ base,e ∉ platform.delim
  kept : (dir_getnames platform (dir_substext path first) true false).1 = (dir_getnames platform path true false).1
  again : dir_substext (dir_substext path first) second = dir_substext path second

/-- The last dot has no slash behind it, but a backslash, and it is not the name
    of the directory. -/
def Crossed (path : List Int8) : Prop :=
  ∃ pre post,path = pre ++ dot :: post ∧ dot ∉ post ∧ slash ∉ post ∧ backslash ∈ post ∧
    ¬ (pre = [] ∧ ∃ base,post = backslash :: base ∧ backslash ∉ base)

section
variable {platform : Platform} {path first second pre post ext : List Int8}

theorem extension_plain (extension : Extension platform ext) : Plain ext := by
  refine plain_iff.mpr ⟨extension.dots,fun member => extension.names slash member ?_⟩
  cases platform <;> decide

theorem dot_no_delim (platform : Platform) : dot ∉ platform.delim := by
  cases platform <;> decide

/-- The directory alone. -/
theorem dir_eq (platform : Platform) (path : List Int8) :
    (dir_getnames platform path true false).1 = (dir_getnames platform path true true).1 := rfl

theorem whole_holds (platform : Platform) (path : List Int8) (separated : ∃ c ∈ path,c ∈ platform.delim) :
    ∃ dir base c,dir_getnames platform path true true = (some dir,some base) ∧
      c ∈ platform.delim ∧ dir ++ c :: base = path ∧ ∀ e ∈ base,e ∉ platform.delim := by
  obtain none | ⟨front,c,back,rfl,last,behind⟩ := last_split platform.delim path
  · obtain ⟨c,member,delim⟩ := separated
    exact absurd delim (none c member)
  · exact ⟨front,back,c,getnames_last last behind,last,rfl,behind⟩

/-- A path has no dot that `dir_substext` looks for, or it has one. -/
theorem substext_cases (path : List Int8) : (∀ ext,dir_substext path ext = path) ∧ ¬ Crossed path ∨
    ∃ pre post,path = pre ++ dot :: post ∧ Plain post := by
  obtain plain | ⟨pre,c,post,rfl,last,plain⟩ := last_split [dot,slash] path
  · refine .inl ⟨substext_plain plain,?_⟩
    rintro ⟨pre,post,rfl,_⟩
    exact plain dot (List.mem_append_right _ List.mem_cons_self) (by decide)
  · rw [List.mem_cons,List.mem_singleton] at last
    obtain rfl | rfl := last
    · exact .inr ⟨pre,post,rfl,plain⟩
    · refine .inl ⟨substext_slash plain,?_⟩
      rintro ⟨pre',post',same,noDot,noSlash,_⟩
      have both := (last_unique same (by decide) plain (by decide) (plain_iff.mpr ⟨noDot,noSlash⟩)).2.1
      exact absurd both (by decide)

theorem again_holds (plain : Plain first) : dir_substext (dir_substext path first) second = dir_substext path second := by
  obtain ⟨same,_⟩ | ⟨pre,post,rfl,plain'⟩ := substext_cases path
  · rw [same,same]
  · rw [substext_dot plain',substext_dot plain',substext_dot plain]

/-- Without a separator behind the dot, the directory is that of the text in front. -/
theorem dir_behind (names : ∀ c ∈ post,c ∉ platform.delim) :
    (dir_getnames platform (pre ++ dot :: post) true true).1 = (dir_getnames platform pre true true).1 := by
  have end_ : ∀ c ∈ dot :: post,c ∉ platform.delim := List.forall_mem_cons.mpr ⟨dot_no_delim platform,names⟩
  obtain none | ⟨front,c,back,rfl,last,behind⟩ := last_split platform.delim pre
  · rw [dir_getnames,dir_getnames,getnames_none none,getnames_none (List.forall_mem_append.mpr ⟨none,end_⟩)]
  · rw [dir_getnames,dir_getnames,getnames_last last behind,List.append_assoc,List.cons_append,
      getnames_last last (List.forall_mem_append.mpr ⟨behind,end_⟩)]

/-- The directory of a text is shorter than the text and a dot. -/
theorem dir_short (platform : Platform) (pre : List Int8) :
    ∃ dir,(dir_getnames platform pre true true).1 = some dir ∧
      (dir = [dot] ∧ (∀ c ∈ pre,c ∉ platform.delim) ∨ dir.length < pre.length) := by
  obtain none | ⟨front,c,back,rfl,last,behind⟩ := last_split platform.delim pre
  · exact ⟨[dot],by rw [dir_getnames,getnames_none none],.inl ⟨rfl,none⟩⟩
  · refine ⟨front,by rw [dir_getnames,getnames_last last behind],.inr ?_⟩
    rw [List.length_append,List.length_cons]
    omega

theorem crossed_iff (plain : Plain post) : Crossed (pre ++ dot :: post) ↔
    backslash ∈ post ∧ ¬ (pre = [] ∧ ∃ base,post = backslash :: base ∧ backslash ∉ base) := by
  obtain ⟨noDot,noSlash⟩ := plain_iff.mp plain
  constructor
  · rintro ⟨pre',post',same,noDot',noSlash',rest⟩
    obtain ⟨rfl,_,rfl⟩ := last_unique same (by decide) plain (by decide) (plain_iff.mpr ⟨noDot',noSlash'⟩)
    exact rest
  · intro rest
    exact ⟨pre,post,rfl,noDot,noSlash,rest⟩

/-- Replacing an extension keeps the directory, if no backslash behind the dot ends it. -/
theorem kept_iff (extension : Extension platform first) :
    (dir_getnames platform (dir_substext path first) true false).1 = (dir_getnames platform path true false).1 ↔
      platform = .posix ∨ ¬ Crossed path := by
  rw [dir_eq,dir_eq]
  obtain ⟨same,uncrossed⟩ | ⟨pre,post,rfl,plain⟩ := substext_cases path
  · rw [same]
    exact iff_of_true rfl (.inr uncrossed)
  rw [substext_dot plain,dir_behind extension.names,crossed_iff plain]
  obtain ⟨noDot,noSlash⟩ := plain_iff.mp plain
  obtain none | ⟨mid,c,base,rfl,last,behind⟩ := last_split platform.delim post
  · refine iff_of_true (dir_behind none).symm ?_
    cases platform with
    | posix => exact .inl rfl
    | windows => exact .inr fun both => none backslash both.1 (by decide)
  · have ended : c = backslash ∧ platform = .windows := by
      have other : c ≠ slash := by
        rintro rfl
        exact noSlash (List.mem_append_right _ List.mem_cons_self)
      cases platform with
      | posix => exact absurd (List.mem_singleton.mp last) other
      | windows =>
        rw [Platform.delim,List.mem_cons,List.mem_singleton] at last
        exact ⟨last.resolve_left other,rfl⟩
    obtain ⟨rfl,rfl⟩ := ended
    have whole : (dir_getnames .windows (pre ++ dot :: (mid ++ backslash :: base)) true true).1 = some (pre ++ dot :: mid) := by
      have split : pre ++ dot :: (mid ++ backslash :: base) = (pre ++ dot :: mid) ++ backslash :: base := by
        rw [List.append_assoc,List.cons_append]
      rw [split,dir_getnames,getnames_last last behind]
    have member : backslash ∈ mid ++ backslash :: base := List.mem_append_right _ List.mem_cons_self
    obtain ⟨dir,is,short⟩ := dir_short .windows pre
    rw [whole,is,Option.some.injEq]
    simp only [reduceCtorEq,false_or,member,true_and,not_not]
    constructor
    · rintro rfl
      have alone : pre = [] ∧ mid = [] := by
        obtain ⟨dirs,_⟩ | less := short
        · have := congrArg List.length dirs
          simp only [List.length_append,List.length_cons,List.length_nil] at this
          exact ⟨List.eq_nil_of_length_eq_zero (by omega),List.eq_nil_of_length_eq_zero (by omega)⟩
        · rw [List.length_append] at less
          omega
      obtain ⟨rfl,rfl⟩ := alone
      exact ⟨rfl,base,rfl,fun inside => behind backslash inside (by decide)⟩
    · rintro ⟨rfl,base',same,noMore⟩
      have no_mid : mid = [] := by
        cases mid with
        | nil => rfl
        | cons e mid =>
          obtain ⟨_,rfl⟩ := List.cons.inj same
          exact absurd (List.mem_append_right _ List.mem_cons_self) noMore
      obtain ⟨rfl,_⟩ | less := short
      · rw [no_mid,List.nil_append]
      · exact absurd less (Nat.not_lt_zero _)

end

/-- The names are as they are to be for all extensions exactly if the build is not
    for Windows or no backslash ends a directory behind the dot that is replaced. -/
theorem names_iff (platform : Platform) (path first second : List Int8) (extension : Extension platform first) :
    Names platform path first second ↔ platform = .posix ∨ ¬ Crossed path := by
  constructor
  · intro names
    exact (kept_iff extension).mp names.kept
  · intro uncrossed
    exact ⟨whole_holds platform path,(kept_iff extension).mpr uncrossed,again_holds (extension_plain extension)⟩

theorem names_file : Names .windows (lit "dir/file.txt") (lit "coo") (lit "o") := by
  have path : lit "dir/file.txt" = lit "dir/file" ++ dot :: lit "txt" := by decide
  have plain : Plain (lit "txt") := plain_iff.mpr (by decide)
  refine (names_iff .windows _ _ _ ⟨each_char (by decide),by decide⟩).mpr (.inr ?_)
  rw [path,crossed_iff plain]
  exact fun both => absurd both.1 (by decide)

theorem names_fail : ¬ ∀ platform path first second,Extension platform first → Extension platform second →
    Names platform path first second := by
  intro names
  have kept := (names .windows (lit "a.b\\c") (lit "x") (lit "x") ⟨each_char (by decide),by decide⟩
    ⟨each_char (by decide),by decide⟩).kept
  exact absurd kept (by decide)

end Htools.Dir
