import Htools.ConfigFile
import Htools.TailqSort

/-!
The parts of the C library that the programs of `hgmake` use on texts. A text
is the list of its characters, without the terminator.
-/
namespace Htools.CString
open Htools.Lexing Htools.ConfigFile Htools.TailqSort

/-- The characters of a string literal. -/
def lit (s : String) : List Int8 := s.toList.map fun c => Int8.ofInt (chr c)

/-- Characters compare as `unsigned char`; only the sign says something. -/
def strcmp : List Int8 → List Int8 → Int
  | [],[] => 0
  | [],_ :: _ => -1
  | _ :: _,[] => 1
  | a :: l,b :: r => if a = b then strcmp l r else a.toUInt8.toNat - b.toUInt8.toNat

def strncmp (l r : List Int8) (n : Nat) : Int := strcmp (l.take n) (r.take n)

/-- The macro of `hgmake/common.h`: does a text begin with a literal. -/
def STRBCMP (str : List Int8) (ptn : String) : Int := strncmp str (lit ptn) (lit ptn).length

/-- The line that `fgets` reads, `room` characters at most, and the rest of the file. -/
def cut_line : (room : Nat) → List Int8 → List Int8 × List Int8
  | 0,file => ([],file)
  | _ + 1,[] => ([],[])
  | room + 1,c :: file =>
    if chr '\n' = c.toInt then ([c],file)
    else
      let (line,file) := cut_line room file
      (c :: line,file)

/-- None at the end of the file. -/
def fgets (size : Nat) (file : List Int8) : Option (List Int8 × List Int8) :=
  if file = [] then none else some (cut_line (size - 1) file)

/-- What is tested of each character of a text. -/
theorem each_char {p : Int8 → Prop} [DecidablePred p] {text : List Int8} (tested : (text.all fun c => p c) = true) :
    ∀ c ∈ text,p c := by
  simpa using tested

theorem unsigned_inj {a b : Int8} (same : a.toUInt8.toNat = b.toUInt8.toNat) : a = b := by
  rw [← Int8.toInt8_toUInt8 a,UInt8.toNat_inj.mp same,Int8.toInt8_toUInt8]

theorem strcmp_self (l : List Int8) : strcmp l l = 0 := by
  induction l with
  | nil => rfl
  | cons a l ih => simp [strcmp,ih]

theorem strcmp_eq_zero (l r : List Int8) : strcmp l r = 0 ↔ l = r := by
  constructor
  · intro same
    fun_induction strcmp l r with
    | case1 => rfl
    | case2 => cases same
    | case3 => cases same
    | case4 a l r ih => rw [ih same]
    | case5 a l b r differ =>
      exact absurd (unsigned_inj (by omega)) differ
  · rintro rfl
    exact strcmp_self l

theorem strcmp_comparison : Comparison strcmp where
  swap l r := by
    fun_induction strcmp l r with
    | case1 => simp [strcmp]
    | case2 => simp [strcmp]
    | case3 => simp [strcmp]
    | case4 a l r ih => simpa [strcmp] using ih
    | case5 a l b r differ =>
      rw [strcmp,if_neg (Ne.symm differ)]
      omega
  trans l m r := by
    fun_induction strcmp l m generalizing r with
    | case1 => exact fun _ le => le
    | case2 => cases r <;> simp [strcmp]
    | case3 => simp
    | case4 l b m ih =>
      cases r with
      | nil => simp [strcmp]
      | cons c r =>
        intro first second
        rw [strcmp] at second ⊢
        split at second
        case isTrue same =>
          rw [if_pos same]
          exact ih r first second
        case isFalse differ =>
          rw [if_neg differ]
          exact second
    | case5 a l b m differ =>
      cases r with
      | nil => simp [strcmp]
      | cons c r =>
        intro first second
        rw [strcmp] at second ⊢
        split at second
        case isTrue same =>
          subst same
          rw [if_neg differ]
          exact first
        case isFalse differ' =>
          have first_codes : a.toUInt8.toNat ≠ b.toUInt8.toNat := fun same => differ (unsigned_inj same)
          have apart : a ≠ c := by
            rintro rfl
            omega
          rw [if_neg apart]
          omega

theorem strbcmp_iff (str : List Int8) (ptn : String) : 0 = STRBCMP str ptn ↔ lit ptn <+: str := by
  unfold STRBCMP strncmp
  rw [eq_comm,strcmp_eq_zero,List.take_length,List.prefix_iff_eq_take,eq_comm]

end Htools.CString
