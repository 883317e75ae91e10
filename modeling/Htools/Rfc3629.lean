import Mathlib.Tactic.Common
import Htools.Codes

/-!
# Shortest-form byte sequences of code points

The byte layout of UTF-8 for every code point that four bytes can hold
(`encode`), with the decoder that reads one sequence off the start of a text
(`decode`). `Encodable` keeps out the surrogates only; RFC 3629 also keeps out
what lies above `0x10FFFF`, which leaves the values of `Char`, and there
`encode` is the standard encoding (`encode_char`).
-/
namespace Htools.Rfc3629
open Htools.Codes

/-- The shortest-form sequence of a code point below `0x200000`. -/
def encode (c : Nat) : List UInt8 :=
  if c ≤ 0x7f then [UInt8.ofNat c]
  else if c ≤ 0x7ff then [UInt8.ofNat (c / 64 % 0x20 + 0xc0), UInt8.ofNat (c % 0x40 + 0x80)]
  else if c ≤ 0xffff then
    [UInt8.ofNat (c / 4096 % 0x10 + 0xe0), UInt8.ofNat (c / 64 % 0x40 + 0x80), UInt8.ofNat (c % 0x40 + 0x80)]
  else
    [UInt8.ofNat (c / 262144 % 0x08 + 0xf0), UInt8.ofNat (c / 4096 % 0x40 + 0x80),
      UInt8.ofNat (c / 64 % 0x40 + 0x80), UInt8.ofNat (c % 0x40 + 0x80)]

/-- A code point that four bytes can hold and that is no UTF-16 surrogate. -/
def Encodable (c : Nat) : Prop := c < 0x200000 ∧ ¬ (0xd800 ≤ c ∧ c ≤ 0xdfff)

/-- A code point of Unicode: the values that `Char` has. -/
def Scalar (c : Nat) : Prop := c ≤ 0x10ffff ∧ ¬ (0xd800 ≤ c ∧ c ≤ 0xdfff)

theorem encode_char (c : Char) : String.utf8EncodeChar c = encode c.toNat := rfl

theorem scalar_char (c : Char) : Scalar c.toNat := by
  have valid := c.valid
  simp only [UInt32.isValidChar,Nat.isValidChar] at valid
  show c.val.toNat ≤ 0x10ffff ∧ ¬ (0xd800 ≤ c.val.toNat ∧ c.val.toNat ≤ 0xdfff)
  omega

theorem encodable_of_scalar {c : Nat} (scalar : Scalar c) : Encodable c := by
  simp only [Scalar,Encodable] at *
  omega

/-- A byte that only continues a sequence. -/
def Tail (b : UInt8) : Prop := 0x80 ≤ b.toNat ∧ b.toNat < 0xc0

instance (b : UInt8) : Decidable (Tail b) := inferInstanceAs (Decidable (_ ∧ _))

/-- The code point, with the length of its sequence, at the start of a text. -/
def decode : List UInt8 → Option (Nat × Nat)
  | [] => none
  | a :: rest =>
    if a.toNat < 0x80 then some (a.toNat,1)
    else if 0xc0 ≤ a.toNat ∧ a.toNat < 0xe0 then
      match rest with
      | b :: _ =>
        let code := a.toNat % 0x20 * 64 + b.toNat % 0x40
        if Tail b ∧ 0x80 ≤ code then some (code,2) else none
      | _ => none
    else if 0xe0 ≤ a.toNat ∧ a.toNat < 0xf0 then
      match rest with
      | b :: c :: _ =>
        let code := a.toNat % 0x10 * 4096 + b.toNat % 0x40 * 64 + c.toNat % 0x40
        if (Tail b ∧ Tail c ∧ 0x800 ≤ code) ∧ ¬ (0xd800 ≤ code ∧ code ≤ 0xdfff) then some (code,3) else none
      | _ => none
    else if 0xf0 ≤ a.toNat ∧ a.toNat < 0xf8 then
      match rest with
      | b :: c :: d :: _ =>
        let code := a.toNat % 0x08 * 262144 + b.toNat % 0x40 * 4096 + c.toNat % 0x40 * 64 + d.toNat % 0x40
        if Tail b ∧ Tail c ∧ Tail d ∧ 0x10000 ≤ code then some (code,4) else none
      | _ => none
    else none

private theorem ofNat_eq {n : Nat} {b : UInt8} (same : n = b.toNat) : UInt8.ofNat n = b := by
  subst same
  exact UInt8.ofNat_toNat

/-- A sequence that the decoder reads is the shortest-form one of its code point. -/
theorem decode_sound {l : List UInt8} {c k : Nat} (read : decode l = some (c,k)) :
    Encodable c ∧ encode c <+: l ∧ k = (encode c).length := by
  unfold decode at read
  split at read
  · cases read
  · rename_i a rest
    have aMax := a.toNat_lt
    split at read
    · cases read
      have small : a.toNat ≤ 0x7f := by omega
      refine ⟨⟨by omega,by omega⟩,?_,?_⟩
      · rw [encode,if_pos small,UInt8.ofNat_toNat]
        exact ⟨rest,rfl⟩
      · rw [encode,if_pos small]; rfl
    · split at read
      · split at read
        · rename_i b rest
          simp only at read
          split at read
          · rename_i ok
            cases read
            obtain ⟨⟨low,high⟩,notOverlong⟩ := ok
            have e : encode (a.toNat % 0x20 * 64 + b.toNat % 0x40) = [a,b] := by
              rw [encode,if_neg (by omega),if_pos (by omega),ofNat_eq (b := a) (by omega),
                ofNat_eq (b := b) (by omega)]
            exact ⟨⟨by omega,by omega⟩,by rw [e]; exact ⟨rest,rfl⟩,by rw [e]; rfl⟩
          · cases read
        · cases read
      · split at read
        · split at read
          · rename_i b c' rest
            simp only at read
            split at read
            · rename_i ok
              cases read
              obtain ⟨⟨⟨lowB,highB⟩,⟨lowC,highC⟩,notOverlong⟩,notSurrogate⟩ := ok
              have e : encode (a.toNat % 0x10 * 4096 + b.toNat % 0x40 * 64 + c'.toNat % 0x40) = [a,b,c'] := by
                rw [encode,if_neg (by omega),if_neg (by omega),if_pos (by omega),ofNat_eq (b := a) (by omega),
                  ofNat_eq (b := b) (by omega),ofNat_eq (b := c') (by omega)]
              exact ⟨⟨by omega,notSurrogate⟩,by rw [e]; exact ⟨rest,rfl⟩,by rw [e]; rfl⟩
            · cases read
          · cases read
        · split at read
          · split at read
            · rename_i b c' d rest
              simp only at read
              split at read
              · rename_i ok
                cases read
                obtain ⟨⟨lowB,highB⟩,⟨lowC,highC⟩,⟨lowD,highD⟩,notOverlong⟩ := ok
                have e : encode (a.toNat % 0x08 * 262144 + b.toNat % 0x40 * 4096 + c'.toNat % 0x40 * 64 +
                    d.toNat % 0x40) = [a,b,c',d] := by
                  rw [encode,if_neg (by omega),if_neg (by omega),if_neg (by omega),ofNat_eq (b := a) (by omega),
                    ofNat_eq (b := b) (by omega),ofNat_eq (b := c') (by omega),ofNat_eq (b := d) (by omega)]
                exact ⟨⟨by omega,by omega⟩,by rw [e]; exact ⟨rest,rfl⟩,by rw [e]; rfl⟩
              · cases read
            · cases read
          · cases read

private theorem byte_toNat {n : Nat} (byte : n < 256) : (UInt8.ofNat n).toNat = n := by
  rw [UInt8.toNat_ofNat',Nat.mod_eq_of_lt byte]

private theorem tail_toNat (n : Nat) : (UInt8.ofNat (n % 0x40 + 0x80)).toNat = n % 0x40 + 0x80 := byte_toNat (by omega)

private theorem tail_ofNat (n : Nat) : Tail (UInt8.ofNat (n % 0x40 + 0x80)) := by
  rw [Tail,tail_toNat]
  omega

/-- The decoder reads the shortest-form sequence of every encodable code point. -/
theorem decode_encode {c : Nat} (encodable : Encodable c) (l : List UInt8) :
    decode (encode c ++ l) = some (c,(encode c).length) := by
  obtain ⟨small,notSurrogate⟩ := encodable
  unfold encode
  split_ifs with one two three
  · have byte : (UInt8.ofNat c).toNat = c := byte_toNat (by omega)
    simp only [List.cons_append,List.nil_append,decode,byte]
    rw [if_pos (by omega)]
    rfl
  · have lead : (UInt8.ofNat (c / 64 % 0x20 + 0xc0)).toNat = c / 64 + 0xc0 := by rw [byte_toNat] <;> omega
    have code : (c / 64 + 0xc0) % 0x20 * 64 + (c % 0x40 + 0x80) % 0x40 = c := by omega
    simp only [List.cons_append,List.nil_append,decode,lead,tail_toNat,code]
    rw [if_neg (by omega),if_pos (by omega),if_pos ⟨tail_ofNat c,by omega⟩]
    rfl
  · have lead : (UInt8.ofNat (c / 4096 % 0x10 + 0xe0)).toNat = c / 4096 + 0xe0 := by rw [byte_toNat] <;> omega
    have code : (c / 4096 + 0xe0) % 0x10 * 4096 + (c / 64 % 0x40 + 0x80) % 0x40 * 64 + (c % 0x40 + 0x80) % 0x40 = c := by
      omega
    simp only [List.cons_append,List.nil_append,decode,lead,tail_toNat,code]
    rw [if_neg (by omega),if_neg (by omega),if_pos (by omega),if_pos ⟨⟨tail_ofNat _,tail_ofNat c,by omega⟩,notSurrogate⟩]
    rfl
  · have lead : (UInt8.ofNat (c / 262144 % 0x08 + 0xf0)).toNat = c / 262144 + 0xf0 := by rw [byte_toNat] <;> omega
    have code : (c / 262144 + 0xf0) % 0x08 * 262144 + (c / 4096 % 0x40 + 0x80) % 0x40 * 4096 +
        (c / 64 % 0x40 + 0x80) % 0x40 * 64 + (c % 0x40 + 0x80) % 0x40 = c := by omega
    simp only [List.cons_append,List.nil_append,decode,lead,tail_toNat,code]
    rw [if_neg (by omega),if_neg (by omega),if_neg (by omega),if_pos (by omega),
      if_pos ⟨tail_ofNat _,tail_ofNat _,tail_ofNat c,by omega⟩]
    rfl

/-- What the decoder reads, on every text: the encodable code point whose
    sequence the text starts with. -/
theorem decode_some_iff {l : List UInt8} {c k : Nat} :
    decode l = some (c,k) ↔ Encodable c ∧ encode c <+: l ∧ k = (encode c).length := by
  constructor
  · exact decode_sound
  · rintro ⟨encodable,⟨rest,rfl⟩,rfl⟩
    exact decode_encode encodable rest

theorem decode_none_iff {l : List UInt8} : decode l = none ↔ ∀ c, Encodable c → ¬ encode c <+: l := by
  constructor
  · intro none c encodable starts
    have read := decode_some_iff.mpr ⟨encodable,starts,rfl⟩
    rw [none] at read
    cases read
  · intro noStart
    cases read : decode l with
    | none => rfl
    | some found =>
      obtain ⟨encodable,starts,_⟩ := decode_sound (c := found.1) (k := found.2) read
      exact absurd starts (noStart found.1 encodable)

theorem encode_length_pos (c : Nat) : 0 < (encode c).length := by
  unfold encode
  split_ifs <;> simp

theorem encode_prefixFree : PrefixFree encode Encodable where
  nonempty c _ := List.ne_nil_of_length_pos (encode_length_pos c)
  unique b c l hb hc startB startC := by
    have readB := decode_some_iff.mpr ⟨hb,startB,rfl⟩
    have readC := decode_some_iff.mpr ⟨hc,startC,rfl⟩
    rw [readB] at readC
    exact congrArg Prod.fst (Option.some.inj readC)

/-! ### Where sequences can start -/

/-- The bytes of a text at which a four-byte sequence above `0x10ffff` starts. -/
def Beyond : List UInt8 → Prop
  | a :: b :: c :: d :: _ => Tail b ∧ Tail c ∧ Tail d ∧
      (a.toNat = 0xf4 ∧ 0x90 ≤ b.toNat ∨ 0xf5 ≤ a.toNat ∧ a.toNat ≤ 0xf7)
  | _ => False

end Htools.Rfc3629
