import Mathlib.Data.Nat.ModEq
import Mathlib.Data.List.Basic

/-!
# A stream in a ring

The last `n` elements of a stream, kept at their positions modulo `n`. A run of
at most `n` new elements goes in with one copy, or with two around the end of
the ring (`wrap`); it covers the oldest elements and leaves the others.
-/
namespace Htools.Ring

variable {α : Type} {dst src buf : List α} {start k n position p : Nat}

/-- A list with a part of it overwritten. -/
def place (dst : List α) (start : Nat) (src : List α) : List α :=
  dst.take start ++ src ++ dst.drop (start + src.length)

theorem length_place (fits : start + src.length ≤ dst.length) : (place dst start src).length = dst.length := by
  rw [place,List.length_append,List.length_append,List.length_take,List.length_drop]
  omega

theorem place_inside (fits : start + src.length ≤ dst.length) (first : start ≤ k) (last : k < start + src.length) :
    (place dst start src)[k]? = src[k - start]? := by
  have length : (dst.take start).length = start := by
    rw [List.length_take]
    omega
  rw [place,List.getElem?_append_left (by rw [List.length_append,length]; exact last),
    List.getElem?_append_right (by rw [length]; exact first),length]

theorem place_outside (fits : start + src.length ≤ dst.length) (outside : k < start ∨ start + src.length ≤ k) :
    (place dst start src)[k]? = dst[k]? := by
  have length : (dst.take start).length = start := by
    rw [List.length_take]
    omega
  obtain before | after := outside
  · rw [place,List.append_assoc,List.getElem?_append_left (by rw [length]; exact before),List.getElem?_take_of_lt before]
  · rw [place,List.getElem?_append_right (by rw [List.length_append,length]; exact after),List.length_append,length,
      List.getElem?_drop,Nat.add_sub_cancel' after]

/-- The ring after the elements from `position` on. -/
def wrap (n : Nat) (buf : List α) (position : Nat) (src : List α) : List α :=
  if position % n + src.length ≤ n then place buf (position % n) src
  else place (place buf (position % n) (src.take (n - position % n))) 0 (src.drop (n - position % n))

section
variable (length : buf.length = n) (small : src.length ≤ n)

/-- The two copies of `wrap`. -/
theorem length_first (beyond : ¬ position % n + src.length ≤ n) (positive : 0 < n) :
    position % n + (src.take (n - position % n)).length = n := by
  have := Nat.mod_lt position positive
  rw [List.length_take]
  omega

include length small in
theorem length_wrap (positive : 0 < n) : (wrap n buf position src).length = n := by
  rw [wrap]
  split
  · rename_i fits
    rw [length_place (by omega),length]
  · rename_i beyond
    have first := length_first beyond positive
    rw [length_place,length_place (by omega),length]
    rw [length_place (by omega),List.length_drop]
    omega

/-- A position modulo `n`, given by its distance from another one. -/
theorem mod_add (d : Nat) (less : d < n) :
    (position + d) % n = if position % n + d < n then position % n + d else position % n + d - n := by
  have := Nat.mod_lt position (by omega : 0 < n)
  rw [Nat.add_mod,Nat.mod_eq_of_lt less]
  split
  · rw [Nat.mod_eq_of_lt ‹_›]
  · rw [Nat.mod_eq_sub_mod (by omega),Nat.mod_eq_of_lt (by omega)]

include length small in
theorem wrap_new (first : position ≤ p) (last : p < position + src.length) :
    (wrap n buf position src)[p % n]? = src[p - position]? := by
  obtain ⟨d,rfl⟩ : ∃ d, p = position + d := ⟨p - position,by omega⟩
  have positive : 0 < n := by omega
  have inside := Nat.mod_lt position positive
  rw [mod_add d (by omega),Nat.add_sub_cancel_left,wrap]
  split
  · rename_i fits
    rw [if_pos (by omega),place_inside (by omega) (by omega) (by omega),Nat.add_sub_cancel_left]
  · rename_i beyond
    have one := length_first beyond positive
    have two : 0 + (src.drop (n - position % n)).length ≤ (place buf (position % n) (src.take (n - position % n))).length := by
      rw [length_place (by omega),List.length_drop]
      omega
    split
    · rw [place_outside two (by rw [List.length_drop]; omega),place_inside (by omega) (by omega) (by omega),
        Nat.add_sub_cancel_left,List.getElem?_take_of_lt (by omega)]
    · rw [place_inside two (Nat.zero_le _) (by rw [List.length_drop]; omega),List.getElem?_drop]
      congr 1
      omega

include length small in
theorem wrap_old (before : p < position) (recent : position + src.length ≤ p + n) :
    (wrap n buf position src)[p % n]? = buf[p % n]? := by
  obtain ⟨d,rfl⟩ : ∃ d, position = p + d := ⟨position - p,by omega⟩
  have positive : 0 < n := by omega
  have inside := Nat.mod_lt p positive
  have shift : src.length = 0 ∨ (p + d) % n = if p % n + d < n then p % n + d else p % n + d - n := by
    by_cases empty : src.length = 0
    · exact .inl empty
    · exact .inr (mod_add d (by omega))
  rw [wrap]
  split
  · rename_i fits
    refine place_outside (by omega) ?_
    obtain empty | is := shift
    · omega
    · split at is <;> omega
  · rename_i beyond
    have one := length_first beyond positive
    have is := shift.resolve_left (by omega)
    rw [place_outside,place_outside (by omega)]
    · split at is <;> omega
    · rw [length_place (by omega),List.length_drop]
      omega
    · rw [List.length_drop]
      split at is <;> omega

end

end Htools.Ring
