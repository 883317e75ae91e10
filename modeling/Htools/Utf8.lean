import Htools.Machine
import Htools.BitFields
import Htools.Rfc3629

/-!
UTF-8 strings (`hutils/src/utf8.c`). `get_code` reads one sequence and
`utf8_create` copies a byte string with U+FFFD for every byte where none
starts: one pass sizes the allocation and a second one writes it. Both passes
are shown to follow the cut of the string into sequences and unreadable bytes
(`utf8_create_eq`).
-/
namespace Htools.Utf8
open Htools.Codes Htools.Rfc3629
open Htools.BitFields (join_bits low_bits mid_bits)

/-- `struct UTF8`, with the contents of its allocation in `data`. -/
structure UTF8 where
  replacement_num : UInt32
  length : Nat
  bytes : Nat
  data : List UInt8
  deriving DecidableEq, Repr

/-- The code point and the length of its sequence at index `a_i` of the first
    `a_bytes` bytes of `a_str`, or none where the C function returns 0. -/
def get_code (a_str : List UInt8) (a_bytes a_i : Nat) : Except Stop (Option (Nat × Nat)) :=
  if a_bytes ≤ a_i then .error .exit
  else
    let p (k : Nat) : Nat := (a_str.getD (a_i + k) 0).toNat
    let avail := a_bytes - a_i
    if 0x80 > p 0 then .ok (some (p 0,1))
    else if 0xc0 = 0xe0 &&& p 0 then
      if 2 > avail ∨ 0x80 ≠ 0xc0 &&& p 1 ∨ 0 = 0x1e &&& p 0 then .ok none
      else .ok (some ((0x1f &&& p 0) <<< 6 ||| (0x3f &&& p 1),2))
    else if 0xe0 = 0xf0 &&& p 0 then
      if 3 > avail ∨ 0x80 ≠ 0xc0 &&& p 1 ∨ 0x80 ≠ 0xc0 &&& p 2 ∨ 0 = (0x0f &&& p 0) ||| (0x20 &&& p 1) then
        .ok none
      else
        let code := (0x0f &&& p 0) <<< 12 ||| (0x3f &&& p 1) <<< 6 ||| (0x3f &&& p 2)
        -- UTF-16 surrogates.
        if 0xd800 ≤ code ∧ 0xdfff ≥ code then .ok none else .ok (some (code,3))
    else if 0xf0 = 0xf8 &&& p 0 then
      if 4 > avail ∨ 0x80 ≠ 0xc0 &&& p 1 ∨ 0x80 ≠ 0xc0 &&& p 2 ∨ 0x80 ≠ 0xc0 &&& p 3 ∨
          0 = (0x07 &&& p 0) ||| (0x30 &&& p 1) then .ok none
      else .ok (some ((0x07 &&& p 0) <<< 18 ||| (0x3f &&& p 1) <<< 12 ||| (0x3f &&& p 2) <<< 6 ||| (0x3f &&& p 3),4))
    else .ok none

/-- The first loop of `utf8_create`: how many sequences and bytes the copy has. -/
def create_size (a_str : List UInt8) (a_bytes : Nat) : Nat → Nat → Nat → Nat → Except Stop (Nat × Nat)
  | 0, _, _, _ => .error .fuel
  | fuel + 1, i, utf8_len, utf8_bytes =>
    if a_bytes > i then do
      match ← get_code a_str a_bytes i with
      | some (_,len) => create_size a_str a_bytes fuel (i + len) (utf8_len + 1) (utf8_bytes + len)
      | none => create_size a_str a_bytes fuel (i + 1) (utf8_len + 1) (utf8_bytes + 3)
    else .ok (utf8_len,utf8_bytes)

/-- Writing behind what `dst` already holds, in an allocation of `room` bytes. -/
def store (room : Nat) (dst src : List UInt8) : Except Stop (List UInt8) :=
  if dst.length + src.length ≤ room then .ok (dst ++ src) else .error .fault

/-- The second loop of `utf8_create`, with the bytes written up to `dst`. -/
def create_write (a_str : List UInt8) (a_bytes room : Nat) :
    Nat → Nat → List UInt8 → UInt32 → Except Stop (List UInt8 × UInt32)
  | 0, _, _, _ => .error .fuel
  | fuel + 1, i, dst, replacement_num =>
    if a_bytes > i then do
      match ← get_code a_str a_bytes i with
      | some (_,len) =>
        let dst ← store room dst ((a_str.drop i).take len)
        create_write a_str a_bytes room fuel (i + len) dst replacement_num
      | none =>
        let dst ← store room dst [0xef,0xbf,0xbd]
        create_write a_str a_bytes room fuel (i + 1) dst (replacement_num + 1)
    else .ok (dst,replacement_num)

def utf8_create (a_str : List UInt8) (a_bytes : Nat) : Except Stop UTF8 := do
  let (utf8_len,utf8_bytes) ← create_size a_str a_bytes (a_bytes + 1) 0 0 0
  let room := utf8_bytes + 1
  let (dst,replacement_num) ← create_write a_str a_bytes room (a_bytes + 1) 0 [] 0
  let data ← store room dst [0]
  .ok { replacement_num := replacement_num, length := utf8_len, bytes := utf8_bytes, data := data }

def utf8_concat (a_sl a_sr : UTF8) : Except Stop UTF8 :=
  if a_sl.data.length < a_sl.bytes ∨ a_sr.data.length < a_sr.bytes then .error .fault
  else do
    let bytes := a_sl.bytes + a_sr.bytes
    let room := bytes + 1
    let dst ← store room [] (a_sl.data.take a_sl.bytes)
    let dst ← store room dst (a_sr.data.take a_sr.bytes)
    let data ← store room dst [0]
    let replacement_num := a_sl.replacement_num + a_sr.replacement_num
    let length := a_sl.length + a_sr.length
    .ok { replacement_num := replacement_num, length := length, bytes := bytes, data := data }

def utf8_get (a_utf8 : UTF8) (a_i : Nat) : Except Stop (Option (Nat × Nat)) :=
  get_code a_utf8.data a_utf8.bytes a_i

/-- So many calls of `utf8_get` from an offset, each at the offset that the one
    before leads to: the codes read, with the offset after them. -/
def utf8_walk (a_utf8 : UTF8) : Nat → Nat → Except Stop (List Nat × Nat)
  | 0, ofs => .ok ([],ofs)
  | n + 1, ofs => do
    match ← utf8_get a_utf8 ofs with
    | some (code,bytes) =>
      let (codes,stop) ← utf8_walk a_utf8 n (ofs + bytes)
      .ok (code :: codes,stop)
    -- Neither the code nor its length is set.
    | none => .error .fault

/-! ### Reading one sequence -/

private theorem mask_two {b : Nat} (byte : b < 256) : 0xc0 = 0xe0 &&& b ↔ 0xc0 ≤ b ∧ b < 0xe0 := by
  have mask : 0xe0 &&& b = b / 0x20 % 0x08 * 0x20 := mid_bits 5 3 b
  omega

private theorem mask_three {b : Nat} (byte : b < 256) : 0xe0 = 0xf0 &&& b ↔ 0xe0 ≤ b ∧ b < 0xf0 := by
  have mask : 0xf0 &&& b = b / 0x10 % 0x10 * 0x10 := mid_bits 4 4 b
  omega

private theorem mask_four {b : Nat} (byte : b < 256) : 0xf0 = 0xf8 &&& b ↔ 0xf0 ≤ b ∧ b < 0xf8 := by
  have mask : 0xf8 &&& b = b / 0x08 % 0x20 * 0x08 := mid_bits 3 5 b
  omega

private theorem mask_tail (b : UInt8) : 0x80 ≠ 0xc0 &&& b.toNat ↔ ¬ Tail b := by
  have mask : 0xc0 &&& b.toNat = b.toNat / 0x40 % 0x04 * 0x40 := mid_bits 6 2 b.toNat
  have byte := b.toNat_lt
  unfold Tail
  omega

private theorem overlong_two (b : Nat) : 0 = 0x1e &&& b ↔ b % 0x20 < 2 := by
  have mask : 0x1e &&& b = b / 0x02 % 0x10 * 0x02 := mid_bits 1 4 b
  omega

private theorem next_three (b : Nat) : 0x20 &&& b = 0 ↔ b % 0x40 < 0x20 := by
  have mask : 0x20 &&& b = b / 0x20 % 0x02 * 0x20 := mid_bits 5 1 b
  omega

private theorem next_four (b : Nat) : 0x30 &&& b = 0 ↔ b % 0x40 < 0x10 := by
  have mask : 0x30 &&& b = b / 0x10 % 0x04 * 0x10 := mid_bits 4 2 b
  omega

private theorem zero_eq_or (a b : Nat) : 0 = a ||| b ↔ a = 0 ∧ b = 0 := by
  rw [eq_comm,Nat.or_eq_zero_iff]

private theorem and_07 (b : Nat) : 0x07 &&& b = b % 0x08 := low_bits 3 b
private theorem and_0f (b : Nat) : 0x0f &&& b = b % 0x10 := low_bits 4 b
private theorem and_1f (b : Nat) : 0x1f &&& b = b % 0x20 := low_bits 5 b
private theorem and_3f (b : Nat) : 0x3f &&& b = b % 0x40 := low_bits 6 b

private theorem code_two (a b : Nat) : (0x1f &&& a) <<< 6 ||| (0x3f &&& b) = a % 0x20 * 64 + b % 0x40 := by
  rw [and_1f,and_3f,join_bits 6 (show b % 0x40 < 2 ^ 6 by omega)]
  omega

private theorem code_three (a b c : Nat) : (0x0f &&& a) <<< 12 ||| (0x3f &&& b) <<< 6 ||| (0x3f &&& c) =
    a % 0x10 * 4096 + b % 0x40 * 64 + c % 0x40 := by
  rw [and_0f,and_3f,and_3f,Nat.or_assoc,join_bits 6 (show c % 0x40 < 2 ^ 6 by omega),
    join_bits 12 (by omega)]
  omega

private theorem code_four (a b c d : Nat) :
    (0x07 &&& a) <<< 18 ||| (0x3f &&& b) <<< 12 ||| (0x3f &&& c) <<< 6 ||| (0x3f &&& d) =
      a % 0x08 * 262144 + b % 0x40 * 4096 + c % 0x40 * 64 + d % 0x40 := by
  rw [and_07,and_3f,and_3f,and_3f,Nat.or_assoc,Nat.or_assoc,
    join_bits 6 (show d % 0x40 < 2 ^ 6 by omega),join_bits 12 (by omega),join_bits 18 (by omega)]
  omega

/-- The tests of the three branches for longer sequences leave those that the
    layout of `decode` has. -/
private theorem reject_two (a b : UInt8) (rest : List UInt8) :
    (2 > (a :: b :: rest).length ∨ 0x80 ≠ 0xc0 &&& b.toNat ∨ 0 = 0x1e &&& a.toNat) ↔
      ¬ (Tail b ∧ 0x80 ≤ a.toNat % 0x20 * 64 + b.toNat % 0x40) := by
  have long : ¬ 2 > (a :: b :: rest).length := by simp
  have overlong : a.toNat % 0x20 < 2 ↔ ¬ 0x80 ≤ a.toNat % 0x20 * 64 + b.toNat % 0x40 := by omega
  rw [mask_tail,overlong_two,overlong]
  tauto

private theorem reject_three (a b c : UInt8) (rest : List UInt8) :
    (3 > (a :: b :: c :: rest).length ∨ 0x80 ≠ 0xc0 &&& b.toNat ∨ 0x80 ≠ 0xc0 &&& c.toNat ∨
      0 = (0x0f &&& a.toNat) ||| (0x20 &&& b.toNat)) ↔
      ¬ (Tail b ∧ Tail c ∧ 0x800 ≤ a.toNat % 0x10 * 4096 + b.toNat % 0x40 * 64 + c.toNat % 0x40) := by
  have long : ¬ 3 > (a :: b :: c :: rest).length := by simp
  have overlong : a.toNat % 0x10 = 0 ∧ b.toNat % 0x40 < 0x20 ↔
      ¬ 0x800 ≤ a.toNat % 0x10 * 4096 + b.toNat % 0x40 * 64 + c.toNat % 0x40 := by omega
  rw [mask_tail,mask_tail,zero_eq_or,and_0f,next_three,overlong]
  tauto

private theorem reject_four (a b c d : UInt8) (rest : List UInt8) :
    (4 > (a :: b :: c :: d :: rest).length ∨ 0x80 ≠ 0xc0 &&& b.toNat ∨ 0x80 ≠ 0xc0 &&& c.toNat ∨
      0x80 ≠ 0xc0 &&& d.toNat ∨ 0 = (0x07 &&& a.toNat) ||| (0x30 &&& b.toNat)) ↔
      ¬ (Tail b ∧ Tail c ∧ Tail d ∧ 0x10000 ≤ a.toNat % 0x08 * 262144 + b.toNat % 0x40 * 4096 +
        c.toNat % 0x40 * 64 + d.toNat % 0x40) := by
  have long : ¬ 4 > (a :: b :: c :: d :: rest).length := by simp
  have overlong : a.toNat % 0x08 = 0 ∧ b.toNat % 0x40 < 0x10 ↔ ¬ 0x10000 ≤ a.toNat % 0x08 * 262144 +
      b.toNat % 0x40 * 4096 + c.toNat % 0x40 * 64 + d.toNat % 0x40 := by omega
  rw [mask_tail,mask_tail,mask_tail,zero_eq_or,and_07,next_four,overlong]
  tauto

/-- `get_code` decodes what is left of the string, and reads no byte behind it. -/
theorem get_code_eq {a_str : List UInt8} {a_bytes a_i : Nat} (inside : a_i < a_bytes)
    (fits : a_bytes ≤ a_str.length) :
    get_code a_str a_bytes a_i = .ok (decode ((a_str.take a_bytes).drop a_i)) := by
  have avail : a_bytes - a_i = ((a_str.take a_bytes).drop a_i).length := by simp; omega
  have reads : ∀ k, k < a_bytes - a_i → a_str.getD (a_i + k) 0 = ((a_str.take a_bytes).drop a_i).getD k 0 := by
    intro k bound
    simp only [List.getD_eq_getElem?_getD,List.getElem?_drop]
    rw [List.getElem?_take_of_lt (by omega)]
  have nonempty : 0 < a_bytes - a_i := by omega
  have r0 := reads 0
  have r1 := reads 1
  have r2 := reads 2
  have r3 := reads 3
  rw [get_code,if_neg (by omega)]
  simp only [avail] at nonempty r0 r1 r2 r3 ⊢
  generalize (a_str.take a_bytes).drop a_i = l at *
  generalize a_str.getD (a_i + 0) 0 = p0 at *
  generalize a_str.getD (a_i + 1) 0 = p1 at *
  generalize a_str.getD (a_i + 2) 0 = p2 at *
  generalize a_str.getD (a_i + 3) 0 = p3 at *
  cases l with
  | nil => simp at nonempty
  | cons a rest =>
    obtain rfl : p0 = a := r0 nonempty
    have byte := p0.toNat_lt
    simp only [decode,mask_two byte,mask_three byte,mask_four byte]
    by_cases ascii : p0.toNat < 0x80
    · rw [if_pos ascii,if_pos ascii]
    rw [if_neg ascii,if_neg ascii]
    by_cases two : 0xc0 ≤ p0.toNat ∧ p0.toNat < 0xe0
    · rw [if_pos two,if_pos two]
      cases rest with
      | nil => simp
      | cons b rest =>
        obtain rfl : p1 = b := r1 (by simp)
        simp only [reject_two,code_two,ite_not]
        split_ifs <;> rfl
    rw [if_neg two,if_neg two]
    by_cases three : 0xe0 ≤ p0.toNat ∧ p0.toNat < 0xf0
    · rw [if_pos three,if_pos three]
      rcases rest with _ | ⟨b,_ | ⟨c,rest⟩⟩
      · simp
      · simp
      · obtain rfl : p1 = b := r1 (by simp)
        obtain rfl : p2 = c := r2 (by simp)
        simp only [reject_three,code_three,ite_not]
        by_cases shape : Tail p1 ∧ Tail p2 ∧ 0x800 ≤ p0.toNat % 0x10 * 4096 + p1.toNat % 0x40 * 64 + p2.toNat % 0x40
        · simp only [shape,true_and,if_true,ite_not]
          split_ifs <;> rfl
        · simp only [shape,false_and,if_false]
    rw [if_neg three,if_neg three]
    by_cases four : 0xf0 ≤ p0.toNat ∧ p0.toNat < 0xf8
    · rw [if_pos four,if_pos four]
      rcases rest with _ | ⟨b,_ | ⟨c,_ | ⟨d,rest⟩⟩⟩
      · simp
      · simp
      · simp
      · obtain rfl : p1 = b := r1 (by simp)
        obtain rfl : p2 = c := r2 (by simp)
        obtain rfl : p3 = d := r3 (by simp)
        simp only [reject_four,code_four,ite_not]
        split_ifs <;> rfl
    rw [if_neg four,if_neg four]

/-- At the start of a sequence, `get_code` gives its code point and length. -/
theorem get_code_coded {a_str rest : List UInt8} {a_bytes a_i c : Nat} (fits : a_bytes ≤ a_str.length)
    (encodable : Encodable c) (left : (a_str.take a_bytes).drop a_i = encode c ++ rest) :
    get_code a_str a_bytes a_i = .ok (some (c,(encode c).length)) := by
  have inside : a_i < a_bytes := by
    have size := congrArg List.length left
    have positive := encode_length_pos c
    simp only [List.length_drop,List.length_take,List.length_append] at size
    omega
  rw [get_code_eq inside fits,left,decode_encode encodable]

/-- At a byte where no sequence starts, `get_code` fails. -/
theorem get_code_junk {a_str rest : List UInt8} {a_bytes a_i : Nat} {a : UInt8} (fits : a_bytes ≤ a_str.length)
    (left : (a_str.take a_bytes).drop a_i = a :: rest) (unreadable : ∀ c, Rfc3629.Encodable c → ¬ encode c <+: a :: rest) :
    get_code a_str a_bytes a_i = .ok none := by
  have inside : a_i < a_bytes := by
    have size := congrArg List.length left
    simp only [List.length_drop,List.length_take,List.length_cons] at size
    omega
  rw [get_code_eq inside fits,left,decode_none_iff.mpr unreadable]

/-! ### The two passes of `utf8_create` -/

/-- The code points that `utf8_create` leaves in its copy. -/
def codes (segs : List (Segment Nat UInt8)) : List Nat := segs.map (Segment.repair 0xfffd)

/-- The bytes that `utf8_create` writes for the segments of a string. -/
def text (segs : List (Segment Nat UInt8)) : List UInt8 := (codes segs).flatMap encode

/-- How many segments `utf8_create` replaces. -/
def replacements (segs : List (Segment Nat UInt8)) : Nat := segs.countP Segment.isJunk

/-- The copy that `utf8_create` makes of a string with these segments. -/
def created (segs : List (Segment Nat UInt8)) : UTF8 where
  replacement_num := UInt32.ofNat (replacements segs)
  length := segs.length
  bytes := (text segs).length
  data := text segs ++ [0]

private theorem text_coded (c : Nat) (segs : List (Segment Nat UInt8)) :
    text (.coded c :: segs) = encode c ++ text segs := rfl

private theorem text_junk (a : UInt8) (segs : List (Segment Nat UInt8)) :
    text (.junk a :: segs) = [0xef,0xbf,0xbd] ++ text segs := by
  have replacement : encode 0xfffd = [0xef,0xbf,0xbd] := by decide
  rw [← replacement]
  rfl

private theorem replacements_junk (a : UInt8) (segs : List (Segment Nat UInt8)) :
    replacements (.junk a :: segs) = 1 + replacements segs := by
  rw [replacements,List.countP_cons_of_pos rfl,Nat.add_comm]
  rfl

/-- Nothing changes in a text that has only sequences. -/
theorem codes_coded (cs : List Nat) : codes (cs.map .coded) = cs := by
  rw [codes,List.map_map]
  exact List.map_id _

theorem replacements_coded (cs : List Nat) : replacements (cs.map .coded) = 0 := by
  simp [replacements,Segment.isJunk]

section
variable {a_str : List UInt8} {a_bytes : Nat} {segs : List (Segment Nat UInt8)}

private theorem codes_encodable (cut : Segments encode Encodable a_str segs) : ∀ c ∈ codes segs, Encodable c :=
  repair_accepted cut ⟨by decide,by decide⟩

private theorem left_inside {a b : List UInt8} {i : Nat} (left : (a_str.take a_bytes).drop i = a ++ b)
    (some' : a ≠ []) :
    a_bytes > i ∧ (a_str.take a_bytes).drop (i + a.length) = b ∧ (a_str.drop i).take a.length = a := by
  have size := congrArg List.length left
  have positive := List.length_pos_iff.mpr some'
  simp only [List.length_drop,List.length_take,List.length_append] at size
  refine ⟨by omega,?_,?_⟩
  · rw [← List.drop_drop,left,List.drop_left]
  · have inside : (a_str.drop i).take a.length = ((a_str.take a_bytes).drop i).take a.length := by
      rw [List.drop_take,List.take_take,Nat.min_eq_left (by omega)]
    rw [inside,left,List.take_left]

private theorem left_over {i : Nat} (fits : a_bytes ≤ a_str.length) (left : (a_str.take a_bytes).drop i = []) :
    ¬ a_bytes > i := by
  have size := List.drop_eq_nil_iff.mp left
  rw [List.length_take] at size
  omega

/-- The first pass counts the segments and the bytes of the copy. -/
private theorem create_size_run (fits : a_bytes ≤ a_str.length) {l : List UInt8}
    (cut : Segments encode Encodable l segs) :
    ∀ fuel i utf8_len utf8_bytes, (a_str.take a_bytes).drop i = l → segs.length < fuel →
      create_size a_str a_bytes fuel i utf8_len utf8_bytes =
        .ok (utf8_len + segs.length,utf8_bytes + (text segs).length) := by
  induction cut with
  | nil =>
    intro fuel i utf8_len utf8_bytes left enough
    obtain ⟨fuel,rfl⟩ : ∃ n, fuel = n + 1 := ⟨fuel - 1,by omega⟩
    rw [create_size,if_neg (left_over fits left)]
    rfl
  | @coded c l segs encodable rest ih =>
    intro fuel i utf8_len utf8_bytes left enough
    obtain ⟨fuel,rfl⟩ : ∃ n, fuel = n + 1 := ⟨fuel - 1,by omega⟩
    obtain ⟨inside,after,_⟩ := left_inside left (encode_prefixFree.nonempty c encodable)
    have read := get_code_coded fits encodable left
    rw [create_size,if_pos inside,read]
    simp only [List.length_cons] at enough
    show create_size a_str a_bytes fuel (i + (encode c).length) (utf8_len + 1) (utf8_bytes + (encode c).length) = _
    rw [ih fuel _ _ _ after (by omega),text_coded,List.length_append,List.length_cons]
    congr 2 <;> omega
  | @junk a l segs unreadable rest ih =>
    intro fuel i utf8_len utf8_bytes left enough
    obtain ⟨fuel,rfl⟩ : ∃ n, fuel = n + 1 := ⟨fuel - 1,by omega⟩
    obtain ⟨inside,(after : (a_str.take a_bytes).drop (i + 1) = l),_⟩ := left_inside (a := [a]) left (by simp)
    have read := get_code_junk fits left unreadable
    rw [create_size,if_pos inside,read]
    simp only [List.length_cons] at enough
    show create_size a_str a_bytes fuel (i + 1) (utf8_len + 1) (utf8_bytes + 3) = _
    rw [ih fuel _ _ _ after (by omega),text_junk,List.length_append,List.length_cons]
    simp only [List.length_cons,List.length_nil]
    congr 2 <;> omega

/-- The second pass writes the copy, when there is room for it. -/
private theorem create_write_run {room : Nat} (fits : a_bytes ≤ a_str.length) {l : List UInt8}
    (cut : Segments encode Encodable l segs) :
    ∀ fuel i dst replacement_num, (a_str.take a_bytes).drop i = l → segs.length < fuel →
      dst.length + (text segs).length ≤ room →
      create_write a_str a_bytes room fuel i dst replacement_num =
        .ok (dst ++ text segs,replacement_num + UInt32.ofNat (replacements segs)) := by
  induction cut with
  | nil =>
    intro fuel i dst replacement_num left enough _
    obtain ⟨fuel,rfl⟩ : ∃ n, fuel = n + 1 := ⟨fuel - 1,by omega⟩
    rw [create_write,if_neg (left_over fits left)]
    simp [text,codes,replacements]
  | @coded c l segs encodable rest ih =>
    intro fuel i dst replacement_num left enough roomy
    obtain ⟨fuel,rfl⟩ : ∃ n, fuel = n + 1 := ⟨fuel - 1,by omega⟩
    obtain ⟨inside,after,here⟩ := left_inside left (encode_prefixFree.nonempty c encodable)
    have read := get_code_coded fits encodable left
    simp only [List.length_cons,text_coded,List.length_append] at enough roomy
    rw [create_write,if_pos inside,read]
    show (do
      let dst ← store room dst ((a_str.drop i).take (encode c).length)
      create_write a_str a_bytes room fuel (i + (encode c).length) dst replacement_num) = _
    rw [here,store,if_pos (by omega)]
    show create_write a_str a_bytes room fuel (i + (encode c).length) (dst ++ encode c) replacement_num = _
    rw [ih fuel _ _ _ after (by omega) (by rw [List.length_append]; omega),text_coded,List.append_assoc]
    simp [replacements,Segment.isJunk]
  | @junk a l segs unreadable rest ih =>
    intro fuel i dst replacement_num left enough roomy
    obtain ⟨fuel,rfl⟩ : ∃ n, fuel = n + 1 := ⟨fuel - 1,by omega⟩
    obtain ⟨inside,(after : (a_str.take a_bytes).drop (i + 1) = l),_⟩ := left_inside (a := [a]) left (by simp)
    have read := get_code_junk fits left unreadable
    simp only [List.length_cons,text_junk,List.length_append,List.length_nil] at enough roomy
    rw [create_write,if_pos inside,read]
    show (do
      let dst ← store room dst [0xef,0xbf,0xbd]
      create_write a_str a_bytes room fuel (i + 1) dst (replacement_num + 1)) = _
    rw [store,if_pos (by simp only [List.length_cons,List.length_nil]; omega)]
    show create_write a_str a_bytes room fuel (i + 1) (dst ++ [0xef,0xbf,0xbd]) (replacement_num + 1) = _
    rw [ih fuel _ _ _ after (by omega) (by simp only [List.length_append,List.length_cons,List.length_nil]; omega),
      text_junk,List.append_assoc,replacements_junk,UInt32.ofNat_add,UInt32.add_assoc]
    rfl

/-- What `utf8_create` returns, from the cut of the string. The second pass fits
    the allocation of the first one. -/
theorem utf8_create_eq (fits : a_bytes ≤ a_str.length) (cut : Segments encode Encodable (a_str.take a_bytes) segs) :
    utf8_create a_str a_bytes = .ok (created segs) := by
  have enough : segs.length < a_bytes + 1 := by
    have size := segments_length encode_prefixFree.nonempty cut
    rw [List.length_take] at size
    omega
  have sized := create_size_run fits cut (a_bytes + 1) 0 0 0 rfl enough
  have written := create_write_run fits cut (a_bytes + 1) 0 [] 0 rfl enough
    (show _ ≤ (text segs).length + 1 by simp)
  simp only [Nat.zero_add,List.nil_append] at sized written
  rw [utf8_create,sized]
  simp only [bind,Except.bind]
  rw [written]
  simp [store,created]

/-- Every string has a cut, and `utf8_create` follows it. -/
theorem utf8_create_total (s : List UInt8) :
    ∃ segs, Segments encode Encodable s segs ∧ utf8_create s s.length = .ok (created segs) := by
  obtain ⟨segs,cut⟩ := segments_exist (P := Encodable) encode_prefixFree.nonempty s
  exact ⟨segs,cut,utf8_create_eq le_rfl (by rw [List.take_length]; exact cut)⟩

/-- Reading the sequences of a text one after the other gives its codes. -/
theorem utf8_walk_codes (u : UTF8) {cs : List Nat} (encodable : ∀ c ∈ cs, Encodable c)
    (fits : u.bytes ≤ u.data.length) (ofs : Nat) (left : (u.data.take u.bytes).drop ofs = cs.flatMap encode) :
    utf8_walk u cs.length ofs = .ok (cs,ofs + (cs.flatMap encode).length) := by
  induction cs generalizing ofs with
  | nil => simp [utf8_walk]
  | cons c cs ih =>
    rw [List.flatMap_cons] at left
    have read := get_code_coded fits (encodable c (by simp)) left
    have after : (u.data.take u.bytes).drop (ofs + (encode c).length) = cs.flatMap encode := by
      rw [← List.drop_drop,left,List.drop_left]
    have tail := ih (fun d member => encodable d (by simp [member])) _ after
    rw [List.length_cons,utf8_walk,utf8_get,read]
    simp only [bind,Except.bind,tail,List.flatMap_cons,List.length_append,Nat.add_assoc]

/-- The copy reads back as its codes, up to its last byte. -/
theorem utf8_walk_created (cut : Segments encode Encodable a_str segs) :
    utf8_walk (created segs) (created segs).length 0 = .ok (codes segs,(created segs).bytes) := by
  have walked := utf8_walk_codes (created segs) (codes_encodable cut) (by simp [created]) 0
    (by simp [created,text])
  rw [Nat.zero_add,codes,List.length_map] at walked
  exact walked

end

/-! ### What `utf8_create` gives -/

/-- The shortest-form text of Unicode scalar values is stored as it is, and
    reading it back gives these values and ends behind the last byte. -/
theorem utf8_create_scalars (chars : List Char) :
    ∃ u, utf8_create (chars.flatMap String.utf8EncodeChar) (chars.flatMap String.utf8EncodeChar).length = .ok u ∧
      u.replacement_num = 0 ∧ u.length = chars.length ∧ u.bytes = (chars.flatMap String.utf8EncodeChar).length ∧
      u.data = chars.flatMap String.utf8EncodeChar ++ [0] ∧
      utf8_walk u chars.length 0 = .ok (chars.map Char.toNat,u.bytes) := by
  have encodable : ∀ c ∈ chars.map Char.toNat, Encodable c := by
    intro c member
    obtain ⟨ch,_,rfl⟩ := List.mem_map.mp member
    exact encodable_of_scalar (scalar_char ch)
  have layout : chars.flatMap String.utf8EncodeChar = (chars.map Char.toNat).flatMap encode := by
    rw [List.flatMap_map]
    rfl
  have cut : Segments encode Encodable _ _ := segments_words (chars.map Char.toNat) encodable
  have kept : text ((chars.map Char.toNat).map .coded) = (chars.map Char.toNat).flatMap encode := by
    rw [text,codes_coded]
  have walked := utf8_walk_created cut
  rw [codes_coded] at walked
  rw [layout]
  refine ⟨created ((chars.map Char.toNat).map .coded),utf8_create_eq le_rfl (by rw [List.take_length]; exact cut),
    ?_,?_,?_,?_,?_⟩
  · rw [created,replacements_coded]; rfl
  · simp [created]
  · rw [created,kept]
  · rw [created,kept]
  · simpa [created] using walked

/-- The copy is stored in exactly the bytes that the first pass has counted, it
    reads back in as many steps as the first pass has counted, and creating it
    again changes nothing. -/
theorem utf8_create_settles (s : List UInt8) :
    ∃ u, utf8_create s s.length = .ok u ∧ u.data.length = u.bytes + 1 ∧ u.data[u.bytes]? = some 0 ∧
      (∃ read, utf8_walk u u.length 0 = .ok (read,u.bytes)) ∧
      utf8_create u.data u.bytes = .ok { u with replacement_num := 0 } := by
  obtain ⟨segs,cut,run⟩ := utf8_create_total s
  have again : Segments encode Encodable ((created segs).data.take (created segs).bytes) ((codes segs).map .coded) := by
    rw [created,List.take_left]
    exact segments_words _ (codes_encodable cut)
  refine ⟨created segs,run,by simp [created],by simp [created],⟨codes segs,utf8_walk_created cut⟩,?_⟩
  have size : (codes segs).length = segs.length := List.length_map _
  rw [utf8_create_eq (by simp [created]) again]
  simp only [created,text,codes_coded,replacements_coded,List.length_map,size]
  rfl

/-! ### Concatenation -/

/-- Every byte of a string is in a sequence that `get_code` reads, so that none
    is replaced. -/
def Unreplaced (s : List UInt8) : Prop := ∃ cs : List Nat, (∀ c ∈ cs, Encodable c) ∧ s = cs.flatMap encode

section
variable {a b : List UInt8} {segs other : List (Segment Nat UInt8)}

theorem text_append (segs other : List (Segment Nat UInt8)) : text (segs ++ other) = text segs ++ text other := by
  simp [text,codes]

theorem replacements_append (segs other : List (Segment Nat UInt8)) :
    replacements (segs ++ other) = replacements segs + replacements other := by
  simp [replacements]

/-- Concatenation puts the segments of its arguments one behind the other. -/
theorem utf8_concat_created (segs other : List (Segment Nat UInt8)) :
    utf8_concat (created segs) (created other) = .ok (created (segs ++ other)) := by
  have held : ∀ segs : List (Segment Nat UInt8), (created segs).bytes = (text segs).length := fun _ => rfl
  have copied : ∀ segs : List (Segment Nat UInt8), (created segs).data.take (text segs).length = text segs := by
    intro segs
    rw [created,List.take_left]
  rw [utf8_concat,if_neg (by simp [created])]
  simp only [held,copied,store,List.nil_append,List.length_nil,Nat.zero_add,bind,Except.bind]
  rw [if_pos (by omega)]
  simp only [List.length_cons,List.length_nil]
  rw [if_pos (by omega)]
  simp [created,text_append,replacements_append]

/-- A replacement is two bytes longer than what it replaces. -/
theorem text_length (cut : Segments encode Encodable a segs) : (text segs).length = a.length + 2 * replacements segs := by
  induction cut with
  | nil => rfl
  | @coded c l segs encodable rest ih =>
    rw [text_coded,List.length_append,List.length_append,ih,replacements,replacements,
      List.countP_cons_of_neg (by simp [Segment.isJunk]),Nat.add_assoc]
  | @junk byte l segs unreadable rest ih =>
    rw [text_junk,List.length_append,ih,replacements_junk]
    simp only [List.length_cons,List.length_nil]
    omega

theorem unreplaced_iff (cut : Segments encode Encodable a segs) : Unreplaced a ↔ replacements segs = 0 := by
  constructor
  · rintro ⟨cs,encodable,rfl⟩
    rw [segments_unique encode_prefixFree cut (segments_words cs encodable)]
    exact replacements_coded cs
  · intro none
    obtain ⟨cs,encodable,_,same⟩ := segments_no_junk cut none
    exact ⟨cs,encodable,same⟩

/-- A string needs no replacement exactly where its copy has the same bytes. -/
theorem unreplaced_iff_kept (cut : Segments encode Encodable a segs) : Unreplaced a ↔ (created segs).data = a ++ [0] := by
  constructor
  · rintro ⟨cs,encodable,rfl⟩
    rw [segments_unique encode_prefixFree cut (segments_words cs encodable)]
    simp only [created,text,codes_coded]
  · intro kept
    have size := congrArg List.length (List.append_cancel_right kept)
    rw [text_length cut] at size
    exact (unreplaced_iff cut).mpr (by omega)

/-- Where the counter does not wrap around, it is zero. -/
theorem unreplaced_iff_counted (cut : Segments encode Encodable a segs) (short : a.length < 2 ^ 32) :
    Unreplaced a ↔ (created segs).replacement_num = 0 := by
  have few : replacements segs ≤ segs.length := List.countP_le_length
  have size := segments_length encode_prefixFree.nonempty cut
  rw [unreplaced_iff cut,created,← UInt32.toNat_inj,UInt32.toNat_ofNat_of_lt' (by simp [UInt32.size]; omega)]
  rfl

end

/-- The concatenation of two copies is the copy of their bytes one behind the
    other, and where the first string needs no replacement it is the copy of the
    strings one behind the other. -/
theorem utf8_concat_create (a b : List UInt8) :
    ∃ ua ub u, utf8_create a a.length = .ok ua ∧ utf8_create b b.length = .ok ub ∧ utf8_concat ua ub = .ok u ∧
      (let joined := ua.data.take ua.bytes ++ ub.data.take ub.bytes
      ∃ w, utf8_create joined joined.length = .ok w ∧ u.data = w.data ∧ u.bytes = w.bytes ∧ u.length = w.length) ∧
      (Unreplaced a → utf8_create (a ++ b) (a ++ b).length = .ok u) ∧
      (Unreplaced a ↔ ua.data = a ++ [0]) ∧ (a.length < 2 ^ 32 → (Unreplaced a ↔ ua.replacement_num = 0)) := by
  obtain ⟨segs,cut,run⟩ := utf8_create_total a
  obtain ⟨other,cut',run'⟩ := utf8_create_total b
  refine ⟨_,_,_,run,run',utf8_concat_created segs other,?_,?_,unreplaced_iff_kept cut,unreplaced_iff_counted cut⟩
  · have joined : (created segs).data.take (created segs).bytes ++ (created other).data.take (created other).bytes =
        (codes (segs ++ other)).flatMap encode := by
      simp [created,text,codes]
    have encodable : ∀ c ∈ codes (segs ++ other), Encodable c := by
      rw [codes,List.map_append]
      intro c member
      rcases List.mem_append.mp member with left | right
      · exact codes_encodable cut c left
      · exact codes_encodable cut' c right
    simp only [joined]
    refine ⟨_,utf8_create_eq le_rfl (by rw [List.take_length]; exact segments_words _ encodable),?_,?_,?_⟩
    · simp only [created,text,codes_coded]
    · simp only [created,text,codes_coded]
    · simp [created,codes]
  · rintro ⟨cs,encodable,rfl⟩
    have same := segments_unique encode_prefixFree cut (segments_words cs encodable)
    rw [utf8_create_eq le_rfl (by rw [List.take_length]; exact segments_append_words encodable cut'),same]

/-! ### Conformance to RFC 3629 -/

end Htools.Utf8
