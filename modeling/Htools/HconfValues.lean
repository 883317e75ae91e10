import Htools.HconfOrder
import Htools.ConfigNumbers
import Mathlib.Data.Set.Finite.Lemmas

/-!
The number that a macro gets. `merge` keeps the greatest `-D` flag of a name in the
order of `strcmp`, which reads numbers from their first digit on, so that it is the
flag with the largest number where no number is above the leading digits of the
largest one (`merge_lists_largest_iff`).
-/
namespace Htools.HconfMerge
open Htools.Lexing Htools.ConfigFile Htools.CString Htools.Selection VariableEnum

/-! ### Numbers in the order of texts -/

theorem digit_value_code {c : Int8} (digit : isdigit c.toInt = true) : c.toUInt8.toNat = digit_value c.toInt + 48 := by
  rw [digit_value,if_pos digit,show chr '0' = 48 from rfl]
  obtain ⟨low,_⟩ := of_decide_eq_true digit
  rw [show chr '0' = 48 from rfl] at low
  have nonneg : (0 : Int8) ≤ c := by
    rw [Int8.le_iff_toInt_le,show (0 : Int8).toInt = 0 from rfl]
    omega
  rw [Int8.toNat_toUInt8_of_le nonneg,Int8.toNatClampNeg]
  omega

/-- The first digit that differs is the one that counts. -/
theorem strcmp_digits {w v : List Int8} (digits : Digits w) (more : Digits v) (fits : w.length ≤ v.length) :
    strcmp w v ≤ 0 ↔ digits_value 10 0 w ≤ digits_value 10 0 (v.take w.length) := by
  induction w generalizing v with
  | nil => cases v <;> simp [strcmp,digits_value]
  | cons c w ih =>
    cases v with
    | nil => cases fits
    | cons d v =>
      have c_digit := digits c List.mem_cons_self
      have d_digit := more d List.mem_cons_self
      have digits' : Digits w := fun e there => digits e (List.mem_cons_of_mem c there)
      have more' : Digits v := fun e there => more e (List.mem_cons_of_mem d there)
      have short : w.length ≤ v.length := Nat.le_of_succ_le_succ fits
      have front : Digits (v.take w.length) := fun e there => more' e (List.mem_of_mem_take there)
      have size : (v.take w.length).length = w.length := List.length_take_of_le short
      have less := digits_value_less digits'
      have less' := digits_value_less front
      have value_c := digit_value_code c_digit
      have value_d := digit_value_code d_digit
      rw [List.length_cons,List.take_succ_cons,digits_value,digits_value,if_pos (digit_inside c_digit),
        if_pos (digit_inside d_digit),digits_value_shift digits',digits_value_shift front,size,strcmp,Nat.zero_mul,Nat.zero_add,Nat.zero_add]
      rw [size] at less'
      by_cases same : c = d
      · subst same
        rw [if_pos rfl,ih digits' more' short]
        omega
      · rw [if_neg same]
        have apart : digit_value c.toInt ≠ digit_value d.toInt := fun equal => same (unsigned_inj (by omega))
        generalize digit_value c.toInt = a at *
        generalize digit_value d.toInt = b at *
        rcases Nat.lt_or_gt_of_ne apart with below | above
        · have scaled : (a + 1) * 10 ^ w.length ≤ b * 10 ^ w.length := Nat.mul_le_mul_right _ below
          rw [Nat.add_mul] at scaled
          constructor
          · intro _
            omega
          · intro _
            omega
        · have scaled : (b + 1) * 10 ^ w.length ≤ a * 10 ^ w.length := Nat.mul_le_mul_right _ above
          rw [Nat.add_mul] at scaled
          constructor
          · intro _
            omega
          · intro _
            omega

/-- The number of digits. -/
def digit_count (v : Nat) : Nat := (digit_chars v).length

theorem digit_count_le_iff {v k : Nat} (some_ : 0 < k) : digit_count v ≤ k ↔ v < 10 ^ k := by
  rw [digit_count,digit_chars,List.length_map]
  exact Nat.length_toDigits_le_iff (by decide) some_

theorem digit_count_pos (v : Nat) : 0 < digit_count v := List.length_pos_iff.mpr (digit_chars_some v)

theorem digit_count_mono {v m : Nat} (le : v ≤ m) : digit_count v ≤ digit_count m := by
  have less : m < 10 ^ digit_count m := (digit_count_le_iff (digit_count_pos m)).mp (Nat.le_refl _)
  exact (digit_count_le_iff (digit_count_pos m)).mpr (by omega)

/-- A number is not behind a larger one where it is not above as many leading digits of it. -/
theorem strcmp_numbers {v m : Nat} (le : v ≤ m) :
    strcmp (digit_chars v) (digit_chars m) ≤ 0 ↔ v ≤ m / 10 ^ (digit_count m - digit_count v) := by
  obtain ⟨v_digits,v_value⟩ := digit_chars_value v
  obtain ⟨m_digits,m_value⟩ := digit_chars_value m
  have short : (digit_chars v).length ≤ (digit_chars m).length := digit_count_mono le
  have front : Digits ((digit_chars m).take (digit_count v)) := fun c there => m_digits c (List.mem_of_mem_take there)
  have behind : Digits ((digit_chars m).drop (digit_count v)) := fun c there => m_digits c (List.mem_of_mem_drop there)
  have leading := drop_digits front behind 0
  rw [List.take_append_drop,m_value,List.length_drop,Nat.add_zero,pow_zero,Nat.div_one] at leading
  rw [strcmp_digits v_digits m_digits short,v_value,digit_count,leading]
  rfl

/-! ### Flags with numbers -/

/-- The flag that defines a macro as a number. -/
def numbered (name : List Int8) (v : Nat) : List Int8 := lit "-D" ++ (name ++ (lit "=" ++ digit_chars v))

/-- Each `-D` flag of a macro defines it as a number. -/
def Numbered (flags : List (List Int8)) (name : List Int8) : Prop :=
  ∀ flag ∈ flags,Define flag → macro_name flag = name → ∃ v,flag = numbered name v

/-- One `-D` flag of the macro is written, that with the largest number. -/
def KeepsLargest (flags : List (List Int8)) (name : List Int8) (left : List (List Int8)) : Prop :=
  ∃ largest,(left.filter fun flag => Define flag ∧ macro_name flag = name) = [numbered name largest] ∧
    ∀ v,numbered name v ∈ flags → v ≤ largest

/-- No number of the macro is above the number that as many leading digits of the largest one make. -/
def Leading (flags : List (List Int8)) (name : List Int8) : Prop :=
  ∀ largest,numbered name largest ∈ flags → (∀ v,numbered name v ∈ flags → v ≤ largest) →
    ∀ v,numbered name v ∈ flags → v ≤ largest / 10 ^ (digit_count largest - digit_count v)

theorem strcmp_append (l w v : List Int8) : strcmp (l ++ w) (l ++ v) = strcmp w v := by
  induction l with
  | nil => rfl
  | cons c l ih => rw [List.cons_append,List.cons_append,strcmp,if_pos rfl,ih]

theorem strcmp_numbered (name : List Int8) (v m : Nat) :
    strcmp (numbered name v) (numbered name m) = strcmp (digit_chars v) (digit_chars m) := by
  rw [numbered,numbered,strcmp_append,strcmp_append,strcmp_append]

theorem digit_chars_inj {v m : Nat} (same : digit_chars v = digit_chars m) : v = m := by
  rw [← (digit_chars_value v).2,same,(digit_chars_value m).2]

theorem macro_key_name_iff {flag name : List Int8} :
    macro_key flag = lit "-D" ++ name ↔ Define flag ∧ macro_name flag = name := by
  constructor
  · intro same
    have define : Define flag := by
      rw [← define_key,same]
      exact List.prefix_append _ _
    rw [macro_key_define define] at same
    exact ⟨define,List.append_cancel_left same⟩
  · rintro ⟨define,rfl⟩
    exact macro_key_define define

theorem macro_name_word (flag : List Int8) : ∀ c ∈ macro_name flag,chr '_' = c.toInt ∨ isalnum c.toInt := by
  intro c there
  have word := List.mem_takeWhile_imp there
  exact of_decide_eq_true word

/-- What begins with `-D`, the name and `=` defines the macro. -/
theorem assigns_name {flag name : List Int8} (word : ∀ c ∈ name,chr '_' = c.toInt ∨ isalnum c.toInt)
    (start : lit "-D" ++ (name ++ lit "=") <+: flag) : macro_key flag = lit "-D" ++ name := by
  obtain ⟨rest,rfl⟩ := start
  refine macro_key_name_iff.mpr ⟨?_,?_⟩
  · rw [List.append_assoc]
    exact List.prefix_append _ _
  · have after : (lit "-D" ++ (name ++ lit "=") ++ rest).drop 2 = name ++ (lit "=" ++ rest) := by
      rw [List.append_assoc,List.append_assoc]
      rfl
    rw [macro_name,after,List.takeWhile_append_of_pos fun c there => decide_eq_true (word c there)]
    exact List.append_nil name

theorem numbered_inj (name : List Int8) : Function.Injective (numbered name) := by
  intro v m same
  unfold numbered at same
  exact digit_chars_inj (List.append_cancel_left (List.append_cancel_left (List.append_cancel_left same)))

section
variable {flags : List (List Int8)} {name : List Int8}

theorem sorted_key {a : Flag} (there : a ∈ sorted_flags flags) (key : flag_key a = lit "-D" ++ name) :
    a.1 ∈ flags ∧ Define a.1 ∧ macro_name a.1 = name :=
  ⟨sorted_flags_mem.mpr ⟨a.2,there⟩,macro_key_name_iff.mp key⟩

/-- The flags of a macro stand together in the sorted list. -/
theorem numbered_together (all : Numbered flags name) {a b c : Flag} (within : [a,b,c].Sublist (sorted_flags flags))
    (a_key : flag_key a = lit "-D" ++ name) (c_key : flag_key c = lit "-D" ++ name) : flag_key b = lit "-D" ++ name := by
  have sorted : (sorted_flags flags).Pairwise Smaller :=
    (sorted_flags_before flags).imp fun before => Before.to_le smaller_ranking before
  obtain ⟨first,tail⟩ := List.pairwise_cons.mp (sorted.sublist within)
  have a_b := first b List.mem_cons_self
  have b_c := (List.pairwise_cons.mp tail).1 c List.mem_cons_self
  obtain ⟨a_there,a_define,a_name⟩ := sorted_key (within.mem (by simp)) a_key
  obtain ⟨c_there,c_define,c_name⟩ := sorted_key (within.mem (by simp)) c_key
  have starts {flag : List Int8} (there : flag ∈ flags) (define : Define flag) (is : macro_name flag = name) :
      lit "-D" ++ (name ++ lit "=") <+: flag := by
    obtain ⟨v,rfl⟩ := all flag there define is
    rw [numbered,← List.append_assoc name,← List.append_assoc]
    exact List.prefix_append _ _
  exact assigns_name (a_name ▸ macro_name_word a.1)
    (prefix_between (starts a_there a_define a_name) (starts c_there c_define c_name) a_b b_c)

/-- The flag of the macro that is left is the greatest one as a text. -/
theorem numbered_left (all : Numbered flags name) (some_ : ∃ flag ∈ flags,Define flag ∧ macro_name flag = name) :
    ∃ left,((left_over flags).map Prod.fst).filter (fun flag => Define flag ∧ macro_name flag = name) = [numbered name left] ∧
      numbered name left ∈ flags ∧ ∀ v,numbered name v ∈ flags → strcmp (digit_chars v) (digit_chars left) ≤ 0 := by
  have sorted : (sorted_flags flags).Pairwise Smaller :=
    (sorted_flags_before flags).imp fun before => Before.to_le smaller_ranking before
  have runs := last_of_runs_filter flag_key (lit "-D" ++ name) (sorted_flags flags) fun a b c => numbered_together all
  have key_of {flag : List Int8} (define : Define flag) (is : macro_name flag = name) : macro_key flag = lit "-D" ++ name :=
    macro_key_name_iff.mpr ⟨define,is⟩
  obtain ⟨flag,there,define,is⟩ := some_
  obtain ⟨place,placed⟩ := sorted_flags_mem.mp there
  have found : (flag,place) ∈ (sorted_flags flags).filter fun a => flag_key a = lit "-D" ++ name :=
    List.mem_filter.mpr ⟨placed,decide_eq_true (key_of define is)⟩
  rcases List.eq_nil_or_concat ((sorted_flags flags).filter fun a => flag_key a = lit "-D" ++ name) with none | ⟨front,last,split⟩
  · rw [none] at found
    cases found
  rw [List.concat_eq_append] at split
  have last_there : last ∈ (sorted_flags flags).filter fun a => flag_key a = lit "-D" ++ name := by
    rw [split]
    exact List.mem_concat_self
  obtain ⟨last_sorted,last_key⟩ := List.mem_filter.mp last_there
  obtain ⟨last_member,last_define,last_name⟩ := sorted_key last_sorted (of_decide_eq_true last_key)
  obtain ⟨left,last_is⟩ := all last.1 last_member last_define last_name
  refine ⟨left,?_,last_is ▸ last_member,fun v member => ?_⟩
  · apply List.perm_singleton.mp
    have perm := (merge_cppflags_perm flags).filter fun flag => Define flag ∧ macro_name flag = name
    have same (l : List Flag) : (l.map Prod.fst).filter (fun flag => Define flag ∧ macro_name flag = name) =
        (l.filter fun a => flag_key a = lit "-D" ++ name).map Prod.fst := by
      rw [List.filter_map]
      congr 1
      apply List.filter_congr
      intro a _
      exact decide_eq_decide.mpr macro_key_name_iff.symm
    rw [same,runs,split,List.getLast?_concat] at perm
    rw [← last_is]
    exact perm
  · have key : macro_key (numbered name v) = lit "-D" ++ name := by
      refine assigns_name (is ▸ macro_name_word flag) ?_
      rw [numbered,← List.append_assoc name,← List.append_assoc]
      exact List.prefix_append _ _
    obtain ⟨v_place,v_placed⟩ := sorted_flags_mem.mp member
    have v_found : (numbered name v,v_place) ∈ (sorted_flags flags).filter fun a => flag_key a = lit "-D" ++ name :=
      List.mem_filter.mpr ⟨v_placed,decide_eq_true key⟩
    have below : Smaller (numbered name v,v_place) last := by
      have ordered := sorted.filter fun a => flag_key a = lit "-D" ++ name
      rw [split] at ordered v_found
      rcases List.mem_append.mp v_found with ahead | here
      · exact (List.pairwise_append.mp ordered).2.2 _ ahead last List.mem_cons_self
      · rw [List.mem_singleton.mp here]
        exact le_of_eq (strcmp_self _)
    have compared : strcmp (numbered name v) last.1 ≤ 0 := below
    rwa [last_is,strcmp_numbered] at compared

theorem keeps_largest_iff (all : Numbered flags name) (some_ : ∃ flag ∈ flags,Define flag ∧ macro_name flag = name) :
    KeepsLargest flags name ((left_over flags).map Prod.fst) ↔ Leading flags name := by
  obtain ⟨left,written_,left_there,greatest⟩ := numbered_left all some_
  constructor
  · rintro ⟨m,alone,most⟩ largest there above v v_there
    rw [written_] at alone
    have left_m : left = m := numbered_inj name (List.head_eq_of_cons_eq alone)
    have is : largest = left := Nat.le_antisymm (left_m ▸ most largest there) (above left left_there)
    rw [is]
    exact (strcmp_numbers (left_m ▸ most v v_there)).mp (greatest v v_there)
  · intro leading
    refine ⟨left,written_,?_⟩
    have finite : {v | numbered name v ∈ flags}.Finite :=
      (List.finite_toSet flags).preimage (numbered_inj name).injOn
    obtain ⟨largest,there,above⟩ := Set.exists_max_image _ id finite ⟨left,left_there⟩
    have front := leading largest there above left left_there
    have le := (strcmp_numbers (above left left_there)).mpr front
    have is : left = largest := digit_chars_inj (strcmp_antisymm le (greatest largest there))
    rw [is]
    exact above

end

/-- Of a macro that is defined by numbers, the largest one is written exactly where none of the numbers is above the
    leading digits of the largest one. -/
theorem merge_lists_largest_iff (junk : FlagMemory) (a_bucket : Bucket) (a_argv : List HconfFile) (all : FlagLists)
    (read : read_files (fun _ => []) a_argv = .ok all) :
    ∃ bucket,merge_lists junk a_bucket a_argv = .ok bucket ∧
      bucket.var VAR_CPPFLAGS = written ((left_over (all VAR_CPPFLAGS)).map Prod.fst) ∧
      ∀ name,Numbered (all VAR_CPPFLAGS) name → (∃ flag ∈ all VAR_CPPFLAGS,Define flag ∧ macro_name flag = name) →
        (KeepsLargest (all VAR_CPPFLAGS) name ((left_over (all VAR_CPPFLAGS)).map Prod.fst) ↔
          Leading (all VAR_CPPFLAGS) name) := by
  refine ⟨{ a_bucket with var := fun i => join (select i (all i)) },?_,?_,fun name numbers => keeps_largest_iff numbers⟩
  · rw [merge_lists_eq,merge,merge_flags,read]
    rfl
  · exact join_written _

/-- `-Da=95` is the greatest flag as a text, too. -/
theorem merge_lists_largest_three :
    ∃ all bucket,read_files (fun _ => []) [cppflags_file "-Da=10 -Da=95",cppflags_file "-Da=2"] = .ok all ∧
      merge_lists no_flags empty_bucket [cppflags_file "-Da=10 -Da=95",cppflags_file "-Da=2"] = .ok bucket ∧
      bucket.var VAR_CPPFLAGS = some (lit "-Da=95 ") ∧
      KeepsLargest (all VAR_CPPFLAGS) (lit "a") ((left_over (all VAR_CPPFLAGS)).map Prod.fst) := by
  obtain ⟨all,read,cppflags⟩ := of_map_ok (show
    (read_files (fun _ => []) [cppflags_file "-Da=10 -Da=95",cppflags_file "-Da=2"]).map (· VAR_CPPFLAGS) =
      .ok [numbered (lit "a") 10,numbered (lit "a") 95,numbered (lit "a") 2] by decide)
  obtain ⟨bucket,merged,text,largest⟩ := merge_lists_largest_iff no_flags empty_bucket _ all read
  refine ⟨all,bucket,read,merged,?_,(largest (lit "a") ?_ ?_).mpr ?_⟩
  · rw [text,cppflags]
    decide
  · intro flag there _ _
    rw [cppflags] at there
    simp only [List.mem_cons,List.not_mem_nil,or_false] at there
    rcases there with is | is | is
    · exact ⟨10,is⟩
    · exact ⟨95,is⟩
    · exact ⟨2,is⟩
  · rw [cppflags]
    decide
  · have values {v : Nat} (there : numbered (lit "a") v ∈ all VAR_CPPFLAGS) : v = 10 ∨ v = 95 ∨ v = 2 := by
      rw [cppflags] at there
      simpa only [List.mem_cons,List.not_mem_nil,or_false,(numbered_inj (lit "a")).eq_iff] using there
    intro most most_there above v there
    have most_is : most = 95 := by
      have least : 95 ≤ most := above 95 (by rw [cppflags]; simp)
      rcases values most_there with rfl | rfl | rfl
      · omega
      · rfl
      · omega
    subst most_is
    rcases values there with rfl | rfl | rfl
    · decide
    · decide
    · decide

/-- `-Da=9` stays where `-Da=10` should. -/
theorem merge_lists_largest_fails :
    ∃ all bucket,read_files (fun _ => []) [cppflags_file "-Da=10",cppflags_file "-Da=9"] = .ok all ∧
      merge_lists no_flags empty_bucket [cppflags_file "-Da=10",cppflags_file "-Da=9"] = .ok bucket ∧
      bucket.var VAR_CPPFLAGS = some (lit "-Da=9 ") ∧
      all VAR_CPPFLAGS = [numbered (lit "a") 10,numbered (lit "a") 9] ∧
      ¬KeepsLargest (all VAR_CPPFLAGS) (lit "a") ((left_over (all VAR_CPPFLAGS)).map Prod.fst) := by
  obtain ⟨all,read,cppflags⟩ := of_map_ok (show
    (read_files (fun _ => []) [cppflags_file "-Da=10",cppflags_file "-Da=9"]).map (· VAR_CPPFLAGS) =
      .ok [numbered (lit "a") 10,numbered (lit "a") 9] by decide)
  have left : (left_over (all VAR_CPPFLAGS)).map Prod.fst = [numbered (lit "a") 9] := by
    rw [cppflags]
    decide
  refine ⟨all,{ empty_bucket with var := fun i => join (select i (all i)) },read,?_,?_,cppflags,?_⟩
  · rw [merge_lists_eq,merge,merge_flags,read]
    rfl
  · change join ((left_over (all VAR_CPPFLAGS)).map Prod.fst) = _
    rw [left]
    decide
  · rintro ⟨largest,alone,above⟩
    have ten : 10 ≤ largest := above 10 (by rw [cppflags]; exact List.mem_cons_self)
    have only : [numbered (lit "a") 9].filter (fun flag => Define flag ∧ macro_name flag = lit "a") = [numbered (lit "a") 9] := by
      decide
    rw [left,only] at alone
    have nine := numbered_inj _ (List.head_eq_of_cons_eq alone)
    omega

end Htools.HconfMerge
