import Mathlib.Data.List.Basic
import Mathlib.Data.List.Infix

/-!
# Texts over a code with unreadable letters in between

A code assigns a word over an alphabet to each code point. A text is cut into
segments from left to right: where an accepted word starts, it is one segment,
and any other letter is a segment of its own. For a prefix-free code the cut is
unique, and repairing a text (writing an accepted word for every unreadable
letter) leaves a text that is cut into words only.
-/
namespace Htools.Codes
universe u v

section
variable {κ : Type u} {α : Type v}

/-- The accepted words are not empty and none continues another. -/
structure PrefixFree (word : κ → List α) (P : κ → Prop) : Prop where
  nonempty : ∀ k, P k → word k ≠ []
  unique : ∀ j k l, P j → P k → word j <+: l → word k <+: l → j = k

/-- A piece of a text: the word of a code point, or a letter where none starts. -/
inductive Segment (κ : Type u) (α : Type v) where
  | coded (k : κ)
  | junk (a : α)
  deriving DecidableEq, Repr

/-- The letters of the text that a segment stands for. -/
def Segment.source (word : κ → List α) : Segment κ α → List α
  | .coded k => word k
  | .junk a => [a]

/-- The code point that a repaired text has for a segment. -/
def Segment.repair (r : κ) : Segment κ α → κ
  | .coded k => k
  | .junk _ => r

/-- Whether a segment is an unreadable letter. -/
def Segment.isJunk : Segment κ α → Bool
  | .coded _ => false
  | .junk _ => true

/-- The cut of a text into segments. -/
inductive Segments (word : κ → List α) (P : κ → Prop) : List α → List (Segment κ α) → Prop where
  | nil : Segments word P [] []
  | coded {k : κ} {l : List α} {segs : List (Segment κ α)} : P k → Segments word P l segs →
      Segments word P (word k ++ l) (.coded k :: segs)
  | junk {a : α} {l : List α} {segs : List (Segment κ α)} : (∀ k, P k → ¬ word k <+: a :: l) →
      Segments word P l segs → Segments word P (a :: l) (.junk a :: segs)

variable {word : κ → List α} {P : κ → Prop}

/-- The segments make up the text. -/
theorem segments_source {l : List α} {segs : List (Segment κ α)} (cut : Segments word P l segs) :
    segs.flatMap (Segment.source word) = l := by
  induction cut with
  | nil => rfl
  | coded accepted rest ih => simp [Segment.source,ih]
  | junk unreadable rest ih => simp [Segment.source,ih]

/-- Every word of a cut is an accepted one. -/
theorem segments_accepted {l : List α} {segs : List (Segment κ α)} (cut : Segments word P l segs) {k : κ}
    (member : .coded k ∈ segs) : P k := by
  induction cut with
  | nil => cases member
  | coded accepted rest ih =>
    rcases List.mem_cons.mp member with same | later
    · cases same; exact accepted
    · exact ih later
  | junk unreadable rest ih =>
    rcases List.mem_cons.mp member with same | later
    · cases same
    · exact ih later

/-- No segment is empty, so a text has at least as many letters as segments. -/
theorem segments_length (nonempty : ∀ k, P k → word k ≠ []) {l : List α} {segs : List (Segment κ α)}
    (cut : Segments word P l segs) : segs.length ≤ l.length := by
  induction cut with
  | nil => exact le_rfl
  | @coded k l segs accepted rest ih =>
    have positive := List.length_pos_iff.mpr (nonempty k accepted)
    simp only [List.length_cons,List.length_append]
    omega
  | junk unreadable rest ih =>
    simp only [List.length_cons]
    omega

/-- A text of accepted words is cut into these words. -/
theorem segments_words (ks : List κ) (accepted : ∀ k ∈ ks, P k) :
    Segments word P (ks.flatMap word) (ks.map .coded) := by
  induction ks with
  | nil => exact .nil
  | cons k ks ih =>
    simp only [List.flatMap_cons,List.map_cons]
    exact .coded (accepted k (by simp)) (ih fun j member => accepted j (by simp [member]))

/-- Words in front of a text become segments in front of its cut. -/
theorem segments_append_words {ks : List κ} (accepted : ∀ k ∈ ks, P k) {l : List α} {segs : List (Segment κ α)}
    (cut : Segments word P l segs) : Segments word P (ks.flatMap word ++ l) (ks.map .coded ++ segs) := by
  induction ks with
  | nil => exact cut
  | cons k ks ih =>
    rw [List.flatMap_cons,List.append_assoc,List.map_cons,List.cons_append]
    exact .coded (accepted k (by simp)) (ih fun j member => accepted j (by simp [member]))

/-- A cut without unreadable letters consists of words. -/
theorem segments_no_junk {l : List α} {segs : List (Segment κ α)} (cut : Segments word P l segs)
    (none : segs.countP Segment.isJunk = 0) :
    ∃ ks : List κ, (∀ k ∈ ks, P k) ∧ segs = ks.map .coded ∧ l = ks.flatMap word := by
  induction cut with
  | nil => exact ⟨[],by simp,rfl,rfl⟩
  | @coded k l segs accepted rest ih =>
    rw [List.countP_cons_of_neg (by simp [Segment.isJunk])] at none
    obtain ⟨ks,every,rfl,rfl⟩ := ih none
    exact ⟨k :: ks,by simpa [accepted] using every,rfl,rfl⟩
  | junk unreadable rest ih =>
    rw [List.countP_cons_of_pos (by simp [Segment.isJunk])] at none
    cases none

/-- The repaired text has an accepted word for every segment. -/
theorem repair_accepted {l : List α} {segs : List (Segment κ α)} (cut : Segments word P l segs) {r : κ}
    (accepted : P r) : ∀ k ∈ segs.map (Segment.repair r), P k := by
  intro k member
  obtain ⟨seg,inside,rfl⟩ := List.mem_map.mp member
  cases seg with
  | coded k => exact segments_accepted cut inside
  | junk a => exact accepted

/-- A text has at most one cut over a prefix-free code. -/
theorem segments_unique (free : PrefixFree word P) {l : List α} {segs other : List (Segment κ α)}
    (cut : Segments word P l segs) (cut' : Segments word P l other) : segs = other := by
  induction cut generalizing other with
  | nil =>
    generalize same : ([] : List α) = l at cut'
    cases cut' with
    | nil => rfl
    | coded accepted rest => exact absurd (List.append_eq_nil_iff.mp same.symm).1 (free.nonempty _ accepted)
    | junk unreadable rest => cases same
  | @coded k l segs accepted rest ih =>
    generalize same : word k ++ l = text at cut'
    cases cut' with
    | nil => exact absurd (List.append_eq_nil_iff.mp same).1 (free.nonempty _ accepted)
    | @coded j l' segs' accepted' rest' =>
      have equal : k = j := free.unique k j (word k ++ l) accepted accepted' (List.prefix_append _ _)
        (by rw [same]; exact List.prefix_append _ _)
      subst equal
      obtain rfl := List.append_cancel_left same
      rw [ih rest']
    | @junk a l' segs' unreadable rest' =>
      exact absurd (same ▸ List.prefix_append _ _) (unreadable k accepted)
  | @junk a l segs unreadable rest ih =>
    generalize same : a :: l = text at cut'
    cases cut' with
    | nil => cases same
    | @coded j l' segs' accepted' rest' =>
      exact absurd (same ▸ List.prefix_append _ _) (unreadable j accepted')
    | junk unreadable' rest' =>
      cases same
      rw [ih rest']

/-- Every text has a cut over a code without empty words. -/
theorem segments_exist (nonempty : ∀ k, P k → word k ≠ []) (l : List α) : ∃ segs, Segments word P l segs := by
  induction size : l.length using Nat.strong_induction_on generalizing l with
  | _ n ih =>
    by_cases starts : ∃ k, P k ∧ word k <+: l
    · obtain ⟨k,accepted,rest,rfl⟩ := starts
      have shorter : rest.length < n := by
        have := List.length_pos_iff.mpr (nonempty k accepted)
        simp only [List.length_append] at size
        omega
      obtain ⟨segs,cut⟩ := ih rest.length shorter rest rfl
      exact ⟨_,.coded accepted cut⟩
    · cases l with
      | nil => exact ⟨[],.nil⟩
      | cons a rest =>
        obtain ⟨segs,cut⟩ := ih rest.length (by simp at size; omega) rest rfl
        exact ⟨_,.junk (fun k accepted start => starts ⟨k,accepted,start⟩) cut⟩

end
end Htools.Codes
