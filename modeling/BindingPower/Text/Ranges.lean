/-! # Ranges of characters

A class of characters is a list of closed ranges of code points in ascending order, so that the
search for a character ends at the first range behind it. -/
namespace BindingPower.Text

def inRanges : List (Nat × Nat) → Char → Bool
  | [], _ => false
  | (first, last) :: more, c => first ≤ c.toNat && (c.toNat ≤ last || inRanges more c)

/-- Whether the ranges lie behind a code point, each behind the one before it. -/
def ascendingFrom : Nat → List (Nat × Nat) → Bool
  | _, [] => true
  | n, (first, last) :: more => n ≤ first && first ≤ last && ascendingFrom (last + 1) more

theorem le_of_ascendingFrom {n : Nat} {ranges : List (Nat × Nat)} {r : Nat × Nat}
    (h : ascendingFrom n ranges = true) (hr : r ∈ ranges) : n ≤ r.1 := by
  induction ranges generalizing n with
  | nil => simp at hr
  | cons a more ih =>
    simp only [ascendingFrom, Bool.and_eq_true, decide_eq_true_eq] at h
    rcases List.mem_cons.mp hr with rfl | hr
    · exact h.1.1
    · exact Nat.le_trans (Nat.le_trans h.1.1 (Nat.le_succ_of_le h.1.2)) (ih h.2 hr)

theorem inRanges_iff {n : Nat} {ranges : List (Nat × Nat)} (h : ascendingFrom n ranges = true)
    (c : Char) : inRanges ranges c = true ↔ ∃ r ∈ ranges, r.1 ≤ c.toNat ∧ c.toNat ≤ r.2 := by
  induction ranges generalizing n with
  | nil => simp [inRanges]
  | cons a more ih =>
    simp only [ascendingFrom, Bool.and_eq_true, decide_eq_true_eq] at h
    simp only [inRanges, Bool.and_eq_true, Bool.or_eq_true, decide_eq_true_eq, ih h.2,
      List.mem_cons, exists_eq_or_imp]
    constructor
    · rintro ⟨h1, h2 | h2⟩
      · exact Or.inl ⟨h1, h2⟩
      · exact Or.inr h2
    · rintro (⟨h1, h2⟩ | ⟨r, hr, h1, h2⟩)
      · exact ⟨h1, Or.inl h2⟩
      · have := le_of_ascendingFrom h.2 hr
        exact ⟨by omega, Or.inr ⟨r, hr, h1, h2⟩⟩

end BindingPower.Text
