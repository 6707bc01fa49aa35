import BindingPower.Text.Ranges

/-! # Blank characters

`isBlank` holds of the characters that separate words in expression text. `isMargin` is the
smaller class that may surround a numeral: the four information separators are left out. -/
namespace BindingPower.Text

def marginRanges : List (Nat × Nat) :=
  [(0x09, 0x0D), (0x20, 0x20), (0x85, 0x85), (0xA0, 0xA0), (0x1680, 0x1680), (0x2000, 0x200A),
    (0x2028, 0x2029), (0x202F, 0x202F), (0x205F, 0x205F), (0x3000, 0x3000)]

def isMargin (c : Char) : Bool := inRanges marginRanges c

def isBlank (c : Char) : Bool := inRanges [(0x1C, 0x1F)] c || isMargin c

theorem marginRanges_ascending : ascendingFrom 0 marginRanges = true := by decide

theorem isBlank_of_isMargin {c : Char} (h : isMargin c = true) : isBlank c = true := by
  rw [isBlank, h, Bool.or_true]

/-- No character with a shape of its own below U+007F is blank. -/
theorem isBlank_of_visible {c : Char} (hlow : 33 ≤ c.toNat) (hhigh : c.toNat ≤ 126) :
    isBlank c = false := by
  have hmargin : isMargin c = false := by
    cases hm : isMargin c with
    | false => rfl
    | true =>
      obtain ⟨r, hr, h₁, h₂⟩ := (inRanges_iff marginRanges_ascending c).mp hm
      simp only [marginRanges, List.mem_cons, List.not_mem_nil, or_false] at hr
      rcases hr with rfl | rfl | rfl | rfl | rfl | rfl | rfl | rfl | rfl | rfl <;>
        simp only at h₁ h₂ <;> omega
  have hseparator : inRanges [(0x1C, 0x1F)] c = false := by
    simp only [inRanges, Bool.or_false, Bool.and_eq_false_iff, decide_eq_false_iff_not]
    omega
  rw [isBlank, hseparator, hmargin, Bool.false_or]

end BindingPower.Text
