import BindingPower.Text.Blank
import BindingPower.Text.Decimal
import BindingPower.Text.Quoted

/-! # Integers as text

A numeral is an optional sign and decimal digits of any script, where single underscores may
stand between digits and blanks around the whole. A numeral of more than 4300 digits is
refused, also when something else follows its digits. -/
namespace BindingPower.Text

inductive NumeralError where
  | malformed (text : String)
  | tooLong (digits : Nat)
  deriving DecidableEq

namespace Numeral

def maxDigits : Nat := 4300

def isFigure (c : Char) : Bool := c.isDigit || c = '_'

/-- Whether underscores stand only between digits, given whether a digit came just before. -/
def wellSpaced : (afterDigit : Bool) → List Char → Bool
  | afterDigit, [] => afterDigit
  | afterDigit, c :: cs => if c = '_' then afterDigit && wellSpaced false cs else wellSpaced true cs

def digits (cs : List Char) : List Char := cs.filter (· ≠ '_')

def value (cs : List Char) : Nat := Nat.ofDigitChars 10 cs 0

/-- The sign of a numeral and what follows it. -/
def splitSign : List Char → Bool × List Char
  | '-' :: cs => (true, cs)
  | '+' :: cs => (false, cs)
  | cs => (false, cs)

def read (text : String) : Except NumeralError Int :=
  let (negative, body) := splitSign ((text.toList.map plain).dropWhile isMargin)
  let figures := body.takeWhile isFigure
  if !wellSpaced false figures then .error (.malformed text)
  else
    let ds := digits figures
    if maxDigits < ds.length then .error (.tooLong ds.length)
    else if !(body.dropWhile isFigure).all isMargin then .error (.malformed text)
    else .ok (if negative then -(value ds : Int) else (value ds : Int))

theorem isMargin_of_isDigit {c : Char} (h : c.isDigit = true) : isMargin c = false := by
  have hrange := isDigit_range h
  have hblank : isBlank c = false := isBlank_of_visible (by omega) (by omega)
  cases hm : isMargin c with
  | false => rfl
  | true =>
    rw [isBlank_of_isMargin hm] at hblank
    simp at hblank

theorem ne_of_isDigit {c d : Char} (h : c.isDigit = true) (hd : d.isDigit = false) : c ≠ d := by
  rintro rfl
  rw [h] at hd
  simp at hd

section Digits

variable {ds : List Char} (h : ∀ c ∈ ds, c.isDigit = true)

include h

theorem map_plain_digits : ds.map plain = ds := by
  induction ds with
  | nil => rfl
  | cons c ds ih =>
    simp only [List.forall_mem_cons] at h
    rw [List.map_cons, plain_of_isDigit h.1, ih h.2]

theorem wellSpaced_digits : wellSpaced true ds = true := by
  induction ds with
  | nil => rfl
  | cons c ds ih =>
    simp only [List.forall_mem_cons] at h
    rw [wellSpaced, if_neg (ne_of_isDigit h.1 rfl), ih h.2]

theorem digits_digits : digits ds = ds := by
  refine List.filter_eq_self.mpr fun c hc => ?_
  simpa using ne_of_isDigit (h c hc) (rfl : '_'.isDigit = false)

theorem isFigure_digits : ∀ c ∈ ds, isFigure c = true := fun c hc => by
  rw [isFigure, h c hc, Bool.true_or]

theorem takeWhile_digits : ds.takeWhile isFigure = ds := by
  have happend : (ds ++ []).takeWhile isFigure = ds ++ [].takeWhile isFigure :=
    List.takeWhile_append_of_pos (isFigure_digits h)
  simpa using happend

theorem dropWhile_digits : ds.dropWhile isFigure = [] := by
  have happend : (ds ++ []).dropWhile isFigure = [].dropWhile isFigure :=
    List.dropWhile_append_of_pos (isFigure_digits h)
  simpa using happend

end Digits

theorem splitSign_digit {c : Char} (cs : List Char) (h : c.isDigit = true) :
    splitSign (c :: cs) = (false, c :: cs) := by
  unfold splitSign
  split
  · rename_i heq
    cases heq
    simp at h
  · rename_i heq
    cases heq
    simp at h
  · rfl

/-- A plain row of digits is read as its value. -/
theorem read_digits {text : String} {c : Char} {cs : List Char} (htext : text.toList = c :: cs)
    (h : ∀ d ∈ c :: cs, d.isDigit = true) (hlen : (c :: cs).length ≤ maxDigits) :
    read text = .ok (value (c :: cs)) := by
  have hc : c.isDigit = true := h c (by simp)
  have hspaced : wellSpaced false (c :: cs) = true := by
    rw [wellSpaced, if_neg (ne_of_isDigit hc rfl)]
    exact wellSpaced_digits fun d hd => h d (List.mem_cons_of_mem _ hd)
  have hbody : (c :: cs).dropWhile isMargin = c :: cs := by
    simp [isMargin_of_isDigit hc]
  rw [read, htext, map_plain_digits h, hbody, splitSign_digit cs hc]
  simp only [takeWhile_digits h, dropWhile_digits h, digits_digits h, hspaced]
  simp only [Bool.not_true, Bool.false_eq_true, ↓reduceIte, List.all_nil]
  rw [if_neg (by omega)]

/-- A natural number that is not too long is read back from its decimal text. -/
theorem read_repr {n : Nat} (hlen : (Nat.toDigits 10 n).length ≤ maxDigits) :
    read n.repr = .ok n := by
  have hdigits : ∀ c ∈ Nat.toDigits 10 n, c.isDigit = true := fun c hc =>
    Nat.isDigit_of_mem_toDigits (by decide) (by decide) hc
  obtain ⟨c, cs, hcs⟩ := List.exists_cons_of_ne_nil (Nat.toDigits_ne_nil (n := n) (b := 10))
  rw [read_digits (Nat.toList_repr.trans hcs) (hcs ▸ hdigits) (hcs ▸ hlen), ← hcs, value,
    Nat.ofDigitChars_ten_toDigits]

/-- What a row of digits is worth has no more digits than the row. -/
theorem length_toDigits_value {ds : List Char} {n : Nat} (h : ∀ c ∈ ds, c.isDigit = true)
    (hn : 0 < n) (hlen : ds.length ≤ n) : (Nat.toDigits 10 (value ds)).length ≤ n := by
  have hvalue : value ds < 10 ^ ds.length := by
    clear hlen
    induction ds with
    | nil => simp [value]
    | cons c ds ih =>
      simp only [List.forall_mem_cons] at h
      have hrange := isDigit_range h.1
      have hrest := ih h.2
      have hdigit : 10 ^ ds.length * (c.toNat - 48) ≤ 10 ^ ds.length * 9 :=
        Nat.mul_le_mul_left _ (by omega)
      simp only [value] at hrest ⊢
      rw [Nat.ofDigitChars_cons, Nat.ofDigitChars_eq_ofDigitChars_zero, List.length_cons,
        Nat.pow_succ]
      simp only [Nat.mul_zero, Nat.zero_add, Char.reduceToNat]
      omega
  rw [Nat.length_toDigits_le_iff (by decide) hn]
  exact Nat.lt_of_lt_of_le hvalue (Nat.pow_le_pow_right (by decide) hlen)

theorem isDigit_of_mem_digits {cs : List Char} {c : Char} (h : c ∈ digits (cs.takeWhile isFigure)) :
    c.isDigit = true := by
  obtain ⟨hmem, hne⟩ := List.mem_filter.mp h
  have hfigure := List.all_eq_true.mp List.all_takeWhile c hmem
  simpa [isFigure, of_decide_eq_true hne] using hfigure

/-- Text that starts with a digit is not read as a negative number or one of too many digits. -/
theorem read_natural {text : String} {c : Char} {cs : List Char} {n : Int}
    (htext : text.toList = c :: cs) (hc : c.isDigit = true) (h : read text = .ok n) :
    0 ≤ n ∧ (Nat.toDigits 10 n.toNat).length ≤ maxDigits := by
  have hbody : ((c :: cs).map plain).dropWhile isMargin = c :: cs.map plain := by
    simp [plain_of_isDigit hc, isMargin_of_isDigit hc]
  rw [read, htext, hbody, splitSign_digit _ hc] at h
  simp only [Bool.false_eq_true, ↓reduceIte] at h
  split at h
  · cases h
  · split at h
    · cases h
    · rename_i hlong
      split at h
      · cases h
      · cases h
        refine ⟨Int.natCast_nonneg _, ?_⟩
        rw [Int.toNat_natCast]
        exact length_toDigits_value (fun d hd => isDigit_of_mem_digits hd) (by decide)
          (Nat.not_lt.mp hlong)

end Numeral

def NumeralError.message : NumeralError → String
  | malformed text =>
    "invalid literal for int() with base 10: " ++
      String.ofList ((quotedChars text.toList).take 200)
  | tooLong digits =>
    "Exceeds the limit (" ++ toString Numeral.maxDigits ++
      " digits) for integer string conversion: value has " ++ toString digits ++
      " digits; use sys.set_int_max_str_digits() to increase the limit"

end BindingPower.Text
