/-! # Binding strengths

A precedence is an unsigned 32-bit integer whose arithmetic saturates at both ends.
Declared levels are scaled by ten before they are compared, which leaves room between
two neighbouring levels for the single steps `raise` and `lower`. -/
namespace BindingPower

structure Precedence where
  val : Nat
  val_le : val ≤ 4294967295
  deriving DecidableEq

namespace Precedence

def bits : Nat := 32

def largest : Nat := 4294967295

def bottom : Precedence := ⟨0, by omega⟩

def top : Precedence := ⟨largest, Nat.le_refl _⟩

instance : LT Precedence := ⟨fun p q => p.val < q.val⟩

instance : LE Precedence := ⟨fun p q => p.val ≤ q.val⟩

instance (p q : Precedence) : Decidable (p < q) := inferInstanceAs (Decidable (p.val < q.val))

instance (p q : Precedence) : Decidable (p ≤ q) := inferInstanceAs (Decidable (p.val ≤ q.val))

theorem ext_val {p q : Precedence} (h : p.val = q.val) : p = q := by
  cases p; cases q; simp_all

theorem lt_iff (p q : Precedence) : p < q ↔ p.val < q.val := Iff.rfl

theorem le_iff (p q : Precedence) : p ≤ q ↔ p.val ≤ q.val := Iff.rfl

/-- The nearest precedence to a natural number. -/
def saturate (n : Nat) : Precedence := ⟨min n largest, Nat.min_le_right _ _⟩

def ofInt? (n : Int) : Option Precedence :=
  if h : 0 ≤ n ∧ n ≤ 4294967295 then some ⟨n.toNat, by omega⟩ else none

/-- One step tighter; the top stays where it is. -/
def raise (p : Precedence) : Precedence := saturate (p.val + 1)

/-- One step looser; the bottom stays where it is. -/
def lower (p : Precedence) : Precedence := saturate (p.val - 1)

/-- A declared level on the scale on which powers are compared. -/
def normalize (p : Precedence) : Precedence := saturate (p.val * 10)

/-- The highest level whose scaled value can still be raised below the top. -/
def maxDeclared : Nat := (largest - 1) / 10 - 1

theorem saturate_val (n : Nat) : (saturate n).val = min n 4294967295 := rfl

theorem raise_val (p : Precedence) : p.raise.val = min (p.val + 1) 4294967295 := rfl

theorem lower_val (p : Precedence) : p.lower.val = p.val - 1 := by
  have := p.val_le
  simp only [lower, saturate_val]
  omega

theorem normalize_val (p : Precedence) : p.normalize.val = min (p.val * 10) 4294967295 := rfl

theorem ofInt?_eq_some_iff {n : Int} {p : Precedence} : ofInt? n = some p ↔ n = p.val := by
  have := p.val_le
  unfold ofInt?
  split
  · rw [Option.some.injEq]
    constructor
    · rintro rfl
      simp only
      omega
    · intro h
      exact ext_val (by simp only; omega)
  · constructor
    · intro h
      simp at h
    · intro h
      omega

/-- The wording for a number that is no precedence. -/
def rangeMessage (given : Int) : String :=
  "Precedence must be within 0..=" ++ toString largest ++ ", got " ++ toString given

def text (p : Precedence) : String :=
  if p = top then "Precedence.MAX" else "Precedence(" ++ toString p.val ++ ")"

end Precedence

end BindingPower
