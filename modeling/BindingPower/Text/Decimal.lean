/-! # Decimal digits

The digits zero to nine of every script. Each script has its ten digits in a row. -/
namespace BindingPower.Text

/-- The digits zero. -/
def zeros : List Nat :=
  [0x30, 0x660, 0x6F0, 0x7C0, 0x966, 0x9E6, 0xA66, 0xAE6, 0xB66, 0xBE6, 0xC66, 0xCE6, 0xD66,
    0xDE6, 0xE50, 0xED0, 0xF20, 0x1040, 0x1090, 0x17E0, 0x1810, 0x1946, 0x19D0, 0x1A80, 0x1A90,
    0x1B50, 0x1BB0, 0x1C40, 0x1C50, 0xA620, 0xA8D0, 0xA900, 0xA9D0, 0xA9F0, 0xAA50, 0xABF0,
    0xFF10, 0x104A0, 0x10D30, 0x11066, 0x110F0, 0x11136, 0x111D0, 0x112F0, 0x11450, 0x114D0,
    0x11650, 0x116C0, 0x11730, 0x118E0, 0x11950, 0x11C50, 0x11D50, 0x11DA0, 0x16A60, 0x16AC0,
    0x16B50, 0x1D7CE, 0x1D7D8, 0x1D7E2, 0x1D7EC, 0x1D7F6, 0x1E140, 0x1E2F0, 0x1E950, 0x1FBF0]

/-- The value of a decimal digit. -/
def digit? (c : Char) : Option Nat :=
  (zeros.find? fun z => z ≤ c.toNat && c.toNat ≤ z + 9).map fun z => c.toNat - z

def isDecimal (c : Char) : Bool := (digit? c).isSome

/-- The digit of equal value from U+0030 to U+0039; any other character is left alone. -/
def plain (c : Char) : Char := ((digit? c).map Nat.digitChar).getD c

theorem isDigit_range {c : Char} (h : c.isDigit = true) : 48 ≤ c.toNat ∧ c.toNat ≤ 57 := by
  simp only [Char.isDigit, Bool.and_eq_true, decide_eq_true_eq] at h
  exact h

theorem digit?_of_isDigit {c : Char} (h : c.isDigit = true) : digit? c = some (c.toNat - 48) := by
  obtain ⟨hlow, hhigh⟩ := isDigit_range h
  simp [digit?, zeros, hlow, hhigh]

theorem plain_of_isDigit {c : Char} (h : c.isDigit = true) : plain c = c := by
  obtain ⟨hlow, hhigh⟩ := isDigit_range h
  have digits : ∀ n : Nat, n < 10 → Nat.digitChar n = Char.ofNat (n + 48) := by decide
  rw [plain, digit?_of_isDigit h, Option.map_some, Option.getD_some, digits _ (by omega),
    Nat.sub_add_cancel hlow, Char.ofNat_toNat]

end BindingPower.Text
