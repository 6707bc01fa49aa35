import BindingPower.Text.Case
import BindingPower.Text.Quoted

/-! # Symbols

Plain tokens: words, integers, the null token and lists of symbols. A broken symbol stands
in a list for an item that cannot be produced, and tells why. -/
namespace BindingPower

inductive Symbol where
  | word (text : String)
  | number (value : Int)
  | null
  | list (items : List Symbol)
  | broken (reason : Symbol)

namespace Symbol

mutual
def beq : Symbol → Symbol → Bool
  | word a, word b => a == b
  | number a, number b => a == b
  | null, null => true
  | list a, list b => beqAll a b
  | broken a, broken b => beq a b
  | _, _ => false
def beqAll : List Symbol → List Symbol → Bool
  | [], [] => true
  | a :: as, b :: bs => beq a b && beqAll as bs
  | _, _ => false
end

mutual
theorem eq_of_beq : ∀ a b : Symbol, beq a b = true → a = b
  | word a, b, h => by cases b <;> simp_all [beq]
  | number a, b, h => by cases b <;> simp_all [beq]
  | null, b, h => by cases b <;> simp_all [beq]
  | list a, b, h => by
    cases b with
    | list b => exact congrArg list (eq_of_beqAll a b (by simpa only [beq] using h))
    | word b => simp [beq] at h
    | number b => simp [beq] at h
    | null => simp [beq] at h
    | broken b => simp [beq] at h
  | broken a, b, h => by
    cases b with
    | broken b => exact congrArg broken (eq_of_beq a b (by simpa only [beq] using h))
    | word b => simp [beq] at h
    | number b => simp [beq] at h
    | null => simp [beq] at h
    | list b => simp [beq] at h
theorem eq_of_beqAll : ∀ a b : List Symbol, beqAll a b = true → a = b
  | [], b, h => by cases b <;> simp_all [beqAll]
  | a :: as, b, h => by
    cases b with
    | nil => simp [beqAll] at h
    | cons b bs =>
      simp only [beqAll, Bool.and_eq_true] at h
      rw [eq_of_beq a b h.1, eq_of_beqAll as bs h.2]
end

mutual
theorem beq_refl : ∀ a : Symbol, beq a a = true
  | word a => by simp [beq]
  | number a => by simp [beq]
  | null => by simp [beq]
  | list a => by simpa only [beq] using beqAll_refl a
  | broken a => by simpa only [beq] using beq_refl a
theorem beqAll_refl : ∀ a : List Symbol, beqAll a a = true
  | [] => by simp [beqAll]
  | a :: as => by simp [beqAll, beq_refl a, beqAll_refl as]
end

instance : DecidableEq Symbol := fun a b =>
  if h : beq a b = true then isTrue (eq_of_beq a b h)
  else isFalse fun e => h (e ▸ beq_refl a)

mutual
def text : Symbol → String
  | word s => Text.quoted s
  | number n => toString n
  | null => "None"
  | list items => "[" ++ ", ".intercalate (texts items) ++ "]"
  | broken a => "\x7b'raise': " ++ text a ++ "\x7d"
def texts : List Symbol → List String
  | [] => []
  | s :: rest => text s :: texts rest
end

/-- The text of a symbol where it is not one of several; a word is not quoted. -/
def bare : Symbol → String
  | word s => s
  | a => a.text

/-- Words that are the same in lower case. -/
def sameFolded : Symbol → Symbol → Bool
  | word a, word b => Text.lower a.toList = Text.lower b.toList
  | _, _ => false

end Symbol

end BindingPower
