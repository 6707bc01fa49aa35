import BindingPower.Proofs.Contract

/-! # The tokens that a failure names

A reading names only tokens that it was given: those that it finds out of place, and those that the
rules of the grammar refuse. Containing a failure adds no token to it. -/
namespace BindingPower

variable {τ φ ν ε α : Type} {T : τ → Prop}

def Report.tokens : Report τ φ ε → List τ
  | .misfit _ t => [t]
  | .unexpectedArity t _ _ => [t]
  | .missingInterfix _ found => found.toList
  | .trailingInput t => [t]
  | _ => []

def Failure.tokens : Failure τ φ ε → List τ
  | .report r => r.tokens
  | _ => []

/-- The failure names tokens of the kind only. -/
def Failure.Carries (T : τ → Prop) (f : Failure τ φ ε) : Prop := ∀ t ∈ f.tokens, T t

/-- A value, or a failure that names tokens of the kind only. -/
abbrev Carrying (T : τ → Prop) : Except (Failure τ φ ε) α → Prop :=
  Meets (Failure.Carries T) fun _ => True

namespace Failure

theorem carries_of_nil {f : Failure τ φ ε} (h : f.tokens = []) : f.Carries T := by
  intro t ht
  rw [h] at ht
  exact absurd ht List.not_mem_nil

theorem carries_of_single {f : Failure τ φ ε} {t : τ} (h : f.tokens = [t]) (ht : T t) :
    f.Carries T := by
  intro u hu
  rw [h] at hu
  rwa [List.mem_singleton.mp hu]

theorem carries_missing {mark : Option φ} {found : Option τ} (h : ∀ t ∈ found, T t) :
    Carries T (.report (.missingInterfix mark found) : Failure τ φ ε) :=
  fun t ht => h t (Option.mem_toList.mp ht)

theorem Carries.contain {f : Failure τ φ ε} (h : f.Carries T) (limit depth : Nat) :
    (contain limit depth f).Carries T := by
  cases f with
  | report r => exact h
  | exhausted => exact carries_of_nil rfl
  | other cause => exact carries_of_nil rfl

end Failure

open Failure

theorem Carrying.contained {r : Except (Failure τ φ ε) α} (h : Carrying T r) (limit depth : Nat) :
    Carrying T (Reading.contained limit depth r) := by
  cases r with
  | ok a => exact h
  | error f => exact Failure.Carries.contain h limit depth

/-- The rules fail with tokens of the kind only, where they are asked about such tokens. -/
structure Rules.Carry (r : Rules τ φ ν ε) (T : τ → Prop) : Prop where
  query : ∀ t, T t → Carrying T (r.query t)
  nullary : ∀ t, T t → Carrying T (r.nullary t)
  unary : ∀ t x, T t → Carrying T (r.unary t x)
  binary : ∀ t x y, T t → Carrying T (r.binary t x y)
  ternary : ∀ t x y z, T t → Carrying T (r.ternary t x y z)
  isFollow : ∀ t mark, T t → Carrying T (r.isFollow t mark)

theorem Rules.Carry.keep {r : Rules τ φ ν ε} (h : r.Carry T) : r.Keep (Failure.Carries T) T :=
  ⟨h.query, h.nullary, h.unary, h.binary, h.ternary, h.isFollow⟩

theorem Failure.carries_allowed : Reading.Allows (ε := ε) (φ := φ) (Failure.Carries T) T where
  empty := carries_of_nil rfl
  deep _ := carries_of_nil rfl
  misfit _ _ ht := carries_of_single rfl ht
  arity _ _ _ ht := carries_of_single rfl ht
  missing _ _ h := carries_missing h
  trailing _ ht := carries_of_single rfl ht

/-- The rules of the scheme carry tokens of the kind only, as long as the runs they ask for do. -/
def Scheme.Carry (g : Scheme τ φ ν ε) (T : τ → Prop) : Prop :=
  ∀ (depth : Nat) (inner : Precedence → Reading τ φ ε ν),
    (∀ p, Reading.Ensures T (Failure.Carries T) (fun _ => True) (inner p)) →
    (g.rules depth inner).Carry T

/-- No reading by such a scheme names other tokens. -/
theorem Scheme.Carry.upholds {g : Scheme τ φ ν ε} (h : g.Carry T) :
    g.Upholds (Failure.Carries T) (fun _ => True) T :=
  Scheme.upholds_of_keep carries_allowed fun depth inner hinner => (h depth inner hinner).keep

end BindingPower
