import BindingPower.Proofs.Agreement
import BindingPower.Tree

/-! # Reading plain trees

The grammar that builds plain trees, where the classification of a token or the comparison with
a mark may fail, and the scheme by which it is read. -/
namespace BindingPower

variable {τ φ ν ε α : Type}

/-- What asks for nothing is answered at once, and a failure of it is contained. -/
theorem Parser.calling_ofExcept (p : Parser τ φ ν ε) (c : Call τ φ ν)
    (enter : Goal → Option (StopTest τ φ ε) → Run τ φ ν ε ν) (r : Except (Failure τ φ ε) α)
    (s : Session τ φ ν ε) :
    p.calling c ((Callback.ofExcept r).perform enter) s =
      match r with
      | .ok a => .ok a (s.record (.called c))
      | .error f =>
        .error (contain p.config.maxDepth s.depth f) ((s.record (.called c)).record .failed) := by
  cases r <;> rfl

theorem Parser.calling_ofExcept_eq_ok {p : Parser τ φ ν ε} {c : Call τ φ ν}
    {enter : Goal → Option (StopTest τ φ ε) → Run τ φ ν ε ν} {r : Except (Failure τ φ ε) α}
    {s t : Session τ φ ν ε} {a : α} :
    p.calling c ((Callback.ofExcept r).perform enter) s = .ok a t ↔
      r = .ok a ∧ t = s.record (.called c) := by
  rw [calling_ofExcept]
  cases r with
  | ok b => simp [eq_comm]
  | error f => simp

namespace Tree

/-- The grammar that builds plain trees from what it is told of the tokens. -/
def grammarOf (query : τ → Except (Failure τ φ ε) (Operator φ))
    (isFollow : τ → φ → Except (Failure τ φ ε) Bool) : Grammar τ φ (Tree τ) ε where
  query t := .ofExcept (query t)
  nullary t := .value (leaf t)
  unary t x := .value (unary t x)
  binary t l r := .value (binary t l r)
  ternary t a b c := .value (ternary t a b c)
  isFollow t expected := .ofExcept (isFollow t expected)

theorem grammar_eq (query : τ → Operator φ) (isFollow : τ → φ → Bool) :
    (grammar query isFollow : Grammar τ φ (Tree τ) ε) =
      grammarOf (fun t => .ok (query t)) fun t e => .ok (isFollow t e) := rfl

variable (config : Config) (query : τ → Except (Failure τ φ ε) (Operator φ))
  (isFollow : τ → φ → Except (Failure τ φ ε) Bool)

def parser : Parser τ φ (Tree τ) ε := .ofGrammar config (grammarOf query isFollow)

def rules (depth : Nat) : Rules τ φ (Tree τ) ε where
  query t := Reading.contained config.maxDepth depth (query t)
  nullary t := .ok (leaf t)
  unary t x := .ok (unary t x)
  binary t l r := .ok (binary t l r)
  ternary t a b c := .ok (ternary t a b c)
  isFollow t expected := Reading.contained config.maxDepth depth (isFollow t expected)

def scheme : Scheme τ φ (Tree τ) ε := ⟨config, between, fun d _ => rules config query isFollow d⟩

theorem parser_follows : (parser config query isFollow).Follows (scheme config query isFollow) where
  config := rfl
  admits := rfl
  answers d f inner _ hf _ := by
    cases f
    cases hf
    exact {
      query t := Parser.calling_ofExcept_follows _ _ _ (query t)
      nullary t := Parser.calling_ofExcept_follows _ _ _ (.ok (leaf t))
      unary t x := Parser.calling_ofExcept_follows _ _ _ (.ok (unary t x))
      binary t l r := Parser.calling_ofExcept_follows _ _ _ (.ok (binary t l r))
      ternary t a b c := Parser.calling_ofExcept_follows _ _ _ (.ok (ternary t a b c))
      isFollow t e := Parser.calling_ofExcept_follows _ _ _ (isFollow t e) }

end Tree

end BindingPower
