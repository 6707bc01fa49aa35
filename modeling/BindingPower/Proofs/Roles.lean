import BindingPower.Operator

/-! # The roles of plain operators

A plain operator is a leaf, or it takes one operand on one side or two operands around it; a token
may be both of a leading and of a continuing kind, but not prefixed and postfixed. Its powers are
ten times its declared level, or one beside that. -/
namespace BindingPower

variable {φ : Type}

theorem Precedence.normalize_of_le {p : Precedence} (h : p.val ≤ Precedence.maxDeclared) :
    p.normalize.val = 10 * p.val := by
  have hmax : Precedence.maxDeclared = 429496728 := rfl
  rw [Precedence.normalize_val]
  omega

namespace Affix

/-- The parts of a combined affix are the two that it was made of. -/
theorem combine?_parts {a b c l r : Affix} (ha : a.parts? = none)
    (h : combine? a b = some c) (hc : c.parts? = some (l, r)) :
    a = l ∧ b = r ∨ a = r ∧ b = l := by
  unfold combine? at h
  split at h
  · simp only [Option.some.injEq] at h
    rw [h, hc] at ha
    simp at ha
  · have hfound := List.find?_some h
    simp only [hc, Bool.or_eq_true, decide_eq_true_eq, Option.some.injEq, Prod.mk.injEq] at hfound
    rcases hfound with ⟨rfl, rfl⟩ | ⟨rfl, rfl⟩
    · exact .inl ⟨rfl, rfl⟩
    · exact .inr ⟨rfl, rfl⟩

end Affix

namespace Operator

/-- The descriptor by which a token starts an expression. -/
def starting (op : Operator φ) : Operator φ := op.leading.leading

/-- The descriptor by which a token extends an expression. -/
def extending (op : Operator φ) : Operator φ := op.continuing.continuing

inductive Simple : Operator φ → Prop where
  | nilfix {s : Shape φ} (ha : s.affix = .nilfix) (hn : s.arity = .nullary) : Simple (single s)
  | prefixed {s : Shape φ} (ha : s.affix = .prefixed) (hn : s.arity = .unary) : Simple (single s)
  | postfixed {s : Shape φ} (ha : s.affix = .postfixed) (hn : s.arity = .unary) : Simple (single s)
  | infixed {s : Shape φ} (ha : s.affix = .infixed) (hn : s.arity = .binary) : Simple (single s)

/-- A simple operator, or two of them that share a token and do not both take one operand. -/
inductive Plain : Operator φ → Prop where
  | simple {op : Operator φ} (h : op.Simple) : Plain op
  | both {a b op : Operator φ} (ha : a.Simple) (hb : b.Simple) (h : either a b = .ok op)
    (hne : ¬(op.starting.affix = .prefixed ∧ op.extending.affix = .postfixed)) : Plain op

/-- Where a token binds an operand, its level is not beyond the highest one. -/
def Declared (op : Operator φ) : Prop :=
  (op.starting.affix = .prefixed → op.starting.precedence.val ≤ Precedence.maxDeclared) ∧
    (op.extending.affix = .postfixed ∨ op.extending.affix = .infixed →
      op.extending.precedence.val ≤ Precedence.maxDeclared)

theorem Simple.leading_eq {op : Operator φ} (h : op.Simple) : op.leading = op := by
  cases h <;> rfl

theorem Simple.continuing_eq {op : Operator φ} (h : op.Simple) : op.continuing = op := by
  cases h <;> rfl

theorem Simple.parts?_eq {op : Operator φ} (h : op.Simple) : op.affix.parts? = none := by
  cases h with
  | nilfix ha => simp [affix, shape, ha, Affix.parts?]
  | prefixed ha => simp [affix, shape, ha, Affix.parts?]
  | postfixed ha => simp [affix, shape, ha, Affix.parts?]
  | infixed ha => simp [affix, shape, ha, Affix.parts?]

/-- A token with two simple operators leads by one of them and continues by the other. -/
theorem either_parts {a b op : Operator φ} (ha : a.Simple) (h : either a b = .ok op) :
    ∃ s l c, op = dual s l c ∧ s.affix.parts? = some (l.affix, c.affix) ∧
      (l = a ∧ c = b ∨ l = b ∧ c = a) := by
  unfold either at h
  cases hc : Affix.combine? a.affix b.affix with
  | none => simp [hc] at h
  | some x =>
    cases hp : x.parts? with
    | none => simp [hc, hp] at h
    | some parts =>
      obtain ⟨l, r⟩ := parts
      have hparts := Affix.combine?_parts ha.parts?_eq hc hp
      simp only [hc, hp] at h
      split at h
      · rename_i hl
        cases h
        refine ⟨_, _, _, rfl, ?_, .inl ⟨rfl, rfl⟩⟩
        rcases hparts with ⟨h₁, h₂⟩ | ⟨h₁, h₂⟩
        · simp only [hp, h₁, h₂]
        · simp only [hp, hl, h₂, ← h₁]
      · rename_i hl
        cases h
        refine ⟨_, _, _, rfl, ?_, .inr ⟨rfl, rfl⟩⟩
        rcases hparts with ⟨h₁, h₂⟩ | ⟨h₁, h₂⟩
        · exact absurd h₁ hl
        · simp only [hp, h₁, h₂]

theorem Plain.parts {op : Operator φ} (h : op.Plain) : op.leading.Simple ∧ op.continuing.Simple := by
  cases h with
  | simple hs =>
    rw [hs.leading_eq, hs.continuing_eq]
    exact ⟨hs, hs⟩
  | both ha hb he =>
    obtain ⟨s, l, c, rfl, -, hl | hl⟩ := either_parts ha he
    · rw [leading_dual, continuing_dual, hl.1, hl.2]
      exact ⟨ha, hb⟩
    · rw [leading_dual, continuing_dual, hl.1, hl.2]
      exact ⟨hb, ha⟩

theorem Plain.leading_eq {op : Operator φ} (h : op.Plain) : op.leading = op.starting :=
  h.parts.1.leading_eq.symm

theorem Plain.continuing_eq {op : Operator φ} (h : op.Plain) : op.continuing = op.extending :=
  h.parts.2.continuing_eq.symm

/-- A token that is prefixed is not postfixed. -/
theorem Plain.not_postfixed {op : Operator φ} (h : op.Plain) (hp : op.starting.affix = .prefixed) :
    op.extending.affix ≠ .postfixed := by
  cases h with
  | simple hs =>
    rw [starting, hs.leading_eq, hs.leading_eq] at hp
    rw [extending, hs.continuing_eq, hs.continuing_eq, hp]
    simp
  | both _ _ _ hne => exact fun hx => hne ⟨hp, hx⟩

/-- The operand count of a simple operator. -/
def simpleArity : Affix → Arity
  | .nilfix => .nullary
  | .infixed => .binary
  | _ => .unary

theorem Simple.arity_eq {op : Operator φ} (h : op.Simple) : op.arity = simpleArity op.affix := by
  cases h with
  | nilfix ha hn => simp only [arity, affix, shape, ha, hn, simpleArity]
  | prefixed ha hn => simp only [arity, affix, shape, ha, hn, simpleArity]
  | postfixed ha hn => simp only [arity, affix, shape, ha, hn, simpleArity]
  | infixed ha hn => simp only [arity, affix, shape, ha, hn, simpleArity]

theorem Simple.arity_ne_ternary {op : Operator φ} (h : op.Simple) : op.arity ≠ .ternary := by
  rw [h.arity_eq]
  unfold simpleArity
  split <;> simp

theorem Simple.not_circumfix {op : Operator φ} (h : op.Simple) : op.affix ≠ .circumfix := by
  cases h <;> simp_all [affix, shape]

theorem Plain.starting_arity {op : Operator φ} (h : op.Plain) :
    op.starting.arity = simpleArity op.starting.affix := by
  rw [← h.leading_eq]
  exact h.parts.1.arity_eq

theorem Plain.extending_arity {op : Operator φ} (h : op.Plain) :
    op.extending.arity = simpleArity op.extending.affix := by
  rw [← h.continuing_eq]
  exact h.parts.2.arity_eq

/-- The declared level on the scale of the powers. -/
def scaled (op : Operator φ) : Nat := 10 * op.precedence.val

section Powers

variable {op : Operator φ} (hd : op.precedence.val ≤ Precedence.maxDeclared)

include hd

theorem rightPower_val : op.rightPower.val =
    match op.associativity with
    | .left => op.scaled
    | .right => op.scaled - 1
    | .neither => op.scaled + 1 := by
  have hn := Precedence.normalize_of_le hd
  have hmax : Precedence.maxDeclared = 429496728 := rfl
  unfold rightPower scaled
  cases op.associativity with
  | left => exact hn
  | right => simp only [Precedence.lower_val, hn]
  | neither => simp only [Precedence.raise_val, hn]; omega

theorem operandPower_val : op.operandPower.val = op.scaled - 1 := by
  unfold operandPower scaled
  rw [Precedence.lower_val, Precedence.normalize_of_le hd]

/-- Only an operator between two operands bounds what follows. -/
theorem nextPower_val (ha : op.affix = .infixed) : op.nextPower.val =
    if op.associativity = .neither then op.scaled else op.scaled + 1 := by
  have hn := Precedence.normalize_of_le hd
  have hmax : Precedence.maxDeclared = 429496728 := rfl
  unfold nextPower scaled
  simp only [ha]
  cases op.associativity with
  | left => simp only [Precedence.raise_val, hn]; simp; omega
  | right => simp only [Precedence.raise_val, hn]; simp; omega
  | neither => simp [hn]

end Powers

theorem nextPower_of_ne {op : Operator φ} (ha : op.affix ≠ .infixed) : op.nextPower = .top := by
  unfold nextPower
  split
  · contradiction
  · rfl

theorem Plain.leftPower_eq {op : Operator φ} (h : op.Plain)
    (he : op.extending.affix = .postfixed ∨ op.extending.affix = .infixed) :
    op.leftPower = op.extending.precedence.normalize := by
  unfold leftPower
  rw [h.continuing_eq]
  rcases he with he | he <;> simp only [he]

theorem Plain.leftPower_eq_bottom {op : Operator φ} (h : op.Plain)
    (he : ¬(op.extending.affix = .postfixed ∨ op.extending.affix = .infixed)) :
    op.leftPower = .bottom := by
  unfold leftPower
  rw [h.continuing_eq]
  split <;> simp_all

end Operator

end BindingPower
