import BindingPower.Proofs.Roles
import BindingPower.Proofs.TreeReading

/-! # Spines

The operators on the left edge of a tree are those that an operand in front of it could reach; those
on its right edge are those that an operator behind it could reach. A tree is well bracketed by
a table if, at every node, the edges that meet there leave the operands to the right operator. -/
namespace BindingPower

variable {τ φ ε : Type}

/-- A table of plain operators whose levels are within range. -/
structure PlainTable (query : τ → Except (Failure τ φ ε) (Operator φ)) : Prop where
  plain : ∀ ⦃t op⦄, query t = .ok op → op.Plain
  declared : ∀ ⦃t op⦄, query t = .ok op → op.Declared

namespace Operator

/-- Whether an operand between `p` and `q`, from left to right, goes to `q`. -/
def Cedes (p q : Operator φ) : Prop :=
  p.precedence < q.precedence ∨ p.precedence = q.precedence ∧ p.associativity = .right

/-- Whether an operand between `p` and `q`, from left to right, goes to `p`. -/
def Keeps (p q : Operator φ) : Prop :=
  q.precedence < p.precedence ∨
    q.precedence = p.precedence ∧ p.affix = .infixed ∧ p.associativity = .left

instance (p q : Operator φ) : Decidable (p.Cedes q) := inferInstanceAs (Decidable (_ ∨ _))

instance (p q : Operator φ) : Decidable (p.Keeps q) := inferInstanceAs (Decidable (_ ∨ _))

end Operator

namespace Tree

variable (query : τ → Except (Failure τ φ ε) (Operator φ))

/-- The operator of a token; one that cannot be classified counts as a leaf. -/
def operatorOf (t : τ) : Operator φ :=
  match query t with
  | .ok op => op
  | .error _ => .nilfix

/-- Whether a token with one operand stands behind it. -/
def trails (t : τ) : Bool := (operatorOf query t).extending.affix = .postfixed

/-- The tokens of a tree from left to right. -/
def tokens : Tree τ → List τ
  | leaf t => [t]
  | unary t x => if trails query t then x.tokens ++ [t] else t :: x.tokens
  | binary t l r => l.tokens ++ t :: r.tokens
  | ternary t a b c => a.tokens ++ t :: (b.tokens ++ c.tokens)

/-- The continuing operators that are met on the way down the left operands. -/
def leftSpine : Tree τ → List (Operator φ)
  | unary t x => if trails query t then (operatorOf query t).extending :: x.leftSpine else []
  | binary t l _ => (operatorOf query t).extending :: l.leftSpine
  | _ => []

/-- The operators with an operand on their right that are met on the way down these operands. -/
def rightSpine : Tree τ → List (Operator φ)
  | unary t x => if trails query t then [] else (operatorOf query t).starting :: x.rightSpine
  | binary t _ r => (operatorOf query t).extending :: r.rightSpine
  | _ => []

inductive Valid : Tree τ → Prop where
  | leaf {t : τ} {op : Operator φ} (hq : query t = .ok op) (ha : op.starting.affix = .nilfix) :
    Valid (leaf t)
  | prefixed {t : τ} {op : Operator φ} {x : Tree τ} (hq : query t = .ok op)
    (ha : op.starting.affix = .prefixed) (hx : Valid x)
    (hl : ∀ q ∈ x.leftSpine query, op.starting.precedence ≤ q.precedence) : Valid (unary t x)
  | postfixed {t : τ} {op : Operator φ} {x : Tree τ} (hq : query t = .ok op)
    (ha : op.extending.affix = .postfixed) (hx : Valid x)
    (hr : ∀ q ∈ x.rightSpine query, q.Keeps op.extending) : Valid (unary t x)
  | infixed {t : τ} {op : Operator φ} {l r : Tree τ} (hq : query t = .ok op)
    (ha : op.extending.affix = .infixed) (hx : Valid l) (hy : Valid r)
    (hl : ∀ q ∈ r.leftSpine query, op.extending.Cedes q)
    (hr : ∀ q ∈ l.rightSpine query, q.Keeps op.extending) : Valid (binary t l r)

variable {query} {t : τ} {op : Operator φ} {x : Tree τ}

theorem operatorOf_eq (hq : query t = .ok op) : operatorOf query t = op := by
  simp only [operatorOf, hq]

theorem trails_of_postfixed (hq : query t = .ok op) (ha : op.extending.affix = .postfixed) :
    trails query t = true := by
  simp [trails, operatorOf_eq hq, ha]

theorem trails_of_prefixed (hp : PlainTable query) (hq : query t = .ok op)
    (ha : op.starting.affix = .prefixed) : trails query t = false := by
  have hne := (hp.plain hq).not_postfixed ha
  simp [trails, operatorOf_eq hq, hne]

section Postfixed

variable (hq : query t = .ok op) (ha : op.extending.affix = .postfixed) (x : Tree τ)

include hq ha

theorem tokens_postfixed : (unary t x).tokens query = x.tokens query ++ [t] := by
  rw [tokens, trails_of_postfixed hq ha, if_pos rfl]

theorem leftSpine_postfixed :
    (unary t x).leftSpine query = op.extending :: x.leftSpine query := by
  rw [leftSpine, trails_of_postfixed hq ha, if_pos rfl, operatorOf_eq hq]

theorem rightSpine_postfixed : (unary t x).rightSpine query = [] := by
  rw [rightSpine, trails_of_postfixed hq ha, if_pos rfl]

end Postfixed

section Prefixed

variable (hp : PlainTable query) (hq : query t = .ok op) (ha : op.starting.affix = .prefixed)
  (x : Tree τ)

include hp hq ha

theorem tokens_prefixed : (unary t x).tokens query = t :: x.tokens query := by
  rw [tokens, trails_of_prefixed hp hq ha, if_neg (by simp)]

theorem leftSpine_prefixed : (unary t x).leftSpine query = [] := by
  rw [leftSpine, trails_of_prefixed hp hq ha, if_neg (by simp)]

theorem rightSpine_prefixed :
    (unary t x).rightSpine query = op.starting :: x.rightSpine query := by
  rw [rightSpine, trails_of_prefixed hp hq ha, if_neg (by simp), operatorOf_eq hq]

end Prefixed

theorem leftSpine_infixed (hq : query t = .ok op) (l r : Tree τ) :
    (binary t l r).leftSpine query = op.extending :: l.leftSpine query := by
  rw [leftSpine, operatorOf_eq hq]

theorem rightSpine_infixed (hq : query t = .ok op) (l r : Tree τ) :
    (binary t l r).rightSpine query = op.extending :: r.rightSpine query := by
  rw [rightSpine, operatorOf_eq hq]

/-- What holds of every continuing operator of a table holds on the left edge of a tree. -/
theorem Valid.forall_leftSpine {P : Operator φ → Prop} (hp : PlainTable query)
    (hx : Valid query x)
    (h : ∀ ⦃t op⦄, query t = .ok op →
      op.extending.affix = .postfixed ∨ op.extending.affix = .infixed → P op.extending) :
    ∀ q ∈ x.leftSpine query, P q := by
  induction hx with
  | leaf => simp [leftSpine]
  | prefixed hq ha => simp [leftSpine_prefixed hp hq ha]
  | postfixed hq ha _ _ ih =>
    rw [leftSpine_postfixed hq ha]
    simp only [List.forall_mem_cons]
    exact ⟨h hq (.inl ha), ih⟩
  | infixed hq ha _ _ _ _ ihl =>
    rw [leftSpine_infixed hq]
    simp only [List.forall_mem_cons]
    exact ⟨h hq (.inr ha), ihl⟩

/-- What holds of every operator of a table that takes an operand on its right holds on the right
edge of a tree. -/
theorem Valid.forall_rightSpine {P : Operator φ → Prop} (hp : PlainTable query)
    (hx : Valid query x)
    (hprefixed : ∀ ⦃t op⦄, query t = .ok op → op.starting.affix = .prefixed → P op.starting)
    (hinfixed : ∀ ⦃t op⦄, query t = .ok op → op.extending.affix = .infixed → P op.extending) :
    ∀ q ∈ x.rightSpine query, P q := by
  induction hx with
  | leaf => simp [rightSpine]
  | prefixed hq ha _ _ ih =>
    rw [rightSpine_prefixed hp hq ha]
    simp only [List.forall_mem_cons]
    exact ⟨hprefixed hq ha, ih⟩
  | postfixed hq ha => simp [rightSpine_postfixed hq ha]
  | infixed hq ha _ _ _ _ _ ihr =>
    rw [rightSpine_infixed hq]
    simp only [List.forall_mem_cons]
    exact ⟨hinfixed hq ha, ihr⟩

/-- A sign that is prefixed and infixed, a product that nests to the right and a postfixed mark. -/
def signs (t : Char) : Except (Failure Char Empty Empty) (Operator Empty) :=
  .ok <|
    if t = '-' then .prefixedOrInfixed (.saturate 3) (.saturate 1) .left
    else if t = '*' then .infixed (.saturate 2) .right
    else if t = '!' then .postfixed (.saturate 4)
    else .nilfix

/-- The tree of `-x*y-z!`, where the first sign is prefixed. -/
def signed : Tree Char :=
  binary '-' (binary '*' (unary '-' (leaf 'x')) (leaf 'y')) (unary '!' (leaf 'z'))

theorem signs_plainTable : PlainTable signs where
  plain t op h := by
    cases h
    split
    · exact .both (.prefixed rfl rfl) (.infixed rfl rfl) (Operator.either_prefixed_infixed _ _ _)
        (by simp [Operator.extending, Operator.prefixedOrInfixed, Operator.infixed,
          Operator.affix, Operator.shape])
    · split
      · exact .simple (.infixed rfl rfl)
      · split
        · exact .simple (.postfixed rfl rfl)
        · exact .simple (.nilfix rfl rfl)
  declared t op h := by
    cases h
    split
    · exact ⟨fun _ => by decide, fun _ => by decide⟩
    · split
      · exact ⟨fun _ => by decide, fun _ => by decide⟩
      · split
        · exact ⟨fun _ => by decide, fun _ => by decide⟩
        · exact ⟨fun _ => by decide, fun _ => by decide⟩

end Tree

end BindingPower
