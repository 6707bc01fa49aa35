import BindingPower.Proofs.Roles
import BindingPower.Proofs.Steps
import BindingPower.Proofs.TreeReading

/-! # Yields

The tokens that a plain tree stands for, in the order in which they were read. Where an operator
may have a separator between two of its operands there is at most one token. What an operand
takes from the stream is a yield of its tree, and the rest of the stream is left as it was. -/
namespace BindingPower

variable {τ φ ε : Type}

theorem Affix.isSeparator_iff (a : Affix) : a.isSeparator = true ↔ a = interfix ∨ a = circumfix := by
  cases a <;> simp [isSeparator]

namespace Tree

/-- What stands where a separator may: nothing, or one token. A strict parser does not leave out
a separator whose mark is declared. -/
inductive Slot (query : τ → Except (Failure τ φ ε) (Operator φ))
    (isFollow : τ → φ → Except (Failure τ φ ε) Bool) (strict : Bool) :
    Option φ → List τ → Prop where
  | nothing {expected : Option φ} (h : strict = true → expected = none) :
    Slot query isFollow strict expected []
  | plain {t : τ} {op : Operator φ} (hq : query t = .ok op) (ha : op.affix = .interfix) :
    Slot query isFollow strict none [t]
  | marked {t : τ} {op : Operator φ} {mark : φ} (hq : query t = .ok op)
    (ha : op.affix = .interfix ∨ op.affix = .circumfix) (hf : isFollow t mark = .ok true) :
    Slot query isFollow strict (some mark) [t]

inductive Yields (query : τ → Except (Failure τ φ ε) (Operator φ))
    (isFollow : τ → φ → Except (Failure τ φ ε) Bool) (strict : Bool) :
    Tree τ → List τ → Prop where
  | leaf {t : τ} {op : Operator φ} (hq : query t = .ok op)
    (ha : op.starting.affix = .nilfix) (hn : op.starting.arity = .nullary) :
    Yields query isFollow strict (leaf t) [t]
  | prefixed {t : τ} {op : Operator φ} {x : Tree τ} {xs : List τ} (hq : query t = .ok op)
    (ha : op.starting.affix = .prefixed) (hn : op.starting.arity = .unary)
    (hx : Yields query isFollow strict x xs) :
    Yields query isFollow strict (unary t x) ([t] ++ xs)
  | postfixed {t : τ} {op : Operator φ} {x : Tree τ} {xs : List τ} (hq : query t = .ok op)
    (ha : op.extending.affix = .postfixed) (hn : op.extending.arity = .unary)
    (hx : Yields query isFollow strict x xs) :
    Yields query isFollow strict (unary t x) (xs ++ [t])
  | circumfix {t : τ} {op : Operator φ} {x : Tree τ} {xs gap : List τ} (hq : query t = .ok op)
    (ha : op.starting.affix = .circumfix) (hn : op.starting.arity = .unary)
    (hx : Yields query isFollow strict x xs)
    (hg : Slot query isFollow strict op.starting.follow[0]? gap) :
    Yields query isFollow strict (unary t x) ([t] ++ xs ++ gap)
  | infixed {t : τ} {op : Operator φ} {l r : Tree τ} {ls rs : List τ} (hq : query t = .ok op)
    (ha : op.extending.affix = .infixed) (hn : op.extending.arity = .binary)
    (hl : Yields query isFollow strict l ls) (hr : Yields query isFollow strict r rs) :
    Yields query isFollow strict (binary t l r) (ls ++ [t] ++ rs)
  | prefixedTernary {t : τ} {op : Operator φ} {a b c : Tree τ} {as bs cs gap₀ gap₁ : List τ}
    (hq : query t = .ok op) (ha : op.starting.affix = .prefixed)
    (hn : op.starting.arity = .ternary) (h₁ : Yields query isFollow strict a as)
    (hg₀ : Slot query isFollow strict op.starting.follow[0]? gap₀)
    (h₂ : Yields query isFollow strict b bs)
    (hg₁ : Slot query isFollow strict op.starting.follow[1]? gap₁)
    (h₃ : Yields query isFollow strict c cs) :
    Yields query isFollow strict (ternary t a b c) ([t] ++ as ++ gap₀ ++ bs ++ gap₁ ++ cs)
  | ternary {t : τ} {op : Operator φ} {a b c : Tree τ} {as bs cs gap : List τ}
    (hq : query t = .ok op)
    (ha : op.extending.affix = .postfixed ∨ op.extending.affix = .infixed)
    (hn : op.extending.arity = .ternary) (h₁ : Yields query isFollow strict a as)
    (h₂ : Yields query isFollow strict b bs)
    (hg : Slot query isFollow strict op.extending.follow[0]? gap)
    (h₃ : Yields query isFollow strict c cs) :
    Yields query isFollow strict (ternary t a b c) (as ++ [t] ++ bs ++ gap ++ cs)

section Steps

variable {config : Config} {query : τ → Except (Failure τ φ ε) (Operator φ)}
  {isFollow : τ → φ → Except (Failure τ φ ε) Bool} {room depth : Nat} {stop : τ → Bool}
  {head : τ} {op : Operator φ} {lhs x : Tree τ} {ts rest : List τ}

theorem Yields.ne_nil {strict : Bool} (h : Yields query isFollow strict x ts) : ts ≠ [] := by
  cases h <;> simp

theorem slot_of_eats {expected : Option φ}
    (h : ((scheme config query isFollow).readerIn room depth stop).Eats expected ts rest) :
    ∃ gap, ts = gap ++ rest ∧ Slot query isFollow config.strictInterfix expected gap := by
  cases h with
  | nothing h => exact ⟨[], rfl, .nothing h⟩
  | plain hq ha => exact ⟨_, rfl, .plain (Reading.contained_eq_ok.mp hq) ha⟩
  | marked hq ha hf =>
    exact ⟨_, rfl, .marked (Reading.contained_eq_ok.mp hq) ((Affix.isSeparator_iff _).mp ha)
      (Reading.contained_eq_ok.mp hf)⟩

/-- Every operand takes a yield of its tree from the stream. -/
def Yielding (config : Config) (query : τ → Except (Failure τ φ ε) (Operator φ))
    (isFollow : τ → φ → Except (Failure τ φ ε) Bool) (ts : List τ) (x : Tree τ)
    (rest : List τ) : Prop :=
  ∃ used, ts = used ++ rest ∧ Yields query isFollow config.strictInterfix x used

variable (below : ∀ ⦃p x ts rest⦄,
  ((scheme config query isFollow).readerIn room depth stop).operand p ts = .ok x rest →
    Yielding config query isFollow ts x rest)

include below

theorem yields_of_starts (hq : query head = .ok op)
    (h : ((scheme config query isFollow).readerIn room depth stop).Starts head op.starting
      x ts rest) :
    Yielding config query isFollow (head :: ts) x rest := by
  cases h with
  | leaf ha hn hx =>
    cases hx
    exact ⟨[head], rfl, .leaf hq ha hn⟩
  | prefixed ha hn h₁ hx =>
    cases hx
    obtain ⟨as, rfl, ya⟩ := below h₁
    exact ⟨_, by simp, .prefixed hq ha hn ya⟩
  | mixfix ha hn h₁ e₁ h₂ e₂ h₃ hx =>
    cases hx
    obtain ⟨as, rfl, ya⟩ := below h₁
    obtain ⟨gap₀, rfl, hg₀⟩ := slot_of_eats e₁
    obtain ⟨bs, rfl, yb⟩ := below h₂
    obtain ⟨gap₁, rfl, hg₁⟩ := slot_of_eats e₂
    obtain ⟨cs, rfl, yc⟩ := below h₃
    exact ⟨_, by simp, .prefixedTernary hq ha hn ya hg₀ yb hg₁ yc⟩
  | circumfix ha hn h₁ e₁ hx =>
    cases hx
    obtain ⟨as, rfl, ya⟩ := below h₁
    obtain ⟨gap, rfl, hg⟩ := slot_of_eats e₁
    exact ⟨_, by simp, .circumfix hq ha hn ya hg⟩

/-- What extends an expression adds to its yield. -/
theorem yields_of_extends {done : List τ} (hq : query head = .ok op)
    (hl : Yields query isFollow config.strictInterfix lhs done)
    (h : ((scheme config query isFollow).readerIn room depth stop).Extends head op.extending
      lhs x ts rest) :
    Yielding config query isFollow (done ++ head :: ts) x rest := by
  cases h with
  | postfixed ha hn hx =>
    cases hx
    exact ⟨_, by simp, .postfixed hq ha hn hl⟩
  | infixed ha hn h₁ hx =>
    cases hx
    obtain ⟨bs, rfl, yb⟩ := below h₁
    exact ⟨_, by simp, .infixed hq ha hn hl yb⟩
  | mixfix ha hn h₁ e₁ h₂ hx =>
    cases hx
    obtain ⟨bs, rfl, yb⟩ := below h₁
    obtain ⟨gap, rfl, hg⟩ := slot_of_eats e₁
    obtain ⟨cs, rfl, yc⟩ := below h₂
    exact ⟨_, by simp, .ternary hq ha hn hl yb hg yc⟩

theorem yields_of_continues {done : List τ} {rbp nbp : Precedence}
    (h : ((scheme config query isFollow).readerIn room depth stop).Continues rbp nbp
      lhs ts x rest)
    (hl : Yields query isFollow config.strictInterfix lhs done) :
    Yielding config query isFollow (done ++ ts) x rest := by
  induction h generalizing done with
  | stop => exact ⟨done, rfl, hl⟩
  | step _ hq _ h₁ _ ih =>
    obtain ⟨more, hm, ym⟩ := yields_of_extends below (Reading.contained_eq_ok.mp hq) hl h₁
    rw [hm]
    exact ih ym

end Steps

variable {config : Config} {query : τ → Except (Failure τ φ ε) (Operator φ)}
  {isFollow : τ → φ → Except (Failure τ φ ε) Bool}

theorem operand_yielding {room depth : Nat} {stop : τ → Bool} {rbp : Precedence} {x : Tree τ}
    {ts rest : List τ}
    (h : (scheme config query isFollow).operand room depth stop rbp ts = .ok x rest) :
    Yielding config query isFollow ts x rest := by
  refine Scheme.operand_induction (P := fun _ ts x rest => Yielding config query isFollow ts x rest)
    ?_ h
  intro room depth below rbp head op mid x ts ts₁ rest hq h₁ h₂
  obtain ⟨used, hu, yu⟩ := yields_of_starts below (Reading.contained_eq_ok.mp hq) h₁
  rw [hu]
  exact yields_of_continues below h₂ yu

/-- What a run takes from the stream is a yield of the tree that it returns, and no less than a
token; the stream has moved on by the length of that yield. -/
theorem parseUntil_yields {rbp : Int} {stop : Option (τ → Bool)} {s t : Session τ φ (Tree τ) ε}
    {tokens : List τ} {x : Tree τ} (hs : s.cursor.items = tokens.map .token)
    (h : (parser config query isFollow).parseUntil rbp (stop.map Stop.ofPredicate) s = .ok x t) :
    ∃ used rest, tokens = used ++ rest ∧ used ≠ [] ∧
      Yields query isFollow config.strictInterfix x used ∧
      t.cursor.items = rest.map .token ∧ t.cursor.position = s.cursor.position + used.length := by
  have follows := (parser_follows config query isFollow).parseUntil (d := s.depth) rbp stop
  obtain ⟨rest, hr, hread⟩ := follows.ok rfl hs h
  obtain ⟨room, d, p, -, ho⟩ := Scheme.parseUntil_ok hr
  obtain ⟨used, hu, yu⟩ := operand_yielding ho
  have moved := hread.position
  rw [hu, List.length_append] at moved
  exact ⟨used, rest, hu, yu.ne_nil, yu, hread.items, by omega⟩

/-- A conditional with two separators, and bars around an operand. -/
def conditional (t : Char) : Except (Failure Char Char Empty) (Operator Char) :=
  .ok <|
    if t = '?' then .mixfix .prefixed (.saturate 2) [':', ';'] .left
    else if t = ':' ∨ t = ';' then .interfix
    else if t = '|' then .circumfix (.saturate 3) '|'
    else .nilfix

theorem parseUntil_yields_conditional :
    ∃ t, (parser ⟨true, false, 4, by decide⟩ conditional fun t mark => .ok (t == mark)).parseUntil 0
        (Option.map Stop.ofPredicate none)
        (.start (.ofTokens ['?', '|', 'x', '|', ':', 'y', ';', 'z', 'w'])) =
          .ok (ternary '?' (unary '|' (leaf 'x')) (leaf 'y') (leaf 'z')) t ∧
      ∃ used rest, ['?', '|', 'x', '|', ':', 'y', ';', 'z', 'w'] = used ++ rest ∧ used ≠ [] ∧
        Yields conditional (fun t mark => .ok (t == mark)) true
          (ternary '?' (unary '|' (leaf 'x')) (leaf 'y') (leaf 'z')) used ∧
        t.cursor.items = rest.map .token ∧ t.cursor.position = 0 + used.length := by
  have hreturned : returned? ((parser ⟨true, false, 4, by decide⟩ conditional fun t mark =>
      .ok (t == mark)).parseUntil 0 (Option.map Stop.ofPredicate none)
        (.start (.ofTokens ['?', '|', 'x', '|', ':', 'y', ';', 'z', 'w']))) =
      some (ternary '?' (unary '|' (leaf 'x')) (leaf 'y') (leaf 'z')) := by
    decide +kernel
  obtain ⟨t, ht⟩ := returned?_eq_some.mp hreturned
  exact ⟨t, ht, parseUntil_yields rfl ht⟩

end Tree

end BindingPower
