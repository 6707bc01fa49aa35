import BindingPower.Proofs.Calc.CalcReading
import BindingPower.Proofs.Relimiting

/-! # Groups and their members

A group stands three levels above its members: one for itself and two for the run that reads them.
With that many levels more it is read as its members are read on their own, where nothing may be
left of them; a nesting that is too deep tells the limit that it has exceeded. -/
namespace BindingPower

variable {τ φ ν ε α ς : Type}

/-- What a computation ends in, apart from its state. -/
def outcome : EStateM.Result ε ς α → Except ε α
  | .ok a _ => .ok a
  | .error e _ => .error e

/-- A run comes to the same as the reading that it follows. -/
theorem Run.Follows.outcome_eq {d : Nat} {m : Run τ φ ν ε α} {r : Reading τ φ ε α}
    {s : Session τ φ ν ε} {ts : List τ} (h : Follows d m r) (hd : s.depth = d)
    (hs : s.cursor.items = ts.map .token) : outcome (m s) = outcome (r ts) := by
  cases hr : r ts with
  | ok a rest =>
    obtain ⟨t, ht, -⟩ := h.of_ok hd hs hr
    rw [ht]
    rfl
  | error f rest =>
    obtain ⟨t, ht, -⟩ := h.of_error hd hs hr
    rw [ht]
    rfl

/-- An operand that is one leaf comes to what the leaf does. -/
theorem Reader.climb_of_leaf {r : Reader τ φ ν ε} {rbp : Precedence} {head : τ} {op : Operator φ}
    (hq : r.rules.query head = .ok op) (ha : op.leading.leading.affix = .nilfix)
    (hn : op.leading.leading.arity = .nullary) :
    r.climb rbp head [head] = Reading.answer (r.rules.nullary head) [] := by
  have hclimb : r.climb rbp head [head] =
      (Reading.answer (r.rules.nullary head) >>= fun node => do
        r.continued rbp (← get).length op.leading.nextPower node) [] := by
    change (Reading.answer (r.rules.query head) >>= _) [] = _
    rw [bind_of_ok (answer_of_ok hq), r.nud_of_nilfix head _ ha hn]
  rw [hclimb]
  cases r.rules.nullary head with
  | ok x => exact continued_nil
  | error f => rfl

namespace Calc

open Reading

variable {config config' : Config} {inner inner' : Precedence → Reading Token String Fault Expr}

/-- The configuration with the levels that a group takes for itself. -/
def enclosing (config : Config) (requireEnd : Bool) : Config :=
  ⟨config.strictInterfix, requireEnd, config.maxDepth + 3, Nat.succ_pos _⟩

/-- The configuration under which the whole input has to be read. -/
def complete (config : Config) : Config := { config with requireEnd := true }

theorem rules_reporting (config : Config) (depth : Nat)
    (inner : Precedence → Reading Token String Fault Expr) :
    (rules config depth inner).Keep Failure.Reported fun _ => True where
  query _ _ := contained_reporting _ _ _
  nullary _ _ := contained_reporting _ _ _
  unary _ _ _ := contained_reporting _ _ _
  binary _ _ _ _ := contained_reporting _ _ _
  ternary _ _ _ _ _ := contained_reporting _ _ _
  isFollow _ _ _ := trivial

/-- Whatever an operand fails with is a report. -/
theorem operand_reporting (config : Config) (room depth : Nat) (stop : Token → Bool)
    (rbp : Precedence) :
    Ensures (fun _ => True) Failure.Reported (fun _ => True)
      ((scheme config).operand room depth stop rbp) :=
  (Scheme.upholds_of_keep Failure.reported_allowed fun depth inner _ =>
    rules_reporting config depth inner).operand room depth stop rbp

theorem ofGroup_reporting {r : Reading Token String Fault Expr}
    (hr : Ensures (fun _ => True) Failure.Reported (fun _ => True) r) (ts : List Token) :
    Reporting (ofGroup (r ts)) := by
  have hmembers := hr ts fun _ _ => trivial
  cases hread : r ts with
  | error f rest =>
    rw [hread] at hmembers
    exact hmembers
  | ok e rest =>
    cases rest with
    | nil => trivial
    | cons t more => exact ⟨_, rfl⟩

theorem ofGroup_relimited (r : Reading Token String Fault Expr) (limit : Nat) (ts : List Token) :
    ofGroup (r.relimited limit ts) = retold limit (ofGroup (r ts)) := by
  cases hread : r ts with
  | error f rest =>
    rw [relimited_of_error hread]
    rfl
  | ok e rest =>
    rw [relimited_of_ok hread]
    cases rest <;> rfl

/-- The answer of a callback that asks for nothing is told alike at any depth. -/
theorem contained_settled {α : Type} {c : Answer α} (hc : Prompt c) (limit depth limit' depth' : Nat) :
    contained limit' depth' (settled c) = retold limit' (contained limit depth (settled c)) := by
  cases hc <;> rfl

/-- The rules answer alike but for the limit if the runs that they ask for end alike. -/
theorem rules_relimited (hi : ∀ p, inner' p = (inner p).relimited config'.maxDepth)
    (hr : Ensures (fun _ => True) Failure.Reported (fun _ => True) (inner .bottom))
    (depth depth' : Nat) :
    rules config' depth' inner' = (rules config depth inner).relimited config'.maxDepth := by
  simp only [rules, Rules.relimited, Rules.mk.injEq]
  refine ⟨funext fun t => ?_, funext fun t => ?_, funext fun t => funext fun x => ?_,
    funext fun t => funext fun x => funext fun y => ?_,
    funext fun t => funext fun x => funext fun y => funext fun z => ?_, rfl⟩
  · exact contained_settled (classify_prompt t) _ _ _ _
  · by_cases hk : t.kind = .group
    · rw [if_pos hk, if_pos hk, hi, ofGroup_relimited]
      exact contained_retold (ofGroup_reporting hr t.children) _ _ _ _
    · rw [if_neg hk, if_neg hk]
      exact contained_settled (readLeaf_prompt hk) _ _ _ _
  · exact contained_settled (buildUnary_prompt t x) _ _ _ _
  · exact contained_settled (buildBinary_prompt t x y) _ _ _ _
  · exact contained_settled (buildTernary_prompt t x y z) _ _ _ _

theorem operand_relimited_of {room depth depth' : Nat} {stop : Token → Bool} {rbp : Precedence}
    (h : ∀ t, (scheme config').operandIn room depth' stop rbp t =
      ((scheme config).operandIn room depth stop rbp t).relimited config'.maxDepth) :
    (scheme config').operand room depth' stop rbp =
      ((scheme config).operand room depth stop rbp).relimited config'.maxDepth := by
  rw [Scheme.operand, Scheme.operand, relimited_startingAt]
  exact congrArg _ (funext h)

/-- With the same room an operand is read alike at any depth. -/
theorem operandIn_relimited (hs : config'.strictInterfix = config.strictInterfix)
    (room depth depth' : Nat) (stop : Token → Bool) (rbp : Precedence) (head : Token) :
    (scheme config').operandIn room depth' stop rbp head =
      ((scheme config).operandIn room depth stop rbp head).relimited config'.maxDepth := by
  -- a depth is only told where a callback runs out of levels itself, and none does
  induction room using Nat.strongRecOn generalizing depth depth' stop rbp head with
  | ind room ih =>
    cases room with
    | zero =>
      rw [Scheme.operandIn_zero, Scheme.operandIn_zero]
      rfl
    | succ n =>
      rw [Scheme.operandIn_succ, Scheme.operandIn_succ, ← Reader.climb_relimited]
      have inner (p : Precedence) :
          (scheme config').operand (n - reentryCost) (depth' + 1 + reentryCost) never p =
            ((scheme config).operand (n - reentryCost) (depth + 1 + reentryCost) never
              p).relimited config'.maxDepth :=
        operand_relimited_of fun t => ih (n - reentryCost) (by omega) _ _ never p t
      have below (p : Precedence) : (scheme config').operand n (depth' + 1) stop p =
          ((scheme config).operand n (depth + 1) stop p).relimited config'.maxDepth :=
        operand_relimited_of fun t => ih n (Nat.lt_succ_self n) _ _ stop p t
      have readers : (scheme config').readerIn n depth' stop =
          ((scheme config).readerIn n depth stop).relimited config'.maxDepth := by
        rw [Scheme.readerIn, Scheme.readerIn, Scheme.reader, Scheme.reader, Reader.relimited,
          Reader.mk.injEq]
        exact ⟨hs, rfl, rules_relimited inner (operand_reporting config _ _ _ _) _ _, rfl,
          funext below⟩
      rw [readers]

/-- Where the whole input has to be read, a list of tokens comes to what the group of them does. -/
theorem parse_complete (config : Config) (ts : List Token) :
    outcome ((scheme (complete config)).parse 0 ts) =
      ofGroup ((scheme (complete config)).operand config.maxDepth 0 never .bottom ts) := by
  rw [Scheme.parse, Scheme.entered, Scheme.above_floor]
  change outcome (((scheme (complete config)).operand config.maxDepth 0 never .bottom >>= _) ts) = _
  cases hread : (scheme (complete config)).operand config.maxDepth 0 never .bottom ts with
  | error f rest =>
    rw [bind_of_error hread]
    rfl
  | ok e rest =>
    rw [bind_of_ok hread]
    cases rest <;> rfl

/-- An operand that is a group and nothing else comes to what its members come to. -/
theorem operand_group (config : Config) (room : Nat) (lexeme : String) (members : List Token)
    (location : Option Location) :
    (scheme config).operand (room + 1) 0 never .bottom [.mk .group lexeme members location] =
      Reading.answer (contained config.maxDepth 1 (ofGroup ((scheme config).operand
        (room - reentryCost) (1 + reentryCost) never .bottom members))) [] := by
  let head := Token.mk .group lexeme members location
  have hclimb : (scheme config).operand (room + 1) 0 never .bottom [head] =
      ((scheme config).readerIn room 0 never).climb .bottom head [head] :=
    (Scheme.operand_comes (room + 1) rfl).1 (Nat.succ_pos room)
  have hquery : ((scheme config).readerIn room 0 never).rules.query head = .ok .nilfix := rfl
  exact hclimb.trans (Reader.climb_of_leaf hquery rfl rfl)

/-- A group that takes all tokens comes to what its members come to. -/
theorem parse_group (config : Config) (requireEnd : Bool) (lexeme : String)
    (members : List Token) (location : Option Location) :
    outcome ((scheme (enclosing config requireEnd)).parse 0 [.mk .group lexeme members location]) =
      ofGroup ((scheme (enclosing config requireEnd)).operand config.maxDepth (1 + reentryCost) never
        .bottom members) := by
  have hoperand := operand_group (enclosing config requireEnd) (config.maxDepth + 2) lexeme members
    location
  rw [contained_eq_self (ofGroup_reporting (operand_reporting _ _ _ _ _) members)] at hoperand
  rw [Scheme.parse, Scheme.entered, Scheme.above_floor]
  change outcome (((scheme (enclosing config requireEnd)).operand (config.maxDepth + 2 + 1) 0 never
    .bottom >>= _) _) = ofGroup ((scheme (enclosing config requireEnd)).operand
      (config.maxDepth + 2 - reentryCost) (1 + reentryCost) never .bottom members)
  cases hall : ofGroup ((scheme (enclosing config requireEnd)).operand
      (config.maxDepth + 2 - reentryCost) (1 + reentryCost) never .bottom members) with
  | error f =>
    rw [hall] at hoperand
    rw [bind_of_error hoperand]
    rfl
  | ok e =>
    rw [hall] at hoperand
    rw [bind_of_ok hoperand]
    split <;> rfl

/-- A group comes to what its members come to on their own with three levels less, where nothing
may be left of them. Only the limit of a nesting that is too deep is told differently. -/
theorem parseTokens_group (config : Config) (requireEnd : Bool) (lexeme : String)
    (members : List Token) (location : Option Location) :
    outcome (parseTokens [.mk .group lexeme members location] (enclosing config requireEnd)) =
      (outcome (parseTokens members (complete config))).mapError
        (Failure.relimited (config.maxDepth + 3)) := by
  let group := Token.mk .group lexeme members location
  let outer := enclosing config requireEnd
  let inner := complete config
  have hgroup : outcome (parseTokens [group] outer) = outcome ((scheme outer).parse 0 [group]) :=
    (parser_follows outer).parse.outcome_eq rfl rfl
  have hmembers : outcome (parseTokens members inner) = outcome ((scheme inner).parse 0 members) :=
    (parser_follows inner).parse.outcome_eq rfl rfl
  have hstrict : outer.strictInterfix = inner.strictInterfix := rfl
  have hread : (scheme outer).operand config.maxDepth (1 + reentryCost) never .bottom =
      ((scheme inner).operand config.maxDepth 0 never .bottom).relimited outer.maxDepth :=
    operand_relimited_of fun t => operandIn_relimited hstrict _ _ _ _ _ t
  rw [hgroup, hmembers, parse_group, parse_complete]
  change ofGroup ((scheme outer).operand config.maxDepth (1 + reentryCost) never .bottom members) = _
  rw [hread, ofGroup_relimited]
  rfl

end Calc

end BindingPower
