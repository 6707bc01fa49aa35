import BindingPower.Proofs.Contract
import BindingPower.Proofs.Steps

/-! # Failures under another limit

A report of too deep a nesting tells the limit that was exceeded. What a reader makes of operands
and answers that fail alike but for that limit fails alike but for that limit. -/
namespace BindingPower

variable {τ φ ν ε α β : Type}

/-- The failure as it is told where another limit is set. -/
def Failure.relimited (limit : Nat) : Failure τ φ ε → Failure τ φ ε
  | .report (.nestingTooDeep _ depth) => .report (.nestingTooDeep limit depth)
  | f => f

/-- The failure is a report. -/
def Failure.Reported (f : Failure τ φ ε) : Prop := ∃ r, f = .report r

theorem Failure.Reported.relimited {f : Failure τ φ ε} (h : f.Reported) (limit : Nat) :
    (f.relimited limit).Reported := by
  obtain ⟨r, rfl⟩ := h
  cases r <;> exact ⟨_, rfl⟩

theorem Failure.Reported.contain {f : Failure τ φ ε} (h : f.Reported) (limit depth : Nat) :
    contain limit depth f = f := by
  obtain ⟨r, rfl⟩ := h
  rfl

theorem Failure.contain_reported (f : Failure τ φ ε) (limit depth : Nat) :
    (BindingPower.contain limit depth f).Reported := by
  cases f <;> exact ⟨_, rfl⟩

theorem Failure.reported_allowed {T : τ → Prop} :
    Reading.Allows (Failure.Reported (φ := φ) (ε := ε)) T where
  empty := ⟨_, rfl⟩
  deep _ := ⟨_, rfl⟩
  misfit _ _ _ := ⟨_, rfl⟩
  arity _ _ _ _ := ⟨_, rfl⟩
  missing _ _ _ := ⟨_, rfl⟩
  trailing _ _ := ⟨_, rfl⟩

/-- A value, or a failure that is a report. -/
abbrev Reporting : Except (Failure τ φ ε) α → Prop := Meets Failure.Reported fun _ => True

/-- The answer with its failure told under another limit. -/
abbrev Reading.retold (limit : Nat) : Except (Failure τ φ ε) α → Except (Failure τ φ ε) α :=
  Except.mapError (Failure.relimited limit)

namespace Reading

theorem contained_reporting (limit depth : Nat) (r : Except (Failure τ φ ε) α) :
    Reporting (contained limit depth r) := by
  cases r with
  | ok a => trivial
  | error f => exact f.contain_reported limit depth

theorem contained_eq_self {r : Except (Failure τ φ ε) α} (hr : Reporting r) (limit depth : Nat) :
    contained limit depth r = r := by
  cases r with
  | ok a => rfl
  | error f => exact congrArg Except.error (Failure.Reported.contain hr limit depth)

theorem retold_reporting {r : Except (Failure τ φ ε) α} (hr : Reporting r) (limit : Nat) :
    Reporting (retold limit r) := by
  cases r with
  | ok a => trivial
  | error f => exact Failure.Reported.relimited hr limit

/-- A report passes out of a callback as it is, whatever the depth and the limit. -/
theorem contained_retold {r : Except (Failure τ φ ε) α} (hr : Reporting r)
    (limit depth limit' depth' : Nat) :
    contained limit' depth' (retold limit' r) = retold limit' (contained limit depth r) := by
  rw [contained_eq_self (retold_reporting hr limit'), contained_eq_self hr]

/-- The reading with its failures told under another limit. -/
def relimited (limit : Nat) (m : Reading τ φ ε α) : Reading τ φ ε α := fun ts =>
  match m ts with
  | .ok a rest => .ok a rest
  | .error f rest => .error (f.relimited limit) rest

variable {limit : Nat}

theorem relimited_answer (r : Except (Failure τ φ ε) α) :
    (answer r).relimited limit = answer (retold limit r) := by
  cases r <;> rfl

theorem relimited_visible (stop : τ → Bool) :
    (visible stop : Reading τ φ ε (Option τ)).relimited limit = visible stop := rfl

theorem relimited_consume : (consume : Reading τ φ ε Unit).relimited limit = consume := rfl

theorem relimited_of_ok {m : Reading τ φ ε α} {ts rest : List τ} {a : α}
    (h : m ts = .ok a rest) : m.relimited limit ts = .ok a rest := by
  simp only [relimited, h]

theorem relimited_of_error {m : Reading τ φ ε α} {ts rest : List τ} {f : Failure τ φ ε}
    (h : m ts = .error f rest) : m.relimited limit ts = .error (f.relimited limit) rest := by
  simp only [relimited, h]

/-- To tell the failures of two steps is to tell those of each of them. -/
theorem relimited_bind (m : Reading τ φ ε α) (k : α → Reading τ φ ε β) :
    (m >>= k).relimited limit = m.relimited limit >>= fun a => (k a).relimited limit := by
  funext ts
  cases hm : m ts with
  | error f rest =>
    rw [relimited_of_error (bind_of_error hm k), bind_of_error (relimited_of_error hm)]
  | ok a rest =>
    rw [bind_of_ok (relimited_of_ok hm)]
    simp only [relimited, bind_of_ok hm]

/-- The number of tokens left is known under any limit. -/
theorem relimited_remaining (k : Nat → Reading τ φ ε α) :
    (get >>= fun ts => k ts.length : Reading τ φ ε α).relimited limit =
      get >>= fun ts => (k ts.length).relimited limit := rfl

theorem relimited_startingAt (stop : τ → Bool) (body : τ → Reading τ φ ε ν) :
    (startingAt stop body).relimited limit = startingAt stop fun t => (body t).relimited limit := by
  rw [startingAt, relimited_bind, relimited_visible]
  refine congrArg _ (funext fun o => ?_)
  cases o <;> rfl

end Reading

open Reading

def Rules.relimited (r : Rules τ φ ν ε) (limit : Nat) : Rules τ φ ν ε where
  query t := retold limit (r.query t)
  nullary t := retold limit (r.nullary t)
  unary t x := retold limit (r.unary t x)
  binary t x y := retold limit (r.binary t x y)
  ternary t x y z := retold limit (r.ternary t x y z)
  isFollow t mark := retold limit (r.isFollow t mark)

namespace Reader

/-- The reader whose operands and answers fail alike under another limit. -/
def relimited (r : Reader τ φ ν ε) (limit : Nat) : Reader τ φ ν ε :=
  { r with
    rules := r.rules.relimited limit
    operand := fun p => (r.operand p).relimited limit }

variable (r : Reader τ φ ν ε) (limit : Nat)

theorem separates_relimited (expected : Option φ) (t : τ) :
    (r.relimited limit).separates expected t = (r.separates expected t).relimited limit := by
  rw [separates, separates, relimited_bind, relimited_answer]
  refine congrArg _ (funext fun op => ?_)
  cases expected with
  | none => rfl
  | some mark =>
    dsimp only
    split
    · rw [relimited_answer]
      rfl
    · rfl

theorem missing_relimited (expected : Option φ) (found : Option τ) :
    (r.relimited limit).missing expected found = (r.missing expected found).relimited limit := by
  cases expected with
  | none => rfl
  | some mark =>
    simp only [missing]
    change (if r.strict = true then _ else _) = _
    split <;> rfl

theorem eatSeparator_relimited (expected : Option φ) :
    (r.relimited limit).eatSeparator expected = (r.eatSeparator expected).relimited limit := by
  rw [eatSeparator, eatSeparator, relimited_bind, relimited_visible]
  refine congrArg _ (funext fun o => ?_)
  cases o with
  | none => exact missing_relimited r limit expected none
  | some t =>
    dsimp only
    rw [relimited_bind, separates_relimited, missing_relimited]
    refine congrArg _ (funext fun yes => ?_)
    cases yes <;> rfl

theorem nud_relimited (head : τ) (op : Operator φ) :
    (r.relimited limit).nud head op = (r.nud head op).relimited limit := by
  simp only [nud]
  generalize op.leading.affix = affix, op.leading.arity = arity
  cases affix with
  | nilfix =>
    cases arity with
    | nullary => exact (relimited_answer _).symm
    | _ => rfl
  | prefixed =>
    cases arity with
    | unary => simp only [relimited_bind, relimited_answer]; rfl
    | ternary =>
      simp only [relimited_bind, relimited_answer, eatSeparator_relimited]
      rfl
    | _ => rfl
  | circumfix =>
    cases arity with
    | unary =>
      simp only [relimited_bind, relimited_answer, eatSeparator_relimited]
      rfl
    | _ => rfl
  | _ => rfl

theorem led_relimited (head : τ) (op : Operator φ) (lhs : ν) :
    (r.relimited limit).led head op lhs = (r.led head op lhs).relimited limit := by
  simp only [led]
  generalize op.continuing.affix = affix, op.continuing.arity = arity
  cases affix with
  | postfixed =>
    cases arity with
    | unary => exact (relimited_answer _).symm
    | ternary =>
      simp only [relimited_bind, relimited_answer, eatSeparator_relimited]
      rfl
    | _ => rfl
  | infixed =>
    cases arity with
    | binary => simp only [relimited_bind, relimited_answer]; rfl
    | ternary =>
      simp only [relimited_bind, relimited_answer, eatSeparator_relimited]
      rfl
    | _ => rfl
  | _ => rfl

theorem continued_relimited (rbp : Precedence) (fuel : Nat) (nbp : Precedence) (lhs : ν) :
    (r.relimited limit).continued rbp fuel nbp lhs =
      (r.continued rbp fuel nbp lhs).relimited limit := by
  induction fuel generalizing nbp lhs with
  | zero => rfl
  | succ fuel ih =>
    rw [continued, continued, relimited_bind, relimited_visible]
    refine congrArg _ (funext fun o => ?_)
    cases o with
    | none => rfl
    | some t =>
      dsimp only
      rw [relimited_bind, relimited_answer]
      refine congrArg _ (funext fun op => ?_)
      change (if r.admits rbp op.leftPower nbp = true then _ else _) = _
      split
      · simp only [relimited_bind, relimited_consume, led_relimited, ih]
      · rfl

theorem climb_relimited (rbp : Precedence) (head : τ) :
    (r.relimited limit).climb rbp head = (r.climb rbp head).relimited limit := by
  rw [climb, climb, relimited_bind, relimited_consume]
  refine congrArg _ (funext fun _ => ?_)
  rw [relimited_bind, relimited_answer]
  refine congrArg _ (funext fun op => ?_)
  rw [relimited_bind, nud_relimited]
  refine congrArg _ (funext fun node => ?_)
  rw [relimited_remaining fun n => r.continued rbp n op.leading.nextPower node]
  simp only [continued_relimited]

end Reader

end BindingPower
