import BindingPower.Proofs.Following

/-! # The engine follows its reading

The callbacks of a frame are given as answers; everything else that a frame does is then
determined by the tokens that are left. By recursion on the room that is left, an operand and
the entry points follow their readings. -/
namespace BindingPower

variable {τ φ ν ε : Type} {d : Nat}

/-- The callbacks of a frame answer by the rules. -/
structure Frame.Answers (f : Frame τ φ ν ε) (d : Nat) (rules : Rules τ φ ν ε) : Prop where
  query : ∀ t, Run.Follows d (f.query t) (Reading.answer (rules.query t))
  nullary : ∀ t, Run.Follows d (f.nullary t) (Reading.answer (rules.nullary t))
  unary : ∀ t x, Run.Follows d (f.unary t x) (Reading.answer (rules.unary t x))
  binary : ∀ t x y, Run.Follows d (f.binary t x y) (Reading.answer (rules.binary t x y))
  ternary : ∀ t x y z, Run.Follows d (f.ternary t x y z) (Reading.answer (rules.ternary t x y z))
  isFollow : ∀ t e, Run.Follows d (f.isFollow t e) (Reading.answer (rules.isFollow t e))

structure Frame.Follows (f : Frame τ φ ν ε) (d : Nat) (r : Reader τ φ ν ε) : Prop
    extends f.Answers d r.rules where
  strict : f.parser.config.strictInterfix = r.strict
  admits : f.parser.admits = r.admits
  visible : Run.Follows d f.visible (Reading.visible r.stop)
  operand : ∀ p, Run.Follows d (f.operand p) (r.operand p)

namespace Frame.Follows

variable {f : Frame τ φ ν ε} {r : Reader τ φ ν ε}

theorem separates (h : f.Follows d r) (expected : Option φ) (t : τ) :
    Run.Follows d (f.separates expected t) (r.separates expected t) := by
  refine (h.query t).bind fun op => ?_
  cases expected with
  | none => exact Run.follows_pure _
  | some mark =>
    dsimp only
    split
    · exact h.isFollow t mark
    · exact Run.follows_pure _

theorem missing (h : f.Follows d r) (expected : Option φ) (found : Option τ) :
    Run.Follows d (f.missing expected found) (r.missing expected found) := by
  cases expected with
  | none => exact Run.follows_pure _
  | some mark =>
    simp only [Frame.missing, Reader.missing, h.strict]
    split
    · exact Run.follows_report _
    · exact Run.follows_pure _

theorem eatSeparator (h : f.Follows d r) (expected : Option φ) :
    Run.Follows d (f.eatSeparator expected) (r.eatSeparator expected) := by
  refine h.visible.bind fun o => ?_
  cases o with
  | none => exact h.missing expected none
  | some t =>
    refine (h.separates expected t).bind fun b => ?_
    cases b with
    | false => exact h.missing expected (some t)
    | true => exact (Run.follows_consume.bind fun _ => Run.follows_pure _).record _

theorem nud (h : f.Follows d r) (head : τ) (op : Operator φ) :
    Run.Follows d (f.nud head op) (r.nud head op) := by
  refine Run.Follows.record ?_ _
  dsimp only [Reader.nud]
  generalize op.leading.affix = affix, op.leading.arity = arity
  cases affix with
  | nilfix =>
    cases arity with
    | nullary => exact h.nullary head
    | _ => exact Run.follows_report _
  | prefixed =>
    cases arity with
    | unary => exact (h.operand _).bind fun x => h.unary head x
    | ternary =>
      exact (h.operand _).bind fun a => (h.eatSeparator _).bind fun _ =>
        (h.operand _).bind fun b => (h.eatSeparator _).bind fun _ =>
        (h.operand _).bind fun c => h.ternary head a b c
    | _ => exact Run.follows_report _
  | circumfix =>
    cases arity with
    | unary => exact (h.operand _).bind fun x => (h.eatSeparator _).bind fun _ => h.unary head x
    | _ => exact Run.follows_report _
  | _ => exact Run.follows_report _

theorem led (h : f.Follows d r) (head : τ) (op : Operator φ) (lhs : ν) :
    Run.Follows d (f.led head op lhs) (r.led head op lhs) := by
  have mixfix : Run.Follows d
      (do
        let b ← f.operand .bottom
        let _ ← f.eatSeparator op.continuing.follow[0]?
        let c ← f.operand op.continuing.rightPower
        f.ternary head lhs b c)
      (do
        let b ← r.operand .bottom
        let _ ← r.eatSeparator op.continuing.follow[0]?
        let c ← r.operand op.continuing.rightPower
        Reading.answer (r.rules.ternary head lhs b c)) :=
    (h.operand _).bind fun b => (h.eatSeparator _).bind fun _ =>
      (h.operand _).bind fun c => h.ternary head lhs b c
  refine Run.Follows.record ?_ _
  dsimp only [Reader.led]
  generalize op.continuing.affix = affix, op.continuing.arity = arity
  cases affix with
  | postfixed =>
    cases arity with
    | unary => exact h.unary head lhs
    | ternary => exact mixfix
    | _ => exact Run.follows_report _
  | infixed =>
    cases arity with
    | binary => exact (h.operand _).bind fun x => h.binary head lhs x
    | ternary => exact mixfix
    | _ => exact Run.follows_report _
  | _ => exact Run.follows_report _

theorem continued (h : f.Follows d r) (rbp : Precedence) (fuel : Nat) (nbp : Precedence)
    (lhs : ν) : Run.Follows d (f.continued rbp fuel nbp lhs) (r.continued rbp fuel nbp lhs) := by
  induction fuel generalizing nbp lhs with
  | zero => exact Run.follows_pure lhs
  | succ fuel ih =>
    refine h.visible.bind fun o => ?_
    cases o with
    | none => exact Run.follows_pure lhs
    | some t =>
      refine (h.query t).bind fun op => ?_
      rw [h.admits]
      split
      · exact Run.follows_consume.bind fun _ => (h.led t _ lhs).bind fun node => ih _ node
      · exact Run.follows_pure lhs

theorem climb (h : f.Follows d r) (rbp : Precedence) (head : τ) :
    Run.Follows d (f.climb rbp head) (r.climb rbp head) :=
  Run.follows_consume.bind fun _ => (h.query head).bind fun op =>
    (h.nud head op.leading).bind fun node => .remaining fun n => h.continued rbp n _ node

end Frame.Follows

/-- A parser whose configuration and guard are those of a scheme, and whose callbacks answer by
its rules wherever the runs that they start follow their readings. -/
structure Parser.Follows (p : Parser τ φ ν ε) (g : Scheme τ φ ν ε) : Prop where
  config : p.config = g.config
  admits : p.admits = g.admits
  answers : ∀ (d : Nat) (f : Frame τ φ ν ε) (inner : Precedence → Reading τ φ ε ν), 0 < d →
    f.parser = p → (∀ goal, Run.Follows d (f.enter goal none) (g.entered inner goal)) →
    f.Answers d (g.rules d inner)

theorem startingAt_follows {ask : Option (τ → Run τ φ ν ε Bool)} {stop : τ → Bool}
    {body : τ → Run τ φ ν ε ν} {reading : τ → Reading τ φ ε ν}
    (hv : Run.Follows d (visible ask) (Reading.visible stop))
    (hb : ∀ t, Run.Follows d (body t) (reading t)) :
    Run.Follows d (startingAt ask body) (Reading.startingAt stop reading) := by
  refine hv.bind fun o => ?_
  cases o with
  | none => exact Run.follows_report _
  | some t => exact hb t

namespace Parser.Follows

variable {p : Parser τ φ ν ε} {g : Scheme τ φ ν ε}

theorem entering (h : p.Follows g) {operand : Precedence → Run τ φ ν ε ν}
    {reading : Precedence → Reading τ φ ε ν}
    (ho : ∀ rbp, Run.Follows (d + charge d) (operand rbp) (reading rbp)) (goal : Goal) :
    Run.Follows d (p.entering operand goal) (g.entered reading goal) := by
  refine Run.Follows.atDepth fun s hs => ?_
  rw [hs]
  refine Run.Follows.bind (Run.Follows.deeper (r := Reading.above reading goal.floor) ?_ _ _)
    fun node => ?_
  · rw [Reading.above]
    cases Precedence.ofInt? goal.floor with
    | none => exact Run.follows_throw _
    | some rbp => exact ho rbp
  · rw [h.config]
    split
    · rw [Reading.visible_never]
      refine Run.follows_peek.bind fun o => ?_
      cases o with
      | none => exact Run.follows_pure node
      | some t => exact Run.follows_report _
    · exact Run.follows_pure node

/-- An operand follows its reading: by recursion on the room, with the rules at each level. -/
theorem operandIn (h : p.Follows g) (room d : Nat) (stop : Option (τ → Bool)) (rbp : Precedence)
    (head : τ) :
    Run.Follows d (p.operandIn room (stop.map Stop.ofPredicate) rbp head)
      (g.operandIn room d (stop.getD Reading.never) rbp head) := by
  induction room using Nat.strongRecOn generalizing d stop rbp head with
  | ind room ih =>
    cases room with
    | zero =>
      rw [Parser.operandIn_zero, Scheme.operandIn_zero, h.config]
      exact Run.follows_report _
    | succ n =>
      rw [Parser.operandIn_succ, Scheme.operandIn_succ]
      have inner : ∀ goal, Run.Follows (d + 1) (p.reentry (p.operandIn (n - reentryCost)) goal none)
          (g.entered (g.operand (n - reentryCost) (d + 1 + reentryCost) Reading.never) goal) :=
        h.entering fun r => startingAt_follows (visible_follows p (fun _ _ => throw .exhausted) none)
          fun t => ih (n - reentryCost) (by omega) (d + 1 + reentryCost) none r t
      refine Run.Follows.deeper (Frame.Follows.climb ⟨?_, ?_, h.admits, ?_, fun r => ?_⟩ rbp head) _ _
      · exact h.answers (d + 1) _ _ (Nat.succ_pos d) rfl inner
      · exact congrArg Config.strictInterfix h.config
      · exact visible_follows p _ stop
      · exact startingAt_follows (visible_follows p _ stop) fun t =>
          ih n (Nat.lt_succ_self n) (d + 1) stop r t

theorem parseInput (h : p.Follows g) (rbp : Precedence) (stop : Option (τ → Bool)) :
    Run.Follows d (p.parseInput rbp (stop.map Stop.ofPredicate))
      (g.parseInput d rbp (stop.getD Reading.never)) := by
  refine Run.Follows.atDepth fun s hs => ?_
  rw [hs, Scheme.parseInput, ← h.config]
  exact startingAt_follows (visible_follows p _ stop) fun t => h.operandIn _ d stop rbp t

theorem parseUntil (h : p.Follows g) (rbp : Int) (stop : Option (τ → Bool)) :
    Run.Follows d (p.parseUntil rbp (stop.map Stop.ofPredicate))
      (g.parseUntil d rbp (stop.getD Reading.never)) :=
  h.entering (fun r => h.parseInput r stop) (.above rbp)

theorem parse (h : p.Follows g) : Run.Follows d p.parse (g.parse d) :=
  h.entering (fun r => h.parseInput r none) .whole

end Parser.Follows

end BindingPower
