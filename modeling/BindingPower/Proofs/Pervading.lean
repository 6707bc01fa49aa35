import BindingPower.Proofs.Lockstep

/-! # What pervades a parser

A property of runs that the steps of a parser have where they come up, and that is kept where steps
are put together. A frame keeps it from what it calls and from the operands it reads to the loop of
its operand. A parser keeps it down all levels: of its operands by induction on the room that is
left, and of the runs of callbacks as they read operands further down. -/
namespace BindingPower

variable {τ φ ν ε α β : Type}

/-- The callback may come to make the request. -/
inductive Callback.Requests (q : Request τ φ ε) : Callback τ φ ν ε α → Prop where
  | here {next : ν → Cursor τ ε → Callback τ φ ν ε α} : Requests q (.parse q next)
  | later {r : Request τ φ ε} {next : ν → Cursor τ ε → Callback τ φ ν ε α} {v : ν} {c : Cursor τ ε}
    (h : Requests q (next v c)) : Requests q (.parse r next)
  | taken {next : Option τ → Callback τ φ ν ε α} {t : Option τ} (h : Requests q (next t)) :
    Requests q (.take next)

/-- The callback may come to fail so. -/
inductive Callback.Raises (f : Failure τ φ ε) : Callback τ φ ν ε α → Prop where
  | here : Raises f (.fail f)
  | later {q : Request τ φ ε} {next : ν → Cursor τ ε → Callback τ φ ν ε α} {v : ν} {c : Cursor τ ε}
    (h : Raises f (next v c)) : Raises f (.parse q next)
  | taken {next : Option τ → Callback τ φ ν ε α} {t : Option τ} (h : Raises f (next t)) :
    Raises f (.take next)

/-- The calls of a run with a stop predicate and of the runs that its callbacks ask for, each with
the callback that answers it. -/
inductive Parser.Asks (p : Parser τ φ ν ε) (stop : Option (Stop τ φ ν ε)) :
    {α : Type} → Call τ φ ν → Callback τ φ ν ε α → Prop where
  | query (t : τ) : Asks p stop (.query t) (p.grammar.query t)
  | nullary (t : τ) : Asks p stop (.nullary t) (p.grammar.nullary t)
  | unary (t : τ) (x : ν) : Asks p stop (.unary t x) (p.grammar.unary t x)
  | binary (t : τ) (l r : ν) : Asks p stop (.binary t l r) (p.grammar.binary t l r)
  | ternary (t : τ) (a b c : ν) : Asks p stop (.ternary t a b c) (p.grammar.ternary t a b c)
  | isFollow (t : τ) (mark : φ) : Asks p stop (.isFollow t mark) (p.grammar.isFollow t mark)
  | stop {test : Stop τ φ ν ε} (h : test ∈ stop) (t : τ) : Asks p stop (.stop t) (test t)
  | requested {β : Type} {c : Call τ φ ν} {callback : Callback τ φ ν ε β} {q : Request τ φ ε}
    {test : StopTest τ φ ε} (h : Asks p stop c callback) (hq : callback.Requests q)
    (ht : test ∈ q.stop) (t : τ) : Asks p stop (.stop t) (test.toStop t)

/-- The calls of the second stop predicate come up in a run with the first one. -/
def Parser.Asked (p : Parser τ φ ν ε) (stop stop' : Option (Stop τ φ ν ε)) : Prop :=
  ∀ test ∈ stop', ∀ t, p.Asks stop (.stop t) (test t)

theorem Parser.Asks.asked {p : Parser τ φ ν ε} {stop : Option (Stop τ φ ν ε)} {c : Call τ φ ν}
    {callback : Callback τ φ ν ε α} {q : Request τ φ ε} (h : p.Asks stop c callback)
    (hq : callback.Requests q) : p.Asked stop (q.stop.map StopTest.toStop) := by
  intro f hf t
  obtain ⟨test, htest, rfl⟩ := Option.map_eq_some_iff.mp hf
  exact .requested h hq htest t

/-- The reports of the engine's own making. -/
inductive Report.Raised (config : Config) : Report τ φ ε → Prop where
  | emptyInput : Raised config .emptyInput
  | misfit {kind : Misfit} (t : τ) (h : kind ≠ .unspecified) : Raised config (.misfit kind t)
  | unexpectedArity (t : τ) (affix : Affix) (arity : Arity) :
    Raised config (.unexpectedArity t affix arity)
  | missingInterfix (h : config.strictInterfix = true) (mark : φ) (found : Option τ) :
    Raised config (.missingInterfix (some mark) found)
  | trailingInput (h : config.requireEnd = true) (t : τ) : Raised config (.trailingInput t)
  | nestingTooDeep : Raised config (.nestingTooDeep config.maxDepth none)

/-- The run can end in the value. -/
def Run.Returns (m : Run τ φ ν ε α) (a : α) : Prop := ∃ s t, m s = .ok a t

/-- A property is kept where runs are put together. What follows a run needs to have it only for
the values that the run can end in. -/
structure Run.Composes (P : ∀ {α : Type}, Run τ φ ν ε α → Prop) : Prop where
  pure : ∀ {α : Type} (a : α), P (pure a : Run τ φ ν ε α)
  bind : ∀ {α β : Type} {m : Run τ φ ν ε α} {k : α → Run τ φ ν ε β}, P m →
    (∀ a, m.Returns a → P (k a)) → P (m >>= k)

theorem Run.bind_congr {m : Run τ φ ν ε α} {k g : α → Run τ φ ν ε β}
    (h : ∀ a, m.Returns a → k a = g a) : m >>= k = m >>= g := by
  funext s
  change EStateM.bind m k s = EStateM.bind m g s
  unfold EStateM.bind
  cases hrun : m s with
  | ok a t =>
    dsimp only
    rw [h a ⟨s, t, hrun⟩]
  | error f t => rfl

namespace Run.Composes

variable {P : ∀ {α : Type}, Run τ φ ν ε α → Prop}

theorem andThen (h : Composes P) {m : Run τ φ ν ε α} {k : α → Run τ φ ν ε β} (hm : P m)
    (hk : ∀ a, P (k a)) : P (m >>= k) := h.bind hm fun a _ => hk a

theorem visible (h : Composes P) (hpeek : P (Run.reading Cursor.peek : Run τ φ ν ε (Option τ)))
    {ask : Option (τ → Run τ φ ν ε Bool)} (ha : ∀ a ∈ ask, ∀ t, P (a t)) : P (visible ask) := by
  refine h.andThen hpeek fun o => ?_
  cases o with
  | none => exact h.pure none
  | some t =>
    cases ask with
    | none => exact h.pure (some t)
    | some a =>
      refine h.andThen (ha a rfl t) fun yes => ?_
      cases yes with
      | true => exact h.pure none
      | false => exact h.pure (some t)

theorem startingAt (h : Composes P) {ask : Option (τ → Run τ φ ν ε Bool)}
    {body : τ → Run τ φ ν ε ν} (hv : P (BindingPower.visible ask))
    (he : P (Run.report .emptyInput : Run τ φ ν ε ν)) (hb : ∀ t, P (body t)) :
    P (startingAt ask body) := by
  refine h.andThen hv fun o => ?_
  cases o with
  | none => exact he
  | some t => exact hb t

theorem consume (h : Composes P) (hnext : P (Run.reading Cursor.next : Run τ φ ν ε (Option τ))) :
    P consume := h.andThen hnext fun _ => h.pure ()

theorem separates (h : Composes P) {f : Frame τ φ ν ε} (hq : ∀ t, P (f.query t))
    (hf : ∀ t mark, P (f.isFollow t mark)) (expected : Option φ) (t : τ) :
    P (f.separates expected t) := by
  refine h.andThen (hq t) fun op => ?_
  cases expected with
  | none => exact h.pure _
  | some mark =>
    dsimp only
    split
    · exact hf t mark
    · exact h.pure false

theorem eatSeparator (h : Composes P) {f : Frame τ φ ν ε} (hv : P f.visible)
    (hs : ∀ expected t, P (f.separates expected t)) (hr : ∀ t, P (Run.record (.separator t)))
    (hc : P BindingPower.consume) (hm : ∀ expected found, P (f.missing expected found))
    (expected : Option φ) : P (f.eatSeparator expected) := by
  refine h.andThen hv fun o => ?_
  cases o with
  | none => exact hm expected none
  | some t =>
    refine h.andThen (hs expected t) fun yes => ?_
    cases yes with
    | false => exact hm expected (some t)
    | true =>
      exact h.andThen (hr t) fun _ => h.andThen hc fun _ => h.pure (some t)

theorem missing (h : Composes P) {f : Frame τ φ ν ε}
    (hr : f.parser.config.strictInterfix = true → ∀ mark found,
      P (Run.report (.missingInterfix (some mark) found) : Run τ φ ν ε (Option τ)))
    (expected : Option φ) (found : Option τ) : P (f.missing expected found) := by
  cases expected with
  | none => exact h.pure none
  | some mark =>
    unfold Frame.missing
    dsimp only
    split
    · exact hr ‹_› mark found
    · exact h.pure none

end Run.Composes

/-- The steps of a frame have the property, and where they are put together it is kept. A token is
only used to continue an operand if the powers of what it is classified as admit that. -/
structure Frame.Keeps (f : Frame τ φ ν ε) (P : ∀ {α : Type}, Run τ φ ν ε α → Prop) : Prop where
  steps : Run.Composes P
  remaining : ∀ {α : Type} {k : Nat → Run τ φ ν ε α},
    (∀ n, P (k n)) → P (get >>= fun s => k s.cursor.remaining)
  misfit : ∀ {kind : Misfit} (t : τ), kind ≠ .unspecified →
    P (Run.report (.misfit kind t) : Run τ φ ν ε ν)
  unexpectedArity : ∀ (t : τ) (affix : Affix) (arity : Arity),
    P (Run.report (.unexpectedArity t affix arity) : Run τ φ ν ε ν)
  leading : ∀ (affix : Affix) (arity : Arity) (t : τ), P (Run.record (.leading affix arity t))
  continuing : ∀ {rbp nbp : Precedence} {t : τ} {op : Operator φ}, (f.query t).Returns op →
    f.parser.admits rbp op.leftPower nbp = true →
    ∀ affix arity, P (Run.record (.continuing affix arity t))
  consume : P consume
  query : ∀ t, P (f.query t)
  nullary : ∀ t, P (f.nullary t)
  unary : ∀ t x, P (f.unary t x)
  binary : ∀ t l r, P (f.binary t l r)
  ternary : ∀ t a b c, P (f.ternary t a b c)
  visible : P f.visible
  eatSeparator : ∀ expected, P (f.eatSeparator expected)
  operand : ∀ rbp, P (f.operand rbp)

namespace Frame.Keeps

variable {f : Frame τ φ ν ε} {P : ∀ {α : Type}, Run τ φ ν ε α → Prop}

theorem nud (h : f.Keeps P) (head : τ) (op : Operator φ) : P (f.nud head op) := by
  refine h.steps.andThen (h.leading _ _ head) fun _ => ?_
  generalize op.leading.affix = affix, op.leading.arity = n
  cases affix with
  | nilfix =>
    cases n with
    | nullary => exact h.nullary head
    | _ => exact h.unexpectedArity head _ _
  | prefixed =>
    cases n with
    | unary => exact h.steps.andThen (h.operand _) fun x => h.unary head x
    | ternary =>
      exact h.steps.andThen (h.operand _) fun a => h.steps.andThen (h.eatSeparator _) fun _ =>
        h.steps.andThen (h.operand _) fun b => h.steps.andThen (h.eatSeparator _) fun _ =>
        h.steps.andThen (h.operand _) fun c => h.ternary head a b c
    | _ => exact h.unexpectedArity head _ _
  | circumfix =>
    cases n with
    | unary =>
      exact h.steps.andThen (h.operand _) fun x => h.steps.andThen (h.eatSeparator _) fun _ =>
        h.unary head x
    | _ => exact h.unexpectedArity head _ _
  | postfixed => exact h.misfit head (by simp)
  | infixed => exact h.misfit head (by simp)
  | interfix => exact h.misfit head (by simp)
  | _ => exact h.unexpectedArity head _ _

/-- What a token adds has the property if its being used so has it. -/
theorem led (h : f.Keeps P) {head : τ}
    (hr : ∀ affix arity, P (Run.record (.continuing affix arity head))) (op : Operator φ)
    (lhs : ν) : P (f.led head op lhs) := by
  have mixfix : P (do
      let b ← f.operand .bottom
      let _ ← f.eatSeparator op.continuing.follow[0]?
      let c ← f.operand op.continuing.rightPower
      f.ternary head lhs b c) :=
    h.steps.andThen (h.operand _) fun b => h.steps.andThen (h.eatSeparator _) fun _ =>
      h.steps.andThen (h.operand _) fun c => h.ternary head lhs b c
  refine h.steps.andThen (hr _ _) fun _ => ?_
  generalize op.continuing.affix = affix, op.continuing.arity = n
  cases affix with
  | postfixed =>
    cases n with
    | unary => exact h.unary head lhs
    | ternary => exact mixfix
    | _ => exact h.unexpectedArity head _ _
  | infixed =>
    cases n with
    | binary => exact h.steps.andThen (h.operand _) fun x => h.binary head lhs x
    | ternary => exact mixfix
    | _ => exact h.unexpectedArity head _ _
  | nilfix => exact h.misfit head (by simp)
  | prefixed => exact h.misfit head (by simp)
  | circumfix => exact h.misfit head (by simp)
  | interfix => exact h.misfit head (by simp)
  | _ => exact h.unexpectedArity head _ _

theorem continued (h : f.Keeps P) (rbp : Precedence) (fuel : Nat) (nbp : Precedence) (lhs : ν) :
    P (f.continued rbp fuel nbp lhs) := by
  induction fuel generalizing nbp lhs with
  | zero => exact h.steps.pure lhs
  | succ fuel ih =>
    refine h.steps.andThen h.visible fun o => ?_
    cases o with
    | none => exact h.steps.pure lhs
    | some t =>
      refine h.steps.bind (h.query t) fun op hop => ?_
      split
      · rename_i hadmits
        exact h.steps.andThen h.consume fun _ =>
          h.steps.andThen (h.led (h.continuing hop hadmits) _ lhs) fun node => ih _ node
      · exact h.steps.pure lhs

theorem climb (h : f.Keeps P) (rbp : Precedence) (head : τ) : P (f.climb rbp head) :=
  h.steps.andThen h.consume fun _ => h.steps.andThen (h.query head) fun op =>
    h.steps.andThen (h.nud head op.leading) fun node =>
    h.remaining (k := fun n => f.continued rbp n op.leading.nextPower node) fun n =>
      h.continued rbp n _ node

end Frame.Keeps

/-- Where levels are left, an operand is read one level deeper. -/
theorem Parser.operandIn_deeper (p : Parser τ φ ν ε) {d : Nat} (h : d < p.config.maxDepth)
    (stop : Option (Stop τ φ ν ε)) (rbp : Precedence) (head : τ) :
    p.operandIn (p.config.maxDepth - d) stop rbp head =
      Run.deeper 1 .opened .closed ((p.frameAt (d + 1) stop).climb rbp head) := by
  obtain ⟨n, hn⟩ : ∃ n, p.config.maxDepth - d = n + 1 := ⟨p.config.maxDepth - (d + 1), by omega⟩
  have hbelow : p.config.maxDepth - (d + 1) = n := by omega
  have hinner : p.config.maxDepth - (d + 1 + charge (d + 1)) = n - reentryCost := by
    simp only [charge, Nat.add_one_ne_zero, ↓reduceIte]
    omega
  rw [hn, operandIn_succ, frameAt, innerAt, hbelow, hinner]
  rfl

theorem Parser.operandIn_full (p : Parser τ φ ν ε) {d : Nat} (h : p.config.maxDepth ≤ d)
    (stop : Option (Stop τ φ ν ε)) (rbp : Precedence) (head : τ) :
    p.operandIn (p.config.maxDepth - d) stop rbp head =
      Run.report (.nestingTooDeep p.config.maxDepth none) := by
  rw [Nat.sub_eq_zero_of_le h, operandIn_zero]

/-- The run of a callback reads an operand as a frame at its depth does. -/
theorem Parser.reentry_innerAt (p : Parser τ φ ν ε) (d : Nat) (goal : Goal)
    (tests : Option (StopTest τ φ ε)) :
    p.reentry (p.innerAt d) goal tests =
      p.entering (p.frameAt (d + charge d) (tests.map StopTest.toStop)).operand goal :=
  p.reentry_eq (p.innerAt d) (p.reentry (p.innerAt (d + charge d))) goal tests

/-- A property that goes with the depth is kept by what a run does around its operand. -/
structure Parser.Carries (p : Parser τ φ ν ε) (P : Nat → ∀ {α : Type}, Run τ φ ν ε α → Prop) :
    Prop where
  steps : ∀ {d : Nat}, Run.Composes (P d)
  depth : ∀ {d : Nat} {α : Type} {g : Nat → Run τ φ ν ε α},
    P d (g d) → P d (get >>= fun s => g s.depth)
  peek : ∀ {d : Nat}, P d (Run.reading Cursor.peek)
  report : ∀ {d : Nat} {α : Type} {r : Report τ φ ε}, r.Raised p.config →
    (∀ expected found, r ≠ .missingInterfix expected found) →
    P d (Run.report r : Run τ φ ν ε α)
  entered : ∀ {d : Nat} {α : Type} {m : Run τ φ ν ε α}, P (d + charge d) m →
    P d (Run.deeper (charge d) (.entered (charge d)) (.left (charge d)) m)

namespace Parser.Carries

variable {p : Parser τ φ ν ε} {d : Nat} {P : Nat → ∀ {α : Type}, Run τ φ ν ε α → Prop}

theorem concluding (h : p.Carries P) (goal : Goal) (node : ν) : P d (p.concluding goal node) := by
  unfold Parser.concluding
  split
  · rename_i hend
    refine h.steps.andThen h.peek fun o => ?_
    cases o with
    | none => exact h.steps.pure node
    | some t => exact h.report (.trailingInput hend.2 t) (by simp)
  · exact h.steps.pure node

theorem entering (h : p.Carries P) {operand : Precedence → Run τ φ ν ε ν} {goal : Goal}
    (hrange : Precedence.ofInt? goal.floor = none →
      P (d + charge d) (throw (.other (.precedenceRange goal.floor)) : Run τ φ ν ε ν))
    (ho : ∀ rbp, Precedence.ofInt? goal.floor = some rbp → P (d + charge d) (operand rbp)) :
    P d (p.entering operand goal) := by
  have step {m : Run τ φ ν ε ν} (hm : P (d + charge d) m) :
      P d (get >>= fun s =>
        Run.deeper (charge s.depth) (.entered (charge s.depth)) (.left (charge s.depth)) m >>=
          p.concluding goal) :=
    h.depth (g := fun depth =>
      Run.deeper (charge depth) (.entered (charge depth)) (.left (charge depth)) m >>=
        p.concluding goal)
      (h.steps.andThen (h.entered hm) (h.concluding goal))
  unfold Parser.entering
  cases hp : Precedence.ofInt? goal.floor with
  | none => exact step (hrange hp)
  | some rbp => exact step (ho rbp hp)

end Parser.Carries

/-- The steps of a parser have a property that goes with the stop predicate in force and with the
depth; what callbacks do on their way has another one. The property may tell what separators it
lets be eaten, which tokens continue an operand, and with which stop predicate a callback's run is
made. -/
structure Parser.Pervades (p : Parser τ φ ν ε) (stop : Option (Stop τ φ ν ε))
    (P : Option (Stop τ φ ν ε) → Nat → ∀ {α : Type}, Run τ φ ν ε α → Prop)
    (C : Nat → ∀ {α : Type}, Run τ φ ν ε α → Prop) : Prop where
  carries : ∀ {k : Option (Stop τ φ ν ε)}, p.Carries (P k)
  remaining : ∀ {k : Option (Stop τ φ ν ε)} {d : Nat} {α : Type} {g : Nat → Run τ φ ν ε α},
    (∀ n, P k d (g n)) → P k d (get >>= fun s => g s.cursor.remaining)
  leading : ∀ {k : Option (Stop τ φ ν ε)} {d : Nat} (affix : Affix) (arity : Arity) (t : τ),
    P k d (Run.record (.leading affix arity t))
  continuing : ∀ {k : Option (Stop τ φ ν ε)} {d : Nat} {rbp nbp : Precedence} {t : τ}
    {op : Operator φ}, ((p.frameAt d k).query t).Returns op →
    p.admits rbp op.leftPower nbp = true →
    ∀ affix arity, P k d (Run.record (.continuing affix arity t))
  eatSeparator : ∀ {k : Option (Stop τ φ ν ε)} {d : Nat}, p.Asked stop k →
    P k d (p.frameAt d k).visible →
    (∀ expected t, P k d ((p.frameAt d k).separates expected t)) →
    ∀ expected, P k d ((p.frameAt d k).eatSeparator expected)
  next : ∀ {k : Option (Stop τ φ ν ε)} {d : Nat}, P k d (Run.reading Cursor.next)
  body : ∀ {k : Option (Stop τ φ ν ε)} {d : Nat} {α : Type} {m : Run τ φ ν ε α},
    d < p.config.maxDepth → P k (d + 1) m → P k d (Run.deeper 1 .opened .closed m)
  call : ∀ {k : Option (Stop τ φ ν ε)} {d : Nat} {α : Type} {c : Call τ φ ν}
    {callback : Callback τ φ ν ε α}, p.Asks stop c callback →
    C d (callback.perform (p.reentry (p.innerAt d))) →
    P k d (p.calling c (callback.perform (p.reentry (p.innerAt d))))
  value : ∀ {d : Nat} {α : Type} (a : α), C d (pure a : Run τ φ ν ε α)
  raise : ∀ {d : Nat} {α β : Type} {c : Call τ φ ν} {callback : Callback τ φ ν ε α}
    {f : Failure τ φ ε}, p.Asks stop c callback → callback.Raises f →
    C d (throw f : Run τ φ ν ε β)
  andThen : ∀ {d : Nat} {α β : Type} {m : Run τ φ ν ε α} {g : α → Run τ φ ν ε β}, C d m →
    (∀ a, C d (g a)) → C d (m >>= g)
  take : ∀ {d : Nat}, C d (Run.readingMain Cursor.next)
  request : ∀ {d : Nat} {α : Type} {c : Call τ φ ν} {callback : Callback τ φ ν ε α}
    {q : Request τ φ ε}, p.Asks stop c callback → callback.Requests q →
    (∀ rbp, P (q.stop.map StopTest.toStop) (d + charge d)
      ((p.frameAt (d + charge d) (q.stop.map StopTest.toStop)).operand rbp)) →
    C d (Run.within q.source (p.reentry (p.innerAt d) q.goal q.stop))

namespace Parser.Pervades

variable {p : Parser τ φ ν ε} {stop k : Option (Stop τ φ ν ε)} {d : Nat}
  {P : Option (Stop τ φ ν ε) → Nat → ∀ {α : Type}, Run τ φ ν ε α → Prop}
  {C : Nat → ∀ {α : Type}, Run τ φ ν ε α → Prop}

theorem perform (h : p.Pervades stop P C)
    {enter : Goal → Option (StopTest τ φ ε) → Run τ φ ν ε ν} {callback : Callback τ φ ν ε α}
    (he : ∀ q, callback.Requests q → C d (Run.within q.source (enter q.goal q.stop)))
    (hf : ∀ f, callback.Raises f → C d (throw f : Run τ φ ν ε α)) :
    C d (callback.perform enter) := by
  induction callback with
  | value a => exact h.value a
  | fail f => exact hf f .here
  | parse q next ih =>
    exact h.andThen (he q .here) fun x =>
      ih x.1 x.2 (fun r hr => he r (.later hr)) fun f hr => hf f (.later hr)
  | take next ih =>
    exact h.andThen h.take fun t => ih t (fun r hr => he r (.taken hr)) fun f hr => hf f (.taken hr)

/-- The property holds of every operand that is read at the depth. -/
def OperandsAt (p : Parser τ φ ν ε) (stop : Option (Stop τ φ ν ε))
    (P : Option (Stop τ φ ν ε) → Nat → ∀ {α : Type}, Run τ φ ν ε α → Prop) (d : Nat) : Prop :=
  ∀ k, p.Asked stop k → ∀ rbp head, P k d (p.operandIn (p.config.maxDepth - d) k rbp head)

theorem visible (h : p.Pervades stop P C)
    (ha : ∀ test ∈ k, ∀ t, P k d ((p.frameAt d k).call (.stop t) (test t))) :
    P k d (p.frameAt d k).visible := by
  refine h.carries.steps.visible h.carries.peek fun a hask t => ?_
  obtain ⟨test, htest, rfl⟩ := Option.map_eq_some_iff.mp hask
  exact ha test htest t

theorem operand (h : p.Pervades stop P C) (hs : p.Asked stop k) (ho : OperandsAt p stop P d)
    (hv : P k d (p.frameAt d k).visible) (rbp : Precedence) :
    P k d ((p.frameAt d k).operand rbp) :=
  h.carries.steps.startingAt hv (h.carries.report .emptyInput (by simp)) (ho k hs rbp)

/-- The tests of a callback's run end in an answer at once, whence the run is like any other. -/
theorem reentered (h : p.Pervades stop P C) (ho : OperandsAt p stop P d)
    {tests : Option (StopTest τ φ ε)} (ht : p.Asked stop (tests.map StopTest.toStop))
    (rbp : Precedence) : P (tests.map StopTest.toStop) d
      ((p.frameAt d (tests.map StopTest.toStop)).operand rbp) := by
  refine h.operand ht ho (h.visible fun test htest t => h.call (ht test htest t) ?_) rbp
  refine h.perform (fun q hq => ?_) fun f hf => h.raise (ht test htest t) hf
  obtain ⟨f, -, rfl⟩ := Option.map_eq_some_iff.mp htest
  rw [StopTest.toStop] at hq
  cases hft : f t <;> rw [hft] at hq <;> cases hq

/-- A call is answered by a callback whose runs read operands further down. -/
theorem calls (h : p.Pervades stop P C) (ho : OperandsAt p stop P (d + charge d)) {c : Call τ φ ν}
    {callback : Callback τ φ ν ε α} (hc : p.Asks stop c callback) :
    P k d ((p.frameAt d k).call c callback) :=
  h.call hc (h.perform (fun _ hq => h.request hc hq (h.reentered ho (hc.asked hq)))
    fun _ hf => h.raise hc hf)

theorem frame (h : p.Pervades stop P C) (ho : OperandsAt p stop P d)
    (hi : OperandsAt p stop P (d + charge d)) (hs : p.Asked stop k) :
    (p.frameAt d k).Keeps (P k d) :=
  have visible : P k d (p.frameAt d k).visible := h.visible fun test htest t =>
    h.calls hi (hs test htest t)
  { steps := h.carries.steps
    remaining := h.remaining
    misfit := fun t hk => h.carries.report (.misfit t hk) (by simp)
    unexpectedArity := fun t affix arity =>
      h.carries.report (.unexpectedArity t affix arity) (by simp)
    leading := h.leading
    continuing := h.continuing
    consume := h.carries.steps.consume h.next
    query := fun t => h.calls hi (.query t)
    nullary := fun t => h.calls hi (.nullary t)
    unary := fun t x => h.calls hi (.unary t x)
    binary := fun t l r => h.calls hi (.binary t l r)
    ternary := fun t a b c => h.calls hi (.ternary t a b c)
    visible := visible
    eatSeparator := h.eatSeparator hs visible <| h.carries.steps.separates
      (fun t => h.calls hi (.query t)) fun t mark => h.calls hi (.isFollow t mark)
    operand := h.operand hs ho visible }

theorem operands (h : p.Pervades stop P C) (d : Nat) : OperandsAt p stop P d := by
  -- by induction on the levels that are left: an operand is read one level deeper, the runs of the
  -- callbacks on its way deeper still
  induction hroom : p.config.maxDepth - d using Nat.strongRecOn generalizing d with
  | ind room ih =>
    intro k hs rbp head
    by_cases hd : d < p.config.maxDepth
    · rw [p.operandIn_deeper hd]
      have deeper {e : Nat} (he : d < e) : OperandsAt p stop P e := ih _ (by omega) e rfl
      exact h.body hd ((h.frame (deeper (by omega)) (deeper (by omega)) hs).climb rbp head)
    · rw [p.operandIn_full (by omega)]
      exact h.carries.report .nestingTooDeep (by simp)

theorem frameAt (h : p.Pervades stop P C) (d : Nat) : (p.frameAt d stop).Keeps (P stop d) :=
  h.frame (h.operands d) (h.operands _) fun _ htest t => .stop htest t

theorem parseInput (h : p.Pervades stop P C) (d : Nat) (rbp : Precedence) :
    P stop d (p.parseInput rbp stop) :=
  h.carries.depth (g := fun depth => (p.frameAt depth stop).operand rbp) ((h.frameAt d).operand rbp)

theorem parseUntil (h : p.Pervades stop P C) (d : Nat) {rbp : Int}
    (hrange : Precedence.ofInt? rbp = none →
      P stop (d + charge d) (throw (.other (.precedenceRange rbp)) : Run τ φ ν ε ν)) :
    P stop d (p.parseUntil rbp stop) :=
  h.carries.entering hrange fun r _ => h.parseInput _ r

theorem parse (h : p.Pervades none P C) (d : Nat) : P none d p.parse :=
  h.carries.entering (fun hrange => by simp [Goal.floor, Precedence.ofInt?] at hrange)
    fun r _ => h.parseInput _ r

end Parser.Pervades

end BindingPower
