import BindingPower.Proofs.Pervading

/-! # Properties that compose

A property of runs at a depth that the steps of a parser have, wherever they come up, and that is
kept where steps are put together, pervades the parser whatever stop predicate is in force, and so
every entry point has it. -/
namespace BindingPower

variable {τ φ ν ε α β : Type}

def failure? {σ : Type} : EStateM.Result ε σ α → Option ε
  | .ok _ _ => none
  | .error f _ => some f

theorem failure?_eq_some {σ : Type} {r : EStateM.Result ε σ α} {f : ε} :
    failure? r = some f ↔ ∃ s, r = .error f s := by
  cases r with
  | ok a s => simp [failure?]
  | error e s => simp [failure?]

/-- On whose behalf a run is made. What fails in a callback need not be a failure of the engine. -/
inductive Layer where
  | engine
  | callback

/-- The events that tell how a token is used. -/
inductive Event.Used : Event τ φ ν → Prop where
  | leading (affix : Affix) (arity : Arity) (t : τ) : Used (.leading affix arity t)
  | continuing (affix : Affix) (arity : Arity) (t : τ) : Used (.continuing affix arity t)
  | separator (t : τ) : Used (.separator t)

/-- The steps of a parser have the property, and where they are put together it is kept. -/
structure Parser.Composes (p : Parser τ φ ν ε) (stop : Option (Stop τ φ ν ε))
    (P : Layer → Nat → ∀ {α : Type}, Run τ φ ν ε α → Prop) : Prop where
  weaken : ∀ {d : Nat} {α : Type} {m : Run τ φ ν ε α}, P .engine d m → P .callback d m
  pure : ∀ {d : Nat} {α : Type} (a : α), P .engine d (pure a : Run τ φ ν ε α)
  bind : ∀ {l : Layer} {d : Nat} {α β : Type} {m : Run τ φ ν ε α} {k : α → Run τ φ ν ε β},
    P l d m → (∀ a, P l d (k a)) → P l d (m >>= k)
  depth : ∀ {l : Layer} {d : Nat} {α : Type} {k : Nat → Run τ φ ν ε α},
    P l d (k d) → P l d (get >>= fun s => k s.depth)
  remaining : ∀ {d : Nat} {α : Type} {k : Nat → Run τ φ ν ε α},
    (∀ n, P .engine d (k n)) → P .engine d (get >>= fun s => k s.cursor.remaining)
  report : ∀ {d : Nat} {α : Type} {r : Report τ φ ε}, r.Raised p.config →
    P .engine d (Run.report r : Run τ φ ν ε α)
  record : ∀ {d : Nat} {e : Event τ φ ν}, e.Used → P .engine d (Run.record e)
  peek : ∀ {d : Nat}, P .engine d (Run.reading Cursor.peek)
  next : ∀ {d : Nat}, P .engine d (Run.reading Cursor.next)
  body : ∀ {d : Nat} {α : Type} {m : Run τ φ ν ε α}, d < p.config.maxDepth →
    P .engine (d + 1) m → P .engine d (Run.deeper 1 .opened .closed m)
  entered : ∀ {l : Layer} {d : Nat} {α : Type} {m : Run τ φ ν ε α}, P l (d + charge d) m →
    P l d (Run.deeper (charge d) (.entered (charge d)) (.left (charge d)) m)
  call : ∀ {d : Nat} {α : Type} {c : Call τ φ ν} {callback : Callback τ φ ν ε α},
    p.Asks stop c callback → P .callback d (callback.perform (p.reentry (p.innerAt d))) →
    P .engine d (p.calling c (callback.perform (p.reentry (p.innerAt d))))
  fails : ∀ {d : Nat} {α : Type} (f : Failure τ φ ε), P .callback d (throw f : Run τ φ ν ε α)
  within : ∀ {d : Nat} {α : Type} {m : Run τ φ ν ε α} (side : Option (Cursor τ ε)),
    P .callback d m → P .callback d (Run.within side m)
  take : ∀ {d : Nat}, P .callback d (Run.readingMain Cursor.next)

namespace Parser.Composes

variable {p : Parser τ φ ν ε} {stop stop' : Option (Stop τ φ ν ε)} {d : Nat} {l : Layer}
  {P : Layer → Nat → ∀ {α : Type}, Run τ φ ν ε α → Prop}

theorem lift (h : p.Composes stop P) {m : Run τ φ ν ε α} (hm : P .engine d m) : P l d m := by
  cases l with
  | engine => exact hm
  | callback => exact h.weaken hm

/-- What is done with a value matters only if a run can end in it. -/
theorem steps (h : p.Composes stop P) : Run.Composes (P l d) where
  pure a := h.lift (h.pure a)
  bind {α β m k} hm hk := by
    classical
    rw [Run.bind_congr (g := fun a => if m.Returns a then k a else Run.report .emptyInput)
      fun a ha => (if_pos ha).symm]
    refine h.bind hm fun a => ?_
    split
    · exact hk a ‹_›
    · exact h.lift (h.report .emptyInput)

theorem carries (h : p.Composes stop P) : p.Carries (P l) where
  steps := h.steps
  depth := h.depth
  peek := h.lift h.peek
  report hr _ := h.lift (h.report hr)
  entered := h.entered

theorem startingAt (h : p.Composes stop P) {ask : Option (τ → Run τ φ ν ε Bool)}
    {body : τ → Run τ φ ν ε ν} (ha : ∀ a ∈ ask, ∀ t, P .engine d (a t))
    (hb : ∀ t, P .engine d (body t)) : P .engine d (startingAt ask body) :=
  h.steps.startingAt (h.steps.visible h.peek ha) (h.report .emptyInput) hb

theorem consume (h : p.Composes stop P) : P .engine d consume := h.steps.consume h.next

theorem concluding (h : p.Composes stop P) (goal : Goal) (node : ν) :
    P .engine d (p.concluding goal node) := h.carries.concluding goal node

theorem missing (h : p.Composes stop P) {f : Frame τ φ ν ε} (hf : f.parser = p)
    (expected : Option φ) (found : Option τ) : P .engine d (f.missing expected found) :=
  h.steps.missing (fun hstrict mark found => h.report (.missingInterfix (hf ▸ hstrict) mark found))
    expected found

/-- What composes pervades, whatever stop predicate is in force. -/
theorem pervades (h : p.Composes stop P) :
    p.Pervades stop (fun _ => P .engine) (P .callback) where
  carries := h.carries
  remaining := h.remaining
  leading affix arity t := h.record (.leading affix arity t)
  continuing _ _ affix arity := h.record (.continuing affix arity _)
  eatSeparator _ hv hs := h.steps.eatSeparator hv hs (fun t => h.record (.separator t)) h.consume
    (h.missing rfl)
  next := h.next
  body := h.body
  call := h.call
  value a := h.lift (h.pure a)
  raise _ _ := h.fails _
  andThen := h.bind
  take := h.take
  request _ _ ho := by
    refine h.within _ ?_
    rw [p.reentry_innerAt]
    exact h.carries.entering (fun _ => h.fails _) fun rbp _ => h.lift (ho rbp)

end Parser.Composes

/-- The calls and the operands of a frame have a property that composes. -/
structure Frame.Composes (p : Parser τ φ ν ε) (stop : Option (Stop τ φ ν ε))
    (P : Layer → Nat → ∀ {α : Type}, Run τ φ ν ε α → Prop) (d : Nat) (f : Frame τ φ ν ε) :
    Prop where
  parser : f.parser = p
  steps : p.Composes stop P
  call : ∀ {α : Type} {c : Call τ φ ν} {callback : Callback τ φ ν ε α}, p.Asks stop c callback →
    P .engine d (f.call c callback)
  visible : P .engine d f.visible
  operand : ∀ rbp, P .engine d (f.operand rbp)

namespace Frame.Composes

variable {p : Parser τ φ ν ε} {stop : Option (Stop τ φ ν ε)} {d : Nat} {f : Frame τ φ ν ε}
  {P : Layer → Nat → ∀ {α : Type}, Run τ φ ν ε α → Prop}

theorem query (h : f.Composes p stop P d) (t : τ) : P .engine d (f.query t) := by
  rw [Frame.query, h.parser]
  exact h.call (.query t)

theorem isFollow (h : f.Composes p stop P d) (t : τ) (mark : φ) :
    P .engine d (f.isFollow t mark) := by
  rw [Frame.isFollow, h.parser]
  exact h.call (.isFollow t mark)

theorem nullary (h : f.Composes p stop P d) (t : τ) : P .engine d (f.nullary t) := by
  rw [Frame.nullary, h.parser]
  exact h.call (.nullary t)

theorem unary (h : f.Composes p stop P d) (t : τ) (x : ν) : P .engine d (f.unary t x) := by
  rw [Frame.unary, h.parser]
  exact h.call (.unary t x)

theorem binary (h : f.Composes p stop P d) (t : τ) (x y : ν) : P .engine d (f.binary t x y) := by
  rw [Frame.binary, h.parser]
  exact h.call (.binary t x y)

theorem ternary (h : f.Composes p stop P d) (t : τ) (x y z : ν) :
    P .engine d (f.ternary t x y z) := by
  rw [Frame.ternary, h.parser]
  exact h.call (.ternary t x y z)

theorem separates (h : f.Composes p stop P d) (expected : Option φ) (t : τ) :
    P .engine d (f.separates expected t) := h.steps.steps.separates h.query h.isFollow expected t

theorem eatSeparator (h : f.Composes p stop P d) (expected : Option φ) :
    P .engine d (f.eatSeparator expected) :=
  h.steps.steps.eatSeparator h.visible h.separates (fun t => h.steps.record (.separator t))
    h.steps.consume (h.steps.missing h.parser) expected

theorem keeps (h : f.Composes p stop P d) : f.Keeps (P .engine d) where
  steps := h.steps.steps
  remaining := h.steps.remaining
  misfit t hk := h.steps.report (.misfit t hk)
  unexpectedArity t affix arity := h.steps.report (.unexpectedArity t affix arity)
  leading affix arity t := h.steps.record (.leading affix arity t)
  continuing _ _ affix arity := h.steps.record (.continuing affix arity _)
  consume := h.steps.consume
  query := h.query
  nullary := h.nullary
  unary := h.unary
  binary := h.binary
  ternary := h.ternary
  visible := h.visible
  eatSeparator := h.eatSeparator
  operand := h.operand

theorem nud (h : f.Composes p stop P d) (head : τ) (op : Operator φ) :
    P .engine d (f.nud head op) := h.keeps.nud head op

theorem led (h : f.Composes p stop P d) (head : τ) (op : Operator φ) (lhs : ν) :
    P .engine d (f.led head op lhs) :=
  h.keeps.led (fun affix arity => h.steps.record (.continuing affix arity head)) op lhs

theorem continued (h : f.Composes p stop P d) (rbp : Precedence) (fuel : Nat) (nbp : Precedence)
    (lhs : ν) : P .engine d (f.continued rbp fuel nbp lhs) := h.keeps.continued rbp fuel nbp lhs

theorem climb (h : f.Composes p stop P d) (rbp : Precedence) (head : τ) :
    P .engine d (f.climb rbp head) := h.keeps.climb rbp head

end Frame.Composes

namespace Parser.Composes

variable {p : Parser τ φ ν ε} {stop stop' : Option (Stop τ φ ν ε)}
  {P : Layer → Nat → ∀ {α : Type}, Run τ φ ν ε α → Prop}

theorem frameAt (h : p.Composes stop P) (d : Nat) : (p.frameAt d stop).Composes p stop P d where
  parser := rfl
  steps := h
  call hc := h.pervades.calls (h.pervades.operands _) hc
  visible := (h.pervades.frameAt d).visible
  operand := (h.pervades.frameAt d).operand

theorem parseInput (h : p.Composes stop P) (d : Nat) (rbp : Precedence) :
    P .engine d (p.parseInput rbp stop) := h.pervades.parseInput d rbp

theorem parseUntil (h : p.Composes stop P) (d : Nat) {rbp : Int}
    (hrange : Precedence.ofInt? rbp = none →
      P .engine (d + charge d) (throw (.other (.precedenceRange rbp)) : Run τ φ ν ε ν)) :
    P .engine d (p.parseUntil rbp stop) := h.pervades.parseUntil d hrange

theorem nud (h : p.Composes stop P) (d : Nat) (head : τ) (op : Operator φ) :
    P .engine d (p.nud head op stop) :=
  h.depth (k := fun depth => (p.frameAt depth stop).nud head op) ((h.frameAt d).nud head op)

theorem led (h : p.Composes stop P) (d : Nat) (head : τ) (op : Operator φ) (lhs : ν) :
    P .engine d (p.led head op lhs stop) :=
  h.depth (k := fun depth => (p.frameAt depth stop).led head op lhs) ((h.frameAt d).led head op lhs)

theorem eatSeparator (h : p.Composes stop P) (d : Nat) (op : Operator φ) (index : Int)
    (hindex : P .engine d (throw (.other (.followIndex index)) : Run τ φ ν ε (Option τ))) :
    P .engine d (p.eatSeparator op index stop) := by
  have step (expected : Option φ) :
      P .engine d (get >>= fun s => (p.frameAt s.depth stop).eatSeparator expected) :=
    h.depth (k := fun depth => (p.frameAt depth stop).eatSeparator expected)
      ((h.frameAt d).eatSeparator expected)
  unfold Parser.eatSeparator
  split
  · cases follow? op index with
    | none => exact h.depth (k := fun _ => throw (.other (.followIndex index))) hindex
    | some mark => exact step (some mark)
  · exact step none

end Parser.Composes

/-- The entry points of a parser with their arguments. -/
inductive Entry (τ φ ν ε : Type) : Type → Type where
  | parse : Entry τ φ ν ε ν
  | parseUntil (rbp : Int) (stop : Option (Stop τ φ ν ε)) : Entry τ φ ν ε ν
  | parseInput (rbp : Precedence) (stop : Option (Stop τ φ ν ε)) : Entry τ φ ν ε ν
  | nud (head : τ) (op : Operator φ) (stop : Option (Stop τ φ ν ε)) : Entry τ φ ν ε ν
  | led (head : τ) (op : Operator φ) (lhs : ν) (stop : Option (Stop τ φ ν ε)) : Entry τ φ ν ε ν
  | eatSeparator (op : Operator φ) (index : Int) (stop : Option (Stop τ φ ν ε)) :
    Entry τ φ ν ε (Option τ)

namespace Parser

variable {p : Parser τ φ ν ε} {P : Layer → Nat → ∀ {α : Type}, Run τ φ ν ε α → Prop}

def enter (p : Parser τ φ ν ε) : Entry τ φ ν ε α → Run τ φ ν ε α
  | .parse => p.parse
  | .parseUntil rbp stop => p.parseUntil rbp stop
  | .parseInput rbp stop => p.parseInput rbp stop
  | .nud head op stop => p.nud head op stop
  | .led head op lhs stop => p.led head op lhs stop
  | .eatSeparator op index stop => p.eatSeparator op index stop

theorem Composes.parse (h : p.Composes none P) (d : Nat) : P .engine d p.parse := h.pervades.parse d

/-- What even a failure of a wrong argument has, every entry point has. -/
theorem Composes.enter (h : ∀ stop, p.Composes stop P)
    (hf : ∀ {d : Nat} {α : Type} (f : Failure τ φ ε), P .engine d (throw f : Run τ φ ν ε α))
    (e : Entry τ φ ν ε α) (d : Nat) : P .engine d (p.enter e) := by
  cases e with
  | parse => exact (h none).parse d
  | parseUntil rbp stop => exact (h stop).parseUntil d fun _ => hf _
  | parseInput rbp stop => exact (h stop).parseInput d rbp
  | nud head op stop => exact (h stop).nud d head op
  | led head op lhs stop => exact (h stop).led d head op lhs
  | eatSeparator op index stop => exact (h stop).eatSeparator d op index (hf _)

end Parser

end BindingPower
