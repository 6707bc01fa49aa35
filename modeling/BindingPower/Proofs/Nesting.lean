import BindingPower.Proofs.Outcomes
import BindingPower.Table

/-! # The depth counter

What a parser has opened at a moment, read off its log: the operands that are being read and the
runs that have been entered. The counter stands where it stood at first, a level higher for each
such operand and `reentryCost` levels for each such run that did not start from zero. Whatever a run
ends in, it comes back to where it began. -/
namespace BindingPower

variable {τ φ ν ε α β : Type}

/-- What goes on at a moment: an operand is read, or a run that was entered at a depth. -/
inductive Activity where
  | body
  | run (before : Nat)
  deriving DecidableEq

namespace Activity

def isBody : Activity → Bool
  | body => true
  | run _ => false

/-- Only a run that another run encloses is charged for. -/
def isCharged : Activity → Bool
  | body => false
  | run before => 0 < before

end Activity

/-- The events between which something goes on. -/
def Event.turns : Event τ φ ν → Bool
  | opened => true
  | closed => true
  | entered _ => true
  | left _ => true
  | _ => false

/-- A log as it stands at a moment, the newest event first. -/
abbrev Log (τ φ ν : Type) := List (Nat × Event τ φ ν)

namespace Log

/-- The counter at a moment of a log that began at depth `d₀`. -/
def counter (d₀ : Nat) : Log τ φ ν → Nat
  | [] => d₀
  | (d, _) :: _ => d

/-- What goes on at a moment, the innermost first. Nothing else may come to an end than that. -/
def active (d₀ : Nat) : Log τ φ ν → Option (List Activity)
  | [] => some []
  | (_, e) :: older =>
    match e, active d₀ older with
    | .opened, some outer => some (.body :: outer)
    | .entered _, some outer => some (.run (counter d₀ older) :: outer)
    | .closed, some (.body :: outer) => some outer
    | .left _, some (.run _ :: outer) => some outer
    | .closed, _ => none
    | .left _, _ => none
    | _, outer => outer

/-- A moment of a log that began at depth `d₀`: the counter is accounted for by what goes on, and
no operand is read beyond the limit. -/
structure Balanced (limit d₀ : Nat) (moment : Log τ φ ν) (ongoing : List Activity) : Prop where
  active : moment.active d₀ = some ongoing
  counter : moment.counter d₀ =
    d₀ + ongoing.countP Activity.isBody + reentryCost * ongoing.countP Activity.isCharged
  bounded : ongoing.head? = some .body → moment.counter d₀ ≤ limit

/-- What is recorded at a depth, with everything that is opened closed again. -/
inductive Nested (limit : Nat) : Nat → Log τ φ ν → Prop where
  | nil {d : Nat} : Nested limit d []
  | plain {d : Nat} {log : Log τ φ ν} {e : Event τ φ ν} (he : e.turns = false)
    (h : Nested limit d log) : Nested limit d ((d, e) :: log)
  | body {d : Nat} {log inner : Log τ φ ν} (hd : d < limit) (h : Nested limit d log)
    (hi : Nested limit (d + 1) inner) :
    Nested limit d ((d, .closed) :: (inner ++ (d + 1, .opened) :: log))
  | run {d : Nat} {log inner : Log τ φ ν} (h : Nested limit d log)
    (hi : Nested limit (d + charge d) inner) :
    Nested limit d ((d, .left (charge d)) :: (inner ++ (d + charge d, .entered (charge d)) :: log))

variable {limit d₀ d : Nat} {log base : Log τ φ ν} {ongoing : List Activity}

theorem Nested.append {newer : Log τ φ ν} (h : Nested limit d newer) (hl : Nested limit d log) :
    Nested limit d (newer ++ log) := by
  induction h with
  | nil => exact hl
  | plain he _ ih => exact .plain he (ih hl)
  | body hd _ hi ih _ =>
    rw [List.cons_append, List.append_assoc]
    exact .body hd (ih hl) hi
  | run _ hi ih _ =>
    rw [List.cons_append, List.append_assoc]
    exact .run (ih hl) hi

/-- Moments at which the same goes on and the counter is the same are balanced together. -/
theorem Balanced.congr {moment : Log τ φ ν} (h : base.Balanced limit d₀ ongoing)
    (ha : moment.active d₀ = some ongoing) (hc : moment.counter d₀ = base.counter d₀) :
    moment.Balanced limit d₀ ongoing :=
  ⟨ha, hc.trans h.counter, fun hb => hc ▸ h.bounded hb⟩

theorem Balanced.opened (h : base.Balanced limit d₀ ongoing) (hc : base.counter d₀ = d)
    (hd : d < limit) : Balanced limit d₀ ((d + 1, .opened) :: base) (.body :: ongoing) where
  active := by simp only [Log.active, h.active]
  counter := by
    have hcounter := hc.symm.trans h.counter
    simp only [Log.counter, List.countP_cons, Activity.isBody, Activity.isCharged, reentryCost,
      ↓reduceIte, Bool.false_eq_true] at hcounter ⊢
    omega
  bounded _ := hd

theorem Balanced.entered (h : base.Balanced limit d₀ ongoing) (hc : base.counter d₀ = d) :
    Balanced limit d₀ ((d + charge d, .entered (charge d)) :: base) (.run d :: ongoing) where
  active := by simp only [Log.active, h.active, hc]
  counter := by
    have hcounter := hc.symm.trans h.counter
    simp only [Log.counter, List.countP_cons, Activity.isBody, Activity.isCharged, charge,
      reentryCost, decide_eq_true_eq, ↓reduceIte, Bool.false_eq_true, Nat.pos_iff_ne_zero,
      ite_not] at hcounter ⊢
    split <;> omega
  bounded hb := by simp at hb

theorem active_of_plain {e : Event τ φ ν} (he : e.turns = false) :
    active d₀ ((d, e) :: log) = active d₀ log := by
  cases e <;> simp [Event.turns] at he <;> rfl

/-- A suffix of a log that was put together ends in the older part or reaches into the newer one. -/
theorem suffix_append_cases {newer moment : Log τ φ ν} (h : moment <:+ newer ++ log) :
    moment <:+ log ∨ ∃ part, part <:+ newer ∧ moment = part ++ log := by
  rcases List.suffix_or_suffix_of_suffix h (List.suffix_append newer log) with hs | ⟨part, rfl⟩
  · exact .inl hs
  · obtain ⟨rest, hrest⟩ := h
    rw [← List.append_assoc] at hrest
    exact .inr ⟨part, ⟨rest, List.append_cancel_right hrest⟩, rfl⟩

/-- Every moment of a log on top of an older one is balanced. -/
def Past (limit d₀ : Nat) (log base : Log τ φ ν) : Prop :=
  ∀ moment, moment <:+ log → ∃ now, Balanced limit d₀ (moment ++ base) now

theorem Past.cons {entry : Nat × Event τ φ ν} (h : Past limit d₀ log base)
    (hnow : Balanced limit d₀ (entry :: (log ++ base)) ongoing) :
    Past limit d₀ (entry :: log) base := by
  intro moment hm
  rcases List.suffix_cons_iff.mp hm with rfl | hm
  · exact ⟨ongoing, hnow⟩
  · exact h moment hm

theorem Past.append {newer : Log τ φ ν} (h : Past limit d₀ log base)
    (hn : Past limit d₀ newer (log ++ base)) : Past limit d₀ (newer ++ log) base := by
  intro moment hm
  rcases suffix_append_cases hm with hm | ⟨part, hpart, rfl⟩
  · exact h moment hm
  · rw [List.append_assoc]
    exact hn part hpart

/-- What is recorded on top of a balanced moment leads through balanced moments back to it. -/
theorem Nested.balanced (h : Nested limit d log) (hb : base.Balanced limit d₀ ongoing)
    (hc : base.counter d₀ = d) :
    (log ++ base).Balanced limit d₀ ongoing ∧ (log ++ base).counter d₀ = d ∧
      Past limit d₀ log base := by
  -- by induction on the log: what is opened is the innermost that goes on while the log inside is
  -- recorded, and so the event behind that closes it
  induction h generalizing base ongoing with
  | nil =>
    refine ⟨hb, hc, fun moment hm => ⟨ongoing, ?_⟩⟩
    rw [List.suffix_nil.mp hm]
    exact hb
  | @plain d log e he _ ih =>
    obtain ⟨hlog, hcount, hpast⟩ := ih hb hc
    have hnow : Balanced limit d₀ ((d, e) :: (log ++ base)) ongoing :=
      hlog.congr ((active_of_plain he).trans hlog.active) hcount.symm
    exact ⟨hnow, rfl, hpast.cons hnow⟩
  | @body d log inner hd _ _ ih ihi =>
    obtain ⟨hlog, hcount, hpast⟩ := ih hb hc
    have hopened := hlog.opened hcount hd
    obtain ⟨hin, -, hinner⟩ := ihi hopened rfl
    have hnow : Balanced limit d₀ ((d, .closed) :: (inner ++ (d + 1, .opened) :: log ++ base))
        ongoing := by
      refine hlog.congr ?_ hcount.symm
      rw [List.append_assoc, List.cons_append]
      simp only [Log.active, hin.active]
    exact ⟨hnow, rfl, ((hpast.cons hopened).append hinner).cons hnow⟩
  | @run d log inner _ _ ih ihi =>
    obtain ⟨hlog, hcount, hpast⟩ := ih hb hc
    have hentered := hlog.entered hcount
    obtain ⟨hin, -, hinner⟩ := ihi hentered rfl
    have hnow : Balanced limit d₀
        ((d, .left (charge d)) :: (inner ++ (d + charge d, .entered (charge d)) :: log ++ base))
        ongoing := by
      refine hlog.congr ?_ hcount.symm
      rw [List.append_assoc, List.cons_append]
      simp only [Log.active, hin.active]
    exact ⟨hnow, rfl, ((hpast.cons hentered).append hinner).cons hnow⟩

theorem balanced_nil (limit d₀ : Nat) : Balanced limit d₀ ([] : Log τ φ ν) [] :=
  ⟨rfl, rfl, fun h => by simp at h⟩

end Log

/-- The later session is at the depth and on the kind of stream of the earlier one, and what has
been recorded in between is nested. -/
def Session.Leads (limit : Nat) (s t : Session τ φ ν ε) : Prop :=
  t.depth = s.depth ∧ t.side.isSome = s.side.isSome ∧
    ∃ log : Log τ φ ν, t.log = log ++ s.log ∧ log.Nested limit s.depth

namespace Session.Leads

variable {limit : Nat} {s t u : Session τ φ ν ε}

theorem refl (s : Session τ φ ν ε) : s.Leads limit s := ⟨rfl, rfl, [], rfl, .nil⟩

theorem trans (h : s.Leads limit t) (k : t.Leads limit u) : s.Leads limit u := by
  obtain ⟨hdepth, hside, older, hlog, hnest⟩ := h
  obtain ⟨kdepth, kside, newer, klog, knest⟩ := k
  refine ⟨kdepth.trans hdepth, kside.trans hside, newer ++ older, ?_, ?_⟩
  · rw [klog, hlog, List.append_assoc]
  · exact (hdepth ▸ knest).append hnest

theorem record {e : Event τ φ ν} (h : s.Leads limit t) (he : e.turns = false) :
    s.Leads limit (t.record e) := by
  obtain ⟨hdepth, hside, log, hlog, hnest⟩ := h
  refine ⟨hdepth, hside, (s.depth, e) :: log, ?_, hnest.plain he⟩
  rw [Session.record, hlog, hdepth]
  rfl

theorem called {c : Call τ φ ν} (h : (s.record (.called c)).Leads limit t) : s.Leads limit t :=
  ((refl s).record rfl).trans h

theorem withCursor (s : Session τ φ ν ε) (c : Cursor τ ε) : s.Leads limit (s.withCursor c) := by
  refine ⟨s.depth_withCursor c, ?_, [], s.log_withCursor c, .nil⟩
  cases hside : s.side <;> simp [Session.withCursor, hside]

/-- A run that is made some levels deeper comes back up. -/
theorem deeper {n : Nat} {before after : Event τ φ ν}
    (h : ((s.deepen n).record before).Leads limit t)
    (hn : ∀ inner, Log.Nested limit (s.depth + n) inner →
      Log.Nested limit s.depth ((s.depth, after) :: (inner ++ [(s.depth + n, before)]))) :
    s.Leads limit ((t.surface n).record after) := by
  obtain ⟨hdepth, hside, inner, hlog, hnest⟩ := h
  have hback : (t.surface n).depth = s.depth := depth_surface hdepth
  refine ⟨hback, hside, _, ?_, hn inner hnest⟩
  rw [Session.record, hback]
  change _ :: t.log = _
  rw [hlog]
  simp [Session.record, Session.deepen]

theorem chains (limit : Nat) :
    Outcome.Chains fun (s : Session τ φ ν ε) _ t => s.Leads limit t := ⟨refl, trans, And.left⟩

end Session.Leads

/-- From the depth on, the run leads on whatever it ends in. -/
def Run.Nests (limit : Nat) (_ : Layer) (d : Nat) {α : Type} (m : Run τ φ ν ε α) : Prop :=
  ∀ s : Session τ φ ν ε, s.depth = d → s.Leads limit (ending (m s))

/-- Whatever the callbacks do, a parser leads on. -/
theorem Parser.nests_composes (p : Parser τ φ ν ε) (stop : Option (Stop τ φ ν ε)) :
    p.Composes stop (Run.Nests p.config.maxDepth) :=
  have chains := Session.Leads.chains p.config.maxDepth
  have composes : p.Composes stop fun _ => Run.Obeys fun s _ t => s.Leads p.config.maxDepth t :=
    { weaken := fun h => h
      pure := Run.obeys_pure chains
      bind := fun hm hk => hm.bind chains fun a _ => hk a
      depth := .depth
      remaining := .remaining
      report := fun _ s _ => .refl s
      record := fun he s _ => (Session.Leads.refl s).record (by cases he <;> rfl)
      peek := Run.obeys_reading fun s => .withCursor s _
      next := Run.obeys_reading fun s => .withCursor s _
      body := fun hd h => h.deeper fun s _ t hs ht => by
        subst hs
        exact ht.deeper fun _ hi => .body hd .nil hi
      entered := fun h => h.deeper fun s _ t hs ht => by
        subst hs
        exact ht.deeper fun _ hi => .run .nil hi
      call := fun _ h => h.calling (fun _ _ _ ht => ht.called) fun _ _ _ _ _ ht =>
        ht.called.record rfl
      fails := fun f s _ => .refl s
      within := fun side h => h.within side fun s _ t _ ht => ⟨ht.1, rfl, ht.2.2⟩
      take := Run.obeys_readingMain fun s => ⟨rfl, rfl, [], rfl, .nil⟩ }
  composes

/-- The session with an older log below its own. -/
def Session.over (s : Session τ φ ν ε) (older : Log τ φ ν) : Session τ φ ν ε :=
  { s with log := s.log ++ older }

/-- The ending with an older log below that of its session. -/
def laidOver (older : Log τ φ ν) :
    EStateM.Result (Failure τ φ ε) (Session τ φ ν ε) α →
      EStateM.Result (Failure τ φ ε) (Session τ φ ν ε) α
  | .ok a t => .ok a (t.over older)
  | .error f t => .error f (t.over older)

theorem Session.withCursor_over (s : Session τ φ ν ε) (c : Cursor τ ε) (older : Log τ φ ν) :
    (s.over older).withCursor c = (s.withCursor c).over older := by
  obtain ⟨main, side, depth, log⟩ := s
  cases side <;> rfl

/-- From the depth on, what the run does is not affected by what has been recorded before. -/
def Run.Blind (d : Nat) (m : Run τ φ ν ε α) : Prop :=
  ∀ (s : Session τ φ ν ε) (older : Log τ φ ν), s.depth = d →
    m (s.over older) = laidOver older (m s)

namespace Run

variable {limit d : Nat} {l : Layer}

theorem Blind.bind {m : Run τ φ ν ε α} {k : α → Run τ φ ν ε β} (hn : Nests limit l d m)
    (hm : Blind d m) (hk : ∀ a, Blind d (k a)) : Blind d (m >>= k) := by
  intro s older hs
  have hdepth := (hn s hs).1
  change EStateM.bind m k _ = laidOver older (EStateM.bind m k s)
  unfold EStateM.bind
  rw [hm s older hs]
  cases hrun : m s with
  | error f t => rfl
  | ok a t =>
    rw [hrun] at hdepth
    exact hk a t older (hdepth.trans hs)

theorem Blind.deeper {n : Nat} {before after : Event τ φ ν} {m : Run τ φ ν ε α}
    (h : Blind (d + n) m) : Blind d (Run.deeper n before after m) := by
  intro s older hs
  have hrun : m (((s.over older).deepen n).record before) =
      laidOver older (m ((s.deepen n).record before)) :=
    h ((s.deepen n).record before) older (congrArg (· + n) hs)
  simp only [Run.deeper, hrun]
  cases m ((s.deepen n).record before) <;> rfl

theorem Blind.calling {p : Parser τ φ ν ε} {c : Call τ φ ν} {m : Run τ φ ν ε α} (h : Blind d m) :
    Blind d (p.calling c m) := by
  intro s older hs
  have hrun : m ((s.over older).record (.called c)) = laidOver older (m (s.record (.called c))) :=
    h (s.record (.called c)) older hs
  change Run.catching _ m ((s.over older).record (.called c)) =
    laidOver older (Run.catching _ m (s.record (.called c)))
  simp only [Run.catching, hrun]
  cases m (s.record (.called c)) <;> rfl

theorem Blind.within {m : Run τ φ ν ε α} (h : Blind d m) (side : Option (Cursor τ ε)) :
    Blind d (Run.within side m) := by
  intro s older hs
  have hrun : m { s.over older with side := side } = laidOver older (m { s with side := side }) :=
    h { s with side := side } older hs
  simp only [Run.within, hrun]
  cases m { s with side := side } <;> rfl

theorem reading_blind (f : Cursor τ ε → Except ε α × Cursor τ ε) :
    Blind d (Run.reading f : Run τ φ ν ε α) := by
  intro s older _
  have hcursor : (s.over older).cursor = s.cursor := rfl
  simp only [Run.reading, hcursor, Session.withCursor_over]
  cases f s.cursor with
  | mk r c => cases r <;> rfl

theorem readingMain_blind (f : Cursor τ ε → Except ε α × Cursor τ ε) :
    Blind d (Run.readingMain f : Run τ φ ν ε α) := by
  intro s older _
  have hmain : (s.over older).main = s.main := rfl
  simp only [Run.readingMain, hmain]
  cases f s.main with
  | mk r c => cases r <;> rfl

end Run

/-- A parser never looks at its log. -/
theorem Parser.blind_composes (p : Parser τ φ ν ε) (stop : Option (Stop τ φ ν ε)) :
    p.Composes stop fun l d _ m => Run.Nests p.config.maxDepth l d m ∧ Run.Blind d m :=
  have nests := p.nests_composes stop
  { weaken := fun h => h
    pure := fun a => ⟨nests.pure a, fun _ _ _ => rfl⟩
    bind := fun hm hk =>
      ⟨nests.bind hm.1 fun a => (hk a).1, hm.2.bind hm.1 fun a => (hk a).2⟩
    depth := fun h => ⟨nests.depth h.1, fun s older hs => by
      subst hs
      exact h.2 s older rfl⟩
    remaining := fun h => ⟨nests.remaining fun n => (h n).1, fun s older hs => (h _).2 s older hs⟩
    report := fun hr => ⟨nests.report hr, fun _ _ _ => rfl⟩
    record := fun he => ⟨nests.record he, fun _ _ _ => rfl⟩
    peek := ⟨nests.peek, Run.reading_blind _⟩
    next := ⟨nests.next, Run.reading_blind _⟩
    body := fun hd h => ⟨nests.body hd h.1, h.2.deeper⟩
    entered := fun h => ⟨nests.entered h.1, h.2.deeper⟩
    call := fun hc h => ⟨nests.call hc h.1, h.2.calling⟩
    fails := fun f => ⟨nests.fails f, fun _ _ _ => rfl⟩
    within := fun side h => ⟨nests.within side h.1, h.2.within side⟩
    take := ⟨nests.take, Run.readingMain_blind _⟩ }

/-- The sessions of a parser in use: a fresh one, one that has been given another stream, and one
in which an entry point has been called, whatever the call ended in. -/
inductive Parser.Lived (p : Parser τ φ ν ε) : Session τ φ ν ε → Prop where
  | fresh (main : Cursor τ ε) : Lived p (.start main)
  | loaded {s : Session τ φ ν ε} (h : Lived p s) (main : Cursor τ ε) :
    Lived p { s with main := main }
  | called {s : Session τ φ ν ε} {α : Type} (h : Lived p s) (e : Entry τ φ ν ε α) :
    Lived p (ending (p.enter e s))

namespace Parser

variable {p : Parser τ φ ν ε} {s : Session τ φ ν ε}

theorem enter_leads (p : Parser τ φ ν ε) (e : Entry τ φ ν ε α) (s : Session τ φ ν ε) :
    s.Leads p.config.maxDepth (ending (p.enter e s)) :=
  Composes.enter p.nests_composes (fun _ s _ => .refl s) e s.depth s rfl

theorem enter_blind (p : Parser τ φ ν ε) (e : Entry τ φ ν ε α) (d : Nat) :
    Run.Blind d (p.enter e) :=
  (Composes.enter p.blind_composes (fun _ => ⟨fun s _ => .refl s, fun _ _ _ => rfl⟩) e d).2

/-- Between two calls a parser is not nested. -/
theorem Lived.resting (h : p.Lived s) : s.depth = 0 ∧ s.side = none := by
  induction h with
  | fresh main => exact ⟨rfl, rfl⟩
  | loaded _ _ ih => exact ih
  | @called s _ _ e ih =>
    obtain ⟨hdepth, hside, -⟩ := p.enter_leads e s
    refine ⟨hdepth.trans ih.1, ?_⟩
    rw [ih.2] at hside
    exact Option.not_isSome_iff_eq_none.mp (by simp [hside])

theorem Lived.eq_over (h : p.Lived s) : s = (Session.start s.main).over s.log := by
  obtain ⟨hdepth, hside⟩ := h.resting
  obtain ⟨main, side, depth, log⟩ := s
  cases hdepth
  cases hside
  rfl

/-- At every moment of a call the counter is accounted for by what goes on, no operand is read
beyond the limit, and the call brings the counter back to where it started. What has been called
before makes no difference to it. -/
theorem enter_balanced (p : Parser τ φ ν ε) (e : Entry τ φ ν ε α) (s : Session τ φ ν ε) :
    (∃ log : Log τ φ ν, (ending (p.enter e s)).log = log ++ s.log ∧
      (ending (p.enter e s)).depth = s.depth ∧ log.active s.depth = some [] ∧
      ∀ moment : Log τ φ ν, moment <:+ log →
        ∃ ongoing, moment.Balanced p.config.maxDepth s.depth ongoing) ∧
    (p.Lived s → p.enter e s = laidOver s.log (p.enter e (.start s.main))) := by
  constructor
  · obtain ⟨hdepth, -, log, hlog, hnest⟩ := p.enter_leads e s
    obtain ⟨hend, -, hpast⟩ := hnest.balanced (Log.balanced_nil _ _) rfl
    rw [List.append_nil] at hend
    refine ⟨log, hlog, hdepth, hend.active, fun moment hm => ?_⟩
    obtain ⟨ongoing, hb⟩ := hpast moment hm
    rw [List.append_nil] at hb
    exact ⟨ongoing, hb⟩
  · intro hl
    have hblind := p.enter_blind e 0 (.start s.main) s.log rfl
    rwa [← hl.eq_over] at hblind

end Parser

namespace Table

/-- Sums over groups, in which an `x` exhausts the stack. -/
def exhausting : Table :=
  ⟨[("+", .infixed (.saturate 1) .left)], .plain, none, .exact,
    [⟨.nullary, some (.word "x"), .exhausted⟩]⟩

/-- What is left of a call that fails inside two groups. -/
def exhausted : Session Symbol Symbol Node Fault :=
  ending ((exhausting.parser ⟨false, false, 9, by decide⟩).enter .parse
    (.start (.ofTokens [.word "a", .word "+", .list [.list [.word "x"]]])))

theorem enter_balanced_exhausted :
    failure? ((exhausting.parser ⟨false, false, 9, by decide⟩).enter .parse
      (.start (.ofTokens [.word "a", .word "+", .list [.list [.word "x"]]]))) =
        some (.report (.nestingTooDeep 9 (some 8))) ∧
    returned? ((exhausting.parser ⟨false, false, 9, by decide⟩).enter .parse
      { exhausted with main := .ofTokens [.word "a", .word "+", .list [.word "b"]] }) =
      some (.binary (.word "+") (.leaf (.word "a")) (.group (.leaf (.word "b")))) := by
  refine ⟨by decide +kernel, ?_⟩
  have lived : (exhausting.parser ⟨false, false, 9, by decide⟩).Lived
      { exhausted with main := .ofTokens [.word "a", .word "+", .list [.word "b"]] } :=
    .loaded (.called (.fresh _) .parse) _
  rw [(Parser.enter_balanced _ .parse _).2 lived]
  decide +kernel

end Table

end BindingPower
