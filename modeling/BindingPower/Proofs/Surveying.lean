import BindingPower.Proofs.Detachment

/-! # Guards that are not told apart

Where what is found out on the way decides the guard of a loop in one way only, a parser with
another guard that is decided alike goes the same way. With its own guard a parser is compared to
itself, which tells what it keeps. -/
namespace BindingPower

variable {τ φ ν ε α : Type} {keep : Event τ φ ν → Bool}

/-- A token at which no test of a run stops. -/
def StopTest.Passes (tests : Option (StopTest τ φ ε)) (t : τ) : Prop :=
  ∀ test ∈ tests, test t = .ok false

namespace Parser

variable {p : Parser τ φ ν ε} {g : Precedence → Precedence → Precedence → Bool}
  {R : Cursor τ ε → Cursor τ ε → Prop} {m w : Option (Cursor τ ε)} {J K : Known τ ε}

/-- The same parser with another guard in its loops. -/
def guarded (p : Parser τ φ ν ε) (g : Precedence → Precedence → Precedence → Bool) :
    Parser τ φ ν ε := { p with admits := g }

/-- An insight for every run of a parser, by which tokens can be seen there. It decides the guard of
the parser and the other one alike. -/
structure Survey (p : Parser τ φ ν ε) (g : Precedence → Precedence → Precedence → Bool) where
  insight : (τ → Prop) → Insight τ φ ε p.admits
  shown : ∀ sight, (insight sight).shown = sight
  classified : ∀ sight {t op}, (p.grammar.query t).Returns op → (insight sight).classified t op
  guard : ∀ sight {rbp nbp t op items}, (insight sight).within rbp nbp items →
    (insight sight).Sees t items → (insight sight).classified t op →
    g rbp op.leftPower nbp = p.admits rbp op.leftPower nbp

/-- Nothing has to be found out about the parser's own guard. -/
def Survey.own (p : Parser τ φ ν ε) : p.Survey p.admits where
  insight sight := .ofShown p.admits sight
  shown _ := rfl
  classified _ _ _ _ := trivial
  guard _ _ _ _ _ _ _ _ _ := rfl

theorem calling_alike (call : Call τ φ ν) {body body' : Run τ φ ν ε α} {L : α → Known τ ε}
    (h : Run.Mirrors (Run.alike keep R m w) K body body' L) :
    Run.Mirrors (Run.alike keep R m w) K (p.calling call body)
      ((p.guarded g).calling call body') L :=
  (h.catching (.inl rfl)).record _

theorem calling_eq_ok {call : Call τ φ ν} {body : Run τ φ ν ε α} {s t : Session τ φ ν ε} {a : α}
    (h : p.calling call body s = .ok a t) : body (s.record (.called call)) = .ok a t := by
  change Run.catching (contain p.config.maxDepth) body (s.record (.called call)) = _ at h
  simp only [Run.catching] at h
  generalize body (s.record (.called call)) = x at h ⊢
  cases x with
  | ok b u => exact h
  | error f u => cases h

section Calls

variable {enter enter' : Goal → Option (StopTest τ φ ε) → Run τ φ ν ε ν}
  (he : ∀ n n' goal tests, Run.Mirrors (Run.alike keep Eq n n') .anything (enter goal tests)
    (enter' goal tests) fun _ => .anything)

include he

theorem call_alike (call : Call τ φ ν) {callback : Callback τ φ ν ε α} (h : callback.Detached) :
    Run.Mirrors (Run.alike keep R m w) K (p.calling call (callback.perform enter))
      ((p.guarded g).calling call (callback.perform enter')) fun a items =>
        K items ∧ callback.Returns a :=
  (calling_alike call (h.perform he)).returned fun _ _ _ hc => ⟨_, _, _, calling_eq_ok hc⟩

theorem visible_alike {k : Insight τ φ ε p.admits} {tests : Option (StopTest τ φ ε)}
    (hk : k.shown = StopTest.Passes tests) :
    Run.Looks (Run.alike keep Eq m w) k (visible (p.asking enter (tests.map StopTest.toStop)))
      (visible ((p.guarded g).asking enter' (tests.map StopTest.toStop))) where
  mirrors K := by
    refine Run.peek_alike.bind fun o => ?_
    cases o with
    | none => exact Run.mirrors_pure none fun items h => ⟨h.1, fun t ht => by simp [ht.1] at h⟩
    | some t =>
      cases tests with
      | none =>
        exact Run.mirrors_pure (some t) fun items h => ⟨h.1, h.2, by simp [hk, StopTest.Passes]⟩
      | some test =>
        refine (call_alike he (.stop t) (Callback.detached_ofExcept (test t))).bind fun yes => ?_
        cases yes with
        | true =>
          refine Run.mirrors_pure none fun items h => ⟨h.1.1, fun u hu => ?_⟩
          obtain ⟨⟨-, hhead⟩, hyes⟩ := h
          have heq := hhead.symm.trans hu.1
          cases heq
          have hno := hu.2
          rw [hk] at hno
          have := hno test rfl
          rw [Callback.returns_ofExcept hyes] at this
          cases this
        | false =>
          refine Run.mirrors_pure (some t) fun items h => ⟨h.1.1, h.1.2, ?_⟩
          rw [hk]
          intro test' htest
          cases htest
          exact Callback.returns_ofExcept h.2
  shown _ s s' t u h hv := by
    obtain ⟨d, -, ha⟩ := visible_found hv
    rw [hk]
    rintro test rfl
    exact Callback.returns_ofExcept ⟨_, _, _, calling_eq_ok (ha _ rfl)⟩

end Calls

theorem concluding_alike (goal : Goal) (node : ν) :
    Run.Mirrors (Run.alike keep Eq m w) K (p.concluding goal node)
      ((p.guarded g).concluding goal node) fun _ => K := by
  change Run.Mirrors _ K _ (p.concluding goal node) _
  unfold concluding
  split
  · refine Run.peek_alike.bind fun o => ?_
    cases o with
    | none => exact Run.mirrors_pure node fun _ hk => hk.1
    | some t => exact Run.mirrors_report _
  · exact Run.mirrors_pure node fun _ hk => hk

theorem reentry_alike {inner inner' : Operand τ φ ν ε}
    (hi : ∀ tests rbp head, StopTest.Passes tests head → Run.Mirrors (Run.alike keep Eq m w)
      (fun items => items.head? = some (.token head))
      (inner (tests.map StopTest.toStop) rbp head) (inner' (tests.map StopTest.toStop) rbp head)
      fun _ => .anything) (goal : Goal) (tests : Option (StopTest τ φ ε)) :
    Run.Mirrors (Run.alike keep Eq m w) .anything (p.reentry inner goal tests)
      ((p.guarded g).reentry inner' goal tests) fun _ => .anything := by
  let enter : Goal → Option (StopTest τ φ ε) → Run τ φ ν ε ν := fun _ _ => throw .exhausted
  rw [reentry_eq p inner enter, reentry_eq (p.guarded g) inner' enter]
  refine entering_mirrors (L := fun _ => .anything) (fun rbp => ?_) (concluding_alike goal)
  refine startingAt_mirrors (k := .ofShown p.admits (StopTest.Passes tests))
    (visible_alike (fun _ _ _ _ => Run.mirrors_throw _) rfl) fun t ht => ?_
  exact (hi tests rbp t ht).strengthen fun _ hk => hk.2.1

section Levels

variable (v : p.Survey g) (hG : p.grammar.Detached)

include v hG

theorem frame_alike {inner inner' below below' : Operand τ φ ν ε}
    {tests : Option (StopTest τ φ ε)}
    (hi : ∀ n n' goal tests, Run.Mirrors (Run.alike keep Eq n n') .anything
      (p.reentry inner goal tests) ((p.guarded g).reentry inner' goal tests) fun _ => .anything)
    (hb : ∀ J : Known τ ε, J.Lasting → ∀ rbp head, StopTest.Passes tests head →
      Run.Mirrors (Run.alike keep Eq m w) (fun items => J items ∧ items.head? = some (.token head))
        (below (tests.map StopTest.toStop) rbp head) (below' (tests.map StopTest.toStop) rbp head)
        fun _ items => J items ∧ (v.insight (StopTest.Passes tests)).behind rbp items) :
    (p.frame inner below (tests.map StopTest.toStop)).Mirrors (Run.alike keep Eq m w)
      ((p.guarded g).frame inner' below' (tests.map StopTest.toStop))
      (v.insight (StopTest.Passes tests)) where
  query K t _ := (call_alike hi _ (hG.query t)).weaken fun _ _ h => ⟨h.1, v.classified _ h.2⟩
  nullary K t _ := (call_alike hi _ (hG.nullary t)).weaken fun _ _ h => h.1
  unary K t x _ := (call_alike hi _ (hG.unary t x)).weaken fun _ _ h => h.1
  binary K t x y _ := (call_alike hi _ (hG.binary t x y)).weaken fun _ _ h => h.1
  ternary K t x y z _ := (call_alike hi _ (hG.ternary t x y z)).weaken fun _ _ h => h.1
  isFollow K t e _ := (call_alike hi _ (hG.isFollow t e)).weaken fun _ _ h => h.1
  visible := visible_alike hi (v.shown _)
  advance t J := by
    rintro s s' ⟨hs, ⟨hhead, -⟩, hj⟩
    refine Run.consume_alike hs hhead (hs.cursor ▸ hhead) hj ?_
    intro d d' _ _ hn hn' _ _
    rw [← hs.cursor, hn] at hn'
    cases hn'
    rfl
  operand rbp J hJ := by
    refine startingAt_mirrors (visible_alike hi (v.shown _)) fun t ht => ?_
    rw [v.shown] at ht
    exact (hb J hJ rbp t ht).strengthen fun _ hk => ⟨hk.1, hk.2.1⟩
  strict := .inl rfl
  guard rbp nbp t op s s' h := v.guard _ h.2.1 h.2.2.1 h.2.2.2
  fuel rbp nbp lhs s s' h := by rw [h.1.cursor]

/-- With the guard that a survey decides alike, an operand is read in step. -/
theorem operandIn_alike (room : Nat) (tests : Option (StopTest τ φ ε)) (J : Known τ ε)
    (hJ : J.Lasting) (rbp : Precedence) (head : τ) (hh : StopTest.Passes tests head) :
    Run.Mirrors (Run.alike keep Eq m w) (fun items => J items ∧ items.head? = some (.token head))
      (p.operandIn room (tests.map StopTest.toStop) rbp head)
      ((p.guarded g).operandIn room (tests.map StopTest.toStop) rbp head) fun _ items =>
        J items ∧ (v.insight (StopTest.Passes tests)).behind rbp items := by
  -- the streams behind are generalised too: a run inside a callback has others behind its own
  induction room using Nat.strongRecOn generalizing m w tests J rbp head with
  | ind room ih =>
    cases room with
    | zero => exact Run.mirrors_report _
    | succ n =>
      rw [operandIn_succ, operandIn_succ]
      have inner (i j : Option (Cursor τ ε)) (goal : Goal) (tests : Option (StopTest τ φ ε)) :
          Run.Mirrors (Run.alike keep Eq i j) .anything
            (p.reentry (p.operandIn (n - reentryCost)) goal tests)
            ((p.guarded g).reentry ((p.guarded g).operandIn (n - reentryCost)) goal tests)
            fun _ => .anything :=
        reentry_alike (fun tests rbp head hh => ((ih (n - reentryCost) (by omega) tests .anything
          Known.anything_lasting rbp head hh).strengthen fun _ hk => ⟨trivial, hk⟩).weaken
            fun _ _ _ => trivial) goal tests
      have frames : Frame.Mirrors (Run.alike keep Eq m w) _ _ _ :=
        frame_alike v hG inner (ih n (by omega) tests)
      refine Run.Mirrors.deeper ((frames.climb hJ rbp ?_).strengthen fun items hk => ?_) _ _
      · rwa [v.shown]
      · exact ⟨hk.1, hk.2, by rwa [v.shown]⟩

theorem reentryIn_alike (room : Nat) (goal : Goal) (tests : Option (StopTest τ φ ε)) :
    Run.Mirrors (Run.alike keep Eq m w) .anything (p.reentry (p.operandIn room) goal tests)
      ((p.guarded g).reentry ((p.guarded g).operandIn room) goal tests) fun _ => .anything := by
  refine reentry_alike (fun tests rbp head hh => ?_) goal tests
  exact ((operandIn_alike v hG room tests .anything Known.anything_lasting rbp head hh).strengthen
    fun _ hk => ⟨trivial, hk⟩).weaken fun _ _ _ => trivial

theorem frameIn_alike (inner below : Nat) (tests : Option (StopTest τ φ ε)) :
    (p.frame (p.operandIn inner) (p.operandIn below) (tests.map StopTest.toStop)).Mirrors
      (Run.alike keep Eq m w) ((p.guarded g).frame ((p.guarded g).operandIn inner)
        ((p.guarded g).operandIn below) (tests.map StopTest.toStop))
      (v.insight (StopTest.Passes tests)) :=
  frame_alike v hG (fun _ _ => reentryIn_alike v hG inner) (operandIn_alike v hG below tests)

theorem frameAt_alike (depth : Nat) (tests : Option (StopTest τ φ ε)) :
    (p.frameAt depth (tests.map StopTest.toStop)).Mirrors (Run.alike keep Eq m w)
      ((p.guarded g).frameAt depth (tests.map StopTest.toStop))
      (v.insight (StopTest.Passes tests)) := frameIn_alike v hG _ _ tests

end Levels

end Parser

/-- At the end of the stream there is nothing to be seen. -/
theorem visible_of_nil {s : Session τ φ ν ε} (h : s.cursor.items = [])
    (ask : Option (τ → Run τ φ ν ε Bool)) : visible ask s = .ok none s := by
  have hnil : s.cursor.items = ([] : List τ).map .token := h
  obtain ⟨d, hp, -⟩ := Cursor.peek_of_tokens hnil
  refine (bind_of_ok (a := none) (t := s) ?_ _).trans rfl
  simp only [Run.reading, hp, List.head?_nil]
  rw [Cursor.peek_eq_self hp, Session.withCursor_cursor]

namespace Frame

variable {f : Frame τ φ ν ε} {k : Insight τ φ ε f.parser.admits} {m : Option (Cursor τ ε)}

/-- At the end of the stream there is nothing to continue with. -/
theorem continued_of_nil {s : Session τ φ ν ε} (h : s.cursor.items = []) (rbp : Precedence)
    (n : Nat) (nbp : Precedence) (lhs : ν) : f.continued rbp n nbp lhs s = .ok lhs s := by
  cases n with
  | zero => rfl
  | succ n => exact bind_of_ok (visible_of_nil h _) _

/-- More steps than there are tokens left make no difference. -/
theorem Mirrors.continued_congr (h : f.Mirrors (Run.alike keep Eq m m) f k) (rbp : Precedence)
    {n n' : Nat} (nbp : Precedence) (lhs : ν) {s : Session τ φ ν ε} (hs : s.behind = m)
    (hn : s.cursor.remaining ≤ n) (hn' : s.cursor.remaining ≤ n') :
    f.continued rbp n nbp lhs s = f.continued rbp n' nbp lhs s := by
  induction n generalizing n' nbp lhs s with
  | zero =>
    have hnil := List.eq_nil_of_length_eq_zero (Nat.le_zero.mp hn)
    rw [continued_of_nil hnil, continued_of_nil hnil]
  | succ n ih =>
    cases n' with
    | zero =>
      have hnil := List.eq_nil_of_length_eq_zero (Nat.le_zero.mp hn')
      rw [continued_of_nil hnil, continued_of_nil hnil]
    | succ n' =>
      let left (i : Nat) : Known τ ε := fun items => items.length ≤ i
      have start : (Run.alike keep Eq m m).holds (left (min n n' + 1)) s s := by
        rw [← hs]
        refine Run.alike_self ?_
        change s.cursor.remaining ≤ _
        omega
      refine (h.visible.mirrors _).bind_congr start fun o s₁ hv h₁ => ?_
      cases o with
      | none => rfl
      | some t =>
        have ht := h.visible.shown _ s s t s₁ start hv
        refine (h.query _ t ht).bind_congr h₁ fun op s₂ _ h₂ => ?_
        split
        · have eaten : ∀ items : List (Item τ ε), ((left (min n n' + 1) items ∧ k.Sees t items) ∧
              k.classified t op) → k.Sees t items ∧ left (min n n') items.tail := by
            rintro items ⟨⟨hlen, hsees⟩, -⟩
            refine ⟨hsees, ?_⟩
            simp only [left, List.length_tail] at hlen ⊢
            omega
          refine ((h.advance t _).strengthen eaten).bind_congr h₂ fun _ s₃ _ h₃ => ?_
          refine (h.led (Known.length_lasting _) ht op.continuing lhs).bind_congr h₃
            fun node s₄ _ h₄ => ?_
          have hlen : s₄.cursor.remaining ≤ min n n' := h₄.2.1
          exact ih _ node h₄.1.behind (by omega) (by omega)
        · rfl

end Frame

end BindingPower
