import BindingPower.Proofs.Refusals

/-! # Declared levels

The powers of an operator are ten times its level, or one beside that, and stay within the range of
precedences. Among the levels that may be declared they decide as the levels do, ties going by the
associativity. What is beyond those, and so tight that its power would leave the range, grips its
left operand with the highest power of all, and there is no operand that it continues. -/
namespace BindingPower

variable {τ φ ν ε α β : Type}

theorem Precedence.eq_iff (p q : Precedence) : p = q ↔ p.val = q.val := ⟨congrArg val, ext_val⟩

theorem Precedence.normalize_eq_top {p : Precedence} (h : largest < 10 * p.val) :
    p.normalize = .top := by
  have hmax : largest = 4294967295 := rfl
  rw [eq_iff, normalize_val]
  change _ = largest
  omega

/-- Nothing lies between the highest power and another one. -/
theorem between_top (rbp nbp : Precedence) : between rbp .top nbp = false := by
  have hn : ¬Precedence.top < nbp := Nat.not_lt.mpr nbp.val_le
  simp [between, hn]

namespace Operator

/-- The token can continue an operand. The part of it that does so has the level. -/
def Continues (op : Operator φ) : Prop :=
  op.continuing.affix = .infixed ∨ op.continuing.affix = .postfixed

variable {op q : Operator φ}

theorem Continues.leftPower_eq (h : q.Continues) :
    q.leftPower = q.continuing.precedence.normalize := by
  unfold leftPower
  rcases h with h | h <;> simp only [h]

/-- What is tighter than any level that may be declared grips as tight as can be. -/
theorem Continues.leftPower_eq_top (h : q.Continues)
    (hq : Precedence.largest < 10 * q.continuing.precedence.val) : q.leftPower = .top := by
  rw [h.leftPower_eq, Precedence.normalize_eq_top hq]

section Powers

variable (h : q.Continues) (hq : q.continuing.precedence.val ≤ Precedence.maxDeclared)

include h hq

theorem Continues.leftPower_val : q.leftPower.val = q.continuing.scaled := by
  rw [h.leftPower_eq, Precedence.normalize_of_le hq, scaled]

theorem Continues.leftPower_lt_top : q.leftPower < .top := by
  have hmax : Precedence.maxDeclared = 429496728 := rfl
  rw [Precedence.lt_iff, h.leftPower_val hq]
  change 10 * _ < 4294967295
  omega

variable (hp : op.precedence.val ≤ Precedence.maxDeclared)

include hp

/-- What follows the right operand of an operator is drawn into it if it is tighter, and from the
same level if the operator nests to the right. -/
theorem Continues.rightPower_lt_iff : op.rightPower < q.leftPower ↔
    op.precedence < q.continuing.precedence ∨ op.precedence = q.continuing.precedence ∧
      .bottom < q.continuing.precedence ∧ op.associativity = .right := by
  rw [Precedence.lt_iff, h.leftPower_val hq, rightPower_val hp, Precedence.eq_iff]
  simp only [Precedence.lt_iff, Precedence.bottom, scaled]
  cases op.associativity with
  | left => simp only [reduceCtorEq, and_false, or_false]; omega
  | right => simp only [and_true]; omega
  | neither => simp only [reduceCtorEq, and_false, or_false]; omega

/-- What follows an operator between two operands may be as tight, unless that does not chain. -/
theorem Continues.lt_nextPower_iff (ha : op.affix = .infixed) : q.leftPower < op.nextPower ↔
    q.continuing.precedence < op.precedence ∨ q.continuing.precedence = op.precedence ∧
      op.associativity ≠ .neither := by
  rw [Precedence.lt_iff, h.leftPower_val hq, nextPower_val hp ha, Precedence.eq_iff]
  simp only [Precedence.lt_iff, scaled]
  split
  · simp only [‹op.associativity = .neither›, ne_eq, not_true_eq_false, and_false, or_false]
    omega
  · simp only [‹¬op.associativity = .neither›, ne_eq, not_false_eq_true, and_true]
    omega

/-- What follows the operand of a prefix is drawn into it if it is as tight or tighter. -/
theorem Continues.operandPower_lt_iff : op.operandPower < q.leftPower ↔
    op.precedence ≤ q.continuing.precedence ∧ .bottom < q.continuing.precedence := by
  rw [Precedence.lt_iff, h.leftPower_val hq, operandPower_val hp]
  simp only [Precedence.lt_iff, Precedence.le_iff, Precedence.bottom, scaled]
  omega

end Powers

end Operator

/-- A token is only used to continue an operand as an operator that the powers admitted. -/
inductive Event.Admitted (p : Parser τ φ ν ε) : Event τ φ ν → Prop where
  | continuing {rbp nbp : Precedence} {t : τ} {op : Operator φ}
    (hq : (p.grammar.query t).Returns op) (ha : p.admits rbp op.leftPower nbp = true)
    (affix : Affix) (arity : Arity) : Admitted p (.continuing affix arity t)
  | plain {e : Event τ φ ν} (h : ∀ affix arity t, e ≠ .continuing affix arity t) : Admitted p e

/-- The later session is at the depth of the earlier one, and only events of the kind have been
recorded in between. -/
structure Session.Notes (Q : Event τ φ ν → Prop) (s t : Session τ φ ν ε) : Prop where
  depth : t.depth = s.depth
  log : s.Adds Q t

namespace Session.Notes

variable {Q : Event τ φ ν → Prop} {s t u : Session τ φ ν ε}

theorem refl (s : Session τ φ ν ε) : s.Notes Q s := ⟨rfl, .of_eq rfl⟩

theorem trans (h : s.Notes Q t) (k : t.Notes Q u) : s.Notes Q u :=
  ⟨k.depth.trans h.depth, h.log.trans k.log⟩

theorem record {e : Event τ φ ν} (h : s.Notes Q t) (he : Q e) : s.Notes Q (t.record e) :=
  ⟨h.depth, h.log.record he⟩

theorem called {c : Call τ φ ν} (h : (s.record (.called c)).Notes Q t) (hc : Q (.called c)) :
    s.Notes Q t := ((refl s).record hc).trans h

theorem withCursor (s : Session τ φ ν ε) (c : Cursor τ ε) : s.Notes Q (s.withCursor c) :=
  ⟨s.depth_withCursor c, .of_eq (s.log_withCursor c)⟩

theorem deeper {n : Nat} {before after : Event τ φ ν} (h : ((s.deepen n).record before).Notes Q t)
    (hb : Q before) (ha : Q after) : s.Notes Q ((t.surface n).record after) where
  depth := depth_surface h.depth
  log := ((Adds.down hb).trans h.log).trans (.up ha)

theorem chains : Outcome.Chains fun (s : Session τ φ ν ε) _ t => s.Notes Q t := ⟨refl, trans, depth⟩

end Session.Notes

namespace Parser

variable {p : Parser τ φ ν ε} {stop : Option (Stop τ φ ν ε)}

open Event (Admitted)

theorem notes_carries (p : Parser τ φ ν ε) :
    p.Carries (Run.Obeys fun s _ t => s.Notes (Admitted p) t) where
  steps := Run.obeys_composes Session.Notes.chains
  depth := .depth
  peek := Run.obeys_reading fun s => .withCursor s _
  report _ _ s _ := .refl s
  entered h := h.deeper fun _ _ _ _ ht => ht.deeper (.plain (by simp)) (.plain (by simp))

/-- Whatever a parser is asked for, and whatever its callbacks ask for, only records what the powers
admit. -/
theorem notes_pervades (p : Parser τ φ ν ε) (stop : Option (Stop τ φ ν ε)) :
    p.Pervades stop (fun _ => Run.Obeys fun s _ t => s.Notes (Admitted p) t)
      (Run.Obeys fun s _ t => s.Notes (Admitted p) t) :=
  have steps {d : Nat} := p.notes_carries.steps (d := d)
  have records {d : Nat} {e : Event τ φ ν} (he : Admitted p e) :
      Run.Obeys (fun (s : Session τ φ ν ε) _ t => s.Notes (Admitted p) t) d (Run.record e) :=
    fun s _ => (Session.Notes.refl s).record he
  { carries := p.notes_carries
    remaining := .remaining
    leading := fun _ _ _ => records (.plain (by simp))
    continuing := by
      rintro k d rbp nbp t op ⟨s, u, hq⟩ ha affix arity
      exact records (.continuing ⟨_, _, _, calling_eq_ok hq⟩ ha affix arity)
    eatSeparator := fun _ hv hs => steps.eatSeparator hv hs (fun _ => records (.plain (by simp)))
      (steps.consume (Run.obeys_reading fun s => .withCursor s _))
      (steps.missing fun _ _ _ s _ => .refl s)
    next := Run.obeys_reading fun s => .withCursor s _
    body := fun _ h => h.deeper fun _ _ _ _ ht => ht.deeper (.plain (by simp)) (.plain (by simp))
    call := fun _ h => h.calling (fun _ _ _ ht => ht.called (.plain (by simp)))
      fun _ _ _ _ _ ht => (ht.called (.plain (by simp))).record (.plain (by simp))
    value := steps.pure
    raise := fun _ _ s _ => .refl s
    andThen := steps.andThen
    take := Run.obeys_readingMain fun _ => ⟨rfl, .of_eq rfl⟩
    request := fun _ _ ho => by
      refine Run.Obeys.within (N := fun s _ t => s.Notes (Admitted p) t) ?_ _
        fun _ _ _ _ ht => ⟨ht.depth, ht.log⟩
      rw [p.reentry_innerAt]
      exact p.notes_carries.entering (fun _ s _ => .refl s) fun rbp _ => ho rbp }

/-- What an expression is read by only records what the powers admit. -/
theorem enter_notes {e : Entry τ φ ν ε ν} (he : e.Reads stop) (s : Session τ φ ν ε) :
    s.Notes (Admitted p) (ending (p.enter e s)) := by
  cases he with
  | parse => exact (p.notes_pervades none).parse s.depth s rfl
  | parseUntil rbp stop =>
    exact (p.notes_pervades stop).parseUntil s.depth (fun _ s _ => .refl s) s rfl
  | parseInput rbp stop => exact (p.notes_pervades stop).parseInput s.depth rbp s rfl

/-- Among declared levels the powers decide as the levels do. What is beyond those, and so tight
that its power leaves the range, never continues an operand: it is not used so in any run, and each
loop that comes to it ends in front of it. -/
theorem levels_decide {p : Parser τ φ ν ε} (ha : p.admits = between) :
    (∀ op q : Operator φ, op.precedence.val ≤ Precedence.maxDeclared →
      q.continuing.precedence.val ≤ Precedence.maxDeclared → q.Continues →
      (op.affix = .infixed →
        (op.rightPower < q.leftPower ↔
          op.precedence < q.continuing.precedence ∨ op.precedence = q.continuing.precedence ∧
            .bottom < q.continuing.precedence ∧ op.associativity = .right) ∧
        (q.leftPower < op.nextPower ↔
          q.continuing.precedence < op.precedence ∨ q.continuing.precedence = op.precedence ∧
            op.associativity ≠ .neither)) ∧
      (op.operandPower < q.leftPower ↔
        op.precedence ≤ q.continuing.precedence ∧ .bottom < q.continuing.precedence) ∧
      q.leftPower < .top) ∧
    (∀ q : Operator φ, q.Continues → Precedence.largest < 10 * q.continuing.precedence.val →
      q.leftPower = .top) ∧
    ∀ t : τ, (∀ op, (p.grammar.query t).Returns op →
        op.Continues ∧ Precedence.largest < 10 * op.continuing.precedence.val) →
      (∀ (stop : Option (Stop τ φ ν ε)) (e : Entry τ φ ν ε ν) (s : Session τ φ ν ε), e.Reads stop →
        s.Adds (fun event => ∀ affix arity, event ≠ .continuing affix arity t)
          (ending (p.enter e s))) ∧
      ∀ (f : Frame τ φ ν ε) rbp nbp n lhs s u v op, f.parser = p →
        f.visible s = .ok (some t) u → f.query t u = .ok op v →
        f.continued rbp (n + 1) nbp lhs s = .ok lhs v := by
  refine ⟨fun op q hp hq h => ⟨fun hi => ⟨h.rightPower_lt_iff hq hp, h.lt_nextPower_iff hq hp hi⟩,
    h.operandPower_lt_iff hq hp, h.leftPower_lt_top hq⟩, fun q h hq => h.leftPower_eq_top hq, ?_⟩
  intro t hbeyond
  have refused (op : Operator φ) (hop : (p.grammar.query t).Returns op) (rbp nbp : Precedence) :
      p.admits rbp op.leftPower nbp = false := by
    obtain ⟨h, hq⟩ := hbeyond op hop
    rw [ha, h.leftPower_eq_top hq, between_top]
  constructor
  · rintro stop e s he
    refine (enter_notes he s).log.weaken fun event hevent affix arity heq => ?_
    subst heq
    cases hevent with
    | continuing hop hadmits => simp [refused _ hop] at hadmits
    | plain h => exact h affix arity t rfl
  · rintro f rbp nbp n lhs s u v op rfl hv hq
    exact Frame.continued_of_refused hv hq (refused op ⟨_, _, _, calling_eq_ok hq⟩ rbp nbp)

end Parser

namespace Table

/-- A sum at the highest level that may be declared and a power at one whose scaled value leaves the
range. -/
def lofty : Table :=
  ⟨[("+", .infixed (.saturate 429496728) .left), ("^", .infixed (.saturate 429496730) .right)],
    .plain, none, .exact, []⟩

def powered : List Symbol := [.word "a", .word "+", .word "b", .word "^", .word "c"]

theorem levels_decide_lofty :
    (Operator.infixed (φ := Symbol) (.saturate 7) .right).rightPower <
      (Operator.infixed (φ := Symbol) (.saturate 7) .left).leftPower ∧
    (∃ t, (lofty.parser .standard).parseInput .bottom none (.start (.ofTokens powered)) =
          .ok (.binary (.word "+") (.leaf (.word "a")) (.leaf (.word "b"))) t ∧
      t.cursor.position = 3 ∧
      ∀ entry ∈ t.log, ∀ affix arity, entry.2 ≠ .continuing affix arity (.word "^")) ∧
    ∃ t, ((lofty.parser .standard).frameAt 0 none).continued .bottom 1 .top (.leaf (.word "b"))
      (.start (.ofTokens (powered.drop 3))) = .ok (.leaf (.word "b")) t := by
  obtain ⟨declared, -, beyond⟩ := Parser.levels_decide (p := lofty.parser .standard) rfl
  obtain ⟨unused, ended⟩ := beyond (.word "^") fun op hop => by
    rw [show (lofty.parser .standard).grammar.query (.word "^") = _ from
      lofty.query_eq_verdict (.word "^")] at hop
    cases Callback.returns_ofExcept hop
    exact ⟨.inl rfl, by decide⟩
  refine ⟨?_, ?_, _, ended _ _ _ 0 _ _ _ _ _ rfl rfl rfl⟩
  · obtain ⟨hbetween, -⟩ := declared (.infixed (.saturate 7) .right) (.infixed (.saturate 7) .left)
      (by decide) (by decide) (.inl rfl)
    exact (hbetween rfl).1.mpr (.inr (by decide))
  · have hreturned : returned? ((lofty.parser .standard).parseInput .bottom none
        (.start (.ofTokens powered))) =
          some (.binary (.word "+") (.leaf (.word "a")) (.leaf (.word "b"))) := by decide +kernel
    have hposition : (ending ((lofty.parser .standard).parseInput .bottom none
        (.start (.ofTokens powered)))).cursor.position = 3 := by decide +kernel
    obtain ⟨t, ht⟩ := returned?_eq_some.mp hreturned
    obtain ⟨log, hlog, hall⟩ :=
      unused none _ (.start (.ofTokens powered)) (.parseInput .bottom none)
    rw [ht] at hposition
    change (ending ((lofty.parser .standard).parseInput .bottom none _)).log = _ at hlog
    rw [ht] at hlog
    have hsame : t.log = log := by simpa [ending, Session.start] using hlog
    exact ⟨t, ht, hposition, fun entry hentry => hall entry (hsame ▸ hentry)⟩

end Table

end BindingPower
