import BindingPower.Proofs.Advancing
import BindingPower.Proofs.Spine
import Mathlib.Logic.Relation

/-! # Operands under a higher floor

The floor of an operand decides where the outermost loop stops and nothing else. Under a higher
floor the loop stops earlier, with a tree that the loop under the lower floor only goes on to
extend. -/
namespace BindingPower

variable {τ φ ν ε α : Type}

namespace Tree

variable {config : Config} {query : τ → Except (Failure τ φ ε) (Operator φ)}
  {isFollow : τ → φ → Except (Failure τ φ ε) Bool} {tests : Option (StopTest τ φ ε)}

/-- A tree and the items behind it, and what a continuation makes of them: the head comes next, and
the tree becomes the left operand of the node that it builds. -/
inductive Grows (query : τ → Except (Failure τ φ ε) (Operator φ)) :
    Tree τ × List (Item τ ε) → Tree τ × List (Item τ ε) → Prop where
  | postfixed {t : τ} {op : Operator φ} {x : Tree τ} {rest : List (Item τ ε)}
    (hq : query t = .ok op) (ha : op.extending.affix = .postfixed)
    (hn : op.extending.arity = .unary) : Grows query (x, .token t :: rest) (unary t x, rest)
  | infixed {t : τ} {op : Operator φ} {x y : Tree τ} {items rest : List (Item τ ε)}
    (hq : query t = .ok op) (ha : op.extending.affix = .infixed)
    (hn : op.extending.arity = .binary) (h : rest <:+ items) :
    Grows query (x, .token t :: items) (binary t x y, rest)
  | mixfix {t : τ} {op : Operator φ} {x y z : Tree τ} {items rest : List (Item τ ε)}
    (hq : query t = .ok op)
    (ha : op.extending.affix = .postfixed ∨ op.extending.affix = .infixed)
    (hn : op.extending.arity = .ternary) (h : rest <:+ items) :
    Grows query (x, .token t :: items) (ternary t x y z, rest)

theorem Grows.suffix {a b : Tree τ × List (Item τ ε)} (h : Grows query a b) : b.2 <:+ a.2 := by
  cases h with
  | postfixed => exact List.suffix_cons _ _
  | infixed _ _ _ h => exact h.trans (List.suffix_cons _ _)
  | mixfix _ _ _ h => exact h.trans (List.suffix_cons _ _)

theorem suffix_of_grows {a b : Tree τ × List (Item τ ε)}
    (h : Relation.ReflTransGen (Grows query) a b) : b.2 <:+ a.2 := by
  induction h with
  | refl => exact List.suffix_refl _
  | tail _ hstep ih => exact hstep.suffix.trans ih

/-- The frame of a tree-building parser at a depth. -/
abbrev frameAt (config : Config) (query : τ → Except (Failure τ φ ε) (Operator φ))
    (isFollow : τ → φ → Except (Failure τ φ ε) Bool) (tests : Option (StopTest τ φ ε)) (d : Nat) :
    Frame τ φ (Tree τ) ε :=
  (parser config query isFollow).frameAt d (tests.map StopTest.toStop)

variable {d : Nat} {s t : Session τ φ (Tree τ) ε}

theorem frameAt_advances (config : Config) (query : τ → Except (Failure τ φ ε) (Operator φ))
    (isFollow : τ → φ → Except (Failure τ φ ε) Bool) (tests : Option (StopTest τ φ ε)) (d : Nat) :
    (frameAt config query isFollow tests d).Composes (parser config query isFollow)
      (tests.map StopTest.toStop) Run.Advances d :=
  ((parser config query isFollow).advances_composes _).frameAt d

theorem query_ok {head : τ} {op : Operator φ}
    (h : (frameAt config query isFollow tests d).query head s = .ok op t) :
    query head = .ok op ∧ t = s.record (.called (.query head)) :=
  Parser.calling_ofExcept_eq_ok.mp h

theorem visible_ok {o : Option τ}
    (h : (frameAt config query isFollow tests d).visible s = .ok o t) :
    t.cursor.items = s.cursor.items := by
  refine Run.visible_items (fun a ha x u b w hask => ?_) h
  obtain ⟨test, htest, rfl⟩ := Option.map_eq_some_iff.mp ha
  obtain ⟨f, -, rfl⟩ := Option.map_eq_some_iff.mp htest
  rw [(Parser.calling_ofExcept_eq_ok.mp hask).2]
  rfl

theorem unary_ok {head : τ} {x y : Tree τ}
    (h : (frameAt config query isFollow tests d).unary head x s = .ok y t) :
    y = .unary head x ∧ t = s.record (.called (.unary head x)) := by
  obtain ⟨hy, ht⟩ := Parser.calling_ofExcept_eq_ok (r := .ok (Tree.unary head x)).mp h
  exact ⟨(Except.ok.inj hy).symm, ht⟩

theorem binary_ok {head : τ} {l r y : Tree τ}
    (h : (frameAt config query isFollow tests d).binary head l r s = .ok y t) :
    y = .binary head l r ∧ t = s.record (.called (.binary head l r)) := by
  obtain ⟨hy, ht⟩ := Parser.calling_ofExcept_eq_ok (r := .ok (Tree.binary head l r)).mp h
  exact ⟨(Except.ok.inj hy).symm, ht⟩

theorem ternary_ok {head : τ} {a b c y : Tree τ}
    (h : (frameAt config query isFollow tests d).ternary head a b c s = .ok y t) :
    y = .ternary head a b c ∧ t = s.record (.called (.ternary head a b c)) := by
  obtain ⟨hy, ht⟩ := Parser.calling_ofExcept_eq_ok (r := .ok (Tree.ternary head a b c)).mp h
  exact ⟨(Except.ok.inj hy).symm, ht⟩

/-- What a step leaves is a later part of what was there. -/
theorem suffix_of_advances {m : Run τ φ (Tree τ) ε α} {a : α} (hm : Run.Advances .engine d m)
    (hd : s.depth = d) (h : m s = .ok a t) :
    t.cursor.items <:+ s.cursor.items ∧ t.depth = d := by
  have hstep := hm s hd
  rw [h] at hstep
  exact ⟨hstep.cursor.items, hstep.depth.trans hd⟩

/-- A continuation makes its left operand a node. -/
theorem led_grows {head : τ} {op : Operator φ} {x y : Tree τ} (hd : s.depth = d)
    (hq : query head = .ok op)
    (h : (frameAt config query isFollow tests d).led head op.continuing x s = .ok y t) :
    Grows query (x, .token head :: s.cursor.items) (y, t.cursor.items) := by
  have hframe := frameAt_advances config query isFollow tests d
  obtain ⟨_, s₀, hrecord, h⟩ := bind_eq_ok.mp h
  have hd₀ : s₀.depth = d := by
    cases hrecord
    exact hd
  have hitems : s₀.cursor.items = s.cursor.items := by
    cases hrecord
    rfl
  rw [← hitems]
  have mixfix (ha : op.extending.affix = .postfixed ∨ op.extending.affix = .infixed)
      (hn : op.extending.arity = .ternary)
      (h : (do
        let b ← (frameAt config query isFollow tests d).operand .bottom
        let _ ← (frameAt config query isFollow tests d).eatSeparator op.extending.follow[0]?
        let c ← (frameAt config query isFollow tests d).operand op.extending.rightPower
        (frameAt config query isFollow tests d).ternary head x b c) s₀ = .ok y t) :
      Grows query (x, .token head :: s₀.cursor.items) (y, t.cursor.items) := by
    obtain ⟨b, s₁, h₁, h⟩ := bind_eq_ok.mp h
    obtain ⟨_, s₂, h₂, h⟩ := bind_eq_ok.mp h
    obtain ⟨c, s₃, h₃, h⟩ := bind_eq_ok.mp h
    obtain ⟨rfl, rfl⟩ := ternary_ok h
    obtain ⟨k₁, d₁⟩ := suffix_of_advances (hframe.operand _) hd₀ h₁
    obtain ⟨k₂, d₂⟩ := suffix_of_advances (hframe.eatSeparator _) d₁ h₂
    obtain ⟨k₃, -⟩ := suffix_of_advances (hframe.operand _) d₂ h₃
    exact .mixfix hq ha hn ((k₃.trans k₂).trans k₁)
  cases ha : op.continuing.continuing.affix <;> simp only [ha] at h
  case postfixed =>
    cases hn : op.continuing.continuing.arity <;> simp only [hn] at h
    case unary =>
      obtain ⟨rfl, rfl⟩ := unary_ok h
      exact .postfixed hq ha hn
    case ternary => exact mixfix (.inl ha) hn h
    all_goals cases h
  case infixed =>
    cases hn : op.continuing.continuing.arity <;> simp only [hn] at h
    case binary =>
      obtain ⟨r, s₁, h₁, h⟩ := bind_eq_ok.mp h
      obtain ⟨rfl, rfl⟩ := binary_ok h
      exact .infixed hq ha hn (suffix_of_advances (hframe.operand _) hd₀ h₁).1
    case ternary => exact mixfix (.inr ha) hn h
    all_goals cases h
  all_goals cases h

section Loop

variable {x y : Tree τ} {nbp p p₁ p₂ : Precedence} {fuel : Nat}

/-- One round of a loop: a token comes into sight and is classified, and is then taken. -/
structure Round (f : Frame τ φ (Tree τ) ε) (x : Tree τ) (s : Session τ φ (Tree τ) ε) (head : τ)
    (op : Operator φ) (seen : Session τ φ (Tree τ) ε) (y : Tree τ) (t : Session τ φ (Tree τ) ε) :
    Prop where
  visible : ∃ u, f.visible s = .ok (some head) u ∧ f.query head u = .ok op seen
  led : ∃ u, consume seen = .ok () u ∧ f.led head op.continuing x u = .ok y t

theorem Round.depth {head : τ} {op : Operator φ} {seen : Session τ φ (Tree τ) ε}
    (h : Round (frameAt config query isFollow tests d) x s head op seen y t) (hd : s.depth = d) :
    t.depth = d := by
  have hframe := frameAt_advances config query isFollow tests d
  obtain ⟨u, hv, hq⟩ := h.visible
  obtain ⟨v, hc, hl⟩ := h.led
  have d₁ := (suffix_of_advances hframe.visible hd hv).2
  have d₂ := (suffix_of_advances (hframe.query head) d₁ hq).2
  have d₃ := (suffix_of_advances hframe.steps.consume d₂ hc).2
  exact (suffix_of_advances (hframe.led head op.continuing x) d₃ hl).2

/-- Each round grows the tree by one continuation. -/
theorem Round.grows {head : τ} {op : Operator φ} {seen : Session τ φ (Tree τ) ε}
    (h : Round (frameAt config query isFollow tests d) x s head op seen y t) (hd : s.depth = d) :
    Grows query (x, s.cursor.items) (y, t.cursor.items) ∧ seen.cursor.items = s.cursor.items := by
  have hframe := frameAt_advances config query isFollow tests d
  obtain ⟨u, hv, hq⟩ := h.visible
  obtain ⟨v, hc, hl⟩ := h.led
  have d₁ := (suffix_of_advances hframe.visible hd hv).2
  have d₂ := (suffix_of_advances (hframe.query head) d₁ hq).2
  have d₃ := (suffix_of_advances hframe.steps.consume d₂ hc).2
  obtain ⟨hop, rfl⟩ := query_ok hq
  have hitems : u.cursor.items = s.cursor.items := visible_ok hv
  have hhead : u.cursor.items.head? = some (.token head) := by
    rw [hitems]
    exact Run.visible_head hv
  obtain ⟨c, hconsume, hrest⟩ := Run.consume_of_head (s := u.record (.called (.query head))) hhead
  rw [hconsume] at hc
  cases hc
  have hgrows := led_grows d₃ hop hl
  rw [Session.cursor_withCursor, ← hrest] at hgrows
  change Grows query (x, u.cursor.items) _ at hgrows
  rw [hitems] at hgrows
  exact ⟨hgrows, hitems⟩

/-- A loop grows the tree that it goes on from, however it is guarded. -/
theorem continued_grows (hd : s.depth = d)
    (h : (frameAt config query isFollow tests d).continued p fuel nbp x s = .ok y t) :
    Relation.ReflTransGen (Grows query) (x, s.cursor.items) (y, t.cursor.items) := by
  induction fuel generalizing nbp x s with
  | zero =>
    cases h
    exact .refl
  | succ fuel ih =>
    obtain ⟨o, s₁, hv, h⟩ := bind_eq_ok.mp h
    have hitems : s₁.cursor.items = s.cursor.items := visible_ok hv
    cases o with
    | none =>
      cases h
      rw [hitems]
    | some head =>
      obtain ⟨op, s₂, hq, h⟩ := bind_eq_ok.mp h
      split at h
      · obtain ⟨_, s₃, hc, h⟩ := bind_eq_ok.mp h
        obtain ⟨z, s₄, hl, h⟩ := bind_eq_ok.mp h
        have round : Round (frameAt config query isFollow tests d) x s head op s₂ z s₄ :=
          ⟨⟨s₁, hv, hq⟩, ⟨s₃, hc, hl⟩⟩
        exact .head (round.grows hd).1 (ih (round.depth hd) h)
      · cases h
        obtain ⟨-, rfl⟩ := query_ok hq
        change Relation.ReflTransGen (Grows query) _ (_, s₁.cursor.items)
        rw [hitems]

theorem not_between_of_le {rbp rbp' lbp nbp : Precedence} (hle : rbp ≤ rbp')
    (h : ¬between rbp lbp nbp = true) : ¬between rbp' lbp nbp = true := by
  simp only [between, Bool.and_eq_true, decide_eq_true_eq, Precedence.lt_iff, not_and] at h ⊢
  rw [Precedence.le_iff] at hle
  exact fun hlt => h (by omega)

/-- Under a higher floor a loop goes the same way and stops no later. -/
theorem continued_of_le (hle : p₁ ≤ p₂) (hd : s.depth = d)
    (h : (frameAt config query isFollow tests d).continued p₁ fuel nbp x s = .ok y t) :
    ∃ z u, (frameAt config query isFollow tests d).continued p₂ fuel nbp x s = .ok z u ∧
      Relation.ReflTransGen (Grows query) (z, u.cursor.items) (y, t.cursor.items) := by
  induction fuel generalizing nbp x s with
  | zero => exact ⟨y, t, h, .refl⟩
  | succ fuel ih =>
    obtain ⟨o, s₁, hv, h⟩ := bind_eq_ok.mp h
    cases o with
    | none => exact ⟨y, t, (bind_of_ok hv _).trans h, .refl⟩
    | some head =>
      obtain ⟨op, s₂, hq, h⟩ := bind_eq_ok.mp h
      have hloop : (frameAt config query isFollow tests d).continued p₂ (fuel + 1) nbp x s =
          (if between p₂ op.leftPower nbp = true then do
            consume
            let node ← (frameAt config query isFollow tests d).led head op.continuing x
            (frameAt config query isFollow tests d).continued p₂ fuel op.continuing.nextPower node
          else pure x : Run τ φ (Tree τ) ε (Tree τ)) s₂ :=
        (bind_of_ok hv _).trans (bind_of_ok hq _)
      rw [hloop]
      split at h
      · obtain ⟨_, s₃, hc, h⟩ := bind_eq_ok.mp h
        obtain ⟨z, s₄, hl, h⟩ := bind_eq_ok.mp h
        have round : Round (frameAt config query isFollow tests d) x s head op s₂ z s₄ :=
          ⟨⟨s₁, hv, hq⟩, ⟨s₃, hc, hl⟩⟩
        split
        · obtain ⟨v, u, hv, hgrows⟩ := ih (round.depth hd) h
          exact ⟨v, u, (bind_of_ok hc _).trans ((bind_of_ok hl _).trans hv), hgrows⟩
        · obtain ⟨hgrows, hitems⟩ := round.grows hd
          refine ⟨x, s₂, rfl, ?_⟩
          rw [hitems]
          exact .head hgrows (continued_grows (round.depth hd) h)
      · rename_i hadmits
        rw [if_neg (not_between_of_le hle hadmits)]
        exact ⟨y, t, h, .refl⟩

end Loop

/-- The second run comes to a part of what the first one comes to, from which that one goes on. -/
def Stops (query : τ → Except (Failure τ φ ε) (Operator φ)) (d : Nat)
    (m m' : Run τ φ (Tree τ) ε (Tree τ)) : Prop :=
  ∀ ⦃s t y⦄, s.depth = d → m s = .ok y t → ∃ z u, m' s = .ok z u ∧
    Relation.ReflTransGen (Grows query) (z, u.cursor.items) (y, t.cursor.items)

namespace Stops

variable {m m' : Run τ φ (Tree τ) ε (Tree τ)}

theorem refl (m : Run τ φ (Tree τ) ε (Tree τ)) : Stops query d m m :=
  fun _ t y _ h => ⟨y, t, h, .refl⟩

/-- The same steps come first in both runs. -/
theorem after {m : Run τ φ (Tree τ) ε α} {k k' : α → Run τ φ (Tree τ) ε (Tree τ)}
    (hm : Run.Advances .engine d m) (hk : ∀ a, Stops query d (k a) (k' a)) :
    Stops query d (m >>= k) (m >>= k') := by
  intro s t y hd h
  obtain ⟨a, s₁, hrun, h⟩ := bind_eq_ok.mp h
  obtain ⟨z, u, hu, hgrows⟩ := hk a (suffix_of_advances hm hd hrun).2 h
  exact ⟨z, u, (bind_of_ok hrun _).trans hu, hgrows⟩

theorem deeper {n : Nat} (h : Stops query (d + n) m m') (before after : Event τ φ (Tree τ)) :
    Stops query d (Run.deeper n before after m) (Run.deeper n before after m') := by
  intro s t y hd hrun
  have hdepth : ((s.deepen n).record before).depth = d + n := congrArg (· + n) hd
  obtain ⟨v, hm, rfl⟩ := Run.deeper_eq_ok.mp hrun
  obtain ⟨z, u, hu, hgrows⟩ := h hdepth hm
  exact ⟨z, (u.surface n).record after, Run.deeper_eq_ok.mpr ⟨u, hu, rfl⟩, hgrows⟩

end Stops

section Floors

variable {p₁ p₂ : Precedence} (hle : p₁ ≤ p₂)

include hle

theorem climb_stops (head : τ) :
    Stops query d ((frameAt config query isFollow tests d).climb p₁ head)
      ((frameAt config query isFollow tests d).climb p₂ head) := by
  have hframe := frameAt_advances config query isFollow tests d
  refine .after hframe.steps.consume fun _ => .after (hframe.query head) fun op =>
    .after (hframe.nud head op.leading) fun x => ?_
  intro s t y hd h
  have loop : (frameAt config query isFollow tests d).continued p₁ s.cursor.remaining
      op.leading.nextPower x s = .ok y t := h
  exact continued_of_le hle hd loop

theorem operandIn_stops (head : τ) :
    Stops query d
      ((parser config query isFollow).operandIn ((parser config query isFollow).config.maxDepth - d)
        (tests.map StopTest.toStop) p₁ head)
      ((parser config query isFollow).operandIn ((parser config query isFollow).config.maxDepth - d)
        (tests.map StopTest.toStop) p₂ head) := by
  by_cases hroom : d < (parser config query isFollow).config.maxDepth
  · rw [Parser.operandIn_deeper _ hroom, Parser.operandIn_deeper _ hroom]
    exact (climb_stops hle head).deeper _ _
  · rw [Parser.operandIn_full _ (Nat.le_of_not_lt hroom),
      Parser.operandIn_full _ (Nat.le_of_not_lt hroom)]
    exact .refl _

theorem operand_stops :
    Stops query d ((frameAt config query isFollow tests d).operand p₁)
      ((frameAt config query isFollow tests d).operand p₂) := by
  refine .after (frameAt_advances config query isFollow tests d).visible fun o => ?_
  cases o with
  | none => exact .refl _
  | some head => exact operandIn_stops hle head

theorem parseInput_stops :
    Stops query d ((parser config query isFollow).parseInput p₁ (tests.map StopTest.toStop))
      ((parser config query isFollow).parseInput p₂ (tests.map StopTest.toStop)) := by
  intro s t y hd h
  change (frameAt config query isFollow tests s.depth).operand p₁ s = _ at h
  change ∃ z u, (frameAt config query isFollow tests s.depth).operand p₂ s = _ ∧ _
  exact operand_stops hle rfl h

end Floors

/-- The levels of a run are charged alike whatever its floor is. -/
theorem parseUntil_eq {r : Int} {p : Precedence} (hr : Precedence.ofInt? r = some p) :
    (parser config query isFollow).parseUntil r (tests.map StopTest.toStop) s =
      Run.deeper (charge s.depth) (.entered (charge s.depth)) (.left (charge s.depth))
        ((parser config query isFollow).parseInput p (tests.map StopTest.toStop)) s := by
  rw [Parser.parseUntil, Parser.entering_eq]
  simp only [Goal.floor, hr]
  rw [Parser.concluding_above, bind_pure]

theorem ofInt?_of_ok {r : Int} {y : Tree τ}
    (h : (parser config query isFollow).parseUntil r (tests.map StopTest.toStop) s = .ok y t) :
    ∃ p, Precedence.ofInt? r = some p := by
  cases hr : Precedence.ofInt? r with
  | some p => exact ⟨p, rfl⟩
  | none =>
    rw [Parser.parseUntil, Parser.entering_eq] at h
    simp only [Goal.floor, hr] at h
    cases h

/-- Under a higher floor the parser consumes no more tokens. What it comes to is what the parser
comes to under the lower floor, or is reached from that by going from a node that a continuation
has built to its left operand. -/
theorem parseUntil_of_le {r₁ r₂ : Int} {y : Tree τ} (hle : r₁ ≤ r₂) (hr : r₂ ≤ Precedence.largest)
    (h : (parser config query isFollow).parseUntil r₁ (tests.map StopTest.toStop) s = .ok y t) :
    ∃ z u, (parser config query isFollow).parseUntil r₂ (tests.map StopTest.toStop) s = .ok z u ∧
      s.cursor.position ≤ u.cursor.position ∧ u.cursor.position ≤ t.cursor.position ∧
      Relation.ReflTransGen (Grows query) (z, u.cursor.items) (y, t.cursor.items) := by
  obtain ⟨p₁, h₁⟩ := ofInt?_of_ok h
  obtain ⟨p₂, h₂⟩ : ∃ p, Precedence.ofInt? r₂ = some p := by
    have hfirst := Precedence.ofInt?_eq_some_iff.mp h₁
    exact ⟨⟨r₂.toNat, by unfold Precedence.largest at hr; omega⟩,
      Precedence.ofInt?_eq_some_iff.mpr (by dsimp only; omega)⟩
  have hp : p₁ ≤ p₂ := by
    have hfirst := Precedence.ofInt?_eq_some_iff.mp h₁
    have hsecond := Precedence.ofInt?_eq_some_iff.mp h₂
    rw [Precedence.le_iff]
    omega
  have hlow := (parser config query isFollow).enter_advances
    (.parseUntil r₁ (tests.map StopTest.toStop)) s
  change s.Advances (ending ((parser config query isFollow).parseUntil r₁ _ s)) at hlow
  rw [h] at hlow
  rw [parseUntil_eq h₁] at h
  obtain ⟨z, u, hu, hgrows⟩ := (parseInput_stops hp).deeper _ _ rfl h
  have hhigh := (parser config query isFollow).enter_advances
    (.parseUntil r₂ (tests.map StopTest.toStop)) s
  change s.Advances (ending ((parser config query isFollow).parseUntil r₂ _ s)) at hhigh
  rw [← parseUntil_eq h₂] at hu
  rw [hu] at hhigh
  refine ⟨z, u, hu, hhigh.cursor.position_le, ?_, hgrows⟩
  -- what is left under the lower floor is a part of what is left under the higher one
  have hleft : t.cursor.supply ≤ u.cursor.supply := (suffix_of_grows hgrows).sublist.countP_le
  have hlowpos := hlow.cursor.position
  have hhighpos := hhigh.cursor.position
  change t.cursor.position + t.cursor.supply = s.cursor.position + s.cursor.supply at hlowpos
  change u.cursor.position + u.cursor.supply = s.cursor.position + s.cursor.supply at hhighpos
  omega

theorem parseUntil_of_le_signs :
    ∃ t, (parser ⟨false, false, 3, by decide⟩ signs fun _ _ => .ok false).parseUntil 5
        (Option.map StopTest.toStop none) (.start (.ofTokens ['-', 'x', '*', 'y', '-', 'z', '!'])) =
          .ok signed t ∧
      (5 : Int) ≤ 15 ∧ (15 : Int) ≤ Precedence.largest ∧
      ∃ z u, (parser ⟨false, false, 3, by decide⟩ signs fun _ _ => .ok false).parseUntil 15
          (Option.map StopTest.toStop none)
          (.start (.ofTokens ['-', 'x', '*', 'y', '-', 'z', '!'])) = .ok z u ∧
        0 ≤ u.cursor.position ∧ u.cursor.position ≤ t.cursor.position ∧
        Relation.ReflTransGen (Grows signs) (z, u.cursor.items) (signed, t.cursor.items) := by
  have hreturned : returned? ((parser ⟨false, false, 3, by decide⟩ signs fun _ _ =>
      .ok false).parseUntil 5 (Option.map StopTest.toStop none)
        (.start (.ofTokens ['-', 'x', '*', 'y', '-', 'z', '!']))) = some signed := by
    decide +kernel
  obtain ⟨t, ht⟩ := returned?_eq_some.mp hreturned
  exact ⟨t, ht, by decide, by decide, parseUntil_of_le (by decide) (by decide) ht⟩

end Tree

end BindingPower
