import BindingPower.Proofs.Following
import BindingPower.Proofs.Steps

/-! # What a reading comes to

The other direction of the steps: from what the parts of a reading come to, what it comes to as a
whole. A failure of a part is the failure of the whole. -/
namespace BindingPower

variable {τ φ ν ε α β : Type}

namespace Reading

/-- A result that is the other one if the levels fit, and a failure for the depth if not. -/
def Comes (limit : Nat) (r : EStateM.Result (Failure τ φ ε) (List τ) α) (fits : Prop)
    (s : EStateM.Result (Failure τ φ ε) (List τ) α) : Prop :=
  (fits → r = s) ∧ (¬fits → ∃ left, r = .error (.report (.nestingTooDeep limit none)) left)

namespace Comes

variable {limit : Nat} {p q : Prop} {r s t : EStateM.Result (Failure τ φ ε) (List τ) α}

theorem of_eq (h : r = s) : Comes limit r True s :=
  ⟨fun _ => h, fun hn => absurd trivial hn⟩

theorem trans (h : Comes limit r p s) (k : Comes limit s q t) : Comes limit r (p ∧ q) t := by
  refine ⟨fun ⟨hp, hq⟩ => (h.1 hp).trans (k.1 hq), fun hn => ?_⟩
  by_cases hp : p
  · rw [h.1 hp]
    exact k.2 fun hq => hn ⟨hp, hq⟩
  · exact h.2 hp

theorem iff (h : Comes limit r p s) (hpq : p ↔ q) : Comes limit r q s :=
  ⟨fun hq => h.1 (hpq.mpr hq), fun hn => h.2 fun hp => hn (hpq.mp hp)⟩

theorem eq (h : Comes limit r p s) (hs : s = t) : Comes limit r p t := hs ▸ h

/-- What comes after a step does not matter if the step does not fit. -/
theorem bind {m : Reading τ φ ε α} {k : α → Reading τ φ ε β} {a : α} {ts rest : List τ}
    (h : Comes limit (m ts) p (.ok a rest)) : Comes limit ((m >>= k) ts) p (k a rest) := by
  refine ⟨fun hp => bind_of_ok (h.1 hp) k, fun hn => ?_⟩
  obtain ⟨left, he⟩ := h.2 hn
  exact ⟨left, bind_of_error he k⟩

end Comes

end Reading

/-- A run that follows a reading to the end of its tokens comes to the same. -/
theorem Run.Follows.comes {d limit : Nat} {p : Prop} {m : Run τ φ ν ε α} {r : Reading τ φ ε α}
    {s : Session τ φ ν ε} {ts : List τ} {a : α} (h : Follows d m r) (hd : s.depth = d)
    (hs : s.cursor.items = ts.map .token) (hr : Reading.Comes limit (r ts) p (.ok a [])) :
    (p → ∃ t, m s = .ok a t ∧ t.cursor.items = []) ∧
      (¬p → ∃ t, m s = .error (.report (.nestingTooDeep limit none)) t) := by
  refine ⟨fun hp => ?_, fun hn => ?_⟩
  · obtain ⟨t, ht, hend⟩ := h.of_ok hd hs (hr.1 hp)
    exact ⟨t, ht, hend.items⟩
  · obtain ⟨left, he⟩ := hr.2 hn
    obtain ⟨t, ht, -⟩ := h.of_error hd hs he
    exact ⟨t, ht⟩

namespace Reader

variable {r : Reader τ φ ν ε} {head : τ} {op : Operator φ} {lhs x : ν} {ts rest : List τ}
  {rbp nbp : Precedence} {fuel limit : Nat} {p : Prop}

section Shapes

variable (r : Reader τ φ ν ε) (head : τ) (op : Operator φ)

theorem nud_of_nilfix (ha : op.leading.affix = .nilfix) (hn : op.leading.arity = .nullary) :
    r.nud head op = Reading.answer (r.rules.nullary head) := by
  unfold nud
  simp only [ha, hn]

theorem nud_of_prefixed (ha : op.leading.affix = .prefixed) (hn : op.leading.arity = .unary) :
    r.nud head op = r.operand op.leading.operandPower >>= fun x =>
      Reading.answer (r.rules.unary head x) := by
  unfold nud
  simp only [ha, hn]

theorem led_of_postfixed (lhs : ν) (ha : op.continuing.affix = .postfixed)
    (hn : op.continuing.arity = .unary) :
    r.led head op lhs = Reading.answer (r.rules.unary head lhs) := by
  unfold led
  simp only [ha, hn]

theorem led_of_infixed (lhs : ν) (ha : op.continuing.affix = .infixed)
    (hn : op.continuing.arity = .binary) :
    r.led head op lhs = r.operand op.continuing.rightPower >>= fun x =>
      Reading.answer (r.rules.binary head lhs x) := by
  unfold led
  simp only [ha, hn]

theorem nud_of_mixfix (ha : op.leading.affix = .prefixed) (hn : op.leading.arity = .ternary) :
    r.nud head op = (do
      let a ← r.operand .bottom
      let _ ← r.eatSeparator op.leading.follow[0]?
      let b ← r.operand .bottom
      let _ ← r.eatSeparator op.leading.follow[1]?
      let c ← r.operand op.leading.operandPower
      Reading.answer (r.rules.ternary head a b c)) := by
  unfold nud
  simp only [ha, hn]

theorem nud_of_circumfix (ha : op.leading.affix = .circumfix) (hn : op.leading.arity = .unary) :
    r.nud head op = (do
      let x ← r.operand op.leading.operandPower
      let _ ← r.eatSeparator op.leading.follow[0]?
      Reading.answer (r.rules.unary head x)) := by
  unfold nud
  simp only [ha, hn]

theorem led_of_mixfix (lhs : ν) (ha : op.continuing.affix = .postfixed)
    (hn : op.continuing.arity = .ternary) :
    r.led head op lhs = (do
      let b ← r.operand .bottom
      let _ ← r.eatSeparator op.continuing.follow[0]?
      let c ← r.operand op.continuing.rightPower
      Reading.answer (r.rules.ternary head lhs b c)) := by
  unfold led
  simp only [ha, hn]

end Shapes

theorem visible_eq (hs : r.stop head = false) :
    (Reading.visible r.stop (head :: ts) : EStateM.Result (Failure τ φ ε) (List τ) (Option τ)) =
      .ok (some head) (head :: ts) := Reading.visible_cons hs ts

theorem answer_of_ok {α : Type} {a : Except (Failure τ φ ε) α} {b : α} (h : a = .ok b) :
    Reading.answer a ts = .ok b ts := by
  rw [h]
  rfl

/-- A token that is accepted for a mark is consumed. -/
theorem eatSeparator_of_marked {mark : φ} (hs : r.stop head = false)
    (hq : r.rules.query head = .ok op) (hsep : op.affix.isSeparator = true)
    (hf : r.rules.isFollow head mark = .ok true) :
    r.eatSeparator (some mark) (head :: ts) = .ok (some head) ts := by
  have hseparates : r.separates (some mark) head (head :: ts) = .ok true (head :: ts) := by
    rw [separates, bind_of_ok (answer_of_ok hq)]
    simp only [hsep, ↓reduceIte]
    exact answer_of_ok hf
  rw [eatSeparator, bind_of_ok (visible_eq hs)]
  dsimp only
  rw [bind_of_ok hseparates]
  rfl

theorem continued_nil : r.continued rbp fuel nbp lhs [] = .ok lhs [] := by
  cases fuel <;> rfl

/-- A token that is not admitted stays where it is. -/
theorem continued_of_not_admitted (hs : r.stop head = false) (hq : r.rules.query head = .ok op)
    (ha : r.admits rbp op.leftPower nbp = false) :
    r.continued rbp fuel nbp lhs (head :: ts) = .ok lhs (head :: ts) := by
  cases fuel with
  | zero => rfl
  | succ fuel =>
    rw [continued, bind_of_ok (visible_eq hs)]
    dsimp only
    rw [bind_of_ok (answer_of_ok hq), ha, if_neg (by simp)]
    rfl

/-- A token that is admitted continues the expression. -/
theorem continued_of_admitted (hs : r.stop head = false) (hq : r.rules.query head = .ok op)
    (ha : r.admits rbp op.leftPower nbp = true) :
    r.continued rbp (fuel + 1) nbp lhs (head :: ts) =
      (r.led head op.continuing lhs >>= fun node =>
        r.continued rbp fuel op.continuing.nextPower node) ts := by
  rw [continued, bind_of_ok (visible_eq hs)]
  dsimp only
  rw [bind_of_ok (answer_of_ok hq), ha, if_pos rfl]
  rfl

theorem continued_comes (hs : r.stop head = false) (hq : r.rules.query head = .ok op)
    (ha : r.admits rbp op.leftPower nbp = true)
    (hl : Reading.Comes limit (r.led head op.continuing lhs ts) p (.ok x rest)) :
    Reading.Comes limit (r.continued rbp (fuel + 1) nbp lhs (head :: ts)) p
      (r.continued rbp fuel op.continuing.nextPower x rest) := by
  rw [continued_of_admitted hs hq ha]
  exact hl.bind

theorem climb_of_query (hq : r.rules.query head = .ok op) :
    r.climb rbp head (head :: ts) =
      (r.nud head op.leading >>= fun node => do
        r.continued rbp (← get).length op.leading.nextPower node) ts := by
  change (Reading.answer (r.rules.query head) >>= _) ts = _
  rw [bind_of_ok (answer_of_ok hq)]

theorem climb_comes (hq : r.rules.query head = .ok op)
    (hn : Reading.Comes limit (r.nud head op.leading ts) p (.ok x rest)) :
    Reading.Comes limit (r.climb rbp head (head :: ts)) p
      (r.continued rbp rest.length op.leading.nextPower x rest) := by
  rw [climb_of_query hq]
  exact hn.bind

end Reader

namespace Scheme

variable {g : Scheme τ φ ν ε} {depth : Nat} {stop : τ → Bool} {head : τ} {ts : List τ}
  {rbp : Precedence}

/-- An operand needs room for the level that it stands on. -/
theorem operand_comes (room : Nat) (hs : stop head = false) :
    Reading.Comes g.config.maxDepth (g.operand room depth stop rbp (head :: ts)) (0 < room)
      ((g.readerIn (room - 1) depth stop).climb rbp head (head :: ts)) := by
  have hstep : g.operand room depth stop rbp (head :: ts) =
      g.operandIn room depth stop rbp head (head :: ts) := by
    rw [operand, Reading.startingAt, bind_of_ok (Reading.visible_cons hs ts)]
  rw [hstep]
  cases room with
  | zero => exact ⟨fun h => absurd h (Nat.lt_irrefl 0), fun _ => ⟨_, by rw [operandIn_zero]; rfl⟩⟩
  | succ n =>
    rw [operandIn_succ]
    exact ⟨fun _ => rfl, fun h => absurd (Nat.succ_pos n) h⟩

/-- The operand that its first token starts, and what its loop goes on from. -/
theorem operand_of_nud {room : Nat} {op : Operator φ} {x : ν} {rest : List τ} {p : Prop}
    (rbp : Precedence) (hn : Reading.Comes g.config.maxDepth
      ((g.readerIn (room - 1) depth stop).nud head op.leading ts) p (.ok x rest))
    (hq : (g.readerIn (room - 1) depth stop).rules.query head = .ok op)
    (hs : stop head = false) :
    Reading.Comes g.config.maxDepth (g.operand room depth stop rbp (head :: ts)) (0 < room ∧ p)
      ((g.readerIn (room - 1) depth stop).continued rbp rest.length op.leading.nextPower x rest) :=
  (operand_comes room hs).trans (Reader.climb_comes hq hn)

theorem above_floor (operand : Precedence → Reading τ φ ε α) :
    Reading.above operand Goal.whole.floor = operand .bottom := rfl

/-- A whole expression is an operand, with nothing behind it if the configuration says so. -/
theorem parse_of_operand {x : ν} {rest : List τ}
    (h : g.parseInput (depth + charge depth) .bottom Reading.never ts = .ok x rest)
    (hend : g.config.requireEnd = true → rest = []) : g.parse depth ts = .ok x rest := by
  rw [parse, entered, above_floor, bind_of_ok h]
  split
  · rename_i hrequire
    rw [hend hrequire.2, bind_of_ok (Reading.visible_nil Reading.never)]
    rfl
  · rfl

/-- An expression that takes all tokens is what a whole reading comes to. -/
theorem parse_comes {limit : Nat} {p : Prop} {x : ν} (h : Reading.Comes limit
      (g.parseInput (depth + charge depth) .bottom Reading.never ts) p (.ok x [])) :
    Reading.Comes limit (g.parse depth ts) p (.ok x []) := by
  rw [parse, entered, above_floor]
  refine h.bind.eq ?_
  split
  · rw [bind_of_ok (Reading.visible_nil Reading.never)]
    rfl
  · rfl

end Scheme

end BindingPower
