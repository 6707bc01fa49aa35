import BindingPower.Proofs.Reading

/-! # Steps of a successful reading

Which way a reading that ends in a result has gone. What an operator reads after its head is told
by the shape of its descriptor; an operand is its start with continuations one after another.
Every operand uses up at least one token. -/
namespace BindingPower

variable {τ φ ν ε α β σ : Type}

/-- A sequence of steps ends in a result only if each of them does. -/
theorem bind_eq_ok {m : EStateM ε σ α} {k : α → EStateM ε σ β} {s u : σ} {b : β} :
    (m >>= k) s = .ok b u ↔ ∃ a t, m s = .ok a t ∧ k a t = .ok b u := by
  change EStateM.bind m k s = .ok b u ↔ _
  unfold EStateM.bind
  cases m s with
  | ok a t =>
    constructor
    · intro h
      exact ⟨a, t, rfl, h⟩
    · rintro ⟨_, _, h, k⟩
      cases h
      exact k
  | error e t => simp

theorem EStateM.pure_eq_ok {a b : α} {s t : σ} :
    (pure a : EStateM ε σ α) s = .ok b t ↔ a = b ∧ t = s := by
  constructor
  · intro h
    cases h
    exact ⟨rfl, rfl⟩
  · rintro ⟨rfl, rfl⟩
    rfl

theorem bind_of_ok {m : EStateM ε σ α} {s t : σ} {a : α} (h : m s = .ok a t)
    (k : α → EStateM ε σ β) : (m >>= k) s = k a t := by
  change EStateM.bind m k s = _
  rw [EStateM.bind, h]

theorem bind_of_error {m : EStateM ε σ α} {s t : σ} {e : ε} (h : m s = .error e t)
    (k : α → EStateM ε σ β) : (m >>= k) s = .error e t := by
  change EStateM.bind m k s = _
  rw [EStateM.bind, h]

/-- The result of a sequence of steps, without the state. -/
def returned? : EStateM.Result ε σ α → Option α
  | .ok a _ => some a
  | .error _ _ => none

theorem returned?_eq_some {r : EStateM.Result ε σ α} {a : α} :
    returned? r = some a ↔ ∃ s, r = .ok a s := by
  cases r with
  | ok b s => simp [returned?]
  | error e s => simp [returned?]

namespace Reading

theorem answer_eq_ok {r : Except (Failure τ φ ε) α} {ts rest : List τ} {a : α} :
    answer r ts = .ok a rest ↔ r = .ok a ∧ rest = ts := by
  cases r with
  | ok b => exact ⟨fun h => by cases h; exact ⟨rfl, rfl⟩, fun ⟨h, k⟩ => by cases h; rw [k]; rfl⟩
  | error f => exact ⟨fun h => by (injection h), fun h => by simp at h⟩

theorem visible_nil (stop : τ → Bool) :
    (visible stop [] : EStateM.Result (Failure τ φ ε) (List τ) (Option τ)) = .ok none [] := rfl

theorem visible_of_stop {stop : τ → Bool} {t : τ} (h : stop t = true) (ts : List τ) :
    (visible stop (t :: ts) : EStateM.Result (Failure τ φ ε) (List τ) (Option τ)) =
      .ok none (t :: ts) := by
  simp [visible, h]

theorem visible_cons {stop : τ → Bool} {t : τ} (h : stop t = false) (ts : List τ) :
    (visible stop (t :: ts) : EStateM.Result (Failure τ φ ε) (List τ) (Option τ)) =
      .ok (some t) (t :: ts) := by
  simp [visible, h]

/-- Looking leaves the tokens where they are; what is seen is the first of them. -/
theorem visible_ok {stop : τ → Bool} {o : Option τ} {ts rest : List τ}
    (h : (visible stop ts : EStateM.Result (Failure τ φ ε) (List τ) (Option τ)) = .ok o rest) :
    rest = ts ∧ match o with
      | none => ∀ t ∈ ts.head?, stop t = true
      | some t => stop t = false ∧ ∃ more, ts = t :: more := by
  cases ts with
  | nil =>
    cases h
    exact ⟨rfl, by simp⟩
  | cons u us =>
    cases hu : stop u with
    | true =>
      rw [visible_of_stop hu] at h
      cases h
      exact ⟨rfl, by simpa using hu⟩
    | false =>
      rw [visible_cons hu] at h
      cases h
      exact ⟨rfl, hu, us, rfl⟩

/-- A reading above a number is one above a precedence. -/
theorem above_ok {operand : Precedence → Reading τ φ ε α} {rbp : Int} {a : α}
    {ts rest : List τ} (h : above operand rbp ts = .ok a rest) :
    ∃ p, Precedence.ofInt? rbp = some p ∧ operand p ts = .ok a rest := by
  unfold above at h
  cases hp : Precedence.ofInt? rbp with
  | none => simp only [hp] at h; injection h
  | some p =>
    simp only [hp] at h
    exact ⟨p, rfl, h⟩

end Reading

namespace Reader

/-- What may be found where a separator is due: nothing, unless the mark is declared and the
reader strict, or a token that separates. -/
inductive Eats (r : Reader τ φ ν ε) : Option φ → List τ → List τ → Prop where
  | nothing {expected : Option φ} {ts : List τ} (h : r.strict = true → expected = none) :
    Eats r expected ts ts
  | plain {t : τ} {ts : List τ} {op : Operator φ} (hq : r.rules.query t = .ok op)
    (h : op.affix = .interfix) : Eats r none (t :: ts) ts
  | marked {t : τ} {ts : List τ} {op : Operator φ} {mark : φ} (hq : r.rules.query t = .ok op)
    (h : op.affix.isSeparator = true) (hf : r.rules.isFollow t mark = .ok true) :
    Eats r (some mark) (t :: ts) ts

theorem missing_ok {r : Reader τ φ ν ε} {expected : Option φ} {found m : Option τ}
    {ts rest : List τ} (h : r.missing expected found ts = .ok m rest) : r.Eats expected ts rest := by
  cases expected with
  | none =>
    cases h
    exact .nothing fun _ => rfl
  | some mark =>
    unfold missing at h
    cases hs : r.strict with
    | true => simp only [hs] at h; injection h
    | false =>
      simp only [hs] at h
      cases h
      exact .nothing fun k => by simp [hs] at k

/-- Only a token that separates is taken. -/
theorem separates_ok {r : Reader τ φ ν ε} {expected : Option φ} {t : τ} {ts rest : List τ}
    (h : r.separates expected t (t :: ts) = .ok true rest) :
    rest = t :: ts ∧ r.Eats expected (t :: ts) ts := by
  obtain ⟨op, us, ha, h⟩ := bind_eq_ok.mp h
  obtain ⟨hq, rfl⟩ := Reading.answer_eq_ok.mp ha
  cases expected with
  | none =>
    simp only [EStateM.pure_eq_ok] at h
    exact ⟨h.2, .plain hq (of_decide_eq_true h.1)⟩
  | some mark =>
    cases hs : op.affix.isSeparator with
    | true =>
      simp only [hs, ↓reduceIte] at h
      obtain ⟨hf, rfl⟩ := Reading.answer_eq_ok.mp h
      exact ⟨rfl, .marked hq hs hf⟩
    | false =>
      simp only [hs, Bool.false_eq_true, ↓reduceIte, EStateM.pure_eq_ok] at h
      exact absurd h.1 (by decide)

theorem separates_rest {r : Reader τ φ ν ε} {expected : Option φ} {t : τ} {b : Bool}
    {ts rest : List τ} (h : r.separates expected t ts = .ok b rest) : rest = ts := by
  obtain ⟨op, us, ha, hb⟩ := bind_eq_ok.mp h
  rw [(Reading.answer_eq_ok.mp ha).2] at hb
  cases expected with
  | none => exact (EStateM.pure_eq_ok.mp hb).2
  | some mark =>
    dsimp only at hb
    split at hb
    · exact (Reading.answer_eq_ok.mp hb).2
    · exact (EStateM.pure_eq_ok.mp hb).2

theorem eatSeparator_ok {r : Reader τ φ ν ε} {expected : Option φ} {m : Option τ}
    {ts rest : List τ} (h : r.eatSeparator expected ts = .ok m rest) :
    r.Eats expected ts rest := by
  obtain ⟨o, us, hv, h⟩ := bind_eq_ok.mp h
  obtain ⟨rfl, ho⟩ := Reading.visible_ok hv
  cases o with
  | none => exact missing_ok h
  | some t =>
    obtain ⟨-, more, rfl⟩ := ho
    obtain ⟨b, ws, hb, h⟩ := bind_eq_ok.mp h
    cases b with
    | false =>
      rw [separates_rest hb] at h
      exact missing_ok h
    | true =>
      obtain ⟨rfl, he⟩ := separates_ok hb
      obtain ⟨_, _, hc, h⟩ := bind_eq_ok.mp h
      cases hc
      cases h
      exact he

/-- How a head with a descriptor starts an expression. -/
inductive Starts (r : Reader τ φ ν ε) (head : τ) (op : Operator φ) :
    ν → List τ → List τ → Prop where
  | leaf {x : ν} {ts : List τ} (ha : op.affix = .nilfix) (hn : op.arity = .nullary)
    (hx : r.rules.nullary head = .ok x) : Starts r head op x ts ts
  | prefixed {x a : ν} {ts rest : List τ} (ha : op.affix = .prefixed) (hn : op.arity = .unary)
    (h₁ : r.operand op.operandPower ts = .ok a rest) (hx : r.rules.unary head a = .ok x) :
    Starts r head op x ts rest
  | mixfix {x a b c : ν} {ts ts₁ ts₂ ts₃ ts₄ rest : List τ} (ha : op.affix = .prefixed)
    (hn : op.arity = .ternary) (h₁ : r.operand .bottom ts = .ok a ts₁)
    (e₁ : r.Eats op.follow[0]? ts₁ ts₂) (h₂ : r.operand .bottom ts₂ = .ok b ts₃)
    (e₂ : r.Eats op.follow[1]? ts₃ ts₄) (h₃ : r.operand op.operandPower ts₄ = .ok c rest)
    (hx : r.rules.ternary head a b c = .ok x) : Starts r head op x ts rest
  | circumfix {x a : ν} {ts ts₁ rest : List τ} (ha : op.affix = .circumfix)
    (hn : op.arity = .unary) (h₁ : r.operand op.operandPower ts = .ok a ts₁)
    (e₁ : r.Eats op.follow[0]? ts₁ rest) (hx : r.rules.unary head a = .ok x) :
    Starts r head op x ts rest

/-- How a head with a descriptor extends an expression. -/
inductive Extends (r : Reader τ φ ν ε) (head : τ) (op : Operator φ) (lhs : ν) :
    ν → List τ → List τ → Prop where
  | postfixed {x : ν} {ts : List τ} (ha : op.affix = .postfixed) (hn : op.arity = .unary)
    (hx : r.rules.unary head lhs = .ok x) : Extends r head op lhs x ts ts
  | infixed {x b : ν} {ts rest : List τ} (ha : op.affix = .infixed) (hn : op.arity = .binary)
    (h₁ : r.operand op.rightPower ts = .ok b rest) (hx : r.rules.binary head lhs b = .ok x) :
    Extends r head op lhs x ts rest
  | mixfix {x b c : ν} {ts ts₁ ts₂ rest : List τ} (ha : op.affix = .postfixed ∨ op.affix = .infixed)
    (hn : op.arity = .ternary) (h₁ : r.operand .bottom ts = .ok b ts₁)
    (e₁ : r.Eats op.follow[0]? ts₁ ts₂) (h₂ : r.operand op.rightPower ts₂ = .ok c rest)
    (hx : r.rules.ternary head lhs b c = .ok x) : Extends r head op lhs x ts rest

variable {r : Reader τ φ ν ε} {head : τ} {op : Operator φ} {lhs x : ν} {ts rest : List τ}

theorem nud_ok (h : r.nud head op ts = .ok x rest) : r.Starts head op.leading x ts rest := by
  unfold nud at h
  cases ha : op.leading.affix <;> simp only [ha] at h
  case nilfix =>
    cases hn : op.leading.arity <;> simp only [hn] at h
    case nullary =>
      obtain ⟨hx, rfl⟩ := Reading.answer_eq_ok.mp h
      exact .leaf ha hn hx
    all_goals injection h
  case prefixed =>
    cases hn : op.leading.arity <;> simp only [hn] at h
    case unary =>
      obtain ⟨a, us, h₁, h⟩ := bind_eq_ok.mp h
      obtain ⟨hx, rfl⟩ := Reading.answer_eq_ok.mp h
      exact .prefixed ha hn h₁ hx
    case ternary =>
      obtain ⟨a, ts₁, h₁, h⟩ := bind_eq_ok.mp h
      obtain ⟨_, ts₂, e₁, h⟩ := bind_eq_ok.mp h
      obtain ⟨b, ts₃, h₂, h⟩ := bind_eq_ok.mp h
      obtain ⟨_, ts₄, e₂, h⟩ := bind_eq_ok.mp h
      obtain ⟨c, us, h₃, h⟩ := bind_eq_ok.mp h
      obtain ⟨hx, rfl⟩ := Reading.answer_eq_ok.mp h
      exact .mixfix ha hn h₁ (eatSeparator_ok e₁) h₂ (eatSeparator_ok e₂) h₃ hx
    all_goals injection h
  case circumfix =>
    cases hn : op.leading.arity <;> simp only [hn] at h
    case unary =>
      obtain ⟨a, ts₁, h₁, h⟩ := bind_eq_ok.mp h
      obtain ⟨_, us, e₁, h⟩ := bind_eq_ok.mp h
      obtain ⟨hx, rfl⟩ := Reading.answer_eq_ok.mp h
      exact .circumfix ha hn h₁ (eatSeparator_ok e₁) hx
    all_goals injection h
  all_goals injection h

theorem led_ok (h : r.led head op lhs ts = .ok x rest) :
    r.Extends head op.continuing lhs x ts rest := by
  have mixfix (ha : op.continuing.affix = .postfixed ∨ op.continuing.affix = .infixed)
      (hn : op.continuing.arity = .ternary)
      (h : (do
        let b ← r.operand .bottom
        let _ ← r.eatSeparator op.continuing.follow[0]?
        let c ← r.operand op.continuing.rightPower
        Reading.answer (r.rules.ternary head lhs b c)) ts = .ok x rest) :
      r.Extends head op.continuing lhs x ts rest := by
    obtain ⟨b, ts₁, h₁, h⟩ := bind_eq_ok.mp h
    obtain ⟨_, ts₂, e₁, h⟩ := bind_eq_ok.mp h
    obtain ⟨c, us, h₂, h⟩ := bind_eq_ok.mp h
    obtain ⟨hx, rfl⟩ := Reading.answer_eq_ok.mp h
    exact .mixfix ha hn h₁ (eatSeparator_ok e₁) h₂ hx
  unfold led at h
  cases ha : op.continuing.affix <;> simp only [ha] at h
  case postfixed =>
    cases hn : op.continuing.arity <;> simp only [hn] at h
    case unary =>
      obtain ⟨hx, rfl⟩ := Reading.answer_eq_ok.mp h
      exact .postfixed ha hn hx
    case ternary => exact mixfix (.inl ha) hn h
    all_goals injection h
  case infixed =>
    cases hn : op.continuing.arity <;> simp only [hn] at h
    case binary =>
      obtain ⟨b, us, h₁, h⟩ := bind_eq_ok.mp h
      obtain ⟨hx, rfl⟩ := Reading.answer_eq_ok.mp h
      exact .infixed ha hn h₁ hx
    case ternary => exact mixfix (.inr ha) hn h
    all_goals injection h
  all_goals injection h

/-- An expression that is continued from a result and a next power. It stops before the end of
the stream, a token to stop at, or one that is not admitted. -/
inductive Continues (r : Reader τ φ ν ε) (rbp : Precedence) :
    Precedence → ν → List τ → ν → List τ → Prop where
  | stop {nbp : Precedence} {x : ν} {ts : List τ}
    (h : ∀ t ∈ ts.head?, r.stop t = false →
      ∃ op, r.rules.query t = .ok op ∧ r.admits rbp op.leftPower nbp = false) :
    Continues r rbp nbp x ts x ts
  | step {nbp : Precedence} {lhs mid x : ν} {t : τ} {ts ts₁ rest : List τ} {op : Operator φ}
    (hs : r.stop t = false) (hq : r.rules.query t = .ok op)
    (ha : r.admits rbp op.leftPower nbp = true)
    (h₁ : r.Extends t op.continuing.continuing lhs mid ts ts₁)
    (h₂ : Continues r rbp op.continuing.nextPower mid ts₁ x rest) :
    Continues r rbp nbp lhs (t :: ts) x rest

theorem Eats.length {expected : Option φ} (h : r.Eats expected ts rest) :
    rest.length ≤ ts.length := by
  cases h with
  | nothing => exact Nat.le_refl _
  | plain => exact Nat.le_succ _
  | marked => exact Nat.le_succ _

/-- Every operand uses up a token. -/
def Shortens (r : Reader τ φ ν ε) : Prop :=
  ∀ ⦃p : Precedence⦄ ⦃x : ν⦄ ⦃ts rest : List τ⦄,
    r.operand p ts = .ok x rest → rest.length < ts.length

theorem Starts.length (hr : r.Shortens) (h : r.Starts head op x ts rest) :
    rest.length ≤ ts.length := by
  cases h with
  | leaf => exact Nat.le_refl _
  | prefixed _ _ h₁ _ => exact Nat.le_of_lt (hr h₁)
  | mixfix _ _ h₁ e₁ h₂ e₂ h₃ _ =>
    have := hr h₁; have := hr h₂; have := hr h₃
    have := e₁.length; have := e₂.length
    omega
  | circumfix _ _ h₁ e₁ _ => exact Nat.le_trans e₁.length (Nat.le_of_lt (hr h₁))

theorem Extends.length (hr : r.Shortens) (h : r.Extends head op lhs x ts rest) :
    rest.length ≤ ts.length := by
  cases h with
  | postfixed => exact Nat.le_refl _
  | infixed _ _ h₁ _ => exact Nat.le_of_lt (hr h₁)
  | mixfix _ _ h₁ e₁ h₂ _ =>
    have := hr h₁; have := hr h₂
    have := e₁.length
    omega

theorem Continues.length (hr : r.Shortens) {rbp nbp : Precedence}
    (h : r.Continues rbp nbp lhs ts x rest) : rest.length ≤ ts.length := by
  induction h with
  | stop => exact Nat.le_refl _
  | step _ _ _ h₁ _ ih => exact Nat.le_succ_of_le (Nat.le_trans ih (h₁.length hr))

theorem continued_ok (hr : r.Shortens) {rbp nbp : Precedence} {fuel : Nat}
    (hf : ts.length ≤ fuel) (h : r.continued rbp fuel nbp lhs ts = .ok x rest) :
    r.Continues rbp nbp lhs ts x rest := by
  induction fuel generalizing nbp lhs ts with
  | zero =>
    cases List.eq_nil_of_length_eq_zero (Nat.le_zero.mp hf)
    cases h
    exact .stop (by simp)
  | succ fuel ih =>
    obtain ⟨o, us, hv, hk⟩ := bind_eq_ok.mp h
    obtain ⟨rfl, ho⟩ := Reading.visible_ok hv
    cases o with
    | none =>
      obtain ⟨rfl, rfl⟩ := EStateM.pure_eq_ok.mp hk
      exact .stop fun t ht hs => by simp [ho t ht] at hs
    | some t =>
      obtain ⟨hs, more, rfl⟩ := ho
      obtain ⟨op, us, ha, hk⟩ := bind_eq_ok.mp hk
      obtain ⟨hq, rfl⟩ := Reading.answer_eq_ok.mp ha
      split at hk
      · rename_i hadmits
        obtain ⟨_, us, hc, hk⟩ := bind_eq_ok.mp hk
        cases hc
        obtain ⟨mid, ts₁, hl, hk⟩ := bind_eq_ok.mp hk
        have h₁ := led_ok hl
        have := h₁.length hr
        simp only [List.length_cons, List.tail_cons] at hf this
        exact .step hs hq hadmits h₁ (ih (by omega) hk)
      · rename_i hadmits
        obtain ⟨rfl, rfl⟩ := EStateM.pure_eq_ok.mp hk
        refine .stop fun u hu _ => ⟨op, ?_, by simpa using hadmits⟩
        simp only [List.head?_cons, Option.mem_some_iff] at hu
        rw [← hu, hq]

/-- A climb is a start and its continuations. -/
theorem climb_ok (hr : r.Shortens) {rbp : Precedence}
    (h : r.climb rbp head (head :: ts) = .ok x rest) :
    ∃ op mid ts₁, r.rules.query head = .ok op ∧ r.Starts head op.leading.leading mid ts ts₁ ∧
      r.Continues rbp op.leading.nextPower mid ts₁ x rest := by
  obtain ⟨_, us, hc, hquery⟩ := bind_eq_ok.mp h
  cases hc
  obtain ⟨op, us, ha, hstart⟩ := bind_eq_ok.mp hquery
  obtain ⟨hq, rfl⟩ := Reading.answer_eq_ok.mp ha
  obtain ⟨mid, ts₁, hn, hget⟩ := bind_eq_ok.mp hstart
  obtain ⟨_, us, hg, hk⟩ := bind_eq_ok.mp hget
  cases hg
  exact ⟨op, mid, ts₁, hq, nud_ok hn, continued_ok hr (Nat.le_refl _) hk⟩

end Reader

namespace Scheme

variable {g : Scheme τ φ ν ε} {x : ν} {ts rest : List τ}

theorem operand_ok {room depth : Nat} {stop : τ → Bool} {rbp : Precedence}
    (h : g.operand room depth stop rbp ts = .ok x rest) :
    ∃ n head more, room = n + 1 ∧ ts = head :: more ∧ stop head = false ∧
      (g.readerIn n depth stop).climb rbp head ts = .ok x rest := by
  obtain ⟨o, us, hv, hk⟩ := bind_eq_ok.mp h
  obtain ⟨rfl, ho⟩ := Reading.visible_ok hv
  cases o with
  | none => injection hk
  | some t =>
    obtain ⟨hs, more, rfl⟩ := ho
    cases room with
    | zero =>
      dsimp only at hk
      rw [operandIn_zero] at hk
      injection hk
    | succ n =>
      dsimp only at hk
      rw [operandIn_succ] at hk
      exact ⟨n, t, more, rfl, rfl, hs, hk⟩

theorem readerIn_shortens (g : Scheme τ φ ν ε) (room depth : Nat) (stop : τ → Bool) :
    (g.readerIn room depth stop).Shortens := by
  induction room generalizing depth with
  | zero =>
    intro p x ts rest h
    have ho : g.operand 0 (depth + 1) stop p ts = .ok x rest := h
    obtain ⟨n, _, _, hn, _⟩ := operand_ok ho
    omega
  | succ n ih =>
    intro p x ts rest h
    have ho : g.operand (n + 1) (depth + 1) stop p ts = .ok x rest := h
    obtain ⟨_, head, more, hn, rfl, -, hc⟩ := operand_ok ho
    cases hn
    have hr := ih (depth + 1)
    obtain ⟨op, mid, ts₁, -, h₁, h₂⟩ := Reader.climb_ok hr hc
    have := h₁.length hr
    have := h₂.length hr
    simp only [List.length_cons]
    omega

/-- A look at what follows a whole expression leaves it where it is. -/
theorem entered_ok {operand : Precedence → Reading τ φ ε ν} {goal : Goal}
    (h : g.entered operand goal ts = .ok x rest) :
    ∃ p, Precedence.ofInt? goal.floor = some p ∧ operand p ts = .ok x rest := by
  obtain ⟨node, us, ha, hn⟩ := bind_eq_ok.mp h
  obtain ⟨p, hp, ho⟩ := Reading.above_ok ha
  refine ⟨p, hp, ?_⟩
  split at hn
  · obtain ⟨o, ws, hv, hn⟩ := bind_eq_ok.mp hn
    obtain ⟨rfl, -⟩ := Reading.visible_ok hv
    cases o with
    | none =>
      obtain ⟨rfl, rfl⟩ := EStateM.pure_eq_ok.mp hn
      exact ho
    | some t => injection hn
  · obtain ⟨rfl, rfl⟩ := EStateM.pure_eq_ok.mp hn
    exact ho

theorem parseUntil_ok {depth : Nat} {rbp : Int} {stop : τ → Bool}
    (h : g.parseUntil depth rbp stop ts = .ok x rest) :
    ∃ room d p, Precedence.ofInt? rbp = some p ∧ g.operand room d stop p ts = .ok x rest :=
  let ⟨p, hp, ho⟩ := entered_ok h
  ⟨_, _, p, hp, ho⟩

theorem parse_ok {depth : Nat} (h : g.parse depth ts = .ok x rest) :
    ∃ room d p, g.operand room d Reading.never p ts = .ok x rest :=
  let ⟨p, _, ho⟩ := entered_ok h
  ⟨_, _, p, ho⟩

/-- What holds of an operand at each level if it holds of the operands below, holds of every
operand that is read. -/
theorem operand_induction {stop : τ → Bool} {P : Precedence → List τ → ν → List τ → Prop}
    (step : ∀ room depth, (∀ ⦃p x ts rest⦄,
        (g.readerIn room depth stop).operand p ts = .ok x rest → P p ts x rest) →
      ∀ ⦃rbp head op mid x ts ts₁ rest⦄,
        (g.rules (depth + 1) (g.operand (room - reentryCost) (depth + 1 + reentryCost)
          Reading.never)).query head = .ok op →
        (g.readerIn room depth stop).Starts head op.leading.leading mid ts ts₁ →
        (g.readerIn room depth stop).Continues rbp op.leading.nextPower mid ts₁ x rest →
        P rbp (head :: ts) x rest)
    {room depth : Nat} {rbp : Precedence}
    (h : g.operand room depth stop rbp ts = .ok x rest) : P rbp ts x rest := by
  induction room generalizing depth rbp ts x rest with
  | zero =>
    obtain ⟨n, _, _, hn, _⟩ := operand_ok h
    omega
  | succ n ih =>
    obtain ⟨_, head, more, hn, rfl, -, hc⟩ := operand_ok h
    cases hn
    obtain ⟨op, mid, ts₁, hq, h₁, h₂⟩ := Reader.climb_ok (g.readerIn_shortens n depth stop) hc
    exact step n depth (fun _ _ _ _ hi => ih hi) hq h₁ h₂

end Scheme

end BindingPower
