import BindingPower.Proofs.Spine
import BindingPower.Proofs.Steps

/-! # Soundness of precedence climbing

Whatever is read is well bracketed. What the loop knows of the tree that it has built is told by the
next token: either every operator on the right edge keeps its operand from that token, or the token
is out of reach because of an operator that does not associate. In the latter case the token is out
of reach for every loop around this one as well. -/
namespace BindingPower.Tree

variable {τ φ ε : Type}

/-- Either every operator between two operands associates, or there is no prefixed operator and
operators of one level associate alike. -/
def Settled (query : τ → Except (Failure τ φ ε) (Operator φ)) : Prop :=
  (∀ ⦃t op⦄, query t = .ok op → op.extending.affix = .infixed →
    op.extending.associativity ≠ .neither) ∨
  (∀ ⦃t op⦄, query t = .ok op → op.starting.affix ≠ .prefixed) ∧
    ∀ ⦃t u p q⦄, query t = .ok p → query u = .ok q → p.extending.affix = .infixed →
      q.extending.affix = .infixed → p.extending.precedence = q.extending.precedence →
      p.extending.associativity = q.extending.associativity

section Invariant

variable (query : τ → Except (Failure τ φ ε) (Operator φ)) (stop : τ → Bool)

/-- The left power of the next token, if one is visible. -/
def Ahead (ts : List τ) (b : Precedence) : Prop :=
  ∃ t op, ts.head? = some t ∧ stop t = false ∧ query t = .ok op ∧ b = op.leftPower

/-- Every operator on the right edge keeps its operand from a continuation of this power. -/
def Kept (x : Tree τ) (b : Precedence) : Prop :=
  b.val = 0 ∨ ∀ q ∈ x.rightSpine query,
    b.val < q.scaled ∨ b.val = q.scaled ∧ q.affix = .infixed ∧ q.associativity = .left

/-- A power that an operator has which does not associate. -/
def Loose (b : Precedence) : Prop :=
  ∃ t op, query t = .ok op ∧ op.extending.affix = .infixed ∧
    op.extending.associativity = .neither ∧ b.val = op.extending.scaled

/-- What is known inside the loop of an operand. -/
def Pending (rbp nbp : Precedence) (x : Tree τ) (ts : List τ) : Prop :=
  ∀ b, Ahead query stop ts b →
    b < nbp ∧ Kept query x b ∨ nbp ≤ b ∧ rbp < b ∧ Loose query b

/-- What the loop of an operand has made of `ts`, with `rest` still to be read. -/
structure Partial (rbp nbp : Precedence) (ts : List τ) (x : Tree τ) (rest : List τ) : Prop where
  tokens : ts = x.tokens query ++ rest
  valid : Valid query x
  left : ∀ q ∈ x.leftSpine query, rbp.val < q.scaled
  pending : Pending query stop rbp nbp x rest

/-- What an operand has made of `ts` once its loop has ended before `rest`. -/
structure Sound (rbp : Precedence) (ts : List τ) (x : Tree τ) (rest : List τ) : Prop where
  tokens : ts = x.tokens query ++ rest
  valid : Valid query x
  left : ∀ q ∈ x.leftSpine query, rbp.val < q.scaled
  next : ∀ b, Ahead query stop rest b →
    b ≤ rbp ∧ Kept query x b ∨ rbp < b ∧ Loose query b

end Invariant

variable {config : Config} {query : τ → Except (Failure τ φ ε) (Operator φ)}
  {isFollow : τ → φ → Except (Failure τ φ ε) Bool} {room depth : Nat} {stop : τ → Bool}
  {head : τ} {op : Operator φ} {lhs x : Tree τ} {ts rest : List τ} {rbp nbp b : Precedence}

/-- The powers of continuations lie on the scale of the declared levels. -/
theorem Ahead.scale (hp : PlainTable query) (h : Ahead query stop ts b) :
    ∃ n ≤ Precedence.maxDeclared, b.val = 10 * n := by
  obtain ⟨t, op, -, -, hq, rfl⟩ := h
  by_cases he : op.extending.affix = .postfixed ∨ op.extending.affix = .infixed
  · rw [(hp.plain hq).leftPower_eq he]
    have hd := (hp.declared hq).2 he
    exact ⟨_, hd, Precedence.normalize_of_le hd⟩
  · rw [(hp.plain hq).leftPower_eq_bottom he]
    exact ⟨0, Nat.zero_le _, rfl⟩

theorem Ahead.lt_top (hp : PlainTable query) (h : Ahead query stop ts b) : b < .top := by
  obtain ⟨n, hn, hb⟩ := h.scale hp
  have hmax : Precedence.maxDeclared = 429496728 := rfl
  change b.val < 4294967295
  omega

/-- A continuation that is admitted leaves every operand on the left edge to its operator. -/
theorem Kept.keeps (hp : PlainTable query) (hq : query head = .ok op)
    (he : op.extending.affix = .postfixed ∨ op.extending.affix = .infixed)
    (hpos : 0 < op.leftPower.val) (h : Kept query x op.leftPower) :
    ∀ q ∈ x.rightSpine query, q.Keeps op.extending := by
  rw [Kept, (hp.plain hq).leftPower_eq he] at h
  rw [(hp.plain hq).leftPower_eq he] at hpos
  rw [Precedence.normalize_of_le ((hp.declared hq).2 he)] at h hpos
  rcases h with h | h
  · omega
  · intro q hm
    rcases h q hm with hlt | ⟨heq, ha, hl⟩
    · refine .inl ?_
      rw [Precedence.lt_iff]
      unfold Operator.scaled at hlt
      omega
    · refine .inr ⟨Precedence.ext_val ?_, ha, hl⟩
      unfold Operator.scaled at heq
      omega

/-- An operator in the right operand of another was within reach of its right power. -/
theorem cedes_of_lt {p q : Operator φ} (hd : p.precedence.val ≤ Precedence.maxDeclared)
    (h : p.rightPower.val < q.scaled) : p.Cedes q := by
  rw [Operator.rightPower_val hd] at h
  unfold Operator.Cedes
  rw [Precedence.lt_iff]
  cases hassoc : p.associativity with
  | left =>
    simp only [hassoc, Operator.scaled] at h
    exact .inl (by omega)
  | right =>
    simp only [hassoc, Operator.scaled] at h
    rcases Nat.lt_or_ge p.precedence.val q.precedence.val with hlt | hge
    · exact .inl hlt
    · exact .inr ⟨Precedence.ext_val (by omega), rfl⟩
  | neither =>
    simp only [hassoc, Operator.scaled] at h
    exact .inl (by omega)

/-- A right edge that consists of an operator and a kept edge is kept if the operator keeps its own
operand. -/
theorem Kept.cons {q : Operator φ} {y : Tree τ} (hx : x.rightSpine query = q :: y.rightSpine query)
    (hq : b.val < q.scaled ∨ b.val = q.scaled ∧ q.affix = .infixed ∧ q.associativity = .left)
    (h : Kept query y b) : Kept query x b := by
  rcases h with h | h
  · exact .inl h
  · refine .inr ?_
    rw [hx]
    simp only [List.forall_mem_cons]
    exact ⟨hq, h⟩

theorem Settled.not_loose (h : Settled query) (hq : query head = .ok op)
    (ha : op.starting.affix = .prefixed) : ¬Loose query b := by
  rintro ⟨t, p, hp, hi, hn, -⟩
  rcases h with h | ⟨h, -⟩
  · exact h hp hi hn
  · exact h hq ha

/-- Where some operator does not associate, an operator that does has another level. -/
theorem Settled.ne_of_loose (h : Settled query) (hq : query head = .ok op)
    (ha : op.extending.affix = .infixed) (hne : op.extending.associativity ≠ .neither)
    (hl : Loose query b) : b.val ≠ op.extending.scaled := by
  obtain ⟨t, p, hp, hi, hn, hb⟩ := hl
  rcases h with h | ⟨-, h⟩
  · exact absurd hn (h hp hi)
  · intro heq
    unfold Operator.scaled at hb heq
    have hlevel : op.extending.precedence = p.extending.precedence := Precedence.ext_val (by omega)
    exact hne ((h hq hp ha hi hlevel).trans hn)

theorem pending_of_edgeless (hp : PlainTable query) (hx : x.rightSpine query = []) :
    Pending query stop rbp .top x ts := by
  intro b hb
  refine .inl ⟨hb.lt_top hp, .inr ?_⟩
  rw [hx]
  simp

theorem pending_of_prefixed (hp : PlainTable query) (hs : Settled query)
    (hq : query head = .ok op) (ha : op.starting.affix = .prefixed)
    (h : Sound query stop op.starting.operandPower ts x rest) :
    Pending query stop rbp .top (unary head x) rest := by
  intro b hb
  rcases h.next b hb with ⟨hle, hk⟩ | ⟨-, hl⟩
  · refine .inl ⟨hb.lt_top hp, ?_⟩
    rcases Nat.eq_zero_or_pos b.val with hzero | hpos
    · exact .inl hzero
    · refine hk.cons (rightSpine_prefixed hp hq ha x) (.inl ?_)
      rw [Precedence.le_iff, Operator.operandPower_val ((hp.declared hq).1 ha)] at hle
      omega
  · exact absurd hl (hs.not_loose hq ha)

/-- What an operator between two operands leaves to the loop around it. An operator that does not
associate puts a token of its own level out of reach. -/
theorem pending_of_infixed {l r : Tree τ} (hp : PlainTable query) (hs : Settled query)
    (hq : query head = .ok op) (ha : op.extending.affix = .infixed)
    (hlt : rbp.val < op.extending.scaled)
    (h : Sound query stop op.extending.rightPower ts r rest) :
    Pending query stop rbp op.extending.nextPower (binary head l r) rest := by
  intro b hb
  obtain ⟨n, -, hscale⟩ := hb.scale hp
  have hright := Operator.rightPower_val ((hp.declared hq).2 (.inr ha))
  have hnext := Operator.nextPower_val ((hp.declared hq).2 (.inr ha)) ha
  have hlevel : op.extending.scaled = 10 * op.extending.precedence.val := rfl
  have kept (hk : Kept query r b) (hb : b.val < op.extending.scaled ∨ b.val = op.extending.scaled ∧
      op.extending.affix = .infixed ∧ op.extending.associativity = .left) :
      Kept query (binary head l r) b := hk.cons (rightSpine_infixed hq l r) hb
  simp only [Precedence.lt_iff, Precedence.le_iff]
  have hcases := h.next b hb
  simp only [Precedence.lt_iff, Precedence.le_iff] at hcases
  cases hassoc : op.extending.associativity with
  | left =>
    simp only [hassoc, reduceCtorEq, ↓reduceIte] at hright hnext
    rcases hcases with ⟨hle, hk⟩ | ⟨hgt, hl⟩
    · refine .inl ⟨by omega, kept hk ?_⟩
      rcases Nat.lt_or_ge b.val op.extending.scaled with hb | hb
      · exact .inl hb
      · exact .inr ⟨by omega, ha, hassoc⟩
    · exact .inr ⟨by omega, by omega, hl⟩
  | right =>
    simp only [hassoc, reduceCtorEq, ↓reduceIte] at hright hnext
    rcases hcases with ⟨hle, hk⟩ | ⟨hgt, hl⟩
    · exact .inl ⟨by omega, kept hk (.inl (by omega))⟩
    · have hne := hs.ne_of_loose hq ha (by simp [hassoc]) hl
      exact .inr ⟨by omega, by omega, hl⟩
  | neither =>
    simp only [hassoc, ↓reduceIte] at hright hnext
    rcases hcases with ⟨hle, hk⟩ | ⟨hgt, hl⟩
    · rcases Nat.lt_or_ge b.val op.extending.scaled with hb | hb
      · exact .inl ⟨by omega, kept hk (.inl hb)⟩
      · exact .inr ⟨by omega, by omega, _, _, hq, ha, hassoc, by omega⟩
    · exact .inr ⟨by omega, by omega, hl⟩

section Steps

variable (hp : PlainTable query) (hs : Settled query)
  (below : ∀ ⦃p x ts rest⦄,
    ((scheme config query isFollow).readerIn room depth stop).operand p ts = .ok x rest →
      Sound query stop p ts x rest)

include hp hs below

theorem partial_of_starts (hq : query head = .ok op)
    (h : ((scheme config query isFollow).readerIn room depth stop).Starts head op.starting
      x ts rest) :
    Partial query stop rbp op.leading.nextPower (head :: ts) x rest := by
  have hsimple := (hp.plain hq).parts.1
  rw [(hp.plain hq).leading_eq] at hsimple ⊢
  cases h with
  | leaf ha hn hx =>
    cases hx
    rw [Operator.nextPower_of_ne (by simp [ha])]
    exact ⟨rfl, .leaf hq ha, by simp [leftSpine], pending_of_edgeless hp rfl⟩
  | prefixed ha hn h₁ hx =>
    cases hx
    have hbelow := below h₁
    rw [Operator.nextPower_of_ne (by simp [ha])]
    refine ⟨?_, ?_, ?_, pending_of_prefixed hp hs hq ha hbelow⟩
    · rw [tokens_prefixed hp hq ha, hbelow.tokens, List.cons_append]
    · refine .prefixed hq ha hbelow.valid fun q hm => ?_
      have hgt := hbelow.left q hm
      rw [Operator.operandPower_val ((hp.declared hq).1 ha)] at hgt
      unfold Operator.scaled at hgt
      rw [Precedence.le_iff]
      omega
    · rw [leftSpine_prefixed hp hq ha]
      simp
  | mixfix _ hn => exact absurd hn hsimple.arity_ne_ternary
  | circumfix ha => exact absurd ha hsimple.not_circumfix

/-- What an admitted token makes of a tree whose right edge is kept from it. -/
theorem partial_of_extends {whole : List τ} (hstop : stop head = false)
    (hq : query head = .ok op) (hadmits : between rbp op.leftPower nbp = true)
    (hl : Partial query stop rbp nbp whole lhs (head :: ts))
    (h : ((scheme config query isFollow).readerIn room depth stop).Extends head op.extending
      lhs x ts rest) :
    Partial query stop rbp op.continuing.nextPower whole x rest := by
  have hsimple := (hp.plain hq).parts.2
  have hlevel (he : op.extending.affix = .postfixed ∨ op.extending.affix = .infixed) :
      op.extending.precedence.normalize.val = op.extending.scaled :=
    Precedence.normalize_of_le ((hp.declared hq).2 he)
  simp only [between, Bool.and_eq_true, decide_eq_true_eq, Precedence.lt_iff] at hadmits
  have hkept : Kept query lhs op.leftPower := by
    rcases hl.pending _ ⟨head, op, rfl, hstop, hq, rfl⟩ with ⟨-, hk⟩ | ⟨hle, -⟩
    · exact hk
    · rw [Precedence.le_iff] at hle
      omega
  rw [(hp.plain hq).continuing_eq] at hsimple ⊢
  cases h with
  | postfixed ha hn hx =>
    cases hx
    have hkeeps := hkept.keeps hp hq (.inl ha) (by omega)
    rw [(hp.plain hq).leftPower_eq (.inl ha), hlevel (.inl ha)] at hadmits
    have htokens := tokens_postfixed hq ha lhs
    have hright := rightSpine_postfixed hq ha lhs
    rw [Operator.nextPower_of_ne (by simp [ha])]
    refine ⟨?_, .postfixed hq ha hl.valid hkeeps, ?_, pending_of_edgeless hp hright⟩
    · rw [htokens, hl.tokens]
      simp
    · rw [leftSpine_postfixed hq ha]
      simp only [List.forall_mem_cons]
      exact ⟨hadmits.1, hl.left⟩
  | infixed ha hn h₁ hx =>
    cases hx
    have hkeeps := hkept.keeps hp hq (.inr ha) (by omega)
    rw [(hp.plain hq).leftPower_eq (.inr ha), hlevel (.inr ha)] at hadmits
    have hbelow := below h₁
    refine ⟨?_, ?_, ?_, pending_of_infixed hp hs hq ha hadmits.1 hbelow⟩
    · rw [hl.tokens, hbelow.tokens, tokens]
      simp
    · refine .infixed hq ha hl.valid hbelow.valid (fun q hm => ?_) hkeeps
      exact cedes_of_lt ((hp.declared hq).2 (.inr ha)) (hbelow.left q hm)
    · rw [leftSpine_infixed hq]
      simp only [List.forall_mem_cons]
      exact ⟨hadmits.1, hl.left⟩
  | mixfix _ hn => exact absurd hn hsimple.arity_ne_ternary

theorem sound_of_continues {whole : List τ}
    (h : ((scheme config query isFollow).readerIn room depth stop).Continues rbp nbp
      lhs ts x rest)
    (hl : Partial query stop rbp nbp whole lhs ts) : Sound query stop rbp whole x rest := by
  induction h with
  | @stop nbp x ts hstop =>
    refine ⟨hl.tokens, hl.valid, hl.left, fun b hb => ?_⟩
    have hpending := hl.pending b hb
    obtain ⟨t, op, ht, hvisible, hq, rfl⟩ := hb
    obtain ⟨op', hq', hadmits⟩ := hstop t ht hvisible
    have hsame := Reading.contained_eq_ok.mp hq'
    rw [hq] at hsame
    cases hsame
    have hadmits : between rbp op.leftPower nbp = false := hadmits
    simp only [between, Bool.and_eq_false_iff, decide_eq_false_iff_not, Precedence.lt_iff] at hadmits
    simp only [Precedence.lt_iff, Precedence.le_iff] at hpending ⊢
    rcases hpending with ⟨hlt, hk⟩ | ⟨-, hlt, hloose⟩
    · exact .inl ⟨by omega, hk⟩
    · exact .inr ⟨hlt, hloose⟩
  | step hstop hq hadmits h₁ _ ih =>
    exact ih (partial_of_extends hp hs below hstop (Reading.contained_eq_ok.mp hq) hadmits hl h₁)

end Steps

theorem operand_sound (hp : PlainTable query) (hs : Settled query)
    (h : (scheme config query isFollow).operand room depth stop rbp ts = .ok x rest) :
    Sound query stop rbp ts x rest := by
  refine Scheme.operand_induction (P := Sound query stop) ?_ h
  intro room depth below rbp head op mid x ts ts₁ rest hq h₁ h₂
  exact sound_of_continues hp hs below h₂
    (partial_of_starts hp hs below (Reading.contained_eq_ok.mp hq) h₁)

/-- A tree that a run returns has the tokens that the run took, it is well bracketed, and the
operators on its left edge bind tighter than the floor of the run. -/
theorem parseUntil_valid {number : Int} {halt : Option (τ → Bool)}
    {s t : Session τ φ (Tree τ) ε} {tokens : List τ} (hp : PlainTable query)
    (hs : Settled query) (hi : s.cursor.items = tokens.map .token)
    (h : (parser config query isFollow).parseUntil number (halt.map Stop.ofPredicate) s = .ok x t) :
    ∃ rest, tokens = x.tokens query ++ rest ∧ t.cursor.items = rest.map .token ∧
      Valid query x ∧ ∀ q ∈ x.leftSpine query, number < q.precedence.normalize.val := by
  have follows := (parser_follows config query isFollow).parseUntil (d := s.depth) number halt
  obtain ⟨rest, hr, hread⟩ := follows.ok rfl hi h
  obtain ⟨room, d, p, hfloor, ho⟩ := Scheme.parseUntil_ok hr
  have hsound := operand_sound hp hs ho
  refine ⟨rest, hsound.tokens, hread.items, hsound.valid, fun q hm => ?_⟩
  have hlevel := hsound.valid.forall_leftSpine (P := fun q =>
    q.precedence.val ≤ Precedence.maxDeclared) hp (fun _ _ hq he => (hp.declared hq).2 he) q hm
  have hgt := hsound.left q hm
  rw [Precedence.ofInt?_eq_some_iff] at hfloor
  rw [Precedence.normalize_of_le hlevel]
  unfold Operator.scaled at hgt
  omega

theorem signs_settled : Settled signs := by
  refine .inl fun t op h ha => ?_
  cases h
  revert ha
  split
  · simp [Operator.extending, Operator.prefixedOrInfixed, Operator.infixed, Operator.associativity,
      Operator.shape]
  · split
    · simp [Operator.extending, Operator.infixed, Operator.associativity, Operator.shape]
    · split
      · simp [Operator.extending, Operator.postfixed, Operator.affix, Operator.shape]
      · simp [Operator.extending, Operator.nilfix, Operator.affix, Operator.shape]

theorem parseUntil_valid_signs :
    ∃ t, (parser ⟨false, false, 3, by decide⟩ signs fun _ _ => .ok false).parseUntil 5
        (Option.map Stop.ofPredicate none) (.start (.ofTokens ['-', 'x', '*', 'y', '-', 'z', '!'])) =
          .ok signed t ∧
      PlainTable signs ∧ Settled signs ∧
      ∃ rest, ['-', 'x', '*', 'y', '-', 'z', '!'] = signed.tokens signs ++ rest ∧
        t.cursor.items = rest.map .token ∧ Valid signs signed ∧
        ∀ q ∈ signed.leftSpine signs, 5 < (q.precedence.normalize.val : Int) := by
  have hreturned : returned? ((parser ⟨false, false, 3, by decide⟩ signs fun _ _ =>
      .ok false).parseUntil 5 (Option.map Stop.ofPredicate none)
        (.start (.ofTokens ['-', 'x', '*', 'y', '-', 'z', '!']))) = some signed := by
    decide +kernel
  obtain ⟨t, ht⟩ := returned?_eq_some.mp hreturned
  exact ⟨t, ht, signs_plainTable, signs_settled,
    parseUntil_valid signs_plainTable signs_settled rfl ht⟩

end BindingPower.Tree
