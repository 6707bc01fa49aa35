import BindingPower.Proofs.Evaluation
import BindingPower.Proofs.Spine

/-! # Completeness of precedence climbing

The tokens of a well bracketed tree are read as that tree, if there is room for its levels. In the
midst of a stream the floor has to lie below the left edge of the tree, and the next token must not
reach past its right edge. Two well bracketed trees with the same tokens are the same tree. -/
namespace BindingPower

variable {τ φ ε : Type}

namespace Operator

/-- The power with which an operator grips the operand on its right. -/
def hold (op : Operator φ) : Precedence :=
  if op.affix = .infixed then op.rightPower else op.operandPower

/-- An operator that keeps its operand from a continuation has a grip that the continuation does not
exceed. -/
theorem Keeps.le_hold {p q : Operator φ} (hd : p.precedence.val ≤ Precedence.maxDeclared)
    (h : p.Keeps q) : q.scaled ≤ p.hold.val := by
  have hright := rightPower_val hd
  have hoperand := operandPower_val hd
  unfold hold
  unfold scaled at hright hoperand ⊢
  rcases h with hlt | ⟨heq, ha, hl⟩
  · rw [Precedence.lt_iff] at hlt
    split
    · cases hassoc : p.associativity <;> simp only [hassoc] at hright <;> omega
    · omega
  · rw [if_pos ha, heq]
    simp only [hl] at hright
    omega

end Operator

namespace Tree

section Measures

variable (query : τ → Except (Failure τ φ ε) (Operator φ))

/-- How deep the operands of a tree are nested while it is read. -/
def levels : Tree τ → Nat
  | leaf _ => 1
  | unary t x => if trails query t then x.levels else 1 + x.levels
  | binary _ l r => max l.levels (1 + r.levels)
  | ternary _ a b c => max a.levels (1 + max b.levels c.levels)

/-- The next power that the root of a tree leaves behind. -/
def lastPower : Tree τ → Precedence
  | binary t _ _ => (operatorOf query t).extending.nextPower
  | _ => .top

/-- Every continuing operator of a table has a level above the lowest one. -/
def Positive : Prop :=
  ∀ ⦃t op⦄, query t = .ok op → op.extending.affix = .postfixed ∨ op.extending.affix = .infixed →
    0 < op.extending.precedence.val

/-- The next token does not reach past the right edge of a tree. -/
def Barred (x : Tree τ) (rest : List τ) : Prop :=
  ∀ t ∈ rest.head?, ∃ op, query t = .ok op ∧ ∀ q ∈ x.rightSpine query, op.leftPower ≤ q.hold

end Measures

variable {config : Config} {query : τ → Except (Failure τ φ ε) (Operator φ)}
  {isFollow : τ → φ → Except (Failure τ φ ε) Bool} {room depth : Nat}
  {t : τ} {op : Operator φ} {x l r : Tree τ} {ts rest : List τ} {rbp : Precedence}

theorem levels_pos (query : τ → Except (Failure τ φ ε) (Operator φ)) (x : Tree τ) :
    0 < x.levels query := by
  induction x with
  | leaf => exact Nat.one_pos
  | unary t x ih =>
    rw [levels]
    split
    · exact ih
    · omega
  | binary t l r ihl ihr => rw [levels]; omega
  | ternary t a b c iha ihb ihc => rw [levels]; omega

theorem levels_postfixed (hq : query t = .ok op) (ha : op.extending.affix = .postfixed) :
    (unary t x).levels query = x.levels query := by
  rw [levels, trails_of_postfixed hq ha, if_pos rfl]

theorem levels_prefixed (hp : PlainTable query) (hq : query t = .ok op)
    (ha : op.starting.affix = .prefixed) :
    (unary t x).levels query = 1 + x.levels query := by
  rw [levels, trails_of_prefixed hp hq ha, if_neg (by simp)]

theorem rightSpine_declared (hp : PlainTable query) (hx : Valid query x) :
    ∀ q ∈ x.rightSpine query, q.precedence.val ≤ Precedence.maxDeclared :=
  hx.forall_rightSpine hp (fun _ _ hq ha => (hp.declared hq).1 ha) fun _ _ hq ha =>
    (hp.declared hq).2 (.inr ha)

theorem leftPower_val (hp : PlainTable query) (hq : query t = .ok op)
    (he : op.extending.affix = .postfixed ∨ op.extending.affix = .infixed) :
    op.leftPower.val = op.extending.scaled := by
  rw [(hp.plain hq).leftPower_eq he]
  exact Precedence.normalize_of_le ((hp.declared hq).2 he)

/-- A continuation from which the right edge of its operand is kept does not reach past it. -/
theorem barred_of_keeps (hp : PlainTable query) (hx : Valid query x) (hq : query t = .ok op)
    (he : op.extending.affix = .postfixed ∨ op.extending.affix = .infixed)
    (hr : ∀ q ∈ x.rightSpine query, q.Keeps op.extending) : Barred query x (t :: rest) := by
  intro u hu
  simp only [List.head?_cons, Option.mem_some_iff] at hu
  rw [← hu]
  refine ⟨op, hq, fun q hm => ?_⟩
  rw [Precedence.le_iff, leftPower_val hp hq he]
  exact (hr q hm).le_hold (rightSpine_declared hp hx q hm)

/-- Such a continuation is not kept out by the root of its operand either. -/
theorem lt_lastPower (hp : PlainTable query) (hx : Valid query x) (hq : query t = .ok op)
    (he : op.extending.affix = .postfixed ∨ op.extending.affix = .infixed)
    (hr : ∀ q ∈ x.rightSpine query, q.Keeps op.extending) :
    op.leftPower < x.lastPower query := by
  have hlevel := leftPower_val hp hq he
  have hdeclared := (hp.declared hq).2 he
  have hmax : Precedence.maxDeclared = 429496728 := rfl
  have below_top : op.leftPower < .top := by
    rw [Precedence.lt_iff, hlevel]
    change 10 * op.extending.precedence.val < 4294967295
    omega
  cases hx with
  | leaf => exact below_top
  | prefixed => exact below_top
  | postfixed => exact below_top
  | @infixed u p _ _ hu ha _ _ _ _ =>
    rw [rightSpine_infixed hu] at hr
    have hkeeps := hr p.extending (by simp)
    have hnext := Operator.nextPower_val ((hp.declared hu).2 (.inr ha)) ha
    rw [lastPower, operatorOf_eq hu, Precedence.lt_iff, hnext, hlevel]
    unfold Operator.scaled
    rcases hkeeps with hlt | ⟨heq, -, hl⟩
    · rw [Precedence.lt_iff] at hlt
      split <;> omega
    · rw [heq, hl, if_neg (by simp)]
      omega

theorem Barred.below {q : Operator φ} {y : Tree τ} (h : Barred query x rest)
    (hx : x.rightSpine query = q :: y.rightSpine query) : Barred query y rest := by
  intro t ht
  obtain ⟨op, hq, hle⟩ := h t ht
  rw [hx] at hle
  exact ⟨op, hq, fun p hm => hle p (List.mem_cons_of_mem _ hm)⟩

/-- The next token is left by a loop that reads the operand of an operator on the right edge. -/
theorem Barred.halted {q : Operator φ} {fuel : Nat} {nbp : Precedence} (h : Barred query x rest)
    (hm : q ∈ x.rightSpine query) (y : Tree τ) :
    ((scheme config query isFollow).readerIn room depth Reading.never).continued q.hold fuel nbp
      y rest = .ok y rest := by
  cases rest with
  | nil => exact Reader.continued_nil
  | cons t more =>
    obtain ⟨op, hq, hle⟩ := h t rfl
    refine Reader.continued_of_not_admitted rfl (Reading.contained_eq_ok.mpr hq) ?_
    have hnot := hle q hm
    rw [Precedence.le_iff] at hnot
    change between q.hold op.leftPower nbp = false
    simp only [between, Bool.and_eq_false_iff, decide_eq_false_iff_not, Precedence.lt_iff]
    omega

/-- A continuation within reach of the floor that leaves the right edge of its operand alone is
admitted. -/
theorem admits_of_keeps (hp : PlainTable query) (hx : Valid query x) (hq : query t = .ok op)
    (he : op.extending.affix = .postfixed ∨ op.extending.affix = .infixed)
    (hfloor : rbp.val < op.extending.scaled) (hr : ∀ q ∈ x.rightSpine query, q.Keeps op.extending) :
    between rbp op.leftPower (x.lastPower query) = true := by
  have hlt := lt_lastPower hp hx hq he hr
  simp only [between, Bool.and_eq_true, decide_eq_true_eq]
  refine ⟨?_, hlt⟩
  rw [Precedence.lt_iff, leftPower_val hp hq he]
  exact hfloor

section Gates

variable (hp : PlainTable query) (hpos : Positive query)

include hp hpos

theorem prefixed_gate (hx : Valid query x) (hq : query t = .ok op)
    (ha : op.starting.affix = .prefixed)
    (hl : ∀ q ∈ x.leftSpine query, op.starting.precedence ≤ q.precedence) :
    ∀ q ∈ x.leftSpine query, op.starting.operandPower.val < q.scaled := by
  intro q hm
  have hlevel := hl q hm
  have hone := hx.forall_leftSpine (P := fun q => 0 < q.precedence.val) hp hpos q hm
  rw [Operator.operandPower_val ((hp.declared hq).1 ha)]
  unfold Operator.scaled
  rw [Precedence.le_iff] at hlevel
  omega

theorem infixed_gate (hx : Valid query x) (hq : query t = .ok op)
    (ha : op.extending.affix = .infixed)
    (hl : ∀ q ∈ x.leftSpine query, op.extending.Cedes q) :
    ∀ q ∈ x.leftSpine query, op.extending.rightPower.val < q.scaled := by
  intro q hm
  have hone := hx.forall_leftSpine (P := fun q => 0 < q.precedence.val) hp hpos q hm
  rw [Operator.rightPower_val ((hp.declared hq).2 (.inr ha))]
  unfold Operator.scaled
  rcases hl q hm with hlt | ⟨heq, hassoc⟩
  · rw [Precedence.lt_iff] at hlt
    cases op.extending.associativity <;> simp only <;> omega
  · rw [hassoc, heq]
    simp only
    omega

end Gates

section Operands

variable (config : Config) (query : τ → Except (Failure τ φ ε) (Operator φ))
  (isFollow : τ → φ → Except (Failure τ φ ε) Bool)

/-- How the tokens of a tree are read where its left edge lies above the floor and the next token
does not reach past its right edge: the loop builds the tree and goes on from there, if there is room
for the levels of the tree. -/
def Climbs (x : Tree τ) : Prop :=
  ∀ room depth rbp rest, (∀ q ∈ x.leftSpine query, rbp.val < q.scaled) → Barred query x rest →
    ∃ fuel, rest.length ≤ fuel ∧ Reading.Comes config.maxDepth
      ((scheme config query isFollow).operand room depth Reading.never rbp
        (x.tokens query ++ rest)) (x.levels query ≤ room)
      (((scheme config query isFollow).readerIn (room - 1) depth Reading.never).continued rbp fuel
        (x.lastPower query) x rest)

end Operands

/-- An operand that an operator on the right edge grips is read as a whole. -/
theorem Climbs.held {q : Operator φ} {y : Tree τ} (h : Climbs config query isFollow x)
    (room depth : Nat) (hleft : ∀ p ∈ x.leftSpine query, q.hold.val < p.scaled)
    (hy : y.rightSpine query = q :: x.rightSpine query) (hright : Barred query y rest) :
    Reading.Comes config.maxDepth
      ((scheme config query isFollow).operand room depth Reading.never q.hold
        (x.tokens query ++ rest)) (x.levels query ≤ room) (.ok x rest) := by
  obtain ⟨fuel, -, hread⟩ := h room depth q.hold rest hleft (hright.below hy)
  exact hread.eq (hright.halted (by rw [hy]; simp) x)

theorem climbs_leaf (hp : PlainTable query) (hq : query t = .ok op)
    (ha : op.starting.affix = .nilfix) : Climbs config query isFollow (leaf t) := by
  intro room depth rbp rest _ _
  have hn : op.starting.arity = .nullary := by rw [(hp.plain hq).starting_arity, ha]; rfl
  have hnud : Reading.Comes config.maxDepth
      (((scheme config query isFollow).readerIn (room - 1) depth Reading.never).nud t op.leading
        rest) True (.ok (leaf t) rest) := by
    rw [Reader.nud_of_nilfix _ _ _ ha hn]
    exact .of_eq rfl
  have hread := Scheme.operand_of_nud rbp hnud (Reading.contained_eq_ok.mpr hq) rfl
  rw [(hp.plain hq).leading_eq, Operator.nextPower_of_ne (by simp [ha])] at hread
  exact ⟨rest.length, Nat.le_refl _, hread.iff (by simp [levels, Nat.succ_le_iff])⟩

section Nodes

variable (hp : PlainTable query) (hpos : Positive query)

include hp hpos

theorem climbs_prefixed (hq : query t = .ok op) (ha : op.starting.affix = .prefixed)
    (hx : Valid query x) (hl : ∀ q ∈ x.leftSpine query, op.starting.precedence ≤ q.precedence)
    (h : Climbs config query isFollow x) : Climbs config query isFollow (unary t x) := by
  intro room depth rbp rest _ hright
  have hn : op.starting.arity = .unary := by rw [(hp.plain hq).starting_arity, ha]; rfl
  have hhold : op.starting.hold = op.starting.operandPower := if_neg (by simp [ha])
  have hgate := prefixed_gate hp hpos hx hq ha hl
  have hoperand := h.held (room - 1) (depth + 1) (hhold ▸ hgate) (rightSpine_prefixed hp hq ha x)
    hright
  rw [hhold] at hoperand
  have hnud : Reading.Comes config.maxDepth
      (((scheme config query isFollow).readerIn (room - 1) depth Reading.never).nud t op.leading
        (x.tokens query ++ rest)) (x.levels query ≤ room - 1) (.ok (unary t x) rest) := by
    rw [Reader.nud_of_prefixed _ _ _ ha hn]
    exact hoperand.bind
  have hread := Scheme.operand_of_nud rbp hnud (Reading.contained_eq_ok.mpr hq) rfl
  rw [(hp.plain hq).leading_eq, Operator.nextPower_of_ne (by simp [ha])] at hread
  refine ⟨rest.length, Nat.le_refl _, ?_⟩
  rw [tokens_prefixed hp hq ha, List.cons_append]
  refine hread.iff ?_
  rw [levels_prefixed hp hq ha]
  omega

omit hpos in
theorem climbs_postfixed (hq : query t = .ok op) (ha : op.extending.affix = .postfixed)
    (hx : Valid query x) (hr : ∀ q ∈ x.rightSpine query, q.Keeps op.extending)
    (h : Climbs config query isFollow x) : Climbs config query isFollow (unary t x) := by
  intro room depth rbp rest hleft _
  have hn : op.extending.arity = .unary := by rw [(hp.plain hq).extending_arity, ha]; rfl
  rw [leftSpine_postfixed hq ha] at hleft
  simp only [List.forall_mem_cons] at hleft
  obtain ⟨fuel, hfuel, hread⟩ := h room depth rbp (t :: rest) hleft.2
    (barred_of_keeps hp hx hq (.inl ha) hr)
  simp only [List.length_cons] at hfuel
  obtain ⟨n, rfl⟩ := Nat.exists_eq_succ_of_ne_zero (n := fuel) (by omega)
  have hled : Reading.Comes config.maxDepth
      (((scheme config query isFollow).readerIn (room - 1) depth Reading.never).led t op.continuing
        x rest) True (.ok (unary t x) rest) := by
    rw [Reader.led_of_postfixed _ _ _ _ ha hn]
    exact .of_eq rfl
  have hloop := hread.trans (Reader.continued_comes rfl (Reading.contained_eq_ok.mpr hq)
    (admits_of_keeps hp hx hq (.inl ha) hleft.1 hr) hled)
  rw [(hp.plain hq).continuing_eq, Operator.nextPower_of_ne (by simp [ha])] at hloop
  refine ⟨n, by omega, ?_⟩
  rw [tokens_postfixed hq ha, List.append_assoc, List.singleton_append]
  refine hloop.iff ?_
  rw [levels_postfixed hq ha, and_true]

theorem climbs_infixed (hq : query t = .ok op) (ha : op.extending.affix = .infixed)
    (hvl : Valid query l) (hvr : Valid query r)
    (hl : ∀ q ∈ r.leftSpine query, op.extending.Cedes q)
    (hr : ∀ q ∈ l.rightSpine query, q.Keeps op.extending)
    (ihl : Climbs config query isFollow l) (ihr : Climbs config query isFollow r) :
    Climbs config query isFollow (binary t l r) := by
  intro room depth rbp rest hleft hright
  have hn : op.extending.arity = .binary := by rw [(hp.plain hq).extending_arity, ha]; rfl
  have hhold : op.extending.hold = op.extending.rightPower := if_pos ha
  have hgate := infixed_gate hp hpos hvr hq ha hl
  rw [leftSpine_infixed hq] at hleft
  simp only [List.forall_mem_cons] at hleft
  -- the loop that has built the left operand comes to the operator behind it
  obtain ⟨fuel, hfuel, hread⟩ := ihl room depth rbp (t :: (r.tokens query ++ rest)) hleft.2
    (barred_of_keeps hp hvl hq (.inr ha) hr)
  simp only [List.length_cons, List.length_append] at hfuel
  obtain ⟨n, rfl⟩ := Nat.exists_eq_succ_of_ne_zero (n := fuel) (by omega)
  have hoperand := ihr.held (room - 1) (depth + 1) (hhold ▸ hgate) (rightSpine_infixed hq l r)
    hright
  rw [hhold] at hoperand
  have hled : Reading.Comes config.maxDepth
      (((scheme config query isFollow).readerIn (room - 1) depth Reading.never).led t op.continuing
        l (r.tokens query ++ rest)) (r.levels query ≤ room - 1) (.ok (binary t l r) rest) := by
    rw [Reader.led_of_infixed _ _ _ _ ha hn]
    exact hoperand.bind
  have hloop := hread.trans (Reader.continued_comes rfl (Reading.contained_eq_ok.mpr hq)
    (admits_of_keeps hp hvl hq (.inr ha) hleft.1 hr) hled)
  rw [(hp.plain hq).continuing_eq] at hloop
  refine ⟨n, by omega, ?_⟩
  rw [tokens, List.append_assoc, List.cons_append, lastPower, operatorOf_eq hq]
  refine hloop.iff ?_
  have hlevels := levels_pos query l
  rw [levels]
  omega

theorem climbs_of_valid (hx : Valid query x) : Climbs config query isFollow x := by
  induction hx with
  | leaf hq ha => exact climbs_leaf hp hq ha
  | prefixed hq ha hx hl ih => exact climbs_prefixed hp hpos hq ha hx hl ih
  | postfixed hq ha hx hr ih => exact climbs_postfixed hp hq ha hx hr ih
  | infixed hq ha hvl hvr hl hr ihl ihr => exact climbs_infixed hp hpos hq ha hvl hvr hl hr ihl ihr

end Nodes

theorem bottom_gate (hp : PlainTable query) (hpos : Positive query) (hx : Valid query x) :
    ∀ q ∈ x.leftSpine query, Precedence.bottom.val < q.scaled := by
  intro q hm
  have hone := hx.forall_leftSpine (P := fun q => 0 < q.precedence.val) hp hpos q hm
  change 0 < 10 * q.precedence.val
  omega

theorem barred_nil (x : Tree τ) : Barred query x [] := by
  intro t ht
  simp at ht

/-- The tokens of a well bracketed tree come to that tree if its levels fit below the depth. -/
theorem parseInput_tokens (hp : PlainTable query) (hpos : Positive query) (hx : Valid query x) :
    Reading.Comes config.maxDepth
      ((scheme config query isFollow).parseInput depth .bottom Reading.never (x.tokens query))
      (x.levels query + depth ≤ config.maxDepth) (.ok x []) := by
  have hclimbs : Climbs config query isFollow x := climbs_of_valid hp hpos hx
  obtain ⟨fuel, -, hread⟩ := hclimbs (config.maxDepth - depth) depth .bottom []
    (bottom_gate hp hpos hx) (barred_nil x)
  rw [List.append_nil] at hread
  have hlevels := levels_pos query x
  exact (hread.eq Reader.continued_nil).iff (by omega)

/-- Well bracketed trees with the same tokens are the same. -/
theorem eq_of_tokens_eq (hp : PlainTable query) (hpos : Positive query) (hx : Valid query x)
    {y : Tree τ} (hy : Valid query y) (h : y.tokens query = x.tokens query) : y = x := by
  have room : 0 < x.levels query + y.levels query := Nat.add_pos_left (levels_pos query x) _
  have first : (scheme ⟨false, false, _, room⟩ query fun _ _ => .ok false).parseInput 0 .bottom
      Reading.never (x.tokens query) = .ok x [] :=
    (parseInput_tokens hp hpos hx).1 (Nat.le_add_right _ _)
  have second : (scheme ⟨false, false, _, room⟩ query fun _ _ => .ok false).parseInput 0 .bottom
      Reading.never (y.tokens query) = .ok y [] :=
    (parseInput_tokens hp hpos hy).1 (Nat.le_add_left _ _)
  rw [h, first] at second
  cases second
  rfl

/-- A parser returns a well bracketed tree from its tokens, and leaves none, if the levels of the tree
fit below the depth that it starts at; no other well bracketed tree has these tokens. -/
theorem parse_tokens (hp : PlainTable query) (hpos : Positive query) (hx : Valid query x) :
    (∀ (config : Config) (isFollow : τ → φ → Except (Failure τ φ ε) Bool)
      (s : Session τ φ (Tree τ) ε), s.cursor.items = (x.tokens query).map .token →
      (x.levels query + (s.depth + charge s.depth) ≤ config.maxDepth →
        ∃ t, (parser config query isFollow).parse s = .ok x t ∧ t.cursor.items = []) ∧
      (config.maxDepth < x.levels query + (s.depth + charge s.depth) →
        ∃ t, (parser config query isFollow).parse s =
          .error (.report (.nestingTooDeep config.maxDepth none)) t)) ∧
    ∀ y, Valid query y → y.tokens query = x.tokens query → y = x := by
  refine ⟨fun config isFollow s hs => ?_, fun y hy h => eq_of_tokens_eq hp hpos hx hy h⟩
  have hread : Reading.Comes config.maxDepth
      ((scheme config query isFollow).parse s.depth (x.tokens query))
      (x.levels query + (s.depth + charge s.depth) ≤ config.maxDepth) (.ok x []) :=
    Scheme.parse_comes (parseInput_tokens hp hpos hx)
  obtain ⟨built, refused⟩ := (parser_follows config query isFollow).parse.comes rfl hs hread
  exact ⟨built, fun hdeep => refused (Nat.not_le.mpr hdeep)⟩

theorem signs_positive : Positive signs := by
  intro t op h he
  cases h
  revert he
  split
  · exact fun _ => by decide
  · split
    · exact fun _ => by decide
    · split
      · exact fun _ => by decide
      · simp [Operator.extending, Operator.nilfix, Operator.affix, Operator.shape]

theorem signed_valid : Valid signs signed := by
  have leaf_x : Valid signs (leaf 'x') := .leaf rfl rfl
  have leaf_y : Valid signs (leaf 'y') := .leaf rfl rfl
  have leaf_z : Valid signs (leaf 'z') := .leaf rfl rfl
  have negated : Valid signs (unary '-' (leaf 'x')) := .prefixed rfl rfl leaf_x (by decide)
  have product : Valid signs (binary '*' (unary '-' (leaf 'x')) (leaf 'y')) :=
    .infixed rfl rfl negated leaf_y (by decide) (by decide)
  have marked : Valid signs (unary '!' (leaf 'z')) := .postfixed rfl rfl leaf_z (by decide)
  exact .infixed rfl rfl product marked (by decide) (by decide)

theorem parse_tokens_signs :
    PlainTable signs ∧ Positive signs ∧ Valid signs signed ∧
    (∃ t, (parser ⟨true, true, 2, by decide⟩ signs fun _ _ => .ok false).parse
      (.start (.ofTokens ['-', 'x', '*', 'y', '-', 'z', '!'])) = .ok signed t ∧
        t.cursor.items = []) ∧
    (∃ t, (parser ⟨true, true, 1, by decide⟩ signs fun _ _ => .ok false).parse
      (.start (.ofTokens ['-', 'x', '*', 'y', '-', 'z', '!'])) =
        .error (.report (.nestingTooDeep 1 none)) t) ∧
    ∀ y, Valid signs y → y.tokens signs = ['-', 'x', '*', 'y', '-', 'z', '!'] → y = signed := by
  refine ⟨signs_plainTable, signs_positive, signed_valid, ?_, ?_, ?_⟩
  · exact ((parse_tokens signs_plainTable signs_positive signed_valid).1 _ _ _ rfl).1 (by decide)
  · exact ((parse_tokens signs_plainTable signs_positive signed_valid).1 _ _ _ rfl).2 (by decide)
  · exact (parse_tokens signs_plainTable signs_positive signed_valid).2

end Tree

end BindingPower
