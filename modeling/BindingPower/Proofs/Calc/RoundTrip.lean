import BindingPower.Proofs.Calc.CalcReading
import BindingPower.Proofs.Calc.Spelling

/-! # Printed expressions are read back

How much room an expression needs, and that its tokens are read as the expression wherever they
stand if there is that much room. A group is read by a run of its own, which needs three levels; an
operand of an operator needs one. Without the room the reading is refused for its depth. -/
namespace BindingPower.Calc

/-- The levels below the one on which the expression is read. -/
def Expr.need : Expr → Nat
  | int _ => 0
  | ident _ => 0
  | unary .abs x => 1 + x.need
  | unary .norm x => 1 + x.need
  | unary .neg x => 4 + x.need
  | unary .not x => 4 + x.need
  | unary .attempt x => 3 + x.need
  | binary _ l r => max (3 + l.need) (4 + r.need)
  | ternary .ifThenElse a b c => 4 + max a.need (max b.need c.need)
  | ternary .binding _ v b => 4 + max v.need b.need

variable {config : Config} {room depth : Nat} {rbp : Precedence} {t u g : Token} {s : String}
  {op : Operator String} {e x : Expr} {ts xs ms rest : List Token}

theorem classify_punct (ht : t.Is (.punct, s)) (hop : markOperator? s = some op) :
    settled (classify t) = .ok op := by
  simp only [classify, operator?, ht.1, ht.2, hop, settled]

theorem classify_keyword (ht : t.Is (.keyword, s)) (hop : wordOperator? s = some op) :
    settled (classify t) = .ok op := by
  simp only [classify, operator?, ht.1, ht.2, hop, settled]

theorem classify_operand (hp : t.kind ≠ .punct) (hk : t.kind ≠ .keyword) :
    settled (classify t) = .ok .nilfix := by
  unfold classify operator?
  split <;> simp_all [settled]

/-- The reader of a level where no token is out of reach. -/
abbrev readerAt (config : Config) (room depth : Nat) : Reader Token String Expr Fault :=
  (scheme config).readerIn room depth Reading.never

/-- A separator in a row of operands, or a closing mark. -/
def Separates (t : Token) (mark : String) : Prop :=
  ∃ op, settled (classify t) = .ok op ∧ op.affix.isSeparator = true ∧ op.leftPower = .bottom ∧
    isFollow t mark = true

theorem separates_keyword (ht : t.Is (.keyword, s)) (hop : wordOperator? s = some .interfix) :
    Separates t s := by
  refine ⟨_, classify_keyword ht hop, rfl, rfl, ?_⟩
  simp [isFollow, ht.1, ht.2]

theorem separates_bar {k : UnaryKind} (hk : k.fixity = .around) (ht : t.Is (.punct, k.symbol)) :
    Separates t k.symbol := by
  have hfollow : isFollow t k.symbol = true := by simp [isFollow, ht.1, ht.2]
  cases k with
  | abs => exact ⟨_, classify_punct ht rfl, rfl, rfl, hfollow⟩
  | norm => exact ⟨_, classify_punct ht rfl, rfl, rfl, hfollow⟩
  | _ => simp [UnaryKind.fixity] at hk

/-- Nothing that continues an expression comes next. -/
def Halts (rest : List Token) : Prop :=
  ∀ t ∈ rest.head?, ∃ op, settled (classify t) = .ok op ∧ op.leftPower = .bottom

theorem halts_nil : Halts [] := by
  intro t ht
  simp at ht

theorem Separates.halts (h : Separates t s) : Halts (t :: rest) := by
  intro u hu
  simp only [List.head?_cons, Option.mem_some_iff] at hu
  obtain ⟨op, hq, -, hb, -⟩ := h
  exact ⟨op, hu ▸ hq, hb⟩

theorem Separates.eaten (h : Separates t s) (config : Config) (room depth : Nat) :
    (readerAt config room depth).eatSeparator (some s) (t :: rest) =
      .ok (some t) rest := by
  obtain ⟨op, hq, hsep, -, hf⟩ := h
  exact Reader.eatSeparator_of_marked rfl (Reading.contained_eq_ok.mpr hq) hsep
    (congrArg Except.ok hf)

theorem Halts.continued {fuel : Nat} {nbp : Precedence} (h : Halts rest) (e : Expr) :
    (readerAt config room depth).continued rbp fuel nbp e rest =
      .ok e rest := by
  cases rest with
  | nil => exact Reader.continued_nil
  | cons t more =>
    obtain ⟨op, hq, hb⟩ := h t rfl
    refine Reader.continued_of_not_admitted rfl (Reading.contained_eq_ok.mpr hq) ?_
    change between rbp op.leftPower nbp = false
    rw [hb]
    simp [between, Precedence.lt_iff, Precedence.bottom]

/-- The tokens are read as the expression, after which its loop goes on, if there is room. -/
def Reads (config : Config) (e : Expr) (ts : List Token) : Prop :=
  ∀ room depth rbp rest, Reading.Comes config.maxDepth
    ((scheme config).operand room depth Reading.never rbp (ts ++ rest)) (e.need < room)
    ((readerAt config (room - 1) depth).continued rbp rest.length .top e rest)

/-- Tokens that are read as the expression on their own, if there is more room than `n`. -/
def Members (config : Config) (e : Expr) (n : Nat) (ms : List Token) : Prop :=
  ∀ room depth, Reading.Comes config.maxDepth
    ((scheme config).operand room depth Reading.never .bottom ms) (n < room) (.ok e [])

theorem Reads.halted (h : Reads config e ts) (hrest : Halts rest) (room depth : Nat)
    (rbp : Precedence) :
    Reading.Comes config.maxDepth ((scheme config).operand room depth Reading.never rbp (ts ++ rest))
      (e.need < room) (.ok e rest) :=
  (h room depth rbp rest).eq (hrest.continued e)

theorem Reads.alone (h : Reads config e ts) (room depth : Nat) (rbp : Precedence) :
    Reading.Comes config.maxDepth ((scheme config).operand room depth Reading.never rbp ts)
      (e.need < room) (.ok e []) := by
  have hread := h.halted halts_nil room depth rbp
  rw [List.append_nil] at hread
  exact hread

/-- A token that is an expression by itself. -/
theorem reads_of_nullary (fits : Nat → Prop) (hq : settled (classify t) = .ok op)
    (ha : op.leading = .nilfix)
    (h : ∀ room depth, Reading.Comes config.maxDepth
      (Reading.answer ((readerAt config room depth).rules.nullary t) rest)
      (fits room) (.ok e rest)) (room depth : Nat) (rbp : Precedence) :
    Reading.Comes config.maxDepth
      ((scheme config).operand room depth Reading.never rbp (t :: rest))
      (0 < room ∧ fits (room - 1))
      ((readerAt config (room - 1) depth).continued rbp rest.length .top e
        rest) := by
  have hnud := Reader.nud_of_nilfix (readerAt config (room - 1) depth) t
    op.leading (by rw [ha]; rfl) (by rw [ha]; rfl)
  have hhead := h (room - 1) depth
  rw [← hnud] at hhead
  have hpower : op.leading.nextPower = .top := by rw [ha]; rfl
  rw [← hpower]
  exact Scheme.operand_of_nud rbp hhead (Reading.contained_eq_ok.mpr hq) rfl

theorem reads_leaf (hq : settled (classify t) = .ok op) (ha : op.leading = .nilfix)
    (hk : t.kind ≠ .group) (hx : settled (readLeaf t) = .ok e) (hneed : e.need = 0) :
    Reads config e [t] := by
  intro room depth rbp rest
  refine (reads_of_nullary (fun _ => True) hq ha (fun room depth => ?_) room depth rbp).iff ?_
  · have hleaf : (readerAt config room depth).rules.nullary t = .ok e := by
      change Reading.contained _ _ (if t.kind = .group then _ else settled (readLeaf t)) = _
      rw [if_neg hk, hx]
      rfl
    rw [hleaf]
    exact .of_eq rfl
  · rw [hneed]
    simp

theorem reads_group {n : Nat} (hg : g.kind = .group) (hm : Members config e n g.children)
    (hneed : e.need = 3 + n) : Reads config e [g] := by
  intro room depth rbp rest
  have hq : settled (classify g) = .ok .nilfix :=
    classify_operand (by rw [hg]; decide) (by rw [hg]; decide)
  refine (reads_of_nullary (fun room => n < room - reentryCost) hq rfl (fun room depth => ?_) room
    depth rbp).iff ?_
  · have hinner := hm (room - reentryCost) (depth + 1 + reentryCost)
    have hrule : (readerAt config room depth).rules.nullary g =
        Reading.contained config.maxDepth (depth + 1) (ofGroup ((scheme config).operand
          (room - reentryCost) (depth + 1 + reentryCost) Reading.never .bottom g.children)) := by
      change Reading.contained _ _ (if g.kind = .group then _ else _) = _
      rw [if_pos hg]
    rw [hrule]
    refine ⟨fun hfits => ?_, fun hn => ?_⟩
    · rw [hinner.1 hfits]
      rfl
    · obtain ⟨left, he⟩ := hinner.2 hn
      rw [he]
      exact ⟨rest, rfl⟩
  · rw [hneed, reentryCost]
    omega

theorem unary_rule (k : UnaryKind) (ht : t.Is (.punct, k.symbol)) (x : Expr) (depth : Nat)
    (inner : Precedence → Reading Token String Fault Expr) :
    (rules config depth inner).unary t x = .ok (.unary k x) := by
  have hkind : unaryKind? t.lexeme = some k := by
    rw [ht.2]
    cases k <;> rfl
  have hbuild : buildUnary t x = .value (.unary k x) := by
    simp only [buildUnary, hkind]
  change Reading.contained _ _ (settled (buildUnary t x)) = _
  rw [hbuild]
  rfl

theorem binary_rule (k : BinaryKind) (ht : t.Is k.word) (l r : Expr) (depth : Nat)
    (inner : Precedence → Reading Token String Fault Expr) :
    (rules config depth inner).binary t l r = .ok (.binary k l r) := by
  have hkind : binaryKind? t.lexeme = some k := by
    rw [ht.2]
    cases k <;> rfl
  have hbuild : buildBinary t l r = .value (.binary k l r) := by
    simp only [buildBinary, hkind]
  change Reading.contained _ _ (settled (buildBinary t l r)) = _
  rw [hbuild]
  rfl

/-- Bars around an expression: the closing bar ends the expression between them. -/
theorem reads_around {k : UnaryKind} (hk : k.fixity = .around) (ht : t.Is (.punct, k.symbol))
    (hu : u.Is (.punct, k.symbol)) (hx : Reads config x xs)
    (hneed : (Expr.unary k x).need = 1 + x.need) :
    Reads config (.unary k x) (t :: (xs ++ [u])) := by
  intro room depth rbp rest
  have hclosing := separates_bar hk hu
  have hop : ∃ op : Operator String, settled (classify t) = .ok op ∧
      op = .circumfix Level.none.precedence k.symbol := by
    cases k with
    | abs => exact ⟨_, classify_punct ht rfl, rfl⟩
    | norm => exact ⟨_, classify_punct ht rfl, rfl⟩
    | _ => simp [UnaryKind.fixity] at hk
  obtain ⟨op, hq, rfl⟩ := hop
  have hinner : Reading.Comes config.maxDepth
      ((readerAt config (room - 1) depth).operand
        (Operator.circumfix Level.none.precedence k.symbol).operandPower (xs ++ u :: rest))
      (x.need < room - 1) (.ok x (u :: rest)) := hx.halted hclosing.halts _ _ _
  have hnud : Reading.Comes config.maxDepth
      ((readerAt config (room - 1) depth).nud t
        (Operator.circumfix Level.none.precedence k.symbol).leading (xs ++ u :: rest))
      (x.need < room - 1) (.ok (.unary k x) rest) := by
    rw [Reader.nud_of_circumfix _ _ _ rfl rfl]
    refine hinner.bind.eq ?_
    refine (bind_of_ok (hclosing.eaten config (room - 1) depth) _).trans ?_
    exact Reader.answer_of_ok (unary_rule k ht x _ _)
  rw [List.cons_append, List.append_assoc, List.singleton_append]
  refine (Scheme.operand_of_nud rbp hnud (Reading.contained_eq_ok.mpr hq) rfl).iff ?_
  rw [hneed]
  omega

theorem members_before {k : UnaryKind} (hk : k.fixity = .before) (ht : t.Is (.punct, k.symbol))
    (hx : Reads config x xs) : Members config (.unary k x) (1 + x.need) (t :: xs) := by
  intro room depth
  have hop : ∃ op : Operator String, settled (classify t) = .ok op ∧
      op.leading = .prefixed Level.unary.precedence := by
    cases k with
    | neg => exact ⟨_, classify_punct ht rfl, rfl⟩
    | not => exact ⟨_, classify_punct ht rfl, rfl⟩
    | _ => simp [UnaryKind.fixity] at hk
  obtain ⟨op, hq, hleading⟩ := hop
  have hinner : Reading.Comes config.maxDepth
      ((readerAt config (room - 1) depth).operand
        (Operator.prefixed (φ := String) Level.unary.precedence).operandPower xs)
      (x.need < room - 1) (.ok x []) := hx.alone _ _ _
  have hnud : Reading.Comes config.maxDepth
      ((readerAt config (room - 1) depth).nud t op.leading xs)
      (x.need < room - 1) (.ok (.unary k x) []) := by
    rw [hleading, Reader.nud_of_prefixed _ _ _ rfl rfl]
    exact hinner.bind.eq (Reader.answer_of_ok (unary_rule k ht x _ _))
  refine ((Scheme.operand_of_nud .bottom hnud (Reading.contained_eq_ok.mpr hq) rfl).eq
    Reader.continued_nil).iff ?_
  omega

theorem members_behind {k : UnaryKind} (hk : k.fixity = .behind) (ht : t.Is (.punct, k.symbol))
    (hx : Reads config x xs) : Members config (.unary k x) x.need (xs ++ [t]) := by
  intro room depth
  have hq : settled (classify t) = .ok (.postfixed Level.postfixed.precedence) := by
    cases k with
    | attempt => exact classify_punct ht rfl
    | _ => simp [UnaryKind.fixity] at hk
  have hled : Reading.Comes config.maxDepth
      ((readerAt config (room - 1) depth).led t
        (Operator.postfixed Level.postfixed.precedence).continuing x [])
      True (.ok (.unary k x) []) := by
    rw [Reader.led_of_postfixed _ _ _ _ rfl rfl]
    exact .of_eq (Reader.answer_of_ok (unary_rule k ht x _ _))
  have hadmits : between .bottom (Operator.postfixed (φ := String)
      Level.postfixed.precedence).leftPower .top = true := by decide
  refine (((hx room depth .bottom [t]).trans (Reader.continued_comes rfl
    (Reading.contained_eq_ok.mpr hq) hadmits hled)).eq Reader.continued_nil).iff ?_
  simp

/-- Every operator between two operands is admitted at the start of a group. -/
theorem classify_binary (k : BinaryKind) (ht : t.Is k.word) :
    ∃ (op : Operator String) (p : Precedence) (a : Associativity), settled (classify t) = .ok op ∧
      op.continuing = .infixed p a ∧ between .bottom op.leftPower .top = true := by
  cases k with
  | mod => exact ⟨_, _, _, classify_keyword ht rfl, rfl, by decide⟩
  | _ => exact ⟨_, _, _, classify_punct ht rfl, rfl, by decide⟩

theorem members_binary {k : BinaryKind} {l r : Expr} {ls rs : List Token} (ht : t.Is k.word)
    (hl : Reads config l ls) (hr : Reads config r rs) :
    Members config (.binary k l r) (max l.need (1 + r.need)) (ls ++ t :: rs) := by
  intro room depth
  obtain ⟨op, p, a, hq, hcontinuing, hadmits⟩ := classify_binary k ht
  have hinner : Reading.Comes config.maxDepth
      ((readerAt config (room - 1) depth).operand (Operator.infixed (φ := String) p a).rightPower rs)
      (r.need < room - 1) (.ok r []) := hr.alone _ _ _
  have hled : Reading.Comes config.maxDepth
      ((readerAt config (room - 1) depth).led t op.continuing l rs)
      (r.need < room - 1) (.ok (.binary k l r) []) := by
    rw [hcontinuing, Reader.led_of_infixed _ _ _ _ rfl rfl]
    exact hinner.bind.eq (Reader.answer_of_ok (binary_rule k ht l r _ _))
  refine (((hl room depth .bottom (t :: rs)).trans (Reader.continued_comes rfl
    (Reading.contained_eq_ok.mpr hq) hadmits hled)).eq Reader.continued_nil).iff ?_
  omega

theorem members_conditional {a b c : Expr} {as bs cs : List Token} {v : Token}
    (ht : t.Is (.keyword, "if")) (ha : Reads config a as) (hu : u.Is (.keyword, "then"))
    (hb : Reads config b bs) (hv : v.Is (.keyword, "else")) (hc : Reads config c cs) :
    Members config (.ternary .ifThenElse a b c) (1 + max a.need (max b.need c.need))
      (t :: (as ++ u :: (bs ++ v :: cs))) := by
  intro room depth
  have hq : settled (classify t) =
      .ok (.mixfix .prefixed Level.conditional.precedence ["then", "else"] .left) :=
    classify_keyword ht rfl
  have hthen := separates_keyword hu rfl
  have helse := separates_keyword hv rfl
  have hbuild (depth : Nat) (inner : Precedence → Reading Token String Fault Expr) :
      (rules config depth inner).ternary t a b c = .ok (.ternary .ifThenElse a b c) := by
    change Reading.contained _ _ (settled (buildTernary t a b c)) = _
    rw [buildTernary, ht.2]
    rfl
  have first : Reading.Comes config.maxDepth ((readerAt config (room - 1) depth).operand .bottom
      (as ++ u :: (bs ++ v :: cs))) (a.need < room - 1) (.ok a (u :: (bs ++ v :: cs))) :=
    ha.halted hthen.halts _ _ _
  have second : Reading.Comes config.maxDepth ((readerAt config (room - 1) depth).operand .bottom
      (bs ++ v :: cs)) (b.need < room - 1) (.ok b (v :: cs)) :=
    hb.halted helse.halts _ _ _
  have third : Reading.Comes config.maxDepth ((readerAt config (room - 1) depth).operand
      (Operator.mixfix .prefixed Level.conditional.precedence ["then", "else"] .left).operandPower cs)
      (c.need < room - 1) (.ok c []) := hc.alone _ _ _
  have hnud : Reading.Comes config.maxDepth ((readerAt config (room - 1) depth).nud t
      (Operator.mixfix .prefixed Level.conditional.precedence ["then", "else"] .left).leading
      (as ++ u :: (bs ++ v :: cs)))
      (a.need < room - 1 ∧ b.need < room - 1 ∧ c.need < room - 1)
      (.ok (.ternary .ifThenElse a b c) []) := by
    rw [Reader.nud_of_mixfix _ _ _ rfl rfl]
    refine (first.bind.eq (bind_of_ok (hthen.eaten config (room - 1) depth) _)).trans ?_
    refine (second.bind.eq (bind_of_ok (helse.eaten config (room - 1) depth) _)).trans ?_
    exact third.bind.eq (Reader.answer_of_ok (hbuild _ _))
  refine ((Scheme.operand_of_nud .bottom hnud (Reading.contained_eq_ok.mpr hq) rfl).eq
    Reader.continued_nil).iff ?_
  omega

theorem members_binding {a b c : Expr} {as bs cs : List Token} (ha : Reads config a as)
    (hname : ∃ s, a = .ident s) (ht : t.Is (.punct, ":=")) (hb : Reads config b bs)
    (hu : u.Is (.keyword, "in")) (hc : Reads config c cs) :
    Members config (.ternary .binding a b c) (1 + max b.need c.need)
      (as ++ t :: (bs ++ u :: cs)) := by
  intro room depth
  have hq : settled (classify t) =
      .ok (.mixfix .postfixed Level.conditional.precedence ["in"] .right) := classify_punct ht rfl
  have hin := separates_keyword hu rfl
  have hbuild (depth : Nat) (inner : Precedence → Reading Token String Fault Expr) :
      (rules config depth inner).ternary t a b c = .ok (.ternary .binding a b c) := by
    obtain ⟨s, rfl⟩ := hname
    change Reading.contained _ _ (settled (buildTernary t _ b c)) = _
    rw [buildTernary, ht.2]
    rfl
  have second : Reading.Comes config.maxDepth ((readerAt config (room - 1) depth).operand .bottom
      (bs ++ u :: cs)) (b.need < room - 1) (.ok b (u :: cs)) := hb.halted hin.halts _ _ _
  have third : Reading.Comes config.maxDepth ((readerAt config (room - 1) depth).operand
      (Operator.mixfix .postfixed Level.conditional.precedence ["in"] .right).rightPower cs)
      (c.need < room - 1) (.ok c []) := hc.alone _ _ _
  have hled : Reading.Comes config.maxDepth ((readerAt config (room - 1) depth).led t
      (Operator.mixfix .postfixed Level.conditional.precedence ["in"] .right).continuing a
      (bs ++ u :: cs)) (b.need < room - 1 ∧ c.need < room - 1)
      (.ok (.ternary .binding a b c) []) := by
    rw [Reader.led_of_mixfix _ _ _ _ rfl rfl]
    refine (second.bind.eq (bind_of_ok (hin.eaten config (room - 1) depth) _)).trans ?_
    exact third.bind.eq (Reader.answer_of_ok (hbuild _ _))
  have hadmits : between .bottom (Operator.mixfix .postfixed Level.conditional.precedence ["in"]
      .right).leftPower .top = true := by decide
  refine (((ha room depth .bottom (t :: (bs ++ u :: cs))).trans (Reader.continued_comes rfl
    (Reading.contained_eq_ok.mpr hq) hadmits hled)).eq Reader.continued_nil).iff ?_
  obtain ⟨s, rfl⟩ := hname
  simp only [Expr.need]
  omega

theorem reads_int {n : Int} (hn : (Expr.int n).WellFormed) (ht : t.Is (.literal, toString n)) :
    Reads config (.int n) [t] := by
  obtain ⟨m, rfl⟩ := Int.eq_ofNat_of_zero_le hn.1
  have hkind : t.kind = .literal := ht.1
  have hread : Text.Numeral.read t.lexeme = .ok (m : Int) := by
    rw [ht.2]
    exact Text.Numeral.read_repr hn.2
  have hleaf : settled (readLeaf t) = .ok (.int m) := by
    simp only [readLeaf, hkind, hread, settled]
  exact reads_leaf (classify_operand (by rw [hkind]; decide) (by rw [hkind]; decide)) rfl
    (by rw [hkind]; decide) hleaf rfl

theorem reads_ident (hs : (Expr.ident s).WellFormed) (ht : t.Is (nameKind s, s)) :
    Reads config (.ident s) [t] := by
  by_cases hk : s ∈ keywords
  · obtain rfl := hs.2 hk
    have hkind : t.kind = .keyword := ht.1
    have hleaf : settled (readLeaf t) = .ok (.ident "mod") := by
      simp only [readLeaf, hkind, ht.2, settled]
    exact reads_leaf (classify_keyword ht rfl) rfl (by rw [hkind]; decide) hleaf rfl
  · have hkind : t.kind = .ident := ht.1.trans (if_neg hk)
    have hleaf : settled (readLeaf t) = .ok (.ident s) := by
      simp only [readLeaf, hkind, ht.2, settled]
    exact reads_leaf (classify_operand (by rw [hkind]; decide) (by rw [hkind]; decide)) rfl
      (by rw [hkind]; decide) hleaf rfl

/-- Tokens that spell an expression are read as that expression. -/
theorem reads_of_spells (he : e.WellFormed) (h : Spells e ts) : Reads config e ts := by
  induction h with
  | int ht => exact reads_int he ht
  | ident ht => exact reads_ident he ht
  | @before k x _ _ _ hk ht _ hg hc ih =>
    have hneed : (Expr.unary k x).need = 3 + (1 + x.need) := by
      cases k with
      | neg => simp only [Expr.need]; omega
      | not => simp only [Expr.need]; omega
      | _ => simp [UnaryKind.fixity] at hk
    exact reads_group hg (hc ▸ members_before hk ht (ih he)) hneed
  | @behind k x _ _ _ hk ht _ hg hc ih =>
    have hneed : (Expr.unary k x).need = 3 + x.need := by
      cases k with
      | attempt => rfl
      | _ => simp [UnaryKind.fixity] at hk
    exact reads_group hg (hc ▸ members_behind hk ht (ih he)) hneed
  | @around k x _ _ _ hk ht _ hu ih =>
    have hneed : (Expr.unary k x).need = 1 + x.need := by
      cases k with
      | abs => rfl
      | norm => rfl
      | _ => simp [UnaryKind.fixity] at hk
    exact reads_around hk ht hu (ih he) hneed
  | binary _ ht _ hg hc ihl ihr =>
    exact reads_group hg (hc ▸ members_binary ht (ihl he.1) (ihr he.2))
      (by simp only [Expr.need]; omega)
  | conditional ht _ hu _ hv _ hg hm iha ihb ihc =>
    exact reads_group hg (hm ▸ members_conditional ht (iha he.1) hu (ihb he.2.1) hv (ihc he.2.2))
      (by simp only [Expr.need]; omega)
  | binding _ ht _ hu _ hg hm iha ihb ihc =>
    exact reads_group hg (hm ▸ members_binding (iha he.2.1) he.1 ht (ihb he.2.2.1) hu (ihc he.2.2.2))
      (by simp only [Expr.need]; omega)

/-- The printed source of an expression is read back as that expression if it needs less room than
the configuration has, and is refused for its depth otherwise. -/
theorem parseString_toSource (e : Expr) (he : e.WellFormed) (file : String) (config : Config) :
    (e.need < config.maxDepth → parseString e.toSource file config = .ok e) ∧
    (config.maxDepth ≤ e.need → parseString e.toSource file config =
      .error (.parser (.report (.nestingTooDeep config.maxDepth none)))) := by
  obtain ⟨ts, hts, htokens⟩ := tokenize_toSource file e he
  have hread : Reading.Comes config.maxDepth ((scheme config).parse 0 ts)
      (e.need < config.maxDepth) (.ok e []) :=
    Scheme.parse_comes ((reads_of_spells he hts).alone _ _ _)
  have hitems : (Session.start (Cursor.ofTokens ts) : Session Token String Expr Fault).cursor.items =
      ts.map .token := rfl
  obtain ⟨built, refused⟩ := (parser_follows config).parse.comes rfl hitems hread
  refine ⟨fun hfits => ?_, fun hdeep => ?_⟩
  · obtain ⟨t, ht, -⟩ := built hfits
    simp only [parseString, htokens, parseTokens, Parser.parseTokens, ht]
  · obtain ⟨t, ht⟩ := refused (Nat.not_lt.mpr hdeep)
    simp only [parseString, htokens, parseTokens, Parser.parseTokens, ht]

/-- The remainder of a name that is a keyword as well, between bars. -/
def barred : Expr := .unary .abs (.binary .mod (.ident "mod") (.int 7))

theorem parseString_toSource_barred :
    barred.WellFormed ∧ barred.toSource = "| (mod mod 7) |" ∧ barred.need = 5 ∧
      parseString barred.toSource "<string>" ⟨true, true, 6, by decide⟩ = .ok barred ∧
      parseString barred.toSource "<string>" ⟨true, true, 5, by decide⟩ =
        .error (.parser (.report (.nestingTooDeep 5 none))) := by
  have hname : (Expr.ident "mod").WellFormed := ⟨by decide, fun _ => rfl⟩
  have hnumber : (Expr.int 7).WellFormed := ⟨by decide, by decide⟩
  have hbarred : barred.WellFormed := ⟨hname, hnumber⟩
  refine ⟨hbarred, by decide, by decide, ?_, ?_⟩
  · exact (parseString_toSource barred hbarred "<string>" ⟨true, true, 6, by decide⟩).1 (by decide)
  · exact (parseString_toSource barred hbarred "<string>" ⟨true, true, 5, by decide⟩).2 (by decide)

end BindingPower.Calc
