import BindingPower.Proofs.Calc.CalcReading
import BindingPower.Proofs.Roles
import BindingPower.Proofs.Steps

/-! # Equations in a row

An equation does not take another one as its left operand, unless that ends an operand which the
equation cannot tell from a closed one: the body of a binding, or the last branch of a conditional
that starts with its mark. In front of every other operand the level of the equation is remembered
by the loop, or lies below the floor of that operand. -/
namespace BindingPower.Calc

namespace Expr

/-- Whether there is an equation on the right edge, which goes on through the last part of a ternary
if `through` says so. -/
def endsInEqual (through : Bool) : Expr → Bool
  | int _ => false
  | ident _ => false
  | unary k x => decide (k.fixity = .before) && x.endsInEqual through
  | binary k _ r => decide (k = .eq) || r.endsInEqual through
  | ternary _ _ _ c => through && c.endsInEqual through

/-- No equation has another one on the right edge of its left operand. -/
def unchained (through : Bool) : Expr → Bool
  | int _ => true
  | ident _ => true
  | unary _ x => x.unchained through
  | binary k l r =>
    !(decide (k = .eq) && l.endsInEqual through) && l.unchained through && r.unchained through
  | ternary _ a b c => a.unchained through && b.unchained through && c.unchained through

end Expr

/-! ## Texts without parentheses -/

theorem lexemeAt?_front {cs word : List Char} {kind : Kind} (h : lexemeAt? cs = some (kind, word)) :
    word <+: cs ∧ kind ≠ .group := by
  cases cs with
  | nil => cases h
  | cons c cs =>
    simp only [lexemeAt?] at h
    split at h
    · cases h
      exact ⟨List.cons_prefix_cons.mpr ⟨rfl, List.takeWhile_prefix _⟩, by simp⟩
    · split at h
      · cases h
        refine ⟨List.cons_prefix_cons.mpr ⟨rfl, List.takeWhile_prefix _⟩, ?_⟩
        split <;> simp
      · obtain ⟨m, hm, heq⟩ := Option.map_eq_some_iff.mp h
        cases heq
        have hfront := List.find?_some hm
        exact ⟨List.isPrefixOf_iff_prefix.mp hfront, by simp⟩

theorem skipGap_suffix (inComment : Bool) (p : Position) (cs : List Char) :
    (skipGap inComment p cs).2 <:+ cs := by
  fun_induction skipGap inComment p cs with
  | case1 => exact List.suffix_refl _
  | case2 p c cs ih => exact ih.trans (List.suffix_cons c cs)
  | case3 p c cs _ ih => exact ih.trans (List.suffix_cons c cs)
  | case4 p c cs _ _ ih => exact ih.trans (List.suffix_cons c cs)
  | case5 => exact List.suffix_refl _

/-- What a text is read as has no other characters than the text. -/
theorem scanUpTo_texts (fuel : Nat) (p : Position) (cs : List Char) :
    ∀ l ∈ (scanUpTo fuel p cs).1, l.kind ≠ .group ∧ ∀ c ∈ l.text.toList, c ∈ cs := by
  induction fuel generalizing p cs with
  | zero => simp [scanUpTo]
  | succ fuel ih =>
    have hgap := skipGap_suffix false p cs
    unfold scanUpTo
    split
    · simp
    · rename_i q c rest heq
      rw [heq] at hgap
      split
      · simp
      · rename_i kind word hword
        obtain ⟨hfront, hkind⟩ := lexemeAt?_front hword
        intro l hl
        rcases List.mem_cons.mp hl with rfl | hl
        · refine ⟨hkind, fun d hd => hgap.subset (hfront.subset ?_)⟩
          simpa using hd
        · obtain ⟨hk, hc⟩ := ih _ _ l hl
          exact ⟨hk, fun d hd => hgap.subset (List.mem_of_mem_drop (hc d hd))⟩

theorem build_ungrouped {file : String} {ending : Ending} {ls : List Lexeme} {p : Position}
    {read tokens : List Token} (hl : ∀ l ∈ ls, l.kind ≠ .group ∧ l.text ≠ "(")
    (hr : ∀ t ∈ read, t.kind ≠ .group) (h : build file ending ls [] read = (.ok tokens, p)) :
    ∀ t ∈ tokens, t.kind ≠ .group := by
  induction ls generalizing read with
  | nil =>
    cases ending with
    | invalid c q => cases h
    | finished q =>
      cases h
      simpa using hr
  | cons l more ih =>
    have hhead := hl l List.mem_cons_self
    unfold build at h
    rw [if_neg (fun hopen => hhead.2 hopen.2)] at h
    split at h
    · cases h
    · refine ih (fun l hm => hl l (List.mem_cons_of_mem _ hm)) (fun t ht => ?_) h
      rcases List.mem_cons.mp ht with rfl | ht
      · exact hhead.1
      · exact hr t ht

/-- Only a parenthesis makes a group. -/
theorem tokenize_ungrouped {source file : String} {tokens : List Token}
    (hs : '(' ∉ source.toList) (h : tokenize source file = .ok tokens) :
    ∀ t ∈ tokens, t.kind ≠ .group := by
  have hbuild : build file (scan source.toList).2 (scan source.toList).1 [] [] =
      (.ok tokens, (tokenizeTo source file).2) := Prod.ext h rfl
  refine build_ungrouped (fun l hl => ?_) (fun t ht => by simp at ht) hbuild
  obtain ⟨hk, hc⟩ := scanUpTo_texts _ _ _ l hl
  refine ⟨hk, fun htext => hs (hc '(' ?_)⟩
  rw [htext]
  decide

/-! ## The declared operators -/

/-- The power with which an equation grips its left operand. -/
def equalityPower : Precedence := Level.equality.precedence.normalize

/-- How the operator of a mark or word stands to the level of the equations. -/
structure Placed (s : String) (op : Operator String) : Prop where
  prefixed : op.starting.affix = .prefixed → op.starting.arity = .unary →
    equalityPower.val ≤ op.starting.operandPower.val
  opening : op.starting.affix = .prefixed → op.starting.arity = .ternary → s = "if"
  closed : op.starting.affix = .circumfix ∨ op.extending.affix = .postfixed →
    ∀ k ∈ UnaryKind.all, k.symbol = s → k.fixity ≠ .before
  equation : op.extending.affix = .infixed → op.extending.arity = .binary → s = "=" →
    op.leftPower = equalityPower ∧ op.continuing.nextPower = equalityPower
  tighter : op.extending.affix = .infixed → op.extending.arity = .binary → s ≠ "=" →
    equalityPower.val ≤ op.extending.rightPower.val
  binding : op.extending.affix = .postfixed → op.extending.arity = .ternary → s = ":="
  looser : op.extending.affix = .infixed → op.extending.arity = .ternary →
    op.leftPower.val ≤ equalityPower.val ∧ op.continuing.nextPower.val ≤ equalityPower.val

theorem placed_markOperator {s : String} {op : Operator String} (h : markOperator? s = some op) :
    Placed s op := by
  unfold markOperator? at h
  split at h <;> cases h <;> constructor <;> decide

theorem placed_wordOperator {s : String} {op : Operator String} (h : wordOperator? s = some op) :
    Placed s op := by
  unfold wordOperator? at h
  split at h <;> cases h <;> constructor <;> decide

theorem placed_nilfix (s : String) : Placed s .nilfix where
  prefixed h := by cases h
  opening h := by cases h
  closed h := by rcases h with h | h <;> cases h
  equation h := by cases h
  tighter h := by cases h
  binding h := by cases h
  looser h := by cases h

theorem placed_of_classify {t : Token} {op : Operator String}
    (h : settled (classify t) = .ok op) : Placed t.lexeme op := by
  have hop : operator? t = some op := by
    unfold classify at h
    cases ho : operator? t with
    | some op' =>
      rw [ho] at h
      cases h
      rfl
    | none => rw [ho] at h; cases h
  unfold operator? at hop
  split at hop
  · exact placed_markOperator hop
  · exact placed_wordOperator hop
  · cases hop
    exact placed_nilfix _

/-! ## The nodes that are built -/

section Built

variable {t : Token} {x y l r a b c : Expr}

theorem leaf_of_readLeaf (hk : t.kind ≠ .group) (h : settled (readLeaf t) = .ok y) :
    (∃ n, y = .int n) ∨ ∃ s, y = .ident s := by
  unfold readLeaf at h
  split at h
  · split at h
    · cases h
      exact .inl ⟨_, rfl⟩
    · cases h
  · cases h
    exact .inr ⟨_, rfl⟩
  · cases h
    exact .inr ⟨_, rfl⟩
  · exact absurd ‹_› hk
  · cases h

theorem unary_of_buildUnary (h : settled (buildUnary t x) = .ok y) :
    ∃ k ∈ UnaryKind.all, k.symbol = t.lexeme ∧ y = .unary k x := by
  unfold buildUnary at h
  split at h
  · rename_i k hk
    cases h
    exact ⟨k, List.mem_of_find?_eq_some hk, by simpa using List.find?_some hk, rfl⟩
  · cases h

theorem binary_of_buildBinary (h : settled (buildBinary t l r) = .ok y) :
    ∃ k, k.symbol = t.lexeme ∧ y = .binary k l r := by
  unfold buildBinary at h
  split at h
  · rename_i k hk
    cases h
    exact ⟨k, by simpa using List.find?_some hk, rfl⟩
  · cases h

/-- Whichever order the parts are kept in, the last one stays the last. -/
theorem edge_of_buildTernary (h : settled (buildTernary t a b c) = .ok y) (through : Bool) :
    y.unchained through = (a.unchained through && b.unchained through && c.unchained through) ∧
      y.endsInEqual through = (through && c.endsInEqual through) := by
  unfold buildTernary at h
  split at h
  · cases h
    exact ⟨rfl, rfl⟩
  · cases h
    refine ⟨?_, rfl⟩
    rw [Bool.and_comm (a.unchained through)]
    rfl
  · unfold buildBinding at h
    split at h
    · cases h
      exact ⟨rfl, rfl⟩
    · cases h
  · cases h

end Built

/-! ## What operands and loops keep -/

/-- There are no groups among the tokens, and if the right edge goes on through ternaries, no token
starts one whose last part is read as if it were closed. -/
def Clear (through : Bool) (ts : List Token) : Prop :=
  ∀ t ∈ ts, t.kind ≠ .group ∧ (through = true → t.lexeme ≠ "if" ∧ t.lexeme ≠ ":=")

/-- An operand above the level of the equations does not end in one. -/
structure Settles (through : Bool) (rbp : Precedence) (x : Expr) : Prop where
  unchained : x.unchained through = true
  above : equalityPower.val ≤ rbp.val → x.endsInEqual through = false

/-- Where a loop has an expression that ends in an equation, it admits none. -/
structure Held (through : Bool) (rbp nbp : Precedence) (lhs : Expr) : Prop where
  unchained : lhs.unchained through = true
  limited : lhs.endsInEqual through = true →
    nbp.val ≤ equalityPower.val ∧ rbp.val < equalityPower.val

variable {config : Config} {room depth : Nat} {stop : Token → Bool} {through : Bool}
  {rbp nbp : Precedence} {head t : Token} {op : Operator String} {lhs x : Expr}
  {ts rest : List Token}

theorem Clear.tail (h : Clear through (t :: ts)) : Clear through ts := fun u hu =>
  h u (List.mem_cons_of_mem t hu)

theorem Clear.eaten {r : Reader Token String Expr Fault} {expected : Option String}
    (h : Clear through ts) (he : r.Eats expected ts rest) : Clear through rest := by
  cases he with
  | nothing => exact h
  | plain => exact h.tail
  | marked => exact h.tail

section Steps

variable (below : ∀ ⦃p x ts rest⦄,
  ((scheme config).readerIn room depth stop).operand p ts = .ok x rest →
    Clear through ts → Settles through p x ∧ Clear through rest)

include below

/-- Whatever starts an expression is closed to the equations that follow. -/
theorem closed_of_starts (hq : settled (classify head) = .ok op) (hc : Clear through (head :: ts))
    (h : ((scheme config).readerIn room depth stop).Starts head op.starting x ts rest) :
    x.unchained through = true ∧ x.endsInEqual through = false ∧ Clear through rest := by
  have placed := placed_of_classify hq
  cases h with
  | leaf ha hn hx =>
    have hk := (hc head List.mem_cons_self).1
    have hx := Reading.contained_eq_ok.mp hx
    rw [if_neg hk] at hx
    rcases leaf_of_readLeaf hk hx with ⟨n, rfl⟩ | ⟨s, rfl⟩
    · exact ⟨rfl, rfl, hc.tail⟩
    · exact ⟨rfl, rfl, hc.tail⟩
  | prefixed ha hn h₁ hx =>
    obtain ⟨hs, hrest⟩ := below h₁ hc.tail
    obtain ⟨k, -, -, rfl⟩ := unary_of_buildUnary (Reading.contained_eq_ok.mp hx)
    have hends := hs.above (placed.prefixed ha hn)
    exact ⟨hs.unchained, by simp [Expr.endsInEqual, hends], hrest⟩
  | mixfix ha hn h₁ e₁ h₂ e₂ h₃ hx =>
    obtain ⟨ha', hc₁⟩ := below h₁ hc.tail
    obtain ⟨hb', hc₂⟩ := below h₂ (hc₁.eaten e₁)
    obtain ⟨hc', hrest⟩ := below h₃ (hc₂.eaten e₂)
    obtain ⟨hu, hends⟩ := edge_of_buildTernary (Reading.contained_eq_ok.mp hx) through
    refine ⟨by simp [hu, ha'.unchained, hb'.unchained, hc'.unchained], ?_, hrest⟩
    cases through with
    | false => exact hends
    | true => exact absurd (placed.opening ha hn) ((hc head List.mem_cons_self).2 rfl).1
  | circumfix ha hn h₁ e₁ hx =>
    obtain ⟨hs, hc₁⟩ := below h₁ hc.tail
    obtain ⟨k, hk, hsymbol, rfl⟩ := unary_of_buildUnary (Reading.contained_eq_ok.mp hx)
    have hfixity := placed.closed (.inl ha) k hk hsymbol
    exact ⟨hs.unchained, by simp [Expr.endsInEqual, hfixity], hc₁.eaten e₁⟩

/-- An equation is only admitted where the expression before it does not end in one. -/
theorem held_of_extends (hq : settled (classify t) = .ok op) (hc : Clear through (t :: ts))
    (ha : between rbp op.leftPower nbp = true) (hl : Held through rbp nbp lhs)
    (h : ((scheme config).readerIn room depth stop).Extends t op.extending lhs x ts rest) :
    Held through rbp op.continuing.nextPower x ∧ Clear through rest := by
  have placed := placed_of_classify hq
  simp only [between, Bool.and_eq_true, decide_eq_true_eq, Precedence.lt_iff] at ha
  cases h with
  | postfixed hp _ hx =>
    obtain ⟨k, hk, hsymbol, rfl⟩ := unary_of_buildUnary (Reading.contained_eq_ok.mp hx)
    have hfixity := placed.closed (.inr hp) k hk hsymbol
    exact ⟨⟨hl.unchained, by simp [Expr.endsInEqual, hfixity]⟩, hc.tail⟩
  | infixed hi hn h₁ hx =>
    obtain ⟨hs, hrest⟩ := below h₁ hc.tail
    obtain ⟨k, hsymbol, rfl⟩ := binary_of_buildBinary (Reading.contained_eq_ok.mp hx)
    refine ⟨?_, hrest⟩
    by_cases hk : k = .eq
    · obtain ⟨hleft, hnext⟩ := placed.equation hi hn (by rw [← hsymbol, hk]; rfl)
      rw [hleft] at ha
      -- the guard has let the equation in, which it would not behind another one
      have hends : lhs.endsInEqual through = false := by
        refine Bool.eq_false_iff.mpr fun he => ?_
        have := (hl.limited he).1
        omega
      refine ⟨by simp [Expr.unchained, hends, hl.unchained, hs.unchained], fun _ => ?_⟩
      rw [hnext]
      exact ⟨Nat.le_refl _, ha.1⟩
    · have hne : t.lexeme ≠ "=" := by
        rw [← hsymbol]
        cases k <;> first | exact absurd rfl hk | decide
      have hends := hs.above (placed.tighter hi hn hne)
      exact ⟨by simp [Expr.unchained, hk, hl.unchained, hs.unchained],
        by simp [Expr.endsInEqual, hk, hends]⟩
  | mixfix hm hn h₁ e₁ h₂ hx =>
    obtain ⟨hb, hc₁⟩ := below h₁ hc.tail
    obtain ⟨hs, hrest⟩ := below h₂ (hc₁.eaten e₁)
    obtain ⟨hu, hends⟩ := edge_of_buildTernary (Reading.contained_eq_ok.mp hx) through
    refine ⟨⟨by simp [hu, hl.unchained, hb.unchained, hs.unchained], fun he => ?_⟩, hrest⟩
    rcases hm with hp | hi
    · have hthrough : through = true := by
        rw [hends] at he
        simp only [Bool.and_eq_true] at he
        exact he.1
      -- only a binding has its body grip as if it were closed, and there is none
      exact absurd (placed.binding hp hn) ((hc t List.mem_cons_self).2 hthrough).2
    · obtain ⟨hleft, hnext⟩ := placed.looser hi hn
      exact ⟨hnext, by omega⟩

theorem settles_of_continues (hc : Clear through ts) (hl : Held through rbp nbp lhs)
    (h : ((scheme config).readerIn room depth stop).Continues rbp nbp lhs ts x rest) :
    Settles through rbp x ∧ Clear through rest := by
  induction h with
  | stop =>
    refine ⟨⟨hl.unchained, fun hlow => ?_⟩, hc⟩
    refine Bool.eq_false_iff.mpr fun he => ?_
    have := (hl.limited he).2
    omega
  | step _ hq ha h₁ _ ih =>
    obtain ⟨hmid, hclear⟩ := held_of_extends below (Reading.contained_eq_ok.mp hq) hc ha hl h₁
    exact ih hclear hmid

end Steps

theorem settles_of_operand (hc : Clear through ts)
    (h : (scheme config).operand room depth stop rbp ts = .ok x rest) :
    Settles through rbp x ∧ Clear through rest := by
  refine Scheme.operand_induction (P := fun rbp ts x rest =>
    Clear through ts → Settles through rbp x ∧ Clear through rest) ?_ h hc
  intro room depth below rbp head op mid x ts ts₁ rest hq h₁ h₂ hc
  obtain ⟨hu, hends, hclear⟩ := closed_of_starts below (Reading.contained_eq_ok.mp hq) hc h₁
  exact settles_of_continues below hclear ⟨hu, by simp [hends]⟩ h₂

/-- In the tree of a text without parentheses no equation has another one on the right edge of its
left operand, up to the last part of a ternary; and beyond that part too if the text has neither a
conditional that starts with its mark nor a binding. -/
theorem parseString_unchained {source file : String} {config : Config} {e : Expr}
    (hs : '(' ∉ source.toList) (h : parseString source file config = .ok e) :
    e.unchained false = true ∧
      ((∀ tokens, tokenize source file = .ok tokens →
        ∀ t ∈ tokens, t.lexeme ≠ "if" ∧ t.lexeme ≠ ":=") → e.unchained true = true) := by
  unfold parseString at h
  split at h
  · cases h
  · rename_i tokens htokens
    split at h
    · rename_i e' s hrun
      cases h
      have hgroups := tokenize_ungrouped hs htokens
      obtain ⟨rest, hread, -⟩ := (parser_follows config).parse.ok rfl
        (s := .start (.ofTokens tokens)) rfl hrun
      obtain ⟨room, d, p, ho⟩ := Scheme.parse_ok hread
      refine ⟨(settles_of_operand (fun t ht => ⟨hgroups t ht, by simp⟩) ho).1.unchained,
        fun hfree => ?_⟩
      have hclear : Clear true tokens := fun t ht =>
        ⟨hgroups t ht, fun _ => hfree tokens htokens t ht⟩
      exact (settles_of_operand hclear ho).1.unchained
    · cases h

theorem eq_ok_of_toOption {ε α : Type} {r : Except ε α} {a : α} (h : r.toOption = some a) :
    r = .ok a := by
  cases r with
  | ok b => exact congrArg Except.ok (Option.some.inj h)
  | error e => cases h

theorem parseString_unchained_when :
    ∃ e, '(' ∉ "x when a = b else -c = d".toList ∧
      parseString "x when a = b else -c = d" "<string>" ⟨true, true, 4, by decide⟩ = .ok e ∧
      (∀ tokens, tokenize "x when a = b else -c = d" "<string>" = .ok tokens →
        ∀ t ∈ tokens, t.lexeme ≠ "if" ∧ t.lexeme ≠ ":=") ∧ e.unchained true = true := by
  have hs : '(' ∉ "x when a = b else -c = d".toList := by decide
  have hread : (parseString "x when a = b else -c = d" "<string>"
      ⟨true, true, 4, by decide⟩).toOption =
        some (.ternary .ifThenElse (.binary .eq (.ident "a") (.ident "b")) (.ident "x")
          (.binary .eq (.unary .neg (.ident "c")) (.ident "d"))) := by
    decide +kernel
  have hfree : ∀ tokens, tokenize "x when a = b else -c = d" "<string>" = .ok tokens →
      ∀ t ∈ tokens, t.lexeme ≠ "if" ∧ t.lexeme ≠ ":=" := by
    intro tokens h
    have hall : (tokenize "x when a = b else -c = d" "<string>").toOption.all (fun ts =>
        ts.all fun t => decide (t.lexeme ≠ "if" ∧ t.lexeme ≠ ":=")) = true := by
      decide +kernel
    rw [h] at hall
    simpa [Except.toOption] using hall
  exact ⟨_, hs, eq_ok_of_toOption hread, hfree,
    (parseString_unchained hs (eq_ok_of_toOption hread)).2 hfree⟩

/-- The last branch of a conditional is left before the second sign of a row, which then continues
the conditional as if that were closed. -/
theorem parseString_chained :
    ∃ e, '(' ∉ "if x then y else a = b = c".toList ∧
      parseString "if x then y else a = b = c" "<string>" ⟨false, true, 200, by decide⟩ = .ok e ∧
      e = .binary .eq (.ternary .ifThenElse (.ident "x") (.ident "y")
        (.binary .eq (.ident "a") (.ident "b"))) (.ident "c") ∧
      e.unchained true = false := by
  have hread : (parseString "if x then y else a = b = c" "<string>"
      ⟨false, true, 200, by decide⟩).toOption =
        some (.binary .eq (.ternary .ifThenElse (.ident "x") (.ident "y")
          (.binary .eq (.ident "a") (.ident "b"))) (.ident "c")) := by
    decide +kernel
  exact ⟨_, by decide, eq_ok_of_toOption hread, rfl, by decide⟩

end BindingPower.Calc
