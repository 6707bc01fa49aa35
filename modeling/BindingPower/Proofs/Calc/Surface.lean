import BindingPower.CommandLine.Answer
import BindingPower.Proofs.Calc.Forms
import BindingPower.Proofs.Calc.RoundTrip
import BindingPower.Proofs.Contract

/-! # What calc texts come to

Every expression that a text is read as is well formed, and every well-formed expression is read
from some text. The other texts are refused for one of a few reasons: every operator of the grammar
knows how to build its node, and no operator is used where its node could not be built. -/
namespace BindingPower.Calc

/-- The token stands among the tokens or inside a group of them. -/
inductive Occurs (tokens : List Token) : Token → Prop where
  | top {t : Token} (h : t ∈ tokens) : Occurs tokens t
  | member {g t : Token} (hg : Occurs tokens g) (hk : g.kind = .group) (h : t ∈ g.children) :
    Occurs tokens t

/-- The failures that a text may be refused with, once it has been split into tokens. -/
inductive Foreseen (config : Config) (tokens : List Token) : Failure → Prop where
  | emptyInput : Foreseen config tokens (.report .emptyInput)
  | infixed (t : Token) : Foreseen config tokens (.report (.misfit .infixed t))
  | postfixed (t : Token) : Foreseen config tokens (.report (.misfit .postfixed t))
  | interfix (t : Token) : Foreseen config tokens (.report (.misfit .interfix t))
  | nestingTooDeep : Foreseen config tokens (.report (.nestingTooDeep config.maxDepth none))
  | missingInterfix (h : config.strictInterfix = true) (mark : String) (found : Option Token) :
    Foreseen config tokens (.report (.missingInterfix (some mark) found))
  | trailingInput {t : Token} (h : config.requireEnd = true ∨
      ∃ g, Occurs tokens g ∧ g.kind = .group ∧ t ∈ g.children) :
    Foreseen config tokens (.report (.trailingInput t))
  | numeral {t : Token} {e : Text.NumeralError} (ht : Occurs tokens t) (hk : t.kind = .literal)
    (h : Text.Numeral.read t.lexeme = .error e) :
    Foreseen config tokens (.report (.userError (.fault (.numeral e))))
  | unboundTarget {t : Token} (ht : Occurs tokens t) (h : t.Is (.punct, ":=")) :
    Foreseen config tokens (.report (.userError (.fault (.grammar .unboundTarget))))

variable {config : Config} {tokens : List Token}

/-- What stands inside of well-formed tokens is well formed. -/
theorem Occurs.formed {t : Token} (h : Occurs tokens t) (hf : ∀ t ∈ tokens, t.WellFormed) :
    t.WellFormed := by
  induction h with
  | top h => exact hf _ h
  | member _ hk h ih =>
    cases ih with
    | single hw _ =>
      simp only [Token.kind] at hk
      subst hk
      exact hw.elim
    | group hall => exact hall _ h

/-- A foreseen failure is a report, and so no callback changes it. -/
theorem Foreseen.contained {f : Failure} (h : Foreseen config tokens f) (limit depth : Nat) :
    contain limit depth f = f := by
  cases h <;> rfl

theorem Foreseen.report {f : Failure} (h : Foreseen config tokens f) : ∃ r, f = .report r := by
  cases h <;> exact ⟨_, rfl⟩

section Rules

variable {depth : Nat} {inner : Precedence → Reading Token String Fault Expr} {t : Token}
  {x y z : Expr}

theorem unary_meets {k : UnaryKind} (h : unaryKind? t.lexeme = some k) (hx : x.WellFormed) :
    Meets (Foreseen config tokens) Expr.WellFormed ((rules config depth inner).unary t x) := by
  change Meets _ _ (Reading.contained _ _ (settled (buildUnary t x)))
  rw [buildUnary, h]
  exact hx

theorem binary_meets {k : BinaryKind} (h : binaryKind? t.lexeme = some k) (hx : x.WellFormed)
    (hy : y.WellFormed) :
    Meets (Foreseen config tokens) Expr.WellFormed ((rules config depth inner).binary t x y) := by
  change Meets _ _ (Reading.contained _ _ (settled (buildBinary t x y)))
  rw [buildBinary, h]
  exact ⟨hx, hy⟩

theorem ternary_meets (ht : Occurs tokens t)
    (h : t.lexeme = "if" ∨ t.lexeme = "when" ∨ t.Is (.punct, ":=")) (hx : x.WellFormed)
    (hy : y.WellFormed) (hz : z.WellFormed) :
    Meets (Foreseen config tokens) Expr.WellFormed
      ((rules config depth inner).ternary t x y z) := by
  change Meets _ _ (Reading.contained _ _ (settled (buildTernary t x y z)))
  unfold buildTernary
  rcases h with h | h | h
  · rw [h]
    exact ⟨hx, hy, hz⟩
  · rw [h]
    exact ⟨hy, hx, hz⟩
  · rw [h.2]
    cases x with
    | ident s => exact ⟨⟨s, rfl⟩, hx, hy, hz⟩
    | _ => exact .unboundTarget ht h

theorem numeral_meets (ht : Occurs tokens t) (hk : t.kind = .literal)
    (hs : isNumeral t.lexeme = true) :
    Meets (Foreseen config tokens) Expr.WellFormed ((rules config depth inner).nullary t) := by
  have hleaf : (rules config depth inner).nullary t =
      Reading.contained config.maxDepth depth (settled (readLeaf t)) := by
    simp only [rules, hk]
    rfl
  rw [hleaf, readLeaf, hk]
  cases hread : Text.Numeral.read t.lexeme with
  | error e => exact .numeral ht hk hread
  | ok n =>
    unfold isNumeral at hs
    split at hs
    · cases hs
    · rename_i c cs htext
      exact Text.Numeral.read_natural htext (Bool.and_eq_true_iff.mp hs).1 hread

theorem name_meets (hk : t.kind = .ident ∨ t.kind = .keyword)
    (hx : (Expr.ident t.lexeme).WellFormed) :
    Meets (Foreseen config tokens) Expr.WellFormed ((rules config depth inner).nullary t) := by
  have hleaf : (rules config depth inner).nullary t = .ok (.ident t.lexeme) := by
    rcases hk with hk | hk
    · simp only [rules, hk, readLeaf]
      rfl
    · simp only [rules, hk, readLeaf]
      rfl
  rw [hleaf]
  exact hx

/-- A group is what its members are read as; what is left of them is refused. -/
theorem group_meets (ht : Occurs tokens t) (hk : t.kind = .group)
    (hi : Reading.Ensures (Occurs tokens) (Foreseen config tokens) Expr.WellFormed
      (inner .bottom)) :
    Meets (Foreseen config tokens) Expr.WellFormed ((rules config depth inner).nullary t) := by
  have hmembers := hi t.children fun u hu => .member ht hk hu
  have hleaf : (rules config depth inner).nullary t =
      Reading.contained config.maxDepth depth (ofGroup (inner .bottom t.children)) := by
    simp only [rules, hk, ↓reduceIte]
  rw [hleaf]
  cases hread : inner .bottom t.children with
  | error f rest =>
    rw [hread] at hmembers
    change Foreseen config tokens (contain _ _ f)
    rwa [hmembers.contained]
  | ok e rest =>
    rw [hread] at hmembers
    cases rest with
    | nil => exact hmembers.1
    | cons u more =>
      exact .trailingInput (.inr ⟨t, ht, hk, hmembers.2.subset List.mem_cons_self⟩)

end Rules

section Operators

variable {inner : Precedence → Reading Token String Fault Expr} {t : Token} {p q : Precedence}
  {a : Associativity}

/-- The operator fits its token in every reader of the scheme. -/
def Suits (config : Config) (tokens : List Token)
    (inner : Precedence → Reading Token String Fault Expr) (t : Token) (op : Operator String) :
    Prop :=
  ∀ depth stop below, ((scheme config).reader depth inner stop below).Fits (Foreseen config tokens)
    Expr.WellFormed t op

/-- A power at the bottom is never admitted. -/
theorem not_between (p q : Precedence) : between p .bottom q ≠ true := by
  simp [between, Precedence.lt_iff, Precedence.bottom]

theorem suits_infixed {k : BinaryKind} (h : binaryKind? t.lexeme = some k) :
    Suits config tokens inner t (.infixed p a) := fun _ _ _ =>
  { leads := .infixed t
    trails := fun _ _ _ _ _ hx hy => binary_meets h hx hy }

theorem suits_prefixed {k : UnaryKind} (h : unaryKind? t.lexeme = some k) :
    Suits config tokens inner t (.prefixed p) := fun _ _ _ =>
  { leads := fun _ hx => unary_meets h hx
    trails := fun rbp nbp hadmits => absurd hadmits (not_between rbp nbp) }

theorem suits_postfixed {k : UnaryKind} (h : unaryKind? t.lexeme = some k) :
    Suits config tokens inner t (.postfixed p) := fun _ _ _ =>
  { leads := .postfixed t
    trails := fun _ _ _ _ hx => unary_meets h hx }

theorem suits_circumfix {k : UnaryKind} {s : String} (h : unaryKind? t.lexeme = some k) :
    Suits config tokens inner t (.circumfix p s) := fun _ _ _ =>
  { leads := fun _ hx => unary_meets h hx
    trails := fun rbp nbp hadmits => absurd hadmits (not_between rbp nbp) }

theorem suits_prefixedOrInfixed {k : UnaryKind} {m : BinaryKind} (hk : unaryKind? t.lexeme = some k)
    (hm : binaryKind? t.lexeme = some m) :
    Suits config tokens inner t (.prefixedOrInfixed p q a) := fun _ _ _ =>
  { leads := fun _ hx => unary_meets hk hx
    trails := fun _ _ _ _ _ hx hy => binary_meets hm hx hy }

theorem suits_interfix : Suits config tokens inner t .interfix := fun _ _ _ =>
  { leads := .interfix t
    trails := fun rbp nbp hadmits => absurd hadmits (not_between rbp nbp) }

theorem suits_nilfix (h : ∀ depth, Meets (Foreseen config tokens) Expr.WellFormed
      ((rules config depth inner).nullary t)) :
    Suits config tokens inner t .nilfix := fun depth _ _ =>
  { leads := h depth
    trails := fun rbp nbp hadmits => absurd hadmits (not_between rbp nbp) }

theorem suits_nilfixOrInfixed {k : BinaryKind} (hk : binaryKind? t.lexeme = some k)
    (h : ∀ depth, Meets (Foreseen config tokens) Expr.WellFormed
      ((rules config depth inner).nullary t)) :
    Suits config tokens inner t (.nilfixOrInfixed q a) := fun depth _ _ =>
  { leads := h depth
    trails := fun _ _ _ _ _ hx hy => binary_meets hk hx hy }

theorem suits_punct {s : String} (ht : Occurs tokens t) (hs : t.Is (.punct, s))
    (hm : s ∈ punctuation) (hp : s ≠ "(" ∧ s ≠ ")") :
    ∃ op, markOperator? s = some op ∧ Suits config tokens inner t op := by
  have unary {k : UnaryKind} (h : unaryKind? s = some k) : unaryKind? t.lexeme = some k := hs.2 ▸ h
  have binary {k : BinaryKind} (h : binaryKind? s = some k) : binaryKind? t.lexeme = some k :=
    hs.2 ▸ h
  simp only [punctuation, List.mem_cons, List.not_mem_nil, or_false] at hm
  rcases hm with rfl | rfl | rfl | rfl | rfl | rfl | rfl | rfl | rfl | rfl | rfl | rfl | rfl
  · exact ⟨_, rfl, suits_circumfix (unary rfl)⟩
  · refine ⟨_, rfl, fun _ _ _ => ⟨.postfixed t, fun _ _ _ x y z hx hy hz => ?_⟩⟩
    exact ternary_meets ht (.inr (.inr hs)) hx hy hz
  · exact ⟨_, rfl, suits_infixed (binary rfl)⟩
  · exact ⟨_, rfl, suits_prefixedOrInfixed (unary rfl) (binary rfl)⟩
  · exact ⟨_, rfl, suits_infixed (binary rfl)⟩
  · exact ⟨_, rfl, suits_infixed (binary rfl)⟩
  · exact ⟨_, rfl, suits_infixed (binary rfl)⟩
  · exact ⟨_, rfl, suits_infixed (binary rfl)⟩
  · exact ⟨_, rfl, suits_postfixed (unary rfl)⟩
  · exact ⟨_, rfl, suits_prefixed (unary rfl)⟩
  · exact ⟨_, rfl, suits_circumfix (unary rfl)⟩
  · exact absurd rfl hp.1
  · exact absurd rfl hp.2

theorem suits_keyword {s : String} (ht : Occurs tokens t) (hs : t.Is (.keyword, s))
    (hm : s ∈ keywords) :
    ∃ op, wordOperator? s = some op ∧ Suits config tokens inner t op := by
  simp only [keywords, List.mem_cons, List.not_mem_nil, or_false] at hm
  rcases hm with rfl | rfl | rfl | rfl | rfl | rfl
  · refine ⟨_, rfl, fun _ _ _ => ⟨fun x y z hx hy hz => ternary_meets ht (.inl hs.2) hx hy hz, ?_⟩⟩
    exact fun rbp nbp hadmits => absurd hadmits (not_between rbp nbp)
  · exact ⟨_, rfl, suits_interfix⟩
  · exact ⟨_, rfl, suits_interfix⟩
  · refine ⟨_, rfl, fun _ _ _ => ⟨.infixed t, fun _ _ _ x y z hx hy hz => ?_⟩⟩
    exact ternary_meets ht (.inr (.inl hs.2)) hx hy hz
  · exact ⟨_, rfl, suits_interfix⟩
  · have hname : (Expr.ident t.lexeme).WellFormed := hs.2 ▸ ⟨by decide, fun _ => rfl⟩
    refine ⟨_, rfl, suits_nilfixOrInfixed (by rw [hs.2]; rfl) fun _ => ?_⟩
    exact name_meets (.inr hs.1) hname

/-- Every token of a text has an operator, and that fits the token. -/
theorem operator_suits (ht : Occurs tokens t) (hf : t.WellFormed)
    (hi : Reading.Ensures (Occurs tokens) (Foreseen config tokens) Expr.WellFormed
      (inner .bottom)) :
    ∃ op, operator? t = some op ∧ Suits config tokens inner t op := by
  cases hf with
  | group _ => exact ⟨_, rfl, suits_nilfix fun _ => group_meets ht rfl hi⟩
  | @single k s l hw hp =>
    cases k with
    | group => exact hw.elim
    | literal => exact ⟨_, rfl, suits_nilfix fun _ => numeral_meets ht rfl hw⟩
    | ident =>
      have hname : (Expr.ident s).WellFormed := ⟨hw.1, fun hk => absurd hk hw.2⟩
      exact ⟨_, rfl, suits_nilfix fun _ => name_meets (.inl rfl) hname⟩
    | keyword => exact suits_keyword ht ⟨rfl, rfl⟩ hw
    | punct => exact suits_punct ht ⟨rfl, rfl⟩ hw (hp rfl)

end Operators

theorem scheme_upholds (config : Config) (hf : ∀ t ∈ tokens, t.WellFormed) :
    (scheme config).Upholds (Foreseen config tokens) Expr.WellFormed (Occurs tokens) where
  empty := .emptyInput
  deep := .nestingTooDeep
  trailing hend _ _ := .trailingInput (.inl hend)
  reader depth stop inner below hinner hbelow :=
    { query := fun t ht => by
        obtain ⟨op, hop, hsuits⟩ := operator_suits ht (ht.formed hf) (hinner .bottom)
        have hquery : (rules config depth inner).query t = .ok op := by
          change Reading.contained _ _ (settled (classify t)) = _
          rw [classify, hop]
          rfl
        change Meets _ _ ((rules config depth inner).query t)
        rw [hquery]
        exact hsuits depth stop below
      isFollow := fun _ _ _ => trivial
      missing := fun hstrict mark found _ => .missingInterfix hstrict mark found
      operand := hbelow }

/-- Well-formed tokens are parsed into a well-formed expression or refused as foreseen. -/
theorem parseTokens_meets (config : Config) (hf : ∀ t ∈ tokens, t.WellFormed) :
    Run.Meets (Foreseen config tokens) Expr.WellFormed (parseTokens tokens config) :=
  (parser_follows config).parse.keeps (s := .start (.ofTokens tokens))
    ((scheme_upholds config hf).parse 0) rfl rfl fun _ ht => .top ht

theorem diagnostic_code (e : LexError) :
    e.diagnostic.code = some "L001" ∨ e.diagnostic.code = some "L002" := by
  cases e with
  | invalidCharacter c l => exact .inl rfl
  | unclosedGroup o l => exact .inr rfl
  | unopenedGroup l => exact .inr rfl

/-- The refusals that a text may meet with. -/
inductive Refusal.Expected (config : Config) (source file : String) : Refusal → Prop where
  | lexer {e : LexError} (h : tokenize source file = .error e)
    (hc : e.diagnostic.code = some "L001" ∨ e.diagnostic.code = some "L002") :
    Expected config source file (.lexer e)
  | parser {tokens : List Token} {f : Failure} (h : tokenize source file = .ok tokens)
    (hf : Foreseen config tokens f) : Expected config source file (.parser f)

/-- A text is read as a well-formed expression or refused as expected. -/
theorem parseString_cases (source file : String) (config : Config) :
    (∃ e, parseString source file config = .ok e ∧ e.WellFormed) ∨
      ∃ r, parseString source file config = .error r ∧ r.Expected config source file := by
  unfold parseString
  cases htokens : tokenize source file with
  | error e => exact .inr ⟨_, rfl, .lexer htokens (diagnostic_code e)⟩
  | ok tokens =>
    have hmeets := parseTokens_meets config (tokenize_formed htokens)
    cases hrun : parseTokens tokens config with
    | ok e t =>
      rw [hrun] at hmeets
      exact .inl ⟨e, by simp only [hrun], hmeets⟩
    | error f t =>
      rw [hrun] at hmeets
      exact .inr ⟨.parser f, by simp only [hrun], .parser htokens hmeets⟩

/-- Every well-formed expression is read from its printed source, given enough room. -/
theorem parseString_deep (e : Expr) (he : e.WellFormed) (file : String) :
    parseString e.toSource file ⟨true, true, e.need + 1, Nat.succ_pos _⟩ = .ok e := by
  obtain ⟨tokens, hspells, htokens⟩ := tokenize_toSource file e he
  let config : Config := ⟨true, true, e.need + 1, Nat.succ_pos _⟩
  have hread : Reading.Comes config.maxDepth ((scheme config).parse 0 tokens)
      (e.need < config.maxDepth) (.ok e []) :=
    Scheme.parse_comes ((reads_of_spells he hspells).alone _ _ _)
  obtain ⟨t, ht, -⟩ := ((parser_follows config).parse.comes (s := .start (.ofTokens tokens))
    rfl rfl hread).1 (Nat.lt_succ_self _)
  simp only [parseString, htokens, parseTokens, Parser.parseTokens]
  rw [ht]

/-- The well-formed expressions are those that a text can be read as. -/
theorem wellFormed_iff_parsed (e : Expr) :
    e.WellFormed ↔ ∃ source file config, parseString source file config = .ok e := by
  constructor
  · intro he
    exact ⟨_, "<string>", _, parseString_deep e he "<string>"⟩
  · rintro ⟨source, file, config, h⟩
    rcases parseString_cases source file config with ⟨x, hx, hwell⟩ | ⟨r, hr, -⟩
    · rw [h] at hx
      cases hx
      exact hwell
    · rw [h] at hr
      cases hr

/-- A command line with an expression and a depth is answered, and with the code 0 or 1. -/
theorem answer_of_arguments {argv : List String} {i : CommandLine.Invocation} {depth : Int}
    (hi : CommandLine.readArguments argv = .ok i) (hd : i.settings.maxDepth = some depth)
    (hp : 1 ≤ depth) : ∃ a, CommandLine.answer argv = .ok a ∧ (a.code = 0 ∨ a.code = 1) := by
  obtain ⟨config, hconfig⟩ := Option.isSome_iff_exists.mp
    ((Config.ofDepth?_isSome_iff i.settings.strict i.settings.requireEnd depth).mpr (by omega))
  simp only [CommandLine.answer, hi, CommandLine.Invocation.answer, hd, hconfig]
  cases htokens : tokenize i.expression "<argv>" with
  | error e => exact ⟨_, rfl, .inr rfl⟩
  | ok tokens =>
    have hmeets := parseTokens_meets config (tokenize_formed htokens)
    simp only [CommandLine.Settings.answerTokens]
    cases hrun : parseTokens tokens config with
    | ok e t => exact ⟨_, rfl, .inl rfl⟩
    | error f t =>
      rw [hrun] at hmeets
      obtain ⟨r, rfl⟩ := Foreseen.report hmeets
      exact ⟨_, rfl, .inr rfl⟩

/-- A text is read or refused as expected, and so the program ends with the code 0 or 1 whenever it
is given an expression and a depth. -/
theorem parseString_closed :
    (∀ source file config, (∃ e, parseString source file config = .ok e) ∨
      ∃ r, parseString source file config = .error r ∧ r.Expected config source file) ∧
    ∀ argv i depth, CommandLine.readArguments argv = .ok i → i.settings.maxDepth = some depth →
      1 ≤ depth →
      ∃ a, CommandLine.answer argv = .ok a ∧ (a.code = 0 ∨ a.code = 1) := by
  refine ⟨fun source file config => ?_, fun argv i depth hi hd hp => answer_of_arguments hi hd hp⟩
  rcases parseString_cases source file config with ⟨e, he, -⟩ | ⟨r, hr, hexpected⟩
  · exact .inl ⟨e, he⟩
  · exact .inr ⟨r, hr, hexpected⟩

theorem parseString_closed_strict :
    ∃ a, CommandLine.answer ["--strict", "--max-depth", "9", "if (x := 2 in y z) then 1_0"] =
        .ok a ∧ (a.code = 0 ∨ a.code = 1) := by
  have harguments : CommandLine.readArguments
      ["--strict", "--max-depth", "9", "if (x := 2 in y z) then 1_0"] =
        .ok ⟨"if (x := 2 in y z) then 1_0", ⟨false, false, true, false, some 9, false⟩⟩ := by
    rfl
  exact parseString_closed.2 _ _ 9 harguments rfl (by decide)

end BindingPower.Calc
