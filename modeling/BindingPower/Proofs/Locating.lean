import BindingPower.Proofs.Contract
import BindingPower.Proofs.Folding
import BindingPower.Proofs.Refusals

/-! # Where reports point

Where every callback answers, all that can fail is the parser, and then it has consumed no token
beyond what it reports: the token that does not fit is the last one consumed, and the one that was
found in place of another, or at the end, or where no level is left, is the next one. -/
namespace BindingPower

variable {τ φ ν ε α β : Type}

/-- What a report says of the tokens, from the position where it has come up. -/
inductive Report.PointsAt (tokens : List τ) : Nat → Report τ φ ε → Prop where
  | misfit (kind : Misfit) {n : Nat} {t : τ} (h : tokens[n]? = some t) :
    PointsAt tokens (n + 1) (.misfit kind t)
  | unexpectedArity (affix : Affix) (arity : Arity) {n : Nat} {t : τ} (h : tokens[n]? = some t) :
    PointsAt tokens (n + 1) (.unexpectedArity t affix arity)
  | trailingInput {n : Nat} {t : τ} (h : tokens[n]? = some t) :
    PointsAt tokens n (.trailingInput t)
  | missingInterfix (mark : φ) {n : Nat} {found : Option τ} (h : found = tokens[n]?)
    (hend : found = none ↔ n = tokens.length) :
    PointsAt tokens n (.missingInterfix (some mark) found)
  | emptyInput : PointsAt tokens tokens.length .emptyInput
  | nestingTooDeep (limit : Int) {n : Nat} (h : n < tokens.length) :
    PointsAt tokens n (.nestingTooDeep limit none)

theorem Report.PointsAt.depth_eq_none {tokens : List τ} {n : Nat} {limit : Int}
    {depth : Option Int} (h : (.nestingTooDeep limit depth : Report τ φ ε).PointsAt tokens n) :
    depth = none := by
  cases h
  rfl

namespace Reading

variable {tokens : List τ} {k : Nat}

/-- From a position of the tokens the reading comes to a value and a position that go together, or
to a report that points at the position it has come to. -/
def Locates (tokens : List τ) (k : Nat) (m : Reading τ φ ε α) (Q : α → Nat → Prop) : Prop :=
  match m (tokens.drop k) with
  | .ok a rest => ∃ n ≤ tokens.length, rest = tokens.drop n ∧ Q a n
  | .error f rest => ∃ n ≤ tokens.length, rest = tokens.drop n ∧ ∃ r, f = .report r ∧
      r.PointsAt tokens n

/-- The reading comes to some value at some position. -/
abbrev Anywhere : α → Nat → Prop := fun _ _ => True

variable {m : Reading τ φ ε α} {Q : α → Nat → Prop}

theorem locates_pure {a : α} (hk : k ≤ tokens.length) (h : Q a k) :
    Locates tokens k (pure a : Reading τ φ ε α) Q := ⟨k, hk, rfl, h⟩

theorem locates_report {r : Report τ φ ε} (hk : k ≤ tokens.length) (h : r.PointsAt tokens k) :
    Locates tokens k (report r : Reading τ φ ε α) Q := ⟨k, hk, rfl, r, rfl, h⟩

theorem Locates.bind {f : α → Reading τ φ ε β} {R : β → Nat → Prop} (hm : Locates tokens k m Q)
    (hf : ∀ a n, n ≤ tokens.length → Q a n → Locates tokens n (f a) R) :
    Locates tokens k (m >>= f) R := by
  change match EStateM.bind m f (tokens.drop k) with
    | .ok b rest => ∃ n ≤ tokens.length, rest = tokens.drop n ∧ R b n
    | .error e rest => ∃ n ≤ tokens.length, rest = tokens.drop n ∧ ∃ r, e = .report r ∧
        r.PointsAt tokens n
  unfold Locates at hm
  unfold EStateM.bind
  cases hrun : m (tokens.drop k) with
  | ok a rest =>
    rw [hrun] at hm
    obtain ⟨n, hn, rfl, hQ⟩ := hm
    exact hf a n hn hQ
  | error e rest =>
    rw [hrun] at hm
    exact hm

theorem Locates.weaken {R : α → Nat → Prop} (hm : Locates tokens k m Q)
    (h : ∀ a n, Q a n → R a n) : Locates tokens k m R := by
  have hbind := hm.bind fun a n hn hQ => locates_pure (φ := φ) (ε := ε) hn (h a n hQ)
  rwa [bind_pure] at hbind

theorem Locates.remaining {f : Nat → Reading τ φ ε α} (h : ∀ n, Locates tokens k (f n) Q) :
    Locates tokens k (get >>= fun ts => f ts.length) Q := h _

theorem locates_visible (hk : k ≤ tokens.length) :
    Locates tokens k (visible never : Reading τ φ ε (Option τ)) fun o n =>
      n = k ∧ o = tokens[k]? := by
  rw [visible_never]
  exact ⟨k, hk, rfl, rfl, List.head?_drop⟩

theorem locates_consume (hk : k < tokens.length) :
    Locates tokens k (consume : Reading τ φ ε Unit) fun _ n => n = k + 1 :=
  ⟨k + 1, hk, List.tail_drop, rfl⟩

theorem locates_startingAt {body : τ → Reading τ φ ε α} (hk : k ≤ tokens.length)
    (hb : ∀ t, tokens[k]? = some t → Locates tokens k (body t) Q) :
    Locates tokens k (startingAt never body) Q := by
  refine (locates_visible hk).bind fun o n _ ho => ?_
  obtain ⟨rfl, rfl⟩ := ho
  cases ht : tokens[n]? with
  | none =>
    obtain rfl : n = tokens.length := Nat.le_antisymm hk (List.getElem?_eq_none_iff.mp ht)
    exact locates_report hk .emptyInput
  | some t => exact hb t ht

/-- What always answers does not move. -/
theorem locates_answer {r : Except (Failure τ φ ε) α} (hk : k ≤ tokens.length)
    (hr : Meets (fun _ => False) (fun _ => True) r) :
    Locates tokens k (answer r) fun _ n => n = k := by
  cases r with
  | ok a => exact locates_pure hk rfl
  | error f => exact hr.elim

end Reading

/-- The rules answer whatever they are asked. -/
abbrev Rules.Total (r : Rules τ φ ν ε) : Prop := r.Keep (fun _ => False) fun _ => True

/-- The rules answer, and the operands point at where they fail. -/
structure Reader.Locates (r : Reader τ φ ν ε) (tokens : List τ) : Prop where
  stop : r.stop = Reading.never
  total : r.rules.Total
  operand : ∀ (p : Precedence) {k : Nat}, k ≤ tokens.length →
    Reading.Locates tokens k (r.operand p) Reading.Anywhere

namespace Reader.Locates

open Reading

variable {r : Reader τ φ ν ε} {tokens : List τ} {k : Nat}

theorem built (hk : k ≤ tokens.length) {m : Except (Failure τ φ ε) ν}
    (h : Meets (fun _ => False) (fun _ => True) m) :
    Reading.Locates tokens k (answer m) Anywhere :=
  (locates_answer hk h).weaken fun _ _ _ => trivial

theorem separates (h : r.Locates tokens) (expected : Option φ) (t : τ) (hk : k ≤ tokens.length) :
    Reading.Locates tokens k (r.separates expected t) fun _ n => n = k := by
  refine (locates_answer hk (h.total.query t trivial)).bind fun op n hn heq => ?_
  subst heq
  cases expected with
  | none => exact locates_pure hn rfl
  | some mark =>
    dsimp only
    split
    · exact locates_answer hn (h.total.isFollow t mark trivial)
    · exact locates_pure hn rfl

theorem missing (expected : Option φ) (hk : k ≤ tokens.length) :
    Reading.Locates tokens k (r.missing expected tokens[k]?) Anywhere := by
  cases expected with
  | none => exact locates_pure hk trivial
  | some mark =>
    have hend : tokens[k]? = none ↔ k = tokens.length := by
      rw [List.getElem?_eq_none_iff]
      omega
    simp only [Reader.missing]
    split
    · exact locates_report hk (.missingInterfix mark rfl hend)
    · exact locates_pure hk trivial

theorem eatSeparator (h : r.Locates tokens) (expected : Option φ) (hk : k ≤ tokens.length) :
    Reading.Locates tokens k (r.eatSeparator expected) Anywhere := by
  unfold Reader.eatSeparator
  rw [h.stop]
  refine (locates_visible hk).bind fun o n _ ho => ?_
  obtain ⟨rfl, rfl⟩ := ho
  have hmissing : Reading.Locates tokens n (r.missing expected tokens[n]?) Anywhere :=
    missing expected hk
  cases ht : tokens[n]? with
  | none =>
    rw [ht] at hmissing
    exact hmissing
  | some t =>
    rw [ht] at hmissing
    refine (h.separates expected t hk).bind fun yes n' _ heq => ?_
    subst heq
    cases yes with
    | false => exact hmissing
    | true =>
      have hlt : n' < tokens.length := (List.getElem?_eq_some_iff.mp ht).1
      exact (locates_consume hlt).bind fun _ _ hn _ => locates_pure hn trivial

/-- What starts an expression is refused right behind it, if at all. -/
theorem nud (h : r.Locates tokens) {head : τ} (op : Operator φ) (ht : tokens[k]? = some head)
    (hk : k + 1 ≤ tokens.length) :
    Reading.Locates tokens (k + 1) (r.nud head op) Anywhere := by
  unfold Reader.nud
  dsimp only
  generalize op.leading.affix = affix, op.leading.arity = arity
  cases affix with
  | nilfix =>
    cases arity with
    | nullary => exact built hk (h.total.nullary head trivial)
    | _ => exact locates_report hk (.unexpectedArity _ _ ht)
  | prefixed =>
    cases arity with
    | unary =>
      exact (h.operand _ hk).bind fun x _ hn _ => built hn (h.total.unary head x trivial)
    | ternary =>
      exact (h.operand _ hk).bind fun a _ hn _ => (h.eatSeparator _ hn).bind fun _ _ hn _ =>
        (h.operand _ hn).bind fun b _ hn _ => (h.eatSeparator _ hn).bind fun _ _ hn _ =>
        (h.operand _ hn).bind fun c _ hn _ => built hn (h.total.ternary head a b c trivial)
    | _ => exact locates_report hk (.unexpectedArity _ _ ht)
  | circumfix =>
    cases arity with
    | unary =>
      exact (h.operand _ hk).bind fun x _ hn _ => (h.eatSeparator _ hn).bind fun _ _ hn _ =>
        built hn (h.total.unary head x trivial)
    | _ => exact locates_report hk (.unexpectedArity _ _ ht)
  | postfixed => exact locates_report hk (.misfit _ ht)
  | infixed => exact locates_report hk (.misfit _ ht)
  | interfix => exact locates_report hk (.misfit _ ht)
  | _ => exact locates_report hk (.unexpectedArity _ _ ht)

theorem led (h : r.Locates tokens) {head : τ} (op : Operator φ) (lhs : ν)
    (ht : tokens[k]? = some head) (hk : k + 1 ≤ tokens.length) :
    Reading.Locates tokens (k + 1) (r.led head op lhs) Anywhere := by
  have mixfix (follow : Option φ) (q : Precedence) :
      Reading.Locates tokens (k + 1) (do
        let b ← r.operand .bottom
        let _ ← r.eatSeparator follow
        let c ← r.operand q
        answer (r.rules.ternary head lhs b c)) Anywhere :=
    (h.operand _ hk).bind fun b _ hn _ => (h.eatSeparator _ hn).bind fun _ _ hn _ =>
      (h.operand _ hn).bind fun c _ hn _ => built hn (h.total.ternary head lhs b c trivial)
  unfold Reader.led
  dsimp only
  generalize op.continuing.affix = affix, op.continuing.arity = arity
  cases affix with
  | postfixed =>
    cases arity with
    | unary => exact built hk (h.total.unary head lhs trivial)
    | ternary => exact mixfix _ _
    | _ => exact locates_report hk (.unexpectedArity _ _ ht)
  | infixed =>
    cases arity with
    | binary =>
      exact (h.operand _ hk).bind fun x _ hn _ => built hn (h.total.binary head lhs x trivial)
    | ternary => exact mixfix _ _
    | _ => exact locates_report hk (.unexpectedArity _ _ ht)
  | nilfix => exact locates_report hk (.misfit _ ht)
  | prefixed => exact locates_report hk (.misfit _ ht)
  | circumfix => exact locates_report hk (.misfit _ ht)
  | interfix => exact locates_report hk (.misfit _ ht)
  | _ => exact locates_report hk (.unexpectedArity _ _ ht)

theorem continued (h : r.Locates tokens) (rbp : Precedence) (fuel : Nat) (nbp : Precedence)
    (lhs : ν) (hk : k ≤ tokens.length) :
    Reading.Locates tokens k (r.continued rbp fuel nbp lhs) Anywhere := by
  induction fuel generalizing nbp lhs k with
  | zero => exact locates_pure hk trivial
  | succ fuel ih =>
    unfold Reader.continued
    rw [h.stop]
    refine (locates_visible hk).bind fun o n _ ho => ?_
    obtain ⟨rfl, rfl⟩ := ho
    cases ht : tokens[n]? with
    | none => exact locates_pure hk trivial
    | some t =>
      have hlt : n < tokens.length := (List.getElem?_eq_some_iff.mp ht).1
      refine (locates_answer hk (h.total.query t trivial)).bind fun op n' _ heq => ?_
      subst heq
      split
      · refine (locates_consume hlt).bind fun _ n'' hn heq => ?_
        subst heq
        exact (h.led _ lhs ht hn).bind fun node _ hn _ => ih _ node hn
      · exact locates_pure hk trivial

theorem climb (h : r.Locates tokens) (rbp : Precedence) {head : τ} (ht : tokens[k]? = some head) :
    Reading.Locates tokens k (r.climb rbp head) Anywhere := by
  have hlt : k < tokens.length := (List.getElem?_eq_some_iff.mp ht).1
  refine (locates_consume hlt).bind fun _ n hn heq => ?_
  subst heq
  refine (locates_answer hn (h.total.query head trivial)).bind fun op n _ heq => ?_
  subst heq
  exact (h.nud _ ht hn).bind fun node _ hn _ =>
    .remaining (f := fun n => r.continued rbp n op.leading.nextPower node) fun n =>
      h.continued rbp n _ node hn

end Reader.Locates

namespace Scheme

open Reading

variable {g : Scheme τ φ ν ε} {tokens : List τ} {k : Nat}

theorem operandIn_locates (hg : ∀ depth inner, (g.rules depth inner).Total) (room depth : Nat)
    (rbp : Precedence) {head : τ} (ht : tokens[k]? = some head) :
    Locates tokens k (g.operandIn room depth never rbp head) Anywhere := by
  induction room generalizing depth rbp head k with
  | zero =>
    have hlt : k < tokens.length := (List.getElem?_eq_some_iff.mp ht).1
    rw [operandIn_zero]
    exact locates_report (Nat.le_of_lt hlt) (.nestingTooDeep _ hlt)
  | succ room ih =>
    rw [operandIn_succ]
    have reader : (g.readerIn room depth never).Locates tokens := {
      stop := rfl
      total := hg _ _
      operand := fun p k hk => locates_startingAt hk fun t ht => ih _ p ht }
    exact reader.climb rbp ht

/-- A whole expression and what follows it. -/
theorem parse_locates (hg : ∀ depth inner, (g.rules depth inner).Total) (depth : Nat)
    (tokens : List τ) : Locates tokens 0 (g.parse depth) Anywhere := by
  have operand : Locates tokens 0
      (g.operand (g.config.maxDepth - (depth + charge depth)) (depth + charge depth) never
        ⟨0, by decide⟩) Anywhere :=
    locates_startingAt (Nat.zero_le _) fun t ht => operandIn_locates hg _ _ _ ht
  refine operand.bind fun node n hn _ => ?_
  split
  · refine (locates_visible hn).bind fun o n' _ ho => ?_
    obtain ⟨rfl, rfl⟩ := ho
    cases ht : tokens[n']? with
    | none => exact locates_pure hn trivial
    | some t => exact locates_report hn (.trailingInput ht)
  · exact locates_pure hn trivial

end Scheme

theorem Session.ReadTo.position_eq {s t : Session τ φ ν ε} {tokens : List τ} {n : Nat}
    (h : s.ReadTo tokens t (tokens.drop n)) (hs : s.cursor.position = 0) (hn : n ≤ tokens.length) :
    t.cursor.position = n := by
  have hp := h.position
  rw [hs, List.length_drop] at hp
  omega

/-- Where the reading points at the position it has come to, so does the run at that of its stream. -/
theorem Run.Follows.located {d : Nat} {m : Run τ φ ν ε α} {r : Reading τ φ ε α} {tokens : List τ}
    {Q : α → Nat → Prop} {s t : Session τ φ ν ε} {f : Failure τ φ ε} (h : Follows d m r)
    (hr : r.Locates tokens 0 Q) (hd : s.depth = d) (hs : s.cursor.items = tokens.map .token)
    (hp : s.cursor.position = 0) (hm : m s = .error f t) :
    ∃ report, f = .report report ∧ report.PointsAt tokens t.cursor.position ∧
      t.cursor.items = (tokens.drop t.cursor.position).map .token := by
  have hends := h s tokens hd hs
  rw [hm] at hends
  rw [Reading.Locates, List.drop_zero] at hr
  cases hy : r tokens with
  | ok a rest =>
    rw [hy] at hends
    exact hends.elim
  | error e rest =>
    rw [hy] at hends hr
    obtain ⟨n, hn, rfl, report, rfl, hpoints⟩ := hr
    obtain ⟨rfl, hread⟩ := hends
    rw [hread.position_eq hp hn]
    exact ⟨report, rfl, hpoints, hread.items⟩

/-- Where no callback fails, an operand is to be opened at the moment at which no level is left. -/
theorem Parser.Explains.too_deep {p : Parser τ φ ν ε} {d : Nat} {T : List (Task τ)} {limit : Int}
    {depth : Option Int} (h : p.Explains none d T (.nestingTooDeep limit depth))
    (hd : depth = none) (hG : p.grammar.Confined fun _ => False) :
    ∃ task U, T = task :: U ∧ task.Awaits ∧ p.config.maxDepth ≤ d := by
  cases h with
  | nestingTooDeep ha hle => exact ⟨_, _, rfl, ha, hle⟩
  | exhausted => cases hd
  | raised hc hr => exact ((hc.confined hG (by simp)).raises hr).elim

namespace Builders

variable (b : Builders τ ν) (query : τ → Operator φ) (isFollow : τ → φ → Bool)

/-- The grammar that builds with these builders and classifies every token. -/
def answering : Grammar τ φ ν ε :=
  b.grammar (fun t => .ok (query t)) fun t mark => .ok (isFollow t mark)

def rules : Rules τ φ ν ε where
  query t := .ok (query t)
  nullary t := .ok (b.leaf t)
  unary t x := .ok (b.unary t x)
  binary t l r := .ok (b.binary t l r)
  ternary t x y z := .ok (b.ternary t x y z)
  isFollow t mark := .ok (isFollow t mark)

def scheme (config : Config) : Scheme τ φ ν ε := ⟨config, between, fun _ _ => b.rules query isFollow⟩

theorem rules_total : (b.rules query isFollow : Rules τ φ ν ε).Total where
  query _ _ := trivial
  nullary _ _ := trivial
  unary _ _ _ := trivial
  binary _ _ _ _ := trivial
  ternary _ _ _ _ _ := trivial
  isFollow _ _ _ := trivial

theorem answering_confined (F : Failure τ φ ε → Prop) :
    (b.answering query isFollow : Grammar τ φ ν ε).Confined F where
  query _ := .value _
  nullary _ := .value _
  unary _ _ := .value _
  binary _ _ _ := .value _
  ternary _ _ _ _ := .value _
  isFollow _ _ := .value _

theorem answering_follows (config : Config) :
    (Parser.ofGrammar config (b.answering query isFollow) : Parser τ φ ν ε).Follows
      (b.scheme query isFollow config) where
  config := rfl
  admits := rfl
  answers d f inner _ hf _ := by
    cases f
    cases hf
    exact {
      query t := Parser.calling_ofExcept_follows _ _ _ (.ok (query t))
      nullary t := Parser.calling_ofExcept_follows _ _ _ (.ok (b.leaf t))
      unary t x := Parser.calling_ofExcept_follows _ _ _ (.ok (b.unary t x))
      binary t l r := Parser.calling_ofExcept_follows _ _ _ (.ok (b.binary t l r))
      ternary t x y z := Parser.calling_ofExcept_follows _ _ _ (.ok (b.ternary t x y z))
      isFollow t mark := Parser.calling_ofExcept_follows _ _ _ (.ok (isFollow t mark)) }

/-- Where every callback answers, a parse fails with a report that points at where it has come to.
If the levels are used up, an operand was to be opened there. -/
theorem parseTokens_located (config : Config) {tokens : List τ} {f : Failure τ φ ε}
    {t : Session τ φ ν ε}
    (h : (Parser.ofGrammar config (b.answering query isFollow)).parseTokens tokens = .error f t) :
    ∃ r, f = .report r ∧ r.PointsAt tokens t.cursor.position ∧
      t.cursor.items = (tokens.drop t.cursor.position).map .token ∧
      ∀ limit depth, r = .nestingTooDeep limit depth →
        ∃ (unwound log : Log τ φ ν) (task : Task τ) (T : List (Task τ)),
          t.log = unwound ++ log ∧ (∀ entry ∈ unwound, entry.2.Unwinds) ∧
          log.Leaves (b.answering query isFollow : Grammar τ φ ν ε) (task :: T) ∧ task.Awaits ∧
          config.maxDepth ≤ log.counter 0 := by
  have located := (b.answering_follows query isFollow config).parse.located
    ((b.scheme query isFollow config).parse_locates (fun _ _ => b.rules_total query isFollow) 0
      tokens) rfl rfl rfl h
  obtain ⟨r, rfl, hpoints, hitems⟩ := located
  refine ⟨r, rfl, hpoints, hitems, ?_⟩
  rintro limit depth rfl
  obtain ⟨unwound, log, T, hlog, hunwinds, hleaves, hexplains⟩ := Parser.enter_outcome
    (p := Parser.ofGrammar config (b.answering query isFollow)) rfl .parse
    (.start (.ofTokens tokens))
  have hexplained := hexplains _ (failure?_eq_some.mpr ⟨t, h⟩)
  obtain ⟨task, U, rfl, hawaits, hle⟩ :=
    hexplained.too_deep hpoints.depth_eq_none (b.answering_confined _ _ _)
  refine ⟨unwound, log, task, U, ?_, hunwinds, hleaves, hawaits, hle⟩
  change (ending ((Parser.ofGrammar config (b.answering query isFollow)).parseTokens tokens)).log = _
    at hlog
  rw [h] at hlog
  simpa [ending, Session.start] using hlog

/-- Sums of letters and of what stands between bars. -/
def barred (t : Char) : Operator Char :=
  if t = '|' then .circumfix (.saturate 3) '|'
  else if t = '+' then .infixed (.saturate 1) .left
  else .nilfix

theorem parseTokens_located_barred :
    ∃ t, (Parser.ofGrammar ⟨true, false, 9, by decide⟩
        (Tree.leaves.answering barred fun t mark => t == mark)).parseTokens
          ['a', '+', '|', 'b', 'c', '|'] =
        .error (.report (.missingInterfix (some '|') (some 'c')) : Failure Char Char Empty) t ∧
      t.cursor.position = 4 ∧ t.cursor.items = [.token 'c', .token '|'] ∧
      (.missingInterfix (some '|') (some 'c') : Report Char Char Empty).PointsAt
        ['a', '+', '|', 'b', 'c', '|'] 4 := by
  have hfails : failure? ((Parser.ofGrammar ⟨true, false, 9, by decide⟩
      (Tree.leaves.answering barred fun t mark => t == mark)).parseTokens
        ['a', '+', '|', 'b', 'c', '|']) =
      some (.report (.missingInterfix (some '|') (some 'c')) : Failure Char Char Empty) := by
    decide +kernel
  have hposition : (ending ((Parser.ofGrammar ⟨true, false, 9, by decide⟩
      (Tree.leaves.answering (ε := Empty) barred fun t mark => t == mark)).parseTokens
        ['a', '+', '|', 'b', 'c', '|'])).cursor.position = 4 := by
    decide +kernel
  obtain ⟨t, ht⟩ := failure?_eq_some.mp hfails
  rw [ht] at hposition
  change t.cursor.position = 4 at hposition
  obtain ⟨r, hr, hpoints, hitems, -⟩ := parseTokens_located _ _ _ _ ht
  cases hr
  rw [hposition] at hpoints hitems
  exact ⟨t, ht, hposition, hitems, hpoints⟩

end Builders

end BindingPower
