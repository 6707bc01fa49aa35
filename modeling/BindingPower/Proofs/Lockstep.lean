import BindingPower.Proofs.Roles
import BindingPower.Proofs.Steps

/-! # Runs in lockstep

Two runs are compared moment by moment, until the second one breaks off with a report that excuses
it. A bond tells which sessions go together and carries what is known of the items that are left.
Where calls and operands keep in step, so does everything that a frame puts together from them. -/
namespace BindingPower

variable {τ φ ν ε α β : Type}

/-- What may be known of the items that are left. -/
abbrev Known (τ ε : Type) := List (Item τ ε) → Prop

namespace Known

def anything : Known τ ε := fun _ => True

/-- What stays known when items are consumed. -/
def Lasting (K : Known τ ε) : Prop := ∀ items, K items → K items.tail

theorem anything_lasting : Lasting (anything : Known τ ε) := fun _ h => h

theorem length_lasting (n : Nat) : Lasting fun items : List (Item τ ε) => items.length ≤ n := by
  intro items h
  rw [List.length_tail]
  omega

end Known

/-- Which sessions go together at the same moment of two runs. What is known is known of the
items that are left to the first. -/
structure Bond (τ φ ν ε : Type) where
  excused : Report τ φ ε → Prop
  holds : Known τ ε → Session τ φ ν ε → Session τ φ ν ε → Prop
  weaken : ∀ {K L s s'}, holds K s s' → (∀ items, K items → L items) → holds L s s'
  sized : ∀ {K s s'}, holds K s s' →
    holds (fun items => K items ∧ items.length ≤ s.cursor.remaining) s s'
  depth : ∀ {K s s'}, holds K s s' → s'.depth = s.depth
  record : ∀ {K s s'} (e : Event τ φ ν), holds K s s' → holds K (s.record e) (s'.record e)
  deepen : ∀ {K s s'} (n : Nat), holds K s s' → holds K (s.deepen n) (s'.deepen n)
  surface : ∀ {K s s'} (n : Nat), holds K s s' → holds K (s.surface n) (s'.surface n)

namespace Run

/-- Two endings that go together. -/
inductive Paired (b : Bond τ φ ν ε) (L : α → Known τ ε) :
    EStateM.Result (Failure τ φ ε) (Session τ φ ν ε) α →
      EStateM.Result (Failure τ φ ε) (Session τ φ ν ε) α → Prop where
  | ok {a : α} {t t' : Session τ φ ν ε} (h : b.holds (L a) t t') : Paired b L (.ok a t) (.ok a t')
  | error {f : Failure τ φ ε} {t t' : Session τ φ ν ε} (h : b.holds .anything t t') :
    Paired b L (.error f t) (.error f t')
  | excused {x : EStateM.Result (Failure τ φ ε) (Session τ φ ν ε) α} {r : Report τ φ ε}
    {t' : Session τ φ ν ε} (h : b.excused r) : Paired b L x (.error (.report r) t')

/-- Sessions that go together lead to endings that do. -/
def Mirrors (b : Bond τ φ ν ε) (K : Known τ ε) (m m' : Run τ φ ν ε α) (L : α → Known τ ε) : Prop :=
  ∀ s s', b.holds K s s' → Paired b L (m s) (m' s')

variable {b : Bond τ φ ν ε} {K : Known τ ε} {L M : α → Known τ ε} {m m' : Run τ φ ν ε α}

theorem Paired.weaken {x y : EStateM.Result (Failure τ φ ε) (Session τ φ ν ε) α}
    (h : Paired b L x y) (hw : ∀ a items, L a items → M a items) : Paired b M x y := by
  cases h with
  | ok h => exact .ok (b.weaken h (hw _))
  | error h => exact .error h
  | excused h => exact .excused h

theorem Mirrors.weaken (h : Mirrors b K m m' L) (hw : ∀ a items, L a items → M a items) :
    Mirrors b K m m' M := fun s s' hs => (h s s' hs).weaken hw

theorem Mirrors.strengthen {K' : Known τ ε} (h : Mirrors b K m m' L)
    (hw : ∀ items, K' items → K items) : Mirrors b K' m m' L :=
  fun s s' hs => h s s' (b.weaken hs hw)

theorem mirrors_pure (a : α) (h : ∀ items, K items → L a items) :
    Mirrors b K (pure a) (pure a) L := fun _ _ hs => .ok (b.weaken hs h)

theorem mirrors_throw (f : Failure τ φ ε) : Mirrors b K (throw f : Run τ φ ν ε α) (throw f) L :=
  fun _ _ hs => .error (b.weaken hs fun _ _ => trivial)

theorem mirrors_report (r : Report τ φ ε) :
    Mirrors b K (Run.report r : Run τ φ ν ε α) (Run.report r) L := mirrors_throw (.report r)

/-- What a run only returns under a condition is known to meet it. -/
theorem Mirrors.returned {P : α → Prop} (h : Mirrors b K m m' L)
    (hp : ∀ s a t, m s = .ok a t → P a) :
    Mirrors b K m m' fun a items => L a items ∧ P a := by
  intro s s' hs
  have hm := h s s' hs
  have hres := hp s
  generalize m s = x at hm hres ⊢
  generalize m' s' = y at hm ⊢
  cases hm with
  | ok ht => exact .ok (b.weaken ht fun _ hl => ⟨hl, hres _ _ rfl⟩)
  | error ht => exact .error ht
  | excused hr => exact .excused hr

/-- What a run leads to may rely on what all of its results have in common. -/
theorem Mirrors.bindOf {k k' : α → Run τ φ ν ε β} {N : β → Known τ ε} {P : α → Prop}
    (h : Mirrors b K m m' L) (hp : ∀ s s' a t, b.holds K s s' → m s = .ok a t → P a)
    (hk : ∀ a, P a → Mirrors b (L a) (k a) (k' a) N) : Mirrors b K (m >>= k) (m' >>= k') N := by
  intro s s' hs
  have hm := h s s' hs
  have hres := hp s s'
  change Paired b N (EStateM.bind m k s) (EStateM.bind m' k' s')
  unfold EStateM.bind
  generalize m s = x at hm hres ⊢
  generalize m' s' = y at hm ⊢
  cases hm with
  | ok ht => exact hk _ (hres _ _ hs rfl) _ _ ht
  | error ht => exact .error ht
  | excused hr => exact .excused hr

theorem Mirrors.bind {k k' : α → Run τ φ ν ε β} {N : β → Known τ ε} (h : Mirrors b K m m' L)
    (hk : ∀ a, Mirrors b (L a) (k a) (k' a) N) : Mirrors b K (m >>= k) (m' >>= k') N :=
  h.bindOf (P := fun _ => True) (fun _ _ _ _ _ _ => trivial) fun a _ => hk a

theorem Mirrors.record (h : Mirrors b K m m' L) (e : Event τ φ ν) :
    Mirrors b K (Run.record e >>= fun _ => m) (Run.record e >>= fun _ => m') L :=
  fun _ _ hs => h _ _ (b.record e hs)

theorem Mirrors.deeper {n : Nat} (h : Mirrors b K m m' L) (before after : Event τ φ ν) :
    Mirrors b K (Run.deeper n before after m) (Run.deeper n before after m') L := by
  intro s s' hs
  have hm := h _ _ (b.record before (b.deepen n hs))
  simp only [Run.deeper]
  generalize m ((s.deepen n).record before) = x at hm ⊢
  generalize m' ((s'.deepen n).record before) = y at hm ⊢
  cases hm with
  | ok ht => exact .ok (b.record after (b.surface n ht))
  | error ht => exact .error (b.record after (b.surface n ht))
  | excused hr => exact .excused hr

/-- Containing a failure tells the limit only where the stack ended before it. -/
theorem Mirrors.catching {limit limit' : Nat} (h : Mirrors b K m m' L)
    (hl : limit' = limit ∨ ∀ d, b.excused (.nestingTooDeep limit' d)) :
    Mirrors b K (Run.catching (contain limit) m) (Run.catching (contain limit') m') L := by
  intro s s' hs
  have hm := h s s' hs
  simp only [Run.catching]
  generalize m s = x at hm ⊢
  generalize m' s' = y at hm ⊢
  cases hm with
  | ok ht => exact .ok ht
  | excused hr => exact .excused hr
  | @error f t t' ht =>
    cases f with
    | report r => exact .error (b.record .failed ht)
    | other c => exact .error (b.record .failed ht)
    | exhausted =>
      simp only [contain]
      rcases hl with rfl | hl
      · rw [b.depth ht]
        exact .error (b.record .failed ht)
      · exact .excused (hl _)

/-- A run that mirrors itself keeps what is known. -/
theorem Mirrors.self {s t : Session τ φ ν ε} {a : α} (h : Mirrors b K m m L) (hs : b.holds K s s)
    (hm : m s = .ok a t) : b.holds (L a) t t := by
  have hp := h s s hs
  rw [hm] at hp
  cases hp with
  | ok ht => exact ht

theorem Mirrors.bind_congr {s : Session τ φ ν ε} {k k' : α → Run τ φ ν ε β} (h : Mirrors b K m m L)
    (hs : b.holds K s s)
    (hk : ∀ a t, m s = .ok a t → b.holds (L a) t t → k a t = k' a t) :
    (m >>= k) s = (m >>= k') s := by
  have hkept := fun a t hm => hk a t hm (h.self hs hm)
  change EStateM.bind m k s = EStateM.bind m k' s
  unfold EStateM.bind
  generalize m s = x at hkept ⊢
  cases x with
  | ok a t => exact hkept a t rfl
  | error f t => rfl

end Run

/-- What a run finds out on its way, with a view to the guard of its loops: which tokens can come
into sight, what they are classified as, what is known behind an operand and inside its loop. -/
structure Insight (τ φ ε : Type) (admits : Precedence → Precedence → Precedence → Bool) where
  shown : τ → Prop
  classified : τ → Operator φ → Prop
  behind : Precedence → Known τ ε
  within : Precedence → Precedence → Known τ ε
  behind_hidden : ∀ {p items}, (∀ t, items.head? = some (.token t) → ¬shown t) → behind p items
  behind_refused : ∀ {rbp nbp t op items}, within rbp nbp items → items.head? = some (.token t) →
    shown t → classified t op → admits rbp op.leftPower nbp = false → behind rbp items
  within_started : ∀ {rbp t op items}, classified t op → op.starting.affix ≠ .infixed →
    within rbp op.leading.nextPower items
  within_extended : ∀ {rbp nbp t op items}, classified t op → admits rbp op.leftPower nbp = true →
    (op.extending.affix = .infixed → behind op.extending.rightPower items) →
    within rbp op.continuing.nextPower items

namespace Insight

variable {admits : Precedence → Precedence → Precedence → Bool}

/-- Nothing is found out but which tokens come into sight. -/
def ofShown (admits : Precedence → Precedence → Precedence → Bool) (shown : τ → Prop) :
    Insight τ φ ε admits where
  shown := shown
  classified _ _ := True
  behind _ := .anything
  within _ _ := .anything
  behind_hidden _ := trivial
  behind_refused _ _ _ _ _ := trivial
  within_started _ _ := trivial
  within_extended _ _ _ := trivial

/-- The token comes next, and it can be seen. -/
def Sees (k : Insight τ φ ε admits) (t : τ) : Known τ ε := fun items =>
  items.head? = some (.token t) ∧ k.shown t

/-- What is found where a token is looked for. -/
def Finds (k : Insight τ φ ε admits) : Option τ → Known τ ε
  | none => fun items => ∀ t, ¬k.Sees t items
  | some t => k.Sees t

theorem behind_of_finds_none (k : Insight τ φ ε admits) {p : Precedence} {items : List (Item τ ε)}
    (h : k.Finds none items) : k.behind p items := k.behind_hidden fun t ht hs => h t ⟨ht, hs⟩

theorem behind_nil (k : Insight τ φ ε admits) (p : Precedence) : k.behind p [] :=
  k.behind_hidden fun t ht => by simp at ht

end Insight

/-- A look at the end of the stream changes nothing there. -/
theorem Cursor.peek_eq_self {c d : Cursor τ ε} (h : c.peek = (.ok none, d)) : d = c := by
  obtain ⟨ahead, rest, position, pulled⟩ := c
  cases ahead with
  | some t => simp [peek, fill] at h
  | none =>
    cases rest with
    | nil => simpa [peek, fill, eq_comm] using h
    | cons i r => cases i <;> simp [peek, fill] at h

theorem Session.withCursor_cursor (s : Session τ φ ν ε) : s.withCursor s.cursor = s := by
  obtain ⟨main, side, depth, log⟩ := s
  cases side <;> rfl

/-- A token that is found comes next, and the stop predicate has let it pass. -/
theorem visible_found {ask : Option (τ → Run τ φ ν ε Bool)} {s u : Session τ φ ν ε} {t : τ}
    (h : visible ask s = .ok (some t) u) :
    ∃ d, s.cursor.peek = (.ok (some t), d) ∧ ∀ a ∈ ask, a t (s.withCursor d) = .ok false u := by
  obtain ⟨o, s₁, hread, h⟩ := bind_eq_ok.mp h
  obtain ⟨⟨r, d⟩, hp⟩ : ∃ x, s.cursor.peek = x := ⟨_, rfl⟩
  simp only [Run.reading, hp] at hread
  cases r with
  | error e => cases hread
  | ok o' =>
    cases hread
    cases o with
    | none => cases h
    | some x =>
      cases ask with
      | none =>
        cases h
        exact ⟨d, hp, by simp⟩
      | some a =>
        obtain ⟨yes, s₂, ha, h⟩ := bind_eq_ok.mp h
        cases yes with
        | true => cases h
        | false =>
          cases h
          exact ⟨d, hp, fun _ h => Option.some.inj h ▸ ha⟩

/-- Two runs look for a token and find the same, which can be seen. -/
structure Run.Looks {admits : Precedence → Precedence → Precedence → Bool} (b : Bond τ φ ν ε)
    (k : Insight τ φ ε admits) (m m' : Run τ φ ν ε (Option τ)) : Prop where
  mirrors : ∀ K, Run.Mirrors b K m m' fun o items => K items ∧ k.Finds o items
  shown : ∀ K s s' t u, b.holds K s s' → m s = .ok (some t) u → k.shown t

/-- What comes after a look at the stream goes by what has been found there. -/
theorem Run.Looks.bind {admits : Precedence → Precedence → Precedence → Bool} {b : Bond τ φ ν ε}
    {k : Insight τ φ ε admits} {m m' : Run τ φ ν ε (Option τ)} {K : Known τ ε}
    {next next' : Option τ → Run τ φ ν ε α} {L : α → Known τ ε} (h : Run.Looks b k m m')
    (hnone : Run.Mirrors b (fun items => K items ∧ k.Finds none items) (next none) (next' none) L)
    (hsome : ∀ t, k.shown t →
      Run.Mirrors b (fun items => K items ∧ k.Sees t items) (next (some t)) (next' (some t)) L) :
    Run.Mirrors b K (m >>= next) (m' >>= next') L := by
  refine (h.mirrors K).bindOf (P := fun o => ∀ t ∈ o, k.shown t) ?_ fun o hshown => ?_
  · intro s s' o u hs hm t ht
    rw [Option.mem_def.mp ht] at hm
    exact h.shown K s s' t u hs hm
  · cases o with
    | none => exact hnone
    | some t => exact hsome t (hshown t rfl)

/-- The calls and the operands of two frames keep in step. -/
structure Frame.Mirrors (b : Bond τ φ ν ε) (f f' : Frame τ φ ν ε)
    (k : Insight τ φ ε f.parser.admits) : Prop where
  query : ∀ K t, k.shown t → Run.Mirrors b K (f.query t) (f'.query t) fun op items =>
    K items ∧ k.classified t op
  nullary : ∀ K t, k.shown t → Run.Mirrors b K (f.nullary t) (f'.nullary t) fun _ => K
  unary : ∀ K t x, k.shown t → Run.Mirrors b K (f.unary t x) (f'.unary t x) fun _ => K
  binary : ∀ K t x y, k.shown t → Run.Mirrors b K (f.binary t x y) (f'.binary t x y) fun _ => K
  ternary : ∀ K t x y z, k.shown t →
    Run.Mirrors b K (f.ternary t x y z) (f'.ternary t x y z) fun _ => K
  isFollow : ∀ K t e, k.shown t → Run.Mirrors b K (f.isFollow t e) (f'.isFollow t e) fun _ => K
  visible : Run.Looks b k f.visible f'.visible
  advance : ∀ t J, Run.Mirrors b (fun items => k.Sees t items ∧ J items.tail) consume consume
    fun _ => J
  operand : ∀ p J, J.Lasting → Run.Mirrors b J (f.operand p) (f'.operand p) fun _ items =>
    J items ∧ k.behind p items
  strict : f'.parser.config.strictInterfix = f.parser.config.strictInterfix ∨
    ∀ mark found, b.excused (.missingInterfix mark found) ∧
      f'.parser.config.strictInterfix = true
  guard : ∀ rbp nbp t op s s',
    b.holds (fun items => k.within rbp nbp items ∧ k.Sees t items ∧ k.classified t op) s s' →
    f'.parser.admits rbp op.leftPower nbp = f.parser.admits rbp op.leftPower nbp
  fuel : ∀ rbp nbp lhs s s', b.holds .anything s s' →
    f'.continued rbp s'.cursor.remaining nbp lhs s' = f'.continued rbp s.cursor.remaining nbp lhs s'

namespace Frame.Mirrors

variable {b : Bond τ φ ν ε} {f f' : Frame τ φ ν ε} {k : Insight τ φ ε f.parser.admits}
  {J K : Known τ ε}

theorem separates (h : f.Mirrors b f' k) (expected : Option φ) {t : τ} (ht : k.shown t) :
    Run.Mirrors b K (f.separates expected t) (f'.separates expected t) fun _ => K := by
  refine (h.query K t ht).bind fun op => ?_
  cases expected with
  | none => exact Run.mirrors_pure _ fun _ hk => hk.1
  | some mark =>
    dsimp only
    split
    · exact (h.isFollow K t mark ht).strengthen fun _ hk => hk.1
    · exact Run.mirrors_pure _ fun _ hk => hk.1

theorem missing (h : f.Mirrors b f' k) (expected : Option φ) (found : Option τ) :
    Run.Mirrors b K (f.missing expected found) (f'.missing expected found) fun _ => K := by
  cases expected with
  | none => exact Run.mirrors_pure _ fun _ hk => hk
  | some mark =>
    simp only [Frame.missing]
    rcases h.strict with heq | hex
    · rw [heq]
      split
      · exact Run.mirrors_report _
      · exact Run.mirrors_pure _ fun _ hk => hk
    · obtain ⟨hr, hs⟩ := hex (some mark) found
      rw [if_pos hs]
      exact fun _ _ _ => .excused hr

theorem eatSeparator (h : f.Mirrors b f' k) (hJ : J.Lasting) (expected : Option φ) :
    Run.Mirrors b J (f.eatSeparator expected) (f'.eatSeparator expected) fun _ => J := by
  refine h.visible.bind ((h.missing expected none).strengthen fun _ hk => hk.1) fun t ht => ?_
  refine (h.separates expected ht).bind fun yes => ?_
  cases yes with
  | false => exact (h.missing expected (some t)).strengthen fun _ hk => hk.1
  | true =>
    refine Run.Mirrors.record ?_ _
    refine Run.Mirrors.bind ((h.advance t J).strengthen ?_) fun _ => ?_
    · exact fun items hk => ⟨hk.2, hJ items hk.1⟩
    · exact Run.mirrors_pure _ fun _ hk => hk

theorem nud (h : f.Mirrors b f' k) (hJ : J.Lasting) {head : τ} (hh : k.shown head)
    (op : Operator φ) :
    Run.Mirrors b J (f.nud head op) (f'.nud head op) fun _ items =>
      J items ∧ op.leading.affix ≠ .infixed := by
  have operand (p : Precedence) : Run.Mirrors b J (f.operand p) (f'.operand p) fun _ => J :=
    (h.operand p J hJ).weaken fun _ _ hk => hk.1
  refine Run.Mirrors.record ?_ _
  generalize op.leading.affix = affix, op.leading.arity = arity
  cases affix with
  | nilfix =>
    cases arity with
    | nullary => exact (h.nullary J head hh).weaken fun _ _ hk => ⟨hk, by simp⟩
    | _ => exact Run.mirrors_report _
  | prefixed =>
    cases arity with
    | unary =>
      exact ((operand _).bind fun x => h.unary J head x hh).weaken fun _ _ hk => ⟨hk, by simp⟩
    | ternary =>
      exact ((operand _).bind fun a => (h.eatSeparator hJ _).bind fun _ =>
        (operand _).bind fun b => (h.eatSeparator hJ _).bind fun _ =>
        (operand _).bind fun c => h.ternary J head a b c hh).weaken fun _ _ hk => ⟨hk, by simp⟩
    | _ => exact Run.mirrors_report _
  | circumfix =>
    cases arity with
    | unary =>
      exact ((operand _).bind fun x => (h.eatSeparator hJ _).bind fun _ =>
        h.unary J head x hh).weaken fun _ _ hk => ⟨hk, by simp⟩
    | _ => exact Run.mirrors_report _
  | _ => exact Run.mirrors_report _

/-- What is known behind the last operand of an operator is known behind the operator. -/
theorem led (h : f.Mirrors b f' k) (hJ : J.Lasting) {head : τ} (hh : k.shown head)
    (op : Operator φ) (lhs : ν) :
    Run.Mirrors b J (f.led head op lhs) (f'.led head op lhs) fun _ items =>
      J items ∧ (op.continuing.affix = .infixed → k.behind op.continuing.rightPower items) := by
  have mixfix : Run.Mirrors b J
      (do
        let b ← f.operand .bottom
        let _ ← f.eatSeparator op.continuing.follow[0]?
        let c ← f.operand op.continuing.rightPower
        f.ternary head lhs b c)
      (do
        let b ← f'.operand .bottom
        let _ ← f'.eatSeparator op.continuing.follow[0]?
        let c ← f'.operand op.continuing.rightPower
        f'.ternary head lhs b c)
      fun _ items => J items ∧ k.behind op.continuing.rightPower items :=
    ((h.operand _ J hJ).weaken fun _ _ hk => hk.1).bind fun b => (h.eatSeparator hJ _).bind fun _ =>
      (h.operand _ J hJ).bind fun c => h.ternary _ head lhs b c hh
  refine Run.Mirrors.record ?_ _
  generalize op.continuing.affix = affix, op.continuing.arity = arity
  cases affix with
  | postfixed =>
    cases arity with
    | unary => exact (h.unary J head lhs hh).weaken fun _ _ hk => ⟨hk, by simp⟩
    | ternary => exact mixfix.weaken fun _ _ hk => ⟨hk.1, by simp⟩
    | _ => exact Run.mirrors_report _
  | infixed =>
    cases arity with
    | binary =>
      exact ((h.operand _ J hJ).bind fun x => h.binary _ head lhs x hh).weaken fun _ _ hk =>
        ⟨hk.1, fun _ => hk.2⟩
    | ternary => exact mixfix.weaken fun _ _ hk => ⟨hk.1, fun _ => hk.2⟩
    | _ => exact Run.mirrors_report _
  | _ => exact Run.mirrors_report _

/-- An admitted continuation is read in step if the rest of the loop is. -/
theorem extended (h : f.Mirrors b f' k) (hJ : J.Lasting) {rbp nbp : Precedence} {n : Nat}
    {op : Operator φ} (ha : f.parser.admits rbp op.leftPower nbp = true)
    (rest : ∀ nbp lhs, Run.Mirrors b
      (fun items => J items ∧ k.within rbp nbp items ∧ items.length ≤ n)
      (f.continued rbp n nbp lhs) (f'.continued rbp n nbp lhs) fun _ items =>
        J items ∧ k.behind rbp items) {t : τ} (ht : k.shown t) (lhs : ν) :
    Run.Mirrors b
      (fun items => ((J items ∧ k.within rbp nbp items ∧ items.length ≤ n + 1) ∧ k.Sees t items) ∧
        k.classified t op)
      (do
        consume
        let node ← f.led t op.continuing lhs
        f.continued rbp n op.continuing.nextPower node)
      (do
        consume
        let node ← f'.led t op.continuing lhs
        f'.continued rbp n op.continuing.nextPower node)
      fun _ items => J items ∧ k.behind rbp items := by
  let left : Known τ ε := fun items => (J items ∧ items.length ≤ n) ∧ k.classified t op
  have hleft : left.Lasting := fun items hk =>
    ⟨⟨hJ items hk.1.1, Known.length_lasting n items hk.1.2⟩, hk.2⟩
  refine Run.Mirrors.bind ((h.advance t left).strengthen fun items hk => ?_) fun _ =>
    (h.led hleft ht op.continuing lhs).bind fun node =>
      (rest op.continuing.nextPower node).strengthen fun items hk => ?_
  · obtain ⟨⟨⟨hj, -, hlen⟩, hsees⟩, hc⟩ := hk
    refine ⟨hsees, ⟨hJ items hj, ?_⟩, hc⟩
    rw [List.length_tail]
    omega
  · obtain ⟨⟨⟨hj, hlen⟩, hc⟩, hbehind⟩ := hk
    exact ⟨hj, k.within_extended hc ha hbehind, hlen⟩

theorem continued (h : f.Mirrors b f' k) (hJ : J.Lasting) (rbp : Precedence) (n : Nat)
    (nbp : Precedence) (lhs : ν) :
    Run.Mirrors b (fun items => J items ∧ k.within rbp nbp items ∧ items.length ≤ n)
      (f.continued rbp n nbp lhs) (f'.continued rbp n nbp lhs) fun _ items =>
        J items ∧ k.behind rbp items := by
  -- `k.within` is what holds of the items each time the loop looks for a continuation; the guard
  -- relies on it, and a loop that ends there turns it into `k.behind`
  induction n generalizing nbp lhs with
  | zero =>
    refine Run.mirrors_pure _ fun items hk => ⟨hk.1, ?_⟩
    rw [List.eq_nil_of_length_eq_zero (Nat.le_zero.mp hk.2.2)]
    exact k.behind_nil rbp
  | succ n ih =>
    refine h.visible.bind ?_ fun t ht => ?_
    · exact Run.mirrors_pure _ fun _ hk => ⟨hk.1.1, k.behind_of_finds_none hk.2⟩
    · refine (h.query _ t ht).bind fun op => ?_
      intro s s' hs
      have hguard := h.guard rbp nbp t op s s'
        (b.weaken hs fun _ hk => ⟨hk.1.1.2.1, hk.1.2, hk.2⟩)
      rw [hguard]
      cases ha : f.parser.admits rbp op.leftPower nbp with
      | false =>
        refine Run.mirrors_pure (b := b) lhs (fun items hk => ?_) s s' hs
        obtain ⟨⟨⟨hj, hw, -⟩, hhead, hshown⟩, hc⟩ := hk
        exact ⟨hj, k.behind_refused hw hhead hshown hc ha⟩
      | true => exact h.extended hJ ha ih ht lhs s s' hs

theorem climb (h : f.Mirrors b f' k) (hJ : J.Lasting) (rbp : Precedence) {head : τ}
    (hh : k.shown head) :
    Run.Mirrors b (fun items => J items ∧ k.Sees head items) (f.climb rbp head) (f'.climb rbp head)
      fun _ items => J items ∧ k.behind rbp items := by
  refine Run.Mirrors.bind ((h.advance head J).strengthen fun items hk => ⟨hk.2, hJ items hk.1⟩)
    fun _ => (h.query J head hh).bind fun op => ?_
  have known : Known.Lasting fun items : List (Item τ ε) => J items ∧ k.classified head op :=
    fun items hk => ⟨hJ items hk.1, hk.2⟩
  refine (h.nud known hh op.leading).bind fun node => ?_
  intro s s' hs
  change Run.Paired b _ (f.continued rbp s.cursor.remaining op.leading.nextPower node s)
    (f'.continued rbp s'.cursor.remaining op.leading.nextPower node s')
  rw [h.fuel rbp op.leading.nextPower node s s' (b.weaken hs fun _ _ => trivial)]
  refine h.continued hJ rbp _ _ node s s' (b.weaken (b.sized hs) fun items hk => ?_)
  exact ⟨hk.1.1.1, k.within_started hk.1.1.2 hk.1.2, hk.2⟩

end Frame.Mirrors

theorem startingAt_mirrors {b : Bond τ φ ν ε} {K : Known τ ε} {L : ν → Known τ ε}
    {admits : Precedence → Precedence → Precedence → Bool} {k : Insight τ φ ε admits}
    {ask ask' : Option (τ → Run τ φ ν ε Bool)} {body body' : τ → Run τ φ ν ε ν}
    (hv : Run.Looks b k (visible ask) (visible ask'))
    (hb : ∀ t, k.shown t →
      Run.Mirrors b (fun items => K items ∧ k.Sees t items) (body t) (body' t) L) :
    Run.Mirrors b K (startingAt ask body) (startingAt ask' body') L :=
  hv.bind (Run.mirrors_report _) hb

/-- The tests of a run answer at once, however the runs of callbacks are made. -/
theorem Parser.reentry_eq (p : Parser τ φ ν ε) (inner : Operand τ φ ν ε)
    (enter : Goal → Option (StopTest τ φ ε) → Run τ φ ν ε ν) (goal : Goal)
    (tests : Option (StopTest τ φ ε)) :
    p.reentry inner goal tests =
      p.entering (fun rbp => startingAt (p.asking enter (tests.map StopTest.toStop))
        (inner (tests.map StopTest.toStop) rbp)) goal := by
  cases tests with
  | none => rfl
  | some test =>
    simp only [reentry, asking, Option.map_some, StopTest.toStop, Callback.perform_ofExcept]

/-- What a run does after its operand: nothing, or a look at what follows a whole expression. -/
def Parser.concluding (p : Parser τ φ ν ε) (goal : Goal) (node : ν) : Run τ φ ν ε ν :=
  if goal = .whole ∧ p.config.requireEnd = true then do
    match ← Run.reading Cursor.peek with
    | none => pure node
    | some t => Run.report (.trailingInput t)
  else pure node

theorem Parser.entering_eq (p : Parser τ φ ν ε) (operand : Precedence → Run τ φ ν ε ν) (goal : Goal)
    (s : Session τ φ ν ε) :
    p.entering operand goal s =
      (Run.deeper (charge s.depth) (.entered (charge s.depth)) (.left (charge s.depth))
        (match Precedence.ofInt? goal.floor with
        | none => throw (.other (.precedenceRange goal.floor))
        | some rbp => operand rbp) >>= p.concluding goal) s := rfl

/-- Nothing is done after an operand that only has to bind tighter than a number. -/
theorem Parser.concluding_above (p : Parser τ φ ν ε) (rbp : Int) :
    p.concluding (.above rbp) = pure := by
  funext node
  rw [concluding, if_neg (by simp)]

theorem Parser.entering_mirrors {b : Bond τ φ ν ε} {K : Known τ ε} {L M : ν → Known τ ε}
    {p p' : Parser τ φ ν ε} {operand operand' : Precedence → Run τ φ ν ε ν} {goal : Goal}
    (ho : ∀ rbp, Run.Mirrors b K (operand rbp) (operand' rbp) L)
    (hc : ∀ node, Run.Mirrors b (L node) (p.concluding goal node) (p'.concluding goal node) M) :
    Run.Mirrors b K (p.entering operand goal) (p'.entering operand' goal) M := by
  intro s s' hs
  rw [entering_eq, entering_eq, b.depth hs]
  refine Run.Mirrors.bind (Run.Mirrors.deeper ?_ _ _) hc s s' hs
  cases Precedence.ofInt? goal.floor with
  | none => exact Run.mirrors_throw _
  | some rbp => exact ho rbp

section Parsing

variable {b : Bond τ φ ν ε} {p p' : Parser τ φ ν ε} {stop stop' : Option (Stop τ φ ν ε)}
  {k : Insight τ φ ε p.admits}
  (hf : ∀ depth, (p.frameAt depth stop).Mirrors b (p'.frameAt depth stop') k)

include hf

theorem Parser.parseInput_mirrors (rbp : Precedence) :
    Run.Mirrors b .anything (p.parseInput rbp stop) (p'.parseInput rbp stop')
      fun _ => .anything := by
  intro s s' hs
  have operand := (hf s.depth).operand rbp .anything Known.anything_lasting
  change Run.Paired b _ ((p.frameAt s.depth stop).operand rbp s)
    ((p'.frameAt s'.depth stop').operand rbp s')
  rw [b.depth hs]
  exact operand.weaken (fun _ _ _ => trivial) s s' hs

theorem Parser.parseUntil_mirrors (rbp : Int) :
    Run.Mirrors b .anything (p.parseUntil rbp stop) (p'.parseUntil rbp stop')
      fun _ => .anything :=
  entering_mirrors (parseInput_mirrors hf) fun node => Run.mirrors_pure node fun _ hk => hk

end Parsing

end BindingPower
