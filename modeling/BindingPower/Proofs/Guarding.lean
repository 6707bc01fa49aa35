import BindingPower.Proofs.Surveying

/-! # When the upper bound of the guard matters

A continuation has to bind looser than the operator before it allows. Where no operator refuses to
chain, that is never put to the test: what would bind tighter has already been taken by the last
operand of that operator, and so the lower bound alone leads to the same runs. -/
namespace BindingPower

variable {τ φ ν ε : Type}

/-- The test by which only the floor of the operand counts. -/
def above (rbp lbp _ : Precedence) : Bool := rbp < lbp

namespace Operator

/-- An operator that is given by a shape, or by two such operators that share a token. -/
inductive Formed : Operator φ → Prop where
  | shape (s : Shape φ) : Formed (ofShape s)
  | both {a b op : Operator φ} (ha : a.Formed) (hb : b.Formed) (h : either a b = .ok op) :
    Formed op

theorem formed_single {s : Shape φ} (h : s.affix.parts? = none) : (single s).Formed := by
  have hs : ofShape s = single s := by
    simp only [ofShape, Affix.isComposite, h, Option.isSome_none, Bool.false_eq_true, ↓reduceIte]
  rw [← hs]
  exact .shape s

theorem either_dual {a b op : Operator φ} (h : either a b = .ok op) :
    ∃ s l c, op = dual s l c ∧ s.affix.parts?.isSome ∧ (l = a ∧ c = b ∨ l = b ∧ c = a) := by
  unfold either at h
  split at h
  · cases h
  · split at h
    · cases h
    · rename_i hp
      split at h
      · cases h
        exact ⟨_, _, _, rfl, by simp [hp], .inl ⟨rfl, rfl⟩⟩
      · cases h
        exact ⟨_, _, _, rfl, by simp [hp], .inr ⟨rfl, rfl⟩⟩

/-- Only a token with one part has an affix that plays one. -/
theorem Formed.eq_single {op : Operator φ} (h : op.Formed) (ha : op.affix.parts? = none) :
    ∃ s, op = single s := by
  cases h with
  | shape s =>
    unfold ofShape at ha ⊢
    split
    · rename_i hc
      rw [if_pos hc] at ha
      change s.affix.parts? = none at ha
      simp [Affix.isComposite, ha] at hc
    · exact ⟨s, rfl⟩
  | both _ _ he =>
    obtain ⟨s, l, c, rfl, hs, -⟩ := either_dual he
    change s.affix.parts? = none at ha
    simp [ha] at hs

theorem Formed.parts {op : Operator φ} (h : op.Formed) :
    op.leading.Formed ∧ op.continuing.Formed := by
  cases h with
  | shape s =>
    unfold ofShape
    split
    · refine ⟨formed_single ?_, formed_single ?_⟩
      · cases s.affix <;> rfl
      · cases s.affix <;> rfl
    · rename_i hc
      have hp : s.affix.parts? = none := by simpa [Affix.isComposite] using hc
      exact ⟨formed_single hp, formed_single hp⟩
  | both ha hb he =>
    obtain ⟨s, l, c, rfl, -, ⟨rfl, rfl⟩ | ⟨rfl, rfl⟩⟩ := either_dual he
    · exact ⟨ha, hb⟩
    · exact ⟨hb, ha⟩

theorem Formed.starting_eq {op : Operator φ} (h : op.Formed) (ha : op.leading.affix.parts? = none) :
    op.starting = op.leading := by
  obtain ⟨s, hs⟩ := h.parts.1.eq_single ha
  rw [starting, hs, leading_single]

theorem Formed.extending_eq {op : Operator φ} (h : op.Formed)
    (ha : op.continuing.affix.parts? = none) : op.extending = op.continuing := by
  obtain ⟨s, hs⟩ := h.parts.2.eq_single ha
  rw [extending, hs, continuing_single]

/-- What is declared of a token that may be chained. -/
structure Chains (op : Operator φ) : Prop where
  formed : op.Formed
  declared : op.Declared
  associates : op.extending.affix = .infixed → op.extending.associativity ≠ .neither

theorem rightPower_lt_nextPower {op : Operator φ} (hd : op.precedence.val ≤ Precedence.maxDeclared)
    (ha : op.affix = .infixed) (hn : op.associativity ≠ .neither) :
    op.rightPower.val < op.nextPower.val := by
  have hr := rightPower_val hd
  have hx := nextPower_val hd ha
  rw [if_neg hn] at hx
  cases h : op.associativity with
  | neither => exact absurd h hn
  | left => simp only [h] at hr; omega
  | right => simp only [h] at hr; omega

theorem Chains.leftPower_lt_top {op : Operator φ} (h : op.Chains) :
    op.leftPower.val < Precedence.top.val := by
  have hmax : Precedence.maxDeclared = 429496728 := rfl
  have htop : Precedence.top.val = 4294967295 := rfl
  have bound (ha : op.extending.affix = .postfixed ∨ op.extending.affix = .infixed) :
      op.extending.precedence.normalize.val < Precedence.top.val := by
    have hd := h.declared.2 ha
    rw [Precedence.normalize_of_le hd]
    omega
  unfold leftPower
  split
  · rename_i ha
    have he := h.formed.extending_eq (by rw [ha]; rfl)
    rw [← he] at ha ⊢
    exact bound (.inl ha)
  · rename_i ha
    have he := h.formed.extending_eq (by rw [ha]; rfl)
    rw [← he] at ha ⊢
    exact bound (.inr ha)
  · simp [Precedence.bottom, htop]

/-- Behind the last operand of a chaining operator, whatever binds no tighter than that operand
keeps below the next power. -/
theorem Chains.lt_nextPower {op : Operator φ} (h : op.Chains) {q : Precedence}
    (ht : q.val < Precedence.top.val)
    (hr : op.extending.affix = .infixed → q.val ≤ op.extending.rightPower.val) :
    q.val < op.continuing.nextPower.val := by
  by_cases ha : op.continuing.affix = .infixed
  · have he := h.formed.extending_eq (by rw [ha]; rfl)
    rw [← he] at ha ⊢
    have hlt := rightPower_lt_nextPower (h.declared.2 (.inr ha)) ha (h.associates ha)
    have := hr ha
    omega
  · rwa [nextPower_of_ne ha]

theorem Chains.nextPower_leading {op : Operator φ} (h : op.Chains)
    (ha : op.starting.affix ≠ .infixed) : op.leading.nextPower = .top := by
  refine nextPower_of_ne fun hl => ha ?_
  rw [h.formed.starting_eq (by rw [hl]; rfl), hl]

end Operator

/-- Behind an operand no token binds tighter than its floor, and in its loop a token that binds
tighter stays below the next power. -/
def Insight.ofPowers {query : τ → Except (Failure τ φ ε) (Operator φ)}
    (hq : ∀ t op, query t = .ok op → op.Chains) (sight : τ → Prop) : Insight τ φ ε between where
  shown := sight
  classified t op := query t = .ok op
  behind p items := ∀ t op, items.head? = some (.token t) → sight t → query t = .ok op →
    op.leftPower.val ≤ p.val
  within rbp nbp items := ∀ t op, items.head? = some (.token t) → sight t → query t = .ok op →
    rbp.val < op.leftPower.val → op.leftPower.val < nbp.val
  behind_hidden h t op ht hs _ := absurd hs (h t ht)
  behind_refused := by
    intro rbp nbp t op items hw ht hs hc ha u op' hu _ hc'
    cases ht.symm.trans hu
    cases hc.symm.trans hc'
    refine Nat.le_of_not_lt fun hlow => ?_
    -- the guard has refused the token, and it was not the upper bound that did
    have hhigh := hw t op ht hs hc hlow
    simp [between, Precedence.lt_iff, hlow, hhigh] at ha
  within_started := by
    intro rbp t op items hc ha u op' _ _ hc' _
    rw [(hq t op hc).nextPower_leading ha]
    exact (hq u op' hc').leftPower_lt_top
  within_extended := by
    intro rbp nbp t op items hc _ hb u op' hu hs hc' _
    exact (hq t op hc).lt_nextPower (hq u op' hc').leftPower_lt_top fun ha => hb ha u op' hu hs hc'

/-- A grammar that classifies tokens by a table, none of whose operators refuses to chain, and
leaves the stream that is being parsed alone. -/
structure Grammar.Chaining (G : Grammar τ φ ν ε) (query : τ → Except (Failure τ φ ε) (Operator φ)) :
    Prop where
  classifies : ∀ t, G.query t = .ofExcept (query t)
  chains : ∀ t op, query t = .ok op → op.Chains
  detached : G.Detached

/-- Guards that agree wherever the lower bound implies the upper one. -/
def Agreeing (g : Precedence → Precedence → Precedence → Bool) : Prop :=
  ∀ rbp lbp nbp, (rbp.val < lbp.val → lbp.val < nbp.val) → g rbp lbp nbp = between rbp lbp nbp

theorem agreeing_above : Agreeing above := by
  intro rbp lbp nbp h
  simp only [above, between, Precedence.lt_iff]
  by_cases hlow : rbp.val < lbp.val
  · simp [hlow, h hlow]
  · simp [hlow]

namespace Parser

variable {config : Config} {G : Grammar τ φ ν ε}
  {query : τ → Except (Failure τ φ ε) (Operator φ)}
  {g : Precedence → Precedence → Precedence → Bool}

def surveyPowers (config : Config) (h : G.Chaining query) (hg : Agreeing g) :
    (ofGrammar config G).Survey g where
  insight := .ofPowers h.chains
  shown _ := rfl
  classified _ t op hr := by
    change (G.query t).Returns op at hr
    rw [h.classifies] at hr
    exact Callback.returns_ofExcept hr
  guard _ {rbp nbp t op items} hw hs hc := hg rbp op.leftPower nbp (hw t op hs.1 hs.2 hc)

end Parser

/-- The states in which the loops of a frame look for a continuation: the floor, the next power,
the expression so far and the session. -/
inductive Frame.Loops (f : Frame τ φ ν ε) (rbp : Precedence) :
    Precedence → ν → Session τ φ ν ε → Prop where
  | start {s s₁ s₂ s₃ s₄ : Session τ φ ν ε} {head : τ} {op : Operator φ} {node : ν}
    (hv : f.visible s = .ok (some head) s₁) (hc : consume s₁ = .ok () s₂)
    (hq : f.query head s₂ = .ok op s₃) (hn : f.nud head op.leading s₃ = .ok node s₄) :
    Loops f rbp op.leading.nextPower node s₄
  | step {nbp : Precedence} {lhs node : ν} {s s₁ s₂ s₃ s₄ : Session τ φ ν ε} {t : τ}
    {op : Operator φ} (h : Loops f rbp nbp lhs s) (hv : f.visible s = .ok (some t) s₁)
    (hq : f.query t s₁ = .ok op s₂) (ha : f.parser.admits rbp op.leftPower nbp = true)
    (hc : consume s₂ = .ok () s₃) (hl : f.led t op.continuing lhs s₃ = .ok node s₄) :
    Loops f rbp op.continuing.nextPower node s₄

namespace Frame.Loops

variable {f : Frame τ φ ν ε} {k : Insight τ φ ε f.parser.admits} {keep : Event τ φ ν → Bool}
  {rbp nbp : Precedence} {lhs : ν} {s : Session τ φ ν ε}

theorem within (h : Loops f rbp nbp lhs s)
    (hf : ∀ m, f.Mirrors (Run.alike keep Eq m m) f k) : k.within rbp nbp s.cursor.items := by
  induction h with
  | @start s s₁ s₂ s₃ s₄ head op node hv hc hq hn =>
    have frames := hf s.behind
    have hs : (Run.alike keep Eq s.behind s.behind).holds .anything s s := Run.alike_self trivial
    have hh := frames.visible.shown _ s s head s₁ hs hv
    have h₁ := (frames.visible.mirrors _).self hs hv
    have h₂ := ((frames.advance head .anything).strengthen fun _ hk => ⟨hk.2, trivial⟩).self h₁ hc
    have h₃ := (frames.query _ head hh).self h₂ hq
    have known : Known.Lasting fun items : List (Item τ ε) =>
        Known.anything items ∧ k.classified head op := fun _ hk => hk
    have h₄ := (frames.nud known hh op.leading).self h₃ hn
    exact k.within_started h₄.2.1.2 h₄.2.2
  | @step nbp lhs node s s₁ s₂ s₃ s₄ t op _ hv hq ha hc hl ih =>
    have frames := hf s.behind
    have hs : (Run.alike keep Eq s.behind s.behind).holds .anything s s := Run.alike_self trivial
    have hh := frames.visible.shown _ s s t s₁ hs hv
    have h₁ := (frames.visible.mirrors _).self hs hv
    have h₂ := (frames.query _ t hh).self h₁ hq
    have h₃ := ((frames.advance t fun _ => k.classified t op).strengthen
      fun _ hk => ⟨hk.1.2, hk.2⟩).self h₂ hc
    have h₄ := (frames.led (fun _ hk => hk) hh op.continuing lhs).self h₃ hl
    exact k.within_extended h₄.2.1 ha h₄.2.2

end Frame.Loops

namespace Parser

variable {config : Config} {G : Grammar τ φ ν ε} {query : τ → Except (Failure τ φ ε) (Operator φ)}
  {g : Precedence → Precedence → Precedence → Bool}

/-- A token that binds tighter than the floor of a loop which comes to it stays below the next
power. -/
theorem lt_nextPower_of_loops (config : Config) (h : G.Chaining query) {inner below : Nat}
    {tests : Option (StopTest τ φ ε)} {rbp nbp : Precedence} {lhs : ν} {s s₁ s₂ : Session τ φ ν ε}
    {t : τ} {op : Operator φ} {f : Frame τ φ ν ε}
    (hf : f = (ofGrammar config G).frame ((ofGrammar config G).operandIn inner)
      ((ofGrammar config G).operandIn below) (tests.map StopTest.toStop))
    (hloops : f.Loops rbp nbp lhs s) (hv : f.visible s = .ok (some t) s₁)
    (hq : f.query t s₁ = .ok op s₂) (hlow : rbp < op.leftPower) : op.leftPower < nbp := by
  subst hf
  have frames (m : Option (Cursor τ ε)) :
      Frame.Mirrors (Run.alike (fun _ => true) Eq m m) _ _ _ :=
    frameIn_alike (surveyPowers config h fun _ _ _ _ => rfl) h.detached inner below tests
  have hs : (Run.alike (fun _ => true) Eq s.behind s.behind).holds _ s s :=
    Run.alike_self (hloops.within frames)
  have h₁ := ((frames s.behind).visible.mirrors _).self hs hv
  have hh := (frames s.behind).visible.shown _ s s t s₁ hs hv
  obtain ⟨-, ⟨hwithin, hsees⟩, hc⟩ := ((frames s.behind).query _ t hh).self h₁ hq
  exact hwithin t op hsees.1 hh hc hlow

/-- A parser goes in the same way to the same end with any guard that agrees with its own wherever
the lower bound implies the upper one. -/
theorem parseUntil_of_agreeing (config : Config) (h : G.Chaining query) (hg : Agreeing g)
    (rbp : Int) (tests : Option (StopTest τ φ ε)) (s : Session τ φ ν ε) :
    ((ofGrammar config G).guarded g).parseUntil rbp (tests.map StopTest.toStop) s =
      (ofGrammar config G).parseUntil rbp (tests.map StopTest.toStop) s := by
  have frames (depth : Nat) :
      Frame.Mirrors (Run.alike (fun _ => true) Eq s.behind s.behind) _ _ _ :=
    frameAt_alike (surveyPowers config h hg) h.detached depth tests
  have hends := parseUntil_mirrors frames rbp s s (Run.alike_self trivial)
  generalize (ofGrammar config G).parseUntil rbp (tests.map StopTest.toStop) s = x at hends ⊢
  generalize ((ofGrammar config G).guarded g).parseUntil rbp (tests.map StopTest.toStop) s = y
    at hends ⊢
  cases hends with
  | ok ht => rw [ht.1.eq]
  | error ht => rw [ht.1.eq]
  | excused hr => exact hr.elim

/-- Where no operator refuses to chain, the guard of a loop is never put to the test by its upper
bound; and without it a parser goes on in the same way to the same end. -/
theorem parseUntil_guarded_above (config : Config) (h : G.Chaining query) :
    (∀ inner below (tests : Option (StopTest τ φ ε)) rbp nbp lhs s t s₁ op s₂,
      let f := (ofGrammar config G).frame ((ofGrammar config G).operandIn inner)
        ((ofGrammar config G).operandIn below) (tests.map StopTest.toStop)
      f.Loops rbp nbp lhs s → f.visible s = .ok (some t) s₁ → f.query t s₁ = .ok op s₂ →
        rbp < op.leftPower → op.leftPower < nbp) ∧
    ∀ rbp (tests : Option (StopTest τ φ ε)) s,
      ((ofGrammar config G).guarded above).parseUntil rbp (tests.map StopTest.toStop) s =
        (ofGrammar config G).parseUntil rbp (tests.map StopTest.toStop) s := by
  constructor
  · intro inner below tests rbp nbp lhs s t s₁ op s₂ f hloops hv hq hlow
    exact lt_nextPower_of_loops config h rfl hloops hv hq hlow
  · intro rbp tests s
    exact parseUntil_of_agreeing config h agreeing_above rbp tests s

end Parser

namespace Table

variable (table : Table)

theorem verdict_eq_ok {t : Symbol} {op : Operator Symbol} (h : table.verdict t = .ok op) :
    op = .nilfix ∨ ∃ s, (s, op) ∈ table.operators := by
  unfold verdict at h
  split at h
  · cases h
  · split at h
    · rename_i hl
      cases h
      obtain ⟨l₁, l₂, heq, -⟩ := List.lookup_eq_some_iff.mp hl
      exact .inr ⟨_, heq ▸ List.mem_append_right l₁ List.mem_cons_self⟩
    · split at h
      · cases h; exact .inl rfl
      · cases h
  · cases h; exact .inl rfl

theorem chains_nilfix : (Operator.nilfix : Operator Symbol).Chains :=
  ⟨Operator.formed_single rfl, ⟨by decide, by decide⟩, by decide⟩

/-- A table without brackets is read by the lower bound alone if its operators chain. -/
theorem grammar_chaining (hb : table.brackets = none) (h : ∀ e ∈ table.operators, e.2.Chains) :
    table.grammar.Chaining table.verdict where
  classifies := table.query_eq_verdict
  chains t op hv := by
    rcases table.verdict_eq_ok hv with rfl | ⟨s, hs⟩
    · exact chains_nilfix
    · exact h (s, op) hs
  detached := table.grammar_detached hb

/-- Signs that also lead, a power on the right, and a conditional between its branches. -/
def signs : Table :=
  ⟨[("+", .infixed (.saturate 3) .left),
    ("-", .prefixedOrInfixed (.saturate 6) (.saturate 3) .left),
    ("^", .infixed (.saturate 7) .right),
    ("when", .mixfix .infixed (.saturate 1) [.word "else"] .right),
    ("else", .interfix)], .plain, none, .exact, []⟩

theorem signs_chains : ∀ e ∈ signs.operators, e.2.Chains := by
  have simple (s : Shape Symbol) (ha : s.affix.parts? = none)
      (hp : s.precedence.val ≤ Precedence.maxDeclared)
      (hn : s.affix = .infixed → s.associativity ≠ .neither) : (Operator.single s).Chains :=
    ⟨Operator.formed_single ha, ⟨fun _ => hp, fun _ => hp⟩, hn⟩
  simp only [signs, List.forall_mem_cons]
  refine ⟨simple _ rfl (by decide) (by decide), ?_, simple _ rfl (by decide) (by decide),
    simple _ rfl (by decide) (by decide), simple _ rfl (by decide) (by decide), by simp⟩
  exact ⟨.both (Operator.formed_single rfl) (Operator.formed_single rfl)
    (Operator.either_prefixed_infixed _ _ _), ⟨fun _ => by decide, fun _ => by decide⟩, by decide⟩

theorem parseUntil_guarded_above_signs :
    returned? (((signs.parser .standard).guarded above).parseUntil 0 none
      (.start (.ofTokens [.word "a", .word "+", .word "-", .word "b", .word "^", .word "c",
        .word "-", .word "d"]))) =
      some (.binary (.word "-")
        (.binary (.word "+") (.leaf (.word "a"))
          (.unary (.word "-") (.binary (.word "^") (.leaf (.word "b")) (.leaf (.word "c")))))
        (.leaf (.word "d"))) := by
  have chaining := signs.grammar_chaining rfl signs_chains
  have same := (Parser.parseUntil_guarded_above .standard chaining).2 0 none
  change returned? (((Parser.ofGrammar .standard signs.grammar).guarded above).parseUntil 0
    (none.map StopTest.toStop) _) = _
  rw [same]
  decide +kernel

end Table

end BindingPower
