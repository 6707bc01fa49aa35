import BindingPower.Proofs.Calc.CalcReading
import BindingPower.Proofs.Lockstep
import BindingPower.Table

/-! # Stricter configurations

A stricter configuration only rejects: a run under it is the same run, or it breaks off with the
report of a policy in which the two configurations differ. Nothing but the one test of each policy
depends on the configuration. -/
namespace BindingPower

variable {τ φ ν ε α β : Type} {sound : τ → Prop}

namespace Config

/-- Policies may only be switched on, and the depth only lowered. -/
structure Stricter (strict lenient : Config) : Prop where
  strictInterfix : lenient.strictInterfix = true → strict.strictInterfix = true
  requireEnd : lenient.requireEnd = true → strict.requireEnd = true
  maxDepth : strict.maxDepth ≤ lenient.maxDepth

/-- The reports of the policies in which two configurations differ. -/
def Differing (c d : Config) : Report τ φ ε → Prop
  | .missingInterfix _ _ => c.strictInterfix ≠ d.strictInterfix
  | .trailingInput _ => c.requireEnd ≠ d.requireEnd
  | .nestingTooDeep _ _ => c.maxDepth ≠ d.maxDepth
  | _ => False

end Config

/-- A cursor over sound tokens, none of which fails to be pulled. -/
def Cursor.Listed (sound : τ → Prop) (c : Cursor τ ε) : Prop :=
  ∃ tokens : List τ, c.items = tokens.map .token ∧ ∀ t ∈ tokens, sound t

/-- The streams that a callback brings along are lists of sound tokens, as long as those that are
left to it are. -/
inductive Callback.Listed (sound : τ → Prop) : Callback τ φ ν ε α → Prop where
  | value (a : α) : Listed sound (.value a)
  | fail (f : Failure τ φ ε) : Listed sound (.fail f)
  | parse {q : Request τ φ ε} {next : ν → Cursor τ ε → Callback τ φ ν ε α}
    (hq : ∀ c ∈ q.source, c.Listed sound) (h : ∀ v c, c.Listed sound → Listed sound (next v c)) :
    Listed sound (.parse q next)
  | take {next : Option τ → Callback τ φ ν ε α}
    (h : ∀ o, (∀ t ∈ o, sound t) → Listed sound (next o)) : Listed sound (.take next)

structure Grammar.Listed (sound : τ → Prop) (G : Grammar τ φ ν ε) : Prop where
  query : ∀ t, sound t → (G.query t).Listed sound
  nullary : ∀ t, sound t → (G.nullary t).Listed sound
  unary : ∀ t x, sound t → (G.unary t x).Listed sound
  binary : ∀ t x y, sound t → (G.binary t x y).Listed sound
  ternary : ∀ t x y z, sound t → (G.ternary t x y z).Listed sound
  isFollow : ∀ t e, sound t → (G.isFollow t e).Listed sound

def Stop.Listed (sound : τ → Prop) (stop : Stop τ φ ν ε) : Prop :=
  ∀ t, sound t → (stop t).Listed sound

structure Session.Listed (sound : τ → Prop) (s : Session τ φ ν ε) : Prop where
  main : s.main.Listed sound
  side : ∀ c ∈ s.side, c.Listed sound

/-- The same parser under another configuration. -/
def Parser.under (p : Parser τ φ ν ε) (c : Config) : Parser τ φ ν ε := { p with config := c }

theorem Cursor.listed_ofTokens {tokens : List τ} (h : ∀ t ∈ tokens, sound t) :
    (Cursor.ofTokens tokens : Cursor τ ε).Listed sound := ⟨tokens, rfl, h⟩

theorem Cursor.Listed.peek {c : Cursor τ ε} (h : c.Listed sound) :
    ∃ o d, c.peek = (.ok o, d) ∧ d.Listed sound ∧ ∀ t ∈ o, sound t := by
  obtain ⟨tokens, hi, ht⟩ := h
  obtain ⟨d, hp, hd, -⟩ := Cursor.peek_of_tokens hi
  exact ⟨tokens.head?, d, hp, ⟨tokens, hd, ht⟩, fun t h => ht t (List.mem_of_head? h)⟩

theorem Cursor.Listed.next {c : Cursor τ ε} (h : c.Listed sound) :
    ∃ o d, c.next = (.ok o, d) ∧ d.Listed sound ∧ ∀ t ∈ o, sound t := by
  obtain ⟨tokens, hi, ht⟩ := h
  obtain ⟨d, hn, hd, -⟩ := Cursor.next_of_tokens hi
  exact ⟨tokens.head?, d, hn, ⟨tokens.tail, hd, fun t h => ht t (List.mem_of_mem_tail h)⟩,
    fun t h => ht t (List.mem_of_head? h)⟩

namespace Session.Listed

variable {s : Session τ φ ν ε}

theorem cursor (h : s.Listed sound) : s.cursor.Listed sound := by
  unfold Session.cursor
  cases hs : s.side with
  | none => exact h.main
  | some c => exact h.side c hs

theorem withCursor (h : s.Listed sound) {c : Cursor τ ε} (hc : c.Listed sound) :
    (s.withCursor c).Listed sound := by
  unfold Session.withCursor
  cases hs : s.side with
  | none => exact ⟨hc, by simp⟩
  | some d => exact ⟨h.main, by simpa using hc⟩

end Session.Listed

namespace Run

/-- Two runs go on as the same session over lists of sound tokens. -/
def same (sound : τ → Prop) (excused : Report τ φ ε → Prop) : Bond τ φ ν ε where
  excused := excused
  holds _ s s' := s' = s ∧ s.Listed sound
  weaken h _ := h
  sized h := h
  depth h := by rw [h.1]
  record e h := ⟨by rw [h.1], h.2.main, h.2.side⟩
  deepen n h := ⟨by rw [h.1], h.2.main, h.2.side⟩
  surface n h := ⟨by rw [h.1], h.2.main, h.2.side⟩

variable {excused : Report τ φ ε → Prop} {K K' : Known τ ε} {L L' : α → Known τ ε}
  {M : β → Known τ ε} {m m' : Run τ φ ν ε α}

/-- Nothing more than the sessions is known. -/
theorem Mirrors.ofSame (h : Mirrors (same sound excused) K m m' L) :
    Mirrors (same sound excused) K' m m' L' := by
  intro s s' hs
  have hm := h s s' hs
  generalize m s = x at hm ⊢
  generalize m' s' = y at hm ⊢
  cases hm with
  | ok ht => exact .ok ht
  | error ht => exact .error ht
  | excused hr => exact .excused hr

theorem pure_same (a : α) :
    Mirrors (same sound excused) K (pure a : Run τ φ ν ε α) (pure a) L := fun _ _ hs => .ok hs

theorem peek_same {k k' : Option τ → Run τ φ ν ε β}
    (hk : ∀ o, (∀ t ∈ o, sound t) → Mirrors (same sound excused) K (k o) (k' o) M) :
    Mirrors (same sound excused) K (Run.reading Cursor.peek >>= k)
      (Run.reading Cursor.peek >>= k') M := by
  rintro s s' ⟨rfl, hs⟩
  obtain ⟨o, d, hp, hd, ho⟩ := hs.cursor.peek
  change Paired _ M (EStateM.bind (Run.reading Cursor.peek) k s')
    (EStateM.bind (Run.reading Cursor.peek) k' s')
  simp only [EStateM.bind, Run.reading, hp]
  exact hk o ho _ _ ⟨rfl, hs.withCursor hd⟩

theorem consume_same {L : Unit → Known τ ε} :
    Mirrors (same sound excused) K (consume : Run τ φ ν ε Unit) consume L := by
  rintro s s' ⟨rfl, hs⟩
  obtain ⟨o, d, hn, hd, -⟩ := hs.cursor.next
  change Paired _ L (EStateM.bind (Run.reading Cursor.next) _ s')
    (EStateM.bind (Run.reading Cursor.next) _ s')
  simp only [EStateM.bind, Run.reading, hn]
  exact .ok ⟨rfl, hs.withCursor hd⟩

theorem take_same {k k' : Option τ → Run τ φ ν ε β}
    (hk : ∀ o, (∀ t ∈ o, sound t) → Mirrors (same sound excused) K (k o) (k' o) M) :
    Mirrors (same sound excused) K (Run.readingMain Cursor.next >>= k)
      (Run.readingMain Cursor.next >>= k') M := by
  rintro s s' ⟨rfl, hs⟩
  obtain ⟨o, d, hn, hd, ho⟩ := hs.main.next
  change Paired _ M (EStateM.bind (Run.readingMain Cursor.next) k s')
    (EStateM.bind (Run.readingMain Cursor.next) k' s')
  simp only [EStateM.bind, Run.readingMain, hn]
  exact hk o ho _ _ ⟨rfl, hd, hs.side⟩

/-- What is left of a list of tokens is one again. -/
theorem within_same {side : Option (Cursor τ ε)} {k k' : α × Cursor τ ε → Run τ φ ν ε β}
    (h : Mirrors (same sound excused) .anything m m' fun _ => .anything)
    (hside : ∀ c ∈ side, c.Listed sound)
    (hk : ∀ a c, c.Listed sound → Mirrors (same sound excused) K (k (a, c)) (k' (a, c)) M) :
    Mirrors (same sound excused) K (Run.within side m >>= k) (Run.within side m' >>= k') M := by
  rintro s s' ⟨rfl, hs⟩
  have hm := h { s' with side := side } _ ⟨rfl, hs.main, hside⟩
  change Paired _ M (EStateM.bind (Run.within side m) k s')
    (EStateM.bind (Run.within side m') k' s')
  simp only [EStateM.bind, Run.within]
  generalize m { s' with side := side } = x at hm ⊢
  generalize m' { s' with side := side } = y at hm ⊢
  cases hm with
  | ok ht =>
    obtain ⟨rfl, ht⟩ := ht
    exact hk _ _ ht.cursor _ _ ⟨rfl, ht.main, hs.side⟩
  | error ht =>
    obtain ⟨rfl, ht⟩ := ht
    exact .error ⟨rfl, ht.main, hs.side⟩
  | excused hr => exact .excused hr

end Run

/-- The requests of a callback are carried out in step if runs are. -/
theorem Callback.Listed.perform {excused : Report τ φ ε → Prop} {K : Known τ ε}
    {L : α → Known τ ε} {callback : Callback τ φ ν ε α} (h : callback.Listed sound)
    {enter enter' : Goal → Option (StopTest τ φ ε) → Run τ φ ν ε ν}
    (he : ∀ goal tests, Run.Mirrors (Run.same sound excused) .anything (enter goal tests)
      (enter' goal tests) fun _ => .anything) :
    Run.Mirrors (Run.same sound excused) K (callback.perform enter) (callback.perform enter')
      L := by
  induction h with
  | value a => exact Run.pure_same a
  | fail f => exact Run.mirrors_throw f
  | parse hq _ ih => exact Run.within_same (he _ _) hq ih
  | take _ ih => exact Run.take_same ih

theorem Callback.listed_ofExcept (r : Except (Failure τ φ ε) α) :
    (Callback.ofExcept r : Callback τ φ ν ε α).Listed sound := by
  cases r with
  | ok a => exact .value a
  | error f => exact .fail f

theorem Callback.listed_requireEnd (c : Cursor τ ε) :
    (Callback.requireEnd c : Callback τ φ ν ε Unit).Listed sound := by
  unfold requireEnd
  split
  · exact .fail _
  · exact .value ()
  · exact .fail _

theorem Callback.Listed.bind {callback : Callback τ φ ν ε α} {k : α → Callback τ φ ν ε β}
    (h : callback.Listed sound) (hk : ∀ a, (k a).Listed sound) : (callback >>= k).Listed sound := by
  induction h with
  | value a => exact hk a
  | fail f => exact .fail f
  | parse hq _ ih => exact .parse hq ih
  | take _ ih => exact .take ih

theorem Callback.listed_group {items : List (Item τ ε)}
    (h : (Cursor.ofItems items).Listed sound) (goal : Goal) (tests : Option (StopTest τ φ ε)) :
    (Callback.group items goal tests : Callback τ φ ν ε (ν × Cursor τ ε)).Listed sound := by
  refine .parse (fun c hc => ?_) fun v c _ => .value (v, c)
  cases hc
  exact h

theorem StopTest.toStop_listed {tests : Option (StopTest τ φ ε)} :
    ∀ test ∈ tests.map (StopTest.toStop (ν := ν)), test.Listed sound := by
  intro test h t _
  obtain ⟨test, -, rfl⟩ := Option.map_eq_some_iff.mp h
  exact Callback.listed_ofExcept (test t)

namespace Parser

variable {p : Parser τ φ ν ε} {c : Config} {K : Known τ ε}

/-- A parser and its twin under another configuration. -/
abbrev twins (p : Parser τ φ ν ε) (c : Config) (sound : τ → Prop) : Bond τ φ ν ε :=
  Run.same sound (Config.Differing p.config c)

theorem calling_twins {L : α → Known τ ε} (call : Call τ φ ν) {body body' : Run τ φ ν ε α}
    (h : Run.Mirrors (p.twins c sound) K body body' L) :
    Run.Mirrors (p.twins c sound) K (p.calling call body) ((p.under c).calling call body') L := by
  refine (Run.Mirrors.catching h ?_).record _
  by_cases hd : c.maxDepth = p.config.maxDepth
  · exact .inl hd
  · exact .inr fun d => Ne.symm hd

section Twins

variable {enter enter' : Goal → Option (StopTest τ φ ε) → Run τ φ ν ε ν}
  (he : ∀ goal tests, Run.Mirrors (p.twins c sound) .anything (enter goal tests)
    (enter' goal tests) fun _ => .anything)

include he

theorem call_twins {L : α → Known τ ε} (call : Call τ φ ν) {callback : Callback τ φ ν ε α}
    (h : callback.Listed sound) :
    Run.Mirrors (p.twins c sound) K (p.calling call (callback.perform enter))
      ((p.under c).calling call (callback.perform enter')) L :=
  calling_twins call (h.perform he)

theorem visible_twins {stop : Option (Stop τ φ ν ε)} (hs : ∀ test ∈ stop, test.Listed sound) :
    Run.Looks (p.twins c sound) (.ofShown p.admits sound)
      (visible (p.asking enter stop)) (visible ((p.under c).asking enter' stop)) where
  mirrors K := by
    refine Run.peek_same fun o ho => ?_
    cases o with
    | none => exact Run.pure_same none
    | some t =>
      cases stop with
      | none => exact Run.pure_same (some t)
      | some test =>
        refine (call_twins he (L := fun _ => K) (.stop t) (hs test rfl t (ho t rfl))).bind
          fun yes => ?_
        cases yes with
        | true => exact Run.pure_same none
        | false => exact Run.pure_same (some t)
  shown _ s s' t u h hv := by
    obtain ⟨o, d, hp, -, ho⟩ := h.2.cursor.peek
    obtain ⟨d', hp', -⟩ := visible_found hv
    rw [hp] at hp'
    cases hp'
    exact ho t rfl

end Twins

/-- To look for the end where the other run does not changes nothing, or finds trailing input. -/
theorem peeking_twins (hd : p.config.requireEnd ≠ c.requireEnd) {L : ν → Known τ ε} (node : ν) :
    Run.Mirrors (p.twins c sound) K (pure node)
      (do
        match ← Run.reading Cursor.peek with
        | none => pure node
        | some t => Run.report (.trailingInput t)) L := by
  rintro s s' ⟨rfl, hs⟩
  obtain ⟨o, d, hp, -⟩ := hs.cursor.peek
  change Run.Paired _ L _ (EStateM.bind (Run.reading Cursor.peek) _ s')
  simp only [EStateM.bind, Run.reading, hp]
  cases o with
  | none =>
    rw [Cursor.peek_eq_self hp, Session.withCursor_cursor]
    exact .ok ⟨rfl, hs⟩
  | some t => exact .excused hd

section Levels

variable (hc : c.Stricter p.config)

include hc

theorem concluding_twins {L : ν → Known τ ε} (goal : Goal) (node : ν) :
    Run.Mirrors (p.twins c sound) K (p.concluding goal node) ((p.under c).concluding goal node)
      L := by
  unfold concluding
  by_cases hg : goal = .whole
  · cases hp : p.config.requireEnd with
    | true =>
      have hcend : (p.under c).config.requireEnd = true := hc.requireEnd hp
      simp only [hg, hcend, and_self, ↓reduceIte]
      refine Run.peek_same fun o _ => ?_
      cases o with
      | none => exact Run.pure_same node
      | some t => exact Run.mirrors_report _
    | false =>
      simp only [hg, Bool.false_eq_true, and_false, ↓reduceIte, true_and]
      split
      · rename_i hcend
        have hcend : c.requireEnd = true := hcend
        exact peeking_twins (by simp [hp, hcend]) node
      · exact Run.pure_same node
  · simp only [hg, false_and, ↓reduceIte]
    exact Run.pure_same node

theorem reentry_twins {inner inner' : Operand τ φ ν ε}
    (hi : ∀ stop : Option (Stop τ φ ν ε), (∀ test ∈ stop, test.Listed sound) → ∀ rbp head,
      sound head → Run.Mirrors (p.twins c sound) .anything (inner stop rbp head)
        (inner' stop rbp head) fun _ => .anything)
    (goal : Goal) (tests : Option (StopTest τ φ ε)) :
    Run.Mirrors (p.twins c sound) .anything (p.reentry inner goal tests)
      ((p.under c).reentry inner' goal tests) fun _ => .anything := by
  let enter : Goal → Option (StopTest τ φ ε) → Run τ φ ν ε ν := fun _ _ => throw .exhausted
  rw [reentry_eq p inner enter, reentry_eq (p.under c) inner' enter]
  refine entering_mirrors (L := fun _ => .anything) (fun rbp => ?_) (concluding_twins hc goal)
  exact startingAt_mirrors (visible_twins (fun _ _ => Run.mirrors_throw _) StopTest.toStop_listed)
    fun t ht => (hi _ StopTest.toStop_listed rbp t ht).ofSame

variable (hG : p.grammar.Listed sound)

include hG

theorem frame_twins {inner inner' below below' : Operand τ φ ν ε} {stop : Option (Stop τ φ ν ε)}
    (hs : ∀ test ∈ stop, test.Listed sound)
    (hi : ∀ goal tests, Run.Mirrors (p.twins c sound) .anything (p.reentry inner goal tests)
      ((p.under c).reentry inner' goal tests) fun _ => .anything)
    (hb : ∀ rbp head, sound head → Run.Mirrors (p.twins c sound) .anything (below stop rbp head)
      (below' stop rbp head) fun _ => .anything) :
    (p.frame inner below stop).Mirrors (p.twins c sound) ((p.under c).frame inner' below' stop)
      (.ofShown p.admits sound) where
  query K t ht := call_twins hi _ (hG.query t ht)
  nullary K t ht := call_twins hi _ (hG.nullary t ht)
  unary K t x ht := call_twins hi _ (hG.unary t x ht)
  binary K t x y ht := call_twins hi _ (hG.binary t x y ht)
  ternary K t x y z ht := call_twins hi _ (hG.ternary t x y z ht)
  isFollow K t e ht := call_twins hi _ (hG.isFollow t e ht)
  visible := visible_twins hi hs
  advance t J := Run.consume_same
  operand rbp J _ := startingAt_mirrors (visible_twins hi hs) fun t ht => (hb rbp t ht).ofSame
  strict := by
    by_cases hd : c.strictInterfix = p.config.strictInterfix
    · exact .inl hd
    · refine .inr fun mark found => ⟨Ne.symm hd, ?_⟩
      change c.strictInterfix = true
      cases hp : p.config.strictInterfix with
      | true => exact hc.strictInterfix hp
      | false => simpa [hp] using hd
  guard _ _ _ _ _ _ _ := rfl
  fuel rbp nbp lhs s s' h := by rw [h.1]

/-- With no more room left than before, an operand is read in step, or it is too deep. -/
theorem operandIn_twins {room room' : Nat} (hr : room' ≤ room)
    (heq : c.maxDepth = p.config.maxDepth → room' = room) {stop : Option (Stop τ φ ν ε)}
    (hs : ∀ test ∈ stop, test.Listed sound) (rbp : Precedence) (head : τ) (hh : sound head) :
    Run.Mirrors (p.twins c sound) .anything (p.operandIn room stop rbp head)
      ((p.under c).operandIn room' stop rbp head) fun _ => .anything := by
  -- the operands of a frame start one level below it, runs inside its callbacks further below
  induction room' using Nat.strongRecOn generalizing room stop rbp head with
  | ind room' ih =>
    cases room' with
    | zero =>
      rw [operandIn_zero]
      by_cases hd : c.maxDepth = p.config.maxDepth
      · rw [← heq hd, operandIn_zero]
        change Run.Mirrors _ _ _ (Run.report (.nestingTooDeep c.maxDepth none)) _
        rw [hd]
        exact Run.mirrors_report _
      · exact fun _ _ _ => .excused (Ne.symm hd)
    | succ n' =>
      obtain ⟨n, rfl⟩ : ∃ n, room = n + 1 := ⟨room - 1, by omega⟩
      rw [operandIn_succ, operandIn_succ]
      have rooms : n' ≤ n ∧ (c.maxDepth = p.config.maxDepth → n' = n) :=
        ⟨by omega, fun hd => by have := heq hd; omega⟩
      have below := ih n' (by omega) rooms.1 rooms.2 hs
      have inner (stop : Option (Stop τ φ ν ε)) (hs : ∀ test ∈ stop, test.Listed sound) :=
        ih (n' - reentryCost) (by omega) (Nat.sub_le_sub_right rooms.1 reentryCost)
          (fun hd => by rw [rooms.2 hd]) hs
      have frames := frame_twins hc hG hs (reentry_twins hc inner) below
      exact (frames.climb Known.anything_lasting rbp hh).ofSame.deeper _ _

theorem frameAt_twins (depth : Nat) {stop : Option (Stop τ φ ν ε)}
    (hs : ∀ test ∈ stop, test.Listed sound) :
    (p.frameAt depth stop).Mirrors (p.twins c sound) ((p.under c).frameAt depth stop)
      (.ofShown p.admits sound) := by
  have rooms (depth : Nat) : c.maxDepth - depth ≤ p.config.maxDepth - depth ∧
      (c.maxDepth = p.config.maxDepth → c.maxDepth - depth = p.config.maxDepth - depth) :=
    ⟨Nat.sub_le_sub_right hc.maxDepth depth, fun h => by rw [h]⟩
  have operand (depth : Nat) (stop : Option (Stop τ φ ν ε))
      (hs : ∀ test ∈ stop, test.Listed sound) :=
    operandIn_twins hc hG (rooms depth).1 (rooms depth).2 hs
  exact frame_twins hc hG hs (reentry_twins hc (operand (depth + charge depth)))
    (operand depth stop hs)

theorem parse_twins : Run.Mirrors (p.twins c sound) .anything p.parse (p.under c).parse
    fun _ => .anything :=
  entering_mirrors (parseInput_mirrors fun depth => frameAt_twins hc hG depth (by simp))
    (concluding_twins hc .whole)

end Levels

end Parser

namespace Table

/-- A symbol that has no broken one in it. -/
inductive Sound : Symbol → Prop where
  | word (text : String) : Sound (.word text)
  | number (value : Int) : Sound (.number value)
  | null : Sound .null
  | list {items : List Symbol} (h : ∀ s ∈ items, Sound s) : Sound (.list items)

theorem listed_ofItems {items : List Symbol} (h : Sound (.list items)) :
    (Cursor.ofItems (items.map item)).Listed Sound := by
  cases h with
  | list h =>
    refine ⟨items, List.map_congr_left fun s hs => ?_, h⟩
    cases h s hs <;> rfl

variable (table : Table)

theorem answer_listed {kind : CallKind} {t : Symbol} {body : Answer α} (h : body.Listed Sound) :
    (table.answer kind t body).Listed Sound := by
  unfold answer
  split
  · exact .fail _
  · exact h

theorem readGroup_listed {items : List Symbol} (h : Sound (.list items)) :
    (table.readGroup items).Listed Sound := by
  have group := Callback.listed_group (φ := Symbol) (ν := Node) (listed_ofItems h)
  unfold readGroup
  split
  · exact (group _ _).bind fun _ => .value _
  · exact (group _ _).bind fun _ => .value _
  · exact (group _ _).bind fun x => (Callback.listed_requireEnd x.2).bind fun _ => .value _

theorem readBracketed_listed (closing : Symbol) : (table.readBracketed closing).Listed Sound := by
  refine .parse (by simp) fun node c _ => .take fun o _ => ?_
  cases o with
  | none => exact .fail _
  | some t => exact .value _

theorem readLeaf_listed {t : Symbol} (h : Sound t) : (table.readLeaf t).Listed Sound := by
  unfold readLeaf
  split
  · exact table.readGroup_listed h
  · split
    · exact table.readBracketed_listed _
    · exact .value _
  · exact .value _

theorem classify_listed (t : Symbol) : (table.classify t).Listed Sound := by
  unfold classify
  split
  · split
    · exact .value _
    · split
      · exact .value _
      · exact .fail _
  · exact .value _

theorem grammar_listed : table.grammar.Listed Sound where
  query t _ := table.answer_listed (table.classify_listed t)
  nullary _ h := table.answer_listed (table.readLeaf_listed h)
  unary _ _ _ := table.answer_listed (.value _)
  binary _ _ _ _ := table.answer_listed (.value _)
  ternary _ _ _ _ _ := table.answer_listed (.value _)
  isFollow _ _ _ := table.answer_listed (.value _)

end Table

namespace Calc

theorem readGroup_listed (members : List Token) :
    (readGroup members).Listed fun _ => True :=
  (Callback.listed_group ⟨members, rfl, fun _ _ => trivial⟩ _ _).bind fun x =>
    (Callback.listed_requireEnd x.2).bind fun _ => .value _

theorem Prompt.listed {α : Type} {c : Answer α} (h : Prompt c) : c.Listed fun _ => True := by
  cases h with
  | value a => exact .value a
  | fault e => exact .fail _

theorem readLeaf_listed (t : Token) : (readLeaf t).Listed fun _ => True := by
  by_cases hk : t.kind = .group
  · rw [readLeaf, hk]
    exact readGroup_listed t.children
  · exact (readLeaf_prompt hk).listed

theorem grammar_listed : grammar.Listed fun _ => True where
  query t _ := (classify_prompt t).listed
  nullary t _ := readLeaf_listed t
  unary t x _ := (buildUnary_prompt t x).listed
  binary t x y _ := (buildBinary_prompt t x y).listed
  ternary t x y z _ := (buildTernary_prompt t x y z).listed
  isFollow _ _ _ := .value _

end Calc

/-- A stricter configuration leads to the same outcome and the same session, or to the report of a
policy that it changes. -/
theorem Parser.parse_of_stricter {p : Parser τ φ ν ε} {c : Config} {s : Session τ φ ν ε}
    (hc : c.Stricter p.config) (hG : p.grammar.Listed sound) (hs : s.Listed sound) :
    ((p.under c).parse s = p.parse s ∨ ∃ r t, (p.under c).parse s = .error (.report r) t ∧
      Config.Differing p.config c r) ∧
    ∀ x t, (p.under c).parse s = .ok x t → p.parse s = .ok x t := by
  have h := parse_twins hc hG s s ⟨rfl, hs⟩
  generalize p.parse s = x at h ⊢
  generalize (p.under c).parse s = y at h ⊢
  cases h with
  | ok h => exact ⟨.inl (by rw [h.1]), fun _ _ hy => by rw [← hy, h.1]⟩
  | error h => exact ⟨.inl (by rw [h.1]), fun _ _ hy => by cases hy⟩
  | excused h => exact ⟨.inr ⟨_, _, rfl, h⟩, fun _ _ hy => by cases hy⟩

namespace Calc

/-- The tokens of `if (x) then y else z`. -/
def conditional : List Token :=
  [.mk .keyword "if" [] none, .mk .group "" [.mk .ident "x" [] none] none,
    .mk .keyword "then" [] none, .mk .ident "y" [] none, .mk .keyword "else" [] none,
    .mk .ident "z" [] none]

theorem parse_of_stricter_conditional :
    ∃ t, ((parser .standard).under ⟨true, true, 5, by decide⟩).parse
        (.start (.ofTokens conditional)) =
          .ok (.ternary .ifThenElse (.ident "x") (.ident "y") (.ident "z")) t ∧
      (parser .standard).parse (.start (.ofTokens conditional)) =
        .ok (.ternary .ifThenElse (.ident "x") (.ident "y") (.ident "z")) t := by
  have hstricter : Config.Stricter ⟨true, true, 5, by decide⟩ (parser .standard).config :=
    ⟨fun _ => rfl, fun _ => rfl, by decide⟩
  have hreturned : returned? (((parser .standard).under ⟨true, true, 5, by decide⟩).parse
      (.start (.ofTokens conditional))) =
        some (.ternary .ifThenElse (.ident "x") (.ident "y") (.ident "z")) := by
    decide +kernel
  have hlisted : (Session.start (Cursor.ofTokens conditional) :
      Session Token String Expr Fault).Listed fun _ => True :=
    ⟨Cursor.listed_ofTokens fun _ _ => trivial, by simp [Session.start]⟩
  obtain ⟨t, ht⟩ := returned?_eq_some.mp hreturned
  exact ⟨t, ht, (Parser.parse_of_stricter hstricter grammar_listed hlisted).2 _ _ ht⟩

end Calc

end BindingPower
