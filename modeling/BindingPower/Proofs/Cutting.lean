import BindingPower.Proofs.Surveying

/-! # Stop predicates cut the stream

A run that is kept before the tokens of a predicate does what it would do if the stream ended where
the first of them stands. Apart from the questions to the predicate the two runs leave the same log,
so that no such token is ever classified or consumed. -/
namespace BindingPower

variable {τ φ ν ε : Type}

/-- The second cursor ends where the first one comes to a token of the predicate. -/
structure Cursor.Cut (test : τ → Bool) (rest : List (Item τ ε)) (c c' : Cursor τ ε) : Prop where
  items : c.items = c'.items ++ rest
  clear : ∀ i ∈ c'.items, ∃ t, i = .token t ∧ test t = false
  stops : ∀ i, rest.head? = some i → ∃ t, i = .token t ∧ test t = true
  position : c'.position = c.position

variable {test : τ → Bool} {rest : List (Item τ ε)}

namespace Cursor.Cut

variable {c c' d d' : Cursor τ ε}

/-- Both streams have ended, or the first has come to the cut, or both have the same token next. -/
theorem cases (h : Cut test rest c c') :
    (c.items = [] ∧ c'.items = []) ∨
    (∃ t, c.items.head? = some (.token t) ∧ test t = true ∧ c'.items = []) ∨
    ∃ t, c.items.head? = some (.token t) ∧ test t = false ∧
      c'.items.head? = some (.token t) := by
  have hi := h.items
  cases hc : c'.items with
  | nil =>
    rw [hc, List.nil_append] at hi
    cases hr : rest with
    | nil => exact .inl ⟨hi.trans hr, rfl⟩
    | cons i is =>
      obtain ⟨t, rfl, ht⟩ := h.stops i (by rw [hr]; rfl)
      exact .inr (.inl ⟨t, by rw [hi, hr]; rfl, ht, rfl⟩)
  | cons i is =>
    obtain ⟨t, rfl, ht⟩ := h.clear i (by rw [hc]; exact List.mem_cons_self)
    exact .inr (.inr ⟨t, by rw [hi, hc]; rfl, ht, rfl⟩)

/-- Where there is a token before the cut, both cursors have it. -/
theorem head (h : Cut test rest c c') {t : τ} (ht : c.items.head? = some (.token t))
    (hf : test t = false) : c'.items.head? = some (.token t) := by
  rcases h.cases with ⟨hnil, -⟩ | ⟨u, hu, hstop, -⟩ | ⟨u, hu, -, hu'⟩
  · simp [hnil] at ht
  · rw [hu] at ht
    cases ht
    simp [hf] at hstop
  · rw [hu] at ht
    cases ht
    exact hu'

theorem peeked (h : Cut test rest c c') (hi : d.items = c.items) (hp : d.position = c.position)
    (hi' : d'.items = c'.items) (hp' : d'.position = c'.position) : Cut test rest d d' where
  items := by rw [hi, hi', h.items]
  clear := by rw [hi']; exact h.clear
  stops := h.stops
  position := by rw [hp, hp', h.position]

theorem eaten (h : Cut test rest c c') {i : Item τ ε} (hi : c.items = i :: d.items)
    (hp : d.position = c.position + 1) (hi' : c'.items = i :: d'.items)
    (hp' : d'.position = c'.position + 1) : Cut test rest d d' where
  items := by simpa [hi, hi'] using h.items
  clear j hj := h.clear j (by rw [hi']; exact List.mem_cons_of_mem i hj)
  stops := h.stops
  position := by rw [hp, hp', h.position]

end Cursor.Cut

/-- A list of tokens is cut where the first one stands at which the predicate holds. -/
theorem Cursor.cut_takeWhile (test : τ → Bool) {c c' : Cursor τ ε} {tokens : List τ}
    (hi : c.items = tokens.map .token)
    (hi' : c'.items = (tokens.takeWhile fun t => !test t).map .token)
    (hp : c'.position = c.position) :
    Cut test ((tokens.dropWhile fun t => !test t).map .token) c c' where
  items := by rw [hi, hi', ← List.map_append, List.takeWhile_append_dropWhile]
  clear i hm := by
    rw [hi'] at hm
    obtain ⟨t, ht, rfl⟩ := List.mem_map.mp hm
    have hpass := List.all_eq_true.mp List.all_takeWhile t ht
    exact ⟨t, rfl, by simpa using hpass⟩
  stops i hm := by
    rw [List.head?_map] at hm
    obtain ⟨t, ht, rfl⟩ := Option.map_eq_some_iff.mp hm
    have hstop := List.head?_dropWhile_not (fun t => !test t) tokens
    rw [ht] at hstop
    exact ⟨t, rfl, by simpa using hstop⟩
  position := hp

namespace Parser

variable {p : Parser τ φ ν ε} {m w : Option (Cursor τ ε)}

/-- A predicate is asked about the token that is next. -/
theorem visible_ofPredicate (p : Parser τ φ ν ε) (test : τ → Bool)
    (enter : Goal → Option (StopTest τ φ ε) → Run τ φ ν ε ν) {s : Session τ φ ν ε} {t : τ}
    (h : s.cursor.items.head? = some (.token t)) :
    ∃ d, d.items = s.cursor.items ∧ d.position = s.cursor.position ∧
      visible (p.asking enter (some (Stop.ofPredicate test))) s =
        .ok (if test t then none else some t) ((s.withCursor d).record (.called (.stop t))) ∧
      visible (p.asking enter none) s = .ok (some t) (s.withCursor d) := by
  obtain ⟨d, hp, hi, hpos⟩ := Cursor.peek_of_head h
  have hpeek : Run.reading Cursor.peek s = .ok (some t) (s.withCursor d) := by
    simp only [Run.reading, hp]
  refine ⟨d, hi, hpos, (bind_of_ok hpeek _).trans ?_, bind_of_ok hpeek _⟩
  have asked : p.calling (.stop t) ((Stop.ofPredicate test t).perform enter) (s.withCursor d) =
      .ok (test t) ((s.withCursor d).record (.called (.stop t))) := rfl
  refine (bind_of_ok asked _).trans ?_
  cases test t <;> rfl

theorem visible_cut {enter enter' : Goal → Option (StopTest τ φ ε) → Run τ φ ν ε ν} :
    Run.Looks (Run.alike Event.notStop (Cursor.Cut test rest) m w)
      (.ofShown p.admits fun t => test t = false)
      (visible (p.asking enter (some (Stop.ofPredicate test))))
      (visible (p.asking enter' none)) where
  mirrors K := by
    rintro s s' ⟨hs, hk⟩
    rcases hs.cursor.cases with ⟨hi, hi'⟩ | ⟨t, ht, hstop, hi'⟩ | ⟨t, ht, hpass, ht'⟩
    · rw [visible_of_nil hi, visible_of_nil hi']
      exact .ok ⟨hs, hk, fun t ht => by simp [hi, Insight.Sees] at ht⟩
    · obtain ⟨d, hd, hpos, hv, -⟩ := visible_ofPredicate p test enter ht
      rw [hv, visible_of_nil hi', if_pos hstop]
      have cut := hs.withCursor (hs.cursor.peeked hd hpos rfl rfl)
      rw [Session.withCursor_cursor] at cut
      refine .ok ⟨cut.asked t, ?_⟩
      rw [Session.cursor_record, Session.cursor_withCursor, hd]
      refine ⟨hk, fun u hu => ?_⟩
      have heq := ht.symm.trans hu.1
      cases heq
      exact Bool.noConfusion (hstop.symm.trans hu.2)
    · obtain ⟨d, hd, hpos, hv, -⟩ := visible_ofPredicate p test enter ht
      obtain ⟨d', hd', hpos', -, hv'⟩ := visible_ofPredicate p test enter' ht'
      rw [hv, hv', if_neg (by simp [hpass])]
      refine .ok ⟨(hs.withCursor (hs.cursor.peeked hd hpos hd' hpos')).asked t, ?_⟩
      rw [Session.cursor_record, Session.cursor_withCursor, hd]
      exact ⟨hk, ht, hpass⟩
  shown _ s s' t u _ hv := by
    obtain ⟨d, -, ha⟩ := visible_found hv
    have hanswer := calling_eq_ok (ha _ rfl)
    exact (EStateM.pure_eq_ok.mp hanswer).1

section Levels

variable (hG : p.grammar.Detached)

include hG

theorem frame_cut (inner below : Nat)
    (hb : ∀ J : Known τ ε, J.Lasting → ∀ rbp head, test head = false →
      Run.Mirrors (Run.alike Event.notStop (Cursor.Cut test rest) m w)
        (fun items => J items ∧ items.head? = some (.token head))
        (p.operandIn below (some (Stop.ofPredicate test)) rbp head)
        (p.operandIn below none rbp head) fun _ => J) :
    (p.frame (p.operandIn inner) (p.operandIn below) (some (Stop.ofPredicate test))).Mirrors
      (Run.alike Event.notStop (Cursor.Cut test rest) m w)
      (p.frame (p.operandIn inner) (p.operandIn below) none)
      (.ofShown p.admits fun t => test t = false) :=
  have hi (i j : Option (Cursor τ ε)) (goal : Goal) (tests : Option (StopTest τ φ ε)) :
      Run.Mirrors (Run.alike Event.notStop Eq i j) .anything
        (p.reentry (p.operandIn inner) goal tests) (p.reentry (p.operandIn inner) goal tests)
        fun _ => .anything :=
    -- a run inside a callback knows nothing of the cut, so it is compared to itself
    reentryIn_alike (.own p) hG inner goal tests
  { query K t _ := (call_alike hi _ (hG.query t)).weaken fun _ _ h => ⟨h.1, trivial⟩
    nullary K t _ := (call_alike hi _ (hG.nullary t)).weaken fun _ _ h => h.1
    unary K t x _ := (call_alike hi _ (hG.unary t x)).weaken fun _ _ h => h.1
    binary K t x y _ := (call_alike hi _ (hG.binary t x y)).weaken fun _ _ h => h.1
    ternary K t x y z _ := (call_alike hi _ (hG.ternary t x y z)).weaken fun _ _ h => h.1
    isFollow K t e _ := (call_alike hi _ (hG.isFollow t e)).weaken fun _ _ h => h.1
    visible := visible_cut
    advance t J := by
      rintro s s' ⟨hs, ⟨hhead, hpass⟩, hj⟩
      refine Run.consume_alike hs hhead (hs.cursor.head hhead hpass) hj ?_
      intro d d' hd hpos _ _ hd' hpos'
      exact hs.cursor.eaten hd hpos hd' hpos'
    operand rbp J hJ := startingAt_mirrors visible_cut fun t ht =>
      ((hb J hJ rbp t ht).strengthen fun _ hk => ⟨hk.1, hk.2.1⟩).weaken fun _ _ hk => ⟨hk, trivial⟩
    strict := .inl rfl
    guard _ _ _ _ _ _ _ := rfl
    -- fewer tokens are left before the cut, but more steps than those make no difference
    fuel rbp nbp lhs s s' h := by
      have own : Frame.Mirrors (Run.alike Event.notStop Eq w w) _ _ _ :=
        frameIn_alike (.own p) hG inner below none
      refine own.continued_congr rbp nbp lhs h.1.behind' (Nat.le_refl _) ?_
      simp only [Cursor.remaining, h.1.cursor.items, List.length_append]
      omega }

theorem operandIn_cut (room : Nat) (J : Known τ ε) (hJ : J.Lasting) (rbp : Precedence) (head : τ)
    (hh : test head = false) :
    Run.Mirrors (Run.alike Event.notStop (Cursor.Cut test rest) m w)
      (fun items => J items ∧ items.head? = some (.token head))
      (p.operandIn room (some (Stop.ofPredicate test)) rbp head)
      (p.operandIn room none rbp head) fun _ => J := by
  induction room generalizing J rbp head with
  | zero => exact Run.mirrors_report _
  | succ n ih =>
    rw [operandIn_succ]
    have frames := frame_cut hG (n - reentryCost) n ih
    exact (((frames.climb hJ rbp hh).strengthen fun _ hk => ⟨hk.1, hk.2, hh⟩).weaken
      fun _ _ hk => hk.1).deeper _ _

theorem frameAt_cut (depth : Nat) :
    (p.frameAt depth (some (Stop.ofPredicate test))).Mirrors
      (Run.alike Event.notStop (Cursor.Cut test rest) m w) (p.frameAt depth none)
      (.ofShown p.admits fun t => test t = false) :=
  frame_cut hG _ _ (operandIn_cut hG (p.config.maxDepth - depth))

/-- A run with a stop predicate ends like one whose stream ends before the first token at which the
predicate holds: in the same node or the same failure, at the same position, and with the same log
but for the questions to the predicate. What it leaves of its stream is what the other one leaves,
and all that the cut has taken away. -/
theorem parseUntil_cut (test : τ → Bool) (rbp : Int) {s : Session τ φ ν ε} {c : Cursor τ ε}
    {tokens : List τ} (hs : s.cursor.items = tokens.map .token)
    (hc : c.items = (tokens.takeWhile fun t => !test t).map .token)
    (hp : c.position = s.cursor.position) :
    ∃ t u : Session τ φ ν ε,
      ((∃ x, p.parseUntil rbp (some (Stop.ofPredicate test)) s = .ok x t ∧
          p.parseUntil rbp none (s.withCursor c) = .ok x u) ∨
        ∃ f, p.parseUntil rbp (some (Stop.ofPredicate test)) s = .error f t ∧
          p.parseUntil rbp none (s.withCursor c) = .error f u) ∧
      t.cursor.position = u.cursor.position ∧
      t.cursor.items = u.cursor.items ++ (tokens.dropWhile fun t => !test t).map .token ∧
      t.kept Event.notStop = u.kept Event.notStop := by
  have cut := Cursor.cut_takeWhile test hs hc hp
  have start : s.Alike Event.notStop (Cursor.Cut test _) s.behind s.behind (s.withCursor c) :=
    ⟨s.depth_withCursor c, s.kept_withCursor _ c, by rwa [Session.cursor_withCursor], rfl,
      s.behind_withCursor c⟩
  have ending {t u : Session τ φ ν ε}
      (h : t.Alike Event.notStop (Cursor.Cut test ((tokens.dropWhile fun t => !test t).map .token))
        s.behind s.behind u) :
      t.cursor.position = u.cursor.position ∧
        t.cursor.items = u.cursor.items ++ (tokens.dropWhile fun t => !test t).map .token ∧
        t.kept Event.notStop = u.kept Event.notStop :=
    ⟨h.cursor.position.symm, h.cursor.items, h.log.symm⟩
  have h := parseUntil_mirrors (frameAt_cut hG) rbp s (s.withCursor c) ⟨start, trivial⟩
  generalize p.parseUntil rbp (some (Stop.ofPredicate test)) s = x at h ⊢
  generalize p.parseUntil rbp none (s.withCursor c) = y at h ⊢
  cases h with
  | @ok a t u h => exact ⟨t, u, .inl ⟨a, rfl, rfl⟩, ending h.1⟩
  | @error f t u h => exact ⟨t, u, .inr ⟨f, rfl, rfl⟩, ending h.1⟩
  | excused h => exact h.elim

end Levels

end Parser

namespace Table

/-- A conditional over a group, and what follows a semicolon, which no table entry explains. -/
def separated : List Symbol :=
  [.word "if", .list [.word "a"], .word "then", .word "b", .word "else", .word "c", .word ";",
    .word "d"]

def conditional : Table :=
  ⟨[("if", .mixfix .prefixed (.saturate 1) [.word "then", .word "else"] .left),
    ("then", .interfix), ("else", .interfix)], .plain, none, .exact, []⟩

theorem parseUntil_cut_separated :
    ∃ t u,
      (conditional.parser ⟨true, true, 5, by decide⟩).parseUntil 0
          (some (Stop.ofPredicate fun s => s = .word ";")) (.start (.ofTokens separated)) =
        .ok (.ternary (.word "if") (.group (.leaf (.word "a"))) (.leaf (.word "b"))
          (.leaf (.word "c"))) t ∧
      (conditional.parser ⟨true, true, 5, by decide⟩).parseUntil 0 none
          (.start (.ofTokens (separated.take 6))) =
        .ok (.ternary (.word "if") (.group (.leaf (.word "a"))) (.leaf (.word "b"))
          (.leaf (.word "c"))) u ∧
      t.cursor.position = u.cursor.position ∧
      t.cursor.items = u.cursor.items ++ [.token (.word ";"), .token (.word "d")] ∧
      t.kept Event.notStop = u.kept Event.notStop := by
  have hreturned : returned? ((conditional.parser ⟨true, true, 5, by decide⟩).parseUntil 0
      (some (Stop.ofPredicate fun s => s = .word ";")) (.start (.ofTokens separated))) =
        some (.ternary (.word "if") (.group (.leaf (.word "a"))) (.leaf (.word "b"))
          (.leaf (.word "c"))) := by
    decide +kernel
  obtain ⟨v, hv⟩ := returned?_eq_some.mp hreturned
  obtain ⟨t, u, hends, hrest⟩ := Parser.parseUntil_cut (conditional.grammar_detached rfl)
    (p := conditional.parser ⟨true, true, 5, by decide⟩) (fun s => s = .word ";") 0
    (s := .start (.ofTokens separated)) (c := .ofTokens (separated.take 6)) rfl rfl rfl
  rcases hends with ⟨x, hx, hx'⟩ | ⟨f, hf, -⟩
  · obtain ⟨rfl, rfl⟩ := EStateM.Result.ok.inj (hv.symm.trans hx)
    exact ⟨_, u, hx, hx', hrest⟩
  · rw [hv] at hf
    cases hf

end Table

end BindingPower
