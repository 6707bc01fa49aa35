import BindingPower.Proofs.Rendering
import BindingPower.Proofs.Detachment

/-! # One token of lookahead

A parse that ends at a position has pulled at most one item from beyond it, and nothing that comes
later in the source makes a difference to it, were it a fault. -/
namespace BindingPower

variable {τ φ ν ε α : Type}

namespace Cursor

/-- The two sources agree on what is still to be pulled up to the position `k` and one item beyond.
Nothing has been pulled so far but what was handed out and the token looked at. -/
structure Agrees (k : Nat) (c c' : Cursor τ ε) : Prop where
  ahead : c'.ahead = c.ahead
  position : c'.position = c.position
  pulled : c.pulled = c.position + c.ahead.toList.length
  rest : c'.rest.take (k + 1 - c.pulled) = c.rest.take (k + 1 - c.pulled)

/-- What is known of the two cursors once a fault has been pulled. -/
structure Halts (c c' : Cursor τ ε) : Prop where
  position : c'.position = c.position
  pulled : c.pulled ≤ c.position + 1

variable {k : Nat} {c c' : Cursor τ ε}

theorem Agrees.halts (h : c.Agrees k c') : c.Halts c' where
  position := h.position
  pulled := by
    have hone : c.ahead.toList.length ≤ 1 := by cases c.ahead <;> simp
    rw [h.pulled]
    omega

/-- Up to `k` an item that has to be pulled is the same for both. -/
theorem Agrees.fill (h : c.Agrees k c') (hk : c.position ≤ k) :
    (∃ d d', c.fill = (.ok (), d) ∧ c'.fill = (.ok (), d') ∧ d.Agrees k d') ∨
      ∃ e d d', c.fill = (.error e, d) ∧ c'.fill = (.error e, d') ∧ d.Halts d' := by
  obtain ⟨ahead, rest, position, pulled⟩ := c
  obtain ⟨ahead', rest', position', pulled'⟩ := c'
  obtain ⟨hahead, hposition, hpulled, hrest⟩ := h
  dsimp only at hahead hposition hpulled hrest hk
  subst hahead hposition
  cases ahead' with
  | some t => exact .inl ⟨_, _, rfl, rfl, rfl, rfl, hpulled, hrest⟩
  | none =>
    have hnone : pulled = position' := hpulled
    -- at least one more item is agreed on
    obtain ⟨n, hn⟩ : ∃ n, k + 1 - pulled = n + 1 := ⟨k - pulled, by omega⟩
    have hless : k + 1 - (pulled + 1) = n := by omega
    rw [hn] at hrest
    cases rest with
    | nil =>
      have hnil : rest' = [] := by
        cases rest' with
        | nil => rfl
        | cons i r => cases hrest
      subst hnil
      exact .inl ⟨_, _, rfl, rfl, rfl, rfl, hpulled, rfl⟩
    | cons i r =>
      cases rest' with
      | nil => cases hrest
      | cons i' r' =>
        simp only [List.take_succ_cons, List.cons.injEq] at hrest
        obtain ⟨rfl, hmore⟩ := hrest
        cases i' with
        | token t =>
          refine .inl ⟨_, _, rfl, rfl, rfl, rfl, ?_, ?_⟩
          · simp [hnone]
          · dsimp only
            rw [hless, hmore]
        | fault e => exact .inr ⟨e, _, _, rfl, rfl, rfl, by dsimp only; omega⟩

theorem Agrees.peek (h : c.Agrees k c') :
    k < c.position ∨ Goes id (Agrees k) Halts c.peek c'.peek := by
  rcases Nat.lt_or_ge k c.position with hk | hk
  · exact .inl hk
  · right
    unfold Cursor.peek
    rcases h.fill hk with ⟨d, d', hd, hd', hagree⟩ | ⟨e, d, d', hd, hd', hhalt⟩
    · have same : d'.ahead = d.ahead.map id := by rw [hagree.ahead, Option.map_id_apply]
      rw [hd, hd']
      dsimp only
      rw [same]
      exact .token hagree
    · rw [hd, hd']
      exact .fault hhalt

theorem Agrees.next (h : c.Agrees k c') :
    k < c.position ∨ Goes id (Agrees k) Halts c.next c'.next := by
  rcases Nat.lt_or_ge k c.position with hk | hk
  · exact .inl hk
  · right
    unfold Cursor.next
    rcases h.fill hk with ⟨d, d', hd, hd', hagree⟩ | ⟨e, d, d', hd, hd', hhalt⟩
    · rw [hd, hd']
      have hahead := hagree.ahead
      have hpulled := hagree.pulled
      cases ht : d.ahead with
      | none =>
        rw [ht] at hahead
        simp only [ht, hahead]
        exact .token (o := none) hagree
      | some t =>
        rw [ht] at hahead hpulled
        simp only [ht, hahead]
        refine .token (o := some t) ⟨rfl, congrArg (· + 1) hagree.position, ?_, hagree.rest⟩
        simpa using hpulled
    · rw [hd, hd']
      exact .fault hhalt

end Cursor

/-- The source may be another one from one item beyond the position `k` on. -/
def Rendering.upTo (k : Nat) : Rendering τ τ ν ν ε where
  token := id
  node := id
  along := Cursor.Agrees k
  after := Cursor.Halts
  past n := k < n
  past_mono hmn h := Nat.lt_of_lt_of_le h hmn
  after_of_along h := h.halts
  peek h := h.peek
  next h := h.next

section Detached

variable {k : Nat}

theorem Rendering.tests_self (tests : Option (StopTest τ φ ε)) :
    (upTo k : Rendering τ τ ν ν ε).Tests tests tests := by
  cases tests with
  | none => exact .none
  | some test => exact .some fun t => mapError_id (test t)

theorem Callback.Detached.renders {callback : Callback τ φ ν ε α} (h : callback.Detached) :
    (Rendering.upTo k).Renders id callback callback := by
  induction h with
  | value a => exact .value a
  | fail f => exact Rendering.renders_fail f.map_id.symm
  | @parse q next c hq h ih =>
    obtain ⟨source, goal, tests⟩ := q
    cases hq
    have run : (Rendering.upTo k).Renders id (.parse ⟨some c, goal, tests⟩ next)
        (.parse ⟨some (c.map id), goal, tests⟩ next) := by
      refine .parse (Rendering.tests_self tests) fun x d => ?_
      change (Rendering.upTo k).Renders id (next x d) (next x (d.map id))
      rw [d.map_id]
      exact ih x d
    rw [c.map_id] at run
    exact run

theorem Grammar.Detached.renders {p : Parser τ φ ν ε} (h : p.grammar.Detached) :
    p.Renders (Rendering.upTo k) p where
  config := rfl
  admits := rfl
  query t := (h.query t).renders
  nullary t := (h.nullary t).renders
  unary t x := (h.unary t x).renders
  binary t x y := (h.binary t x y).renders
  ternary t x y z := (h.ternary t x y z).renders
  isFollow t mark := (h.isFollow t mark).renders

end Detached

/-- The entry points that read an expression, with a pure stop predicate if there is one. -/
inductive Entry.Pure : Entry τ φ ν ε ν → Prop where
  | parse : Pure .parse
  | parseUntil (rbp : Int) (tests : Option (StopTest τ φ ε)) :
    Pure (.parseUntil rbp (tests.map StopTest.toStop))

/-- The session, given a source to read from the start. -/
def Session.loaded (s : Session τ φ ν ε) (items : List (Item τ ε)) : Session τ φ ν ε :=
  { s with main := .ofItems items, side := none }

/-- The second run ends in what the first one ends in, at the same position of its stream. -/
inductive Run.SameOutcome :
    EStateM.Result (Failure τ φ ε) (Session τ φ ν ε) α →
      EStateM.Result (Failure τ φ ε) (Session τ φ ν ε) α → Prop where
  | ok {a : α} {t t' : Session τ φ ν ε} (h : t'.cursor.position = t.cursor.position) :
    SameOutcome (.ok a t) (.ok a t')
  | error {f : Failure τ φ ε} {t t' : Session τ φ ν ε}
    (h : t'.cursor.position = t.cursor.position) : SameOutcome (.error f t) (.error f t')

/-- Streams that go along with each other are at the same position. -/
theorem Rendering.Matches.position {k : Nat} {R : Cursor τ ε → Cursor τ ε → Prop}
    {t t' : Session τ φ ν ε} (h : (Rendering.upTo k).Matches R t t')
    (hR : t'.main.position = t.main.position) : t'.cursor.position = t.cursor.position := by
  unfold Session.cursor
  rw [h.side]
  cases t.side with
  | none => exact hR
  | some d => rfl

/-- Unless the first run has gone beyond `k`, both have the same outcome, and no more than one item
from beyond its position has been pulled. -/
theorem Run.Rendered.sameOutcome {k : Nat}
    {x y : EStateM.Result (Failure τ φ ε) (Session τ φ ν ε) α}
    (h : Rendered (Rendering.upTo k) id x y) (hk : (ending x).main.position ≤ k) :
    SameOutcome x y ∧ (ending x).main.pulled ≤ (ending x).main.position + 1 := by
  cases h with
  | ok ht => exact ⟨.ok (ht.position ht.main.position), ht.main.halts.pulled⟩
  | @error f t t' ht =>
    change SameOutcome (.error f t) (.error (f.map id) t') ∧ _
    rw [f.map_id]
    exact ⟨.error (ht.position ht.main.position), ht.main.pulled⟩
  | past hp => exact absurd hk (Nat.not_le.mpr hp)

namespace Parser

variable {p : Parser τ φ ν ε} {s : Session τ φ ν ε} {items : List (Item τ ε)}

theorem enter_renders (hp : p.grammar.Detached) {e : Entry τ φ ν ε ν} (he : e.Pure) (k d : Nat) :
    Run.Renders (Rendering.upTo k) id d (p.enter e) (p.enter e) := by
  have renders : p.Renders (Rendering.upTo k) p := hp.renders
  cases he with
  | parse => exact renders.parse d
  | parseUntil rbp tests => exact renders.parseUntil d rbp (Rendering.tests_self tests).stops

theorem enter_loaded_cursor (p : Parser τ φ ν ε) (e : Entry τ φ ν ε α) (s : Session τ φ ν ε)
    (items : List (Item τ ε)) :
    (ending (p.enter e (s.loaded items))).cursor = (ending (p.enter e (s.loaded items))).main := by
  have hside := (p.enter_advances e (s.loaded items)).side
  have hnone : (ending (p.enter e (s.loaded items))).side = none := by
    simpa [Session.loaded] using hside
  rw [Session.cursor, hnone, Option.getD_none]

/-- A parse that ends at position `k` has pulled no more than `k + 1` items of its source, and over
any source that agrees with it on these it ends alike. -/
theorem enter_foreseen (hp : p.grammar.Detached) {e : Entry τ φ ν ε ν} (he : e.Pure) {k : Nat}
    (hk : (ending (p.enter e (s.loaded items))).cursor.position = k) :
    (ending (p.enter e (s.loaded items))).cursor.pulled ≤ k + 1 ∧
    ∀ items' : List (Item τ ε), items'.take (k + 1) = items.take (k + 1) →
      Run.SameOutcome (p.enter e (s.loaded items)) (p.enter e (s.loaded items')) := by
  rw [p.enter_loaded_cursor] at hk ⊢
  have compared (items' : List (Item τ ε)) (hsame : items'.take (k + 1) = items.take (k + 1)) :
      Run.SameOutcome (p.enter e (s.loaded items)) (p.enter e (s.loaded items')) ∧
        (ending (p.enter e (s.loaded items))).main.pulled ≤
          (ending (p.enter e (s.loaded items))).main.position + 1 := by
    have start : (Rendering.upTo k).Matches (Cursor.Agrees k) (s.loaded items) (s.loaded items') :=
      ⟨rfl, rfl, rfl, rfl, rfl, hsame⟩
    have run := (enter_renders hp he k s.depth).rendered (s.loaded items) (s.loaded items')
      rfl start
    exact run.sameOutcome (Nat.le_of_eq hk)
  refine ⟨?_, fun items' hsame => (compared items' hsame).1⟩
  have hbound := (compared items rfl).2
  rwa [hk] at hbound

end Parser

namespace Table

/-- Sums of words and groups. -/
def sums : Table := ⟨[("+", .infixed (.saturate 1) .left)], .plain, none, .exact, []⟩

/-- A sum and a word behind it that does not belong to it. -/
def summed : List (Item Symbol Fault) :=
  [.token (.word "a"), .token (.word "+"), .token (.list [.word "b"]), .token (.word "c")]

theorem enter_foreseen_summed :
    (ending ((sums.parser .standard).enter (.parseUntil 0 none)
      ((Session.start (.ofItems [])).loaded summed))).cursor.position = 3 ∧
    (ending ((sums.parser .standard).enter (.parseUntil 0 none)
      ((Session.start (.ofItems [])).loaded summed))).cursor.pulled ≤ 4 ∧
    Run.SameOutcome
      ((sums.parser .standard).enter (.parseUntil 0 none)
        ((Session.start (.ofItems [])).loaded summed))
      ((sums.parser .standard).enter (.parseUntil 0 none)
        ((Session.start (.ofItems [])).loaded
          (summed ++ [.fault (.worded .value "no more")]))) := by
  have ends : (ending ((sums.parser .standard).enter (.parseUntil 0 none)
      ((Session.start (.ofItems [])).loaded summed))).cursor.position = 3 := by
    decide +kernel
  obtain ⟨hpulled, hother⟩ :=
    Parser.enter_foreseen (sums.grammar_detached rfl) (.parseUntil 0 none) ends
  exact ⟨ends, hpulled, hother _ rfl⟩

end Table

end BindingPower
