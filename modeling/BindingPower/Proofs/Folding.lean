import BindingPower.Proofs.Rendering
import BindingPower.Proofs.Yield

/-! # Grammars as folds

A grammar with pure builders puts together whatever its builders make of the plain tree. No decision
of the engine depends on a node, nor on anything about a token but what it is classified as: tokens
under other names are read alike. -/
namespace BindingPower

variable {τ τ' φ ν ν' ε α α' : Type}

/-- A builder for each kind of node. -/
structure Builders (τ ν : Type) where
  leaf : τ → ν
  unary : τ → ν → ν
  binary : τ → ν → ν → ν
  ternary : τ → ν → ν → ν → ν

namespace Builders

/-- The builders of plain trees. -/
def free : Builders τ (Tree τ) := ⟨.leaf, .unary, .binary, .ternary⟩

/-- The value of a plain tree, each of its nodes replaced by what is built from it. -/
def fold (b : Builders τ ν) : Tree τ → ν := Tree.fold b.leaf b.unary b.binary b.ternary

/-- The grammar that builds with these builders from what it is told of the tokens. -/
def grammar (b : Builders τ ν) (query : τ → Except (Failure τ φ ε) (Operator φ))
    (isFollow : τ → φ → Except (Failure τ φ ε) Bool) : Grammar τ φ ν ε where
  query t := .ofExcept (query t)
  nullary t := .value (b.leaf t)
  unary t x := .value (b.unary t x)
  binary t l r := .value (b.binary t l r)
  ternary t x y z := .value (b.ternary t x y z)
  isFollow t mark := .ofExcept (isFollow t mark)

def parser (b : Builders τ ν) (config : Config)
    (query : τ → Except (Failure τ φ ε) (Operator φ))
    (isFollow : τ → φ → Except (Failure τ φ ε) Bool) : Parser τ φ ν ε :=
  .ofGrammar config (b.grammar query isFollow)

theorem parser_free (config : Config) (query : τ → Except (Failure τ φ ε) (Operator φ))
    (isFollow : τ → φ → Except (Failure τ φ ε) Bool) :
    free.parser config query isFollow = Tree.parser config query isFollow := rfl

/-- What is built from renamed tokens and translated nodes is translated. -/
structure Carries (b : Builders τ ν) (f : τ → τ') (g : ν → ν') (b' : Builders τ' ν') : Prop where
  leaf : ∀ t, g (b.leaf t) = b'.leaf (f t)
  unary : ∀ t x, g (b.unary t x) = b'.unary (f t) (g x)
  binary : ∀ t x y, g (b.binary t x y) = b'.binary (f t) (g x) (g y)
  ternary : ∀ t x y z, g (b.ternary t x y z) = b'.ternary (f t) (g x) (g y) (g z)

theorem free_carries (b : Builders τ ν) : free.Carries id b.fold b :=
  ⟨fun _ => rfl, fun _ _ => rfl, fun _ _ _ => rfl, fun _ _ _ _ => rfl⟩

end Builders

/-- The tree with its tokens under other names. -/
def Tree.map (f : τ → τ') : Tree τ → Tree τ'
  | leaf t => leaf (f t)
  | unary t x => unary (f t) (x.map f)
  | binary t l r => binary (f t) (l.map f) (r.map f)
  | ternary t a b c => ternary (f t) (a.map f) (b.map f) (c.map f)

theorem Builders.free_carries_map (f : τ → τ') : free.Carries f (Tree.map f) free :=
  ⟨fun _ => rfl, fun _ _ => rfl, fun _ _ _ => rfl, fun _ _ _ _ => rfl⟩

/-- Streams that hold the same tokens under other names, to the end. -/
def Rendering.ofMap (f : τ → τ') (g : ν → ν') : Rendering τ τ' ν ν' ε where
  token := f
  node := g
  along := Cursor.Mapped f
  after := Cursor.Mapped f
  past _ := False
  past_mono _ h := h
  after_of_along h := h
  peek {c c'} h := by
    cases h
    exact .inr (c.peek_mapped f)
  next {c c'} h := by
    cases h
    exact .inr (c.next_mapped f)

/-- The second session is the first one with its tokens under other names; what has been recorded
does not matter. -/
structure Session.Mapped (f : τ → τ') (s : Session τ φ ν ε) (s' : Session τ' φ ν' ε) : Prop where
  depth : s'.depth = s.depth
  side : s'.side = s.side.map (Cursor.map f)
  main : s'.main = s.main.map f

theorem Session.Mapped.cursor {f : τ → τ'} {s : Session τ φ ν ε} {s' : Session τ' φ ν' ε}
    (h : s.Mapped f s') : s'.cursor = s.cursor.map f := by
  unfold Session.cursor
  rw [h.side, h.main]
  cases s.side <;> rfl

theorem Session.mapped_start (f : τ → τ') (tokens : List τ) :
    (Session.start (.ofTokens tokens) : Session τ φ ν ε).Mapped f
      (Session.start (.ofTokens (tokens.map f)) : Session τ' φ ν' ε) := by
  refine ⟨rfl, rfl, ?_⟩
  simp only [Session.start, Cursor.ofTokens, Cursor.ofItems, Cursor.map, List.map_map]
  rfl

/-- Both runs return or both fail: the second one ends in the translated value or failure, and its
stream is where that of the first one is. -/
inductive Run.EndsAs (failure : Failure τ φ ε → Failure τ' φ ε)
    (stream : Cursor τ ε → Cursor τ' ε) (value : α → α') :
    EStateM.Result (Failure τ φ ε) (Session τ φ ν ε) α →
      EStateM.Result (Failure τ' φ ε) (Session τ' φ ν' ε) α' → Prop where
  | ok {a : α} {t : Session τ φ ν ε} {t' : Session τ' φ ν' ε}
    (h : t'.cursor = stream t.cursor) : EndsAs failure stream value (.ok a t) (.ok (value a) t')
  | error {f : Failure τ φ ε} {t : Session τ φ ν ε} {t' : Session τ' φ ν' ε}
    (h : t'.cursor = stream t.cursor) :
    EndsAs failure stream value (.error f t) (.error (failure f) t')

/-- What the first run returns, the second one returns translated. -/
theorem Run.EndsAs.returned {failure : Failure τ φ ε → Failure τ' φ ε}
    {stream : Cursor τ ε → Cursor τ' ε} {value : α → α'}
    {x : EStateM.Result (Failure τ φ ε) (Session τ φ ν ε) α}
    {y : EStateM.Result (Failure τ' φ ε) (Session τ' φ ν' ε) α'} {a : α}
    (h : EndsAs failure stream value x y) (hx : returned? x = some a) :
    returned? y = some (value a) := by
  obtain ⟨t, rfl⟩ := returned?_eq_some.mp hx
  cases h with
  | ok _ => rfl

theorem Run.Rendered.endsAs {f : τ → τ'} {g : ν → ν'} {value : α → α'}
    {x : EStateM.Result (Failure τ φ ε) (Session τ φ ν ε) α}
    {y : EStateM.Result (Failure τ' φ ε) (Session τ' φ ν' ε) α'}
    (h : Rendered (Rendering.ofMap f g) value x y) :
    EndsAs (Failure.map f) (Cursor.map f) value x y := by
  cases h with
  | ok ht => exact .ok (Session.Mapped.cursor ⟨ht.depth, ht.side, ht.main⟩)
  | error ht => exact .error (Session.Mapped.cursor ⟨ht.depth, ht.side, ht.main⟩)
  | past h => exact h.elim

section Carrying

variable {b : Builders τ ν} {b' : Builders τ' ν'} {f : τ → τ'} {g : ν → ν'} {config : Config}
  {query : τ → Except (Failure τ φ ε) (Operator φ)}
  {isFollow : τ → φ → Except (Failure τ φ ε) Bool}
  {query' : τ' → Except (Failure τ' φ ε) (Operator φ)}
  {isFollow' : τ' → φ → Except (Failure τ' φ ε) Bool}

theorem Builders.Carries.renders (h : b.Carries f g b')
    (hq : ∀ t, query' (f t) = (query t).mapError (Failure.map f))
    (hf : ∀ t mark, isFollow' (f t) mark = (isFollow t mark).mapError (Failure.map f)) :
    (b.parser config query isFollow).Renders (Rendering.ofMap f g)
      (b'.parser config query' isFollow') where
  config := rfl
  admits := rfl
  query t := Rendering.renders_ofExcept (hq t)
  nullary t := Rendering.renders_value (h.leaf t)
  unary t x := Rendering.renders_value (h.unary t x)
  binary t x y := Rendering.renders_value (h.binary t x y)
  ternary t x y z := Rendering.renders_value (h.ternary t x y z)
  isFollow t mark := Rendering.renders_ofExcept (hf t mark)

/-- Where one kind of node is carried over into another, so is what is read. -/
theorem Builders.Carries.parseUntil (h : b.Carries f g b')
    (hq : ∀ t, query' (f t) = (query t).mapError (Failure.map f))
    (hf : ∀ t mark, isFollow' (f t) mark = (isFollow t mark).mapError (Failure.map f))
    {stop : Option (StopTest τ φ ε)} {stop' : Option (StopTest τ' φ ε)}
    (ht : Option.Rel (fun test test' => ∀ t, test' (f t) = (test t).mapError (Failure.map f))
      stop stop') (rbp : Int) {s : Session τ φ ν ε} {s' : Session τ' φ ν' ε} (hs : s.Mapped f s') :
    Run.EndsAs (Failure.map f) (Cursor.map f) g
      ((b.parser config query isFollow).parseUntil rbp (stop.map StopTest.toStop) s)
      ((b'.parser config query' isFollow').parseUntil rbp (stop'.map StopTest.toStop) s') := by
  have tests : (Rendering.ofMap f g).Tests stop stop' := ht
  have renders : (b.parser config query isFollow).Renders (Rendering.ofMap f g)
      (b'.parser config query' isFollow') := h.renders hq hf
  have run := renders.parseUntil s.depth rbp tests.stops
  exact (run.rendered s s' rfl ⟨hs.depth, hs.side, hs.main⟩).endsAs

/-- Plain trees fold into what is built in their place. -/
theorem Builders.parseUntil_fold (b : Builders τ ν) (stop : Option (StopTest τ φ ε)) (rbp : Int)
    {s : Session τ φ (Tree τ) ε} {s' : Session τ φ ν ε} (hdepth : s'.depth = s.depth)
    (hside : s'.side = s.side) (hmain : s'.main = s.main) :
    Run.EndsAs id id b.fold
      ((Tree.parser config query isFollow).parseUntil rbp (stop.map StopTest.toStop) s)
      ((b.parser config query isFollow).parseUntil rbp (stop.map StopTest.toStop) s') := by
  have mapped : s.Mapped id s' := by
    refine ⟨hdepth, ?_, ?_⟩
    · rw [hside, funext Cursor.map_id, Option.map_id']
    · rw [hmain, Cursor.map_id]
  have tests : Option.Rel (fun test test' : StopTest τ φ ε => ∀ t,
      test' (id t) = (test t).mapError (Failure.map id)) stop stop := by
    cases stop with
    | none => exact .none
    | some test => exact .some fun t => mapError_id (test t)
  have run : Run.EndsAs (Failure.map id) (Cursor.map id) b.fold
      ((free.parser config query isFollow).parseUntil rbp (stop.map StopTest.toStop) s)
      ((b.parser config query isFollow).parseUntil rbp (stop.map StopTest.toStop) s') :=
    b.free_carries.parseUntil (fun t => mapError_id (query t))
      (fun t mark => mapError_id (isFollow t mark)) tests rbp mapped
  rw [funext Failure.map_id, funext Cursor.map_id, parser_free] at run
  exact run

end Carrying

namespace Tree

variable (config : Config) (rbp : Int) (query : τ → Except (Failure τ φ ε) (Operator φ))
  (isFollow : τ → φ → Except (Failure τ φ ε) Bool) (stop : Option (StopTest τ φ ε))

/-- What a grammar with pure builders reads is the fold of the plain tree that is read in its place,
and plain trees are read alike under any other names for their tokens. -/
theorem parseUntil_free :
    (∀ (ν : Type) (b : Builders τ ν) (s : Session τ φ (Tree τ) ε) (s' : Session τ φ ν ε),
      s'.depth = s.depth → s'.side = s.side → s'.main = s.main →
        Run.EndsAs id id b.fold
          ((parser config query isFollow).parseUntil rbp (stop.map StopTest.toStop) s)
          ((b.parser config query isFollow).parseUntil rbp (stop.map StopTest.toStop) s')) ∧
    ∀ (τ' : Type) (f : τ → τ') (query' : τ' → Except (Failure τ' φ ε) (Operator φ))
      (isFollow' : τ' → φ → Except (Failure τ' φ ε) Bool) (stop' : Option (StopTest τ' φ ε))
      (s : Session τ φ (Tree τ) ε) (s' : Session τ' φ (Tree τ') ε),
      (∀ t, query' (f t) = (query t).mapError (Failure.map f)) →
      (∀ t mark, isFollow' (f t) mark = (isFollow t mark).mapError (Failure.map f)) →
      Option.Rel (fun test test' => ∀ t, test' (f t) = (test t).mapError (Failure.map f))
        stop stop' →
      s.Mapped f s' →
        Run.EndsAs (Failure.map f) (Cursor.map f) (Tree.map f)
          ((parser config query isFollow).parseUntil rbp (stop.map StopTest.toStop) s)
          ((parser config query' isFollow').parseUntil rbp (stop'.map StopTest.toStop) s') := by
  refine ⟨fun ν b s s' hdepth hside hmain => b.parseUntil_fold stop rbp hdepth hside hmain, ?_⟩
  intro τ' f query' isFollow' stop' s s' hq hf ht hs
  exact (Builders.free_carries_map f).parseUntil hq hf ht rbp hs

/-- The number of leaves. -/
def leaves : Builders Char Nat :=
  ⟨fun _ => 1, fun _ x => x, fun _ l r => l + r, fun _ a b c => a + b + c⟩

/-- The operators of a conditional, told by the numbers of its characters. -/
def conditionalCode (n : Nat) : Except (Failure Nat Char Empty) (Operator Char) :=
  (conditional (Char.ofNat n)).mapError (Failure.map Char.toNat)

theorem parseUntil_free_conditional :
    returned? ((leaves.parser .standard conditional fun t mark => .ok (t == mark)).parseUntil 0 none
      (.start (.ofTokens ['?', 'x', ':', 'y', ';', '|', 'z', '|', 'w']))) = some 3 ∧
    returned? ((parser .standard conditionalCode fun n mark =>
        .ok (Char.ofNat n == mark)).parseUntil 0 none
      (.start (.ofTokens (['?', 'x', ':', 'y', ';', '|', 'z', '|', 'w'].map Char.toNat)))) =
      some ((ternary '?' (leaf 'x') (leaf 'y') (unary '|' (leaf 'z'))).map Char.toNat) := by
  have read : returned? ((parser .standard conditional fun t mark => .ok (t == mark)).parseUntil 0
      none (.start (.ofTokens ['?', 'x', ':', 'y', ';', '|', 'z', '|', 'w']))) =
      some (ternary '?' (leaf 'x') (leaf 'y') (unary '|' (leaf 'z'))) := by
    decide +kernel
  have free := parseUntil_free .standard 0 conditional (fun t mark => .ok (t == mark)) none
  constructor
  · exact (free.1 Nat leaves (.start _) (.start _) rfl rfl rfl).returned read
  · refine (free.2 Nat Char.toNat conditionalCode (fun n mark => .ok (Char.ofNat n == mark)) none
      (.start _) _ (fun t => ?_) (fun t mark => ?_) .none (Session.mapped_start _ _)).returned read
    · rw [conditionalCode, Char.ofNat_toNat]
    · rw [Char.ofNat_toNat]
      rfl

end Tree

end BindingPower
