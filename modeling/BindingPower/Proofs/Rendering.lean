import BindingPower.Proofs.Advancing

/-! # Renderings

Two parsers are run side by side, over tokens and nodes of different kinds. A rendering tells what
the tokens and nodes of the first become in the second, and which main streams go along with each
other. What the engine does depends on its callbacks alone, so that runs whose callbacks are
rendered are rendered as a whole, for as long as their streams go along. -/
namespace BindingPower

variable {τ τ' φ ν ν' ε α α' β β' : Type}

def Item.map (f : τ → τ') : Item τ ε → Item τ' ε
  | token t => token (f t)
  | fault e => fault e

def Cursor.map (f : τ → τ') (c : Cursor τ ε) : Cursor τ' ε :=
  ⟨c.ahead.map f, c.rest.map (Item.map f), c.position, c.pulled⟩

def Report.map (f : τ → τ') : Report τ φ ε → Report τ' φ ε
  | plain e => plain e
  | emptyInput => emptyInput
  | misfit kind t => misfit kind (f t)
  | unexpectedArity t affix arity => unexpectedArity (f t) affix arity
  | missingInterfix expected found => missingInterfix expected (found.map f)
  | trailingInput t => trailingInput (f t)
  | nestingTooDeep limit depth => nestingTooDeep limit depth
  | userError cause => userError cause

def Failure.map (f : τ → τ') : Failure τ φ ε → Failure τ' φ ε
  | report r => report (r.map f)
  | exhausted => exhausted
  | other c => other c

@[simp] theorem Item.map_id : (Item.map id : Item τ ε → Item τ ε) = id := by
  funext i
  cases i <;> rfl

@[simp] theorem Cursor.map_id (c : Cursor τ ε) : c.map id = c := by
  obtain ⟨ahead, rest, position, pulled⟩ := c
  simp [Cursor.map]

@[simp] theorem Failure.map_id (f : Failure τ φ ε) : f.map id = f := by
  cases f with
  | report r => cases r <;> simp [Failure.map, Report.map]
  | exhausted => rfl
  | other c => rfl

/-- Under their own names, tokens are told of as before. -/
theorem mapError_id (x : Except (Failure τ φ ε) α) : x = x.mapError (Failure.map id) := by
  cases x with
  | ok a => rfl
  | error f => exact congrArg Except.error f.map_id.symm

theorem contain_map (f : τ → τ') (limit depth : Nat) (e : Failure τ φ ε) :
    contain limit depth (e.map f) = (contain limit depth e).map f := by
  cases e <;> rfl

/-- What a cursor comes to with two sources of one stream: the same token or the same fault. -/
inductive Cursor.Goes (token : τ → τ') (along after : Cursor τ ε → Cursor τ' ε → Prop) :
    Except ε (Option τ) × Cursor τ ε → Except ε (Option τ') × Cursor τ' ε → Prop where
  | token {o : Option τ} {d : Cursor τ ε} {d' : Cursor τ' ε} (h : along d d') :
    Goes token along after (.ok o, d) (.ok (o.map token), d')
  | fault {e : ε} {d : Cursor τ ε} {d' : Cursor τ' ε} (h : after d d') :
    Goes token along after (.error e, d) (.error e, d')

namespace Cursor

/-- The second cursor reads the tokens that the first one does, under other names. -/
def Mapped (f : τ → τ') (c : Cursor τ ε) (c' : Cursor τ' ε) : Prop := c' = c.map f

theorem peek_mapped (f : τ → τ') (c : Cursor τ ε) :
    Goes f (Mapped f) (Mapped f) c.peek (c.map f).peek := by
  obtain ⟨ahead, rest, position, pulled⟩ := c
  cases ahead with
  | some t => exact .token (o := some t) rfl
  | none =>
    cases rest with
    | nil => exact .token (o := none) rfl
    | cons i rest =>
      cases i with
      | token t => exact .token (o := some t) rfl
      | fault e => exact .fault rfl

theorem next_mapped (f : τ → τ') (c : Cursor τ ε) :
    Goes f (Mapped f) (Mapped f) c.next (c.map f).next := by
  obtain ⟨ahead, rest, position, pulled⟩ := c
  cases ahead with
  | some t => exact .token (o := some t) rfl
  | none =>
    cases rest with
    | nil => exact .token (o := none) rfl
    | cons i rest =>
      cases i with
      | token t => exact .token (o := some t) rfl
      | fault e => exact .fault rfl

end Cursor

/-- How one run is rendered in another. Main streams go along with each other until a run fails
or until the first one is past a position, from where nothing is told of the second one. -/
structure Rendering (τ τ' ν ν' ε : Type) where
  token : τ → τ'
  node : ν → ν'
  along : Cursor τ ε → Cursor τ' ε → Prop
  after : Cursor τ ε → Cursor τ' ε → Prop
  past : Nat → Prop
  past_mono : ∀ {m n}, m ≤ n → past m → past n
  after_of_along : ∀ {c c'}, along c c' → after c c'
  peek : ∀ {c c'}, along c c' → past c.position ∨ Cursor.Goes token along after c.peek c'.peek
  next : ∀ {c c'}, along c c' → past c.position ∨ Cursor.Goes token along after c.next c'.next

namespace Rendering

/-- Sessions that differ in what is rendered: the streams of groups are the same but for the names
of their tokens, and what has been recorded does not matter. -/
structure Matches (r : Rendering τ τ' ν ν' ε) (R : Cursor τ ε → Cursor τ' ε → Prop)
    (s : Session τ φ ν ε) (s' : Session τ' φ ν' ε) : Prop where
  depth : s'.depth = s.depth
  side : s'.side = s.side.map (Cursor.map r.token)
  main : R s.main s'.main

/-- Tests that answer alike. -/
def Tests (r : Rendering τ τ' ν ν' ε) :
    Option (StopTest τ φ ε) → Option (StopTest τ' φ ε) → Prop :=
  Option.Rel fun test test' => ∀ t, test' (r.token t) = (test t).mapError (Failure.map r.token)

/-- Callbacks that make the same requests, each on a stream of its own, and end alike. -/
inductive Renders (r : Rendering τ τ' ν ν' ε) (value : α → α') :
    Callback τ φ ν ε α → Callback τ' φ ν' ε α' → Prop where
  | value (a : α) : Renders r value (.value a) (.value (value a))
  | fail (f : Failure τ φ ε) : Renders r value (.fail f) (.fail (f.map r.token))
  | parse {c : Cursor τ ε} {goal : Goal} {tests : Option (StopTest τ φ ε)}
    {tests' : Option (StopTest τ' φ ε)} {next : ν → Cursor τ ε → Callback τ φ ν ε α}
    {next' : ν' → Cursor τ' ε → Callback τ' φ ν' ε α'} (ht : r.Tests tests tests')
    (hn : ∀ x d, Renders r value (next x d) (next' (r.node x) (d.map r.token))) :
    Renders r value (.parse ⟨some c, goal, tests⟩ next)
      (.parse ⟨some (c.map r.token), goal, tests'⟩ next')

/-- Stop predicates that answer alike. -/
def Stops (r : Rendering τ τ' ν ν' ε) :
    Option (Stop τ φ ν ε) → Option (Stop τ' φ ν' ε) → Prop :=
  Option.Rel fun test test' => ∀ t, r.Renders id (test t) (test' (r.token t))

variable {r : Rendering τ τ' ν ν' ε}

theorem renders_value {value : α → α'} {a : α} {a' : α'} (h : value a = a') :
    r.Renders value (.value a : Callback τ φ ν ε α) (.value a') := h ▸ .value a

theorem renders_fail {value : α → α'} {f : Failure τ φ ε} {f' : Failure τ' φ ε}
    (h : f' = f.map r.token) :
    r.Renders value (.fail f : Callback τ φ ν ε α) (.fail f') := h ▸ .fail f

theorem renders_ofExcept {x : Except (Failure τ φ ε) α} {x' : Except (Failure τ' φ ε) α}
    (h : x' = x.mapError (Failure.map r.token)) :
    r.Renders id (Callback.ofExcept x) (Callback.ofExcept x') := by
  rw [h]
  cases x with
  | ok a => exact .value a
  | error f => exact .fail f

theorem Tests.stops {tests : Option (StopTest τ φ ε)} {tests' : Option (StopTest τ' φ ε)}
    (h : r.Tests tests tests') :
    r.Stops (tests.map StopTest.toStop) (tests'.map StopTest.toStop) := by
  cases h with
  | none => exact .none
  | some h => exact .some fun t => renders_ofExcept (h t)

namespace Matches

variable {R : Cursor τ ε → Cursor τ' ε → Prop} {s : Session τ φ ν ε} {s' : Session τ' φ ν' ε}

theorem after (h : r.Matches r.along s s') : r.Matches r.after s s' :=
  ⟨h.depth, h.side, r.after_of_along h.main⟩

theorem record (h : r.Matches R s s') (e : Event τ φ ν) (e' : Event τ' φ ν') :
    r.Matches R (s.record e) (s'.record e') := ⟨h.depth, h.side, h.main⟩

theorem deepen (h : r.Matches R s s') (n : Nat) : r.Matches R (s.deepen n) (s'.deepen n) :=
  ⟨congrArg (· + n) h.depth, h.side, h.main⟩

theorem surface (h : r.Matches R s s') (n : Nat) : r.Matches R (s.surface n) (s'.surface n) :=
  ⟨congrArg (· - n) h.depth, h.side, h.main⟩

theorem reading {side : Option (Cursor τ ε)} {side' : Option (Cursor τ' ε)}
    (h : r.Matches R s s') (hs : side' = side.map (Cursor.map r.token)) :
    r.Matches R { s with side := side } { s' with side := side' } := ⟨h.depth, hs, h.main⟩

end Matches

end Rendering

namespace Run

/-- The second ending is a rendering of the first, unless the first is past comparing. -/
inductive Rendered (r : Rendering τ τ' ν ν' ε) (value : α → α') :
    EStateM.Result (Failure τ φ ε) (Session τ φ ν ε) α →
      EStateM.Result (Failure τ' φ ε) (Session τ' φ ν' ε) α' → Prop where
  | ok {a : α} {t : Session τ φ ν ε} {t' : Session τ' φ ν' ε} (h : r.Matches r.along t t') :
    Rendered r value (.ok a t) (.ok (value a) t')
  | error {f : Failure τ φ ε} {t : Session τ φ ν ε} {t' : Session τ' φ ν' ε}
    (h : r.Matches r.after t t') : Rendered r value (.error f t) (.error (f.map r.token) t')
  | past {x : EStateM.Result (Failure τ φ ε) (Session τ φ ν ε) α}
    {y : EStateM.Result (Failure τ' φ ε) (Session τ' φ ν' ε) α'}
    (h : r.past (ending x).main.position) : Rendered r value x y

/-- From the depth on, the second run renders the first, which goes on along its streams. -/
structure Renders (r : Rendering τ τ' ν ν' ε) (value : α → α') (d : Nat) (m : Run τ φ ν ε α)
    (m' : Run τ' φ ν' ε α') : Prop where
  advances : Run.Advances .engine d m
  rendered : ∀ s s', s.depth = d → r.Matches r.along s s' → Rendered r value (m s) (m' s')

variable {r : Rendering τ τ' ν ν' ε} {value : α → α'} {d : Nat} {m : Run τ φ ν ε α}
  {m' : Run τ' φ ν' ε α'}

theorem renders_pure (a : α) : Renders (φ := φ) r value d (pure a) (pure (value a)) where
  advances s _ := .refl s
  rendered _ _ _ hs := .ok hs

theorem renders_throw (f : Failure τ φ ε) :
    Renders r value d (throw f) (throw (f.map r.token)) where
  advances s _ := .refl s
  rendered _ _ _ hs := .error hs.after

theorem renders_report (e : Report τ φ ε) :
    Renders r value d (Run.report e) (Run.report (e.map r.token)) := renders_throw (.report e)

theorem Renders.bind {k : α → Run τ φ ν ε β} {k' : α' → Run τ' φ ν' ε β'} {value' : β → β'}
    (h : Renders r value d m m') (hk : ∀ a, Renders r value' d (k a) (k' (value a))) :
    Renders r value' d (m >>= k) (m' >>= k') where
  advances := h.advances.bind fun a => (hk a).advances
  rendered s s' hd hs := by
    have hadv := h.advances s hd
    have hends := h.rendered s s' hd hs
    change Rendered r value' (EStateM.bind m k s) (EStateM.bind m' k' s')
    unfold EStateM.bind
    generalize m s = x at hadv hends ⊢
    generalize m' s' = y at hends ⊢
    cases hends with
    | ok ht => exact (hk _).rendered _ _ (hadv.depth.trans hd) ht
    | error ht => exact .error ht
    | past hp =>
      -- the first run only goes further, whatever the second one does
      refine .past ?_
      cases x with
      | error f t => exact hp
      | ok a t =>
        have hmore := (hk a).advances t (hadv.depth.trans hd)
        exact r.past_mono hmore.main.position_le hp

theorem Renders.record (h : Renders r value d m m') (e : Event τ φ ν) (e' : Event τ' φ ν') :
    Renders r value d (Run.record e >>= fun _ => m) (Run.record e' >>= fun _ => m') where
  advances s hd := ((Session.Advances.refl s).record e).trans (h.advances (s.record e) hd)
  rendered s s' hd hs := h.rendered (s.record e) (s'.record e') hd (hs.record e e')

/-- The depth is known to both. -/
theorem Renders.depth {k : Nat → Run τ φ ν ε α} {i : Nat → Run τ' φ ν' ε α'}
    (h : Renders r value d (k d) (i d)) :
    Renders r value d (get >>= fun s => k s.depth) (get >>= fun s => i s.depth) where
  advances s hd := by
    subst hd
    exact h.advances s rfl
  rendered s s' hd hs := by
    subst hd
    change Rendered r value (k s.depth s) (i s'.depth s')
    rw [hs.depth]
    exact h.rendered s s' rfl hs

theorem Renders.deeper {n : Nat} (h : Renders r value (d + n) m m') (before after : Event τ φ ν)
    (before' after' : Event τ' φ ν') :
    Renders r value d (Run.deeper n before after m) (Run.deeper n before' after' m') where
  advances := h.advances.deeper
  rendered s s' hd hs := by
    have hends := h.rendered ((s.deepen n).record before) ((s'.deepen n).record before')
      (congrArg (· + n) hd) ((hs.deepen n).record before before')
    simp only [Run.deeper]
    generalize m ((s.deepen n).record before) = x at hends ⊢
    generalize m' ((s'.deepen n).record before') = y at hends ⊢
    cases hends with
    | ok ht => exact .ok ((ht.surface n).record after after')
    | error ht => exact .error ((ht.surface n).record after after')
    | past hp => refine .past ?_; cases x <;> exact hp

/-- A failure is contained alike under both names. -/
theorem Renders.calling {p : Parser τ φ ν ε} {p' : Parser τ' φ ν' ε} (hc : p'.config = p.config)
    (h : Renders r value d m m') (c : Call τ φ ν) (c' : Call τ' φ ν') :
    Renders r value d (p.calling c m) (p'.calling c' m') where
  advances := Advances.calling h.advances
  rendered s s' hd hs := by
    have hends := h.rendered (s.record (.called c)) (s'.record (.called c')) hd (hs.record _ _)
    change Rendered r value (Run.catching _ m (s.record (.called c)))
      (Run.catching _ m' (s'.record (.called c')))
    simp only [Run.catching, hc]
    generalize m (s.record (.called c)) = x at hends ⊢
    generalize m' (s'.record (.called c')) = y at hends ⊢
    cases hends with
    | ok ht => exact .ok ht
    | error ht =>
      dsimp only
      rw [ht.depth, contain_map]
      exact .error (ht.record _ _)
    | past hp => refine .past ?_; cases x <;> exact hp

/-- A run on a stream of its own: what is left of the stream is a part of what is returned. -/
theorem Renders.within (h : Renders r value d m m') (c : Cursor τ ε) :
    Renders r (Prod.map value (Cursor.map r.token)) d (Run.within (some c) m)
      (Run.within (some (c.map r.token)) m') where
  advances := h.advances.within (some c)
  rendered s s' hd hs := by
    have hadv := h.advances { s with side := some c } hd
    have hends := h.rendered { s with side := some c } { s' with side := some (c.map r.token) } hd
      (hs.reading rfl)
    simp only [Run.within]
    generalize m { s with side := some c } = x at hadv hends ⊢
    generalize m' { s' with side := some (c.map r.token) } = y at hends ⊢
    cases hends with
    | @ok a t t' ht =>
      obtain ⟨e, he⟩ : ∃ e, t.side = some e := Option.isSome_iff_exists.mp hadv.side
      have here : t'.cursor = t.cursor.map r.token := by
        simp only [Session.cursor, ht.side, he, Option.map_some, Option.getD_some]
      dsimp only
      rw [here]
      exact .ok (a := (a, t.cursor)) (ht.reading hs.side)
    | error ht => exact .error (ht.reading hs.side)
    | past hp => refine .past ?_; cases x <;> exact hp

/-- A step of the stream in use, which is one of a group or the main one. -/
theorem renders_reading {f : Cursor τ ε → Except ε (Option τ) × Cursor τ ε}
    {f' : Cursor τ' ε → Except ε (Option τ') × Cursor τ' ε}
    (hadv : ∀ c : Cursor τ ε, c.Advances (f c).2)
    (hmap : ∀ c, Cursor.Goes r.token (Cursor.Mapped r.token) (Cursor.Mapped r.token) (f c)
      (f' (c.map r.token)))
    (hmain : ∀ c c', r.along c c' →
      r.past c.position ∨ Cursor.Goes r.token r.along r.after (f c) (f' c')) :
    Renders (φ := φ) r (Option.map r.token) d (Run.reading f) (Run.reading f') where
  advances := reading_advances hadv
  rendered s s' hd hs := by
    have hall := reading_advances (ν := ν) (φ := φ) (l := .engine) hadv s hd
    obtain ⟨main, side, depth, log⟩ := s
    obtain ⟨main', side', depth', log'⟩ := s'
    obtain ⟨hdepth, hside, hm⟩ := hs
    cases side with
    | some c =>
      cases hside
      have hgoes := hmap c
      simp only [Run.reading, Session.cursor, Option.getD_some]
      generalize f c = x at hgoes ⊢
      generalize f' (c.map r.token) = y at hgoes ⊢
      cases hgoes with
      | token h => exact .ok ⟨hdepth, congrArg some h, hm⟩
      | fault h => exact .error ⟨hdepth, congrArg some h, r.after_of_along hm⟩
    | none =>
      cases hside
      rcases hmain main main' hm with hp | hgoes
      · exact .past (r.past_mono hall.main.position_le hp)
      · simp only [Run.reading, Session.cursor, Option.getD_none]
        generalize f main = x at hgoes ⊢
        generalize f' main' = y at hgoes ⊢
        cases hgoes with
        | token h => exact .ok ⟨hdepth, rfl, h⟩
        | fault h => exact .error ⟨hdepth, rfl, h⟩

theorem renders_peek :
    Renders (φ := φ) r (Option.map r.token) d (Run.reading Cursor.peek) (Run.reading Cursor.peek) :=
  renders_reading Cursor.peek_advances (Cursor.peek_mapped r.token) fun _ _ h => r.peek h

theorem renders_next :
    Renders (φ := φ) r (Option.map r.token) d (Run.reading Cursor.next) (Run.reading Cursor.next) :=
  renders_reading Cursor.next_advances (Cursor.next_mapped r.token) fun _ _ h => r.next h

theorem renders_consume : Renders (φ := φ) r id d consume consume :=
  renders_next.bind fun _ => renders_pure ()

/-- A loop is given as many steps as there are items left, which need not be as many for both. -/
theorem Renders.remaining {k : Nat → Run τ φ ν ε α} {i : Nat → Run τ' φ ν' ε α'}
    (h : ∀ n, Renders r value d (k n) (i n))
    (steady : ∀ s n, s.depth = d → s.cursor.remaining ≤ n → k n s = k s.cursor.remaining s)
    (steady' : ∀ s n, s.depth = d → s.cursor.remaining ≤ n → i n s = i s.cursor.remaining s) :
    Renders r value d (get >>= fun s => k s.cursor.remaining)
      (get >>= fun s => i s.cursor.remaining) where
  advances s hd := (h s.cursor.remaining).advances s hd
  rendered s s' hd hs := by
    have hboth := (h (max s.cursor.remaining s'.cursor.remaining)).rendered s s' hd hs
    rw [steady s _ hd (Nat.le_max_left _ _),
      steady' s' _ (hs.depth.trans hd) (Nat.le_max_right _ _)] at hboth
    exact hboth

/-- Predicates by which tokens are kept out of sight, asked alike. -/
def Asking (r : Rendering τ τ' ν ν' ε) (d : Nat) :
    Option (τ → Run τ φ ν ε Bool) → Option (τ' → Run τ' φ ν' ε Bool) → Prop :=
  Option.Rel fun ask ask' => ∀ t, Renders r id d (ask t) (ask' (r.token t))

theorem renders_visible {ask : Option (τ → Run τ φ ν ε Bool)}
    {ask' : Option (τ' → Run τ' φ ν' ε Bool)} (h : Asking r d ask ask') :
    Renders r (Option.map r.token) d (visible ask) (visible ask') := by
  refine renders_peek.bind fun o => ?_
  cases o with
  | none => exact renders_pure none
  | some t =>
    cases h with
    | none => exact renders_pure (some t)
    | some h =>
      refine (h t).bind fun yes => ?_
      cases yes with
      | true => exact renders_pure none
      | false => exact renders_pure (some t)

theorem renders_startingAt {ask : Option (τ → Run τ φ ν ε Bool)}
    {ask' : Option (τ' → Run τ' φ ν' ε Bool)} {body : τ → Run τ φ ν ε ν}
    {body' : τ' → Run τ' φ ν' ε ν'} (h : Asking r d ask ask')
    (hb : ∀ t, Renders r r.node d (body t) (body' (r.token t))) :
    Renders r r.node d (startingAt ask body) (startingAt ask' body') := by
  refine (renders_visible h).bind fun o => ?_
  cases o with
  | none => exact renders_report .emptyInput
  | some t => exact hb t

end Run

open Run

/-- The calls and the operands of a frame are rendered in another. -/
structure Frame.Renders (r : Rendering τ τ' ν ν' ε) (d : Nat) (f : Frame τ φ ν ε)
    (f' : Frame τ' φ ν' ε) : Prop where
  strict : f'.parser.config.strictInterfix = f.parser.config.strictInterfix
  admits : f'.parser.admits = f.parser.admits
  query : ∀ t, Run.Renders r id d (f.query t) (f'.query (r.token t))
  nullary : ∀ t, Run.Renders r r.node d (f.nullary t) (f'.nullary (r.token t))
  unary : ∀ t x, Run.Renders r r.node d (f.unary t x) (f'.unary (r.token t) (r.node x))
  binary : ∀ t x y,
    Run.Renders r r.node d (f.binary t x y) (f'.binary (r.token t) (r.node x) (r.node y))
  ternary : ∀ t x y z, Run.Renders r r.node d (f.ternary t x y z)
    (f'.ternary (r.token t) (r.node x) (r.node y) (r.node z))
  isFollow : ∀ t mark, Run.Renders r id d (f.isFollow t mark) (f'.isFollow (r.token t) mark)
  visible : Run.Renders r (Option.map r.token) d f.visible f'.visible
  operand : ∀ p, Run.Renders r r.node d (f.operand p) (f'.operand p)
  steady : ∀ rbp nbp lhs s n, s.depth = d → s.cursor.remaining ≤ n →
    f.continued rbp n nbp lhs s = f.continued rbp s.cursor.remaining nbp lhs s
  steady' : ∀ rbp nbp lhs s n, s.depth = d → s.cursor.remaining ≤ n →
    f'.continued rbp n nbp lhs s = f'.continued rbp s.cursor.remaining nbp lhs s

namespace Frame.Renders

variable {r : Rendering τ τ' ν ν' ε} {d : Nat} {f : Frame τ φ ν ε} {f' : Frame τ' φ ν' ε}

theorem separates (h : f.Renders r d f') (expected : Option φ) (t : τ) :
    Run.Renders r id d (f.separates expected t) (f'.separates expected (r.token t)) := by
  refine (h.query t).bind fun op => ?_
  cases expected with
  | none => exact renders_pure _
  | some mark =>
    dsimp only [id]
    split
    · exact h.isFollow t mark
    · exact renders_pure false

theorem missing (h : f.Renders r d f') (expected : Option φ) (found : Option τ) :
    Run.Renders r (Option.map r.token) d (f.missing expected found)
      (f'.missing expected (found.map r.token)) := by
  cases expected with
  | none => exact renders_pure none
  | some mark =>
    simp only [Frame.missing, h.strict]
    split
    · exact renders_report (.missingInterfix (some mark) found)
    · exact renders_pure none

theorem eatSeparator (h : f.Renders r d f') (expected : Option φ) :
    Run.Renders r (Option.map r.token) d (f.eatSeparator expected) (f'.eatSeparator expected) := by
  refine h.visible.bind fun o => ?_
  cases o with
  | none => exact h.missing expected none
  | some t =>
    refine (h.separates expected t).bind fun yes => ?_
    cases yes with
    | false => exact h.missing expected (some t)
    | true => exact (renders_consume.bind fun _ => renders_pure (some t)).record _ _

theorem nud (h : f.Renders r d f') (head : τ) (op : Operator φ) :
    Run.Renders r r.node d (f.nud head op) (f'.nud (r.token head) op) := by
  refine Run.Renders.record ?_ _ _
  generalize op.leading.affix = affix, op.leading.arity = arity
  cases affix with
  | nilfix =>
    cases arity with
    | nullary => exact h.nullary head
    | _ => exact renders_report (.unexpectedArity head _ _)
  | prefixed =>
    cases arity with
    | unary => exact (h.operand _).bind fun x => h.unary head x
    | ternary =>
      exact (h.operand _).bind fun a => (h.eatSeparator _).bind fun _ =>
        (h.operand _).bind fun b => (h.eatSeparator _).bind fun _ =>
        (h.operand _).bind fun c => h.ternary head a b c
    | _ => exact renders_report (.unexpectedArity head _ _)
  | circumfix =>
    cases arity with
    | unary =>
      exact (h.operand _).bind fun x => (h.eatSeparator _).bind fun _ => h.unary head x
    | _ => exact renders_report (.unexpectedArity head _ _)
  | postfixed => exact renders_report (.misfit .postfixed head)
  | infixed => exact renders_report (.misfit .infixed head)
  | interfix => exact renders_report (.misfit .interfix head)
  | _ => exact renders_report (.unexpectedArity head _ _)

theorem led (h : f.Renders r d f') (head : τ) (op : Operator φ) (lhs : ν) :
    Run.Renders r r.node d (f.led head op lhs) (f'.led (r.token head) op (r.node lhs)) := by
  have mixfix : Run.Renders r r.node d
      (do
        let b ← f.operand .bottom
        let _ ← f.eatSeparator op.continuing.follow[0]?
        let c ← f.operand op.continuing.rightPower
        f.ternary head lhs b c)
      (do
        let b ← f'.operand .bottom
        let _ ← f'.eatSeparator op.continuing.follow[0]?
        let c ← f'.operand op.continuing.rightPower
        f'.ternary (r.token head) (r.node lhs) b c) :=
    (h.operand _).bind fun b => (h.eatSeparator _).bind fun _ =>
      (h.operand _).bind fun c => h.ternary head lhs b c
  refine Run.Renders.record ?_ _ _
  generalize op.continuing.affix = affix, op.continuing.arity = arity
  cases affix with
  | postfixed =>
    cases arity with
    | unary => exact h.unary head lhs
    | ternary => exact mixfix
    | _ => exact renders_report (.unexpectedArity head _ _)
  | infixed =>
    cases arity with
    | binary => exact (h.operand _).bind fun x => h.binary head lhs x
    | ternary => exact mixfix
    | _ => exact renders_report (.unexpectedArity head _ _)
  | nilfix => exact renders_report (.misfit .nilfix head)
  | prefixed => exact renders_report (.misfit .prefixed head)
  | circumfix => exact renders_report (.misfit .interfix head)
  | interfix => exact renders_report (.misfit .interfix head)
  | _ => exact renders_report (.unexpectedArity head _ _)

theorem continued (h : f.Renders r d f') (rbp : Precedence) (n : Nat) (nbp : Precedence)
    (lhs : ν) :
    Run.Renders r r.node d (f.continued rbp n nbp lhs) (f'.continued rbp n nbp (r.node lhs)) := by
  induction n generalizing nbp lhs with
  | zero => exact renders_pure lhs
  | succ n ih =>
    refine h.visible.bind fun o => ?_
    cases o with
    | none => exact renders_pure lhs
    | some t =>
      refine (h.query t).bind fun op => ?_
      dsimp only [id]
      rw [h.admits]
      split
      · exact renders_consume.bind fun _ => (h.led t op.continuing lhs).bind fun node => ih _ node
      · exact renders_pure lhs

theorem climb (h : f.Renders r d f') (rbp : Precedence) (head : τ) :
    Run.Renders r r.node d (f.climb rbp head) (f'.climb rbp (r.token head)) :=
  renders_consume.bind fun _ => (h.query head).bind fun op =>
    (h.nud head op.leading).bind fun node =>
    Run.Renders.remaining (k := fun n => f.continued rbp n op.leading.nextPower node)
      (i := fun n => f'.continued rbp n op.leading.nextPower (r.node node))
      (fun n => h.continued rbp n _ node) (fun s n => h.steady rbp _ node s n)
      fun s n => h.steady' rbp _ (r.node node) s n

end Frame.Renders

/-- Two parsers whose callbacks are rendered, with the same configuration and the same guard. -/
structure Parser.Renders (r : Rendering τ τ' ν ν' ε) (p : Parser τ φ ν ε) (p' : Parser τ' φ ν' ε) :
    Prop where
  config : p'.config = p.config
  admits : p'.admits = p.admits
  query : ∀ t, r.Renders id (p.grammar.query t) (p'.grammar.query (r.token t))
  nullary : ∀ t, r.Renders r.node (p.grammar.nullary t) (p'.grammar.nullary (r.token t))
  unary : ∀ t x,
    r.Renders r.node (p.grammar.unary t x) (p'.grammar.unary (r.token t) (r.node x))
  binary : ∀ t x y, r.Renders r.node (p.grammar.binary t x y)
    (p'.grammar.binary (r.token t) (r.node x) (r.node y))
  ternary : ∀ t x y z, r.Renders r.node (p.grammar.ternary t x y z)
    (p'.grammar.ternary (r.token t) (r.node x) (r.node y) (r.node z))
  isFollow : ∀ t mark, r.Renders id (p.grammar.isFollow t mark)
    (p'.grammar.isFollow (r.token t) mark)

theorem Rendering.Renders.perform {r : Rendering τ τ' ν ν' ε} {value : α → α'} {d : Nat}
    {callback : Callback τ φ ν ε α} {callback' : Callback τ' φ ν' ε α'}
    {enter : Goal → Option (StopTest τ φ ε) → Run τ φ ν ε ν}
    {enter' : Goal → Option (StopTest τ' φ ε) → Run τ' φ ν' ε ν'}
    (h : r.Renders value callback callback')
    (he : ∀ goal tests tests', r.Tests tests tests' →
      Run.Renders r r.node d (enter goal tests) (enter' goal tests')) :
    Run.Renders r value d (callback.perform enter) (callback'.perform enter') := by
  induction h with
  | value a => exact renders_pure a
  | fail f => exact renders_throw f
  | @parse c goal tests tests' _ _ ht _ ih =>
    exact ((he goal tests tests' ht).within c).bind fun x => ih x.1 x.2

namespace Parser.Renders

variable {r : Rendering τ τ' ν ν' ε} {d : Nat} {p : Parser τ φ ν ε} {p' : Parser τ' φ ν' ε}
  {stop : Option (Stop τ φ ν ε)} {stop' : Option (Stop τ' φ ν' ε)}

theorem asking (h : p.Renders r p') {enter : Goal → Option (StopTest τ φ ε) → Run τ φ ν ε ν}
    {enter' : Goal → Option (StopTest τ' φ ε) → Run τ' φ ν' ε ν'}
    (he : ∀ goal tests tests', r.Tests tests tests' →
      Run.Renders r r.node d (enter goal tests) (enter' goal tests'))
    (hs : r.Stops stop stop') : Asking r d (p.asking enter stop) (p'.asking enter' stop') := by
  cases hs with
  | none => exact .none
  | some hs => exact .some fun t => ((hs t).perform he).calling h.config _ _

/-- The tests of a callback's run end in an answer at once. -/
theorem asking_tests (h : p.Renders r p') {tests : Option (StopTest τ φ ε)}
    {tests' : Option (StopTest τ' φ ε)} (ht : r.Tests tests tests') :
    Asking r d (tests.map fun test t => p.calling (.stop t) (Run.ofExcept (test t)))
      (tests'.map fun test t => p'.calling (.stop t) (Run.ofExcept (test t))) := by
  cases ht with
  | none => exact .none
  | @some test test' ht =>
    refine .some fun t => ?_
    have answered :
        Run.Renders r id d (Run.ofExcept (test t)) (Run.ofExcept (test' (r.token t))) := by
      rw [ht t]
      cases test t with
      | ok yes => exact renders_pure yes
      | error f => exact renders_throw f
    exact answered.calling h.config _ _

theorem concluding (h : p.Renders r p') (goal : Goal) (node : ν) :
    Run.Renders r r.node d (p.concluding goal node) (p'.concluding goal (r.node node)) := by
  unfold Parser.concluding
  rw [h.config]
  split
  · refine renders_peek.bind fun o => ?_
    cases o with
    | none => exact renders_pure node
    | some t => exact renders_report (.trailingInput t)
  · exact renders_pure node

theorem entering (h : p.Renders r p') {operand : Precedence → Run τ φ ν ε ν}
    {operand' : Precedence → Run τ' φ ν' ε ν'}
    (ho : ∀ rbp, Run.Renders r r.node (d + charge d) (operand rbp) (operand' rbp)) (goal : Goal) :
    Run.Renders r r.node d (p.entering operand goal) (p'.entering operand' goal) := by
  have step {m : Run τ φ ν ε ν} {m' : Run τ' φ ν' ε ν'}
      (hm : Run.Renders r r.node (d + charge d) m m') :
      Run.Renders r r.node d
        (get >>= fun s => Run.deeper (charge s.depth) (.entered (charge s.depth))
          (.left (charge s.depth)) m >>= p.concluding goal)
        (get >>= fun s => Run.deeper (charge s.depth) (.entered (charge s.depth))
          (.left (charge s.depth)) m' >>= p'.concluding goal) :=
    Run.Renders.depth
      (k := fun depth => Run.deeper (charge depth) (.entered (charge depth))
        (.left (charge depth)) m >>= p.concluding goal)
      (i := fun depth => Run.deeper (charge depth) (.entered (charge depth))
        (.left (charge depth)) m' >>= p'.concluding goal)
      ((hm.deeper _ _ _ _).bind fun node => h.concluding goal node)
  unfold Parser.entering
  cases Precedence.ofInt? goal.floor with
  | none => exact step (renders_throw (.other (.precedenceRange goal.floor)))
  | some rbp => exact step (ho rbp)

/-- Every operand that is read at the depth is rendered. -/
def OperandsAt (r : Rendering τ τ' ν ν' ε) (p : Parser τ φ ν ε) (p' : Parser τ' φ ν' ε)
    (d : Nat) : Prop :=
  ∀ stop stop', r.Stops stop stop' → ∀ rbp head,
    Run.Renders r r.node d (p.operandIn (p.config.maxDepth - d) stop rbp head)
      (p'.operandIn (p'.config.maxDepth - d) stop' rbp (r.token head))

theorem reentry (h : p.Renders r p') (ho : OperandsAt r p p' (d + charge d)) (goal : Goal)
    {tests : Option (StopTest τ φ ε)} {tests' : Option (StopTest τ' φ ε)}
    (ht : r.Tests tests tests') :
    Run.Renders r r.node d (p.reentry (p.innerAt d) goal tests)
      (p'.reentry (p'.innerAt d) goal tests') :=
  h.entering (fun rbp => renders_startingAt (h.asking_tests ht) (ho _ _ ht.stops rbp)) goal

theorem frame (h : p.Renders r p') (ho : OperandsAt r p p' d)
    (hi : OperandsAt r p p' (d + charge d)) (hs : r.Stops stop stop') :
    (p.frameAt d stop).Renders r d (p'.frameAt d stop') := by
  have answered {α α' : Type} {value : α → α'} {callback : Callback τ φ ν ε α}
      {callback' : Callback τ' φ ν' ε α'} (hc : r.Renders value callback callback')
      (c : Call τ φ ν) (c' : Call τ' φ ν') :
      Run.Renders r value d ((p.frameAt d stop).call c callback)
        ((p'.frameAt d stop').call c' callback') :=
    (hc.perform fun goal _ _ => h.reentry hi goal).calling h.config c c'
  have asked : Asking r d (p.asking (p.reentry (p.innerAt d)) stop)
      (p'.asking (p'.reentry (p'.innerAt d)) stop') :=
    h.asking (fun goal _ _ => h.reentry hi goal) hs
  exact {
    strict := congrArg Config.strictInterfix h.config
    admits := h.admits
    query := fun t => answered (h.query t) _ _
    nullary := fun t => answered (h.nullary t) _ _
    unary := fun t x => answered (h.unary t x) _ _
    binary := fun t x y => answered (h.binary t x y) _ _
    ternary := fun t x y z => answered (h.ternary t x y z) _ _
    isFollow := fun t mark => answered (h.isFollow t mark) _ _
    visible := renders_visible asked
    operand := fun rbp => renders_startingAt asked (ho _ _ hs rbp)
    steady := fun rbp nbp lhs s n hd hn => by subst hd; exact p.continued_steady stop rbp nbp lhs hn
    steady' := fun rbp nbp lhs s n hd hn => by
      subst hd
      exact p'.continued_steady stop' rbp nbp lhs hn }

theorem operands (h : p.Renders r p') (d : Nat) : OperandsAt r p p' d := by
  -- by induction on the levels that are left, as an operand is read
  induction hroom : p.config.maxDepth - d using Nat.strongRecOn generalizing d with
  | ind room ih =>
    intro stop stop' hs rbp head
    have hlimit : p'.config.maxDepth = p.config.maxDepth := congrArg Config.maxDepth h.config
    by_cases hd : d < p.config.maxDepth
    · rw [p.operandIn_deeper hd, p'.operandIn_deeper (hlimit ▸ hd)]
      have deeper {e : Nat} (he : d < e) : OperandsAt r p p' e := ih _ (by omega) e rfl
      exact ((h.frame (deeper (by omega)) (deeper (by omega)) hs).climb rbp head).deeper _ _ _ _
    · rw [p.operandIn_full (by omega), p'.operandIn_full (by omega), hlimit]
      exact renders_report (.nestingTooDeep p.config.maxDepth none)

theorem frameAt (h : p.Renders r p') (d : Nat) (hs : r.Stops stop stop') :
    (p.frameAt d stop).Renders r d (p'.frameAt d stop') :=
  h.frame (h.operands d) (h.operands _) hs

theorem parseInput (h : p.Renders r p') (d : Nat) (rbp : Precedence) (hs : r.Stops stop stop') :
    Run.Renders r r.node d (p.parseInput rbp stop) (p'.parseInput rbp stop') :=
  Run.Renders.depth (k := fun depth => (p.frameAt depth stop).operand rbp)
    (i := fun depth => (p'.frameAt depth stop').operand rbp) ((h.frameAt d hs).operand rbp)

theorem parseUntil (h : p.Renders r p') (d : Nat) (rbp : Int) (hs : r.Stops stop stop') :
    Run.Renders r r.node d (p.parseUntil rbp stop) (p'.parseUntil rbp stop') :=
  h.entering (fun p => h.parseInput _ p hs) (.above rbp)

theorem parse (h : p.Renders r p') (d : Nat) : Run.Renders r r.node d p.parse p'.parse :=
  h.entering (fun p => h.parseInput _ p .none) .whole

end Parser.Renders

end BindingPower
