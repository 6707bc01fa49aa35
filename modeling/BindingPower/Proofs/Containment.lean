import BindingPower.Proofs.Composition
import BindingPower.Proofs.Detachment

/-! # Containment of failures

What a parse over plain tokens ends in. If no callback fails, it is a result or a report of the
engine's own. Otherwise the failure of the innermost callback that fails determines the report,
whatever encloses it, and nothing is called any more. -/
namespace BindingPower

variable {τ φ ν ε α β : Type}

/-- What a failure of a callback becomes, which is called at a depth. -/
inductive Failure.Surfaces (limit depth : Nat) : Failure τ φ ε → Report τ φ ε → Prop where
  | report (r : Report τ φ ε) : Surfaces limit depth (.report r) r
  | exhausted : Surfaces limit depth .exhausted (.nestingTooDeep limit (some depth))
  | other (c : Cause ε) : Surfaces limit depth (.other c) (.userError c)

/-- The events by which what has been opened is left again after a failure. -/
inductive Event.Unwinds : Event τ φ ν → Prop where
  | failed : Unwinds .failed
  | closed : Unwinds .closed
  | left (levels : Nat) : Unwinds (.left levels)

/-- Any event but that a callback has failed. -/
def Event.Calm (e : Event τ φ ν) : Prop := e ≠ .failed

/-- Only events of the kind have been added to the log. -/
def Session.Adds (Q : Event τ φ ν → Prop) (s t : Session τ φ ν ε) : Prop :=
  ∃ log : List (Nat × Event τ φ ν), t.log = log ++ s.log ∧ ∀ e ∈ log, Q e.2

/-- A callback has failed, and none inside of it: it was called in session `u` and failed in session
`v`, from where everything is left again. -/
inductive Parser.Breach (p : Parser τ φ ν ε) (stop : Option (Stop τ φ ν ε)) (s : Session τ φ ν ε)
    (r : Report τ φ ε) (t : Session τ φ ν ε) : Prop where
  | mk {α : Type} {c : Call τ φ ν} {callback : Callback τ φ ν ε α} {raw : Failure τ φ ε}
    {u v : Session τ φ ν ε} (hc : p.Asks stop c callback) (before : s.Adds Event.Calm u)
    (fails : p.answer callback (u.record (.called c)) = .error raw v)
    (inside : (u.record (.called c)).Adds Event.Calm v)
    (surfaces : raw.Surfaces p.config.maxDepth u.depth r)
    (behind : (v.record .failed).Adds Event.Unwinds t)

/-- How a parse ends that is begun in session `s`. -/
inductive Parser.Contained (p : Parser τ φ ν ε) (stop : Option (Stop τ φ ν ε))
    (s : Session τ φ ν ε) : EStateM.Result (Failure τ φ ε) (Session τ φ ν ε) ν → Prop where
  | returned {x : ν} {t : Session τ φ ν ε} (h : s.Adds Event.Calm t) : Contained p stop s (.ok x t)
  | raised {r : Report τ φ ε} {t : Session τ φ ν ε} (hr : r.Raised p.config)
    (h : s.Adds Event.Calm t) : Contained p stop s (.error (.report r) t)
  | surfaced {r : Report τ φ ε} {t : Session τ φ ν ε} (h : p.Breach stop s r t) :
    Contained p stop s (.error (.report r) t)

namespace Session.Adds

variable {Q : Event τ φ ν → Prop} {s t u : Session τ φ ν ε}

theorem of_eq (h : t.log = s.log) : s.Adds Q t := ⟨[], h, by simp⟩

theorem weaken {R : Event τ φ ν → Prop} (h : s.Adds Q t) (hw : ∀ e, Q e → R e) : s.Adds R t := by
  obtain ⟨log, hlog, hall⟩ := h
  exact ⟨log, hlog, fun e he => hw e.2 (hall e he)⟩

theorem trans (h : s.Adds Q t) (k : t.Adds Q u) : s.Adds Q u := by
  obtain ⟨older, hlog, holder⟩ := h
  obtain ⟨newer, klog, knewer⟩ := k
  refine ⟨newer ++ older, by rw [klog, hlog, List.append_assoc], fun e he => ?_⟩
  rcases List.mem_append.mp he with he | he
  · exact knewer e he
  · exact holder e he

theorem record {e : Event τ φ ν} (h : s.Adds Q t) (he : Q e) : s.Adds Q (t.record e) := by
  obtain ⟨log, hlog, hall⟩ := h
  refine ⟨(t.depth, e) :: log, by rw [Session.record, hlog]; rfl, fun x hx => ?_⟩
  rcases List.mem_cons.mp hx with rfl | hx
  · exact he
  · exact hall x hx

theorem down {n : Nat} {e : Event τ φ ν} (he : Q e) : s.Adds Q ((s.deepen n).record e) :=
  (of_eq (t := s.deepen n) rfl).record he

theorem up {n : Nat} {e : Event τ φ ν} (he : Q e) : s.Adds Q ((s.surface n).record e) :=
  (of_eq (t := s.surface n) rfl).record he

end Session.Adds

/-- Reading a stream leaves a later part of it, unless it pulls one of its faults. -/
def Cursor.Pulls (f : Cursor τ ε → Except ε α × Cursor τ ε) : Prop :=
  ∀ c, match f c with
    | (.ok _, d) => d.items <:+ c.items
    | (.error e, _) => .fault e ∈ c.items

theorem Cursor.peek_pulls :
    Pulls (Cursor.peek : Cursor τ ε → Except ε (Option τ) × Cursor τ ε) := by
  intro c
  rcases c.peek_cases with ⟨o, d, hp, hi, -⟩ | ⟨e, d, hp, he⟩
  · rw [hp]
    exact hi ▸ List.suffix_refl _
  · rw [hp]
    exact List.mem_of_head? he

theorem Cursor.next_pulls :
    Pulls (Cursor.next : Cursor τ ε → Except ε (Option τ) × Cursor τ ε) := by
  rintro ⟨ahead, rest, position, pulled⟩
  cases ahead with
  | some t => exact List.suffix_cons _ _
  | none =>
    cases rest with
    | nil => exact List.suffix_refl _
    | cons i rest =>
      cases i with
      | token t => exact List.suffix_cons _ _
      | fault e => exact List.mem_cons_self

/-- The later session is at the depth of the earlier one, and nothing has failed in between. -/
structure Session.Quiet (s t : Session τ φ ν ε) : Prop where
  depth : t.depth = s.depth
  log : s.Adds Event.Calm t

/-- Nothing has failed, and the later session reads what is left of the streams. -/
structure Session.Proceeds (s t : Session τ φ ν ε) : Prop extends s.Quiet t where
  side : t.side.isSome = s.side.isSome
  main : t.main.items <:+ s.main.items
  cursor : t.cursor.items <:+ s.cursor.items

namespace Session

variable {s t u : Session τ φ ν ε}

theorem Quiet.trans (h : s.Quiet t) (k : t.Quiet u) : s.Quiet u :=
  ⟨k.depth.trans h.depth, h.log.trans k.log⟩

/-- The way down and back up is quiet if everything in between is. -/
theorem Quiet.deeper {n : Nat} {before after : Event τ φ ν}
    (h : ((s.deepen n).record before).Quiet t) (hb : before.Calm) (ha : after.Calm) :
    s.Quiet ((t.surface n).record after) where
  depth := depth_surface h.depth
  log := ((Adds.down hb).trans h.log).trans (.up ha)

namespace Proceeds

theorem refl (s : Session τ φ ν ε) : s.Proceeds s :=
  ⟨⟨rfl, .of_eq rfl⟩, rfl, List.suffix_refl _, List.suffix_refl _⟩

theorem trans (h : s.Proceeds t) (k : t.Proceeds u) : s.Proceeds u where
  toQuiet := h.toQuiet.trans k.toQuiet
  side := k.side.trans h.side
  main := k.main.trans h.main
  cursor := k.cursor.trans h.cursor

theorem record {e : Event τ φ ν} (h : s.Proceeds t) (he : e.Calm) :
    s.Proceeds (t.record e) := ⟨⟨h.depth, h.log.record he⟩, h.side, h.main, h.cursor⟩

theorem withCursor {c : Cursor τ ε} (h : c.items <:+ s.cursor.items) :
    s.Proceeds (s.withCursor c) := by
  obtain ⟨main, side, depth, log⟩ := s
  cases side with
  | none => exact ⟨⟨rfl, .of_eq rfl⟩, rfl, h, h⟩
  | some d => exact ⟨⟨rfl, .of_eq rfl⟩, rfl, List.suffix_refl _, h⟩

theorem withMain {c : Cursor τ ε} (h : c.items <:+ s.main.items) :
    s.Proceeds { s with main := c } := by
  obtain ⟨main, side, depth, log⟩ := s
  cases side with
  | none => exact ⟨⟨rfl, .of_eq rfl⟩, rfl, h, h⟩
  | some d => exact ⟨⟨rfl, .of_eq rfl⟩, rfl, h, List.suffix_refl _⟩

/-- When a stream of its own has been read, the stream in use is that of before. -/
theorem restored {side : Option (Cursor τ ε)} (h : Proceeds { s with side := side } t) :
    s.Proceeds { t with side := s.side } := by
  obtain ⟨main, own, depth, log⟩ := s
  cases own with
  | none => exact ⟨⟨h.depth, h.log⟩, rfl, h.main, h.main⟩
  | some d => exact ⟨⟨h.depth, h.log⟩, rfl, h.main, List.suffix_refl _⟩

end Proceeds

end Session

/-- How a run may fail: the engine by a report of its own or by a fault of the stream it reads, a
callback in any way of its own, both by a callback that is called on the way. -/
inductive Parser.Fails (p : Parser τ φ ν ε) (stop : Option (Stop τ φ ν ε)) (s : Session τ φ ν ε) :
    Layer → Failure τ φ ε → Session τ φ ν ε → Prop where
  | raised {r : Report τ φ ε} {t : Session τ φ ν ε} (hr : r.Raised p.config) (h : s.Quiet t) :
    Fails p stop s .engine (.report r) t
  | pulled {e : ε} {t : Session τ φ ν ε} (he : .fault e ∈ s.cursor.items) (h : s.Quiet t) :
    Fails p stop s .engine (.other (.fault e)) t
  | own {f : Failure τ φ ε} {t : Session τ φ ν ε} (h : s.Quiet t) : Fails p stop s .callback f t
  | surfaced {l : Layer} {r : Report τ φ ε} {t : Session τ φ ν ε} (h : p.Breach stop s r t) :
    Fails p stop s l (.report r) t

namespace Parser

variable {p : Parser τ φ ν ε} {stop : Option (Stop τ φ ν ε)} {s t u : Session τ φ ν ε} {l : Layer}
  {f : Failure τ φ ε} {r : Report τ φ ε} {d : Nat}

theorem Breach.after (h : p.Breach stop t r u) (hs : s.Adds Event.Calm t) :
    p.Breach stop s r u := by
  obtain ⟨hc, before, fails, inside, surfaces, behind⟩ := h
  exact ⟨hc, hs.trans before, fails, inside, surfaces, behind⟩

theorem Breach.before (h : p.Breach stop s r t) (ht : t.Adds Event.Unwinds u) :
    p.Breach stop s r u := by
  obtain ⟨hc, before, fails, inside, surfaces, behind⟩ := h
  exact ⟨hc, before, fails, inside, surfaces, behind.trans ht⟩

/-- What fails later on, fails in the whole. -/
theorem Fails.after (h : p.Fails stop t l f u) (hs : s.Proceeds t) : p.Fails stop s l f u := by
  cases h with
  | raised hr h => exact .raised hr (hs.toQuiet.trans h)
  | pulled he h => exact .pulled (hs.cursor.subset he) (hs.toQuiet.trans h)
  | own h => exact .own (hs.toQuiet.trans h)
  | surfaced h => exact .surfaced (h.after hs.log)

theorem Fails.weaken (h : p.Fails stop s .engine f t) : p.Fails stop s .callback f t := by
  cases h with
  | raised _ h => exact .own h
  | pulled _ h => exact .own h
  | surfaced h => exact .surfaced h

theorem Fails.deeper {n : Nat} {before after : Event τ φ ν}
    (h : p.Fails stop ((s.deepen n).record before) l f t) (hb : before.Calm)
    (ha : after.Calm) (hu : after.Unwinds) :
    p.Fails stop s l f ((t.surface n).record after) := by
  cases h with
  | raised hr h => exact .raised hr (h.deeper hb ha)
  | pulled he h => exact .pulled he (h.deeper hb ha)
  | own h => exact .own (h.deeper hb ha)
  | surfaced h => exact .surfaced ((h.after (.down hb)).before (.up hu))

/-- A failure of a callback surfaces, unless it has done so inside of the callback. -/
theorem Fails.contained {c : Call τ φ ν} {callback : Callback τ φ ν ε α}
    (hc : p.Asks stop c callback) (hrun : p.answer callback (s.record (.called c)) = .error f t)
    (h : p.Fails stop (s.record (.called c)) .callback f t) :
    p.Fails stop s .engine (contain p.config.maxDepth t.depth f) (t.record .failed) := by
  cases h with
  | own h =>
    have breach {r : Report τ φ ε} (hr : f.Surfaces p.config.maxDepth s.depth r) :
        p.Breach stop s r (t.record .failed) :=
      ⟨hc, .of_eq rfl, hrun, h.log, hr, .of_eq rfl⟩
    rw [h.depth, Session.depth_record]
    cases f with
    | report r => exact .surfaced (breach (.report r))
    | exhausted => exact .surfaced (breach .exhausted)
    | other c => exact .surfaced (breach (.other c))
  | surfaced h =>
    have called : s.Adds Event.Calm (s.record (.called c)) :=
      (Session.Adds.of_eq rfl).record (by simp [Event.Calm])
    have failed : t.Adds Event.Unwinds (t.record .failed) := (Session.Adds.of_eq rfl).record .failed
    exact .surfaced ((h.after called).before failed)

/-- How a run may end. -/
def Ends (p : Parser τ φ ν ε) (stop : Option (Stop τ φ ν ε)) (l : Layer) (s : Session τ φ ν ε)
    {α : Type} : EStateM.Result (Failure τ φ ε) (Session τ φ ν ε) α → Prop
  | .ok _ t => s.Proceeds t
  | .error f t => p.Fails stop s l f t

/-- From the depth on, the run ends in one of the ways it may end in. -/
def Contains (p : Parser τ φ ν ε) (stop : Option (Stop τ φ ν ε)) (l : Layer) (d : Nat) {α : Type}
    (m : Run τ φ ν ε α) : Prop :=
  ∀ s : Session τ φ ν ε, s.depth = d → p.Ends stop l s (m s)

theorem Contains.bind {m : Run τ φ ν ε α} {k : α → Run τ φ ν ε β} (hm : p.Contains stop l d m)
    (hk : ∀ a, p.Contains stop l d (k a)) : p.Contains stop l d (m >>= k) := by
  intro s hs
  have hends := hm s hs
  change p.Ends stop l s (EStateM.bind m k s)
  unfold EStateM.bind
  cases hrun : m s with
  | error f t =>
    rw [hrun] at hends
    exact hends
  | ok a t =>
    rw [hrun] at hends
    have hnext := hk a t (hends.depth.trans hs)
    dsimp only
    cases hrest : k a t with
    | ok b u =>
      rw [hrest] at hnext
      exact hends.trans hnext
    | error f u =>
      rw [hrest] at hnext
      exact hnext.after hends

/-- What is recorded on the way down and back up does not change how a run ends. -/
theorem Contains.deeper {n : Nat} {before after : Event τ φ ν} {m : Run τ φ ν ε α}
    (h : p.Contains stop l (d + n) m) (hb : before.Calm) (ha : after.Calm)
    (hu : after.Unwinds) : p.Contains stop l d (Run.deeper n before after m) := by
  intro s hs
  have hends := h ((s.deepen n).record before) (congrArg (· + n) hs)
  unfold Run.deeper
  cases hrun : m ((s.deepen n).record before) with
  | ok a t =>
    rw [hrun] at hends
    exact ⟨hends.toQuiet.deeper hb ha, hends.side, hends.main, hends.cursor⟩
  | error f t =>
    rw [hrun] at hends
    exact hends.deeper hb ha hu

theorem contains_calling {c : Call τ φ ν} {callback : Callback τ φ ν ε α}
    (hc : p.Asks stop c callback)
    (h : p.Contains stop .callback d (callback.perform (p.reentry (p.innerAt d)))) :
    p.Contains stop .engine d (p.calling c (callback.perform (p.reentry (p.innerAt d)))) := by
  intro s hs
  subst hs
  have hends := h (s.record (.called c)) rfl
  change p.Ends stop .engine s (Run.catching _ _ (s.record (.called c)))
  unfold Run.catching
  cases hrun : callback.perform (p.reentry (p.innerAt s.depth)) (s.record (.called c)) with
  | ok a t =>
    rw [hrun] at hends
    exact ((Session.Proceeds.refl s).record (by simp [Event.Calm])).trans hends
  | error f t =>
    rw [hrun] at hends
    exact hends.contained hc hrun

theorem contains_reading {f : Cursor τ ε → Except ε α × Cursor τ ε} (hf : Cursor.Pulls f) :
    p.Contains stop .engine d (Run.reading f) := by
  intro s _
  have hpull := hf s.cursor
  unfold Run.reading
  match hrun : f s.cursor with
  | (.ok a, c) =>
    rw [hrun] at hpull
    exact .withCursor hpull
  | (.error e, c) =>
    rw [hrun] at hpull
    exact .pulled hpull ⟨s.depth_withCursor c, .of_eq (s.log_withCursor c)⟩

theorem contains_take : p.Contains stop .callback d (Run.readingMain Cursor.next) := by
  intro s _
  have hpull := Cursor.next_pulls s.main
  unfold Run.readingMain
  match hrun : s.main.next with
  | (.ok o, c) =>
    rw [hrun] at hpull
    exact .withMain hpull
  | (.error e, c) => exact .own ⟨rfl, .of_eq rfl⟩

theorem contains_within {m : Run τ φ ν ε α} (h : p.Contains stop .callback d m)
    (side : Option (Cursor τ ε)) : p.Contains stop .callback d (Run.within side m) := by
  intro s hs
  have hends := h { s with side := side } hs
  unfold Run.within
  cases hrun : m { s with side := side } with
  | ok a t =>
    rw [hrun] at hends
    exact hends.restored
  | error f t =>
    rw [hrun] at hends
    cases hends with
    | own h => exact .own ⟨h.depth, h.log⟩
    | surfaced h =>
      have there : s.Adds Event.Calm { s with side := side } := .of_eq rfl
      have back : t.Adds Event.Unwinds { t with side := s.side } := .of_eq rfl
      exact .surfaced ((h.after there).before back)

/-- Every step of a parser ends in one of the ways it may end in. -/
theorem contains_composes (p : Parser τ φ ν ε) (stop : Option (Stop τ φ ν ε)) :
    p.Composes stop (p.Contains stop) where
  weaken {d α m} h s hs := by
    have hends := h s hs
    cases hrun : m s with
    | ok a t =>
      rw [hrun] at hends
      exact hends
    | error f t =>
      rw [hrun] at hends
      exact hends.weaken
  pure a s _ := .refl s
  bind hm hk := hm.bind hk
  depth {l d α k} h s hs := by
    subst hs
    exact h s rfl
  remaining h s hs := h _ s hs
  report hr s _ := .raised hr ⟨rfl, .of_eq rfl⟩
  record he s _ := (Session.Proceeds.refl s).record (by cases he <;> simp [Event.Calm])
  peek := contains_reading Cursor.peek_pulls
  next := contains_reading Cursor.next_pulls
  body _ h := h.deeper (by simp [Event.Calm]) (by simp [Event.Calm]) .closed
  entered h := h.deeper (by simp [Event.Calm]) (by simp [Event.Calm]) (.left _)
  call hc h := contains_calling hc h
  fails f s _ := .own ⟨rfl, .of_eq rfl⟩
  within side h := contains_within h side
  take := contains_take

variable {x : EStateM.Result (Failure τ φ ε) (Session τ φ ν ε) ν}

/-- Over plain tokens there are no faults to pull. -/
theorem Ends.contained {tokens : List τ} (h : p.Ends stop .engine s x)
    (hs : s.cursor.items = tokens.map .token) : p.Contained stop s x := by
  cases x with
  | ok a t =>
    have proceeds : s.Proceeds t := h
    exact .returned proceeds.log
  | error f t =>
    cases h with
    | raised hr h => exact .raised hr h.log
    | pulled he h => simp [hs] at he
    | surfaced h => exact .surfaced h

end Parser

/-- The entry points that parse an expression, with a number that is a precedence. -/
inductive Entry.Parses : Option (Stop τ φ ν ε) → Entry τ φ ν ε ν → Prop where
  | parse : Parses none .parse
  | parseUntil {rbp : Int} (h : 0 ≤ rbp ∧ rbp ≤ 4294967295) (stop : Option (Stop τ φ ν ε)) :
    Parses stop (.parseUntil rbp stop)
  | parseInput (rbp : Precedence) (stop : Option (Stop τ φ ν ε)) :
    Parses stop (.parseInput rbp stop)

/-- A parse over plain tokens ends in a result, in a report of the engine's own, or in the report
that the innermost failing callback determines. -/
theorem Parser.enter_contained (p : Parser τ φ ν ε) {stop : Option (Stop τ φ ν ε)}
    {e : Entry τ φ ν ε ν} (he : e.Parses stop) {s : Session τ φ ν ε} {tokens : List τ}
    (hs : s.cursor.items = tokens.map .token) : p.Contained stop s (p.enter e s) := by
  have composes := p.contains_composes stop
  refine Ends.contained ?_ hs
  cases he with
  | parse => exact composes.parse s.depth s rfl
  | parseUntil h stop =>
    refine composes.parseUntil s.depth (fun hrange => ?_) s rfl
    simp [Precedence.ofInt?, h] at hrange
  | parseInput rbp stop => exact composes.parseInput s.depth rbp s rfl

namespace Table

/-- Sums over groups, in which an `x` is refused. -/
def refusing : Table :=
  ⟨[("+", .infixed (.saturate 1) .left)], .plain, none, .exact,
    [⟨.nullary, some (.word "x"), .other (.fault (.worded .value "no x"))⟩]⟩

/-- An `x` inside two groups. -/
def refused : List Symbol := [.word "a", .word "+", .list [.list [.word "x"]]]

theorem enter_contained_refusing :
    ∃ t, (refusing.parser .standard).enter (.parseUntil 0 none) (.start (.ofTokens refused)) =
        .error (.report (.userError (.fault (.worded .value "no x")))) t ∧
      (refusing.parser .standard).Breach none (.start (.ofTokens refused))
        (.userError (.fault (.worded .value "no x"))) t := by
  have hfailure : failure? ((refusing.parser .standard).enter (.parseUntil 0 none)
      (.start (.ofTokens refused))) =
        some (.report (.userError (.fault (.worded .value "no x")))) := by
    decide +kernel
  have contained : (refusing.parser .standard).Contained none (.start (.ofTokens refused))
      ((refusing.parser .standard).enter (.parseUntil 0 none) (.start (.ofTokens refused))) :=
    Parser.enter_contained _ (.parseUntil (by decide) none)
      (show _ = refused.map Item.token from rfl)
  obtain ⟨t, ht⟩ := failure?_eq_some.mp hfailure
  refine ⟨t, ht, ?_⟩
  rw [ht] at contained
  cases contained with
  | raised hr _ => cases hr
  | surfaced h => exact h

end Table

end BindingPower
