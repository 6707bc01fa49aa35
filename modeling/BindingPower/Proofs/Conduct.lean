import BindingPower.Proofs.Tasks

/-! # The conduct of a parser

Whatever a parser does, its log keeps to the tasks. Where a run fails, what is recorded from there
on only leaves what has been opened, and a report is explained by the tasks of the moment at which
it came up. -/
namespace BindingPower

variable {τ φ ν ε α β : Type}

/-- What has been recorded since a session has led to these tasks. -/
def Session.Tasked (G : Grammar τ φ ν ε) (s₀ s : Session τ φ ν ε) (T : List (Task τ)) : Prop :=
  ∃ log : Log τ φ ν, s.log = log ++ s₀.log ∧ log.counter s₀.depth = s.depth ∧ log.Leaves G T

namespace Session.Tasked

variable {G : Grammar τ φ ν ε} {s₀ s : Session τ φ ν ε} {T T' : List (Task τ)}

/-- The counter stands where the newest event took place, whatever that is. -/
theorem record {t : Session τ φ ν ε} {e : Event τ φ ν} (h : s₀.Tasked G s T) (ht : t.log = s.log)
    (he : e.Turns G T T') : s₀.Tasked G (t.record e) T' := by
  obtain ⟨log, hlog, -, hleaves⟩ := h
  refine ⟨(t.depth, e) :: log, ?_, rfl, hleaves.step he⟩
  rw [Session.record, ht, hlog]
  rfl

theorem withCursor (h : s₀.Tasked G s T) (c : Cursor τ ε) : s₀.Tasked G (s.withCursor c) T := by
  obtain ⟨log, hlog, hcount, hleaves⟩ := h
  exact ⟨log, by rw [log_withCursor, hlog], by rw [depth_withCursor, hcount], hleaves⟩

end Session.Tasked

namespace Parser

/-- What has been recorded since a session has led to some tasks, from where everything is left. If
the failure is a report, these tasks explain it. -/
def Founders (p : Parser τ φ ν ε) (stop : Option (Stop τ φ ν ε)) (s₀ : Session τ φ ν ε)
    (f : Failure τ φ ε) (t : Session τ φ ν ε) : Prop :=
  ∃ (unwound log : Log τ φ ν) (T : List (Task τ)), t.log = unwound ++ (log ++ s₀.log) ∧
    (∀ entry ∈ unwound, entry.2.Unwinds) ∧ log.Leaves p.grammar T ∧
    ∀ r, f = .report r → p.Explains stop (log.counter s₀.depth) T r

/-- From the depth and the tasks on, the run comes to results and tasks that go together, or it
founders. -/
def Conducts (p : Parser τ φ ν ε) (stop : Option (Stop τ φ ν ε)) (s₀ : Session τ φ ν ε) (d : Nat)
    (T : List (Task τ)) (m : Run τ φ ν ε α) (Q : α → List (Task τ) → Prop) : Prop :=
  ∀ s : Session τ φ ν ε, s.depth = d → s₀.Tasked p.grammar s T →
    match m s with
    | .ok a t => t.depth = d ∧ ∃ U, s₀.Tasked p.grammar t U ∧ Q a U
    | .error f t => p.Founders stop s₀ f t

end Parser

/-- The run comes to the tasks, whatever its result. -/
def Becomes (T : List (Task τ)) : α → List (Task τ) → Prop := fun _ U => U = T

/-- The run completes an expression above the tasks. -/
def Completes (T : List (Task τ)) : α → List (Task τ) → Prop :=
  fun _ U => ∃ top : Task τ, top.Complete ∧ U = top :: T

namespace Parser

variable {p : Parser τ φ ν ε} {stop stop' : Option (Stop τ φ ν ε)} {s₀ : Session τ φ ν ε} {d : Nat}
  {T T' : List (Task τ)} {m : Run τ φ ν ε α} {Q R : α → List (Task τ) → Prop}

/-! ## Steps -/

theorem conducts_pure {a : α} (h : Q a T) : p.Conducts stop s₀ d T (pure a) Q :=
  fun _ hd hs => ⟨hd, T, hs, h⟩

theorem conducts_throw {f : Failure τ φ ε} (h : ∀ r, f = .report r → p.Explains stop d T r) :
    p.Conducts stop s₀ d T (throw f : Run τ φ ν ε α) Q := by
  rintro s hd ⟨log, hlog, hcount, hleaves⟩
  refine ⟨[], log, T, hlog, by simp, hleaves, fun r hr => ?_⟩
  rw [hcount, hd]
  exact h r hr

theorem conducts_report {r : Report τ φ ε} (h : p.Explains stop d T r) :
    p.Conducts stop s₀ d T (Run.report r : Run τ φ ν ε α) Q :=
  conducts_throw fun _ hr => Failure.report.inj hr ▸ h

theorem Conducts.weaken (h : p.Conducts stop s₀ d T m Q) (hw : ∀ a U, Q a U → R a U) :
    p.Conducts stop s₀ d T m R := by
  intro s hd hs
  have hm := h s hd hs
  cases hrun : m s with
  | ok a t =>
    rw [hrun] at hm
    obtain ⟨hdepth, U, hU, hQ⟩ := hm
    exact ⟨hdepth, U, hU, hw a U hQ⟩
  | error f t =>
    rw [hrun] at hm
    exact hm

theorem Conducts.bind {k : α → Run τ φ ν ε β} {Q' : β → List (Task τ) → Prop}
    (hm : p.Conducts stop s₀ d T m Q) (hk : ∀ a U, Q a U → p.Conducts stop s₀ d U (k a) Q') :
    p.Conducts stop s₀ d T (m >>= k) Q' := by
  intro s hd hs
  have hfirst := hm s hd hs
  cases hrun : m s with
  | ok a t =>
    rw [hrun] at hfirst
    obtain ⟨hdepth, U, hU, hQ⟩ := hfirst
    rw [bind_of_ok hrun]
    exact hk a U hQ t hdepth hU
  | error f t =>
    rw [hrun] at hfirst
    rw [bind_of_error hrun]
    exact hfirst

/-- Steps may rely on the tasks that the one before them comes to. -/
theorem Conducts.andThen {k : α → Run τ φ ν ε β} {Q' : β → List (Task τ) → Prop}
    (hm : p.Conducts stop s₀ d T m (Becomes T')) (hk : ∀ a, p.Conducts stop s₀ d T' (k a) Q') :
    p.Conducts stop s₀ d T (m >>= k) Q' :=
  hm.bind fun a _ hU => hU ▸ hk a

theorem conducts_depth {k : Nat → Run τ φ ν ε α} (h : p.Conducts stop s₀ d T (k d) Q) :
    p.Conducts stop s₀ d T (get >>= fun s => k s.depth) Q := by
  intro s hd
  subst hd
  exact h s rfl

theorem conducts_remaining {k : Nat → Run τ φ ν ε α} (h : ∀ n, p.Conducts stop s₀ d T (k n) Q) :
    p.Conducts stop s₀ d T (get >>= fun s => k s.cursor.remaining) Q :=
  fun s hd hs => h _ s hd hs

theorem conducts_record {e : Event τ φ ν} (he : e.Turns p.grammar T T') :
    p.Conducts stop s₀ d T (Run.record e) (Becomes T') :=
  fun _ hd hs => ⟨hd, T', hs.record rfl he, rfl⟩

theorem Founders.of_tasked {c : Cause ε} {s : Session τ φ ν ε} (h : s₀.Tasked p.grammar s T) :
    p.Founders stop s₀ (.other c) s := by
  obtain ⟨log, hlog, -, hleaves⟩ := h
  exact ⟨[], log, T, hlog, by simp, hleaves, by simp⟩

theorem conducts_reading (f : Cursor τ ε → Except ε α × Cursor τ ε) :
    p.Conducts stop s₀ d T (Run.reading f) (Becomes T) := by
  intro s hd hs
  unfold Run.reading
  match f s.cursor with
  | (.ok a, c) => exact ⟨(s.depth_withCursor c).trans hd, T, hs.withCursor c, rfl⟩
  | (.error e, c) => exact .of_tasked (hs.withCursor c)

theorem conducts_take : p.Conducts stop s₀ d T (Run.readingMain Cursor.next) (Becomes T) := by
  intro s hd hs
  unfold Run.readingMain
  match s.main.next with
  | (.ok o, c) => exact ⟨hd, T, hs, rfl⟩
  | (.error e, c) => exact .of_tasked (s := { s with main := c }) hs

theorem Founders.record {f : Failure τ φ ε} {t : Session τ φ ν ε} {n : Nat} {e : Event τ φ ν}
    (h : p.Founders stop s₀ f t) (he : e.Unwinds) :
    p.Founders stop s₀ f ((t.surface n).record e) := by
  obtain ⟨unwound, log, T, hlog, hunwinds, hleaves, hexplains⟩ := h
  refine ⟨((t.surface n).depth, e) :: unwound, log, T, ?_, ?_, hleaves, hexplains⟩
  · change _ :: t.log = _
    rw [hlog]
    rfl
  · exact List.forall_mem_cons.mpr ⟨he, hunwinds⟩

theorem Conducts.deeper {n : Nat} {before after : Event τ φ ν} {Q' : α → List (Task τ) → Prop}
    (h : p.Conducts stop s₀ (d + n) T' m Q') (hb : before.Turns p.grammar T T')
    (ha : ∀ a U, Q' a U → ∃ U', after.Turns p.grammar U U' ∧ Q a U') (hu : after.Unwinds) :
    p.Conducts stop s₀ d T (Run.deeper n before after m) Q := by
  intro s hd hs
  have hm := h ((s.deepen n).record before) (congrArg (· + n) hd) (hs.record rfl hb)
  unfold Run.deeper
  cases hrun : m ((s.deepen n).record before) with
  | ok a t =>
    rw [hrun] at hm
    obtain ⟨hdepth, U, hU, hQ⟩ := hm
    obtain ⟨U', hturns, hQ'⟩ := ha a U hQ
    exact ⟨Session.depth_surface hdepth, U', hU.record rfl hturns, hQ'⟩
  | error f t =>
    rw [hrun] at hm
    exact hm.record hu

/-- A failure of a callback is contained; a report has been explained where it came up. -/
theorem Conducts.calling (h : p.Conducts stop s₀ d T m Q) (c : Call τ φ ν) :
    p.Conducts stop s₀ d T (p.calling c m) Q := by
  refine (conducts_record (.called c)).andThen fun _ s hd hs => ?_
  have hm := h s hd hs
  unfold Run.catching
  cases hrun : m s with
  | ok a t =>
    rw [hrun] at hm
    exact hm
  | error f t =>
    rw [hrun] at hm
    obtain ⟨unwound, log, U, hlog, hunwinds, hleaves, hexplains⟩ := hm.record (n := 0) .failed
    refine ⟨unwound, log, U, hlog, hunwinds, hleaves, fun r hr => ?_⟩
    cases f with
    | report q => exact hexplains r hr
    | exhausted =>
      obtain rfl := Failure.report.inj hr
      exact .exhausted _ _ U
    | other c =>
      obtain rfl := Failure.report.inj hr
      exact .userError c U

theorem Conducts.within (h : p.Conducts stop s₀ d T m Q) (side : Option (Cursor τ ε)) :
    p.Conducts stop s₀ d T (Run.within side m) fun x U => Q x.1 U := by
  intro s hd hs
  have hm := h { s with side := side } hd hs
  unfold Run.within
  cases hrun : m { s with side := side } with
  | ok a t =>
    rw [hrun] at hm
    exact hm
  | error f t =>
    rw [hrun] at hm
    exact hm

/-- What a run only returns under a condition meets it. -/
theorem Conducts.returned {P : α → Prop} (h : p.Conducts stop s₀ d T m Q)
    (hp : ∀ s a t, m s = .ok a t → P a) :
    p.Conducts stop s₀ d T m fun a U => Q a U ∧ P a := by
  intro s hd hs
  have hm := h s hd hs
  cases hrun : m s with
  | ok a t =>
    rw [hrun] at hm
    obtain ⟨hdepth, U, hU, hQ⟩ := hm
    exact ⟨hdepth, U, hU, hQ, hp s a t hrun⟩
  | error f t =>
    rw [hrun] at hm
    exact hm

theorem conducts_perform {enter : Goal → Option (StopTest τ φ ε) → Run τ φ ν ε ν}
    {callback : Callback τ φ ν ε α}
    (he : ∀ q, callback.Requests q → p.Conducts stop s₀ d T (enter q.goal q.stop) (Becomes T))
    (hr : ∀ r, callback.Raises (.report r) → p.Explains stop d T r) :
    p.Conducts stop s₀ d T (callback.perform enter) (Becomes T) := by
  induction callback with
  | value a => exact conducts_pure rfl
  | fail f =>
    refine conducts_throw fun r hf => hr r ?_
    rw [hf]
    exact .here
  | parse q next ih =>
    exact ((he q .here).within q.source).andThen fun x =>
      ih x.1 x.2 (fun r h => he r (.later h)) fun r h => hr r (.later h)
  | take next ih =>
    exact conducts_take.andThen fun t => ih t (fun r h => he r (.taken h)) fun r h => hr r (.taken h)

theorem conducts_visible {ask : Option (τ → Run τ φ ν ε Bool)}
    (ha : ∀ a ∈ ask, ∀ t, p.Conducts stop s₀ d T (a t) (Becomes T)) :
    p.Conducts stop s₀ d T (visible ask) (Becomes T) := by
  refine (conducts_reading _).andThen fun o => ?_
  cases o with
  | none => exact conducts_pure rfl
  | some t =>
    cases ask with
    | none => exact conducts_pure rfl
    | some a =>
      refine (ha a rfl t).andThen fun yes => ?_
      cases yes with
      | true => exact conducts_pure rfl
      | false => exact conducts_pure rfl

theorem conducts_startingAt {ask : Option (τ → Run τ φ ν ε Bool)} {body : τ → Run τ φ ν ε ν}
    {task : Task τ} {Q : ν → List (Task τ) → Prop} (hw : task.Awaits)
    (ha : ∀ a ∈ ask, ∀ t, p.Conducts stop s₀ d (task :: T) (a t) (Becomes (task :: T)))
    (hb : ∀ t, p.Conducts stop s₀ d (task :: T) (body t) Q) :
    p.Conducts stop s₀ d (task :: T) (startingAt ask body) Q := by
  refine (conducts_visible ha).andThen fun o => ?_
  cases o with
  | none => exact conducts_report (.emptyInput hw)
  | some t => exact hb t

theorem conducts_consume : p.Conducts stop s₀ d T consume (Becomes T) :=
  (conducts_reading _).andThen fun _ => conducts_pure rfl

theorem conducts_concluding (goal : Goal) (node : ν) :
    p.Conducts stop s₀ d T (p.concluding goal node) (Becomes T) := by
  unfold concluding
  split
  · refine (conducts_reading _).andThen fun o => ?_
    cases o with
    | none => exact conducts_pure rfl
    | some t => exact conducts_report (.trailingInput t T)
  · exact conducts_pure rfl

theorem start_run_awaits : (Task.start .run : Task τ).Awaits := ⟨1, rfl, Nat.zero_lt_one⟩

/-- A run reads one operand. -/
theorem conducts_entering {operand : Precedence → Run τ φ ν ε ν} {goal : Goal}
    (ho : ∀ rbp, p.Conducts stop s₀ (d + charge d) (.start .run :: T) (operand rbp)
      (Becomes (⟨.run, 1⟩ :: T))) :
    p.Conducts stop s₀ d T (p.entering operand goal) (Becomes T) := by
  have step {body : Run τ φ ν ε ν}
      (hbody : p.Conducts stop s₀ (d + charge d) (.start .run :: T) body
        (Becomes (⟨.run, 1⟩ :: T))) :
      p.Conducts stop s₀ d T (get >>= fun s =>
        Run.deeper (charge s.depth) (.entered (charge s.depth)) (.left (charge s.depth)) body >>=
          p.concluding goal) (Becomes T) := by
    refine conducts_depth (k := fun depth =>
      Run.deeper (charge depth) (.entered (charge depth)) (.left (charge depth)) body >>=
        p.concluding goal) ?_
    have hdeep : p.Conducts stop s₀ d T
        (Run.deeper (charge d) (.entered (charge d)) (.left (charge d)) body) (Becomes T) :=
      hbody.deeper (.entered _) (fun _ U hU => ⟨T, hU ▸ .left _, rfl⟩) (.left _)
    exact hdeep.andThen fun node => conducts_concluding goal node
  unfold Parser.entering
  cases hp : Precedence.ofInt? goal.floor with
  | none => exact step (conducts_throw (by simp))
  | some rbp => exact step (ho rbp)

/-- Where an operand is awaited, it is read for the topmost task, if it is read at all. -/
def OperandsConduct (p : Parser τ φ ν ε) (stop : Option (Stop τ φ ν ε)) (s₀ : Session τ φ ν ε)
    (d : Nat) : Prop :=
  ∀ stop', p.Asked stop stop' → ∀ rbp head (task : Task τ) (T : List (Task τ)), task.Awaits →
    p.Conducts stop s₀ d (task :: T) (p.operandIn (p.config.maxDepth - d) stop' rbp head)
      (Becomes (task.advance :: T))

theorem conducts_call {c : Call τ φ ν} {callback : Callback τ φ ν ε α}
    (hc : p.Asks stop c callback)
    (he : ∀ q, callback.Requests q →
      p.Conducts stop s₀ d T (p.reentry (p.innerAt d) q.goal q.stop) (Becomes T)) :
    p.Conducts stop s₀ d T (p.calling c (callback.perform (p.reentry (p.innerAt d))))
      fun a U => U = T ∧ callback.Returns a :=
  ((conducts_perform he fun _ hr => .raised hc hr T).returned
    fun s _ t h => ⟨_, s, t, h⟩).calling c

theorem conducts_test {f : StopTest τ φ ε} {t : τ} (ha : p.Asks stop (.stop t) (f.toStop t)) :
    p.Conducts stop s₀ d T
      (p.calling (.stop t) ((f.toStop t).perform (p.reentry (p.innerAt d)))) (Becomes T) := by
  refine (conducts_call ha fun q hq => ?_).weaken fun _ _ h => h.1
  rw [StopTest.toStop] at hq
  cases hft : f t <;> rw [hft] at hq <;> cases hq

/-- The run of a callback is one operand on top of the tasks. -/
theorem conducts_reentry (ho : p.OperandsConduct stop s₀ (d + charge d)) (goal : Goal)
    {tests : Option (StopTest τ φ ε)} (ht : p.Asked stop (tests.map StopTest.toStop)) :
    p.Conducts stop s₀ d T (p.reentry (p.innerAt d) goal tests) (Becomes T) := by
  rw [p.reentry_eq (p.innerAt d) (p.reentry (p.innerAt (d + charge d)))]
  refine conducts_entering fun rbp => conducts_startingAt start_run_awaits ?_ fun head =>
    ho _ ht rbp head _ T start_run_awaits
  intro a ha t
  obtain ⟨f, hf, rfl⟩ := Option.map_eq_some_iff.mp ha
  obtain ⟨f, -, rfl⟩ := Option.map_eq_some_iff.mp hf
  exact conducts_test (ht _ hf t)

end Parser

/-- The calls and the operands of a frame keep to the tasks. -/
structure Frame.Conducts (p : Parser τ φ ν ε) (stop : Option (Stop τ φ ν ε)) (s₀ : Session τ φ ν ε)
    (d : Nat) (f : Frame τ φ ν ε) : Prop where
  parser : f.parser = p
  admits : p.admits = between
  call : ∀ {α : Type} {c : Call τ φ ν} {callback : Callback τ φ ν ε α} (T : List (Task τ)),
    p.Asks stop c callback →
    p.Conducts stop s₀ d T (f.call c callback) fun a U => U = T ∧ callback.Returns a
  visible : ∀ T : List (Task τ), p.Conducts stop s₀ d T f.visible (Becomes T)
  operand : ∀ rbp {task : Task τ} (T : List (Task τ)), task.Awaits →
    p.Conducts stop s₀ d (task :: T) (f.operand rbp) (Becomes (task.advance :: T))

namespace Frame.Conducts

open BindingPower.Parser

variable {p : Parser τ φ ν ε} {stop : Option (Stop τ φ ν ε)} {s₀ : Session τ φ ν ε} {d : Nat}
  {f : Frame τ φ ν ε} {T : List (Task τ)} {task top : Task τ}

theorem query (h : f.Conducts p stop s₀ d) (t : τ) :
    p.Conducts stop s₀ d T (f.query t) fun op U => U = T ∧ (p.grammar.query t).Returns op := by
  rw [Frame.query, h.parser]
  exact h.call T (.query t)

theorem isFollow (h : f.Conducts p stop s₀ d) (t : τ) (mark : φ) :
    p.Conducts stop s₀ d T (f.isFollow t mark) (Becomes T) := by
  rw [Frame.isFollow, h.parser]
  exact (h.call T (.isFollow t mark)).weaken fun _ _ hU => hU.1

theorem nullary (h : f.Conducts p stop s₀ d) (t : τ) (ht : top.Complete) :
    p.Conducts stop s₀ d (top :: T) (f.nullary t) (Completes T) := by
  rw [Frame.nullary, h.parser]
  exact (h.call _ (.nullary t)).weaken fun _ _ hU => ⟨top, ht, hU.1⟩

theorem unary (h : f.Conducts p stop s₀ d) (t : τ) (x : ν) (ht : top.Complete) :
    p.Conducts stop s₀ d (top :: T) (f.unary t x) (Completes T) := by
  rw [Frame.unary, h.parser]
  exact (h.call _ (.unary t x)).weaken fun _ _ hU => ⟨top, ht, hU.1⟩

theorem binary (h : f.Conducts p stop s₀ d) (t : τ) (x y : ν) (ht : top.Complete) :
    p.Conducts stop s₀ d (top :: T) (f.binary t x y) (Completes T) := by
  rw [Frame.binary, h.parser]
  exact (h.call _ (.binary t x y)).weaken fun _ _ hU => ⟨top, ht, hU.1⟩

theorem ternary (h : f.Conducts p stop s₀ d) (t : τ) (x y z : ν) (ht : top.Complete) :
    p.Conducts stop s₀ d (top :: T) (f.ternary t x y z) (Completes T) := by
  rw [Frame.ternary, h.parser]
  exact (h.call _ (.ternary t x y z)).weaken fun _ _ hU => ⟨top, ht, hU.1⟩

/-- What separates is classified as a separator. -/
theorem separates (h : f.Conducts p stop s₀ d) (expected : Option φ) (t : τ) :
    p.Conducts stop s₀ d T (f.separates expected t) fun yes U => U = T ∧ (yes = true →
      ∃ op, (p.grammar.query t).Returns op ∧ op.affix.isSeparator = true) := by
  refine (h.query t).bind fun op U hop => ?_
  obtain ⟨rfl, hop⟩ := hop
  cases expected with
  | none =>
    refine conducts_pure ⟨rfl, fun hyes => ⟨op, hop, ?_⟩⟩
    rw [of_decide_eq_true hyes]
    rfl
  | some mark =>
    dsimp only
    split
    · rename_i hs
      exact (h.isFollow t mark).weaken fun _ _ hU => ⟨hU, fun _ => ⟨op, hop, hs⟩⟩
    · exact conducts_pure ⟨rfl, by simp⟩

theorem missing (h : f.Conducts p stop s₀ d) (expected : Option φ) (found : Option τ) :
    p.Conducts stop s₀ d T (f.missing expected found) (Becomes T) := by
  cases expected with
  | none => exact conducts_pure rfl
  | some mark =>
    simp only [Frame.missing, h.parser]
    split
    · exact conducts_report (.missingInterfix mark found T)
    · exact conducts_pure rfl

/-- A separator is eaten behind an operand. -/
theorem eatSeparator (h : f.Conducts p stop s₀ d) (expected : Option φ) (ht : 0 < top.complete) :
    p.Conducts stop s₀ d (top :: T) (f.eatSeparator expected) (Becomes (top :: T)) := by
  refine (h.visible _).andThen fun o => ?_
  cases o with
  | none => exact h.missing expected none
  | some t =>
    refine (h.separates expected t).bind fun yes U hyes => ?_
    obtain ⟨rfl, hyes⟩ := hyes
    cases yes with
    | false => exact h.missing expected (some t)
    | true =>
      obtain ⟨op, hop, hs⟩ := hyes rfl
      exact (conducts_record (.separator ht hop hs)).andThen fun _ =>
        conducts_consume.andThen fun _ => conducts_pure rfl

theorem nud (h : f.Conducts p stop s₀ d) {head : τ} {op : Operator φ}
    (hop : (p.grammar.query head).Returns op) :
    p.Conducts stop s₀ d (.start .operand :: T) (f.nud head op.leading) (Completes T) := by
  refine (conducts_record (.leading hop)).andThen fun _ => ?_
  unfold Operator.starting
  generalize op.leading.leading.affix = affix, op.leading.leading.arity = arity
  cases affix with
  | nilfix =>
    cases arity with
    | nullary => exact h.nullary head rfl
    | _ => exact conducts_report (.unexpectedArity _ _ head _)
  | prefixed =>
    cases arity with
    | unary =>
      exact (h.operand _ T ⟨1, rfl, by simp⟩).andThen fun x => h.unary head x rfl
    | ternary =>
      exact (h.operand _ T ⟨3, rfl, by simp⟩).andThen fun a =>
        (h.eatSeparator _ (by simp)).andThen fun _ =>
        (h.operand _ T ⟨3, rfl, by simp⟩).andThen fun b =>
        (h.eatSeparator _ (by simp)).andThen fun _ =>
        (h.operand _ T ⟨3, rfl, by simp⟩).andThen fun c => h.ternary head a b c rfl
    | _ => exact conducts_report (.unexpectedArity _ _ head _)
  | circumfix =>
    cases arity with
    | unary =>
      exact (h.operand _ T ⟨1, rfl, by simp⟩).andThen fun x =>
        (h.eatSeparator _ (by simp)).andThen fun _ => h.unary head x rfl
    | _ => exact conducts_report (.unexpectedArity _ _ head _)
  | postfixed => exact conducts_report (.leading rfl)
  | infixed => exact conducts_report (.leading rfl)
  | interfix => exact conducts_report (.leading rfl)
  | _ => exact conducts_report (.unexpectedArity _ _ head _)

theorem led (h : f.Conducts p stop s₀ d) {head : τ} {op : Operator φ}
    (hop : (p.grammar.query head).Returns op)
    (ha : op.continuing.affix = .infixed ∨ op.continuing.affix = .postfixed)
    (ht : top.Complete) (lhs : ν) :
    p.Conducts stop s₀ d (top :: T) (f.led head op.continuing lhs) (Completes T) := by
  have mixfix {r : Role τ} (hr : r.wanted = some 2) (follow : Option φ) (q : Precedence) :
      p.Conducts stop s₀ d (.start r :: T) (do
        let b ← f.operand .bottom
        let _ ← f.eatSeparator follow
        let c ← f.operand q
        f.ternary head lhs b c) (Completes T) :=
    (h.operand _ T ⟨2, hr, by simp⟩).andThen fun b =>
      (h.eatSeparator _ (by simp)).andThen fun _ =>
      (h.operand _ T ⟨2, hr, by simp⟩).andThen fun c => h.ternary head lhs b c hr
  refine (conducts_record (.continuing ht hop ha)).andThen fun _ => ?_
  unfold Operator.extending
  generalize op.continuing.continuing.affix = affix, op.continuing.continuing.arity = arity
  cases affix with
  | postfixed =>
    cases arity with
    | unary => exact h.unary head lhs rfl
    | ternary => exact mixfix rfl _ _
    | _ => exact conducts_report (.unexpectedArity _ _ head _)
  | infixed =>
    cases arity with
    | binary =>
      exact (h.operand _ T ⟨1, rfl, by simp⟩).andThen fun x => h.binary head lhs x rfl
    | ternary => exact mixfix rfl _ _
    | _ => exact conducts_report (.unexpectedArity _ _ head _)
  | nilfix => exact conducts_report (.continuing rfl)
  | prefixed => exact conducts_report (.continuing rfl)
  | circumfix => exact conducts_report (.continuing rfl)
  | interfix => exact conducts_report (.continuing rfl)
  | _ => exact conducts_report (.unexpectedArity _ _ head _)

/-- Only what is infixed or postfixed binds tighter than anything. -/
theorem continuing_of_between {rbp nbp : Precedence} {op : Operator φ}
    (h : between rbp op.leftPower nbp = true) :
    op.continuing.affix = .infixed ∨ op.continuing.affix = .postfixed := by
  simp only [between, Bool.and_eq_true, decide_eq_true_eq] at h
  unfold Operator.leftPower at h
  split at h
  · exact .inr ‹_›
  · exact .inl ‹_›
  · exact absurd h.1 (by simp [Precedence.lt_iff, Precedence.bottom])

theorem continued (h : f.Conducts p stop s₀ d) (rbp : Precedence) (fuel : Nat) (nbp : Precedence)
    (lhs : ν) (ht : top.Complete) :
    p.Conducts stop s₀ d (top :: T) (f.continued rbp fuel nbp lhs) (Completes T) := by
  induction fuel generalizing nbp lhs top with
  | zero => exact conducts_pure ⟨top, ht, rfl⟩
  | succ fuel ih =>
    refine (h.visible _).andThen fun o => ?_
    cases o with
    | none => exact conducts_pure ⟨top, ht, rfl⟩
    | some t =>
      refine (h.query t).bind fun op U hop => ?_
      obtain ⟨rfl, hop⟩ := hop
      split
      · rename_i hadmits
        rw [h.parser, h.admits] at hadmits
        refine conducts_consume.andThen fun _ =>
          (h.led hop (continuing_of_between hadmits) ht lhs).bind fun node U hU => ?_
        obtain ⟨top', ht', rfl⟩ := hU
        exact ih _ node ht'
      · exact conducts_pure ⟨top, ht, rfl⟩

theorem climb (h : f.Conducts p stop s₀ d) (rbp : Precedence) (head : τ) :
    p.Conducts stop s₀ d (.start .operand :: T) (f.climb rbp head) (Completes T) := by
  refine conducts_consume.andThen fun _ => (h.query head).bind fun op U hop => ?_
  obtain ⟨rfl, hop⟩ := hop
  refine (h.nud hop).bind fun node U hU => ?_
  obtain ⟨top, ht, rfl⟩ := hU
  exact conducts_remaining (k := fun n => f.continued rbp n op.leading.nextPower node) fun n =>
    h.continued rbp n _ node ht

end Frame.Conducts

namespace Parser

variable {p : Parser τ φ ν ε} {stop stop' : Option (Stop τ φ ν ε)} {s₀ : Session τ φ ν ε} {d : Nat}
  {T : List (Task τ)}

theorem frame_conducts (ha : p.admits = between) (ho : p.OperandsConduct stop s₀ d)
    (hi : p.OperandsConduct stop s₀ (d + charge d)) (hs : p.Asked stop stop') :
    (p.frameAt d stop').Conducts p stop s₀ d := by
  have calls {α : Type} {c : Call τ φ ν} {callback : Callback τ φ ν ε α} (T : List (Task τ))
      (hc : p.Asks stop c callback) :
      p.Conducts stop s₀ d T ((p.frameAt d stop').call c callback)
        fun a U => U = T ∧ callback.Returns a := by
    refine conducts_call hc fun q hq => conducts_reentry hi q.goal fun f hf t => ?_
    obtain ⟨test, htest, rfl⟩ := Option.map_eq_some_iff.mp hf
    exact .requested hc hq htest t
  have ask (T : List (Task τ)) : ∀ a ∈ p.asking (p.reentry (p.innerAt d)) stop', ∀ t,
      p.Conducts stop s₀ d T (a t) (Becomes T) := by
    intro a ha t
    obtain ⟨test, htest, rfl⟩ := Option.map_eq_some_iff.mp ha
    exact (calls T (hs test htest t)).weaken fun _ _ hU => hU.1
  exact {
    parser := rfl
    admits := ha
    call := calls
    visible := fun T => conducts_visible (ask T)
    operand := fun rbp task T hw => conducts_startingAt hw (ask _) fun head =>
      ho stop' hs rbp head task T hw }

theorem operands_conduct (ha : p.admits = between) (d : Nat) : p.OperandsConduct stop s₀ d := by
  -- by induction on the levels that are left, as the runs of callbacks are read further down
  induction hroom : p.config.maxDepth - d using Nat.strongRecOn generalizing d with
  | ind room ih =>
    intro stop' hs rbp head task T hw
    by_cases hd : d < p.config.maxDepth
    · rw [p.operandIn_deeper hd]
      have below {e : Nat} (he : d < e) : p.OperandsConduct stop s₀ e := ih _ (by omega) e rfl
      have frame : (p.frameAt (d + 1) stop').Conducts p stop s₀ (d + 1) :=
        frame_conducts ha (below (by omega)) (below (by omega)) hs
      refine (frame.climb rbp head).deeper (.opened hw) (fun _ U hU => ?_) .closed
      obtain ⟨top, ht, rfl⟩ := hU
      exact ⟨_, .closed ht, rfl⟩
    · rw [p.operandIn_full (by omega)]
      exact conducts_report (.nestingTooDeep hw (by omega))

theorem parseInput_conducts (ha : p.admits = between) (d : Nat) (rbp : Precedence) :
    p.Conducts stop s₀ d (.start .run :: T) (p.parseInput rbp stop) (Becomes (⟨.run, 1⟩ :: T)) := by
  have frame : (p.frameAt d stop).Conducts p stop s₀ d :=
    frame_conducts ha (operands_conduct ha d) (operands_conduct ha _) fun _ htest t => .stop htest t
  exact conducts_depth (k := fun depth => (p.frameAt depth stop).operand rbp)
    (frame.operand rbp T start_run_awaits)

/-- What has been recorded by a run, whatever it ends in, and what a report of it comes from. -/
theorem Conducts.outcome {m : Run τ φ ν ε α} {Q : α → List (Task τ) → Prop}
    {s : Session τ φ ν ε} (h : p.Conducts stop s s.depth [.start .run] m Q) :
    ∃ (unwound log : Log τ φ ν) (T : List (Task τ)),
      (ending (m s)).log = unwound ++ (log ++ s.log) ∧ (∀ entry ∈ unwound, entry.2.Unwinds) ∧
      log.Leaves p.grammar T ∧
      ∀ r, failure? (m s) = some (.report r) → p.Explains stop (log.counter s.depth) T r := by
  have hm := h s rfl ⟨[], rfl, rfl, .start⟩
  cases hrun : m s with
  | ok a t =>
    rw [hrun] at hm
    obtain ⟨-, U, ⟨log, hlog, -, hleaves⟩, -⟩ := hm
    exact ⟨[], log, U, hlog, by simp, hleaves, by simp [failure?]⟩
  | error f t =>
    rw [hrun] at hm
    obtain ⟨unwound, log, T, hlog, hunwinds, hleaves, hexplains⟩ := hm
    exact ⟨unwound, log, T, hlog, hunwinds, hleaves, fun r hr => hexplains r (Option.some.inj hr)⟩

end Parser

/-- The entry points that read an expression, with the stop predicate they are given. -/
inductive Entry.Reads : Option (Stop τ φ ν ε) → Entry τ φ ν ε ν → Prop where
  | parse : Reads none .parse
  | parseUntil (rbp : Int) (stop : Option (Stop τ φ ν ε)) : Reads stop (.parseUntil rbp stop)
  | parseInput (rbp : Precedence) (stop : Option (Stop τ φ ν ε)) :
    Reads stop (.parseInput rbp stop)

/-- Whatever a parser ends in, what it has recorded keeps to the tasks up to a moment from where
everything is left, and that moment explains what it reports. -/
theorem Parser.enter_outcome {p : Parser τ φ ν ε} (ha : p.admits = between)
    {stop : Option (Stop τ φ ν ε)} {e : Entry τ φ ν ε ν} (he : e.Reads stop) (s : Session τ φ ν ε) :
    ∃ (unwound log : Log τ φ ν) (T : List (Task τ)),
      (ending (p.enter e s)).log = unwound ++ (log ++ s.log) ∧
      (∀ entry ∈ unwound, entry.2.Unwinds) ∧ log.Leaves p.grammar T ∧
      ∀ r, failure? (p.enter e s) = some (.report r) →
        p.Explains stop (log.counter s.depth) T r := by
  have entered (goal : Goal) : p.Conducts stop s s.depth [.start .run]
      (p.entering (fun rbp => p.parseInput rbp stop) goal) (Becomes [.start .run]) :=
    conducts_entering fun rbp => parseInput_conducts ha _ rbp
  cases he with
  | parse => exact (entered .whole).outcome
  | parseUntil rbp stop => exact (entered (.above rbp)).outcome
  | parseInput rbp stop => exact (parseInput_conducts ha s.depth rbp).outcome

end BindingPower
