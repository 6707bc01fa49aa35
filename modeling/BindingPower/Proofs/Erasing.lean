import BindingPower.Proofs.Advancing
import BindingPower.Proofs.Containment
import BindingPower.Proofs.TreeReading

/-! # Runs with a token less

A log tells which token is put to use when, and so which one has been consumed as a separator. Along
with the run of that log goes a reading of the tokens without that separator: both have the same
tokens before them, but for that one as long as it is still to come. -/
namespace BindingPower

variable {τ φ ν ε α β : Type}

namespace Event

/-- The token that is put to use. -/
def use? : Event τ φ ν → Option τ
  | leading _ _ t => some t
  | continuing _ _ t => some t
  | separator t => some t
  | _ => none

/-- The tokens that are put to use one after the other. -/
def uses (es : List (Event τ φ ν)) : List τ := es.filterMap use?

/-- What is asked about a token before it is consumed as a separator. -/
def checks (t : τ) : Option φ → List (Event τ φ ν)
  | none => [.called (.query t)]
  | some mark => [.called (.query t), .called (.isFollow t mark)]

theorem uses_append (es es' : List (Event τ φ ν)) : uses (es ++ es') = uses es ++ uses es' :=
  List.filterMap_append

theorem uses_concat {e : Event τ φ ν} {t : τ} (h : e.use? = some t) (es : List (Event τ φ ν)) :
    uses (es ++ [e]) = uses es ++ [t] := by
  rw [uses_append]
  simp [uses, h]

theorem uses_checks (t : τ) (expected : Option φ) :
    uses (checks t expected : List (Event τ φ ν)) = [] := by
  cases expected <;> rfl

/-- The last of the questions tells which separator is expected. -/
theorem checks_inj {es es' : List (Event τ φ ν)} {t : τ} {expected expected' : Option φ}
    (h : es ++ checks t expected = es' ++ checks t expected') : expected = expected' := by
  have hlast := congrArg List.getLast? h
  cases expected <;> cases expected' <;> simp [checks] at hlast <;> simp [hlast]

/-- A log that goes beyond a use tells of more uses. -/
theorem uses_length_lt {es log : List (Event τ φ ν)} {e : Event τ φ ν} {t : τ}
    (he : e.use? = some t) (h : es ++ [e] <+: log) : (uses es).length < (uses log).length := by
  have hle := (h.filterMap use?).length_le
  change (uses (es ++ [e])).length ≤ (uses log).length at hle
  rw [uses_concat he, List.length_append] at hle
  exact hle

/-- Where a log comes to the same use of a token, it has come there in one way. -/
theorem eq_of_uses {es es' log : List (Event τ φ ν)} {e e' : Event τ φ ν} {t t' : τ}
    (h : es ++ [e] <+: log) (h' : es' ++ [e'] <+: log) (he : e.use? = some t)
    (he' : e'.use? = some t') (hn : (uses es).length = (uses es').length) : es = es' ∧ e = e' := by
  rcases List.prefix_or_prefix_of_prefix h h' with hp | hp
  · rcases List.prefix_concat_iff.mp hp with heq | hp
    · exact List.append_singleton_inj.mp heq
    · have hless := uses_length_lt he hp
      omega
  · rcases List.prefix_concat_iff.mp hp with heq | hp
    · exact (List.append_singleton_inj.mp heq).imp Eq.symm Eq.symm
    · have hless := uses_length_lt he' hp
      omega

end Event

/-- Where `ts` are left of the tokens, `vs` are left of those without the one at the index. -/
structure Erased (tokens : List τ) (i : Nat) (gone ts vs : List τ) : Prop where
  whole : gone ++ ts = tokens
  erased : gone.eraseIdx i ++ vs = tokens.eraseIdx i

namespace Erased

variable {tokens gone ts vs : List τ} {i : Nat} {t : τ}

theorem start (tokens : List τ) (i : Nat) : Erased tokens i [] tokens (tokens.eraseIdx i) :=
  ⟨rfl, rfl⟩

theorem eq_of_lt (h : Erased tokens i gone ts vs) (hi : i < gone.length) : vs = ts := by
  have herased := h.erased
  rw [← h.whole, List.eraseIdx_append_of_lt_length hi] at herased
  exact List.append_cancel_left herased

theorem nil (h : Erased tokens i gone [] vs) : vs = [] := by
  have herased := h.erased
  rw [← h.whole, List.append_nil] at herased
  exact List.append_right_eq_self.mp herased

/-- The token at the front is the one that is left out, or it is left to both sides. -/
theorem cons (h : Erased tokens i gone (t :: ts) vs) :
    (gone.length = i ∧ vs = ts ∧ Erased tokens i (gone ++ [t]) ts ts) ∨
    (gone.length ≠ i ∧ ∃ ws, vs = t :: ws ∧ Erased tokens i (gone ++ [t]) ts ws) := by
  obtain ⟨rfl, herased⟩ := h
  have whole : gone ++ [t] ++ ts = gone ++ t :: ts := List.append_assoc gone [t] ts
  have passed (hi : i < (gone ++ [t]).length) :
      Erased (gone ++ t :: ts) i (gone ++ [t]) ts ts := by
    refine ⟨whole, ?_⟩
    rw [← whole]
    exact (List.eraseIdx_append_of_lt_length hi ts).symm
  rw [List.length_append, List.length_singleton] at passed
  rcases Nat.lt_trichotomy gone.length i with hi | rfl | hi
  · right
    obtain ⟨n, rfl⟩ : ∃ n, i = gone.length + 1 + n := ⟨i - (gone.length + 1), by omega⟩
    have hleft : (t :: ts).eraseIdx (gone.length + 1 + n - gone.length) = t :: ts.eraseIdx n := by
      rw [show gone.length + 1 + n - gone.length = n + 1 by omega, List.eraseIdx_cons_succ]
    rw [List.eraseIdx_of_length_le (by omega), List.eraseIdx_append_of_length_le (by omega),
      List.append_cancel_left_eq, hleft] at herased
    refine ⟨by omega, ts.eraseIdx n, herased, whole, ?_⟩
    rw [List.eraseIdx_of_length_le (by simp), List.eraseIdx_append_of_length_le (by omega), hleft]
    exact List.append_assoc gone [t] _
  · left
    rw [List.eraseIdx_of_length_le (Nat.le_refl _),
      List.eraseIdx_append_of_length_le (Nat.le_refl _), List.append_cancel_left_eq, Nat.sub_self,
      List.eraseIdx_cons_zero] at herased
    exact ⟨rfl, herased, passed (Nat.lt_succ_self _)⟩
  · right
    rw [List.eraseIdx_append_of_lt_length hi, List.append_cancel_left_eq] at herased
    exact ⟨by omega, ts, herased, passed (by omega)⟩

/-- Where the token at the index is next, the one behind it is at the next index. -/
theorem behind (h : Erased tokens i gone (t :: ts) vs) (hi : gone.length = i) :
    tokens[i + 1]? = ts.head? := by
  rw [← h.whole, ← hi, List.getElem?_append_right (Nat.le_succ _)]
  simp [List.head?_eq_getElem?]

end Erased

namespace Session

theorem events_record (s : Session τ φ ν ε) (e : Event τ φ ν) :
    (s.record e).events = s.events ++ [e] := by
  simp [events, record]

theorem events_withCursor (s : Session τ φ ν ε) (c : Cursor τ ε) :
    (s.withCursor c).events = s.events := by
  rw [events, events, log_withCursor]

/-- What is added to a log comes after what was in it. -/
theorem Adds.events {Q : Event τ φ ν → Prop} {s t : Session τ φ ν ε} (h : s.Adds Q t) :
    s.events <+: t.events := by
  obtain ⟨log, hlog, -⟩ := h
  refine ⟨(log.map Prod.snd).reverse, ?_⟩
  rw [Session.events, Session.events, hlog, List.map_append, List.reverse_append]

end Session

namespace Run

variable {s t : Session τ φ ν ε} {ts : List τ}

/-- Reading a stream changes nothing but the stream. -/
theorem reading_ok {f : Cursor τ ε → Except ε α × Cursor τ ε} {a : α}
    (h : reading f s = .ok a t) : ∃ c, t = s.withCursor c := by
  unfold reading at h
  generalize f s.cursor = x at h
  obtain ⟨_ | b, c⟩ := x
  · cases h
  · cases h
    exact ⟨c, rfl⟩

theorem consume_ok {x : τ} (hs : s.cursor.items = (x :: ts).map .token)
    (h : consume s = .ok () t) : ∃ c, t = s.withCursor c ∧ c.items = ts.map .token := by
  have hhead : s.cursor.items.head? = some (.token x) := by
    rw [hs]
    rfl
  obtain ⟨c, hconsume, hitems⟩ := consume_of_head hhead
  rw [hconsume] at h
  cases h
  rw [hs] at hitems
  exact ⟨c, rfl, (List.cons.inj hitems).2.symm⟩

theorem events_of_consume (h : consume s = .ok () t) : t.events = s.events := by
  obtain ⟨o, u, hread, hu⟩ := bind_eq_ok.mp h
  cases hu
  obtain ⟨c, rfl⟩ := reading_ok hread
  exact s.events_withCursor c

/-- Without a stop predicate the next token is in sight. -/
theorem visible_none_ok {o : Option τ} (hs : s.cursor.items = ts.map .token)
    (h : visible none s = .ok o t) :
    o = ts.head? ∧ ∃ c, t = s.withCursor c ∧ c.items = s.cursor.items := by
  obtain ⟨c, hpeek, hitems, -⟩ := Cursor.peek_of_tokens hs
  obtain ⟨o', u, hread, h⟩ := bind_eq_ok.mp h
  simp only [reading, hpeek] at hread
  cases hread
  have hsame := hitems.trans hs.symm
  cases ts with
  | nil =>
    cases h
    exact ⟨rfl, c, rfl, hsame⟩
  | cons x ts =>
    cases h
    exact ⟨rfl, c, rfl, hsame⟩

end Run

namespace Session

/-- A run has consumed the tokens that are gone, and put them to use but for those `pending`. It has
those `ahead` before it and `ts` behind them, where a reading without the token at the index has the
same ahead and `vs` behind them. -/
structure Abreast (tokens : List τ) (i : Nat) (pending ahead ts vs : List τ) (s : Session τ φ ν ε) :
    Prop where
  items : s.cursor.items = (ahead ++ ts).map .token
  erased : Erased tokens i (Event.uses s.events ++ (pending ++ ahead)) ts vs

namespace Abreast

variable {tokens pending ahead ts vs : List τ} {i : Nat} {s t : Session τ φ ν ε} {head : τ}

theorem congr (h : s.Abreast tokens i pending ahead ts vs)
    (hi : t.cursor.items = s.cursor.items) (hu : Event.uses t.events = Event.uses s.events) :
    t.Abreast tokens i pending ahead ts vs :=
  ⟨hi.trans h.items, by rw [hu]; exact h.erased⟩

theorem record (h : s.Abreast tokens i pending ahead ts vs) {e : Event τ φ ν} (he : e.use? = none) :
    (s.record e).Abreast tokens i pending ahead ts vs := by
  refine h.congr rfl ?_
  rw [events_record, Event.uses_append]
  simp [Event.uses, he]

theorem withCursor (h : s.Abreast tokens i pending ahead ts vs) {c : Cursor τ ε}
    (hc : c.items = s.cursor.items) : (s.withCursor c).Abreast tokens i pending ahead ts vs :=
  h.congr (by rw [cursor_withCursor, hc]) (by rw [events_withCursor])

/-- A pending token is put to use. -/
theorem use (h : s.Abreast tokens i [head] [] ts vs) {e : Event τ φ ν} (he : e.use? = some head) :
    (s.record e).Abreast tokens i [] [] ts vs := by
  refine ⟨h.items, ?_⟩
  rw [events_record, Event.uses_concat he]
  simpa using h.erased

theorem nil (h : s.Abreast tokens i [] [] [] vs) : vs = [] := h.erased.nil

/-- The token at the front is the one that is left out, or both have it ahead. -/
theorem cons (h : s.Abreast tokens i [] [] (head :: ts) vs) :
    ((Event.uses s.events).length = i ∧ vs = ts ∧ tokens[i + 1]? = ts.head? ∧
      Erased tokens i (Event.uses s.events ++ [head]) ts ts) ∨
    ∃ ws, vs = head :: ws ∧ s.Abreast tokens i [] [head] ts ws := by
  have herased := h.erased
  rw [List.append_nil, List.append_nil] at herased
  rcases herased.cons with ⟨hi, rfl, he⟩ | ⟨-, ws, rfl, he⟩
  · exact .inl ⟨hi, rfl, herased.behind hi, he⟩
  · exact .inr ⟨ws, rfl, h.items, he⟩

/-- The token ahead is consumed. -/
theorem consumed (h : s.Abreast tokens i [] [head] ts vs) (ht : consume s = .ok () t) :
    t.Abreast tokens i [head] [] ts vs := by
  obtain ⟨c, rfl, hitems⟩ := Run.consume_ok h.items ht
  refine ⟨?_, ?_⟩
  · rw [cursor_withCursor, hitems]
    rfl
  · rw [events_withCursor]
    exact h.erased

end Abreast

end Session

/-- A separator of a parse: the log before it is looked at, which one is expected there, its token,
and the log after it has been consumed. -/
structure Elision (τ φ ν : Type) where
  tokens : List τ
  before : List (Event τ φ ν)
  expected : Option φ
  token : τ
  after : List (Event τ φ ν)

namespace Elision

/-- The tokens that are put to use before the separator are those before it. -/
def index (c : Elision τ φ ν) : Nat := (Event.uses c.before).length

def log (c : Elision τ φ ν) : List (Event τ φ ν) :=
  c.before ++ Event.checks c.token c.expected ++ .separator c.token :: c.after

variable {c : Elision τ φ ν}

theorem uses_log (c : Elision τ φ ν) :
    Event.uses c.log = Event.uses c.before ++ c.token :: Event.uses c.after := by
  rw [log, Event.uses_append, Event.uses_append, Event.uses_checks, List.append_nil]
  rfl

/-- The use of the token at the index is the one that the log tells. -/
theorem used {es mid : List (Event τ φ ν)} {e : Event τ φ ν} {t : τ}
    (h : es ++ mid ++ [e] <+: c.log) (hn : (Event.uses es).length = c.index)
    (hm : Event.uses mid = []) (he : e.use? = some t) :
    es ++ mid = c.before ++ Event.checks c.token c.expected ∧ e = .separator c.token := by
  have hlog : c.before ++ Event.checks c.token c.expected ++ [.separator c.token] <+: c.log :=
    ⟨c.after, by simp [log]⟩
  refine Event.eq_of_uses h hlog he rfl ?_
  rw [Event.uses_append, Event.uses_append, hm, Event.uses_checks, List.append_nil, List.append_nil]
  exact hn

/-- The check by which the token at the index has been consumed expects its separator. -/
theorem checked {es : List (Event τ φ ν)} {t : τ} {expected : Option φ}
    (h : es ++ Event.checks t expected ++ [.separator t] <+: c.log)
    (hn : (Event.uses es).length = c.index) : expected = c.expected := by
  obtain ⟨hes, he⟩ := c.used h hn (Event.uses_checks t expected) rfl
  cases he
  exact Event.checks_inj hes

end Elision

namespace Run

/-- What a run returns at the depth, a reading without the separator returns as well, as long as the
run goes on to the log of that separator. -/
structure Spares (c : Elision τ φ ν) (p : Parser τ φ ν ε) (d : Nat) (pending ahead : List τ)
    (m : Run τ φ ν ε α) (r : Reading τ φ ε α) : Prop where
  contains : p.Contains none .engine d m
  spares : ∀ ⦃s t ts vs a⦄, s.depth = d → s.Abreast c.tokens c.index pending ahead ts vs →
    m s = .ok a t → t.events <+: c.log →
    ∃ us ws, r (ahead ++ vs) = .ok a ws ∧ t.Abreast c.tokens c.index [] [] us ws

/-- Where the separator is next, the run does not go on to the log of that separator. -/
def Spurns (c : Elision τ φ ν) (d : Nat) (m : Run τ φ ν ε α) : Prop :=
  ∀ ⦃s t a⦄, s.depth = d → (Event.uses s.events).length = c.index → m s = .ok a t →
    ¬t.events <+: c.log

variable {c : Elision τ φ ν} {p : Parser τ φ ν ε} {d : Nat} {pending ahead : List τ}
  {m : Run τ φ ν ε α} {r : Reading τ φ ε α} {k : α → Run τ φ ν ε β} {l : α → Reading τ φ ε β}

theorem proceeds_of_contains {s t : Session τ φ ν ε} {a : α} (h : p.Contains none .engine d m)
    (hd : s.depth = d) (hm : m s = .ok a t) : s.Proceeds t := by
  have hends := h s hd
  rw [hm] at hends
  exact hends

theorem events_of_record {e : Event τ φ ν} {s t : Session τ φ ν ε} {a : α}
    (h : p.Contains none .engine d m) (hd : s.depth = d)
    (hm : (record e >>= fun _ => m) s = .ok a t) : s.events ++ [e] <+: t.events := by
  obtain ⟨_, u, hu, hm⟩ := bind_eq_ok.mp hm
  cases hu
  have hearlier := (proceeds_of_contains (s := s.record e) h hd hm).log.events
  rwa [Session.events_record] at hearlier

/-- A run that does not return has nothing to spare. -/
theorem spares_report {q : Report τ φ ε} (hq : q.Raised p.config) :
    Spares c p d pending ahead (report q : Run τ φ ν ε α) r where
  contains := (p.contains_composes none).report hq
  spares _ _ _ _ _ _ _ h _ := by cases h

theorem Spares.bind (hm : Spares c p d pending ahead m r)
    (hk : ∀ a, Spares c p d [] [] (k a) (l a)) :
    Spares c p d pending ahead (m >>= k) (r >>= l) where
  contains := (p.contains_composes none).bind hm.contains fun a => (hk a).contains
  spares s t ts vs b hd hs h hlog := by
    obtain ⟨a, u, hu, h⟩ := bind_eq_ok.mp h
    have hdu : u.depth = d := (proceeds_of_contains hm.contains hd hu).depth.trans hd
    have hearlier := (proceeds_of_contains (hk a).contains hdu h).log.events.trans hlog
    obtain ⟨us, ws, hr, habreast⟩ := hm.spares hd hs hu hearlier
    obtain ⟨us', ws', hl, habreast'⟩ := (hk a).spares hdu habreast h hlog
    exact ⟨us', ws', (bind_of_ok hr l).trans hl, habreast'⟩

/-- What a run spurns, it spurns whatever comes after it. -/
theorem Spurns.bind (hm : Spurns c d m) (hc : p.Contains none .engine d m)
    (hk : ∀ a, p.Contains none .engine d (k a)) : Spurns c d (m >>= k) := by
  intro s t b hd hn h hlog
  obtain ⟨a, u, hu, h⟩ := bind_eq_ok.mp h
  have hdu : u.depth = d := (proceeds_of_contains hc hd hu).depth.trans hd
  exact hm hd hn hu ((proceeds_of_contains (hk a) hdu h).log.events.trans hlog)

/-- A pending token is put to use. -/
theorem Spares.use (hm : Spares c p d [] [] m r) {e : Event τ φ ν} {t : τ} (he : e.Used)
    (ht : e.use? = some t) : Spares c p d [t] [] (record e >>= fun _ => m) r where
  contains := (p.contains_composes none).bind ((p.contains_composes none).record he)
    fun _ => hm.contains
  spares s _ _ _ _ hd hs h hlog := by
    obtain ⟨_, u, hu, h⟩ := bind_eq_ok.mp h
    cases hu
    exact hm.spares (s := s.record e) hd (hs.use ht) h hlog

/-- A call that is answered at once. -/
theorem spares_call {call : Call τ φ ν}
    {enter : Goal → Option (StopTest τ φ ε) → Run τ φ ν ε ν} (e : Except (Failure τ φ ε) α)
    (hc : p.Contains none .engine d (p.calling call ((Callback.ofExcept e).perform enter))) :
    Spares c p d [] [] (p.calling call ((Callback.ofExcept e).perform enter))
      (Reading.answer e) where
  contains := hc
  spares s t ts vs a _ hs hrun _ := by
    obtain ⟨rfl, rfl⟩ := Parser.calling_ofExcept_eq_ok.mp hrun
    exact ⟨ts, vs, rfl, hs.record rfl⟩

/-- Levels are neither consumed nor put to use. -/
theorem Spares.deeper {n : Nat} {before after : Event τ φ ν}
    (hm : Spares c p (d + n) pending ahead m r)
    (hc : p.Contains none .engine d (Run.deeper n before after m)) (hb : before.use? = none)
    (ha : after.use? = none) : Spares c p d pending ahead (Run.deeper n before after m) r where
  contains := hc
  spares s t ts vs a hd hs h hlog := by
    obtain ⟨u, hu, rfl⟩ := deeper_eq_ok.mp h
    have hearlier : u.events <+: ((u.surface n).record after).events := by
      rw [Session.events_record]
      exact List.prefix_append _ _
    have hdown := (hs.congr (t := s.deepen n) rfl rfl).record hb
    obtain ⟨us, ws, hr, hend⟩ := hm.spares (congrArg (· + n) hd) hdown hu (hearlier.trans hlog)
    exact ⟨us, ws, hr, (hend.congr (t := u.surface n) rfl rfl).record ha⟩

theorem Spurns.deeper {n : Nat} {before after : Event τ φ ν} (hm : Spurns c (d + n) m)
    (hb : before.use? = none) : Spurns c d (Run.deeper n before after m) := by
  intro s t a hd hn h hlog
  obtain ⟨u, hu, rfl⟩ := deeper_eq_ok.mp h
  have hearlier : u.events <+: ((u.surface n).record after).events := by
    rw [Session.events_record]
    exact List.prefix_append _ _
  have hdepth : ((s.deepen n).record before).depth = d + n := congrArg (· + n) hd
  refine hm hdepth ?_ hu (hearlier.trans hlog)
  have hunused : Event.uses [before] = [] := by simp [Event.uses, hb]
  rw [Session.events_record, Event.uses_append, hunused, List.append_nil]
  exact hn

/-- The head of an operand is ahead on both sides, for it is not the separator. -/
theorem spares_startingAt {body : τ → Run τ φ ν ε ν} {reading : τ → Reading τ φ ε ν}
    (hm : ∀ x, Spares c p d [] [x] (body x) (reading x)) (hx : ∀ x, Spurns c d (body x)) :
    Spares c p d [] [] (startingAt none body) (Reading.startingAt Reading.never reading) where
  contains := (p.contains_composes none).startingAt (by simp) fun x => (hm x).contains
  spares s t ts vs a hd hs h hlog := by
    obtain ⟨o, u, hv, h⟩ := bind_eq_ok.mp h
    obtain ⟨rfl, e, rfl, he⟩ := visible_none_ok hs.items hv
    have hseen := hs.withCursor he
    have hdseen : (s.withCursor e).depth = d := (s.depth_withCursor e).trans hd
    cases ts with
    | nil => cases h
    | cons x more =>
      rcases hseen.cons with ⟨hi, -⟩ | ⟨ws, rfl, habreast⟩
      · exact absurd hlog (hx x hdseen hi h)
      · obtain ⟨us, ws', hr, hend⟩ := (hm x).spares hdseen habreast h hlog
        exact ⟨us, ws', (bind_of_ok (Reading.visible_cons rfl ws) _).trans hr, hend⟩

theorem spurns_startingAt {body : τ → Run τ φ ν ε ν} (hx : ∀ x, Spurns c d (body x)) :
    Spurns c d (startingAt none body) := by
  intro s t a hd hn h
  obtain ⟨o, u, hv, h⟩ := bind_eq_ok.mp h
  obtain ⟨o', v, hpeek, hv⟩ := bind_eq_ok.mp hv
  obtain ⟨e, rfl⟩ := reading_ok hpeek
  cases o' with
  | none =>
    cases hv
    cases h
  | some x =>
    cases hv
    exact hx x ((s.depth_withCursor e).trans hd) (by rw [Session.events_withCursor]; exact hn) h

end Run

end BindingPower
