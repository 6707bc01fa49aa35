import BindingPower.Proofs.Following
import BindingPower.Proofs.Lockstep
import BindingPower.Table

/-! # Detached callbacks

A detached callback has runs made on streams of its own and leaves the stream that is being parsed
alone. What such callbacks do is the same whatever that stream is, and so they keep two runs in
step that stand at related places of different streams. -/
namespace BindingPower

variable {τ φ ν ε α β : Type} {keep : Event τ φ ν → Bool}

inductive Callback.Detached : Callback τ φ ν ε α → Prop where
  | value (a : α) : Detached (.value a)
  | fail (f : Failure τ φ ε) : Detached (.fail f)
  | parse {q : Request τ φ ε} {next : ν → Cursor τ ε → Callback τ φ ν ε α} {c : Cursor τ ε}
    (hq : q.source = some c) (h : ∀ v d, Detached (next v d)) : Detached (.parse q next)

structure Grammar.Detached (G : Grammar τ φ ν ε) : Prop where
  query : ∀ t, (G.query t).Detached
  nullary : ∀ t, (G.nullary t).Detached
  unary : ∀ t x, (G.unary t x).Detached
  binary : ∀ t x y, (G.binary t x y).Detached
  ternary : ∀ t x y z, (G.ternary t x y z).Detached
  isFollow : ∀ t e, (G.isFollow t e).Detached

theorem Callback.detached_ofExcept (r : Except (Failure τ φ ε) α) :
    (Callback.ofExcept r : Callback τ φ ν ε α).Detached := by
  cases r with
  | ok a => exact .value a
  | error f => exact .fail f

theorem Callback.detached_requireEnd (c : Cursor τ ε) :
    (Callback.requireEnd c : Callback τ φ ν ε Unit).Detached := by
  unfold requireEnd
  split
  · exact .fail _
  · exact .value ()
  · exact .fail _

theorem Callback.Detached.bind {callback : Callback τ φ ν ε α} {k : α → Callback τ φ ν ε β}
    (h : callback.Detached) (hk : ∀ a, (k a).Detached) : (callback >>= k).Detached := by
  induction h with
  | value a => exact hk a
  | fail f => exact .fail f
  | parse hq _ ih => exact .parse hq ih

theorem Callback.detached_group (items : List (Item τ ε)) (goal : Goal)
    (tests : Option (StopTest τ φ ε)) :
    (Callback.group items goal tests : Callback τ φ ν ε (ν × Cursor τ ε)).Detached :=
  .parse rfl fun v d => .value (v, d)

namespace Table

variable (table : Table)

theorem answer_detached {kind : CallKind} {t : Symbol} {body : Answer α} (h : body.Detached) :
    (table.answer kind t body).Detached := by
  unfold answer
  split
  · exact .fail _
  · exact h

theorem readGroup_detached (items : List Symbol) : (table.readGroup items).Detached := by
  unfold readGroup
  split
  · exact (Callback.detached_group _ _ _).bind fun _ => .value _
  · exact (Callback.detached_group _ _ _).bind fun _ => .value _
  · exact (Callback.detached_group _ _ _).bind fun x =>
      (Callback.detached_requireEnd x.2).bind fun _ => .value _

/-- What a table says of a symbol at once. -/
def verdict (t : Symbol) : Except (Failure Symbol Symbol Fault) (Operator Symbol) :=
  match table.planted? .query t, t with
  | some f, _ => .error f
  | none, .word s =>
    match table.operators.lookup s with
    | some op => .ok op
    | none => if isName s then .ok .nilfix else .error (.other (.fault ⟨.key, some (.word s)⟩))
  | none, _ => .ok .nilfix

theorem query_eq_verdict (t : Symbol) : table.grammar.query t = .ofExcept (table.verdict t) := by
  change table.answer .query t (table.classify t) = _
  unfold answer verdict
  cases table.planted? .query t with
  | some f => rfl
  | none =>
    cases t with
    | word s =>
      simp only [classify]
      cases table.operators.lookup s with
      | some op => rfl
      | none => cases isName s <;> rfl
    | _ => rfl

/-- Without brackets a table leaves the stream that is being parsed alone. -/
theorem grammar_detached (h : table.brackets = none) : table.grammar.Detached where
  query t := by
    rw [table.query_eq_verdict]
    exact Callback.detached_ofExcept _
  nullary t := by
    refine table.answer_detached ?_
    unfold readLeaf
    split
    · exact table.readGroup_detached _
    · simp_all
    · exact .value _
  unary _ _ := table.answer_detached (.value _)
  binary _ _ _ := table.answer_detached (.value _)
  ternary _ _ _ _ := table.answer_detached (.value _)
  isFollow _ _ := table.answer_detached (.value _)

end Table

/-- The callback can end in the value. -/
def Callback.Returns (callback : Callback τ φ ν ε α) (a : α) : Prop :=
  ∃ enter s t, callback.perform enter s = .ok a t

theorem Callback.returns_ofExcept {r : Except (Failure τ φ ε) α} {a : α}
    (h : (Callback.ofExcept r : Callback τ φ ν ε α).Returns a) : r = .ok a := by
  obtain ⟨enter, s, t, h⟩ := h
  rw [perform_ofExcept] at h
  cases r with
  | ok b => cases h; rfl
  | error f => cases h

namespace Cursor

/-- A look ahead leaves the items where they are, unless it pulls a fault. -/
theorem peek_cases (c : Cursor τ ε) :
    (∃ o d, c.peek = (.ok o, d) ∧ d.items = c.items ∧ d.position = c.position ∧
      c.items.head? = o.map .token) ∨
    ∃ e d, c.peek = (.error e, d) ∧ c.items.head? = some (.fault e) := by
  obtain ⟨ahead, rest, position, pulled⟩ := c
  cases ahead with
  | some t => exact .inl ⟨some t, _, rfl, rfl, rfl, rfl⟩
  | none =>
    cases rest with
    | nil => exact .inl ⟨none, _, rfl, rfl, rfl, rfl⟩
    | cons i r =>
      cases i with
      | token t => exact .inl ⟨some t, _, rfl, rfl, rfl, rfl⟩
      | fault e => exact .inr ⟨e, _, rfl, rfl⟩

theorem peek_of_head {c : Cursor τ ε} {t : τ} (h : c.items.head? = some (.token t)) :
    ∃ d, c.peek = (.ok (some t), d) ∧ d.items = c.items ∧ d.position = c.position := by
  rcases c.peek_cases with ⟨o, d, hp, hi, hpos, ho⟩ | ⟨e, d, -, he⟩
  · have hsame := h.symm.trans ho
    cases o with
    | none => cases hsame
    | some u =>
      cases hsame
      exact ⟨d, hp, hi, hpos⟩
  · cases h.symm.trans he

theorem next_of_head {c : Cursor τ ε} {t : τ} (h : c.items.head? = some (.token t)) :
    ∃ d, c.next = (.ok (some t), d) ∧ c.items = .token t :: d.items ∧
      d.position = c.position + 1 := by
  obtain ⟨ahead, rest, position, pulled⟩ := c
  cases ahead with
  | some u =>
    cases h
    exact ⟨_, rfl, rfl, rfl⟩
  | none =>
    cases rest with
    | nil => cases h
    | cons i r =>
      cases h
      exact ⟨_, rfl, rfl, rfl⟩

end Cursor

/-- Any event but a question to a stop predicate. -/
def Event.notStop : Event τ φ ν → Bool
  | .called (.stop _) => false
  | _ => true

namespace Session

/-- The log of the events that are kept, from the newest to the oldest. -/
def kept (keep : Event τ φ ν → Bool) (s : Session τ φ ν ε) : List (Nat × Event τ φ ν) :=
  s.log.filter fun e => keep e.2

/-- The main stream while another one is read. -/
def behind (s : Session τ φ ν ε) : Option (Cursor τ ε) := s.side.map fun _ => s.main

/-- Two sessions that agree in the kept part of their logs, read related streams and have the given
streams behind those. -/
structure Alike (keep : Event τ φ ν → Bool) (R : Cursor τ ε → Cursor τ ε → Prop)
    (m w : Option (Cursor τ ε)) (s s' : Session τ φ ν ε) : Prop where
  depth : s'.depth = s.depth
  log : s'.kept keep = s.kept keep
  cursor : R s.cursor s'.cursor
  behind : s.behind = m
  behind' : s'.behind = w

theorem behind_withCursor (s : Session τ φ ν ε) (c : Cursor τ ε) :
    (s.withCursor c).behind = s.behind := by
  obtain ⟨main, side, depth, log⟩ := s
  cases side <;> rfl

/-- Once a stream of its own has been read, the stream in use is the one behind it again. -/
theorem restored {s t : Session τ φ ν ε} (h : t.behind = some s.main) :
    { t with side := s.side }.cursor = s.cursor ∧ { t with side := s.side }.behind = s.behind := by
  obtain ⟨main, side, depth, log⟩ := t
  cases side with
  | none => cases h
  | some d =>
    cases h
    exact ⟨rfl, rfl⟩

theorem kept_withCursor (keep : Event τ φ ν → Bool) (s : Session τ φ ν ε) (c : Cursor τ ε) :
    (s.withCursor c).kept keep = s.kept keep := by
  rw [kept, log_withCursor, kept]

theorem kept_record_stop (s : Session τ φ ν ε) (t : τ) :
    (s.record (.called (.stop t))).kept Event.notStop = s.kept Event.notStop := rfl

namespace Alike

variable {R : Cursor τ ε → Cursor τ ε → Prop} {m w : Option (Cursor τ ε)}
  {s s' : Session τ φ ν ε}

theorem record (h : Alike keep R m w s s') (e : Event τ φ ν) :
    Alike keep R m w (s.record e) (s'.record e) where
  depth := h.depth
  log := by
    have hl := h.log
    simp only [kept] at hl ⊢
    simp only [Session.record, List.filter_cons, h.depth, hl]
  cursor := h.cursor
  behind := h.behind
  behind' := h.behind'

/-- A question to a stop predicate makes no difference. -/
theorem asked (h : Alike Event.notStop R m w s s') (t : τ) :
    Alike Event.notStop R m w (s.record (.called (.stop t))) s' :=
  ⟨h.depth, h.log.trans (s.kept_record_stop t).symm, h.cursor, h.behind, h.behind'⟩

/-- Where all of the log is kept, sessions with equal streams are the same. -/
theorem eq (h : Alike (fun _ => true) Eq m m s s') : s' = s := by
  have hl := h.log
  have hd := h.depth
  have hc := h.cursor
  have hb := h.behind.trans h.behind'.symm
  obtain ⟨main, side, depth, log⟩ := s
  obtain ⟨main', side', depth', log'⟩ := s'
  simp only [kept, List.filter_eq_self.mpr fun _ _ => rfl] at hl hd
  subst hl hd
  cases side with
  | none =>
    cases side' with
    | none => cases hc; rfl
    | some d => cases hb
  | some c =>
    cases side' with
    | none => cases hb
    | some d =>
      cases hb
      cases hc
      rfl

theorem withCursor (h : Alike keep R m w s s') {c c' : Cursor τ ε} (hc : R c c') :
    Alike keep R m w (s.withCursor c) (s'.withCursor c') where
  depth := by rw [depth_withCursor, depth_withCursor, h.depth]
  log := by rw [kept_withCursor, kept_withCursor, h.log]
  cursor := by rwa [cursor_withCursor, cursor_withCursor]
  behind := by rw [behind_withCursor, h.behind]
  behind' := by rw [behind_withCursor, h.behind']

end Alike

end Session

namespace Run

/-- Two runs at related places of their streams. -/
def alike (keep : Event τ φ ν → Bool) (R : Cursor τ ε → Cursor τ ε → Prop)
    (m w : Option (Cursor τ ε)) : Bond τ φ ν ε where
  excused _ := False
  holds K s s' := s.Alike keep R m w s' ∧ K s.cursor.items
  weaken h hw := ⟨h.1, hw _ h.2⟩
  sized h := ⟨h.1, h.2, Nat.le_refl _⟩
  depth h := h.1.depth
  record e h := ⟨h.1.record e, h.2⟩
  deepen n h := ⟨⟨by simp only [Session.deepen, h.1.depth], h.1.log, h.1.cursor, h.1.behind,
    h.1.behind'⟩, h.2⟩
  surface n h := ⟨⟨by simp only [Session.surface, h.1.depth], h.1.log, h.1.cursor, h.1.behind,
    h.1.behind'⟩, h.2⟩

variable {R : Cursor τ ε → Cursor τ ε → Prop} {m w : Option (Cursor τ ε)} {K : Known τ ε}

theorem alike_self {s : Session τ φ ν ε} (h : K s.cursor.items) :
    (alike keep Eq s.behind s.behind).holds K s s := ⟨⟨rfl, rfl, rfl, rfl, rfl⟩, h⟩

/-- What a run does on a stream of its own does not move the stream that is being read. -/
theorem within_alike {body body' : Run τ φ ν ε α} (c : Cursor τ ε)
    (h : ∀ n n', Mirrors (alike keep Eq n n') .anything body body' fun _ => .anything) :
    Mirrors (alike keep R m w) K (Run.within (some c) body) (Run.within (some c) body')
      fun _ => K := by
  rintro s s' ⟨hs, hk⟩
  have hm := h (some s.main) (some s'.main) { s with side := some c } { s' with side := some c }
    ⟨⟨hs.depth, hs.log, rfl, rfl, rfl⟩, trivial⟩
  have returned {t t' : Session τ φ ν ε} (ht : t.Alike keep Eq (some s.main) (some s'.main) t') :
      Session.Alike keep R m w { t with side := s.side } { t' with side := s'.side } := by
    have left := Session.restored ht.behind
    have right := Session.restored ht.behind'
    refine ⟨ht.depth, ht.log, ?_, left.2.trans hs.behind, right.2.trans hs.behind'⟩
    rw [left.1, right.1]
    exact hs.cursor
  simp only [Run.within]
  generalize body { s with side := some c } = x at hm ⊢
  generalize body' { s' with side := some c } = y at hm ⊢
  cases hm with
  | ok ht =>
    dsimp only
    rw [ht.1.cursor]
    refine .ok ⟨returned ht.1, ?_⟩
    rw [(Session.restored ht.1.behind).1]
    exact hk
  | error ht => exact .error ⟨returned ht.1, trivial⟩
  | excused hr => exact hr.elim

theorem peek_alike : Mirrors (alike keep Eq m w) K
    (Run.reading Cursor.peek : Run τ φ ν ε (Option τ)) (Run.reading Cursor.peek)
    fun o items => K items ∧ items.head? = o.map .token := by
  rintro s s' ⟨hs, hk⟩
  simp only [Run.reading, ← hs.cursor]
  rcases s.cursor.peek_cases with ⟨o, d, hp, hi, -, ho⟩ | ⟨e, d, hp, -⟩
  · rw [hp]
    refine .ok ⟨hs.withCursor rfl, ?_⟩
    rw [Session.cursor_withCursor, hi]
    exact ⟨hk, ho⟩
  · rw [hp]
    exact .error ⟨hs.withCursor rfl, trivial⟩

/-- Where a token is next in both streams and what follows it is related, it is consumed. -/
theorem consume_alike {s s' : Session τ φ ν ε} {t : τ} {J : Known τ ε}
    (hs : s.Alike keep R m w s') (ht : s.cursor.items.head? = some (.token t))
    (ht' : s'.cursor.items.head? = some (.token t)) (hj : J s.cursor.items.tail)
    (hR : ∀ d d', s.cursor.items = .token t :: d.items → d.position = s.cursor.position + 1 →
      s.cursor.next = (.ok (some t), d) → s'.cursor.next = (.ok (some t), d') →
      s'.cursor.items = .token t :: d'.items → d'.position = s'.cursor.position + 1 → R d d') :
    Paired (alike keep R m w) (fun _ => J) (consume s) (consume s') := by
  obtain ⟨d, hn, hi, hp⟩ := Cursor.next_of_head ht
  obtain ⟨d', hn', hi', hp'⟩ := Cursor.next_of_head ht'
  have eaten (u : Session τ φ ν ε) {e : Cursor τ ε} (h : u.cursor.next = (.ok (some t), e)) :
      consume u = .ok () (u.withCursor e) := by
    change EStateM.bind (Run.reading Cursor.next) _ u = _
    simp only [EStateM.bind, Run.reading, h]
    rfl
  rw [eaten s hn, eaten s' hn']
  refine .ok ⟨hs.withCursor (hR d d' hi hp hn hn' hi' hp'), ?_⟩
  rw [Session.cursor_withCursor]
  rwa [hi] at hj

end Run

/-- Detached callbacks keep in step wherever two runs are. -/
theorem Callback.Detached.perform {R : Cursor τ ε → Cursor τ ε → Prop} {m w : Option (Cursor τ ε)}
    {K : Known τ ε} {callback : Callback τ φ ν ε α} (h : callback.Detached)
    {enter enter' : Goal → Option (StopTest τ φ ε) → Run τ φ ν ε ν}
    (he : ∀ n n' goal tests, Run.Mirrors (Run.alike keep Eq n n') .anything (enter goal tests)
      (enter' goal tests) fun _ => .anything) :
    Run.Mirrors (Run.alike keep R m w) K (callback.perform enter) (callback.perform enter')
      fun _ => K := by
  induction h with
  | value a => exact Run.mirrors_pure a fun _ hk => hk
  | fail f => exact Run.mirrors_throw f
  | @parse q next c hq _ ih =>
    simp only [Callback.perform, hq]
    exact (Run.within_alike c fun n n' => he n n' q.goal q.stop).bind fun x => ih x.1 x.2

end BindingPower
