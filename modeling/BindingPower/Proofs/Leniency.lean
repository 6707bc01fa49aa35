import BindingPower.Proofs.Erasing
import BindingPower.Proofs.Evaluation
import BindingPower.Proofs.Floors
import BindingPower.Proofs.Guarding
import BindingPower.Proofs.Yield

/-! # Separators that may be left out

Under a strict configuration every declared separator has been consumed. Without one of them a
lenient parser reads the same tree, unless the token behind it is taken for it or for a
continuation. That token comes into sight of every loop and of every check for a separator where the
operand before it ends: no loop takes it, and no other declared separator has been due there. -/
namespace BindingPower

variable {τ φ ν ε α : Type}

namespace Operator

/-- A circumfix operator shares its token with no other. -/
theorem Formed.leading_eq {op : Operator φ} (h : op.Formed) (ha : op.leading.affix = .circumfix) :
    op.leading = op := by
  cases h with
  | shape s =>
    unfold ofShape at ha ⊢
    split
    · rename_i hc
      rw [if_pos hc] at ha
      change s.affix.leading = .circumfix at ha
      cases hs : s.affix <;> simp [hs, Affix.leading, Affix.parts?] at ha
      simp [hs, Affix.isComposite, Affix.parts?] at hc
    · rfl
  | @both a b _ _ _ he =>
    obtain ⟨s, l, c, rfl, -, hl⟩ := either_dual he
    rw [leading_dual] at ha
    have refused : either a b = .error (.incompatible a.affix b.affix) ∨
        either a b = .error (.sameRole .circumfix) := by
      unfold either
      rcases hl with ⟨rfl, -⟩ | ⟨rfl, -⟩
      · cases hb : b.affix <;> simp [ha, Affix.combine?, Affix.all, Affix.parts?]
      · cases hb : a.affix <;> simp [ha, Affix.combine?, Affix.all, Affix.parts?]
    rw [he] at refused
    rcases refused with h | h <;> cases h

theorem Formed.starting_of_circumfix {op : Operator φ} (h : op.Formed)
    (ha : op.starting.affix = .circumfix) : op.starting = op := by
  have hleading : op.leading.leading = op.leading := h.parts.1.leading_eq ha
  have hop : op.leading = op := h.leading_eq (by rw [← hleading]; exact ha)
  rw [starting, hleading, hop]

end Operator

namespace Tree

variable {config : Config} {query : τ → Except (Failure τ φ ε) (Operator φ)}
  {isFollow : τ → φ → Except (Failure τ φ ε) Bool} {d : Nat} {s t : Session τ φ (Tree τ) ε}

/-- Whether a token passes for the separator that is expected. -/
inductive Judged (query : τ → Except (Failure τ φ ε) (Operator φ))
    (isFollow : τ → φ → Except (Failure τ φ ε) Bool) : Option φ → τ → Bool → Prop where
  | plain {t : τ} {op : Operator φ} {verdict : Bool} (hq : query t = .ok op)
    (h : decide (op.affix = .interfix) = verdict) : Judged query isFollow none t verdict
  | marked {t : τ} {op : Operator φ} {mark : φ} {verdict : Bool} (hq : query t = .ok op)
    (hs : op.affix.isSeparator = true) (hf : isFollow t mark = .ok verdict) :
    Judged query isFollow (some mark) t verdict
  | other {t : τ} {op : Operator φ} {mark : φ} (hq : query t = .ok op)
    (hs : op.affix.isSeparator = false) : Judged query isFollow (some mark) t false

/-- The frame of a parser without a stop predicate. -/
abbrev openFrame (config : Config) (query : τ → Except (Failure τ φ ε) (Operator φ))
    (isFollow : τ → φ → Except (Failure τ φ ε) Bool) (d : Nat) : Frame τ φ (Tree τ) ε :=
  frameAt config query isFollow none d

theorem openFrame_contains (config : Config) (query : τ → Except (Failure τ φ ε) (Operator φ))
    (isFollow : τ → φ → Except (Failure τ φ ε) Bool) (d : Nat) :
    (openFrame config query isFollow d).Composes (parser config query isFollow) none
      ((parser config query isFollow).Contains none) d :=
  ((parser config query isFollow).contains_composes none).frameAt d

theorem isFollow_ok {x : τ} {mark : φ} {b : Bool}
    (h : (openFrame config query isFollow d).isFollow x mark s = .ok b t) :
    isFollow x mark = .ok b ∧ t = s.record (.called (.isFollow x mark)) :=
  Parser.calling_ofExcept_eq_ok.mp h

/-- An operand consumes its head and classifies it, before it is put to use. -/
theorem climb_ok {rbp : Precedence} {head : τ} {y : Tree τ} (hd : s.depth = d)
    (h : (openFrame config query isFollow d).climb rbp head s = .ok y t) :
    ∃ op u x w, query head = .ok op ∧ consume s = .ok () u ∧
      (u.record (.called (.query head))).depth = d ∧
      (openFrame config query isFollow d).nud head op.leading
        (u.record (.called (.query head))) = .ok x w ∧
      w.depth = d ∧ w.events <+: t.events ∧
      (openFrame config query isFollow d).continued rbp w.cursor.remaining op.leading.nextPower x
        w = .ok y t := by
  have hframe := openFrame_contains config query isFollow d
  obtain ⟨_, u, hconsume, h⟩ := bind_eq_ok.mp h
  have hdu := (Run.proceeds_of_contains hframe.steps.consume hd hconsume).depth.trans hd
  obtain ⟨op, v, hq, h⟩ := bind_eq_ok.mp h
  obtain ⟨hop, rfl⟩ := query_ok hq
  obtain ⟨x, w, hnud, h⟩ := bind_eq_ok.mp h
  have hdq : (u.record (.called (.query head))).depth = d := hdu
  have hdw := (Run.proceeds_of_contains (hframe.nud head op.leading) hdq hnud).depth.trans hdq
  have loop : (openFrame config query isFollow d).continued rbp w.cursor.remaining
      op.leading.nextPower x w = .ok y t := h
  have hends := Run.proceeds_of_contains (hframe.continued rbp _ _ x) hdw loop
  exact ⟨op, u, x, w, hop, hconsume, hdq, hnud, hdw, hends.log.events, loop⟩

/-- A check asks what it has to and nothing else. -/
theorem separates_ok {expected : Option φ} {x : τ} {b : Bool}
    (h : (openFrame config query isFollow d).separates expected x s = .ok b t) :
    Judged query isFollow expected x b ∧ t.cursor = s.cursor ∧
      Event.uses t.events = Event.uses s.events ∧
      (b = true → t.events = s.events ++ Event.checks x expected) := by
  obtain ⟨op, u, hq, h⟩ := bind_eq_ok.mp h
  obtain ⟨hop, rfl⟩ := query_ok hq
  have asked : (s.record (.called (.query x))).events = s.events ++ [.called (.query x)] :=
    s.events_record _
  have unused : Event.uses (s.record (.called (.query x))).events = Event.uses s.events := by
    rw [asked, Event.uses_append]
    exact List.append_nil _
  cases expected with
  | none =>
    cases h
    exact ⟨.plain hop rfl, rfl, unused, fun _ => asked⟩
  | some mark =>
    dsimp only at h
    split at h
    · rename_i hs
      obtain ⟨hf, rfl⟩ := isFollow_ok h
      refine ⟨.marked hop hs hf, rfl, ?_, fun _ => ?_⟩
      · rw [Session.events_record, Event.uses_append, unused]
        exact List.append_nil _
      · rw [Session.events_record, asked, List.append_assoc]
        rfl
    · rename_i hs
      cases h
      exact ⟨.other hop (by simpa using hs), rfl, unused, fun hb => by cases hb⟩

/-- A strict parser goes on without a separator only where none is declared. -/
theorem missing_ok {expected : Option φ} {found o : Option τ}
    (hstrict : config.strictInterfix = true)
    (h : (openFrame config query isFollow d).missing expected found s = .ok o t) :
    expected = none ∧ t = s := by
  cases expected with
  | none =>
    cases h
    exact ⟨rfl, rfl⟩
  | some mark =>
    have hparser : (openFrame config query isFollow d).parser.config.strictInterfix = true :=
      hstrict
    simp only [Frame.missing, hparser] at h
    cases h

/-- What a strict parser does where a separator may stand: it consumes it, or none is declared and
the next token does not pass for one. -/
theorem eatSeparator_ok {expected : Option φ} {o : Option τ} {ts : List τ}
    (hstrict : config.strictInterfix = true) (hs : s.cursor.items = ts.map .token)
    (h : (openFrame config query isFollow d).eatSeparator expected s = .ok o t) :
    (∃ x more, ts = x :: more ∧ Judged query isFollow expected x true ∧
      t.cursor.items = more.map .token ∧
      t.events = s.events ++ Event.checks x expected ++ [.separator x]) ∨
    (expected = none ∧ (∀ x ∈ ts.head?, Judged query isFollow expected x false) ∧
      t.cursor.items = s.cursor.items ∧ Event.uses t.events = Event.uses s.events) := by
  obtain ⟨o, u, hv, h⟩ := bind_eq_ok.mp h
  obtain ⟨rfl, c, rfl, hc⟩ := Run.visible_none_ok hs hv
  cases ts with
  | nil =>
    obtain ⟨rfl, rfl⟩ := missing_ok hstrict h
    refine .inr ⟨rfl, by simp, ?_, ?_⟩
    · rw [Session.cursor_withCursor, hc]
    · rw [Session.events_withCursor]
  | cons x more =>
    obtain ⟨b, u, hb, h⟩ := bind_eq_ok.mp h
    obtain ⟨hj, hcursor, huses, hevents⟩ := separates_ok hb
    rw [Session.cursor_withCursor] at hcursor
    rw [Session.events_withCursor] at huses hevents
    have hitems : u.cursor.items = s.cursor.items := by rw [hcursor, hc]
    cases b with
    | true =>
      obtain ⟨_, v, hrecord, h⟩ := bind_eq_ok.mp h
      cases hrecord
      obtain ⟨_, v, hconsume, h⟩ := bind_eq_ok.mp h
      cases h
      obtain ⟨e, rfl, hmore⟩ :=
        Run.consume_ok (s := u.record (.separator x)) (hitems.trans hs) hconsume
      refine .inl ⟨x, more, rfl, hj, ?_, ?_⟩
      · rw [Session.cursor_withCursor, hmore]
      · rw [Session.events_withCursor, Session.events_record, hevents rfl]
    | false =>
      obtain ⟨rfl, rfl⟩ := missing_ok hstrict h
      refine .inr ⟨rfl, ?_, hitems, huses⟩
      rintro y hy
      cases hy
      exact hj

section Reading

variable {r : Reader τ φ (Tree τ) ε} {expected : Option φ} {x : τ} {ts : List τ} {b : Bool}

theorem query_of_rules (hr : r.rules = rules config query isFollow d) {op : Operator φ}
    (hq : query x = .ok op) : r.rules.query x = .ok op := by
  rw [hr]
  exact Reading.contained_eq_ok.mpr hq

theorem separates_of_judged (hr : r.rules = rules config query isFollow d)
    (h : Judged query isFollow expected x b) : r.separates expected x ts = .ok b ts := by
  unfold Reader.separates
  cases h with
  | plain hq h =>
    rw [bind_of_ok (Reader.answer_of_ok (query_of_rules hr hq))]
    subst h
    rfl
  | marked hq hs hf =>
    rw [bind_of_ok (Reader.answer_of_ok (query_of_rules hr hq))]
    simp only [hs, ↓reduceIte]
    refine Reader.answer_of_ok ?_
    rw [hr]
    exact Reading.contained_eq_ok.mpr hf
  | other hq hs =>
    rw [bind_of_ok (Reader.answer_of_ok (query_of_rules hr hq))]
    simp only [hs, Bool.false_eq_true, ↓reduceIte]
    rfl

theorem eatSeparator_of_judged (hr : r.rules = rules config query isFollow d)
    (hstop : r.stop x = false) (h : Judged query isFollow expected x true) :
    r.eatSeparator expected (x :: ts) = .ok (some x) ts := by
  rw [Reader.eatSeparator, bind_of_ok (Reader.visible_eq hstop)]
  dsimp only
  rw [bind_of_ok (separates_of_judged hr h)]
  rfl

/-- A lenient reader leaves a token that does not pass for the separator, and goes on. -/
theorem eatSeparator_of_refused (hr : r.rules = rules config query isFollow d)
    (hstop : r.stop = Reading.never) (hlenient : r.strict = false)
    (h : ∀ x ∈ ts.head?, Judged query isFollow expected x false) :
    r.eatSeparator expected ts = .ok none ts := by
  have missing (found : Option τ) : r.missing expected found ts = .ok none ts := by
    cases expected with
    | none => rfl
    | some mark =>
      rw [Reader.missing, hlenient]
      rfl
  cases ts with
  | nil =>
    rw [Reader.eatSeparator, bind_of_ok (Reading.visible_nil r.stop)]
    exact missing none
  | cons x ts =>
    rw [Reader.eatSeparator, bind_of_ok (Reader.visible_eq (by rw [hstop]; rfl))]
    dsimp only
    rw [bind_of_ok (separates_of_judged hr (h x rfl))]
    exact missing (some x)

end Reading

/-- The token neither continues an expression nor passes for the separator. -/
def Neutral (query : τ → Except (Failure τ φ ε) (Operator φ))
    (isFollow : τ → φ → Except (Failure τ φ ε) Bool) (expected : Option φ) (t : τ) : Prop :=
  (∃ op, query t = .ok op ∧ op.continuing.affix ≠ .postfixed ∧ op.continuing.affix ≠ .infixed) ∧
    Judged query isFollow expected t false

/-- The circumstances in which a separator of a strict parse may be left out. -/
structure Spareable (config : Config) (query : τ → Except (Failure τ φ ε) (Operator φ))
    (isFollow : τ → φ → Except (Failure τ φ ε) Bool) (c : Elision τ φ (Tree τ)) : Prop where
  strict : config.strictInterfix = true
  closed : ∀ t op, query t = .ok op → op.starting.affix = .circumfix → op.starting.follow ≠ []
  neutral : ∀ t ∈ c.tokens[c.index + 1]?, Neutral query isFollow c.expected t

/-- A lenient reader goes with the frame of a strict parser: of the operands of the frame it returns
what they return, and no operand begins with the separator. -/
structure Sparing (config : Config) (query : τ → Except (Failure τ φ ε) (Operator φ))
    (isFollow : τ → φ → Except (Failure τ φ ε) Bool) (c : Elision τ φ (Tree τ)) (d : Nat)
    (r : Reader τ φ (Tree τ) ε) : Prop where
  spareable : Spareable config query isFollow c
  rules : r.rules = rules config query isFollow d
  stop : r.stop = Reading.never
  admits : r.admits = between
  lenient : r.strict = false
  operand : ∀ rbp, Run.Spares c (parser config query isFollow) d [] []
    ((openFrame config query isFollow d).operand rbp) (r.operand rbp)
  spurns : ∀ rbp, Run.Spurns c d ((openFrame config query isFollow d).operand rbp)

namespace Sparing

variable {c : Elision τ φ (Tree τ)} {r : Reader τ φ (Tree τ) ε} {head : τ} {op : Operator φ}
  {rbp nbp : Precedence} {x : Tree τ}

/-- Where the separator has been consumed, the reader finds the token behind it, which it leaves.
Elsewhere both find the same token, but where none is declared and the separator is next. -/
theorem eaten (h : Sparing config query isFollow c d r) {expected : Option φ} {o : Option τ}
    {ts vs : List τ} (hs : s.Abreast c.tokens c.index [] [] ts vs)
    (hrun : (openFrame config query isFollow d).eatSeparator expected s = .ok o t)
    (hlog : t.events <+: c.log) :
    (∃ o' us ws, r.eatSeparator expected vs = .ok o' ws ∧
      t.Abreast c.tokens c.index [] [] us ws) ∨
    (expected = none ∧ (Event.uses t.events).length = c.index) := by
  rcases eatSeparator_ok h.spareable.strict hs.items hrun with
    ⟨y, more, rfl, hj, hitems, hevents⟩ | ⟨rfl, hj, hitems, huses⟩
  · have huses : Event.uses t.events = Event.uses s.events ++ [y] := by
      rw [hevents, Event.uses_concat rfl, Event.uses_append, Event.uses_checks, List.append_nil]
    have passed {ws : List τ}
        (he : Erased c.tokens c.index (Event.uses s.events ++ [y]) more ws) :
        t.Abreast c.tokens c.index [] [] more ws := by
      refine ⟨hitems, ?_⟩
      rw [huses]
      exact (List.append_nil _).symm ▸ he
    rcases hs.cons with ⟨hi, rfl, hbehind, he⟩ | ⟨ws, rfl, habreast⟩
    · rw [hevents] at hlog
      have hexpected := Elision.checked hlog hi
      refine .inl ⟨none, vs, vs, ?_, passed he⟩
      refine eatSeparator_of_refused h.rules h.stop h.lenient fun v hv => ?_
      rw [hexpected]
      exact (h.spareable.neutral v (hbehind ▸ hv)).2
    · refine .inl ⟨some y, more, ws, ?_, passed habreast.erased⟩
      exact eatSeparator_of_judged h.rules (by rw [h.stop]; rfl) hj
  · have refused (hsame : vs.head? = ts.head?) : r.eatSeparator none vs = .ok none vs := by
      refine eatSeparator_of_refused h.rules h.stop h.lenient ?_
      rwa [hsame]
    have left : t.Abreast c.tokens c.index [] [] ts vs := hs.congr hitems huses
    cases ts with
    | nil =>
      obtain rfl := hs.nil
      exact .inl ⟨none, [], [], refused rfl, left⟩
    | cons y more =>
      rcases hs.cons with ⟨hi, -⟩ | ⟨ws, rfl, -⟩
      · exact .inr ⟨rfl, by rw [huses, hi]⟩
      · exact .inl ⟨none, y :: more, y :: ws, refused rfl, left⟩

/-- What comes behind a place where a separator may stand: if none is declared there, it does not
begin with the separator. -/
theorem eat (h : Sparing config query isFollow c d r) (expected : Option φ)
    {k : Run τ φ (Tree τ) ε α} {l : Reading τ φ ε α}
    (hk : Run.Spares c (parser config query isFollow) d [] [] k l)
    (hspurns : expected = none → Run.Spurns c d k) :
    Run.Spares c (parser config query isFollow) d [] []
      ((openFrame config query isFollow d).eatSeparator expected >>= fun _ => k)
      (r.eatSeparator expected >>= fun _ => l) where
  contains := ((openFrame_contains config query isFollow d).steps).bind
    ((openFrame_contains config query isFollow d).eatSeparator expected) fun _ => hk.contains
  spares s t ts vs a hd hs hrun hlog := by
    obtain ⟨o, u, hu, hnext⟩ := bind_eq_ok.mp hrun
    have hdu : u.depth = d := (Run.proceeds_of_contains
      ((openFrame_contains config query isFollow d).eatSeparator expected) hd hu).depth.trans hd
    have hearlier := (Run.proceeds_of_contains hk.contains hdu hnext).log.events.trans hlog
    rcases h.eaten hs hu hearlier with ⟨o', us, ws, heat, habreast⟩ | ⟨hnone, hn⟩
    · obtain ⟨us', ws', hl, hend⟩ := hk.spares hdu habreast hnext hlog
      exact ⟨us', ws', (bind_of_ok heat _).trans hl, hend⟩
    · exact absurd hlog (hspurns hnone hdu hn hnext)

theorem nullary (h : Sparing config query isFollow c d r) :
    Run.Spares c (parser config query isFollow) d [] []
      ((openFrame config query isFollow d).nullary head)
      (Reading.answer (r.rules.nullary head)) := by
  rw [h.rules]
  exact Run.spares_call (.ok (Tree.leaf head))
    ((openFrame_contains config query isFollow d).nullary head)

theorem unary (h : Sparing config query isFollow c d r) (x : Tree τ) :
    Run.Spares c (parser config query isFollow) d [] []
      ((openFrame config query isFollow d).unary head x)
      (Reading.answer (r.rules.unary head x)) := by
  rw [h.rules]
  exact Run.spares_call (.ok (Tree.unary head x))
    ((openFrame_contains config query isFollow d).unary head x)

theorem binary (h : Sparing config query isFollow c d r) (x y : Tree τ) :
    Run.Spares c (parser config query isFollow) d [] []
      ((openFrame config query isFollow d).binary head x y)
      (Reading.answer (r.rules.binary head x y)) := by
  rw [h.rules]
  exact Run.spares_call (.ok (Tree.binary head x y))
    ((openFrame_contains config query isFollow d).binary head x y)

theorem ternary (h : Sparing config query isFollow c d r) (x y z : Tree τ) :
    Run.Spares c (parser config query isFollow) d [] []
      ((openFrame config query isFollow d).ternary head x y z)
      (Reading.answer (r.rules.ternary head x y z)) := by
  rw [h.rules]
  exact Run.spares_call (.ok (Tree.ternary head x y z))
    ((openFrame_contains config query isFollow d).ternary head x y z)

/-- An operand behind a place where a separator may stand does not begin with one. -/
theorem eat_operand (h : Sparing config query isFollow c d r) (expected : Option φ)
    (rbp : Precedence) {k : Tree τ → Run τ φ (Tree τ) ε (Tree τ)}
    {l : Tree τ → Reading τ φ ε (Tree τ)}
    (hk : ∀ x, Run.Spares c (parser config query isFollow) d [] [] (k x) (l x)) :
    Run.Spares c (parser config query isFollow) d [] []
      (do
        let _ ← (openFrame config query isFollow d).eatSeparator expected
        let x ← (openFrame config query isFollow d).operand rbp
        k x)
      (do
        let _ ← r.eatSeparator expected
        let x ← r.operand rbp
        l x) :=
  h.eat expected ((h.operand rbp).bind hk) fun _ =>
    (h.spurns rbp).bind (h.operand rbp).contains fun x => (hk x).contains

/-- The head of an expression is put to use, and what comes then returns what its reading does. -/
theorem nud (h : Sparing config query isFollow c d r) (head : τ)
    (hop : op.leading.affix = .circumfix → op.leading.follow ≠ []) :
    ∃ body, (openFrame config query isFollow d).nud head op =
        (Run.record (.leading op.leading.affix op.leading.arity head) >>= fun _ => body) ∧
      Run.Spares c (parser config query isFollow) d [] [] body (r.nud head op) := by
  have hframe := openFrame_contains config query isFollow d
  refine ⟨_, rfl, ?_⟩
  dsimp only [Reader.nud]
  generalize op.leading.affix = affix, op.leading.arity = arity at hop ⊢
  cases affix with
  | nilfix =>
    cases arity with
    | nullary => exact h.nullary
    | _ => exact Run.spares_report (.unexpectedArity head _ _)
  | prefixed =>
    cases arity with
    | unary => exact (h.operand _).bind fun x => h.unary x
    | ternary =>
      exact (h.operand _).bind fun x => h.eat_operand _ _ fun y => h.eat_operand _ _ fun z =>
        h.ternary x y z
    | _ => exact Run.spares_report (.unexpectedArity head _ _)
  | circumfix =>
    cases arity with
    | unary =>
      refine (h.operand _).bind fun x => h.eat _ (h.unary x) fun hnone => ?_
      rw [List.getElem?_eq_none_iff] at hnone
      exact absurd (List.eq_nil_of_length_eq_zero (Nat.le_zero.mp hnone)) (hop rfl)
    | _ => exact Run.spares_report (.unexpectedArity head _ _)
  | postfixed => exact Run.spares_report (.misfit head (by simp))
  | infixed => exact Run.spares_report (.misfit head (by simp))
  | interfix => exact Run.spares_report (.misfit head (by simp))
  | _ => exact Run.spares_report (.unexpectedArity head _ _)

theorem led (h : Sparing config query isFollow c d r) (head : τ) (op : Operator φ) (lhs : Tree τ) :
    ∃ body, (openFrame config query isFollow d).led head op lhs =
        (Run.record (.continuing op.continuing.affix op.continuing.arity head) >>= fun _ => body) ∧
      Run.Spares c (parser config query isFollow) d [] [] body (r.led head op lhs) := by
  have mixfix : Run.Spares c (parser config query isFollow) d [] []
      (do
        let y ← (openFrame config query isFollow d).operand .bottom
        let _ ← (openFrame config query isFollow d).eatSeparator op.continuing.follow[0]?
        let z ← (openFrame config query isFollow d).operand op.continuing.rightPower
        (openFrame config query isFollow d).ternary head lhs y z)
      (do
        let y ← r.operand .bottom
        let _ ← r.eatSeparator op.continuing.follow[0]?
        let z ← r.operand op.continuing.rightPower
        Reading.answer (r.rules.ternary head lhs y z)) :=
    (h.operand _).bind fun y => h.eat_operand _ _ fun z => h.ternary lhs y z
  refine ⟨_, rfl, ?_⟩
  dsimp only [Reader.led]
  generalize op.continuing.affix = affix, op.continuing.arity = arity
  cases affix with
  | postfixed =>
    cases arity with
    | unary => exact h.unary lhs
    | ternary => exact mixfix
    | _ => exact Run.spares_report (.unexpectedArity head _ _)
  | infixed =>
    cases arity with
    | binary => exact (h.operand _).bind fun y => h.binary lhs y
    | ternary => exact mixfix
    | _ => exact Run.spares_report (.unexpectedArity head _ _)
  | nilfix => exact Run.spares_report (.misfit head (by simp))
  | prefixed => exact Run.spares_report (.misfit head (by simp))
  | circumfix => exact Run.spares_report (.misfit head (by simp))
  | interfix => exact Run.spares_report (.misfit head (by simp))
  | _ => exact Run.spares_report (.unexpectedArity head _ _)

/-- A token that continues no expression ends the loop before it. -/
theorem continued_of_neutral (h : Sparing config query isFollow c d r) {vs : List τ} (n : Nat)
    (hv : ∀ v ∈ vs.head?, Neutral query isFollow c.expected v) :
    r.continued rbp n nbp x vs = .ok x vs := by
  cases vs with
  | nil => exact Reader.continued_nil
  | cons v vs =>
    obtain ⟨⟨op, hq, hpostfixed, hinfixed⟩, -⟩ := hv v rfl
    have hquery : r.rules.query v = .ok op := query_of_rules h.rules hq
    refine Reader.continued_of_not_admitted (by rw [h.stop]; rfl) hquery ?_
    have hbottom : op.leftPower = .bottom := by
      unfold Operator.leftPower
      split
      · contradiction
      · contradiction
      · rfl
    have hfloor : ¬rbp < Precedence.bottom := by
      rw [Precedence.lt_iff]
      exact Nat.not_lt_zero _
    rw [h.admits, between, hbottom]
    simp [hfloor]

/-- A token that continues an expression is not the separator: both sides have it ahead. -/
theorem extended (h : Sparing config query isFollow c d r) {u : Session τ φ (Tree τ) ε}
    {ts vs : List τ} {y : Tree τ} (hd : s.depth = d)
    (hs : s.Abreast c.tokens c.index [] [] (head :: ts) vs) (hconsume : consume s = .ok () u)
    (hled : (openFrame config query isFollow d).led head op x u = .ok y t)
    (hlog : t.events <+: c.log) :
    ∃ ws us ws', vs = head :: ws ∧ r.led head op x ws = .ok y ws' ∧ us.length ≤ ts.length ∧
      t.Abreast c.tokens c.index [] [] us ws' := by
  have hframe := openFrame_contains config query isFollow d
  have hdu := (Run.proceeds_of_contains hframe.steps.consume hd hconsume).depth.trans hd
  have hgoes := Run.proceeds_of_contains (hframe.led head op x) hdu hled
  obtain ⟨body, hbody, hspares⟩ := h.led head op x
  rw [hbody] at hled
  rcases hs.cons with ⟨hi, -⟩ | ⟨ws, rfl, habreast⟩
  · have hearlier := (Run.events_of_record hspares.contains hdu hled).trans hlog
    rw [Run.events_of_consume hconsume, ← List.append_nil s.events] at hearlier
    cases (c.used hearlier hi rfl rfl).2
  · have htaken := habreast.consumed hconsume
    obtain ⟨us, ws', hreads, hend⟩ := (hspares.use (.continuing _ _ head) rfl).spares hdu htaken
      hled hlog
    refine ⟨ws, us, ws', rfl, hreads, ?_, hend⟩
    have hleft := hgoes.cursor.length_le
    rwa [hend.items, htaken.items, List.length_map, List.length_map] at hleft

/-- Both loops find the same token, until the run is before the separator: there both stop. -/
theorem continued (h : Sparing config query isFollow c d r) {n m : Nat} {ts vs : List τ}
    {y : Tree τ} (hr : r.Shortens) (hd : s.depth = d)
    (hs : s.Abreast c.tokens c.index [] [] ts vs) (hn : ts.length ≤ n) (hm : vs.length ≤ m)
    (hrun : (openFrame config query isFollow d).continued rbp n nbp x s = .ok y t)
    (hlog : t.events <+: c.log) :
    ∃ us ws, r.continued rbp m nbp x vs = .ok y ws ∧ t.Abreast c.tokens c.index [] [] us ws := by
  have hframe := openFrame_contains config query isFollow d
  induction n generalizing m nbp x s ts vs with
  | zero =>
    cases hrun
    have hnil := List.eq_nil_of_length_eq_zero (Nat.le_zero.mp hn)
    subst hnil
    obtain rfl := hs.nil
    exact ⟨[], [], Reader.continued_nil, hs⟩
  | succ n ih =>
    obtain ⟨o, u, hv, hrun⟩ := bind_eq_ok.mp hrun
    obtain ⟨rfl, e, rfl, he⟩ := Run.visible_none_ok hs.items hv
    have hseen := hs.withCursor he
    cases ts with
    | nil =>
      cases hrun
      obtain rfl := hs.nil
      exact ⟨[], [], Reader.continued_nil, hseen⟩
    | cons head more =>
      obtain ⟨op, u, hq, hrun⟩ := bind_eq_ok.mp hrun
      obtain ⟨hop, rfl⟩ := query_ok hq
      have hasked := hseen.record (e := .called (.query head)) rfl
      have hquery : r.rules.query head = .ok op := query_of_rules h.rules hop
      split at hrun
      · rename_i hadmits
        obtain ⟨_, u, hconsume, hrun⟩ := bind_eq_ok.mp hrun
        obtain ⟨z, w, hled, hrun⟩ := bind_eq_ok.mp hrun
        have hdasked : ((s.withCursor e).record (.called (.query head))).depth = d :=
          (s.depth_withCursor e).trans hd
        have hround := Run.proceeds_of_contains
          (hframe.steps.bind hframe.steps.consume fun _ => hframe.led head op.continuing x) hdasked
          ((bind_of_ok hconsume _).trans hled)
        have hdw := hround.depth.trans hdasked
        have hearlier := (Run.proceeds_of_contains (hframe.continued rbp n _ z) hdw hrun).log.events
        obtain ⟨ws, us, ws', rfl, hreads, hshorter, hend⟩ :=
          h.extended hdasked hasked hconsume hled (hearlier.trans hlog)
        obtain ⟨m, rfl⟩ : ∃ l, m = l + 1 := ⟨m - 1, by rw [List.length_cons] at hm; omega⟩
        have hless := (Reader.led_ok hreads).length hr
        rw [List.length_cons] at hn hm
        have hroom : ws'.length ≤ m := by omega
        obtain ⟨us', ws'', hloop, hlast⟩ := ih hdw hend (by omega) hroom hrun
        have hadmitted : r.admits rbp op.leftPower nbp = true := by
          rw [h.admits]
          exact hadmits
        refine ⟨us', ws'', ?_, hlast⟩
        rw [Reader.continued_of_admitted (by rw [h.stop]; rfl) hquery hadmitted]
        exact (bind_of_ok hreads _).trans hloop
      · rename_i hadmits
        cases hrun
        rcases hs.cons with ⟨hi, rfl, hbehind, he⟩ | ⟨ws, rfl, habreast⟩
        · refine ⟨_, _, h.continued_of_neutral m fun v hv => ?_, hasked⟩
          exact h.spareable.neutral v (hbehind ▸ hv)
        · refine ⟨_, _, ?_, hasked⟩
          refine Reader.continued_of_not_admitted (by rw [h.stop]; rfl) hquery ?_
          rw [h.admits]
          exact Bool.eq_false_iff.mpr hadmits

theorem climb (h : Sparing config query isFollow c d r) (hr : r.Shortens) (rbp : Precedence)
    (head : τ) :
    Run.Spares c (parser config query isFollow) d [] [head]
      ((openFrame config query isFollow d).climb rbp head) (r.climb rbp head) where
  contains := (openFrame_contains config query isFollow d).climb rbp head
  spares s t ts vs y hd hs hrun hlog := by
    obtain ⟨op, u, x, w, hop, hconsume, hdu, hnud, hdw, hearlier, loop⟩ := climb_ok hd hrun
    have hasked := (hs.consumed hconsume).record (e := .called (.query head)) rfl
    have hquery : r.rules.query head = .ok op := query_of_rules h.rules hop
    obtain ⟨body, hbody, hspares⟩ := h.nud head (h.spareable.closed head op hop)
    rw [hbody] at hnud
    obtain ⟨us, ws, hreads, hstarted⟩ := (hspares.use (.leading _ _ head) rfl).spares hdu hasked
      hnud (hearlier.trans hlog)
    have hremaining : us.length ≤ w.cursor.remaining := by
      rw [Cursor.remaining, hstarted.items, List.length_map]
      exact Nat.le_refl _
    obtain ⟨us', ws', hloop, hend⟩ := h.continued hr hdw hstarted hremaining (Nat.le_refl _) loop
      hlog
    refine ⟨us', ws', ?_, hend⟩
    change r.climb rbp head (head :: vs) = _
    rw [Reader.climb_of_query hquery]
    exact (bind_of_ok hreads _).trans hloop

/-- The head of an operand is not the separator. -/
theorem climb_spurns (h : Sparing config query isFollow c d r) {y : Tree τ} (hd : s.depth = d)
    (hn : (Event.uses s.events).length = c.index)
    (hrun : (openFrame config query isFollow d).climb rbp head s = .ok y t) :
    ¬t.events <+: c.log := by
  intro hlog
  obtain ⟨op, u, x, w, hop, hconsume, hdu, hnud, -, hearlier, -⟩ := climb_ok hd hrun
  obtain ⟨body, hbody, hspares⟩ := h.nud head (h.spareable.closed head op hop)
  rw [hbody] at hnud
  have hused := ((Run.events_of_record hspares.contains hdu hnud).trans hearlier).trans hlog
  rw [Session.events_record, Run.events_of_consume hconsume] at hused
  cases (c.used hused hn rfl rfl).2

end Sparing

/-- The operands of the strict parser and those of the lenient one, by the levels that are left. -/
theorem operandIn_spares {c : Elision τ φ (Tree τ)} (hc : Spareable config query isFollow c)
    (d : Nat) (rbp : Precedence) (head : τ) :
    Run.Spares c (parser config query isFollow) d [] [head]
        ((parser config query isFollow).operandIn (config.maxDepth - d) none rbp head)
        ((scheme { config with strictInterfix := false } query isFollow).operandIn
          (config.maxDepth - d) d Reading.never rbp head) ∧
      Run.Spurns c d
        ((parser config query isFollow).operandIn (config.maxDepth - d) none rbp head) := by
  induction hroom : config.maxDepth - d generalizing d rbp head with
  | zero =>
    rw [Parser.operandIn_zero]
    refine ⟨Run.spares_report .nestingTooDeep, fun s t a _ _ h => ?_⟩
    cases h
  | succ n ih =>
    have hd : d < (parser config query isFollow).config.maxDepth := by
      change d < config.maxDepth
      omega
    have hbelow : config.maxDepth - (d + 1) = n := by omega
    have operands (p : Precedence) (x : τ) := ih (d + 1) p x hbelow
    rw [← hbelow] at operands
    have below : Sparing config query isFollow c (d + 1)
        ((scheme { config with strictInterfix := false } query isFollow).readerIn n d
          Reading.never) :=
      { spareable := hc
        rules := rfl
        stop := rfl
        admits := rfl
        lenient := rfl
        operand := fun p => by
          rw [← hbelow]
          exact Run.spares_startingAt (fun x => (operands p x).1) fun x => (operands p x).2
        spurns := fun p => Run.spurns_startingAt fun x => (operands p x).2 }
    have level := (parser config query isFollow).operandIn_deeper hd none rbp head
    rw [show (parser config query isFollow).config.maxDepth - d = n + 1 from hroom] at level
    rw [level, Scheme.operandIn_succ]
    have climbs := below.climb (Scheme.readerIn_shortens _ n d _) rbp head
    have steps := (parser config query isFollow).contains_composes none
    refine ⟨climbs.deeper (steps.body hd climbs.contains) rfl rfl, Run.Spurns.deeper ?_ rfl⟩
    exact fun s t y hd hn hrun => below.climb_spurns hd hn hrun

/-- What is done after a whole expression is not told by the log. -/
theorem concluding_ok {p : Parser τ φ (Tree τ) ε} {us : List τ} {x y : Tree τ}
    (hs : s.cursor.items = us.map .token) (h : p.concluding .whole y s = .ok x t) :
    y = x ∧ t.events = s.events ∧ t.cursor.items = us.map .token ∧
      (p.config.requireEnd = true → us = []) := by
  unfold Parser.concluding at h
  split at h
  · obtain ⟨c, hpeek, hitems, -⟩ := Cursor.peek_of_tokens hs
    obtain ⟨o, u, hread, h⟩ := bind_eq_ok.mp h
    simp only [Run.reading, hpeek] at hread
    cases hread
    cases us with
    | nil =>
      cases h
      exact ⟨rfl, s.events_withCursor c, by rw [Session.cursor_withCursor, hitems], fun _ => rfl⟩
    | cons v us => cases h
  · rename_i hend
    cases h
    exact ⟨rfl, rfl, hs, fun hrequire => absurd ⟨rfl, hrequire⟩ hend⟩

/-- A whole parse reads one operand and looks at what follows it. -/
theorem parseTokens_ok {tokens : List τ} {x : Tree τ}
    (h : (parser config query isFollow).parseTokens tokens = .ok x t) :
    ∃ y u, (openFrame config query isFollow 0).operand .bottom
        ((Session.start (Cursor.ofTokens tokens)).record (.entered 0)) = .ok y u ∧
      (parser config query isFollow).concluding .whole y ((u.surface 0).record (.left 0)) =
        .ok x t := by
  rw [Parser.parseTokens, Parser.parse, Parser.entering_eq] at h
  obtain ⟨y, v, hv, hend⟩ := bind_eq_ok.mp h
  obtain ⟨u, hu, rfl⟩ := Run.deeper_eq_ok.mp hv
  exact ⟨y, u, hu, hend⟩

/-- What the strict parser makes of all tokens, the lenient reading makes of the others. -/
theorem parse_spares {c : Elision τ φ (Tree τ)} {x : Tree τ}
    (hc : Spareable config query isFollow c)
    (h : (parser config query isFollow).parseTokens c.tokens = .ok x t) (hlog : t.events = c.log) :
    ∃ us, Event.uses t.events ++ us = c.tokens ∧ t.cursor.items = us.map .token ∧
      (scheme { config with strictInterfix := false } query isFollow).parse 0
        (c.tokens.eraseIdx c.index) = .ok x us := by
  have hstart : (Session.start (Cursor.ofTokens c.tokens) : Session τ φ (Tree τ) ε).Abreast
      c.tokens c.index [] [] c.tokens (c.tokens.eraseIdx c.index) := ⟨rfl, .start c.tokens c.index⟩
  have steps := (parser config query isFollow).contains_composes none
  have hspares : Run.Spares c (parser config query isFollow) 0 [] []
      ((openFrame config query isFollow 0).operand .bottom)
      ((scheme { config with strictInterfix := false } query isFollow).parseInput 0 .bottom
        Reading.never) :=
    Run.spares_startingAt (fun head => (operandIn_spares hc 0 .bottom head).1) fun head =>
      (operandIn_spares hc 0 .bottom head).2
  obtain ⟨y, u, hu, hend⟩ := parseTokens_ok h
  have hdepth : ((u.surface 0).record (.left 0)).depth = 0 :=
    (Run.proceeds_of_contains hspares.contains rfl hu).depth
  have hleft : ((u.surface 0).record (.left 0)).events = u.events ++ [.left 0] :=
    Session.events_record (u.surface 0) (.left 0)
  have hgrows := (Run.proceeds_of_contains (steps.concluding .whole y) hdepth hend).log.events
  rw [hleft, hlog] at hgrows
  obtain ⟨us, ws, hreads, habreast⟩ := hspares.spares rfl (hstart.record (e := .entered 0) rfl) hu
    ((List.prefix_append _ _).trans hgrows)
  have hbehind : ((u.surface 0).record (.left 0)).cursor.items = us.map .token := habreast.items
  obtain ⟨rfl, hevents, hitems, hrequire⟩ := concluding_ok hbehind hend
  have huses : Event.uses t.events = Event.uses u.events := by
    rw [hevents, hleft, Event.uses_append]
    exact List.append_nil _
  have hindex : c.index < (Event.uses t.events).length := by
    rw [hlog, c.uses_log, List.length_append]
    exact Nat.lt_add_of_pos_right (Nat.succ_pos _)
  have herased : Erased c.tokens c.index (Event.uses t.events) us ws := by
    have hlast := habreast.erased
    rw [← huses] at hlast
    exact (List.append_nil (Event.uses t.events)) ▸ hlast
  obtain rfl := herased.eq_of_lt hindex
  exact ⟨ws, herased.whole, hitems, Scheme.parse_of_operand hreads hrequire⟩

/-- A parse has moved on by the tokens that are no longer left. -/
theorem position_of_parseTokens {tokens rest : List τ} {x : Tree τ}
    (h : (parser config query isFollow).parseTokens tokens = .ok x t)
    (hrest : t.cursor.items = rest.map .token) :
    t.cursor.position + rest.length = tokens.length := by
  have hstart : (Session.start (Cursor.ofTokens tokens) : Session τ φ (Tree τ) ε).cursor.items =
      tokens.map .token := rfl
  obtain ⟨left, -, hread⟩ := (parser_follows config query isFollow).parse.ok (d := 0) rfl hstart h
  have hlength := congrArg List.length (hrest.symm.trans hread.items)
  rw [List.length_map, List.length_map] at hlength
  have hposition := hread.position
  change t.cursor.position + left.length = 0 + tokens.length at hposition
  omega

/-- A separator that a strict parser has consumed may be left out for a lenient parser, if the token
behind it neither continues an expression nor passes for that separator: the tree is the same, and
one token less has been consumed. Every token that a parse consumes is put to use in its turn. -/
theorem parseTokens_eraseIdx (config : Config) {query : τ → Except (Failure τ φ ε) (Operator φ)}
    {isFollow : τ → φ → Except (Failure τ φ ε) Bool} {tokens : List τ} {x : Tree τ}
    {before after : List (Event τ φ (Tree τ))} {expected : Option φ} {sep : τ}
    (hformed : ∀ t op, query t = .ok op → op.Formed)
    (hclosed : ∀ t op, query t = .ok op → op.affix = .circumfix → op.follow ≠ [])
    (h : (parser { config with strictInterfix := true } query isFollow).parseTokens tokens =
      .ok x t)
    (hlog : t.events = before ++ Event.checks sep expected ++ .separator sep :: after)
    (hneutral : ∀ v ∈ tokens[(Event.uses before).length + 1]?, Neutral query isFollow expected v) :
    ∃ rest t', tokens = Event.uses t.events ++ rest ∧ t.cursor.items = rest.map .token ∧
      tokens[(Event.uses before).length]? = some sep ∧
      (parser { config with strictInterfix := false } query isFollow).parseTokens
        (tokens.eraseIdx (Event.uses before).length) = .ok x t' ∧
      t'.cursor.items = rest.map .token ∧ t'.cursor.position + 1 = t.cursor.position := by
  let c : Elision τ φ (Tree τ) := ⟨tokens, before, expected, sep, after⟩
  let strict : Config := { config with strictInterfix := true }
  have spareable : Spareable strict query isFollow c :=
    { strict := rfl
      closed := fun v op hq ha => by
        have hop := (hformed v op hq).starting_of_circumfix ha
        rw [hop] at ha ⊢
        exact hclosed v op hq ha
      neutral := hneutral }
  obtain ⟨rest, htokens, hrest, hreads⟩ := parse_spares spareable h hlog
  have hsep : tokens[c.index]? = some sep := by
    have hwhole : Event.uses before ++ sep :: (Event.uses after ++ rest) = tokens := by
      rw [show t.events = c.log from hlog, c.uses_log, List.append_assoc] at htokens
      exact htokens
    rw [← hwhole, Elision.index, List.getElem?_append_right (Nat.le_refl _), Nat.sub_self]
    rfl
  have hstart : (Session.start (Cursor.ofTokens (tokens.eraseIdx c.index)) :
      Session τ φ (Tree τ) ε).cursor.items = (tokens.eraseIdx c.index).map .token := rfl
  obtain ⟨t', ht', hread⟩ := (parser_follows { config with strictInterfix := false } query
    isFollow).parse.of_ok (d := 0) rfl hstart hreads
  have hposition := position_of_parseTokens h hrest
  have hposition' := position_of_parseTokens ht' hread.items
  have hindex := (List.getElem?_eq_some_iff.mp hsep).1
  rw [List.length_eraseIdx_of_lt hindex] at hposition'
  exact ⟨rest, t', htokens.symm, hrest, hsep, ht', hread.items, by omega⟩

theorem conditional_declares {t : Char} {op : Operator Char} (h : conditional t = .ok op) :
    op.Formed ∧ (op.affix = .circumfix → op.follow ≠ []) := by
  unfold conditional at h
  cases h
  split
  · exact ⟨.shape _, by decide⟩
  · split
    · exact ⟨Operator.formed_single rfl, by decide⟩
    · split
      · exact ⟨Operator.formed_single rfl, by decide⟩
      · exact ⟨Operator.formed_single rfl, by decide⟩

/-- Without the bar that closes the first operand, the colon behind it ends that operand. -/
theorem parseTokens_eraseIdx_conditional :
    ∃ (t : Session Char Char (Tree Char) Empty) (before after : List (Event Char Char (Tree Char))),
      (parser ⟨true, true, 4, by decide⟩ conditional fun t mark => .ok (t == mark)).parseTokens
          ['?', '|', 'x', '|', ':', 'y', ';', 'z'] =
        .ok (ternary '?' (unary '|' (leaf 'x')) (leaf 'y') (leaf 'z')) t ∧
      t.events = before ++ Event.checks '|' (some '|') ++ .separator '|' :: after ∧
      Event.uses before = ['?', '|', 'x'] ∧
      ∃ t', (parser ⟨false, true, 4, by decide⟩ conditional fun t mark =>
          .ok (t == mark)).parseTokens ['?', '|', 'x', ':', 'y', ';', 'z'] =
        .ok (ternary '?' (unary '|' (leaf 'x')) (leaf 'y') (leaf 'z')) t' ∧
        t'.cursor.items = t.cursor.items ∧ t'.cursor.position + 1 = t.cursor.position := by
  have hreturned : returned? ((parser ⟨true, true, 4, by decide⟩ conditional fun t mark =>
      .ok (t == mark)).parseTokens ['?', '|', 'x', '|', ':', 'y', ';', 'z']) =
        some (ternary '?' (unary '|' (leaf 'x')) (leaf 'y') (leaf 'z')) := by
    decide +kernel
  have hcut : ∀ es, es = (ending ((parser ⟨true, true, 4, by decide⟩ conditional fun t mark =>
      .ok (t == mark)).parseTokens ['?', '|', 'x', '|', ':', 'y', ';', 'z'])).events →
      es = es.take 13 ++ Event.checks '|' (some '|') ++ .separator '|' :: es.drop 16 ∧
        Event.uses (es.take 13) = ['?', '|', 'x'] := by
    intro es hes
    rw [hes]
    decide +kernel
  obtain ⟨t, ht⟩ := returned?_eq_some.mp hreturned
  obtain ⟨hlog, huses⟩ := hcut t.events (by rw [ht]; rfl)
  have hneutral : ∀ v ∈ ['?', '|', 'x', '|', ':', 'y', ';', 'z'][
      (Event.uses (t.events.take 13)).length + 1]?,
      Neutral conditional (fun t mark => .ok (t == mark)) (some '|') v := by
    rw [huses]
    rintro v hv
    cases hv
    have hcolon : conditional ':' = .ok .interfix := rfl
    exact ⟨⟨.interfix, hcolon, by decide, by decide⟩, .marked hcolon rfl rfl⟩
  obtain ⟨rest, t', -, hrest, -, ht', hrest', hposition⟩ :=
    parseTokens_eraseIdx ⟨false, true, 4, by decide⟩ (fun _ _ hop => (conditional_declares hop).1)
      (fun _ _ hop => (conditional_declares hop).2) ht hlog hneutral
  rw [huses] at ht'
  exact ⟨t, _, _, ht, hlog, huses, t', ht', hrest'.trans hrest.symm, hposition⟩

end Tree

end BindingPower
