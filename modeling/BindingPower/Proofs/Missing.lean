import BindingPower.Proofs.Cutting
import BindingPower.Proofs.Refusals
import BindingPower.Proofs.TreeReading

/-! # Missing separators

What a report on a missing separator has found in its place. It comes from a run in which nothing
else has failed, the outermost one or one that a callback asked for, and tells what that run could
take next from the stream it stopped at. In words, a null token is not told apart from the end of
the input. -/
namespace BindingPower

variable {τ φ ν ε α β : Type}

/-- The callback ends at once and asks for nothing. -/
def Callback.Immediate (callback : Callback τ φ ν ε α) : Prop := ∃ r, callback = .ofExcept r

/-- Tokens are classified, and compared with the marks of separators, at once. -/
structure Grammar.Judges (G : Grammar τ φ ν ε) : Prop where
  query : ∀ t, (G.query t).Immediate
  isFollow : ∀ t mark, (G.isFollow t mark).Immediate

/-- What a run with a stop predicate can take next from a stream: nothing where the stream ends or
the predicate holds, and otherwise the next token. -/
inductive Cursor.Offers (stop : Option (Stop τ φ ν ε)) (c : Cursor τ ε) : Option τ → Prop where
  | ended (h : c.items = []) : Offers stop c none
  | stopped {t : τ} {test : Stop τ φ ν ε} (h : c.items.head? = some (.token t)) (ht : test ∈ stop)
    (hs : test t = .value true) : Offers stop c none
  | next {t : τ} (h : c.items.head? = some (.token t)) (hs : ∀ test ∈ stop, test t = .value false) :
    Offers stop c (some t)

/-- A run that a callback has asked for reports a missing separator, and no callback has failed in
it: it was begun in session `u` and reported in session `v`, from where everything is left again. -/
inductive Parser.Relays (p : Parser τ φ ν ε) (stop : Option (Stop τ φ ν ε)) (s : Session τ φ ν ε)
    (expected : Option φ) (found : Option τ) (t : Session τ φ ν ε) : Prop where
  | mk {α : Type} {c : Call τ φ ν} {callback : Callback τ φ ν ε α} {q : Request τ φ ε}
    {u v : Session τ φ ν ε} (hc : p.Asks stop c callback) (hq : callback.Requests q)
    (before : s.Adds Event.Calm u)
    (run : p.reentry (p.innerAt u.depth) q.goal q.stop { u with side := q.source } =
      .error (.report (.missingInterfix expected found)) v)
    (inside : u.Adds Event.Calm v)
    (offers : v.cursor.Offers (q.stop.map StopTest.toStop : Option (Stop τ φ ν ε)) found)
    (behind : v.Adds Event.Unwinds t)

/-- Where a report on a missing separator comes from: the run with the second stop predicate has
made it by itself, or a callback has asked for the run that made it. -/
inductive Parser.Misses (p : Parser τ φ ν ε) (stop k : Option (Stop τ φ ν ε))
    (s : Session τ φ ν ε) (expected : Option φ) (found : Option τ) (t : Session τ φ ν ε) :
    Prop where
  | own (h : s.Adds Event.Calm t) (offers : t.cursor.Offers k found)
  | relayed (h : p.Relays stop s expected found t)

/-- The failure is no report on a missing separator. -/
def Failure.Joined (f : Failure τ φ ε) : Prop :=
  ∀ expected found, f ≠ .report (.missingInterfix expected found)

/-- The next token is the offer of the stream, and so is the end of it. -/
theorem Cursor.Offers.unique {stop : Option (Stop τ φ ν ε)} {c : Cursor τ ε} {o o' : Option τ}
    (h : c.Offers stop o) (h' : c.Offers stop o') : o = o' := by
  cases h with
  | ended h =>
    cases h' with
    | ended => rfl
    | stopped => rfl
    | next h' => simp [h] at h'
  | stopped h ht hs =>
    cases h' with
    | ended => rfl
    | stopped => rfl
    | next h' hs' =>
      obtain rfl := Item.token.inj (Option.some.inj (h.symm.trans h'))
      cases hs.symm.trans (hs' _ ht)
  | next h hs =>
    cases h' with
    | ended h' => simp [h'] at h
    | stopped h' ht hs' =>
      obtain rfl := Item.token.inj (Option.some.inj (h.symm.trans h'))
      cases hs'.symm.trans (hs _ ht)
    | next h' => rw [Item.token.inj (Option.some.inj (h.symm.trans h'))]

theorem Parser.Asks.immediate {p : Parser τ φ ν ε} {stop : Option (Stop τ φ ν ε)}
    (hstop : ∀ test ∈ stop, ∀ t, (test t).Immediate) {c : Call τ φ ν}
    {callback : Callback τ φ ν ε α} {t : τ} (h : p.Asks stop c callback) (hc : c = .stop t) :
    callback.Immediate := by
  cases h with
  | stop h => exact hstop _ h _
  | requested _ _ _ t => exact ⟨_, rfl⟩
  | _ => cases hc

/-- What answers at once leaves the stream where it is. -/
theorem Callback.Immediate.calling {callback : Callback τ φ ν ε α} (h : callback.Immediate)
    {p : Parser τ φ ν ε} {c : Call τ φ ν} {enter : Goal → Option (StopTest τ φ ε) → Run τ φ ν ε ν}
    {s t : Session τ φ ν ε} {a : α} (hrun : p.calling c (callback.perform enter) s = .ok a t) :
    callback = .value a ∧ t.cursor = s.cursor := by
  obtain ⟨r, rfl⟩ := h
  obtain ⟨rfl, rfl⟩ := Parser.calling_ofExcept_eq_ok.mp hrun
  exact ⟨rfl, rfl⟩

namespace Frame

variable {f : Frame τ φ ν ε} {s t : Session τ φ ν ε}

/-- What comes into sight is what the stream offers. -/
theorem visible_offers (hstop : ∀ test ∈ f.stop, ∀ t, (test t).Immediate) {o : Option τ}
    (h : f.visible s = .ok o t) : t.cursor.Offers f.stop o := by
  obtain ⟨o', s₁, hpeek, h⟩ := bind_eq_ok.mp h
  have hhead : s₁.cursor.items.head? = o'.map .token := by
    rcases s.cursor.peek_cases with ⟨o, d, hp, hi, -, ho⟩ | ⟨e, d, hp, -⟩
    · simp only [Run.reading, hp] at hpeek
      cases hpeek
      rw [Session.cursor_withCursor, hi, ho]
    · simp only [Run.reading, hp] at hpeek
      cases hpeek
  cases o' with
  | none =>
    cases h
    exact .ended (List.head?_eq_none_iff.mp hhead)
  | some x =>
    cases hask : f.stop with
    | none =>
      simp only [Parser.asking, hask, Option.map_none] at h
      cases h
      exact .next hhead (by simp)
    | some test =>
      simp only [Parser.asking, hask, Option.map_some] at h
      obtain ⟨yes, s₂, hyes, h⟩ := bind_eq_ok.mp h
      obtain ⟨hanswer, hcursor⟩ := (hstop test hask x).calling hyes
      rw [← hcursor] at hhead
      cases yes with
      | true =>
        cases h
        exact .stopped hhead rfl hanswer
      | false =>
        cases h
        exact .next hhead (by simpa using hanswer)

/-- Whether a token separates is found out without touching the stream. -/
theorem separates_cursor (hG : f.parser.grammar.Judges) {expected : Option φ} {x : τ} {yes : Bool}
    (h : f.separates expected x s = .ok yes t) : t.cursor = s.cursor := by
  obtain ⟨op, u, hop, h⟩ := bind_eq_ok.mp h
  have hsame := ((hG.query x).calling hop).2
  cases expected with
  | none =>
    cases h
    exact hsame
  | some mark =>
    dsimp only at h
    split at h
    · exact ((hG.isFollow x mark).calling h).2.trans hsame
    · cases h
      exact hsame

end Frame

/-- Where a report on a missing separator comes from, by the sessions in which a run begins and,
with the report, ends. -/
abbrev Origin (τ φ ν ε : Type) := Session τ φ ν ε → Option φ → Option τ → Session τ φ ν ε → Prop

/-- Where nothing fails before the report, and what has been opened is left behind it, the report
comes from the same place. -/
structure Origin.Traced (M : Origin τ φ ν ε) : Prop where
  trace : ∀ {s s' t t' : Session τ φ ν ε} {expected : Option φ} {found : Option τ},
    s.Adds Event.Calm s' → M s' expected found t → t.Adds (fun e => e.Calm ∧ e.Unwinds) t' →
    t'.cursor = t.cursor → M s expected found t'

/-- Nothing has failed, or if a separator is reported missing, the report comes from there. -/
def Session.Tells (M : Origin τ φ ν ε) (s : Session τ φ ν ε) :
    Option (Failure τ φ ε) → Session τ φ ν ε → Prop
  | none, t => s.Quiet t
  | some f, t => ∀ expected found, f = .report (.missingInterfix expected found) →
      M s expected found t

namespace Session.Tells

variable {M : Origin τ φ ν ε} {s t : Session τ φ ν ε}

theorem fault {r : Except ε α} (h : s.Quiet t) : s.Tells M (fault? r) t := by
  cases r with
  | ok a => exact h
  | error e => rintro _ _ ⟨⟩

theorem chains (hM : M.Traced) : Outcome.Chains (Session.Tells M) where
  refl _ := ⟨rfl, .of_eq rfl⟩
  trans {s t u f} h k := by
    cases f with
    | none => exact Session.Quiet.trans h k
    | some f => exact fun expected found hf => hM.trace h.log (k expected found hf) (.of_eq rfl) rfl
  depth h := h.depth

theorem deeper (hM : M.Traced) {n : Nat} {before after : Event τ φ ν} {f : Option (Failure τ φ ε)}
    (h : ((s.deepen n).record before).Tells M f t) (hb : before.Calm) (ha : after.Calm)
    (hu : after.Unwinds) : s.Tells M f ((t.surface n).record after) := by
  cases f with
  | none => exact Session.Quiet.deeper h hb ha
  | some f =>
    exact fun expected found hf => hM.trace (.down hb) (h expected found hf) (.up ⟨ha, hu⟩) rfl

end Session.Tells

/-- From the depth on, nothing fails in the run, or a report on a missing separator comes from
there. -/
abbrev Run.Tells (M : Origin τ φ ν ε) (d : Nat) {α : Type} (m : Run τ φ ν ε α) : Prop :=
  Run.Obeys (Session.Tells M) d m

namespace Run

variable {M : Origin τ φ ν ε} {d : Nat} {m : Run τ φ ν ε α}

theorem tells_throw {f : Failure τ φ ε} (hf : f.Joined) : Tells M d (throw f : Run τ φ ν ε α) :=
  fun _ _ expected found h => absurd h (hf expected found)

theorem tells_record {e : Event τ φ ν} (he : e.Calm) : Tells M d (Run.record e) :=
  fun _ _ => ⟨rfl, (Session.Adds.of_eq rfl).record he⟩

theorem tells_reading (f : Cursor τ ε → Except ε α × Cursor τ ε) : Tells M d (Run.reading f) :=
  obeys_reading fun s => .fault ⟨s.depth_withCursor _, .of_eq (s.log_withCursor _)⟩

theorem tells_take : Tells M d (Run.readingMain Cursor.next) :=
  obeys_readingMain fun _ => .fault ⟨rfl, .of_eq rfl⟩

theorem Tells.deeper (hM : M.Traced) {n : Nat} {before after : Event τ φ ν} (h : Tells M (d + n) m)
    (hb : before.Calm) (ha : after.Calm) (hu : after.Unwinds) :
    Tells M d (Run.deeper n before after m) :=
  Obeys.deeper h fun _ _ _ _ ht => ht.deeper hM hb ha hu

end Run

namespace Parser

variable {p : Parser τ φ ν ε} {stop k : Option (Stop τ φ ν ε)} {d : Nat}
  {s s' t t' : Session τ φ ν ε} {expected : Option φ} {found : Option τ}

theorem Relays.traced (h : p.Relays stop s' expected found t) (hs : s.Adds Event.Calm s')
    (ht : t.Adds Event.Unwinds t') : p.Relays stop s expected found t' := by
  obtain ⟨hc, hq, before, run, inside, offers, behind⟩ := h
  exact ⟨hc, hq, hs.trans before, run, inside, offers, behind.trans ht⟩

theorem relays_traced : Origin.Traced (p.Relays stop) where
  trace hs h ht _ := h.traced hs (ht.weaken fun _ he => he.2)

theorem misses_traced : Origin.Traced (p.Misses stop k) where
  trace hs h ht hcursor := by
    cases h with
    | own h offers =>
      exact .own ((hs.trans h).trans (ht.weaken fun _ he => he.1)) (hcursor ▸ offers)
    | relayed h => exact .relayed (h.traced hs (ht.weaken fun _ he => he.2))

theorem tells_carries {M : Origin τ φ ν ε} (hM : M.Traced) : p.Carries (Run.Tells M) where
  steps := Run.obeys_composes (Session.Tells.chains hM)
  depth := .depth
  peek := Run.tells_reading _
  report _ hr := Run.tells_throw fun _ _ h => hr _ _ (Failure.report.inj h)
  entered h := h.deeper hM (by simp [Event.Calm]) (by simp [Event.Calm]) (.left _)

/-- A separator is reported missing where something else is offered. -/
theorem missing_tells {f : Frame τ φ ν ε} (h : s.cursor.Offers k found) :
    s.Tells (p.Misses stop k) (failure? (f.missing expected found s))
      (ending (f.missing expected found s)) := by
  cases expected with
  | none => exact ⟨rfl, .of_eq rfl⟩
  | some mark =>
    unfold Frame.missing
    dsimp only
    split
    · rintro expected found ⟨⟩
      exact .own (.of_eq rfl) h
    · exact ⟨rfl, .of_eq rfl⟩

theorem eatSeparator_tells (hG : p.grammar.Judges) (hk : ∀ test ∈ k, ∀ t, (test t).Immediate)
    (hv : Run.Tells (p.Misses stop k) d (p.frameAt d k).visible)
    (hs : ∀ expected t, Run.Tells (p.Misses stop k) d ((p.frameAt d k).separates expected t))
    (expected : Option φ) :
    Run.Tells (p.Misses stop k) d ((p.frameAt d k).eatSeparator expected) := by
  have chains : Outcome.Chains (Session.Tells (p.Misses stop k)) :=
    Session.Tells.chains misses_traced
  have steps : Run.Composes (Run.Tells (p.Misses stop k) d) := Run.obeys_composes chains
  intro s hd
  refine chains.run (hv s hd) fun o t hvisible hquiet => ?_
  have offers : t.cursor.Offers k o := Frame.visible_offers hk hvisible
  cases o with
  | none => exact missing_tells offers
  | some x =>
    have hdt : t.depth = d := hquiet.depth.trans hd
    refine chains.run (hs expected x t hdt) fun yes u hsep hquiet => ?_
    cases yes with
    | false =>
      rw [← Frame.separates_cursor (f := p.frameAt d k) hG hsep] at offers
      exact missing_tells offers
    | true =>
      exact steps.andThen (Run.tells_record (by simp [Event.Calm])) (fun _ =>
        steps.andThen (steps.consume (Run.tells_reading _)) fun _ => steps.pure (some x)) u
        (hquiet.depth.trans hdt)

/-- A report that leaves a callback comes from a run that it has asked for. -/
theorem tells_calling {c : Call τ φ ν} {m : Run τ φ ν ε α} (h : Run.Tells (p.Relays stop) d m) :
    Run.Tells (p.Misses stop k) d (p.calling c m) := by
  have called (s : Session τ φ ν ε) : s.Adds Event.Calm (s.record (.called c)) :=
    (Session.Adds.of_eq rfl).record (by simp [Event.Calm])
  refine h.calling (fun s t _ ht => ⟨ht.depth, (called s).trans ht.log⟩) fun s f t _ _ ht => ?_
  intro expected found hf
  cases f with
  | report r =>
    have failed : t.Adds Event.Unwinds (t.record .failed) := (Session.Adds.of_eq rfl).record .failed
    exact .relayed ((ht expected found hf).traced (called s) failed)
  | exhausted => cases hf
  | other c => cases hf

/-- What a run reports by itself is relayed by the callback that has asked for the run. -/
theorem tells_within {c : Call τ φ ν} {callback : Callback τ φ ν ε α} {q : Request τ φ ε}
    (hc : p.Asks stop c callback) (hq : callback.Requests q)
    (h : Run.Tells (p.Misses stop (q.stop.map StopTest.toStop)) d
      (p.reentry (p.innerAt d) q.goal q.stop)) :
    Run.Tells (p.Relays stop) d (Run.within q.source (p.reentry (p.innerAt d) q.goal q.stop)) := by
  intro s hs
  have hm := h { s with side := q.source } hs
  unfold Run.within
  cases hrun : p.reentry (p.innerAt d) q.goal q.stop { s with side := q.source } with
  | ok a t =>
    rw [hrun] at hm
    exact ⟨hm.depth, hm.log⟩
  | error f t =>
    rw [hrun] at hm
    rintro expected found rfl
    cases hm expected found rfl with
    | own inside offers => exact ⟨hc, hq, .of_eq rfl, hs ▸ hrun, inside, offers, .of_eq rfl⟩
    | relayed hr => exact hr.traced (.of_eq rfl) (.of_eq rfl)

theorem misses_pervades (hG : p.grammar.Judges) (hF : p.grammar.Confined Failure.Joined)
    (hstop : ∀ test ∈ stop, ∀ t, (test t).Immediate)
    (hcalm : ∀ test ∈ stop, ∀ t, (test t).Confined Failure.Joined) :
    p.Pervades stop (fun k => Run.Tells (p.Misses stop k)) (Run.Tells (p.Relays stop)) where
  carries := tells_carries misses_traced
  remaining := .remaining
  leading _ _ _ := Run.tells_record (by simp [Event.Calm])
  continuing _ _ _ _ := Run.tells_record (by simp [Event.Calm])
  eatSeparator hk hv hs := eatSeparator_tells hG (fun test htest t =>
    (hk test htest t).immediate hstop rfl) hv hs
  next := Run.tells_reading _
  body _ h := h.deeper misses_traced (by simp [Event.Calm]) (by simp [Event.Calm]) .closed
  call _ h := tells_calling h
  value := (tells_carries (p := p) relays_traced).steps.pure
  raise hc hf := Run.tells_throw ((hc.confined hF hcalm).raises hf)
  andThen := (tells_carries (p := p) relays_traced).steps.andThen
  take := Run.tells_take
  request hc hq ho := by
    refine tells_within hc hq ?_
    rw [p.reentry_innerAt]
    exact (tells_carries misses_traced).entering
      (fun _ => Run.tells_throw (by simp [Failure.Joined])) fun rbp _ => ho rbp

end Parser

namespace Report

/-- The words for what has been found are not made up from those before them. -/
theorem found_suffix_iff {before after : List Char} :
    "found end of input".toList <:+ before ++ ("found ".toList ++ after) ↔
      "found end of input".toList <:+ "found ".toList ++ after := by
  refine ⟨fun h => ?_, fun h => h.trans (List.suffix_append _ _)⟩
  by_cases hlen : "found end of input".toList.length ≤ ("found ".toList ++ after).length
  · exact List.suffix_of_suffix_length_le h (List.suffix_append _ _) hlen
  -- otherwise the words would begin again before their end
  · have hs : "found ".toList ++ after <:+ "found end of input".toList :=
      List.suffix_of_suffix_length_le (List.suffix_append _ _) h (by omega)
    have again : ∀ n < 13, 0 < n →
        ("found end of input".toList.drop n).take 6 ≠ "found ".toList := by decide +kernel
    have hfound : "found ".toList.length = 6 := by decide +kernel
    have hend : "found end of input".toList.length = 18 := by decide +kernel
    rw [hend, List.length_append, hfound] at hlen
    have hdrop := List.suffix_iff_eq_drop.mp hs
    rw [hend, List.length_append, hfound] at hdrop
    refine absurd ?_ (again (18 - (6 + after.length)) (by omega) (by omega))
    rw [← hdrop, ← hfound, List.take_left]

variable [Worded τ] [Worded φ] [Described ε]

theorem toList_message (expected : Option φ) (found : Option τ) :
    (missingInterfix expected found : Report τ φ ε).message.toList =
      ("Expected " ++ textOr "a separator" expected ++ ", ").toList ++
        ("found ".toList ++ (textOr "end of input" found).toList) := by
  have hcomma : ", found ".toList = ", ".toList ++ "found ".toList := by decide +kernel
  unfold message
  rw [String.toList_append, String.toList_append, hcomma, List.append_assoc, List.append_assoc,
    ← List.append_assoc, ← String.toList_append]

/-- The report tells of the end of the input where nothing has been found, and of a token that is
null or whose own words end like that. -/
theorem ends_iff (expected : Option φ) (found : Option τ) :
    "found end of input".toList <:+
        (missingInterfix expected found : Report τ φ ε).message.toList ↔
      found = none ∨ ∃ t, found = some t ∧ (Worded.isNull t = true ∨
        "found end of input".toList <:+ "found ".toList ++ (Worded.text t).toList) := by
  have absent : "found end of input".toList <:+ "found ".toList ++ "end of input".toList := by
    decide +kernel
  rw [toList_message, found_suffix_iff]
  cases found with
  | none => exact iff_of_true absent (.inl rfl)
  | some t =>
    cases hnull : Worded.isNull t with
    | true =>
      simp only [textOr, hnull, ↓reduceIte]
      exact iff_of_true absent (.inr ⟨t, rfl, .inl hnull⟩)
    | false => simp [textOr, hnull]

/-- Any other token is told by its words. -/
theorem ends_text (expected : Option φ) {t : τ} (h : Worded.isNull t = false) :
    (Worded.text t).toList <:+
      (missingInterfix expected (some t) : Report τ φ ε).message.toList := by
  rw [toList_message, ← List.append_assoc]
  simp only [textOr, h, Bool.false_eq_true, ↓reduceIte]
  exact List.suffix_append _ _

end Report

/-- A separator is reported missing by a run in which nothing else has failed, and what that run
could take next is what has been found. The words for it end like those for the end of the input if
there was nothing to take, and also if there was a null token; any other token is told by its own
words. -/
theorem Parser.parseUntil_missing [Worded τ] [Worded φ] [Described ε] {p : Parser τ φ ν ε}
    (hG : p.grammar.Judges) (hF : p.grammar.Confined Failure.Joined) {stop : Option (Stop τ φ ν ε)}
    (hstop : ∀ test ∈ stop, ∀ t, (test t).Immediate ∧ (test t).Confined Failure.Joined) {rbp : Int}
    {s t : Session τ φ ν ε} {expected : Option φ} {found : Option τ}
    (h : p.parseUntil rbp stop s = .error (.report (.missingInterfix expected found)) t) :
    p.Misses stop stop s expected found t ∧
      ("found end of input".toList <:+
          (.missingInterfix expected found : Report τ φ ε).message.toList ↔
        found = none ∨ ∃ x, found = some x ∧ (Worded.isNull x = true ∨
          "found end of input".toList <:+ "found ".toList ++ (Worded.text x).toList)) ∧
      ∀ x, found = some x → Worded.isNull x = false →
        (Worded.text x).toList <:+
          (.missingInterfix expected found : Report τ φ ε).message.toList := by
  refine ⟨?_, Report.ends_iff expected found, ?_⟩
  · have pervades := misses_pervades hG hF (fun test htest t => (hstop test htest t).1)
      fun test htest t => (hstop test htest t).2
    have tells : Run.Tells (p.Misses stop stop) s.depth (p.parseUntil rbp stop) :=
      pervades.parseUntil s.depth fun _ => Run.tells_throw (by simp [Failure.Joined])
    have told := tells s rfl
    rw [h] at told
    exact told expected found rfl
  · rintro x rfl hx
    exact Report.ends_text expected hx

namespace Table

theorem grammar_judges (table : Table) : table.grammar.Judges where
  query t := ⟨_, table.query_eq_verdict t⟩
  isFollow t mark := by
    change (table.answer .isFollow t (.value (table.accepts t mark))).Immediate
    unfold answer
    split
    · exact ⟨.error _, rfl⟩
    · exact ⟨.ok _, rfl⟩

/-- A condition, and a token where its first branch is to begin. -/
def branchless (t : Symbol) : List Symbol := [.word "if", .word "a", t]

/-- What stands there is told, and the end of the input where the stop predicate holds of it. -/
theorem parseUntil_missing_conditional :
    (∃ t, (conditional.parser ⟨true, false, 5, by decide⟩).parseUntil 0 none
          (.start (.ofTokens (branchless (.word "b")))) =
        .error (.report (.missingInterfix (some (.word "then")) (some (.word "b")))) t ∧
      (conditional.parser ⟨true, false, 5, by decide⟩).Misses none none
        (.start (.ofTokens (branchless (.word "b")))) (some (.word "then")) (some (.word "b")) t ∧
      "'b'".toList <:+ (.missingInterfix (some (.word "then")) (some (.word "b")) :
        Report Symbol Symbol Fault).message.toList) ∧
    ∃ t, (conditional.parser ⟨true, false, 5, by decide⟩).parseUntil 0
          (some (Stop.ofPredicate fun s => s = .word ";"))
          (.start (.ofTokens (branchless (.word ";")))) =
        .error (.report (.missingInterfix (some (.word "then")) none)) t ∧
      "found end of input".toList <:+ (.missingInterfix (some (.word "then")) none :
        Report Symbol Symbol Fault).message.toList := by
  have hF : conditional.grammar.Confined Failure.Joined :=
    conditional.grammar_confined (by simp [conditional]) (by simp [Failure.Joined])
      (by simp [Failure.Joined])
  constructor
  · have hfails : failure? ((conditional.parser ⟨true, false, 5, by decide⟩).parseUntil 0 none
        (.start (.ofTokens (branchless (.word "b"))))) =
          some (.report (.missingInterfix (some (.word "then")) (some (.word "b")))) := by
      decide +kernel
    obtain ⟨t, ht⟩ := failure?_eq_some.mp hfails
    obtain ⟨hmisses, -, htext⟩ := Parser.parseUntil_missing
      (p := conditional.parser ⟨true, false, 5, by decide⟩) conditional.grammar_judges hF
      (by simp) ht
    exact ⟨t, ht, hmisses, htext (.word "b") rfl rfl⟩
  · have hfails : failure? ((conditional.parser ⟨true, false, 5, by decide⟩).parseUntil 0
        (some (Stop.ofPredicate fun s => s = .word ";"))
        (.start (.ofTokens (branchless (.word ";"))))) =
          some (.report (.missingInterfix (some (.word "then")) none)) := by
      decide +kernel
    obtain ⟨t, ht⟩ := failure?_eq_some.mp hfails
    have hstop : ∀ test ∈ some (Stop.ofPredicate fun s => s = Symbol.word ";"), ∀ t,
        (test t : Answer Bool).Immediate ∧ (test t).Confined Failure.Joined := by
      rintro test ⟨⟩ t
      exact ⟨⟨.ok _, rfl⟩, .value _⟩
    obtain ⟨-, hends, -⟩ := Parser.parseUntil_missing
      (p := conditional.parser ⟨true, false, 5, by decide⟩) conditional.grammar_judges hF hstop ht
    exact ⟨t, ht, hends.mpr (.inl rfl)⟩

/-- A null token that stands there can be taken, and it is told as the end of the input. -/
theorem parseUntil_missing_null :
    ∃ t, (conditional.parser ⟨true, false, 5, by decide⟩).parseUntil 0 none
          (.start (.ofTokens (branchless .null))) =
        .error (.report (.missingInterfix (some (.word "then")) (some .null))) t ∧
      t.cursor.items = [.token .null] ∧
      t.cursor.Offers (none : Option (Stop Symbol Symbol Node Fault)) (some .null) ∧
      ¬t.cursor.Offers (none : Option (Stop Symbol Symbol Node Fault)) none ∧
      (.missingInterfix (some (.word "then")) (some .null) : Report Symbol Symbol Fault).message =
        "Expected 'then', found end of input" := by
  have hfails : failure? ((conditional.parser ⟨true, false, 5, by decide⟩).parseUntil 0 none
      (.start (.ofTokens (branchless .null)))) =
        some (.report (.missingInterfix (some (.word "then")) (some .null))) := by
    decide +kernel
  have hitems : (ending ((conditional.parser ⟨true, false, 5, by decide⟩).parseUntil 0 none
      (.start (.ofTokens (branchless .null))))).cursor.items = [.token .null] := by
    decide +kernel
  obtain ⟨t, ht⟩ := failure?_eq_some.mp hfails
  rw [ht] at hitems
  change t.cursor.items = [.token .null] at hitems
  have hoffers : t.cursor.Offers (none : Option (Stop Symbol Symbol Node Fault)) (some .null) :=
    .next (by rw [hitems]; rfl) (by simp)
  refine ⟨t, ht, hitems, hoffers, fun h => ?_, by decide +kernel⟩
  cases h.unique hoffers

end Table

end BindingPower
