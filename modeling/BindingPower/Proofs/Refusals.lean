import BindingPower.Proofs.Conduct

/-! # Refusals

Where a token is refused, an operand was to start. What follows a complete operand and cannot
continue it is never used as an operator: it ends the loops that come to it and stays where it is,
unless it separates operands or starts the next one of an operator that has several. -/
namespace BindingPower

variable {τ φ ν ε α β : Type}

/-- A callback fails only in the ways of the predicate, and so do the tests that it hands over. -/
inductive Callback.Confined (F : Failure τ φ ε → Prop) : Callback τ φ ν ε α → Prop where
  | value (a : α) : Confined F (.value a)
  | fail {f : Failure τ φ ε} (h : F f) : Confined F (.fail f)
  | parse {q : Request τ φ ε} {next : ν → Cursor τ ε → Callback τ φ ν ε α}
    (ht : ∀ test ∈ q.stop, ∀ t f, test t = .error f → F f) (h : ∀ v c, Confined F (next v c)) :
    Confined F (.parse q next)
  | take {next : Option τ → Callback τ φ ν ε α} (h : ∀ t, Confined F (next t)) :
    Confined F (.take next)

structure Grammar.Confined (F : Failure τ φ ε → Prop) (G : Grammar τ φ ν ε) : Prop where
  query : ∀ t, (G.query t).Confined F
  nullary : ∀ t, (G.nullary t).Confined F
  unary : ∀ t x, (G.unary t x).Confined F
  binary : ∀ t x y, (G.binary t x y).Confined F
  ternary : ∀ t x y z, (G.ternary t x y z).Confined F
  isFollow : ∀ t e, (G.isFollow t e).Confined F

namespace Callback.Confined

variable {F : Failure τ φ ε → Prop} {callback : Callback τ φ ν ε α}

theorem raises (h : callback.Confined F) {f : Failure τ φ ε} (hr : callback.Raises f) : F f := by
  induction hr with
  | here =>
    cases h with
    | fail hf => exact hf
  | later _ ih =>
    cases h with
    | parse _ hnext => exact ih (hnext _ _)
  | taken _ ih =>
    cases h with
    | take hnext => exact ih (hnext _)

theorem requests (h : callback.Confined F) {q : Request τ φ ε} (hq : callback.Requests q) :
    ∀ test ∈ q.stop, ∀ t f, test t = .error f → F f := by
  induction hq with
  | here =>
    cases h with
    | parse ht _ => exact ht
  | later _ ih =>
    cases h with
    | parse _ hnext => exact ih (hnext _ _)
  | taken _ ih =>
    cases h with
    | take hnext => exact ih (hnext _)

theorem bind (h : callback.Confined F) {k : α → Callback τ φ ν ε β} (hk : ∀ a, (k a).Confined F) :
    (callback >>= k).Confined F := by
  induction h with
  | value a => exact hk a
  | fail hf => exact .fail hf
  | parse ht _ ih => exact .parse ht ih
  | take _ ih => exact .take ih

theorem ofExcept {r : Except (Failure τ φ ε) α} (h : ∀ f, r = .error f → F f) :
    (Callback.ofExcept r : Callback τ φ ν ε α).Confined F := by
  cases r with
  | ok a => exact .value a
  | error f => exact .fail (h f rfl)

end Callback.Confined

/-- All that is asked in a run fails only in the ways of the grammar and of the stop predicate. -/
theorem Parser.Asks.confined {p : Parser τ φ ν ε} {stop : Option (Stop τ φ ν ε)}
    {F : Failure τ φ ε → Prop} (hG : p.grammar.Confined F)
    (hstop : ∀ test ∈ stop, ∀ t, (test t).Confined F) {c : Call τ φ ν}
    {callback : Callback τ φ ν ε α} (h : p.Asks stop c callback) : callback.Confined F := by
  induction h with
  | query t => exact hG.query t
  | nullary t => exact hG.nullary t
  | unary t x => exact hG.unary t x
  | binary t x y => exact hG.binary t x y
  | ternary t x y z => exact hG.ternary t x y z
  | isFollow t mark => exact hG.isFollow t mark
  | stop h t => exact hstop _ h t
  | requested _ hq ht t ih => exact .ofExcept fun f hf => ih.requests hq _ ht t f hf

/-- What separates is combined with nothing. -/
theorem Affix.parts?_of_combine? {a b c : Affix} (h : combine? a b = some c)
    (hi : a = .interfix ∨ b = .interfix) : c.parts? = none := by
  rcases hi with rfl | rfl
  · cases b <;> cases h
    rfl
  · cases a <;> cases h
    rfl

theorem Affix.eq_interfix_of_leading {a : Affix} (h : a.leading = .interfix) : a = .interfix := by
  cases a <;> cases h
  rfl

theorem Affix.unfitToLead_eq_some {a : Affix} {kind : Misfit} (h : a.unfitToLead = some kind) :
    kind = .postfixed ∨ kind = .infixed ∨ kind = .interfix ∧ a = .interfix := by
  cases a <;> cases h <;> simp

namespace Operator

/-- A separator shares its token with no other operator. -/
theorem ne_interfix_of_either {a b op : Operator φ} (h : either a b = .ok op) :
    a.affix ≠ .interfix ∧ b.affix ≠ .interfix := by
  unfold either at h
  split at h
  · cases h
  · rename_i hc
    split at h
    · cases h
    · rename_i hparts
      rw [← not_or]
      intro hi
      simp [Affix.parts?_of_combine? hc hi] at hparts

/-- Only what is nothing but a separator would start an expression as one. -/
theorem Formed.affix_of_starting {op : Operator φ} (h : op.Formed)
    (hs : op.starting.affix = .interfix) : op.affix = .interfix := by
  induction h with
  | shape s =>
    unfold ofShape at hs ⊢
    split
    · rw [if_pos ‹_›] at hs
      exact Affix.eq_interfix_of_leading hs
    · rwa [if_neg ‹_›] at hs
  | @both a b op ha hb he iha ihb =>
    have hne := ne_interfix_of_either he
    -- the part that leads may itself have two parts
    have part {l : Operator φ} (hl : l.Formed) (hl' : l.leading.affix = .interfix) :
        l.starting.affix = .interfix := by rw [hl.starting_eq (by rw [hl']; rfl), hl']
    obtain ⟨s, l, c, rfl, -, ⟨rfl, -⟩ | ⟨rfl, -⟩⟩ := either_dual he
    · exact absurd (iha (part ha hs)) hne.1
    · exact absurd (ihb (part hb hs)) hne.2

/-- An operator that cannot continue an expression binds no tighter than anything. -/
theorem Formed.leftPower_eq_bottom {op : Operator φ} (h : op.Formed)
    (hu : op.affix = .nilfix ∨ op.affix = .prefixed ∨ op.affix = .circumfix ∨
      op.affix = .interfix) : op.leftPower = .bottom := by
  obtain ⟨s, rfl⟩ := h.eq_single (by rcases hu with ha | ha | ha | ha <;> rw [ha] <;> rfl)
  rcases hu with ha | ha | ha | ha <;> simp only [leftPower, continuing_single, ha]

/-- What has a power on the left is fit to continue an expression. -/
theorem Formed.affix_extending {op : Operator φ} (h : op.Formed)
    (ha : op.continuing.affix = .infixed ∨ op.continuing.affix = .postfixed) :
    op.extending.affix = .infixed ∨ op.extending.affix = .postfixed := by
  rwa [h.extending_eq (by rcases ha with ha | ha <;> rw [ha] <;> rfl)]

end Operator

/-- A loop that comes to a token which the powers do not admit ends in front of it. -/
theorem Frame.continued_of_refused {f : Frame τ φ ν ε} {rbp nbp : Precedence} {n : Nat} {lhs : ν}
    {s t u : Session τ φ ν ε} {head : τ} {op : Operator φ} (hv : f.visible s = .ok (some head) t)
    (hq : f.query head t = .ok op u) (ha : f.parser.admits rbp op.leftPower nbp = false) :
    f.continued rbp (n + 1) nbp lhs s = .ok lhs u := by
  refine (bind_of_ok hv _).trans ((bind_of_ok hq _).trans ?_)
  rw [ha]
  rfl

/-- A loop that comes to a token which cannot continue its expression ends in front of it. -/
theorem Frame.continued_of_unfit {f : Frame τ φ ν ε} (ha : f.parser.admits = between)
    {rbp nbp : Precedence} {n : Nat} {lhs : ν} {s t u : Session τ φ ν ε} {head : τ}
    {op : Operator φ} (hv : f.visible s = .ok (some head) t) (hq : f.query head t = .ok op u)
    (hop : op.leftPower = .bottom) : f.continued rbp (n + 1) nbp lhs s = .ok lhs u := by
  refine continued_of_refused hv hq ?_
  rw [ha, hop]
  simp [between, Precedence.lt_iff, Precedence.bottom]

/-- The failure is no report on a token that stands where it does not fit. -/
def Failure.Apart (f : Failure τ φ ε) : Prop := ∀ kind t, f ≠ .report (.misfit kind t)

/-- Where tokens are used, as far as it goes by the log. Only an operator with several operands has
one opened behind a complete one, and only what is infixed or postfixed continues an operand. -/
structure Log.Orderly (G : Grammar τ φ ν ε) (log : Log τ φ ν) : Prop where
  opens : ∀ {d : Nat} {moment : Log τ φ ν}, (d, .opened) :: moment <:+ log →
    ∃ task T, moment.Leaves G (task :: T) ∧ task.Awaits ∧ (0 < task.complete → task.role.Mixfix)
  leads : ∀ {d : Nat} {affix : Affix} {arity : Arity} {t : τ} {moment : Log τ φ ν},
    (d, .leading affix arity t) :: moment <:+ log → ∃ T, moment.Leaves G (.start .operand :: T)
  continues : ∀ {d : Nat} {affix : Affix} {arity : Arity} {t : τ} {moment : Log τ φ ν},
    (d, .continuing affix arity t) :: moment <:+ log → (affix = .infixed ∨ affix = .postfixed) ∧
      ∃ task T, moment.Leaves G (task :: T) ∧ task.Complete
  separates : ∀ {d : Nat} {t : τ} {moment : Log τ φ ν}, (d, .separator t) :: moment <:+ log →
    ∃ task T op, moment.Leaves G (task :: T) ∧ 0 < task.complete ∧ (G.query t).Returns op ∧
      op.affix.isSeparator = true

namespace Log

variable {G : Grammar τ φ ν ε} {log moment : Log τ φ ν} {T : List (Task τ)} {d : Nat}
  {e : Event τ φ ν}

/-- Every event of a log has changed the tasks that there were before it. -/
theorem Leaves.turned (h : log.Leaves G T) (hs : (d, e) :: moment <:+ log) :
    ∃ U U', moment.Leaves G U ∧ e.Turns G U U' := by
  induction h with
  | start => simp at hs
  | step h he ih =>
    rcases List.suffix_cons_iff.mp hs with heq | hs
    · cases heq
      exact ⟨_, _, h, he⟩
    · exact ih hs

theorem Leaves.orderly (hform : ∀ t op, (G.query t).Returns op → op.Formed) (h : log.Leaves G T) :
    log.Orderly G where
  opens hs := by
    obtain ⟨U, U', hU, ht⟩ := h.turned hs
    cases ht with
    | opened ha => exact ⟨_, _, hU, ha, ha.mixfix⟩
  leads hs := by
    obtain ⟨U, U', hU, ht⟩ := h.turned hs
    cases ht with
    | leading hq => exact ⟨_, hU⟩
  continues hs := by
    obtain ⟨U, U', hU, ht⟩ := h.turned hs
    cases ht with
    | continuing hc hq ha => exact ⟨(hform _ _ hq).affix_extending ha, _, _, hU, hc⟩
  separates hs := by
    obtain ⟨U, U', hU, ht⟩ := h.turned hs
    cases ht with
    | separator hn hq hsep => exact ⟨_, _, _, hU, hn, hq, hsep⟩

end Log

namespace Table

variable (table : Table) {F : Failure Symbol Symbol Fault → Prop}

theorem failure_of_planted? (hp : ∀ plant ∈ table.plants, F plant.failure) {kind : CallKind}
    {t : Symbol} {f : Failure Symbol Symbol Fault} (h : table.planted? kind t = some f) : F f := by
  obtain ⟨plant, hplant, rfl⟩ := Option.map_eq_some_iff.mp h
  exact hp plant (List.mem_of_find?_eq_some hplant)

theorem answer_confined (hp : ∀ plant ∈ table.plants, F plant.failure) {kind : CallKind}
    {t : Symbol} {body : Answer α} (h : body.Confined F) : (table.answer kind t body).Confined F := by
  unfold answer
  split
  · exact .fail (table.failure_of_planted? hp ‹_›)
  · exact h

theorem stopAt_confined (hp : ∀ plant ∈ table.plants, F plant.failure) (symbols : List Symbol)
    (t : Symbol) {f : Failure Symbol Symbol Fault} (h : table.stopAt symbols t = .error f) : F f := by
  unfold stopAt at h
  split at h
  · cases h
    exact table.failure_of_planted? hp ‹_›
  · cases h

theorem readGroup_confined (hp : ∀ plant ∈ table.plants, F plant.failure)
    (hfault : ∀ e, F (.other (.fault e))) (hrest : ∀ t, F (.report (.trailingInput t)))
    (items : List Symbol) : (table.readGroup items).Confined F := by
  have tests (symbols : Option (List Symbol)) : ∀ test ∈ symbols.map table.stopAt, ∀ t f,
      test t = .error f → F f := by
    intro test htest t f
    obtain ⟨symbols, -, rfl⟩ := Option.map_eq_some_iff.mp htest
    exact table.stopAt_confined hp symbols t
  have group (goal : Goal) {stop : Option (StopTest Symbol Symbol Fault)}
      (h : ∀ test ∈ stop, ∀ t f, test t = .error f → F f) :
      (Callback.group (items.map item) goal stop : Answer (Node × Cursor Symbol Fault)).Confined F :=
    .parse h fun v c => .value (v, c)
  have ending (c : Cursor Symbol Fault) : (Callback.requireEnd c : Answer Unit).Confined F := by
    unfold Callback.requireEnd
    split
    · exact .fail (hfault _)
    · exact .value ()
    · exact .fail (hrest _)
  unfold readGroup
  split
  · exact (group _ (by simp)).bind fun _ => .value _
  · exact (group _ (tests _)).bind fun _ => .value _
  · exact (group _ (tests _)).bind fun x => (ending x.2).bind fun _ => .value _

/-- The callbacks of a table fail as it says, or as a stream does that is not read to its end. -/
theorem grammar_confined (hp : ∀ plant ∈ table.plants, F plant.failure)
    (hfault : ∀ e, F (.other (.fault e))) (hrest : ∀ t, F (.report (.trailingInput t))) :
    table.grammar.Confined F where
  query t := by
    refine table.answer_confined hp ?_
    unfold classify
    split
    · split
      · exact .value _
      · split
        · exact .value _
        · exact .fail (hfault _)
    · exact .value _
  nullary t := by
    refine table.answer_confined hp ?_
    unfold readLeaf
    split
    · exact table.readGroup_confined hp hfault hrest _
    · split
      · refine .parse ?_ fun v c => .take fun o => ?_
        · rintro test ⟨⟩
          exact fun t f => table.stopAt_confined hp _ t
        · cases o with
          | none => exact .fail (hfault _)
          | some t => exact .value _
      · exact .value _
    · exact .value _
  unary t x := table.answer_confined hp (.value _)
  binary t l r := table.answer_confined hp (.value _)
  ternary t x y z := table.answer_confined hp (.value _)
  isFollow t mark := table.answer_confined hp (.value _)

end Table

namespace Parser

/-- A token is only refused where it has been taken to start an operand, and as a separator only if
it is nothing else. -/
theorem Explains.refused {p : Parser τ φ ν ε} {stop : Option (Stop τ φ ν ε)} {d : Nat}
    {T : List (Task τ)} {kind : Misfit} {t : τ} (h : p.Explains stop d T (.misfit kind t))
    (hT : ∀ task ∈ T, task.role.Backed p.grammar)
    (hform : ∀ t op, (p.grammar.query t).Returns op → op.Formed)
    (hG : p.grammar.Confined Failure.Apart)
    (hstop : ∀ test ∈ stop, ∀ t, (test t).Confined Failure.Apart) :
    (kind = .postfixed ∨ kind = .infixed ∨ kind = .interfix) ∧
      ∃ op U, (p.grammar.query t).Returns op ∧
        T = .start (.leading op.starting.affix op.starting.arity t) :: U ∧
        op.starting.affix.unfitToLead = some kind ∧ (kind = .interfix → op.affix = .interfix) := by
  cases h with
  | @leading affix arity t kind U hu =>
    have hrole : Role.Backed p.grammar (.leading affix arity t) :=
      hT (.start (.leading affix arity t)) List.mem_cons_self
    cases hrole with
    | leading hq =>
      have hkind := Affix.unfitToLead_eq_some hu
      refine ⟨hkind.imp_right (.imp_right And.left), _, U, hq, rfl, hu, fun hi => ?_⟩
      subst hi
      exact (hform t _ hq).affix_of_starting (by simpa using hkind)
  | @continuing affix arity t kind U hu =>
    have hrole : Role.Backed p.grammar (.continuing affix arity t) :=
      hT (.start (.continuing affix arity t)) List.mem_cons_self
    cases hrole with
    | continuing hq ha =>
      rcases (hform t _ hq).affix_extending ha with ha | ha <;> simp [ha, Affix.unfitToContinue] at hu
  | raised hc hr => exact absurd rfl ((hc.confined hG hstop).raises hr kind t)

/-- Nothing but an infixed or postfixed part ever continues an operand, and nothing is refused that
does not stand where an operand starts. -/
theorem enter_refuses (config : Config) {G : Grammar τ φ ν ε}
    (hform : ∀ t op, (G.query t).Returns op → op.Formed) (hG : G.Confined Failure.Apart)
    {stop : Option (Stop τ φ ν ε)} (hstop : ∀ test ∈ stop, ∀ t, (test t).Confined Failure.Apart) :
    (∀ (e : Entry τ φ ν ε ν) (s : Session τ φ ν ε), e.Reads stop →
      ∃ (unwound log : Log τ φ ν) (T : List (Task τ)),
        (ending ((ofGrammar config G).enter e s)).log = unwound ++ (log ++ s.log) ∧
        (∀ entry ∈ unwound, entry.2.Unwinds) ∧ log.Leaves G T ∧ log.Orderly G ∧
        ∀ kind t, failure? ((ofGrammar config G).enter e s) = some (.report (.misfit kind t)) →
          (kind = .postfixed ∨ kind = .infixed ∨ kind = .interfix) ∧
          ∃ op U, (G.query t).Returns op ∧
            T = .start (.leading op.starting.affix op.starting.arity t) :: U ∧
            op.starting.affix.unfitToLead = some kind ∧
            (kind = .interfix → op.affix = .interfix)) ∧
    ∀ (f : Frame τ φ ν ε) rbp nbp n lhs s t u head op, f.parser = ofGrammar config G →
      f.visible s = .ok (some head) t → f.query head t = .ok op u →
      op.affix = .nilfix ∨ op.affix = .prefixed ∨ op.affix = .circumfix ∨ op.affix = .interfix →
      f.continued rbp (n + 1) nbp lhs s = .ok lhs u := by
  constructor
  · intro e s he
    obtain ⟨unwound, log, T, hlog, hunwinds, hleaves, hexplains⟩ :=
      enter_outcome (p := ofGrammar config G) rfl he s
    exact ⟨unwound, log, T, hlog, hunwinds, hleaves, hleaves.orderly hform, fun kind t hfails =>
      (hexplains _ hfails).refused hleaves.backed hform hG hstop⟩
  · intro f rbp nbp n lhs s t u head op hf hv hq hu
    have hreturns : (f.parser.grammar.query head).Returns op := ⟨_, _, _, calling_eq_ok hq⟩
    rw [hf] at hreturns
    exact Frame.continued_of_unfit (by rw [hf]; rfl) hv hq
      ((hform head op hreturns).leftPower_eq_bottom hu)

end Parser

namespace Table

/-- A separator stands where the second operand is to start of the operator that it belongs to. -/
def halved : List Symbol :=
  [.word "a", .word "-", .list [.word "-", .word "b", .word "when", .word "else", .word "c"]]

/-- In a group the separator is refused, and behind an operand it ends the loop. -/
theorem enter_refuses_halved :
    (∃ (t : Session Symbol Symbol Node Fault) (log : Log Symbol Symbol Node)
        (unwound : Log Symbol Symbol Node) (U : List (Task Symbol)),
      (signs.parser .standard).enter .parse (.start (.ofTokens halved)) =
        .error (.report (.misfit .interfix (.word "else"))) t ∧
      t.log = unwound ++ log ∧ log.Orderly signs.grammar ∧
      log.Leaves signs.grammar (.start (.leading .interfix .nullary (.word "else")) :: U)) ∧
    ∃ t, ((signs.parser .standard).frameAt 1 none).continued .bottom 1 .top (.leaf (.word "b"))
      (.start (.ofTokens [.word "else"])) = .ok (.leaf (.word "b")) t := by
  have hform (t : Symbol) (op : Operator Symbol) (h : (signs.grammar.query t).Returns op) :
      op.Formed := by
    rw [query_eq_verdict] at h
    rcases signs.verdict_eq_ok (Callback.returns_ofExcept h) with rfl | ⟨s, hs⟩
    · exact Operator.formed_single rfl
    · exact (signs_chains _ hs).formed
  have hconfined : signs.grammar.Confined Failure.Apart :=
    signs.grammar_confined (by simp [signs]) (by simp [Failure.Apart]) (by simp [Failure.Apart])
  have hstop : ∀ test ∈ (none : Option (Stop Symbol Symbol Node Fault)), ∀ t,
      (test t).Confined Failure.Apart := by simp
  obtain ⟨refused, ended⟩ := Parser.enter_refuses .standard hform hconfined hstop
  constructor
  · have hfails : failure? ((signs.parser .standard).enter .parse (.start (.ofTokens halved))) =
        some (.report (.misfit .interfix (.word "else"))) := by decide +kernel
    obtain ⟨unwound, log, T, hlog, -, hleaves, horderly, hrefused⟩ :=
      refused .parse (.start (.ofTokens halved)) .parse
    obtain ⟨-, op, U, hop, rfl, -⟩ := hrefused _ _ hfails
    rw [query_eq_verdict] at hop
    cases Callback.returns_ofExcept hop
    obtain ⟨t, ht⟩ := failure?_eq_some.mp hfails
    refine ⟨t, log, unwound, U, ht, ?_, horderly, hleaves⟩
    change (ending ((signs.parser .standard).enter .parse (.start (.ofTokens halved)))).log = _ at hlog
    rw [ht] at hlog
    simpa [ending, Session.start] using hlog
  · exact ⟨_, ended _ _ _ 0 _ _ _ _ (.word "else") .interfix rfl rfl rfl (by decide)⟩

end Table

end BindingPower
