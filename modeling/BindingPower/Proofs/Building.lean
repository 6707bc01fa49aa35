import BindingPower.Proofs.Advancing
import BindingPower.Proofs.Spine
import Mathlib.Data.List.Perm.Subperm

/-! # The order in which nodes are built

A tree is built from its leaves up: every operand before the node that it belongs to, and every node
once. A run that fails has built some trees to the end, each in that order, out of tokens that it
has consumed. -/
namespace BindingPower

variable {τ φ ν ε α β : Type}

def Call.builds : Call τ φ ν → Bool
  | nullary _ => true
  | unary _ _ => true
  | binary _ _ _ => true
  | ternary _ _ _ _ => true
  | _ => false

/-- The call that builds a node. -/
def Event.build? : Event τ φ ν → Option (Call τ φ ν)
  | called c => if c.builds then some c else none
  | _ => none

namespace Session

/-- The calls that have built nodes, from the oldest to the newest. -/
def builds (s : Session τ φ ν ε) : List (Call τ φ ν) := s.events.filterMap Event.build?

theorem builds_record (s : Session τ φ ν ε) (e : Event τ φ ν) :
    (s.record e).builds = s.builds ++ e.build?.toList := by
  simp only [builds, events, record, List.map_cons, List.reverse_cons, List.filterMap_append,
    List.filterMap_cons, List.filterMap_nil]
  cases e.build? <;> rfl

theorem builds_record_of_none (s : Session τ φ ν ε) {e : Event τ φ ν} (h : e.build? = none) :
    (s.record e).builds = s.builds := by
  rw [builds_record, h]
  exact List.append_nil _

theorem builds_withCursor (s : Session τ φ ν ε) (c : Cursor τ ε) :
    (s.withCursor c).builds = s.builds := by
  rw [builds, builds, events, events, log_withCursor]

end Session

namespace Tree

/-- The calls that build a tree: those for its operands in order, then the one for the node. -/
def postorder : Tree τ → List (Call τ φ (Tree τ))
  | leaf t => [.nullary t]
  | unary t x => x.postorder ++ [.unary t x]
  | binary t l r => l.postorder ++ r.postorder ++ [.binary t l r]
  | ternary t a b c => a.postorder ++ b.postorder ++ c.postorder ++ [.ternary t a b c]

/-- The tokens of the leaves and of the operators, in the order of the calls. -/
def heads : Tree τ → List τ
  | leaf t => [t]
  | unary t x => x.heads ++ [t]
  | binary t l r => l.heads ++ r.heads ++ [t]
  | ternary t a b c => a.heads ++ b.heads ++ c.heads ++ [t]

end Tree

/-- The calls have built the trees that are done. Their tokens and those that are taken for nodes
still to be built are among the tokens that have been consumed. -/
structure Session.Built (before : List (Call τ φ (Tree τ))) (tokens : List τ)
    (done : List (Tree τ)) (taken : List τ) (s : Session τ φ (Tree τ) ε) : Prop where
  builds : s.builds = before ++ done.flatMap Tree.postorder
  left : ∃ used rest, tokens = used ++ rest ∧ s.cursor.items = rest.map .token ∧
    (done.flatMap Tree.heads ++ taken).Subperm used

namespace Session.Built

variable {before : List (Call τ φ (Tree τ))} {tokens : List τ} {done : List (Tree τ)}
  {taken : List τ} {s t : Session τ φ (Tree τ) ε} {head : τ}

theorem of_same (h : s.Built before tokens done taken) (hb : t.builds = s.builds)
    (hi : t.cursor.items = s.cursor.items) : t.Built before tokens done taken := by
  obtain ⟨used, rest, htokens, hitems, hused⟩ := h.left
  exact ⟨hb.trans h.builds, used, rest, htokens, hi.trans hitems, hused⟩

theorem deepen (h : s.Built before tokens done taken) (n : Nat) {e : Event τ φ (Tree τ)}
    (he : e.build? = none) : ((s.deepen n).record e).Built before tokens done taken :=
  h.of_same ((s.deepen n).builds_record_of_none he) rfl

theorem surface (h : s.Built before tokens done taken) (n : Nat) {e : Event τ φ (Tree τ)}
    (he : e.build? = none) : ((s.surface n).record e).Built before tokens done taken :=
  h.of_same ((s.surface n).builds_record_of_none he) rfl

/-- A token that is consumed is taken for a node. -/
theorem take (h : s.Built before tokens done taken) (hb : t.builds = s.builds)
    (hi : s.cursor.items = .token head :: t.cursor.items) :
    t.Built before tokens done (head :: taken) := by
  obtain ⟨used, rest, htokens, hitems, hused⟩ := h.left
  rw [hi] at hitems
  cases rest with
  | nil => cases hitems
  | cons x rest =>
    rw [List.map_cons, List.cons.injEq, Item.token.injEq] at hitems
    obtain ⟨rfl, hitems⟩ := hitems
    refine ⟨hb.trans h.builds, used ++ [head], rest, ?_, hitems, ?_⟩
    · rw [htokens, List.append_assoc]
      rfl
    · have hcons : (head :: (done.flatMap Tree.heads ++ taken)).Subperm (head :: used) :=
        (List.subperm_cons head).mpr hused
      exact List.perm_middle.subperm.trans
        (hcons.trans (List.perm_append_singleton head used).symm.subperm)

/-- A token that is consumed as a separator is taken for no node. -/
theorem skip (h : s.Built before tokens done taken) (hb : t.builds = s.builds)
    (hi : s.cursor.items = .token head :: t.cursor.items) : t.Built before tokens done taken := by
  have htaken := h.take hb hi
  obtain ⟨used, rest, htokens, hitems, hused⟩ := htaken.left
  exact ⟨htaken.builds, used, rest, htokens, hitems,
    ((List.sublist_cons_self head taken).append_left _).subperm.trans hused⟩

/-- A node is built from the last trees that are done. -/
theorem build {operands : List (Tree τ)} {x : Tree τ} {c : Call τ φ (Tree τ)}
    (h : s.Built before tokens (done ++ operands) (head :: taken)) (hc : c.builds = true)
    (hpost : x.postorder = operands.flatMap Tree.postorder ++ [c])
    (hheads : x.heads = operands.flatMap Tree.heads ++ [head]) :
    (s.record (.called c)).Built before tokens (done ++ [x]) taken := by
  obtain ⟨used, rest, htokens, hitems, hused⟩ := h.left
  have hbuild : (Event.called c).build? = some c := by rw [Event.build?, if_pos hc]
  refine ⟨?_, used, rest, htokens, hitems, ?_⟩
  · rw [builds_record, hbuild, h.builds, List.flatMap_append, List.flatMap_append,
      List.flatMap_singleton, hpost, List.append_assoc, List.append_assoc]
    rfl
  · rw [List.flatMap_append, List.flatMap_singleton, hheads]
    rw [List.flatMap_append] at hused
    simpa only [List.append_assoc, List.cons_append, List.nil_append] using hused

end Session.Built

/-- What has been built and taken, and the token that is in sight. -/
def Session.BuiltAt (before : List (Call τ φ (Tree τ))) (tokens : List τ) (done : List (Tree τ))
    (taken : List τ) (o : Option τ) (s : Session τ φ (Tree τ) ε) : Prop :=
  s.Built before tokens done taken ∧ ∀ t ∈ o, s.cursor.items.head? = some (.token t)

namespace Run

/-- Whatever the run ends in, it has built nothing and left the tokens where they are. -/
def Idle (m : Run τ φ ν ε α) : Prop :=
  ∀ (s : Session τ φ ν ε) (ts : List τ), s.cursor.items = ts.map .token →
    (ending (m s)).builds = s.builds ∧ (ending (m s)).cursor.items = s.cursor.items

theorem idle_pure (a : α) : Idle (pure a : Run τ φ ν ε α) := fun _ _ _ => ⟨rfl, rfl⟩

theorem idle_report (r : Report τ φ ε) : Idle (report r : Run τ φ ν ε α) := fun _ _ _ => ⟨rfl, rfl⟩

theorem Idle.bind {m : Run τ φ ν ε α} {k : α → Run τ φ ν ε β} (hm : Idle m)
    (hk : ∀ a, Idle (k a)) : Idle (m >>= k) := by
  intro s ts hs
  have hfirst := hm s ts hs
  cases hrun : m s with
  | error f t =>
    rw [bind_of_error hrun]
    rwa [hrun] at hfirst
  | ok a t =>
    rw [bind_of_ok hrun]
    rw [hrun] at hfirst
    obtain ⟨hbuilds, hitems⟩ := hk a t ts (hfirst.2.trans hs)
    exact ⟨hbuilds.trans hfirst.1, hitems.trans hfirst.2⟩

theorem idle_peek : Idle (reading Cursor.peek : Run τ φ ν ε (Option τ)) := by
  intro s ts hs
  obtain ⟨c, hpeek, hitems, -⟩ := Cursor.peek_of_tokens hs
  simp only [reading, hpeek]
  exact ⟨s.builds_withCursor c, by rw [ending, Session.cursor_withCursor, hitems, hs]⟩

/-- A question that is answered at once builds nothing, even if it fails. -/
theorem idle_calling (p : Parser τ φ ν ε) {c : Call τ φ ν} (hc : c.builds = false)
    (enter : Goal → Option (StopTest τ φ ε) → Run τ φ ν ε ν) (r : Except (Failure τ φ ε) α) :
    Idle (p.calling c ((Callback.ofExcept r).perform enter)) := by
  intro s ts _
  have hcalled : (s.record (.called c)).builds = s.builds :=
    s.builds_record_of_none (by rw [Event.build?, if_neg (by simp [hc])])
  rw [Parser.calling_ofExcept]
  cases r with
  | ok a => exact ⟨hcalled, rfl⟩
  | error f => exact ⟨(Session.builds_record_of_none _ rfl).trans hcalled, rfl⟩

theorem idle_visible {ask : Option (τ → Run τ φ ν ε Bool)} (ha : ∀ a ∈ ask, ∀ t, Idle (a t)) :
    Idle (visible ask) := by
  refine idle_peek.bind fun o => ?_
  cases o with
  | none => exact idle_pure none
  | some t =>
    cases ask with
    | none => exact idle_pure (some t)
    | some a =>
      refine (ha a rfl t).bind fun yes => ?_
      cases yes with
      | true => exact idle_pure none
      | false => exact idle_pure (some t)

end Run

section Ledger

variable {before : List (Call τ φ (Tree τ))} {tokens : List τ} {done : List (Tree τ)}
  {taken : List τ} {head : τ}

/-- From a session of the first kind the run comes to a result and a session of the second kind. If
it fails, some trees have been built to the end and some tokens have been taken. -/
def Run.Builds (before : List (Call τ φ (Tree τ))) (tokens : List τ)
    (P : Session τ φ (Tree τ) ε → Prop) (m : Run τ φ (Tree τ) ε α)
    (Q : α → Session τ φ (Tree τ) ε → Prop) : Prop :=
  ∀ s, P s → match m s with
    | .ok a t => Q a t
    | .error _ t => ∃ done taken, t.Built before tokens done taken

namespace Run

variable {P : Session τ φ (Tree τ) ε → Prop} {Q : α → Session τ φ (Tree τ) ε → Prop}
  {R : β → Session τ φ (Tree τ) ε → Prop} {m : Run τ φ (Tree τ) ε α}

theorem builds_pure (a : α) (h : ∀ s, P s → Q a s) : Builds before tokens P (pure a) Q := h

theorem builds_report (r : Report τ φ ε) :
    Builds before tokens (Session.Built before tokens done taken) (report r) Q :=
  fun _ hs => ⟨done, taken, hs⟩

theorem Builds.bind {k : α → Run τ φ (Tree τ) ε β} (hm : Builds before tokens P m Q)
    (hk : ∀ a, Builds before tokens (Q a) (k a) R) : Builds before tokens P (m >>= k) R := by
  intro s hs
  have hfirst := hm s hs
  cases hrun : m s with
  | error f t =>
    rw [bind_of_error hrun]
    rwa [hrun] at hfirst
  | ok a t =>
    rw [bind_of_ok hrun]
    rw [hrun] at hfirst
    exact hk a t hfirst

/-- An idle run keeps what has been built, and the token that is in sight. -/
theorem Idle.builds (h : Idle m) (o : Option τ) :
    Builds before tokens (Session.BuiltAt before tokens done taken o) m
      fun _ => Session.BuiltAt before tokens done taken o := by
  intro s hs
  obtain ⟨_, rest, -, hitems, -⟩ := hs.1.left
  obtain ⟨hbuilds, hsame⟩ := h s rest hitems
  cases hrun : m s with
  | error f t =>
    rw [hrun] at hbuilds hsame
    exact ⟨done, taken, hs.1.of_same hbuilds hsame⟩
  | ok a t =>
    rw [hrun] at hbuilds hsame
    change t.cursor.items = s.cursor.items at hsame
    exact ⟨hs.1.of_same hbuilds hsame, hsame ▸ hs.2⟩

theorem Idle.keeps (h : Idle m) :
    Builds before tokens (Session.Built before tokens done taken) m
      fun _ => Session.Built before tokens done taken := by
  have hkeeps : Builds before tokens (Session.BuiltAt before tokens done taken none) m
      fun _ => Session.Built before tokens done taken := by
    rw [← bind_pure m]
    exact (h.builds none).bind fun a => builds_pure a fun _ hs => hs.1
  exact fun s hs => hkeeps s ⟨hs, by simp⟩

/-- An event that is not the building of a node. -/
theorem builds_record {e : Event τ φ (Tree τ)} (he : e.build? = none) :
    Builds before tokens (Session.Built before tokens done taken)
      (record e : Run τ φ (Tree τ) ε Unit) fun _ => Session.Built before tokens done taken :=
  Idle.keeps fun s _ _ => ⟨s.builds_record_of_none he, rfl⟩

theorem builds_visible {ask : Option (τ → Run τ φ (Tree τ) ε Bool)} (h : Idle (visible ask)) :
    Builds before tokens (Session.Built before tokens done taken) (visible ask)
      (Session.BuiltAt before tokens done taken) := by
  intro s hs
  obtain ⟨_, rest, -, hitems, -⟩ := hs.left
  obtain ⟨hbuilds, hsame⟩ := h s rest hitems
  cases hrun : visible ask s with
  | error f t =>
    rw [hrun] at hbuilds hsame
    exact ⟨done, taken, hs.of_same hbuilds hsame⟩
  | ok o t =>
    rw [hrun] at hbuilds hsame
    change t.cursor.items = s.cursor.items at hsame
    refine ⟨hs.of_same hbuilds hsame, fun x hx => ?_⟩
    rw [Option.mem_def.mp hx] at hrun
    rw [hsame]
    exact visible_head hrun

/-- The token in sight is consumed, be it for a node or as a separator. -/
theorem builds_consume {x : τ} {Q : Unit → Session τ φ (Tree τ) ε → Prop}
    (h : ∀ s t : Session τ φ (Tree τ) ε, s.Built before tokens done taken → t.builds = s.builds →
      s.cursor.items = .token x :: t.cursor.items → Q () t) :
    Builds before tokens (Session.BuiltAt before tokens done taken (some x)) consume Q := by
  intro s hs
  obtain ⟨c, hconsume, hitems⟩ := consume_of_head (hs.2 x rfl)
  rw [hconsume]
  refine h s _ hs.1 (s.builds_withCursor c) ?_
  rw [Session.cursor_withCursor, hitems]

/-- Levels are neither built nor consumed. -/
theorem Builds.deeper {n : Nat} {e e' : Event τ φ (Tree τ)} {m : Run τ φ (Tree τ) ε (Tree τ)}
    {o : Option τ}
    (hm : Builds before tokens (Session.BuiltAt before tokens done taken o) m
      fun x => Session.Built before tokens (done ++ [x]) taken)
    (he : e.build? = none) (he' : e'.build? = none) :
    Builds before tokens (Session.BuiltAt before tokens done taken o) (Run.deeper n e e' m)
      fun x => Session.Built before tokens (done ++ [x]) taken := by
  intro s hs
  have hinner := hm ((s.deepen n).record e) ⟨hs.1.deepen n he, hs.2⟩
  simp only [Run.deeper]
  generalize m ((s.deepen n).record e) = x at hinner
  cases x with
  | ok a t => exact hinner.surface n he'
  | error f t =>
    obtain ⟨done, taken, ht⟩ := hinner
    exact ⟨done, taken, ht.surface n he'⟩

end Run

/-- The operands of a frame are built one after the other, and looking for a token is idle. -/
structure Frame.Building (config : Config) (query : τ → Except (Failure τ φ ε) (Operator φ))
    (isFollow : τ → φ → Except (Failure τ φ ε) Bool) (before : List (Call τ φ (Tree τ)))
    (tokens : List τ) (f : Frame τ φ (Tree τ) ε) : Prop where
  parser : f.parser = Tree.parser config query isFollow
  visible : Run.Idle f.visible
  operand : ∀ rbp done taken,
    Run.Builds before tokens (Session.Built before tokens done taken) (f.operand rbp)
      fun x => Session.Built before tokens (done ++ [x]) taken

namespace Frame.Building

variable {config : Config} {query : τ → Except (Failure τ φ ε) (Operator φ)}
  {isFollow : τ → φ → Except (Failure τ φ ε) Bool} {f : Frame τ φ (Tree τ) ε}

theorem query_idle (h : f.Building config query isFollow before tokens) (t : τ) :
    Run.Idle (f.query t) := by
  rw [Frame.query, Frame.call, h.parser]
  exact Run.idle_calling _ rfl _ (query t)

theorem isFollow_idle (h : f.Building config query isFollow before tokens) (t : τ) (mark : φ) :
    Run.Idle (f.isFollow t mark) := by
  rw [Frame.isFollow, Frame.call, h.parser]
  exact Run.idle_calling _ rfl _ (isFollow t mark)

theorem nullary (h : f.Building config query isFollow before tokens) :
    Run.Builds before tokens (Session.Built before tokens done (head :: taken)) (f.nullary head)
      fun x => Session.Built before tokens (done ++ [x]) taken := by
  intro s hs
  rw [← List.append_nil done] at hs
  rw [Frame.nullary, Frame.call, h.parser]
  exact hs.build rfl rfl rfl

theorem unary (h : f.Building config query isFollow before tokens) (x : Tree τ) :
    Run.Builds before tokens (Session.Built before tokens (done ++ [x]) (head :: taken))
      (f.unary head x) fun y => Session.Built before tokens (done ++ [y]) taken := by
  intro s hs
  rw [Frame.unary, Frame.call, h.parser]
  exact hs.build rfl (by simp [Tree.postorder]) (by simp [Tree.heads])

theorem binary (h : f.Building config query isFollow before tokens) (l r : Tree τ) :
    Run.Builds before tokens (Session.Built before tokens (done ++ [l] ++ [r]) (head :: taken))
      (f.binary head l r) fun y => Session.Built before tokens (done ++ [y]) taken := by
  intro s hs
  rw [List.append_assoc] at hs
  rw [Frame.binary, Frame.call, h.parser]
  exact hs.build rfl (by simp [Tree.postorder]) (by simp [Tree.heads])

theorem ternary (h : f.Building config query isFollow before tokens) (a b c : Tree τ) :
    Run.Builds before tokens
      (Session.Built before tokens (done ++ [a] ++ [b] ++ [c]) (head :: taken))
      (f.ternary head a b c) fun y => Session.Built before tokens (done ++ [y]) taken := by
  intro s hs
  rw [List.append_assoc, List.append_assoc] at hs
  rw [Frame.ternary, Frame.call, h.parser]
  exact hs.build rfl (by simp [Tree.postorder]) (by simp [Tree.heads])

theorem separates (h : f.Building config query isFollow before tokens) (expected : Option φ)
    (t : τ) : Run.Idle (f.separates expected t) := by
  refine (h.query_idle t).bind fun op => ?_
  cases expected with
  | none => exact Run.idle_pure _
  | some mark =>
    dsimp only
    split
    · exact h.isFollow_idle t mark
    · exact Run.idle_pure false

theorem missing (expected : Option φ) (found : Option τ) : Run.Idle (f.missing expected found) := by
  cases expected with
  | none => exact Run.idle_pure none
  | some mark =>
    simp only [Frame.missing]
    split
    · exact Run.idle_report _
    · exact Run.idle_pure none

/-- A separator is taken for no node. -/
theorem eatSeparator (h : f.Building config query isFollow before tokens) (expected : Option φ) :
    Run.Builds before tokens (Session.Built before tokens done taken) (f.eatSeparator expected)
      fun _ => Session.Built before tokens done taken := by
  have missing (found : Option τ) :
      Run.Builds before tokens (Session.BuiltAt before tokens done taken found)
        (f.missing expected found) fun _ => Session.Built before tokens done taken := by
    rw [← bind_pure (f.missing expected found)]
    exact ((missing expected found).builds found).bind fun m =>
      Run.builds_pure m fun _ hs => hs.1
  refine (Run.builds_visible h.visible).bind fun o => ?_
  cases o with
  | none => exact missing none
  | some t =>
    refine ((h.separates expected t).builds (some t)).bind fun yes => ?_
    cases yes with
    | false => exact missing (some t)
    | true =>
      have recorded : Run.Idle (Run.record (.separator t) : Run τ φ (Tree τ) ε Unit) :=
        fun s _ _ => ⟨s.builds_record_of_none rfl, rfl⟩
      exact (recorded.builds (some t)).bind fun _ =>
        (Run.builds_consume fun _ _ hs hb hi => hs.skip hb hi).bind fun _ =>
        Run.builds_pure (some t) fun _ hs => hs

theorem nud (h : f.Building config query isFollow before tokens) (op : Operator φ) :
    Run.Builds before tokens (Session.Built before tokens done (head :: taken)) (f.nud head op)
      fun x => Session.Built before tokens (done ++ [x]) taken := by
  refine (Run.builds_record (e := .leading _ _ head) rfl).bind fun _ => ?_
  generalize op.leading.affix = affix, op.leading.arity = arity
  cases affix with
  | nilfix =>
    cases arity with
    | nullary => exact h.nullary
    | _ => exact Run.builds_report _
  | prefixed =>
    cases arity with
    | unary => exact (h.operand _ _ _).bind fun x => h.unary x
    | ternary =>
      exact (h.operand _ _ _).bind fun a => (h.eatSeparator _).bind fun _ =>
        (h.operand _ _ _).bind fun b => (h.eatSeparator _).bind fun _ =>
        (h.operand _ _ _).bind fun c => h.ternary a b c
    | _ => exact Run.builds_report _
  | circumfix =>
    cases arity with
    | unary =>
      exact (h.operand _ _ _).bind fun x => (h.eatSeparator _).bind fun _ => h.unary x
    | _ => exact Run.builds_report _
  | _ => exact Run.builds_report _

theorem led (h : f.Building config query isFollow before tokens) (op : Operator φ) (lhs : Tree τ) :
    Run.Builds before tokens (Session.Built before tokens (done ++ [lhs]) (head :: taken))
      (f.led head op lhs) fun x => Session.Built before tokens (done ++ [x]) taken := by
  have mixfix : Run.Builds before tokens
      (Session.Built before tokens (done ++ [lhs]) (head :: taken))
      (do
        let b ← f.operand .bottom
        let _ ← f.eatSeparator op.continuing.follow[0]?
        let c ← f.operand op.continuing.rightPower
        f.ternary head lhs b c) fun x => Session.Built before tokens (done ++ [x]) taken :=
    (h.operand _ _ _).bind fun b => (h.eatSeparator _).bind fun _ =>
      (h.operand _ _ _).bind fun c => h.ternary lhs b c
  refine (Run.builds_record (e := .continuing _ _ head) rfl).bind fun _ => ?_
  generalize op.continuing.affix = affix, op.continuing.arity = arity
  cases affix with
  | postfixed =>
    cases arity with
    | unary => exact h.unary lhs
    | ternary => exact mixfix
    | _ => exact Run.builds_report _
  | infixed =>
    cases arity with
    | binary => exact (h.operand _ _ _).bind fun r => h.binary lhs r
    | ternary => exact mixfix
    | _ => exact Run.builds_report _
  | _ => exact Run.builds_report _

theorem continued (h : f.Building config query isFollow before tokens) (rbp : Precedence)
    (fuel : Nat) (nbp : Precedence) (lhs : Tree τ) :
    Run.Builds before tokens (Session.Built before tokens (done ++ [lhs]) taken)
      (f.continued rbp fuel nbp lhs) fun x => Session.Built before tokens (done ++ [x]) taken := by
  induction fuel generalizing nbp lhs with
  | zero => exact Run.builds_pure lhs fun _ hs => hs
  | succ fuel ih =>
    refine (Run.builds_visible h.visible).bind fun o => ?_
    cases o with
    | none => exact Run.builds_pure lhs fun _ hs => hs.1
    | some t =>
      refine ((h.query_idle t).builds (some t)).bind fun op => ?_
      split
      · exact (Run.builds_consume fun _ _ hs hb hi => hs.take hb hi).bind fun _ =>
          (h.led op.continuing lhs).bind fun node => ih _ node
      · exact Run.builds_pure lhs fun _ hs => hs.1

theorem climb (h : f.Building config query isFollow before tokens) (rbp : Precedence) :
    Run.Builds before tokens (Session.BuiltAt before tokens done taken (some head))
      (f.climb rbp head) fun x => Session.Built before tokens (done ++ [x]) taken := by
  refine (Run.builds_consume fun _ _ hs hb hi => hs.take hb hi).bind fun _ =>
    (h.query_idle head).keeps.bind fun op => (h.nud op.leading).bind fun node => ?_
  intro s hs
  exact h.continued rbp s.cursor.remaining op.leading.nextPower node s hs

end Frame.Building

end Ledger

namespace Tree

variable {config : Config} {query : τ → Except (Failure τ φ ε) (Operator φ)}
  {isFollow : τ → φ → Except (Failure τ φ ε) Bool} {tests : Option (StopTest τ φ ε)}
  {before : List (Call τ φ (Tree τ))} {tokens : List τ} {done : List (Tree τ)} {taken : List τ}

/-- Looking for a token asks the stop predicate and nothing else. -/
theorem visible_idle (enter : Goal → Option (StopTest τ φ ε) → Run τ φ (Tree τ) ε (Tree τ)) :
    Run.Idle (visible ((parser config query isFollow).asking enter
      (tests.map StopTest.toStop))) := by
  refine Run.idle_visible fun a ha t => ?_
  obtain ⟨test, htest, rfl⟩ := Option.map_eq_some_iff.mp ha
  obtain ⟨f, -, rfl⟩ := Option.map_eq_some_iff.mp htest
  exact Run.idle_calling _ rfl enter (f t)

theorem startingAt_builds {ask : Option (τ → Run τ φ (Tree τ) ε Bool)}
    {body : τ → Run τ φ (Tree τ) ε (Tree τ)} (hv : Run.Idle (visible ask))
    (hb : ∀ head, Run.Builds before tokens (Session.BuiltAt before tokens done taken (some head))
      (body head) fun x => Session.Built before tokens (done ++ [x]) taken) :
    Run.Builds before tokens (Session.Built before tokens done taken) (startingAt ask body)
      fun x => Session.Built before tokens (done ++ [x]) taken := by
  refine (Run.builds_visible hv).bind fun o => ?_
  cases o with
  | none => exact fun s hs => ⟨done, taken, hs.1⟩
  | some head => exact hb head

theorem frame_building {inner below : Operand τ φ (Tree τ) ε}
    (hb : ∀ rbp head (done : List (Tree τ)) taken,
      Run.Builds before tokens (Session.BuiltAt before tokens done taken (some head))
        (below (tests.map StopTest.toStop) rbp head)
        fun x => Session.Built before tokens (done ++ [x]) taken) :
    ((parser config query isFollow).frame inner below (tests.map StopTest.toStop)).Building config
      query isFollow before tokens where
  parser := rfl
  visible := visible_idle _
  operand rbp done taken := startingAt_builds (visible_idle _) fun head => hb rbp head done taken

/-- An operand is built on top of what has been built before it. -/
theorem operandIn_builds (room : Nat) (rbp : Precedence) (head : τ) (done : List (Tree τ))
    (taken : List τ) :
    Run.Builds before tokens (Session.BuiltAt before tokens done taken (some head))
      ((parser config query isFollow).operandIn room (tests.map StopTest.toStop) rbp head)
      fun x => Session.Built before tokens (done ++ [x]) taken := by
  induction room generalizing rbp head done taken with
  | zero => exact fun s hs => ⟨done, taken, hs.1⟩
  | succ n ih =>
    rw [Parser.operandIn_succ]
    exact ((frame_building ih).climb rbp).deeper rfl rfl

theorem parseInput_builds (rbp : Precedence) :
    Run.Builds before tokens (Session.Built before tokens done taken)
      ((parser config query isFollow).parseInput rbp (tests.map StopTest.toStop))
      fun x => Session.Built before tokens (done ++ [x]) taken := by
  intro s hs
  have frame : ((parser config query isFollow).frameAt s.depth (tests.map StopTest.toStop)).Building
      config query isFollow before tokens :=
    frame_building (operandIn_builds (config.maxDepth - s.depth))
  exact frame.operand rbp done taken s hs

theorem parseUntil_built (config : Config) (query : τ → Except (Failure τ φ ε) (Operator φ))
    (isFollow : τ → φ → Except (Failure τ φ ε) Bool) (tests : Option (StopTest τ φ ε)) (rbp : Int) :
    Run.Builds before tokens (Session.Built before tokens done taken)
      ((parser config query isFollow).parseUntil rbp (tests.map StopTest.toStop))
      fun x => Session.Built before tokens (done ++ [x]) taken := by
  intro s hs
  rw [Parser.parseUntil, Parser.entering_eq, Parser.concluding_above, bind_pure]
  have hnext : s.BuiltAt before tokens done taken none := ⟨hs, by simp⟩
  cases Precedence.ofInt? (Goal.above rbp).floor with
  | none =>
    have refused : Run.Builds before tokens (Session.BuiltAt before tokens done taken none)
        (throw (.other (.precedenceRange (Goal.above rbp).floor)) : Run τ φ (Tree τ) ε (Tree τ))
        fun x => Session.Built before tokens (done ++ [x]) taken :=
      fun _ hs => ⟨done, taken, hs.1⟩
    exact refused.deeper rfl rfl s hnext
  | some p =>
    have operand : Run.Builds before tokens (Session.BuiltAt before tokens done taken none)
        ((parser config query isFollow).parseInput p (tests.map StopTest.toStop))
        fun x => Session.Built before tokens (done ++ [x]) taken :=
      fun s hs => parseInput_builds p s hs.1
    exact operand.deeper rfl rfl s hnext

/-- The calls that build nodes go through the tree in postorder. Where the parser fails, they have
gone through some trees one after the other, whose tokens have been consumed. -/
theorem parseUntil_builds (config : Config) (query : τ → Except (Failure τ φ ε) (Operator φ))
    (isFollow : τ → φ → Except (Failure τ φ ε) Bool) (tests : Option (StopTest τ φ ε)) (rbp : Int)
    {s : Session τ φ (Tree τ) ε} (hs : s.cursor.items = tokens.map .token) :
    match (parser config query isFollow).parseUntil rbp (tests.map StopTest.toStop) s with
    | .ok x t => t.builds = s.builds ++ x.postorder ∧
      ∃ used rest, tokens = used ++ rest ∧ t.cursor.items = rest.map .token ∧ x.heads.Subperm used
    | .error _ t => ∃ (trees : List (Tree τ)) (used rest : List τ), tokens = used ++ rest ∧
      t.cursor.items = rest.map .token ∧ t.builds = s.builds ++ trees.flatMap postorder ∧
      (trees.flatMap heads).Subperm used := by
  have hstart : s.Built s.builds tokens [] [] :=
    ⟨(List.append_nil _).symm, [], tokens, rfl, hs, List.Subperm.refl []⟩
  have hrun := parseUntil_built config query isFollow tests rbp s hstart
  cases hres : (parser config query isFollow).parseUntil rbp (tests.map StopTest.toStop) s with
  | ok x t =>
    rw [hres] at hrun
    obtain ⟨hbuilds, used, rest, htokens, hitems, hused⟩ := hrun
    rw [List.nil_append, List.flatMap_singleton] at hbuilds hused
    rw [List.append_nil] at hused
    exact ⟨hbuilds, used, rest, htokens, hitems, hused⟩
  | error f t =>
    rw [hres] at hrun
    obtain ⟨trees, taken, hbuilds, used, rest, htokens, hitems, hused⟩ := hrun
    refine ⟨trees, used, rest, htokens, hitems, hbuilds, ?_⟩
    exact (List.sublist_append_left _ taken).subperm.trans hused

theorem parseUntil_builds_signs :
    ∃ f t, (parser ⟨false, false, 3, by decide⟩ signs fun _ _ => .ok false).parseUntil 0
        (Option.map StopTest.toStop none) (.start (.ofTokens ['x', '-', 'y', '*'])) = .error f t ∧
      ∃ (trees : List (Tree Char)) (used rest : List Char), ['x', '-', 'y', '*'] = used ++ rest ∧
        t.cursor.items = rest.map .token ∧ t.builds = [] ++ trees.flatMap postorder ∧
        (trees.flatMap heads).Subperm used := by
  have hfailed : failure? ((parser ⟨false, false, 3, by decide⟩ signs fun _ _ =>
      .ok false).parseUntil 0 (Option.map StopTest.toStop none)
        (.start (.ofTokens ['x', '-', 'y', '*']))) = some (.report .emptyInput) := by
    decide +kernel
  obtain ⟨t, ht⟩ := failure?_eq_some.mp hfailed
  have hbuilds := parseUntil_builds ⟨false, false, 3, by decide⟩ signs (fun _ _ => .ok false) none 0
    (s := .start (.ofTokens ['x', '-', 'y', '*'])) rfl
  rw [ht] at hbuilds
  exact ⟨_, t, ht, hbuilds⟩

end Tree

end BindingPower
