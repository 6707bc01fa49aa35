import BindingPower.Proofs.Containment
import BindingPower.Proofs.Guarding
import BindingPower.Proofs.Nesting

/-! # Tasks

The log of a parser is a run of a stack machine. A task is a run of the parser, an operand that has
just been opened, or a token that is being used, with the operands that have been read for it. What
may happen next is told by the topmost task: an operand is only opened where one is awaited, a token
only continues what is complete. -/
namespace BindingPower

variable {τ φ ν ε α : Type}

inductive Role (τ : Type) where
  | run
  | operand
  | leading (affix : Affix) (arity : Arity) (token : τ)
  | continuing (affix : Affix) (arity : Arity) (token : τ)
  deriving DecidableEq

namespace Role

/-- How many operands are read in the role. There is no such number where the first token of an
operand is still to come, and none where a token is refused. -/
def wanted : Role τ → Option Nat
  | run => some 1
  | operand => none
  | leading .nilfix .nullary _ => some 0
  | leading .prefixed .unary _ => some 1
  | leading .prefixed .ternary _ => some 3
  | leading .circumfix .unary _ => some 1
  | leading _ _ _ => none
  | continuing .postfixed .unary _ => some 0
  | continuing .postfixed .ternary _ => some 2
  | continuing .infixed .binary _ => some 1
  | continuing .infixed .ternary _ => some 2
  | continuing _ _ _ => none

/-- The token has three operands, the one before it included. -/
inductive Mixfix : Role τ → Prop where
  | leading (affix : Affix) (t : τ) : Mixfix (.leading affix .ternary t)
  | continuing (affix : Affix) (t : τ) : Mixfix (.continuing affix .ternary t)

theorem mixfix_of_wanted {r : Role τ} {n : Nat} (h : r.wanted = some n) (hn : 1 < n) :
    r.Mixfix := by
  unfold wanted at h
  split at h <;> simp only [Option.some.injEq, reduceCtorEq] at h
  all_goals first | omega | constructor

end Role

/-- `complete` counts the operands that have been read. -/
structure Task (τ : Type) where
  role : Role τ
  complete : Nat
  deriving DecidableEq

namespace Task

def start (r : Role τ) : Task τ := ⟨r, 0⟩

def advance (t : Task τ) : Task τ := { t with complete := t.complete + 1 }

@[simp] theorem role_start (r : Role τ) : (start r).role = r := rfl

@[simp] theorem complete_start (r : Role τ) : (start r).complete = 0 := rfl

@[simp] theorem role_advance (t : Task τ) : t.advance.role = t.role := rfl

@[simp] theorem complete_advance (t : Task τ) : t.advance.complete = t.complete + 1 := rfl

/-- An operand is still to be read. -/
def Awaits (t : Task τ) : Prop := ∃ n ∈ t.role.wanted, t.complete < n

/-- All operands have been read. -/
def Complete (t : Task τ) : Prop := t.role.wanted = some t.complete

/-- Only an operator with three operands has one read behind a complete one. -/
theorem Awaits.mixfix {t : Task τ} (h : t.Awaits) (hn : 0 < t.complete) : t.role.Mixfix := by
  obtain ⟨n, hw, hlt⟩ := h
  exact Role.mixfix_of_wanted hw (by omega)

end Task

/-- How an event changes the tasks, the topmost of which come first. -/
inductive Event.Turns (G : Grammar τ φ ν ε) :
    Event τ φ ν → List (Task τ) → List (Task τ) → Prop where
  | called {T : List (Task τ)} (c : Call τ φ ν) : Turns G (.called c) T T
  | entered {T : List (Task τ)} (levels : Nat) : Turns G (.entered levels) T (.start .run :: T)
  | left {T : List (Task τ)} (levels : Nat) : Turns G (.left levels) (⟨.run, 1⟩ :: T) T
  | opened {task : Task τ} {T : List (Task τ)} (ha : task.Awaits) :
    Turns G .opened (task :: T) (.start .operand :: task :: T)
  | closed {top task : Task τ} {T : List (Task τ)} (hc : top.Complete) :
    Turns G .closed (top :: task :: T) (task.advance :: T)
  | leading {t : τ} {op : Operator φ} {T : List (Task τ)} (hq : (G.query t).Returns op) :
    Turns G (.leading op.starting.affix op.starting.arity t) (.start .operand :: T)
      (.start (.leading op.starting.affix op.starting.arity t) :: T)
  | continuing {t : τ} {op : Operator φ} {top : Task τ} {T : List (Task τ)} (hc : top.Complete)
    (hq : (G.query t).Returns op)
    (ha : op.continuing.affix = .infixed ∨ op.continuing.affix = .postfixed) :
    Turns G (.continuing op.extending.affix op.extending.arity t) (top :: T)
      (.start (.continuing op.extending.affix op.extending.arity t) :: T)
  | separator {t : τ} {op : Operator φ} {top : Task τ} {T : List (Task τ)} (hn : 0 < top.complete)
    (hq : (G.query t).Returns op) (hs : op.affix.isSeparator = true) :
    Turns G (.separator t) (top :: T) (top :: T)

/-- The log tells how the tasks came to be these, where the reading of one operand was the first. -/
inductive Log.Leaves (G : Grammar τ φ ν ε) : Log τ φ ν → List (Task τ) → Prop where
  | start : Leaves G [] [.start .run]
  | step {d : Nat} {e : Event τ φ ν} {log : Log τ φ ν} {T T' : List (Task τ)} (h : Leaves G log T)
    (he : e.Turns G T T') : Leaves G ((d, e) :: log) T'

/-- The token of the role has been classified by the grammar, and nothing continues an expression
but what is infixed or postfixed. -/
inductive Role.Backed (G : Grammar τ φ ν ε) : Role τ → Prop where
  | run : Backed G .run
  | operand : Backed G .operand
  | leading {t : τ} {op : Operator φ} (hq : (G.query t).Returns op) :
    Backed G (.leading op.starting.affix op.starting.arity t)
  | continuing {t : τ} {op : Operator φ} (hq : (G.query t).Returns op)
    (ha : op.continuing.affix = .infixed ∨ op.continuing.affix = .postfixed) :
    Backed G (.continuing op.extending.affix op.extending.arity t)

theorem Event.Turns.backed {G : Grammar τ φ ν ε} {e : Event τ φ ν} {T T' : List (Task τ)}
    (h : e.Turns G T T') (hT : ∀ task ∈ T, task.role.Backed G) : ∀ task ∈ T', task.role.Backed G := by
  cases h with
  | called => exact hT
  | entered => exact List.forall_mem_cons.mpr ⟨.run, hT⟩
  | left => exact (List.forall_mem_cons.mp hT).2
  | opened => exact List.forall_mem_cons.mpr ⟨.operand, hT⟩
  | closed =>
    obtain ⟨htask, hrest⟩ := List.forall_mem_cons.mp (List.forall_mem_cons.mp hT).2
    exact List.forall_mem_cons.mpr ⟨htask, hrest⟩
  | leading hq => exact List.forall_mem_cons.mpr ⟨.leading hq, (List.forall_mem_cons.mp hT).2⟩
  | continuing _ hq ha =>
    exact List.forall_mem_cons.mpr ⟨.continuing hq ha, (List.forall_mem_cons.mp hT).2⟩
  | separator => exact hT

theorem Log.Leaves.backed {G : Grammar τ φ ν ε} {log : Log τ φ ν} {T : List (Task τ)}
    (h : log.Leaves G T) : ∀ task ∈ T, task.role.Backed G := by
  induction h with
  | start => exact List.forall_mem_singleton.mpr .run
  | step _ he ih => exact he.backed ih

namespace Affix

/-- The report on a token that cannot start an expression. -/
def unfitToLead : Affix → Option Misfit
  | postfixed => some .postfixed
  | infixed => some .infixed
  | interfix => some .interfix
  | _ => none

/-- The report on a token that cannot continue an expression. -/
def unfitToContinue : Affix → Option Misfit
  | nilfix => some .nilfix
  | prefixed => some .prefixed
  | circumfix => some .interfix
  | interfix => some .interfix
  | _ => none

end Affix

/-- What a report comes from that is made of the tasks at a depth. -/
inductive Parser.Explains (p : Parser τ φ ν ε) (stop : Option (Stop τ φ ν ε)) (d : Nat) :
    List (Task τ) → Report τ φ ε → Prop where
  | emptyInput {task : Task τ} {T : List (Task τ)} (ha : task.Awaits) :
    Explains p stop d (task :: T) .emptyInput
  | nestingTooDeep {task : Task τ} {T : List (Task τ)} (ha : task.Awaits)
    (hd : p.config.maxDepth ≤ d) :
    Explains p stop d (task :: T) (.nestingTooDeep p.config.maxDepth none)
  | leading {affix : Affix} {arity : Arity} {t : τ} {kind : Misfit} {T : List (Task τ)}
    (h : affix.unfitToLead = some kind) :
    Explains p stop d (.start (.leading affix arity t) :: T) (.misfit kind t)
  | continuing {affix : Affix} {arity : Arity} {t : τ} {kind : Misfit} {T : List (Task τ)}
    (h : affix.unfitToContinue = some kind) :
    Explains p stop d (.start (.continuing affix arity t) :: T) (.misfit kind t)
  | unexpectedArity (affix : Affix) (arity : Arity) (t : τ) (T : List (Task τ)) :
    Explains p stop d T (.unexpectedArity t affix arity)
  | missingInterfix (mark : φ) (found : Option τ) (T : List (Task τ)) :
    Explains p stop d T (.missingInterfix (some mark) found)
  | trailingInput (t : τ) (T : List (Task τ)) : Explains p stop d T (.trailingInput t)
  | userError (c : Cause ε) (T : List (Task τ)) : Explains p stop d T (.userError c)
  | exhausted (limit depth : Nat) (T : List (Task τ)) :
    Explains p stop d T (.nestingTooDeep limit (some depth))
  | raised {c : Call τ φ ν} {α : Type} {callback : Callback τ φ ν ε α} {r : Report τ φ ε}
    (hc : p.Asks stop c callback) (hr : callback.Raises (.report r)) (T : List (Task τ)) :
    Explains p stop d T r

end BindingPower
