import BindingPower.Cursor

/-! # Cursors as lists

Whatever is asked of a cursor, it answers like the list of the items that are left. The one token
it may have looked at is not to be seen from outside: only what has been pulled from the source so
far tells of it. A null token is a token like any other, and so is one that is also a default. -/
namespace BindingPower

variable {τ ε δ σ : Type}

/-- What is asked of a cursor. Iterating asks whether there is an end before it takes a token. -/
inductive Operation (δ : Type) where
  | peek (default : δ)
  | next (default : δ)
  | atEnd
  | iterate

inductive Reply (τ δ : Type) where
  | token (t : τ)
  | default (d : δ)
  | atEnd (yes : Bool)
  | stop
  deriving DecidableEq

/-- An operation with its answer, or with the fault that arose. -/
abbrev Exchange (τ ε δ : Type) := Operation δ × Except ε (Reply τ δ)

namespace Reply

/-- The token that is there, or what is said where there is none. -/
def ofOption (missing : Reply τ δ) : Option τ → Reply τ δ
  | none => missing
  | some t => token t

/-- The answer says that nothing is left. -/
def ended : Reply τ δ → Bool
  | token _ => false
  | default _ => true
  | atEnd yes => yes
  | stop => true

end Reply

namespace Exchange

/-- The token that has been handed out. -/
def handed? : Exchange τ ε δ → Option τ
  | (.next _, .ok (.token t)) => some t
  | (.iterate, .ok (.token t)) => some t
  | _ => none

def fault? : Exchange τ ε δ → Option ε
  | (_, .error e) => some e
  | _ => none

/-- Whether a token is left looked at but not consumed, given whether one was before. -/
def pending (before : Bool) : Exchange τ ε δ → Bool
  | (.peek _, .ok (.token _)) => true
  | (.atEnd, .ok (.atEnd false)) => true
  | (.next _, .ok (.token _)) => false
  | (.iterate, .ok (.token _)) => false
  | _ => before

end Exchange

/-- All operations in turn, each with its answer. -/
def exchanges (step : Operation δ → σ → Except ε (Reply τ δ) × σ) :
    List (Operation δ) → σ → List (Exchange τ ε δ) × σ
  | [], s => ([], s)
  | op :: ops, s =>
    let later := exchanges step ops (step op s).2
    ((op, (step op s).1) :: later.1, later.2)

namespace Cursor

def perform (op : Operation δ) (c : Cursor τ ε) : Except ε (Reply τ δ) × Cursor τ ε :=
  match op with
  | .peek d => (c.peek.1.map (.ofOption (.default d)), c.peek.2)
  | .next d => (c.next.1.map (.ofOption (.default d)), c.next.2)
  | .atEnd => (c.isAtEnd.1.map .atEnd, c.isAtEnd.2)
  | .iterate =>
    match c.isAtEnd with
    | (.error e, d) => (.error e, d)
    | (.ok true, d) => (.ok .stop, d)
    | (.ok false, d) => (d.next.1.map (.ofOption .stop), d.next.2)

end Cursor

/-- What a list of items answers. A fault at its front arises and is gone, whatever is asked. -/
def serve : Operation δ → List (Item τ ε) → Except ε (Reply τ δ) × List (Item τ ε)
  | _, .fault e :: rest => (.error e, rest)
  | .peek d, [] => (.ok (.default d), [])
  | .peek _, .token t :: rest => (.ok (.token t), .token t :: rest)
  | .next d, [] => (.ok (.default d), [])
  | .next _, .token t :: rest => (.ok (.token t), rest)
  | .atEnd, [] => (.ok (.atEnd true), [])
  | .atEnd, .token t :: rest => (.ok (.atEnd false), .token t :: rest)
  | .iterate, [] => (.ok .stop, [])
  | .iterate, .token t :: rest => (.ok (.token t), rest)

/-- Only a fault at the front fails an operation. -/
theorem serve_eq_error (op : Operation δ) (l : List (Item τ ε)) (e : ε) :
    (serve op l).1 = .error e ↔ l.head? = some (.fault e) := by
  cases l with
  | nil => cases op <;> simp [serve]
  | cons i rest =>
    cases i with
    | token t => cases op <;> simp [serve]
    | fault f => simp [serve]

/-- A default is answered, or the iteration stopped, where nothing is left and nowhere else. -/
theorem serve_ended (op : Operation δ) (l : List (Item τ ε)) :
    (serve op l).1.map Reply.ended = .ok true ↔ l = [] := by
  cases l with
  | nil => cases op <;> simp [serve, Except.map, Reply.ended]
  | cons i rest =>
    cases i with
    | token t => cases op <;> simp [serve, Except.map, Reply.ended]
    | fault f => simp [serve, Except.map]

namespace Item

def token? : Item τ ε → Option τ
  | token t => some t
  | fault _ => none

def fault? : Item τ ε → Option ε
  | token _ => none
  | fault e => some e

end Item

namespace Cursor

/-- What one exchange does to a cursor. -/
structure Changes (x : Exchange τ ε δ) (c d : Cursor τ ε) : Prop where
  tokens : x.handed?.toList ++ d.items.filterMap Item.token? = c.items.filterMap Item.token?
  faults : x.fault?.toList ++ d.items.filterMap Item.fault? = c.items.filterMap Item.fault?
  position : d.position = c.position + x.handed?.toList.length
  pending : d.ahead.isSome = x.pending c.ahead.isSome
  pulled : d.pulled + c.ahead.isSome.toNat =
    c.pulled + x.fault?.toList.length + x.handed?.toList.length + d.ahead.isSome.toNat

/-- What all the exchanges so far have done to the items, and what of it can be read off the
cursor. -/
structure Accounts (items : List (Item τ ε)) (past : List (Exchange τ ε δ)) (c : Cursor τ ε) :
    Prop where
  tokens : past.filterMap Exchange.handed? ++ c.items.filterMap Item.token? =
    items.filterMap Item.token?
  faults : past.filterMap Exchange.fault? ++ c.items.filterMap Item.fault? =
    items.filterMap Item.fault?
  position : c.position = (past.filterMap Exchange.handed?).length
  pending : c.ahead.isSome = past.foldl Exchange.pending false
  pulled : c.pulled = (past.filterMap Exchange.fault?).length + c.position + c.ahead.isSome.toNat

variable {items : List (Item τ ε)} {past : List (Exchange τ ε δ)} {c d : Cursor τ ε}
  {x : Exchange τ ε δ}

/-! ## One operation -/

/-- A cursor stands at a token that it has looked at, at the end, at a token that it has not
looked at, or at a fault. -/
theorem perform_items (op : Operation δ) (c : Cursor τ ε) :
    ((c.perform op).1, (c.perform op).2.items) = serve op c.items := by
  obtain ⟨ahead, rest, position, pulled⟩ := c
  cases ahead with
  | some t => cases op <;> rfl
  | none =>
    cases rest with
    | nil => cases op <;> rfl
    | cons i rest =>
      cases i with
      | token t => cases op <;> rfl
      | fault e => cases op <;> rfl

theorem perform_changes (op : Operation δ) (c : Cursor τ ε) :
    Changes (op, (c.perform op).1) c (c.perform op).2 := by
  obtain ⟨ahead, rest, position, pulled⟩ := c
  cases ahead with
  | some t => cases op <;> exact ⟨rfl, rfl, rfl, rfl, rfl⟩
  | none =>
    cases rest with
    | nil => cases op <;> exact ⟨rfl, rfl, rfl, rfl, rfl⟩
    | cons i rest =>
      cases i with
      | token t => cases op <;> exact ⟨rfl, rfl, rfl, rfl, rfl⟩
      | fault e => cases op <;> exact ⟨rfl, rfl, rfl, rfl, rfl⟩

/-- An operation that fails leaves all but the fault as it is. -/
theorem perform_of_fault {e : ε} (h : c.items.head? = some (.fault e)) (op : Operation δ) :
    c.perform op = (.error e, { c with rest := c.rest.tail, pulled := c.pulled + 1 }) := by
  obtain ⟨ahead, rest, position, pulled⟩ := c
  cases ahead with
  | some t => simp [items] at h
  | none =>
    cases rest with
    | nil => simp [items] at h
    | cons i rest =>
      obtain rfl : i = .fault e := Option.some.inj h
      cases op <;> rfl

theorem perform_eq_error (op : Operation δ) (c : Cursor τ ε) (e : ε) :
    (c.perform op).1 = .error e ↔ c.items.head? = some (.fault e) := by
  rw [congrArg Prod.fst (perform_items op c), serve_eq_error]

theorem perform_ended (op : Operation δ) (c : Cursor τ ε) :
    (c.perform op).1.map Reply.ended = .ok true ↔ c.items = [] := by
  rw [congrArg Prod.fst (perform_items op c), serve_ended]

/-! ## All operations -/

theorem accounts_start (items : List (Item τ ε)) :
    (ofItems items).Accounts items ([] : List (Exchange τ ε δ)) :=
  ⟨rfl, rfl, rfl, rfl, rfl⟩

theorem Accounts.concat (h : c.Accounts items past) (hx : Changes x c d) :
    d.Accounts items (past ++ [x]) := by
  have hhanded : (past ++ [x]).filterMap Exchange.handed? =
      past.filterMap Exchange.handed? ++ x.handed?.toList := by
    cases hs : x.handed? <;> simp [hs]
  have hfault : (past ++ [x]).filterMap Exchange.fault? =
      past.filterMap Exchange.fault? ++ x.fault?.toList := by
    cases hs : x.fault? <;> simp [hs]
  refine ⟨?_, ?_, ?_, ?_, ?_⟩
  · rw [hhanded, List.append_assoc, hx.tokens, h.tokens]
  · rw [hfault, List.append_assoc, hx.faults, h.faults]
  · rw [hhanded, List.length_append, hx.position, h.position]
  · rw [List.foldl_append, ← h.pending, hx.pending]
    rfl
  · have hbefore := h.pulled
    have hafter := hx.pulled
    have hmoved := hx.position
    rw [hfault, List.length_append]
    omega

theorem exchanges_serve (ops : List (Operation δ)) (c : Cursor τ ε) :
    ((exchanges perform ops c).1, (exchanges perform ops c).2.items) =
      exchanges serve ops c.items := by
  induction ops generalizing c with
  | nil => rfl
  | cons op ops ih => simp only [exchanges, ← perform_items, ← ih]

theorem Accounts.exchanges (h : c.Accounts items past) (ops : List (Operation δ)) :
    (exchanges perform ops c).2.Accounts items (past ++ (exchanges perform ops c).1) := by
  induction ops generalizing c past with
  | nil => simpa [BindingPower.exchanges] using h
  | cons op ops ih =>
    have hops := ih (h.concat (perform_changes op c))
    rwa [List.append_assoc] at hops

/-- The operations are answered as by the list of the items that are left. At every moment the
tokens handed out are the first of all tokens, the faults that arose are the first of all faults,
and what else has been pulled is the token that has been looked at, if there is one. An operation
fails for a fault at the front, of which nothing but the fault is gone then, and it answers that
nothing is left where that is so. -/
theorem exchanges_refine (items : List (Item τ ε)) (ops : List (Operation δ)) :
    let past := (exchanges perform ops (ofItems items)).1
    let c := (exchanges perform ops (ofItems items)).2
    (past, c.items) = exchanges serve ops items ∧ c.Accounts items past ∧
      ∀ op : Operation δ,
        (∀ e, (c.perform op).1 = .error e ↔ c.items.head? = some (.fault e) ∧
          (c.perform op).2 = { c with rest := c.rest.tail, pulled := c.pulled + 1 }) ∧
        ((c.perform op).1.map Reply.ended = .ok true ↔ c.items = []) := by
  intro past c
  refine ⟨exchanges_serve ops (ofItems items), (accounts_start items).exchanges ops, fun op =>
    ⟨fun e => ?_, perform_ended op c⟩⟩
  rw [perform_eq_error]
  exact ⟨fun h => ⟨h, congrArg Prod.snd (perform_of_fault h op)⟩, And.left⟩

end Cursor

end BindingPower
