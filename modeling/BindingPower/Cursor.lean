/-! # Token cursors

A cursor reads a source of tokens from front to back and may look one token ahead. An item
of the source is a token or a fault that arises when the item is pulled; after a fault the
source goes on with the next item. -/
namespace BindingPower

inductive Item (τ ε : Type) where
  | token (t : τ)
  | fault (e : ε)
  deriving DecidableEq

/-- `position` counts the tokens handed out, `pulled` the items taken from the source. -/
structure Cursor (τ ε : Type) where
  ahead : Option τ
  rest : List (Item τ ε)
  position : Nat
  pulled : Nat
  deriving DecidableEq

namespace Cursor

variable {τ ε : Type}

def ofItems (items : List (Item τ ε)) : Cursor τ ε := ⟨none, items, 0, 0⟩

def ofTokens (tokens : List τ) : Cursor τ ε := ofItems (tokens.map .token)

/-- The items not handed out yet, the one looked at included. -/
def items (c : Cursor τ ε) : List (Item τ ε) :=
  match c.ahead with
  | none => c.rest
  | some t => .token t :: c.rest

def remaining (c : Cursor τ ε) : Nat := c.items.length

/-- Looks one token ahead unless that has been done. -/
def fill (c : Cursor τ ε) : Except ε Unit × Cursor τ ε :=
  match c.ahead, c.rest with
  | some _, _ => (.ok (), c)
  | none, [] => (.ok (), c)
  | none, .token t :: r => (.ok (), { c with ahead := some t, rest := r, pulled := c.pulled + 1 })
  | none, .fault e :: r => (.error e, { c with rest := r, pulled := c.pulled + 1 })

/-- The next token, left where it is. -/
def peek (c : Cursor τ ε) : Except ε (Option τ) × Cursor τ ε :=
  match c.fill with
  | (.error e, d) => (.error e, d)
  | (.ok (), d) => (.ok d.ahead, d)

def isAtEnd (c : Cursor τ ε) : Except ε Bool × Cursor τ ε :=
  match c.fill with
  | (.error e, d) => (.error e, d)
  | (.ok (), d) => (.ok d.ahead.isNone, d)

/-- The next token, consumed. -/
def next (c : Cursor τ ε) : Except ε (Option τ) × Cursor τ ε :=
  match c.fill with
  | (.error e, d) => (.error e, d)
  | (.ok (), d) =>
    match d.ahead with
    | none => (.ok none, d)
    | some t => (.ok (some t), { d with ahead := none, position := d.position + 1 })

/-- Consumes tokens up to the end or the first fault, in at most `fuel` steps. -/
def takeUpTo : (fuel : Nat) → Cursor τ ε → Except ε (List τ) × Cursor τ ε
  | 0, c => (.ok [], c)
  | n + 1, c =>
    match c.next with
    | (.error e, d) => (.error e, d)
    | (.ok none, d) => (.ok [], d)
    | (.ok (some t), d) =>
      match takeUpTo n d with
      | (.error e, d') => (.error e, d')
      | (.ok ts, d') => (.ok (t :: ts), d')

def drain (c : Cursor τ ε) : Except ε (List τ) × Cursor τ ε := c.takeUpTo (c.remaining + 1)

def text (c : Cursor τ ε) : String := "TokenStream(position=" ++ toString c.position ++ ")"

theorem remaining_ofItems (items : List (Item τ ε)) : (ofItems items).remaining = items.length := rfl

theorem fill_items {c d : Cursor τ ε} (h : c.fill = (.ok (), d)) : d.items = c.items := by
  cases c with
  | mk ahead rest position pulled =>
    cases ahead with
    | some t => simp only [fill, Prod.mk.injEq, true_and] at h; rw [← h]
    | none =>
      cases rest with
      | nil => simp only [fill, Prod.mk.injEq, true_and] at h; rw [← h]
      | cons i r =>
        cases i with
        | token t => simp only [fill, Prod.mk.injEq, true_and] at h; rw [← h]; rfl
        | fault e => simp [fill] at h

/-- A token that is consumed was the first item. -/
theorem next_items {c d : Cursor τ ε} {t : τ} (h : c.next = (.ok (some t), d)) :
    c.items = .token t :: d.items := by
  unfold next at h
  split at h
  · simp at h
  · rename_i e he
    rw [← fill_items he]
    split at h
    · simp at h
    · rename_i u hu
      simp only [Prod.mk.injEq, Except.ok.injEq, Option.some.injEq] at h
      obtain ⟨rfl, rfl⟩ := h
      simp [items, hu]

theorem remaining_next {c d : Cursor τ ε} {t : τ} (h : c.next = (.ok (some t), d)) :
    c.remaining = d.remaining + 1 := by
  simp [remaining, next_items h]

/-- Where plain tokens are left, the first of them is looked at and nothing is handed out. -/
theorem fill_of_tokens {c : Cursor τ ε} {ts : List τ} (h : c.items = ts.map .token) :
    ∃ d, c.fill = (.ok (), d) ∧ d.ahead = ts.head? ∧ d.rest = ts.tail.map .token ∧
      d.position = c.position := by
  obtain ⟨ahead, rest, position, pulled⟩ := c
  cases ahead with
  | some t =>
    cases ts with
    | nil => simp [items] at h
    | cons u us =>
      simp only [items, List.map_cons, List.cons.injEq, Item.token.injEq] at h
      obtain ⟨rfl, rfl⟩ := h
      exact ⟨_, rfl, rfl, rfl, rfl⟩
  | none =>
    simp only [items] at h
    subst h
    cases ts with
    | nil => exact ⟨_, rfl, rfl, rfl, rfl⟩
    | cons u us => exact ⟨_, rfl, rfl, rfl, rfl⟩

theorem peek_of_tokens {c : Cursor τ ε} {ts : List τ} (h : c.items = ts.map .token) :
    ∃ d, c.peek = (.ok ts.head?, d) ∧ d.items = ts.map .token ∧ d.position = c.position := by
  obtain ⟨d, hf, ha, -, hp⟩ := fill_of_tokens h
  exact ⟨d, by simp only [peek, hf, ha], (fill_items hf).trans h, hp⟩

theorem next_of_tokens {c : Cursor τ ε} {ts : List τ} (h : c.items = ts.map .token) :
    ∃ d, c.next = (.ok ts.head?, d) ∧ d.items = ts.tail.map .token ∧
      d.position + ts.tail.length = c.position + ts.length := by
  obtain ⟨d, hf, ha, hr, hp⟩ := fill_of_tokens h
  cases ts with
  | nil => exact ⟨d, by simp [next, hf, ha], by simp [items, ha, hr], by simp [hp]⟩
  | cons t ts =>
    refine ⟨{ d with ahead := none, position := d.position + 1 }, by simp [next, hf, ha], hr, ?_⟩
    simp only [List.tail_cons, List.length_cons, hp]
    omega

end Cursor

end BindingPower
