import BindingPower.Proofs.Composition

/-! # Outcomes

How a run ends is told by the session it begins in, by the one it ends in, and by its failure if it
has one. Where what follows a value still counts as an outcome of the whole, runs that are put
together have the outcomes of their parts. -/
namespace BindingPower

variable {τ φ ν ε α β : Type}

/-- The session at the end of a run, whether it failed or not. -/
def ending {σ : Type} : EStateM.Result ε σ α → σ
  | .ok _ t => t
  | .error _ t => t

/-- The fault that is met when a stream is read, as the failure that it is. -/
def fault? : Except ε α → Option (Failure τ φ ε)
  | .ok _ => none
  | .error e => some (.other (.fault e))

/-- How runs may end, by the session they begin in: with a failure or without one, and in which
session. -/
abbrev Outcome (τ φ ν ε : Type) :=
  Session τ φ ν ε → Option (Failure τ φ ε) → Session τ φ ν ε → Prop

/-- A run that ends with a value may go on: it ends like what follows, at the depth of before. -/
structure Outcome.Chains (O : Outcome τ φ ν ε) : Prop where
  refl : ∀ s, O s none s
  trans : ∀ {s t u : Session τ φ ν ε} {f : Option (Failure τ φ ε)}, O s none t → O t f u → O s f u
  depth : ∀ {s t : Session τ φ ν ε}, O s none t → t.depth = s.depth

/-- From the depth on, the run only ends in ways of the outcome. -/
def Run.Obeys (O : Outcome τ φ ν ε) (d : Nat) {α : Type} (m : Run τ φ ν ε α) : Prop :=
  ∀ s : Session τ φ ν ε, s.depth = d → O s (failure? (m s)) (ending (m s))

/-- What follows a run may rely on where that has led to. -/
theorem Outcome.Chains.run {O : Outcome τ φ ν ε} (h : O.Chains) {s : Session τ φ ν ε}
    {m : Run τ φ ν ε α} {k : α → Run τ φ ν ε β} (hm : O s (failure? (m s)) (ending (m s)))
    (hk : ∀ a t, m s = .ok a t → O s none t → O t (failure? (k a t)) (ending (k a t))) :
    O s (failure? ((m >>= k) s)) (ending ((m >>= k) s)) := by
  cases hrun : m s with
  | ok a t =>
    rw [hrun] at hm
    rw [bind_of_ok hrun]
    exact h.trans hm (hk a t hrun hm)
  | error f t =>
    rw [hrun] at hm
    rw [bind_of_error hrun]
    exact hm

namespace Run

variable {O N : Outcome τ φ ν ε} {d : Nat} {m : Run τ φ ν ε α}

theorem obeys_pure (h : O.Chains) (a : α) : Obeys O d (pure a : Run τ φ ν ε α) :=
  fun s _ => h.refl s

theorem Obeys.bind {k : α → Run τ φ ν ε β} (h : O.Chains) (hm : Obeys O d m)
    (hk : ∀ a, m.Returns a → Obeys O d (k a)) : Obeys O d (m >>= k) :=
  fun s hs => h.run (hm s hs) fun a t hrun ht => hk a ⟨s, t, hrun⟩ t ((h.depth ht).trans hs)

theorem obeys_composes (h : O.Chains) : Run.Composes (Obeys O d) where
  pure := obeys_pure h
  bind := Obeys.bind h

theorem Obeys.depth {k : Nat → Run τ φ ν ε α} (h : Obeys O d (k d)) :
    Obeys O d (get >>= fun s => k s.depth) := by
  intro s hs
  subst hs
  exact h s rfl

theorem Obeys.remaining {k : Nat → Run τ φ ν ε α} (h : ∀ n, Obeys O d (k n)) :
    Obeys O d (get >>= fun s => k s.cursor.remaining) := fun s hs => h _ s hs

/-- What a run ends in below still counts when the levels it was made deeper are left. -/
theorem Obeys.deeper {n : Nat} {before after : Event τ φ ν} (h : Obeys N (d + n) m)
    (hback : ∀ s f t, s.depth = d → N ((s.deepen n).record before) f t →
      O s f ((t.surface n).record after)) : Obeys O d (Run.deeper n before after m) := by
  intro s hs
  have hm := h ((s.deepen n).record before) (congrArg (· + n) hs)
  simp only [Run.deeper]
  generalize m ((s.deepen n).record before) = x at hm ⊢
  cases x <;> exact hback s _ _ hs hm

/-- A call ends like its callback, except for what becomes of a failure. -/
theorem Obeys.calling {p : Parser τ φ ν ε} {c : Call τ φ ν} (h : Obeys N d m)
    (hok : ∀ s t, s.depth = d → N (s.record (.called c)) none t → O s none t)
    (hfail : ∀ s f t, s.depth = d → m (s.record (.called c)) = .error f t →
      N (s.record (.called c)) (some f) t →
      O s (some (contain p.config.maxDepth t.depth f)) (t.record .failed)) :
    Obeys O d (p.calling c m) := by
  intro s hs
  have hm := h (s.record (.called c)) hs
  change O s (failure? (Run.catching _ m (s.record (.called c))))
    (ending (Run.catching _ m (s.record (.called c))))
  unfold Run.catching
  cases hrun : m (s.record (.called c)) with
  | ok a t =>
    rw [hrun] at hm
    exact hok s t hs hm
  | error f t =>
    rw [hrun] at hm
    exact hfail s f t hs hrun hm

theorem Obeys.within (h : Obeys N d m) (side : Option (Cursor τ ε))
    (hback : ∀ s f t, s.depth = d → N { s with side := side } f t →
      O s f { t with side := s.side }) : Obeys O d (Run.within side m) := by
  intro s hs
  have hm := h { s with side := side } hs
  unfold Run.within
  generalize m { s with side := side } = x at hm ⊢
  cases x <;> exact hback s _ _ hs hm

theorem obeys_reading {f : Cursor τ ε → Except ε α × Cursor τ ε}
    (h : ∀ s, O s (fault? (f s.cursor).1) (s.withCursor (f s.cursor).2)) :
    Obeys O d (Run.reading f) := by
  intro s _
  have hread := h s
  unfold Run.reading
  generalize f s.cursor = x at hread ⊢
  obtain ⟨_ | _, c⟩ := x <;> exact hread

theorem obeys_readingMain {f : Cursor τ ε → Except ε α × Cursor τ ε}
    (h : ∀ s, O s (fault? (f s.main).1) { s with main := (f s.main).2 }) :
    Obeys O d (Run.readingMain f) := by
  intro s _
  have hread := h s
  unfold Run.readingMain
  generalize f s.main = x at hread ⊢
  obtain ⟨_ | _, c⟩ := x <;> exact hread

end Run

end BindingPower
