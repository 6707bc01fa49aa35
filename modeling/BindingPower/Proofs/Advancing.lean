import BindingPower.Proofs.Nesting
import BindingPower.Proofs.Surveying

/-! # The way along a stream

Streams are read from front to back. Whatever a run ends in, what is left of a stream is a later
part of it, and its position has grown by the tokens that are missing from there. So a loop always
comes to an end of its own before its steps run out. -/
namespace BindingPower

variable {τ φ ν ε α β : Type}

def Item.isToken : Item τ ε → Bool
  | token _ => true
  | fault _ => false

namespace Cursor

/-- The tokens that are still to be handed out. -/
def supply (c : Cursor τ ε) : Nat := c.items.countP Item.isToken

/-- The later cursor reads what the earlier one has left of the stream. -/
structure Advances (c d : Cursor τ ε) : Prop where
  items : d.items <:+ c.items
  position : d.position + d.supply = c.position + c.supply

namespace Advances

variable {c d e : Cursor τ ε}

theorem refl (c : Cursor τ ε) : c.Advances c := ⟨List.suffix_refl _, rfl⟩

theorem trans (h : c.Advances d) (k : d.Advances e) : c.Advances e :=
  ⟨k.items.trans h.items, k.position.trans h.position⟩

theorem position_le (h : c.Advances d) : c.position ≤ d.position := by
  have hcount : d.supply ≤ c.supply := h.items.sublist.countP_le
  have hsame := h.position
  omega

theorem remaining_le (h : c.Advances d) : d.remaining ≤ c.remaining := h.items.length_le

end Advances

theorem fill_advances (c : Cursor τ ε) : c.Advances c.fill.2 := by
  obtain ⟨ahead, rest, position, pulled⟩ := c
  cases ahead with
  | some t => exact .refl _
  | none =>
    cases rest with
    | nil => exact .refl _
    | cons i rest =>
      cases i with
      | token t => exact ⟨List.suffix_refl _, rfl⟩
      | fault e =>
        refine ⟨List.suffix_cons _ _, ?_⟩
        simp [fill, supply, items, Item.isToken]

theorem peek_eq_fill (c : Cursor τ ε) : c.peek.2 = c.fill.2 := by
  unfold peek
  rcases c.fill with ⟨_ | _, d⟩ <;> rfl

theorem peek_advances (c : Cursor τ ε) : c.Advances c.peek.2 := by
  rw [peek_eq_fill]
  exact c.fill_advances

/-- The token that is handed out is the one that was looked at. -/
theorem next_cases (c : Cursor τ ε) :
    c.next.2 = c.fill.2 ∧ c.fill.2.ahead = none ∨
    ∃ t, c.fill.2.ahead = some t ∧
      c.next.2 = { c.fill.2 with ahead := none, position := c.fill.2.position + 1 } := by
  obtain ⟨ahead, rest, position, pulled⟩ := c
  cases ahead with
  | some t => exact .inr ⟨t, rfl, rfl⟩
  | none =>
    cases rest with
    | nil => exact .inl ⟨rfl, rfl⟩
    | cons i rest =>
      cases i with
      | token t => exact .inr ⟨t, rfl, rfl⟩
      | fault e => exact .inl ⟨rfl, rfl⟩

theorem next_advances (c : Cursor τ ε) : c.Advances c.next.2 := by
  refine c.fill_advances.trans ?_
  rcases c.next_cases with ⟨hnext, -⟩ | ⟨t, ht, hnext⟩
  · rw [hnext]
    exact .refl _
  · generalize c.fill.2 = d at ht hnext ⊢
    obtain ⟨ahead, rest, position, pulled⟩ := d
    cases ht
    rw [hnext]
    refine ⟨List.suffix_cons _ _, ?_⟩
    simp only [supply, items, List.countP_cons, Item.isToken, ↓reduceIte]
    omega

theorem next_remaining (c : Cursor τ ε) : c.next.2.remaining ≤ c.remaining - 1 := by
  obtain ⟨ahead, rest, position, pulled⟩ := c
  cases ahead with
  | some t => exact Nat.le_refl _
  | none =>
    cases rest with
    | nil => exact Nat.le_refl _
    | cons i rest => cases i <;> exact Nat.le_refl _

end Cursor

/-- The later session is at the depth and on the kind of stream of the earlier one, and neither of
its streams has gone back. -/
structure Session.Advances (s t : Session τ φ ν ε) : Prop where
  depth : t.depth = s.depth
  side : t.side.isSome = s.side.isSome
  main : s.main.Advances t.main
  cursor : s.cursor.Advances t.cursor

namespace Session.Advances

variable {s t u : Session τ φ ν ε}

theorem refl (s : Session τ φ ν ε) : s.Advances s := ⟨rfl, rfl, .refl _, .refl _⟩

theorem trans (h : s.Advances t) (k : t.Advances u) : s.Advances u where
  depth := k.depth.trans h.depth
  side := k.side.trans h.side
  main := h.main.trans k.main
  cursor := h.cursor.trans k.cursor

theorem record (h : s.Advances t) (e : Event τ φ ν) : s.Advances (t.record e) :=
  ⟨h.depth, h.side, h.main, h.cursor⟩

theorem called {c : Call τ φ ν} (h : (s.record (.called c)).Advances t) : s.Advances t :=
  ((refl s).record _).trans h

theorem withCursor {c : Cursor τ ε} (h : s.cursor.Advances c) : s.Advances (s.withCursor c) := by
  obtain ⟨main, side, depth, log⟩ := s
  cases side with
  | none => exact ⟨rfl, rfl, h, h⟩
  | some d => exact ⟨rfl, rfl, .refl main, h⟩

theorem withMain {c : Cursor τ ε} (h : s.main.Advances c) : s.Advances { s with main := c } := by
  obtain ⟨main, side, depth, log⟩ := s
  cases side with
  | none => exact ⟨rfl, rfl, h, h⟩
  | some d => exact ⟨rfl, rfl, h, .refl d⟩

theorem deeper {n : Nat} {before after : Event τ φ ν}
    (h : ((s.deepen n).record before).Advances t) : s.Advances ((t.surface n).record after) where
  depth := depth_surface h.depth
  side := h.side
  main := h.main
  cursor := h.cursor

/-- When a stream of its own has been read, the stream in use is that of before. -/
theorem restored {side : Option (Cursor τ ε)} (h : Advances { s with side := side } t) :
    s.Advances { t with side := s.side } := by
  obtain ⟨main, own, depth, log⟩ := s
  cases own with
  | none => exact ⟨h.depth, rfl, h.main, h.main⟩
  | some d => exact ⟨h.depth, rfl, h.main, .refl d⟩

theorem chains : Outcome.Chains fun (s : Session τ φ ν ε) _ t => s.Advances t := ⟨refl, trans, depth⟩

end Session.Advances

/-- From the depth on, the run goes on along its streams whatever it ends in. -/
def Run.Advances (_ : Layer) (d : Nat) {α : Type} (m : Run τ φ ν ε α) : Prop :=
  ∀ s : Session τ φ ν ε, s.depth = d → s.Advances (ending (m s))

namespace Run

variable {l : Layer} {d : Nat} {s : Session τ φ ν ε} {m : Run τ φ ν ε α}

/-- The failure of a run makes no difference to where it has gone. -/
theorem advances_iff : Advances l d m ↔ Obeys (fun s _ t => s.Advances t) d m := .rfl

theorem Advances.bind {k : α → Run τ φ ν ε β} (hm : Advances l d m)
    (hk : ∀ a, Advances l d (k a)) : Advances l d (m >>= k) :=
  advances_iff.mpr ((advances_iff.mp hm).bind Session.Advances.chains fun a _ => hk a)

theorem Advances.deeper {n : Nat} {before after : Event τ φ ν} (h : Advances l (d + n) m) :
    Advances l d (Run.deeper n before after m) :=
  advances_iff.mpr ((advances_iff.mp h).deeper fun _ _ _ _ ht => ht.deeper)

theorem Advances.calling {p : Parser τ φ ν ε} {c : Call τ φ ν} (h : Advances .callback d m) :
    Advances .engine d (p.calling c m) :=
  advances_iff.mpr ((advances_iff.mp h).calling (fun _ _ _ ht => ht.called)
    fun _ _ _ _ _ ht => ht.called.record _)

theorem Advances.within (h : Advances l d m) (side : Option (Cursor τ ε)) :
    Advances l d (Run.within side m) :=
  advances_iff.mpr ((advances_iff.mp h).within side fun _ _ _ _ ht => ht.restored)

theorem reading_advances {f : Cursor τ ε → Except ε α × Cursor τ ε}
    (hf : ∀ c : Cursor τ ε, c.Advances (f c).2) :
    Advances l d (Run.reading f : Run τ φ ν ε α) :=
  advances_iff.mpr (obeys_reading fun s => .withCursor (hf s.cursor))

theorem take_advances :
    Advances l d (Run.readingMain Cursor.next : Run τ φ ν ε (Option τ)) :=
  advances_iff.mpr (obeys_readingMain fun s => .withMain s.main.next_advances)

/-- A run some levels deeper returns what its body returns there. -/
theorem deeper_eq_ok {n : Nat} {before after : Event τ φ ν} {a : α} {t : Session τ φ ν ε} :
    Run.deeper n before after m s = .ok a t ↔
      ∃ u, m ((s.deepen n).record before) = .ok a u ∧ t = (u.surface n).record after := by
  unfold Run.deeper
  cases m ((s.deepen n).record before) with
  | ok b u =>
    constructor
    · intro h
      cases h
      exact ⟨u, rfl, rfl⟩
    · rintro ⟨u, h, rfl⟩
      cases h
      rfl
  | error f u => simp

/-- A token in sight is the next one of the stream. -/
theorem visible_head {ask : Option (τ → Run τ φ ν ε Bool)} {t : Session τ φ ν ε} {x : τ}
    (h : visible ask s = .ok (some x) t) : s.cursor.items.head? = some (.token x) := by
  obtain ⟨d, hd, -⟩ := visible_found h
  rcases s.cursor.peek_cases with ⟨o, d', hpeek, -, -, ho⟩ | ⟨e, d', hpeek, -⟩
  · rw [hpeek] at hd
    cases hd
    exact ho
  · rw [hpeek] at hd
    cases hd

/-- A stop predicate that is asked without touching the stream leaves the items where they are. -/
theorem visible_items {ask : Option (τ → Run τ φ ν ε Bool)} {t : Session τ φ ν ε} {o : Option τ}
    (ha : ∀ a ∈ ask, ∀ x u b w, a x u = .ok b w → w.cursor = u.cursor)
    (h : visible ask s = .ok o t) : t.cursor.items = s.cursor.items := by
  obtain ⟨o', s₁, hpeek, h⟩ := bind_eq_ok.mp h
  have hsame : s₁.cursor.items = s.cursor.items := by
    rcases s.cursor.peek_cases with ⟨o, d, hp, hi, -, -⟩ | ⟨e, d, hp, -⟩
    · simp only [Run.reading, hp] at hpeek
      cases hpeek
      rw [Session.cursor_withCursor, hi]
    · simp only [Run.reading, hp] at hpeek
      cases hpeek
  cases o' with
  | none =>
    cases h
    exact hsame
  | some x =>
    cases ask with
    | none =>
      cases h
      exact hsame
    | some a =>
      obtain ⟨b, s₂, hask, h⟩ := bind_eq_ok.mp h
      have hkept := ha a rfl x s₁ b s₂ hask
      cases b <;> cases h <;> rw [hkept, hsame]

theorem consume_of_head {x : τ} (h : s.cursor.items.head? = some (.token x)) :
    ∃ d, consume s = .ok () (s.withCursor d) ∧ s.cursor.items = .token x :: d.items := by
  obtain ⟨d, hnext, hitems, -⟩ := Cursor.next_of_head h
  refine ⟨d, (bind_of_ok (a := some x) (t := s.withCursor d) ?_ _).trans rfl, hitems⟩
  simp only [Run.reading, hnext]

/-- What is done next matters only where a run can lead to. -/
theorem Advances.bind_congr {k k' : α → Run τ φ ν ε β} (h : Advances l d m) (hs : s.depth = d)
    (hk : ∀ a t, m s = .ok a t → s.Advances t → k a t = k' a t) : (m >>= k) s = (m >>= k') s := by
  have hstep := h s hs
  change EStateM.bind m k s = EStateM.bind m k' s
  unfold EStateM.bind
  cases hrun : m s with
  | ok a t =>
    rw [hrun] at hstep
    exact hk a t hrun hstep
  | error f t => rfl

end Run

namespace Parser

/-- Whatever the callbacks do, a parser goes on along its streams. -/
theorem advances_composes (p : Parser τ φ ν ε) (stop : Option (Stop τ φ ν ε)) :
    p.Composes stop Run.Advances where
  weaken h := h
  pure _ s _ := .refl s
  bind hm hk := hm.bind hk
  depth h := Run.Obeys.depth (Run.advances_iff.mp h)
  remaining h s hs := h _ s hs
  report _ s _ := .refl s
  record _ s _ := (Session.Advances.refl s).record _
  peek := Run.reading_advances Cursor.peek_advances
  next := Run.reading_advances Cursor.next_advances
  body _ h := h.deeper
  entered h := h.deeper
  call _ h := h.calling
  fails _ s _ := .refl s
  within side h := h.within side
  take := Run.take_advances

theorem enter_advances (p : Parser τ φ ν ε) (e : Entry τ φ ν ε α) (s : Session τ φ ν ε) :
    s.Advances (ending (p.enter e s)) :=
  Composes.enter p.advances_composes (fun _ s _ => .refl s) e s.depth s rfl

end Parser

/-- A token that is consumed is no longer left. -/
theorem consume_remaining {s t : Session τ φ ν ε} (h : consume s = .ok () t) :
    t.cursor.remaining ≤ s.cursor.remaining - 1 := by
  obtain ⟨o, u, hread, hu⟩ := bind_eq_ok.mp h
  cases hu
  have hnext := s.cursor.next_remaining
  unfold Run.reading at hread
  match hrun : s.cursor.next with
  | (.ok _, c) =>
    rw [hrun] at hread hnext
    cases hread
    rw [Session.cursor_withCursor]
    exact hnext
  | (.error e, c) =>
    rw [hrun] at hread
    cases hread

namespace Frame.Composes

variable {p : Parser τ φ ν ε} {stop : Option (Stop τ φ ν ε)} {d : Nat} {f : Frame τ φ ν ε}
  {s : Session τ φ ν ε}

/-- More steps than there are items left make no difference to a loop. -/
theorem continued_congr (h : f.Composes p stop Run.Advances d) (rbp : Precedence) {n n' : Nat}
    (nbp : Precedence) (lhs : ν) (hd : s.depth = d) (hn : s.cursor.remaining ≤ n)
    (hn' : s.cursor.remaining ≤ n') :
    f.continued rbp n nbp lhs s = f.continued rbp n' nbp lhs s := by
  -- each step of the loop consumes a token, so that neither count runs out before the stream does
  induction n generalizing n' nbp lhs s with
  | zero =>
    have hnil := List.eq_nil_of_length_eq_zero (Nat.le_zero.mp hn)
    rw [continued_of_nil hnil, continued_of_nil hnil]
  | succ n ih =>
    cases n' with
    | zero =>
      have hnil := List.eq_nil_of_length_eq_zero (Nat.le_zero.mp hn')
      rw [continued_of_nil hnil, continued_of_nil hnil]
    | succ n' =>
      refine h.visible.bind_congr hd fun o s₁ _ h₁ => ?_
      cases o with
      | none => rfl
      | some t =>
        refine (h.query t).bind_congr (h₁.depth.trans hd) fun op s₂ _ h₂ => ?_
        have hleft := (h₁.trans h₂).cursor.remaining_le
        have hdepth := (h₁.trans h₂).depth.trans hd
        split
        · refine h.steps.consume.bind_congr hdepth fun _ s₃ heat h₃ => ?_
          have hshorter := consume_remaining heat
          refine (h.led t op.continuing lhs).bind_congr (h₃.depth.trans hdepth)
            fun node s₄ _ h₄ => ?_
          have hrest := h₄.cursor.remaining_le
          apply ih
          · exact (h₄.depth.trans h₃.depth).trans hdepth
          · omega
          · omega
        · rfl

end Frame.Composes

/-- The loop of a frame of any parser ends before its steps do. -/
theorem Parser.continued_steady (p : Parser τ φ ν ε) (stop : Option (Stop τ φ ν ε))
    (rbp : Precedence) {n : Nat} (nbp : Precedence) (lhs : ν) {s : Session τ φ ν ε}
    (hn : s.cursor.remaining ≤ n) :
    (p.frameAt s.depth stop).continued rbp n nbp lhs s =
      (p.frameAt s.depth stop).continued rbp s.cursor.remaining nbp lhs s :=
  ((p.advances_composes stop).frameAt s.depth).continued_congr rbp nbp lhs rfl hn (Nat.le_refl _)

end BindingPower
