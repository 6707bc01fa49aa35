import BindingPower.Proofs.Reading

/-! # Runs follow readings

A run follows a reading at a depth if, on every session of that depth whose stream holds plain
tokens, both end alike, the run leaves the tokens that the reading leaves, and nothing but the
stream in use and the log has changed. -/
namespace BindingPower

variable {τ φ ν ε α β : Type}

/-- What a session has become once its tokens `ts` have been read down to `rest`. -/
structure Session.ReadTo (s : Session τ φ ν ε) (ts : List τ) (t : Session τ φ ν ε)
    (rest : List τ) : Prop where
  items : t.cursor.items = rest.map .token
  position : t.cursor.position + rest.length = s.cursor.position + ts.length
  depth : t.depth = s.depth
  side : t.side.isSome = s.side.isSome
  main : s.side.isSome = true → t.main = s.main

namespace Session.ReadTo

variable {s t u : Session τ φ ν ε} {ts rest more : List τ}

theorem refl (h : s.cursor.items = ts.map .token) : s.ReadTo ts s ts :=
  ⟨h, rfl, rfl, rfl, fun _ => rfl⟩

theorem trans (h : s.ReadTo ts t rest) (k : t.ReadTo rest u more) : s.ReadTo ts u more where
  items := k.items
  position := k.position.trans h.position
  depth := k.depth.trans h.depth
  side := k.side.trans h.side
  main hs := (k.main (h.side.trans hs)).trans (h.main hs)

theorem record (h : s.ReadTo ts t rest) (e : Event τ φ ν) : s.ReadTo ts (t.record e) rest :=
  ⟨h.items, h.position, h.depth, h.side, h.main⟩

theorem withCursor {c : Cursor τ ε} (hi : c.items = rest.map .token)
    (hp : c.position + rest.length = s.cursor.position + ts.length) :
    s.ReadTo ts (s.withCursor c) rest := by
  refine ⟨by rw [cursor_withCursor, hi], by rw [cursor_withCursor, hp], depth_withCursor s c, ?_, ?_⟩
  · unfold Session.withCursor
    split <;> simp_all
  · intro h
    unfold Session.withCursor
    split <;> simp_all

end Session.ReadTo

namespace Run

/-- The same ending, with the tokens that are left. -/
def Ends (s : Session τ φ ν ε) (ts : List τ) :
    EStateM.Result (Failure τ φ ε) (Session τ φ ν ε) α →
      EStateM.Result (Failure τ φ ε) (List τ) α → Prop
  | .ok a t, .ok b rest => a = b ∧ s.ReadTo ts t rest
  | .error f t, .error g rest => f = g ∧ s.ReadTo ts t rest
  | _, _ => False

def Follows (d : Nat) (m : Run τ φ ν ε α) (r : Reading τ φ ε α) : Prop :=
  ∀ (s : Session τ φ ν ε) (ts : List τ), s.depth = d → s.cursor.items = ts.map .token →
    Ends s ts (m s) (r ts)

variable {d : Nat}

theorem Ends.trans {s t : Session τ φ ν ε} {ts rest : List τ}
    {x : EStateM.Result (Failure τ φ ε) (Session τ φ ν ε) α}
    {y : EStateM.Result (Failure τ φ ε) (List τ) α}
    (h : s.ReadTo ts t rest) (k : Ends t rest x y) : Ends s ts x y := by
  cases x <;> cases y <;> first | exact k.elim | exact ⟨k.1, h.trans k.2⟩

/-- What a run returns, its reading returns. -/
theorem Follows.ok {m : Run τ φ ν ε α} {r : Reading τ φ ε α}
    {s t : Session τ φ ν ε} {ts : List τ} {a : α} (h : Follows d m r) (hd : s.depth = d)
    (hs : s.cursor.items = ts.map .token) (hm : m s = .ok a t) :
    ∃ rest, r ts = .ok a rest ∧ s.ReadTo ts t rest := by
  have he := h s ts hd hs
  rw [hm] at he
  cases hr : r ts with
  | ok b rest =>
    rw [hr] at he
    obtain ⟨rfl, ht⟩ := he
    exact ⟨rest, rfl, ht⟩
  | error f rest => rw [hr] at he; exact he.elim

/-- What a reading returns, its run returns. -/
theorem Follows.of_ok {m : Run τ φ ν ε α} {r : Reading τ φ ε α}
    {s : Session τ φ ν ε} {ts rest : List τ} {a : α} (h : Follows d m r) (hd : s.depth = d)
    (hs : s.cursor.items = ts.map .token) (hr : r ts = .ok a rest) :
    ∃ t, m s = .ok a t ∧ s.ReadTo ts t rest := by
  have he := h s ts hd hs
  rw [hr] at he
  cases hm : m s with
  | ok b t =>
    rw [hm] at he
    obtain ⟨rfl, ht⟩ := he
    exact ⟨t, rfl, ht⟩
  | error f t => rw [hm] at he; exact he.elim

theorem Follows.of_error {m : Run τ φ ν ε α} {r : Reading τ φ ε α}
    {s : Session τ φ ν ε} {ts rest : List τ} {f : Failure τ φ ε} (h : Follows d m r)
    (hd : s.depth = d)
    (hs : s.cursor.items = ts.map .token) (hr : r ts = .error f rest) :
    ∃ t, m s = .error f t ∧ s.ReadTo ts t rest := by
  have he := h s ts hd hs
  rw [hr] at he
  cases hm : m s with
  | ok b t => rw [hm] at he; exact he.elim
  | error g t =>
    rw [hm] at he
    obtain ⟨rfl, ht⟩ := he
    exact ⟨t, rfl, ht⟩

theorem follows_pure (a : α) : Follows (φ := φ) (ν := ν) (ε := ε) d (pure a) (pure a : Reading τ φ ε α) :=
  fun _ _ _ hi => ⟨rfl, .refl hi⟩

theorem follows_throw (f : Failure τ φ ε) :
    Follows (ν := ν) d (throw f) (throw f : Reading τ φ ε α) :=
  fun _ _ _ hi => ⟨rfl, .refl hi⟩

theorem Follows.bind {m : Run τ φ ν ε α} {r : Reading τ φ ε α} {k : α → Run τ φ ν ε β}
    {l : α → Reading τ φ ε β} (h : Follows d m r) (hk : ∀ a, Follows d (k a) (l a)) :
    Follows d (m >>= k) (r >>= l) := by
  intro s ts hd hi
  have hm := h s ts hd hi
  change Ends s ts (EStateM.bind m k s) (EStateM.bind r l ts)
  unfold EStateM.bind
  generalize m s = x at hm ⊢
  generalize r ts = y at hm ⊢
  match x, y, hm with
  | .ok a t, .ok _ rest, ⟨rfl, ht⟩ =>
    exact Ends.trans ht (hk a t rest (ht.depth.trans hd) ht.items)
  | .error f t, .error _ rest, ⟨rfl, ht⟩ => exact ⟨rfl, ht⟩

/-- Recording an event is no step of a reading. -/
theorem Follows.record {m : Run τ φ ν ε α} {r : Reading τ φ ε α} (h : Follows d m r)
    (e : Event τ φ ν) : Follows d (Run.record e >>= fun _ => m) r := by
  intro s ts hd hi
  exact Ends.trans (Session.ReadTo.record (.refl hi) e) (h (s.record e) ts hd hi)

theorem follows_report (r : Report τ φ ε) :
    Follows (ν := ν) d (Run.report r) (Reading.report r : Reading τ φ ε α) :=
  follows_throw (.report r)

theorem follows_peek :
    Follows (φ := φ) (ν := ν) (ε := ε) d (Run.reading Cursor.peek)
      (fun ts => .ok ts.head? ts : Reading τ φ ε (Option τ)) := by
  intro s ts _ hi
  obtain ⟨c, hp, hc, hpos⟩ := Cursor.peek_of_tokens hi
  simp only [Run.reading, hp]
  exact ⟨rfl, .withCursor hc (by rw [hpos])⟩

theorem follows_consume :
    Follows (φ := φ) (ν := ν) (ε := ε) d consume (Reading.consume : Reading τ φ ε Unit) := by
  intro s ts _ hi
  obtain ⟨c, hn, hc, hpos⟩ := Cursor.next_of_tokens hi
  change Ends s ts (EStateM.bind (Run.reading Cursor.next) _ s) _
  simp only [EStateM.bind, Run.reading, hn]
  exact ⟨rfl, .withCursor hc hpos⟩

/-- The number of tokens left is known to both sides. -/
theorem Follows.remaining {k : Nat → Run τ φ ν ε α} {l : Nat → Reading τ φ ε α}
    (h : ∀ n, Follows d (k n) (l n)) :
    Follows d (do k (← get).cursor.remaining) (do l (← get).length) := by
  intro s ts hd hi
  have hn : s.cursor.remaining = ts.length := by rw [Cursor.remaining, hi, List.length_map]
  change Ends s ts (k s.cursor.remaining s) (l ts.length ts)
  rw [hn]
  exact h _ s ts hd hi

/-- The depth is known to a reading at that depth. -/
theorem Follows.atDepth {k : Session τ φ ν ε → Run τ φ ν ε α} {r : Reading τ φ ε α}
    (h : ∀ s, s.depth = d → Follows d (k s) r) : Follows d (get >>= k) r :=
  fun s ts hd hi => h s hd s ts hd hi

theorem Follows.deeper {m : Run τ φ ν ε α} {r : Reading τ φ ε α} {n : Nat}
    (h : Follows (d + n) m r) (before after : Event τ φ ν) :
    Follows d (Run.deeper n before after m) r := by
  intro s ts hd hi
  have hm := h ((s.deepen n).record before) ts (by rw [← hd]; rfl) hi
  simp only [Run.deeper]
  generalize m ((s.deepen n).record before) = x at hm ⊢
  generalize r ts = y at hm ⊢
  have up {t : Session τ φ ν ε} {rest : List τ}
      (ht : ((s.deepen n).record before).ReadTo ts t rest) :
      s.ReadTo ts ((t.surface n).record after) rest :=
    ⟨ht.items, ht.position, by
      have := ht.depth
      simp only [Session.depth_record, Session.surface, Session.deepen] at this ⊢
      omega, ht.side, ht.main⟩
  match x, y, hm with
  | .ok a t, .ok _ rest, ⟨rfl, ht⟩ => exact ⟨rfl, up ht⟩
  | .error f t, .error _ rest, ⟨rfl, ht⟩ => exact ⟨rfl, up ht⟩

/-- A group is a stream of its own: what is done on it leaves the stream around it alone. -/
theorem Follows.within {m : Run τ φ ν ε α} {r : Reading τ φ ε α} {k : α × Cursor τ ε → Run τ φ ν ε β}
    {l : α → Reading τ φ ε β} (h : Follows d m r)
    (members : List τ) (hk : ∀ a c rest, r members = .ok a rest → c.items = rest.map .token →
      Follows d (k (a, c)) (l a)) :
    Follows d (Run.within (some (Cursor.ofTokens members)) m >>= k)
      (fun ts => match r members with
        | .ok a _ => l a ts
        | .error f _ => .error f ts) := by
  intro s ts hd hi
  have hm := h { s with side := some (Cursor.ofTokens members) } members hd rfl
  change Ends s ts (EStateM.bind (Run.within _ m) k s) _
  simp only [EStateM.bind, Run.within]
  generalize m { s with side := some (Cursor.ofTokens members) } = x at hm ⊢
  generalize hr : r members = y at hm ⊢
  have back {t : Session τ φ ν ε} {rest : List τ}
      (ht : Session.ReadTo { s with side := some (Cursor.ofTokens members) } members t rest) :
      s.ReadTo ts { t with side := s.side } ts := by
    have hmain : t.main = s.main := ht.main rfl
    have hc : ({ t with side := s.side } : Session τ φ ν ε).cursor = s.cursor := by
      simp only [Session.cursor, hmain]
    exact ⟨by rw [hc, hi], by rw [hc], ht.depth, rfl, fun _ => hmain⟩
  match x, y, hm with
  | .ok a t, .ok _ rest, ⟨rfl, ht⟩ =>
    exact Ends.trans (back ht) (hk a t.cursor rest hr ht.items _ ts (ht.depth.trans hd) (back ht).items)
  | .error f t, .error _ rest, ⟨rfl, ht⟩ => exact ⟨rfl, back ht⟩

/-- A contained failure is told by the depth at which it arose. -/
theorem Follows.catching {m : Run τ φ ν ε α} {r : Reading τ φ ε α} (h : Follows d m r)
    (limit : Nat) :
    Follows d (Run.catching (contain limit) m)
      (fun ts => match r ts with
        | .ok a rest => .ok a rest
        | .error f rest => .error (contain limit d f) rest) := by
  intro s ts hd hi
  have hm := h s ts hd hi
  simp only [Run.catching]
  generalize m s = x at hm ⊢
  generalize r ts = y at hm ⊢
  match x, y, hm with
  | .ok a t, .ok _ rest, ⟨rfl, ht⟩ => exact ⟨rfl, ht⟩
  | .error f t, .error _ rest, ⟨rfl, ht⟩ =>
    exact ⟨by rw [ht.depth.trans hd], ht.record .failed⟩

end Run

namespace Reading

/-- A callback that ends at once, with its failure contained. -/
def contained (limit depth : Nat) : Except (Failure τ φ ε) α → Except (Failure τ φ ε) α
  | .ok a => .ok a
  | .error f => .error (contain limit depth f)

theorem contained_eq_ok {limit depth : Nat} {r : Except (Failure τ φ ε) α} {a : α} :
    contained limit depth r = .ok a ↔ r = .ok a := by
  cases r <;> simp [contained]

end Reading

/-- A predicate that is asked without effect. -/
def Stop.ofPredicate (test : τ → Bool) : Stop τ φ ν ε := fun t => .value (test t)

namespace Parser

variable {d : Nat}

theorem calling_follows (p : Parser τ φ ν ε) (c : Call τ φ ν) {body : Run τ φ ν ε α}
    {r : Except (Failure τ φ ε) α} (h : Run.Follows d body (Reading.answer r)) :
    Run.Follows d (p.calling c body)
      (Reading.answer (Reading.contained p.config.maxDepth d r)) := by
  refine .record ?_ _
  have hcatch := h.catching p.config.maxDepth
  cases r with
  | ok a => exact hcatch
  | error f => exact hcatch

theorem calling_ofExcept_follows (p : Parser τ φ ν ε) (c : Call τ φ ν)
    (enter : Goal → Option (StopTest τ φ ε) → Run τ φ ν ε ν) (r : Except (Failure τ φ ε) α) :
    Run.Follows d (p.calling c ((Callback.ofExcept r).perform enter))
      (Reading.answer (Reading.contained p.config.maxDepth d r)) := by
  refine calling_follows p c ?_
  cases r with
  | ok a => exact Run.follows_pure a
  | error f => exact Run.follows_throw f

theorem visible_follows (p : Parser τ φ ν ε)
    (enter : Goal → Option (StopTest τ φ ε) → Run τ φ ν ε ν) (stop : Option (τ → Bool)) :
    Run.Follows d (visible (p.asking enter (stop.map Stop.ofPredicate)))
      (Reading.visible (stop.getD Reading.never)) := by
  change Run.Follows d (Run.reading Cursor.peek >>= _)
    ((fun ts => .ok ts.head? ts) >>= fun o => pure (o.filter fun t => !stop.getD Reading.never t))
  refine Run.follows_peek.bind fun o => ?_
  cases o with
  | none => exact Run.follows_pure none
  | some t =>
    cases stop with
    | none => exact Run.follows_pure (some t)
    | some test =>
      have ask := calling_ofExcept_follows (d := d) p (.stop t) enter (.ok (test t))
      have hk : ∀ b : Bool, Run.Follows (ν := ν) d
          (if b = true then pure none else pure (some t))
          (pure (if b then none else some t) : Reading τ φ ε (Option τ)) := by
        intro b
        cases b
        · exact Run.follows_pure (some t)
        · exact Run.follows_pure none
      have answered : ((some t).filter fun t => !test t) = if test t then none else some t := by
        cases ht : test t <;> simp [ht]
      change Run.Follows d _ (pure ((some t).filter fun t => !test t))
      rw [answered]
      exact ask.bind hk

end Parser

end BindingPower
