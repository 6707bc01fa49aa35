import BindingPower.Proofs.Advancing

/-! # Linear work

Every token pays for three classifications when it is consumed: its own, one that ends a loop and
one that looks for a separator. Where a callback reads a group, it is paid for by the tokens of the
group. An operand leaves one classification over, and a run that consumes nothing makes none. -/
namespace BindingPower

variable {τ φ ν ε α β : Type}

def Event.isQuery : Event τ φ ν → Bool
  | called (.query _) => true
  | _ => false

/-- The number of classifications that a log tells of. -/
def Log.queries (log : Log τ φ ν) : Nat := log.countP fun e => e.2.isQuery

theorem Log.queries_append (newer log : Log τ φ ν) :
    Log.queries (newer ++ log) = newer.queries + log.queries := List.countP_append

theorem Session.record_queries (s : Session τ φ ν ε) (e : Event τ φ ν) :
    Log.queries (s.record e).log = Log.queries s.log + e.isQuery.toNat := by
  unfold Log.queries Session.record
  rw [List.countP_cons]
  cases e.isQuery <;> rfl

section Weights

variable (w : τ → Nat)

def Item.weight : Item τ ε → Nat
  | token t => w t
  | fault _ => 0

def Item.weights : List (Item τ ε) → Nat
  | [] => 0
  | i :: items => i.weight w + weights items

/-- The weight of everything that is left of a stream. -/
def Cursor.load (c : Cursor τ ε) : Nat := Item.weights w c.items

/-- What has been classified and what is left to be paid for come to no more than the budget. -/
def Session.Owes (B : Int) (s : Session τ φ ν ε) : Prop :=
  (Log.queries s.log : Int) + 3 * s.cursor.load w ≤ B

/-- The budget also covers that the token is consumed, which comes next unless it has been
consumed already. -/
def Session.Faces (t : τ) (B : Int) (s : Session τ φ ν ε) : Prop :=
  s.Owes w B ∧ (s.cursor.items.head? = some (.token t) ∨ s.Owes w (B - 3 * w t))

end Weights

variable {w : τ → Nat}

theorem Item.weights_append (before items : List (Item τ ε)) :
    weights w (before ++ items) = weights w before + weights w items := by
  induction before with
  | nil => exact (Nat.zero_add _).symm
  | cons i before ih =>
    rw [List.cons_append, weights, weights, ih]
    omega

theorem Cursor.Advances.load_le {c d : Cursor τ ε} (h : c.Advances d) : d.load w ≤ c.load w := by
  obtain ⟨before, hb⟩ := h.items
  unfold load
  rw [← hb, Item.weights_append]
  exact Nat.le_add_left _ _

/-- Unless nothing has been consumed, the token at the front has been. -/
theorem Cursor.Advances.head {c d : Cursor τ ε} {t : τ} (h : c.Advances d)
    (hc : c.items.head? = some (.token t)) :
    d.items.head? = some (.token t) ∨ d.load w + w t ≤ c.load w := by
  obtain ⟨before, hb⟩ := h.items
  cases before with
  | nil =>
    rw [← hb] at hc
    exact .inl hc
  | cons i before =>
    have hi : i = .token t := by
      rw [← hb] at hc
      exact Option.some.inj hc
    subst hi
    right
    unfold load
    rw [← hb, Item.weights_append, Item.weights, Item.weight]
    omega

/-- Weighed alike, tokens are counted. -/
theorem Cursor.load_one (c : Cursor τ ε) : c.load (fun _ => 1) = c.supply := by
  unfold load supply
  induction c.items with
  | nil => rfl
  | cons i items ih =>
    rw [Item.weights, List.countP_cons, ih]
    cases i <;> simp [Item.weight, Item.isToken, Nat.add_comm]

namespace Session

variable {s u : Session τ φ ν ε} {B : Int} {n : Nat} {t : τ}

/-- A larger budget does as well. -/
theorem Owes.mono {C : Int} (h : s.Owes w B) (hB : B ≤ C) : s.Owes w C := Int.le_trans h hB

/-- Classifications are charged to the budget, and what is consumed is not. -/
theorem Owes.spend (h : s.Owes w B) (hc : s.cursor.Advances u.cursor)
    (hq : Log.queries u.log ≤ Log.queries s.log + n) : u.Owes w (B + n) := by
  have hload := hc.load_le (w := w)
  unfold Owes at h ⊢
  omega

theorem Faces.spend (h : s.Faces w t B) (hc : s.cursor.Advances u.cursor)
    (hq : Log.queries u.log ≤ Log.queries s.log + n) : u.Faces w t (B + n) := by
  refine ⟨h.1.spend hc hq, ?_⟩
  rcases h.2 with hhead | hgone
  · rcases hc.head (w := w) hhead with hstill | hless
    · exact .inl hstill
    · right
      have howes := h.1
      unfold Owes at howes ⊢
      omega
  · exact .inr ((hgone.spend hc hq).mono (by omega))

/-- A budget only goes by what has been classified and by the stream in use. -/
theorem Owes.congr (h : s.Owes w B) (hc : u.cursor = s.cursor)
    (hq : Log.queries u.log = Log.queries s.log) : u.Owes w B := by
  unfold Owes at h ⊢
  rwa [hc, hq]

theorem Faces.congr (h : s.Faces w t B) (hc : u.cursor = s.cursor)
    (hq : Log.queries u.log = Log.queries s.log) : u.Faces w t B := by
  refine ⟨h.1.congr hc hq, ?_⟩
  rw [hc]
  exact h.2.imp_right fun hgone => hgone.congr hc hq

theorem queries_down (s : Session τ φ ν ε) (n : Nat) {e : Event τ φ ν} (he : e.isQuery = false) :
    Log.queries ((s.deepen n).record e).log = Log.queries s.log := by
  rw [record_queries, he]
  rfl

theorem queries_up (s : Session τ φ ν ε) (n : Nat) {e : Event τ φ ν} (he : e.isQuery = false) :
    Log.queries ((s.surface n).record e).log = Log.queries s.log := by
  rw [record_queries, he]
  rfl

end Session

namespace Run

/-- The run goes on along its streams from any depth. -/
def Onward (m : Run τ φ ν ε α) : Prop := ∀ l d, Run.Advances l d m

theorem Onward.step {m : Run τ φ ν ε α} (h : Onward m) (s : Session τ φ ν ε) :
    s.Advances (ending (m s)) := h .engine s.depth s rfl

/-- Whatever the run ends in, it classifies no more than `n` tokens. -/
structure Spends (n : Nat) (m : Run τ φ ν ε α) : Prop where
  onward : Onward m
  queries : ∀ s, Log.queries (ending (m s)).log ≤ Log.queries s.log + n

/-- A budget is kept: a result leaves some of it, and so does a failure. -/
inductive Paid (w : τ → Nat) (Q : α → Session τ φ ν ε → Prop) (B : Int) :
    EStateM.Result (Failure τ φ ε) (Session τ φ ν ε) α → Prop where
  | ok {a : α} {t : Session τ φ ν ε} (h : Q a t) : Paid w Q B (.ok a t)
  | error {f : Failure τ φ ε} {t : Session τ φ ν ε} (h : t.Owes w B) : Paid w Q B (.error f t)

/-- With a budget of the first kind, the run costs `n` if it returns and `e` if it fails. -/
structure Pays (w : τ → Nat) (P : Int → Session τ φ ν ε → Prop) (n e : Int)
    (m : Run τ φ ν ε α) (Q : α → Int → Session τ φ ν ε → Prop) : Prop where
  onward : Onward m
  paid : ∀ B s, P B s → Paid w (fun a => Q a (B + n)) (B + e) (m s)

/-- The run costs `n` if it returns and `e` if it fails. -/
abbrev Costs (w : τ → Nat) (n e : Int) (m : Run τ φ ν ε α) : Prop :=
  Pays w (Session.Owes w) n e m fun _ => Session.Owes w

/-- Where the run returns, something is left over; where it fails, that is so as well, unless it has
classified nothing. -/
inductive Saved (w : τ → Nat) (s : Session τ φ ν ε) (B : Int) :
    EStateM.Result (Failure τ φ ε) (Session τ φ ν ε) α → Prop where
  | ok {a : α} {t : Session τ φ ν ε} (h : t.Owes w (B - 1)) : Saved w s B (.ok a t)
  | error {f : Failure τ φ ε} {t : Session τ φ ν ε}
    (h : t.Owes w (B - 1) ∨ Log.queries t.log ≤ Log.queries s.log) : Saved w s B (.error f t)

structure Saves (w : τ → Nat) (P : Int → Session τ φ ν ε → Prop) (m : Run τ φ ν ε α) : Prop where
  onward : Onward m
  saved : ∀ B s, P B s → Saved w s B (m s)

theorem Saves.ending_owes {m : Run τ φ ν ε α} (h : Saves w (Session.Owes w) m)
    (s : Session τ φ ν ε) :
    (ending (m s)).Owes w (Log.queries s.log + 3 * s.cursor.load w - 1) ∨
      Log.queries (ending (m s)).log ≤ Log.queries s.log := by
  have hsaved := h.saved _ s (Int.le_refl _)
  generalize m s = x at hsaved ⊢
  cases hsaved with
  | ok ht => exact .inl ht
  | error ht => exact ht

variable {m : Run τ φ ν ε α} {n : Nat} {s : Session τ φ ν ε}

theorem Onward.bind {k : α → Run τ φ ν ε β} (h : Onward m) (hk : ∀ a, Onward (k a)) :
    Onward (m >>= k) := fun l d => (h l d).bind fun a => hk a l d

theorem onward_refl (h : ∀ s, ending (m s) = s) : Onward m := fun _ _ s _ => by
  rw [h s]
  exact .refl s

/-! ## Steps that count classifications -/

theorem spends_pure (a : α) : Spends n (pure a : Run τ φ ν ε α) :=
  ⟨onward_refl fun _ => rfl, fun _ => Nat.le_add_right _ _⟩

theorem spends_throw (f : Failure τ φ ε) : Spends n (throw f : Run τ φ ν ε α) :=
  ⟨onward_refl fun _ => rfl, fun _ => Nat.le_add_right _ _⟩

theorem spends_report (r : Report τ φ ε) : Spends n (Run.report r : Run τ φ ν ε α) :=
  spends_throw (.report r)

theorem Spends.mono {i : Nat} (h : Spends n m) (hi : n ≤ i) : Spends i m :=
  ⟨h.onward, fun s => Nat.le_trans (h.queries s) (Nat.add_le_add_left hi _)⟩

theorem Spends.bind {k : α → Run τ φ ν ε β} {i : Nat} (h : Spends n m)
    (hk : ∀ a, Spends i (k a)) : Spends (n + i) (m >>= k) where
  onward := h.onward.bind fun a => (hk a).onward
  queries s := by
    have hfirst := h.queries s
    change Log.queries (ending (EStateM.bind m k s)).log ≤ _
    unfold EStateM.bind
    cases hrun : m s with
    | error f t =>
      rw [hrun] at hfirst
      exact Nat.le_trans hfirst (by omega)
    | ok a t =>
      rw [hrun] at hfirst
      have hnext := (hk a).queries t
      exact Nat.le_trans hnext (by simp only [ending] at hfirst; omega)

theorem spends_reading {f : Cursor τ ε → Except ε α × Cursor τ ε}
    (hf : ∀ c : Cursor τ ε, c.Advances (f c).2) :
    Spends 0 (Run.reading f : Run τ φ ν ε α) where
  onward _ _ := reading_advances hf
  queries s := by
    unfold Run.reading
    generalize f s.cursor = x
    obtain ⟨_ | _, c⟩ := x <;> exact Nat.le_of_eq (congrArg Log.queries (s.log_withCursor c))

theorem spends_take : Spends 0 (Run.readingMain Cursor.next : Run τ φ ν ε (Option τ)) where
  onward _ _ := take_advances
  queries s := by
    unfold Run.readingMain
    generalize s.main.next = x
    obtain ⟨_ | _, c⟩ := x <;> exact Nat.le_refl _

theorem spends_peek : Spends 0 (Run.reading Cursor.peek : Run τ φ ν ε (Option τ)) :=
  spends_reading Cursor.peek_advances

theorem spends_consume : Spends 0 (consume : Run τ φ ν ε Unit) :=
  (spends_reading Cursor.next_advances).bind (i := 0) fun _ => spends_pure ()

theorem spends_record {e : Event τ φ ν} (he : e.isQuery = false) :
    Spends 0 (Run.record e : Run τ φ ν ε Unit) where
  onward _ _ s _ := (Session.Advances.refl s).record e
  queries s := by
    have hrecord := s.record_queries e
    rw [he] at hrecord
    exact Nat.le_of_eq hrecord

/-- A call is charged for what its callback does, and a classification for itself. -/
theorem Spends.calling {p : Parser τ φ ν ε} (h : Spends n m) (c : Call τ φ ν) :
    Spends (n + (Event.called c).isQuery.toNat) (p.calling c m) where
  onward _ d := Advances.calling (h.onward .callback d)
  queries s := by
    have hbody := h.queries (s.record (.called c))
    rw [s.record_queries] at hbody
    change Log.queries (ending (Run.catching _ m (s.record (.called c)))).log ≤ _
    unfold Run.catching
    cases hrun : m (s.record (.called c)) with
    | ok a t =>
      rw [hrun] at hbody
      simp only [ending] at hbody ⊢
      omega
    | error f t =>
      rw [hrun] at hbody
      simp only [ending, t.record_queries, Event.isQuery, Bool.toNat_false] at hbody ⊢
      omega

theorem spends_visible {ask : Option (τ → Run τ φ ν ε Bool)}
    (ha : ∀ a ∈ ask, ∀ t, Spends 0 (a t)) : Spends 0 (visible ask) := by
  refine spends_peek.bind (i := 0) fun o => ?_
  cases o with
  | none => exact spends_pure none
  | some t =>
    cases ask with
    | none => exact spends_pure (some t)
    | some a =>
      refine (ha a rfl t).bind (i := 0) fun yes => ?_
      cases yes with
      | true => exact spends_pure none
      | false => exact spends_pure (some t)

/-! ## Steps that keep a budget -/

variable {P : Int → Session τ φ ν ε → Prop} {Q : α → Int → Session τ φ ν ε → Prop}

theorem Pays.bind {k : α → Run τ φ ν ε β} {R : β → Int → Session τ φ ν ε → Prop} {a b e f : Int}
    (h : Pays w P a e m Q) (hk : ∀ x, Pays w (Q x) b f (k x) R) :
    Pays w P (a + b) (max e (a + f)) (m >>= k) R where
  onward := h.onward.bind fun x => (hk x).onward
  paid B s hs := by
    have hfirst := h.paid B s hs
    change Paid w _ _ (EStateM.bind m k s)
    unfold EStateM.bind
    generalize m s = x at hfirst ⊢
    cases hfirst with
    | error hf => exact .error (hf.mono (by omega))
    | @ok x t hq =>
      have hnext := (hk x).paid (B + a) t hq
      dsimp only
      generalize k x t = y at hnext ⊢
      cases hnext with
      | ok hr =>
        rw [Int.add_assoc] at hr
        exact .ok hr
      | error hf => exact .error (hf.mono (by omega))

theorem Pays.weaken {a n e r : Int} (h : Pays w P a e m fun _ => Session.Owes w) (hn : a ≤ n)
    (he : e ≤ r) : Pays w P n r m fun _ => Session.Owes w where
  onward := h.onward
  paid B s hs := by
    have hpaid := h.paid B s hs
    generalize m s = x at hpaid ⊢
    cases hpaid with
    | ok ht => exact .ok (ht.mono (by omega))
    | error ht => exact .error (ht.mono (by omega))

/-- A run that faces a token may forget about it. -/
theorem Pays.faced {a e : Int} (h : Pays w (Session.Owes w) a e m Q) (t : τ) :
    Pays w (Session.Faces w t) a e m Q := ⟨h.onward, fun B s hs => h.paid B s hs.1⟩

theorem Spends.costs (h : Spends n m) : Costs w n n m where
  onward := h.onward
  paid B s hs := by
    have hadv := (h.onward.step s).cursor
    have hq := h.queries s
    generalize m s = x at hadv hq ⊢
    cases x with
    | ok a t => exact .ok (hs.spend hadv hq)
    | error f t => exact .error (hs.spend hadv hq)

theorem Spends.faces (h : Spends n m) (x : τ) :
    Pays w (Session.Faces w x) n n m fun _ => Session.Faces w x where
  onward := h.onward
  paid B s hs := by
    have hadv := (h.onward.step s).cursor
    have hq := h.queries s
    generalize m s = y at hadv hq ⊢
    cases y with
    | ok a t => exact .ok (hs.spend hadv hq)
    | error f t => exact .error (hs.1.spend hadv hq)

theorem costs_pure (a : α) : Costs w 0 0 (pure a : Run τ φ ν ε α) := (spends_pure (n := 0) a).costs

theorem costs_report (r : Report τ φ ε) : Costs w 0 0 (Run.report r : Run τ φ ν ε α) :=
  (spends_report (n := 0) r).costs

/-- An event that is recorded costs nothing, unless it is a classification. -/
theorem Pays.recorded {a r : Int} (h : Costs w a r m) {e : Event τ φ ν} (he : e.isQuery = false)
    (hr : 0 ≤ r) : Costs w a r (Run.record e >>= fun _ => m) :=
  ((spends_record he).costs.bind fun _ => h).weaken (by omega) (by omega)

theorem Saves.costs (h : Saves w (Session.Owes w) m) : Costs w (-1) 0 m where
  onward := h.onward
  paid B s hs := by
    have hadv := (h.onward.step s).cursor
    have hsaved := h.saved B s hs
    generalize m s = x at hadv hsaved ⊢
    cases hsaved with
    | ok ht => exact .ok ht
    | error ht =>
      refine .error ?_
      rcases ht with ht | hq
      · exact ht.mono (by omega)
      · exact hs.spend (n := 0) hadv hq

/-- What costs less than nothing in any case leaves something over. -/
theorem Pays.saves (h : Pays w P (-1) (-1) m fun _ => Session.Owes w) : Saves w P m where
  onward := h.onward
  saved B s hs := by
    have hpaid := h.paid B s hs
    generalize m s = x at hpaid ⊢
    cases hpaid with
    | ok ht => exact .ok ht
    | error ht => exact .error (.inl ht)

/-- Kinds of budgets by what has been found in sight. -/
def Seen (w : τ → Nat) : Option τ → Int → Session τ φ ν ε → Prop
  | none => Session.Owes w
  | some t => Session.Faces w t

theorem pays_visible {ask : Option (τ → Run τ φ ν ε Bool)} (h : Spends 0 (visible ask)) :
    Pays w (Session.Owes w) 0 0 (visible ask) (Seen w) where
  onward := h.onward
  paid B s hs := by
    have hadv := (h.onward.step s).cursor
    have hq := h.queries s
    cases hrun : visible ask s with
    | error f t =>
      rw [hrun] at hadv hq
      exact .error (hs.spend hadv hq)
    | ok o t =>
      rw [hrun] at hadv hq
      cases o with
      | none => exact .ok (hs.spend hadv hq)
      | some x =>
        have facing : s.Faces w x B := ⟨hs, .inl (visible_head hrun)⟩
        exact .ok (facing.spend hadv hq)

/-- The token that a run faces pays when it is consumed. -/
theorem pays_consume (x : τ) :
    Pays w (Session.Faces w x) (-3 * w x) (-3 * w x) (consume : Run τ φ ν ε Unit)
      fun _ => Session.Owes w where
  onward := spends_consume.onward
  paid B s hs := by
    rcases hs.2 with hhead | hgone
    · obtain ⟨d, hrun, hitems⟩ := consume_of_head hhead
      have hload : s.cursor.load w = w x + d.load w := by
        rw [Cursor.load, hitems, Item.weights, Item.weight, Cursor.load]
      rw [hrun]
      refine .ok ?_
      have howes := hs.1
      unfold Session.Owes at howes ⊢
      rw [Session.log_withCursor, Session.cursor_withCursor]
      omega
    · have hkept := (spends_consume.costs (w := w)).paid (B - 3 * w x) s hgone
      generalize (consume : Run τ φ ν ε Unit) s = y at hkept ⊢
      cases hkept with
      | ok ht => exact .ok (ht.mono (by omega))
      | error ht => exact .error (ht.mono (by omega))

end Run

open Run

/-! ## Frames -/

/-- The calls of a frame classify nothing but what they are asked to, except for the reading of a
leaf, which its token pays for, and operands leave something over. -/
structure Frame.Affords (w : τ → Nat) (f : Frame τ φ ν ε) : Prop where
  weight : ∀ t, 1 ≤ w t
  query : ∀ t, Spends 1 (f.query t)
  nullary : ∀ t, Spends (3 * (w t - 1)) (f.nullary t)
  unary : ∀ t x, Spends 0 (f.unary t x)
  binary : ∀ t x y, Spends 0 (f.binary t x y)
  ternary : ∀ t x y z, Spends 0 (f.ternary t x y z)
  isFollow : ∀ t mark, Spends 0 (f.isFollow t mark)
  visible : Spends 0 f.visible
  operand : ∀ p, Saves w (Session.Owes w) (f.operand p)

namespace Frame.Affords

variable {f : Frame τ φ ν ε}

theorem separates (h : f.Affords w) (expected : Option φ) (t : τ) :
    Spends 1 (f.separates expected t) := by
  refine (h.query t).bind (i := 0) fun op => ?_
  cases expected with
  | none => exact spends_pure _
  | some mark =>
    dsimp only
    split
    · exact h.isFollow t mark
    · exact spends_pure _

theorem missing (f : Frame τ φ ν ε) (expected : Option φ) (found : Option τ) :
    Spends 0 (f.missing expected found) := by
  cases expected with
  | none => exact spends_pure none
  | some mark =>
    dsimp only [Frame.missing]
    split
    · exact spends_report _
    · exact spends_pure none

theorem eatSeparator (h : f.Affords w) (expected : Option φ) :
    Spends 1 (f.eatSeparator expected) := by
  refine h.visible.bind (i := 1) fun o => ?_
  cases o with
  | none => exact (missing f expected none).mono (Nat.zero_le 1)
  | some t =>
    refine (h.separates expected t).bind (i := 0) fun yes => ?_
    cases yes with
    | false => exact missing f expected (some t)
    | true =>
      exact (spends_record rfl).bind (i := 0) fun _ => spends_consume.bind (i := 0) fun _ =>
        spends_pure (some t)

/-- What a leading token reads is paid for by its operands, or by itself if it is a leaf. -/
theorem nud (h : f.Affords w) (head : τ) (op : Operator φ) :
    Costs w (3 * (w head - 1)) (3 * (w head - 1)) (f.nud head op) := by
  have hpos := h.weight head
  have operand (p : Precedence) : Costs w (-1) 0 (f.operand p) := (h.operand p).costs
  have separator (expected : Option φ) : Costs w 1 1 (f.eatSeparator expected) :=
    (h.eatSeparator expected).costs
  have refused (r : Report τ φ ε) :
      Costs w (3 * (w head - 1)) (3 * (w head - 1)) (Run.report r : Run τ φ ν ε ν) :=
    (costs_report r).weaken (by omega) (by omega)
  refine Pays.recorded ?_ rfl (by omega)
  generalize op.leading.affix = affix, op.leading.arity = arity
  cases affix with
  | nilfix =>
    cases arity with
    | nullary => exact (h.nullary head).costs.weaken (by omega) (by omega)
    | _ => exact refused _
  | prefixed =>
    cases arity with
    | unary =>
      exact ((operand _).bind fun x => (h.unary head x).costs).weaken (by omega) (by omega)
    | ternary =>
      exact ((operand _).bind fun a => (separator _).bind fun _ => (operand _).bind fun b =>
        (separator _).bind fun _ => (operand _).bind fun c =>
          (h.ternary head a b c).costs).weaken (by omega) (by omega)
    | _ => exact refused _
  | circumfix =>
    cases arity with
    | unary =>
      exact ((operand _).bind fun x => (separator _).bind fun _ =>
        (h.unary head x).costs).weaken (by omega) (by omega)
    | _ => exact refused _
  | _ => exact refused _

/-- What a continuing token reads is paid for by its operands. -/
theorem led (h : f.Affords w) (head : τ) (op : Operator φ) (lhs : ν) :
    Costs w 0 0 (f.led head op lhs) := by
  have operand (p : Precedence) : Costs w (-1) 0 (f.operand p) := (h.operand p).costs
  have separator (expected : Option φ) : Costs w 1 1 (f.eatSeparator expected) :=
    (h.eatSeparator expected).costs
  have mixfix : Costs w 0 0 (do
      let b ← f.operand .bottom
      let _ ← f.eatSeparator op.continuing.follow[0]?
      let c ← f.operand op.continuing.rightPower
      f.ternary head lhs b c) :=
    ((operand _).bind fun b => (separator _).bind fun _ => (operand _).bind fun c =>
      (h.ternary head lhs b c).costs).weaken (by omega) (by omega)
  refine Pays.recorded ?_ rfl (by omega)
  generalize op.continuing.affix = affix, op.continuing.arity = arity
  cases affix with
  | postfixed =>
    cases arity with
    | unary => exact (h.unary head lhs).costs
    | ternary => exact mixfix
    | _ => exact costs_report _
  | infixed =>
    cases arity with
    | binary =>
      exact ((operand _).bind fun x => (h.binary head lhs x).costs).weaken (by omega) (by omega)
    | ternary => exact mixfix
    | _ => exact costs_report _
  | _ => exact costs_report _

/-- A loop costs the classification that ends it: the others are paid for by their tokens. -/
theorem continued (h : f.Affords w) (rbp : Precedence) (n : Nat) (nbp : Precedence) (lhs : ν) :
    Costs w 1 1 (f.continued rbp n nbp lhs) := by
  induction n generalizing nbp lhs with
  | zero => exact (costs_pure lhs).weaken (by omega) (by omega)
  | succ n ih =>
    refine ((pays_visible h.visible).bind (b := 1) (f := 1) fun o => ?_).weaken
      (by omega) (by omega)
    cases o with
    | none => exact (costs_pure lhs).weaken (by omega) (by omega)
    | some t =>
      have hpos := h.weight t
      refine (((h.query t).faces t).bind (b := 0) (f := 0) fun op => ?_).weaken
        (by omega) (by omega)
      split
      · -- what is consumed pays for its own classification and for the one at the end
        exact ((pays_consume t).bind fun _ => (h.led t op.continuing lhs).bind fun node =>
          ih _ node).weaken (by omega) (by omega)
      · exact (costs_pure lhs).faced t

theorem climb (h : f.Affords w) (rbp : Precedence) (head : τ) :
    Pays w (Session.Faces w head) (-1) (-1) (f.climb rbp head) fun _ => Session.Owes w := by
  have hpos := h.weight head
  have loop (nbp : Precedence) (node : ν) :
      Costs w 1 1 (get >>= fun s => f.continued rbp s.cursor.remaining nbp node) :=
    ⟨fun l d s hd => (h.continued rbp s.cursor.remaining nbp node).onward l d s hd,
      fun B s hs => (h.continued rbp s.cursor.remaining nbp node).paid B s hs⟩
  -- three for each unit of weight: all but three may go for what the token reads, two go for its own
  -- classification and for the one that ends the loop, and one is left
  exact ((pays_consume head).bind fun _ => (h.query head).costs.bind fun op =>
    (h.nud head op.leading).bind fun node => loop _ node).weaken (by omega) (by omega)

end Frame.Affords

theorem startingAt_saves {ask : Option (τ → Run τ φ ν ε Bool)} {body : τ → Run τ φ ν ε ν}
    (ha : Spends 0 (visible ask)) (hb : ∀ t, Saves w (Session.Faces w t) (body t)) :
    Saves w (Session.Owes w) (startingAt ask body) where
  onward := ha.onward.bind fun o => by
    cases o with
    | none => exact (spends_report (n := 0) .emptyInput).onward
    | some t => exact (hb t).onward
  saved B s hs := by
    have hq := ha.queries s
    have hseen := (pays_visible ha).paid B s hs
    change Saved w s B (EStateM.bind (visible ask) _ s)
    unfold EStateM.bind
    generalize visible ask s = x at hq hseen ⊢
    cases hseen with
    | error hf => exact .error (.inr hq)
    | @ok o t ht =>
      cases o with
      | none => exact .error (.inr hq)
      | some head =>
        have hbody := (hb head).saved _ t ht
        dsimp only
        generalize body head t = y at hbody ⊢
        rw [Int.add_zero] at hbody
        cases hbody with
        | ok hu => exact .ok hu
        | error hu => exact .error (hu.imp_right fun hmore => Nat.le_trans hmore hq)

namespace Run

variable {m : Run τ φ ν ε α} {n : Nat} {P : Int → Session τ φ ν ε → Prop}

/-- The events of a level are no classifications. -/
theorem Saves.deeper {before after : Event τ φ ν} (h : Saves w P m) (hb : before.isQuery = false)
    (ha : after.isQuery = false) (hp : ∀ {B s}, P B s → P B ((s.deepen n).record before)) :
    Saves w P (Run.deeper n before after m) where
  onward l d := (h.onward l (d + n)).deeper
  saved B s hs := by
    have hsaved := h.saved B _ (hp hs)
    simp only [Run.deeper]
    generalize m ((s.deepen n).record before) = x at hsaved ⊢
    cases hsaved with
    | ok ht => exact .ok (ht.congr rfl (Session.queries_up _ n ha))
    | @error f t ht =>
      refine .error (ht.imp (fun howes => howes.congr rfl (Session.queries_up t n ha)) fun hq => ?_)
      rw [Session.queries_up t n ha]
      rwa [s.queries_down n hb] at hq

/-- What is done with a result may classify nothing more. -/
theorem Saves.bind {k : α → Run τ φ ν ε β} (h : Saves w P m) (hk : ∀ a, Spends 0 (k a)) :
    Saves w P (m >>= k) where
  onward := h.onward.bind fun a => (hk a).onward
  saved B s hs := by
    have hsaved := h.saved B s hs
    change Saved w s B (EStateM.bind m k s)
    unfold EStateM.bind
    generalize m s = x at hsaved ⊢
    cases hsaved with
    | error ht => exact .error ht
    | @ok a t ht =>
      have hmore := ((hk a).costs (w := w)).paid (B - 1) t ht
      dsimp only
      generalize k a t = y at hmore ⊢
      cases hmore with
      | ok hu => exact .ok (by simpa using hu)
      | error hu => exact .error (.inl (by simpa using hu))

theorem saves_throw (f : Failure τ φ ε) : Saves w P (throw f : Run τ φ ν ε α) :=
  ⟨(spends_throw (n := 0) f).onward, fun _ _ _ => .error (.inr (Nat.le_refl _))⟩

theorem Saves.of_depth {k : Nat → Run τ φ ν ε α} (h : ∀ d, Saves w P (k d)) :
    Saves w P (get >>= fun s => k s.depth) :=
  ⟨fun l d s hd => (h s.depth).onward l d s hd, fun B s hs => (h s.depth).saved B s hs⟩

/-- A stream of its own pays for what is read on it. -/
theorem Saves.within (h : Saves w (Session.Owes w) m) (c : Cursor τ ε) :
    Spends (3 * c.load w) (Run.within (some c) m) where
  onward l d := (h.onward l d).within (some c)
  queries s := by
    have hstart :
        Session.Owes w (Log.queries s.log + 3 * c.load w : Int) { s with side := some c } :=
      Int.le_refl _
    have hsaved := h.saved _ { s with side := some c } hstart
    unfold Run.within
    generalize m { s with side := some c } = x at hsaved ⊢
    cases hsaved with
    | @ok a t ht =>
      change Log.queries t.log ≤ _
      unfold Session.Owes at ht
      omega
    | @error f t ht =>
      change Log.queries t.log ≤ _
      rcases ht with ht | hq
      · unfold Session.Owes at ht
        omega
      · exact Nat.le_trans hq (Nat.le_add_right _ _)

end Run

/-! ## Callbacks -/

/-- The streams of its own that a callback has read weigh no more than `n`. It may consume tokens of
the main stream, and asks for no run there. -/
inductive Callback.Affords (w : τ → Nat) : Nat → Callback τ φ ν ε α → Prop where
  | value {n : Nat} (a : α) : Affords w n (.value a)
  | fail {n : Nat} (f : Failure τ φ ε) : Affords w n (.fail f)
  | parse {n i : Nat} {c : Cursor τ ε} {goal : Goal} {tests : Option (StopTest τ φ ε)}
    {next : ν → Cursor τ ε → Callback τ φ ν ε α} (hn : c.load w + i ≤ n)
    (h : ∀ x d, Affords w i (next x d)) : Affords w n (.parse ⟨some c, goal, tests⟩ next)
  | take {n : Nat} {next : Option τ → Callback τ φ ν ε α} (h : ∀ t, Affords w n (next t)) :
    Affords w n (.take next)

theorem Callback.affords_ofExcept {n : Nat} (r : Except (Failure τ φ ε) α) :
    (Callback.ofExcept r : Callback τ φ ν ε α).Affords w n := by
  cases r with
  | ok a => exact .value a
  | error f => exact .fail f

/-- A callback that asks for no runs needs nothing to be paid for. -/
theorem Callback.affords_of_calm {callback : Callback τ φ ν ε α}
    (h : ∀ q, ¬callback.Requests q) : callback.Affords w 0 := by
  induction callback with
  | value a => exact .value a
  | fail f => exact .fail f
  | parse q next ih => exact absurd .here (h q)
  | take next ih => exact .take fun t => ih t fun q hq => h q (.taken hq)

theorem Callback.Affords.perform {n : Nat} {callback : Callback τ φ ν ε α}
    {enter : Goal → Option (StopTest τ φ ε) → Run τ φ ν ε ν} (h : callback.Affords w n)
    (he : ∀ goal tests, Saves w (Session.Owes w) (enter goal tests)) :
    Spends (3 * n) (callback.perform enter) := by
  induction h with
  | value a => exact spends_pure a
  | fail f => exact spends_throw f
  | @parse n i c goal tests next hn _ ih =>
    exact (((he goal tests).within c).bind fun x => ih x.1 x.2).mono (by omega)
  | @take n next _ ih => exact (spends_take.bind ih).mono (by omega)

/-- Every token pays for the groups that are read for it, and nothing else reads any. -/
structure Grammar.Affords (w : τ → Nat) (G : Grammar τ φ ν ε) : Prop where
  weight : ∀ t, 1 ≤ w t
  query : ∀ t, (G.query t).Affords w 0
  nullary : ∀ t, (G.nullary t).Affords w (w t - 1)
  unary : ∀ t x, (G.unary t x).Affords w 0
  binary : ∀ t x y, (G.binary t x y).Affords w 0
  ternary : ∀ t x y z, (G.ternary t x y z).Affords w 0
  isFollow : ∀ t mark, (G.isFollow t mark).Affords w 0

/-! ## Parsers -/

namespace Parser

variable {p : Parser τ φ ν ε} {stop : Option (Stop τ φ ν ε)}

theorem concluding_spends (goal : Goal) (node : ν) : Spends 0 (p.concluding goal node) := by
  unfold concluding
  split
  · refine spends_peek.bind (i := 0) fun o => ?_
    cases o with
    | none => exact spends_pure node
    | some t => exact spends_report _
  · exact spends_pure node

theorem entering_saves {operand : Precedence → Run τ φ ν ε ν}
    (ho : ∀ rbp, Saves w (Session.Owes w) (operand rbp)) (goal : Goal) :
    Saves w (Session.Owes w) (p.entering operand goal) := by
  have step {m : Run τ φ ν ε ν} (hm : Saves w (Session.Owes w) m) :
      Saves w (Session.Owes w) (get >>= fun s =>
        Run.deeper (charge s.depth) (.entered (charge s.depth)) (.left (charge s.depth)) m >>=
          p.concluding goal) :=
    Saves.of_depth
      (k := fun depth =>
        Run.deeper (charge depth) (.entered (charge depth)) (.left (charge depth)) m >>=
          p.concluding goal)
      fun depth => (hm.deeper rfl rfl fun {B s} hs => hs.congr rfl (s.queries_down _ rfl)).bind
        (concluding_spends goal)
  unfold entering
  cases Precedence.ofInt? goal.floor with
  | none => exact step (saves_throw _)
  | some rbp => exact step (ho rbp)

theorem asking_spends {enter : Goal → Option (StopTest τ φ ε) → Run τ φ ν ε ν}
    (he : ∀ goal tests, Saves w (Session.Owes w) (enter goal tests))
    (hs : ∀ test ∈ stop, ∀ t, (test t).Affords w 0) :
    Spends 0 (visible (p.asking enter stop)) := by
  refine spends_visible fun a ha t => ?_
  obtain ⟨test, htest, rfl⟩ := Option.map_eq_some_iff.mp ha
  exact ((hs test htest t).perform he).calling (.stop t)

theorem reentry_saves {inner : Operand τ φ ν ε}
    (hi : ∀ (tests : Option (StopTest τ φ ε)) rbp head,
      Saves w (Session.Faces w head) (inner (tests.map StopTest.toStop) rbp head)) (goal : Goal)
    (tests : Option (StopTest τ φ ε)) : Saves w (Session.Owes w) (p.reentry inner goal tests) := by
  refine entering_saves (fun rbp => startingAt_saves (spends_visible fun a ha t => ?_)
    (hi tests rbp)) goal
  obtain ⟨test, -, rfl⟩ := Option.map_eq_some_iff.mp ha
  have answer : Spends 0 (Run.ofExcept (test t) : Run τ φ ν ε Bool) := by
    cases test t with
    | ok yes => exact spends_pure yes
    | error f => exact spends_throw f
  exact answer.calling (.stop t)

/-- A frame affords what its grammar does, if what it reads saves. -/
theorem frame_affords (hG : p.grammar.Affords w) {inner below : Operand τ φ ν ε}
    (he : ∀ goal tests, Saves w (Session.Owes w) (p.reentry inner goal tests))
    (hs : ∀ test ∈ stop, ∀ t, (test t).Affords w 0)
    (hb : ∀ rbp head, Saves w (Session.Faces w head) (below stop rbp head)) :
    (p.frame inner below stop).Affords w where
  weight := hG.weight
  query t := ((hG.query t).perform he).calling (.query t)
  nullary t := ((hG.nullary t).perform he).calling (.nullary t)
  unary t x := ((hG.unary t x).perform he).calling (.unary t x)
  binary t x y := ((hG.binary t x y).perform he).calling (.binary t x y)
  ternary t x y z := ((hG.ternary t x y z).perform he).calling (.ternary t x y z)
  isFollow t mark := ((hG.isFollow t mark).perform he).calling (.isFollow t mark)
  visible := asking_spends he hs
  operand rbp := startingAt_saves (asking_spends he hs) (hb rbp)

theorem tests_afford (tests : Option (StopTest τ φ ε)) :
    ∀ test ∈ tests.map (StopTest.toStop (ν := ν)), ∀ t, (test t).Affords w 0 := by
  intro test htest t
  obtain ⟨f, -, rfl⟩ := Option.map_eq_some_iff.mp htest
  exact Callback.affords_ofExcept (f t)

/-- An operand that is read with its head in sight leaves something over. -/
theorem operandIn_saves (hG : p.grammar.Affords w) (room : Nat)
    (hs : ∀ test ∈ stop, ∀ t, (test t).Affords w 0) (rbp : Precedence) (head : τ) :
    Saves w (Session.Faces w head) (p.operandIn room stop rbp head) := by
  induction room using Nat.strongRecOn generalizing stop rbp head with
  | ind room ih =>
    cases room with
    | zero => exact saves_throw _
    | succ n =>
      rw [operandIn_succ]
      have frame := p.frame_affords hG
        (reentry_saves fun tests => ih (n - reentryCost) (by omega) (tests_afford tests)) hs
        (ih n (by omega) hs)
      exact (frame.climb rbp head).saves.deeper rfl rfl fun hfaces =>
        hfaces.congr rfl (Session.queries_down _ _ rfl)

theorem parseInput_saves (hG : p.grammar.Affords w) (hs : ∀ test ∈ stop, ∀ t, (test t).Affords w 0)
    (rbp : Precedence) : Saves w (Session.Owes w) (p.parseInput rbp stop) := by
  refine Saves.of_depth (k := fun depth => (p.frameAt depth stop).operand rbp) fun depth => ?_
  exact (p.frame_affords hG
    (reentry_saves fun tests => operandIn_saves hG _ (tests_afford tests)) hs
    (operandIn_saves hG _ hs)).operand rbp

theorem parseUntil_saves (hG : p.grammar.Affords w)
    (hs : ∀ test ∈ stop, ∀ t, (test t).Affords w 0) (rbp : Int) :
    Saves w (Session.Owes w) (p.parseUntil rbp stop) :=
  entering_saves (fun r => parseInput_saves hG hs r) _

theorem parse_saves (hG : p.grammar.Affords w) : Saves w (Session.Owes w) p.parse :=
  entering_saves (fun r => parseInput_saves hG (by simp) r) _

/-- No callback of a run asks for a run in its turn. -/
def Solitary (p : Parser τ φ ν ε) (stop : Option (Stop τ φ ν ε)) : Prop :=
  ∀ {α : Type} {c : Call τ φ ν} {callback : Callback τ φ ν ε α}, p.Asks stop c callback →
    ∀ q, ¬callback.Requests q

theorem Solitary.affords (h : p.Solitary stop) : p.grammar.Affords fun _ => 1 where
  weight _ := Nat.le_refl 1
  query t := Callback.affords_of_calm (h (.query t))
  nullary t := Callback.affords_of_calm (h (.nullary t))
  unary t x := Callback.affords_of_calm (h (.unary t x))
  binary t x y := Callback.affords_of_calm (h (.binary t x y))
  ternary t x y z := Callback.affords_of_calm (h (.ternary t x y z))
  isFollow t mark := Callback.affords_of_calm (h (.isFollow t mark))

/-- What is left of the stream pays for itself, so the tokens consumed have paid for everything. -/
theorem Solitary.parseUntil_queries (h : p.Solitary stop) (rbp : Int) (s : Session τ φ ν ε) :
    ∃ (log : Log τ φ ν) (consumed : Nat),
      (ending (p.parseUntil rbp stop s)).log = log ++ s.log ∧
      (ending (p.parseUntil rbp stop s)).cursor.position = s.cursor.position + consumed ∧
      log.queries ≤ 3 * consumed - 1 := by
  obtain ⟨-, -, log, hlog, -⟩ := p.enter_leads (.parseUntil rbp stop) s
  have hadv := (p.enter_advances (.parseUntil rbp stop) s).cursor
  have hsaved := (parseUntil_saves h.affords
    (fun test htest t => Callback.affords_of_calm (h (.stop htest t))) rbp).ending_owes s
  rw [enter] at hlog hadv
  generalize ending (p.parseUntil rbp stop s) = t at hlog hadv hsaved ⊢
  have hposition := hadv.position
  have hle := hadv.position_le
  rw [Session.Owes, Cursor.load_one, Cursor.load_one, hlog, Log.queries_append] at hsaved
  exact ⟨log, t.cursor.position - s.cursor.position, hlog, by omega, by omega⟩

end Parser

end BindingPower
