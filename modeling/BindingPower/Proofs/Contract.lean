import BindingPower.Proofs.Following

/-! # Contracts of readings

What a reading makes of tokens that have a property: values with another one, or failures of a
given kind. If the operators of a scheme fit the places where their tokens are used, its operands
and whole expressions keep the contract, whatever the room and the depth. -/
namespace BindingPower

variable {τ φ ν ε α β : Type}

/-- The outcome is a value of the kind or a failure of the kind. -/
def Meets (F : Failure τ φ ε → Prop) (V : α → Prop) : Except (Failure τ φ ε) α → Prop
  | .ok a => V a
  | .error f => F f

/-- From tokens of the kind the reading comes to a value of the kind and leaves a later part of
them, or fails as it may. -/
def Reading.Ensures (T : τ → Prop) (F : Failure τ φ ε → Prop) (V : α → Prop)
    (m : Reading τ φ ε α) : Prop :=
  ∀ ts, (∀ t ∈ ts, T t) →
    match m ts with
    | .ok a rest => V a ∧ rest <:+ ts
    | .error f _ => F f

namespace Reading

variable {T : τ → Prop} {F : Failure τ φ ε → Prop} {V : α → Prop} {W : β → Prop}

theorem ensures_pure {a : α} (h : V a) : Ensures T F V (pure a) :=
  fun ts _ => ⟨h, List.suffix_refl ts⟩

theorem ensures_throw {f : Failure τ φ ε} (h : F f) : Ensures T F V (throw f) := fun _ _ => h

theorem ensures_answer {r : Except (Failure τ φ ε) α} (h : Meets F V r) :
    Ensures T F V (answer r) := by
  cases r with
  | ok a => exact ensures_pure h
  | error f => exact ensures_throw h

theorem Ensures.bind {m : Reading τ φ ε α} {k : α → Reading τ φ ε β} (hm : Ensures T F V m)
    (hk : ∀ a, V a → Ensures T F W (k a)) : Ensures T F W (m >>= k) := by
  intro ts hts
  have hfirst := hm ts hts
  change match EStateM.bind m k ts with
    | .ok b rest => W b ∧ rest <:+ ts
    | .error f _ => F f
  unfold EStateM.bind
  cases hrun : m ts with
  | error f rest =>
    rw [hrun] at hfirst
    exact hfirst
  | ok a rest =>
    rw [hrun] at hfirst
    have hnext := hk a hfirst.1 rest fun t ht => hts t (hfirst.2.subset ht)
    dsimp only
    cases hmore : k a rest with
    | error f left =>
      rw [hmore] at hnext
      exact hnext
    | ok b left =>
      rw [hmore] at hnext
      exact ⟨hnext.1, hnext.2.trans hfirst.2⟩

theorem Ensures.remaining {k : Nat → Reading τ φ ε α} (h : ∀ n, Ensures T F V (k n)) :
    Ensures T F V (get >>= fun ts => k ts.length) := fun ts hts => h _ ts hts

theorem ensures_visible (stop : τ → Bool) :
    Ensures T F (fun o => ∀ t ∈ o, T t) (visible stop) := by
  intro ts hts
  refine ⟨fun t ht => ?_, List.suffix_refl ts⟩
  have hhead : ts.head? = some t := (Option.filter_eq_some_iff.mp ht).1
  exact hts t (List.mem_of_head? hhead)

theorem ensures_consume : Ensures T F (fun _ => True) consume :=
  fun ts _ => ⟨trivial, List.tail_suffix ts⟩

theorem ensures_startingAt {stop : τ → Bool} {body : τ → Reading τ φ ε ν} {V : ν → Prop}
    (hempty : F (.report .emptyInput)) (hb : ∀ t, T t → Ensures T F V (body t)) :
    Ensures T F V (startingAt stop body) := by
  refine (ensures_visible stop).bind fun o ho => ?_
  cases o with
  | none => exact ensures_throw hempty
  | some t => exact hb t (ho t rfl)

end Reading

namespace Reader

variable (r : Reader τ φ ν ε) (F : Failure τ φ ε → Prop) (V : ν → Prop)

/-- A token with the descriptor can start an expression, or may be refused there. -/
def Leads (t : τ) (op : Operator φ) : Prop :=
  match op.affix, op.arity with
  | .nilfix, .nullary => Meets F V (r.rules.nullary t)
  | .prefixed, .unary | .circumfix, .unary => ∀ x, V x → Meets F V (r.rules.unary t x)
  | .prefixed, .ternary => ∀ x y z, V x → V y → V z → Meets F V (r.rules.ternary t x y z)
  | .postfixed, _ => F (.report (.misfit .postfixed t))
  | .infixed, _ => F (.report (.misfit .infixed t))
  | .interfix, _ => F (.report (.misfit .interfix t))
  | affix, arity => F (.report (.unexpectedArity t affix arity))

/-- A token with the descriptor can continue an expression, or may be refused there. -/
def Trails (t : τ) (op : Operator φ) : Prop :=
  match op.affix, op.arity with
  | .postfixed, .unary => ∀ x, V x → Meets F V (r.rules.unary t x)
  | .infixed, .binary => ∀ x y, V x → V y → Meets F V (r.rules.binary t x y)
  | .postfixed, .ternary | .infixed, .ternary =>
    ∀ x y z, V x → V y → V z → Meets F V (r.rules.ternary t x y z)
  | .nilfix, _ => F (.report (.misfit .nilfix t))
  | .prefixed, _ => F (.report (.misfit .prefixed t))
  | .circumfix, _ | .interfix, _ => F (.report (.misfit .interfix t))
  | affix, arity => F (.report (.unexpectedArity t affix arity))

/-- The operator fits every place where its token can be used. -/
structure Fits (t : τ) (op : Operator φ) : Prop where
  leads : r.Leads F V t op.leading.leading
  trails : ∀ rbp nbp, r.admits rbp op.leftPower nbp = true →
    r.Trails F V t op.continuing.continuing

/-- The tokens of the kind are used as their operators say. -/
structure Upholds (T : τ → Prop) : Prop where
  query : ∀ t, T t → Meets F (r.Fits F V t) (r.rules.query t)
  isFollow : ∀ t mark, T t → Meets F (fun _ => True) (r.rules.isFollow t mark)
  missing : r.strict = true → ∀ mark (found : Option τ), (∀ t ∈ found, T t) →
    F (.report (.missingInterfix (some mark) found))
  operand : ∀ p, Reading.Ensures T F V (r.operand p)

variable {r F V} {T : τ → Prop}

open Reading

namespace Upholds

theorem separates (h : r.Upholds F V T) (expected : Option φ) {t : τ} (ht : T t) :
    Ensures T F (fun _ => True) (r.separates expected t) := by
  refine (ensures_answer (h.query t ht)).bind fun op _ => ?_
  cases expected with
  | none => exact ensures_pure trivial
  | some mark =>
    dsimp only
    split
    · exact ensures_answer (h.isFollow t mark ht)
    · exact ensures_pure trivial

theorem missing_ensures (h : r.Upholds F V T) (expected : Option φ) {found : Option τ}
    (ht : ∀ t ∈ found, T t) : Ensures T F (fun _ => True) (r.missing expected found) := by
  cases expected with
  | none => exact ensures_pure trivial
  | some mark =>
    simp only [Reader.missing]
    split
    · rename_i hstrict
      exact ensures_throw (h.missing hstrict mark found ht)
    · exact ensures_pure trivial

theorem eatSeparator (h : r.Upholds F V T) (expected : Option φ) :
    Ensures T F (fun _ => True) (r.eatSeparator expected) := by
  refine (ensures_visible r.stop).bind fun o ho => ?_
  cases o with
  | none => exact h.missing_ensures expected ho
  | some t =>
    refine (h.separates expected (ho t rfl)).bind fun yes _ => ?_
    cases yes with
    | false => exact h.missing_ensures expected ho
    | true => exact ensures_consume.bind fun _ _ => ensures_pure trivial

theorem nud (h : r.Upholds F V T) {t : τ} {op : Operator φ} (hop : r.Leads F V t op.leading) :
    Ensures T F V (r.nud t op) := by
  unfold Reader.nud
  dsimp only
  unfold Leads at hop
  generalize op.leading.affix = affix, op.leading.arity = arity at hop
  cases affix with
  | nilfix =>
    cases arity with
    | nullary => exact ensures_answer hop
    | _ => exact ensures_throw hop
  | prefixed =>
    cases arity with
    | unary => exact (h.operand _).bind fun x hx => ensures_answer (hop x hx)
    | ternary =>
      exact (h.operand _).bind fun a ha => (h.eatSeparator _).bind fun _ _ =>
        (h.operand _).bind fun b hb => (h.eatSeparator _).bind fun _ _ =>
        (h.operand _).bind fun c hc => ensures_answer (hop a b c ha hb hc)
    | _ => exact ensures_throw hop
  | circumfix =>
    cases arity with
    | unary =>
      exact (h.operand _).bind fun x hx => (h.eatSeparator _).bind fun _ _ =>
        ensures_answer (hop x hx)
    | _ => exact ensures_throw hop
  | _ => exact ensures_throw hop

theorem led (h : r.Upholds F V T) {t : τ} {op : Operator φ}
    (hop : r.Trails F V t op.continuing) {lhs : ν} (hl : V lhs) :
    Ensures T F V (r.led t op lhs) := by
  unfold Reader.led
  dsimp only
  unfold Trails at hop
  generalize op.continuing.affix = affix, op.continuing.arity = arity at hop
  cases affix with
  | postfixed =>
    cases arity with
    | unary => exact ensures_answer (hop lhs hl)
    | ternary =>
      exact (h.operand _).bind fun b hb => (h.eatSeparator _).bind fun _ _ =>
        (h.operand _).bind fun c hc => ensures_answer (hop lhs b c hl hb hc)
    | _ => exact ensures_throw hop
  | infixed =>
    cases arity with
    | binary => exact (h.operand _).bind fun x hx => ensures_answer (hop lhs x hl hx)
    | ternary =>
      exact (h.operand _).bind fun b hb => (h.eatSeparator _).bind fun _ _ =>
        (h.operand _).bind fun c hc => ensures_answer (hop lhs b c hl hb hc)
    | _ => exact ensures_throw hop
  | _ => exact ensures_throw hop

theorem continued (h : r.Upholds F V T) (rbp : Precedence) (fuel : Nat) (nbp : Precedence)
    {lhs : ν} (hl : V lhs) : Ensures T F V (r.continued rbp fuel nbp lhs) := by
  induction fuel generalizing nbp lhs with
  | zero => exact ensures_pure hl
  | succ fuel ih =>
    refine (ensures_visible r.stop).bind fun o ho => ?_
    cases o with
    | none => exact ensures_pure hl
    | some t =>
      refine (ensures_answer (h.query t (ho t rfl))).bind fun op hop => ?_
      split
      · rename_i hadmits
        exact ensures_consume.bind fun _ _ =>
          (h.led (hop.trails rbp nbp hadmits) hl).bind fun node hnode => ih _ hnode
      · exact ensures_pure hl

theorem climb (h : r.Upholds F V T) (rbp : Precedence) {head : τ} (ht : T head) :
    Ensures T F V (r.climb rbp head) :=
  ensures_consume.bind fun _ _ => (ensures_answer (h.query head ht)).bind fun op hop =>
    (h.nud hop.leads).bind fun node hnode =>
    Ensures.remaining (k := fun n => r.continued rbp n op.leading.nextPower node) fun n =>
      h.continued rbp n _ hnode

end Upholds

end Reader

namespace Scheme

open Reading

variable {g : Scheme τ φ ν ε} {T : τ → Prop} {F : Failure τ φ ε → Prop} {V : ν → Prop}

/-- The failures of a reading that are not the grammar's are allowed, and its tokens are used as
their operators say wherever the operands and the runs of callbacks keep the contract. -/
structure Upholds (g : Scheme τ φ ν ε) (F : Failure τ φ ε → Prop) (V : ν → Prop)
    (T : τ → Prop) : Prop where
  empty : F (.report .emptyInput)
  deep : F (.report (.nestingTooDeep g.config.maxDepth none))
  trailing : g.config.requireEnd = true → ∀ t, T t → F (.report (.trailingInput t))
  reader : ∀ (depth : Nat) (stop : τ → Bool) (inner : Precedence → Reading τ φ ε ν)
    (below : Precedence → τ → Reading τ φ ε ν), (∀ p, Ensures T F V (inner p)) →
    (∀ p, Ensures T F V (Reading.startingAt stop (below p))) →
    (g.reader depth inner stop below).Upholds F V T

theorem Upholds.operandIn (h : g.Upholds F V T) (room depth : Nat) (stop : τ → Bool)
    (rbp : Precedence) {head : τ} (ht : T head) :
    Ensures T F V (g.operandIn room depth stop rbp head) := by
  -- by induction on the room: the operands of the operators have one level less, and the runs of
  -- the callbacks have less than those
  induction room using Nat.strongRecOn generalizing depth stop rbp head with
  | ind room ih =>
    cases room with
    | zero =>
      rw [operandIn_zero]
      exact ensures_throw h.deep
    | succ n =>
      rw [operandIn_succ]
      refine (h.reader _ _ _ _ (fun p => ?_) fun p => ?_).climb rbp ht
      · exact ensures_startingAt h.empty fun t ht => ih _ (by omega) _ _ p ht
      · exact ensures_startingAt h.empty fun t ht => ih n (Nat.lt_succ_self n) _ _ p ht

theorem Upholds.operand (h : g.Upholds F V T) (room depth : Nat) (stop : τ → Bool)
    (rbp : Precedence) : Ensures T F V (g.operand room depth stop rbp) :=
  ensures_startingAt h.empty fun _ ht => h.operandIn room depth stop rbp ht

theorem Upholds.parse (h : g.Upholds F V T) (depth : Nat) : Ensures T F V (g.parse depth) := by
  refine Ensures.bind (V := V) ?_ fun node hnode => ?_
  · exact h.operand _ _ _ _
  · split
    · rename_i hend
      refine (ensures_visible never).bind fun o ho => ?_
      cases o with
      | none => exact ensures_pure hnode
      | some t => exact ensures_throw (h.trailing hend.2 t (ho t rfl))
    · exact ensures_pure hnode

/-- Up to a stop token, where the floor may be no precedence. -/
theorem Upholds.parseUntil (h : g.Upholds F V T) {rbp : Int}
    (hr : F (.other (.precedenceRange rbp))) (depth : Nat) (stop : τ → Bool) :
    Ensures T F V (g.parseUntil depth rbp stop) := by
  refine Ensures.bind (V := V) ?_ fun node hnode => ?_
  · rw [Reading.above]
    cases hp : Precedence.ofInt? (Goal.above rbp).floor with
    | none => exact ensures_throw hr
    | some p => exact h.operand _ _ _ _
  · rw [if_neg (by simp)]
    exact ensures_pure hnode

end Scheme

/-- The rules come to a value, or fail as they may, where they are asked about tokens of the kind. -/
structure Rules.Keep (r : Rules τ φ ν ε) (F : Failure τ φ ε → Prop) (T : τ → Prop) : Prop where
  query : ∀ t, T t → Meets F (fun _ => True) (r.query t)
  nullary : ∀ t, T t → Meets F (fun _ => True) (r.nullary t)
  unary : ∀ t x, T t → Meets F (fun _ => True) (r.unary t x)
  binary : ∀ t x y, T t → Meets F (fun _ => True) (r.binary t x y)
  ternary : ∀ t x y z, T t → Meets F (fun _ => True) (r.ternary t x y z)
  isFollow : ∀ t mark, T t → Meets F (fun _ => True) (r.isFollow t mark)

/-- The reports that a reading makes itself about tokens of the kind are allowed. -/
structure Reading.Allows (F : Failure τ φ ε → Prop) (T : τ → Prop) : Prop where
  empty : F (.report .emptyInput)
  deep : ∀ limit, F (.report (.nestingTooDeep limit none))
  misfit : ∀ kind t, T t → F (.report (.misfit kind t))
  arity : ∀ t affix arity, T t → F (.report (.unexpectedArity t affix arity))
  missing : ∀ mark found, (∀ t ∈ found, T t) → F (.report (.missingInterfix mark found))
  trailing : ∀ t, T t → F (.report (.trailingInput t))

namespace Reader

variable {r : Reader τ φ ν ε} {F : Failure τ φ ε → Prop} {T : τ → Prop} {t : τ}

theorem leads_of_keep (hF : Reading.Allows F T) (h : r.rules.Keep F T) (ht : T t)
    (op : Operator φ) : r.Leads F (fun _ => True) t op := by
  unfold Leads
  generalize op.affix = affix, op.arity = arity
  cases affix with
  | nilfix =>
    cases arity with
    | nullary => exact h.nullary t ht
    | _ => exact hF.arity t _ _ ht
  | prefixed =>
    cases arity with
    | unary => exact fun x _ => h.unary t x ht
    | ternary => exact fun x y z _ _ _ => h.ternary t x y z ht
    | _ => exact hF.arity t _ _ ht
  | circumfix =>
    cases arity with
    | unary => exact fun x _ => h.unary t x ht
    | _ => exact hF.arity t _ _ ht
  | infixed => exact hF.misfit .infixed t ht
  | postfixed => exact hF.misfit .postfixed t ht
  | interfix => exact hF.misfit .interfix t ht
  | _ => exact hF.arity t _ _ ht

theorem trails_of_keep (hF : Reading.Allows F T) (h : r.rules.Keep F T) (ht : T t)
    (op : Operator φ) : r.Trails F (fun _ => True) t op := by
  unfold Trails
  generalize op.affix = affix, op.arity = arity
  cases affix with
  | postfixed =>
    cases arity with
    | unary => exact fun x _ => h.unary t x ht
    | ternary => exact fun x y z _ _ _ => h.ternary t x y z ht
    | _ => exact hF.arity t _ _ ht
  | infixed =>
    cases arity with
    | binary => exact fun x y _ _ => h.binary t x y ht
    | ternary => exact fun x y z _ _ _ => h.ternary t x y z ht
    | _ => exact hF.arity t _ _ ht
  | nilfix => exact hF.misfit .nilfix t ht
  | prefixed => exact hF.misfit .prefixed t ht
  | circumfix => exact hF.misfit .interfix t ht
  | interfix => exact hF.misfit .interfix t ht
  | _ => exact hF.arity t _ _ ht

/-- Where every answer is allowed, any operator fits. -/
theorem fits_of_keep (hF : Reading.Allows F T) (h : r.rules.Keep F T) (ht : T t)
    (op : Operator φ) : r.Fits F (fun _ => True) t op where
  leads := leads_of_keep hF h ht _
  trails _ _ _ := trails_of_keep hF h ht _

end Reader

/-- A scheme whose rules keep to a kind of failures, as long as the runs they ask for do, comes to
no other failure. -/
theorem Scheme.upholds_of_keep {g : Scheme τ φ ν ε} {F : Failure τ φ ε → Prop} {T : τ → Prop}
    (hF : Reading.Allows F T)
    (h : ∀ (depth : Nat) (inner : Precedence → Reading τ φ ε ν),
      (∀ p, Reading.Ensures T F (fun _ => True) (inner p)) → (g.rules depth inner).Keep F T) :
    g.Upholds F (fun _ => True) T where
  empty := hF.empty
  deep := hF.deep _
  trailing _ := hF.trailing
  reader depth stop inner below hinner hbelow :=
    { query := fun t ht => by
        have hquery := (h depth inner hinner).query t ht
        change Meets _ _ ((g.rules depth inner).query t)
        cases hop : (g.rules depth inner).query t with
        | ok op => exact Reader.fits_of_keep hF (h depth inner hinner) ht op
        | error f =>
          rw [hop] at hquery
          exact hquery
      isFollow := (h depth inner hinner).isFollow
      missing := fun _ mark found => hF.missing (some mark) found
      operand := hbelow }

/-- The run has ended in a value of the kind or a failure of the kind. -/
def Run.Meets (F : Failure τ φ ε → Prop) (V : α → Prop) :
    EStateM.Result (Failure τ φ ε) (Session τ φ ν ε) α → Prop
  | .ok a _ => V a
  | .error f _ => F f

/-- A run that follows a reading over tokens of the kind keeps the contract of the reading. -/
theorem Run.Follows.keeps {d : Nat} {m : Run τ φ ν ε α} {r : Reading τ φ ε α} {T : τ → Prop}
    {F : Failure τ φ ε → Prop} {V : α → Prop} {s : Session τ φ ν ε} {ts : List τ}
    (h : Follows d m r) (hr : Reading.Ensures T F V r) (hd : s.depth = d)
    (hs : s.cursor.items = ts.map .token) (ht : ∀ t ∈ ts, T t) : Run.Meets F V (m s) := by
  have hends := h s ts hd hs
  have hread := hr ts ht
  cases hm : m s with
  | ok a t =>
    rw [hm] at hends
    cases hy : r ts with
    | ok b rest =>
      rw [hy] at hends hread
      exact hends.1 ▸ hread.1
    | error f rest =>
      rw [hy] at hends
      exact hends.elim
  | error f t =>
    rw [hm] at hends
    cases hy : r ts with
    | ok b rest =>
      rw [hy] at hends
      exact hends.elim
    | error e rest =>
      rw [hy] at hends hread
      exact hends.1 ▸ hread

end BindingPower
