import BindingPower.Calc.Grammar
import BindingPower.Proofs.Agreement
import BindingPower.Proofs.Evaluation

/-! # Reading calc expressions

The scheme by which the calc grammar is read. Only a group makes the grammar ask for a run of its
own; every other callback answers at once. -/
namespace BindingPower.Calc

variable {α : Type}

/-- The answer of a callback that asks for nothing. -/
def settled : Answer α → Except Failure α
  | .value a => .ok a
  | .fail f => .error f
  | _ => .error .exhausted

/-- What a group comes to: nothing may be left of its members. -/
def ofGroup : EStateM.Result Failure (List Token) Expr → Except Failure Expr
  | .ok e [] => .ok e
  | .ok _ (t :: _) => .error (.report (.trailingInput t))
  | .error f _ => .error f

def rules (config : Config) (depth : Nat) (inner : Precedence → Reading Token String Fault Expr) :
    Rules Token String Expr Fault where
  query t := Reading.contained config.maxDepth depth (settled (classify t))
  nullary t := Reading.contained config.maxDepth depth
    (if t.kind = .group then ofGroup (inner .bottom t.children) else settled (readLeaf t))
  unary t x := Reading.contained config.maxDepth depth (settled (buildUnary t x))
  binary t l r := Reading.contained config.maxDepth depth (settled (buildBinary t l r))
  ternary t a b c := Reading.contained config.maxDepth depth (settled (buildTernary t a b c))
  isFollow t expected := .ok (isFollow t expected)

def scheme (config : Config) : Scheme Token String Expr Fault := ⟨config, between, rules config⟩

/-- The callback asks for nothing: it ends in a value or in a fault of its own. -/
inductive Prompt : Answer α → Prop where
  | value (a : α) : Prompt (.value a)
  | fault (e : Fault) : Prompt (.fault e)

theorem classify_prompt (t : Token) : Prompt (classify t) := by
  unfold classify
  split
  · exact .value _
  · exact .fault _

theorem buildUnary_prompt (t : Token) (x : Expr) : Prompt (buildUnary t x) := by
  unfold buildUnary
  split
  · exact .value _
  · exact .fault _

theorem buildBinary_prompt (t : Token) (l r : Expr) : Prompt (buildBinary t l r) := by
  unfold buildBinary
  split
  · exact .value _
  · exact .fault _

theorem buildTernary_prompt (t : Token) (a b c : Expr) : Prompt (buildTernary t a b c) := by
  unfold buildTernary
  split
  · exact .value _
  · exact .value _
  · unfold buildBinding
    split
    · exact .value _
    · exact .fault _
  · exact .fault _

theorem readLeaf_prompt {t : Token} (h : t.kind ≠ .group) : Prompt (readLeaf t) := by
  unfold readLeaf
  split
  · split
    · exact .value _
    · exact .fault _
  · exact .value _
  · exact .value _
  · rename_i hk
    exact absurd hk h
  · exact .fault _

theorem Prompt.eq_settled {c : Answer α} (h : Prompt c) : c = .ofExcept (settled c) := by
  cases h with
  | value a => rfl
  | fault e => rfl

/-- Whether the whole input has to be read makes no difference to a group. -/
theorem entered_whole (g : Scheme Token String Expr Fault)
    (inner : Precedence → Reading Token String Fault Expr) (ts : List Token) :
    ofGroup (g.entered inner .whole ts) = ofGroup (inner .bottom ts) := by
  rw [Scheme.entered, Scheme.above_floor]
  cases hr : inner .bottom ts with
  | error f rest => rw [bind_of_error hr]
  | ok e rest =>
    rw [bind_of_ok hr]
    split
    · cases rest with
      | nil => rfl
      | cons t more => rfl
    · rfl

theorem requireEnd_perform {d : Nat} {c : Cursor Token Fault} {rest : List Token} (e : Expr)
    (enter : Goal → Option (StopTest Token String Fault) → Run Token String Expr Fault Expr)
    (hc : c.items = rest.map .token) :
    Run.Follows d (((Callback.requireEnd c).bind fun _ => .value e).perform enter)
      (Reading.answer (ofGroup (.ok e rest))) := by
  obtain ⟨_, hp, -, -⟩ := Cursor.peek_of_tokens hc
  unfold Callback.requireEnd
  cases rest with
  | nil =>
    simp only [hp, List.head?_nil]
    exact Run.follows_pure e
  | cons t more =>
    simp only [hp, List.head?_cons]
    exact Run.follows_report (.trailingInput t)

theorem readGroup_follows {d : Nat} {r : Reading Token String Fault Expr}
    {enter : Goal → Option (StopTest Token String Fault) → Run Token String Expr Fault Expr}
    (h : Run.Follows d (enter .whole none) r) (members : List Token) :
    Run.Follows d ((readGroup members).perform enter)
      (Reading.answer (ofGroup (r members))) := by
  cases hr : r members with
  | error f rest =>
    have hrun := h.within (k := fun p =>
        ((Callback.requireEnd p.2).bind fun _ => .value p.1).perform enter)
      (l := fun e => pure e) members fun _ _ _ hok => by simp [hr] at hok
    simp only [hr] at hrun
    exact hrun
  | ok e rest =>
    have hrun := h.within (k := fun p =>
        ((Callback.requireEnd p.2).bind fun _ => .value p.1).perform enter)
      (l := fun e => Reading.answer (ofGroup (.ok e rest))) members fun a c more hok hc => by
        rw [hr] at hok
        cases hok
        exact requireEnd_perform e enter hc
    simp only [hr] at hrun
    exact hrun

theorem calling_prompt_follows {d : Nat} (config : Config) (call : Call Token String Expr)
    (enter : Goal → Option (StopTest Token String Fault) → Run Token String Expr Fault Expr)
    {c : Answer α} (hc : Prompt c) :
    Run.Follows d ((parser config).calling call (c.perform enter))
      (Reading.answer (Reading.contained config.maxDepth d (settled c))) := by
  have h := Parser.calling_ofExcept_follows (d := d) (parser config) call enter (settled c)
  rw [← hc.eq_settled] at h
  exact h

theorem parser_follows (config : Config) : (parser config).Follows (scheme config) where
  config := rfl
  admits := rfl
  answers d f inner _ hf henter := by
    cases f
    cases hf
    refine ⟨fun t => ?_, fun t => ?_, fun t x => ?_, fun t l r => ?_, fun t a b c => ?_,
      fun t expected => ?_⟩
    · exact calling_prompt_follows config _ _ (classify_prompt t)
    · by_cases hk : t.kind = .group
      · have hleaf : readLeaf t = readGroup t.children := by rw [readLeaf, hk]
        have hgroup := readGroup_follows (henter .whole) t.children
        rw [entered_whole, ← hleaf] at hgroup
        have hcall := Parser.calling_follows (parser config) (.nullary t) hgroup
        simp only [scheme, rules, if_pos hk]
        exact hcall
      · simp only [scheme, rules, if_neg hk]
        exact calling_prompt_follows config _ _ (readLeaf_prompt hk)
    · exact calling_prompt_follows config _ _ (buildUnary_prompt t x)
    · exact calling_prompt_follows config _ _ (buildBinary_prompt t l r)
    · exact calling_prompt_follows config _ _ (buildTernary_prompt t a b c)
    · exact Parser.calling_ofExcept_follows _ _ _ (.ok (isFollow t expected))

end BindingPower.Calc
