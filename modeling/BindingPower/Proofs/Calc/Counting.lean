import BindingPower.Proofs.Calc.CalcReading
import BindingPower.Proofs.Spending
import BindingPower.Proofs.Yield

/-! # The work of a calc parser

A group is classified in the stream that it stands in, and its members in one of their own. Where
every token tree pays for itself, at whatever level it stands, a group comes with what its members
need. -/
namespace BindingPower

theorem Tree.parser_solitary {τ φ ε : Type} {config : Config}
    {query : τ → Except (Failure τ φ ε) (Operator φ)}
    {isFollow : τ → φ → Except (Failure τ φ ε) Bool}
    (tests : Option (StopTest τ φ ε)) :
    (parser config query isFollow).Solitary (tests.map StopTest.toStop) := by
  have answers {α : Type} (r : Except (Failure τ φ ε) α) (q : Request τ φ ε) :
      ¬(Callback.ofExcept r : Callback τ φ (Tree τ) ε α).Requests q := by
    cases r <;> nofun
  intro α c callback h
  induction h with
  | query t => exact answers (query t)
  | isFollow t mark => exact answers (isFollow t mark)
  | stop htest t =>
    obtain ⟨test, -, rfl⟩ := Option.map_eq_some_iff.mp htest
    exact answers (test t)
  | requested _ hq _ _ ih => exact absurd hq (ih _)
  | _ => nofun

/-- Bars that nothing closes: each of them looks for its end and for a continuation, and so does
the operand between them. -/
def Tree.unclosed : EStateM.Result (Failure Char Char Empty)
    (Session Char Char (Tree Char) Empty) (Tree Char) :=
  (parser .standard conditional fun t mark => .ok (t == mark)).parseUntil 0 none
    (.start (.ofTokens ['|', '|', 'x', 'y']))

namespace Calc

mutual
/-- The number of token trees that a token comes to, with its members and theirs. -/
def Token.count : Token → Nat
  | .mk _ _ children _ => Token.countAll children + 1
def Token.countAll : List Token → Nat
  | [] => 0
  | t :: ts => t.count + Token.countAll ts
end

theorem Token.count_eq (t : Token) : t.count = Token.countAll t.children + 1 := by
  cases t
  rw [count, children]

theorem load_ofTokens (tokens : List Token) :
    (Cursor.ofTokens tokens : Cursor Token Fault).load Token.count = Token.countAll tokens := by
  change Item.weights Token.count (tokens.map .token) = _
  induction tokens with
  | nil => rw [Token.countAll, List.map_nil, Item.weights]
  | cons t ts ih => rw [Token.countAll, List.map_cons, Item.weights, Item.weight, ih]

theorem requireEnd_affords (c : Cursor Token Fault) (n : Nat) (x : Expr) :
    Callback.Affords Token.count n (do Callback.requireEnd c; pure x : Answer Expr) := by
  unfold Callback.requireEnd
  generalize c.peek.1 = r
  rcases r with e | _ | t
  · exact .fail _
  · exact .value x
  · exact .fail _

theorem readGroup_affords (members : List Token) :
    (readGroup members).Affords Token.count (Token.countAll members) :=
  .parse (Nat.le_of_eq (load_ofTokens members)) fun x d => requireEnd_affords d 0 x

theorem Prompt.affords {α : Type} {c : Answer α} (h : Prompt c) (n : Nat) :
    c.Affords Token.count n := by
  rw [h.eq_settled]
  exact Callback.affords_ofExcept _

/-- A group has to be paid for by more than its token, and nothing else that is read does. -/
theorem readLeaf_affords (t : Token) : (readLeaf t).Affords Token.count (t.count - 1) := by
  by_cases hk : t.kind = .group
  · rw [t.count_eq, Nat.add_sub_cancel, readLeaf, hk]
    exact readGroup_affords t.children
  · exact (readLeaf_prompt hk).affords _

theorem grammar_affords : grammar.Affords Token.count where
  weight t := by
    rw [t.count_eq]
    exact Nat.le_add_left 1 _
  query t := (classify_prompt t).affords _
  nullary := readLeaf_affords
  unary t x := (buildUnary_prompt t x).affords _
  binary t l r := (buildBinary_prompt t l r).affords _
  ternary t a b c := (buildTernary_prompt t a b c).affords _
  isFollow t expected := .value (isFollow t expected)

theorem parseTokens_queries (tokens : List Token) (config : Config) :
    Log.queries (ending (parseTokens tokens config)).log ≤ 3 * Token.countAll tokens := by
  let start : Session Token String Expr Fault := .start (.ofTokens tokens)
  have hload : start.cursor.load Token.count = Token.countAll tokens := load_ofTokens tokens
  have hempty : Log.queries start.log = 0 := rfl
  have hsaved := (Parser.parse_saves (p := parser config) grammar_affords).ending_owes start
  rw [hload, hempty] at hsaved
  change Log.queries (ending ((parser config).parse start)).log ≤ _
  rcases hsaved with howes | hnone
  · unfold Session.Owes at howes
    omega
  · omega

/-- Classification takes linear work. A run whose callbacks ask for no runs classifies no more than
three tokens for each that it consumes, less one, and none if it consumes none; its loops come to
their ends, whatever the number of steps they may make. With the groups of calc expressions, which
are read by runs of their own, there are three classifications for every token tree at most. -/
theorem queries_linear :
    (∀ {τ φ ν ε : Type} (p : Parser τ φ ν ε) (stop : Option (Stop τ φ ν ε)), p.Solitary stop →
      (∀ (s : Session τ φ ν ε) (rbp nbp : Precedence) (lhs : ν) (n : Nat),
        s.cursor.remaining ≤ n →
          (p.frameAt s.depth stop).continued rbp n nbp lhs s =
            (p.frameAt s.depth stop).continued rbp s.cursor.remaining nbp lhs s) ∧
      ∀ (rbp : Int) (s : Session τ φ ν ε), ∃ (log : Log τ φ ν) (consumed : Nat),
        (ending (p.parseUntil rbp stop s)).log = log ++ s.log ∧
        (ending (p.parseUntil rbp stop s)).cursor.position = s.cursor.position + consumed ∧
        log.queries ≤ 3 * consumed - 1) ∧
    ∀ (tokens : List Token) (config : Config),
      Log.queries (ending (parseTokens tokens config)).log ≤ 3 * Token.countAll tokens :=
  ⟨fun p stop h => ⟨fun _ rbp nbp lhs _ hn => p.continued_steady stop rbp nbp lhs hn,
    h.parseUntil_queries⟩, parseTokens_queries⟩

/-- The token of `(a + (b))`. -/
def grouped : Token :=
  .mk .group "" [.mk .ident "a" [] none, .mk .punct "+" [] none,
    .mk .group "" [.mk .ident "b" [] none] none] none

theorem queries_linear_unclosed :
    (∃ (log : Log Char Char (Tree Char)) (consumed : Nat), (ending Tree.unclosed).log = log ++ [] ∧
      (ending Tree.unclosed).cursor.position = 0 + consumed ∧ log.queries ≤ 3 * consumed - 1 ∧
      consumed = 3 ∧ log.queries = 8) ∧
    Token.countAll [grouped] = 5 ∧
    Log.queries (ending (parseTokens [grouped] .standard)).log ≤ 15 := by
  obtain ⟨runs, groups⟩ := queries_linear
  have hposition : (ending Tree.unclosed).cursor.position = 3 := by decide +kernel
  have hqueries : Log.queries (ending Tree.unclosed).log = 8 := by decide +kernel
  have hcount : Token.countAll [grouped] = 5 := by decide +kernel
  have hgrouped := groups [grouped] .standard
  rw [hcount] at hgrouped
  refine ⟨?_, hcount, hgrouped⟩
  obtain ⟨log, consumed, hlog, hmoved, hbound⟩ :=
    (runs _ none (Tree.parser_solitary none)).2 0 (.start (.ofTokens ['|', '|', 'x', 'y']))
  change (ending Tree.unclosed).log = log ++ [] at hlog
  change (ending Tree.unclosed).cursor.position = 0 + consumed at hmoved
  rw [hlog, List.append_nil] at hqueries
  exact ⟨log, consumed, hlog, hmoved, hbound, by omega, hqueries⟩

end Calc

end BindingPower
