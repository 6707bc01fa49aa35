import BindingPower.Proofs.Calc.Lexing

/-! # Token trees of printed expressions

The tokens that spell an expression have its words in them, wherever they stand, and a group for
each of its parentheses. The printed source of an expression is folded into such tokens. -/
namespace BindingPower.Calc

/-- A token with this word. -/
def Token.Is (t : Token) (w : Word) : Prop := t.kind = w.1 ∧ t.lexeme = w.2

inductive Spells : Expr → List Token → Prop where
  | int {n : Int} {t : Token} (ht : t.Is (.literal, toString n)) : Spells (.int n) [t]
  | ident {s : String} {t : Token} (ht : t.Is (nameKind s, s)) : Spells (.ident s) [t]
  | before {k : UnaryKind} {x : Expr} {xs : List Token} {t g : Token} (hk : k.fixity = .before)
    (ht : t.Is (.punct, k.symbol)) (hx : Spells x xs) (hg : g.kind = .group)
    (hc : g.children = t :: xs) : Spells (.unary k x) [g]
  | behind {k : UnaryKind} {x : Expr} {xs : List Token} {t g : Token} (hk : k.fixity = .behind)
    (ht : t.Is (.punct, k.symbol)) (hx : Spells x xs) (hg : g.kind = .group)
    (hc : g.children = xs ++ [t]) : Spells (.unary k x) [g]
  | around {k : UnaryKind} {x : Expr} {xs : List Token} {t u : Token} (hk : k.fixity = .around)
    (ht : t.Is (.punct, k.symbol)) (hx : Spells x xs) (hu : u.Is (.punct, k.symbol)) :
    Spells (.unary k x) (t :: (xs ++ [u]))
  | binary {k : BinaryKind} {l r : Expr} {ls rs : List Token} {t g : Token} (hl : Spells l ls)
    (ht : t.Is k.word) (hr : Spells r rs) (hg : g.kind = .group)
    (hc : g.children = ls ++ t :: rs) : Spells (.binary k l r) [g]
  | conditional {a b c : Expr} {as bs cs : List Token} {t u v g : Token}
    (ht : t.Is (.keyword, "if")) (ha : Spells a as) (hu : u.Is (.keyword, "then"))
    (hb : Spells b bs) (hv : v.Is (.keyword, "else")) (hc : Spells c cs) (hg : g.kind = .group)
    (hm : g.children = t :: (as ++ u :: (bs ++ v :: cs))) :
    Spells (.ternary .ifThenElse a b c) [g]
  | binding {a b c : Expr} {as bs cs : List Token} {t u g : Token} (ha : Spells a as)
    (ht : t.Is (.punct, ":=")) (hb : Spells b bs) (hu : u.Is (.keyword, "in"))
    (hc : Spells c cs) (hg : g.kind = .group) (hm : g.children = as ++ t :: (bs ++ u :: cs)) :
    Spells (.ternary .binding a b c) [g]

/-- The lexemes become these tokens, whatever stands around them. -/
def Folds (file : String) (ls : List Lexeme) (ts : List Token) : Prop :=
  ∀ ending more opened read,
    build file ending (ls ++ more) opened read = build file ending more opened (ts.reverse ++ read)

variable {file : String} {ls ks : List Lexeme} {ts us : List Token} {l o c : Lexeme}

theorem Folds.append (h : Folds file ls ts) (k : Folds file ks us) :
    Folds file (ls ++ ks) (ts ++ us) := by
  intro ending more opened read
  rw [List.append_assoc, h, k, List.reverse_append, List.append_assoc]

theorem Folds.cons (h : Folds file [l] [l.token file]) (k : Folds file ls ts) :
    Folds file (l :: ls) (l.token file :: ts) := h.append k

theorem folds_word (h : l.kind = .punct → l.text ≠ "(" ∧ l.text ≠ ")") :
    Folds file [l] [l.token file] := by
  intro ending more opened read
  have hopening : ¬(l.kind = .punct ∧ l.text = "(") := fun ⟨hk, ht⟩ => (h hk).1 ht
  have hclosing : ¬(l.kind = .punct ∧ l.text = ")") := fun ⟨hk, ht⟩ => (h hk).2 ht
  simp only [List.singleton_append, build, if_neg hopening, if_neg hclosing]
  rfl

/-- Between parentheses the tokens become the members of one group. -/
theorem folds_enclosed (ho : o.word = (.punct, "(")) (hc : c.word = (.punct, ")"))
    (h : Folds file ls ts) :
    Folds file (o :: (ls ++ [c])) [groupToken (o.location file) ts] := by
  intro ending more opened read
  have hopening : o.kind = .punct ∧ o.text = "(" := Lexeme.word_eq_iff.mp ho
  have hclosing : c.kind = .punct ∧ c.text = ")" := Lexeme.word_eq_iff.mp hc
  have hne : ¬(c.kind = .punct ∧ c.text = "(") := fun ⟨_, ht⟩ => by
    rw [hclosing.2] at ht
    exact absurd ht (by decide)
  simp only [List.cons_append, List.append_assoc, List.nil_append, build, if_pos hopening]
  rw [h]
  simp only [build, if_neg hne, if_pos hclosing]
  simp

/-- Lexemes with enclosed words have parentheses at both ends. -/
theorem parts_of_enclosed {ws : List Word} (h : ls.map Lexeme.word = Expr.enclosed ws) :
    ∃ o ms c, ls = o :: (ms ++ [c]) ∧ o.word = (.punct, "(") ∧ ms.map Lexeme.word = ws ∧
      c.word = (.punct, ")") := by
  obtain ⟨o, rest, rfl, ho, hrest⟩ := List.map_eq_cons_iff.mp h
  obtain ⟨ms, last, rfl, hms, hlast⟩ := List.map_eq_append_iff.mp hrest
  obtain ⟨c, rfl, hc⟩ := List.map_eq_singleton_iff.mp hlast
  exact ⟨o, ms, c, rfl, ho, hms, hc⟩

theorem is_of_word {w : Word} (h : l.word = w) : (l.token file).Is w := by
  rw [← h]
  exact ⟨rfl, rfl⟩

/-- A word that is no parenthesis is folded into its token. -/
theorem folds_of_word {w : Word} (h : l.word = w) (hw : w ≠ (.punct, "(") ∧ w ≠ (.punct, ")")) :
    Folds file [l] [l.token file] := by
  refine folds_word fun hk => ⟨fun ht => hw.1 ?_, fun ht => hw.2 ?_⟩
  · rw [← h, Lexeme.word, hk, ht]
  · rw [← h, Lexeme.word, hk, ht]

theorem unarySymbol_ne (k : UnaryKind) :
    ((.punct, k.symbol) : Word) ≠ (.punct, "(") ∧ ((.punct, k.symbol) : Word) ≠ (.punct, ")") := by
  cases k <;> decide

theorem binaryWord_ne (k : BinaryKind) : k.word ≠ (.punct, "(") ∧ k.word ≠ (.punct, ")") := by
  cases k <;> decide

theorem nameWord_ne (s : String) :
    ((nameKind s, s) : Word) ≠ (.punct, "(") ∧ ((nameKind s, s) : Word) ≠ (.punct, ")") := by
  unfold nameKind
  split <;> simp

/-- Lexemes with the words of an expression are folded into tokens that spell it. -/
theorem spelled (file : String) (e : Expr) (ls : List Lexeme) (h : ls.map Lexeme.word = e.words) :
    ∃ ts, Spells e ts ∧ Folds file ls ts := by
  induction e generalizing ls with
  | int n =>
    obtain ⟨l, rfl, hl⟩ := List.map_eq_singleton_iff.mp h
    exact ⟨_, .int (is_of_word hl), folds_of_word hl (by simp)⟩
  | ident s =>
    obtain ⟨l, rfl, hl⟩ := List.map_eq_singleton_iff.mp h
    exact ⟨_, .ident (is_of_word hl), folds_of_word hl (nameWord_ne s)⟩
  | unary k x ih =>
    have hne := unarySymbol_ne k
    cases hk : k.fixity with
    | before =>
      rw [Expr.words, hk] at h
      obtain ⟨o, ms, c, rfl, ho, hms, hc⟩ := parts_of_enclosed h
      obtain ⟨l, ks, rfl, hl, hks⟩ := List.map_eq_cons_iff.mp hms
      obtain ⟨xs, hx, fx⟩ := ih ks hks
      exact ⟨_, .before hk (is_of_word hl) hx rfl rfl,
        folds_enclosed ho hc (.cons (folds_of_word hl hne) fx)⟩
    | behind =>
      rw [Expr.words, hk] at h
      obtain ⟨o, ms, c, rfl, ho, hms, hc⟩ := parts_of_enclosed h
      obtain ⟨ks, last, rfl, hks, hlast⟩ := List.map_eq_append_iff.mp hms
      obtain ⟨l, rfl, hl⟩ := List.map_eq_singleton_iff.mp hlast
      obtain ⟨xs, hx, fx⟩ := ih ks hks
      exact ⟨_, .behind hk (is_of_word hl) hx rfl rfl,
        folds_enclosed ho hc (fx.append (folds_of_word hl hne))⟩
    | around =>
      rw [Expr.words, hk] at h
      obtain ⟨o, ms, rfl, ho, hms⟩ := List.map_eq_cons_iff.mp h
      obtain ⟨ks, last, rfl, hks, hlast⟩ := List.map_eq_append_iff.mp hms
      obtain ⟨l, rfl, hl⟩ := List.map_eq_singleton_iff.mp hlast
      obtain ⟨xs, hx, fx⟩ := ih ks hks
      exact ⟨_, .around hk (is_of_word ho) hx (is_of_word hl),
        .cons (folds_of_word ho hne) (fx.append (folds_of_word hl hne))⟩
  | binary k l r ihl ihr =>
    obtain ⟨o, ms, c, rfl, ho, hms, hc⟩ := parts_of_enclosed h
    obtain ⟨as, rest, rfl, has, hrest⟩ := List.map_eq_append_iff.mp hms
    obtain ⟨m, bs, rfl, hm, hbs⟩ := List.map_eq_cons_iff.mp hrest
    obtain ⟨xs, hl, fl⟩ := ihl as has
    obtain ⟨ys, hr, fr⟩ := ihr bs hbs
    exact ⟨_, .binary hl (is_of_word hm) hr rfl rfl,
      folds_enclosed ho hc (fl.append (.cons (folds_of_word hm (binaryWord_ne k)) fr))⟩
  | ternary k a b c iha ihb ihc =>
    cases k with
    | ifThenElse =>
      obtain ⟨o, ms, z, rfl, ho, hms, hz⟩ := parts_of_enclosed h
      obtain ⟨t, rest, rfl, ht, hrest⟩ := List.map_eq_cons_iff.mp hms
      obtain ⟨as, rest, rfl, has, hrest⟩ := List.map_eq_append_iff.mp hrest
      obtain ⟨u, rest, rfl, hu, hrest⟩ := List.map_eq_cons_iff.mp hrest
      obtain ⟨bs, rest, rfl, hbs, hrest⟩ := List.map_eq_append_iff.mp hrest
      obtain ⟨v, cs, rfl, hv, hcs⟩ := List.map_eq_cons_iff.mp hrest
      obtain ⟨xs, ha, fa⟩ := iha as has
      obtain ⟨ys, hb, fb⟩ := ihb bs hbs
      obtain ⟨zs, hc, fc⟩ := ihc cs hcs
      exact ⟨_, .conditional (is_of_word ht) ha (is_of_word hu) hb (is_of_word hv) hc rfl rfl,
        folds_enclosed ho hz (.cons (folds_of_word ht (by decide)) (fa.append
          (.cons (folds_of_word hu (by decide)) (fb.append
            (.cons (folds_of_word hv (by decide)) fc)))))⟩
    | binding =>
      obtain ⟨o, ms, z, rfl, ho, hms, hz⟩ := parts_of_enclosed h
      obtain ⟨as, rest, rfl, has, hrest⟩ := List.map_eq_append_iff.mp hms
      obtain ⟨t, rest, rfl, ht, hrest⟩ := List.map_eq_cons_iff.mp hrest
      obtain ⟨bs, rest, rfl, hbs, hrest⟩ := List.map_eq_append_iff.mp hrest
      obtain ⟨u, cs, rfl, hu, hcs⟩ := List.map_eq_cons_iff.mp hrest
      obtain ⟨xs, ha, fa⟩ := iha as has
      obtain ⟨ys, hb, fb⟩ := ihb bs hbs
      obtain ⟨zs, hc, fc⟩ := ihc cs hcs
      exact ⟨_, .binding ha (is_of_word ht) hb (is_of_word hu) hc rfl rfl,
        folds_enclosed ho hz (fa.append (.cons (folds_of_word ht (by decide)) (fb.append
          (.cons (folds_of_word hu (by decide)) fc))))⟩

theorem scanUpTo_nil {m : Nat} (hm : 0 < m) (q : Position) :
    scanUpTo m q [] = ([], .finished q) := by
  cases m with
  | zero => simp at hm
  | succ n => rfl

theorem scan_of_lexes {cs : List Char} {ws : List Word} (h : Lexes cs ws []) :
    ∃ ls q, ls.map Lexeme.word = ws ∧ scan cs = (ls, .finished q) := by
  obtain ⟨ls, q, m, hls, hm, hscan⟩ := h _ .start (Nat.lt_succ_self _)
  rw [scanUpTo_nil (Nat.zero_lt_of_lt hm), List.append_nil] at hscan
  exact ⟨ls, q, hls, hscan⟩

theorem Folds.tokenize {source : String} {q : Position} (h : Folds file ls ts)
    (hs : scan source.toList = (ls, .finished q)) : tokenize source file = .ok ts := by
  have hbuild := h (.finished q) [] [] []
  rw [List.append_nil, List.append_nil] at hbuild
  rw [BindingPower.Calc.tokenize, tokenizeTo, hs]
  simp only [hbuild, build, List.reverse_reverse]

/-- The printed source of an expression is tokenized into tokens that spell it. -/
theorem tokenize_toSource (file : String) (e : Expr) (he : e.WellFormed) :
    ∃ ts, Spells e ts ∧ tokenize e.toSource file = .ok ts := by
  have hlex := lexes_toSource e he bounded_nil
  rw [List.append_nil] at hlex
  obtain ⟨ls, q, hls, hscan⟩ := scan_of_lexes hlex
  obtain ⟨ts, hts, hfold⟩ := spelled file e ls hls
  exact ⟨ts, hts, hfold.tokenize hscan⟩

end BindingPower.Calc
