import BindingPower.Proofs.Calc.Pairing
import BindingPower.Proofs.Calc.Surface
import BindingPower.Proofs.Carrying

/-! # Where tokens stand

The position behind a part of a text is the one that the part's newlines tell. Every lexeme is told
to stand behind the part before it, and so is every token, a group at its opening parenthesis, and
every error. What a parse is refused for stands in the text as well. -/
namespace BindingPower.Calc

/-- The last line of a text starts here: behind the last newline, or at zero if there is none. -/
structure LineStart (before : List Char) (start : Nat) : Prop where
  inside : start ≤ before.length
  newline : start ≠ 0 → before[start - 1]? = some '\n'
  last : '\n' ∉ before.drop start

/-- The line and the column of the position are those of its offset into the text. -/
structure Position.Right (text : List Char) (p : Position) : Prop where
  inside : p.offset ≤ text.length
  line : p.line = 1 + (text.take p.offset).count '\n'
  column : ∃ start, LineStart (text.take p.offset) start ∧ p.column = p.offset - start + 1

/-- The text that a token begins with, which is a parenthesis for a group. -/
def Token.front (t : Token) : String := if t.kind = .group then "(" else t.lexeme

/-- The token has a right location in the text, and it begins there. -/
def Token.Placed (file : String) (text : List Char) (t : Token) : Prop :=
  ∃ p : Position, t.location = some (p.within file) ∧ p.Right text ∧
    t.front.toList <+: text.drop p.offset

def Location.Earlier (a b : Option Location) : Prop := ∃ p ∈ a, ∃ q ∈ b, p.offset < q.offset

def Token.Before (t u : Token) : Prop := Location.Earlier t.location u.location

mutual
/-- The tokens in reading order, a group before its members. -/
def Token.inOrder : Token → List Token
  | .mk kind text children location =>
    .mk kind text children location :: Token.allInOrder children
def Token.allInOrder : List Token → List Token
  | [] => []
  | t :: ts => t.inOrder ++ Token.allInOrder ts
end

/-- Where the reading ends. -/
def Ending.position : Ending → Position
  | finished p => p
  | invalid _ p => p

/-- The tokens that a refusal names. -/
def Refusal.tokens : Refusal → List Token
  | .lexer _ => []
  | .parser f => f.tokens

variable {file : String} {before text : List Char} {ls : List Lexeme} {ending : Ending}
  {ts : List Token} {t u g : Token}

/-! ## Positions -/

theorem Position.advance_concat (p : Position) (cs : List Char) (c : Char) :
    p.advance (cs ++ [c]) = (p.advance cs).after c := p.advance_append cs [c]

theorem Position.start_advance_offset (cs : List Char) :
    (start.advance cs).offset = cs.length := (advance_offset start cs).trans (Nat.zero_add _)

theorem Position.advance_line (p : Position) (cs : List Char) :
    (p.advance cs).line = p.line + cs.count '\n' := by
  induction cs generalizing p with
  | nil => rfl
  | cons c cs ih =>
    rw [advance_cons, ih, after, List.count_cons]
    by_cases hc : c = '\n'
    · simp only [hc, if_true, beq_self_eq_true]
      omega
    · simp only [hc, if_false, beq_iff_eq, Nat.add_zero]

theorem LineStart.newline_concat (before : List Char) :
    LineStart (before ++ ['\n']) (before.length + 1) where
  inside := by simp
  newline _ := by simp
  last := by simp

theorem LineStart.concat {start : Nat} {c : Char} (h : LineStart before start) (hc : c ≠ '\n') :
    LineStart (before ++ [c]) start where
  inside := by
    have hinside := h.inside
    simp only [List.length_append, List.length_singleton]
    omega
  newline hne := by
    have hinside := h.inside
    rw [List.getElem?_append_left (by omega)]
    exact h.newline hne
  last := by
    rw [List.drop_append_of_le_length h.inside]
    simpa [hc.symm] using h.last

/-- The column is counted from where the last line starts. -/
theorem exists_lineStart (before : List Char) :
    ∃ start, LineStart before start ∧
      (Position.start.advance before).column = before.length - start + 1 := by
  induction before using List.reverseRecOn with
  | nil => exact ⟨0, ⟨Nat.le_refl 0, by simp, by simp⟩, rfl⟩
  | append_singleton before c ih =>
    obtain ⟨start, hstart, hcolumn⟩ := ih
    rw [Position.advance_concat, Position.after, List.length_append, List.length_singleton]
    by_cases hc : c = '\n'
    · subst hc
      refine ⟨before.length + 1, .newline_concat before, ?_⟩
      rw [if_pos rfl, Nat.sub_self]
    · refine ⟨start, hstart.concat hc, ?_⟩
      have hinside := hstart.inside
      rw [if_neg hc]
      dsimp only
      omega

/-- The position behind the part of a text is right. -/
theorem advance_right (h : before <+: text) : (Position.start.advance before).Right text := by
  have hoffset := Position.start_advance_offset before
  have htake : text.take before.length = before := (List.prefix_iff_eq_take.mp h).symm
  obtain ⟨start, hstart, hcolumn⟩ := exists_lineStart before
  refine ⟨?_, ?_, start, ?_, ?_⟩
  · rw [hoffset]
    exact h.length_le
  · rw [hoffset, htake, Position.advance_line]
    rfl
  · rwa [hoffset, htake]
  · rwa [hoffset]

/-! ## Lexemes -/

/-- A lexeme is told to stand behind the part of the text before it. -/
theorem Scans.lexeme_stands (h : Scans before text ls ending) :
    ∀ l ∈ ls, ∃ front, l.position = Position.start.advance front ∧
      front ++ l.text.toList <+: before ++ text := by
  induction h with
  | finished hg => simp
  | invalid hg hs hw => simp
  | @lexeme before gap word rest kind ls ending hg hs hl h ih =>
    have hsplit : before ++ gap ++ word ++ rest = before ++ (gap ++ (word ++ rest)) := by simp
    intro l hm
    rcases List.mem_cons.mp hm with rfl | hm
    · refine ⟨before ++ gap, rfl, ?_⟩
      rw [String.toList_ofList, ← hsplit]
      exact List.prefix_append _ _
    · rw [← hsplit]
      exact ih l hm

theorem Scans.offset_le (h : Scans before text ls ending) :
    ∀ l ∈ ls, before.length ≤ l.position.offset := by
  induction h with
  | finished hg => simp
  | invalid hg hs hw => simp
  | @lexeme before gap word rest kind ls ending hg hs hl h ih =>
    intro l hm
    rcases List.mem_cons.mp hm with rfl | hm
    · dsimp only
      rw [Position.start_advance_offset, List.length_append]
      omega
    · have hle := ih l hm
      simp only [List.length_append] at hle
      omega

/-- No word is empty, and so no two lexemes stand at one place. -/
theorem Scans.ascending (h : Scans before text ls ending) :
    ls.Pairwise fun l m => l.position.offset < m.position.offset := by
  induction h with
  | finished hg => exact .nil
  | invalid hg hs hw => exact .nil
  | @lexeme before gap word rest kind ls ending hg hs hl h ih =>
    obtain ⟨c, cs, rfl, -⟩ := hl.formed.front
    refine List.pairwise_cons.mpr ⟨fun m hm => ?_, ih⟩
    have hle := h.offset_le m hm
    rw [Position.start_advance_offset]
    simp only [List.length_append, List.length_cons] at hle ⊢
    omega

/-- The reading ends behind a part of the text. -/
theorem Scans.ending_stands (h : Scans before text ls ending) :
    ∃ front, ending.position = Position.start.advance front ∧ front <+: before ++ text := by
  induction h with
  | finished hg => exact ⟨_, rfl, List.prefix_refl _⟩
  | @invalid before gap rest c hg hs hw =>
    refine ⟨before ++ gap, rfl, ?_⟩
    rw [← List.append_assoc]
    exact List.prefix_append _ _
  | @lexeme before gap word rest kind ls ending hg hs hl h ih =>
    have hsplit : before ++ gap ++ word ++ rest = before ++ (gap ++ (word ++ rest)) := by simp
    rwa [hsplit] at ih

theorem Scans.not_group (h : Scans before text ls ending) : ∀ l ∈ ls, l.kind ≠ .group := by
  induction h with
  | finished hg => simp
  | invalid hg hs hw => simp
  | lexeme hg hs hl h ih =>
    refine List.forall_mem_cons.mpr ⟨?_, ih⟩
    rintro rfl
    exact hl.formed

/-- The location of a lexeme is right. -/
theorem Scans.lexeme_right (h : Scans [] text ls ending) :
    ∀ l ∈ ls, l.position.Right text ∧ l.text.toList <+: text.drop l.position.offset := by
  intro l hl
  obtain ⟨front, hp, hfront⟩ := h.lexeme_stands l hl
  rw [List.nil_append] at hfront
  have hright := advance_right ((List.prefix_append front _).trans hfront)
  refine ⟨hp ▸ hright, ?_⟩
  obtain ⟨rest, rfl⟩ := hfront
  rw [hp, Position.start_advance_offset, List.append_assoc, List.drop_left]
  exact List.prefix_append _ _

/-! ## Tokens in reading order -/

theorem Token.mem_inOrder (t : Token) : t ∈ t.inOrder := by
  cases t
  rw [inOrder]
  exact List.mem_cons_self

theorem Token.mem_allInOrder (hu : u ∈ ts) (ht : t ∈ u.inOrder) : t ∈ Token.allInOrder ts := by
  induction ts with
  | nil => exact absurd hu List.not_mem_nil
  | cons v ts ih =>
    rw [allInOrder, List.mem_append]
    rcases List.mem_cons.mp hu with rfl | hu
    · exact .inl ht
    · exact .inr (ih hu)

mutual
theorem Token.children_inOrder : ∀ t : Token, g ∈ t.inOrder → u ∈ g.children → u ∈ t.inOrder
  | .mk kind text children location, hg, hu => by
    rw [inOrder] at hg ⊢
    refine List.mem_cons_of_mem _ ?_
    rcases List.mem_cons.mp hg with rfl | hg
    · exact mem_allInOrder hu u.mem_inOrder
    · exact Token.children_allInOrder children hg hu
theorem Token.children_allInOrder : ∀ ts : List Token,
    g ∈ Token.allInOrder ts → u ∈ g.children → u ∈ Token.allInOrder ts
  | [], hg, _ => by
    rw [allInOrder] at hg
    exact absurd hg List.not_mem_nil
  | t :: ts, hg, hu => by
    rw [allInOrder, List.mem_append] at hg ⊢
    rcases hg with hg | hg
    · exact .inl (Token.children_inOrder t hg hu)
    · exact .inr (Token.children_allInOrder ts hg hu)
end

/-- What occurs among tokens, at any depth, is met in reading order. -/
theorem Occurs.inOrder (h : Occurs ts t) : t ∈ Token.allInOrder ts := by
  induction h with
  | top h => exact Token.mem_allInOrder h (Token.mem_inOrder _)
  | member _ hk h ih => exact Token.children_allInOrder ts ih h

/-- Where a token begins, and with which text. -/
def Token.head (t : Token) : String × Option Location := (t.front, t.location)

def Lexeme.head (file : String) (l : Lexeme) : String × Option Location :=
  (l.text, some (l.location file))

/-- Every token begins with a lexeme of its own, in the order of the lexemes. -/
theorem Grouped.heads (h : Grouped file ls ts) (hk : ∀ l ∈ ls, l.kind ≠ .group) :
    List.Sublist ((Token.allInOrder ts).map Token.head) (ls.map (Lexeme.head file)) := by
  induction h with
  | nil => exact .slnil
  | @word l ls ts hl h ih =>
    obtain ⟨hkind, hks⟩ := List.forall_mem_cons.mp hk
    have hhead : (l.token file).head = l.head file := by
      simp [Token.head, Token.front, Lexeme.head, Lexeme.token, Token.kind, Token.lexeme,
        Token.location, hkind]
    have horder : (l.token file).inOrder = [l.token file] := by
      rw [Lexeme.token, Token.inOrder, Token.allInOrder]
    rw [Token.allInOrder, horder, List.singleton_append, List.map_cons, List.map_cons, hhead]
    exact (ih hks).cons_cons _
  | @group o c inner ls ms ts ho hc hi h ihi ih =>
    obtain ⟨-, hks⟩ := List.forall_mem_cons.mp hk
    obtain ⟨hki, hkc⟩ := List.forall_mem_append.mp hks
    obtain ⟨-, hopening⟩ := Lexeme.word_eq_iff.mp ho.opening
    have hhead : (groupToken (o.location file) ms).head = o.head file := by
      rw [Lexeme.head, hopening]
      rfl
    have horder : (groupToken (o.location file) ms).inOrder =
        groupToken (o.location file) ms :: Token.allInOrder ms := by
      rw [groupToken, Token.inOrder]
    rw [Token.allInOrder, horder, List.cons_append, List.map_cons, List.map_cons, hhead,
      List.map_append, List.map_append]
    exact ((ihi hki).append ((ih (List.forall_mem_cons.mp hkc).2).cons _)).cons_cons _

theorem Grouped.placed (h : Grouped file ls ts) (hs : Scans [] text ls ending) :
    ∀ t ∈ Token.allInOrder ts, t.Placed file text := by
  intro t ht
  have hmem : t.head ∈ ls.map (Lexeme.head file) :=
    (h.heads hs.not_group).subset (List.mem_map_of_mem ht)
  obtain ⟨l, hl, hhead⟩ := List.mem_map.mp hmem
  obtain ⟨hfront, hlocation⟩ : l.text = t.front ∧ some (l.location file) = t.location :=
    Prod.mk.injEq .. ▸ hhead
  obtain ⟨hright, hword⟩ := hs.lexeme_right l hl
  refine ⟨l.position, hlocation.symm, hright, ?_⟩
  rwa [← hfront]

theorem Grouped.ascending (h : Grouped file ls ts) (hs : Scans [] text ls ending) :
    (Token.allInOrder ts).Pairwise Token.Before := by
  have hlexemes : (ls.map (Lexeme.head file)).Pairwise fun a b => Location.Earlier a.2 b.2 := by
    refine List.pairwise_map.mpr (hs.ascending.imp fun hlt => ?_)
    exact ⟨_, rfl, _, rfl, Int.ofNat_lt.mpr hlt⟩
  have htokens := hlexemes.sublist (h.heads hs.not_group)
  rw [List.pairwise_map] at htokens
  exact htokens

/-- An error is located where a lexeme stands or where the reading ends. -/
theorem Refuses.right {e : LexError} (h : Refuses file ls ending e)
    (hs : Scans [] text ls ending) :
    ∃ p : Position, e.diagnostic.location = p.within file ∧ p.Right text := by
  obtain ⟨front, hend, hfront⟩ := hs.ending_stands
  have hright : ending.position.Right text := hend ▸ advance_right hfront
  cases h with
  | @unopened front back c ending hm hc =>
    exact ⟨c.position, rfl, (hs.lexeme_right c (by simp)).1⟩
  | @invalid ls c p hm => exact ⟨p, rfl, hright⟩
  | @unclosed front behind o p hm ho => exact ⟨p, rfl, hright⟩

/-! ## Failures of a parse -/

section Carry

variable {T : Token → Prop} {inner : Precedence → Reading Token String Fault Expr}

theorem Prompt.carrying {α : Type} {c : Answer α} (h : Prompt c) : Carrying T (settled c) := by
  cases h with
  | value a => trivial
  | fault e => exact Failure.carries_of_nil rfl

/-- What is left of a group is left of its members. -/
theorem group_carrying (ht : ∀ u ∈ t.children, T u)
    (hi : Reading.Ensures T (Failure.Carries T) (fun _ => True) (inner .bottom)) :
    Carrying T (ofGroup (inner .bottom t.children)) := by
  have hmembers := hi t.children ht
  cases hread : inner .bottom t.children with
  | error f rest =>
    rw [hread] at hmembers
    exact hmembers
  | ok e rest =>
    rw [hread] at hmembers
    cases rest with
    | nil => trivial
    | cons u more =>
      exact Failure.carries_of_single rfl (ht u (hmembers.2.subset List.mem_cons_self))

end Carry

/-- The answers of the grammar name no token, but for what a group leaves of its members. -/
theorem scheme_carry (config : Config) (tokens : List Token) :
    (scheme config).Carry (Occurs tokens) := fun depth inner hinner =>
  { query := fun t _ => (classify_prompt t).carrying.contained _ _
    nullary := fun t ht => by
      change Carrying _ (Reading.contained _ _ _)
      split
      · rename_i hk
        exact (group_carrying (fun u hu => ht.member hk hu) (hinner .bottom)).contained _ _
      · rename_i hk
        exact (readLeaf_prompt hk).carrying.contained _ _
    unary := fun t x _ => (buildUnary_prompt t x).carrying.contained _ _
    binary := fun t x y _ => (buildBinary_prompt t x y).carrying.contained _ _
    ternary := fun t x y z _ => (buildTernary_prompt t x y z).carrying.contained _ _
    isFollow := fun _ _ _ => trivial }

/-- A parse names only tokens that it was given, at whatever depth they stand. -/
theorem parseTokens_carries (config : Config) (tokens : List Token) :
    Run.Meets (Failure.Carries (Occurs tokens)) (fun _ => True) (parseTokens tokens config) :=
  (parser_follows config).parse.keeps (s := .start (.ofTokens tokens))
    ((scheme_carry config tokens).upholds.parse 0) rfl rfl fun _ ht => .top ht

theorem parseUntil_carries (config : Config) (tokens : List Token) (rbp : Int)
    (stop : Option (Token → Bool)) :
    Run.Meets (Failure.Carries (Occurs tokens)) (fun _ => True)
      ((parser config).parseUntil rbp (stop.map Stop.ofPredicate) (.start (.ofTokens tokens))) :=
  ((parser_follows config).parseUntil rbp stop).keeps (s := .start (.ofTokens tokens))
    ((scheme_carry config tokens).upholds.parseUntil (Failure.carries_of_nil rfl) 0 _) rfl rfl
    fun _ ht => .top ht

/-! ## Places in a source text -/

theorem tokenize_placed {source : String} (h : tokenize source file = .ok ts) :
    ∀ t, Occurs ts t → t.Placed file source.toList := by
  intro t ht
  obtain ⟨ls, p, hscan, hg⟩ := exists_grouped h
  exact hg.placed (scans_iff.mpr hscan) t ht.inOrder

theorem parseString_placed {source : String} {config : Config} {r : Refusal}
    (h : parseString source file config = .error r) :
    ∀ t ∈ r.tokens, t.Placed file source.toList := by
  unfold parseString at h
  cases htokens : tokenize source file with
  | error e =>
    rw [htokens] at h
    cases h
    exact fun t ht => absurd ht List.not_mem_nil
  | ok ts =>
    have hcarries := parseTokens_carries config ts
    cases hrun : parseTokens ts config with
    | ok x s =>
      simp only [htokens, hrun] at h
      cases h
    | error f s =>
      simp only [htokens, hrun] at h hcarries
      cases h
      exact fun t ht => tokenize_placed htokens t (hcarries t ht)

/-- Every location is right: those of the tokens of a text, which ascend in reading order, and that
of the error which a text is refused with. Whatever token a parse of the text is refused for stands
in the text at its location. -/
theorem tokenize_located (source file : String) :
    (∀ ts, tokenize source file = .ok ts →
      (∀ t, Occurs ts t → t ∈ Token.allInOrder ts) ∧
      (∀ t ∈ Token.allInOrder ts, t.Placed file source.toList) ∧
      (Token.allInOrder ts).Pairwise Token.Before) ∧
    (∀ e, tokenize source file = .error e →
      ∃ p : Position, e.diagnostic.location = p.within file ∧ p.Right source.toList) ∧
    (∀ config r, parseString source file config = .error r →
      ∀ t ∈ r.tokens, t.Placed file source.toList) ∧
    ∀ ts config rbp (stop : Option (Token → Bool)) f s, tokenize source file = .ok ts →
      (parser config).parseUntil rbp (stop.map Stop.ofPredicate) (.start (.ofTokens ts)) =
        .error f s →
      ∀ t ∈ f.tokens, t.Placed file source.toList := by
  refine ⟨fun ts h => ?_, fun e h => ?_, fun config r h => parseString_placed h,
    fun ts config rbp stop f s h hrun => ?_⟩
  · obtain ⟨ls, p, hscan, hg⟩ := exists_grouped h
    have hscans := scans_iff.mpr hscan
    exact ⟨fun t ht => ht.inOrder, hg.placed hscans, hg.ascending hscans⟩
  · obtain ⟨ls, ending, hscan, hr⟩ := exists_refuses h
    exact hr.right (scans_iff.mpr hscan)
  · have hcarries := parseUntil_carries config ts rbp stop
    rw [hrun] at hcarries
    exact fun t ht => tokenize_placed h t (hcarries t ht)

/-- The group on the second line has a token too many. -/
def crowded : String := "a +\n (b c)"

def crowdedTokens : List Token :=
  [.mk .ident "a" [] (some ⟨"here", 1, 1, 0⟩), .mk .punct "+" [] (some ⟨"here", 1, 3, 2⟩),
    .mk .group "()" [.mk .ident "b" [] (some ⟨"here", 2, 3, 6⟩),
      .mk .ident "c" [] (some ⟨"here", 2, 5, 8⟩)] (some ⟨"here", 2, 2, 5⟩)]

theorem tokenize_located_crowded :
    (tokenize crowded "here" = .ok crowdedTokens ∧
      (Token.allInOrder crowdedTokens).Pairwise Token.Before) ∧
    (∃ e, tokenize "a\n\t$" "here" = .error e ∧
      ∃ p : Position, e.diagnostic.location = p.within "here" ∧ p.Right "a\n\t$".toList) ∧
    (∃ r, parseString crowded "here" .standard = .error r ∧
      r.tokens.map Token.location = [some ⟨"here", 2, 5, 8⟩] ∧
      ∀ t ∈ r.tokens, t.Placed "here" crowded.toList) ∧
    ∃ f s, (parser .standard).parseUntil 0 none (.start (.ofTokens crowdedTokens)) = .error f s ∧
      ∀ t ∈ f.tokens, t.Placed "here" crowded.toList := by
  obtain ⟨hplaces, -, hparse, huntil⟩ := tokenize_located crowded "here"
  have htokens : tokenize crowded "here" = .ok crowdedTokens := by
    rfl
  have hinvalid : tokenize "a\n\t$" "here" =
      .error (.invalidCharacter "$" ⟨"here", 2, 2, 3⟩) := by
    rfl
  have hnamed : (match parseString crowded "here" .standard with
      | .error r => decide (r.tokens.map Token.location = [some ⟨"here", 2, 5, 8⟩])
      | .ok _ => false) = true := by
    decide +kernel
  have hrefused : (match (parser .standard).parseUntil 0 none
        (.start (.ofTokens crowdedTokens)) with
      | .error _ _ => true
      | .ok _ _ => false) = true := by
    decide +kernel
  refine ⟨⟨htokens, (hplaces _ htokens).2.2⟩,
    ⟨_, hinvalid, (tokenize_located "a\n\t$" "here").2.1 _ hinvalid⟩, ?_, ?_⟩
  · cases hr : parseString crowded "here" .standard with
    | ok e =>
      rw [hr] at hnamed
      cases hnamed
    | error r =>
      rw [hr] at hnamed
      exact ⟨r, rfl, of_decide_eq_true hnamed, hparse _ _ hr⟩
  · cases hr : (parser .standard).parseUntil 0 none (.start (.ofTokens crowdedTokens)) with
    | ok e s =>
      rw [hr] at hrefused
      cases hrefused
    | error f s => exact ⟨f, s, rfl, huntil _ _ 0 none f s htokens hr⟩

end BindingPower.Calc
