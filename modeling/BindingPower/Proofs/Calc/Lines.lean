import BindingPower.Proofs.Calc.Placing

/-! # Texts under one another

Nothing that the lexer has begun goes on behind a newline, except for groups: a comment ends there
and so does every word. So a text whose groups are closed is followed by the tokens of the text
below it, or by its error, as they are by themselves, further down by the lines of the first. -/
namespace BindingPower.Calc

/-! ## Moving places -/

def Position.moved (lines chars : Nat) (p : Position) : Position :=
  ⟨p.line + lines, p.column, p.offset + chars⟩

/-- The place so many lines further down and so many characters further on, in the same column. -/
def Location.moved (lines chars : Nat) (l : Location) : Location :=
  ⟨l.file, l.line + lines, l.column, l.offset + chars⟩

def Lexeme.moved (lines chars : Nat) (l : Lexeme) : Lexeme :=
  ⟨l.kind, l.text, l.position.moved lines chars⟩

def Ending.moved (lines chars : Nat) : Ending → Ending
  | finished p => .finished (p.moved lines chars)
  | invalid c p => .invalid c (p.moved lines chars)

mutual
/-- The token with its location and those of its members moved. -/
def Token.moved (lines chars : Nat) : Token → Token
  | .mk kind text children location =>
    .mk kind text (Token.allMoved lines chars children) (location.map (Location.moved lines chars))
def Token.allMoved (lines chars : Nat) : List Token → List Token
  | [] => []
  | t :: ts => t.moved lines chars :: Token.allMoved lines chars ts
end

def LexError.moved (lines chars : Nat) : LexError → LexError
  | invalidCharacter c place => .invalidCharacter c (place.moved lines chars)
  | unclosedGroup opening place =>
    .unclosedGroup (opening.moved lines chars) (place.moved lines chars)
  | unopenedGroup place => .unopenedGroup (place.moved lines chars)

variable {file : String} {front before text rest more gap word : List Char} {kind : Kind}
  {ls ks : List Lexeme} {ending : Ending} {ts us : List Token} {e : LexError} {lines chars : Nat}

theorem Position.moved_advance (p : Position) (cs : List Char) :
    (p.moved lines chars).advance cs = (p.advance cs).moved lines chars := by
  induction cs generalizing p with
  | nil => rfl
  | cons c cs ih =>
    have hafter : (p.moved lines chars).after c = (p.after c).moved lines chars := by
      unfold after
      split
      · simp only [moved, Nat.add_right_comm]
      · simp only [moved, Nat.add_right_comm]
    rw [advance_cons, advance_cons, hafter, ih]

/-- Behind a newline the columns start again. -/
theorem Position.advance_newline (before : List Char) :
    start.advance (before ++ ['\n']) =
      start.moved (before.count '\n' + 1) (before.length + 1) := by
  have hline : (start.advance before).line = 1 + before.count '\n' := advance_line _ _
  have hoffset : (start.advance before).offset = 0 + before.length := advance_offset _ _
  rw [advance_concat, after, if_pos rfl, hline, hoffset]
  rfl

theorem Position.within_moved (p : Position) :
    (p.moved lines chars).within file = (p.within file).moved lines chars := by
  simp only [within, moved, Location.moved, Int.natCast_add]

theorem Lexeme.location_moved (l : Lexeme) :
    (l.moved lines chars).location file = (l.location file).moved lines chars :=
  l.position.within_moved

theorem Lexeme.token_moved (l : Lexeme) :
    (l.moved lines chars).token file = (l.token file).moved lines chars := by
  rw [token, location_moved, token, Token.moved, Token.allMoved]
  rfl

theorem groupToken_moved (opening : Location) (ts : List Token) :
    groupToken (opening.moved lines chars) (Token.allMoved lines chars ts) =
      (groupToken opening ts).moved lines chars := by
  rw [groupToken, groupToken, Token.moved]
  rfl

theorem words_moved (ls : List Lexeme) :
    (ls.map (Lexeme.moved lines chars)).map Lexeme.word = ls.map Lexeme.word := by
  rw [List.map_map]
  rfl

/-- The diagnostic of an error that is moved differs in its location and its help only. -/
theorem LexError.diagnostic_moved (e : LexError) :
    (e.moved lines chars).diagnostic.message = e.diagnostic.message ∧
      (e.moved lines chars).diagnostic.code = e.diagnostic.code ∧
      (e.moved lines chars).diagnostic.location = e.diagnostic.location.moved lines chars := by
  cases e with
  | invalidCharacter c place => exact ⟨rfl, rfl, rfl⟩
  | unclosedGroup opening place => exact ⟨rfl, rfl, rfl⟩
  | unopenedGroup place => exact ⟨rfl, rfl, rfl⟩

/-- A text is scanned in the same way wherever it stands. -/
theorem Scans.moved (h : Scans before text ls ending)
    (hfront : Position.start.advance front = Position.start.moved lines chars) :
    Scans (front ++ before) text (ls.map (Lexeme.moved lines chars))
      (ending.moved lines chars) := by
  have behind (cs ds : List Char) : (Position.start.advance (cs ++ ds)).moved lines chars =
      Position.start.advance (front ++ cs ++ ds) := by
    rw [List.append_assoc, Position.advance_append _ front, hfront, Position.moved_advance]
  induction h with
  | finished hg =>
    rw [Ending.moved, behind]
    exact .finished hg
  | invalid hg hs hw =>
    rw [Ending.moved, behind]
    exact .invalid hg hs hw
  | @lexeme before gap word rest kind ls ending hg hs hl h ih =>
    have hmore : Scans (front ++ before ++ gap ++ word) rest (ls.map (Lexeme.moved lines chars))
        (ending.moved lines chars) := by
      rw [← List.append_assoc, ← List.append_assoc] at ih
      exact ih
    rw [List.map_cons, Lexeme.moved]
    dsimp only
    rw [behind]
    exact .lexeme hg hs hl hmore

/-- Groups are told apart by their words, wherever these stand. -/
theorem Grouped.moved (h : Grouped file ls ts) :
    Grouped file (ls.map (Lexeme.moved lines chars)) (Token.allMoved lines chars ts) := by
  induction h with
  | nil =>
    rw [Token.allMoved]
    exact .nil
  | word hl h ih =>
    rw [List.map_cons, Token.allMoved, ← Lexeme.token_moved]
    exact .word hl ih
  | @group o c inner ls ms ts ho hc hi h ihi ih =>
    rw [List.map_cons, List.map_append, List.map_cons, Token.allMoved, ← groupToken_moved,
      ← Lexeme.location_moved]
    refine .group ?_ hc ihi ih
    rwa [words_moved]

theorem Refuses.moved (h : Refuses file ls ending e) :
    Refuses file (ls.map (Lexeme.moved lines chars)) (ending.moved lines chars)
      (e.moved lines chars) := by
  cases h with
  | @unopened front back c ending hm hc =>
    rw [List.map_append, List.map_cons, LexError.moved, ← Lexeme.location_moved]
    refine .unopened ?_ ?_
    · rwa [words_moved]
    · rwa [words_moved]
  | invalid hm =>
    rw [Ending.moved, LexError.moved, ← Position.within_moved]
    refine .invalid ?_
    rwa [words_moved]
  | @unclosed front behind o p hm ho =>
    rw [Ending.moved, LexError.moved, ← Position.within_moved, ← Lexeme.location_moved,
      List.map_append, List.map_cons]
    refine .unclosed ?_ ?_
    · rwa [← List.map_cons, ← List.map_append, words_moved]
    · rwa [words_moved]

/-- Behind closed groups an error is met as it is by itself. -/
theorem Grouped.refuses (h : Grouped file ks us) (hr : Refuses file ls ending e) :
    Refuses file (ks ++ ls) ending e := by
  obtain ⟨hmatched, hequal⟩ := h.balanced
  cases hr with
  | @unopened front back c ending hm hc =>
    rw [← List.append_assoc]
    refine .unopened ?_ ⟨hc.1, ?_⟩
    · rw [List.map_append]
      exact hmatched.append hm
    · rw [List.map_append, openings_append, closings_append, hequal, hc.2]
  | invalid hm =>
    refine .invalid ?_
    rw [List.map_append]
    exact hmatched.append hm
  | @unclosed front behind o p hm ho =>
    rw [← List.append_assoc]
    refine .unclosed ?_ ho
    rw [List.append_assoc, List.map_append]
    exact hmatched.append hm

/-! ## Newlines -/

/-- A text without a newline that a text starts with stands before the newline below it. -/
theorem prefix_of_line {cs : List Char} (h : cs <+: text ++ '\n' :: more) (hc : '\n' ∉ cs) :
    cs <+: text := by
  rcases List.prefix_or_prefix_of_prefix h (List.prefix_append text ('\n' :: more)) with hle | hle
  · exact hle
  · obtain ⟨tail, rfl⟩ := hle
    rw [List.prefix_append_right_inj] at h
    cases tail with
    | nil => simp
    | cons d ds =>
      obtain ⟨rfl, -⟩ := List.cons_prefix_cons.mp h
      exact absurd (by simp) hc

theorem punctuation_line : ∀ m ∈ punctuation, '\n' ∉ m.toList := by
  decide

/-- No word has a newline in it. -/
theorem Word.Formed.line (h : Word.Formed (kind, String.ofList word)) : '\n' ∉ word := by
  obtain ⟨c, cs, rfl, hshape⟩ := h.front
  intro hm
  rcases hshape with ⟨hdigit, hall⟩ | ⟨hstart, hall⟩ | ⟨-, -, hmark⟩
  · rcases List.mem_cons.mp hm with rfl | hm
    · exact absurd hdigit (by decide)
    · exact absurd (List.all_eq_true.mp hall _ hm) (by decide)
  · rcases List.mem_cons.mp hm with rfl | hm
    · exact absurd hstart (by decide)
    · exact absurd (List.all_eq_true.mp hall _ hm) (by decide)
  · have hnone := punctuation_line _ hmark
    rw [String.toList_ofList] at hnone
    exact hnone hm

theorem Solid.line (h : Solid text) (hne : text ≠ []) : Solid (text ++ '\n' :: more) where
  left := by
    obtain ⟨c, cs, rfl⟩ := List.exists_cons_of_ne_nil hne
    exact h.1
  right hfront := h.2 (prefix_of_line hfront (by decide))

/-- A newline makes no word longer. -/
theorem Longest.line (h : Longest kind word text) : Longest kind word (text ++ '\n' :: more) where
  front := h.front.trans (List.prefix_append _ _)
  formed := h.formed
  longest k v hv hf := h.longest k v (prefix_of_line hv hf.line) hf

/-- What comes behind a gap matters to it by its first character only. -/
theorem Gap.congr (h : Gap rest gap) (hhead : rest.head? = more.head?) : Gap more gap := by
  induction h with
  | nil => exact .nil
  | blank hc h ih => exact .blank hc ih
  | @comment body gap hb he h ih =>
    refine .comment hb ?_ ih
    rwa [List.head?_append, ← hhead, ← List.head?_append]

/-- A newline ends a comment at the end of a text. -/
theorem Gap.line (h : Gap [] gap) : Gap rest (gap ++ ['\n']) := by
  induction h with
  | nil => exact .blank (by decide) .nil
  | blank hc h ih => exact .blank hc ih
  | @comment body gap hb he h ih =>
    rw [List.append_assoc]
    refine .comment hb ?_ ih
    rw [List.append_nil] at he
    cases gap with
    | nil => simp
    | cons c gap => exact he

theorem Gap.append (h : Gap (more ++ rest) gap) (h' : Gap rest more) : Gap rest (gap ++ more) := by
  induction h with
  | nil => exact h'
  | blank hc h ih => exact .blank hc ih
  | @comment body gap hb he h ih =>
    rw [List.append_assoc]
    refine .comment hb ?_ ih
    rwa [List.append_assoc]

/-- A gap before a text joins its first gap. -/
theorem Scans.behind_gap (hg : Gap text gap) (h : Scans (before ++ gap) text ls ending) :
    Scans before (gap ++ text) ls ending := by
  cases h with
  | @finished _ more h =>
    rw [List.append_assoc]
    refine .finished (Gap.append ?_ h)
    rwa [List.append_nil]
  | @invalid _ more rest c h hs hw =>
    rw [List.append_assoc, ← List.append_assoc gap]
    exact .invalid (hg.append h) hs hw
  | @lexeme _ more word rest kind ls ending h hs hl hmore =>
    rw [List.append_assoc, ← List.append_assoc gap]
    refine .lexeme (hg.append h) hs hl ?_
    rwa [← List.append_assoc]

/-- A text that is scanned to its end is followed by what stands on the lines below it. -/
theorem Scans.line (h : Scans before text ks ending) {p : Position} (hp : ending = .finished p)
    {last : Ending} (hmore : Scans (before ++ text ++ ['\n']) more ls last) :
    Scans before (text ++ '\n' :: more) (ks ++ ls) last := by
  induction h with
  | @finished before gap hg =>
    have hsplit : gap ++ '\n' :: more = gap ++ ['\n'] ++ more := by simp
    rw [hsplit]
    refine .behind_gap hg.line ?_
    rwa [← List.append_assoc]
  | invalid hg hs hw => cases hp
  | @lexeme before gap word rest kind ks ending hg hs hl h ih =>
    obtain ⟨c, cs, rfl, -⟩ := hl.formed.front
    have hsplit : gap ++ (c :: cs ++ rest) ++ '\n' :: more =
        gap ++ (c :: cs ++ (rest ++ '\n' :: more)) := by simp
    have hword : c :: cs ++ (rest ++ '\n' :: more) = c :: cs ++ rest ++ '\n' :: more := by simp
    rw [hsplit]
    refine .lexeme (hg.congr rfl) ?_ ?_ (ih hp ?_)
    · rw [hword]
      exact hs.line (by simp)
    · rw [hword]
      exact hl.line
    · simpa using hmore

/-! ## One text below another -/

/-- The lexemes of the lower text are those that it has by itself, moved. -/
theorem scan_below {upper lower : List Char} {p : Position}
    (hupper : scan upper = (ks, .finished p)) (hlower : scan lower = (ls, ending)) :
    scan (upper ++ '\n' :: lower) =
      (ks ++ ls.map (Lexeme.moved (upper.count '\n' + 1) (upper.length + 1)),
        ending.moved (upper.count '\n' + 1) (upper.length + 1)) := by
  have hbelow := (scans_iff.mpr hlower).moved (Position.advance_newline upper)
  rw [List.append_nil] at hbelow
  exact scans_iff.mp ((scans_iff.mpr hupper).line rfl hbelow)

/-- A text that is tokenized is followed by the tokens of the text below it, or by its error, as
they are by themselves, but that they stand further down by its lines and further on by its
characters. -/
theorem tokenize_below {upper file : String} {ts : List Token} (h : tokenize upper file = .ok ts)
    (lower : String) :
    ((∃ ts', tokenize (upper ++ "\n" ++ lower) file = .ok ts') ↔
      ∃ us, tokenize lower file = .ok us) ∧
    (∀ us, tokenize lower file = .ok us →
      tokenize (upper ++ "\n" ++ lower) file = .ok (ts ++
        Token.allMoved (upper.toList.count '\n' + 1) (upper.length + 1) us)) ∧
    ∀ e, tokenize lower file = .error e →
      ∃ e', tokenize (upper ++ "\n" ++ lower) file = .error e' ∧
        e'.diagnostic.message = e.diagnostic.message ∧ e'.diagnostic.code = e.diagnostic.code ∧
        e'.diagnostic.location =
          e.diagnostic.location.moved (upper.toList.count '\n' + 1) (upper.length + 1) := by
  obtain ⟨ks, p, hks, hupper⟩ := exists_grouped h
  have hscan {ls : List Lexeme} {ending : Ending} (hls : scan lower.toList = (ls, ending)) :
      scan (upper ++ "\n" ++ lower).toList =
        (ks ++ ls.map (Lexeme.moved (upper.toList.count '\n' + 1) (upper.length + 1)),
          ending.moved (upper.toList.count '\n' + 1) (upper.length + 1)) := by
    have hsource : (upper ++ "\n" ++ lower).toList = upper.toList ++ '\n' :: lower.toList := by
      simp
    rw [hsource, scan_below hks hls, String.length_toList]
  have hok : ∀ us, tokenize lower file = .ok us →
      tokenize (upper ++ "\n" ++ lower) file = .ok (ts ++
        Token.allMoved (upper.toList.count '\n' + 1) (upper.length + 1) us) := by
    intro us hus
    obtain ⟨ls, q, hls, hlower⟩ := exists_grouped hus
    exact (tokenize_ok_iff (hscan hls)).mpr ⟨⟨_, rfl⟩, hupper.append hlower.moved⟩
  have herror : ∀ e, tokenize lower file = .error e →
      tokenize (upper ++ "\n" ++ lower) file =
        .error (e.moved (upper.toList.count '\n' + 1) (upper.length + 1)) := by
    intro e he
    obtain ⟨ls, ending, hls, hlower⟩ := exists_refuses he
    exact (tokenize_error_iff (hscan hls)).mpr (hupper.refuses hlower.moved)
  refine ⟨⟨?_, fun ⟨us, hus⟩ => ⟨_, hok us hus⟩⟩, hok,
    fun e he => ⟨_, herror e he, e.diagnostic_moved⟩⟩
  rintro ⟨ts', hts⟩
  cases hlower : tokenize lower file with
  | ok us => exact ⟨us, rfl⟩
  | error e =>
    rw [herror e hlower] at hts
    cases hts

/-- A group, a bar and a comment that ends with the text. -/
def remarked : String := "(x) | // y"

def remarkedTokens : List Token :=
  [.mk .group "()" [.mk .ident "x" [] (some ⟨"here", 1, 2, 1⟩)] (some ⟨"here", 1, 1, 0⟩),
    .mk .punct "|" [] (some ⟨"here", 1, 5, 4⟩)]

theorem tokenize_below_remarked :
    tokenize (remarked ++ "\n" ++ "|\n()") "here" = .ok (remarkedTokens ++
      [.mk .punct "|" [] (some ⟨"here", 2, 1, 11⟩), .mk .group "()" [] (some ⟨"here", 3, 1, 13⟩)]) ∧
    ∃ e, tokenize (remarked ++ "\n" ++ "| )") "here" = .error e ∧
      e.diagnostic.message = "Unmatched closing delimiter ')'" ∧
      e.diagnostic.code = some "L002" ∧ e.diagnostic.location = ⟨"here", 2, 3, 13⟩ := by
  have hupper : tokenize remarked "here" = .ok remarkedTokens := by
    rfl
  have hlower : tokenize "|\n()" "here" = .ok [.mk .punct "|" [] (some ⟨"here", 1, 1, 0⟩),
      .mk .group "()" [] (some ⟨"here", 2, 1, 2⟩)] := by
    rfl
  have hunmatched : tokenize "| )" "here" = .error (.unopenedGroup ⟨"here", 1, 3, 2⟩) := by
    rfl
  exact ⟨(tokenize_below hupper "|\n()").2.1 _ hlower,
    (tokenize_below hupper "| )").2.2 _ hunmatched⟩

end BindingPower.Calc
