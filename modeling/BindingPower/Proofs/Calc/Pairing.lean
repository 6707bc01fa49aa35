import Mathlib.Data.List.Induction
import BindingPower.Proofs.Calc.Scanning
import BindingPower.Proofs.Calc.Spelling

/-! # Pairs of parentheses

A closing parenthesis belongs to the latest opening one that has none yet. Read from the front, a
text fails at the first closing parenthesis that finds no such partner, at a character that starts
no word, or at its end if an opening parenthesis is left; otherwise every pair is a group. -/
namespace BindingPower.Calc

def openings (ws : List Word) : Nat := ws.count (.punct, "(")

def closings (ws : List Word) : Nat := ws.count (.punct, ")")

/-- The word behind these is a closing parenthesis, and as many were closed as were opened. -/
def Unmatched (front : List Word) (w : Word) : Prop :=
  w = (.punct, ")") ∧ openings front = closings front

/-- Every closing parenthesis finds an opening one. -/
def Matched (ws : List Word) : Prop := ∀ front w back, ws = front ++ w :: back → ¬Unmatched front w

/-- The opening parenthesis `o` has no partner among the words behind it, and every later one has:
it is the latest that a closing parenthesis could belong to. -/
structure Innermost (o : Word) (behind : List Word) : Prop where
  opening : o = (.punct, "(")
  unpaired : Matched behind
  latest : ∀ inner w rest, behind = inner ++ w :: rest → w = (.punct, "(") → ¬Matched rest

/-- The lexemes are the tokens, each pair of parentheses as a group of what stands between them. A
closing parenthesis is paired with the innermost opening one before it. -/
inductive Grouped (file : String) : List Lexeme → List Token → Prop where
  | nil : Grouped file [] []
  | word {l : Lexeme} {ls : List Lexeme} {ts : List Token}
    (hl : l.word ≠ (.punct, "(") ∧ l.word ≠ (.punct, ")")) (h : Grouped file ls ts) :
    Grouped file (l :: ls) (l.token file :: ts)
  | group {o c : Lexeme} {inner ls : List Lexeme} {ms ts : List Token}
    (ho : Innermost o.word (inner.map Lexeme.word)) (hc : c.word = (.punct, ")"))
    (hi : Grouped file inner ms) (h : Grouped file ls ts) :
    Grouped file (o :: (inner ++ c :: ls)) (groupToken (o.location file) ms :: ts)

/-- The error that is met first as the lexemes are read in order. -/
inductive Refuses (file : String) : List Lexeme → Ending → LexError → Prop where
  | unopened {front back : List Lexeme} {c : Lexeme} {ending : Ending}
    (hm : Matched (front.map Lexeme.word)) (hc : Unmatched (front.map Lexeme.word) c.word) :
    Refuses file (front ++ c :: back) ending (.unopenedGroup (c.location file))
  | invalid {ls : List Lexeme} {c : Char} {p : Position} (hm : Matched (ls.map Lexeme.word)) :
    Refuses file ls (.invalid c p) (.invalidCharacter (String.singleton c) (p.within file))
  | unclosed {front behind : List Lexeme} {o : Lexeme} {p : Position}
    (hm : Matched ((front ++ o :: behind).map Lexeme.word))
    (ho : Innermost o.word (behind.map Lexeme.word)) :
    Refuses file (front ++ o :: behind) (.finished p)
      (.unclosedGroup (o.location file) (p.within file))

/-- The lexemes as the lexer holds them: the groups that are still open, each behind the tokens read
before it, and the tokens of the innermost one. -/
inductive Stacked (file : String) :
    List Lexeme → List (Location × List Token) → List Token → Prop where
  | ground {ls : List Lexeme} {ts : List Token} (h : Grouped file ls ts) :
    Stacked file ls [] ts.reverse
  | opened {ls inner : List Lexeme} {o : Lexeme} {opened : List (Location × List Token)}
    {read ts : List Token} (h : Stacked file ls opened read) (ho : o.word = (.punct, "("))
    (hi : Grouped file inner ts) :
    Stacked file (ls ++ o :: inner) ((o.location file, read) :: opened) ts.reverse

variable {ws us : List Word} {w o : Word} {file : String} {ls ks : List Lexeme} {l c : Lexeme}
  {ts ms : List Token} {opened : List (Location × List Token)} {read : List Token}
  {ending : Ending} {e : LexError}

/-! ## Counting parentheses -/

theorem openings_append (ws us : List Word) : openings (ws ++ us) = openings ws + openings us :=
  List.count_append

theorem closings_append (ws us : List Word) : closings (ws ++ us) = closings ws + closings us :=
  List.count_append

@[simp] theorem openings_nil : openings [] = 0 := rfl

@[simp] theorem closings_nil : closings [] = 0 := rfl

@[simp] theorem openings_opening (ws : List Word) :
    openings ((.punct, "(") :: ws) = openings ws + 1 := List.count_cons_self

@[simp] theorem closings_opening (ws : List Word) :
    closings ((.punct, "(") :: ws) = closings ws := List.count_cons_of_ne (by decide)

@[simp] theorem openings_closing (ws : List Word) :
    openings ((.punct, ")") :: ws) = openings ws := List.count_cons_of_ne (by decide)

@[simp] theorem closings_closing (ws : List Word) :
    closings ((.punct, ")") :: ws) = closings ws + 1 := List.count_cons_self

theorem openings_other (hw : w ≠ (.punct, "(")) (ws : List Word) :
    openings (w :: ws) = openings ws := List.count_cons_of_ne hw

theorem closings_other (hw : w ≠ (.punct, ")")) (ws : List Word) :
    closings (w :: ws) = closings ws := List.count_cons_of_ne hw

theorem matched_nil : Matched [] := by
  intro front w back h
  simp at h

theorem Matched.front (h : Matched (ws ++ us)) : Matched ws := by
  rintro front w back rfl
  exact h front w (back ++ us) (by simp)

theorem Matched.concat (h : Matched ws) (hw : ¬Unmatched ws w) : Matched (ws ++ [w]) := by
  intro front v back heq
  rcases List.eq_nil_or_concat back with rfl | ⟨back, u, rfl⟩
  · obtain ⟨rfl, hv⟩ := List.append_inj' heq rfl
    cases hv
    exact hw
  · have hsplit : ws ++ [w] = (front ++ v :: back) ++ [u] := by simpa using heq
    obtain ⟨rfl, -⟩ := List.append_inj' hsplit rfl
    exact h front v back rfl

theorem Matched.closings_le (h : Matched ws) : closings ws ≤ openings ws := by
  induction ws using List.reverseRecOn with
  | nil => exact Nat.le_refl 0
  | append_singleton ws w ih =>
    have hle := ih h.front
    rw [openings_append, closings_append]
    by_cases hw : w = (.punct, ")")
    · have hne : openings ws ≠ closings ws := fun heq => h ws w [] rfl ⟨hw, heq⟩
      rw [hw, openings_closing, closings_closing, openings_nil, closings_nil]
      omega
    · rw [closings_other hw, closings_nil]
      omega

theorem Matched.append (h : Matched ws) (h' : Matched us) : Matched (ws ++ us) := by
  induction us using List.reverseRecOn with
  | nil => rwa [List.append_nil]
  | append_singleton us w ih =>
    rw [← List.append_assoc]
    refine (ih h'.front).concat fun hw => h' us w [] rfl ⟨hw.1, ?_⟩
    -- neither part has closed more than it has opened
    have heq := hw.2
    have hle := h.closings_le
    have hle' := h'.front.closings_le
    rw [openings_append, closings_append] at heq
    omega

theorem exists_unmatched (h : ¬Matched ws) :
    ∃ front w back, ws = front ++ w :: back ∧ Matched front ∧ Unmatched front w := by
  induction ws using List.reverseRecOn with
  | nil => exact absurd matched_nil h
  | append_singleton ws w ih =>
    by_cases hm : Matched ws
    · have hw : Unmatched ws w := Classical.not_not.mp fun hw => h (hm.concat hw)
      exact ⟨ws, w, [], rfl, hm, hw⟩
    · obtain ⟨front, v, back, rfl, hfront, hv⟩ := ih hm
      exact ⟨front, v, back ++ [w], by simp, hfront, hv⟩

theorem matched_single (hw : w ≠ (.punct, ")")) : Matched [w] :=
  matched_nil.concat fun h => hw h.1

/-- What stands behind an opening parenthesis without closing it leaves it open. -/
theorem openings_lt (ho : w = (.punct, "(")) (h : Matched us) :
    closings (w :: us) < openings (w :: us) := by
  rw [ho, openings_opening, closings_opening]
  exact Nat.lt_succ_of_le h.closings_le

/-- Between the parentheses of a pair there is one of each kind for every other. -/
theorem innermost_of_balanced (ho : o = (.punct, "(")) (hm : Matched ws)
    (heq : openings ws = closings ws) : Innermost o ws := by
  refine ⟨ho, hm, fun inner w rest hsplit hw hrest => ?_⟩
  rw [hsplit] at hm heq
  have hinner := hm.front.closings_le
  have hlater := openings_lt hw hrest
  rw [openings_append, closings_append] at heq
  omega

/-! ## Groups -/

/-- Within groups all parentheses are paired. -/
theorem Grouped.balanced (h : Grouped file ls ts) :
    Matched (ls.map Lexeme.word) ∧
      openings (ls.map Lexeme.word) = closings (ls.map Lexeme.word) := by
  induction h with
  | nil => exact ⟨matched_nil, rfl⟩
  | @word l ls ts hl h ih =>
    rw [List.map_cons, openings_other hl.1, closings_other hl.2]
    exact ⟨(matched_single hl.2).append ih.1, ih.2⟩
  | @group o c inner ls ms ts ho hc hi h ihi ih =>
    have hopened : Matched (o.word :: inner.map Lexeme.word) :=
      (matched_single (by rw [ho.opening]; decide)).append ihi.1
    have hpair : Matched ((o.word :: inner.map Lexeme.word) ++ [c.word]) :=
      hopened.concat fun hu => absurd hu.2 (Nat.ne_of_gt (openings_lt ho.opening ihi.1))
    have hsplit : (o :: (inner ++ c :: ls)).map Lexeme.word =
        ((o.word :: inner.map Lexeme.word) ++ [c.word]) ++ ls.map Lexeme.word := by simp
    rw [hsplit]
    refine ⟨hpair.append ih.1, ?_⟩
    simp only [ho.opening, hc, openings_append, closings_append, openings_opening,
      closings_opening, openings_closing, closings_closing, openings_nil, closings_nil]
    omega

theorem Grouped.append (h : Grouped file ls ts) (h' : Grouped file ks ms) :
    Grouped file (ls ++ ks) (ts ++ ms) := by
  induction h with
  | nil => exact h'
  | word hl h ih => exact .word hl ih
  | group ho hc hi h ihi ih =>
    rw [List.cons_append, List.append_assoc, List.cons_append, List.cons_append]
    exact .group ho hc hi ih

theorem Grouped.folds (h : Grouped file ls ts) : Folds file ls ts := by
  induction h with
  | nil => exact fun _ _ _ _ => rfl
  | word hl h ih => exact (folds_of_word rfl hl).cons ih
  | @group o c inner ls ms ts ho hc hi h ihi ih =>
    have hpair := (folds_enclosed ho.opening hc ihi).append ih
    rw [List.cons_append, List.append_assoc] at hpair
    exact hpair

/-! ## Open groups -/

theorem Stacked.append (h : Stacked file ls opened read) (h' : Grouped file ks ms) :
    Stacked file (ls ++ ks) opened (ms.reverse ++ read) := by
  cases h with
  | ground hg =>
    rw [← List.reverse_append]
    exact .ground (hg.append h')
  | opened hs ho hi =>
    rw [← List.reverse_append, List.append_assoc, List.cons_append]
    exact .opened hs ho (hi.append h')

/-- A closing parenthesis makes the innermost open group a token of the one around it. -/
theorem Stacked.closed {p : Location} {outer : List Token}
    (h : Stacked file ls ((p, outer) :: opened) read) (hc : c.word = (.punct, ")")) :
    Stacked file (ls ++ [c]) opened (groupToken p read.reverse :: outer) := by
  cases h with
  | @opened front inner o _ _ ts hs ho hi =>
    have hpair : Grouped file (o :: (inner ++ [c])) [groupToken (o.location file) ts] :=
      .group (innermost_of_balanced ho hi.balanced.1 hi.balanced.2) hc hi .nil
    rw [List.append_assoc, List.cons_append, List.reverse_reverse]
    exact hs.append hpair

theorem Stacked.openings_eq (h : Stacked file ls opened read) :
    openings (ls.map Lexeme.word) = closings (ls.map Lexeme.word) + opened.length := by
  induction h with
  | ground h => exact h.balanced.2
  | @opened ls inner o opened read ts h ho hi ih =>
    have hinner := hi.balanced.2
    rw [List.map_append, List.map_cons, openings_append, closings_append, ho, openings_opening,
      closings_opening, List.length_cons]
    omega

/-- Reading on from the front is reading on from what the lexer holds. -/
theorem Stacked.build (h : Stacked file ls opened read) (ending : Ending) (more : List Lexeme) :
    build file ending (ls ++ more) [] [] = build file ending more opened read := by
  induction h generalizing more with
  | ground h =>
    have hfolds := h.folds ending more [] []
    rwa [List.append_nil] at hfolds
  | @opened ls inner o opened read ts h ho hi ih =>
    have hopening : o.kind = .punct ∧ o.text = "(" := Lexeme.word_eq_iff.mp ho
    have hfolds := hi.folds ending more ((o.location file, read) :: opened) []
    rw [List.append_nil] at hfolds
    rw [List.append_assoc, List.cons_append, ih, ← hfolds]
    simp only [BindingPower.Calc.build, if_pos hopening]

/-- As long as every closing parenthesis finds its partner, the lexer holds what it has read. -/
theorem exists_stacked (file : String) (h : Matched (ls.map Lexeme.word)) :
    ∃ opened read, Stacked file ls opened read := by
  induction ls using List.reverseRecOn with
  | nil => exact ⟨[], [], .ground .nil⟩
  | append_singleton ls l ih =>
    rw [List.map_append] at h
    obtain ⟨opened, read, hs⟩ := ih h.front
    by_cases hopening : l.word = (.punct, "(")
    · exact ⟨_, _, hs.opened hopening .nil⟩
    · by_cases hclosing : l.word = (.punct, ")")
      · cases opened with
        | nil => exact absurd ⟨hclosing, hs.openings_eq⟩ (h _ l.word [] rfl)
        | cons top opened => exact ⟨_, _, hs.closed hclosing⟩
      · exact ⟨_, _, hs.append (.word ⟨hopening, hclosing⟩ .nil)⟩

theorem grouped_iff_balanced (file : String) :
    (∃ ts, Grouped file ls ts) ↔ Matched (ls.map Lexeme.word) ∧
      openings (ls.map Lexeme.word) = closings (ls.map Lexeme.word) := by
  constructor
  · rintro ⟨ts, h⟩
    exact h.balanced
  · rintro ⟨hm, heq⟩
    obtain ⟨opened, read, hs⟩ := exists_stacked file hm
    have hdepth := hs.openings_eq
    cases hs with
    | ground h => exact ⟨_, h⟩
    | opened hs ho hi =>
      rw [List.length_cons] at hdepth
      omega

/-! ## Outcomes -/

/-- What stands behind the innermost open parenthesis is complete. -/
theorem Innermost.grouped (file : String) (h : Innermost w (ls.map Lexeme.word)) :
    ∃ ts, Grouped file ls ts := by
  obtain ⟨opened, read, hs⟩ := exists_stacked file h.unpaired
  cases hs with
  | ground hg => exact ⟨_, hg⟩
  | @opened front inner o _ _ _ hs ho hi =>
    rw [List.map_append, List.map_cons] at h
    exact absurd hi.balanced.1 (h.latest _ _ _ rfl ho)

theorem Refuses.refused (h : Refuses file ls ending e) :
    ∃ p, build file ending ls [] [] = (.error e, p) := by
  cases h with
  | @unopened front back c ending hm hc =>
    obtain ⟨opened, read, hs⟩ := exists_stacked file hm
    have hdepth := hs.openings_eq
    rw [hc.2] at hdepth
    obtain rfl : opened = [] := List.eq_nil_of_length_eq_zero (by omega)
    have hclosing : c.kind = .punct ∧ c.text = ")" := Lexeme.word_eq_iff.mp hc.1
    have hopening : ¬(c.kind = .punct ∧ c.text = "(") := by
      rw [hclosing.2]
      simp
    refine ⟨c.position.advance c.text.toList, ?_⟩
    rw [hs.build, build, if_neg hopening, if_pos hclosing]
  | @invalid ls c p hm =>
    obtain ⟨opened, read, hs⟩ := exists_stacked file hm
    have hrun := hs.build (.invalid c p) []
    rw [List.append_nil] at hrun
    exact ⟨p, hrun.trans (by rw [build])⟩
  | @unclosed front behind o p hm ho =>
    rw [List.map_append] at hm
    obtain ⟨opened, read, hs⟩ := exists_stacked file hm.front
    obtain ⟨ts, hg⟩ := ho.grouped file
    have hrun := (hs.opened ho.opening hg).build (.finished p) []
    rw [List.append_nil] at hrun
    exact ⟨p, hrun.trans (by rw [build])⟩

/-- Lexemes either come to an end in groups or are refused. -/
theorem grouped_or_refuses (file : String) (ls : List Lexeme) (ending : Ending) :
    (∃ ts p, ending = .finished p ∧ Grouped file ls ts) ∨ ∃ e, Refuses file ls ending e := by
  by_cases hm : Matched (ls.map Lexeme.word)
  · cases ending with
    | invalid c p => exact .inr ⟨_, .invalid hm⟩
    | finished p =>
      obtain ⟨opened, read, hs⟩ := exists_stacked file hm
      cases hs with
      | ground hg => exact .inl ⟨_, p, rfl, hg⟩
      | @opened front inner o _ _ _ hs ho hi =>
        have hinner := innermost_of_balanced ho hi.balanced.1 hi.balanced.2
        exact .inr ⟨_, .unclosed hm hinner⟩
  · obtain ⟨front, w, back, hsplit, hfront, hw⟩ := exists_unmatched hm
    obtain ⟨as, bs, rfl, rfl, hbs⟩ := List.map_eq_append_iff.mp hsplit
    obtain ⟨c, bs, rfl, rfl, -⟩ := List.map_eq_cons_iff.mp hbs
    exact .inr ⟨_, .unopened hfront hw⟩

/-- How an error is told: its code, its place, and where a group starts that nothing closes. -/
def LexError.Told (e : LexError) : Prop :=
  match e with
  | .invalidCharacter _ place =>
    e.diagnostic.code = some "L001" ∧ e.diagnostic.location = place
  | .unopenedGroup place => e.diagnostic.code = some "L002" ∧ e.diagnostic.location = place
  | .unclosedGroup opening place =>
    e.diagnostic.code = some "L002" ∧ e.diagnostic.location = place ∧
      e.diagnostic.help = some ("The opening '(' at " ++ opening.text ++ " was never closed.")

theorem LexError.told (e : LexError) : e.Told := by
  cases e with
  | invalidCharacter c place => exact ⟨rfl, rfl⟩
  | unopenedGroup place => exact ⟨rfl, rfl⟩
  | unclosedGroup opening place => exact ⟨rfl, rfl, rfl⟩

theorem tokenize_of_refuses {source : String} (hs : scan source.toList = (ls, ending))
    (h : Refuses file ls ending e) : tokenize source file = .error e := by
  obtain ⟨p, hrun⟩ := h.refused
  rw [tokenize, tokenizeTo, hs]
  simp only [hrun]

/-- The tokens of a text are the groups that its lexemes come to. -/
theorem tokenize_ok_iff {source : String} (hs : scan source.toList = (ls, ending)) :
    tokenize source file = .ok ts ↔ (∃ p, ending = .finished p) ∧ Grouped file ls ts := by
  constructor
  · intro h
    rcases grouped_or_refuses file ls ending with ⟨us, p, rfl, hg⟩ | ⟨e, he⟩
    · rw [hg.folds.tokenize hs] at h
      cases h
      exact ⟨⟨p, rfl⟩, hg⟩
    · rw [tokenize_of_refuses hs he] at h
      cases h
  · rintro ⟨⟨p, rfl⟩, hg⟩
    exact hg.folds.tokenize hs

/-- A text is refused with the error that its lexemes are refused with. -/
theorem tokenize_error_iff {source : String} (hs : scan source.toList = (ls, ending)) :
    tokenize source file = .error e ↔ Refuses file ls ending e := by
  constructor
  · intro h
    rcases grouped_or_refuses file ls ending with ⟨us, p, rfl, hg⟩ | ⟨e', he⟩
    · rw [hg.folds.tokenize hs] at h
      cases h
    · rw [tokenize_of_refuses hs he] at h
      cases h
      exact he
  · exact tokenize_of_refuses hs

theorem exists_grouped {source : String} (h : tokenize source file = .ok ts) :
    ∃ ls p, scan source.toList = (ls, .finished p) ∧ Grouped file ls ts := by
  cases hs : scan source.toList with
  | mk ls ending =>
    obtain ⟨⟨p, rfl⟩, hg⟩ := (tokenize_ok_iff hs).mp h
    exact ⟨ls, p, rfl, hg⟩

theorem exists_refuses {source : String} (h : tokenize source file = .error e) :
    ∃ ls ending, scan source.toList = (ls, ending) ∧ Refuses file ls ending e := by
  cases hs : scan source.toList with
  | mk ls ending => exact ⟨ls, ending, rfl, (tokenize_error_iff hs).mp h⟩

/-- A text is split into lexemes in one way, to its end or to the first character that starts none.
It is accepted if it ends and its parentheses are balanced, as the groups that they form, and it is
refused otherwise, with the error that is met first. -/
theorem tokenize_outcome (source file : String) : ∃ ls ending,
    Scans [] source.toList ls ending ∧
    (∀ ls' ending', Scans [] source.toList ls' ending' → ls' = ls ∧ ending' = ending) ∧
    (∀ p, ending = .finished p → p = Position.start.advance source.toList) ∧
    ((∃ ts, tokenize source file = .ok ts) ↔
      (∃ p, ending = .finished p) ∧ Matched (ls.map Lexeme.word) ∧
        openings (ls.map Lexeme.word) = closings (ls.map Lexeme.word)) ∧
    (∀ ts, tokenize source file = .ok ts ↔ (∃ p, ending = .finished p) ∧ Grouped file ls ts) ∧
    ∀ e, (tokenize source file = .error e ↔ Refuses file ls ending e) ∧ e.Told := by
  cases hs : scan source.toList with
  | mk ls ending =>
    have hscans : Scans [] source.toList ls ending := scans_iff.mpr hs
    refine ⟨ls, ending, hscans, fun ls' ending' h => ?_, fun p hp => hscans.finished_at hp, ?_,
      fun ts => tokenize_ok_iff hs, fun e => ⟨tokenize_error_iff hs, e.told⟩⟩
    · have hsame := (scans_iff.mp h).symm.trans hs
      exact Prod.mk.injEq .. ▸ hsame
    · rw [← grouped_iff_balanced file, ← exists_and_left]
      exact exists_congr fun ts => tokenize_ok_iff hs

/-- Three groups of which one is closed, on two lines. -/
def halfClosed : String := "(a // )\n((b)"

theorem tokenize_outcome_halfClosed : ∃ ls ending, Scans [] halfClosed.toList ls ending ∧
    Refuses "here" ls ending (.unclosedGroup ⟨"here", 2, 1, 8⟩ ⟨"here", 2, 5, 12⟩) := by
  have read : tokenize halfClosed "here" =
      .error (.unclosedGroup ⟨"here", 2, 1, 8⟩ ⟨"here", 2, 5, 12⟩) := by
    rfl
  obtain ⟨ls, ending, hscans, -, -, -, -, herror⟩ := tokenize_outcome halfClosed "here"
  exact ⟨ls, ending, hscans, (herror _).1.mp read⟩

end BindingPower.Calc
