import BindingPower.Proofs.Calc.Munching

/-! # One way to read a text

A text can be split into gaps and longest words in one way only: its first word tells where the
first gap ends, and the longest word of a text is one word of one kind. So whatever is split like
this is what the scanner reads. -/
namespace BindingPower.Calc

variable {before text rest gap word body cs : List Char} {kind : Kind} {ls : List Lexeme}
  {ending : Ending}

/-! ## Gaps -/

theorem skipGap_solid (p : Position) (h : Solid cs) : skipGap false p cs = (p, cs) := by
  cases cs with
  | nil => rfl
  | cons c cs =>
    have hblank : ¬Text.isBlank c = true := by simp [h.1 c rfl]
    have hcomment : ¬(c = '/' ∧ cs.head? = some '/') := by
      rintro ⟨rfl, hhead⟩
      obtain ⟨more, rfl⟩ := List.head?_eq_some_iff.mp hhead
      exact h.2 ⟨more, rfl⟩
    rw [skipGap, if_neg hblank, if_neg hcomment]

theorem skipGap_body (p : Position) (h : '\n' ∉ body) :
    skipGap true p (body ++ cs) = skipGap true (p.advance body) cs := by
  induction body generalizing p with
  | nil => rfl
  | cons c body ih =>
    have hc : c ≠ '\n' := fun hc => h (hc ▸ List.mem_cons_self)
    have hbody : '\n' ∉ body := fun hm => h (List.mem_cons_of_mem c hm)
    rw [List.cons_append, skipGap, decide_eq_true hc, ih _ hbody, Position.advance_cons]

/-- The newline that ends a comment is skipped in either way. -/
theorem skipGap_line (p : Position) (h : ∀ c ∈ cs.head?, c = '\n') :
    skipGap true p cs = skipGap false p cs := by
  cases cs with
  | nil => rfl
  | cons c cs =>
    obtain rfl : c = '\n' := h c rfl
    have hblank : Text.isBlank '\n' = true := by decide
    simp only [skipGap, hblank, if_true]
    rfl

theorem Gap.skipped (h : Gap rest gap) (hs : Solid rest) (p : Position) :
    skipGap false p (gap ++ rest) = (p.advance gap, rest) := by
  induction h generalizing p with
  | nil => exact skipGap_solid p hs
  | blank hc h ih => rw [List.cons_append, skipGap, if_pos hc, ih, Position.advance_cons]
  | @comment body gap hb he h ih =>
    have hslash : '\n' ∉ '/' :: body := by simp [hb]
    have hstart : skipGap false p ('/' :: '/' :: body ++ gap ++ rest) =
        skipGap true (p.after '/') ('/' :: body ++ (gap ++ rest)) := by
      rw [List.cons_append, List.cons_append, List.append_assoc, skipGap, if_neg (by decide),
        if_pos ⟨rfl, rfl⟩]
    have hpast : ((p.after '/').advance ('/' :: body)).advance gap =
        p.advance ('/' :: '/' :: body ++ gap) := by
      rw [← Position.advance_append]
      rfl
    rw [hstart, skipGap_body _ hslash, skipGap_line _ he, ih, hpast]

/-! ## Words -/

/-- The first character of a word tells its kind, but for the keywords among the names. -/
theorem Word.Formed.kind_eq {c : Char} (h : Word.Formed (kind, String.ofList (c :: cs))) :
    kind = if c.isDigit then .literal
      else if isNameStart c then nameKind (String.ofList (c :: cs)) else .punct := by
  have name (hn : isName (String.ofList (c :: cs)) = true) :
      c.isDigit = false ∧ isNameStart c = true := by
    rw [isName, String.toList_ofList] at hn
    have hstart := (Bool.and_eq_true_iff.mp hn).1
    exact ⟨isDigit_of_isNameStart hstart, hstart⟩
  cases kind with
  | group => exact h.elim
  | literal =>
    have hn : isNumeral (String.ofList (c :: cs)) = true := h
    rw [isNumeral, String.toList_ofList] at hn
    rw [if_pos (Bool.and_eq_true_iff.mp hn).1]
  | ident =>
    obtain ⟨hdigit, hstart⟩ := name h.1
    rw [hdigit, hstart, if_neg Bool.false_ne_true, if_pos rfl, nameKind, if_neg h.2]
  | keyword =>
    have hm : String.ofList (c :: cs) ∈ keywords := h
    obtain ⟨hdigit, hstart⟩ := name (isName_of_mem_keywords _ hm)
    rw [hdigit, hstart, if_neg Bool.false_ne_true, if_pos rfl, nameKind, if_pos hm]
  | punct =>
    have hfront := punctuation_front _ h
    rw [String.toList_ofList] at hfront
    simp only [List.head?_cons, Option.any_some, Bool.and_eq_true, Bool.not_eq_true'] at hfront
    rw [hfront.1, hfront.2, if_neg Bool.false_ne_true, if_neg Bool.false_ne_true]

theorem Longest.unique {k : Kind} {v : List Char} (h : Longest kind word text)
    (h' : Longest k v text) : kind = k ∧ word = v := by
  have hle : word.length ≤ v.length := h'.longest _ _ h.front h.formed
  have hge : v.length ≤ word.length := h.longest _ _ h'.front h'.formed
  have hprefix : word <+: v := List.prefix_of_prefix_length_le h.front h'.front hle
  obtain rfl : word = v := hprefix.eq_of_length (Nat.le_antisymm hle hge)
  obtain ⟨c, ds, rfl, -⟩ := h.formed.front
  exact ⟨h.formed.kind_eq.trans h'.formed.kind_eq.symm, rfl⟩

/-- A longest word is the one that is found. -/
theorem Longest.found (h : Longest kind word text) : lexemeAt? text = some (kind, word) := by
  cases hfound : lexemeAt? text with
  | none => exact absurd h.formed (wordless_of_lexemeAt? hfound kind word h.front)
  | some found =>
    obtain ⟨rfl, rfl⟩ := h.unique (lexemeAt?_longest hfound)
    rfl

theorem Wordless.found (h : Wordless text) : lexemeAt? text = none := by
  cases hfound : lexemeAt? text with
  | none => rfl
  | some found =>
    have hlongest := lexemeAt?_longest hfound
    exact absurd hlongest.formed (h _ _ hlongest.front)

/-! ## Texts -/

/-- What a text is split into is what the scanner reads there. -/
theorem Scans.scanned (h : Scans before text ls ending) {fuel : Nat} (hfuel : text.length < fuel) :
    scanUpTo fuel (Position.start.advance before) text = (ls, ending) := by
  induction h generalizing fuel with
  | @finished before gap hg =>
    cases fuel with
    | zero => omega
    | succ fuel =>
      have hskip := hg.skipped (⟨by simp, by simp⟩ : Solid []) (Position.start.advance before)
      rw [List.append_nil] at hskip
      rw [scanUpTo, hskip, Position.advance_append]
  | @invalid before gap rest c hg hs hw =>
    cases fuel with
    | zero => omega
    | succ fuel =>
      rw [scanUpTo, hg.skipped hs, Position.advance_append]
      simp only [hw.found]
  | @lexeme before gap word rest kind ls ending hg hs hl h ih =>
    cases fuel with
    | zero => omega
    | succ fuel =>
      obtain ⟨c, ds, hne, -⟩ := hl.formed.front
      have hshorter : rest.length < fuel := by
        simp only [hne, List.length_append, List.length_cons] at hfuel
        omega
      have hword := hl.found
      have hmore := ih hshorter
      rw [Position.advance_append, Position.advance_append] at hmore
      rw [scanUpTo, hg.skipped hs, Position.advance_append]
      subst hne
      have hdrop : (c :: ds ++ rest).drop (c :: ds).length = rest := List.drop_left
      simp only [List.cons_append] at hword hdrop ⊢
      simp only [hword, hdrop, hmore]

/-- A text that is split to its end ends there. -/
theorem Scans.finished_at (h : Scans before text ls ending) {p : Position}
    (hp : ending = .finished p) : p = Position.start.advance (before ++ text) := by
  induction h with
  | finished hg =>
    cases hp
    rfl
  | invalid hg hs hw => cases hp
  | lexeme hg hs hl h ih => rw [ih hp, List.append_assoc, List.append_assoc]

/-- Every text is split into lexemes. -/
theorem scan_scans (text : List Char) : Scans [] text (scan text).1 (scan text).2 :=
  scanUpTo_scans (Nat.lt_succ_self text.length)

/-- There is one way only to split a text into lexemes. -/
theorem scans_iff : Scans [] text ls ending ↔ scan text = (ls, ending) := by
  constructor
  · intro h
    exact h.scanned (Nat.lt_succ_self text.length)
  · intro h
    have hscans := scan_scans text
    rwa [h] at hscans

end BindingPower.Calc
