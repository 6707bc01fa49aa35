import BindingPower.Proofs.Calc.Lexing

/-! # The forms of tokens

What a text is split into: numerals, names, keywords and marks, and groups of such tokens. A
parenthesis is never a token of its own. -/
namespace BindingPower.Calc

/-- A word that a text can be scanned into. -/
def Word.Formed : Word → Prop
  | (.group, _) => False
  | (.literal, s) => isNumeral s = true
  | (.ident, s) => isName s = true ∧ s ∉ keywords
  | (.keyword, s) => s ∈ keywords
  | (.punct, s) => s ∈ punctuation

inductive Token.WellFormed : Token → Prop where
  | single {k : Kind} {s : String} {l : Option Location} (h : Word.Formed (k, s))
    (hp : k = .punct → s ≠ "(" ∧ s ≠ ")") : WellFormed (.mk k s [] l)
  | group {ts : List Token} {l : Option Location} (h : ∀ t ∈ ts, WellFormed t) :
    WellFormed (.mk .group "()" ts l)

variable {cs word : List Char} {kind : Kind} {file : String} {ts : List Token}

theorem lexemeAt?_formed (h : lexemeAt? cs = some (kind, word)) :
    Word.Formed (kind, String.ofList word) := by
  cases cs with
  | nil => cases h
  | cons c cs =>
    simp only [lexemeAt?] at h
    split at h
    · rename_i hdigit
      cases h
      simp only [Word.Formed, isNumeral, String.toList_ofList, hdigit, Bool.true_and]
      exact List.all_takeWhile
    · split at h
      · rename_i hstart
        cases h
        have hname : isName (String.ofList (c :: cs.takeWhile isNameCharacter)) = true := by
          simp only [isName, String.toList_ofList, hstart, Bool.true_and]
          exact List.all_takeWhile
        split
        · assumption
        · exact ⟨hname, by assumption⟩
      · obtain ⟨m, hm, heq⟩ := Option.map_eq_some_iff.mp h
        cases heq
        simp only [Word.Formed, String.ofList_toList]
        exact List.mem_of_find?_eq_some hm

theorem scanUpTo_formed (fuel : Nat) (p : Position) (cs : List Char) :
    ∀ l ∈ (scanUpTo fuel p cs).1, Word.Formed l.word := by
  induction fuel generalizing p cs with
  | zero => simp [scanUpTo]
  | succ fuel ih =>
    unfold scanUpTo
    split
    · simp
    · split
      · simp
      · rename_i kind word hword
        intro l hl
        rcases List.mem_cons.mp hl with rfl | hl
        · exact lexemeAt?_formed hword
        · exact ih _ _ l hl

/-- What is read and what surrounds it stays well formed while the lexemes are folded. -/
theorem build_formed {ending : Ending} {ls : List Lexeme} {opened : List (Location × List Token)}
    {read : List Token} {p : Position} (hl : ∀ l ∈ ls, Word.Formed l.word)
    (ho : ∀ o ∈ opened, ∀ t ∈ o.2, t.WellFormed) (hr : ∀ t ∈ read, t.WellFormed)
    (h : build file ending ls opened read = (.ok ts, p)) : ∀ t ∈ ts, t.WellFormed := by
  induction ls generalizing opened read with
  | nil =>
    cases ending with
    | invalid c q => cases h
    | finished q =>
      cases opened with
      | cons o rest => cases h
      | nil =>
        cases h
        simpa using hr
  | cons l more ih =>
    simp only [List.forall_mem_cons] at hl
    unfold build at h
    split at h
    · exact ih hl.2 (List.forall_mem_cons.mpr ⟨hr, ho⟩) (by simp) h
    · rename_i hopening
      split at h
      · cases opened with
        | nil => cases h
        | cons o rest =>
          simp only [List.forall_mem_cons] at ho
          have hgroup : (groupToken o.1 read.reverse).WellFormed := .group (by simpa using hr)
          exact ih hl.2 ho.2 (List.forall_mem_cons.mpr ⟨hgroup, ho.1⟩) h
      · rename_i hclosing
        have hsingle : (l.token file).WellFormed :=
          .single hl.1 fun hk => ⟨fun hs => hopening ⟨hk, hs⟩, fun hs => hclosing ⟨hk, hs⟩⟩
        exact ih hl.2 ho (List.forall_mem_cons.mpr ⟨hsingle, hr⟩) h

/-- The tokens of a text are well formed. -/
theorem tokenize_formed {source : String} (h : tokenize source file = .ok ts) :
    ∀ t ∈ ts, t.WellFormed := by
  have hbuild : build file (scan source.toList).2 (scan source.toList).1 [] [] =
      (.ok ts, (tokenizeTo source file).2) := Prod.ext h rfl
  exact build_formed (scanUpTo_formed _ _ _) (by simp) (by simp) hbuild

end BindingPower.Calc
