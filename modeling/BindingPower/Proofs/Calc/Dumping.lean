import BindingPower.Calc.Printer
import BindingPower.Proofs.Calc.Lexing

/-! # Dumped trees

A dump is taken apart again. Its lines are those of the nodes, the root before its children and
the children from left to right, each as far in as the node is deep. How many children a line
announces is told by its text, so that no two trees with proper names are dumped alike. -/
namespace BindingPower.Calc

namespace Expr

/-- All names in the tree are spelled like names. -/
def Named : Expr → Prop
  | int _ => True
  | ident s => isName s = true
  | unary _ x => x.Named
  | binary _ l r => l.Named ∧ r.Named
  | ternary _ a b c => a.Named ∧ b.Named ∧ c.Named

/-- How many nodes the tree has. -/
def size : Expr → Nat
  | int _ => 1
  | ident _ => 1
  | unary _ x => x.size + 1
  | binary _ l r => l.size + r.size + 1
  | ternary _ a b c => a.size + b.size + c.size + 1

/-- The nodes from the root down and from left to right, each with its depth. -/
def preorder : Expr → (depth : Nat) → List (Nat × Expr)
  | int n, j => [(j, int n)]
  | ident s, j => [(j, ident s)]
  | unary k x, j => (j, unary k x) :: x.preorder (j + 1)
  | binary k l r, j => (j, binary k l r) :: (l.preorder (j + 1) ++ r.preorder (j + 1))
  | ternary k a b c, j =>
    (j, ternary k a b c) :: (a.preorder (j + 1) ++ b.preorder (j + 1) ++ c.preorder (j + 1))

variable {e t₁ t₂ : Expr} {k : Int} {j : Nat}

/-! ## Nodes and their children -/

theorem dumpLines_eq (e : Expr) (k : Int) :
    e.dumpLines k =
      (indentation k ++ e.nodeLine) :: e.children.flatMap fun c => c.dumpLines (k + 1) := by
  cases e <;> simp [dumpLines, children]

theorem length_preorder (e : Expr) (j : Nat) : (e.preorder j).length = e.size := by
  induction e generalizing j with
  | int n => rfl
  | ident s => rfl
  | unary k x hx => simp [preorder, size, hx]
  | binary k l r hl hr => simp [preorder, size, hl, hr]
  | ternary k a b c ha hb hc => simp [preorder, size, ha, hb, hc, Nat.add_assoc]

/-! ## The line of a node -/

theorem mem_toString {n : Int} : ∀ c ∈ (toString n).toList, c.isDigit = true ∨ c = '-' := by
  intro c hc
  cases n with
  | ofNat m => exact .inl (isDigit_of_mem_repr _ c hc)
  | negSucc m =>
    rw [show toString (Int.negSucc m) = "-" ++ m.succ.repr from rfl, String.toList_append] at hc
    rcases List.mem_append.mp hc with hsign | hdigit
    · exact .inr (List.mem_singleton.mp hsign)
    · exact .inl (isDigit_of_mem_repr _ c hdigit)

theorem repr_injective {m n : Nat} (h : m.repr = n.repr) : m = n := by
  have hm := Nat.ofDigitChars_ten_toDigits (n := m)
  have hn := Nat.ofDigitChars_ten_toDigits (n := n)
  rw [← Nat.toList_repr] at hm hn
  rw [← hm, ← hn, h]

theorem toString_injective {m n : Int} (h : toString m = toString n) : m = n := by
  have signed (i j : Nat) (h : i.repr = "-" ++ j.repr) : False := by
    have hsign : '-' ∈ i.repr.toList := by simp [h]
    exact absurd (isDigit_of_mem_repr _ _ hsign) (by decide)
  cases m with
  | ofNat i =>
    cases n with
    | ofNat j => exact congrArg _ (repr_injective h)
    | negSucc j => exact (signed _ _ h).elim
  | negSucc i =>
    cases n with
    | ofNat j => exact (signed _ _ h.symm).elim
    | negSucc j =>
      have hdigits : i.succ.repr = j.succ.repr := by
        have hsigned : "-" ++ i.succ.repr = "-" ++ j.succ.repr := h
        simpa using hsigned
      exact congrArg _ (Nat.succ.inj (repr_injective hdigits))

/-- Every line begins with a letter. -/
theorem nodeLine_head (e : Expr) : ∃ c cs, e.nodeLine.toList = c :: cs ∧ c ≠ ' ' := by
  cases e with
  | int n => simp [nodeLine]
  | ident s => simp [nodeLine]
  | unary k x => simp [nodeLine]
  | binary k l r => simp [nodeLine]
  | ternary k a b c => simp [nodeLine]

theorem newline_notMem_of_isName {s : String} (h : isName s = true) : '\n' ∉ s.toList := by
  intro hm
  unfold isName at h
  cases hcs : s.toList with
  | nil => simp [hcs] at hm
  | cons c cs =>
    simp only [hcs, Bool.and_eq_true, List.all_eq_true] at h
    rw [hcs] at hm
    rcases List.mem_cons.mp hm with hc | hcs
    · exact absurd (hc ▸ h.1) (by decide)
    · exact absurd (h.2 _ hcs) (by decide)

theorem newline_notMem_nodeLine (h : e.Named) : '\n' ∉ e.nodeLine.toList := by
  cases e with
  | int n =>
    have hn : '\n' ∉ (toString n).toList := fun hm => absurd (mem_toString _ hm) (by decide)
    simpa [nodeLine] using hn
  | ident s => simpa [nodeLine] using newline_notMem_of_isName h
  | unary k x => cases k <;> simp [nodeLine, UnaryKind.label]
  | binary k l r => cases k <;> simp [nodeLine, BinaryKind.label]
  | ternary k a b c => cases k <;> simp [nodeLine, TernaryKind.label]

/-! The line of a node tells all of it but its children. -/

theorem eq_int_of_nodeLine {n : Int} (h : (int n).nodeLine = e.nodeLine) : e = int n := by
  cases e with
  | int m =>
    have hvalue : toString n = toString m := by simpa [nodeLine] using h
    rw [toString_injective hvalue]
  | _ => simp [nodeLine, ← String.toList_inj] at h

theorem eq_ident_of_nodeLine {s : String} (h : (ident s).nodeLine = e.nodeLine) : e = ident s := by
  cases e with
  | ident t =>
    have hname : s = t := by simpa [nodeLine] using h
    rw [hname]
  | _ => simp [nodeLine, ← String.toList_inj] at h

theorem eq_unary_of_nodeLine {op : UnaryKind} {x : Expr} (h : (unary op x).nodeLine = e.nodeLine) :
    ∃ y, e = unary op y := by
  cases e with
  | unary o y =>
    have hlabel : op.label = o.label := by simpa [nodeLine] using h
    cases op <;> cases o <;> first | exact ⟨y, rfl⟩ | exact absurd hlabel (by decide)
  | _ => simp [nodeLine, ← String.toList_inj] at h

theorem eq_binary_of_nodeLine {op : BinaryKind} {l r : Expr}
    (h : (binary op l r).nodeLine = e.nodeLine) : ∃ l' r', e = binary op l' r' := by
  cases e with
  | binary o l' r' =>
    have hlabel : op.label = o.label := by simpa [nodeLine] using h
    cases op <;> cases o <;> first | exact ⟨l', r', rfl⟩ | exact absurd hlabel (by decide)
  | _ => simp [nodeLine, ← String.toList_inj] at h

theorem eq_ternary_of_nodeLine {op : TernaryKind} {a b c : Expr}
    (h : (ternary op a b c).nodeLine = e.nodeLine) : ∃ a' b' c', e = ternary op a' b' c' := by
  cases e with
  | ternary o a' b' c' =>
    have hlabel : op.label = o.label := by simpa [nodeLine] using h
    cases op <;> cases o <;> first | exact ⟨a', b', c', rfl⟩ | exact absurd hlabel (by decide)
  | _ => simp [nodeLine, ← String.toList_inj] at h

/-! ## Taking a dump apart -/

theorem nodeLine_eq_of_dumpLines {r₁ r₂ : List String}
    (h : t₁.dumpLines k ++ r₁ = t₂.dumpLines k ++ r₂) : t₁.nodeLine = t₂.nodeLine := by
  rw [dumpLines_eq, dumpLines_eq] at h
  simpa using (List.cons.inj h).1

/-- What a tree is dumped to is no beginning of what another one is. -/
theorem dumpLines_append_inj {r₁ r₂ : List String}
    (h : t₁.dumpLines k ++ r₁ = t₂.dumpLines k ++ r₂) : t₁ = t₂ ∧ r₁ = r₂ := by
  induction t₁ generalizing t₂ k r₁ r₂ with
  | int n =>
    obtain rfl := eq_int_of_nodeLine (nodeLine_eq_of_dumpLines h)
    exact ⟨rfl, List.append_cancel_left h⟩
  | ident s =>
    obtain rfl := eq_ident_of_nodeLine (nodeLine_eq_of_dumpLines h)
    exact ⟨rfl, List.append_cancel_left h⟩
  | unary op x hx =>
    obtain ⟨y, rfl⟩ := eq_unary_of_nodeLine (nodeLine_eq_of_dumpLines h)
    obtain ⟨rfl, hr⟩ := hx (List.cons.inj h).2
    exact ⟨rfl, hr⟩
  | binary op l r hl hr =>
    obtain ⟨l', r', rfl⟩ := eq_binary_of_nodeLine (nodeLine_eq_of_dumpLines h)
    simp only [dumpLines, List.cons_append, List.append_assoc] at h
    obtain ⟨rfl, hright⟩ := hl (List.cons.inj h).2
    obtain ⟨rfl, hrest⟩ := hr hright
    exact ⟨rfl, hrest⟩
  | ternary op a b c ha hb hc =>
    obtain ⟨a', b', c', rfl⟩ := eq_ternary_of_nodeLine (nodeLine_eq_of_dumpLines h)
    simp only [dumpLines, List.cons_append, List.append_assoc] at h
    obtain ⟨rfl, hsecond⟩ := ha (List.cons.inj h).2
    obtain ⟨rfl, hthird⟩ := hb hsecond
    obtain ⟨rfl, hrest⟩ := hc hthird
    exact ⟨rfl, hrest⟩

/-- The line of a node that many steps further in than it is deep. -/
def lineAt (k : Int) (node : Nat × Expr) : String :=
  indentation (k + node.1) ++ node.2.nodeLine

theorem dumpLines_eq_map (e : Expr) (k : Int) (j : Nat) :
    e.dumpLines (k + j) = (e.preorder j).map (lineAt k) := by
  have deeper (j : Nat) : k + j + 1 = k + (j + 1 : Nat) := by omega
  induction e generalizing j with
  | int n => rfl
  | ident s => rfl
  | unary op x hx => rw [dumpLines, preorder, deeper, hx, List.map_cons, lineAt]
  | binary op l r hl hr =>
    rw [dumpLines, preorder, deeper, hl, hr, List.map_cons, List.map_append, lineAt]
  | ternary op a b c ha hb hc =>
    rw [dumpLines, preorder, deeper, ha, hb, hc, List.map_cons, List.map_append, List.map_append,
      lineAt]

/-! ## The lines of a dump -/

/-- The lines of a text, without the newlines between them. -/
def linesOf (text : String) : List String := (text.toList.splitOn '\n').map String.ofList

/-- How many blanks a line begins with. -/
def blanks (line : String) : Nat := (line.toList.takeWhile (· = ' ')).length

/-- Two blanks a step put in front of a line. For a negative number of steps they are taken away
instead, as far as there are any. -/
def shifted (steps : Int) (line : String) : String :=
  if 0 ≤ steps then indentation steps ++ line
  else String.ofList (line.toList.drop (min (2 * (-steps).toNat) (blanks line)))

theorem toList_lineAt (k : Int) (node : Nat × Expr) :
    (lineAt k node).toList =
      List.replicate (2 * (k + node.1).toNat) ' ' ++ node.2.nodeLine.toList := by
  simp [lineAt, indentation]

theorem blanks_lineAt (k : Int) (node : Nat × Expr) :
    blanks (lineAt k node) = 2 * (k + node.1).toNat := by
  obtain ⟨c, cs, hline, hc⟩ := nodeLine_head node.2
  rw [blanks, toList_lineAt, hline, List.takeWhile_append_of_pos (by simp),
    List.takeWhile_cons_of_neg (by simpa using hc)]
  simp

theorem shifted_lineAt (k : Int) (node : Nat × Expr) :
    shifted k (lineAt 0 node) = lineAt k node := by
  unfold shifted
  split
  · next hk =>
    have hsum : 2 * k.toNat + 2 * node.1 = 2 * (k + node.1).toNat := by omega
    rw [← String.toList_inj, String.toList_append, toList_lineAt, toList_lineAt, ← hsum,
      ← List.replicate_append_replicate]
    simp only [indentation, String.toList_ofList, List.append_assoc, Int.zero_add,
      Int.toNat_natCast]
  · next hk =>
    have hfew : min (2 * (-k).toNat) (2 * (0 + (node.1 : Int)).toNat) ≤
        (List.replicate (2 * (0 + (node.1 : Int)).toNat) ' ').length := by
      rw [List.length_replicate]
      exact Nat.min_le_right ..
    rw [blanks_lineAt, ← String.toList_inj, String.toList_ofList, toList_lineAt, toList_lineAt,
      List.drop_append_of_le_length hfew, List.drop_replicate]
    congr 2
    omega

theorem newline_notMem_dumpLines (h : e.Named) : ∀ line ∈ e.dumpLines k, '\n' ∉ line.toList := by
  have own {e : Expr} {k : Int} (h : e.Named) : '\n' ∉ (indentation k ++ e.nodeLine).toList := by
    simpa [indentation] using newline_notMem_nodeLine h
  induction e generalizing k with
  | int n => simpa only [dumpLines, List.forall_mem_singleton] using own h
  | ident s => simpa only [dumpLines, List.forall_mem_singleton] using own h
  | unary op x hx =>
    rw [dumpLines, List.forall_mem_cons]
    exact ⟨own h, hx h⟩
  | binary op l r hl hr =>
    rw [dumpLines, List.forall_mem_cons, List.forall_mem_append]
    exact ⟨own h, hl h.1, hr h.2⟩
  | ternary op a b c ha hb hc =>
    rw [dumpLines, List.forall_mem_cons, List.forall_mem_append, List.forall_mem_append]
    exact ⟨own h, ⟨ha h.1, hb h.2.1⟩, hc h.2.2⟩

theorem linesOf_dump (h : e.Named) (k : Int) : linesOf (e.dump k) = e.dumpLines k := by
  have hne : (e.dumpLines k).map String.toList ≠ [] := by rw [dumpLines_eq]; simp
  have hfree : ∀ cs ∈ (e.dumpLines k).map String.toList, '\n' ∉ cs := by
    simpa using newline_notMem_dumpLines h
  rw [linesOf, dump, String.toList_intercalate, show "\n".toList = ['\n'] from rfl,
    List.splitOn_intercalate _ hfree hne, List.map_map]
  simp

theorem dump_injective (h₁ : t₁.Named) (h₂ : t₂.Named) (h : t₁.dump k = t₂.dump k) : t₁ = t₂ := by
  have hlines : t₁.dumpLines k = t₂.dumpLines k := by
    rw [← linesOf_dump h₁, ← linesOf_dump h₂, h]
  exact (dumpLines_append_inj (congrArg (· ++ []) hlines)).1

theorem linesOf_dump_eq_map (h : e.Named) (k : Int) :
    linesOf (e.dump k) = (e.preorder 0).map (lineAt k) := by
  rw [linesOf_dump h, ← dumpLines_eq_map, Int.ofNat_zero, Int.add_zero]

/-- No two trees with proper names are dumped alike. The dump of a tree has one line for each node
in preorder, which begins with two blanks for each step that the node is in; and it is the dump
without indentation with as many blanks put in front of every line. -/
theorem dump_unambiguous (h₁ : t₁.Named) (k : Int) :
    (∀ t₂, t₂.Named → t₁.dump k = t₂.dump k → t₁ = t₂) ∧
      linesOf (t₁.dump k) = (t₁.preorder 0).map (lineAt k) ∧
      (linesOf (t₁.dump k)).length = t₁.size ∧
      (linesOf (t₁.dump k)).map blanks = (t₁.preorder 0).map (fun node => 2 * (k + node.1).toNat) ∧
      t₁.dump k = "\n".intercalate ((linesOf (t₁.dump 0)).map (shifted k)) := by
  refine ⟨fun t₂ h₂ h => dump_injective h₁ h₂ h, linesOf_dump_eq_map h₁ k, ?_, ?_, ?_⟩
  · rw [linesOf_dump_eq_map h₁, List.length_map, length_preorder]
  · rw [linesOf_dump_eq_map h₁, List.map_map]
    exact List.map_congr_left fun node _ => blanks_lineAt k node
  · have hshift : (linesOf (t₁.dump 0)).map (shifted k) = t₁.dumpLines k := by
      rw [linesOf_dump_eq_map h₁, List.map_map, ← linesOf_dump h₁, linesOf_dump_eq_map h₁]
      exact List.map_congr_left fun node _ => shifted_lineAt k node
    rw [hshift, dump]

theorem dump_unambiguous_sum :
    (binary .add (int (-3)) (ident "x")).dump 1 ≠ (binary .add (ident "x") (int (-3))).dump 1 ∧
      linesOf ((binary .add (int (-3)) (ident "x")).dump 1) =
        ["  BinaryOp(ADD)", "    Int(-3)", "    Ident(x)"] := by
  have hsum : (binary .add (int (-3)) (ident "x")).Named := ⟨trivial, rfl⟩
  have hswapped : (binary .add (ident "x") (int (-3))).Named := ⟨rfl, trivial⟩
  obtain ⟨hinj, hlines, -⟩ := dump_unambiguous hsum 1
  exact ⟨fun h => absurd (hinj _ hswapped h) (by decide), hlines.trans (by decide)⟩

end Expr

end BindingPower.Calc
