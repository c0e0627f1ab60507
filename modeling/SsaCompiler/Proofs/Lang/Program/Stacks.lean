import SsaCompiler.Proofs.Lang.Program.Grammar

/-!
# The stacks of an expression

What the two stacks of a frame stand for does not change when operators on top of them are applied, as
far as a later token applies them anyway:

    Applies n ps os ps' os'      operators of precedence `n` or more, applied from the top
    Below n ps                   no operator of precedence `n` or more is on top

An arriving operator applies what stands above its own precedence and stops below it; a closing parenthesis
and the end of the expression apply all.  So what applying an operator keeps is shown once, by induction on `Applies`,
and holds after any token (applies_of_operator, applies_of_closeParen, applies_of_finish).
-/

namespace SsaCompiler.Lang

/-! ## Kinds of tokens -/

theorem SumOp.precedence_eq {kind : TokenKind} {op : BinaryOp} (h : SumOp kind op) : op.precedence = 12 := by
  cases h <;> rfl

theorem ProductOp.precedence_eq {kind : TokenKind} {op : BinaryOp} (h : ProductOp kind op) : op.precedence = 13 := by
  cases h <;> rfl

theorem BinaryOp.ofToken?_eq_some_iff {kind : TokenKind} {op : BinaryOp} :
    BinaryOp.ofToken? kind = some op ↔ SumOp kind op ∨ ProductOp kind op := by
  constructor
  · intro h
    cases kind <;> cases h
    · exact .inl .plus
    · exact .inl .minus
    · exact .inr .star
    · exact .inr .slash
    · exact .inr .percent
  · rintro (h | h) <;> cases h <;> rfl

theorem Token.literal?_eq_some_iff {t : Token} {e : Expr} :
    t.literal? = some e ↔ ∃ ty, LiteralKind t.kind ty ∧ e = .literal (t.literalType.getD ty) t.lexeme := by
  obtain ⟨kind, lexeme, line, ty⟩ := t
  constructor
  · intro h
    cases kind <;> cases h
    · exact ⟨_, .int, rfl⟩
    · exact ⟨_, .float, rfl⟩
    · exact ⟨_, .string, rfl⟩
  · rintro ⟨ty, h, rfl⟩
    cases h <;> rfl

namespace Frame

/-! ## Applying operators -/

/-- Applying operators of a least precedence from the top of the stacks. -/
inductive Applies (n : Nat) : List Pending → List Expr → List Pending → List Expr → Prop
  | refl (ps : List Pending) (os : List Expr) : Applies n ps os ps os
  | step {op : BinaryOp} {line : Nat} {ps ps' : List Pending} {l r : Expr} {os os' : List Expr}
      (hop : n ≤ op.precedence) (h : Applies n ps (.binary op l r :: os) ps' os') :
      Applies n (.op op line :: ps) (r :: l :: os) ps' os'

/-- Whether the operator on top, if there is one, has less than a precedence. -/
def Below (n : Nat) (ps : List Pending) : Prop :=
  ∀ op line rest, ps = .op op line :: rest → op.precedence < n

theorem below_nil (n : Nat) : Below n [] := nofun

theorem below_paren (n line : Nat) (ps : List Pending) : Below n (.paren line :: ps) := nofun

theorem below_op {n : Nat} {op : BinaryOp} (h : op.precedence < n) (line : Nat) (ps : List Pending) :
    Below n (.op op line :: ps) := by
  rintro _ _ _ ⟨⟩
  exact h

theorem Below.mono {m n : Nat} {ps : List Pending} (h : Below m ps) (hmn : m ≤ n) : Below n ps :=
  fun op line rest hps => Nat.lt_of_lt_of_le (h op line rest hps) hmn

variable {m n line : Nat} {ps ps' ps'' : List Pending} {os os' os'' : List Expr}

theorem Applies.mono (h : Applies m ps os ps' os') (hnm : n ≤ m) : Applies n ps os ps' os' := by
  induction h with
  | refl => exact .refl _ _
  | step hop _ ih => exact .step (Nat.le_trans hnm hop) ih

theorem Applies.trans (h : Applies n ps os ps' os') (h' : Applies n ps' os' ps'' os'') :
    Applies n ps os ps'' os'' := by
  induction h with
  | refl => exact h'
  | step hop _ ih => exact .step hop (ih h')

theorem appliesBefore_iff {op waiting : BinaryOp} :
    appliesBefore waiting op = true ↔ op.precedence ≤ waiting.precedence := by
  simp only [appliesBefore, BinaryOp.isLeftAssociative, Bool.or_eq_true, Bool.and_true, decide_eq_true_eq]
  omega

theorem Applies.reduceBefore {op : BinaryOp} (h : Applies n ps os ps' os') (hop : op.precedence ≤ n) :
    reduceBefore op ps os = reduceBefore op ps' os' := by
  induction h with
  | refl => rfl
  | step hn _ ih =>
    rw [Frame.reduceBefore, if_pos (appliesBefore_iff.mpr (Nat.le_trans hop hn))]
    exact ih

theorem Applies.reduceToParen (h : Applies n ps os ps' os') :
    reduceToParen line ps os = reduceToParen line ps' os' := by
  induction h with
  | refl => rfl
  | step _ _ ih => exact ih

theorem Applies.reduceAll (h : Applies n ps os ps' os') : reduceAll ps os = reduceAll ps' os' := by
  induction h with
  | refl => rfl
  | step _ _ ih => exact ih

theorem reduceBefore_of_below {op : BinaryOp} (h : Below op.precedence ps) : reduceBefore op ps os = .ok (ps, os) := by
  cases ps with
  | nil => rfl
  | cons p ps =>
    cases p with
    | paren line => rfl
    | op waiting line =>
      have hlt : waiting.precedence < op.precedence := h waiting line ps rfl
      rw [Frame.reduceBefore, if_neg fun happlies => Nat.not_lt_of_le (appliesBefore_iff.mp happlies) hlt]

/-! ### What a token applies -/

theorem reduce_eq_ok {op : BinaryOp} (h : reduce op line os = .ok os') :
    ∃ l r rest, os = r :: l :: rest ∧ os' = .binary op l r :: rest := by
  unfold reduce at h
  split at h
  · cases h
    exact ⟨_, _, _, rfl, rfl⟩
  · cases h

theorem applies_of_reduceBefore {op : BinaryOp} (h : reduceBefore op ps os = .ok (ps', os')) :
    Applies op.precedence ps os ps' os' ∧ Below op.precedence ps' := by
  fun_induction reduceBefore op ps os with
  | case1 waiting line ps os happlies ih =>
    obtain ⟨os₁, hreduce, h⟩ := Reader.bind_eq_ok.mp h
    obtain ⟨l, r, rest, rfl, rfl⟩ := reduce_eq_ok hreduce
    obtain ⟨happ, hbelow⟩ := ih _ h
    exact ⟨.step (appliesBefore_iff.mp happlies) happ, hbelow⟩
  | case2 waiting line ps os happlies =>
    cases h
    exact ⟨.refl _ _, below_op (Nat.lt_of_not_le fun hle => happlies (appliesBefore_iff.mpr hle)) line ps⟩
  | case3 ps os hps =>
    cases h
    exact ⟨.refl _ _, fun waiting line rest heq => absurd heq (hps waiting line rest)⟩

theorem applies_of_reduceToParen (h : reduceToParen line ps os = .ok (ps', os')) :
    ∃ opened, Applies 0 ps os (.paren opened :: ps') os' := by
  fun_induction reduceToParen line ps os with
  | case1 opened ps os =>
    cases h
    exact ⟨opened, .refl _ _⟩
  | case2 op opLine ps os ih =>
    obtain ⟨os₁, hreduce, h⟩ := Reader.bind_eq_ok.mp h
    obtain ⟨l, r, rest, rfl, rfl⟩ := reduce_eq_ok hreduce
    obtain ⟨opened, happ⟩ := ih _ h
    exact ⟨opened, .step (Nat.zero_le _) happ⟩
  | case3 => cases h

theorem applies_of_reduceAll (h : reduceAll ps os = .ok os') : Applies 0 ps os [] os' := by
  fun_induction reduceAll ps os with
  | case1 op line ps os ih =>
    obtain ⟨os₁, hreduce, h⟩ := Reader.bind_eq_ok.mp h
    obtain ⟨l, r, rest, rfl, rfl⟩ := reduce_eq_ok hreduce
    exact .step (Nat.zero_le _) (ih _ h)
  | case2 => cases h
  | case3 =>
    cases h
    exact .refl _ _

variable {f f' : Frame}

/-- An arriving operator applies those that are not weaker, until a weaker one or a parenthesis is on top. -/
theorem applies_of_operator {op : BinaryOp} (h : f.operator op line = .ok f') :
    ∃ ps os, Applies op.precedence f.pending f.operands ps os ∧ Below op.precedence ps ∧
      f' = { f with pending := .op op line :: ps, operands := os } := by
  obtain ⟨⟨ps, os⟩, hreduce, h⟩ := Reader.bind_eq_ok.mp h
  cases h
  obtain ⟨happ, hbelow⟩ := applies_of_reduceBefore hreduce
  exact ⟨ps, os, happ, hbelow, rfl⟩

theorem applies_of_closeParen (h : f.closeParen line = .ok f') :
    ∃ opened ps os, Applies 0 f.pending f.operands (.paren opened :: ps) os ∧
      f' = { f with pending := ps, operands := os, openParens := f.openParens - 1 } := by
  obtain ⟨⟨ps, os⟩, hreduce, h⟩ := Reader.bind_eq_ok.mp h
  cases h
  obtain ⟨opened, happ⟩ := applies_of_reduceToParen hreduce
  exact ⟨opened, ps, os, happ, rfl⟩

theorem reduceAll_of_finish {e : Expr} (h : f.finish = .ok e) : reduceAll f.pending f.operands = .ok [e] := by
  obtain ⟨os, hreduce, h⟩ := Reader.bind_eq_ok.mp h
  split at h
  · cases h
    exact hreduce
  · cases h
  · cases h

theorem applies_of_finish {e : Expr} (h : f.finish = .ok e) : Applies 0 f.pending f.operands [] [e] :=
  applies_of_reduceAll (reduceAll_of_finish h)

end Frame

/-! ## Reading one token -/

namespace Context

open Lang.Frame (reduceBefore reduceToParen)

section Tokens

variable {g : Goal} {endLine last : Nat} {context : Context g} {f : Frame} {t o c : Token} {rest : List Token}

theorem run_literal {ty : Prim} (h : LiteralKind t.kind ty) :
    run endLine context f last (t :: rest) =
      run endLine context (f.operand (.literal (t.literalType.getD ty) t.lexeme)) t.line rest := by
  rw [run.eq_def]
  simp only [Token.literal?_eq_some_iff.mpr ⟨ty, h, rfl⟩]

theorem run_operator {op : BinaryOp} (h : SumOp t.kind op ∨ ProductOp t.kind op) :
    run endLine context f last (t :: rest) =
      (f.operator op t.line).bind fun f => run endLine context f t.line rest := by
  have hnone : t.literal? = none := by
    cases hliteral : t.literal? with
    | none => rfl
    | some e =>
      obtain ⟨ty, hkind, -⟩ := Token.literal?_eq_some_iff.mp hliteral
      generalize t.kind = kind at h hkind
      rcases h with h | h <;> cases hkind <;> cases h
  rw [run.eq_def]
  simp only [hnone, BinaryOp.ofToken?_eq_some_iff.mpr h]
  rfl

theorem run_openParen (h : o.kind = .leftParen) :
    run endLine context f last (o :: rest) = run endLine context (f.openParen o.line) o.line rest := by
  rw [run.eq_def]
  simp [Token.literal?, BinaryOp.ofToken?, h]

theorem run_name (h : t.kind = .ident) (hrest : ∀ p ∈ rest.head?, p.kind ≠ .leftParen) :
    run endLine context f last (t :: rest) = run endLine context (f.operand (.name t.lexeme)) t.line rest := by
  rw [run.eq_def]
  cases rest with
  | nil => simp [Token.literal?, BinaryOp.ofToken?, h]
  | cons p rest => simp [Token.literal?, BinaryOp.ofToken?, h, hrest p rfl]

theorem run_emptyCall (ht : t.kind = .ident) (ho : o.kind = .leftParen) (hc : c.kind = .rightParen) :
    run endLine context f last (t :: o :: c :: rest) =
      run endLine context (f.operand (.call t.lexeme [] t.line)) c.line rest := by
  rw [run.eq_def]
  simp [Token.literal?, BinaryOp.ofToken?, ht, ho, hc, Call.toExpr]

theorem run_call (ht : t.kind = .ident) (ho : o.kind = .leftParen) (hc : c.kind ≠ .rightParen) :
    run endLine context f last (t :: o :: c :: rest) =
      run endLine (.operand { callee := t.lexeme, args := [], line := t.line } f context) (.empty c.line) o.line
        (c :: rest) := by
  rw [run.eq_def]
  simp [Token.literal?, BinaryOp.ofToken?, ht, ho, hc]

/-- A closing parenthesis of the expression itself. -/
theorem run_closeParen (hc : c.kind = .rightParen) (hf : f.openParens = 0 → context.close? = none) :
    run endLine context f last (c :: rest) =
      (f.closeParen c.line).bind fun f => run endLine context f c.line rest := by
  rw [run.eq_def]
  simp only [Token.literal?, BinaryOp.ofToken?, hc, ite_eq_right_iff.mpr hf]
  rfl

/-- Reading on after the arguments of a call. -/
def goOn (endLine line : Nat) (rest : List Token) : Closed g → Except SyntaxError (g.Result × Cursor)
  | .goal result => .ok (result, ⟨rest, line, endLine⟩)
  | .resume f context => run endLine context f line rest

/-- A closing parenthesis that ends the arguments of a call. -/
theorem run_close {close : Expr → Closed g} {e : Expr} (hc : c.kind = .rightParen) (hf : f.openParens = 0)
    (hclose : context.close? = some close) (hfinish : f.finish = .ok e) :
    run endLine context f last (c :: rest) = goOn endLine c.line rest (close e) := by
  rw [run.eq_def]
  simp only [Token.literal?, BinaryOp.ofToken?, hc, hf, hclose, hfinish]
  rfl

theorem run_comma {next : Expr → Context g} {e : Expr} (ht : t.kind = .comma) (hnext : context.comma? = some next)
    (hfinish : f.finish = .ok e) :
    run endLine context f last (t :: rest) =
      run endLine (next e) (.empty ((rest.head?.map (·.line)).getD endLine)) t.line rest := by
  rw [run.eq_def]
  simp only [Token.literal?, BinaryOp.ofToken?, ht, hnext, hfinish]
  rfl

theorem run_semicolon {e : Expr} (ht : t.kind = .semicolon) (hfinish : f.finish = .ok e) :
    run endLine .statement f last (t :: rest) = .ok (e, ⟨rest, t.line, endLine⟩) := by
  rw [run.eq_def]
  simp only [Token.literal?, BinaryOp.ofToken?, ht, semicolon?, hfinish]
  rfl

end Tokens

end Context

end SsaCompiler.Lang
