import SsaCompiler.Proofs.Lang.Program.Adjacency
import SsaCompiler.Proofs.Lang.Program.Stacks

/-!
# Every spelling is read

Reading a product leaves operators on the stacks that the next sum operator applies, reading a sum leaves some
that the end of the expression applies, and reading a factor leaves none:

    IsFactor ts e  →  the stacks after ts are (ps, e :: os)
    IsProduct ts e →  operators of precedence 13 lead from the stacks after ts to (ps, e :: os)
    IsSum ts e     →  operators of precedence 12 or more lead there

where `(ps, os)` are the stacks before.  The arguments of a call are read on stacks of their own.
-/

namespace SsaCompiler.Lang

open Lang.Frame (Applies Below below_nil below_paren below_op)

/-! ## Expressions -/

namespace Context

/-- Whether the next token does not make a call of a name. -/
def NotCall (rest : List Token) : Prop :=
  ∀ p ∈ rest.head?, p.kind ≠ .leftParen

theorem notCall_cons {t : Token} {kind : TokenKind} (ht : t.kind = kind) (hkind : kind ≠ .leftParen)
    (rest : List Token) : NotCall (t :: rest) := by
  rintro _ ⟨⟩
  rw [ht]
  exact hkind

/-- What a closing parenthesis makes of finished arguments. -/
def closeWith : {g : Goal} → Context g → List Expr → Option (Closed g)
  | _, .statement, _ => none
  | _, .callGoal site, es => some (.goal { site with args := site.args ++ es })
  | _, .operand site frame outer, es =>
    some (.resume (frame.operand (Call.toExpr { site with args := site.args ++ es })) outer)

theorem close?_of_closeWith {g : Goal} {context : Context g} {e : Expr} {closed : Closed g}
    (h : context.closeWith [e] = some closed) : ∃ close, context.close? = some close ∧ close e = closed := by
  cases context with
  | statement => cases h
  | callGoal site =>
    cases h
    exact ⟨_, rfl, rfl⟩
  | operand site frame outer =>
    cases h
    exact ⟨_, rfl, rfl⟩

theorem comma?_of_closeWith {g : Goal} {context : Context g} {e : Expr} {es : List Expr} {closed : Closed g}
    (h : context.closeWith (e :: es) = some closed) :
    ∃ next, context.comma? = some next ∧ (next e).closeWith es = some closed := by
  cases context with
  | statement => cases h
  | callGoal site =>
    cases h
    exact ⟨_, rfl, by simp [closeWith, Call.addArg]⟩
  | operand site frame outer =>
    cases h
    exact ⟨_, rfl, by simp [closeWith, Call.addArg]⟩

theorem finish_of_applies {f : Frame} {n : Nat} {ps : List Pending} {os : List Expr} {e : Expr}
    (h : Applies n ps os [] [e]) : Frame.finish { f with pending := ps, operands := os } = .ok e := by
  unfold Frame.finish
  rw [h.reduceAll]
  rfl

/-- Tokens that are read as an operand of their frame. -/
def ReadsAs (endLine : Nat) (ts : List Token) (e : Expr) : Prop :=
  ∀ ⦃g : Goal⦄ (context : Context g) (f : Frame) (last : Nat) (rest : List Token), NotCall rest →
    ∃ last', run endLine context f last (ts ++ rest) = run endLine context (f.operand e) last' rest

/-- Tokens that are read as an operand as soon as the operators of a precedence are applied. -/
def ReadsTo (n endLine : Nat) (ts : List Token) (e : Expr) : Prop :=
  ∀ ⦃g : Goal⦄ (context : Context g) (f : Frame) (last : Nat) (rest : List Token), Below n f.pending → NotCall rest →
    ∃ ps os last', Applies n ps os f.pending (e :: f.operands) ∧
      run endLine context f last (ts ++ rest) =
        run endLine context { f with pending := ps, operands := os } last' rest

theorem ReadsAs.readsTo {endLine : Nat} {ts : List Token} {e : Expr} (h : ReadsAs endLine ts e) (n : Nat) :
    ReadsTo n endLine ts e := by
  intro g context f last rest _ hrest
  obtain ⟨last', hrun⟩ := h context f last rest hrest
  exact ⟨f.pending, e :: f.operands, last', .refl _ _, hrun⟩

theorem ReadsTo.mono {m n endLine : Nat} {ts : List Token} {e : Expr} (h : ReadsTo m endLine ts e) (hnm : n ≤ m) :
    ReadsTo n endLine ts e := by
  intro g context f last rest hbelow hrest
  obtain ⟨ps, os, last', happlies, hrun⟩ := h context f last rest (hbelow.mono hnm) hrest
  exact ⟨ps, os, last', happlies.mono hnm, hrun⟩

theorem operator_of_applies {f : Frame} {n line : Nat} {ps : List Pending} {os : List Expr} {op : BinaryOp} {l : Expr}
    (h : Applies n ps os f.pending (l :: f.operands)) (hop : op.precedence = n) (hbelow : Below n f.pending) :
    Frame.operator { f with pending := ps, operands := os } op line =
      .ok { f with pending := .op op line :: f.pending, operands := l :: f.operands } := by
  unfold Frame.operator
  subst hop
  simp only [h.reduceBefore (Nat.le_refl _), Frame.reduceBefore_of_below hbelow]
  rfl

/-- What the operator between two operands makes of reading them. -/
theorem ReadsTo.more {m n endLine : Nat} {left right : List Token} {t : Token} {op : BinaryOp} {l r : Expr}
    (hl : ReadsTo n endLine left l) (hop : SumOp t.kind op ∨ ProductOp t.kind op) (hn : op.precedence = n)
    (hm : n < m) (hr : ReadsTo m endLine right r) : ReadsTo n endLine (left ++ t :: right) (.binary op l r) := by
  intro g context f last rest hbelow hrest
  have hkind : t.kind ≠ .leftParen := by
    intro hkind
    have hstarts := (hop.elim SumOp.apart ProductOp.apart).2.1
    rw [hkind] at hstarts
    cases hstarts
  have hnot : NotCall (t :: (right ++ rest)) := notCall_cons rfl hkind _
  obtain ⟨ps, os, last', happlies, hrun⟩ := hl context f last _ hbelow hnot
  rw [List.append_assoc, List.cons_append, hrun, run_operator hop, operator_of_applies happlies hn hbelow]
  have hright : Below m (.op op t.line :: f.pending) := below_op (hn ▸ hm) t.line f.pending
  obtain ⟨ps', os', last'', happlies', hrun'⟩ :=
    hr context { f with pending := .op op t.line :: f.pending, operands := l :: f.operands } t.line rest hright hrest
  exact ⟨ps', os', last'', (happlies'.mono (Nat.le_of_lt hm)).trans (.step (Nat.le_of_eq hn.symm) (.refl _ _)), hrun'⟩

mutual

theorem run_sum {endLine : Nat} {ts : List Token} {e : Expr} : IsSum ts e → ReadsTo 12 endLine ts e
  | .product h => (run_product h).mono (by decide)
  | .more hl hop hr => (run_sum hl).more (.inl hop) hop.precedence_eq (by decide) (run_product hr)

theorem run_product {endLine : Nat} {ts : List Token} {e : Expr} : IsProduct ts e → ReadsTo 13 endLine ts e
  | .factor h => (run_factor h).readsTo 13
  | .more hl hop hr =>
    (run_product hl).more (.inr hop) hop.precedence_eq (by decide) ((run_factor hr).readsTo 14)

theorem run_factor {endLine : Nat} {ts : List Token} {e : Expr} : IsFactor ts e → ReadsAs endLine ts e
  | .literal h, _, context, f, last, rest, _ => ⟨_, run_literal h⟩
  | .name h, _, context, f, last, rest, hrest => ⟨_, run_name h hrest⟩
  | .call h, _, context, f, last, rest, hrest => run_site h context f last rest hrest
  | @IsFactor.paren o c ts e ho h hc, _, context, f, last, rest, _ => by
    obtain ⟨ps, os, last', happlies, hrun⟩ :=
      run_sum h context (f.openParen o.line) o.line (c :: rest) (below_paren _ _ _) (notCall_cons hc (by decide) _)
    refine ⟨c.line, ?_⟩
    rw [List.cons_append, List.append_assoc, List.cons_append, List.nil_append, run_openParen ho, hrun,
      run_closeParen hc (absurd · (Nat.succ_ne_zero _))]
    unfold Frame.closeParen
    simp only [happlies.reduceToParen]
    rfl

theorem run_site {endLine : Nat} {ts : List Token} {site : Call} : IsCall ts site → ReadsAs endLine ts site.toExpr
  | .empty ht ho hc, _, context, f, last, rest, _ => ⟨_, run_emptyCall ht ho hc⟩
  | @IsCall.args t o c ts es ht ho h hc, _, context, f, last, rest, _ => by
    obtain ⟨q, qs, hts, hq⟩ := exists_head_args h
    have hq : q.kind ≠ .rightParen := TokenKind.ne_rightParen_of_startsOperand hq
    have hargs := run_args endLine h
      (.operand { callee := t.lexeme, args := [], line := t.line } f context) q.line o.line hc rfl rest
    refine ⟨c.line, ?_⟩
    rw [List.cons_append, List.cons_append, List.append_assoc, List.cons_append, List.nil_append]
    rw [hts, List.cons_append] at hargs ⊢
    rw [run_call ht ho hq, hargs]
    rfl

theorem run_args {ts : List Token} {es : List Expr} (endLine : Nat) :
    AreArgs ts es → ∀ {g : Goal} (context : Context g) {closed : Closed g} {c : Token} (start last : Nat),
      c.kind = .rightParen → context.closeWith es = some closed → ∀ rest : List Token,
      run endLine context (.empty start) last (ts ++ c :: rest) = goOn endLine c.line rest closed
  | .one h, _, context, _, c, start, last, hc, hclosed, rest => by
    obtain ⟨ps, os, last', happlies, hrun⟩ :=
      run_sum h context (.empty start) last (c :: rest) (below_nil _) (notCall_cons hc (by decide) _)
    obtain ⟨close, hclose, rfl⟩ := close?_of_closeWith hclosed
    rw [hrun, run_close hc rfl hclose (finish_of_applies happlies)]
  | @AreArgs.more ts us comma e es h hcomma hs, _, context, _, c, start, last, hc, hclosed, rest => by
    obtain ⟨ps, os, last', happlies, hrun⟩ :=
      run_sum h context (.empty start) last (comma :: (us ++ c :: rest)) (below_nil _)
        (notCall_cons hcomma (by decide) _)
    obtain ⟨next, hnext, hclosed⟩ := comma?_of_closeWith hclosed
    rw [List.append_assoc, List.cons_append, hrun, run_comma hcomma hnext (finish_of_applies happlies)]
    exact run_args endLine hs (next e) _ _ hc hclosed rest

end

end Context

end SsaCompiler.Lang
