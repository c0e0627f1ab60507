import SsaCompiler.Proofs.Lang.Program.Grammar
import Mathlib.Data.List.Chain

/-!
# What stands next to what

In a row of tokens that spells something, no operand directly follows another:

    Separate a b      not the end of an operand before the beginning of one, but a name before a
                      parenthesis, which is a call
    Apart ts          every two neighbours are separate, and no end mark is among the tokens

Whatever the grammar derives is apart (apart_sum, apart_function, apart_program).
-/

namespace SsaCompiler.Lang

/-- Whether a kind of token begins an operand. -/
def TokenKind.startsOperand : TokenKind → Bool
  | .intLiteral | .floatLiteral | .stringLiteral | .ident | .leftParen => true
  | _ => false

/-- Whether a kind of token ends an operand. -/
def TokenKind.endsOperand : TokenKind → Bool
  | .intLiteral | .floatLiteral | .stringLiteral | .ident | .rightParen => true
  | _ => false

theorem TokenKind.ne_rightParen_of_startsOperand {kind : TokenKind} (h : kind.startsOperand = true) :
    kind ≠ .rightParen := by
  rintro rfl
  cases h

/-- Whether the second of two tokens does not begin an operand where the first ends one.  The
parenthesis after a name belongs to a call. -/
def Separate (a b : Token) : Prop :=
  a.kind.endsOperand = true → b.kind.startsOperand = true → a.kind = .ident ∧ b.kind = .leftParen

instance (a b : Token) : Decidable (Separate a b) :=
  inferInstanceAs (Decidable (_ → _))

/-- Tokens before the end mark of which no two neighbours are operands side by side. -/
structure Apart (ts : List Token) : Prop where
  chain : ts.IsChain Separate
  inside : ∀ t ∈ ts, t.kind ≠ .endMark

namespace Apart

variable {t o : Token} {kind : TokenKind} {left rest : List Token}

theorem nil : Apart [] :=
  ⟨.nil, nofun⟩

/-- Before anything may stand what does not end an operand. -/
theorem cons (ht : t.kind = kind) (hkind : kind.endsOperand = false ∧ kind ≠ .endMark) (h : Apart rest) :
    Apart (t :: rest) := by
  subst ht
  refine ⟨List.isChain_cons.mpr ⟨fun b _ hends => ?_, h.chain⟩, List.forall_mem_cons.mpr ⟨hkind.2, h.inside⟩⟩
  rw [hkind.1] at hends
  cases hends

/-- After anything may stand what does not begin an operand. -/
theorem append (hleft : Apart left) (ht : t.kind = kind) (hkind : kind.startsOperand = false)
    (h : Apart (t :: rest)) : Apart (left ++ t :: rest) := by
  subst ht
  refine ⟨List.isChain_append.mpr ⟨hleft.chain, h.chain, ?_⟩, List.forall_mem_append.mpr ⟨hleft.inside, h.inside⟩⟩
  rintro a _ b ⟨⟩ _ hstarts
  rw [hkind] at hstarts
  cases hstarts

/-- A token alone. -/
theorem single (ht : t.kind ≠ .endMark) : Apart [t] :=
  ⟨.singleton t, by simpa using ht⟩

/-- A name may stand before the parenthesis of its arguments. -/
theorem name (ht : t.kind = .ident) (ho : o.kind = .leftParen) (h : Apart (o :: rest)) : Apart (t :: o :: rest) := by
  refine ⟨List.isChain_cons_cons.mpr ⟨fun _ _ => ⟨ht, ho⟩, h.chain⟩, List.forall_mem_cons.mpr ⟨?_, h.inside⟩⟩
  rw [ht]
  decide

/-- An operator between two rows that are apart. -/
theorem join (hleft : Apart left) (ht : t.kind = kind)
    (hkind : kind.endsOperand = false ∧ kind.startsOperand = false ∧ kind ≠ .endMark) (h : Apart rest) :
    Apart (left ++ t :: rest) :=
  hleft.append ht hkind.2.1 (.cons ht ⟨hkind.1, hkind.2.2⟩ h)

/-- A row with a token after it that does not begin an operand. -/
theorem snoc (hleft : Apart left) (ht : t.kind = kind) (hkind : kind.startsOperand = false ∧ kind ≠ .endMark) :
    Apart (left ++ [t]) :=
  hleft.append ht hkind.1 (single (ht ▸ hkind.2))

end Apart

/-! ## Expressions -/

theorem LiteralKind.startsOperand {kind : TokenKind} {ty : Prim} (h : LiteralKind kind ty) :
    kind.startsOperand = true := by
  cases h <;> rfl

theorem LiteralKind.endsOperand {kind : TokenKind} {ty : Prim} (h : LiteralKind kind ty) :
    kind.endsOperand = true := by
  cases h <;> rfl

theorem LiteralKind.ne_endMark {kind : TokenKind} {ty : Prim} (h : LiteralKind kind ty) : kind ≠ .endMark := by
  cases h <;> nofun

theorem SumOp.apart {kind : TokenKind} {op : BinaryOp} (h : SumOp kind op) :
    kind.endsOperand = false ∧ kind.startsOperand = false ∧ kind ≠ .endMark := by
  cases h <;> decide

theorem ProductOp.apart {kind : TokenKind} {op : BinaryOp} (h : ProductOp kind op) :
    kind.endsOperand = false ∧ kind.startsOperand = false ∧ kind ≠ .endMark := by
  cases h <;> decide

mutual

theorem apart_sum {ts : List Token} {e : Expr} : IsSum ts e → Apart ts
  | .product h => apart_product h
  | .more hl hop hr => (apart_sum hl).join rfl hop.apart (apart_product hr)

theorem apart_product {ts : List Token} {e : Expr} : IsProduct ts e → Apart ts
  | .factor h => apart_factor h
  | .more hl hop hr => (apart_product hl).join rfl hop.apart (apart_factor hr)

theorem apart_factor {ts : List Token} {e : Expr} : IsFactor ts e → Apart ts
  | .literal h => .single h.ne_endMark
  | .name h => .single (by simp [h])
  | .call h => apart_call h
  | .paren ho h hc => .cons ho (by decide) ((apart_sum h).snoc hc (by decide))

theorem apart_call {ts : List Token} {site : Call} : IsCall ts site → Apart ts
  | .empty ht ho hc => .name ht ho (.cons ho (by decide) (.single (by simp [hc])))
  | .args ht ho h hc => .name ht ho (.cons ho (by decide) ((apart_args h).snoc hc (by decide)))

theorem apart_args {ts : List Token} {es : List Expr} : AreArgs ts es → Apart ts
  | .one h => apart_sum h
  | .more h hcomma hrest => (apart_sum h).join hcomma (by decide) (apart_args hrest)

end

/-- An expression begins with the beginning of an operand. -/
theorem exists_head_call {ts : List Token} {site : Call} (h : IsCall ts site) :
    ∃ t rest, ts = t :: rest ∧ t.kind.startsOperand = true := by
  cases h with
  | empty ht => exact ⟨_, _, rfl, by rw [ht]; rfl⟩
  | args ht => exact ⟨_, _, rfl, by rw [ht]; rfl⟩

mutual

theorem exists_head_sum {ts : List Token} {e : Expr} :
    IsSum ts e → ∃ t rest, ts = t :: rest ∧ t.kind.startsOperand = true
  | .product h => exists_head_product h
  | .more hl _ _ => by
    obtain ⟨t, rest, rfl, ht⟩ := exists_head_sum hl
    exact ⟨t, _, rfl, ht⟩

theorem exists_head_product {ts : List Token} {e : Expr} :
    IsProduct ts e → ∃ t rest, ts = t :: rest ∧ t.kind.startsOperand = true
  | .factor h => exists_head_factor h
  | .more hl _ _ => by
    obtain ⟨t, rest, rfl, ht⟩ := exists_head_product hl
    exact ⟨t, _, rfl, ht⟩

theorem exists_head_factor {ts : List Token} {e : Expr} :
    IsFactor ts e → ∃ t rest, ts = t :: rest ∧ t.kind.startsOperand = true
  | .literal h => ⟨_, _, rfl, h.startsOperand⟩
  | .name h => ⟨_, _, rfl, by rw [h]; rfl⟩
  | .call h => exists_head_call h
  | .paren ho _ _ => ⟨_, _, rfl, by rw [ho]; rfl⟩

end

theorem exists_head_args {ts : List Token} {es : List Expr} (h : AreArgs ts es) :
    ∃ t rest, ts = t :: rest ∧ t.kind.startsOperand = true := by
  cases h with
  | one h => exact exists_head_sum h
  | more h =>
    obtain ⟨t, rest, rfl, ht⟩ := exists_head_sum h
    exact ⟨t, _, rfl, ht⟩

/-! ## Statements and declarations -/

theorem apart_type {ts rest : List Token} {ty : Prim} (h : IsType ts ty) (hrest : Apart rest) :
    Apart (ts ++ rest) := by
  cases h with
  | base ht => exact .cons ht (by decide) hrest
  | pointer ht _ hstar => exact .cons ht (by decide) (.cons hstar (by decide) hrest)

theorem apart_typed {ts rest : List Token} {name : String} {ty : Prim} (h : IsTyped ts name ty)
    (hrest : Apart rest) : Apart (ts ++ rest) := by
  cases h with
  | mk hname hcolon hty =>
    exact (Apart.single (by simp [hname])).append hcolon (by decide) (.cons hcolon (by decide) (apart_type hty hrest))

theorem apart_binding {ts rest : List Token} {b : Binding} (h : IsBinding ts b) (hrest : Apart rest) :
    Apart (ts ++ rest) := by
  cases h with
  | @mk word equals semicolon typed init name ty e hword htyped hequals hinit hsemicolon =>
    have hend : Apart (init ++ semicolon :: rest) :=
      (apart_sum hinit).append hsemicolon (by decide) (.cons hsemicolon (by decide) hrest)
    have := Apart.cons hword (by decide) (apart_typed htyped (.cons hequals (by decide) hend))
    simpa using this

mutual

theorem apart_stmt {ts : List Token} {s : Stmt} : IsStmt ts s → ∀ {rest : List Token}, Apart rest → Apart (ts ++ rest)
  | .bind h, _, hrest => apart_binding h hrest
  | .ret hword h hsemicolon, rest, hrest => by
    have := Apart.cons hword (by decide)
      ((apart_sum h).append hsemicolon (by decide) (.cons hsemicolon (by decide) hrest))
    simpa using this
  | .call h hsemicolon, rest, hrest => by
    have := (apart_call h).append hsemicolon (by decide) (.cons hsemicolon (by decide) hrest)
    simpa using this
  | .block ho h hc, rest, hrest => by
    have := Apart.cons ho (by decide) (apart_stmts h (.cons hc (by decide) hrest))
    simpa using this

theorem apart_stmts {ts : List Token} {ss : List Stmt} :
    AreStmts ts ss → ∀ {rest : List Token}, Apart rest → Apart (ts ++ rest)
  | .nil, _, hrest => hrest
  | .cons h hs, rest, hrest => by
    rw [List.append_assoc]
    exact apart_stmt h (apart_stmts hs hrest)

end

theorem apart_params {ts rest : List Token} {ps : List Param} (h : AreParams ts ps) (hrest : Apart rest) :
    Apart (ts ++ rest) := by
  induction h with
  | dots h => exact .cons h (by decide) hrest
  | one h => exact apart_typed h hrest
  | @more ts us comma name ty ps h hcomma _ ih =>
    rw [List.append_assoc]
    exact apart_typed h (.cons hcomma (by decide) ih)

theorem apart_body {ts rest : List Token} {body : Option (List Stmt)} (h : IsBody ts body) (hrest : Apart rest) :
    Apart (ts ++ rest) := by
  cases h with
  | none h => exact .cons h (by decide) hrest
  | some ho h hc =>
    have := Apart.cons ho (by decide) (apart_stmts h (.cons hc (by decide) hrest))
    simpa using this

theorem apart_function {ts rest : List Token} {f : FunctionDecl} (h : IsFunction ts f) (hrest : Apart rest) :
    Apart (ts ++ rest) := by
  cases h with
  | @mk word name o c arrow linkage params type body external ps ret stmts hword hlinkage hname ho hparams hc harrow
      htype hbody =>
    have hclose : Apart (c :: arrow :: (type ++ (body ++ rest))) :=
      (Apart.single (by simp [hc])).append harrow (by decide)
        (.cons harrow (by decide) (apart_type htype (apart_body hbody hrest)))
    have hopen : Apart (o :: (params ++ c :: arrow :: (type ++ (body ++ rest)))) := by
      refine .cons ho (by decide) ?_
      cases hparams with
      | empty => exact hclose
      | params h => exact apart_params h hclose
    have hname := Apart.name hname ho hopen
    have hlinked : Apart (linkage ++ name :: o :: (params ++ c :: arrow :: (type ++ (body ++ rest)))) := by
      cases hlinkage with
      | internal => exact hname
      | external h => exact .cons h (by decide) hname
    have := Apart.cons hword (by decide) hlinked
    simpa using this

/-- **Nothing that spells a program has two operands side by side.** -/
theorem apart_program {ts : List Token} {p : Program} (h : IsProgram ts p) : Apart ts := by
  induction h with
  | nil => exact .nil
  | global h _ ih => exact apart_binding h ih
  | function h _ ih => exact apart_function h ih

end SsaCompiler.Lang
