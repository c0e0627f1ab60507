import Mathlib.Data.List.Chain
import SsaCompiler.Proofs.Lang.Program.Stacks

/-!
# What the stacks account for

Literals, names and operators are the parts of an expression.  A tree has its parts in the order of the text.  On the
stacks an operator that waits has moved behind operands that were read after it, but no operand has moved, and nothing
is lost or there twice:

    Rearranged ps qs           the same parts, and the operands in the same order
    Accounts ps n ts           the parts are those of the tokens, which leave `n` parentheses open
    Frame.Disciplined f ts     the stacks account for the tokens, the count of parentheses is right, and
                               an operator lies on a parenthesis or on a weaker operator

Every kind of token keeps a frame disciplined.  Operators are applied in the same way before an arriving one, at a
closing parenthesis and at the end, so that what applying them does to the stacks is shown once (Applies.rearranged).
-/

namespace SsaCompiler.Lang

/-! ## Parts -/

/-- What an expression is made of, apart from parentheses and commas; the name of a called function is an operand. -/
inductive Part where
  | operand (leaf : Expr)
  | operator (op : BinaryOp)

def Part.isOperand : Part → Bool
  | .operand _ => true
  | .operator _ => false

/-- The part that a token is. -/
def Token.part? (t : Token) : Option Part :=
  match t.literal?, BinaryOp.ofToken? t.kind, t.kind with
  | some e, _, _ => some (.operand e)
  | _, some op, _ => some (.operator op)
  | _, _, .ident => some (.operand (.name t.lexeme))
  | _, _, _ => none

mutual

/-- The parts of a tree in the order of the text. -/
def Expr.parts : Expr → List Part
  | .literal ty text => [.operand (.literal ty text)]
  | .name n => [.operand (.name n)]
  | .binary op lhs rhs => lhs.parts ++ .operator op :: rhs.parts
  | .call callee args _ => .operand (.name callee) :: partsOfAll args

def partsOfAll : List Expr → List Part
  | [] => []
  | e :: es => e.parts ++ partsOfAll es

end

theorem partsOfAll_append (es es' : List Expr) : partsOfAll (es ++ es') = partsOfAll es ++ partsOfAll es' := by
  induction es with
  | nil => rfl
  | cons e es ih => simp only [List.cons_append, partsOfAll, ih, List.append_assoc]

/-- A call of which the name has been read. -/
def Call.ofName (t : Token) : Call :=
  { callee := t.lexeme, args := [], line := t.line }

theorem Call.parts_addArg (site : Call) (e : Expr) :
    (site.addArg e).toExpr.parts = site.toExpr.parts ++ e.parts := by
  simp [Call.addArg, Call.toExpr, Expr.parts, partsOfAll_append, partsOfAll]

def Pending.part? : Pending → Option Part
  | .paren _ => none
  | .op waiting _ => some (.operator waiting)

def Pending.isParen : Pending → Bool
  | .paren _ => true
  | .op _ _ => false

/-! ## Rearranging parts -/

/-- Whether parts differ in nothing but the places of operators. -/
def Rearranged (ps qs : List Part) : Prop :=
  ps.Perm qs ∧ ps.filter Part.isOperand = qs.filter Part.isOperand

namespace Rearranged

variable {ps ps' qs qs' rs : List Part}

protected theorem refl (ps : List Part) : Rearranged ps ps :=
  ⟨.refl ps, rfl⟩

theorem symm (h : Rearranged ps qs) : Rearranged qs ps :=
  ⟨h.1.symm, h.2.symm⟩

theorem trans (h : Rearranged ps qs) (h' : Rearranged qs rs) : Rearranged ps rs :=
  ⟨h.1.trans h'.1, h.2.trans h'.2⟩

theorem append (h : Rearranged ps qs) (h' : Rearranged ps' qs') : Rearranged (ps ++ ps') (qs ++ qs') :=
  ⟨h.1.append h'.1, by rw [List.filter_append, List.filter_append, h.2, h'.2]⟩

/-- Operators go past other parts. -/
theorem comm (h : qs.filter Part.isOperand = []) (ps : List Part) : Rearranged (ps ++ qs) (qs ++ ps) :=
  ⟨List.perm_append_comm, by rw [List.filter_append, List.filter_append, h, List.append_nil, List.nil_append]⟩

end Rearranged

/-! ## Accounting for tokens -/

/-- Whether parts are those of some tokens, each as often as it is there and the operands in order, where `opened`
parentheses are left open. -/
structure Accounts (parts : List Part) (opened : Nat) (ts : List Token) : Prop where
  parts : Rearranged parts (ts.filterMap Token.part?)
  parens : ts.countP (·.kind = .leftParen) = ts.countP (·.kind = .rightParen) + opened

namespace Accounts

variable {ps qs : List Part} {m n : Nat} {ts us : List Token} {t o c : Token}

theorem nil : Accounts [] 0 [] :=
  ⟨.refl [], rfl⟩

theorem append (h : Accounts ps m ts) (h' : Accounts qs n us) : Accounts (ps ++ qs) (m + n) (ts ++ us) where
  parts := by
    rw [List.filterMap_append]
    exact h.parts.append h'.parts
  parens := by
    rw [List.countP_append, List.countP_append, h.parens, h'.parens]
    omega

theorem rearranged (h : Accounts ps n ts) (hq : Rearranged qs ps) : Accounts qs n ts :=
  ⟨hq.trans h.parts, h.parens⟩

theorem literal {e : Expr} (h : t.literal? = some e) : Accounts e.parts 0 [t] := by
  obtain ⟨ty, hkind, rfl⟩ := Token.literal?_eq_some_iff.mp h
  have hpart : t.part? = some (.operand (.literal (t.literalType.getD ty) t.lexeme)) := by
    simp only [Token.part?, h]
  constructor
  · rw [List.filterMap_cons_some hpart]
    exact .refl _
  · generalize hk : t.kind = kind at hkind
    cases hkind <;> simp [hk]

theorem operator {op : BinaryOp} (h : BinaryOp.ofToken? t.kind = some op) : Accounts [.operator op] 0 [t] := by
  have hpart : t.part? = some (.operator op) := by
    generalize hk : t.kind = kind at h
    cases kind <;> cases h <;> simp [Token.part?, Token.literal?, BinaryOp.ofToken?, hk]
  constructor
  · rw [List.filterMap_cons_some hpart]
    exact .refl _
  · generalize hk : t.kind = kind at h
    cases kind <;> cases h <;> simp [hk]

theorem name (h : t.kind = .ident) : Accounts (Expr.name t.lexeme).parts 0 [t] := by
  have hpart : t.part? = some (.operand (.name t.lexeme)) := by
    simp [Token.part?, Token.literal?, BinaryOp.ofToken?, h]
  constructor
  · rw [List.filterMap_cons_some hpart]
    exact .refl _
  · simp [h]

theorem openParen (h : o.kind = .leftParen) : Accounts [] 1 [o] := by
  have hpart : o.part? = none := by
    simp [Token.part?, Token.literal?, BinaryOp.ofToken?, h]
  constructor
  · rw [List.filterMap_cons_none hpart]
    exact .refl _
  · simp [h]

theorem comma (h : Accounts ps n ts) (ht : t.kind = .comma) : Accounts ps n (ts ++ [t]) := by
  have hpart : t.part? = none := by
    simp [Token.part?, Token.literal?, BinaryOp.ofToken?, ht]
  constructor
  · rw [List.filterMap_append, List.filterMap_cons_none hpart, List.filterMap_nil, List.append_nil]
    exact h.parts
  · simpa [ht] using h.parens

/-- A closing parenthesis closes one that is open. -/
theorem closeParen (h : Accounts ps (n + 1) ts) (hc : c.kind = .rightParen) : Accounts ps n (ts ++ [c]) := by
  have hpart : c.part? = none := by
    simp [Token.part?, Token.literal?, BinaryOp.ofToken?, hc]
  constructor
  · rw [List.filterMap_append, List.filterMap_cons_none hpart, List.filterMap_nil, List.append_nil]
    exact h.parts
  · have hleft := h.parens
    simp [hc]
    omega

/-- A call begins with its name and an opening parenthesis. -/
theorem beginCall (ht : t.kind = .ident) (ho : o.kind = .leftParen) :
    Accounts (Call.ofName t).toExpr.parts 1 [t, o] :=
  (name ht).append (openParen ho)

theorem addArg {site : Call} {e : Expr} (h : Accounts site.toExpr.parts 1 ts) (he : Accounts e.parts 0 us) :
    Accounts (site.addArg e).toExpr.parts 1 (ts ++ us) := by
  rw [Call.parts_addArg]
  exact h.append he

end Accounts

/-! ## The stacks of a frame -/

/-- Whether an entry may lie on another: an operator lies on weaker operators only. -/
def Pending.Above : Pending → Pending → Prop
  | .op stronger _, .op weaker _ => weaker.precedence < stronger.precedence
  | _, _ => True

namespace Frame

/-- What is on the stacks: the operands from the lowest on, and the operators. -/
def partsOn (ps : List Pending) (os : List Expr) : List Part :=
  os.reverse.flatMap Expr.parts ++ ps.filterMap Pending.part?

/-- What holds of the stacks between two tokens of an expression, after the tokens `read`. -/
structure Disciplined (f : Frame) (read : List Token) : Prop where
  opened : f.openParens = f.pending.countP Pending.isParen
  rising : f.pending.IsChain Pending.Above
  accounts : Accounts (partsOn f.pending f.operands) f.openParens read

variable {n line : Nat} {ps ps' : List Pending} {os os' : List Expr}

theorem filter_isOperand_pending (ps : List Pending) : (ps.filterMap Pending.part?).filter Part.isOperand = [] := by
  induction ps with
  | nil => rfl
  | cons p ps ih => cases p <;> simpa [Pending.part?, Part.isOperand] using ih

/-! ### Applying operators -/

theorem Applies.suffix (h : Applies n ps os ps' os') : ps' <:+ ps := by
  induction h with
  | refl => exact List.suffix_rfl
  | step _ _ ih => exact ih.trans (List.suffix_cons _ _)

theorem Applies.countP_isParen (h : Applies n ps os ps' os') :
    ps'.countP Pending.isParen = ps.countP Pending.isParen := by
  induction h with
  | refl => rfl
  | step _ _ ih => simpa [Pending.isParen] using ih

/-- An operator that is applied goes back to its place in the text. -/
theorem Applies.rearranged (h : Applies n ps os ps' os') : Rearranged (partsOn ps' os') (partsOn ps os) := by
  induction h with
  | refl => exact .refl _
  | @step op line ps ps' l r os os' _ _ ih =>
    refine ih.trans ?_
    have hmove : Rearranged ([.operator op] ++ r.parts) (r.parts ++ [.operator op]) := (Rearranged.comm rfl _).symm
    have h := ((Rearranged.refl (os.reverse.flatMap Expr.parts ++ l.parts)).append hmove).append
      (.refl (ps.filterMap Pending.part?))
    simpa [partsOn, Expr.parts, Pending.part?] using h

/-! ### One token more -/

variable {f f' : Frame} {read ts : List Token} {t o c : Token} {e : Expr}

theorem disciplined_empty (start : Nat) : (empty start).Disciplined [] :=
  ⟨rfl, .nil, .nil⟩

theorem Disciplined.operand (h : f.Disciplined read) (he : Accounts e.parts 0 ts) :
    (f.operand e).Disciplined (read ++ ts) where
  opened := h.opened
  rising := h.rising
  accounts := by
    have hmove := (Rearranged.refl (f.operands.reverse.flatMap Expr.parts)).append
      (Rearranged.comm (filter_isOperand_pending f.pending) e.parts)
    refine (h.accounts.append he).rearranged ?_
    simpa [partsOn, Frame.operand] using hmove

theorem Disciplined.openParen (h : f.Disciplined read) (ho : o.kind = .leftParen) (line : Nat) :
    (f.openParen line).Disciplined (read ++ [o]) where
  opened := by
    rw [Frame.openParen, h.opened]
    exact (List.countP_cons_of_pos rfl).symm
  rising := h.rising.cons fun _ _ => trivial
  accounts := by
    have haccounts := h.accounts.append (.openParen ho)
    rw [List.append_nil] at haccounts
    exact haccounts

theorem Disciplined.operator {op : BinaryOp} (h : f.Disciplined read) (ht : BinaryOp.ofToken? t.kind = some op)
    (hf : f.operator op line = .ok f') : f'.Disciplined (read ++ [t]) := by
  obtain ⟨ps, os, happ, hbelow, rfl⟩ := applies_of_operator hf
  constructor
  · exact h.opened.trans happ.countP_isParen.symm
  · refine (h.rising.suffix happ.suffix).cons fun p hp => ?_
    cases p with
    | paren => trivial
    | op waiting opLine => exact hbelow waiting opLine ps.tail (List.eq_cons_of_mem_head? hp)
  · have hmove := (Rearranged.refl (os.reverse.flatMap Expr.parts)).append
      (Rearranged.comm (filter_isOperand_pending ps) [.operator op])
    refine ((h.accounts.rearranged happ.rearranged).append (.operator ht)).rearranged ?_
    simpa [partsOn, Pending.part?] using hmove

/-- A closing parenthesis is counted down from a parenthesis that is open. -/
theorem Disciplined.closeParen (h : f.Disciplined read) (hc : c.kind = .rightParen)
    (hf : f.closeParen line = .ok f') : f'.Disciplined (read ++ [c]) ∧ f.openParens = f'.openParens + 1 := by
  obtain ⟨opened, ps, os, happ, rfl⟩ := applies_of_closeParen hf
  have hcount : f.openParens = ps.countP Pending.isParen + 1 := by
    rw [h.opened, ← happ.countP_isParen]
    exact List.countP_cons_of_pos rfl
  have hopened : f.openParens - 1 = ps.countP Pending.isParen := by omega
  have haccounts : Accounts (partsOn ps os) f.openParens read := h.accounts.rearranged happ.rearranged
  rw [hcount] at haccounts
  refine ⟨⟨hopened, (h.rising.suffix happ.suffix).tail, ?_⟩, ?_⟩
  · dsimp only
    rw [hopened]
    exact haccounts.closeParen hc
  · dsimp only
    omega

/-- A finished expression has all that was read, and no parenthesis is open. -/
theorem Disciplined.finish (h : f.Disciplined read) (hf : f.finish = .ok e) : Accounts e.parts 0 read := by
  have happ := applies_of_finish hf
  have hopened : f.openParens = 0 := h.opened.trans happ.countP_isParen.symm
  have haccounts := h.accounts.rearranged happ.rearranged
  rw [hopened] at haccounts
  simpa [partsOn] using haccounts

/-! ### Operators in a row -/

theorem precedence_range (op : BinaryOp) : 12 ≤ op.precedence ∧ op.precedence ≤ 13 := by
  cases op <;> decide

/-- Operators that lie on one another without a parenthesis between them become stronger, so there are no more than
two, as there are two precedences. -/
theorem Disciplined.strictly (h : f.Disciplined read) {ops : List (BinaryOp × Nat)}
    (hops : ops.map (fun p => .op p.1 p.2) <:+: f.pending) :
    (ops.map (·.1.precedence)).Pairwise (· > ·) ∧ ops.length ≤ 2 := by
  have hchain : (ops.map (·.1.precedence)).IsChain (· > ·) := by
    have := h.rising.infix hops
    rw [List.isChain_map] at this ⊢
    exact this
  have hpairwise := List.isChain_iff_pairwise.mp hchain
  refine ⟨hpairwise, ?_⟩
  match ops, hpairwise with
  | [], _ | [_], _ | [_, _], _ => simp
  | (p, _) :: (q, _) :: (r, _) :: _, hpairwise =>
    simp only [List.map_cons, List.pairwise_cons, List.mem_cons, forall_eq_or_imp] at hpairwise
    have := precedence_range p
    have := precedence_range r
    omega

end Frame

end SsaCompiler.Lang
