import SsaCompiler.Proofs.Lang.Program.Adjacency
import SsaCompiler.Proofs.Lang.Program.Steps

/-!
# Successful runs over an expression

Reading applies an operator to the operands that are there, wherever they stood; only where no operand
directly follows another do the stacks tell what has been read.  For tokens of that kind a successful run is
a row of steps, each of which knows whether it comes after an operand, and a run has enough operands from
its first step on:

    run … ts = .ok (r, c)           →  Runs ended context f ts r c.rest             (runs_of_run)
    Runs ended context f ts r rest  →  one operand for each operator of f that waits,
                                       and one more after an operand                (Runs.enough)
-/

namespace SsaCompiler.Lang

/-! ## Steps of a run -/

namespace Context

/-- Whether, after an operand, the next token begins none. -/
def Fresh (ended : Bool) (tokens : List Token) : Prop :=
  ended = true → ∀ t ∈ tokens.head?, t.kind.startsOperand = false

/-- The successful runs over tokens without two operands side by side, step by step.  `ended` says
whether the token before ended an operand. -/
inductive Runs :
    {g : Goal} → Bool → Context g → Frame → List Token → g.Result → List Token → Prop
  | literal {g : Goal} {context : Context g} {f : Frame} {t : Token} {ts rest : List Token} {r : g.Result} {ty : Prim}
      (ht : LiteralKind t.kind ty)
      (h : Runs true context (f.operand (.literal (t.literalType.getD ty) t.lexeme)) ts r rest) :
      Runs false context f (t :: ts) r rest
  | name {g : Goal} {context : Context g} {f : Frame} {t : Token} {ts rest : List Token} {r : g.Result}
      (ht : t.kind = .ident) (h : Runs true context (f.operand (.name t.lexeme)) ts r rest) :
      Runs false context f (t :: ts) r rest
  | emptyCall {g : Goal} {context : Context g} {f : Frame} {t o c : Token} {ts rest : List Token} {r : g.Result}
      (ht : t.kind = .ident) (ho : o.kind = .leftParen) (hc : c.kind = .rightParen)
      (h : Runs true context (f.operand (.call t.lexeme [] t.line)) ts r rest) :
      Runs false context f (t :: o :: c :: ts) r rest
  | call {g : Goal} {context : Context g} {f : Frame} {t o : Token} {start : Nat} {ts rest : List Token} {r : g.Result}
      (ht : t.kind = .ident) (ho : o.kind = .leftParen)
      (h : Runs false (.operand { callee := t.lexeme, args := [], line := t.line } f context) (.empty start)
        ts r rest) : Runs false context f (t :: o :: ts) r rest
  | openParen {g : Goal} {context : Context g} {f : Frame} {o : Token} {ts rest : List Token} {r : g.Result}
      (ho : o.kind = .leftParen) (h : Runs false context (f.openParen o.line) ts r rest) :
      Runs false context f (o :: ts) r rest
  | operator {g : Goal} {ended : Bool} {context : Context g} {f f' : Frame} {t : Token} {op : BinaryOp}
      {ts rest : List Token} {r : g.Result} (hop : SumOp t.kind op ∨ ProductOp t.kind op)
      (hf : f.operator op t.line = .ok f') (h : Runs false context f' ts r rest) :
      Runs ended context f (t :: ts) r rest
  | closeParen {g : Goal} {ended : Bool} {context : Context g} {f f' : Frame} {c : Token} {ts rest : List Token}
      {r : g.Result} (hc : c.kind = .rightParen) (hf : f.closeParen c.line = .ok f')
      (h : Runs true context f' ts r rest) : Runs ended context f (c :: ts) r rest
  | callGoal {ended : Bool} {site : Call} {f : Frame} {c : Token} {rest : List Token} {e : Expr}
      (hc : c.kind = .rightParen) (hf : f.finish = .ok e) :
      Runs ended (.callGoal site) f (c :: rest) (site.addArg e) rest
  | resume {g : Goal} {ended : Bool} {site : Call} {outer : Frame} {context : Context g} {f : Frame} {c : Token}
      {ts rest : List Token} {r : g.Result} {e : Expr} (hc : c.kind = .rightParen) (hf : f.finish = .ok e)
      (h : Runs true context (outer.operand (site.addArg e).toExpr) ts r rest) :
      Runs ended (.operand site outer context) f (c :: ts) r rest
  | comma {g : Goal} {ended : Bool} {context : Context g} {f : Frame} {t : Token} {start : Nat} {ts rest : List Token}
      {r : g.Result} {next : Expr → Context g} {e : Expr} (ht : t.kind = .comma) (hf : f.finish = .ok e)
      (hnext : context.comma? = some next) (h : Runs false (next e) (.empty start) ts r rest) :
      Runs ended context f (t :: ts) r rest
  | semicolon {ended : Bool} {f : Frame} {t : Token} {rest : List Token} {e : Expr} (ht : t.kind = .semicolon)
      (hf : f.finish = .ok e) : Runs ended .statement f (t :: rest) e rest

theorem Fresh.not_ended {ended : Bool} {t : Token} {ts : List Token} (h : Fresh ended (t :: ts))
    (ht : t.kind.startsOperand = true) : ended = false := by
  cases ended with
  | false => rfl
  | true => rw [h rfl t rfl] at ht; cases ht

/-- After a token that ends an operand none begins, unless the token is a name before a parenthesis. -/
theorem fresh_of_isChain {t : Token} {ts : List Token} (h : (t :: ts).IsChain Separate)
    (ht : t.kind.endsOperand = true) (hcall : t.kind = .ident → ∀ p ∈ ts.head?, p.kind ≠ .leftParen) :
    Fresh true ts := by
  intro _ p hp
  have hseparate : Separate t p := (List.isChain_cons.mp h).1 p hp
  cases hstarts : p.kind.startsOperand with
  | false => rfl
  | true =>
    obtain ⟨hname, hparen⟩ := hseparate ht hstarts
    exact absurd hparen (hcall hname p hp)

theorem fresh_of_rightParen {c : Token} {ts : List Token} (h : (c :: ts).IsChain Separate)
    (hc : c.kind = .rightParen) : Fresh true ts := by
  refine fresh_of_isChain h (by rw [hc]; rfl) fun hname => ?_
  rw [hc] at hname
  cases hname

theorem fresh_false (ts : List Token) : Fresh false ts := by
  intro h
  cases h

/-- Where no operand follows another, a step is told by its token and the one before it. -/
theorem Steps.runs {g : Goal} {context : Context g} {f : Frame} {tokens rest : List Token} {r : g.Result}
    (h : Steps context f tokens r rest) {ended : Bool} (hchain : tokens.IsChain Separate)
    (hfresh : Fresh ended tokens) : Runs ended context f tokens r rest := by
  induction h generalizing ended with
  | literal ht _ ih =>
    cases hfresh.not_ended ht.startsOperand
    refine .literal ht (ih hchain.tail (fresh_of_isChain hchain ht.endsOperand fun hname => ?_))
    rw [hname] at ht
    cases ht
  | name ht hts _ ih =>
    cases hfresh.not_ended (by rw [ht]; rfl)
    exact .name ht (ih hchain.tail (fresh_of_isChain hchain (by rw [ht]; rfl) fun _ => hts))
  | emptyCall ht ho hc _ ih =>
    cases hfresh.not_ended (by rw [ht]; rfl)
    exact .emptyCall ht ho hc (ih hchain.tail.tail.tail (fresh_of_rightParen hchain.tail.tail hc))
  | call ht ho _ _ ih =>
    cases hfresh.not_ended (by rw [ht]; rfl)
    exact .call ht ho (ih hchain.tail.tail (fresh_false _))
  | openParen ho _ ih =>
    cases hfresh.not_ended (by rw [ho]; rfl)
    exact .openParen ho (ih hchain.tail (fresh_false _))
  | operator hop hf _ ih => exact .operator hop hf (ih hchain.tail (fresh_false _))
  | closeParen hc _ hf _ ih => exact .closeParen hc hf (ih hchain.tail (fresh_of_rightParen hchain hc))
  | callGoal hc _ hf => exact .callGoal hc hf
  | resume hc _ hf _ ih => exact .resume hc hf (ih hchain.tail (fresh_of_rightParen hchain hc))
  | comma ht hnext hf _ ih => exact .comma ht hf hnext (ih hchain.tail (fresh_false _))
  | semicolon ht hf => exact .semicolon ht hf

/-- **A successful run is a row of such steps.** -/
theorem runs_of_run {g : Goal} {endLine last : Nat} {context : Context g} {f : Frame} {tokens : List Token}
    {r : g.Result} {c : Cursor} (h : run endLine context f last tokens = .ok (r, c)) {ended : Bool}
    (hchain : tokens.IsChain Separate) (hfresh : Fresh ended tokens) : Runs ended context f tokens r c.rest :=
  (steps_of_run h).runs hchain hfresh

end Context

/-! ## Counting operands -/

namespace Frame

/-- The number of operators that wait for their right operand. -/
def waiting : List Pending → Nat
  | [] => 0
  | .paren _ :: ps => waiting ps
  | .op _ _ :: ps => waiting ps + 1

variable {n line : Nat} {ps ps' : List Pending} {os os' : List Expr} {f f' : Frame}

/-- Each operator that is applied takes one operand away. -/
theorem Applies.waiting_add (h : Applies n ps os ps' os') : waiting ps + os'.length = waiting ps' + os.length := by
  induction h with
  | refl => rfl
  | step _ _ ih =>
    simp only [waiting, List.length_cons] at ih ⊢
    omega

theorem waiting_operator {op : BinaryOp} (h : f.operator op line = .ok f') :
    waiting f.pending + f'.operands.length + 1 = waiting f'.pending + f.operands.length := by
  obtain ⟨ps, os, happ, -, rfl⟩ := applies_of_operator h
  have := happ.waiting_add
  simp only [waiting]
  omega

theorem waiting_closeParen (h : f.closeParen line = .ok f') :
    waiting f.pending + f'.operands.length = waiting f'.pending + f.operands.length := by
  obtain ⟨opened, ps, os, happ, rfl⟩ := applies_of_closeParen h
  exact happ.waiting_add

theorem waiting_finish {e : Expr} (h : f.finish = .ok e) : f.operands.length = waiting f.pending + 1 := by
  have := (applies_of_finish h).waiting_add
  simp only [waiting, List.length_singleton] at this
  omega

end Frame

namespace Context

open Lang.Frame (waiting waiting_operator waiting_closeParen waiting_finish)

/-- Whether every expression that a call interrupts has a left operand for each of its operators. -/
def Enough : {g : Goal} → Context g → Prop
  | _, .statement => True
  | _, .callGoal _ => True
  | _, .operand _ f outer => waiting f.pending ≤ f.operands.length ∧ outer.Enough

theorem enough_of_comma? {g : Goal} {context : Context g} {next : Expr → Context g} {e : Expr}
    (h : context.comma? = some next) (hnext : (next e).Enough) : context.Enough := by
  cases context with
  | statement => trivial
  | callGoal => trivial
  | operand site f outer =>
    cases h
    exact hnext

/-- **A successful run has enough operands** at every step: one for each operator, and one more after an
operand. -/
theorem Runs.enough {g : Goal} {ended : Bool} {context : Context g} {f : Frame} {ts rest : List Token} {r : g.Result}
    (h : Runs ended context f ts r rest) : waiting f.pending + ended.toNat ≤ f.operands.length ∧ context.Enough := by
  induction h with
  | literal _ _ ih | name _ _ ih | emptyCall _ _ _ _ ih =>
    simp only [Frame.operand, List.length_cons, Bool.toNat_true, Bool.toNat_false] at ih ⊢
    exact ⟨by omega, ih.2⟩
  | call _ _ _ ih => exact ih.2
  | openParen _ _ ih => exact ih
  | @operator _ ended _ _ _ _ _ _ _ _ _ hf _ ih =>
    have := waiting_operator hf
    have := Bool.toNat_le ended
    simp only [Bool.toNat_false] at ih
    exact ⟨by omega, ih.2⟩
  | @closeParen _ ended _ _ _ _ _ _ _ _ hf _ ih =>
    have := waiting_closeParen hf
    have := Bool.toNat_le ended
    simp only [Bool.toNat_true] at ih
    exact ⟨by omega, ih.2⟩
  | @callGoal ended _ _ _ _ _ _ hf =>
    have := waiting_finish hf
    have := Bool.toNat_le ended
    exact ⟨by omega, trivial⟩
  | @resume _ ended _ _ _ _ _ _ _ _ _ _ hf _ ih =>
    have := waiting_finish hf
    have := Bool.toNat_le ended
    simp only [Frame.operand, List.length_cons, Bool.toNat_true] at ih
    exact ⟨by omega, by omega, ih.2⟩
  | @comma _ ended _ _ _ _ _ _ _ _ _ _ hf hnext _ ih =>
    have := waiting_finish hf
    have := Bool.toNat_le ended
    exact ⟨by omega, enough_of_comma? hnext ih.2⟩
  | @semicolon ended _ _ _ _ _ hf =>
    have := waiting_finish hf
    have := Bool.toNat_le ended
    exact ⟨by omega, trivial⟩

end Context

end SsaCompiler.Lang
