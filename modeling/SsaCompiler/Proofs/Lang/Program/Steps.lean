import SsaCompiler.Proofs.Lang.Program.Stacks

/-!
# Steps over an expression

A run over an expression that succeeds is a row of steps.  What a step does is told by its token, by the tokens after
a name, and at a closing parenthesis by whether one is open:

    run … ts = .ok (r, c) → Steps context f ts r c.rest                                            (steps_of_run)

so that what a run keeps is shown step by step.
-/

namespace SsaCompiler.Lang.Context

/-- The successful runs, step by step.  Only complaints name the line that an expression starts on. -/
inductive Steps : {g : Goal} → Context g → Frame → List Token → g.Result → List Token → Prop
  | literal {g : Goal} {context : Context g} {f : Frame} {t : Token} {ts rest : List Token} {r : g.Result} {ty : Prim}
      (ht : LiteralKind t.kind ty)
      (h : Steps context (f.operand (.literal (t.literalType.getD ty) t.lexeme)) ts r rest) :
      Steps context f (t :: ts) r rest
  | name {g : Goal} {context : Context g} {f : Frame} {t : Token} {ts rest : List Token} {r : g.Result}
      (ht : t.kind = .ident) (hts : ∀ p ∈ ts.head?, p.kind ≠ .leftParen)
      (h : Steps context (f.operand (.name t.lexeme)) ts r rest) : Steps context f (t :: ts) r rest
  | emptyCall {g : Goal} {context : Context g} {f : Frame} {t o c : Token} {ts rest : List Token} {r : g.Result}
      (ht : t.kind = .ident) (ho : o.kind = .leftParen) (hc : c.kind = .rightParen)
      (h : Steps context (f.operand (.call t.lexeme [] t.line)) ts r rest) : Steps context f (t :: o :: c :: ts) r rest
  | call {g : Goal} {context : Context g} {f : Frame} {t o : Token} {start : Nat} {ts rest : List Token} {r : g.Result}
      (ht : t.kind = .ident) (ho : o.kind = .leftParen) (hts : ∀ q ∈ ts.head?, q.kind ≠ .rightParen)
      (h : Steps (.operand { callee := t.lexeme, args := [], line := t.line } f context) (.empty start) ts r rest) :
      Steps context f (t :: o :: ts) r rest
  | openParen {g : Goal} {context : Context g} {f : Frame} {o : Token} {ts rest : List Token} {r : g.Result}
      (ho : o.kind = .leftParen) (h : Steps context (f.openParen o.line) ts r rest) : Steps context f (o :: ts) r rest
  | operator {g : Goal} {context : Context g} {f f' : Frame} {t : Token} {op : BinaryOp} {ts rest : List Token}
      {r : g.Result} (hop : SumOp t.kind op ∨ ProductOp t.kind op) (hf : f.operator op t.line = .ok f')
      (h : Steps context f' ts r rest) : Steps context f (t :: ts) r rest
  | closeParen {g : Goal} {context : Context g} {f f' : Frame} {c : Token} {ts rest : List Token} {r : g.Result}
      (hc : c.kind = .rightParen) (hopen : f.openParens = 0 → context.close? = none)
      (hf : f.closeParen c.line = .ok f') (h : Steps context f' ts r rest) : Steps context f (c :: ts) r rest
  | callGoal {site : Call} {f : Frame} {c : Token} {rest : List Token} {e : Expr} (hc : c.kind = .rightParen)
      (hopen : f.openParens = 0) (hf : f.finish = .ok e) :
      Steps (.callGoal site) f (c :: rest) (site.addArg e) rest
  | resume {g : Goal} {site : Call} {outer : Frame} {context : Context g} {f : Frame} {c : Token}
      {ts rest : List Token} {r : g.Result} {e : Expr} (hc : c.kind = .rightParen) (hopen : f.openParens = 0)
      (hf : f.finish = .ok e) (h : Steps context (outer.operand (site.addArg e).toExpr) ts r rest) :
      Steps (.operand site outer context) f (c :: ts) r rest
  | comma {g : Goal} {context : Context g} {f : Frame} {t : Token} {start : Nat} {ts rest : List Token} {r : g.Result}
      {next : Expr → Context g} {e : Expr} (ht : t.kind = .comma) (hnext : context.comma? = some next)
      (hf : f.finish = .ok e) (h : Steps (next e) (.empty start) ts r rest) : Steps context f (t :: ts) r rest
  | semicolon {f : Frame} {t : Token} {rest : List Token} {e : Expr} (ht : t.kind = .semicolon)
      (hf : f.finish = .ok e) : Steps .statement f (t :: rest) e rest

/-- **A successful run is a row of steps.** -/
theorem steps_of_run {g : Goal} {endLine last : Nat} {context : Context g} {f : Frame} {tokens : List Token}
    {r : g.Result} {c : Cursor} (h : run endLine context f last tokens = .ok (r, c)) :
    Steps context f tokens r c.rest := by
  fun_induction run endLine context f last tokens with
  | case1 => simp [Reader.bind_eq_ok] at h
  | case2 context f last t rest line e hliteral ih =>
    obtain ⟨ty, ht, rfl⟩ := Token.literal?_eq_some_iff.mp hliteral
    exact .literal ht (ih h)
  | case3 context f last t rest line op hop _ ih =>
    obtain ⟨f', hf, h⟩ := Reader.bind_eq_ok.mp h
    exact .operator (BinaryOp.ofToken?_eq_some_iff.mp hop) hf (ih f' h)
  | case4 context f last t rest line ht _ _ ih => exact .openParen ht (ih h)
  -- a name is the last token, or it is before a parenthesis, or it is neither
  | case5 context f last t line ht _ _ ih => exact .name ht (by simp) (ih h)
  | case6 context f last t line ht o ho =>
    rename_i ih
    exact .call ht ho (by simp) (ih h)
  | case7 context f last t line ht o ho site c rest hc =>
    rename_i ih
    exact .emptyCall ht ho hc (ih h)
  | case8 context f last t line ht o ho site q rest hq =>
    rename_i ih
    exact .call ht ho (by simpa using hq) (ih h)
  | case9 context f last t line ht p rest hp _ _ ih => exact .name ht (by simpa using hp) (ih h)
  | case10 context f last c rest line hc close hclose _ _ ih =>
    obtain ⟨e, hf, h⟩ := Reader.bind_eq_ok.mp h
    obtain ⟨hopen, hclose⟩ := Option.ite_none_right_eq_some.mp hclose
    cases context with
    | statement => cases hclose
    | callGoal site =>
      cases hclose
      cases h
      exact .callGoal hc hopen hf
    | operand site outer context =>
      cases hclose
      exact .resume hc hopen hf (ih _ _ h)
  | case11 context f last c rest line hc hclose _ _ ih =>
    obtain ⟨f', hf, h⟩ := Reader.bind_eq_ok.mp h
    exact .closeParen hc (ite_eq_right_iff.mp hclose) hf (ih f' h)
  | case12 context f last t rest line ht next hnext =>
    rename_i ih
    obtain ⟨e, hf, h⟩ := Reader.bind_eq_ok.mp h
    exact .comma ht hnext hf (ih e h)
  | case14 context f last t rest line ht result hresult _ _ =>
    obtain ⟨e, hf, h⟩ := Reader.bind_eq_ok.mp h
    cases context with
    | statement =>
      cases hresult
      cases h
      exact .semicolon ht hf
    | callGoal => cases hresult
    | operand => cases hresult
  | _ => cases h

theorem Steps.ne_nil {g : Goal} {context : Context g} {f : Frame} {tokens rest : List Token} {r : g.Result}
    (h : Steps context f tokens r rest) : tokens ≠ [] := by
  rintro rfl
  cases h

end SsaCompiler.Lang.Context
