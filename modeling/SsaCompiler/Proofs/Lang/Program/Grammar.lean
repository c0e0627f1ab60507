import SsaCompiler.Lang.Program.Reading

/-!
# The grammar of programs

Which tree a row of tokens spells, said without reading it:

    Sum      →  Sum + Product | Sum - Product | Product
    Product  →  Product * Factor | Product / Factor | Product % Factor | Factor
    Factor   →  LITERAL | NAME | Call | ( Sum )
    Call     →  NAME ( ) | NAME ( Args )
    Args     →  Sum | Sum , Args
    Type     →  TYPE | TYPE *
    Binding  →  let NAME : Type = Sum ;
    Stmt     →  Binding | return Sum ; | Call ; | { Stmts }
    Params   →  nothing, or NAME : Type and ... separated by commas, with ... at most once and last
    Function →  fn NAME ( Params ) -> Type Body, with an extern before the name or not
    Body     →  ; | { Stmts }
    Program  →  Bindings and Functions in any order

The line of a declaration or statement is that of its `fn`, `let` or `return`, the line of a call that of
the name called.  Every program that has dots only as the last parameter of a function is spelled by some
row of tokens (exists_isProgram).
-/

namespace SsaCompiler.Lang

/-! ## Expressions -/

/-- The kinds of token that add or subtract. -/
inductive SumOp : TokenKind → BinaryOp → Prop
  | plus : SumOp .plus .add
  | minus : SumOp .minus .sub

/-- The kinds of token that multiply or divide. -/
inductive ProductOp : TokenKind → BinaryOp → Prop
  | star : ProductOp .star .mul
  | slash : ProductOp .slash .div
  | percent : ProductOp .percent .rem

/-- The kinds of literal, each with the type of a literal that carries none. -/
inductive LiteralKind : TokenKind → Prim → Prop
  | int : LiteralKind .intLiteral (.int .signed .w32)
  | float : LiteralKind .floatLiteral (.float .w64)
  | string : LiteralKind .stringLiteral .str

mutual

/-- Products added and subtracted from the left. -/
inductive IsSum : List Token → Expr → Prop
  | product {ts : List Token} {e : Expr} (h : IsProduct ts e) : IsSum ts e
  | more {left right : List Token} {t : Token} {op : BinaryOp} {l r : Expr} (hl : IsSum left l)
      (hop : SumOp t.kind op) (hr : IsProduct right r) : IsSum (left ++ t :: right) (.binary op l r)

/-- Factors multiplied and divided from the left. -/
inductive IsProduct : List Token → Expr → Prop
  | factor {ts : List Token} {e : Expr} (h : IsFactor ts e) : IsProduct ts e
  | more {left right : List Token} {t : Token} {op : BinaryOp} {l r : Expr} (hl : IsProduct left l)
      (hop : ProductOp t.kind op) (hr : IsFactor right r) : IsProduct (left ++ t :: right) (.binary op l r)

/-- A literal, a name, a call or an expression in parentheses. -/
inductive IsFactor : List Token → Expr → Prop
  | literal {t : Token} {ty : Prim} (h : LiteralKind t.kind ty) :
      IsFactor [t] (.literal (t.literalType.getD ty) t.lexeme)
  | name {t : Token} (h : t.kind = .ident) : IsFactor [t] (.name t.lexeme)
  | call {ts : List Token} {site : Call} (h : IsCall ts site) : IsFactor ts site.toExpr
  | paren {o c : Token} {ts : List Token} {e : Expr} (ho : o.kind = .leftParen) (h : IsSum ts e)
      (hc : c.kind = .rightParen) : IsFactor (o :: (ts ++ [c])) e

/-- A name with arguments in parentheses. -/
inductive IsCall : List Token → Call → Prop
  | empty {t o c : Token} (ht : t.kind = .ident) (ho : o.kind = .leftParen) (hc : c.kind = .rightParen) :
      IsCall [t, o, c] { callee := t.lexeme, args := [], line := t.line }
  | args {t o c : Token} {ts : List Token} {es : List Expr} (ht : t.kind = .ident) (ho : o.kind = .leftParen)
      (h : AreArgs ts es) (hc : c.kind = .rightParen) :
      IsCall (t :: o :: (ts ++ [c])) { callee := t.lexeme, args := es, line := t.line }

/-- One or more expressions with commas between them. -/
inductive AreArgs : List Token → List Expr → Prop
  | one {ts : List Token} {e : Expr} (h : IsSum ts e) : AreArgs ts [e]
  | more {ts rest : List Token} {comma : Token} {e : Expr} {es : List Expr} (h : IsSum ts e)
      (hcomma : comma.kind = .comma) (hrest : AreArgs rest es) : AreArgs (ts ++ comma :: rest) (e :: es)

end

/-! ## Statements -/

/-- The name of a type, or that of a type with a pointer type and a star. -/
inductive IsType : List Token → Prim → Prop
  | base {t : Token} {ty : Prim} (ht : t.kind = .typeName) (hty : t.literalType = some ty) : IsType [t] ty
  | pointer {t star : Token} {ty : Prim} (ht : t.kind = .typeName) (hty : t.literalType = some ty)
      (hstar : star.kind = .star) (hp : ty.pointerTo ≠ .invalid) : IsType [t, star] ty.pointerTo

/-- A name, a colon and a type. -/
inductive IsTyped : List Token → String → Prim → Prop
  | mk {name colon : Token} {ts : List Token} {ty : Prim} (hname : name.kind = .ident) (hcolon : colon.kind = .colon)
      (hty : IsType ts ty) : IsTyped (name :: colon :: ts) name.lexeme ty

inductive IsBinding : List Token → Binding → Prop
  | mk {word equals semicolon : Token} {typed init : List Token} {name : String} {ty : Prim} {e : Expr}
      (hword : word.kind = .letWord) (htyped : IsTyped typed name ty) (hequals : equals.kind = .equals)
      (hinit : IsSum init e) (hsemicolon : semicolon.kind = .semicolon) :
      IsBinding (word :: (typed ++ equals :: (init ++ [semicolon]))) { name, ty, init := e, line := word.line }

mutual

inductive IsStmt : List Token → Stmt → Prop
  | bind {ts : List Token} {b : Binding} (h : IsBinding ts b) : IsStmt ts (.bind b)
  | ret {word semicolon : Token} {ts : List Token} {e : Expr} (hword : word.kind = .returnWord) (h : IsSum ts e)
      (hsemicolon : semicolon.kind = .semicolon) : IsStmt (word :: (ts ++ [semicolon])) (.ret e word.line)
  | call {semicolon : Token} {ts : List Token} {site : Call} (h : IsCall ts site)
      (hsemicolon : semicolon.kind = .semicolon) : IsStmt (ts ++ [semicolon]) (.call site)
  | block {o c : Token} {ts : List Token} {ss : List Stmt} (ho : o.kind = .leftBrace) (h : AreStmts ts ss)
      (hc : c.kind = .rightBrace) : IsStmt (o :: (ts ++ [c])) (.block ss)

inductive AreStmts : List Token → List Stmt → Prop
  | nil : AreStmts [] []
  | cons {ts rest : List Token} {s : Stmt} {ss : List Stmt} (h : IsStmt ts s) (hrest : AreStmts rest ss) :
      AreStmts (ts ++ rest) (s :: ss)

end

/-! ## Declarations -/

/-- One or more parameters with commas between them, of which only the last may be the dots. -/
inductive AreParams : List Token → List Param → Prop
  | dots {t : Token} (h : t.kind = .ellipsis) : AreParams [t] [.dots]
  | one {ts : List Token} {name : String} {ty : Prim} (h : IsTyped ts name ty) : AreParams ts [.named name ty]
  | more {ts rest : List Token} {c : Token} {name : String} {ty : Prim} {ps : List Param}
      (h : IsTyped ts name ty) (hc : c.kind = .comma) (hrest : AreParams rest ps) :
      AreParams (ts ++ c :: rest) (.named name ty :: ps)

/-- What stands between the parentheses of a declaration. -/
inductive IsParamList : List Token → List Param → Prop
  | empty : IsParamList [] []
  | params {ts : List Token} {ps : List Param} (h : AreParams ts ps) : IsParamList ts ps

/-- Nothing, or the word that makes a function visible outside its module. -/
inductive IsLinkage : List Token → Bool → Prop
  | internal : IsLinkage [] false
  | external {t : Token} (h : t.kind = .externWord) : IsLinkage [t] true

/-- A semicolon, or statements in braces. -/
inductive IsBody : List Token → Option (List Stmt) → Prop
  | none {t : Token} (h : t.kind = .semicolon) : IsBody [t] none
  | some {o c : Token} {ts : List Token} {ss : List Stmt} (ho : o.kind = .leftBrace) (h : AreStmts ts ss)
      (hc : c.kind = .rightBrace) : IsBody (o :: (ts ++ [c])) (some ss)

inductive IsFunction : List Token → FunctionDecl → Prop
  | mk {word name o c arrow : Token} {linkage params type rest : List Token} {external : Bool} {ps : List Param}
      {ret : Prim} {body : Option (List Stmt)} (hword : word.kind = .fnWord) (hlinkage : IsLinkage linkage external)
      (hname : name.kind = .ident) (ho : o.kind = .leftParen) (hparams : IsParamList params ps)
      (hc : c.kind = .rightParen) (harrow : arrow.kind = .arrow) (htype : IsType type ret) (hbody : IsBody rest body) :
      IsFunction (word :: (linkage ++ name :: o :: (params ++ c :: arrow :: (type ++ rest))))
        { name := name.lexeme, external, params := ps, ret, body, line := word.line }

/-- Globals and functions in any order. -/
inductive IsProgram : List Token → Program → Prop
  | nil : IsProgram [] { globals := [], functions := [] }
  | global {ts rest : List Token} {b : Binding} {p : Program} (h : IsBinding ts b) (hrest : IsProgram rest p) :
      IsProgram (ts ++ rest) { p with globals := b :: p.globals }
  | function {ts rest : List Token} {f : FunctionDecl} {p : Program} (h : IsFunction ts f)
      (hrest : IsProgram rest p) : IsProgram (ts ++ rest) { p with functions := f :: p.functions }

/-! ## Spellings exist -/

/-- Whether a function has no variadic parameter but dots at the end. -/
def FunctionDecl.DotsLast (f : FunctionDecl) : Prop :=
  (∀ p ∈ f.params.dropLast, p.variadic = false) ∧ ∀ p ∈ f.params.getLast?, p.variadic = true → p = .dots

/-- Whether the functions of a program have no variadic parameter but dots at the end. -/
def Program.DotsLast (p : Program) : Prop :=
  ∀ f ∈ p.functions, f.DotsLast

/-- A token of a kind whose text says nothing. -/
def mark (kind : TokenKind) : Token :=
  .plain kind "" 0

theorem exists_isCall_of_args {args : List Expr} (h : args = [] ∨ ∃ ts, AreArgs ts args) (callee : String)
    (line : Nat) : ∃ ts, IsCall ts { callee, args, line } := by
  rcases h with rfl | ⟨ts, h⟩
  · exact ⟨[.plain .ident callee line, mark .leftParen, mark .rightParen], .empty rfl rfl rfl⟩
  · exact ⟨.plain .ident callee line :: mark .leftParen :: (ts ++ [mark .rightParen]), .args rfl rfl h rfl⟩

mutual

theorem exists_isFactor : (e : Expr) → ∃ ts, IsFactor ts e
  | .literal ty text => ⟨[{ kind := .intLiteral, lexeme := text, line := 0, literalType := some ty }], .literal .int⟩
  | .name name => ⟨[.plain .ident name 0], .name rfl⟩
  | .binary op l r => by
    obtain ⟨left, hl⟩ := exists_isFactor l
    obtain ⟨right, hr⟩ := exists_isFactor r
    have sum {kind : TokenKind} (hop : SumOp kind op) : ∃ ts, IsFactor ts (.binary op l r) :=
      ⟨mark .leftParen :: (left ++ mark kind :: right ++ [mark .rightParen]),
        .paren rfl (.more (.product (.factor hl)) hop (.factor hr)) rfl⟩
    have product {kind : TokenKind} (hop : ProductOp kind op) : ∃ ts, IsFactor ts (.binary op l r) :=
      ⟨mark .leftParen :: (left ++ mark kind :: right ++ [mark .rightParen]),
        .paren rfl (.product (.more (.factor hl) hop hr)) rfl⟩
    cases op with
    | add => exact sum .plus
    | sub => exact sum .minus
    | mul => exact product .star
    | div => exact product .slash
    | rem => exact product .percent
  | .call callee args line => by
    obtain ⟨ts, h⟩ := exists_isCall_of_args (exists_areArgs args) callee line
    exact ⟨ts, .call h⟩

theorem exists_areArgs : (es : List Expr) → es = [] ∨ ∃ ts, AreArgs ts es
  | [] => .inl rfl
  | e :: es => by
    obtain ⟨ts, h⟩ := exists_isFactor e
    rcases exists_areArgs es with rfl | ⟨rest, hrest⟩
    · exact .inr ⟨ts, .one (.product (.factor h))⟩
    · exact .inr ⟨ts ++ mark .comma :: rest, .more (.product (.factor h)) rfl hrest⟩

end

theorem exists_isSum (e : Expr) : ∃ ts, IsSum ts e := by
  obtain ⟨ts, h⟩ := exists_isFactor e
  exact ⟨ts, .product (.factor h)⟩

theorem exists_isType (ty : Prim) : ∃ ts, IsType ts ty :=
  ⟨[{ kind := .typeName, lexeme := "", line := 0, literalType := some ty }], .base rfl rfl⟩

theorem exists_isTyped (name : String) (ty : Prim) : ∃ ts, IsTyped ts name ty := by
  obtain ⟨ts, h⟩ := exists_isType ty
  exact ⟨.plain .ident name 0 :: mark .colon :: ts, .mk rfl rfl h⟩

theorem exists_isBinding (b : Binding) : ∃ ts, IsBinding ts b := by
  obtain ⟨typed, htyped⟩ := exists_isTyped b.name b.ty
  obtain ⟨init, hinit⟩ := exists_isSum b.init
  exact ⟨.plain .letWord "" b.line :: (typed ++ mark .equals :: (init ++ [mark .semicolon])),
    .mk rfl htyped rfl hinit rfl⟩

mutual

theorem exists_isStmt : (s : Stmt) → ∃ ts, IsStmt ts s
  | .bind b => by
    obtain ⟨ts, h⟩ := exists_isBinding b
    exact ⟨ts, .bind h⟩
  | .ret value line => by
    obtain ⟨ts, h⟩ := exists_isSum value
    exact ⟨.plain .returnWord "" line :: (ts ++ [mark .semicolon]), .ret rfl h rfl⟩
  | .call site => by
    obtain ⟨ts, h⟩ := exists_isCall_of_args (exists_areArgs site.args) site.callee site.line
    exact ⟨ts ++ [mark .semicolon], .call h rfl⟩
  | .block body => by
    obtain ⟨ts, h⟩ := exists_areStmts body
    exact ⟨mark .leftBrace :: (ts ++ [mark .rightBrace]), .block rfl h rfl⟩

theorem exists_areStmts : (ss : List Stmt) → ∃ ts, AreStmts ts ss
  | [] => ⟨[], .nil⟩
  | s :: ss => by
    obtain ⟨ts, h⟩ := exists_isStmt s
    obtain ⟨rest, hrest⟩ := exists_areStmts ss
    exact ⟨ts ++ rest, .cons h hrest⟩

end

theorem exists_areParams (p : Param) : (ps : List Param) → (∀ q ∈ (p :: ps).dropLast, q.variadic = false) →
    (∀ q ∈ (p :: ps).getLast?, q.variadic = true → q = .dots) → ∃ ts, AreParams ts (p :: ps)
  | [], _, hlast => by
    obtain ⟨name, ty, variadic⟩ := p
    cases variadic with
    | true =>
      have hdots : Param.mk name ty true = .dots := hlast _ rfl rfl
      rw [hdots]
      exact ⟨[mark .ellipsis], .dots rfl⟩
    | false =>
      obtain ⟨ts, h⟩ := exists_isTyped name ty
      exact ⟨ts, .one h⟩
  | q :: ps, hfixed, hlast => by
    obtain ⟨name, ty, variadic⟩ := p
    cases hfixed _ List.mem_cons_self
    obtain ⟨ts, h⟩ := exists_isTyped name ty
    obtain ⟨rest, hrest⟩ := exists_areParams q ps (fun r hr => hfixed r (List.mem_cons_of_mem _ hr)) hlast
    exact ⟨ts ++ mark .comma :: rest, .more h rfl hrest⟩

theorem exists_isFunction {f : FunctionDecl} (h : f.DotsLast) : ∃ ts, IsFunction ts f := by
  obtain ⟨name, external, params, ret, body, line⟩ := f
  have hparams : ∃ ts, IsParamList ts params := by
    cases params with
    | nil => exact ⟨[], .empty⟩
    | cons p ps =>
      obtain ⟨ts, hts⟩ := exists_areParams p ps h.1 h.2
      exact ⟨ts, .params hts⟩
  have hlinkage : ∃ ts, IsLinkage ts external := by
    cases external with
    | false => exact ⟨[], .internal⟩
    | true => exact ⟨[mark .externWord], .external rfl⟩
  have hbody : ∃ ts, IsBody ts body := by
    cases body with
    | none => exact ⟨[mark .semicolon], .none rfl⟩
    | some ss =>
      obtain ⟨ts, hts⟩ := exists_areStmts ss
      exact ⟨mark .leftBrace :: (ts ++ [mark .rightBrace]), .some rfl hts rfl⟩
  obtain ⟨params, hparams⟩ := hparams
  obtain ⟨linkage, hlinkage⟩ := hlinkage
  obtain ⟨type, htype⟩ := exists_isType ret
  obtain ⟨rest, hbody⟩ := hbody
  exact ⟨.plain .fnWord "" line :: (linkage ++ .plain .ident name 0 :: mark .leftParen ::
      (params ++ mark .rightParen :: mark .arrow :: (type ++ rest))),
    .mk rfl hlinkage rfl rfl hparams rfl rfl htype hbody⟩

/-- **Every program is spelled by some tokens** if it has dots at the end of parameters only. -/
theorem exists_isProgram {p : Program} (h : p.DotsLast) : ∃ ts, IsProgram ts p := by
  obtain ⟨globals, functions⟩ := p
  induction globals with
  | cons b globals ih =>
    obtain ⟨ts, hts⟩ := exists_isBinding b
    obtain ⟨rest, hrest⟩ := ih h
    exact ⟨ts ++ rest, .global hts hrest⟩
  | nil =>
    induction functions with
    | nil => exact ⟨[], .nil⟩
    | cons f functions ih =>
      obtain ⟨ts, hts⟩ := exists_isFunction (h f List.mem_cons_self)
      obtain ⟨rest, hrest⟩ := ih fun g hg => h g (List.mem_cons_of_mem _ hg)
      exact ⟨ts ++ rest, .function hts hrest⟩

end SsaCompiler.Lang
