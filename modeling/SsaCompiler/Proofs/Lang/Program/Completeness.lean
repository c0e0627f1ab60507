import SsaCompiler.Proofs.Lang.Program.ExpressionCompleteness

/-!
# Every spelling of a program is read

Each reader accepts what the grammar derives in its place and stops before the tokens that follow:

    Accepts r ts rest a      before `rest`, `r` reads `ts` and gives `a`
    IsProgram ts p → Program.ofTokens (ts ++ [end mark]) = .ok p            (ofTokens_of_isProgram)

Statements are read one after the other onto the stack of the innermost open block (readsStmts_stmts).
-/

namespace SsaCompiler.Lang

namespace Reader

open Context (run_sum run_args run_semicolon finish_of_applies notCall_cons)
open Lang.Frame (below_nil)

/-- Whether a reader reads some tokens before others and gives a result. -/
def Accepts {α : Type} (r : Reader α) (ts rest : List Token) (a : α) : Prop :=
  ∀ last endLine, ∃ last', r ⟨ts ++ rest, last, endLine⟩ = .ok (a, ⟨rest, last', endLine⟩)

section Sequences

variable {α β : Type} {r : Reader α} {f : α → Reader β} {a : α} {b : β} {ts us rest : List Token} {t : Token}

theorem accepts_pure : Accepts (pure a) [] rest a :=
  fun last _ => ⟨last, rfl⟩

theorem Accepts.bind (hr : Accepts r ts (us ++ rest) a) (hf : Accepts (f a) us rest b) :
    Accepts (r >>= f) (ts ++ us) rest b := by
  intro last endLine
  obtain ⟨last', h⟩ := hr last endLine
  obtain ⟨last'', h'⟩ := hf last' endLine
  refine ⟨last'', ?_⟩
  rw [List.append_assoc]
  simp only [Bind.bind, StateT.bind, h, Except.bind]
  exact h'

theorem Accepts.map (hr : Accepts r ts rest a) (g : α → β) : Accepts (r >>= fun a => pure (g a)) ts rest (g a) := by
  have hpure : Accepts (pure (g a) : Reader β) [] rest (g a) := accepts_pure
  have := Accepts.bind (f := fun a => pure (g a)) hr hpure
  rwa [List.append_nil] at this

/-- Reading on after the token of a place. -/
theorem Accepts.after_expect {place : Place} {f : Token → Reader β} (ht : t.kind = place.kind)
    (hf : Accepts (f t) us rest b) : Accepts (expect place >>= f) (t :: us) rest b := by
  have hr : Accepts (expect place) [t] (us ++ rest) t := fun last endLine =>
    ⟨t.line, by simp [expect, ht, Cursor.after]⟩
  exact hr.bind hf

theorem accepts_skips {kind : TokenKind} (ht : t.kind = kind) : Accepts (skips kind) [t] rest true :=
  fun last endLine => ⟨t.line, by simp [skips, Cursor.skip?, ht, Cursor.after]⟩

theorem accepts_skips_none {kind : TokenKind} (ht : ∀ t ∈ rest.head?, t.kind ≠ kind) :
    Accepts (skips kind) [] rest false := by
  intro last endLine
  cases rest with
  | nil => exact ⟨last, rfl⟩
  | cons t more =>
    have hkind : t.kind ≠ kind := ht t rfl
    exact ⟨last, by simp [skips, Cursor.skip?, hkind]⟩

/-- Reading on after a token that may be there. -/
theorem Accepts.after_skips {kind : TokenKind} {f : Bool → Reader β} (ht : t.kind = kind)
    (hf : Accepts (f true) us rest b) : Accepts (skips kind >>= f) (t :: us) rest b :=
  (accepts_skips ht).bind hf

/-- Reading on without it. -/
theorem Accepts.unless_skips {kind : TokenKind} {f : Bool → Reader β} (ht : ∀ t ∈ (us ++ rest).head?, t.kind ≠ kind)
    (hf : Accepts (f false) us rest b) : Accepts (skips kind >>= f) us rest b :=
  (accepts_skips_none ht).bind hf

/-- Reading the tokens after the first with another reader. -/
theorem Accepts.after_first {s : Reader β} (g : α → β) (hr : Accepts r us rest a)
    (hs : ∀ us last endLine, s ⟨t :: us, last, endLine⟩ = (r ⟨us, t.line, endLine⟩).map fun (a, c) => (g a, c)) :
    Accepts s (t :: us) rest (g a) := by
  intro last endLine
  obtain ⟨last', h⟩ := hr t.line endLine
  refine ⟨last', ?_⟩
  rw [List.cons_append, hs, h]
  rfl

end Sequences

/-! ## Expressions and types -/

theorem accepts_expression {ts : List Token} {e : Expr} {semicolon : Token} (h : IsSum ts e)
    (hsemicolon : semicolon.kind = .semicolon) (rest : List Token) : Accepts expression (ts ++ [semicolon]) rest e := by
  intro last endLine
  refine ⟨semicolon.line, ?_⟩
  rw [List.append_assoc, List.cons_append, List.nil_append]
  obtain ⟨ps, os, last', happlies, hrun⟩ :=
    run_sum h .statement (.empty (Cursor.line ⟨ts ++ semicolon :: rest, last, endLine⟩)) last (semicolon :: rest)
      (below_nil _) (notCall_cons hsemicolon (by decide) _)
  exact hrun.trans (run_semicolon hsemicolon (finish_of_applies happlies))

/-- A call is read from after its opening parenthesis on. -/
theorem accepts_call {ts : List Token} {site : Call} (h : IsCall ts site) (rest : List Token) :
    ∃ t o us, ts = t :: o :: us ∧ t.kind = .ident ∧ o.kind = .leftParen ∧
      Accepts (call t.lexeme t.line) us rest site := by
  cases h with
  | @empty t o c ht ho hc =>
    refine ⟨t, o, [c], rfl, ht, ho, fun last endLine => ⟨c.line, ?_⟩⟩
    simp [call, Cursor.skip?, hc, Cursor.after]
  | @args t o c ts es ht ho h hc =>
    refine ⟨t, o, ts ++ [c], rfl, ht, ho, fun last endLine => ⟨c.line, ?_⟩⟩
    obtain ⟨q, qs, hts, hq⟩ := exists_head_args h
    have hq : q.kind ≠ .rightParen := TokenKind.ne_rightParen_of_startsOperand hq
    have hskip : Cursor.skip? .rightParen ⟨ts ++ [c] ++ rest, last, endLine⟩ = none := by
      rw [hts]
      exact if_neg hq
    have hargs := run_args endLine h (.callGoal { callee := t.lexeme, args := [], line := t.line })
      (Cursor.line ⟨ts ++ [c] ++ rest, last, endLine⟩) last hc rfl rest
    simp only [call, hskip]
    rw [List.append_assoc, List.cons_append, List.nil_append] at hargs ⊢
    exact hargs

theorem accepts_type {ts rest : List Token} {ty : Prim} (h : IsType ts ty) (hrest : ∀ t ∈ rest.head?, t.kind ≠ .star) :
    Accepts type ts rest ty := by
  cases h with
  | base ht hty =>
    refine .after_expect ht ?_
    rw [hty]
    exact .unless_skips hrest accepts_pure
  | @pointer t star base ht hty hstar hp =>
    refine .after_expect ht ?_
    rw [hty]
    refine .after_skips hstar ?_
    rw [if_pos rfl]
    split
    · exact absurd ‹_› hp
    · exact accepts_pure

/-! ## Parameters and bindings -/

theorem head?_cons_ne {t : Token} {kind other : TokenKind} (ht : t.kind = kind) (hkind : kind ≠ other)
    (rest : List Token) : ∀ u ∈ (t :: rest).head?, u.kind ≠ other := by
  rintro _ ⟨⟩
  rw [ht]
  exact hkind

theorem accepts_binding {ts : List Token} {b : Binding} (h : IsBinding ts b) (rest : List Token) :
    ∃ t us, ts = t :: us ∧ t.kind = .letWord ∧ Accepts (binding t.line) us rest b := by
  cases h with
  | @mk word equals semicolon typed init name ty e hword htyped hequals hinit hsemicolon =>
    refine ⟨word, _, rfl, hword, ?_⟩
    cases htyped with
    | @mk name colon type ty hname hcolon hty =>
      refine .after_expect hname (.after_expect hcolon ?_)
      refine (accepts_type hty (head?_cons_ne hequals (by decide) _)).bind (.after_expect hequals ?_)
      exact (accepts_expression hinit hsemicolon rest).map fun init => (⟨name.lexeme, ty, init, word.line⟩ : Binding)

/-- A parameter with the token after it: a comma if another follows, or else the closing parenthesis. -/
theorem accepts_param {ts : List Token} {name : String} {ty : Prim} (h : IsTyped ts name ty) {t : Token}
    (more : Bool) (ht : t.kind = if more then .comma else .rightParen) (rest : List Token) :
    Accepts param (ts ++ [t]) rest (.named name ty, more) := by
  cases h with
  | @mk name colon type ty hname hcolon hty =>
    refine .unless_skips (head?_cons_ne hname (by decide) _) (.after_expect hname (.after_expect hcolon ?_))
    cases more with
    | true =>
      refine (accepts_type hty (head?_cons_ne ht (by decide) _)).bind (.after_skips ht ?_)
      exact accepts_pure
    | false =>
      refine (accepts_type hty (head?_cons_ne ht (by decide) _)).bind ?_
      refine .unless_skips (head?_cons_ne ht (by decide) _) (.after_expect ht ?_)
      exact accepts_pure

theorem accepts_dots {t c : Token} {rest : List Token} (ht : t.kind = .ellipsis) (hc : c.kind = .rightParen) :
    Accepts param [t, c] rest (.dots, false) :=
  .after_skips ht (.after_expect hc accepts_pure)

theorem paramList_eq {c c' : Cursor} {p : Param} {more : Bool} (h : param c = .ok ((p, more), c')) :
    paramList c = if more then (paramList c').map fun (ps, c) => (p :: ps, c) else .ok ([p], c') := by
  rw [paramList]
  split
  · rename_i heq
    cases h.symm.trans heq
  · rename_i heq
    cases h.symm.trans heq
    rfl

theorem accepts_paramList_last {ts rest : List Token} {p : Param} (h : Accepts param ts rest (p, false)) :
    Accepts paramList ts rest [p] := by
  intro last endLine
  obtain ⟨last', hparam⟩ := h last endLine
  exact ⟨last', paramList_eq hparam⟩

theorem accepts_paramList {ts rest : List Token} {ps : List Param} (h : AreParams ts ps) {c : Token}
    (hc : c.kind = .rightParen) : Accepts paramList (ts ++ [c]) rest ps := by
  induction h with
  | dots ht => exact accepts_paramList_last (accepts_dots ht hc)
  | one h => exact accepts_paramList_last (accepts_param h false hc rest)
  | @more ts us comma name ty ps h hcomma _ ih =>
    intro last endLine
    obtain ⟨last', hparam⟩ := accepts_param h true hcomma (us ++ [c] ++ rest) last endLine
    obtain ⟨last'', hlist⟩ := ih last' endLine
    refine ⟨last'', ?_⟩
    have htokens : ts ++ comma :: us ++ [c] ++ rest = ts ++ [comma] ++ (us ++ [c] ++ rest) := by simp
    rw [htokens, paramList_eq hparam, if_pos rfl, hlist]
    rfl

theorem head?_params_ne {ts : List Token} {ps : List Param} (h : AreParams ts ps) (rest : List Token) :
    ∀ t ∈ (ts ++ rest).head?, t.kind ≠ .rightParen := by
  have htyped {ts : List Token} {name : String} {ty : Prim} (h : IsTyped ts name ty) (rest : List Token) :
      ∀ t ∈ (ts ++ rest).head?, t.kind ≠ .rightParen := by
    cases h with
    | mk hname => exact head?_cons_ne hname (by decide) _
  cases h with
  | dots h => exact head?_cons_ne h (by decide) _
  | one h => exact htyped h rest
  | more h =>
    rw [List.append_assoc]
    exact htyped h _

theorem accepts_params {ts rest : List Token} {ps : List Param} (h : IsParamList ts ps) {c : Token}
    (hc : c.kind = .rightParen) : Accepts params (ts ++ [c]) rest ps := by
  cases h with
  | empty => exact .after_skips hc accepts_pure
  | params h =>
    refine .unless_skips ?_ (accepts_paramList h hc)
    rw [List.append_assoc]
    exact head?_params_ne h _

/-! ## Statements -/

/-- Tokens that are read as a statement of the innermost open block. -/
def ReadsStmts (ts : List Token) (ss : List Stmt) : Prop :=
  ∀ outer done rest last endLine, ∃ last',
    blocks outer done ⟨ts ++ rest, last, endLine⟩ = blocks outer (ss.reverse ++ done) ⟨rest, last', endLine⟩

section Blocks

variable {outer : List (List Stmt)} {around done : List Stmt} {c' : Cursor} {t : Token} {rest : List Token}
  {last endLine : Nat}

theorem blocks_simple {s : Stmt} (hopen : t.kind ≠ .leftBrace) (hclose : t.kind ≠ .rightBrace)
    (h : simple ⟨t :: rest, last, endLine⟩ = .ok (s, c')) :
    blocks outer done ⟨t :: rest, last, endLine⟩ = blocks outer (s :: done) c' := by
  rw [blocks]
  split
  · rename_i hnil
    cases hnil
  · rename_i hcons
    cases hcons
    split
    · exact absurd ‹_› hclose
    · exact absurd ‹_› hopen
    · split
      · rename_i heq
        cases h.symm.trans heq
      · rename_i heq
        cases h.symm.trans heq
        rfl

theorem blocks_open (ht : t.kind = .leftBrace) :
    blocks outer done ⟨t :: rest, last, endLine⟩ = blocks (done :: outer) [] ⟨rest, t.line, endLine⟩ := by
  rw [blocks]
  simp only [ht]
  rfl

theorem blocks_close (ht : t.kind = .rightBrace) :
    blocks (around :: outer) done ⟨t :: rest, last, endLine⟩ =
      blocks outer (closed done :: around) ⟨rest, t.line, endLine⟩ := by
  rw [blocks]
  simp only [ht]
  rfl

theorem blocks_end (ht : t.kind = .rightBrace) :
    blocks [] done ⟨t :: rest, last, endLine⟩ = .ok (done.reverse, ⟨rest, t.line, endLine⟩) := by
  rw [blocks]
  simp only [ht]
  rfl

end Blocks

theorem readsStmts_simple {ts : List Token} {s : Stmt} (h : ∀ rest, Accepts simple ts rest s) {t : Token}
    {us : List Token} (hts : ts = t :: us) (hopen : t.kind ≠ .leftBrace) (hclose : t.kind ≠ .rightBrace) :
    ReadsStmts ts [s] := by
  intro outer done rest last endLine
  obtain ⟨last', hread⟩ := h rest last endLine
  rw [hts] at hread ⊢
  exact ⟨last', blocks_simple hopen hclose hread⟩

theorem accepts_simple_ret {ts : List Token} {word semicolon : Token} {e : Expr} (hword : word.kind = .returnWord)
    (h : IsSum ts e) (hsemicolon : semicolon.kind = .semicolon) (rest : List Token) :
    Accepts simple (word :: (ts ++ [semicolon])) rest (.ret e word.line) :=
  .after_first (Stmt.ret · word.line) (accepts_expression h hsemicolon rest) fun us last endLine => by
    unfold simple
    simp only [hword, Cursor.after]

theorem accepts_simple_bind {word : Token} {ts rest : List Token} {b : Binding} (hword : word.kind = .letWord)
    (h : Accepts (binding word.line) ts rest b) : Accepts simple (word :: ts) rest (.bind b) :=
  .after_first Stmt.bind h fun us last endLine => by
    unfold simple
    simp only [hword, Cursor.after]

theorem accepts_simple_call {t o semicolon : Token} {ts rest : List Token} {site : Call} (ht : t.kind = .ident)
    (ho : o.kind = .leftParen) (h : Accepts (call t.lexeme t.line) ts (semicolon :: rest) site)
    (hsemicolon : semicolon.kind = .semicolon) : Accepts simple (t :: o :: (ts ++ [semicolon])) rest (.call site) := by
  intro last endLine
  obtain ⟨last', hread⟩ := h o.line endLine
  refine ⟨semicolon.line, ?_⟩
  rw [List.cons_append, List.cons_append, List.append_assoc, List.cons_append, List.nil_append]
  unfold simple
  simp [ht, ho, Cursor.after, hread, expect, hsemicolon, Place.kind, Bind.bind, Except.bind]

mutual

theorem readsStmts_stmt {ts : List Token} {s : Stmt} : IsStmt ts s → ReadsStmts ts [s]
  | .bind h => by
    obtain ⟨t, us, rfl, ht, -⟩ := accepts_binding h []
    refine readsStmts_simple (fun rest => ?_) rfl (by simp [ht]) (by simp [ht])
    obtain ⟨_, _, ⟨⟩, ht, haccepts⟩ := accepts_binding h rest
    exact accepts_simple_bind ht haccepts
  | .ret hword h hsemicolon =>
    readsStmts_simple (accepts_simple_ret hword h hsemicolon) rfl (by simp [hword]) (by simp [hword])
  | @IsStmt.call semicolon ts site h hsemicolon => by
    obtain ⟨t, o, us, rfl, ht, ho, -⟩ := accepts_call h []
    refine readsStmts_simple (fun rest => ?_) rfl (by simp [ht]) (by simp [ht])
    obtain ⟨_, _, _, ⟨⟩, ht, ho, haccepts⟩ := accepts_call h (semicolon :: rest)
    exact accepts_simple_call ht ho haccepts hsemicolon
  | @IsStmt.block o c ts ss ho h hc => by
    intro outer done rest last endLine
    obtain ⟨last', hstmts⟩ := readsStmts_stmts h (done :: outer) [] (c :: rest) o.line endLine
    refine ⟨c.line, ?_⟩
    rw [List.cons_append, List.append_assoc, List.cons_append, List.nil_append, blocks_open ho]
    refine hstmts.trans ?_
    rw [blocks_close hc, List.append_nil, closed, List.reverse_reverse]
    rfl

theorem readsStmts_stmts {ts : List Token} {ss : List Stmt} : AreStmts ts ss → ReadsStmts ts ss
  | .nil, outer, done, rest, last, endLine => ⟨last, rfl⟩
  | .cons h hs, outer, done, rest, last, endLine => by
    obtain ⟨last', hstmt⟩ := readsStmts_stmt h outer done _ last endLine
    obtain ⟨last'', hstmts⟩ := readsStmts_stmts hs outer _ rest last' endLine
    refine ⟨last'', ?_⟩
    rw [List.append_assoc, hstmt]
    refine hstmts.trans ?_
    simp

end

theorem accepts_block {ts : List Token} {ss : List Stmt} (h : AreStmts ts ss) {c : Token} (hc : c.kind = .rightBrace)
    (rest : List Token) : Accepts block (ts ++ [c]) rest ss := by
  intro last endLine
  obtain ⟨last', hstmts⟩ := readsStmts_stmts h [] [] (c :: rest) last endLine
  refine ⟨c.line, ?_⟩
  rw [List.append_assoc, List.cons_append, List.nil_append]
  refine hstmts.trans ?_
  rw [blocks_end hc, List.append_nil, List.reverse_reverse]

/-! ## Declarations -/

theorem accepts_body {ts : List Token} {stmts : Option (List Stmt)} (h : IsBody ts stmts) (name : String)
    (rest : List Token) : Accepts (body name) ts rest stmts := by
  cases h with
  | none h => exact .after_skips h accepts_pure
  | some ho h hc =>
    refine .unless_skips (head?_cons_ne ho (by decide) _) (.after_skips ho ?_)
    exact (accepts_block h hc rest).map some

theorem head?_body_ne {ts : List Token} {stmts : Option (List Stmt)} (h : IsBody ts stmts) (rest : List Token) :
    ∀ t ∈ (ts ++ rest).head?, t.kind ≠ .star := by
  cases h with
  | none h => exact head?_cons_ne h (by decide) _
  | some ho => exact head?_cons_ne ho (by decide) _

theorem accepts_linkage {ts rest : List Token} {external : Bool} (h : IsLinkage ts external)
    (hrest : ∀ t ∈ rest.head?, t.kind ≠ .externWord) : Accepts (skips .externWord) ts rest external := by
  cases h with
  | internal => exact accepts_skips_none hrest
  | external h => exact accepts_skips h

theorem accepts_function {ts : List Token} {f : FunctionDecl} (h : IsFunction ts f) (rest : List Token) :
    ∃ t us, ts = t :: us ∧ t.kind = .fnWord ∧ Accepts (function t.line) us rest f := by
  cases h with
  | @mk word name o c arrow linkage params type stmts external ps ret body hword hlinkage hname ho hparams hc harrow
      htype hbody =>
    refine ⟨word, _, rfl, hword, ?_⟩
    have htokens : params ++ c :: arrow :: (type ++ stmts) = params ++ [c] ++ arrow :: (type ++ stmts) := by simp
    rw [htokens]
    refine (accepts_linkage hlinkage (head?_cons_ne hname (by decide) _)).bind ?_
    refine .after_expect hname (.after_expect ho ((accepts_params hparams hc).bind (.after_expect harrow ?_)))
    refine (accepts_type htype (head?_body_ne hbody rest)).bind ?_
    exact (accepts_body hbody name.lexeme rest).map
      fun body => (⟨name.lexeme, external, ps, ret, body, word.line⟩ : FunctionDecl)

theorem accepts_global {ts : List Token} {b : Binding} (h : IsBinding ts b) (rest : List Token) :
    Accepts declaration ts rest (.global b) := by
  obtain ⟨t, us, rfl, ht, haccepts⟩ := accepts_binding h rest
  refine .after_first Declaration.global haccepts fun us last endLine => ?_
  unfold declaration
  simp only [ht, Cursor.after]

theorem accepts_functionDecl {ts : List Token} {f : FunctionDecl} (h : IsFunction ts f) (rest : List Token) :
    Accepts declaration ts rest (.function f) := by
  obtain ⟨t, us, rfl, ht, haccepts⟩ := accepts_function h rest
  refine .after_first Declaration.function haccepts fun us last endLine => ?_
  unfold declaration
  simp only [ht, Cursor.after]

theorem declarations_eq {c c' : Cursor} {d : Declaration} (hc : c.rest ≠ []) (h : declaration c = .ok (d, c')) :
    declarations c = (declarations c').map (d :: ·) := by
  rw [declarations, if_neg hc]
  split
  · rename_i heq
    cases h.symm.trans heq
  · rename_i heq
    cases h.symm.trans heq
    rfl

/-- The declarations of a row of tokens are its first and those of the others. -/
theorem declarations_append {ts : List Token} {d : Declaration} (h : ∀ rest, Accepts declaration ts rest d)
    (hts : ts ≠ []) (rest : List Token) (last endLine : Nat) :
    ∃ last', declarations ⟨ts ++ rest, last, endLine⟩ = (declarations ⟨rest, last', endLine⟩).map (d :: ·) := by
  obtain ⟨last', hread⟩ := h rest last endLine
  exact ⟨last', declarations_eq (by simp [hts]) hread⟩

theorem declarations_of_isProgram {ts : List Token} {p : Program} (h : IsProgram ts p) (last endLine : Nat) :
    ∃ ds, declarations ⟨ts, last, endLine⟩ = .ok ds ∧ Program.ofDeclarations ds = p := by
  induction h generalizing last with
  | nil => exact ⟨[], by rw [declarations]; rfl, rfl⟩
  | @global ts rest b p h _ ih =>
    have hts : ts ≠ [] := by cases h; nofun
    obtain ⟨last', hread⟩ := declarations_append (accepts_global h) hts rest last endLine
    obtain ⟨ds, hds, rfl⟩ := ih last'
    exact ⟨.global b :: ds, by rw [hread, hds]; rfl, rfl⟩
  | @function ts rest f p h _ ih =>
    have hts : ts ≠ [] := by cases h; nofun
    obtain ⟨last', hread⟩ := declarations_append (accepts_functionDecl h) hts rest last endLine
    obtain ⟨ds, hds, rfl⟩ := ih last'
    exact ⟨.function f :: ds, by rw [hread, hds]; rfl, rfl⟩

end Reader

/-- A row of tokens up to its first end mark. -/
theorem ofTokens_marked {ts rest : List Token} {eof last : Token} (hts : ∀ t ∈ ts, t.kind ≠ .endMark)
    (heof : eof.kind = .endMark) (hlast : (ts ++ eof :: rest).getLast? = some last) (hmark : last.kind = .endMark) :
    Cursor.ofTokens (ts ++ eof :: rest) = .ok ⟨ts, (ts.headD eof).line, eof.line⟩ := by
  have htake : (ts ++ eof :: rest).takeWhile (fun t => !decide (t.kind = .endMark)) = ts := by
    rw [List.takeWhile_append_of_pos fun t ht => by simp [hts t ht]]
    simp [heof]
  have hfind : (ts ++ eof :: rest).find? (fun t => decide (t.kind = .endMark)) = some eof := by
    have hnone : ts.find? (fun t => decide (t.kind = .endMark)) = none :=
      List.find?_eq_none.mpr fun t ht => by simp [hts t ht]
    simp [List.find?_append, hnone, heof]
  unfold Cursor.ofTokens
  simp only [hlast, if_pos hmark, htake, hfind]
  cases ts <;> rfl

/-- A row of tokens and its end mark. -/
theorem ofTokens_append {ts : List Token} {eof : Token} (hts : ∀ t ∈ ts, t.kind ≠ .endMark)
    (heof : eof.kind = .endMark) :
    ∃ last, Cursor.ofTokens (ts ++ [eof]) = .ok ⟨ts, last, eof.line⟩ :=
  ⟨_, ofTokens_marked hts heof List.getLast?_concat heof⟩

/-- **What spells a program is read as that program.** -/
theorem ofTokens_of_isProgram {ts : List Token} {p : Program} (h : IsProgram ts p) {eof : Token}
    (heof : eof.kind = .endMark) : Program.ofTokens (ts ++ [eof]) = .ok p := by
  obtain ⟨last, hcursor⟩ := ofTokens_append (apart_program h).inside heof
  obtain ⟨ds, hds, rfl⟩ := Reader.declarations_of_isProgram h last eof.line
  unfold Program.ofTokens
  rw [hcursor]
  simp only [Bind.bind, Except.bind, hds]
  rfl

end SsaCompiler.Lang
