import SsaCompiler.Lang.Program.Expression

/-!
# Reading programs

Declarations, types and statements are read in the order of their grammar:

    declaration   let NAME : TYPE = EXPR ;
                  fn [extern] NAME ( PARAMS ) -> TYPE ;
                  fn [extern] NAME ( PARAMS ) -> TYPE BLOCK
    PARAMS        nothing, or NAME : TYPE and ... separated by commas, with ... at most once and last
    TYPE          a type name, or a type name and a star
    BLOCK         statements in braces
    statement     let NAME : TYPE = EXPR ;      return EXPR ;      NAME ( ARGS ) ;      BLOCK

The first error ends the reading.  Every loop reads a token each time round.
-/

namespace SsaCompiler.Lang

namespace Reader

/-! ## Types and bindings -/

/-- A type name with an optional star. -/
def type : Reader Prim := do
  let t ← expect .typeName
  match t.literalType with
  | none => fail (.notAType t.lexeme) t.line
  | some base =>
    if ← skips .star then
      match base.pointerTo with
      | .invalid => fail (.noPointerTo base) t.line
      | pointer => pure pointer
    else pure base

/-- A binding after its `let`. -/
def binding (line : Nat) : Reader Binding := do
  let name ← expect .boundName
  let _ ← expect .boundColon
  let ty ← type
  let _ ← expect .boundEquals
  let init ← expression
  pure { name := name.lexeme, ty, init, line }

/-! ## Parameters -/

/-- One parameter, and whether another follows. -/
def param : Reader (Param × Bool) := do
  if ← skips .ellipsis then
    let _ ← expect .paramsEnd
    pure (.dots, false)
  else
    let name ← expect .paramName
    let _ ← expect .paramColon
    let ty ← type
    if ← skips .comma then pure (.named name.lexeme ty, true)
    else
      let _ ← expect .paramsClose
      pure (.named name.lexeme ty, false)

theorem reads_type : Reads 1 type := by
  refine (reads_expect _).bind (n := 0) fun t => ?_
  split
  · exact reads_fail _ _ _
  · refine (reads_skips _).bind (n := 0) fun b => ?_
    split
    · split
      · exact reads_fail _ _ _
      · exact reads_pure _
    · exact reads_pure _

theorem reads_param : Reads 1 param := by
  refine (reads_skips _).bind (n := 1) fun b => ?_
  split
  · exact (reads_expect _).bind fun _ => reads_pure _
  · refine (reads_expect _).bind (n := 0) fun name => ?_
    refine ((reads_expect _).bind (n := 0) fun _ => ?_).mono (Nat.zero_le _)
    refine (reads_type.bind (n := 0) fun ty => ?_).mono (Nat.zero_le _)
    refine (reads_skips _).bind (n := 0) fun b => ?_
    split
    · exact reads_pure _
    · exact ((reads_expect _).bind fun _ => reads_pure _).mono (Nat.zero_le _)

/-- The parameters after the opening parenthesis, at least one. -/
def paramList (c : Cursor) : Except SyntaxError (List Param × Cursor) :=
  match h : param c with
  | .error e => .error e
  | .ok ((p, more), c') =>
    if more then
      have : c'.rest.length < c.rest.length := reads_param c _ c' h
      (paramList c').map fun (ps, c) => (p :: ps, c)
    else .ok ([p], c')
termination_by c.rest.length

/-- The parameters after the opening parenthesis, with the closing one. -/
def params : Reader (List Param) := do
  if ← skips .rightParen then pure [] else paramList

/-! ## Statements -/

/-- A statement that is no block. -/
def simple : Reader Stmt := fun c =>
  match c.rest with
  | [] => .error ⟨.strayStatement c.describe, c.line⟩
  | t :: rest =>
    match t.kind with
    | .returnWord => (expression (c.after t rest)).map fun (e, c) => (.ret e t.line, c)
    | .letWord => (binding t.line (c.after t rest)).map fun (b, c) => (.bind b, c)
    | .ident =>
      match rest with
      | p :: rest =>
        match p.kind with
        | .leftParen => do
          let (site, c) ← call t.lexeme t.line (c.after p rest)
          let (_, c) ← expect .callEnd c
          .ok (.call site, c)
        | .equals => .error ⟨.assignment t.lexeme, t.line⟩
        | _ => .error ⟨.strayStatement t.describe, t.line⟩
      | [] => .error ⟨.strayStatement t.describe, t.line⟩
    | _ => .error ⟨.strayStatement t.describe, t.line⟩

theorem reads_binding (line : Nat) : Reads 1 (binding line) := by
  refine (reads_expect _).bind (n := 0) fun name => ?_
  refine ((reads_expect _).bind (n := 0) fun _ => ?_).mono (Nat.zero_le _)
  refine (reads_type.bind (n := 0) fun ty => ?_).mono (Nat.zero_le _)
  refine ((reads_expect _).bind (n := 0) fun _ => ?_).mono (Nat.zero_le _)
  exact (reads_expression.bind fun _ => reads_pure _).mono (Nat.zero_le _)

theorem map_eq_ok {ε α β : Type} {x : Except ε α} {f : α → β} {b : β} :
    x.map f = .ok b ↔ ∃ a, x = .ok a ∧ f a = b := by
  cases x <;> simp [Except.map]

theorem reads_simple : Reads 1 simple := by
  intro c s c' h
  unfold simple at h
  split at h
  · cases h
  · rename_i t rest hc
    rw [hc, List.length_cons]
    split at h
    · obtain ⟨p, hp, h⟩ := map_eq_ok.mp h
      have := reads_expression _ p.1 p.2 hp
      cases h
      simp only [Cursor.after] at this
      omega
    · obtain ⟨p, hp, h⟩ := map_eq_ok.mp h
      have := reads_binding _ _ p.1 p.2 hp
      cases h
      simp only [Cursor.after] at this
      omega
    · split at h
      · split at h
        · obtain ⟨p, hp, h⟩ := bind_eq_ok.mp h
          obtain ⟨q, hq, h⟩ := bind_eq_ok.mp h
          have h1 := reads_call _ _ _ p.1 p.2 hp
          have h2 := reads_expect _ _ q.1 q.2 hq
          cases h
          simp only [Cursor.after] at h1
          simp only [List.length_cons]
          omega
        · cases h
        · cases h
      · cases h
    · cases h

/-- The block of statements read last first. -/
def closed (done : List Stmt) : Stmt :=
  .block done.reverse

/-- The rest of a block up to the closing brace of the outermost.  `done` holds the statements of the
innermost open block and `outer` those of the blocks around it, both with the last first. -/
def blocks (outer : List (List Stmt)) (done : List Stmt) (c : Cursor) :
    Except SyntaxError (List Stmt × Cursor) :=
  match hc : c.rest with
  | [] => .error ⟨.openBlock, c.last⟩
  | t :: rest =>
    have : (c.after t rest).rest.length < c.rest.length := by simp [hc, Cursor.after]
    match t.kind with
    | .rightBrace =>
      match outer with
      | [] => .ok (done.reverse, c.after t rest)
      | around :: outer => blocks outer (closed done :: around) (c.after t rest)
    | .leftBrace => blocks (done :: outer) [] (c.after t rest)
    | _ =>
      match h : simple c with
      | .error e => .error e
      | .ok (s, c') =>
        have : c'.rest.length < c.rest.length := reads_simple c _ c' h
        blocks outer (s :: done) c'
termination_by c.rest.length

/-- The statements of a block after its opening brace, with the closing one. -/
def block : Reader (List Stmt) :=
  blocks [] []

/-! ## Declarations -/

/-- The end of a function declaration: a semicolon, or a body. -/
def body (name : String) : Reader (Option (List Stmt)) := do
  if ← skips .semicolon then pure none
  else if ← skips .leftBrace then return some (← block)
  else fun c => .error ⟨.noBody name c.describe, c.line⟩

/-- A function declaration after its `fn`. -/
def function (line : Nat) : Reader FunctionDecl := do
  let external ← skips .externWord
  let name ← expect .functionName
  let _ ← expect .paramsOpen
  let params ← params
  let _ ← expect .returnArrow
  let ret ← type
  let body ← body name.lexeme
  pure { name := name.lexeme, external, params, ret, body, line }

end Reader

/-- A declaration of the top level. -/
inductive Declaration where
  | global (binding : Binding)
  | function (decl : FunctionDecl)

/-- The program of a row of declarations: the globals and the functions, each in order. -/
def Program.ofDeclarations (ds : List Declaration) : Program where
  globals := ds.filterMap fun
    | .global b => some b
    | .function _ => none
  functions := ds.filterMap fun
    | .global _ => none
    | .function f => some f

namespace Reader

/-- A declaration. -/
def declaration : Reader Declaration := fun c =>
  match c.rest with
  | [] => .error ⟨.notADeclaration c.describe, c.line⟩
  | t :: rest =>
    match t.kind with
    | .letWord => (binding t.line (c.after t rest)).map fun (b, c) => (.global b, c)
    | .fnWord => (function t.line (c.after t rest)).map fun (f, c) => (.function f, c)
    | _ => .error ⟨.notADeclaration t.describe, t.line⟩

theorem reads_paramList : Reads 1 paramList := by
  intro c ps c' h
  fun_induction paramList c generalizing ps c' with
  | case1 => cases h
  | case2 c p c1 hp _ ih =>
    obtain ⟨q, hq, h⟩ := map_eq_ok.mp h
    have := ih q.1 q.2 hq
    cases h
    omega
  | case3 c p more c1 hp _ =>
    cases h
    exact reads_param c _ _ hp

theorem reads_params : Reads 0 params := by
  refine (reads_skips _).bind (n := 0) fun b => ?_
  split
  · exact reads_pure _
  · exact reads_paramList.mono (Nat.zero_le _)

theorem reads_block : Reads 1 block := by
  have main : ∀ outer done c ss c', blocks outer done c = .ok (ss, c') →
      c'.rest.length < c.rest.length := by
    intro outer done c ss c' h
    fun_induction blocks outer done c with
    | case1 | case5 => cases h
    | case2 _ _ _ _ _ hlt =>
      cases h
      exact hlt
    | case3 _ _ _ _ _ hlt _ _ _ ih => exact Nat.lt_trans (ih h) hlt
    | case4 _ _ _ _ _ _ hlt _ ih => exact Nat.lt_trans (ih h) hlt
    | case6 _ _ _ _ _ _ _ _ _ _ hlt _ _ ih => exact Nat.lt_trans (ih h) hlt
  exact fun c ss c' h => main [] [] c ss c' h

theorem reads_body (name : String) : Reads 0 (body name) := by
  refine (reads_skips _).bind (n := 0) fun b => ?_
  split
  · exact reads_pure _
  · refine (reads_skips _).bind (n := 0) fun b => ?_
    split
    · exact (reads_block.bind fun _ => reads_pure _).mono (Nat.zero_le _)
    · intro c a c' h
      cases h

theorem reads_function (line : Nat) : Reads 1 (function line) := by
  refine ((reads_skips _).bind (n := 1) fun _ => ?_)
  refine (reads_expect _).bind (n := 0) fun name => ?_
  refine ((reads_expect _).bind (n := 0) fun _ => ?_).mono (Nat.zero_le _)
  refine reads_params.bind (n := 0) fun ps => ?_
  refine ((reads_expect _).bind (n := 0) fun _ => ?_).mono (Nat.zero_le _)
  refine (reads_type.bind (n := 0) fun ty => ?_).mono (Nat.zero_le _)
  exact (reads_body _).bind fun _ => reads_pure _

theorem reads_declaration : Reads 1 declaration := by
  intro c d c' h
  unfold declaration at h
  split at h
  · cases h
  · rename_i t rest hc
    rw [hc, List.length_cons]
    split at h
    · obtain ⟨p, hp, h⟩ := map_eq_ok.mp h
      have := reads_binding _ _ p.1 p.2 hp
      cases h
      simp only [Cursor.after] at this
      omega
    · obtain ⟨p, hp, h⟩ := map_eq_ok.mp h
      have := reads_function _ _ p.1 p.2 hp
      cases h
      simp only [Cursor.after] at this
      omega
    · cases h

/-- The declarations up to the end of the input. -/
def declarations (c : Cursor) : Except SyntaxError (List Declaration) :=
  if c.rest = [] then .ok []
  else
    match h : declaration c with
    | .error e => .error e
    | .ok (d, c') =>
      have : c'.rest.length < c.rest.length := reads_declaration c _ c' h
      (declarations c').map (d :: ·)
termination_by c.rest.length

end Reader

/-- The program that a row of tokens spells. -/
def Program.ofTokens (tokens : List Token) : Except SyntaxError Program := do
  let c ← Cursor.ofTokens tokens
  return .ofDeclarations (← Reader.declarations c)

end SsaCompiler.Lang
