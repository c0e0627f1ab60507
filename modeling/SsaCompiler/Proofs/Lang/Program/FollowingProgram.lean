import SsaCompiler.Proofs.Lang.Program.Completeness
import SsaCompiler.Proofs.Lang.Program.FollowingExpression

/-!
# Programs by position

Types, parameters, statements and declarations are read by position as by cursors.  Where the source has a loop, the
invariant says what the cursor reader makes of the results so far and of the place reached:

    parameters      paramList from the start = those read ++ paramList from here        (follows_params)
    blocks          blocks from the start = blocks with those read, from here           (compoundFollows)
    declarations    declarations from the start = those read ++ declarations from here  (ends_declarations)

Blocks in blocks are a recursion by position and a stack by cursors, so that a block is compared under every stack of
blocks around it.
-/

namespace SsaCompiler.Lang

namespace Tape

variable {tape : Tape} {n p : Nat}

/-! ## Types and parameters -/

/-- The pointer to a type that has one. -/
theorem follows_pointer (base : Prim) (line : Nat) (pointer : Prim) :
    tape.Follows n
      (match pointer with
        | .invalid => Walk.fail (.noPointerTo base) line
        | pointer => pure pointer)
      (match pointer with
        | .invalid => Reader.fail (.noPointerTo base) line
        | pointer => pure pointer) := by
  split
  · exact follows_fail _ _
  · exact follows_pure _

theorem follows_type : tape.Follows n (Walk.type tape.row) Reader.type := by
  refine (follows_expect _).bind fun t => ?_
  cases t.literalType with
  | none => exact follows_fail _ _
  | some base =>
    refine (follows_skips (by decide)).bind fun star => ?_
    cases star with
    | false => exact follows_pure _
    | true => exact follows_pointer base t.line base.pointerTo

/-- One more parameter, and whether another follows. -/
theorem follows_paramRound (ps : List Param) :
    tape.Follows n (Walk.paramRound tape.row ps)
      (Reader.param >>= fun (p, more) => pure (if more then .inl (ps ++ [p]) else .inr (ps ++ [p]))) := by
  unfold Reader.param
  rw [bind_assoc]
  refine (follows_skips (by decide)).bind fun dots => ?_
  cases dots with
  | true =>
    simp only [if_true, bind_assoc, pure_bind]
    exact (follows_expect _).bind fun _ => follows_pure _
  | false =>
    simp only [Bool.false_eq_true, if_false, bind_assoc]
    refine (follows_expect _).bind fun name => (follows_expect _).bind fun _ => follows_type.bind fun ty =>
      (follows_skips (by decide)).bind fun comma => ?_
    cases comma with
    | true => exact follows_pure _
    | false =>
      simp only [Bool.false_eq_true, if_false, bind_assoc]
      exact (follows_expect _).bind fun _ => follows_pure _

theorem paramList_error {c : Cursor} {e : SyntaxError} (h : Reader.param c = .error e) :
    Reader.paramList c = .error e := by
  rw [Reader.paramList]
  split
  · next h' =>
    cases h'.symm.trans h
    rfl
  · next h' => cases h'.symm.trans h

theorem follows_params : tape.Follows n (Walk.params tape.row n) Reader.params := by
  refine (follows_skips (by decide)).bind fun close => ?_
  cases close with
  | true => exact follows_pure _
  | false =>
  intro p hp hn
  show tape.Ends (Reader.paramList (tape.cursor p)) (Walk.loop (Walk.paramRound tape.row) n []) p fun ps q =>
    p ≤ q ∧ Reader.paramList (tape.cursor p) = .ok (ps, tape.cursor q)
  refine ends_loop (I := fun ps q => p ≤ q ∧ Reader.paramList (tape.cursor p) =
    (Reader.paramList (tape.cursor q)).map fun r => (ps ++ r.1, r.2)) ?_ hp ⟨Nat.le_refl p, ?_⟩ hn
  · rintro ps q hq ⟨hle, hsame⟩
    rw [hsame]
    refine ((follows_paramRound ps).ends_map hq (Nat.lt_of_le_of_lt (Nat.sub_le_sub_left hle _) hn)).imp ?_ ?_
    · intro e he
      rw [paramList_error he]
      rfl
    · rintro r q' ⟨-, ⟨a, more⟩, hparam, rfl⟩
      have hlt := lt_of_reads Reader.reads_param hparam
      rw [Reader.paramList_eq hparam]
      cases more with
      | true =>
        refine ⟨hlt, Nat.le_trans hle (Nat.le_of_lt hlt), ?_⟩
        cases Reader.paramList (tape.cursor q') with
        | error e => rfl
        | ok qs =>
          show Except.ok (ps ++ a :: qs.1, qs.2) = Except.ok (ps ++ [a] ++ qs.1, qs.2)
          rw [List.append_assoc]
          rfl
      | false => exact ⟨Nat.le_trans hle (Nat.le_of_lt hlt), rfl⟩
  · cases Reader.paramList (tape.cursor p) <;> rfl

/-! ## Statements -/

/-- A binding after its first word. -/
theorem ends_binding (hp : p < tape.size) (hn : tape.size - p < n) :
    tape.Ends (Reader.binding (tape.tokenAt p).line (tape.cursor (p + 1))) (Walk.binding tape.row n) p fun b p' =>
      p < p' ∧ Reader.binding (tape.tokenAt p).line (tape.cursor (p + 1)) = .ok (b, tape.cursor p') := by
  refine (ends_advance hp).bind ?_
  rintro _ _ - ⟨rfl, rfl⟩
  have hfollows : tape.Follows n _ (Reader.binding (tape.tokenAt p).line) :=
    (follows_expect _).bind fun name => (follows_expect _).bind fun _ => follows_type.bind fun ty =>
      (follows_expect _).bind fun _ => (follows_expression n).bind fun init => follows_pure _
  refine (hfollows (p + 1) hp (by omega)).mono ?_
  rintro b p' ⟨hle, h⟩
  exact ⟨hle, h⟩

/-- A call and its semicolon. -/
theorem ends_callStmt (hp : p + 1 < tape.size) (hn : tape.size - p < n) :
    tape.Ends
      ((Reader.call (tape.tokenAt p).lexeme (tape.tokenAt p).line (tape.cursor (p + 2))).bind fun r =>
        (Reader.expect .callEnd r.2).map fun q => (Stmt.call r.1, q.2))
      (Walk.call tape.row n (Walk.expression tape.row n .argument) >>= fun site =>
        Walk.expect tape.row .callEnd >>= fun _ => pure (.call site)) p fun s p' => p < p' ∧
        ((Reader.call (tape.tokenAt p).lexeme (tape.tokenAt p).line (tape.cursor (p + 2))).bind fun r =>
          (Reader.expect .callEnd r.2).map fun q => (Stmt.call r.1, q.2)) = .ok (s, tape.cursor p') := by
  refine ((ends_call hp hn).imp ?_ fun _ _ => id).bind ?_
  · intro e he
    rw [he]
    rfl
  rintro site p' hp' ⟨hlt, hsite⟩
  rw [hsite]
  refine (ends_expect hp' ?_).bind ?_
  · intro e he
    show (Reader.expect .callEnd (tape.cursor p')).map _ = _
    rw [he]
    rfl
  · rintro t p'' - ⟨rfl, hend, hlt', rfl⟩
    refine ends_pure ⟨by omega, ?_⟩
    show (Reader.expect .callEnd (tape.cursor p')).map _ = _
    rw [expect_eq_ok _ hlt' hend]
    rfl

/-- A name with neither a parenthesis nor an equals sign after it. -/
theorem simple_stray (hp : p < tape.size) (hk : (tape.tokenAt p).kind = .ident)
    (hparen : (tape.tokenAt (p + 1)).kind ≠ .leftParen) (hequals : (tape.tokenAt (p + 1)).kind ≠ .equals) :
    Reader.simple (tape.cursor p) =
      .error ⟨.strayStatement (tape.tokenAt p).describe, (tape.tokenAt p).line⟩ := by
  unfold Reader.simple
  rw [cursor_eq hp]
  simp only [hk]
  obtain heq | hlt : p + 1 = tape.size ∨ p + 1 < tape.size := Nat.eq_or_lt_of_le hp
  · rw [heq, cursor_size]
  · rw [cursor_eq hlt]
    dsimp only
    split
    · next h => exact absurd h hparen
    · next h => exact absurd h hequals
    · rfl

/-- A statement that is no block. -/
theorem ends_simple {compound : Walk (List Stmt)} (hp : p < tape.size) (hn : tape.size - p < n)
    (hblock : (tape.tokenAt p).kind ≠ .leftBrace) :
    tape.Ends (Reader.simple (tape.cursor p)) (Walk.statement tape.row n compound) p fun s p' =>
      p < p' ∧ Reader.simple (tape.cursor p) = .ok (s, tape.cursor p') := by
  refine (ends_peek (Nat.le_of_lt hp)).bind ?_
  rintro _ p - ⟨rfl, rfl⟩
  split
  · next hk =>
    have hsimple : Reader.simple (tape.cursor p) = (Reader.expression (tape.cursor (p + 1))).map fun r =>
        (.ret r.1 (tape.tokenAt p).line, r.2) := by
      unfold Reader.simple
      rw [cursor_eq hp]
      simp only [hk]
      rfl
    rw [hsimple]
    refine (ends_advance hp).bind ?_
    rintro _ _ - ⟨-, rfl⟩
    exact (follows_expression n (p + 1) hp (by omega)).map _
  · next hk =>
    have hsimple : Reader.simple (tape.cursor p) =
        (Reader.binding (tape.tokenAt p).line (tape.cursor (p + 1))).map fun r => (.bind r.1, r.2) := by
      unfold Reader.simple
      rw [cursor_eq hp]
      simp only [hk]
      rfl
    rw [hsimple]
    exact (ends_binding hp hn).map _
  · next hk =>
    refine (ends_peek_one hp).bind ?_
    rintro _ p - ⟨rfl, rfl⟩
    split
    · next hparen =>
      have hlt := lt_size (by decide) (Nat.succ_le_of_lt hp) hparen
      have hsimple : Reader.simple (tape.cursor p) =
          (Reader.call (tape.tokenAt p).lexeme (tape.tokenAt p).line (tape.cursor (p + 2))).bind fun r =>
            (Reader.expect .callEnd r.2).map fun q => (.call r.1, q.2) := by
        unfold Reader.simple
        rw [cursor_eq hp, cursor_eq hlt]
        simp only [hk, hparen]
        rfl
      rw [hsimple]
      exact ends_callStmt hlt hn
    · next hequals =>
      have hlt := lt_size (by decide) (Nat.succ_le_of_lt hp) hequals
      refine ends_fail ?_
      unfold Reader.simple
      rw [cursor_eq hp, cursor_eq hlt]
      simp only [hk, hequals]
    · next hparen hequals => exact ends_fail (simple_stray hp hk hparen hequals)
  · next hk => exact absurd hk hblock
  · next hreturn hlet hident _ =>
    refine ends_fail ?_
    unfold Reader.simple
    rw [cursor_eq hp]
    dsimp only
    split
    · next h => exact absurd h hreturn
    · next h => exact absurd h hlet
    · next h => exact absurd h hident
    · rfl

/-! ## Blocks -/

/-- Where reading goes on after a block: with the statement that it is in the block around it, if there is one. -/
def closedBlock (outer : List (List Stmt)) (ss : List Stmt) (c : Cursor) : Except SyntaxError (List Stmt × Cursor) :=
  match outer with
  | [] => .ok (ss, c)
  | around :: outer => Reader.blocks outer (.block ss :: around) c

/-- Whether a block that is read by position is read by cursors. -/
def CompoundFollows (tape : Tape) (n : Nat) (compound : Walk (List Stmt)) : Prop :=
  ∀ (outer : List (List Stmt)) (p : Nat), p < tape.size → tape.size - p < n →
    tape.Ends (Reader.blocks outer [] (tape.cursor (p + 1))) compound p fun ss p' =>
      p < p' ∧ Reader.blocks outer [] (tape.cursor (p + 1)) = closedBlock outer ss (tape.cursor p')

section Blocks

variable {outer : List (List Stmt)} {done : List Stmt}

theorem blocks_size :
    Reader.blocks outer done (tape.cursor tape.size) = .error ⟨.openBlock, (tape.cursor tape.size).last⟩ := by
  rw [cursor_size, Reader.blocks]

theorem blocks_rightBrace (hp : p < tape.size) (hk : (tape.tokenAt p).kind = .rightBrace) :
    Reader.blocks outer done (tape.cursor p) = closedBlock outer done.reverse (tape.cursor (p + 1)) := by
  rw [cursor_eq hp]
  cases outer with
  | nil => exact Reader.blocks_end hk
  | cons around outer => exact Reader.blocks_close hk

theorem blocks_leftBrace (hp : p < tape.size) (hk : (tape.tokenAt p).kind = .leftBrace) :
    Reader.blocks outer done (tape.cursor p) = Reader.blocks (done :: outer) [] (tape.cursor (p + 1)) := by
  rw [cursor_eq hp]
  exact Reader.blocks_open hk

theorem blocks_simple_ok {s : Stmt} {c : Cursor} (hp : p < tape.size) (hopen : (tape.tokenAt p).kind ≠ .leftBrace)
    (hclose : (tape.tokenAt p).kind ≠ .rightBrace) (h : Reader.simple (tape.cursor p) = .ok (s, c)) :
    Reader.blocks outer done (tape.cursor p) = Reader.blocks outer (s :: done) c := by
  rw [cursor_eq hp] at h ⊢
  exact Reader.blocks_simple hopen hclose h

theorem blocks_simple_error {e : SyntaxError} (hp : p < tape.size) (hopen : (tape.tokenAt p).kind ≠ .leftBrace)
    (hclose : (tape.tokenAt p).kind ≠ .rightBrace) (h : Reader.simple (tape.cursor p) = .error e) :
    Reader.blocks outer done (tape.cursor p) = .error e := by
  rw [cursor_eq hp] at h ⊢
  rw [Reader.blocks]
  split
  · next hnil => cases hnil
  · next hcons =>
    cases hcons
    split
    · exact absurd ‹_› hclose
    · exact absurd ‹_› hopen
    · split
      · next herror =>
        cases h.symm.trans herror
        rfl
      · next hok => cases h.symm.trans hok

/-- A statement, be it a block or not. -/
theorem ends_statement {compound : Walk (List Stmt)} (hcompound : tape.CompoundFollows n compound)
    (hp : p < tape.size) (hn : tape.size - p < n) (hclose : (tape.tokenAt p).kind ≠ .rightBrace) :
    tape.Ends (Reader.blocks outer done (tape.cursor p)) (Walk.statement tape.row n compound) p fun s p' =>
      p < p' ∧ Reader.blocks outer done (tape.cursor p) = Reader.blocks outer (s :: done) (tape.cursor p') := by
  by_cases hopen : (tape.tokenAt p).kind = .leftBrace
  · unfold Walk.statement
    refine (ends_peek (Nat.le_of_lt hp)).bind ?_
    rintro _ p - ⟨rfl, rfl⟩
    simp only [hopen]
    rw [blocks_leftBrace hp hopen]
    refine (hcompound (done :: outer) p hp hn).bind ?_
    rintro ss p' - ⟨hlt, h⟩
    exact ends_pure ⟨hlt, h⟩
  · refine (ends_simple hp hn hopen).imp (fun e => blocks_simple_error hp hopen hclose) ?_
    rintro s p' ⟨hlt, h⟩
    exact ⟨hlt, blocks_simple_ok hp hopen hclose h⟩

/-- A round of a block reads a statement, or the closing brace. -/
theorem ends_statementRound {compound : Walk (List Stmt)} (hcompound : tape.CompoundFollows n compound)
    {ss : List Stmt} (hp : p ≤ tape.size) (hn : tape.size - p < n) :
    tape.Ends (Reader.blocks outer ss.reverse (tape.cursor p))
      (Walk.statementRound tape.row (Walk.statement tape.row n compound) ss) p fun r p' => p < p' ∧
        match r with
        | .inl ss' => Reader.blocks outer ss.reverse (tape.cursor p) =
            Reader.blocks outer ss'.reverse (tape.cursor p')
        | .inr ss' => Reader.blocks outer ss.reverse (tape.cursor p) = closedBlock outer ss' (tape.cursor p') := by
  refine (ends_check _ hp).bind ?_
  rintro _ p - ⟨rfl, rfl⟩
  by_cases hclose : (tape.tokenAt p).kind = .rightBrace
  · have hlt := lt_size (by decide) hp hclose
    rw [decide_eq_true hclose, if_pos rfl]
    refine (ends_advance hlt).bind ?_
    rintro _ _ - ⟨-, rfl⟩
    refine ends_pure ⟨Nat.lt_succ_self p, ?_⟩
    rw [blocks_rightBrace hlt hclose, List.reverse_reverse]
  rw [decide_eq_false hclose, if_neg Bool.false_ne_true]
  refine (ends_check _ hp).bind ?_
  rintro _ p - ⟨rfl, rfl⟩
  obtain rfl | hlt := Nat.eq_or_lt_of_le hp
  · rw [decide_eq_true ((tokenAt_kind_iff hp).mpr rfl), if_pos rfl]
    refine (ends_previous hp).bind ?_
    rintro _ p - ⟨rfl, rfl⟩
    exact ends_fail blocks_size
  rw [decide_eq_false (tokenAt_ne hlt), if_neg Bool.false_ne_true]
  refine (ends_statement hcompound hlt hn hclose).bind ?_
  rintro s p' - ⟨hlt', h⟩
  refine ends_pure ⟨hlt', ?_⟩
  show Reader.blocks outer ss.reverse (tape.cursor p) = Reader.blocks outer (ss ++ [s]).reverse (tape.cursor p')
  rw [h, List.reverse_append]
  rfl

/-- **Blocks are read as by cursors**, however deep they are. -/
theorem compoundFollows (tape : Tape) (n : Nat) : tape.CompoundFollows n (Walk.compound tape.row n) := by
  induction n with
  | zero => exact fun _ _ _ hn => absurd hn (Nat.not_lt_zero _)
  | succ n ih =>
    intro outer p hp hn
    rw [Walk.compound]
    refine (ends_advance hp).bind ?_
    rintro _ _ - ⟨-, rfl⟩
    refine ends_loop (I := fun ss q => p < q ∧ Reader.blocks outer [] (tape.cursor (p + 1)) =
      Reader.blocks outer ss.reverse (tape.cursor q)) ?_ hp ⟨Nat.lt_succ_self p, rfl⟩ (by omega)
    rintro ss q hq ⟨hlt, hsame⟩
    rw [hsame]
    refine (ends_statementRound ih hq (by omega)).mono ?_
    rintro (ss' | ss') q' ⟨hlt', h⟩
    · exact ⟨hlt', Nat.lt_trans hlt hlt', h⟩
    · exact ⟨Nat.lt_trans hlt hlt', h⟩

end Blocks

/-! ## Declarations -/

/-- What a body without a semicolon is. -/
theorem braces_apply (name : String) (c : Cursor) :
    (do
      if ← Reader.skips .leftBrace then return some (← Reader.block)
      else fun c => .error ⟨.noBody name c.describe, c.line⟩ : Reader (Option (List Stmt))) c =
      match c.skip? .leftBrace with
      | some c => (Reader.blocks [] [] c).map fun r => (some r.1, r.2)
      | none => .error ⟨.noBody name c.describe, c.line⟩ := by
  show (Reader.skips .leftBrace c).bind _ = _
  unfold Reader.skips
  cases c.skip? .leftBrace <;> rfl

theorem follows_body (name : String) : tape.Follows n (Walk.body tape.row n name) (Reader.body name) := by
  refine (follows_skips (by decide)).bind fun semicolon => ?_
  cases semicolon with
  | true => exact follows_pure _
  | false =>
  intro p hp hn
  simp only [Bool.false_eq_true, if_false]
  rw [braces_apply, cursor_skip? (by decide) hp, cursor_line hp, cursor_describe hp]
  refine (ends_check _ hp).bind ?_
  rintro _ p - ⟨rfl, rfl⟩
  by_cases hopen : (tape.tokenAt p).kind = .leftBrace
  · have hlt := lt_size (by decide) hp hopen
    rw [decide_eq_true hopen, if_pos rfl, if_pos hopen]
    dsimp only
    refine ((compoundFollows tape n [] p hlt hn).map some).mono ?_
    rintro ss p' ⟨hlt', h⟩
    exact ⟨Nat.le_of_lt hlt', h⟩
  · rw [decide_eq_false hopen, if_neg Bool.false_ne_true, if_neg hopen]
    refine (ends_peek hp).bind ?_
    rintro _ p - ⟨rfl, rfl⟩
    exact ends_fail rfl

/-- A function declaration after its first word. -/
theorem ends_function (hp : p < tape.size) (hn : tape.size - p < n) :
    tape.Ends (Reader.function (tape.tokenAt p).line (tape.cursor (p + 1))) (Walk.function tape.row n) p fun f p' =>
      p < p' ∧ Reader.function (tape.tokenAt p).line (tape.cursor (p + 1)) = .ok (f, tape.cursor p') := by
  refine (ends_advance hp).bind ?_
  rintro _ _ - ⟨rfl, rfl⟩
  have hfollows : tape.Follows n _ (Reader.function (tape.tokenAt p).line) :=
    (follows_skips (by decide)).bind fun external => (follows_expect _).bind fun name =>
      (follows_expect _).bind fun _ => follows_params.bind fun params => (follows_expect _).bind fun _ =>
        follows_type.bind fun ret => (follows_body name.lexeme).bind fun body => follows_pure _
  refine (hfollows (p + 1) hp (by omega)).mono ?_
  rintro f p' ⟨hle, h⟩
  exact ⟨hle, h⟩

theorem declarations_size : Reader.declarations (tape.cursor tape.size) = .ok [] := by
  rw [cursor_size, Reader.declarations]
  rfl

theorem declarations_ok {d : Declaration} {c : Cursor} (hp : p < tape.size)
    (h : Reader.declaration (tape.cursor p) = .ok (d, c)) :
    Reader.declarations (tape.cursor p) = (Reader.declarations c).map (d :: ·) := by
  refine Reader.declarations_eq ?_ h
  rw [cursor_eq hp]
  exact List.cons_ne_nil _ _

theorem declarations_error {e : SyntaxError} (hp : p < tape.size)
    (h : Reader.declaration (tape.cursor p) = .error e) :
    Reader.declarations (tape.cursor p) = .error e := by
  have hrest : (tape.cursor p).rest ≠ [] := by
    rw [cursor_eq hp]
    exact List.cons_ne_nil _ _
  rw [Reader.declarations, if_neg hrest]
  split
  · next herror =>
    cases h.symm.trans herror
    rfl
  · next hok => cases h.symm.trans hok

/-- What a round of the program comes to: it has read a declaration, or found the end. -/
def DeclarationTo (tape : Tape) (ds : List Declaration) (p : Nat) : List Declaration ⊕ List Declaration → Nat → Prop
  | .inl ds', p' => p < p' ∧ ∃ d, ds' = ds ++ [d] ∧
      Reader.declarations (tape.cursor p) = (Reader.declarations (tape.cursor p')).map (d :: ·)
  | .inr ds', p' => ds' = ds ∧ p = tape.size ∧ p' = p

theorem ends_declaration {α : Type} {x : Walk α} {y : Except SyntaxError (α × Cursor)} {k : α → Declaration}
    {ds : List Declaration} (hp : p < tape.size)
    (hx : tape.Ends y x p fun a p' => p < p' ∧ y = .ok (a, tape.cursor p'))
    (hread : Reader.declaration (tape.cursor p) = y.map fun r => (k r.1, r.2)) :
    tape.Ends (Reader.declarations (tape.cursor p)) (x >>= fun a => pure (.inl (ds ++ [k a]))) p
      (tape.DeclarationTo ds p) := by
  refine (hx.imp ?_ fun _ _ => id).bind ?_
  · rintro e rfl
    exact declarations_error hp hread
  · rintro a p' - ⟨hlt, rfl⟩
    exact ends_pure ⟨hlt, k a, rfl, declarations_ok hp hread⟩

/-- A round of the program reads a declaration, or finds the end. -/
theorem ends_declarationRound {ds : List Declaration} (hp : p ≤ tape.size) (hn : tape.size - p < n) :
    tape.Ends (Reader.declarations (tape.cursor p)) (Walk.declarationRound tape.row n ds) p
      (tape.DeclarationTo ds p) := by
  refine (ends_peek hp).bind ?_
  rintro _ p - ⟨rfl, rfl⟩
  split
  · next hk =>
    have hlt := lt_size (by decide) hp hk
    refine ends_declaration hlt (ends_function hlt hn) ?_
    unfold Reader.declaration
    rw [cursor_eq hlt]
    simp only [hk]
    rfl
  · next hk =>
    have hlt := lt_size (by decide) hp hk
    refine ends_declaration hlt (ends_binding hlt hn) ?_
    unfold Reader.declaration
    rw [cursor_eq hlt]
    simp only [hk]
    rfl
  · next hk => exact ends_pure ⟨rfl, (tokenAt_kind_iff hp).mp hk, rfl⟩
  · next hfn hlet hmark =>
    have hlt := Nat.lt_of_le_of_ne hp fun heq => hmark ((tokenAt_kind_iff hp).mpr heq)
    refine ends_fail (declarations_error hlt ?_)
    unfold Reader.declaration
    rw [cursor_eq hlt]
    dsimp only
    split
    · next h => exact absurd h hlet
    · next h => exact absurd h hfn
    · rfl

/-- **The declarations of a row are read as by cursors**, and reading has then come to the first end mark. -/
theorem ends_declarations (hn : tape.size < n) :
    tape.Ends (Reader.declarations (tape.cursor 0)) (Walk.loop (Walk.declarationRound tape.row n) n []) 0 fun ds q =>
      q = tape.size ∧ Reader.declarations (tape.cursor 0) = .ok ds := by
  refine ends_loop (I := fun ds q => Reader.declarations (tape.cursor 0) =
    (Reader.declarations (tape.cursor q)).map (ds ++ ·)) ?_ (Nat.zero_le _) ?_ hn
  · intro ds q hq hsame
    rw [hsame]
    refine (ends_declarationRound hq (Nat.lt_of_le_of_lt (Nat.sub_le _ _) hn)).imp ?_ ?_
    · intro e he
      rw [he]
      rfl
    · rintro (ds' | ds') q' h
      · obtain ⟨hlt, d, rfl, hmore⟩ := h
        refine ⟨hlt, ?_⟩
        rw [hmore]
        cases Reader.declarations (tape.cursor q') with
        | error e => rfl
        | ok rest =>
          show Except.ok (ds ++ d :: rest) = Except.ok (ds ++ [d] ++ rest)
          rw [List.append_assoc]
          rfl
      · obtain ⟨rfl, rfl, rfl⟩ := h
        refine ⟨rfl, ?_⟩
        rw [declarations_size]
        exact congrArg Except.ok (List.append_nil _)
  · cases Reader.declarations (tape.cursor 0) <;> rfl

end Tape

end SsaCompiler.Lang
