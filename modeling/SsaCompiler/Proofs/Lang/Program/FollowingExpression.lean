import SsaCompiler.Proofs.Lang.Program.Following
import SsaCompiler.Proofs.Lang.Program.Stacks

/-!
# Expressions by position

By position, an expression, a call and its arguments are a recursion with a loop on each level.  By cursors, all of
them are one loop over a context that says where reading goes on.  They are compared under every context that ends
the expression as told, and calls under every context that collects their arguments:

    CallFollows          a call is read as in each context that collects its arguments
    ArgumentFollows      an argument is read as in each such context, up to a comma or the closing parenthesis
    RoundTo              what a round of the loop comes to: a frame to go on with, or one that is finished

Arguments of a depth make calls of that depth (`callFollows`), and these make arguments of the next
(`argumentFollows`).
-/

namespace SsaCompiler.Lang

open Context (run goOn)

/-- Whether a context ends its expression as told. -/
def Walk.Ending.Suits {g : Goal} : Walk.Ending → Context g → Prop
  | .statement, context => context.semicolon?.isSome ∧ context.comma? = none ∧ context.close? = none
  | .argument, context => context.semicolon? = none ∧ context.comma?.isSome ∧ context.close?.isSome

/-- Contexts that collect the arguments of a call, and where reading goes on after them. -/
structure Context.Collects {g : Goal} (args : Call → Context g) (closed : Call → Closed g) : Prop where
  comma : ∀ site, (args site).comma? = some fun e => args (site.addArg e)
  close : ∀ site, (args site).close? = some fun e => closed (site.addArg e)
  semicolon : ∀ site, (args site).semicolon? = none

theorem Context.collects_callGoal : Context.Collects .callGoal fun site => .goal site :=
  ⟨fun _ => rfl, fun _ => rfl, fun _ => rfl⟩

theorem Context.collects_operand {g : Goal} (f : Frame) (outer : Context g) :
    Context.Collects (.operand · f outer) fun site => .resume (f.operand site.toExpr) outer :=
  ⟨fun _ => rfl, fun _ => rfl, fun _ => rfl⟩

/-- A call whose arguments do not begin with their end. -/
theorem Context.run_callOpen {g : Goal} {context : Context g} {f : Frame} {endLine last : Nat} {t o : Token}
    {rest : List Token} (ht : t.kind = .ident) (ho : o.kind = .leftParen)
    (hrest : ∀ q ∈ rest.head?, q.kind ≠ .rightParen) :
    run endLine context f last (t :: o :: rest) =
      run endLine (.operand { callee := t.lexeme, args := [], line := t.line } f context)
        (.empty ((rest.head?.map (·.line)).getD endLine)) o.line rest := by
  cases rest with
  | nil =>
    rw [run.eq_def]
    simp [Token.literal?, BinaryOp.ofToken?, ht, ho]
  | cons q rest => exact Context.run_call ht ho (hrest q rfl)

namespace Tape

variable {tape : Tape} {g : Goal} {context : Context g} {f : Frame} {p : Nat}

variable (tape) in
/-- Reading an expression by cursors from a place. -/
def reading (context : Context g) (f : Frame) (p : Nat) : Except SyntaxError (g.Result × Cursor) :=
  run tape.mark.line context f (tape.cursor p).last (tape.cursor p).rest

theorem reading_eq (hp : p < tape.size) :
    tape.reading context f p =
      run tape.mark.line context f (tape.cursor p).last (tape.tokenAt p :: (tape.cursor (p + 1)).rest) := by
  unfold reading
  rw [cursor_eq hp]

theorem eq_tokenAt (hp : p < tape.size) {q : Token} (hq : q ∈ (tape.cursor (p + 1)).rest.head?) :
    q = tape.tokenAt (p + 1) := by
  obtain heq | hlt : p + 1 = tape.size ∨ p + 1 < tape.size := Nat.eq_or_lt_of_le hp
  · rw [heq, cursor_size] at hq
    cases hq
  · rw [cursor_eq hlt] at hq
    exact (Option.some.inj hq).symm

/-- A token that an expression cannot go on with. -/
theorem reading_stray (hp : p < tape.size) (hliteral : ∀ e, (tape.tokenAt p).literal? ≠ some e)
    (hop : ∀ op, BinaryOp.ofToken? (tape.tokenAt p).kind ≠ some op) (hopen : (tape.tokenAt p).kind ≠ .leftParen)
    (hclose : (tape.tokenAt p).kind ≠ .rightParen) (hident : (tape.tokenAt p).kind ≠ .ident)
    (hcomma : (tape.tokenAt p).kind = .comma → context.comma? = none)
    (hsemicolon : (tape.tokenAt p).kind = .semicolon → context.semicolon? = none) :
    tape.reading context f p =
      .error ⟨.strayToken (tape.tokenAt p).describe, (tape.tokenAt p).line⟩ := by
  rw [reading_eq hp, Context.run.eq_def]
  simp only [Option.eq_none_iff_forall_ne_some.mpr hliteral, Option.eq_none_iff_forall_ne_some.mpr hop]
  generalize hk : (tape.tokenAt p).kind = kind at *
  cases kind <;> simp_all

/-- Where an expression ends. -/
def IsEnd (tape : Tape) (ending : Walk.Ending) (f : Frame) (p : Nat) : Prop :=
  (tape.tokenAt p).kind = .endMark ∨ ending.isAt f (tape.tokenAt p).kind = true

theorem IsEnd.cases {ending : Walk.Ending} (h : tape.IsEnd ending f p) (hp : p ≤ tape.size) :
    p = tape.size ∨ p < tape.size ∧
      ((ending = .statement ∧ (tape.tokenAt p).kind = .semicolon) ∨
        (ending = .argument ∧ (tape.tokenAt p).kind = .comma) ∨
        (ending = .argument ∧ (tape.tokenAt p).kind = .rightParen ∧ f.openParens = 0)) := by
  obtain rfl | hlt := Nat.eq_or_lt_of_le hp
  · exact .inl rfl
  · refine .inr ⟨hlt, ?_⟩
    have hat := h.resolve_left (tokenAt_ne hlt)
    cases ending with
    | statement => exact .inl ⟨rfl, of_decide_eq_true hat⟩
    | argument =>
      rcases Bool.or_eq_true_iff.mp hat with hcomma | hparen
      · exact .inr (.inl ⟨rfl, of_decide_eq_true hcomma⟩)
      · obtain ⟨hparen, hopen⟩ := Bool.and_eq_true_iff.mp hparen
        exact .inr (.inr ⟨rfl, of_decide_eq_true hparen, of_decide_eq_true hopen⟩)

/-- The end of an expression whose operands and operators do not match. -/
theorem reading_finish_error {ending : Walk.Ending} (hsuits : ending.Suits context) (hp : p ≤ tape.size)
    (hend : tape.IsEnd ending f p) {e : SyntaxError} (hfinish : f.finish = .error e) :
    tape.reading context f p = .error e := by
  obtain rfl | ⟨hlt, ⟨rfl, hk⟩ | ⟨rfl, hk⟩ | ⟨rfl, hk, hopen⟩⟩ := hend.cases hp
  · unfold reading
    rw [cursor_size, Context.run.eq_def]
    simp only [hfinish]
    rfl
  · obtain ⟨result, hresult⟩ := Option.isSome_iff_exists.mp hsuits.1
    rw [reading_eq hlt, Context.run.eq_def]
    simp only [Token.literal?, BinaryOp.ofToken?, hk, hresult, hfinish]
    rfl
  · obtain ⟨next, hnext⟩ := Option.isSome_iff_exists.mp hsuits.2.1
    rw [reading_eq hlt, Context.run.eq_def]
    simp only [Token.literal?, BinaryOp.ofToken?, hk, hnext, hfinish]
    rfl
  · obtain ⟨close, hclose⟩ := Option.isSome_iff_exists.mp hsuits.2.2
    rw [reading_eq hlt, Context.run.eq_def]
    simp only [Token.literal?, BinaryOp.ofToken?, hk, hopen, hclose, hfinish]
    rfl

/-- The end of the input is no end of an expression. -/
theorem reading_size {e : Expr} (hfinish : f.finish = .ok e) :
    tape.reading context f tape.size =
      .error ⟨.missing context.closer "end of input", (tape.cursor tape.size).last⟩ := by
  unfold reading
  rw [cursor_size, Context.run.eq_def]
  simp only [hfinish]
  rfl

theorem expect_size (place : Place) :
    Reader.expect place (tape.cursor tape.size) =
      .error ⟨.missing place "end of input", (tape.cursor tape.size).last⟩ := by
  rw [cursor_size]
  rfl

theorem expect_eq_ok (place : Place) (hp : p < tape.size) (hkind : (tape.tokenAt p).kind = place.kind) :
    Reader.expect place (tape.cursor p) = .ok (tape.tokenAt p, tape.cursor (p + 1)) := by
  unfold Reader.expect
  rw [cursor_eq hp]
  exact if_pos hkind

/-! ## Calls and expressions -/

/-- Whether a call that is read by position is read by cursors as an operand. -/
def CallFollows (tape : Tape) (n : Nat) (call : Walk Call) : Prop :=
  ∀ ⦃g : Goal⦄ (context : Context g) (f : Frame) (p : Nat), p < tape.size → tape.size - p < n →
    (tape.tokenAt p).kind = .ident → (tape.tokenAt (p + 1)).kind = .leftParen →
    tape.Ends (tape.reading context f p) call p fun site p' =>
      p < p' ∧ tape.reading context f p = tape.reading context (f.operand site.toExpr) p'

/-- Whether an argument that is read by position is read by cursors up to what ends it. -/
def ArgumentFollows (tape : Tape) (n : Nat) (argument : Walk Expr) : Prop :=
  ∀ ⦃g : Goal⦄ (context : Context g) (p : Nat), Walk.Ending.argument.Suits context → p ≤ tape.size →
    tape.size - p < n →
    tape.Ends (tape.reading context (.empty (tape.tokenAt p).line) p) argument p fun e p' =>
      p ≤ p' ∧ ∃ f, tape.reading context (.empty (tape.tokenAt p).line) p = tape.reading context f p' ∧
        f.finish = .ok e ∧ tape.IsEnd .argument f p'

/-- What a round of an expression comes to: it has read a token or a call, or found the end. -/
def RoundTo (tape : Tape) (context : Context g) (ending : Walk.Ending) (f : Frame) (p : Nat) :
    Frame ⊕ Frame → Nat → Prop
  | .inl f', p' => p < p' ∧ tape.reading context f p = tape.reading context f' p'
  | .inr f', p' => f' = f ∧ p' = p ∧ tape.IsEnd ending f p

theorem ends_exprRound {n : Nat} {ending : Walk.Ending} {call : Walk Call} (hcall : tape.CallFollows n call)
    (hsuits : ending.Suits context) (hp : p ≤ tape.size) (hn : tape.size - p < n) :
    tape.Ends (tape.reading context f p) (Walk.exprRound tape.row call ending f) p
      (tape.RoundTo context ending f p) := by
  unfold Walk.exprRound
  refine (ends_peek hp).bind ?_
  rintro _ p - ⟨rfl, rfl⟩
  split
  · next hend =>
    have hend : tape.IsEnd ending f p := (Bool.or_eq_true_iff.mp hend).imp of_decide_eq_true id
    exact ends_pure ⟨rfl, rfl, hend⟩
  next hnot =>
  obtain ⟨hmark, hat⟩ := not_or.mp (mt Bool.or_eq_true_iff.mpr hnot)
  have hlt : p < tape.size := Nat.lt_of_le_of_ne hp fun heq => hmark (decide_eq_true ((tokenAt_kind_iff hp).mpr heq))
  -- the head goes on over the token, and the frame changes as for a cursor
  have hadvance {f' : Frame} (h : tape.reading context f p = tape.reading context f' (p + 1)) :
      tape.Ends (tape.reading context f p) (Walk.advance tape.row >>= fun _ => pure (Sum.inl f')) p
        (tape.RoundTo context ending f p) := by
    refine (ends_advance hlt).bind ?_
    rintro _ _ - ⟨-, rfl⟩
    exact ends_pure ⟨Nat.lt_succ_self p, h⟩
  have hstacks {y : Except SyntaxError Frame}
      (h : tape.reading context f p = y.bind fun f' => tape.reading context f' (p + 1)) :
      tape.Ends (tape.reading context f p)
        (Walk.advance tape.row >>= fun _ => Walk.ofExcept y >>= fun f' => pure (Sum.inl f')) p
        (tape.RoundTo context ending f p) := by
    refine (ends_advance hlt).bind ?_
    rintro _ _ - ⟨-, rfl⟩
    cases y with
    | error e => exact ends_fail h
    | ok f' => exact ends_pure ⟨Nat.lt_succ_self p, h⟩
  split
  · next e hliteral =>
    obtain ⟨ty, hkind, rfl⟩ := Token.literal?_eq_some_iff.mp hliteral
    refine hadvance ?_
    rw [reading_eq hlt, Context.run_literal hkind]
    rfl
  · next op hop _ =>
    refine hstacks ?_
    rw [reading_eq hlt, Context.run_operator (BinaryOp.ofToken?_eq_some_iff.mp hop)]
    rfl
  · next hkind _ _ =>
    refine hadvance ?_
    rw [reading_eq hlt, Context.run_openParen hkind]
    rfl
  · next hkind _ _ =>
    refine hstacks ?_
    rw [reading_eq hlt, Context.run_closeParen hkind]
    · rfl
    · intro hopen
      cases ending with
      | statement => exact hsuits.2.2
      | argument => exact absurd (by simp [Walk.Ending.isAt, hkind, hopen]) hat
  · next hkind _ _ =>
    refine (ends_peek_one hlt).bind ?_
    rintro _ p - ⟨rfl, rfl⟩
    split
    · next hparen =>
      refine (hcall context f p hlt hn hkind hparen).bind ?_
      rintro site p' - ⟨hlt', h⟩
      exact ends_pure ⟨hlt', h⟩
    · next hparen =>
      refine hadvance ?_
      rw [reading_eq hlt, Context.run_name hkind]
      · rfl
      · intro q hq
        rw [eq_tokenAt hlt hq]
        exact hparen
  · next hliteral hop hopen hclose hident =>
    refine ends_fail (reading_stray hlt hliteral hop hopen hclose hident ?_ ?_)
    · intro hcomma
      cases ending with
      | statement => exact hsuits.2.1
      | argument => exact absurd (by simp [Walk.Ending.isAt, hcomma]) hat
    · intro hsemicolon
      cases ending with
      | statement => exact absurd (by simp [Walk.Ending.isAt, hsemicolon]) hat
      | argument => exact hsuits.1

/-- An expression up to its end, which a semicolon follows in a statement. -/
theorem ends_expressionLoop {n : Nat} {ending : Walk.Ending} {call : Walk Call} (hcall : tape.CallFollows n call)
    (hsuits : ending.Suits context) (hp : p ≤ tape.size) (hn : tape.size - p < n) :
    tape.Ends (tape.reading context f p) (Walk.loop (Walk.exprRound tape.row call ending) n f) p fun f' p' =>
      p ≤ p' ∧ tape.reading context f p = tape.reading context f' p' ∧ tape.IsEnd ending f' p' := by
  refine ends_loop (I := fun f' p' => p ≤ p' ∧ tape.reading context f p = tape.reading context f' p') ?_ hp
    ⟨Nat.le_refl p, rfl⟩ hn
  rintro f' p' hp' ⟨hle, hsame⟩
  rw [hsame]
  refine (ends_exprRound hcall hsuits hp' (by omega)).mono ?_
  rintro (f'' | f'') p'' h
  · obtain ⟨hlt, h⟩ := h
    exact ⟨hlt, by omega, h⟩
  · obtain ⟨rfl, rfl, hend⟩ := h
    exact ⟨hle, rfl, hend⟩

theorem argumentFollows_succ {n : Nat} (hcall : tape.CallFollows (n + 1)
      (Walk.call tape.row n (Walk.expression tape.row n .argument))) :
    tape.ArgumentFollows (n + 1) (Walk.expression tape.row (n + 1) .argument) := by
  intro g context p hsuits hp hn
  rw [Walk.expression]
  refine (ends_peek hp).bind ?_
  rintro _ p - ⟨rfl, rfl⟩
  refine (ends_expressionLoop hcall hsuits hp hn).bind ?_
  rintro f p' hp' ⟨hle, hsame, hend⟩
  cases hfinish : f.finish with
  | error e => exact ends_fail (hsame.trans (reading_finish_error hsuits hp' hend hfinish))
  | ok e => exact ends_pure ⟨hle, f, hsame, hfinish, hend⟩

/-! ## Arguments -/

section Arguments

variable {args : Call → Context g} {closed : Call → Closed g} {argument : Walk Expr} {n : Nat} {site : Call}

/-- A round of the arguments reads one and the comma or the parenthesis after it. -/
theorem ends_argRound (hcollects : Context.Collects args closed) (hargument : tape.ArgumentFollows n argument)
    (hp : p ≤ tape.size) (hn : tape.size - p < n) :
    tape.Ends (tape.reading (args site) (.empty (tape.tokenAt p).line) p) (Walk.argRound tape.row argument site) p
      fun r p' => p < p' ∧
        match r with
        | .inl site' => tape.reading (args site) (.empty (tape.tokenAt p).line) p =
            tape.reading (args site') (.empty (tape.tokenAt p').line) p'
        | .inr site' => tape.reading (args site) (.empty (tape.tokenAt p).line) p =
            goOn tape.mark.line (tape.cursor p').last (tape.cursor p').rest (closed site') := by
  have hsuits : Walk.Ending.argument.Suits (args site) :=
    ⟨hcollects.semicolon site, by rw [hcollects.comma]; rfl, by rw [hcollects.close]; rfl⟩
  have hcloser : (args site).closer = .argsClose := by
    have hsemicolon := hcollects.semicolon site
    generalize args site = context at hsemicolon
    cases context with
    | statement => cases hsemicolon
    | callGoal | operand => rfl
  unfold Walk.argRound
  refine (hargument (args site) p hsuits hp hn).bind ?_
  rintro e q hq ⟨hle, f, hsame, hfinish, hend⟩
  refine Ends.bind (ends_skips (by decide : TokenKind.comma ≠ .endMark) hq) ?_
  rintro b p' hp' (⟨rfl, hcomma, hlt, rfl⟩ | ⟨rfl, hcomma, rfl⟩)
  · refine ends_pure ⟨Nat.lt_succ_of_le hle, ?_⟩
    rw [hsame, reading_eq hlt, Context.run_comma hcomma (hcollects.comma site) hfinish, cursor_head_line hp']
    rfl
  obtain rfl | ⟨hlt, ⟨⟨⟩, _⟩ | ⟨-, hk⟩ | ⟨-, hparen, hopen⟩⟩ := hend.cases hq
  · refine Ends.bind (ends_expect hq ?_) fun t p' _ h => absurd h.2.2.1 (Nat.lt_irrefl _)
    rw [hsame, reading_size hfinish, hcloser, expect_size]
    rintro _ ⟨⟩
    rfl
  · exact absurd hk hcomma
  · have hexpect := expect_eq_ok .argsClose hlt hparen
    refine Ends.bind (ends_expect hq fun _ h => nomatch hexpect.symm.trans h) ?_
    rintro t p' - ⟨-, -, -, rfl⟩
    refine ends_pure ⟨Nat.lt_succ_of_le hle, ?_⟩
    rw [hsame, reading_eq hlt, Context.run_close hparen hopen (hcollects.close site) hfinish]
    rfl

/-- The arguments of a call up to their closing parenthesis. -/
theorem ends_args (hcollects : Context.Collects args closed) (hargument : tape.ArgumentFollows n argument)
    (hp : p ≤ tape.size) (hn : tape.size - p < n) :
    tape.Ends (tape.reading (args site) (.empty (tape.tokenAt p).line) p)
      (Walk.loop (Walk.argRound tape.row argument) n site) p fun site' p' => p < p' ∧
        tape.reading (args site) (.empty (tape.tokenAt p).line) p =
          goOn tape.mark.line (tape.cursor p').last (tape.cursor p').rest (closed site') := by
  refine ends_loop (I := fun site' p' => p ≤ p' ∧ tape.reading (args site) (.empty (tape.tokenAt p).line) p =
    tape.reading (args site') (.empty (tape.tokenAt p').line) p') ?_ hp ⟨Nat.le_refl p, rfl⟩ hn
  rintro site' p' hp' ⟨hle, hsame⟩
  rw [hsame]
  refine (ends_argRound hcollects hargument hp' (by omega)).mono ?_
  rintro (site'' | site'') p'' ⟨hlt, h⟩
  · exact ⟨hlt, by omega, h⟩
  · exact ⟨by omega, h⟩

/-- The arguments of a call after its opening parenthesis, with the closing one. -/
theorem ends_argList {m : Except SyntaxError (g.Result × Cursor)}
    (hcollects : Context.Collects args closed) (hargument : tape.ArgumentFollows n argument)
    (hp : p ≤ tape.size) (hn : tape.size - p < n)
    (hnone : (tape.tokenAt p).kind = .rightParen →
      m = goOn tape.mark.line (tape.cursor (p + 1)).last (tape.cursor (p + 1)).rest (closed site))
    (hsome : (tape.tokenAt p).kind ≠ .rightParen → m = tape.reading (args site) (.empty (tape.tokenAt p).line) p) :
    tape.Ends m (do
        if ← Walk.skips tape.row .rightParen then return site
        else Walk.loop (Walk.argRound tape.row argument) n site) p fun site' p' =>
      p < p' ∧ m = goOn tape.mark.line (tape.cursor p').last (tape.cursor p').rest (closed site') := by
  refine Ends.bind (ends_skips (by decide : TokenKind.rightParen ≠ .endMark) hp) ?_
  rintro b p' hp' (⟨rfl, hparen, hlt, rfl⟩ | ⟨rfl, hparen, rfl⟩)
  · exact ends_pure ⟨Nat.lt_succ_self p, hnone hparen⟩
  · rw [hsome hparen]
    exact ends_args hcollects hargument hp hn

theorem callFollows_succ (hargument : tape.ArgumentFollows n argument) :
    tape.CallFollows (n + 1) (Walk.call tape.row n argument) := by
  intro g context f p hp hn hname hparen
  have hparenlt : p + 1 < tape.size := lt_size (by decide) hp hparen
  unfold Walk.call
  refine (ends_advance hp).bind ?_
  rintro _ _ - ⟨rfl, rfl⟩
  refine (ends_advance hparenlt).bind ?_
  rintro _ _ - ⟨-, rfl⟩
  dsimp only
  refine (ends_argList (Context.collects_operand f context) hargument hparenlt (by omega) ?_ ?_).mono ?_
  · intro hclose
    have hcloselt : p + 2 < tape.size := lt_size (by decide) hparenlt hclose
    rw [reading_eq hp, cursor_eq hparenlt, cursor_eq hcloselt]
    exact Context.run_emptyCall hname hparen hclose
  · intro hclose
    rw [reading_eq hp, cursor_eq hparenlt, Context.run_callOpen hname hparen, cursor_head_line hparenlt]
    · rfl
    · intro q hq
      rw [eq_tokenAt hparenlt hq]
      exact hclose
  · rintro site p' ⟨hlt, h⟩
    exact ⟨by omega, h⟩

end Arguments

/-! ## Expressions of all depths -/

/-- **Calls and arguments are read as by cursors**, however deep they are. -/
theorem argumentFollows (tape : Tape) (n : Nat) :
    tape.ArgumentFollows n (Walk.expression tape.row n .argument) := by
  induction n with
  | zero => exact fun _ _ _ _ _ hn => absurd hn (Nat.not_lt_zero _)
  | succ n ih => exact argumentFollows_succ (callFollows_succ ih)

theorem callFollows (tape : Tape) (n : Nat) :
    tape.CallFollows (n + 1) (Walk.call tape.row n (Walk.expression tape.row n .argument)) :=
  callFollows_succ (argumentFollows tape n)

/-- The expression of a statement. -/
theorem follows_expression (n : Nat) :
    tape.Follows n (Walk.expression tape.row n .statement) Reader.expression := by
  intro p hp hn
  cases n with
  | zero => exact absurd hn (Nat.not_lt_zero _)
  | succ n =>
  have hsuits : Walk.Ending.statement.Suits Context.statement := ⟨rfl, rfl, rfl⟩
  have hreading : Reader.expression (tape.cursor p) = tape.reading .statement (.empty (tape.tokenAt p).line) p := by
    rw [← cursor_line hp]
    rfl
  rw [hreading, Walk.expression]
  refine (ends_peek hp).bind ?_
  rintro _ p - ⟨rfl, rfl⟩
  refine (ends_expressionLoop (callFollows tape n) hsuits hp hn).bind ?_
  rintro f q hq ⟨hle, hsame, hend⟩
  rw [hsame]
  cases hfinish : f.finish with
  | error e => exact ends_fail (reading_finish_error hsuits hq hend hfinish)
  | ok e =>
  show tape.Ends _ (Walk.expect tape.row .exprEnd >>= fun _ => pure e) _ _
  obtain rfl | ⟨hlt, ⟨-, hsemicolon⟩ | ⟨⟨⟩, _⟩ | ⟨⟨⟩, _⟩⟩ := hend.cases hq
  · refine (ends_expect hq ?_).bind fun t p' _ h => absurd h.2.2.1 (Nat.lt_irrefl _)
    rw [reading_size hfinish, expect_size]
    rintro _ ⟨⟩
    rfl
  · have hexpect := expect_eq_ok .exprEnd hlt hsemicolon
    refine Ends.bind (ends_expect hq fun _ h => nomatch hexpect.symm.trans h) ?_
    rintro t p' - ⟨-, -, -, rfl⟩
    refine ends_pure ⟨Nat.le_succ_of_le hle, ?_⟩
    rw [reading_eq hlt, Context.run_semicolon hsemicolon hfinish]
    rfl

/-- The arguments of a call that is a statement. -/
theorem ends_call {n : Nat} (hp : p + 1 < tape.size) (hn : tape.size - p < n) :
    tape.Ends (Reader.call (tape.tokenAt p).lexeme (tape.tokenAt p).line (tape.cursor (p + 2)))
      (Walk.call tape.row n (Walk.expression tape.row n .argument)) p fun site p' =>
        p < p' ∧ Reader.call (tape.tokenAt p).lexeme (tape.tokenAt p).line (tape.cursor (p + 2)) =
          .ok (site, tape.cursor p') := by
  unfold Walk.call
  refine (ends_advance (Nat.lt_of_succ_lt hp)).bind ?_
  rintro _ _ - ⟨rfl, rfl⟩
  refine (ends_advance hp).bind ?_
  rintro _ _ - ⟨-, rfl⟩
  have hskip := cursor_skip? (by decide : TokenKind.rightParen ≠ .endMark) (Nat.succ_le_of_lt hp)
  unfold Reader.call
  refine (ends_argList Context.collects_callGoal (argumentFollows tape n) hp (by omega) ?_ ?_).mono ?_
  · intro hclose
    rw [hskip, if_pos hclose]
    rfl
  · intro hclose
    rw [hskip, if_neg hclose, ← cursor_line hp]
    rfl
  · rintro site p' ⟨hlt, h⟩
    exact ⟨by omega, h⟩

end Tape

end SsaCompiler.Lang
