import Mathlib.Logic.Relation
import SsaCompiler.Proofs.Lang.Program.Accounts

/-!
# Iterations of the reader of expressions

Reading an expression goes round a loop, in a loop of its own for each argument of a call; each round looks at the
next token and ends or goes on.  `Iteration.next` is one round, and the reader is nothing but rounds:

    first context c          where a reader begins                       (run_first_statement, run_first_call)
    run … = next, and then run again or the result                       (run_eq)
    Reaches endLine i i'     going round from `i` comes to `i'`

An iteration remembers where the expressions that are being read began, so that the tokens that each has read are
known; reading does not depend on it.  The stacks are in order at every iteration, however the reading ends
(`stacks_disciplined`).
-/

namespace SsaCompiler.Lang

/-- What the reader of an expression has at the head of its loop. -/
structure Iteration (g : Goal) where
  context : Context g
  frame : Frame
  last : Nat
  left : List Token
  /-- What was left where the expressions that are being read began, the innermost first. -/
  starts : List (List Token)

/-- How an iteration ends. -/
inductive Ending (g : Goal) where
  | again (i : Iteration g)
  | done (result : g.Result) (c : Cursor)

/-- Whether an expression is read for itself and not inside of another. -/
def Context.Outermost {g : Goal} : Context g → Prop
  | .operand .. => False
  | _ => True

namespace Iteration

variable {g : Goal}

/-- The first iteration from a place. -/
def first (context : Context g) (c : Cursor) : Iteration g :=
  { context, frame := .empty c.line, last := c.last, left := c.rest, starts := [c.rest] }

/-- The same expression, read on. -/
def further (i : Iteration g) (frame : Frame) (last : Nat) (left : List Token) : Iteration g :=
  { i with frame, last, left }

/-- The first argument of a call in the expression. -/
def enter (i : Iteration g) (site : Call) (start last : Nat) (left : List Token) : Iteration g :=
  { context := .operand site i.frame i.context, frame := .empty start, last, left, starts := left :: i.starts }

/-- What follows a closing parenthesis after the last argument of a call. -/
def closed (i : Iteration g) (line endLine : Nat) (left : List Token) : Closed g → Ending g
  | .goal result => .done result ⟨left, line, endLine⟩
  | .resume frame context => .again { context, frame, last := line, left, starts := i.starts.tail }

/-- One round of the loop, before the tokens that are left. -/
def step (endLine : Nat) (i : Iteration g) : List Token → Except SyntaxError (Ending g)
  | [] => do
    let _ ← i.frame.finish
    .error ⟨.missing i.context.closer "end of input", i.last⟩
  | t :: rest =>
    match t.literal?, BinaryOp.ofToken? t.kind, t.kind with
    | some e, _, _ => .ok (.again (i.further (i.frame.operand e) t.line rest))
    | _, some op, _ => do return .again (i.further (← i.frame.operator op t.line) t.line rest)
    | _, _, .leftParen => .ok (.again (i.further (i.frame.openParen t.line) t.line rest))
    | _, _, .ident =>
      match rest with
      | [] => .ok (.again (i.further (i.frame.operand (.name t.lexeme)) t.line []))
      | p :: rest =>
        if p.kind = .leftParen then
          match rest with
          | [] => .ok (.again (i.enter (.ofName t) endLine p.line []))
          | q :: rest =>
            if q.kind = .rightParen then
              .ok (.again (i.further (i.frame.operand (Call.ofName t).toExpr) q.line rest))
            else .ok (.again (i.enter (.ofName t) q.line p.line (q :: rest)))
        else .ok (.again (i.further (i.frame.operand (.name t.lexeme)) t.line (p :: rest)))
    | _, _, .rightParen =>
      match if i.frame.openParens = 0 then i.context.close? else none with
      | some close => do return i.closed t.line endLine rest (close (← i.frame.finish))
      | none => do return .again (i.further (← i.frame.closeParen t.line) t.line rest)
    | _, _, .comma =>
      match i.context.comma? with
      | some goOn => do
        return .again
          { context := goOn (← i.frame.finish)
            frame := .empty ((rest.head?.map (·.line)).getD endLine)
            last := t.line
            left := rest
            starts := rest :: i.starts.tail }
      | none => .error ⟨.strayToken t.describe, t.line⟩
    | _, _, .semicolon =>
      match i.context.semicolon? with
      | some result => do return .done (result (← i.frame.finish)) ⟨rest, t.line, endLine⟩
      | none => .error ⟨.strayToken t.describe, t.line⟩
    | _, _, _ => .error ⟨.strayToken t.describe, t.line⟩

/-- One round of the loop. -/
def next (endLine : Nat) (i : Iteration g) : Except SyntaxError (Ending g) :=
  i.step endLine i.left

/-- Reading from an iteration on. -/
def run (endLine : Nat) (i : Iteration g) : Except SyntaxError (g.Result × Cursor) :=
  Context.run endLine i.context i.frame i.last i.left

/-- Reading on after an iteration. -/
def goOn (endLine : Nat) : Ending g → Except SyntaxError (g.Result × Cursor)
  | .again i => i.run endLine
  | .done result c => .ok (result, c)

/-- **The reader is its iterations.** -/
theorem run_eq (endLine : Nat) (i : Iteration g) : i.run endLine = i.next endLine >>= goOn endLine := by
  unfold run next
  generalize i.left = tokens
  rw [Context.run.eq_def]
  fun_cases step endLine i tokens with
  | case10 t rest hkind close hclose =>
    have hcloses (e : Expr) : goOn endLine (i.closed t.line endLine rest (close e)) =
        Context.goOn endLine t.line rest (close e) := by
      cases close e <;> rfl
    simp_all
    rfl
  | _ =>
    simp_all
    rfl

theorem run_first_statement (c : Cursor) : (first .statement c).run c.endLine = Reader.expression c := rfl

/-- The arguments of a call begin with a first iteration, unless there are none. -/
theorem run_first_call {c : Cursor} (hc : c.skip? .rightParen = none) (callee : String) (line : Nat) :
    (first (.callGoal ⟨callee, [], line⟩) c).run c.endLine = Reader.call callee line c := by
  unfold Reader.call
  rw [hc]
  rfl

/-! ## Rounds -/

/-- Whether one round of the loop goes on. -/
def Turns (endLine : Nat) (i i' : Iteration g) : Prop :=
  i.next endLine = .ok (.again i')

/-- Whether going round comes from one iteration to another. -/
abbrev Reaches (endLine : Nat) : Iteration g → Iteration g → Prop :=
  Relation.ReflTransGen (Turns endLine)

variable {endLine : Nat} {i i' : Iteration g}

/-- All iterations of a reading have its result. -/
theorem Reaches.run_eq (h : Reaches endLine i i') : i.run endLine = i'.run endLine := by
  induction h with
  | refl => rfl
  | @tail i' i'' _ hturn ih =>
    have hnext : i'.next endLine = .ok (.again i'') := hturn
    rw [ih, Iteration.run_eq, hnext]
    rfl

/-! ## What stands around an expression -/

/-- What is known of the expressions that are interrupted by one that began at `start`: each of them was read up to a
call, of which the name and some arguments have been read. -/
inductive Around : {g : Goal} → Context g → List Token → List (List Token) → Prop
  | statement (start : List Token) : Around .statement start []
  | callGoal (site : Call) (start : List Token) : Around (.callGoal site) start []
  | operand {g : Goal} {site : Call} {f : Frame} {outer : Context g} {start outerStart read args : List Token}
      {starts : List (List Token)} (hstart : outerStart = read ++ (args ++ start)) (hf : f.Disciplined read)
      (hsite : Accounts site.toExpr.parts 1 args) (houter : Around outer outerStart starts) :
      Around (.operand site f outer) start (outerStart :: starts)

/-- What holds at the head of the loop, after the tokens `read` of the expression. -/
structure Sound (i : Iteration g) (start read : List Token) (starts : List (List Token)) : Prop where
  starts_eq : i.starts = start :: starts
  start_eq : start = read ++ i.left
  frame : i.frame.Disciplined read
  around : Around i.context start starts

variable {start read left : List Token} {starts : List (List Token)}

theorem sound_first {context : Context g} (h : context.Outermost) (c : Cursor) :
    (first context c).Sound c.rest [] [] where
  starts_eq := rfl
  start_eq := rfl
  frame := Frame.disciplined_empty c.line
  around := by
    cases context with
    | statement => exact .statement c.rest
    | callGoal site => exact .callGoal site c.rest
    | operand => cases h

/-! ## What a round preserves -/

theorem Sound.further (h : i.Sound start read starts) (ts : List Token) (hleft : i.left = ts ++ left) {f : Frame}
    (hf : f.Disciplined (read ++ ts)) (last : Nat) : (i.further f last left).Sound start (read ++ ts) starts where
  starts_eq := h.starts_eq
  start_eq := by
    rw [h.start_eq, hleft, ← List.append_assoc]
    rfl
  frame := hf
  around := h.around

theorem Sound.enter (h : i.Sound start read starts) (ts : List Token) (hleft : i.left = ts ++ left) {site : Call}
    (hsite : Accounts site.toExpr.parts 1 ts) (line last : Nat) :
    (i.enter site line last left).Sound left [] (start :: starts) where
  starts_eq := by rw [Iteration.enter, h.starts_eq]
  start_eq := rfl
  frame := Frame.disciplined_empty line
  around := .operand (by rw [h.start_eq, hleft]) h.frame hsite h.around

/-- A comma begins the next argument of the call whose arguments are read. -/
theorem Sound.comma {goOn : Expr → Context g} {e : Expr} {t : Token} (h : i.Sound start read starts)
    (hleft : i.left = t :: left) (ht : t.kind = .comma) (hgoOn : i.context.comma? = some goOn)
    (hf : i.frame.finish = .ok e) (line last : Nat) :
    Sound ⟨goOn e, .empty line, last, left, left :: i.starts.tail⟩ left [] starts where
  starts_eq := by rw [h.starts_eq, List.tail_cons]
  start_eq := rfl
  frame := Frame.disciplined_empty line
  around := by
    have haround := h.around
    generalize i.context = context at hgoOn haround
    cases haround with
    | statement => cases hgoOn
    | callGoal site =>
      cases hgoOn
      exact .callGoal _ _
    | operand hstart hframe hsite houter =>
      cases hgoOn
      refine .operand ?_ hframe ((hsite.addArg (h.frame.finish hf)).comma ht) houter
      simp [hstart, h.start_eq, hleft]

/-- A closing parenthesis makes the call an operand of the expression that it stands in. -/
theorem Sound.close {close : Expr → Closed g} {e : Expr} {c : Token} {f : Frame} {outer : Context g}
    (h : i.Sound start read starts) (hleft : i.left = c :: left) (hc : c.kind = .rightParen)
    (hclose : i.context.close? = some close) (hf : i.frame.finish = .ok e) (hcloses : close e = .resume f outer)
    (last : Nat) : ∃ start read starts, Sound ⟨outer, f, last, left, i.starts.tail⟩ start read starts := by
  have hstarts : i.starts.tail = starts := by rw [h.starts_eq, List.tail_cons]
  have haround := h.around
  generalize i.context = context at hclose haround
  cases haround with
  | statement => cases hclose
  | callGoal site =>
    cases hclose
    cases hcloses
  | operand hstart hframe hsite houter =>
    cases hclose
    cases hcloses
    have hcall := (hsite.addArg (h.frame.finish hf)).closeParen hc
    exact ⟨_, _, _, hstarts, by simp [hstart, h.start_eq, hleft], hframe.operand hcall, houter⟩

/-- **One round keeps the stacks in order.** -/
theorem Sound.turns (h : i.Sound start read starts) (hturn : Turns endLine i i') :
    ∃ start read starts, i'.Sound start read starts := by
  unfold Turns next at hturn
  generalize hleft : i.left = tokens at hturn
  revert hturn
  fun_cases step endLine i tokens with
  | case1 =>
    intro hturn
    obtain ⟨_, -, hturn⟩ := Reader.bind_eq_ok.mp hturn
    cases hturn
  | case2 t rest e hliteral =>
    rintro ⟨⟩
    exact ⟨_, _, _, h.further [t] hleft (h.frame.operand (.literal hliteral)) t.line⟩
  | case3 t rest op hop =>
    intro hturn
    obtain ⟨f, hf, ⟨⟩⟩ := Reader.bind_eq_ok.mp hturn
    exact ⟨_, _, _, h.further [t] hleft (h.frame.operator hop hf) t.line⟩
  | case4 o rest ho =>
    rintro ⟨⟩
    exact ⟨_, _, _, h.further [o] hleft (h.frame.openParen ho o.line) o.line⟩
  -- a name is the last token, or it is before a parenthesis, or it is neither
  | case5 t ht =>
    rintro ⟨⟩
    exact ⟨_, _, _, h.further [t] hleft (h.frame.operand (.name ht)) t.line⟩
  | case6 t ht o ho =>
    rintro ⟨⟩
    exact ⟨_, _, _, h.enter [t, o] hleft (.beginCall ht ho) endLine o.line⟩
  | case7 t ht o ho c rest hc =>
    rintro ⟨⟩
    exact ⟨_, _, _, h.further [t, o, c] hleft
      (h.frame.operand ((Accounts.beginCall ht ho).closeParen hc)) c.line⟩
  | case8 t ht o ho q rest =>
    rintro ⟨⟩
    exact ⟨_, _, _, h.enter [t, o] hleft (.beginCall ht ho) q.line o.line⟩
  | case9 t ht p rest =>
    rintro ⟨⟩
    exact ⟨_, _, _, h.further [t] hleft (h.frame.operand (.name ht)) t.line⟩
  | case10 c rest hc close hclose =>
    intro hturn
    obtain ⟨e, hf, hturn⟩ := Reader.bind_eq_ok.mp hturn
    obtain ⟨-, hclose⟩ := Option.ite_none_right_eq_some.mp hclose
    cases hcloses : close e with
    | goal result =>
      rw [hcloses] at hturn
      cases hturn
    | resume f outer =>
      rw [hcloses] at hturn
      cases hturn
      exact h.close hleft hc hclose hf hcloses c.line
  | case11 c rest hc =>
    intro hturn
    obtain ⟨f, hf, ⟨⟩⟩ := Reader.bind_eq_ok.mp hturn
    exact ⟨_, _, _, h.further [c] hleft (h.frame.closeParen hc hf).1 c.line⟩
  | case12 t rest ht goOn hgoOn =>
    intro hturn
    obtain ⟨e, hf, ⟨⟩⟩ := Reader.bind_eq_ok.mp hturn
    exact ⟨_, _, _, h.comma hleft ht hgoOn hf _ t.line⟩
  | case14 =>
    intro hturn
    obtain ⟨_, -, ⟨⟩⟩ := Reader.bind_eq_ok.mp hturn
  | _ => rintro ⟨⟩

/-- The stacks are in order wherever reading comes to. -/
theorem Reaches.sound (h : Reaches endLine i i') (hi : i.Sound start read starts) :
    ∃ start read starts, i'.Sound start read starts := by
  induction h with
  | refl => exact ⟨start, read, starts, hi⟩
  | tail _ hturn ih =>
    obtain ⟨start, read, starts, hi⟩ := ih
    exact hi.turns hturn

/-! ## Closing parentheses -/

section RightParen

variable {c : Token} (hleft : i.left = c :: left) (hc : c.kind = .rightParen)

include hleft hc

/-- A closing parenthesis ends an argument where no parenthesis is open. -/
theorem next_close {close : Expr → Closed g} (hclose : i.context.close? = some close) (hopen : i.frame.openParens = 0) :
    i.next endLine = i.frame.finish >>= fun e => .ok (i.closed c.line endLine left (close e)) := by
  unfold next step
  simp only [hleft, hc, Token.literal?, BinaryOp.ofToken?, if_pos hopen, hclose]
  rfl

/-- A closing parenthesis goes with one that is open. -/
theorem next_closeParen (hopen : i.frame.openParens ≠ 0) :
    i.next endLine = i.frame.closeParen c.line >>= fun f => .ok (.again (i.further f c.line left)) := by
  unfold next step
  simp only [hleft, hc, Token.literal?, BinaryOp.ofToken?, if_neg hopen]
  rfl

end RightParen

/-- **The stacks are in order at every iteration**, of a statement's expression and of any argument, whatever the
tokens are.  With `read` for the tokens of the expression so far: the count of open parentheses is that of the entries
on the stack; operators that lie on one another without a parenthesis between them become stronger to the top, the
first of `ops`, and are at most two; and the stacks have the operands and operators of `read`, each once and the
operands in order.  So the count is never at zero where it goes down, and a closing parenthesis ends an argument
exactly if those in `read` are all closed. -/
theorem stacks_disciplined {context : Context g} (hcontext : context.Outermost) (c : Cursor)
    (h : Reaches endLine (first context c) i) :
    ∃ read starts, i.starts = (read ++ i.left) :: starts ∧
      i.frame.openParens = i.frame.pending.countP Pending.isParen ∧
      (∀ ops : List (BinaryOp × Nat), ops.map (fun p => .op p.1 p.2) <:+: i.frame.pending →
        (ops.map (·.1.precedence)).Pairwise (· > ·) ∧ ops.length ≤ 2) ∧
      Rearranged (Frame.partsOn i.frame.pending i.frame.operands) (read.filterMap Token.part?) ∧
      ∀ t left, i.left = t :: left → t.kind = .rightParen →
        (∀ f, i.frame.closeParen t.line = .ok f → i.frame.openParens = f.openParens + 1) ∧
        ∀ close, i.context.close? = some close →
          (read.countP (·.kind = .leftParen) = read.countP (·.kind = .rightParen) →
            i.next endLine = i.frame.finish >>= fun e => .ok (i.closed t.line endLine left (close e))) ∧
          (read.countP (·.kind = .leftParen) ≠ read.countP (·.kind = .rightParen) →
            i.next endLine = i.frame.closeParen t.line >>= fun f => .ok (.again (i.further f t.line left))) := by
  obtain ⟨start, read, starts, hi⟩ := h.sound (sound_first hcontext c)
  have hparens := hi.frame.accounts.parens
  refine ⟨read, starts, hi.start_eq ▸ hi.starts_eq, hi.frame.opened, fun ops => hi.frame.strictly,
    hi.frame.accounts.parts, fun t left hleft ht => ⟨fun f hf => (hi.frame.closeParen ht hf).2, ?_⟩⟩
  intro close hclose
  constructor
  · intro hall
    exact next_close hleft ht hclose (by omega)
  · intro hsome
    exact next_closeParen hleft ht (by omega)

/-- Between `1 + f(2 * (3` and a closing parenthesis, the argument has one open parenthesis of its own. -/
theorem stacks_disciplined_unfinished :
    let row : List Token := [⟨.intLiteral, "1", 1, none⟩, ⟨.plus, "+", 1, none⟩, ⟨.ident, "f", 1, none⟩,
      ⟨.leftParen, "(", 1, none⟩, ⟨.intLiteral, "2", 1, none⟩, ⟨.star, "*", 1, none⟩, ⟨.leftParen, "(", 1, none⟩,
      ⟨.intLiteral, "3", 1, none⟩, ⟨.rightParen, ")", 1, none⟩]
    ∃ i : Iteration .expression, Context.statement.Outermost ∧ Reaches 1 (first .statement ⟨row, 1, 1⟩) i ∧
      i.left = row.drop 8 ∧ i.frame.openParens = 1 ∧
      ∃ read starts, i.starts = (read ++ i.left) :: starts ∧
        Rearranged (Frame.partsOn i.frame.pending i.frame.operands) (read.filterMap Token.part?) := by
  intro row
  have hstatement : Context.statement.Outermost := trivial
  have turns {i i' : Iteration .expression} (h : i.next 1 = .ok (.again i')) : Turns 1 i i' := h
  have hreaches : Reaches 1 (first .statement ⟨row, 1, 1⟩) _ :=
    .head (turns rfl) <| .head (turns rfl) <| .head (turns rfl) <| .head (turns rfl) <| .head (turns rfl) <|
      .head (turns rfl) <| .head (turns rfl) .refl
  refine ⟨_, hstatement, hreaches, rfl, rfl, ?_⟩
  obtain ⟨read, starts, hstarts, -, -, hparts, -⟩ := stacks_disciplined hstatement ⟨row, 1, 1⟩ hreaches
  exact ⟨read, starts, hstarts, hparts⟩

end Iteration

end SsaCompiler.Lang
