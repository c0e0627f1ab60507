import SsaCompiler.Proofs.Lang.Later
import SsaCompiler.Proofs.Lang.Program.Completeness
import SsaCompiler.Proofs.Lang.Program.Soundness

/-!
# Reading on in longer rows of tokens

A reader that succeeds has looked at the tokens that it read, and at no more than the one after them.  So it
reads the same from tokens `n` lines further down that go on with others:

    Carries n more k φ r r'      what `r` reads of some tokens, `r'` reads of the same tokens further down and
                                 before `more`, provided that `k` tokens are left to `r`

Only readers that end by looking whether a token follows need one that is left: those of types.  All others
read a token last.
-/

namespace SsaCompiler.Lang

variable {n : Nat} {more : List Token}

/-! ## Frames and contexts -/

def Pending.later (n : Nat) : Pending → Pending
  | .paren line => .paren (line + n)
  | .op o line => .op o (line + n)

namespace Frame

/-- A frame with the same stacks further down. -/
structure Later (n : Nat) (f f' : Frame) : Prop where
  operands : f'.operands = f.operands.map (·.later n)
  pending : f'.pending = f.pending.map (·.later n)
  openParens : f'.openParens = f.openParens

variable {f f' : Frame} {ps ps' : List Pending} {os os' : List Expr} {op : BinaryOp} {line line' : Nat}

theorem Later.empty (n start start' : Nat) : (Frame.empty start).Later n (.empty start') :=
  ⟨rfl, rfl, rfl⟩

theorem Later.operand (h : f.Later n f') {e e' : Expr} (he : e' = e.later n) : (f.operand e).Later n (f'.operand e') :=
  ⟨by simp [Frame.operand, h.operands, he], h.pending, h.openParens⟩

theorem Later.openParen (h : f.Later n f') (line : Nat) : (f.openParen line).Later n (f'.openParen (line + n)) :=
  ⟨h.operands, by simp [Frame.openParen, h.pending, Pending.later], by simp [Frame.openParen, h.openParens]⟩

/-- The line of an operator does not matter where there are operands. -/
theorem reduce_later (h : reduce op line os = .ok os') (line' : Nat) :
    reduce op line' (os.map (·.later n)) = .ok (os'.map (·.later n)) := by
  match os, h with
  | _ :: _ :: _, h =>
    cases h
    rfl

theorem reduceBefore_later {arriving : BinaryOp} (h : reduceBefore arriving ps os = .ok (ps', os')) :
    reduceBefore arriving (ps.map (·.later n)) (os.map (·.later n)) =
      .ok (ps'.map (·.later n), os'.map (·.later n)) := by
  induction ps generalizing os with
  | nil =>
    cases h
    rfl
  | cons p ps ih =>
    cases p with
    | paren line =>
      cases h
      rfl
    | op op line =>
      rw [List.map_cons, Pending.later]
      rw [reduceBefore] at h ⊢
      by_cases happlies : appliesBefore op arriving = true
      · rw [if_pos happlies] at h ⊢
        obtain ⟨os₁, hreduce, h⟩ := Reader.bind_eq_ok.mp h
        exact Reader.bind_eq_ok.mpr ⟨_, reduce_later hreduce _, ih h⟩
      · rw [if_neg happlies] at h ⊢
        cases h
        rfl

theorem reduceToParen_later (h : reduceToParen line ps os = .ok (ps', os')) (line' : Nat) :
    reduceToParen line' (ps.map (·.later n)) (os.map (·.later n)) =
      .ok (ps'.map (·.later n), os'.map (·.later n)) := by
  induction ps generalizing os with
  | nil => cases h
  | cons p ps ih =>
    cases p with
    | paren line =>
      cases h
      rfl
    | op op opLine =>
      obtain ⟨os₁, hreduce, h⟩ := Reader.bind_eq_ok.mp h
      exact Reader.bind_eq_ok.mpr ⟨_, reduce_later hreduce _, ih h⟩

theorem reduceAll_later (h : reduceAll ps os = .ok os') :
    reduceAll (ps.map (·.later n)) (os.map (·.later n)) = .ok (os'.map (·.later n)) := by
  induction ps generalizing os with
  | nil =>
    cases h
    rfl
  | cons p ps ih =>
    cases p with
    | paren line => cases h
    | op op line =>
      obtain ⟨os₁, hreduce, h⟩ := Reader.bind_eq_ok.mp h
      exact Reader.bind_eq_ok.mpr ⟨_, reduce_later hreduce _, ih h⟩

theorem Later.operator (h : f.Later n f') {g : Frame} (hg : f.operator op line = .ok g) :
    ∃ g', f'.operator op (line + n) = .ok g' ∧ g.Later n g' := by
  obtain ⟨⟨ps, os⟩, hreduce, hg⟩ := Reader.bind_eq_ok.mp hg
  cases hg
  have hreduce' := reduceBefore_later (n := n) hreduce
  rw [← h.pending, ← h.operands] at hreduce'
  exact ⟨_, Reader.bind_eq_ok.mpr ⟨_, hreduce', rfl⟩, rfl, rfl, h.openParens⟩

theorem Later.closeParen (h : f.Later n f') {g : Frame} (hg : f.closeParen line = .ok g) (line' : Nat) :
    ∃ g', f'.closeParen line' = .ok g' ∧ g.Later n g' := by
  obtain ⟨⟨ps, os⟩, hreduce, hg⟩ := Reader.bind_eq_ok.mp hg
  cases hg
  have hreduce' := reduceToParen_later (n := n) hreduce line'
  rw [← h.pending, ← h.operands] at hreduce'
  exact ⟨_, Reader.bind_eq_ok.mpr ⟨_, hreduce', rfl⟩, rfl, rfl, by simp [h.openParens]⟩

theorem Later.finish (h : f.Later n f') {e : Expr} (he : f.finish = .ok e) : f'.finish = .ok (e.later n) := by
  obtain ⟨os, hreduce, he⟩ := Reader.bind_eq_ok.mp he
  have hreduce' := reduceAll_later (n := n) hreduce
  rw [← h.pending, ← h.operands] at hreduce'
  refine Reader.bind_eq_ok.mpr ⟨_, hreduce', ?_⟩
  match os, he with
  | [_], he =>
    cases he
    rfl

end Frame

/-- What a run delivers, further down. -/
def Goal.later (n : Nat) : {g : Goal} → g.Result → g.Result
  | .expression, e => Expr.later n e
  | .call, c => Call.later n c

namespace Context

/-- A context with the same arguments further down. -/
inductive Later (n : Nat) : {g : Goal} → Context g → Context g → Prop
  | statement : Later n .statement .statement
  | callGoal (site : Call) : Later n (.callGoal site) (.callGoal (site.later n))
  | operand {g : Goal} (site : Call) {f f' : Frame} {context context' : Context g} (hf : f.Later n f')
      (h : Later n context context') : Later n (.operand site f context) (.operand (site.later n) f' context')

variable {g : Goal} {context context' : Context g}

/-- A comma goes on with arguments further down. -/
theorem Later.comma (h : context.Later n context') {next : Expr → Context g} (hnext : context.comma? = some next) :
    ∃ next', context'.comma? = some next' ∧ ∀ e, (next e).Later n (next' (e.later n)) := by
  cases h with
  | statement => cases hnext
  | callGoal site =>
    cases hnext
    refine ⟨_, rfl, fun e => ?_⟩
    rw [← Call.later_addArg]
    exact .callGoal _
  | operand site hf h =>
    cases hnext
    refine ⟨_, rfl, fun e => ?_⟩
    rw [← Call.later_addArg]
    exact .operand _ hf h

theorem Later.close?_eq_none_iff (h : context.Later n context') : context'.close? = none ↔ context.close? = none := by
  cases h <;> simp [close?]

/-- **A successful run goes the same way** further down and before more tokens. -/
theorem Steps.run_later {f f' : Frame} {tokens rest : List Token} {r : g.Result} (h : Steps context f tokens r rest)
    (endLine last : Nat) (hcontext : context.Later n context') (hf : f.Later n f') (more : List Token) :
    ∃ c, run endLine context' f' last (tokens.map (·.later n) ++ more) = .ok (Goal.later n r, c) ∧
      c.rest = rest.map (·.later n) ++ more := by
  induction h generalizing f' last with
  | @literal g context f t ts rest r ty ht _ ih =>
    rw [List.map_cons, List.cons_append, run_literal (t := t.later n) ht]
    exact ih _ hcontext (hf.operand rfl)
  | @name g context f t ts rest r ht hts h ih =>
    -- what follows is not the first of the other tokens
    obtain ⟨p, ps, rfl⟩ := List.exists_cons_of_ne_nil h.ne_nil
    rw [List.map_cons, List.cons_append, run_name (t := t.later n) ht (by rintro _ ⟨⟩; exact hts p rfl)]
    exact ih _ hcontext (hf.operand rfl)
  | @emptyCall g context f t o c ts rest r ht ho hc _ ih =>
    simp only [List.map_cons, List.cons_append]
    rw [run_emptyCall (t := t.later n) (o := o.later n) (c := c.later n) ht ho hc]
    exact ih _ hcontext (hf.operand (by simp [Expr.later, Expr.laterAll]))
  | @call g context f t o start ts rest r ht ho hts h ih =>
    obtain ⟨q, qs, rfl⟩ := List.exists_cons_of_ne_nil h.ne_nil
    simp only [List.map_cons, List.cons_append]
    rw [run_call (t := t.later n) (o := o.later n) (c := q.later n) ht ho (hts q rfl)]
    exact ih _ (.operand _ hf hcontext) (.empty _ _ _)
  | @openParen g context f o ts rest r ho _ ih =>
    rw [List.map_cons, List.cons_append, run_openParen (o := o.later n) ho]
    exact ih _ hcontext (hf.openParen _)
  | @operator g context f f₁ t op ts rest r hop hf₁ _ ih =>
    obtain ⟨f₁', hf₁', hlater⟩ := hf.operator hf₁
    rw [List.map_cons, List.cons_append, run_operator (t := t.later n) hop, Token.later_line, hf₁']
    exact ih _ hcontext hlater
  | @closeParen g context f f₁ c ts rest r hc hopen hf₁ _ ih =>
    obtain ⟨f₁', hf₁', hlater⟩ := hf.closeParen hf₁ (c.line + n)
    have hopen' : f'.openParens = 0 → context'.close? = none := by
      rwa [hf.openParens, hcontext.close?_eq_none_iff]
    rw [List.map_cons, List.cons_append, run_closeParen (c := c.later n) hc hopen', Token.later_line, hf₁']
    exact ih _ hcontext hlater
  | @callGoal site f c rest e hc hopen he =>
    cases hcontext
    rw [List.map_cons, List.cons_append, run_close (c := c.later n) hc (hf.openParens.trans hopen) rfl (hf.finish he),
      ← Call.later_addArg]
    exact ⟨_, rfl, rfl⟩
  | @resume g site outer context f c ts rest r e hc hopen he _ ih =>
    cases hcontext with
    | operand site houter hcontext =>
      rw [List.map_cons, List.cons_append,
        run_close (c := c.later n) hc (hf.openParens.trans hopen) rfl (hf.finish he), ← Call.later_addArg,
        Call.later_toExpr]
      exact ih _ hcontext (houter.operand rfl)
  | @comma g context f t start ts rest r next e ht hnext he _ ih =>
    obtain ⟨next', hnext', hlater⟩ := hcontext.comma hnext
    rw [List.map_cons, List.cons_append, run_comma (t := t.later n) ht hnext' (hf.finish he)]
    exact ih _ (hlater e) (.empty _ _ _)
  | @semicolon f t rest e ht he =>
    cases hcontext
    rw [List.map_cons, List.cons_append, run_semicolon (t := t.later n) ht (hf.finish he)]
    exact ⟨_, rfl, rfl⟩

end Context

/-! ## Readers -/

namespace Cursor

/-- A place before the same tokens further down and then others. -/
def Later (n : Nat) (more : List Token) (c c₁ : Cursor) : Prop :=
  c₁.rest = c.rest.map (·.later n) ++ more

variable {c c' c₁ : Cursor} {kind : TokenKind}

theorem Later.cons (h : c.Later n more c₁) {t : Token} {rest : List Token} (hc : c.rest = t :: rest) :
    c₁.rest = t.later n :: (rest.map (·.later n) ++ more) := by
  rw [h, hc]
  rfl

theorem Later.after (c c₁ : Cursor) (t : Token) (rest : List Token) :
    (c.after t rest).Later n more (c₁.after (t.later n) (rest.map (·.later n) ++ more)) :=
  rfl

theorem Later.skip?_eq_some (h : c.Later n more c₁) (hskip : c.skip? kind = some c') :
    ∃ c₁', c₁.skip? kind = some c₁' ∧ c'.Later n more c₁' := by
  obtain ⟨t, hc, ht⟩ := Reader.skip?_eq_some hskip
  refine ⟨c₁.after (t.later n) (c'.rest.map (·.later n) ++ more), ?_, rfl⟩
  simp [skip?, h.cons hc, ht]

/-- Where a token follows, looking for one of a kind looks at no more than it. -/
theorem Later.skip?_eq_none (h : c.Later n more c₁) (hskip : c.skip? kind = none) (hc : c.rest ≠ []) :
    c₁.skip? kind = none := by
  obtain ⟨t, rest, hc⟩ := List.exists_cons_of_ne_nil hc
  have ht : t.kind ≠ kind := by simpa [skip?, hc] using hskip
  simp only [skip?, h.cons hc]
  exact if_neg ht

end Cursor

namespace Reader

/-- A reader that never succeeds where no token is left. -/
def NeedsToken {α : Type} (r : Reader α) : Prop :=
  ∀ c a c', r c = .ok (a, c') → c.rest ≠ []

/-- Whether what `r` reads of some tokens with `k` left is read by `r'` of the same tokens further down, with
others after them. -/
def Carries {α : Type} (n : Nat) (more : List Token) (k : Nat) (φ : α → α) (r r' : Reader α) : Prop :=
  ∀ c a c', r c = .ok (a, c') → k ≤ c'.rest.length → ∀ c₁, c.Later n more c₁ →
    ∃ c₁', r' c₁ = .ok (φ a, c₁') ∧ c'.Later n more c₁'

section Sequences

variable {α β : Type} {k m : Nat} {φ : α → α} {ψ : β → β} {r r' : Reader α} {f f' : α → Reader β}

/-- What is left to a reader is there before it. -/
theorem Reads.left (h : Reads 0 r) : ∀ c a c', r c = .ok (a, c') → k ≤ c'.rest.length → k ≤ c.rest.length :=
  fun c a c' hr hk => Nat.le_trans hk (h c a c' hr)

theorem carries_pure {a a' : α} (h : a' = φ a) : Carries n more k φ (pure a) (pure a') := by
  rintro c _ _ ⟨⟩ _ c₁ hc₁
  exact ⟨c₁, by rw [h]; rfl, hc₁⟩

theorem carries_fail (cause : SyntaxCause) (line : Nat) : Carries n more k φ (fail cause line) r' := nofun

theorem NeedsToken.bind (hr : NeedsToken r) (f : α → Reader β) : NeedsToken (r >>= f) := by
  intro c b c' h
  obtain ⟨⟨a, c₁⟩, hfirst, -⟩ := bind_eq_ok.mp h
  exact hr c a c₁ hfirst

theorem needsToken_expect (place : Place) (f : Token → Reader β) : NeedsToken (expect place >>= f) := by
  refine NeedsToken.bind (fun c t c' h => ?_) f
  have := reads_expect place c t c' h
  exact List.length_pos_iff.mp (by omega)

/-- Either the token is there or another one has to be. -/
theorem NeedsToken.after_skips {kind : TokenKind} {f : Bool → Reader β} (hfalse : NeedsToken (f false)) :
    NeedsToken (skips kind >>= f) := by
  intro c b c' h
  obtain ⟨⟨there, c₁⟩, hskips, hf⟩ := bind_eq_ok.mp h
  unfold skips at hskips
  split at hskips
  · rename_i hskip
    obtain ⟨t, hc, -⟩ := skip?_eq_some hskip
    rw [hc]
    exact List.cons_ne_nil _ _
  · cases hskips
    exact hfalse c b c' hf

theorem Carries.bind (hr : Carries n more m φ r r') (hf : ∀ a, Carries n more k ψ (f a) (f' (φ a)))
    (hleft : ∀ a c b c', f a c = .ok (b, c') → k ≤ c'.rest.length → m ≤ c.rest.length) :
    Carries n more k ψ (r >>= f) (r' >>= f') := by
  intro c b c' h hk c₁ hc₁
  obtain ⟨⟨a, c₂⟩, hfirst, hsecond⟩ := bind_eq_ok.mp h
  obtain ⟨c₃, hfirst', hc₃⟩ := hr c a c₂ hfirst (hleft a c₂ b c' hsecond hk) c₁ hc₁
  obtain ⟨c₄, hsecond', hc₄⟩ := hf a c₂ b c' hsecond hk c₃ hc₃
  exact ⟨c₄, bind_eq_ok.mpr ⟨_, hfirst', hsecond'⟩, hc₄⟩

/-- Reading on after a reader that needs no token left. -/
theorem Carries.then (hr : Carries n more 0 φ r r') (hf : ∀ a, Carries n more k ψ (f a) (f' (φ a))) :
    Carries n more k ψ (r >>= f) (r' >>= f') :=
  hr.bind hf fun _ _ _ _ _ _ => Nat.zero_le _

/-- Reading on with a reader that reads a token where one has to be left. -/
theorem Carries.before (hr : Carries n more 1 φ r r') (hf : ∀ a, Carries n more k ψ (f a) (f' (φ a)))
    (hneeds : ∀ a, NeedsToken (f a)) : Carries n more k ψ (r >>= f) (r' >>= f') :=
  hr.bind hf fun a c b c' h _ => List.length_pos_iff.mpr (hneeds a c b c' h)

theorem carries_expect (place : Place) : Carries n more 0 (·.later n) (expect place) (expect place) := by
  intro c t c' h _ c₁ hc₁
  unfold expect at h
  split at h
  · cases h
  · rename_i t rest hc
    split at h
    · rename_i ht
      cases h
      refine ⟨c₁.after (t.later n) (rest.map (·.later n) ++ more), ?_, rfl⟩
      simp [expect, hc₁.cons hc, ht]
    · cases h

/-- Whether a token is there is looked for in the tokens that follow. -/
theorem carries_skips (kind : TokenKind) : Carries n more 1 id (skips kind) (skips kind) := by
  intro c b c' h hk c₁ hc₁
  unfold skips at h ⊢
  split at h
  · rename_i c₂ hskip
    cases h
    obtain ⟨c₃, hskip', hc₃⟩ := hc₁.skip?_eq_some hskip
    exact ⟨c₃, by rw [hskip']; rfl, hc₃⟩
  · rename_i hskip
    cases h
    have hskip' := hc₁.skip?_eq_none hskip (List.length_pos_iff.mp hk)
    exact ⟨c₁, by rw [hskip']; rfl, hc₁⟩

/-- Reading on after a token that may be there. -/
theorem Carries.after_skips {kind : TokenKind} {f f' : Bool → Reader β}
    (htrue : Carries n more k ψ (f true) (f' true)) (hfalse : Carries n more k ψ (f false) (f' false))
    (hneeds : NeedsToken (f false)) : Carries n more k ψ (skips kind >>= f) (skips kind >>= f') := by
  intro c b c' h hk c₁ hc₁
  obtain ⟨⟨there, c₂⟩, hskips, hf⟩ := bind_eq_ok.mp h
  unfold skips at hskips
  split at hskips
  · rename_i c₂ hskip
    cases hskips
    obtain ⟨c₃, hskip', hc₃⟩ := hc₁.skip?_eq_some hskip
    obtain ⟨c₄, hf', hc₄⟩ := htrue c₂ b c' hf hk c₃ hc₃
    exact ⟨c₄, bind_eq_ok.mpr ⟨(true, c₃), by rw [skips, hskip'], hf'⟩, hc₄⟩
  · rename_i hskip
    cases hskips
    have hskip' := hc₁.skip?_eq_none hskip (hneeds c b c' hf)
    obtain ⟨c₄, hf', hc₄⟩ := hfalse c b c' hf hk c₁ hc₁
    exact ⟨c₄, bind_eq_ok.mpr ⟨(false, c₁), by rw [skips, hskip'], hf'⟩, hc₄⟩

end Sequences

/-! ## Expressions, types and bindings -/

theorem carries_expression : Carries n more 0 (·.later n) expression expression := by
  intro c e c' h _ c₁ hc₁
  obtain ⟨c₂, hrun, hc₂⟩ :=
    (Context.steps_of_run h).run_later c₁.endLine c₁.last .statement (.empty n _ c₁.line) more
  refine ⟨c₂, ?_, hc₂⟩
  rw [expression, hc₁]
  exact hrun

/-- The arguments of a call may be none at all, and one that stays open is no call. -/
theorem carries_call (callee : String) (line : Nat) :
    Carries n more 0 (·.later n) (call callee line) (call callee (line + n)) := by
  intro c site c' h _ c₁ hc₁
  unfold call at h ⊢
  split at h
  · rename_i c₂ hskip
    cases h
    obtain ⟨c₃, hskip', hc₃⟩ := hc₁.skip?_eq_some hskip
    exact ⟨c₃, by rw [hskip']; rfl, hc₃⟩
  · rename_i hskip
    have hread := run_length_lt h
    have hskip' := hc₁.skip?_eq_none hskip (List.length_pos_iff.mp (by omega))
    obtain ⟨c₂, hrun, hc₂⟩ :=
      (Context.steps_of_run h).run_later c₁.endLine c₁.last (.callGoal _) (.empty n _ c₁.line) more
    refine ⟨c₂, ?_, hc₂⟩
    rw [hskip', hc₁]
    exact hrun

/-- A type ends by looking for a star. -/
theorem carries_type : Carries n more 1 id type type := by
  refine (carries_expect _).then fun t => ?_
  rw [Token.later_literalType]
  cases t.literalType with
  | none => exact carries_fail _ _
  | some base =>
    refine (carries_skips _).bind (fun there => ?rest) fun there => Reads.left ?left
    case rest =>
      cases there with
      | false => exact carries_pure rfl
      | true =>
        simp only [id_def, if_true]
        split
        · exact carries_fail _ _
        · exact carries_pure rfl
    case left =>
      split
      · split
        · exact reads_fail _ _ _
        · exact reads_pure _
      · exact reads_pure _

theorem carries_binding (line : Nat) :
    Carries n more 0 (·.later n) (binding line) (binding (line + n)) := by
  refine (carries_expect _).then fun name => (carries_expect _).then fun colon => ?_
  refine carries_type.before (fun ty => ?_) fun ty => needsToken_expect _ _
  exact (carries_expect _).then fun equals => carries_expression.then fun init => carries_pure rfl

/-! ## Parameters -/

theorem carries_param : Carries n more 0 id param param := by
  refine .after_skips ((carries_expect _).then fun _ => carries_pure rfl) ?_ (needsToken_expect _ _)
  refine (carries_expect _).then fun name => (carries_expect _).then fun _ => ?_
  refine carries_type.before (fun ty => ?_) fun ty => .after_skips (needsToken_expect _ _)
  exact .after_skips (carries_pure rfl) ((carries_expect _).then fun _ => carries_pure rfl) (needsToken_expect _ _)

theorem carries_paramList : Carries n more 0 id paramList paramList := by
  intro c ps c' h _ c₁ hc₁
  fun_induction paramList c generalizing ps c' c₁ with
  | case1 => cases h
  | case2 c p c₂ hparam _ ih =>
    obtain ⟨⟨qs, c₃⟩, hlist, h⟩ := map_eq_ok.mp h
    cases h
    obtain ⟨c₄, hparam', hc₄⟩ := carries_param c _ c₂ hparam (Nat.zero_le _) c₁ hc₁
    obtain ⟨c₅, hlist', hc₅⟩ := ih _ _ hlist (Nat.zero_le _) c₄ hc₄
    exact ⟨c₅, by rw [paramList_eq hparam', if_pos rfl, hlist']; rfl, hc₅⟩
  | case3 c p another c₂ hparam hlast =>
    cases h
    obtain ⟨c₃, hparam', hc₃⟩ := carries_param c _ c₂ hparam (Nat.zero_le _) c₁ hc₁
    exact ⟨c₃, by rw [paramList_eq hparam', if_neg hlast]; rfl, hc₃⟩

theorem carries_params : Carries n more 0 id params params :=
  .after_skips (carries_pure rfl) carries_paramList fun c ps c' h => by
    have := reads_paramList c ps c' h
    exact List.length_pos_iff.mp (by omega)

/-! ## Statements -/

theorem carries_simple : Carries n more 0 (·.later n) simple simple := by
  intro c s c' h _ c₁ hc₁
  unfold simple at h
  split at h
  · cases h
  · rename_i t rest hc
    have hrest := hc₁.cons hc
    split at h
    · rename_i ht
      obtain ⟨⟨e, c₂⟩, hread, h⟩ := map_eq_ok.mp h
      cases h
      obtain ⟨c₃, hread', hc₃⟩ := carries_expression _ _ _ hread (Nat.zero_le _) _ (.after c c₁ t rest)
      refine ⟨c₃, ?_, hc₃⟩
      simp [simple, hrest, ht, hread', Except.map, Stmt.later]
    · rename_i ht
      obtain ⟨⟨b, c₂⟩, hread, h⟩ := map_eq_ok.mp h
      cases h
      obtain ⟨c₃, hread', hc₃⟩ := carries_binding _ _ _ _ hread (Nat.zero_le _) _ (.after c c₁ t rest)
      refine ⟨c₃, ?_, hc₃⟩
      simp [simple, hrest, ht, hread', Except.map, Stmt.later]
    · rename_i ht
      split at h
      · rename_i p rest
        split at h
        · rename_i hp
          obtain ⟨⟨site, c₂⟩, hread, h⟩ := bind_eq_ok.mp h
          obtain ⟨⟨semicolon, c₃⟩, hend, h⟩ := bind_eq_ok.mp h
          cases h
          obtain ⟨c₄, hread', hc₄⟩ := carries_call _ _ _ _ _ hread (Nat.zero_le _) _ (.after c c₁ p rest)
          obtain ⟨c₅, hend', hc₅⟩ := carries_expect _ _ _ _ hend (Nat.zero_le _) _ hc₄
          refine ⟨c₅, ?_, hc₅⟩
          simp [simple, hrest, ht, hp, hread', hend', Bind.bind, Except.bind, Stmt.later]
        · cases h
        · cases h
      · cases h
    · cases h

theorem closed_later (n : Nat) (done : List Stmt) : (closed done).later n = closed (done.map (·.later n)) := by
  simp [closed, Stmt.later, Stmt.laterAll_eq_map]

theorem carries_blocks {outer : List (List Stmt)} {done ss : List Stmt} {c c' : Cursor}
    (h : blocks outer done c = .ok (ss, c')) {c₁ : Cursor} (hc₁ : c.Later n more c₁) :
    ∃ c₁', blocks (outer.map (·.map (·.later n))) (done.map (·.later n)) c₁ = .ok (ss.map (·.later n), c₁') ∧
      c'.Later n more c₁' := by
  fun_induction blocks outer done c generalizing c₁ with
  | case1 => cases h
  | case2 done c t rest hc _ ht =>
    cases h
    obtain ⟨tokens, last, endLine⟩ := c₁
    cases hc₁.cons hc
    refine ⟨⟨rest.map (·.later n) ++ more, t.line + n, endLine⟩, ?_, rfl⟩
    rw [List.map_nil, blocks_end (t := t.later n) ht, List.map_reverse]
    rfl
  | case3 done c t rest hc _ ht around outer ih =>
    obtain ⟨tokens, last, endLine⟩ := c₁
    cases hc₁.cons hc
    rw [List.map_cons, blocks_close (t := t.later n) ht, ← closed_later]
    exact ih h rfl
  | case4 outer done c t rest hc _ ht ih =>
    obtain ⟨tokens, last, endLine⟩ := c₁
    cases hc₁.cons hc
    rw [blocks_open (t := t.later n) ht]
    exact ih h rfl
  | case5 => cases h
  | case6 outer done c t rest hc hlt s c₂ hsimple hlt' hclose hopen ih =>
    obtain ⟨tokens, last, endLine⟩ := c₁
    obtain ⟨c₃, hsimple', hc₃⟩ := carries_simple _ _ _ hsimple (Nat.zero_le _) _ hc₁
    cases hc₁.cons hc
    rw [blocks_simple (t := t.later n) hopen hclose hsimple']
    exact ih h hc₃

theorem carries_block : Carries n more 0 (·.map (·.later n)) block block :=
  fun _ _ _ h _ _ hc₁ => carries_blocks h hc₁

/-! ## Declarations -/

theorem needsToken_body (name : String) : NeedsToken (body name) :=
  .after_skips (.after_skips nofun)

theorem carries_body (name : String) : Carries n more 0 (·.map (·.map (·.later n))) (body name) (body name) := by
  refine .after_skips (carries_pure rfl) (.after_skips ?_ ?_ ?_) (.after_skips nofun)
  · exact carries_block.then fun ss => carries_pure rfl
  · nofun
  · nofun

theorem carries_function (line : Nat) : Carries n more 0 (·.later n) (function line) (function (line + n)) := by
  refine (carries_skips _).before (fun external => ?_) fun external => needsToken_expect _ _
  refine (carries_expect _).then fun name => (carries_expect _).then fun _ => ?_
  refine carries_params.then fun ps => (carries_expect _).then fun _ => ?_
  refine carries_type.before (fun ret => ?_) fun ret => (needsToken_body _).bind _
  exact (carries_body _).then fun body => carries_pure rfl

theorem carries_declaration : Carries n more 0 (·.later n) declaration declaration := by
  intro c d c' h _ c₁ hc₁
  unfold declaration at h
  split at h
  · cases h
  · rename_i t rest hc
    have hrest := hc₁.cons hc
    split at h
    · rename_i ht
      obtain ⟨⟨b, c₂⟩, hread, h⟩ := map_eq_ok.mp h
      cases h
      obtain ⟨c₃, hread', hc₃⟩ := carries_binding _ _ _ _ hread (Nat.zero_le _) _ (.after c c₁ t rest)
      refine ⟨c₃, ?_, hc₃⟩
      simp [declaration, hrest, ht, hread', Except.map, Declaration.later]
    · rename_i ht
      obtain ⟨⟨f, c₂⟩, hread, h⟩ := map_eq_ok.mp h
      cases h
      obtain ⟨c₃, hread', hc₃⟩ := carries_function _ _ _ _ hread (Nat.zero_le _) _ (.after c c₁ t rest)
      refine ⟨c₃, ?_, hc₃⟩
      simp [declaration, hrest, ht, hread', Except.map, Declaration.later]
    · cases h

/-- **The declarations of joined tokens** are those of the first, further down, and then those of the others. -/
theorem declarations_join {c c₁ : Cursor} {ds es : List Declaration} (h : declarations c = .ok ds)
    (hmore : ∀ c, c.rest = more → declarations c = .ok es) (hc₁ : c.Later n more c₁) :
    declarations c₁ = .ok (ds.map (·.later n) ++ es) := by
  fun_induction declarations c generalizing ds c₁ with
  | case1 c hc =>
    cases h
    refine hmore c₁ ?_
    rw [hc₁, hc]
    rfl
  | case2 => cases h
  | case3 c hc d c₂ hread _ ih =>
    obtain ⟨ds, hds, rfl⟩ := map_eq_ok.mp h
    obtain ⟨c₃, hread', hc₃⟩ := carries_declaration c d c₂ hread (Nat.zero_le _) c₁ hc₁
    have hne : c₁.rest ≠ [] := by
      rw [hc₁]
      simp [hc]
    rw [declarations_eq hne hread', ih hds hc₃]
    rfl

end Reader

/-! ## Whole rows of tokens -/

theorem exists_declarations_of_ofTokens {ts : List Token} {eof : Token} {p : Program}
    (hts : ∀ t ∈ ts, t.kind ≠ .endMark) (heof : eof.kind = .endMark) (h : Program.ofTokens (ts ++ [eof]) = .ok p) :
    ∃ last ds, Reader.declarations ⟨ts, last, eof.line⟩ = .ok ds ∧ Program.ofDeclarations ds = p := by
  obtain ⟨c, hc, h⟩ := Reader.bind_eq_ok.mp h
  obtain ⟨ds, hds, h⟩ := Reader.bind_eq_ok.mp h
  cases h
  obtain ⟨last, hcursor⟩ := ofTokens_append hts heof
  cases hcursor.symm.trans hc
  exact ⟨last, ds, hds, rfl⟩

/-- **The program of joined tokens** is that of the first, with the declarations of the second after them. -/
theorem ofTokens_join {ts us : List Token} {eof eof' : Token} {p q : Program} (hts : ∀ t ∈ ts, t.kind ≠ .endMark)
    (heof : eof.kind = .endMark) (hus : ∀ t ∈ us, t.kind ≠ .endMark) (heof' : eof'.kind = .endMark)
    (hp : Program.ofTokens (ts ++ [eof]) = .ok p) (hq : Program.ofTokens (us ++ [eof']) = .ok q) (n : Nat) :
    Program.ofTokens (ts ++ (us ++ [eof']).map (·.later n)) = .ok (p.append (q.later n)) := by
  obtain ⟨last, ds, hds, rfl⟩ := exists_declarations_of_ofTokens hts heof hp
  obtain ⟨last', es, hes, rfl⟩ := exists_declarations_of_ofTokens hus heof' hq
  have hsecond : ∀ c, c.rest = us.map (·.later n) → Reader.declarations c = .ok (es.map (·.later n)) := by
    intro c hc
    have hend : ∀ c : Cursor, c.rest = [] → Reader.declarations c = .ok [] := by
      intro c hc
      rw [Reader.declarations, if_pos hc]
    have hlater : Cursor.Later n [] ⟨us, last', eof'.line⟩ c := by
      rw [Cursor.Later, List.append_nil]
      exact hc
    rw [Reader.declarations_join hes hend hlater, List.append_nil]
  have hmarks : ∀ t ∈ ts ++ us.map (·.later n), t.kind ≠ .endMark := by
    intro t ht
    rcases List.mem_append.mp ht with ht | ht
    · exact hts t ht
    · obtain ⟨u, hu, rfl⟩ := List.mem_map.mp ht
      exact hus u hu
  obtain ⟨last'', hcursor⟩ := ofTokens_append hmarks (show (eof'.later n).kind = .endMark from heof')
  have hlater : Cursor.Later 0 (us.map (·.later n)) ⟨ts, last, eof.line⟩
      ⟨ts ++ us.map (·.later n), last'', eof'.line + n⟩ := by
    simp [Cursor.Later, funext Token.later_zero]
  have hjoined := Reader.declarations_join hds hsecond hlater
  rw [List.map_append, List.map_singleton, ← List.append_assoc, ← Program.ofDeclarations_later,
    ← Program.ofDeclarations_append]
  unfold Program.ofTokens
  rw [hcursor]
  simp only [Bind.bind, Except.bind]
  rw [Token.later_line, hjoined]
  simp [funext Declaration.later_zero, pure, Except.pure]

end SsaCompiler.Lang
