import SsaCompiler.Proofs.Lang.Program.ExpressionSoundness

/-!
# What is read as a program

Over tokens without two operands side by side each reader reads only what the grammar derives in its place:

    Yields r G      the tokens that a successful run of `r` reads, and its result, are related by `G`
    Program.ofTokens tokens = .ok p  →
      tokens before the end mark spell p  ↔  no operand in them directly follows another   (ofTokens_isProgram_iff)

Without that condition more is read: operators are applied to the operands that are there, so operands and
operators in the order of a postfix expression are read as well.
-/

namespace SsaCompiler.Lang

namespace Reader

open Context (run runs_of_run)

/-- Whether the tokens that a reader reads, none of them an operand after an operand, and what it gives for
them are always related. -/
def Yields {α : Type} (r : Reader α) (G : List Token → α → Prop) : Prop :=
  ∀ c a c', r c = .ok (a, c') → c.rest.IsChain Separate → ∃ ts, c.rest = ts ++ c'.rest ∧ G ts a

section Sequences

variable {α β : Type} {r : Reader α} {f : α → Reader β} {a : α} {G : List Token → α → Prop}
  {H : List Token → β → Prop}

theorem yields_pure (h : G [] a) : Yields (pure a) G := by
  rintro c _ _ ⟨⟩ _
  exact ⟨[], rfl, h⟩

theorem yields_fail (cause : SyntaxCause) (line : Nat) : Yields (fail cause line) G := nofun

theorem Yields.bind (hr : Yields r G) (hf : ∀ us a, G us a → Yields (f a) fun vs b => H (us ++ vs) b) :
    Yields (r >>= f) H := by
  intro c b c' h hchain
  obtain ⟨⟨a, c₁⟩, hr', hf'⟩ := bind_eq_ok.mp h
  obtain ⟨us, hus, hG⟩ := hr c a c₁ hr' hchain
  rw [hus] at hchain
  obtain ⟨vs, hvs, hH⟩ := hf us a hG c₁ b c' hf' hchain.right_of_append
  exact ⟨us ++ vs, by rw [hus, hvs, List.append_assoc], hH⟩

theorem Yields.mono {G' : List Token → α → Prop} (h : Yields r G) (hG : ∀ ts a, G ts a → G' ts a) : Yields r G' := by
  intro c a c' hr hchain
  obtain ⟨ts, hts, ha⟩ := h c a c' hr hchain
  exact ⟨ts, hts, hG ts a ha⟩

theorem yields_expect (place : Place) : Yields (expect place) fun ts t => ts = [t] ∧ t.kind = place.kind := by
  intro c t c' h _
  unfold expect at h
  split at h
  · cases h
  · rename_i t rest hc
    split at h
    · cases h
      exact ⟨[_], hc, rfl, ‹_›⟩
    · cases h

theorem Yields.after_expect {place : Place} {f : Token → Reader β}
    (hf : ∀ t, t.kind = place.kind → Yields (f t) fun ts b => H (t :: ts) b) : Yields (expect place >>= f) H := by
  refine (yields_expect place).bind ?_
  rintro _ t ⟨rfl, ht⟩
  exact hf t ht

theorem skip?_eq_some {kind : TokenKind} {c c' : Cursor} (h : c.skip? kind = some c') :
    ∃ t, c.rest = t :: c'.rest ∧ t.kind = kind := by
  unfold Cursor.skip? at h
  split at h
  · cases h
  · rename_i t rest hc
    split at h
    · cases h
      exact ⟨_, hc, ‹_›⟩
    · cases h

theorem yields_skips (kind : TokenKind) :
    Yields (skips kind) fun ts b => (b = true ∧ ∃ t, ts = [t] ∧ t.kind = kind) ∨ (b = false ∧ ts = []) := by
  intro c b c' h _
  unfold skips at h
  split at h
  · rename_i c₁ hskip
    cases h
    obtain ⟨t, hc, ht⟩ := skip?_eq_some hskip
    exact ⟨[t], hc, .inl ⟨rfl, t, rfl, ht⟩⟩
  · cases h
    exact ⟨[], rfl, .inr ⟨rfl, rfl⟩⟩

theorem Yields.after_skips {kind : TokenKind} {f : Bool → Reader β}
    (htrue : ∀ t, t.kind = kind → Yields (f true) fun ts b => H (t :: ts) b) (hfalse : Yields (f false) H) :
    Yields (skips kind >>= f) H := by
  refine (yields_skips kind).bind ?_
  rintro _ _ (⟨rfl, t, rfl, ht⟩ | ⟨rfl, rfl⟩)
  · exact htrue t ht
  · exact hfalse

end Sequences

/-! ## Expressions and types -/

theorem yields_expression : Yields expression (EndsIn .semicolon IsSum) := by
  intro c e c' h hchain
  exact (runs_of_run h hchain (Context.fresh_false _)).spells rfl Open.start

/-- A call after its opening parenthesis. -/
theorem yields_call {t o : Token} (ht : t.kind = .ident) (ho : o.kind = .leftParen) :
    Yields (call t.lexeme t.line) fun ts site => IsCall (t :: o :: ts) site := by
  intro c site c' h hchain
  unfold call at h
  split at h
  · rename_i c₁ hskip
    cases h
    obtain ⟨p, hc, hp⟩ := skip?_eq_some hskip
    exact ⟨[p], hc, .empty ht ho hp⟩
  · exact (runs_of_run h hchain (Context.fresh_false _)).spells (.mk ht ho .nil) Open.start

theorem yields_type : Yields type IsType := by
  refine .after_expect fun t ht => ?_
  cases hty : t.literalType with
  | none => exact yields_fail _ _
  | some base =>
    refine .after_skips (fun star hstar => ?_) (yields_pure (.base ht hty))
    rw [if_pos rfl]
    split
    · exact yields_fail _ _
    · exact yields_pure (.pointer ht hty hstar ‹_›)

theorem yields_binding {word : Token} (hword : word.kind = .letWord) :
    Yields (binding word.line) fun ts b => IsBinding (word :: ts) b := by
  refine .after_expect fun name hname => .after_expect fun colon hcolon => ?_
  refine yields_type.bind fun us ty hty => .after_expect fun equals hequals => ?_
  refine yields_expression.bind ?_
  rintro _ e ⟨init, semicolon, rfl, hsemicolon, hinit⟩
  refine yields_pure ?_
  have := IsBinding.mk hword (.mk hname hcolon hty) hequals hinit hsemicolon
  simpa using this

/-! ## Parameters -/

/-- A parameter with the token after it: a comma if another follows, or else the closing parenthesis. -/
def ParamEnds (ts : List Token) (p : Param × Bool) : Prop :=
  ∃ us c, ts = us ++ [c] ∧
    ((p.2 = true ∧ c.kind = .comma ∧ ∃ name ty, IsTyped us name ty ∧ p.1 = .named name ty) ∨
      (p.2 = false ∧ c.kind = .rightParen ∧ AreParams us [p.1]))

theorem yields_param : Yields param ParamEnds := by
  refine .after_skips (fun t ht => ?_) ?_
  · exact .after_expect fun c hc => yields_pure ⟨[t], c, rfl, .inr ⟨rfl, hc, .dots ht⟩⟩
  · refine .after_expect fun name hname => .after_expect fun colon hcolon => ?_
    refine yields_type.bind fun us ty hty => ?_
    have htyped := IsTyped.mk hname hcolon hty
    refine .after_skips (fun comma hcomma => ?_) (.after_expect fun c hc => ?_)
    · exact yields_pure ⟨name :: colon :: us, comma, by simp, .inl ⟨rfl, hcomma, _, _, htyped, rfl⟩⟩
    · exact yields_pure ⟨name :: colon :: us, c, by simp, .inr ⟨rfl, hc, .one htyped⟩⟩

theorem yields_paramList : Yields paramList (EndsIn .rightParen AreParams) := by
  intro c ps c' h hchain
  fun_induction paramList c generalizing ps c' with
  | case1 => cases h
  | case2 c p c₁ hparam _ ih =>
    obtain ⟨⟨qs, c₂⟩, hlist, h⟩ := map_eq_ok.mp h
    cases h
    obtain ⟨ts, hts, us, comma, rfl, ⟨-, hcomma, name, ty, htyped, rfl⟩ | ⟨⟨⟩, -⟩⟩ := yields_param c _ c₁ hparam hchain
    rw [hts] at hchain
    obtain ⟨_, hrest, vs, close, rfl, hclose, hparams⟩ := ih _ _ hlist hchain.right_of_append
    refine ⟨us ++ comma :: vs ++ [close], by rw [hts, hrest]; simp, _, close, rfl, hclose, .more htyped hcomma hparams⟩
  | case3 c p more c₁ hparam hmore =>
    cases h
    obtain ⟨ts, hts, us, close, rfl, ⟨hcontra, -⟩ | ⟨-, hclose, hparams⟩⟩ := yields_param c _ c₁ hparam hchain
    · exact absurd hcontra hmore
    · exact ⟨_, hts, us, close, rfl, hclose, hparams⟩

theorem yields_params : Yields params (EndsIn .rightParen IsParamList) := by
  refine .after_skips (fun c hc => yields_pure ⟨[], c, rfl, hc, .empty⟩) (yields_paramList.mono ?_)
  rintro _ ps ⟨us, c, rfl, hc, hparams⟩
  exact ⟨us, c, rfl, hc, .params hparams⟩

/-! ## Statements -/

theorem yields_simple : Yields simple IsStmt := by
  intro c s c' h hchain
  unfold simple at h
  split at h
  · cases h
  · rename_i t rest hc
    rw [hc] at hchain ⊢
    split at h
    · rename_i ht
      obtain ⟨⟨e, c₁⟩, hread, h⟩ := map_eq_ok.mp h
      cases h
      obtain ⟨_, hts, us, semicolon, rfl, hsemicolon, he⟩ := yields_expression _ _ _ hread hchain.tail
      exact ⟨t :: (us ++ [semicolon]), congrArg (t :: ·) hts, .ret ht he hsemicolon⟩
    · rename_i ht
      obtain ⟨⟨b, c₁⟩, hread, h⟩ := map_eq_ok.mp h
      cases h
      obtain ⟨ts, hts, hb⟩ := yields_binding ht _ _ _ hread hchain.tail
      exact ⟨t :: ts, congrArg (t :: ·) hts, .bind hb⟩
    · rename_i ht
      split at h
      · rename_i p rest
        split at h
        · rename_i hp
          obtain ⟨⟨site, c₁⟩, hread, h⟩ := bind_eq_ok.mp h
          obtain ⟨⟨semicolon, c₂⟩, hend, h⟩ := bind_eq_ok.mp h
          cases h
          have hchain := hchain.tail.tail
          obtain ⟨ts, hts, hsite⟩ := yields_call ht hp _ _ _ hread hchain
          have hts : rest = ts ++ c₁.rest := hts
          rw [hts] at hchain ⊢
          obtain ⟨_, hrest, rfl, hsemicolon⟩ := yields_expect _ _ _ _ hend hchain.right_of_append
          refine ⟨t :: p :: ts ++ [semicolon], ?_, .call hsite hsemicolon⟩
          rw [hrest]
          simp
        · cases h
        · cases h
      · cases h
    · cases h

/-- What has been read of a block: its statements so far, and those of the blocks that are open in it. -/
inductive BlocksOpen : List (List Stmt) → List Stmt → List Token → Prop
  | here {done : List Stmt} {ts : List Token} (h : AreStmts ts done.reverse) : BlocksOpen [] done ts
  | inside {outer : List (List Stmt)} {around done : List Stmt} {pre ts : List Token} {o : Token}
      (houter : BlocksOpen outer around pre) (ho : o.kind = .leftBrace) (h : AreStmts ts done.reverse) :
      BlocksOpen (around :: outer) done (pre ++ o :: ts)

theorem areStmts_snoc {us : List Token} {s : Stmt} (hs : IsStmt us s) :
    {ts : List Token} → {ss : List Stmt} → AreStmts ts ss → AreStmts (ts ++ us) (ss ++ [s])
  | _, _, .nil => by simpa using AreStmts.cons hs .nil
  | _, _, .cons h hrest => by
    rw [List.append_assoc]
    exact .cons h (areStmts_snoc hs hrest)

theorem BlocksOpen.stmt {outer : List (List Stmt)} {done : List Stmt} {pre ts : List Token} {s : Stmt}
    (h : BlocksOpen outer done pre) (hs : IsStmt ts s) : BlocksOpen outer (s :: done) (pre ++ ts) := by
  cases h with
  | here h =>
    refine .here ?_
    rw [List.reverse_cons]
    exact areStmts_snoc hs h
  | inside houter ho h =>
    rw [List.append_assoc, List.cons_append]
    refine .inside houter ho ?_
    rw [List.reverse_cons]
    exact areStmts_snoc hs h

/-- The closing brace of an inner block makes it a statement of the block around it. -/
theorem BlocksOpen.close {outer : List (List Stmt)} {around done : List Stmt} {pre : List Token} {c : Token}
    (h : BlocksOpen (around :: outer) done pre) (hc : c.kind = .rightBrace) :
    BlocksOpen outer (closed done :: around) (pre ++ [c]) := by
  cases h with
  | inside houter ho h =>
    rw [List.append_assoc, List.cons_append]
    exact houter.stmt (.block ho h hc)

theorem spells_blocks {outer : List (List Stmt)} {done ss : List Stmt} {c c' : Cursor} {pre : List Token}
    (hpre : BlocksOpen outer done pre) (h : blocks outer done c = .ok (ss, c')) (hchain : c.rest.IsChain Separate) :
    ∃ us, c.rest = us ++ c'.rest ∧ EndsIn .rightBrace AreStmts (pre ++ us) ss := by
  fun_induction blocks outer done c generalizing pre with
  | case1 => cases h
  | case2 done c t rest hc _ ht =>
    cases h
    cases hpre with
    | here hpre => exact ⟨[t], hc, pre, t, rfl, ht, hpre⟩
  | case3 done c t rest hc _ ht around outer ih =>
    rw [hc] at hchain ⊢
    obtain ⟨us, hus, hend⟩ := ih (hpre.close ht) h hchain.tail
    exact ⟨t :: us, congrArg (t :: ·) hus, by simpa using hend⟩
  | case4 outer done c t rest hc _ ht ih =>
    rw [hc] at hchain ⊢
    obtain ⟨us, hus, hend⟩ := ih (hpre.inside ht .nil) h hchain.tail
    exact ⟨t :: us, congrArg (t :: ·) hus, by simpa using hend⟩
  | case5 => cases h
  | case6 outer done c t rest hc _ s c₁ hsimple _ _ _ ih =>
    obtain ⟨ts, hts, hs⟩ := yields_simple c s c₁ hsimple hchain
    rw [hts] at hchain
    obtain ⟨us, hus, hend⟩ := ih (hpre.stmt hs) h hchain.right_of_append
    exact ⟨ts ++ us, by rw [hts, hus, List.append_assoc], by simpa using hend⟩

theorem yields_block : Yields block (EndsIn .rightBrace AreStmts) := by
  intro c ss c' h hchain
  exact spells_blocks (.here .nil) h hchain

/-! ## Declarations -/

theorem yields_body (name : String) : Yields (body name) IsBody := by
  refine .after_skips (fun t ht => yields_pure (.none ht)) (.after_skips (fun o ho => ?_) ?_)
  · refine yields_block.bind ?_
    rintro _ ss ⟨us, c, rfl, hc, hss⟩
    refine yields_pure ?_
    rw [List.append_nil]
    exact .some ho hss hc
  · nofun

theorem yields_function {word : Token} (hword : word.kind = .fnWord) :
    Yields (function word.line) fun ts f => IsFunction (word :: ts) f := by
  have hlinkage : Yields (skips .externWord) IsLinkage := by
    refine (yields_skips _).mono ?_
    rintro _ _ (⟨rfl, t, rfl, ht⟩ | ⟨rfl, rfl⟩)
    · exact .external ht
    · exact .internal
  refine hlinkage.bind fun linkage external hlinkage => ?_
  refine .after_expect fun name hname => .after_expect fun o ho => yields_params.bind ?_
  rintro _ ps ⟨params, c, rfl, hc, hparams⟩
  refine .after_expect fun arrow harrow => yields_type.bind fun type ret htype => ?_
  refine (yields_body name.lexeme).bind fun stmts body hbody => yields_pure ?_
  have := IsFunction.mk hword hlinkage hname ho hparams hc harrow htype hbody
  simpa using this

theorem yields_declaration :
    Yields declaration fun ts d => (∃ b, d = .global b ∧ IsBinding ts b) ∨ ∃ f, d = .function f ∧ IsFunction ts f := by
  intro c d c' h hchain
  unfold declaration at h
  split at h
  · cases h
  · rename_i t rest hc
    rw [hc] at hchain ⊢
    split at h
    · rename_i ht
      obtain ⟨⟨b, c₁⟩, hread, h⟩ := map_eq_ok.mp h
      cases h
      obtain ⟨ts, hts, hb⟩ := yields_binding ht _ _ _ hread hchain.tail
      exact ⟨t :: ts, congrArg (t :: ·) hts, .inl ⟨b, rfl, hb⟩⟩
    · rename_i ht
      obtain ⟨⟨f, c₁⟩, hread, h⟩ := map_eq_ok.mp h
      cases h
      obtain ⟨ts, hts, hf⟩ := yields_function ht _ _ _ hread hchain.tail
      exact ⟨t :: ts, congrArg (t :: ·) hts, .inr ⟨f, rfl, hf⟩⟩
    · cases h

theorem isProgram_of_declarations {c : Cursor} {ds : List Declaration} (h : declarations c = .ok ds)
    (hchain : c.rest.IsChain Separate) : IsProgram c.rest (.ofDeclarations ds) := by
  fun_induction declarations c generalizing ds with
  | case1 c hc =>
    cases h
    rw [hc]
    exact .nil
  | case2 => cases h
  | case3 c hc d c₁ hread _ ih =>
    obtain ⟨ds, hds, rfl⟩ := map_eq_ok.mp h
    obtain ⟨ts, hts, hd⟩ := yields_declaration _ _ _ hread hchain
    rw [hts] at hchain ⊢
    have hrest := ih hds hchain.right_of_append
    rcases hd with ⟨b, rfl, hb⟩ | ⟨f, rfl, hf⟩
    · exact .global hb hrest
    · exact .function hf hrest

end Reader

/-- The tokens before the first end mark. -/
def beforeEnd (tokens : List Token) : List Token :=
  tokens.takeWhile (·.kind ≠ .endMark)

/-- **What is read as a program is spelled by its tokens exactly if no operand directly follows another.** -/
theorem ofTokens_isProgram_iff {tokens : List Token} {p : Program} (h : Program.ofTokens tokens = .ok p) :
    IsProgram (beforeEnd tokens) p ↔ (beforeEnd tokens).IsChain Separate := by
  refine ⟨fun h => (apart_program h).chain, fun hchain => ?_⟩
  obtain ⟨c, hc, h⟩ := Reader.bind_eq_ok.mp h
  obtain ⟨ds, hds, h⟩ := Reader.bind_eq_ok.mp h
  cases h
  have hrest : c.rest = beforeEnd tokens := by
    unfold Cursor.ofTokens at hc
    split at hc
    · cases hc
    · split at hc
      · cases hc
        simp [beforeEnd]
      · cases hc
  rw [← hrest] at hchain ⊢
  exact Reader.isProgram_of_declarations hds hchain

end SsaCompiler.Lang
