import SsaCompiler.Proofs.Lang.Program.Joining
import SsaCompiler.Proofs.Lang.Spelled
import SsaCompiler.Proofs.Lang.Token.Scanning

/-!
# Programs as they are spelled

The tokens of a text have the form that its characters gave them, and every reader makes its trees of tokens that
it read.  So the trees have it too, for any row of tokens that is read at all:

    scan text = .ok ts → every token of ts is spelled                                            (spelled_of_scan)
    Program.ofTokens ts = .ok p → every token of ts is spelled → p.Spelled                   (spelled_of_ofTokens)
-/

namespace SsaCompiler.Lang

/-! ## Tokens -/

/-- What a token has of its characters. -/
structure Token.Spelled (t : Token) : Prop where
  name : t.kind = .ident → Text.IsWord t.lexeme
  literal : ∀ e, t.literal? = some e → e.Spelled

theorem isMark_of_inWord {c : Char} (h : InWord c) : Text.isMark c = false :=
  Text.isMark_eq_false (by simp [Text.marks, InWord]) h

theorem IsWord.isWord_ofList {word : List Char} (h : IsWord word) : Text.IsWord (String.ofList word) := by
  obtain ⟨c, cs, rfl, hc, hcs⟩ := h
  have hfirst : InWord c := by
    rcases hc with hc | hc
    · exact .inl (by simp [Char.isAlphanum, hc])
    · exact .inr hc
  refine ⟨?_, ?_⟩
  · rw [String.toList_ofList]
    exact List.cons_ne_nil c cs
  · rw [String.toList_ofList]
    exact List.forall_mem_cons.mpr ⟨isMark_of_inWord hfirst, fun d hd => isMark_of_inWord (hcs d hd)⟩

/-- A number begins with a digit. -/
theorem Spelling.isLiteral {word : List Char} {kind : TokenKind} {lexeme : String} {carried : Option Prim} {ty : Prim}
    (h : Spelling word kind lexeme carried) (hkind : LiteralKind kind ty) : IsLiteral (carried.getD ty) lexeme := by
  rintro width hfloat
  cases h with
  | @float whole fraction hw hf =>
    obtain ⟨hnil, hdigits⟩ := hw
    obtain ⟨c, cs, rfl⟩ := List.exists_cons_of_ne_nil hnil
    exact ⟨c, cs ++ '.' :: fraction, by simp, hdigits c List.mem_cons_self⟩
  | int h =>
    cases hkind
    cases hfloat
  | string h => cases hfloat
  | symbol h => cases hkind <;> simp [symbols] at h
  | keyword h => cases hkind <;> simp [keywords] at h
  | typeName h => cases hkind
  | ident hword => cases hkind

theorem Spelling.spelled {word : List Char} {kind : TokenKind} {lexeme : String} {ty : Option Prim}
    (h : Spelling word kind lexeme ty) (line : Nat) : Token.Spelled { kind, lexeme, line, literalType := ty } where
  name := by
    rintro rfl
    cases h with
    | symbol h => simp [symbols] at h
    | keyword h => simp [keywords] at h
    | ident hword => exact hword.isWord_ofList
  literal := by
    intro e he
    obtain ⟨ty', hkind, rfl⟩ := Token.literal?_eq_some_iff.mp he
    exact .literal (h.isLiteral hkind)

theorem Lexes.spelled {before text : List Char} {ts : List Token} (h : Lexes before text ts) : ∀ t ∈ ts, t.Spelled := by
  induction h with
  | done hgap =>
    intro t ht
    cases List.mem_singleton.mp ht
    exact ⟨nofun, nofun⟩
  | token hgap hword hend _ ih => exact List.forall_mem_cons.mpr ⟨hword.spelled _, ih⟩

/-- **The tokens of a text** have the form of its characters. -/
theorem spelled_of_scan {text : String} {ts : List Token} (h : scan text = .ok ts) : ∀ t ∈ ts, t.Spelled :=
  (Source.lexes_of_tokens rfl h : Lexes [] text.toList ts).spelled

/-! ## Frames and contexts -/

theorem Call.Spelled.toExpr {c : Call} (h : c.Spelled) : c.toExpr.Spelled :=
  .call c.callee c.line h

theorem Call.Spelled.addArg {c : Call} (h : c.Spelled) {e : Expr} (he : e.Spelled) : (c.addArg e).Spelled :=
  List.forall_mem_append.mpr ⟨h, List.forall_mem_singleton.mpr he⟩

theorem Call.spelled_empty (callee : String) (line : Nat) : Call.Spelled { callee, args := [], line } :=
  nofun

namespace Frame

/-- The operands of a frame are made of tokens that were read. -/
def Spelled (f : Frame) : Prop :=
  ∀ e ∈ f.operands, e.Spelled

variable {f f' : Frame} {ps ps' : List Pending} {os os' : List Expr} {op : BinaryOp} {n line : Nat}

theorem spelled_empty (start : Nat) : (Frame.empty start).Spelled :=
  nofun

theorem Spelled.operand (h : f.Spelled) {e : Expr} (he : e.Spelled) : (f.operand e).Spelled :=
  List.forall_mem_cons.mpr ⟨he, h⟩

theorem Applies.spelled (h : Applies n ps os ps' os') (hos : ∀ e ∈ os, e.Spelled) : ∀ e ∈ os', e.Spelled := by
  induction h with
  | refl => exact hos
  | step _ _ ih =>
    obtain ⟨hr, hos⟩ := List.forall_mem_cons.mp hos
    obtain ⟨hl, hrest⟩ := List.forall_mem_cons.mp hos
    exact ih (List.forall_mem_cons.mpr ⟨.binary _ hl hr, hrest⟩)

theorem Spelled.operator (h : f.Spelled) (hf : f.operator op line = .ok f') : f'.Spelled := by
  obtain ⟨ps, os, happ, -, rfl⟩ := applies_of_operator hf
  exact happ.spelled h

theorem Spelled.closeParen (h : f.Spelled) (hf : f.closeParen line = .ok f') : f'.Spelled := by
  obtain ⟨opened, ps, os, happ, rfl⟩ := applies_of_closeParen hf
  exact happ.spelled h

theorem Spelled.finish (h : f.Spelled) {e : Expr} (hf : f.finish = .ok e) : e.Spelled :=
  (applies_of_finish hf).spelled h e List.mem_cons_self

end Frame

/-- What a run delivers is made of tokens that were read. -/
def Goal.Spelled : {g : Goal} → g.Result → Prop
  | .expression, e => Expr.Spelled e
  | .call, c => Call.Spelled c

namespace Context

/-- The arguments and the frames of a context are made of tokens that were read. -/
def Spelled : {g : Goal} → Context g → Prop
  | _, .statement => True
  | _, .callGoal site => site.Spelled
  | _, .operand site frame outer => site.Spelled ∧ frame.Spelled ∧ outer.Spelled

variable {g : Goal} {context : Context g}

/-- A comma goes on with one more argument. -/
theorem Spelled.comma (h : context.Spelled) {next : Expr → Context g} (hnext : context.comma? = some next) {e : Expr}
    (he : e.Spelled) : (next e).Spelled := by
  cases context with
  | statement => cases hnext
  | callGoal site =>
    cases hnext
    exact Call.Spelled.addArg h he
  | operand site frame outer =>
    cases hnext
    exact ⟨h.1.addArg he, h.2⟩

/-- **A successful run keeps what its tokens have.** -/
theorem Steps.spelled {f : Frame} {tokens rest : List Token} {r : g.Result} (h : Steps context f tokens r rest)
    (htokens : ∀ t ∈ tokens, t.Spelled) (hcontext : context.Spelled) (hf : f.Spelled) :
    Goal.Spelled r ∧ ∀ t ∈ rest, t.Spelled := by
  induction h with
  | literal ht _ ih =>
    obtain ⟨hfirst, hts⟩ := List.forall_mem_cons.mp htokens
    exact ih hts hcontext (hf.operand (hfirst.literal _ (Token.literal?_eq_some_iff.mpr ⟨_, ht, rfl⟩)))
  | name _ _ _ ih => exact ih (List.forall_mem_cons.mp htokens).2 hcontext (hf.operand (.name _))
  | emptyCall _ _ _ _ ih =>
    obtain ⟨-, -, -, hts⟩ := by simpa only [List.forall_mem_cons] using htokens
    exact ih hts hcontext (hf.operand (Call.spelled_empty _ _).toExpr)
  | call _ _ _ _ ih =>
    obtain ⟨-, -, hts⟩ := by simpa only [List.forall_mem_cons] using htokens
    exact ih hts ⟨Call.spelled_empty _ _, hf, hcontext⟩ (Frame.spelled_empty _)
  | openParen _ _ ih => exact ih (List.forall_mem_cons.mp htokens).2 hcontext hf
  | operator _ hf' _ ih => exact ih (List.forall_mem_cons.mp htokens).2 hcontext (hf.operator hf')
  | closeParen _ _ hf' _ ih => exact ih (List.forall_mem_cons.mp htokens).2 hcontext (hf.closeParen hf')
  | callGoal _ _ he => exact ⟨Call.Spelled.addArg hcontext (hf.finish he), (List.forall_mem_cons.mp htokens).2⟩
  | resume _ _ he _ ih =>
    obtain ⟨hsite, houter, hcontext⟩ := hcontext
    exact ih (List.forall_mem_cons.mp htokens).2 hcontext (houter.operand (hsite.addArg (hf.finish he)).toExpr)
  | comma _ hnext he _ ih =>
    exact ih (List.forall_mem_cons.mp htokens).2 (hcontext.comma hnext (hf.finish he)) (Frame.spelled_empty _)
  | semicolon _ he => exact ⟨hf.finish he, (List.forall_mem_cons.mp htokens).2⟩

end Context

/-! ## Readers -/

/-- The tokens that are left are spelled. -/
def Cursor.Spelled (c : Cursor) : Prop :=
  ∀ t ∈ c.rest, t.Spelled

theorem Cursor.Spelled.tail {c : Cursor} (h : c.Spelled) {t : Token} {rest : List Token} (hc : c.rest = t :: rest) :
    t.Spelled ∧ (c.after t rest).Spelled := by
  unfold Spelled at h
  rw [hc] at h
  exact List.forall_mem_cons.mp h

namespace Reader

/-- Whether `r` gives something with `P` where it reads tokens that are spelled. -/
def Gets {α : Type} (r : Reader α) (P : α → Prop) : Prop :=
  ∀ c a c', r c = .ok (a, c') → c.Spelled → P a ∧ c'.Spelled

section Sequences

variable {α β : Type} {r : Reader α} {f : α → Reader β} {P : α → Prop} {Q : β → Prop}

theorem gets_pure {a : α} (h : P a) : Gets (pure a) P := by
  rintro c _ _ ⟨⟩ hc
  exact ⟨h, hc⟩

theorem gets_fail (cause : SyntaxCause) (line : Nat) : Gets (fail cause line) P := nofun

theorem Gets.bind (hr : Gets r P) (hf : ∀ a, P a → Gets (f a) Q) : Gets (r >>= f) Q := by
  intro c b c' h hc
  obtain ⟨⟨a, c₁⟩, hfirst, hsecond⟩ := bind_eq_ok.mp h
  obtain ⟨ha, hc₁⟩ := hr c a c₁ hfirst hc
  exact hf a ha c₁ b c' hsecond hc₁

theorem gets_expect (place : Place) : Gets (expect place) fun t => t.kind = place.kind ∧ t.Spelled := by
  intro c t c' h hc
  unfold expect at h
  split at h
  · cases h
  · rename_i hrest
    split at h
    · rename_i hkind
      cases h
      obtain ⟨ht, htail⟩ := hc.tail hrest
      exact ⟨⟨hkind, ht⟩, htail⟩
    · cases h

theorem gets_skips (kind : TokenKind) : Gets (skips kind) fun _ => True := by
  intro c b c' h hc
  refine ⟨trivial, ?_⟩
  unfold skips at h
  split at h
  · rename_i hskip
    cases h
    obtain ⟨t, hrest, -⟩ := skip?_eq_some hskip
    intro u hu
    exact hc u (hrest ▸ List.mem_cons_of_mem t hu)
  · cases h
    exact hc

/-- Reading on after a place that only has to be filled. -/
theorem Gets.after_expect {place : Place} {f : Token → Reader β} (hf : ∀ t, Gets (f t) Q) :
    Gets (expect place >>= f) Q :=
  (gets_expect place).bind fun t _ => hf t

/-- Reading on after a token that may be there. -/
theorem Gets.after_skips {kind : TokenKind} {f : Bool → Reader β} (htrue : Gets (f true) Q) (hfalse : Gets (f false) Q) :
    Gets (skips kind >>= f) Q :=
  (gets_skips kind).bind fun there _ => by
    cases there with
    | true => exact htrue
    | false => exact hfalse

/-- The name that fills a place is a word. -/
theorem Gets.after_name {place : Place} {f : Token → Reader β} (hplace : place.kind = .ident)
    (hf : ∀ t, Text.IsWord t.lexeme → Gets (f t) Q) : Gets (expect place >>= f) Q :=
  (gets_expect place).bind fun t ⟨hkind, ht⟩ => hf t (ht.name (hkind.trans hplace))

end Sequences

theorem gets_expression : Gets expression Expr.Spelled :=
  fun _ _ _ h hc => (Context.steps_of_run h).spelled hc trivial (Frame.spelled_empty _)

theorem gets_call (callee : String) (line : Nat) : Gets (call callee line) Call.Spelled := by
  intro c site c' h hc
  unfold call at h
  split at h
  · rename_i c₁ hskip
    cases h
    obtain ⟨t, hrest, -⟩ := skip?_eq_some hskip
    exact ⟨Call.spelled_empty _ _, fun u hu => hc u (hrest ▸ List.mem_cons_of_mem t hu)⟩
  · exact (Context.steps_of_run h).spelled hc (Call.spelled_empty _ _) (Frame.spelled_empty _)

theorem gets_type : Gets type fun _ => True := by
  refine .after_expect fun t => ?_
  cases t.literalType with
  | none => exact gets_fail _ _
  | some base =>
    refine .after_skips ?_ (gets_pure trivial)
    simp only [if_true]
    split
    · exact gets_fail _ _
    · exact gets_pure trivial

theorem gets_binding (line : Nat) : Gets (binding line) Binding.Spelled := by
  refine .after_name rfl fun name hname => .after_expect fun _ => gets_type.bind fun ty _ => .after_expect fun _ => ?_
  exact gets_expression.bind fun init hinit => gets_pure ⟨hname, hinit⟩

/-! ## Parameters -/

/-- A parameter with a name has a word. -/
def IsNamed (p : Param) : Prop :=
  p.variadic = false → Text.IsWord p.name

theorem gets_param : Gets param fun (p, _) => IsNamed p := by
  refine .after_skips (.after_expect fun _ => gets_pure nofun) ?_
  refine .after_name rfl fun name hname => .after_expect fun _ => gets_type.bind fun ty _ => ?_
  exact .after_skips (gets_pure fun _ => hname) (.after_expect fun _ => gets_pure fun _ => hname)

theorem gets_paramList : Gets paramList fun ps => ∀ p ∈ ps, IsNamed p := by
  intro c ps c' h hc
  fun_induction paramList c generalizing ps c' with
  | case1 => cases h
  | case2 c p c₁ hparam _ ih =>
    obtain ⟨⟨qs, c₂⟩, hlist, h⟩ := map_eq_ok.mp h
    cases h
    obtain ⟨hp, hc₁⟩ := gets_param c _ c₁ hparam hc
    obtain ⟨hqs, hc₂⟩ := ih _ _ hlist hc₁
    exact ⟨List.forall_mem_cons.mpr ⟨hp, hqs⟩, hc₂⟩
  | case3 c p another c₁ hparam hlast =>
    cases h
    obtain ⟨hp, hc₁⟩ := gets_param c _ _ hparam hc
    exact ⟨List.forall_mem_singleton.mpr hp, hc₁⟩

theorem gets_params : Gets params fun ps => ∀ p ∈ ps, IsNamed p :=
  .after_skips (gets_pure nofun) gets_paramList

/-! ## Statements -/

theorem gets_simple : Gets simple Stmt.Spelled := by
  intro c s c' h hc
  unfold simple at h
  split at h
  · cases h
  · rename_i t rest hrest
    obtain ⟨-, htail⟩ := hc.tail hrest
    split at h
    · obtain ⟨⟨e, c₁⟩, hread, h⟩ := map_eq_ok.mp h
      cases h
      obtain ⟨he, hc₁⟩ := gets_expression _ _ _ hread htail
      exact ⟨.ret _ he, hc₁⟩
    · obtain ⟨⟨b, c₁⟩, hread, h⟩ := map_eq_ok.mp h
      cases h
      obtain ⟨hb, hc₁⟩ := gets_binding _ _ _ _ hread htail
      exact ⟨.bind hb, hc₁⟩
    · split at h
      · rename_i p rest
        split at h
        · obtain ⟨⟨site, c₁⟩, hread, h⟩ := bind_eq_ok.mp h
          obtain ⟨⟨semicolon, c₂⟩, hend, h⟩ := bind_eq_ok.mp h
          cases h
          obtain ⟨-, hafter⟩ := htail.tail (show (c.after t (p :: rest)).rest = p :: rest from rfl)
          obtain ⟨hsite, hc₁⟩ := gets_call _ _ _ _ _ hread hafter
          obtain ⟨-, hc₂⟩ := gets_expect _ _ _ _ hend hc₁
          exact ⟨.call hsite, hc₂⟩
        · cases h
        · cases h
      · cases h
    · cases h

/-- The statements of open blocks are kept while more are read. -/
theorem spelled_blocks {outer : List (List Stmt)} {done ss : List Stmt} {c c' : Cursor}
    (h : blocks outer done c = .ok (ss, c')) (hc : c.Spelled) (houter : ∀ ss ∈ outer, ∀ s ∈ ss, s.Spelled)
    (hdone : ∀ s ∈ done, s.Spelled) : (∀ s ∈ ss, s.Spelled) ∧ c'.Spelled := by
  fun_induction blocks outer done c with
  | case1 => cases h
  | case2 done c t rest hrest _ ht =>
    cases h
    exact ⟨fun s hs => hdone s (List.mem_reverse.mp hs), (hc.tail hrest).2⟩
  | case3 done c t rest hrest _ ht around outer ih =>
    obtain ⟨haround, houter⟩ := List.forall_mem_cons.mp houter
    have hclosed : (closed done).Spelled := .block fun s hs => hdone s (List.mem_reverse.mp hs)
    exact ih h (hc.tail hrest).2 houter (List.forall_mem_cons.mpr ⟨hclosed, haround⟩)
  | case4 outer done c t rest hrest _ ht ih =>
    exact ih h (hc.tail hrest).2 (List.forall_mem_cons.mpr ⟨hdone, houter⟩) (List.forall_mem_nil _)
  | case5 => cases h
  | case6 outer done c t rest hrest _ s c₁ hsimple _ _ _ ih =>
    obtain ⟨hs, hc₁⟩ := gets_simple _ _ _ hsimple hc
    exact ih h hc₁ houter (List.forall_mem_cons.mpr ⟨hs, hdone⟩)

theorem gets_block : Gets block fun ss => ∀ s ∈ ss, s.Spelled :=
  fun _ _ _ h hc => spelled_blocks h hc nofun nofun

/-! ## Declarations -/

theorem gets_body (name : String) : Gets (body name) fun body => ∀ ss, body = some ss → ∀ s ∈ ss, s.Spelled := by
  refine .after_skips (gets_pure nofun) (.after_skips ?_ nofun)
  refine gets_block.bind fun ss hss => gets_pure ?_
  rintro _ ⟨⟩
  exact hss

theorem gets_function (line : Nat) : Gets (function line) FunctionDecl.Spelled := by
  refine (gets_skips _).bind fun external _ => .after_name rfl fun name hname => .after_expect fun _ => ?_
  refine gets_params.bind fun ps hps => .after_expect fun _ => gets_type.bind fun ret _ => ?_
  refine (gets_body _).bind fun body hbody => gets_pure ⟨hname, fun p hp => ?_, hbody⟩
  obtain ⟨hmem, hfixed⟩ := List.mem_filter.mp hp
  exact hps p hmem (by simpa using hfixed)

end Reader

/-- A declaration is made of tokens that were read. -/
def Declaration.Spelled : Declaration → Prop
  | .global b => b.Spelled
  | .function f => f.Spelled

namespace Reader

theorem gets_declaration : Gets declaration Declaration.Spelled := by
  intro c d c' h hc
  unfold declaration at h
  split at h
  · cases h
  · rename_i t rest hrest
    obtain ⟨-, htail⟩ := hc.tail hrest
    split at h
    · obtain ⟨⟨b, c₁⟩, hread, h⟩ := map_eq_ok.mp h
      cases h
      exact gets_binding _ _ _ _ hread htail
    · obtain ⟨⟨f, c₁⟩, hread, h⟩ := map_eq_ok.mp h
      cases h
      exact gets_function _ _ _ _ hread htail
    · cases h

theorem spelled_declarations {c : Cursor} {ds : List Declaration} (h : declarations c = .ok ds) (hc : c.Spelled) :
    ∀ d ∈ ds, d.Spelled := by
  fun_induction declarations c generalizing ds with
  | case1 =>
    cases h
    exact List.forall_mem_nil _
  | case2 => cases h
  | case3 c _ d c₁ hread _ ih =>
    obtain ⟨ds, hds, rfl⟩ := map_eq_ok.mp h
    obtain ⟨hd, hc₁⟩ := gets_declaration c d c₁ hread hc
    exact List.forall_mem_cons.mpr ⟨hd, ih hds hc₁⟩

end Reader

/-! ## Programs -/

theorem Program.spelled_ofDeclarations {ds : List Declaration} (h : ∀ d ∈ ds, d.Spelled) :
    (ofDeclarations ds).Spelled where
  globals := by
    intro b hb
    obtain ⟨d, hd, hglobal⟩ := List.mem_filterMap.mp hb
    cases d with
    | global b' =>
      cases hglobal
      exact h _ hd
    | function f => cases hglobal
  functions := by
    intro f hf
    obtain ⟨d, hd, hfunction⟩ := List.mem_filterMap.mp hf
    cases d with
    | global b => cases hfunction
    | function f' =>
      cases hfunction
      exact h _ hd

/-- **The program of tokens that are spelled** has names that are words and numbers that begin with digits. -/
theorem spelled_of_ofTokens {ts : List Token} {p : Program} (hts : ∀ t ∈ ts, t.Spelled)
    (h : Program.ofTokens ts = .ok p) : p.Spelled := by
  obtain ⟨c, hc, h⟩ := Reader.bind_eq_ok.mp h
  obtain ⟨ds, hds, h⟩ := Reader.bind_eq_ok.mp h
  cases h
  refine Program.spelled_ofDeclarations (Reader.spelled_declarations hds ?_)
  unfold Cursor.ofTokens at hc
  split at hc
  · cases hc
  · split at hc
    · cases hc
      exact fun t ht => hts t ((List.takeWhile_prefix _).subset ht)
    · cases hc

end SsaCompiler.Lang
