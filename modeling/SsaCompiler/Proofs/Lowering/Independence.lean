import SsaCompiler.Proofs.Ir.Alike
import SsaCompiler.Proofs.Lowering.Linkage

/-!
# Bodies are lowered independently

What a body becomes depends on its declaration and on what is declared by then, and on nothing that other
bodies leave behind but the ids of data objects:

    ExprEmits d scope b e v b' → ExprEmits d scope c e w c' → b.Alike c → v = w ∧ b'.Alike c'

So two programs that differ in the body of one function become modules that differ in this function and in ids
of data objects.
-/

namespace SsaCompiler

/-- What two rows of steps keep between their states, taking one step each at a time. -/
theorem gives_forM_pair {ε σ α : Type} {f : α → ExceptT ε (StateM σ) PUnit} {R : α → α → Prop} {I : List α → List α → σ → σ → Prop}
    (hstep : ∀ done done' a a' s t u v s' t', R a a' → I done done' s t → Gives (f a) s u s' → Gives (f a') t v t' →
      I (done ++ [a]) (done' ++ [a']) s' t')
    {xs ys done done' : List α} {s t s' t' : σ} {u v : PUnit} (hxy : List.Forall₂ R xs ys) (h : I done done' s t)
    (hxs : Gives (xs.forM f) s u s') (hys : Gives (ys.forM f) t v t') : I (done ++ xs) (done' ++ ys) s' t' := by
  induction hxy generalizing done done' s t with
  | nil =>
    obtain ⟨-, rfl⟩ := gives_pure_iff.mp hxs
    obtain ⟨-, rfl⟩ := gives_pure_iff.mp hys
    rw [List.append_nil, List.append_nil]
    exact h
  | @cons x y xs ys hxy hrest ih =>
    obtain ⟨a, s₁, hx, hxs⟩ := gives_bind_iff.mp hxs
    obtain ⟨b, t₁, hy, hys⟩ := gives_bind_iff.mp hys
    have htail := ih (hstep done done' x y s t a b s₁ t₁ hxy h hx hy) hxs hys
    rw [List.append_assoc, List.append_assoc] at htail
    exact htail

end SsaCompiler

namespace SsaCompiler.Lowering

open Lang (Prim Binding Stmt Expr Param FunctionDecl Program)
open Ir (Body Module Function FuncId ValueId Inst)

/-! ## Emitting into bodies that are alike -/

theorem Coerces.alike {b b' c c' : Body} {x : Typed} {target : Prim} {v w : ValueId}
    (h : Coerces b x target v b') (h' : Coerces c x target w c') (hbc : b.Alike c) : v = w ∧ b'.Alike c' := by
  cases h with
  | same heq =>
    cases h' with
    | same => exact ⟨rfl, hbc⟩
    | keep hne => exact absurd heq hne
    | apply hne => exact absurd heq hne
  | keep hne hty hc =>
    cases h' with
    | same heq => exact absurd heq hne
    | keep => exact ⟨rfl, hbc⟩
    | apply _ _ hc' =>
      rw [hc] at hc'
      cases hc'
  | apply hne hty hc =>
    cases h' with
    | same heq => exact absurd heq hne
    | keep _ _ hc' =>
      rw [hc] at hc'
      cases hc'
    | apply _ hty' hc' =>
      rw [hc] at hc'
      cases hc'
      rw [hty] at hty'
      cases hty'
      exact ⟨hbc.next_values, hbc.snoc (.same (by simp)) _⟩

theorem Unifies.alike {b b' c c' : Body} {x y : Typed} {ty ty' : Prim} {l l' r r' : ValueId}
    (h : Unifies b x y ty l r b') (h' : Unifies c x y ty' l' r' c') (hbc : b.Alike c) :
    ty = ty' ∧ l = l' ∧ r = r' ∧ b'.Alike c' := by
  cases h with
  | right hlt hc =>
    cases h' with
    | right _ hc' =>
      obtain ⟨hr, hbc'⟩ := hc.alike hc' hbc
      exact ⟨rfl, rfl, hr, hbc'⟩
    | left hnot => exact absurd hlt hnot
  | left hnot hc =>
    cases h' with
    | right hlt => exact absurd hlt hnot
    | left _ hc' =>
      obtain ⟨hl, hbc'⟩ := hc.alike hc' hbc
      exact ⟨rfl, hl, rfl, hbc'⟩

mutual

/-- An expression has one value, and the same is emitted for it up to data ids. -/
theorem ExprEmits.alike {d : Declarations} {scope : Scope} : ∀ {b c : Body} {e : Expr} {v w : Typed} {b' c' : Body},
    ExprEmits d scope b e v b' → ExprEmits d scope c e w c' → b.Alike c → v = w ∧ b'.Alike c'
  | b, c, _, _, _, _, _, .float h, h', hbc => by
    cases h' with
    | float h' =>
      rw [h] at h'
      cases h'
      exact ⟨by rw [hbc.next_values], hbc.snoc (.same (by simp)) _⟩
  | b, c, _, _, _, _, _, .int h _, h', hbc => by
    cases h' with
    | int h' =>
      rw [h] at h'
      cases h'
      exact ⟨by rw [hbc.next_values], hbc.snoc (.same (by simp)) _⟩
  | b, c, _, _, _, _, _, .str text, h', hbc => by
    cases h' with
    | str =>
      obtain ⟨hdata, hinst⟩ := hbc.withData text.toUTF8.toList
      exact ⟨by rw [hbc.next_values], hdata.snoc hinst _⟩
  | b, c, _, _, _, _, _, .var h hs, h', hbc => by
    cases h' with
    | var h' hs' =>
      rw [h] at h'
      cases h'
      rw [hbc.func.slots, hs'] at hs
      cases hs
      exact ⟨by rw [hbc.next_values], hbc.snoc (.same (by simp)) _⟩
    | global h' =>
      rw [h] at h'
      cases h'
  | b, c, _, _, _, _, _, .global h hd hg, h', hbc => by
    cases h' with
    | var h' =>
      rw [h] at h'
      cases h'
    | global _ hd' hg' =>
      rw [hd] at hd'
      cases hd'
      rw [hbc.globals, hg'] at hg
      cases hg
      exact ⟨by rw [hbc.next_values], hbc.snoc (.same (by simp)) _⟩
  | b, c, _, _, _, _, _, .binary hl hr hu hop hty, h', hbc => by
    cases h' with
    | binary hl' hr' hu' hop' hty' =>
      obtain ⟨rfl, h₁⟩ := hl.alike hl' hbc
      obtain ⟨rfl, h₂⟩ := hr.alike hr' h₁
      obtain ⟨rfl, rfl, rfl, h₃⟩ := hu.alike hu' h₂
      rw [hop] at hop'
      cases hop'
      rw [hty] at hty'
      cases hty'
      exact ⟨by rw [h₃.next_values], h₃.snoc (.same (by simp)) _⟩
  | b, c, _, _, _, _, _, .call hd _ ha hty _, h', hbc => by
    cases h' with
    | call hd' _ ha' hty' =>
      rw [hd] at hd'
      cases hd'
      obtain ⟨rfl, h₁⟩ := ha.alike ha' hbc
      rw [hty] at hty'
      cases hty'
      exact ⟨by rw [h₁.next_values], h₁.snoc (.same (by simp)) _⟩

theorem ArgsEmit.alike {d : Declarations} {scope : Scope} :
    ∀ {callee : String} {params : List Prim} {b c : Body} {es : List Expr} {vs ws : List ValueId} {b' c' : Body},
      ArgsEmit d scope callee params b es vs b' → ArgsEmit d scope callee params c es ws c' → b.Alike c →
      vs = ws ∧ b'.Alike c'
  | _, _, b, c, _, _, _, _, _, .nil, h', hbc => by
    cases h' with
    | nil => exact ⟨rfl, hbc⟩
  | _, _, b, c, _, _, _, _, _, .cons he hc _ hs, h', hbc => by
    cases h' with
    | cons he' hc' _ hs' =>
      obtain ⟨rfl, h₁⟩ := he.alike he' hbc
      obtain ⟨rfl, h₂⟩ := hc.alike hc' h₁
      obtain ⟨rfl, h₃⟩ := hs.alike hs' h₂
      exact ⟨rfl, h₃⟩

end

theorem StmtEmits.alike {d : Declarations} {ret : Prim} {scope scope₁ scope₂ : Scope} {b b' c c' : Body} {s : Stmt}
    (h : StmtEmits d ret scope b s scope₁ b') (h' : StmtEmits d ret scope c s scope₂ c') (hbc : b.Alike c) :
    scope₁ = scope₂ ∧ b'.Alike c' := by
  cases h with
  | bind _ _ hty he hc =>
    cases h' with
    | bind _ _ hty' he' hc' =>
      rw [hty] at hty'
      cases hty'
      obtain ⟨rfl, h₁⟩ := he.alike he' hbc
      obtain ⟨rfl, h₂⟩ := hc.alike hc' (h₁.withSlot _ _)
      rw [h₁.next_slots]
      exact ⟨rfl, h₂.snoc (.same (by simp)) _⟩
  | ret _ he hc =>
    cases h' with
    | ret _ he' hc' =>
      obtain ⟨rfl, h₁⟩ := he.alike he' hbc
      obtain ⟨rfl, h₂⟩ := hc.alike hc' h₁
      exact ⟨rfl, h₂.snoc (.same (by simp)) _⟩
  | call hd _ ha hty =>
    cases h' with
    | call hd' _ ha' hty' =>
      rw [hd] at hd'
      cases hd'
      obtain ⟨rfl, h₁⟩ := ha.alike ha' hbc
      rw [hty] at hty'
      cases hty'
      exact ⟨rfl, h₁.snoc (.same (by simp)) _⟩

theorem StmtsEmit.alike {d : Declarations} {ret : Prim} {scope : Scope} {b b' c c' : Body} {ss : List Stmt}
    (h : StmtsEmit d ret scope b ss b') (h' : StmtsEmit d ret scope c ss c') (hbc : b.Alike c) : b'.Alike c' := by
  induction h generalizing c with
  | nil =>
    cases h' with
    | nil => exact hbc.snoc (.same (by simp)) _
  | ret hs =>
    cases h' with
    | ret hs' => exact (hs.alike hs' hbc).2
    | cons _ hne => exact absurd rfl (hne _ _)
  | cons hs hne hss ih =>
    cases h' with
    | ret => exact absurd rfl (hne _ _)
    | cons hs' _ hss' =>
      obtain ⟨rfl, h₁⟩ := hs.alike hs' hbc
      exact ih hss' h₁

theorem storeParam_alike {b c : Body} (hbc : b.Alike c) (index : Nat) (p : Param) (ty : Ir.Ty) :
    (storeParam b index p ty).Alike (storeParam c index p ty) := by
  unfold storeParam
  rw [hbc.next_slots]
  exact ((hbc.withName _ _).withSlot _ _).snoc (.same (by simp)) _

theorem ParamsEmit.alike {index : Nat} {scope scope₁ scope₂ : Scope} {b b' c c' : Body} {ps : List Param}
    (h : ParamsEmit index scope b ps scope₁ b') (h' : ParamsEmit index scope c ps scope₂ c') (hbc : b.Alike c) :
    scope₁ = scope₂ ∧ b'.Alike c' := by
  induction h generalizing c with
  | nil =>
    cases h' with
    | nil => exact ⟨rfl, hbc⟩
  | cons hnew hty hps ih =>
    cases h' with
    | cons _ hty' hps' =>
      rw [hty] at hty'
      cases hty'
      rw [← hbc.next_slots] at hps'
      exact ih hps' (storeParam_alike hbc _ _ _)

/-- The same body is emitted into bodies that are alike. -/
theorem BodyEmits.alike {d : Declarations} {decl : FunctionDecl} {ss : List Stmt} {b b' c c' : Body}
    (h : BodyEmits d decl ss b b') (h' : BodyEmits d decl ss c c') (hbc : b.Alike c) : b'.Alike c' := by
  obtain ⟨hp, hs⟩ := h
  obtain ⟨hp', hs'⟩ := h'
  obtain ⟨rfl, h₁⟩ := hp.alike hp' hbc
  exact hs.alike hs' h₁

/-! ## Declarations side by side -/

/-- Two declarations that differ at most in their bodies, and in these only for one name. -/
structure Varies (n : String) (decl decl' : FunctionDecl) : Prop where
  prototype : prototype decl = Lowering.prototype decl'
  isSome : decl.body.isSome = decl'.body.isSome
  body : decl.name ≠ n → decl.body = decl'.body

namespace Varies

variable {n : String} {decl decl' : FunctionDecl}

theorem refl (n : String) (decl : FunctionDecl) : Varies n decl decl :=
  ⟨rfl, rfl, fun _ => rfl⟩

/-- What does not depend on the body is the same. -/
theorem congr {α : Type} (h : Varies n decl decl') (f : FunctionDecl → α)
    (hf : ∀ decl, f (Lowering.prototype decl) = f decl) : f decl = f decl' := by
  rw [← hf decl, h.prototype, hf decl']

theorem name (h : Varies n decl decl') : decl.name = decl'.name :=
  h.congr FunctionDecl.name fun _ => rfl

/-- A declaration of another name is the same. -/
theorem eq (h : Varies n decl decl') (hne : decl.name ≠ n) : decl = decl' := by
  have hproto := h.prototype
  have hbody := h.body hne
  obtain ⟨name, external, params, ret, body, line⟩ := decl
  obtain ⟨name', external', params', ret', body', line'⟩ := decl'
  simp only [Lowering.prototype, FunctionDecl.mk.injEq] at hproto hbody ⊢
  tauto

theorem firstLinkage (h : Varies n decl decl') :
    LowerProgram.firstLinkage decl = LowerProgram.firstLinkage decl' := by
  have hvisible : decl.isVisible = decl'.isVisible := h.congr FunctionDecl.isVisible fun _ => rfl
  rw [firstLinkage_eq, firstLinkage_eq, hvisible, h.isSome]

end Varies

/-- The states of lowering two programs that differ in the bodies of one name. -/
structure Beside (n : String) (s t : ProgramState) : Prop where
  decls : s.decls = t.decls
  module : s.module.AlikeBut n t.module

namespace Beside

variable {n : String} {gs : List Binding} {fs fs' : List FunctionDecl} {decl decl' : FunctionDecl}
  {s s' t t' : ProgramState} {u v : Unit}

/-- The same global is added on both sides. -/
theorem global (h : Beside n s t) {b : Binding} (hs : Gives (LowerProgram.global b) s u s')
    (ht : Gives (LowerProgram.global b) t v t') : Beside n s' t' := by
  obtain ⟨g, hg, hmodule, hdecls⟩ := LowerProgram.global_inv hs
  obtain ⟨g', hg', hmodule', hdecls'⟩ := LowerProgram.global_inv ht
  refine ⟨?_, ?_⟩
  · rw [hdecls, hdecls', h.decls, h.module.globals]
  · rw [hmodule, hmodule', hg.unique hg']
    exact h.module.pushGlobal g'

theorem declare (h : Beside n s t) (hvaries : Varies n decl decl') {id id' : FuncId}
    (hs : Gives (LowerProgram.declare decl) s id s') (ht : Gives (LowerProgram.declare decl') t id' t') :
    id = id' ∧ Beside n s' t' := by
  have hname := hvaries.name
  rcases LowerProgram.declare_inv hs with
    ⟨info, f, hinfo, rfl, hf, rfl⟩ | ⟨hnew, rfl, params, ret, i, signatures, hparams, hret, hintern, rfl⟩
  · rcases LowerProgram.declare_inv ht with ⟨info', g, hinfo', rfl, hg, rfl⟩ | ⟨hnew', -⟩
    · rw [h.decls, hname, hinfo'] at hinfo
      cases hinfo
      have hhead := h.module.heads _ f g hf hg
      have hlinkage : LowerProgram.laterLinkage f.linkage decl.body.isSome =
          LowerProgram.laterLinkage g.linkage decl'.body.isSome := by
        rw [hhead.linkage, hvaries.isSome]
      refine ⟨rfl, h.decls, ?_⟩
      refine h.module.setFunction (.refl _) (.refl _) hf hg ⟨hhead.name, hhead.signature, hlinkage⟩ ?_
      exact fun hne => (h.module.alike _ f g hf hg hne).withLinkage hlinkage
    · rw [h.decls, hname, hnew'] at hinfo
      cases hinfo
  · rcases LowerProgram.declare_inv ht with
      ⟨info', g, hinfo', -⟩ | ⟨-, rfl, params', ret', i', signatures', hparams', hret', hintern', rfl⟩
    · rw [h.decls, hname, hinfo'] at hnew
      cases hnew
    · rw [hvaries.congr FunctionDecl.fixedTypes fun _ => rfl, hparams'] at hparams
      rw [hvaries.congr FunctionDecl.ret fun _ => rfl, hret'] at hret
      cases hret
      obtain rfl : params' = params := List.map_injective_iff.mpr (fun _ _ => Option.some.inj) hparams
      rw [hvaries.congr (signatureFor · params' ret) fun _ => rfl] at hintern
      obtain ⟨rfl, rfl⟩ := h.module.internSignature hintern hintern'
      refine ⟨h.module.next, ?_, ?_⟩
      · show s.decls.addFunction _ _ = t.decls.addFunction _ _
        rw [h.decls, hname, hvaries.congr (firstInfo · _) fun _ => rfl, h.module.next]
      · show Module.AlikeBut n { s.module with signatures, functions := s.module.functions.push (.declared _ _ _) }
          { t.module with signatures, functions := t.module.functions.push (.declared _ _ _) }
        rw [hname, hvaries.firstLinkage]
        exact h.module.pushFunction signatures rfl

/-- Bodies that differ belong to the name that is left out. -/
theorem body (h : Beside n s t) (hvaries : Varies n decl decl') {id : FuncId} (hds : Declared gs fs decl id s)
    (hdt : Declared gs fs' decl' id t) {ss ss' : List Stmt} (hss : decl.body = some ss) (hss' : decl'.body = some ss')
    (hs : Gives (LowerProgram.body id decl ss) s u s') (ht : Gives (LowerProgram.body id decl' ss') t v t') :
    Beside n s' t' := by
  have hname := hvaries.name
  obtain ⟨-, i, linkage, sig, b, journal, hget, hsig, hdescribes, hemits, rfl⟩ :=
    (LowerProgram.settles_body hds hss).of_run hs
  obtain ⟨-, i', linkage', sig', c, journal', hget', hsig', hdescribes', hemits', rfl⟩ :=
    (LowerProgram.settles_body hdt hss').of_run ht
  obtain ⟨-, hext⟩ := hemits.finished hsig (Declarations.in_markDefined hds.holds.decls decl.name) hdescribes
  obtain ⟨-, hext'⟩ := hemits'.finished hsig' (Declarations.in_markDefined hdt.holds.decls decl'.name) hdescribes'
  -- both functions were declared alike, so their bodies begin alike
  have hhead := h.module.heads _ _ _ hget hget'
  obtain rfl : i = i' := hhead.signature
  obtain rfl : linkage = linkage' := hhead.linkage
  rw [h.module.signatures, hsig'] at hsig
  cases hsig
  have halike : decl.name ≠ n → b.func.Alike b.module.data c.module.data c.func := by
    intro hne
    obtain rfl := hvaries.eq hne
    rw [hss] at hss'
    cases hss'
    rw [← h.decls] at hemits'
    exact (hemits.alike hemits' ⟨h.module.globals, .of_empty _ _ rfl⟩).func
  obtain ⟨data, hmodule, hdata⟩ := hext.module
  obtain ⟨data', hmodule', hdata'⟩ := hext'.module
  have hhead' : b.func.SameHead c.func :=
    ⟨hext.func.name.trans (hname.trans hext'.func.name.symm),
      hext.func.signature.trans hext'.func.signature.symm, hext.linkage.trans hext'.linkage.symm⟩
  refine ⟨?_, ?_⟩
  · show s.decls.markDefined decl.name = t.decls.markDefined decl'.name
    rw [h.decls, hname]
  · show Module.AlikeBut n { b.module with functions := b.module.functions.set id b.func }
      { c.module with functions := c.module.functions.set id c.func }
    rw [hmodule] at halike ⊢
    rw [hmodule'] at halike ⊢
    refine h.module.setFunction hdata hdata' hget hget' hhead' fun hne => halike ?_
    rw [hext.func.name] at hne
    exact hne

theorem function (h : Beside n s t) (hvaries : Varies n decl decl') (hhs : Holds gs fs s) (hht : Holds gs fs' t)
    (hs : Gives (LowerProgram.function decl) s u s') (ht : Gives (LowerProgram.function decl') t v t') :
    Beside n s' t' := by
  obtain ⟨id, s₁, hdeclare, hbody⟩ := LowerProgram.function_inv hs
  obtain ⟨id', t₁, hdeclare', hbody'⟩ := LowerProgram.function_inv ht
  obtain ⟨rfl, h₁⟩ := h.declare hvaries hdeclare hdeclare'
  have hsome := hvaries.isSome
  rcases hbody with ⟨hnone, rfl⟩ | ⟨ss, hss, hbody⟩
  · rcases hbody' with ⟨-, rfl⟩ | ⟨ss', hss', -⟩
    · exact h₁
    · simp [hnone, hss'] at hsome
  · rcases hbody' with ⟨hnone', -⟩ | ⟨ss', hss', hbody'⟩
    · simp [hss, hnone'] at hsome
    · have hds := (LowerProgram.settles_declare hhs decl).of_run hdeclare
      have hdt := (LowerProgram.settles_declare hht decl').of_run hdeclare'
      exact h₁.body hvaries hds.2 hdt.2 hss hss' hbody hbody'

/-- The declarations of two programs, lowered side by side. -/
theorem declarations {p q : Program} {name : String} {journal journal' : Journal}
    (hs : Gives (LowerProgram.declarations p) (.start name journal) u s)
    (ht : Gives (LowerProgram.declarations q) (.start name journal') v t) (hglobals : p.globals = q.globals)
    (hfunctions : List.Forall₂ (Varies n) p.functions q.functions) : Beside n s t := by
  obtain ⟨_, s₁, hgs, hfs⟩ := gives_bind_iff.mp hs
  obtain ⟨_, t₁, hgt, hft⟩ := gives_bind_iff.mp ht
  rw [← hglobals] at hgt
  have h₁ := gives_forM_pair (R := Eq) (I := fun gs gs' s t => Holds gs [] s ∧ Holds gs' [] t ∧ Beside n s t)
    (fun gs gs' b b' s t u v s' t' heq h hs ht => by
      subst heq
      exact ⟨((LowerProgram.settles_global h.1 b).of_run hs).2, ((LowerProgram.settles_global h.2.1 b).of_run ht).2,
        h.2.2.global hs ht⟩)
    (List.forall₂_refl p.globals) ⟨Holds.empty name journal, Holds.empty name journal', rfl, .empty n name⟩ hgs hgt
  exact (gives_forM_pair (I := fun fs fs' s t => Holds p.globals fs s ∧ Holds p.globals fs' t ∧ Beside n s t)
    (fun fs fs' f f' s t u v s' t' hvaries h hs ht =>
      ⟨((LowerProgram.settles_function h.1 f).of_run hs).2, ((LowerProgram.settles_function h.2.1 f').of_run ht).2,
        h.2.2.function hvaries h.1 h.2.1 hs ht⟩)
    hfunctions h₁ hfs hft).2.2

end Beside

/-! ## Whole programs -/

/-- Where two programs differ in the body of one function only, so do their modules, up to the ids of data. -/
theorem lower_bodies_independent (globals : List Binding) (before after : List FunctionDecl) (decl : FunctionDecl)
    (ss ss' : List Stmt) (name : String) (validate validate' : Bool) (journal journal' : Journal) (m m' : Module)
    (h : (lower { globals, functions := before ++ { decl with body := some ss } :: after } name validate journal).1 =
      .ok m)
    (h' : (lower { globals, functions := before ++ { decl with body := some ss' } :: after } name validate'
      journal').1 = .ok m') :
    m.AlikeBut decl.name m' := by
  obtain ⟨s, hs, -, rfl⟩ := gives_of_lower h
  obtain ⟨t, ht, -, rfl⟩ := gives_of_lower h'
  have hsame (fs : List FunctionDecl) : List.Forall₂ (Varies decl.name) fs fs :=
    List.forall₂_same.mpr fun f _ => .refl decl.name f
  have hdecl : Varies decl.name { decl with body := some ss } { decl with body := some ss' } :=
    ⟨rfl, rfl, fun hne => absurd rfl hne⟩
  refine (Beside.declarations hs ht rfl ?_).module
  exact List.rel_append (hsame before) (.cons hdecl (hsame after))

/-- The declaration of a function that takes a text. -/
def putsDecl : FunctionDecl :=
  { name := "puts", external := true, params := [.named "s" .str], ret := .void, body := none, line := 1 }

/-- A call of it. -/
def puts (text : String) (line : Nat) : Stmt :=
  .call { callee := "puts", args := [.literal .str text], line }

/-- A function that puts some texts. -/
def putting (name : String) (texts : List String) (line : Nat) : FunctionDecl :=
  { name, external := false, params := [], ret := .void, body := some (texts.map (puts · line)), line }

/-- The second function gets another address for its text when the first one puts more texts. -/
theorem lower_bodies_independent_putting : ∃ m m',
    (lower { globals := [], functions := [putsDecl, putting "f" ["x"] 2, putting "g" ["y"] 3] } "main" true .empty).1 =
      .ok m ∧
    (lower { globals := [], functions := [putsDecl, putting "f" ["x", "z"] 2, putting "g" ["y"] 3] } "main" true
      .empty).1 = .ok m' ∧
    m.data.size = 2 ∧ m'.data.size = 3 ∧ m.AlikeBut "f" m' := by
  have hrun : (lower { globals := [], functions := [putsDecl, putting "f" ["x"] 2, putting "g" ["y"] 3] } "main" true
      .empty).1.toOption.map (·.data.size) = some 2 := by
    decide +kernel
  have hrun' : (lower { globals := [], functions := [putsDecl, putting "f" ["x", "z"] 2, putting "g" ["y"] 3] } "main"
      true .empty).1.toOption.map (·.data.size) = some 3 := by
    decide +kernel
  cases hm : (lower { globals := [], functions := [putsDecl, putting "f" ["x"] 2, putting "g" ["y"] 3] } "main" true
      .empty).1 with
  | error e =>
    rw [hm] at hrun
    cases hrun
  | ok m =>
    cases hm' : (lower { globals := [], functions := [putsDecl, putting "f" ["x", "z"] 2, putting "g" ["y"] 3] } "main"
        true .empty).1 with
    | error e =>
      rw [hm'] at hrun'
      cases hrun'
    | ok m' =>
      rw [hm] at hrun
      rw [hm'] at hrun'
      refine ⟨m, m', rfl, rfl, Option.some.inj hrun, Option.some.inj hrun', ?_⟩
      exact lower_bodies_independent [] [putsDecl] [putting "g" ["y"] 3] (putting "f" [] 2) [puts "x" 2]
        [puts "x" 2, puts "z" 2] "main" true true .empty .empty m m' hm hm'

end SsaCompiler.Lowering
