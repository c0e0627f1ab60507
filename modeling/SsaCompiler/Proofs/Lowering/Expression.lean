import SsaCompiler.Proofs.Lowering.Typing

/-!
# Which expressions are lowered

Lowering an expression ends in one of two ways.  If the expression has a type, its instructions are
emitted, and their value has that type; if it has none, an error about the program comes out, never a
fault and never an error about the module:

    Ready d Γ s → Settles (expr d e) s (Computed d Γ s e) (Γ.typeOf? e = none)      (settles_expr)

`Settles x s Q N` says that the run of `x` from `s` gives a result with `Q`, or rejects and `N` holds.
-/

namespace SsaCompiler.Lowering

open Lang (Prim BinaryOp Expr FunctionDecl Names LoweringCause LoweringError passedAs fitTypes fitCount)
open Ir (Body Build Failure ValueId)

/-! ## The two ends of a run -/

section

variable {σ α β : Type} {x : ExceptT (Failure LoweringError) (StateM σ) α}
  {f : α → ExceptT (Failure LoweringError) (StateM σ) β} {s s' : σ} {a : α} {Q R : α → σ → Prop}
  {P : β → σ → Prop} {M N : Prop}

/-- Whether a run ends with an error about the program. -/
def Rejects (x : ExceptT (Failure LoweringError) (StateM σ) α) (s : σ) : Prop :=
  ∃ e, Fails x s (.error e) ∧ ∀ message, e.cause ≠ .invalidIr message

/-- Whether a run gives a result with a property, or rejects where something else holds. -/
def Settles (x : ExceptT (Failure LoweringError) (StateM σ) α) (s : σ) (Q : α → σ → Prop) (N : Prop) : Prop :=
  (∃ a s', Gives x s a s' ∧ Q a s') ∨ (Rejects x s ∧ N)

theorem Settles.of_gives (hx : Gives x s a s') (hq : Q a s') : Settles x s Q N :=
  .inl ⟨a, s', hx, hq⟩

theorem Settles.mono (hx : Settles x s Q N) (hq : ∀ a s', Q a s' → R a s') (hn : N → M) :
    Settles x s R M := by
  rcases hx with ⟨a, s', hx, h⟩ | ⟨hx, h⟩
  · exact .inl ⟨a, s', hx, hq a s' h⟩
  · exact .inr ⟨hx, hn h⟩

theorem Rejects.bind (hx : Rejects x s) : Rejects (x >>= f) s := by
  obtain ⟨e, he, hcause⟩ := hx
  exact ⟨e, he.bind f, hcause⟩

theorem Rejects.settles (hx : Rejects x s) (hn : N) : Settles x s Q N :=
  .inr ⟨hx, hn⟩

theorem Rejects.after (hx : Gives x s a s') (hf : Rejects (f a) s') : Rejects (x >>= f) s := by
  obtain ⟨e, he, hcause⟩ := hf
  exact ⟨e, hx.bind_fails he, hcause⟩

theorem Settles.after (hx : Gives x s a s') (hf : Settles (f a) s' P N) : Settles (x >>= f) s P N := by
  rcases hf with ⟨b, s'', hf, hp⟩ | ⟨hf, hn⟩
  · exact .inl ⟨b, s'', hx.bind hf, hp⟩
  · exact .inr ⟨.after hx hf, hn⟩

/-- A sequence settles if what follows does wherever the beginning may end. -/
theorem Settles.bind (hx : Settles x s Q N) (hn : N → M) (hf : ∀ a s', Q a s' → Settles (f a) s' P M) :
    Settles (x >>= f) s P M := by
  rcases hx with ⟨a, s', hx, hq⟩ | ⟨hx, h⟩
  · exact .after hx (hf a s' hq)
  · exact .inr ⟨hx.bind, hn h⟩

/-- A run with a result has what is known of it. -/
theorem Settles.of_run (hx : Settles x s Q N) (hgives : Gives x s a s') : Q a s' := by
  rcases hx with ⟨b, t, hb, hq⟩ | ⟨⟨e, he, -⟩, -⟩
  · obtain ⟨rfl, rfl⟩ := hb.unique hgives
    exact hq
  · exact absurd he hgives.not_fails

end

namespace Lower

theorem rejects_fail {α : Type} {cause : LoweringCause} (hcause : ∀ message, cause ≠ .invalidIr message)
    (s : BodyState) : Rejects (fail cause : Lower α) s :=
  ⟨⟨cause, s.line⟩, ⟨s, rfl⟩, hcause⟩

theorem settles_fail {α : Type} {cause : LoweringCause} {s : BodyState} {Q : α → BodyState → Prop} {N : Prop}
    (hn : N) (hcause : ∀ message, cause ≠ .invalidIr message) : Settles (fail cause : Lower α) s Q N :=
  (rejects_fail hcause s).settles hn

theorem gives_build {α : Type} {x : Build α} {s : BodyState} {a : α} {b : Body} (h : Gives x s.body a b) :
    Gives (build x) s a { s with body := b } := by
  obtain ⟨body, scope, line⟩ := s
  have hrun : ExceptT.run x body = (.ok a, b) := h
  show build x ⟨body, scope, line⟩ = _
  unfold build
  simp only [hrun]

theorem gives_atLine (line : Nat) (s : BodyState) : Gives (atLine line) s () { s with line } := rfl

theorem gives_bound? (name : String) (s : BodyState) : Gives (bound? name) s (s.scope.lookup name) s := rfl

theorem settles_representation (ty : Prim) (s : BodyState) :
    Settles (representation ty) s (fun t s' => ty.repr? = some t ∧ s' = s) (ty.repr? = none) := by
  unfold representation
  cases h : ty.repr? with
  | some t => exact .of_gives (gives_pure _ _) ⟨rfl, rfl⟩
  | none => exact settles_fail rfl (by rintro _ ⟨⟩)

end Lower

/-! ## Names -/

/-- The variables with their types. -/
def Scope.types (scope : Scope) : List (String × Prim) :=
  scope.map fun (name, v) => (name, v.ty)

theorem Scope.lookup_types (scope : Scope) (name : String) :
    scope.types.lookup name = (scope.lookup name).map (·.ty) := by
  unfold Scope.types
  induction scope with
  | nil => rfl
  | cons entry scope ih =>
    obtain ⟨n, v⟩ := entry
    rw [List.map_cons, List.lookup_cons, List.lookup_cons, ih]
    cases name == n <;> rfl

/-- Whether what is known of a function is what a declaration says. -/
structure FunctionInfo.Declares (info : FunctionInfo) (f : FunctionDecl) : Prop where
  params : info.params = f.fixedTypes
  ret : info.ret = f.ret
  variadic : info.variadic = f.isVariadic

/-- Whether the declared names are the same on both sides, with the same types. -/
structure Declarations.Match (d : Declarations) (Γ : Names) : Prop where
  globals : ∀ name, (d.global? name).map (·.ty) = (Γ.global? name).map (·.ty)
  declares : ∀ name info f, d.function? name = some info → Γ.function? name = some f → info.Declares f
  functions : ∀ name, d.function? name = none ↔ Γ.function? name = none

/-- The declared names do not depend on the variables. -/
theorem Declarations.Match.bind {d : Declarations} {Γ : Names} (h : d.Match Γ) (name : String) (ty : Prim) :
    d.Match (Γ.bind name ty) :=
  ⟨h.globals, h.declares, h.functions⟩

/-- What holds where an expression of a body is lowered. -/
structure Ready (d : Declarations) (Γ : Names) (s : BodyState) : Prop where
  atEntry : s.body.AtEntry
  decls : d.In s.body.module
  scope : Scope.In s.scope s.body.func
  names : d.Match Γ
  locals : Γ.locals = s.scope.types

theorem Ready.grows {d : Declarations} {Γ : Names} {s s' : BodyState} (h : Ready d Γ s)
    (hg : s.body.Grows s'.body) (hscope : s'.scope = s.scope) : Ready d Γ s' where
  atEntry := hg.atEntry h.atEntry
  decls := h.decls.mono hg.toExtends.within
  scope := by rw [hscope]; exact h.scope.grows hg
  names := h.names
  locals := by rw [hscope]; exact h.locals

namespace Lower

/-! ## Conversions -/

/-- A value is converted exactly if its type converts. -/
theorem settles_coerce {s : BodyState} (hb : s.body.AtEntry) (v : Typed) (target : Prim) :
    Settles (coerce v target) s
      (fun v' s' => v.ty.convertsTo target = true ∧ v'.ty = target ∧
        Coerces s.body v target v'.value s'.body ∧ s'.scope = s.scope)
      (v.ty.convertsTo target = false) := by
  unfold coerce
  by_cases heq : v.ty = target
  · rw [if_pos heq]
    refine .of_gives (gives_pure _ _) ⟨?_, heq, .same heq, rfl⟩
    simp [Prim.convertsTo, heq]
  · rw [if_neg heq]
    have hc := isSome_conversion? heq
    refine (settles_representation target s).bind ?_ ?_
    · intro hnone
      refine Bool.eq_false_iff.mpr fun hconv => ?_
      obtain ⟨t, ht⟩ := isSome_repr?_of_convertsTo heq hconv
      rw [hnone] at ht
      cases ht
    · rintro t s' ⟨ht, rfl⟩
      cases hconv : conversion? v.ty target with
      | none =>
        rw [hconv] at hc
        exact settles_fail hc.symm (by rintro _ ⟨⟩)
      | some c =>
        rw [hconv] at hc
        cases c with
        | keep => exact .of_gives (gives_pure _ _) ⟨hc.symm, rfl, .keep heq ht hconv, rfl⟩
        | apply op =>
          refine .after (gives_build (Build.gives_convert hb op v.value t)) ?_
          exact .of_gives (gives_pure _ _) ⟨hc.symm, rfl, .apply heq ht hconv, rfl⟩

/-- Two operands are brought to one type exactly if both convert to it. -/
theorem settles_unify {s : BodyState} (hb : s.body.AtEntry) (x y : Typed) :
    Settles (unify x y) s
      (fun p s' => x.ty.convertsTo (x.ty.common y.ty) = true ∧ y.ty.convertsTo (x.ty.common y.ty) = true ∧
        p.1.ty = x.ty.common y.ty ∧
        Unifies s.body x y (x.ty.common y.ty) p.1.value p.2.value s'.body ∧ s'.scope = s.scope)
      (x.ty.convertsTo (x.ty.common y.ty) = false ∨ y.ty.convertsTo (x.ty.common y.ty) = false) := by
  have hrefl : ∀ ty : Prim, ty.convertsTo ty = true := fun ty => by simp [Prim.convertsTo]
  unfold unify Prim.common
  by_cases h : y.ty.priority < x.ty.priority
  · simp only [if_pos h]
    refine (settles_coerce hb y x.ty).bind .inr ?_
    rintro v s' ⟨hconv, hty, hc, hscope⟩
    exact .of_gives (gives_pure _ _) ⟨hrefl _, hconv, rfl, .right h hc, hscope⟩
  · simp only [if_neg h]
    refine (settles_coerce hb x y.ty).bind .inl ?_
    rintro v s' ⟨hconv, hty, hc, hscope⟩
    exact .of_gives (gives_pure _ _) ⟨hconv, hrefl _, hty, .left h hc, hscope⟩

/-! ## Leaves -/

/-- What a lowered expression leaves behind. -/
structure Computed (d : Declarations) (Γ : Names) (s : BodyState) (e : Expr) (v : Typed) (s' : BodyState) :
    Prop where
  type : Γ.typeOf? e = some v.ty
  emits : ExprEmits d s.scope s.body e v s'.body
  scope : s'.scope = s.scope

theorem settles_literal {d : Declarations} {Γ : Names} {s : BodyState} (h : Ready d Γ s) (ty : Prim)
    (text : String) :
    Settles (literal ty text) s (Computed d Γ s (.literal ty text)) (Γ.typeOf? (.literal ty text) = none) := by
  have hyes (h : ty.isLiteral text = true) : Γ.typeOf? (.literal ty text) = some ty := by
    unfold Names.typeOf?
    exact if_pos h
  have hno (h : ty.isLiteral text = false) : Γ.typeOf? (.literal ty text) = none := by
    unfold Names.typeOf?
    exact if_neg (by rw [h]; exact Bool.false_ne_true)
  unfold literal
  cases ty with
  | void => exact settles_fail (hno rfl) (by rintro _ ⟨⟩)
  | pointer target => exact settles_fail (hno rfl) (by rintro _ ⟨⟩)
  | invalid => exact settles_fail (hno rfl) (by rintro _ ⟨⟩)
  | str =>
    refine .after (gives_build (Build.gives_internData s.body _)) ?_
    refine .after (gives_build (Build.gives_dataAddr (h.atEntry.withData _) _)) ?_
    exact .of_gives (gives_pure _ _) ⟨hyes rfl, .str text, rfl⟩
  | float width =>
    have hlit : Prim.isLiteral (.float width) text = (width.format.read? text).isSome := rfl
    cases hread : width.format.read? text with
    | none =>
      rw [hread] at hlit
      simp only [hread]
      exact settles_fail (hno hlit) (by rintro _ ⟨⟩)
    | some bits =>
      rw [hread] at hlit
      simp only [hread]
      refine .after (gives_build (Build.gives_fconst h.atEntry width _)) ?_
      exact .of_gives (gives_pure _ _) ⟨hyes hlit, .float hread, rfl⟩
  | int sign width =>
    have hlit := isLiteral_int sign width text
    cases hread : (Numeral.readSigned? 128 text).filter (literalFits width.bits) with
    | none =>
      rw [hread] at hlit
      simp only [hread]
      exact settles_fail (hno hlit) (by rintro _ ⟨⟩)
    | some n =>
      rw [hread] at hlit
      simp only [hread]
      obtain ⟨hn, hfits⟩ := Option.filter_eq_some_iff.mp hread
      refine .after (gives_build (Build.gives_iconst h.atEntry width _)) ?_
      exact .of_gives (gives_pure _ _) ⟨hyes hlit, .int hn hfits, rfl⟩

theorem settles_name {d : Declarations} {Γ : Names} {s : BodyState} (h : Ready d Γ s) (n : String) :
    Settles (name d n) s (Computed d Γ s (.name n)) (Γ.typeOf? (.name n) = none) := by
  have htype : Γ.typeOf? (.name n) = ((s.scope.lookup n).map (·.ty)).or ((d.global? n).map (·.ty)) := by
    unfold Names.typeOf? Names.typeOfName?
    rw [h.locals, Scope.lookup_types, h.names.globals]
  unfold name
  refine .after (gives_bound? n s) ?_
  cases hv : s.scope.lookup n with
  | some v =>
    rw [hv] at htype
    obtain ⟨-, slot, hslot, -⟩ := h.scope n v hv
    refine .after (gives_build (Build.gives_stackLoad h.atEntry hslot)) ?_
    exact .of_gives (gives_pure _ _) ⟨htype, .var hv hslot, rfl⟩
  | none =>
    rw [hv] at htype
    cases hg : d.global? n with
    | none =>
      rw [hg] at htype
      exact settles_fail htype (by rintro _ ⟨⟩)
    | some g =>
      rw [hg] at htype
      obtain ⟨global, hget, -⟩ := h.decls.globals n g hg
      refine .after (gives_build (Build.gives_globalLoad h.atEntry hget)) ?_
      exact .of_gives (gives_pure _ _) ⟨htype, .global hv hg hget, rfl⟩

/-! ## Operators -/

theorem settles_operator {d : Declarations} {s s₁ s₂ : BodyState} (hb : s₂.body.AtEntry) (op : BinaryOp)
    {lhs rhs : Expr} {x y : Typed} (hl : ExprEmits d s.scope s.body lhs x s₁.body)
    (hr : ExprEmits d s.scope s₁.body rhs y s₂.body) (hx : x.In s₂.body.func) (hy : y.In s₂.body.func) :
    Settles (operator op x y) s₂
      (fun v s' => op.typeOn? x.ty y.ty = some v.ty ∧
        ExprEmits d s.scope s.body (.binary op lhs rhs) v s'.body ∧ s'.scope = s₂.scope)
      (op.typeOn? x.ty y.ty = none) := by
  have htype : op.typeOn? x.ty y.ty =
      if x.ty.convertsTo (x.ty.common y.ty) && y.ty.convertsTo (x.ty.common y.ty) &&
        op.worksOn (x.ty.common y.ty) then some (x.ty.common y.ty) else none := rfl
  unfold operator
  refine (settles_unify hb x y).bind ?_ ?_
  · rintro (h | h) <;> rw [htype, h] <;> simp
  · rintro ⟨l, r⟩ s₃ ⟨hxc, hyc, hty, hu, hscope⟩
    obtain ⟨hg, ⟨irTy, hrepr, hval⟩, -⟩ := hu.grows hx hy
    rw [hxc, hyc] at htype
    have hworks := isSome_arithmetic? op (x.ty.common y.ty)
    dsimp only
    rw [hty]
    cases hop : arithmetic? op (x.ty.common y.ty) with
    | none =>
      rw [hop] at hworks
      refine settles_fail ?_ (by rintro _ ⟨⟩)
      rw [htype, ← hworks]
      rfl
    | some opcode =>
      rw [hop] at hworks
      refine .after (gives_build (Build.gives_binary (hg.atEntry hb) hval)) ?_
      refine .of_gives (gives_pure _ _) ⟨?_, .binary hl hr hu hop hrepr, hscope⟩
      rw [htype, ← hworks]
      rfl

/-! ## Calls -/

/-- The beginning of a call. -/
theorem settles_beginCall (d : Declarations) (callee : String) (count line : Nat) (s : BodyState) :
    Settles (beginCall d callee count line) s
      (fun info s' => d.function? callee = some info ∧ info.Takes count ∧ s'.body = s.body ∧ s'.scope = s.scope)
      (∀ info, d.function? callee = some info → ¬ info.Takes count) := by
  unfold beginCall
  refine .after (gives_atLine line s) ?_
  cases hf : d.function? callee with
  | none => exact settles_fail (by rintro info ⟨⟩) (by rintro _ ⟨⟩)
  | some info =>
    simp only
    by_cases h : info.Takes count
    · rw [if_neg (info.takes_iff.mp h)]
      exact .of_gives (gives_pure _ _) ⟨rfl, h, rfl, rfl⟩
    · rw [if_pos (Classical.not_not.mp (mt info.takes_iff.mpr h))]
      refine settles_fail ?_ (by rintro _ ⟨⟩)
      rintro info' ⟨⟩
      exact h

/-- A value fits a parameter exactly if it shares the pattern. -/
theorem settles_fit (callee : String) (index : Nat) {param : Option Prim} (v : Typed) (s : BodyState)
    (hparam : ∀ ty ∈ param, ty.isStorable = true) :
    Settles
      (match param with
      | some expected => do
        if (← representation expected) = (← representation v.ty) then pure v.value
        else fail (.argumentType callee index expected v.ty)
      | none => pure v.value)
      s (fun w s' => (∀ ty ∈ param, ty.sharesPattern v.ty = true) ∧ w = v.value ∧ s' = s)
      (∃ ty ∈ param, ty.sharesPattern v.ty = false) := by
  cases param with
  | none => exact .of_gives (gives_pure _ _) ⟨by rintro ty ⟨⟩, rfl, rfl⟩
  | some expected =>
    have hshare := sharesPattern_iff (b := v.ty) (hparam expected rfl)
    have hnot (h : expected.repr? ≠ v.ty.repr?) : ∃ ty ∈ some expected, ty.sharesPattern v.ty = false :=
      ⟨expected, rfl, Bool.eq_false_iff.mpr fun hs => h (hshare.mp hs)⟩
    obtain ⟨-, t, ht⟩ := isStorable_iff.mp (hparam expected rfl)
    refine (settles_representation expected s).bind (fun h => by rw [ht] at h; cases h) ?_
    rintro t' s' ⟨ht', rfl⟩
    refine (settles_representation v.ty s').bind (fun h => hnot (by rw [h, ht]; exact Option.some_ne_none _)) ?_
    rintro u s'' ⟨hu, rfl⟩
    by_cases h : t' = u
    · rw [if_pos h]
      refine .of_gives (gives_pure _ _) ⟨?_, rfl, rfl⟩
      rintro ty ⟨⟩
      exact hshare.mpr (by rw [ht', hu, h])
    · rw [if_neg h]
      refine settles_fail (hnot ?_) (by rintro _ ⟨⟩)
      rw [ht', hu]
      exact fun heq => h (Option.some.inj heq)

/-- An argument is passed exactly if it shares the pattern of its parameter. -/
theorem settles_argument {s : BodyState} (hb : s.body.AtEntry) (callee : String) (index : Nat)
    {param : Option Prim} (arg : Typed) (hparam : ∀ ty ∈ param, ty.isStorable = true) :
    Settles (argument callee index param arg) s
      (fun v s' => (∀ ty ∈ param, ty.sharesPattern (passedAs callee arg.ty) = true) ∧
        Coerces s.body arg (passedAs callee arg.ty) v s'.body ∧ s'.scope = s.scope)
      (∃ ty ∈ param, ty.sharesPattern (passedAs callee arg.ty) = false) := by
  have hpassed : passedAs callee arg.ty =
      if callee = promotingCallee && arg.ty = .float .w32 then .float .w64 else arg.ty := rfl
  rw [hpassed]
  unfold argument
  by_cases h : (callee = promotingCallee && arg.ty = .float .w32) = true
  · have hty : arg.ty = .float .w32 := by simpa using (Bool.and_eq_true_iff.mp h).2
    simp only [if_pos h]
    -- single precision converts to double precision
    refine (settles_coerce hb arg (.float .w64)).bind (fun h => by rw [hty] at h; cases h) ?_
    rintro v s' ⟨-, hv, hc, hscope⟩
    refine (settles_fit callee index v s' hparam).mono ?_ ?_
    · rintro w s'' ⟨hs, rfl, rfl⟩
      rw [hv] at hs
      exact ⟨hs, hc, hscope⟩
    · rw [hv]
      exact id
  · simp only [if_neg h]
    refine (settles_fit callee index arg s hparam).mono ?_ id
    rintro w s' ⟨hs, rfl, rfl⟩
    exact ⟨hs, .same rfl, rfl⟩

/-- The end of a call. -/
theorem gives_endCall {s : BodyState} {info : FunctionInfo} {signature : Ir.Signature} (hb : s.body.AtEntry)
    (hs : s.body.module.signatureOf info.id = .ok signature) (vs : List ValueId) :
    Gives (endCall info vs) s (signature.ret.result?.map fun _ => ⟨s.body.func.values.next, info.ret⟩)
      { s with body := s.body.snoc (.call info.id vs) signature.ret.result? } := by
  unfold endCall
  refine (gives_build (Build.gives_call hb hs vs)).bind ?_
  cases signature.ret.result? <;> exact gives_pure _ _

/-- What lowered arguments leave behind. -/
structure Passed (d : Declarations) (Γ : Names) (s : BodyState) (callee : String) (params : List Prim)
    (es : List Expr) (vs : List ValueId) (s' : BodyState) : Prop where
  types : ∃ tys, Γ.typesOf? es = some tys ∧ fitTypes callee params tys = true
  emits : ArgsEmit d s.scope callee params s.body es vs s'.body
  scope : s'.scope = s.scope

/-- What a call up to its end leaves behind. -/
structure Called (d : Declarations) (Γ : Names) (s : BodyState) (callee : String) (es : List Expr)
    (info : FunctionInfo) (vs : List ValueId) (s' : BodyState) : Prop where
  function : ∃ f tys, Γ.function? callee = some f ∧ info.Declares f ∧ Γ.typesOf? es = some tys ∧ f.takes tys = true
  known : d.function? callee = some info
  count : info.Takes es.length
  emits : ArgsEmit d s.scope callee info.params s.body es vs s'.body
  scope : s'.scope = s.scope

theorem length_typesOf? {Γ : Names} {es : List Expr} {tys : List Prim} (h : Γ.typesOf? es = some tys) :
    tys.length = es.length := by
  induction es generalizing tys with
  | nil =>
    unfold Names.typesOf? at h
    cases h
    rfl
  | cons e es ih =>
    unfold Names.typesOf? at h
    obtain ⟨ty, -, h⟩ := Option.bind_eq_some_iff.mp h
    obtain ⟨rest, hrest, rfl⟩ := Option.map_eq_some_iff.mp h
    rw [List.length_cons, List.length_cons, ih hrest]

theorem fitCount_iff {info : FunctionInfo} {f : FunctionDecl} (h : info.Declares f) (count : Nat) :
    fitCount f.isVariadic f.fixedTypes.length count = true ↔ info.Takes count := by
  unfold fitCount FunctionInfo.Takes
  rw [h.params, h.variadic]
  cases f.isVariadic with
  | false =>
    simp
    omega
  | true => simp

theorem fitTypes_cons (callee : String) (params : List Prim) (ty : Prim) (tys : List Prim) :
    fitTypes callee params (ty :: tys) = true ↔
      (∀ param ∈ params.head?, param.sharesPattern (passedAs callee ty) = true) ∧
        fitTypes callee params.tail tys = true := by
  cases params with
  | nil => simp [fitTypes]
  | cons param params => simp [fitTypes]

/-- A call goes on to its end exactly if the callee takes the arguments. -/
theorem settles_call {β : Type} {d : Declarations} {Γ : Names} {s : BodyState} (h : Ready d Γ s)
    {callee : String} {args : List Expr} {line : Nat} {k : FunctionInfo → List ValueId → Lower β}
    {P : β → BodyState → Prop} {N : Prop}
    (hargs : ∀ {s' : BodyState} (params : List Prim), Ready d Γ s' → (∀ ty ∈ params, ty.isStorable = true) →
      Settles (arguments d callee line 0 params args) s' (Passed d Γ s' callee params args)
        (∀ tys, Γ.typesOf? args = some tys → fitTypes callee params tys = false))
    (hn : (∀ f tys, Γ.function? callee = some f → Γ.typesOf? args = some tys → f.takes tys = false) → N)
    (hk : ∀ info vs s', Called d Γ s callee args info vs s' → Settles (k info vs) s' P N) :
    Settles (beginCall d callee args.length line >>= fun info =>
      arguments d callee line 0 info.params args >>= k info) s P N := by
  have hname : ∀ f, Γ.function? callee = some f → f.name = callee := by
    intro f hf
    simpa using List.find?_some hf
  refine (settles_beginCall d callee args.length line s).bind ?_ ?_
  · intro hcount
    refine hn fun f tys hf htys => ?_
    cases hinfo : d.function? callee with
    | none =>
      rw [(h.names.functions callee).mp hinfo] at hf
      cases hf
    | some info =>
      have hnot := mt (fitCount_iff (h.names.declares _ _ _ hinfo hf) _).mp (hcount info hinfo)
      unfold FunctionDecl.takes
      rw [length_typesOf? htys, Bool.eq_false_iff.mpr hnot, Bool.false_and]
  · rintro info s₁ ⟨hinfo, htakes, hbody, hscope⟩
    have hready : Ready d Γ s₁ := h.grows (by rw [hbody]; exact .refl _) hscope
    obtain ⟨f, hf⟩ : ∃ f, Γ.function? callee = some f := by
      refine Option.ne_none_iff_exists'.mp fun hnone => ?_
      rw [(h.names.functions callee).mpr hnone] at hinfo
      cases hinfo
    obtain ⟨signature, -, hdesc⟩ := h.decls.functions callee info hinfo
    have hd := h.names.declares _ _ _ hinfo hf
    have hcount := (fitCount_iff hd args.length).mpr htakes
    refine (hargs info.params hready hdesc.storable).bind ?_ ?_
    · intro hfit
      refine hn fun f' tys hf' htys => ?_
      rw [hf] at hf'
      cases hf'
      unfold FunctionDecl.takes
      rw [hname f hf, ← hd.params, hfit tys htys, Bool.and_false]
    · rintro vs s₂ ⟨⟨tys, htys, hfit⟩, hemits, hscope'⟩
      rw [hbody, hscope] at hemits
      refine hk info vs s₂ ⟨⟨f, tys, hf, hd, htys, ?_⟩, hinfo, htakes, hemits, hscope'.trans hscope⟩
      unfold FunctionDecl.takes
      rw [length_typesOf? htys, hcount, hname f hf, ← hd.params, hfit, Bool.and_true]

/-! ## Expressions -/

mutual

/-- An expression is lowered exactly if it has a type. -/
theorem settles_expr {d : Declarations} {Γ : Names} :
    ∀ (e : Expr) {s : BodyState}, Ready d Γ s →
      Settles (expr d e) s (Computed d Γ s e) (Γ.typeOf? e = none)
  | .literal ty text, s, h => by
    unfold expr
    exact settles_literal h ty text
  | .name n, s, h => by
    unfold expr
    exact settles_name h n
  | .binary op lhs rhs, s, h => by
    have htype : Γ.typeOf? (.binary op lhs rhs) =
        (Γ.typeOf? lhs).bind fun a => (Γ.typeOf? rhs).bind fun b => op.typeOn? a b := by
      rw [Names.typeOf?]
    unfold expr
    refine (settles_expr lhs h).bind (fun hn => by rw [htype, hn]; rfl) ?_
    rintro x s₁ ⟨hx, hl, hscope₁⟩
    obtain ⟨hg₁, hxin⟩ := hl.grows h.decls h.scope
    have h₁ := h.grows hg₁ hscope₁
    refine (settles_expr rhs h₁).bind (fun hn => by rw [htype, hx, hn]; rfl) ?_
    rintro y s₂ ⟨hy, hr, hscope₂⟩
    obtain ⟨hg₂, hyin⟩ := hr.grows h₁.decls h₁.scope
    rw [hscope₁] at hr
    have hop := settles_operator (hg₂.atEntry h₁.atEntry) op hl hr (hxin.mono hg₂.toExtends.func) hyin
    rw [hx, hy] at htype
    refine hop.mono ?_ (fun hn => by rw [htype]; exact hn)
    rintro v s₃ ⟨hty, hemits, hscope₃⟩
    exact ⟨by rw [htype]; exact hty, hemits, hscope₃.trans (hscope₂.trans hscope₁)⟩
  | .call callee args line, s, h => by
    have htype : Γ.typeOf? (.call callee args line) =
        (Γ.function? callee).bind fun f => (Γ.typesOf? args).bind fun tys =>
          if f.takes tys && f.ret ≠ .void then some f.ret else none := by
      rw [Names.typeOf?]
    unfold expr
    refine settles_call h (fun params h' hs => settles_arguments callee line args 0 params h' hs) ?_ ?_
    · intro hn
      rw [htype]
      refine Option.bind_eq_none_iff.mpr fun f hf => Option.bind_eq_none_iff.mpr fun tys htys => ?_
      rw [hn f tys hf htys, Bool.false_and]
      rfl
    · rintro info vs s₁ ⟨⟨f, tys, hf, hd, htys, htakes⟩, hinfo, hcount, hemits, hscope⟩
      obtain ⟨hg, hargs, -⟩ := hemits.grows h.decls h.scope
      have h₁ := h.grows hg hscope
      obtain ⟨signature, hsig, hdesc⟩ := h₁.decls.functions callee info hinfo
      rw [hf, Option.bind_some, htys, Option.bind_some, htakes, Bool.true_and, ← hd.ret] at htype
      refine .after (gives_endCall h₁.atEntry hsig vs) ?_
      by_cases hvoid : signature.ret = .void
      · rw [show signature.ret.result? = none from if_pos hvoid]
        refine settles_fail ?_ (by rintro _ ⟨⟩)
        rw [htype, hdesc.ret_eq_void_iff.mp hvoid]
        rfl
      · have hret : info.ret ≠ .void := fun hret => hvoid (hdesc.ret_eq_void_iff.mpr hret)
        rw [show signature.ret.result? = some signature.ret from if_neg hvoid]
        refine .of_gives (gives_pure _ _) ⟨?_, .call hinfo hcount hemits hdesc.ret hvoid, hscope⟩
        rw [htype, decide_eq_true hret]
        rfl

/-- Arguments are lowered exactly if they have types, which fit the parameters. -/
theorem settles_arguments {d : Declarations} {Γ : Names} (callee : String) (line : Nat) :
    ∀ (es : List Expr) {s : BodyState} (index : Nat) (params : List Prim), Ready d Γ s →
      (∀ ty ∈ params, ty.isStorable = true) →
      Settles (arguments d callee line index params es) s (Passed d Γ s callee params es)
        (∀ tys, Γ.typesOf? es = some tys → fitTypes callee params tys = false)
  | [], s, index, params, h, hparams => by
    unfold arguments
    refine .of_gives (gives_pure _ _) ⟨⟨[], rfl, ?_⟩, .nil, rfl⟩
    unfold fitTypes
    rw [List.zip_nil_right]
    rfl
  | e :: es, s, index, params, h, hparams => by
    have htypes : Γ.typesOf? (e :: es) = (Γ.typeOf? e).bind fun ty => (Γ.typesOf? es).map (ty :: ·) := by
      rw [Names.typesOf?]
    unfold arguments
    refine (settles_expr e h).bind (fun hn tys htys => by rw [htypes, hn] at htys; cases htys) ?_
    rintro x s₁ ⟨hx, he, hscope₁⟩
    obtain ⟨hg₁, hxin⟩ := he.grows h.decls h.scope
    have h₁ := h.grows hg₁ hscope₁
    rw [hx, Option.bind_some] at htypes
    refine .after (gives_atLine line s₁) ?_
    have hhead : ∀ ty ∈ params.head?, ty.isStorable = true := fun ty hty => hparams ty (List.mem_of_head? hty)
    have harg := settles_argument (s := { s₁ with line }) h₁.atEntry callee index x hhead
    refine harg.bind ?_ ?_
    · rintro ⟨ty, hty, hshare⟩ tys htys
      rw [htypes] at htys
      obtain ⟨rest, -, rfl⟩ := Option.map_eq_some_iff.mp htys
      refine Bool.eq_false_iff.mpr fun hfit => ?_
      rw [((fitTypes_cons callee params x.ty rest).mp hfit).1 ty hty] at hshare
      cases hshare
    · rintro v s₂ ⟨hshare, hc, hscope₂⟩
      obtain ⟨hg₂, hvin⟩ := hc.grows hxin
      have h₂ : Ready d Γ s₂ := h₁.grows hg₂ hscope₂
      refine (settles_arguments callee line es (index + 1) params.tail h₂ ?_).bind ?_ ?_
      · exact fun ty hty => hparams ty (List.mem_of_mem_tail hty)
      · intro hfit tys htys
        rw [htypes] at htys
        obtain ⟨rest, hrest, rfl⟩ := Option.map_eq_some_iff.mp htys
        refine Bool.eq_false_iff.mpr fun h => ?_
        have hrestfit := hfit rest hrest
        rw [((fitTypes_cons callee params x.ty rest).mp h).2] at hrestfit
        cases hrestfit
      · rintro vs s₃ ⟨⟨tys, htys, hfit⟩, hs, hscope₃⟩
        refine .of_gives (gives_pure _ _) ⟨⟨x.ty :: tys, ?_, ?_⟩, ?_, ?_⟩
        · rw [htypes, htys]
          rfl
        · exact (fitTypes_cons callee params x.ty tys).mpr ⟨hshare, hfit⟩
        · rw [show s₂.scope = s.scope from hscope₂.trans hscope₁] at hs
          refine .cons he hc ?_ hs
          intro param hparam
          exact (sharesPattern_iff (hhead param hparam)).mp (hshare param hparam)
        · exact hscope₃.trans (hscope₂.trans hscope₁)

end

end Lower

end SsaCompiler.Lowering
