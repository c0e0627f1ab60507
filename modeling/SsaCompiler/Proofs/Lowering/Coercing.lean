import SsaCompiler.Proofs.Ir.Current
import SsaCompiler.Proofs.Lowering.Literals

/-!
# Coercing a value

Lowering a body makes the entry block and then writes to it, part by part; at every place that it comes to, there
is a current block (`Reached.exists_at`).  A value that is coerced there either stays as it is or becomes the result
of one more instruction at the end of this block:

    the types have one representation       nothing is written
    they have different ones                one conversion, which passes the check
    there is no conversion                  an error, and the state that was reached
-/

namespace SsaCompiler.Lowering

open Lang (Prim Expr Param Stmt LoweringCause)
open Ir (Body Build BlockId BlockData ValueId)

namespace Lower

/-! ## The current block -/

/-- Whether instructions still go to a block after a computation that went there before. -/
abbrev Stays {α : Type} (c : BlockId) (x : Lower α) : Prop :=
  Preserves (fun s : BodyState => s.body.At c) x

variable {c : BlockId}

theorem stays_build {α : Type} {x : Build α} (h : Preserves (·.At c) x) : Stays c (build x) := by
  intro s a s' hx hs
  obtain ⟨b, hb, rfl⟩ := gives_build_iff.mp hx
  exact h _ _ _ hb hs

theorem stays_fail {α : Type} (cause : LoweringCause) : Stays c (fail cause : Lower α) :=
  preserves_get.bind fun _ => preserves_throw _

theorem stays_atLine (line : Nat) : Stays c (atLine line) :=
  preserves_modify fun _ hs => hs

theorem stays_bind (name : String) (v : Variable) : Stays c (bind name v) :=
  preserves_modify fun _ hs => hs

theorem stays_bound? (name : String) : Stays c (bound? name) :=
  preserves_get.bind fun _ => preserves_pure _

theorem stays_representation (ty : Prim) : Stays c (representation ty) := by
  unfold representation
  split
  · exact preserves_pure _
  · exact stays_fail _

/-! ### Expressions -/

theorem stays_coerce (v : Typed) (target : Prim) : Stays c (coerce v target) := by
  unfold coerce
  split
  · exact preserves_pure _
  refine (stays_representation target).bind fun ty => ?_
  split
  · exact stays_fail _
  · exact preserves_pure _
  · exact (stays_build (Build.at_emitTyped _ _)).bind fun _ => preserves_pure _

theorem stays_unify (lhs rhs : Typed) : Stays c (unify lhs rhs) := by
  unfold unify
  split
  · exact (stays_coerce _ _).bind fun _ => preserves_pure _
  · exact (stays_coerce _ _).bind fun _ => preserves_pure _

theorem stays_literal (ty : Prim) (text : String) : Stays c (literal ty text) := by
  unfold literal
  split
  · split
    · exact (stays_build (Build.at_fconst _ _)).bind fun _ => preserves_pure _
    · exact stays_fail _
  · refine (stays_build (Build.at_internData _)).bind fun d => ?_
    exact (stays_build (Build.at_emitValue _)).bind fun _ => preserves_pure _
  · split
    · exact (stays_build (Build.at_iconst _ _)).bind fun _ => preserves_pure _
    · exact stays_fail _
  · exact stays_fail _

theorem stays_name (d : Declarations) (n : String) : Stays c (name d n) := by
  refine (stays_bound? n).bind fun v => ?_
  split
  · exact (stays_build (Build.at_emitValue _)).bind fun _ => preserves_pure _
  · split
    · exact (stays_build (Build.at_emitValue _)).bind fun _ => preserves_pure _
    · exact stays_fail _

theorem stays_operator (op : Lang.BinaryOp) (lhs rhs : Typed) : Stays c (operator op lhs rhs) := by
  refine (stays_unify lhs rhs).bind fun (lhs, rhs) => ?_
  dsimp only
  split
  · exact (stays_build (Build.at_emitValue _)).bind fun _ => preserves_pure _
  · exact stays_fail _

theorem stays_beginCall (d : Declarations) (callee : String) (count line : Nat) :
    Stays c (beginCall d callee count line) := by
  refine (stays_atLine line).bind fun _ => ?_
  split
  · exact stays_fail _
  · dsimp only
    split
    · exact stays_fail _
    · exact preserves_pure _

theorem stays_fit (callee : String) (index : Nat) (expected : Prim) (v : Typed) : Stays c (do
    if (← representation expected) = (← representation v.ty) then pure v.value
    else fail (.argumentType callee index expected v.ty) : Lower ValueId) := by
  refine (stays_representation _).bind fun _ => (stays_representation _).bind fun _ => ?_
  split
  · exact preserves_pure _
  · exact stays_fail _

theorem stays_argument (callee : String) (index : Nat) (param : Option Prim) (arg : Typed) :
    Stays c (argument callee index param arg) := by
  unfold argument
  by_cases h : (callee = promotingCallee && arg.ty = .float .w32) = true
  · simp only [if_pos h]
    refine (stays_coerce _ _).bind fun v => ?_
    cases param with
    | none => exact preserves_pure _
    | some expected => exact stays_fit callee index expected v
  · simp only [if_neg h]
    cases param with
    | none => exact preserves_pure _
    | some expected => exact stays_fit callee index expected arg

theorem stays_endCall (info : FunctionInfo) (args : List ValueId) : Stays c (endCall info args) :=
  (stays_build (Build.at_emit _)).bind fun _ => preserves_pure _

mutual

theorem stays_expr (d : Declarations) : ∀ e : Expr, Stays c (expr d e)
  | .literal ty text => by
    rw [expr]
    exact stays_literal ty text
  | .name n => by
    rw [expr]
    exact stays_name d n
  | .binary op lhs rhs => by
    rw [expr]
    exact (stays_expr d lhs).bind fun _ => (stays_expr d rhs).bind fun _ => stays_operator op _ _
  | .call callee args line => by
    rw [expr]
    refine (stays_beginCall d callee _ line).bind fun info => ?_
    refine (stays_arguments d callee line 0 info.params args).bind fun vs => (stays_endCall info vs).bind fun v => ?_
    split
    · exact preserves_pure _
    · exact stays_fail _

theorem stays_arguments (d : Declarations) (callee : String) (line : Nat) :
    ∀ (index : Nat) (params : List Prim) (es : List Expr), Stays c (arguments d callee line index params es)
  | _, _, [] => by
    rw [arguments]
    exact preserves_pure _
  | index, params, e :: es => by
    rw [arguments]
    refine (stays_expr d e).bind fun arg => (stays_atLine line).bind fun _ => ?_
    refine (stays_argument callee index _ arg).bind fun v => ?_
    exact (stays_arguments d callee line (index + 1) params.tail es).bind fun _ => preserves_pure _

end

/-! ### Statements -/

theorem stays_requireNew (name : String) : Stays c (requireNew name) := by
  refine (stays_bound? name).bind fun v => ?_
  split
  · exact stays_fail _
  · exact preserves_pure _

theorem stays_param (index : Nat) (p : Param) : Stays c (param index p) := by
  refine (stays_requireNew p.name).bind fun _ => (stays_representation p.ty).bind fun ty => ?_
  refine (stays_build ((Build.reads_funcParam index).preserves _)).bind fun v => ?_
  refine (stays_build (Build.at_setName v p.name)).bind fun _ => ?_
  refine (stays_build (Build.at_createSlot ty p.name)).bind fun slot => ?_
  exact (stays_build (Build.at_emit _).discard).bind fun _ => stays_bind _ _

theorem stays_binding (d : Declarations) (b : Lang.Binding) : Stays c (binding d b) := by
  have hrest : Stays c (do
      let ty ← representation b.ty
      let init ← expr d b.init
      atLine b.line
      let slot ← build (.createSlot ty b.name)
      let value ← coerce init b.ty
      build (.stackStore value.value slot)
      bind b.name { slot, ty := b.ty }) := by
    refine (stays_representation b.ty).bind fun ty => (stays_expr d b.init).bind fun init => ?_
    refine (stays_atLine b.line).bind fun _ => (stays_build (Build.at_createSlot ty b.name)).bind fun slot => ?_
    refine (stays_coerce init b.ty).bind fun v => ?_
    exact (stays_build (Build.at_emit _).discard).bind fun _ => stays_bind _ _
  refine (stays_requireNew b.name).bind fun _ => ?_
  split
  · exact (stays_fail _).bind fun _ => hrest
  · exact hrest

theorem stays_stmt (d : Declarations) (ret : Prim) (s : Stmt) : Stays c (stmt d ret s) := by
  have hline : Stays c (s.line?.forM atLine) := by
    cases s.line? with
    | none => exact preserves_pure _
    | some line => exact stays_atLine line
  refine hline.bind fun _ => ?_
  cases s with
  | bind b => exact stays_binding d b
  | ret value line =>
    refine (stays_expr d value).bind fun v => (stays_atLine line).bind fun _ => ?_
    exact (stays_coerce v ret).bind fun _ => stays_build (Build.at_emit _).discard
  | call site =>
    refine (stays_beginCall d site.callee _ site.line).bind fun info => ?_
    exact (stays_arguments d _ _ 0 info.params site.args).bind fun vs => (stays_endCall info vs).discard
  | block body => exact stays_fail _

end Lower

/-! ## What lowering comes to -/

/-- The states that lowering the body of a function comes to: the entry block has been made, and then parameters
have been stored and statements lowered, and of a statement that is begun some expressions, with the line set, the
arguments prepared and the slot made. -/
inductive Reached (d : Declarations) (ret : Prim) : BodyState → Prop
  | entry {b b' : Body} {c : BlockId} (line : Nat) (h : Gives Build.initEntry b c b') : Reached d ret ⟨b', [], line⟩
  | param {s s' : BodyState} (hs : Reached d ret s) {index : Nat} {p : Param} {u : Unit}
      (h : Gives (Lower.param index p) s u s') : Reached d ret s'
  | stmt {s s' : BodyState} (hs : Reached d ret s) {st : Stmt} {u : Unit} (h : Gives (Lower.stmt d ret st) s u s') :
      Reached d ret s'
  | expr {s s' : BodyState} (hs : Reached d ret s) {e : Expr} {v : Typed} (h : Gives (Lower.expr d e) s v s') :
      Reached d ret s'
  | atLine {s : BodyState} (hs : Reached d ret s) (line : Nat) : Reached d ret { s with line }
  | argument {s s' : BodyState} (hs : Reached d ret s) {callee : String} {index : Nat} {param : Option Prim}
      {arg : Typed} {v : ValueId} (h : Gives (Lower.argument callee index param arg) s v s') : Reached d ret s'
  | slot {s : BodyState} (hs : Reached d ret s) (ty : Ir.Ty) (name : String) :
      Reached d ret { s with body := s.body.withSlot ty name }

/-- Everywhere in a body there is a current block. -/
theorem Reached.exists_at {d : Declarations} {ret : Prim} {s : BodyState} (h : Reached d ret s) :
    ∃ c, s.body.At c := by
  induction h with
  | entry line h => exact ⟨_, Build.at_of_initEntry h⟩
  | param _ h ih =>
    obtain ⟨c, hc⟩ := ih
    exact ⟨c, Lower.stays_param _ _ _ _ _ h hc⟩
  | stmt _ h ih =>
    obtain ⟨c, hc⟩ := ih
    exact ⟨c, Lower.stays_stmt _ _ _ _ _ _ h hc⟩
  | expr _ h ih =>
    obtain ⟨c, hc⟩ := ih
    exact ⟨c, Lower.stays_expr _ _ _ _ _ h hc⟩
  | atLine _ line ih => exact ih
  | argument _ h ih =>
    obtain ⟨c, hc⟩ := ih
    exact ⟨c, Lower.stays_argument _ _ _ _ _ _ _ h hc⟩
  | slot _ ty name ih =>
    obtain ⟨c, hc⟩ := ih
    exact ⟨c, hc.current, hc.index_lt⟩

/-! ## Coercions -/

/-- No conversion goes from a type to itself. -/
theorem ne_of_converts {op : Ir.Opcode} {source target : Ir.Ty} (h : op.converts source target = true) :
    source ≠ target := by
  rintro rfl
  cases op <;> cases source <;> simp [Ir.Opcode.converts, Ir.Ty.isInt, Ir.Ty.isFloat, Ir.Ty.isPointer] at h
  · exact absurd (h.1.symm.trans h.2) (by decide)
  · exact absurd (h.1.symm.trans h.2) (by decide)

/-- The state with an instruction at the end of the block `c`, whose data is `block`. -/
def BodyState.withInst (s : BodyState) (c : BlockId) (block : BlockData) (inst : Ir.Inst) (ty : Option Ir.Ty) :
    BodyState :=
  { s with body := { s.body with func := s.body.func.withInst c block inst ty } }

section Coerce

variable {s : BodyState} {v : Typed} {target : Prim} {ty : Ir.Ty}

theorem Lower.gives_representation (h : target.repr? = some ty) (s : BodyState) :
    Gives (representation target) s ty s := by
  unfold representation
  rw [h]
  exact gives_pure ty s

/-- A value is not coerced where it has no conversion, and nothing is written then. -/
theorem Lower.coerce_fails (h : v.ty.convertsTo target = false) (s : BodyState) :
    ∃ cause, outcome (coerce v target) s = (.error (.error ⟨cause, s.line⟩), s) := by
  have hne : v.ty ≠ target := by
    intro heq
    simp [Prim.convertsTo, heq] at h
  have hnone : conversion? v.ty target = none :=
    Option.not_isSome_iff_eq_none.mp (by rw [isSome_conversion? hne, h]; decide)
  unfold coerce
  rw [if_neg hne, outcome_bind]
  cases htarget : target.repr? with
  | none =>
    refine ⟨.unmappedType target, ?_⟩
    unfold representation
    rw [htarget]
    rfl
  | some ty =>
    refine ⟨.unsupportedCast v.ty target, ?_⟩
    rw [gives_representation htarget s, hnone]
    rfl

/-- Between types with one representation nothing is written. -/
theorem Lower.gives_coerce_same (h : v.ty.convertsTo target = true) (hrepr : v.ty.repr? = target.repr?)
    (hty : target.repr? = some ty) (s : BodyState) : Gives (coerce v target) s { v with ty := target } s := by
  unfold coerce
  by_cases hne : v.ty = target
  · rw [if_pos hne, ← hne]
    exact gives_pure v s
  rw [if_neg hne]
  refine (gives_representation hty s).bind ?_
  have hsome := (isSome_conversion? hne).trans h
  cases hc : conversion? v.ty target with
  | none =>
    rw [hc] at hsome
    cases hsome
  | some conversion =>
  cases conversion with
  | keep => exact gives_pure _ s
  | apply op => exact absurd rfl (ne_of_converts (converts_of_apply hne hc (hrepr.trans hty) hty))

/-- Between types with different representations one conversion is written, which the typing rules allow. -/
theorem Lower.gives_coerce_apply {source : Ir.Ty} {c : BlockId} {block : BlockData}
    (h : v.ty.convertsTo target = true) (hsource : v.ty.repr? = some source) (hty : target.repr? = some ty)
    (hne : source ≠ ty) (hat : s.body.At c) (hblock : s.body.func.blocks.get? c = some block) :
    ∃ op : Ir.Opcode, op.converts source ty = true ∧
      Gives (coerce v target) s ⟨s.body.func.values.next, target⟩ (s.withInst c block (.unary op v.value) (some ty)) := by
  have hdiffer : v.ty ≠ target := by
    intro heq
    rw [heq, hty] at hsource
    exact hne (Option.some.inj hsource).symm
  have hsome := (isSome_conversion? hdiffer).trans h
  cases hc : conversion? v.ty target with
  | none =>
    rw [hc] at hsome
    cases hsome
  | some conversion =>
  cases conversion with
  | keep =>
    have heq := repr?_of_keep hc
    rw [hsource, hty] at heq
    exact absurd (Option.some.inj heq) hne
  | apply op =>
    refine ⟨op, converts_of_apply hdiffer hc hsource hty, ?_⟩
    unfold coerce
    rw [if_neg hdiffer]
    refine (gives_representation hty s).bind ?_
    rw [hc]
    exact (gives_build (Build.gives_convert_at hat hblock op v.value ty)).bind (gives_pure _ _)

end Coerce

/-- What converts has a representation to go to. -/
theorem exists_repr?_of_convertsTo {source target : Prim} {ty : Ir.Ty} (h : source.convertsTo target = true)
    (hrepr : source.repr? = some ty) : ∃ ty', target.repr? = some ty' := by
  by_cases hne : source = target
  · exact ⟨ty, hne ▸ hrepr⟩
  · exact isSome_repr?_of_convertsTo hne h

/-- A value is coerced without a trace on failure, and by at most one instruction: none exactly if one type of the
intermediate representation holds the values of both types, and otherwise one conversion at the end of the current
block, which passes the check. -/
theorem coerce_atomic {d : Declarations} {ret : Prim} {s : BodyState} (hs : Reached d ret s) {v : Typed}
    {source : Ir.Ty} (hv : s.body.func.valueType v.value = .ok source) (hsource : v.ty.repr? = some source)
    (target : Prim) :
    (v.ty.convertsTo target = false ∧
        ∃ cause, outcome (Lower.coerce v target) s = (.error (.error ⟨cause, s.line⟩), s)) ∨
      v.ty.convertsTo target = true ∧ ∃ v' s' ty, Gives (Lower.coerce v target) s v' s' ∧ v'.ty = target ∧
        target.repr? = some ty ∧ s'.body.func.valueType v'.value = .ok ty ∧ s.body.func.Within s'.body.func ∧
        (source = ty ∧ v'.value = v.value ∧ s' = s ∨
          source ≠ ty ∧ v'.value = s.body.func.values.next ∧ ∃ c block op, s.body.current = some c ∧
            s.body.func.blocks.get? c = some block ∧ s' = s.withInst c block (.unary op v.value) (some ty) ∧
            ∀ m, s'.body.func.checkInst m s.body.func.insts.next = .ok ()) := by
  cases h : v.ty.convertsTo target with
  | false => exact .inl ⟨rfl, Lower.coerce_fails h s⟩
  | true =>
  refine .inr ⟨rfl, ?_⟩
  obtain ⟨ty, hty⟩ := exists_repr?_of_convertsTo h hsource
  by_cases hne : source = ty
  · subst hne
    have hgives := Lower.gives_coerce_same h (hsource.trans hty.symm) hty s
    exact ⟨_, s, source, hgives, rfl, hty, hv, .refl _, .inl ⟨rfl, rfl, rfl⟩⟩
  · obtain ⟨c, hat⟩ := hs.exists_at
    obtain ⟨block, hblock⟩ := hat.exists_block
    obtain ⟨op, hop, hgives⟩ := Lower.gives_coerce_apply h hsource hty hne hat hblock
    refine ⟨_, _, ty, hgives, rfl, hty, Ir.Function.valueType_withInst _ _ _ _ _,
      Ir.Function.within_withInst _ _ _ _ _, .inr ⟨hne, rfl, c, block, op, hat.current, hblock, rfl, ?_⟩⟩
    exact fun m => Ir.Function.checkInst_convert hv hop c block m

/-- The only parameter of a function, coerced from eight bits to 32, becomes the result of one instruction. -/
theorem coerce_atomic_parameter :
    let s : BodyState := ⟨⟨{ Ir.Module.empty "m" with signatures := ⟨#[⟨[.int .w8], .void, false, .systemV⟩]⟩ },
      (Ir.Function.declared "f" ⟨0⟩ .exported).opened [.int .w8], some Ir.entryId⟩, [], 1⟩
    let v : Typed := ⟨⟨0⟩, .int .unsigned .w8⟩
    Reached .empty .void s ∧ s.body.func.valueType v.value = .ok (.int .w8) ∧ v.ty.repr? = some (.int .w8) ∧
      ∃ v' s', Gives (Lower.coerce v (.int .signed .w32)) s v' s' ∧ v'.value = ⟨1⟩ ∧
        s'.body.func.valueType ⟨1⟩ = .ok (.int .w32) ∧ s'.body.func.insts.size = 1 := by
  intro s v
  have hentry : Gives Build.initEntry ⟨s.body.module, .declared "f" ⟨0⟩ .exported, none⟩ Ir.entryId s.body :=
    Build.gives_initEntry (s := ⟨[.int .w8], .void, false, .systemV⟩) rfl
  have hs : Reached .empty .void s := .entry 1 hentry
  refine ⟨hs, rfl, rfl, ?_⟩
  rcases coerce_atomic hs (v := v) rfl rfl (.int .signed .w32) with
    ⟨⟨⟩, -⟩ | ⟨-, v', s', ty, hgives, -, hty, hv', -, hwrites⟩
  cases hty
  rcases hwrites with ⟨⟨⟩, -⟩ | ⟨-, hvalue, c, block, op, -, -, rfl, -⟩
  have hfirst : v'.value = ⟨1⟩ := hvalue
  exact ⟨v', _, hgives, hfirst, hfirst ▸ hv', rfl⟩

end SsaCompiler.Lowering
