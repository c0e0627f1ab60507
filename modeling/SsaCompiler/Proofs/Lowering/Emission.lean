import SsaCompiler.Lowering.Statement
import SsaCompiler.Proofs.Ir.StraightLine
import SsaCompiler.Proofs.Lang.WellFormed

/-!
# What lowering emits

The instructions that lowering adds to a body, as relations between the body before and after it.  The
relations have no errors, no lines and no order of checks in them; they are what the properties of
lowered code are proved from.

    Coerces b v target v' b'          `v` is converted to `target`, as `v'`
    ExprEmits d scope b e v b'        the instructions of `e`, whose value is `v`
    ArgsEmit d scope … b es vs b'     the arguments of a call from left to right
    StmtEmits d ret …                 a statement of a function that returns `ret`
    BodyEmits d decl ss b b'          the body of a declaration, from the declared function on
-/

namespace SsaCompiler.Lowering

open Lang (Prim BinaryOp Expr Param Binding Stmt FunctionDecl passedAs)
open Ir (Body ValueId FuncId)

/-! ## Expressions -/

/-- A value converted to a type. -/
inductive Coerces (b : Body) (v : Typed) (target : Prim) : ValueId → Body → Prop
  | same (h : v.ty = target) : Coerces b v target v.value b
  | keep {ty : Ir.Ty} (hne : v.ty ≠ target) (hty : target.repr? = some ty)
      (hc : conversion? v.ty target = some .keep) : Coerces b v target v.value b
  | apply {ty : Ir.Ty} {op : Ir.Opcode} (hne : v.ty ≠ target) (hty : target.repr? = some ty)
      (hc : conversion? v.ty target = some (.apply op)) :
      Coerces b v target b.func.values.next (b.snoc (.unary op v.value) (some ty))

/-- Two operands brought to one type. -/
inductive Unifies (b : Body) (x y : Typed) : Prim → ValueId → ValueId → Body → Prop
  | right {v : ValueId} {b' : Body} (h : y.ty.priority < x.ty.priority) (hc : Coerces b y x.ty v b') :
      Unifies b x y x.ty x.value v b'
  | left {v : ValueId} {b' : Body} (h : ¬ y.ty.priority < x.ty.priority) (hc : Coerces b x y.ty v b') :
      Unifies b x y y.ty v y.value b'

/-- Whether a function takes a number of arguments. -/
def FunctionInfo.Takes (info : FunctionInfo) (count : Nat) : Prop :=
  info.params.length ≤ count ∧ (info.variadic = false → count = info.params.length)

theorem FunctionInfo.takes_iff (info : FunctionInfo) {count : Nat} :
    info.Takes count ↔ ¬ (count < info.params.length || (!info.variadic && info.params.length < count)) = true := by
  unfold FunctionInfo.Takes
  cases info.variadic with
  | false =>
    simp
    omega
  | true => simp

mutual

/-- An expression and its value. -/
inductive ExprEmits (d : Declarations) (scope : Scope) : Body → Expr → Typed → Body → Prop
  | float {b : Body} {width : Numeral.FloatWidth} {text : String} {bits : Nat}
      (h : width.format.read? text = some bits) :
      ExprEmits d scope b (.literal (.float width) text) ⟨b.func.values.next, .float width⟩
        (b.snoc (.fconst (.ofNat 64 bits)) (some (.float width)))
  | int {b : Body} {sign : Lang.Sign} {width : Numeral.IntWidth} {text : String} {n : Int}
      (h : Numeral.readSigned? 128 text = some n) (hfits : literalFits width.bits n = true) :
      ExprEmits d scope b (.literal (.int sign width) text) ⟨b.func.values.next, .int sign width⟩
        (b.snoc (.iconst (Ir.Build.truncated width (.ofInt 64 n))) (some (.int width)))
  | str {b : Body} (text : String) :
      ExprEmits d scope b (.literal .str text) ⟨b.func.values.next, .str⟩
        ((b.withData text.toUTF8.toList).snoc (.dataAddr (b.module.internData text.toUTF8.toList).1)
          (some .ptr))
  | var {b : Body} {name : String} {v : Variable} {slot : Ir.SlotData} (h : scope.lookup name = some v)
      (hs : b.func.slots.get? v.slot = some slot) :
      ExprEmits d scope b (.name name) ⟨b.func.values.next, v.ty⟩ (b.snoc (.stackLoad v.slot) (some slot.ty))
  | global {b : Body} {name : String} {g : GlobalInfo} {global : Ir.Global} (h : scope.lookup name = none)
      (hd : d.global? name = some g) (hg : b.module.globals.get? g.id = some global) :
      ExprEmits d scope b (.name name) ⟨b.func.values.next, g.ty⟩ (b.snoc (.globalLoad g.id) (some global.ty))
  | binary {b b₁ b₂ b₃ : Body} {op : BinaryOp} {opcode : Ir.Opcode} {lhs rhs : Expr} {x y : Typed}
      {ty : Prim} {irTy : Ir.Ty} {l r : ValueId} (hl : ExprEmits d scope b lhs x b₁)
      (hr : ExprEmits d scope b₁ rhs y b₂) (hu : Unifies b₂ x y ty l r b₃)
      (hop : arithmetic? op ty = some opcode) (hty : ty.repr? = some irTy) :
      ExprEmits d scope b (.binary op lhs rhs) ⟨b₃.func.values.next, ty⟩
        (b₃.snoc (.binary opcode l r) (some irTy))
  | call {b b' : Body} {callee : String} {args : List Expr} {line : Nat} {info : FunctionInfo}
      {vs : List ValueId} {ty : Ir.Ty} (hd : d.function? callee = some info) (hn : info.Takes args.length)
      (ha : ArgsEmit d scope callee info.params b args vs b') (hty : info.ret.repr? = some ty)
      (hv : ty ≠ .void) :
      ExprEmits d scope b (.call callee args line) ⟨b'.func.values.next, info.ret⟩
        (b'.snoc (.call info.id vs) (some ty))

/-- The arguments of a call to a function, with the types of the fixed parameters that are left. -/
inductive ArgsEmit (d : Declarations) (scope : Scope) :
    String → List Prim → Body → List Expr → List ValueId → Body → Prop
  | nil {callee : String} {params : List Prim} {b : Body} : ArgsEmit d scope callee params b [] [] b
  | cons {callee : String} {params : List Prim} {b b₁ b₂ b₃ : Body} {e : Expr} {es : List Expr} {x : Typed}
      {v : ValueId} {vs : List ValueId} (he : ExprEmits d scope b e x b₁)
      (hc : Coerces b₁ x (passedAs callee x.ty) v b₂)
      (hp : ∀ param ∈ params.head?, param.repr? = (passedAs callee x.ty).repr?)
      (hs : ArgsEmit d scope callee params.tail b₂ es vs b₃) :
      ArgsEmit d scope callee params b (e :: es) (v :: vs) b₃

end

/-! ## Statements -/

/-- A statement, with the variables before and after it. -/
inductive StmtEmits (d : Declarations) (ret : Prim) : Scope → Body → Stmt → Scope → Body → Prop
  | bind {scope : Scope} {b b₁ b₂ : Body} {decl : Binding} {ty : Ir.Ty} {x : Typed} {v : ValueId}
      (hnew : scope.lookup decl.name = none) (hvoid : decl.ty ≠ .void) (hty : decl.ty.repr? = some ty)
      (he : ExprEmits d scope b decl.init x b₁)
      (hc : Coerces (b₁.withSlot ty decl.name) x decl.ty v b₂) :
      StmtEmits d ret scope b (.bind decl) ((decl.name, ⟨b₁.func.slots.next, decl.ty⟩) :: scope)
        (b₂.snoc (.stackStore v b₁.func.slots.next) none)
  | ret {scope : Scope} {b b₁ b₂ : Body} {value : Expr} (line : Nat) {x : Typed} {v : ValueId}
      (he : ExprEmits d scope b value x b₁) (hc : Coerces b₁ x ret v b₂) :
      StmtEmits d ret scope b (.ret value line) scope (b₂.snoc (.ret (some v)) none)
  | call {scope : Scope} {b b' : Body} {c : Lang.Call} {info : FunctionInfo} {vs : List ValueId} {ty : Ir.Ty}
      (hd : d.function? c.callee = some info) (hn : info.Takes c.args.length)
      (ha : ArgsEmit d scope c.callee info.params b c.args vs b') (hty : info.ret.repr? = some ty) :
      StmtEmits d ret scope b (.call c) scope (b'.snoc (.call info.id vs) ty.result?)

/-- Statements up to the end of the body: a return, which is added where there is none. -/
inductive StmtsEmit (d : Declarations) (ret : Prim) : Scope → Body → List Stmt → Body → Prop
  | nil {scope : Scope} {b : Body} (h : ret = .void) :
      StmtsEmit d ret scope b [] (b.snoc (.ret none) none)
  | ret {scope scope' : Scope} {b b' : Body} {value : Expr} {line : Nat}
      (h : StmtEmits d ret scope b (.ret value line) scope' b') :
      StmtsEmit d ret scope b [.ret value line] b'
  | cons {scope scope' : Scope} {b b' b'' : Body} {s : Stmt} {ss : List Stmt}
      (hs : StmtEmits d ret scope b s scope' b') (hne : ∀ value line, s ≠ .ret value line)
      (hss : StmtsEmit d ret scope' b' ss b'') : StmtsEmit d ret scope b (s :: ss) b''

/-! ## Bodies -/

/-- The body with the parameter at an index stored into a slot of its own. -/
def storeParam (b : Body) (index : Nat) (p : Param) (ty : Ir.Ty) : Body :=
  ((b.withName ⟨index⟩ p.name).withSlot ty p.name).snoc (.stackStore ⟨index⟩ b.func.slots.next) none

/-- The parameters from an index on. -/
inductive ParamsEmit : Nat → Scope → Body → List Param → Scope → Body → Prop
  | nil {index : Nat} {scope : Scope} {b : Body} : ParamsEmit index scope b [] scope b
  | cons {index : Nat} {scope scope' : Scope} {b b' : Body} {p : Param} {ps : List Param} {ty : Ir.Ty}
      (hnew : scope.lookup p.name = none) (hty : p.ty.repr? = some ty)
      (h : ParamsEmit (index + 1) ((p.name, ⟨b.func.slots.next, p.ty⟩) :: scope) (storeParam b index p ty) ps
        scope' b') :
      ParamsEmit index scope b (p :: ps) scope' b'

/-- A body, from its entry block on. -/
inductive BodyEmits (d : Declarations) (decl : FunctionDecl) (ss : List Stmt) (b b' : Body) : Prop
  | intro {scope : Scope} {b₁ : Body} (hp : ParamsEmit 0 [] b decl.fixedParams scope b₁)
      (hs : StmtsEmit d decl.ret scope b₁ ss b')

end SsaCompiler.Lowering
