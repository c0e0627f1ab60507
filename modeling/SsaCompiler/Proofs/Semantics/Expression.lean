import SsaCompiler.Proofs.Lowering.Typing
import SsaCompiler.Proofs.Semantics.Machine
import SsaCompiler.Proofs.Semantics.Operations

/-!
# Running what is emitted for expressions

The instructions of an expression compute the value that the expression has, with the same calls, and
touch neither the slots nor the registers that were in use before (`Reaches`):

    ExprEmits d scope b e v b' → eval p env e st.world = some (x, st'.world),
      a run from the end of `b` in `st` gets to the end of `b'` in `st'`, and `v` holds `x` there

The run is that of the finished function in the finished module, of which `b'` is a part (`Part`).  What
was there before stays, so the values of the operands computed first are still in place when the
operation uses them.
-/

namespace SsaCompiler.Semantics

open Lang (Prim Expr Program passedAs)
open Lowering (Declarations Scope Typed Coerces Unifies ExprEmits ArgsEmit)
open Ir (Body Function Module Inst Ty ValueId SlotId)

variable {V σ : Type}

/-! ## The two sides -/

/-- Whether declared names mean the globals and functions of a program. -/
structure Knows (d : Declarations) (p : Program) : Prop where
  globals : ∀ name g, d.global? name = some g →
    ∃ decl, p.globals.find? (·.name = name) = some decl ∧ decl.ty = g.ty
  functions : ∀ name info, d.function? name = some info →
    ∃ decl, p.functions.find? (·.name = name) = some decl ∧ decl.ret = info.ret

/-- Whether the slots of variables hold their values. -/
structure Agree (scope : Scope) (env : Env V) (slots : SlotId → Option (Datum V)) : Prop where
  unbound : ∀ name, scope.lookup name = none → env.lookup name = none
  bound : ∀ name v, scope.lookup name = some v →
    ∃ x, env.lookup name = some x ∧ x.Of v.ty ∧ slots v.slot = some x.datum

/-- Whether a register holds a value. -/
structure Carries (st : Machine V σ) (v : Typed) (x : Value V) : Prop where
  reg : st.regs v.value = some x.datum
  of : x.Of v.ty

/-- A stage of the body of a function in a module. -/
structure Part (m : Module) (f : Function) (b : Body) : Prop where
  module : b.module.Within m
  func : b.func.Within f

theorem Part.of_extends {m : Module} {f : Function} {b b' : Body} (h : Part m f b') (he : b.Extends b') :
    Part m f b :=
  ⟨he.within.trans h.module, he.func.trans h.func⟩

section

variable (I : Interpretation V) (O : Oracle V σ) (m : Module) (f : Function)

/-- A run gets from the end of one stage to the end of another, and leaves the slots and the registers
of the first as they are. -/
structure Reaches (g g' : Function) (st st' : Machine V σ) : Prop where
  continues : resume I O m f g.insts.size st = resume I O m f g'.insts.size st'
  slots : st'.slots = st.slots
  regs : ∀ v : ValueId, v.index < g.values.size → st'.regs v = st.regs v

end

variable {I : Interpretation V} {O : Oracle V σ} {m : Module} {f : Function} {p : Program}

theorem Reaches.refl (g : Function) (st : Machine V σ) : Reaches I O m f g g st st :=
  ⟨rfl, rfl, fun _ _ => rfl⟩

theorem Reaches.trans {g g' g'' : Function} {st st' st'' : Machine V σ} (h : Reaches I O m f g g' st st')
    (hg : g.Within g') (h' : Reaches I O m f g' g'' st' st'') : Reaches I O m f g g'' st st'' where
  continues := h.continues.trans h'.continues
  slots := h'.slots.trans h.slots
  regs := by
    intro v hv
    have hle := hg.values.size_le
    rw [h'.regs v (by omega), h.regs v hv]

/-- A value stays in its register. -/
theorem Carries.reaches {g g' : Function} {st st' : Machine V σ} {v : Typed} {x : Value V} (h : Carries st v x)
    (hv : v.In g) (hr : Reaches I O m f g g' st st') : Carries st' v x :=
  ⟨(hr.regs _ hv.index_lt).trans h.reg, h.of⟩

theorem Agree.reaches {g g' : Function} {scope : Scope} {env : Env V} {st st' : Machine V σ}
    (h : Agree scope env st.slots) (hr : Reaches I O m f g g' st st') : Agree scope env st'.slots := by
  rw [hr.slots]
  exact h

/-- One instruction that computes a value. -/
theorem Reaches.snoc {g : Function} {inst : Inst} {ty : Ty} {a : Prim} {st : Machine V σ} {x : V} {w : World V σ}
    (hg : (g.snoc inst (some ty)).Within f) (hty : a.repr? = some ty)
    (hx : compute I O m st ty inst = some (x, w)) :
    ∃ st', Reaches I O m f g (g.snoc inst (some ty)) st st' ∧ st'.world = w ∧
      Carries st' ⟨g.values.next, a⟩ ⟨a, ⟨ty, x⟩⟩ := by
  refine ⟨{ st with regs := update st.regs g.values.next ⟨ty, x⟩, world := w }, ?_, rfl, ?_⟩
  · refine ⟨resume_value hg hx, rfl, ?_⟩
    intro v hlt
    refine update_of_ne _ _ ?_
    rintro rfl
    exact Nat.lt_irrefl _ hlt
  · exact ⟨update_self _ _ _, rfl, hty⟩

/-! ## Conversions -/

/-- A converted value. -/
theorem runs_coerces {b b' : Body} {v : Typed} {target : Prim} {v' : ValueId} {st : Machine V σ} {x : Value V}
    (h : Coerces b v target v' b') (hb : Part m f b') (hx : Carries st v x) :
    ∃ y st', convert I x target = some y ∧ Reaches I O m f b.func b'.func st st' ∧ st'.world = st.world ∧
      Carries st' ⟨v', target⟩ y := by
  cases h with
  | same heq =>
    subst heq
    exact ⟨_, st, convert_of_repr? I hx.of.repr, .refl b.func st, rfl, hx.reg, rfl, hx.of.repr⟩
  | keep hne hty hc =>
    have hrepr : target.repr? = some x.datum.ty := (Lowering.repr?_of_keep hc).symm.trans hx.of.repr
    exact ⟨_, st, convert_of_repr? I hrepr, .refl b.func st, rfl, hx.reg, rfl, hrepr⟩
  | @apply ty op hne hty hc =>
    have hcompute : compute I O m st ty (.unary op v.value) = some (I.unary op x.datum ty, st.world) := by
      show (st.regs v.value).map _ = _
      rw [hx.reg, Option.map_some]
    obtain ⟨st', hr, hw, hcarries⟩ := Reaches.snoc hb.func hty hcompute
    exact ⟨_, st', convert_of_apply I hx.of hne hc hty, hr, hw, hcarries⟩

/-- The operands of an operator. -/
theorem runs_unifies {b b' : Body} {x y : Typed} {ty : Prim} {l r : ValueId} {st : Machine V σ} {a c : Value V}
    (h : Unifies b x y ty l r b') (hb : Part m f b') (hxin : x.In b.func) (hyin : y.In b.func)
    (hx : Carries st x a) (hy : Carries st y c) :
    ∃ a' c' st', unify I a c = some (a', c') ∧ Reaches I O m f b.func b'.func st st' ∧ st'.world = st.world ∧
      Carries st' ⟨l, ty⟩ a' ∧ Carries st' ⟨r, ty⟩ c' := by
  cases h with
  | right hlt hc =>
    obtain ⟨c', st', hconv, hr, hw, hcarries⟩ := runs_coerces (I := I) (O := O) hc hb hy
    refine ⟨a, c', st', ?_, hr, hw, hx.reaches hxin hr, hcarries⟩
    unfold unify
    rw [hx.of.ty, hy.of.ty, if_pos hlt, hconv, Option.map_some]
  | left hle hc =>
    obtain ⟨a', st', hconv, hr, hw, hcarries⟩ := runs_coerces (I := I) (O := O) hc hb hx
    refine ⟨a', c, st', ?_, hr, hw, hcarries, hy.reaches hyin hr⟩
    unfold unify
    rw [hx.of.ty, hy.of.ty, if_neg hle, hconv, Option.map_some]

/-! ## Single instructions -/

variable (I O m f p) in
/-- A run from the end of one stage to the end of another computes the value of an expression. -/
def Computes (env : Env V) (e : Expr) (st : Machine V σ) (g g' : Function) (v : Typed) : Prop :=
  ∃ x st', eval I O p env e st.world = some (x, st'.world) ∧ Reaches I O m f g g' st st' ∧ Carries st' v x

/-- An expression that one instruction computes. -/
theorem computes_leaf {env : Env V} {e : Expr} {g : Function} {inst : Inst} {ty : Ty} {a : Prim}
    {st : Machine V σ} {x : V} {w : World V σ} (hg : (g.snoc inst (some ty)).Within f) (hty : a.repr? = some ty)
    (heval : eval I O p env e st.world = some (⟨a, ⟨ty, x⟩⟩, w)) (hx : compute I O m st ty inst = some (x, w)) :
    Computes I O m f p env e st g (g.snoc inst (some ty)) ⟨g.values.next, a⟩ := by
  obtain ⟨st', hr, hw, hcarries⟩ := Reaches.snoc hg hty hx
  exact ⟨_, st', by rw [heval, hw], hr, hcarries⟩

theorem computes_float {env : Env V} {g : Function} {width : Numeral.FloatWidth} {text : String} {bits : Nat}
    {st : Machine V σ} (h : width.format.read? text = some bits)
    (hg : (g.snoc (.fconst (.ofNat 64 bits)) (some (.float width))).Within f) :
    Computes I O m f p env (.literal (.float width) text) st g
      (g.snoc (.fconst (.ofNat 64 bits)) (some (.float width))) ⟨g.values.next, .float width⟩ := by
  refine computes_leaf (x := I.floating width (.ofNat width.bits bits)) (w := st.world) hg rfl ?_ ?_
  · simp only [eval, literal, h, Option.map_some]
  · show some (I.floating width _, st.world) = _
    rw [setWidth_ofNat]

theorem computes_int {env : Env V} {g : Function} {sign : Lang.Sign} {width : Numeral.IntWidth} {text : String}
    {n : Int} {st : Machine V σ} (h : Numeral.readSigned? 128 text = some n)
    (hfits : Lowering.literalFits width.bits n = true)
    (hg : (g.snoc (.iconst (Ir.Build.truncated width (.ofInt 64 n))) (some (.int width))).Within f) :
    Computes I O m f p env (.literal (.int sign width) text) st g
      (g.snoc (.iconst (Ir.Build.truncated width (.ofInt 64 n))) (some (.int width)))
      ⟨g.values.next, .int sign width⟩ := by
  refine computes_leaf (x := I.integer width (.ofInt width.bits n)) (w := st.world) hg rfl ?_ ?_
  · simp only [eval, literal, h, Option.map_some]
  · show some (I.integer width _, st.world) = _
    rw [Lowering.ofInt_truncated hfits]

theorem computes_str {env : Env V} {b : Body} {text : String} {st : Machine V σ}
    (hb : Part m f ((b.withData text.toUTF8.toList).snoc
      (.dataAddr (b.module.internData text.toUTF8.toList).1) (some .ptr))) :
    Computes I O m f p env (.literal .str text) st b.func
      (b.func.snoc (.dataAddr (b.module.internData text.toUTF8.toList).1) (some .ptr))
      ⟨b.func.values.next, .str⟩ := by
  obtain ⟨data, hm, -, object, hget, hbytes⟩ := b.module.internData_eq text.toUTF8.toList
  refine computes_leaf (x := I.address (text.toUTF8.toList ++ [0])) (w := st.world) hb.func rfl ?_ ?_
  · simp only [eval, literal, Option.map_some]
  · show (m.data.get? _).map _ = _
    have hdata : m.data.get? (b.module.internData text.toUTF8.toList).1 = some object := by
      apply hb.module.data
      show (b.module.internData _).2.data.get? _ = _
      rw [hm]
      exact hget
    rw [hdata, Option.map_some, hbytes]

/-- A variable is loaded from the slot that holds its value. -/
theorem computes_var {scope : Scope} {env : Env V} {g : Function} {name : String} {v : Lowering.Variable}
    {slot : Ir.SlotData} {st : Machine V σ} (h : scope.lookup name = some v)
    (hs : g.slots.get? v.slot = some slot) (hscope : Scope.In scope g) (hagree : Agree scope env st.slots)
    (hg : (g.snoc (.stackLoad v.slot) (some slot.ty)).Within f) :
    Computes I O m f p env (.name name) st g (g.snoc (.stackLoad v.slot) (some slot.ty))
      ⟨g.values.next, v.ty⟩ := by
  obtain ⟨-, slot', hslot, hty⟩ := hscope _ _ h
  rw [hs] at hslot
  cases hslot
  obtain ⟨x, hx, hof, hheld⟩ := hagree.bound _ _ h
  have htype : x.datum.ty = slot.ty := Option.some.inj (hof.repr.symm.trans hty)
  refine computes_leaf (x := x.datum.val) (w := st.world) hg hty ?_ ?_
  · simp only [eval, hx, ← htype, ← hof.ty]
  · show (st.slots v.slot).map _ = _
    rw [hheld, Option.map_some]

/-- A name that is no variable is read from its global. -/
theorem computes_global {d : Declarations} {scope : Scope} {env : Env V} {b : Body} {name : String}
    {g : Lowering.GlobalInfo} {global : Ir.Global} {st : Machine V σ} (hknows : Knows d p)
    (h : scope.lookup name = none) (hglobal : d.global? name = some g)
    (hg : b.module.globals.get? g.id = some global) (hd : d.In b.module) (hagree : Agree scope env st.slots)
    (hb : Part m f (b.snoc (.globalLoad g.id) (some global.ty))) :
    Computes I O m f p env (.name name) st b.func (b.func.snoc (.globalLoad g.id) (some global.ty))
      ⟨b.func.values.next, g.ty⟩ := by
  obtain ⟨global', hget, hty⟩ := hd.globals _ _ hglobal
  rw [hg] at hget
  cases hget
  obtain ⟨global', hget, hname⟩ := hd.globalNames _ _ hglobal
  rw [hg] at hget
  cases hget
  obtain ⟨decl, hdecl, hdty⟩ := hknows.globals _ _ hglobal
  refine computes_leaf (x := O.global st.world.state name) (w := st.world) hb.func hty ?_ ?_
  · simp only [eval, hagree.unbound _ h, hdecl, Option.bind_some, hdty, declared_eq hty, Option.map_some]
  · show (m.globals.get? g.id).map _ = _
    rw [hb.module.globals _ _ hg, Option.map_some, hname]

/-- An operator whose operands have been brought to one type. -/
theorem runs_operator {g : Function} {op : Lang.BinaryOp} {opcode : Ir.Opcode} {ty : Prim} {irTy : Ty}
    {l r : ValueId} {st : Machine V σ} {a c : Value V} (hop : Lowering.arithmetic? op ty = some opcode)
    (hty : ty.repr? = some irTy) (ha : Carries st ⟨l, ty⟩ a) (hc : Carries st ⟨r, ty⟩ c)
    (hg : (g.snoc (.binary opcode l r) (some irTy)).Within f) :
    ∃ st', arithmetic op a.datum.ty = some opcode ∧
      Reaches I O m f g (g.snoc (.binary opcode l r) (some irTy)) st st' ∧ st'.world = st.world ∧
      Carries st' ⟨g.values.next, ty⟩ ⟨a.ty, ⟨a.datum.ty, I.binary opcode a.datum c.datum⟩⟩ := by
  have htype : a.datum.ty = irTy := Option.some.inj (ha.of.repr.symm.trans hty)
  have hcompute : compute I O m st irTy (.binary opcode l r) =
      some (I.binary opcode a.datum c.datum, st.world) := by
    show (st.regs l).bind _ = _
    rw [ha.reg, Option.bind_some, hc.reg, Option.map_some]
  obtain ⟨st', hr, hw, hcarries⟩ := Reaches.snoc hg hty hcompute
  rw [ha.of.ty, htype]
  exact ⟨st', arithmetic_of_arithmetic? hop hty, hr, hw, hcarries⟩

/-- A call of a declared function. -/
theorem compute_call {d : Declarations} {callee : String} {info : Lowering.FunctionInfo} {vs : List ValueId}
    {st : Machine V σ} {xs : List (Datum V)} (hd : d.In m) (hinfo : d.function? callee = some info)
    (hargs : vs.mapM st.regs = some xs) (ty : Ty) :
    compute I O m st ty (.call info.id vs) = some (st.world.ask O callee xs) := by
  obtain ⟨g, hg, hname⟩ := hd.functionNames _ _ hinfo
  show (m.functions.get? info.id).bind _ = _
  rw [hg, Option.bind_some, hargs, Option.map_some, hname]

/-! ## Expressions -/

mutual

/-- The instructions of an expression compute its value. -/
theorem runs_expr {d : Declarations} {scope : Scope} {env : Env V} (hknows : Knows d p) :
    ∀ {b : Body} {e : Expr} {v : Typed} {b' : Body}, ExprEmits d scope b e v b' → Part m f b' →
      d.In b.module → Scope.In scope b.func → ∀ {st : Machine V σ}, Agree scope env st.slots →
      Computes I O m f p env e st b.func b'.func v
  | _, _, _, _, .float h, hb, _, _, _, _ => computes_float h hb.func
  | _, _, _, _, .int h hfits, hb, _, _, _, _ => computes_int h hfits hb.func
  | _, _, _, _, .str _, hb, _, _, _, _ => computes_str hb
  | _, _, _, _, .var h hs, hb, _, hscope, _, hagree => computes_var h hs hscope hagree hb.func
  | _, _, _, _, .global h hglobal hg, hb, hd, _, _, hagree => computes_global hknows h hglobal hg hd hagree hb
  | b, _, _, _, @ExprEmits.binary _ _ _ b₁ b₂ b₃ op opcode lhs rhs x y ty irTy l r hl hr hu hop hty, hb, hd, hscope,
      st, hagree => by
    obtain ⟨hg₁, hxin⟩ := hl.grows hd hscope
    have hd₁ := hd.mono hg₁.toExtends.within
    have hscope₁ := hscope.grows hg₁
    obtain ⟨hg₂, hyin⟩ := hr.grows hd₁ hscope₁
    have hxin₂ := hxin.mono hg₂.toExtends.func
    obtain ⟨hg₃, -⟩ := hu.grows hxin₂ hyin
    have hb₃ : Part m f b₃ := hb.of_extends (b₃.extends_snoc _ _)
    have hb₂ : Part m f b₂ := hb₃.of_extends hg₃.toExtends
    have hb₁ : Part m f b₁ := hb₂.of_extends hg₂.toExtends
    obtain ⟨a, st₁, heval₁, hr₁, ha⟩ := runs_expr hknows hl hb₁ hd hscope hagree
    obtain ⟨c, st₂, heval₂, hr₂, hc⟩ := runs_expr hknows hr hb₂ hd₁ hscope₁ (hagree.reaches hr₁)
    -- the left operand is still in its register when the right one has been computed
    obtain ⟨a', c', st₃, hunify, hr₃, hw₃, ha', hc'⟩ :=
      runs_unifies (I := I) (O := O) hu hb₃ hxin₂ hyin (ha.reaches hxin hr₂) hc
    obtain ⟨st₄, harith, hr₄, hw₄, hcarries⟩ := runs_operator (I := I) (O := O) hop hty ha' hc' hb.func
    refine ⟨_, st₄, ?_, ?_, hcarries⟩
    · simp only [eval, heval₁, heval₂, hunify, Option.bind_some, harith, Option.map_some, hw₄, hw₃]
    · have hr₁₃ := (hr₁.trans hg₁.toExtends.func hr₂).trans (hg₁.trans hg₂).toExtends.func hr₃
      exact hr₁₃.trans ((hg₁.trans hg₂).trans hg₃).toExtends.func hr₄
  | b, _, _, _, @ExprEmits.call _ _ _ b' callee args line info vs ty hinfo hn ha hty hv, hb, hd, hscope, st,
      hagree => by
    obtain ⟨hg, -⟩ := ha.grows hd hscope
    have hb' : Part m f b' := hb.of_extends (b'.extends_snoc _ _)
    obtain ⟨xs, st₁, heval, hr, hargs⟩ := runs_args hknows ha hb' hd hscope hagree
    obtain ⟨decl, hdecl, hret⟩ := hknows.functions _ _ hinfo
    have hcompute : compute I O m st₁ ty (.call info.id vs) = some (st₁.world.ask O callee xs) :=
      compute_call (hd.mono (hg.toExtends.within.trans hb'.module)) hinfo hargs ty
    obtain ⟨st', hr', hw', hcarries⟩ := Reaches.snoc hb.func hty hcompute
    refine ⟨_, st', ?_, hr.trans hg.toExtends.func hr', hcarries⟩
    simp only [eval, hdecl, heval, Option.bind_some, hret, declared_eq hty, Option.map_some, hw']
    rfl

/-- The instructions of arguments compute their values. -/
theorem runs_args {d : Declarations} {scope : Scope} {env : Env V} (hknows : Knows d p) :
    ∀ {callee : String} {params : List Prim} {b : Body} {es : List Expr} {vs : List ValueId} {b' : Body},
      ArgsEmit d scope callee params b es vs b' → Part m f b' → d.In b.module → Scope.In scope b.func →
      ∀ {st : Machine V σ}, Agree scope env st.slots →
      ∃ xs st', evalArgs I O p env callee es st.world = some (xs, st'.world) ∧
        Reaches I O m f b.func b'.func st st' ∧ vs.mapM st'.regs = some xs
  | _, _, b, _, _, _, .nil, hb, hd, hscope, st, hagree => by
    exact ⟨[], st, rfl, .refl b.func st, rfl⟩
  | callee, params, b, _, _, _, @ArgsEmit.cons _ _ _ _ _ b₁ b₂ b₃ e es x v vs he hc hp hs, hb, hd, hscope, st,
      hagree => by
    obtain ⟨hg₁, hxin⟩ := he.grows hd hscope
    obtain ⟨hg₂, hvin⟩ := hc.grows hxin
    have hg := hg₁.trans hg₂
    have hd₂ := hd.mono hg.toExtends.within
    have hscope₂ := hscope.grows hg
    obtain ⟨hg₃, -⟩ := hs.grows hd₂ hscope₂
    have hb₂ : Part m f b₂ := hb.of_extends hg₃.toExtends
    have hb₁ : Part m f b₁ := hb₂.of_extends hg₂.toExtends
    obtain ⟨a, st₁, heval, hr₁, ha⟩ := runs_expr hknows he hb₁ hd hscope hagree
    obtain ⟨c, st₂, hconv, hr₂, hw, hc⟩ := runs_coerces (I := I) (O := O) hc hb₂ ha
    have hr := hr₁.trans hg₁.toExtends.func hr₂
    obtain ⟨xs, st₃, hevals, hr₃, hxs⟩ := runs_args hknows hs hb hd₂ hscope₂ (hagree.reaches hr)
    refine ⟨c.datum :: xs, st₃, ?_, hr.trans hg.toExtends.func hr₃, ?_⟩
    · simp only [evalArgs, heval, Option.bind_some, ha.of.ty, hconv, ← hw, hevals, Option.map_some]
    · rw [List.mapM_cons, (hc.reaches hvin hr₃).reg, hxs]
      rfl

end

end SsaCompiler.Semantics
