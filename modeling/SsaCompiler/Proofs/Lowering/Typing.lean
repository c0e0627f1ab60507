import SsaCompiler.Proofs.Ir.Growing
import SsaCompiler.Proofs.Lowering.Conversions
import SsaCompiler.Proofs.Lowering.Emission

/-!
# Types of what lowering emits

Every value that lowering produces has the type of the intermediate representation that holds the
values of its type in the language, and every instruction that it emits for an expression is admitted
where it is emitted:

    ready b → ExprEmits d scope b e v b' → b.Grows b' ∧ v.In b'.func           (ExprEmits.grows)

This needs that the slots, globals and functions that names stand for have fitting types (`Scope.In`,
`Declarations.In`), and that the slots have been stored into.
-/

namespace SsaCompiler.Lowering

open Lang (Prim BinaryOp Expr)
open Ir (Body Function Module ValueId Signature)

/-! ## Names and their entries -/

/-- Whether a signature is that of a function, type by type. -/
structure FunctionInfo.Describes (info : FunctionInfo) (s : Signature) : Prop where
  params : info.params.map Prim.repr? = s.params.map some
  ret : info.ret.repr? = some s.ret
  variadic : s.variadic = info.variadic
  storable : ∀ ty ∈ info.params, ty.isStorable = true

/-- Nothing is returned on one side exactly if nothing is on the other. -/
theorem FunctionInfo.Describes.ret_eq_void_iff {info : FunctionInfo} {s : Signature} (h : info.Describes s) :
    s.ret = .void ↔ info.ret = .void := by
  have hret := h.ret
  constructor
  · intro hvoid
    rw [hvoid] at hret
    cases hr : info.ret <;> rw [hr] at hret <;> cases hret
  · intro hvoid
    rw [hvoid] at hret
    exact (Option.some.inj hret).symm

/-- Whether declared names stand for entries of a module of the right types. -/
structure Declarations.In (d : Declarations) (m : Module) : Prop where
  globals : ∀ name g, d.global? name = some g →
    ∃ global, m.globals.get? g.id = some global ∧ g.ty.repr? = some global.ty
  functions : ∀ name info, d.function? name = some info →
    ∃ s, m.signatureOf info.id = .ok s ∧ info.Describes s
  globalNames : ∀ name g, d.global? name = some g →
    ∃ global, m.globals.get? g.id = some global ∧ global.name = name
  functionNames : ∀ name info, d.function? name = some info →
    ∃ f, m.functions.get? info.id = some f ∧ f.name = name

/-- Whether variables stand for slots of the right types that have been stored into. -/
def Scope.In (scope : Scope) (f : Function) : Prop :=
  ∀ name v, scope.lookup name = some v →
    f.Stores v.slot ∧ ∃ slot, f.slots.get? v.slot = some slot ∧ v.ty.repr? = some slot.ty

/-- Whether a value has the type that holds the values of its type in the language. -/
def Typed.In (v : Typed) (f : Function) : Prop :=
  ∃ ty, v.ty.repr? = some ty ∧ f.valueType v.value = .ok ty

theorem Declarations.In.mono {d : Declarations} {m n : Module} (h : d.In m) (hm : m.Within n) : d.In n where
  globals := by
    intro name g hg
    obtain ⟨global, hget, hty⟩ := h.globals name g hg
    exact ⟨global, hm.globals _ _ hget, hty⟩
  functions := by
    intro name info hinfo
    obtain ⟨s, hs, hd⟩ := h.functions name info hinfo
    exact ⟨s, hm.signatureOf hs, hd⟩
  globalNames := by
    intro name g hg
    obtain ⟨global, hget, hname⟩ := h.globalNames name g hg
    exact ⟨global, hm.globals _ _ hget, hname⟩
  functionNames := by
    intro name info hinfo
    obtain ⟨f, hf, hname⟩ := h.functionNames name info hinfo
    obtain ⟨g, hg, hgname, -⟩ := hm.functions _ f hf
    exact ⟨g, hg, hgname.trans hname⟩

theorem Typed.In.mono {v : Typed} {f g : Function} (h : v.In f) (hf : f.Within g) : v.In g := by
  obtain ⟨ty, hty, hv⟩ := h
  exact ⟨ty, hty, hf.valueType hv⟩

theorem Scope.In.mono {scope : Scope} {f g : Function} (h : Scope.In scope f) (hf : f.Within g) :
    Scope.In scope g := by
  intro name v hv
  obtain ⟨hs, slot, hslot, hty⟩ := h name v hv
  exact ⟨hs.mono hf, slot, hf.slots _ _ hslot, hty⟩

theorem Scope.In.grows {scope : Scope} {b b' : Body} (h : Scope.In scope b.func) (hg : b.Grows b') :
    Scope.In scope b'.func :=
  h.mono hg.toExtends.func

/-- Another variable. -/
theorem Scope.In.bind {scope : Scope} {f : Function} (h : Scope.In scope f) (name : String) {ty : Prim}
    {slot : Ir.SlotId} {data : Ir.SlotData} (hs : f.Stores slot) (hslot : f.slots.get? slot = some data)
    (hty : ty.repr? = some data.ty) : Scope.In ((name, ⟨slot, ty⟩) :: scope) f := by
  intro n v hv
  rw [List.lookup_cons] at hv
  cases hn : n == name with
  | true =>
    rw [hn] at hv
    cases hv
    exact ⟨hs, data, hslot, hty⟩
  | false =>
    rw [hn] at hv
    exact h n v hv

/-- The value of a new instruction. -/
theorem Typed.in_snoc (f : Function) (inst : Ir.Inst) {ty : Prim} {irTy : Ir.Ty} (h : ty.repr? = some irTy) :
    Typed.In ⟨f.values.next, ty⟩ (f.snoc inst (some irTy)) :=
  ⟨irTy, h, f.snoc_valueType_next inst irTy⟩

theorem Typed.In.index_lt {v : Typed} {f : Function} (h : v.In f) : v.value.index < f.values.size := by
  obtain ⟨ty, -, hv⟩ := h
  exact Function.index_lt_of_valueType hv

/-! ## Conversions -/

/-- A converted value has the representation of the type it is converted to. -/
theorem Coerces.grows {b b' : Body} {v : Typed} {target : Prim} {v' : ValueId}
    (h : Coerces b v target v' b') (hv : v.In b.func) : b.Grows b' ∧ Typed.In ⟨v', target⟩ b'.func := by
  obtain ⟨s, hs, hval⟩ := hv
  cases h with
  | same heq =>
    subst heq
    exact ⟨.refl b, s, hs, hval⟩
  | keep hne hty hc =>
    refine ⟨.refl b, s, ?_, hval⟩
    show target.repr? = some s
    rw [← repr?_of_keep hc, hs]
  | @apply ty op hne hty hc =>
    have hop := converts_of_apply hne hc hs hty
    refine ⟨(Body.Grows.refl b).snoc ?_ (.of_isPlain rfl (.unary hval hop) trivial), Typed.in_snoc _ _ hty⟩
    cases op <;> first | rfl | cases hop

theorem Unifies.grows {b b' : Body} {x y : Typed} {ty : Prim} {l r : ValueId}
    (h : Unifies b x y ty l r b') (hx : x.In b.func) (hy : y.In b.func) :
    b.Grows b' ∧ Typed.In ⟨l, ty⟩ b'.func ∧ Typed.In ⟨r, ty⟩ b'.func := by
  cases h with
  | right _ hc =>
    obtain ⟨hg, hr⟩ := hc.grows hy
    exact ⟨hg, hx.mono hg.toExtends.func, hr⟩
  | left _ hc =>
    obtain ⟨hg, hl⟩ := hc.grows hx
    exact ⟨hg, hl, hy.mono hg.toExtends.func⟩

/-! ## Calls -/

/-- The values of arguments fit the fixed parameters as far as both go. -/
structure ArgsIn (vs : List ValueId) (params : List Prim) (f : Function) : Prop where
  values : ∀ v ∈ vs, v.index < f.values.size
  types : ∀ (k : Nat) v param, vs[k]? = some v → params[k]? = some param →
    ∃ ty, param.repr? = some ty ∧ f.valueType v = .ok ty

theorem admits_call {m : Module} {f : Function} {info : FunctionInfo} {s : Signature} {vs : List ValueId}
    {ty : Option Ir.Ty} (hs : m.signatureOf info.id = .ok s) (hd : info.Describes s)
    (hn : info.Takes vs.length) (ha : ArgsIn vs info.params f) : Ir.Admits m f (.call info.id vs) ty where
  typed := by
    have hlen : s.params.length = info.params.length := by
      have := congrArg List.length hd.params
      simpa using this.symm
    refine .call _ hs ?_ ?_
    · unfold Ir.Signature.accepts
      rw [hd.variadic, hlen]
      split
      · exact decide_eq_true hn.1
      · next hv => exact decide_eq_true (hn.2 (by simpa using hv))
    · intro k v t hv ht
      have hk : (s.params.map some)[k]? = some (some t) := by simp [ht]
      rw [← hd.params, List.getElem?_map] at hk
      obtain ⟨param, hparam, hrepr⟩ := Option.map_eq_some_iff.mp hk
      obtain ⟨ty', hty, hval⟩ := ha.types k v param hv hparam
      rw [hty] at hrepr
      cases hrepr
      exact hval
  operands := ha.values
  ids := by
    obtain ⟨g, hg, -⟩ := Ir.Module.signatureOf_eq_ok.mp hs
    exact Ir.Table.index_lt_of_get? hg
  load := by rintro slot ⟨⟩
  store := by rintro w slot ⟨⟩

/-! ## Expressions -/

mutual

/-- An expression is computed, and its value has the representation of its type. -/
theorem ExprEmits.grows {d : Declarations} {scope : Scope} :
    ∀ {b : Body} {e : Expr} {v : Typed} {b' : Body}, ExprEmits d scope b e v b' → d.In b.module →
      Scope.In scope b.func → b.Grows b' ∧ v.In b'.func
  | b, _, _, _, .float h, hd, hscope =>
    ⟨(Body.Grows.refl b).snoc rfl (.of_isPlain rfl (.fconst _ _) trivial), Typed.in_snoc _ _ rfl⟩
  | b, _, _, _, .int h hfits, hd, hscope =>
    ⟨(Body.Grows.refl b).snoc rfl (.of_isPlain rfl (.iconst _ _) trivial), Typed.in_snoc _ _ rfl⟩
  | b, _, _, _, .str text, hd, hscope => by
    obtain ⟨data, hm, -, object, hget, -⟩ := b.module.internData_eq text.toUTF8.toList
    refine ⟨((Body.Grows.refl b).data _).snoc rfl ?_, Typed.in_snoc _ _ rfl⟩
    refine .of_isPlain rfl (.dataAddr _ _) ?_
    show _ < (b.module.internData _).2.data.size
    rw [hm]
    exact Ir.Table.index_lt_of_get? hget
  | b, _, _, _, .var h hs, hd, hscope => by
    obtain ⟨hstores, slot, hslot, hty⟩ := hscope _ _ h
    rw [hs] at hslot
    cases hslot
    exact ⟨(Body.Grows.refl b).snoc rfl (.stackLoad hs hstores), Typed.in_snoc _ _ hty⟩
  | b, _, _, _, .global h hglobal hg, hd, hscope => by
    obtain ⟨global, hget, hty⟩ := hd.globals _ _ hglobal
    rw [hg] at hget
    cases hget
    refine ⟨(Body.Grows.refl b).snoc rfl ?_, Typed.in_snoc _ _ hty⟩
    exact .of_isPlain rfl (.globalLoad _ _) (Ir.Table.index_lt_of_get? hg)
  | b, _, _, _, .binary hl hr hu hop hty, hd, hscope => by
    obtain ⟨hg₁, hx⟩ := hl.grows hd hscope
    obtain ⟨hg₂, hy⟩ := hr.grows (hd.mono hg₁.toExtends.within) (hscope.grows hg₁)
    obtain ⟨hg₃, ⟨t, ht, hlv⟩, ⟨t', ht', hrv⟩⟩ := hu.grows (hx.mono hg₂.toExtends.func) hy
    rw [hty] at ht ht'
    cases ht
    cases ht'
    refine ⟨((hg₁.trans hg₂).trans hg₃).snoc ?_ ?_, Typed.in_snoc _ _ hty⟩
    · have hterm := not_isTerminator_of_arithmetic? hop
      simp only [Ir.Inst.isPure, Ir.Inst.isTerminator, Ir.Inst.opcode, hterm, Bool.not_false]
    · exact .of_isPlain rfl (.binary hlv hrv (worksOn_of_arithmetic? hop hty)) trivial
  | b, _, _, _, .call hinfo hn ha hty hv, hd, hscope => by
    obtain ⟨hg, hargs, hlen⟩ := ha.grows hd hscope
    obtain ⟨s, hs, hdesc⟩ := (hd.mono hg.toExtends.within).functions _ _ hinfo
    refine ⟨hg.snoc rfl ?_, Typed.in_snoc _ _ hty⟩
    exact admits_call hs hdesc (by rw [hlen]; exact hn) hargs

/-- The arguments of a call are computed, and fit the fixed parameters. -/
theorem ArgsEmit.grows {d : Declarations} {scope : Scope} :
    ∀ {callee : String} {params : List Prim} {b : Body} {es : List Expr} {vs : List ValueId} {b' : Body},
      ArgsEmit d scope callee params b es vs b' → d.In b.module → Scope.In scope b.func →
      b.Grows b' ∧ ArgsIn vs params b'.func ∧ vs.length = es.length
  | _, _, b, _, _, _, .nil, hd, hscope => by
    refine ⟨.refl b, ⟨?_, ?_⟩, rfl⟩
    · intro v hv
      cases hv
    · intro k v param hv
      cases hv
  | callee, params, b, _, _, _, .cons he hc hp hs, hd, hscope => by
    obtain ⟨hg₁, hx⟩ := he.grows hd hscope
    obtain ⟨hg₂, hv⟩ := hc.grows hx
    have hg := hg₁.trans hg₂
    obtain ⟨hg₃, hrest, hlen⟩ := hs.grows (hd.mono hg.toExtends.within) (hscope.grows hg)
    have hv' := hv.mono hg₃.toExtends.func
    refine ⟨hg.trans hg₃, ⟨?_, ?_⟩, by rw [List.length_cons, List.length_cons, hlen]⟩
    · intro w hw
      rcases List.mem_cons.mp hw with rfl | hw
      · exact hv'.index_lt
      · exact hrest.values w hw
    · intro k w param hw hparam
      cases k with
      | zero =>
        obtain ⟨ty, hty, hval⟩ := hv'
        cases hw
        refine ⟨ty, ?_, hval⟩
        rw [hp param (by rw [List.head?_eq_getElem?]; exact hparam)]
        exact hty
      | succ k => exact hrest.types k w param hw (by rw [List.getElem?_tail]; exact hparam)

end

end SsaCompiler.Lowering
