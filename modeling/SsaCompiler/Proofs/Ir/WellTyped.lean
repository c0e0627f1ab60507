import SsaCompiler.Ir.Typing
import SsaCompiler.Proofs.Ir.StraightLine

/-!
# The typing rules as a relation

`WellTyped m f inst ty` states the rules for one instruction of `f` with a result of type `ty`, `void`
standing for no result.  An instruction that is well typed stays so while the tables around it grow
(`WellTyped.mono`), and passes the check (`checkInst_of_wellTyped`).

    m.WellTyped f inst ty → f.inst? i = some inst → f.resultType i = .ok ty → f.checkInst m i = .ok ()
-/

namespace SsaCompiler.Ir

namespace Function

/-- The instruction that an id names. -/
def inst? (f : Function) (i : InstId) : Option Inst :=
  (f.insts.get? i).map (·.inst)

theorem inst?_eq_some {f : Function} {i : InstId} {inst : Inst} :
    f.inst? i = some inst ↔ ∃ data, f.insts.get? i = some data ∧ data.inst = inst := by
  unfold inst?
  exact Option.map_eq_some_iff

theorem result?_eq_some {f : Function} {i : InstId} {v : ValueId} :
    f.result? i = some v ↔ ∃ data, f.insts.get? i = some data ∧ data.result = some v := by
  unfold result?
  exact Option.bind_eq_some_iff

theorem Within.inst? {f g : Function} (h : f.Within g) {i : InstId} {inst : Inst} (hi : f.inst? i = some inst) :
    g.inst? i = some inst := by
  obtain ⟨data, hd, rfl⟩ := inst?_eq_some.mp hi
  exact inst?_eq_some.mpr ⟨data, h.insts _ _ hd, rfl⟩

theorem Within.result? {f g : Function} (h : f.Within g) {i : InstId} {v : ValueId} (hi : f.result? i = some v) :
    g.result? i = some v := by
  obtain ⟨data, hd, hv⟩ := result?_eq_some.mp hi
  exact result?_eq_some.mpr ⟨data, h.insts _ _ hd, hv⟩

theorem inst?_snoc (f : Function) (inst : Inst) (ty : Option Ty) (i : InstId) :
    (f.snoc inst ty).inst? i = if i = f.insts.next then some inst else f.inst? i := by
  unfold inst?
  rw [snoc_insts, Table.get?_push]
  split <;> rfl

@[simp] theorem inst?_snoc_next (f : Function) (inst : Inst) (ty : Option Ty) :
    (f.snoc inst ty).inst? f.insts.next = some inst := by
  rw [inst?_snoc, if_pos rfl]

/-- An instruction is the new one or an old one. -/
theorem inst?_snoc_cases {f : Function} {inst inst' : Inst} {ty : Option Ty} {i : InstId}
    (h : (f.snoc inst ty).inst? i = some inst') : i = f.insts.next ∧ inst' = inst ∨ f.inst? i = some inst' := by
  rw [inst?_snoc] at h
  by_cases hi : i = f.insts.next
  · rw [if_pos hi] at h
    exact .inl ⟨hi, (Option.some.inj h).symm⟩
  · rw [if_neg hi] at h
    exact .inr h

theorem result?_snoc (f : Function) (inst : Inst) (ty : Option Ty) (i : InstId) :
    (f.snoc inst ty).result? i =
      if i = f.insts.next then ty.map fun _ => f.values.next else f.result? i := by
  unfold result?
  rw [snoc_insts, Table.get?_push]
  split <;> rfl

theorem index_lt_of_inst? {f : Function} {i : InstId} {inst : Inst} (h : f.inst? i = some inst) :
    i.index < f.insts.size := by
  obtain ⟨data, hd, -⟩ := inst?_eq_some.mp h
  exact Table.index_lt_of_get? hd

theorem index_lt_of_result? {f : Function} {i : InstId} {v : ValueId} (h : f.result? i = some v) :
    i.index < f.insts.size := by
  obtain ⟨data, hd, -⟩ := result?_eq_some.mp h
  exact Table.index_lt_of_get? hd

/-- The type that a function returns with an optional value. -/
def returned (f : Function) (value : Option ValueId) : Except Fault Ty :=
  match value with
  | some v => f.valueType v
  | none => .ok .void

theorem Within.returned {f g : Function} (h : f.Within g) {value : Option ValueId} {ty : Ty}
    (hv : f.returned value = .ok ty) : g.returned value = .ok ty := by
  cases value with
  | none => exact hv
  | some v => exact h.valueType hv

end Function

/-- Whether arithmetic of an operation is done on values of a type. -/
def Opcode.worksOn (op : Opcode) (ty : Ty) : Bool :=
  if op.isFloatArithmetic then ty.isFloat else ty.isInt

/-- The typing rules for one instruction and the type of its result. -/
inductive Module.WellTyped (m : Module) (f : Function) : Inst → Ty → Prop
  | unary {op : Opcode} {arg : ValueId} {source target : Ty} (harg : f.valueType arg = .ok source)
      (hop : op.converts source target = true) : WellTyped m f (.unary op arg) target
  | binary {op : Opcode} {lhs rhs : ValueId} {ty : Ty} (hl : f.valueType lhs = .ok ty)
      (hr : f.valueType rhs = .ok ty) (hop : op.worksOn ty = true) : WellTyped m f (.binary op lhs rhs) ty
  | iconst (bits : BitVec 64) (width : Numeral.IntWidth) : WellTyped m f (.iconst bits) (.int width)
  | fconst (bits : BitVec 64) (width : Numeral.FloatWidth) : WellTyped m f (.fconst bits) (.float width)
  | stackLoad {slot : SlotId} {data : SlotData} (hs : f.slots.get? slot = some data) :
      WellTyped m f (.stackLoad slot) data.ty
  | stackStore {value : ValueId} {slot : SlotId} {data : SlotData} (ty : Ty)
      (hs : f.slots.get? slot = some data) (hv : f.valueType value = .ok data.ty) :
      WellTyped m f (.stackStore value slot) ty
  | globalLoad (global : GlobalId) (ty : Ty) : WellTyped m f (.globalLoad global) ty
  | dataAddr (data : DataId) (ty : Ty) : WellTyped m f (.dataAddr data) ty
  | call {callee : FuncId} {args : List ValueId} {s : Signature} (ty : Ty)
      (hs : m.signatureOf callee = .ok s) (hn : s.accepts args.length = true)
      (ha : ∀ (k : Nat) v t, args[k]? = some v → s.params[k]? = some t → f.valueType v = .ok t) :
      WellTyped m f (.call callee args) ty
  | ret {value : Option ValueId} {s : Signature} (ty : Ty) (hs : m.signatures.get? f.signature = some s)
      (hv : f.returned value = .ok s.ret) : WellTyped m f (.ret value) ty

/-- Growing tables keep what is well typed. -/
theorem Module.WellTyped.mono {m n : Module} {f g : Function} (hm : m.Within n) (hf : f.Within g)
    {inst : Inst} {ty : Ty} (h : m.WellTyped f inst ty) : n.WellTyped g inst ty := by
  cases h with
  | unary harg hop => exact .unary (hf.valueType harg) hop
  | binary hl hr hop => exact .binary (hf.valueType hl) (hf.valueType hr) hop
  | iconst bits width => exact .iconst bits width
  | fconst bits width => exact .fconst bits width
  | stackLoad hs => exact .stackLoad (hf.slots _ _ hs)
  | stackStore ty hs hv => exact .stackStore ty (hf.slots _ _ hs) (hf.valueType hv)
  | globalLoad global ty => exact .globalLoad global ty
  | dataAddr data ty => exact .dataAddr data ty
  | call ty hs hn ha =>
    exact .call ty (hm.signatureOf hs) hn fun k v t hv ht => hf.valueType (ha k v t hv ht)
  | ret ty hs hv =>
    refine .ret ty ?_ (hf.returned hv)
    rw [hf.signature]
    exact hm.signatures _ _ hs

/-- A well-typed instruction uses values that there are; of the arguments of a call only those that
the signature fixes are typed. -/
theorem Module.WellTyped.index_lt {m : Module} {f : Function} {inst : Inst} {ty : Ty} (h : m.WellTyped f inst ty)
    (hcall : ∀ callee args, inst ≠ .call callee args) {v : ValueId} (hv : v ∈ inst.operands) :
    v.index < f.values.size := by
  cases h with
  | unary harg hop =>
    rw [Inst.operands, List.mem_singleton] at hv
    subst hv
    exact Function.index_lt_of_valueType harg
  | binary hl hr hop =>
    simp only [Inst.operands, List.mem_cons, List.not_mem_nil, or_false] at hv
    rcases hv with rfl | rfl
    · exact Function.index_lt_of_valueType hl
    · exact Function.index_lt_of_valueType hr
  | stackStore ty hs hval =>
    rw [Inst.operands, List.mem_singleton] at hv
    subst hv
    exact Function.index_lt_of_valueType hval
  | call ty hs hn ha => exact absurd rfl (hcall _ _)
  | ret ty hs hval =>
    rw [Inst.operands, Option.mem_toList] at hv
    cases hv
    exact Function.index_lt_of_valueType hval
  | iconst | fconst | stackLoad | globalLoad | dataAddr => cases hv

/-! ## The check accepts what is well typed -/

namespace Check

@[simp] theorem read_ok {α : Type} (a : α) : read (.ok a) = .ok a := rfl

@[simp] theorem ok_bind {α β : Type} (a : α) (f : α → Check β) : (Except.ok a >>= f) = f a := rfl

@[simp] theorem require_true (v : Violation) : require true v = .ok () := rfl

end Check

namespace Function

variable {f : Function} {m : Module}

theorem checkArgs_eq_ok (i : InstId) (index : Nat) (args : List ValueId) (params : List Ty)
    (h : ∀ (k : Nat) v t, args[k]? = some v → params[k]? = some t → f.valueType v = .ok t) :
    f.checkArgs i index args params = .ok () := by
  induction args generalizing index params with
  | nil => rfl
  | cons v args ih =>
    cases params with
    | nil => rfl
    | cons t params =>
      have hv : f.valueType v = .ok t := h 0 v t rfl rfl
      have hrest := ih (index + 1) params fun k => h (k + 1)
      unfold checkArgs
      simp only [hv, Check.read_ok, Check.ok_bind, decide_true, Check.require_true]
      exact hrest

/-- An address is no operand of arithmetic. -/
theorem not_isPointer_of_worksOn {op : Opcode} {ty : Ty} (h : op.worksOn ty = true) : ty.isPointer = false := by
  unfold Opcode.worksOn at h
  cases ty with
  | ptr => simp [Ty.isFloat, Ty.isInt] at h
  | _ => rfl

theorem checkInst_of_wellTyped {i : InstId} {data : InstData} {ty : Ty} (hd : f.insts.get? i = some data)
    (hr : f.resultType i = .ok ty) (h : m.WellTyped f data.inst ty) : f.checkInst m i = .ok () := by
  obtain ⟨inst, result⟩ := data
  change m.WellTyped f inst ty at h
  unfold checkInst
  simp only [Table.get_eq_ok.mpr hd, hr, Check.read_ok, Check.ok_bind]
  cases h with
  | unary harg hop => simp only [harg, hop, Check.read_ok, Check.ok_bind, Check.require_true]
  | @binary op lhs rhs ty hl hr' hop =>
    have hp := not_isPointer_of_worksOn hop
    simp only [hl, hr', hp, Check.read_ok, Check.ok_bind, Bool.not_false, Bool.and_self, decide_true, Check.require_true]
    unfold Opcode.worksOn at hop
    split at hop
    · next hf => simp only [hf, hop, if_true, Check.require_true]
    · next hf => simp only [hf, hop, Check.require_true]; rfl
  | iconst bits width => rfl
  | fconst bits width => rfl
  | stackLoad hs => simp only [Table.get_eq_ok.mpr hs, Check.read_ok, Check.ok_bind, decide_true, Check.require_true]
  | stackStore ty hs hv => simp only [Table.get_eq_ok.mpr hs, hv, Check.read_ok, Check.ok_bind, decide_true, Check.require_true]
  | globalLoad global ty => rfl
  | dataAddr data ty => rfl
  | @call callee args s ty hs hn ha =>
    simp only [hs, hn, Check.read_ok, Check.ok_bind, Check.require_true]
    exact checkArgs_eq_ok i 0 args s.params ha
  | @ret value s ty hs hv =>
    simp only [Table.get_eq_ok.mpr hs, Check.read_ok, Check.ok_bind]
    cases value with
    | none =>
      have hv' : Ty.void = s.ret := Except.ok.inj hv
      simp only [← hv']
      rfl
    | some v =>
      have hv' : f.valueType v = .ok s.ret := hv
      simp only [hv', Check.read_ok, Check.ok_bind, decide_true, Check.require_true]

end Function

end SsaCompiler.Ir
