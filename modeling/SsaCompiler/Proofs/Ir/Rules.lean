import SsaCompiler.Proofs.Ir.Ssa

/-!
# The typing rules in order

A `Rule` is a statement with the violation that is reported where it is false.  `Module.rules` lists the
rules of a module, function by function and block by block in the order of entering, and of each block
instruction by instruction by position: no terminator before the last place, the rules of the kind of
instruction, and a terminator at the last place.  A check `Decides` a list of rules if it succeeds where
all hold and otherwise ends with the violation of the first that does not.

    Decides x rs → Decides y us → Decides (x >>= fun _ => y) (rs ++ us)         (Decides.bind)
    the ids of m name something, and no block lists an instruction twice →
      m.check succeeds where all rules hold, and ends with the first broken one otherwise  (decides_check)
-/

namespace SsaCompiler.Ir

open Numeral (IntWidth FloatWidth)

/-! ## Rules -/

/-- A rule, and what is reported where it does not hold. -/
structure Rule (ε : Type) where
  holds : Prop
  broken : ε

/-- The error that the first rule that does not hold reports. -/
def FirstBroken {ε : Type} (rules : List (Rule ε)) (e : ε) : Prop :=
  ∃ before r after, rules = before ++ r :: after ∧ (∀ q ∈ before, q.holds) ∧ ¬ r.holds ∧ r.broken = e

/-- A check that succeeds where all rules hold and otherwise reports the first that does not. -/
def Decides {ε : Type} (x : Except (Failure ε) Unit) (rules : List (Rule ε)) : Prop :=
  (x = .ok () ∧ ∀ r ∈ rules, r.holds) ∨ ∃ e, x = .error (.error e) ∧ FirstBroken rules e

section Decides

variable {ε : Type} {x y : Except (Failure ε) Unit} {rules others : List (Rule ε)}

theorem FirstBroken.not_forall {e : ε} (h : FirstBroken rules e) : ¬ ∀ r ∈ rules, r.holds := by
  obtain ⟨before, r, after, rfl, -, hr, -⟩ := h
  exact fun hall => hr (hall r (List.mem_append_right _ List.mem_cons_self))

/-- Of two broken rules one comes first. -/
theorem FirstBroken.unique {e e' : ε} (h : FirstBroken rules e) (h' : FirstBroken rules e') : e = e' := by
  obtain ⟨before, r, after, rfl, hbefore, hr, rfl⟩ := h
  obtain ⟨before', r', after', heq, hbefore', hr', rfl⟩ := h'
  induction before generalizing before' with
  | nil =>
    cases before' with
    | nil => cases heq; rfl
    | cons q before' =>
      cases heq
      exact absurd (hbefore' _ List.mem_cons_self) hr
  | cons q before ih =>
    cases before' with
    | nil =>
      cases heq
      exact absurd (hbefore _ List.mem_cons_self) hr'
    | cons q' before' =>
      obtain ⟨rfl, htail⟩ := List.cons.inj heq
      exact ih (fun p hp => hbefore p (List.mem_cons_of_mem _ hp)) before' htail
        fun p hp => hbefore' p (List.mem_cons_of_mem _ hp)

theorem decides_nil : Decides (pure () : Except (Failure ε) Unit) [] :=
  .inl ⟨rfl, fun _ hr => nomatch hr⟩

theorem decides_pass {p : Prop} (hp : p) (e : ε) :
    Decides (pure () : Except (Failure ε) Unit) [{ holds := p, broken := e }] := by
  refine .inl ⟨rfl, fun r hr => ?_⟩
  rw [List.mem_singleton] at hr
  subst hr
  exact hp

theorem decides_fail {p : Prop} (hp : ¬ p) (e : ε) (after : List (Rule ε)) :
    Decides (.error (.error e)) ({ holds := p, broken := e } :: after) :=
  .inr ⟨e, rfl, [], _, after, rfl, fun _ hq => (List.not_mem_nil hq).elim, hp, rfl⟩

/-- What is checked first is reported first. -/
theorem Decides.bind (hx : Decides x rules) (hy : (∀ r ∈ rules, r.holds) → Decides y others) :
    Decides (x >>= fun _ => y) (rules ++ others) := by
  rcases hx with ⟨rfl, hrules⟩ | ⟨e, rfl, before, r, after, rfl, hbefore, hr, he⟩
  · rcases hy hrules with ⟨rfl, hothers⟩ | ⟨e, rfl, before, r, after, rfl, hbefore, hr, he⟩
    · refine .inl ⟨rfl, fun r hr => ?_⟩
      rcases List.mem_append.mp hr with hr | hr
      · exact hrules r hr
      · exact hothers r hr
    · refine .inr ⟨e, rfl, rules ++ before, r, after, (List.append_assoc ..).symm, fun q hq => ?_, hr, he⟩
      rcases List.mem_append.mp hq with hq | hq
      · exact hrules q hq
      · exact hbefore q hq
  · exact .inr ⟨e, rfl, before, r, after ++ others, by rw [List.append_assoc, List.cons_append], hbefore, hr, he⟩

/-- A list of checks decides the rules of all. -/
theorem decides_forM {α : Type} {check : α → Except (Failure ε) Unit} {rulesOf : α → List (Rule ε)} {xs : List α}
    (h : ∀ x ∈ xs, Decides (check x) (rulesOf x)) : Decides (xs.forM check) (xs.flatMap rulesOf) := by
  induction xs with
  | nil => exact decides_nil
  | cons x xs ih =>
    have hrest := ih fun y hy => h y (List.mem_cons_of_mem _ hy)
    rw [List.flatMap_cons]
    exact (h x List.mem_cons_self).bind fun _ => hrest

theorem Decides.eq_ok_iff (h : Decides x rules) : x = .ok () ↔ ∀ r ∈ rules, r.holds := by
  rcases h with ⟨rfl, hall⟩ | ⟨e, rfl, hfirst⟩
  · exact ⟨fun _ => hall, fun _ => rfl⟩
  · exact ⟨nofun, fun hall => absurd hall hfirst.not_forall⟩

theorem Decides.eq_error_iff (h : Decides x rules) (e : ε) : x = .error (.error e) ↔ FirstBroken rules e := by
  rcases h with ⟨rfl, hall⟩ | ⟨e', rfl, hfirst⟩
  · exact ⟨nofun, fun hfirst => absurd hall hfirst.not_forall⟩
  · constructor
    · rintro ⟨⟩
      exact hfirst
    · intro h'
      rw [hfirst.unique h']

theorem Decides.ne_fault (h : Decides x rules) (fault : Fault) : x ≠ .error (.fault fault) := by
  rcases h with ⟨rfl, -⟩ | ⟨e, rfl, -⟩ <;> nofun

end Decides

/-- A rule of a function among those of its module. -/
def Rule.within {ε δ : Type} (f : ε → δ) (r : Rule ε) : Rule δ :=
  { holds := r.holds, broken := f r.broken }

theorem FirstBroken.within {ε δ : Type} {rules : List (Rule ε)} {e : ε} (h : FirstBroken rules e) (f : ε → δ) :
    FirstBroken (rules.map (Rule.within f)) (f e) := by
  obtain ⟨before, r, after, rfl, hbefore, hr, rfl⟩ := h
  refine ⟨before.map (Rule.within f), r.within f, after.map (Rule.within f), by simp, ?_, hr, rfl⟩
  intro q hq
  obtain ⟨p, hp, rfl⟩ := List.mem_map.mp hq
  exact hbefore p hp

/-! ## Types of operands -/

/-- What a conversion may go from and to: wider and narrower are meant strictly. -/
inductive Opcode.Converts : Opcode → Ty → Ty → Prop
  | extendS {a b : IntWidth} (h : a.bits < b.bits) : Converts .extendS (.int a) (.int b)
  | extendU {a b : IntWidth} (h : a.bits < b.bits) : Converts .extendU (.int a) (.int b)
  | wrap {a b : IntWidth} (h : b.bits < a.bits) : Converts .wrap (.int a) (.int b)
  | floatPromote : Converts .floatPromote (.float .w32) (.float .w64)
  | floatDemote : Converts .floatDemote (.float .w64) (.float .w32)
  | floatToIntS (a : FloatWidth) (b : IntWidth) : Converts .floatToIntS (.float a) (.int b)
  | intToFloatS (a : IntWidth) (b : FloatWidth) : Converts .intToFloatS (.int a) (.float b)
  | intToPtr (a : IntWidth) : Converts .intToPtr (.int a) .ptr
  | ptrToInt (b : IntWidth) : Converts .ptrToInt .ptr (.int b)

theorem Opcode.converts_iff {op : Opcode} {a b : Ty} : op.converts a b = true ↔ op.Converts a b := by
  constructor
  · intro h
    cases op <;> cases a <;> cases b <;> simp [Opcode.converts, Ty.isInt, Ty.isFloat, Ty.isPointer, Ty.bits] at h
    case extendS.int.int => exact .extendS (of_decide_eq_true h)
    case extendU.int.int => exact .extendU (of_decide_eq_true h)
    case wrap.int.int => exact .wrap (of_decide_eq_true h)
    case floatPromote.float.float => obtain ⟨rfl, rfl⟩ := h; exact .floatPromote
    case floatDemote.float.float => obtain ⟨rfl, rfl⟩ := h; exact .floatDemote
    case floatToIntS.float.int => exact .floatToIntS _ _
    case intToFloatS.int.float => exact .intToFloatS _ _
    case intToPtr.int.ptr => exact .intToPtr _
    case ptrToInt.ptr.int => exact .ptrToInt _
  · rintro (h | h | h | _ | _ | _ | _ | _ | _) <;>
      simp [Opcode.converts, Ty.isInt, Ty.isFloat, Ty.isPointer, Ty.bits, *]

/-- The arithmetic on floating-point numbers. -/
def floatOperations : List Opcode :=
  [.fadd, .fsub, .fmul, .fdiv]

/-- What the operands of an operation on two values are: floating-point numbers for the arithmetic on
these, integers for every other operation. -/
def Opcode.Combines (op : Opcode) (ty : Ty) : Prop :=
  if op ∈ floatOperations then ∃ width, ty = .float width else ∃ width, ty = .int width

theorem Opcode.isFloatArithmetic_iff {op : Opcode} : op.isFloatArithmetic = true ↔ op ∈ floatOperations := by
  cases op <;> simp [Opcode.isFloatArithmetic, floatOperations]

theorem Ty.isInt_iff {ty : Ty} : ty.isInt = true ↔ ∃ width, ty = .int width := by
  cases ty <;> simp [Ty.isInt]

theorem Ty.isFloat_iff {ty : Ty} : ty.isFloat = true ↔ ∃ width, ty = .float width := by
  cases ty <;> simp [Ty.isFloat]

theorem Opcode.worksOn_iff {op : Opcode} {ty : Ty} : op.worksOn ty = true ↔ op.Combines ty := by
  unfold Opcode.worksOn Opcode.Combines
  by_cases h : op ∈ floatOperations
  · rw [if_pos h, if_pos (isFloatArithmetic_iff.mpr h), Ty.isFloat_iff]
  · rw [if_neg h, if_neg (mt isFloatArithmetic_iff.mp h), Ty.isInt_iff]

/-! ## Ids that name something -/

namespace Function

/-- The type of a value. -/
def typeOf (f : Function) (v : ValueId) : Ty :=
  ((f.values.get? v).map (·.ty)).getD .void

/-- The type of the result of an instruction, `void` where it has none. -/
def typeOfResult (f : Function) (i : InstId) : Ty :=
  (f.result? i).elim .void f.typeOf

/-- The type of a slot. -/
def typeOfSlot (f : Function) (slot : SlotId) : Ty :=
  ((f.slots.get? slot).map (·.ty)).getD .void

/-- The ids that a function stores name something in it and in its module. -/
structure IdsInRange (f : Function) (m : Module) : Prop where
  signature : f.signature.index < m.signatures.size
  order : ∀ b ∈ f.order, b.index < f.blocks.size
  insts : ∀ b data, f.blocks.get? b = some data → ∀ i ∈ data.insts, i.index < f.insts.size
  operands : ∀ i inst, f.inst? i = some inst → ∀ v ∈ inst.operands, v.index < f.values.size
  results : ∀ i v, f.result? i = some v → v.index < f.values.size
  ids : ∀ i inst, f.inst? i = some inst → inst.IdsIn m f

end Function

/-- The ids that a module stores name something. -/
def Module.IdsInRange (m : Module) : Prop :=
  ∀ f ∈ m.functions.toList, f.IdsInRange m

/-- No block lists an instruction twice. -/
def Module.ListsOnce (m : Module) : Prop :=
  ∀ f ∈ m.functions.toList, ∀ b data, f.blocks.get? b = some data → data.insts.toList.Nodup

namespace Function

variable {f : Function} {m : Module}

theorem valueType_of_lt {v : ValueId} (h : v.index < f.values.size) : f.valueType v = .ok (f.typeOf v) := by
  obtain ⟨data, hd⟩ := Table.exists_get?_of_lt h
  rw [valueType_eq_ok]
  refine ⟨data, hd, ?_⟩
  rw [typeOf, hd]
  rfl

theorem IdsInRange.resultType (h : f.IdsInRange m) (i : InstId) : f.resultType i = .ok (f.typeOfResult i) := by
  unfold Function.resultType typeOfResult
  cases hr : f.result? i with
  | none => rfl
  | some v => exact valueType_of_lt (h.results i v hr)

theorem get_slots_of_lt {slot : SlotId} (h : slot.index < f.slots.size) :
    ∃ data, f.slots.get? slot = some data ∧ f.typeOfSlot slot = data.ty := by
  obtain ⟨data, hd⟩ := Table.exists_get?_of_lt h
  refine ⟨data, hd, ?_⟩
  rw [typeOfSlot, hd]
  rfl

end Function

theorem Module.IdsInRange.signatureOf {m : Module} (h : m.IdsInRange) {callee : FuncId}
    (hc : callee.index < m.functions.size) : ∃ s, m.signatureOf callee = .ok s := by
  obtain ⟨g, hg⟩ := Table.exists_get?_of_lt hc
  have hmem : g ∈ m.functions.toList := by
    rw [Table.get?_eq_some_iff] at hg
    exact List.mem_of_getElem? hg
  obtain ⟨s, hs⟩ := Table.exists_get?_of_lt (h g hmem).signature
  exact ⟨s, signatureOf_eq_ok.mpr ⟨g, hg, hs⟩⟩

/-! ## The rules of a module -/

/-- Whether a call with a number of arguments fits a signature. -/
def Signature.Takes (s : Signature) (count : Nat) : Prop :=
  if s.variadic then s.params.length ≤ count else count = s.params.length

theorem Signature.accepts_iff {s : Signature} {count : Nat} : s.accepts count = true ↔ s.Takes count := by
  unfold Signature.accepts Signature.Takes
  split <;> simp

namespace Function

/-- The arguments of a call against the fixed parameters. -/
def argRules (f : Function) (i : InstId) (args : List ValueId) (params : List Ty) (start : Nat) :
    List (Rule Violation) :=
  ((args.zip params).zipIdx start).map fun ((arg, expected), index) =>
    { holds := f.typeOf arg = expected, broken := .argumentType i index expected (f.typeOf arg) }

/-- The rules of an instruction with a result of a type. -/
def instRules (f : Function) (m : Module) (i : InstId) (result : Ty) : Inst → List (Rule Violation)
  | .unary op arg =>
    [{ holds := op.Converts (f.typeOf arg) result, broken := .invalidConversion i op (f.typeOf arg) result }]
  | .binary op lhs rhs =>
    let left := f.typeOf lhs
    let right := f.typeOf rhs
    [{ holds := left ≠ .ptr ∧ right ≠ .ptr, broken := .pointerArithmetic i op },
     { holds := left = right ∧ left = result, broken := .operandMismatch i left right },
     { holds := op.Combines left
       broken := .typeMismatch op (if op ∈ floatOperations then .float .w64 else .int .w64) left }]
  | .iconst _ => [{ holds := ∃ width, result = .int width, broken := .typeMismatch .iconst (.int .w64) result }]
  | .fconst _ => [{ holds := ∃ width, result = .float width, broken := .typeMismatch .fconst (.float .w64) result }]
  | .stackLoad slot =>
    [{ holds := f.typeOfSlot slot = result, broken := .slotMismatch i slot (f.typeOfSlot slot) result }]
  | .stackStore value slot =>
    [{ holds := f.typeOfSlot slot = f.typeOf value
       broken := .slotMismatch i slot (f.typeOfSlot slot) (f.typeOf value) }]
  | .globalLoad _ => []
  | .dataAddr _ => []
  | .call callee args =>
    match m.signatureOf callee with
    | .error _ => []
    | .ok s =>
      { holds := s.Takes args.length, broken := .argumentCount i s.params.length args.length s.variadic } ::
        f.argRules i args s.params 0
  | .ret value =>
    match m.signatures.get? f.signature with
    | none => []
    | some s =>
      let found := value.elim .void f.typeOf
      [{ holds := s.ret = found, broken := .returnMismatch s.ret found }]

/-- Whether an instruction ends its block. -/
def IsRet (f : Function) (i : InstId) : Prop :=
  ∃ inst, f.inst? i = some inst ∧ inst.opcode = .ret

/-- The rules of an instruction by its id. -/
def rulesAt (f : Function) (m : Module) (i : InstId) : List (Rule Violation) :=
  (f.inst? i).elim [] (f.instRules m i (f.typeOfResult i))

/-- The rules of a row of instructions, by position: only the last may end the block, and it has to. -/
def rowRules (f : Function) (m : Module) (b : BlockId) : List InstId → List (Rule Violation)
  | [] => [{ holds := False, broken := .emptyBlock b }]
  | [i] => f.rulesAt m i ++ [{ holds := f.IsRet i, broken := .noTerminator b }]
  | i :: next :: rest =>
    { holds := ¬ f.IsRet i, broken := .instAfterTerminator b next } ::
      (f.rulesAt m i ++ f.rowRules m b (next :: rest))

/-- The rules of a block. -/
def blockRules (f : Function) (m : Module) (b : BlockId) : List (Rule Violation) :=
  f.rowRules m b (((f.blocks.get? b).map (·.insts.toList)).getD [])

/-- The rules of a function; one without an entry block has none. -/
def rules (f : Function) (m : Module) : List (Rule Violation) :=
  if f.entry.isSome then f.order.toList.flatMap (f.blockRules m) else []

end Function

/-- The rules of a module. -/
def Module.rules (m : Module) : List (Rule Error) :=
  m.functions.toList.flatMap fun f => (f.rules m).map (Rule.within (.inFunction f.name))

/-! ## The check decides the rules -/

theorem decides_require {p : Prop} {b : Bool} (h : b = true ↔ p) (v : Violation) :
    Decides (Check.require b v) [{ holds := p, broken := v }] := by
  unfold Check.require
  cases b with
  | true => exact decides_pass (h.mp rfl) v
  | false => exact decides_fail (fun hp => nomatch h.mpr hp) v []

namespace Function

variable {f : Function} {m : Module}

theorem decides_checkArgs (i : InstId) (args : List ValueId) (params : List Ty) (start : Nat)
    (h : ∀ v ∈ args, v.index < f.values.size) :
    Decides (f.checkArgs i start args params) (f.argRules i args params start) := by
  induction args generalizing params start with
  | nil => exact decides_nil
  | cons v args ih =>
    cases params with
    | nil => exact decides_nil
    | cons t params =>
      have hrest := ih params (start + 1) fun w hw => h w (List.mem_cons_of_mem _ hw)
      have hv := decides_require (p := f.typeOf v = t) (b := f.typeOf v = t) (by simp)
        (.argumentType i start t (f.typeOf v))
      unfold checkArgs
      simp only [valueType_of_lt (h v List.mem_cons_self), Check.read_ok, Check.ok_bind]
      exact hv.bind fun _ => hrest

theorem decides_checkInst (hm : m.IdsInRange) (hf : f.IdsInRange m) {i : InstId} {inst : Inst}
    (hi : f.inst? i = some inst) : Decides (f.checkInst m i) (f.rulesAt m i) := by
  obtain ⟨data, hd, rfl⟩ := inst?_eq_some.mp hi
  have hids := hf.ids i _ hi
  have hops := hf.operands i _ hi
  have hty (v : ValueId) (hv : v ∈ data.inst.operands) : f.valueType v = .ok (f.typeOf v) :=
    valueType_of_lt (hops v hv)
  unfold checkInst rulesAt
  simp only [hi, Option.elim_some, Table.get_eq_ok.mpr hd, hf.resultType, Check.read_ok, Check.ok_bind]
  cases hinst : data.inst with
  | unary op arg =>
    simp only [hty arg (by simp [hinst, Inst.operands]), Check.read_ok, Check.ok_bind]
    exact decides_require Opcode.converts_iff _
  | binary op lhs rhs =>
    simp only [hty lhs (by simp [hinst, Inst.operands]), hty rhs (by simp [hinst, Inst.operands]),
      Check.read_ok, Check.ok_bind]
    have hclass : op.worksOn (f.typeOf lhs) = true ↔ op.Combines (f.typeOf lhs) := Opcode.worksOn_iff
    refine (decides_require ?_ _).bind fun _ => (decides_require ?_ _).bind fun _ => ?_
    · cases f.typeOf lhs <;> cases f.typeOf rhs <;> simp [Ty.isPointer]
    · simp
    · unfold Opcode.worksOn at hclass
      by_cases hop : op ∈ floatOperations
      · rw [if_pos (Opcode.isFloatArithmetic_iff.mpr hop)] at hclass ⊢
        rw [if_pos hop]
        exact decides_require hclass _
      · rw [if_neg (mt Opcode.isFloatArithmetic_iff.mp hop)] at hclass ⊢
        rw [if_neg hop]
        exact decides_require hclass _
  | iconst bits => exact decides_require Ty.isInt_iff _
  | fconst bits => exact decides_require Ty.isFloat_iff _
  | stackLoad slot =>
    rw [hinst] at hids
    obtain ⟨s, hs, hst⟩ := get_slots_of_lt hids
    simp only [Table.get_eq_ok.mpr hs, Check.read_ok, Check.ok_bind, instRules, hst]
    exact decides_require (by simp) _
  | stackStore value slot =>
    rw [hinst] at hids
    obtain ⟨s, hs, hst⟩ := get_slots_of_lt hids
    simp only [Table.get_eq_ok.mpr hs, hty value (by simp [hinst, Inst.operands]), Check.read_ok, Check.ok_bind,
      instRules, hst]
    exact decides_require (by simp) _
  | globalLoad global => exact decides_nil
  | dataAddr data => exact decides_nil
  | call callee args =>
    rw [hinst] at hids
    obtain ⟨s, hs⟩ := hm.signatureOf hids
    simp only [hs, Check.read_ok, Check.ok_bind, instRules]
    refine (decides_require Signature.accepts_iff _).bind fun _ => ?_
    exact decides_checkArgs i args s.params 0 fun v hv => hops v (by simpa [hinst, Inst.operands] using hv)
  | ret value =>
    obtain ⟨s, hs⟩ := Table.exists_get?_of_lt hf.signature
    simp only [Table.get_eq_ok.mpr hs, hs, Check.read_ok, Check.ok_bind, instRules]
    cases value with
    | none => exact decides_require (by simp) _
    | some v =>
      simp only [hty v (by simp [hinst, Inst.operands]), Check.read_ok, Check.ok_bind]
      exact decides_require (by simp) _

theorem isTerminator_iff {i : InstId} {data : InstData} (hd : f.insts.get? i = some data) :
    data.inst.isTerminator = true ↔ f.IsRet i := by
  have hret : data.inst.isTerminator = true ↔ data.inst.opcode = .ret := by
    unfold Inst.isTerminator Opcode.isTerminator
    cases data.inst.opcode <;> simp
  rw [hret]
  constructor
  · intro h
    exact ⟨data.inst, inst?_eq_some.mpr ⟨data, hd, rfl⟩, h⟩
  · rintro ⟨inst, hi, h⟩
    obtain ⟨data', hd', rfl⟩ := inst?_eq_some.mp hi
    rw [hd] at hd'
    cases hd'
    exact h

/-- The instructions of a block, the last told by its id: as none is listed twice, by its position. -/
theorem decides_checkInsts (hm : m.IdsInRange) (hf : f.IdsInRange m) (b : BlockId) (row : List InstId)
    (last : InstId) (hlast : row.getLast? = some last) (hnodup : row.Nodup)
    (hrow : ∀ i ∈ row, i.index < f.insts.size) {data : InstData} (hd : f.insts.get? last = some data) :
    Decides (f.checkInsts m b last row >>= fun _ => Check.require data.inst.isTerminator (.noTerminator b))
      (f.rowRules m b row) := by
  induction row with
  | nil => cases hlast
  | cons i row ih =>
    obtain ⟨here, hhere⟩ := Table.exists_get?_of_lt (hrow i List.mem_cons_self)
    have hinst : Decides (f.checkInst m i) (f.rulesAt m i) :=
      decides_checkInst hm hf (inst?_eq_some.mpr ⟨here, hhere, rfl⟩)
    unfold checkInsts
    simp only [Table.get_eq_ok.mpr hhere, Check.read_ok, Check.ok_bind]
    cases row with
    | nil =>
      have hi : i = last := Option.some.inj hlast
      subst hi
      rw [hhere] at hd
      cases hd
      have hend := decides_require (isTerminator_iff hhere) (.noTerminator b)
      simp only [ne_eq, not_true_eq_false, decide_false, Bool.and_false, Bool.false_eq_true, if_false, bind_assoc]
      exact hinst.bind fun _ => hend
    | cons next rest =>
      have hne : i ≠ last := by
        rintro rfl
        have hmem : i ∈ next :: rest := List.mem_of_getLast? hlast
        exact (List.nodup_cons.mp hnodup).1 hmem
      have hrest := ih hlast (List.nodup_cons.mp hnodup).2 fun j hj => hrow j (List.mem_cons_of_mem _ hj)
      by_cases hterm : here.inst.isTerminator = true
      · have hret : f.IsRet i := (isTerminator_iff hhere).mp hterm
        simp only [hterm, hne, ne_eq, not_false_eq_true, decide_true, Bool.and_true, if_true]
        exact decides_fail (not_not_intro hret) _ _
      · have hret : ¬ f.IsRet i := mt (isTerminator_iff hhere).mpr hterm
        have hfirst := decides_pass hret (Violation.instAfterTerminator b next)
        rw [Bool.not_eq_true] at hterm
        simp only [hterm, Bool.false_and, Bool.false_eq_true, if_false, bind_assoc]
        exact hfirst.bind fun _ => hinst.bind fun _ => hrest

theorem decides_checkBlock (hm : m.IdsInRange) (hf : f.IdsInRange m)
    (honce : ∀ b data, f.blocks.get? b = some data → data.insts.toList.Nodup) {b : BlockId} (hb : b ∈ f.order) :
    Decides (f.checkBlock m b) (f.blockRules m b) := by
  obtain ⟨block, hblock⟩ := Table.exists_get?_of_lt (hf.order b hb)
  have hrow := hf.insts b block hblock
  unfold checkBlock blockRules
  simp only [Table.get_eq_ok.mpr hblock, hblock, Check.read_ok, Check.ok_bind, Option.map_some, Option.getD_some]
  rw [← Array.getLast?_toList]
  cases hlast : block.insts.toList.getLast? with
  | none =>
    rw [List.getLast?_eq_none_iff.mp hlast]
    exact decides_fail not_false _ []
  | some last =>
    have hmem : last ∈ block.insts := Array.mem_toList_iff.mp (List.mem_of_getLast? hlast)
    obtain ⟨data, hd⟩ := Table.exists_get?_of_lt (hrow last hmem)
    simp only [Table.get_eq_ok.mpr hd, Check.read_ok, Check.ok_bind]
    exact decides_checkInsts hm hf b _ last hlast (honce b block hblock)
      (fun i hi => hrow i (Array.mem_toList_iff.mp hi)) hd

theorem decides_check (hm : m.IdsInRange) (hf : f.IdsInRange m)
    (honce : ∀ b data, f.blocks.get? b = some data → data.insts.toList.Nodup) :
    Decides (f.check m) (f.rules m) := by
  unfold Function.check rules isDefined
  split
  · exact decides_forM fun b hb => decides_checkBlock hm hf honce (Array.mem_toList_iff.mp hb)
  · exact decides_nil

end Function

theorem Module.decides_check {m : Module} (hids : m.IdsInRange) (honce : m.ListsOnce) :
    Decides m.check m.rules := by
  refine decides_forM fun f hf => ?_
  rcases Function.decides_check hids (hids f hf) (honce f hf) with ⟨hok, hall⟩ | ⟨v, herr, hfirst⟩
  · refine .inl ⟨by rw [hok]; rfl, fun r hr => ?_⟩
    obtain ⟨q, hq, rfl⟩ := List.mem_map.mp hr
    exact hall q hq
  · exact .inr ⟨.inFunction f.name v, by rw [herr]; rfl, hfirst.within _⟩

end SsaCompiler.Ir
