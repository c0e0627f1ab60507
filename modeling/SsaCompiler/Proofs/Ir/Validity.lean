import SsaCompiler.Proofs.Ir.Rules

/-!
# Valid modules

`Module.Valid` says of a module that each block which has been entered lists instructions, a terminator at
its last place and nowhere else, and that each instruction is well typed.  This is what the rules of the
module amount to, so that the check succeeds exactly on the valid modules and names the first broken rule
of any other:

    m.check = .ok ()              ↔  m.Valid
    m.check = .error (.error e)   ↔  FirstBroken m.rules e                       (check_first_violation)
-/

namespace SsaCompiler.Ir

namespace Function

/-- Whether an id names an instruction that is well typed. -/
def InstValid (f : Function) (m : Module) (i : InstId) : Prop :=
  ∃ inst, f.inst? i = some inst ∧ m.WellTyped f inst (f.typeOfResult i)

/-- Whether a block lists instructions, the one terminator among them last, and all are well typed. -/
def BlockValid (f : Function) (m : Module) (b : BlockId) : Prop :=
  ∃ block, f.blocks.get? b = some block ∧ block.insts.toList ≠ [] ∧
    ∀ (k : Nat) i, block.insts.toList[k]? = some i →
      (f.IsRet i ↔ k + 1 = block.insts.toList.length) ∧ f.InstValid m i

end Function

/-- Whether every function with an entry block has been written by the rules. -/
def Module.Valid (m : Module) : Prop :=
  ∀ f ∈ m.functions.toList, f.entry.isSome → ∀ b ∈ f.order, f.BlockValid m b

/-! ## The rules say when a module is valid -/

namespace Function

variable {f : Function} {m : Module}

theorem forall_argRules (i : InstId) (args : List ValueId) (params : List Ty) (start : Nat)
    (h : ∀ v ∈ args, v.index < f.values.size) :
    (∀ r ∈ f.argRules i args params start, r.holds) ↔
      ∀ (k : Nat) v t, args[k]? = some v → params[k]? = some t → f.valueType v = .ok t := by
  induction args generalizing params start with
  | nil => exact ⟨fun _ k v t hv => by simp at hv, fun _ _ hr => absurd hr List.not_mem_nil⟩
  | cons a args ih =>
    cases params with
    | nil => exact ⟨fun _ k v t _ ht => by simp at ht, fun _ _ hr => absurd hr List.not_mem_nil⟩
    | cons p params =>
      have hrest := ih params (start + 1) fun v hv => h v (List.mem_cons_of_mem _ hv)
      have ha := valueType_of_lt (h a List.mem_cons_self)
      have hcons : f.argRules i (a :: args) (p :: params) start =
          { holds := f.typeOf a = p, broken := .argumentType i start p (f.typeOf a) } ::
            f.argRules i args params (start + 1) := rfl
      rw [hcons, List.forall_mem_cons, hrest]
      constructor
      · rintro ⟨hap, hargs⟩ (_ | k) v t hv ht
        · cases hv
          cases ht
          rw [ha, ← hap]
        · exact hargs k v t hv ht
      · intro hall
        refine ⟨?_, fun k => hall (k + 1)⟩
        have hap := hall 0 a p rfl rfl
        rw [ha] at hap
        exact Except.ok.inj hap

/-- The rules of an instruction hold where it is well typed. -/
theorem forall_rulesAt (hm : m.IdsInRange) (hf : f.IdsInRange m) {i : InstId} {inst : Inst}
    (hi : f.inst? i = some inst) :
    (∀ r ∈ f.rulesAt m i, r.holds) ↔ m.WellTyped f inst (f.typeOfResult i) := by
  have hids := hf.ids i inst hi
  have hops := hf.operands i inst hi
  unfold rulesAt
  rw [hi, Option.elim_some]
  generalize f.typeOfResult i = result
  cases inst with
  | unary op arg =>
    have harg := valueType_of_lt (hops arg (by simp [Inst.operands]))
    simp only [instRules, List.forall_mem_singleton, ← Opcode.converts_iff]
    constructor
    · exact fun h => .unary harg h
    · intro h
      cases h with
      | unary harg' hop =>
        rw [harg] at harg'
        cases harg'
        exact hop
  | binary op lhs rhs =>
    have hl := valueType_of_lt (hops lhs (by simp [Inst.operands]))
    have hr := valueType_of_lt (hops rhs (by simp [Inst.operands]))
    simp only [instRules, List.forall_mem_cons, ← Opcode.worksOn_iff]
    constructor
    · rintro ⟨-, ⟨hlr, rfl⟩, hop, -⟩
      rw [← hlr] at hr
      exact .binary hl hr hop
    · intro h
      cases h with
      | binary hl' hr' hop =>
        rw [hl] at hl'
        rw [hr] at hr'
        have hp := not_isPointer_of_worksOn hop
        have hne : result ≠ .ptr := by rintro rfl; cases hp
        rw [Except.ok.inj hl', Except.ok.inj hr']
        exact ⟨⟨hne, hne⟩, ⟨rfl, rfl⟩, hop, fun _ h => absurd h List.not_mem_nil⟩
  | iconst bits =>
    simp only [instRules, List.forall_mem_singleton]
    constructor
    · rintro ⟨width, rfl⟩
      exact .iconst bits width
    · rintro ⟨⟩
      exact ⟨_, rfl⟩
  | fconst bits =>
    simp only [instRules, List.forall_mem_singleton]
    constructor
    · rintro ⟨width, rfl⟩
      exact .fconst bits width
    · rintro ⟨⟩
      exact ⟨_, rfl⟩
  | stackLoad slot =>
    obtain ⟨data, hs, hty⟩ := get_slots_of_lt hids
    simp only [instRules, List.forall_mem_singleton, hty]
    constructor
    · rintro rfl
      exact .stackLoad hs
    · intro h
      cases h with
      | stackLoad hs' =>
        rw [hs] at hs'
        cases hs'
        rfl
  | stackStore value slot =>
    obtain ⟨data, hs, hty⟩ := get_slots_of_lt hids
    have hv := valueType_of_lt (hops value (by simp [Inst.operands]))
    simp only [instRules, List.forall_mem_singleton, hty]
    constructor
    · intro h
      rw [← h] at hv
      exact .stackStore result hs hv
    · intro h
      cases h with
      | stackStore _ hs' hv' =>
        rw [hs] at hs'
        cases hs'
        rw [hv] at hv'
        exact (Except.ok.inj hv').symm
  | globalLoad global => exact ⟨fun _ => .globalLoad global result, fun _ _ hr => absurd hr List.not_mem_nil⟩
  | dataAddr data => exact ⟨fun _ => .dataAddr data result, fun _ _ hr => absurd hr List.not_mem_nil⟩
  | call callee args =>
    obtain ⟨s, hs⟩ := hm.signatureOf hids
    simp only [instRules, hs, List.forall_mem_cons, forall_argRules i args s.params 0 hops, ← Signature.accepts_iff]
    constructor
    · rintro ⟨hn, hargs⟩
      exact .call result hs hn hargs
    · intro h
      cases h with
      | call _ hs' hn hargs =>
        rw [hs] at hs'
        cases hs'
        exact ⟨hn, hargs⟩
  | ret value =>
    obtain ⟨s, hs⟩ := Table.exists_get?_of_lt hf.signature
    have hv : f.returned value = .ok (value.elim .void f.typeOf) := by
      cases value with
      | none => rfl
      | some v => exact valueType_of_lt (hops v (by simp [Inst.operands]))
    simp only [instRules, hs, List.forall_mem_singleton]
    constructor
    · intro h
      rw [← h] at hv
      exact .ret result hs hv
    · intro h
      cases h with
      | ret _ hs' hv' =>
        rw [hs] at hs'
        cases hs'
        rw [hv] at hv'
        exact (Except.ok.inj hv').symm

/-- The rules of a row hold where each place does: a terminator at the last, none before it. -/
theorem forall_rowRules (b : BlockId) (row : List InstId) :
    (∀ r ∈ f.rowRules m b row, r.holds) ↔
      row ≠ [] ∧ ∀ (k : Nat) i, row[k]? = some i →
        (f.IsRet i ↔ k + 1 = row.length) ∧ ∀ r ∈ f.rulesAt m i, r.holds := by
  induction row with
  | nil => simp [rowRules]
  | cons i row ih =>
    cases row with
    | nil =>
      simp only [rowRules, List.forall_mem_append, List.forall_mem_singleton]
      constructor
      · rintro ⟨hi, hret⟩
        refine ⟨List.cons_ne_nil _ _, ?_⟩
        rintro (_ | k) j hj
        · cases hj
          exact ⟨⟨fun _ => rfl, fun _ => hret⟩, hi⟩
        · cases hj
      · rintro ⟨-, hall⟩
        obtain ⟨hret, hi⟩ := hall 0 i rfl
        exact ⟨hi, hret.mpr rfl⟩
    | cons next rest =>
      rw [rowRules, List.forall_mem_cons, List.forall_mem_append, ih]
      constructor
      · rintro ⟨hret, hi, -, hrest⟩
        refine ⟨List.cons_ne_nil _ _, ?_⟩
        rintro (_ | k) j hj
        · cases hj
          exact ⟨⟨fun h => absurd h hret, fun h => by simp at h⟩, hi⟩
        · obtain ⟨hj', hrules⟩ := hrest k j hj
          refine ⟨hj'.trans ?_, hrules⟩
          simp only [List.length_cons]
          omega
      · rintro ⟨-, hall⟩
        obtain ⟨hret, hi⟩ := hall 0 i rfl
        refine ⟨fun h => ?_, hi, List.cons_ne_nil _ _, fun k j hj => ?_⟩
        · have := hret.mp h
          simp only [List.length_cons] at this
          omega
        · obtain ⟨hj', hrules⟩ := hall (k + 1) j hj
          refine ⟨hj'.trans ?_, hrules⟩
          simp only [List.length_cons]
          omega

theorem forall_blockRules (hm : m.IdsInRange) (hf : f.IdsInRange m) {b : BlockId} (hb : b ∈ f.order) :
    (∀ r ∈ f.blockRules m b, r.holds) ↔ f.BlockValid m b := by
  obtain ⟨block, hblock⟩ := Table.exists_get?_of_lt (hf.order b hb)
  have hinst (i : InstId) (hi : i ∈ block.insts.toList) :
      (∀ r ∈ f.rulesAt m i, r.holds) ↔ f.InstValid m i := by
    obtain ⟨data, hd⟩ := Table.exists_get?_of_lt (hf.insts b block hblock i (Array.mem_toList_iff.mp hi))
    have hsome : f.inst? i = some data.inst := inst?_eq_some.mpr ⟨data, hd, rfl⟩
    rw [forall_rulesAt hm hf hsome]
    constructor
    · exact fun h => ⟨data.inst, hsome, h⟩
    · rintro ⟨inst, hi, h⟩
      rw [hsome] at hi
      cases hi
      exact h
  unfold blockRules BlockValid
  rw [hblock, Option.map_some, Option.getD_some, forall_rowRules]
  constructor
  · rintro ⟨hne, hall⟩
    refine ⟨block, rfl, hne, fun k i hi => ?_⟩
    exact ⟨(hall k i hi).1, (hinst i (List.mem_of_getElem? hi)).mp (hall k i hi).2⟩
  · rintro ⟨block', heq, hne, hall⟩
    cases heq
    exact ⟨hne, fun k i hi => ⟨(hall k i hi).1, (hinst i (List.mem_of_getElem? hi)).mpr (hall k i hi).2⟩⟩

theorem forall_rules (hm : m.IdsInRange) (hf : f.IdsInRange m) :
    (∀ r ∈ f.rules m, r.holds) ↔ (f.entry.isSome → ∀ b ∈ f.order, f.BlockValid m b) := by
  unfold rules
  split
  · next hentry =>
    simp only [hentry, true_imp_iff, List.forall_mem_flatMap, Array.mem_toList_iff]
    exact forall₂_congr fun b hb => forall_blockRules hm hf hb
  · next hentry => exact ⟨fun _ h => absurd h hentry, fun _ _ hr => absurd hr List.not_mem_nil⟩

end Function

theorem Module.forall_rules {m : Module} (hm : m.IdsInRange) : (∀ r ∈ m.rules, r.holds) ↔ m.Valid := by
  unfold Module.rules Module.Valid
  simp only [List.forall_mem_flatMap, List.forall_mem_map]
  exact forall₂_congr fun f hf => Function.forall_rules hm (hm f hf)

/-! ## The check -/

/-- **Validation decides the typing rules.**  It succeeds on the valid modules, ends with the first broken
rule on any other, and uses no id that names nothing. -/
theorem Module.check_first_violation (m : Module) (hids : m.IdsInRange) (honce : m.ListsOnce) :
    (m.check = .ok () ↔ m.Valid) ∧ (∀ e, m.check = .error (.error e) ↔ FirstBroken m.rules e) ∧
      ∀ fault, m.check ≠ .error (.fault fault) := by
  have h := Module.decides_check hids honce
  refine ⟨?_, h.eq_error_iff, h.ne_fault⟩
  rw [h.eq_ok_iff, Module.forall_rules hids]

/-- A module whose one function returns a floating-point number where its signature says an integer. -/
def misreturning : Module :=
  { name := "main"
    functions := ⟨#[{
      name := "f", signature := ⟨0⟩, linkage := .internal
      insts := ⟨#[{ inst := .fconst 0, result := some ⟨0⟩ }, { inst := .ret (some ⟨0⟩), result := none }]⟩
      values := ⟨#[{ ty := .float .w64, definition := .result ⟨0⟩ }]⟩
      names := []
      blocks := ⟨#[{ params := #[], insts := #[⟨0⟩, ⟨1⟩] }]⟩
      order := #[⟨0⟩], slots := .empty, entry := some ⟨0⟩ }]⟩
    signatures := ⟨#[{ params := [], ret := .int .w32, variadic := false, callConv := .systemV }]⟩
    globals := .empty, data := .empty }

theorem misreturning_idsInRange : misreturning.IdsInRange := by
  intro f hf
  obtain rfl := List.mem_singleton.mp hf
  refine ⟨by decide, by decide, ?_, ?_, ?_, ?_⟩
  · rintro ⟨_ | b⟩ data hb
    · cases hb
      decide
    · cases hb
  · rintro ⟨_ | _ | i⟩ inst hi <;> cases hi <;> decide
  · rintro ⟨_ | _ | i⟩ v hv <;> cases hv
    decide
  · rintro ⟨_ | _ | i⟩ inst hi <;> cases hi <;> trivial

theorem misreturning_listsOnce : misreturning.ListsOnce := by
  intro f hf
  obtain rfl := List.mem_singleton.mp hf
  rintro ⟨_ | b⟩ data hb <;> cases hb
  decide

theorem check_first_violation_misreturning : misreturning.IdsInRange ∧ misreturning.ListsOnce ∧
    ¬ misreturning.Valid ∧
    FirstBroken misreturning.rules (.inFunction "f" (.returnMismatch (.int .w32) (.float .w64))) := by
  obtain ⟨hok, herror, -⟩ :=
    Module.check_first_violation misreturning misreturning_idsInRange misreturning_listsOnce
  have hcheck : misreturning.check =
      .error (.error (.inFunction "f" (.returnMismatch (.int .w32) (.float .w64)))) := rfl
  refine ⟨misreturning_idsInRange, misreturning_listsOnce, ?_, (herror _).mp hcheck⟩
  rw [← hok, hcheck]
  nofun

end SsaCompiler.Ir
