import SsaCompiler.Proofs.Lowering.Guarantees
import SsaCompiler.Proofs.Lowering.SymbolTables
import SsaCompiler.Proofs.Semantics.Coercions

/-!
# Initial values of locals and globals

A literal in a body is a constant of the type of the literal, which is then coerced to the type of the
variable, while the literal of a global makes a constant of the type of the global at once.  In the
parser's hands a literal is of the type with 32 bits and a sign, but lowering also takes the numbers that
32 bits hold without a sign.  Such a number is cut to a negative one, and a wider local keeps that:

    a local holds the pattern of `n.bmod (2 ^ 32)`, a global that of `n`                   (lower_initialValues)
-/

namespace SsaCompiler.Lowering

open Lang (Prim Binding Stmt)
open Ir (Body Finished Signature)

/-! ## Statements of a body -/

/-- A binding of a body, with what was written before it and what comes after it. -/
theorem StmtsEmit.exists_bind {d : Declarations} {ret : Prim} {sig : Signature} {scope : Scope} {b b' : Body}
    {before after : List Stmt} {x : Binding} (h : StmtsEmit d ret scope b (before ++ .bind x :: after) b')
    (hret : ret.repr? = some sig.ret) (hb : Between d sig scope b) :
    ∃ scope₁ b₁ scope₂ b₂, StmtEmits d ret scope₁ b₁ (.bind x) scope₂ b₂ ∧ b₂.Extends b' := by
  induction before generalizing scope b with
  | nil =>
    cases h with
    | @cons _ scope' _ b₁ _ _ _ hs hne hss =>
      obtain ⟨hb', -⟩ := hs.between hne hb
      exact ⟨scope, b, scope', b₁, hs, (hss.finished hret hb').2⟩
  | cons s before ih =>
    rw [List.cons_append] at h
    generalize hrest : before ++ .bind x :: after = rest at h
    cases h with
    | ret => simp at hrest
    | cons hs hne hss =>
      obtain ⟨hb', -⟩ := hs.between hne hb
      rw [← hrest] at hss
      exact ih hss hb'

end SsaCompiler.Lowering

namespace SsaCompiler.Semantics

open Lang (Prim Sign Binding Stmt FunctionDecl Program)
open Ir (Body Function Module SlotId Constant)
open Lowering (StmtEmits ExprEmits Typed)
open Numeral (IntWidth)

variable {V σ : Type}

/-! ## What a local is given -/

/-- Whether the one store into a slot ends a row of instructions that begins with a constant and leaves a
value in the slot, from whatever machine it is run. -/
def Initializes (I : Interpretation V) (m : Module) (f : Function) (slot : SlotId) (x : Datum V) : Prop :=
  ∃ i k bits v, f.inst? ⟨i⟩ = some (.iconst bits) ∧ f.inst? ⟨i + k⟩ = some (.stackStore v slot) ∧
    (∀ j w, f.inst? j = some (.stackStore w slot) → j = ⟨i + k⟩) ∧
    ∀ {σ : Type} (O : Oracle V σ) (st : Machine V σ),
      ∃ st', advance I O m f i (k + 1) st = some st' ∧ st'.slots slot = some x

/-- The constant of a literal, its conversion and the store of it, run one after the other. -/
theorem stretch_literal {I : Interpretation V} (hI : I.TwosComplement) {O : Oracle V σ} {m : Module} {f : Function}
    {b b' : Body} {name : String} {σ₁ σ₂ : Sign} {w₁ w₂ : IntWidth} {n : Int} {v : Ir.ValueId} {slot : SlotId}
    (hfits : Lowering.literalFits w₁.bits n = true)
    (hc : Lowering.Coerces
      ((b.snoc (.iconst (Ir.Build.truncated w₁ (.ofInt 64 n))) (some (.int w₁))).withSlot (.int w₂) name)
      ⟨b.func.values.next, .int σ₁ w₁⟩ (.int σ₂ w₂) v b')
    (hf : (b'.func.snoc (.stackStore v slot) none).Within f) (st : Machine V σ) :
    ∃ st', stretch I O m f b.func (b'.func.snoc (.stackStore v slot) none) st = some st' ∧
      st'.slots slot = some (I.pattern (BitVec.ofInt w₂.bits (number σ₁ (BitVec.ofInt w₁.bits n)))) := by
  let g := b.func.snoc (.iconst (Ir.Build.truncated w₁ (.ofInt 64 n))) (some (.int w₁))
  have hconst : b.func.Within g := b.func.within_snoc _ _
  have hslot : g.Within (g.withSlot (.int w₂) name) := g.within_withSlot _ _
  have hconv : (g.withSlot (.int w₂) name).Within b'.func := within_of_coerces hc
  have hstore := b'.func.within_snoc (.stackStore v slot) none
  have hf' : b'.func.Within f := hstore.trans hf
  have hcompute : compute I O m st (.int w₁) (.iconst (Ir.Build.truncated w₁ (.ofInt 64 n))) =
      some (I.integer w₁ (BitVec.ofInt w₁.bits n), st.world) := by
    show some (I.integer w₁ _, st.world) = _
    rw [Lowering.ofInt_truncated hfits]
  let st₁ : Machine V σ := { st with regs := update st.regs b.func.values.next (I.pattern (BitVec.ofInt w₁.bits n)) }
  have hfirst : stretch I O m f b.func (g.withSlot (.int w₂) name) st = some st₁ :=
    stretch_value (hslot.trans (hconv.trans hf')) hcompute
  have hreg : st₁.regs b.func.values.next = some (I.pattern (BitVec.ofInt w₁.bits n)) := update_self _ _ _
  obtain ⟨st₂, hsecond, hv, -⟩ := stretch_coerces hI (O := O) (m := m) hc rfl hf' hreg
  change stretch I O m f (g.withSlot (.int w₂) name) b'.func st₁ = some st₂ at hsecond
  refine ⟨{ st₂ with slots := update st₂.slots slot _ }, ?_, update_self _ _ _⟩
  have hall := (hconst.trans hslot).trans hconv
  rw [stretch_trans hall hstore, stretch_trans (hconst.trans hslot) hconv, hfirst, Option.bind_some, hsecond,
    Option.bind_some, stretch_store hf hv]

/-- A binding to an integer literal initializes its slot with the number that the constant of the literal
stands for. -/
theorem initializes_bind {I : Interpretation V} (hI : I.TwosComplement) {m n : Module} {f : Function}
    {d : Lowering.Declarations} {ret : Prim} {s : Ir.Signature} {scope scope' : Lowering.Scope} {b b' : Body}
    {x : Binding} {σ₁ σ₂ : Sign} {w₁ w₂ : IntWidth} {text : String}
    (h : StmtEmits d ret scope b (.bind x) scope' b') (hf : b'.func.Within f) (hssa : Ir.Ssa n s f)
    (hty : x.ty = .int σ₂ w₂) (hinit : x.init = .literal (.int σ₁ w₁) text) :
    ∃ k slot, Numeral.readSigned? 128 text = some k ∧ Lowering.literalFits w₁.bits k = true ∧
      f.slots.get? slot = some ⟨.int w₂, x.name⟩ ∧
      Initializes I m f slot (I.pattern (BitVec.ofInt w₂.bits (number σ₁ (BitVec.ofInt w₁.bits k)))) := by
  obtain ⟨name, ty, init, line⟩ := x
  cases hty
  cases hinit
  cases h with
  | @bind b₁ b₂ _ ty y v hnew hvoid hrepr he hc =>
    cases hrepr
    cases he with
    | @int _ _ _ _ k hread hfits =>
      let g := b.func.snoc (.iconst (Ir.Build.truncated w₁ (.ofInt 64 k))) (some (.int w₁))
      have hconv : (g.withSlot (.int w₂) name).Within b₂.func := within_of_coerces hc
      have hstore := b₂.func.within_snoc (.stackStore v g.slots.next) none
      have hf' : b₂.func.Within f := hstore.trans hf
      have hconst : f.inst? ⟨b.func.insts.size⟩ = some _ :=
        (hconv.trans hf').inst? (b.func.inst?_snoc_next _ _)
      have hlast : f.inst? ⟨b₂.func.insts.size⟩ = some (.stackStore v g.slots.next) :=
        hf.inst? (b₂.func.inst?_snoc_next _ _)
      have hslot : f.slots.get? g.slots.next = some ⟨.int w₂, name⟩ :=
        hf'.slots _ _ (hconv.slots _ _ (Ir.Table.get?_push_next _ _))
      have hle : b.func.insts.size ≤ b₂.func.insts.size :=
        ((b.func.within_snoc _ _).trans ((g.within_withSlot _ _).trans hconv)).insts.size_le
      have hplace : b.func.insts.size + (b₂.func.insts.size - b.func.insts.size) = b₂.func.insts.size := by omega
      refine ⟨k, g.slots.next, hread, hfits, hslot, b.func.insts.size, b₂.func.insts.size - b.func.insts.size, _, v,
        hconst, ?_, ?_, ?_⟩
      · rw [hplace]
        exact hlast
      · intro j w hj
        rw [hplace]
        exact hssa.stores _ _ _ _ _ hj hlast
      · intro σ O st
        have hsize : b₂.func.insts.size - b.func.insts.size + 1 =
            (b₂.func.snoc (.stackStore v g.slots.next) none).insts.size - b.func.insts.size := by
          rw [Function.snoc_insts, Ir.Table.size_push]
          omega
        rw [hsize]
        exact stretch_literal hI hfits hc hf st

/-! ## Where the two agree -/

theorem exists_right_of_mem {α β : Type} {R : α → β → Prop} {as : List α} {bs : List β} (h : List.Forall₂ R as bs)
    {a : α} (ha : a ∈ as) : ∃ b ∈ bs, R a b := by
  induction h with
  | nil => cases ha
  | @cons a' b' _ _ hab _ ih =>
    rcases List.mem_cons.mp ha with rfl | ha
    · exact ⟨b', List.mem_cons_self, hab⟩
    · obtain ⟨b, hb, hr⟩ := ih ha
      exact ⟨b, List.mem_cons_of_mem _ hb, hr⟩

/-- A literal that 32 bits hold is held by more of them with its sign. -/
theorem ofInt_bmod_eq_iff {width : IntWidth} {n : Int} (hlo : -2 ^ 31 ≤ n) (hhi : n < 2 ^ 32) :
    BitVec.ofInt width.bits (n.bmod (2 ^ 32)) = BitVec.ofInt width.bits n ↔ width.bits ≤ 32 ∨ n < 2 ^ 31 := by
  have hread : n.bmod (2 ^ 32) = number .signed (BitVec.ofInt 32 n) := (BitVec.toInt_ofInt n).symm
  constructor
  · intro heq
    by_contra hnot
    obtain ⟨hw, hn⟩ := not_or.mp hnot
    have hwide : 64 ≤ width.bits := by
      revert hw
      cases width <;> decide
    have hpow : (2 : Int) ^ 63 ≤ 2 ^ (width.bits - 1) := by
      have : (2 : Nat) ^ 63 ≤ 2 ^ (width.bits - 1) := Nat.pow_le_pow_right (by decide) (by omega)
      exact_mod_cast this
    have hcut : n.bmod (2 ^ 32) = n - 2 ^ 32 := by
      unfold Int.bmod
      rw [Int.emod_eq_of_lt (by omega) (by omega)]
      exact if_neg (by omega)
    -- the one is negative and the other is not
    have hsame := congrArg BitVec.toInt heq
    rw [BitVec.toInt_ofInt_eq_self (by omega) (by omega) (by omega),
      BitVec.toInt_ofInt_eq_self (by omega) (by omega) (by omega), hcut] at hsame
    omega
  · rintro (hw | hn)
    · rw [hread]
      exact ofInt_number_ofInt hw .signed n
    · rw [hread, show number .signed (BitVec.ofInt 32 n) = n from BitVec.toInt_ofInt_eq_self (by decide) hlo hn]

/-- **What locals and globals start with.**  In a program that is lowered, a local of an integer type whose
initial value is an integer literal is given, by the only store into its slot, the pattern of the number
that 32 bits hold with a sign.  That is the constant that a global of the type and the literal has, and the
number of the literal where the type has it, exactly if the type has no more than 32 bits or the literal
is less than `2 ^ 31`. -/
theorem lower_initialValues {I : Interpretation V} (hI : I.TwosComplement) (p : Program) (name : String)
    (validate : Bool) (journal : Journal) (m : Module) (h : (Lowering.lower p name validate journal).1 = .ok m)
    (decl : FunctionDecl) (hdecl : decl ∈ p.functions) (before after : List Stmt) (x : Binding)
    (hbody : decl.body = some (before ++ .bind x :: after)) (sign : Sign) (width : IntWidth) (text : String)
    (hty : x.ty = .int sign width) (hinit : x.init = .literal (.int .signed .w32) text) :
    ∃ n, Numeral.readSigned? 128 text = some n ∧ -2 ^ 31 ≤ n ∧ n < 2 ^ 32 ∧
      ∃ (id : Ir.FuncId) (f : Function) (slot : SlotId) (y : BitVec width.bits),
        m.functions.get? id = some f ∧ f.name = decl.name ∧ f.slots.get? slot = some ⟨.int width, x.name⟩ ∧
        Initializes I m f slot (I.pattern y) ∧ y = BitVec.ofInt width.bits (n.bmod (2 ^ 32)) ∧
        (Constant.ofInt? (.int width) n = some (.int width y) ↔ width.bits ≤ 32 ∨ n < 2 ^ 31) ∧
        (Represents sign width n → (number sign y = n ↔ width.bits ≤ 32 ∨ n < 2 ^ 31)) ∧
        ∀ g ∈ p.globals, g.ty = x.ty → g.init = x.init →
          ∃ global ∈ m.globals.toList, global.name = g.name ∧ global.ty = .int width ∧
            global.init = Constant.ofInt? (.int width) n := by
  have hwf := Lowering.wellFormed_of_lower h
  obtain ⟨s, hgives, hholds, rfl⟩ := Lowering.gives_of_lower h
  have hdeclares := (Lowering.Tables.declarations hgives).declares hholds hwf
  obtain ⟨Γ, d, k, b, i, linkage, sig, id, -, ⟨-, hin, hsig, hdescribes⟩, hemits, hwithin, hget⟩ :=
    hholds.bodies decl hdecl _ hbody
  obtain ⟨hfinished, hext⟩ := hemits.finished hsig hin hdescribes
  obtain ⟨hparams, hstmts⟩ := hemits
  obtain ⟨hbetween, -⟩ := hparams.between hdescribes.typesFrom (.opened hsig hin)
  obtain ⟨scope₁, b₁, scope₂, b₂, hbind, hlater⟩ := hstmts.exists_bind hdescribes.ret hbetween
  obtain ⟨n, slot, hread, hfits, hslot, hinitializes⟩ :=
    initializes_bind hI (m := s.module) hbind hlater.func hfinished.toSsa hty hinit
  have hrange := Lowering.literalFits_iff.mp hfits
  have hcut : number .signed (BitVec.ofInt IntWidth.w32.bits n) = n.bmod (2 ^ 32) := BitVec.toInt_ofInt n
  rw [hcut] at hinitializes
  have hiff : BitVec.ofInt width.bits (n.bmod (2 ^ 32)) = BitVec.ofInt width.bits n ↔ _ :=
    ofInt_bmod_eq_iff hrange.1 hrange.2
  refine ⟨n, hread, hrange.1, hrange.2, id, b.func, slot, _, hget, hext.func.name, hslot, hinitializes, rfl,
    ?constant, ?number, ?globals⟩
  case constant =>
    rw [← hiff, eq_comm (a := BitVec.ofInt width.bits (n.bmod (2 ^ 32)))]
    show some (Constant.int width _) = some (Constant.int width _) ↔ _
    rw [Option.some.injEq, Constant.int.injEq, heq_eq_eq, eq_self_iff_true, true_and]
  case number =>
    intro hrepr
    rw [← hiff]
    constructor
    · intro hnumber
      rw [← ofInt_number sign (BitVec.ofInt width.bits (n.bmod (2 ^ 32))), hnumber]
    · intro hsame
      rw [hsame, number_ofInt hrepr]
  case globals =>
    intro g hg hgty hginit
    obtain ⟨global, hmem, hof⟩ := exists_right_of_mem hdeclares.globals hg
    obtain ⟨sign', width', text', n', c, hinit', hread', hc, -, hginit'⟩ := hof.init
    have hrepr := hof.ty
    rw [hgty, hty] at hrepr
    rw [hginit, hinit] at hinit'
    cases hinit'
    rw [hread] at hread'
    cases hread'
    have htype : global.ty = .int width := (Option.some.inj hrepr).symm
    rw [htype] at hc
    exact ⟨global, hmem, hof.name, htype, hginit'.trans hc.symm⟩

/-- A global and a local that are written alike, with a number that 32 bits hold without a sign only. -/
def alike : Program :=
  { globals := [{ name := "g", ty := .int .signed .w64, init := .literal (.int .signed .w32) "3000000000", line := 1 }]
    functions :=
      [{ name := "f", external := false, params := [], ret := .int .signed .w64
         body := some
          [.bind { name := "x", ty := .int .signed .w64, init := .literal (.int .signed .w32) "3000000000", line := 2 },
           .ret (.name "x") 2]
         line := 2 }] }

/-- The local is given the negative number, the global the one that is written. -/
theorem lower_initialValues_alike : ∃ m f slot, (Lowering.lower alike "main" true .empty).1 = .ok m ∧
    f.slots.get? slot = some ⟨.int .w64, "x"⟩ ∧
    Initializes patterns m f slot (patterns.pattern (BitVec.ofInt IntWidth.w64.bits (-1294967296))) ∧
    ∃ g ∈ m.globals.toList, g.name = "g" ∧ g.init = some (.int .w64 3000000000) := by
  have hlower : (Lowering.lower alike "main" true .empty).1.isOk = true := by decide +kernel
  have hread : Numeral.readSigned? 128 "3000000000" = some 3000000000 := by decide +kernel
  cases hm : (Lowering.lower alike "main" true .empty).1 with
  | error e =>
    rw [hm] at hlower
    cases hlower
  | ok m =>
    obtain ⟨n, hn, -, -, id, f, slot, y, -, -, hslot, hinitializes, rfl, -, -, hglobals⟩ :=
      lower_initialValues twosComplement_patterns alike "main" true .empty m hm _ List.mem_cons_self [] [.ret (.name "x") 2]
        _ rfl .signed .w64 "3000000000" rfl rfl
    obtain rfl : n = 3000000000 := Option.some.inj (hn.symm.trans hread)
    obtain ⟨g, hg, hname, -, hinit⟩ := hglobals _ List.mem_cons_self rfl rfl
    exact ⟨m, f, slot, rfl, hslot, hinitializes, g, hg, hname, hinit⟩

/-- Nothing but zeros, and calls that change nothing. -/
def idle : Oracle Nat Unit where
  global _ _ := 0
  answer _ _ _ := (0, ())

/-- A local and a global that are written alike do not hold the same number, though their type has it. -/
theorem wideLiteral_differs : ∃ m f g st,
    (Lowering.lower alike "main" true .empty).1 = .ok m ∧ m.functions.get? ⟨0⟩ = some f ∧
    m.globals.get? ⟨0⟩ = some g ∧ f.slots.get? ⟨0⟩ = some ⟨.int .w64, "x"⟩ ∧
    advance patterns idle m f 0 3 { regs := fun _ => none, slots := fun _ => none, world := ⟨(), []⟩ } = some st ∧
    st.slots ⟨0⟩ = some (patterns.pattern (18446744072414584320 : BitVec IntWidth.w64.bits)) ∧
    g.init = some (.int .w64 3000000000) ∧
    (18446744072414584320 : BitVec IntWidth.w64.bits) ≠ 3000000000 ∧ Represents .signed .w64 3000000000 := by
  have hrun : ((Lowering.lower alike "main" true .empty).1.toOption.bind fun m =>
      (m.functions.get? ⟨0⟩).bind fun f => (m.globals.get? ⟨0⟩).bind fun g => (f.slots.get? ⟨0⟩).bind fun slot =>
        (advance patterns idle m f 0 3
          { regs := fun _ => none, slots := fun _ => none, world := ⟨(), []⟩ }).bind fun st =>
          (st.slots ⟨0⟩).map fun x => (slot.ty, slot.name, g.init, x.ty, x.val)) =
      some (.int .w64, "x", some (.int .w64 3000000000), .int .w64, 18446744072414584320) := by
    decide +kernel
  simp only [Option.bind_eq_some_iff, Option.map_eq_some_iff] at hrun
  obtain ⟨m, hm, f, hf, g, hg, ⟨ty, name⟩, hslot, st, hst, ⟨ty', val⟩, hx, hall⟩ := hrun
  simp only [Prod.mk.injEq] at hall
  obtain ⟨rfl, rfl, hinit, rfl, rfl⟩ := hall
  have hlower : (Lowering.lower alike "main" true .empty).1 = .ok m := by
    cases hresult : (Lowering.lower alike "main" true .empty).1 with
    | error e =>
      rw [hresult] at hm
      cases hm
    | ok m' =>
      rw [hresult] at hm
      cases hm
      rfl
  exact ⟨m, f, g, st, hlower, hf, hg, hslot, hst, hx, hinit, by decide, by decide, by decide⟩

end SsaCompiler.Semantics
