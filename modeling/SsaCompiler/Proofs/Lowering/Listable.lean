import SsaCompiler.Proofs.Ir.Legible
import SsaCompiler.Proofs.Lang.Spelled
import SsaCompiler.Proofs.Lowering.Steps
import SsaCompiler.Proofs.Numeral.FloatReading

/-!
# Lowered functions can be listed

Every instruction that lowering emits is legible where literals are spelled as numbers, and slots and parameters
have the names of variables:

    ExprEmits d scope b e x b' → e.Spelled → b.Adds b'                                     (ExprEmits.adds)
-/

namespace SsaCompiler.Ir

open Text (IsWord)

namespace Function.Listable

variable {m n : Module} {f : Function}

theorem mono (h : f.Listable m) (hm : m.Within n) : f.Listable n where
  insts := by
    intro i data hi
    obtain ⟨ty, hlegible, hresult⟩ := h.insts i data hi
    exact ⟨ty, hlegible.mono hm, hresult⟩
  slots := h.slots

theorem snoc (h : f.Listable m) {inst : Inst} {ty : Option Ty} (hinst : inst.Legible m ty) :
    (f.snoc inst ty).Listable m where
  insts := by
    intro i data hi
    rw [snoc_insts, Table.get?_push] at hi
    split at hi
    · cases hi
      refine ⟨ty, hinst, ?_⟩
      cases ty with
      | none => rfl
      | some ty => exact congrArg some (f.snoc_valueType_next inst ty)
    · obtain ⟨ty', hlegible, hresult⟩ := h.insts i data hi
      exact ⟨ty', hlegible, hresult.mono (f.within_snoc inst ty)⟩
  slots := h.slots

theorem withSlot (h : f.Listable m) (ty : Ty) {name : String} (hname : IsWord name) :
    (f.withSlot ty name).Listable m where
  insts := h.insts
  slots := by
    intro i slot hi
    rw [show (f.withSlot ty name).slots = f.slots.push ⟨ty, name⟩ from rfl, Table.get?_push] at hi
    split at hi
    · cases hi
      exact hname
    · exact h.slots i slot hi

end Function.Listable

/-- What does not spoil a body that can be listed. -/
structure Body.Adds (b b' : Body) : Prop where
  within : b.module.Within b'.module
  listable : b.func.Listable b.module → b'.func.Listable b'.module
  names : b'.func.names = b.func.names

namespace Body.Adds

variable {b b₁ b₂ : Body}

theorem refl (b : Body) : b.Adds b :=
  ⟨.refl _, id, rfl⟩

theorem trans (h : b.Adds b₁) (h' : b₁.Adds b₂) : b.Adds b₂ :=
  ⟨h.within.trans h'.within, fun hb => h'.listable (h.listable hb), h'.names.trans h.names⟩

theorem snoc (h : b.Adds b₁) {inst : Inst} {ty : Option Ty} (hinst : inst.Legible b₁.module ty) :
    b.Adds (b₁.snoc inst ty) :=
  h.trans ⟨.refl _, fun hb => hb.snoc hinst, rfl⟩

theorem withSlot (h : b.Adds b₁) (ty : Ty) {name : String} (hname : IsWord name) : b.Adds (b₁.withSlot ty name) :=
  h.trans ⟨.refl _, fun hb => hb.withSlot ty hname, rfl⟩

theorem withData (h : b.Adds b₁) (contents : List UInt8) : b.Adds (b₁.withData contents) :=
  have hwithin := b₁.module.within_internData contents
  h.trans ⟨hwithin, fun hb => hb.mono hwithin, rfl⟩

end Body.Adds

end SsaCompiler.Ir

namespace SsaCompiler.Lowering

open Lang (Prim BinaryOp Expr Param Binding Stmt FunctionDecl)
open Ir (Body Function Module ValueId Signature)
open Text (IsWord)

theorem isConversion_extension (sign : Lang.Sign) : (extension sign).isConversion = true := by
  cases sign <;> rfl

/-- A conversion that is not nothing is an operation that converts. -/
theorem isConversion_of_apply {source target : Prim} {op : Ir.Opcode} (h : conversion? source target = some (.apply op)) :
    op.isConversion = true := by
  unfold conversion? at h
  split at h
  · next sign width sign' width' =>
    split at h
    · cases h
      exact isConversion_extension sign
    · split at h <;> cases h
      rfl
  · split at h <;> cases h <;> rfl
  · cases h
    rfl
  · cases h
    rfl
  · split at h
    · cases h
    · split at h
      · cases h
        rfl
      · split at h <;> cases h
        rfl

theorem isArithmetic_of_arithmetic? {o : BinaryOp} {ty : Prim} {op : Ir.Opcode} (h : arithmetic? o ty = some op) :
    op.isArithmetic = true := by
  unfold arithmetic? at h
  split at h <;> cases h <;> rfl

theorem Coerces.adds {b b' : Body} {x : Typed} {target : Prim} {v : ValueId} (h : Coerces b x target v b') :
    b.Adds b' := by
  cases h with
  | same => exact .refl b
  | keep => exact .refl b
  | apply hne hty hc => exact (Body.Adds.refl b).snoc (.unary _ _ (isConversion_of_apply hc))

theorem Unifies.adds {b b' : Body} {x y : Typed} {ty : Prim} {l r : ValueId} (h : Unifies b x y ty l r b') :
    b.Adds b' := by
  cases h with
  | right _ hc => exact hc.adds
  | left _ hc => exact hc.adds

/-- A literal that is spelled as a number is a constant that is listed as one. -/
theorem legible_fconst {m : Module} {width : Numeral.FloatWidth} {text : String} {bits : Nat}
    (hs : Lang.IsLiteral (.float width) text) (h : width.format.read? text = some bits) :
    Ir.Inst.Legible m (.fconst (.ofNat 64 bits)) (some (.float width)) := by
  have hnumber := Numeral.FloatWidth.isNumber_of_read? (hs width rfl) h
  refine .fconst ?_
  have hwide : Numeral.twoTo width.bits ≤ 2 ^ 64 := by cases width <;> decide
  rw [BitVec.toNat_ofNat, Nat.mod_eq_of_lt (Nat.lt_of_lt_of_le hnumber.lt hwide)]
  exact hnumber

/-- A call is listed with the result that its function has. -/
theorem legible_call {d : Declarations} {m : Module} {callee : String} {info : FunctionInfo} {ty : Ir.Ty}
    (hd : d.In m) (hinfo : d.function? callee = some info) (hty : info.ret.repr? = some ty) (args : List ValueId) :
    Ir.Inst.Legible m (.call info.id args) ty.result? := by
  obtain ⟨s, hs, hdescribes⟩ := hd.functions _ _ hinfo
  have hret : s.ret = ty := Option.some.inj (hdescribes.ret.symm.trans hty)
  rw [← hret]
  exact .call args hs

mutual

theorem ExprEmits.adds {d : Declarations} {scope : Scope} : ∀ {b b' : Body} {e : Expr} {x : Typed},
    ExprEmits d scope b e x b' → d.In b.module → e.Spelled → b.Adds b'
  | b, _, _, _, .float h, _, .literal hs => (Body.Adds.refl b).snoc (legible_fconst hs h)
  | b, _, _, _, .int h hfits, _, _ => (Body.Adds.refl b).snoc (.iconst _ _)
  | b, _, _, _, .str text, _, _ => ((Body.Adds.refl b).withData _).snoc (.dataAddr _)
  | b, _, _, _, .var h hs, _, _ => (Body.Adds.refl b).snoc (.stackLoad _ _)
  | b, _, _, _, .global h hd hg, _, _ => (Body.Adds.refl b).snoc (.globalLoad hg)
  | _, _, _, _, .binary hl hr hu hop hty, hd, .binary _ hsl hsr => by
    have h₁ := hl.adds hd hsl
    have h₂ := hr.adds (hd.mono h₁.within) hsr
    exact ((h₁.trans h₂).trans hu.adds).snoc (.binary _ _ _ (isArithmetic_of_arithmetic? hop))
  | _, _, _, _, .call hinfo hn ha hty hv, hd, .call _ _ hs => by
    have h₁ := ha.adds hd hs
    refine h₁.snoc ?_
    rw [← show Ir.Ty.result? _ = some _ from if_neg hv]
    exact legible_call (hd.mono h₁.within) hinfo hty _

theorem ArgsEmit.adds {d : Declarations} {scope : Scope} : ∀ {callee : String} {params : List Prim} {b b' : Body}
    {es : List Expr} {vs : List ValueId}, ArgsEmit d scope callee params b es vs b' → d.In b.module →
    (∀ e ∈ es, e.Spelled) → b.Adds b'
  | _, _, b, _, _, _, .nil, _, _ => .refl b
  | _, _, _, _, _, _, .cons he hc hp hs, hd, hspelled => by
    have h₁ := he.adds hd (hspelled _ List.mem_cons_self)
    have h₂ := h₁.trans hc.adds
    exact h₂.trans (hs.adds (hd.mono h₂.within) fun e he => hspelled e (List.mem_cons_of_mem _ he))

end

theorem StmtEmits.adds {d : Declarations} {ret : Prim} {scope scope' : Scope} {b b' : Body} {s : Stmt}
    (h : StmtEmits d ret scope b s scope' b') (hd : d.In b.module) (hs : s.Spelled) : b.Adds b' := by
  cases h with
  | bind hnew hvoid hty he hc =>
    cases hs with
    | bind hs =>
      exact (((he.adds hd hs.init).withSlot _ hs.name).trans hc.adds).snoc (.stackStore _ _)
  | ret line he hc =>
    cases hs with
    | ret _ hs => exact ((he.adds hd hs).trans hc.adds).snoc (.ret _)
  | call hinfo hn ha hty =>
    cases hs with
    | call hs =>
      have h₁ := ha.adds hd hs
      exact h₁.snoc (legible_call (hd.mono h₁.within) hinfo hty _)

theorem StmtsEmit.adds {d : Declarations} {ret : Prim} {scope : Scope} {b b' : Body} {ss : List Stmt}
    (h : StmtsEmit d ret scope b ss b') (hd : d.In b.module) (hs : ∀ s ∈ ss, s.Spelled) : b.Adds b' := by
  induction h with
  | @nil scope b hvoid => exact (Body.Adds.refl b).snoc (.ret none)
  | ret h => exact h.adds hd (hs _ List.mem_cons_self)
  | cons h _ _ ih =>
    have h₁ := h.adds hd (hs _ List.mem_cons_self)
    exact h₁.trans (ih (hd.mono h₁.within) fun s hmem => hs s (List.mem_cons_of_mem _ hmem))

/-! ## Parameters -/

/-- Storing a parameter gives it its name. -/
theorem named_storeParam {b : Body} {names : List String} (h : b.func.Named names) {p : Param} (hp : IsWord p.name)
    (ty : Ir.Ty) : (storeParam b names.length p ty).func.Named (names ++ [p.name]) where
  eq := by
    show (⟨names.length⟩, p.name) :: b.func.names = _
    rw [h.eq, List.zipIdx_append, List.map_append, List.reverse_append]
    simp
  isWord := by
    simp only [List.mem_append, List.mem_singleton]
    rintro name (hname | rfl)
    · exact h.isWord name hname
    · exact hp

theorem listable_storeParam {b : Body} (h : b.func.Listable b.module) (index : Nat) {p : Param} (hp : IsWord p.name)
    (ty : Ir.Ty) : (storeParam b index p ty).func.Listable (storeParam b index p ty).module :=
  have hnamed : (b.withName ⟨index⟩ p.name).func.Listable b.module := ⟨h.insts, h.slots⟩
  (hnamed.withSlot ty hp).snoc (.stackStore _ _)

/-- The parameters of a function are named in their order. -/
theorem ParamsEmit.listable {index : Nat} {scope scope' : Scope} {b b' : Body} {ps : List Param}
    (h : ParamsEmit index scope b ps scope' b') (hps : ∀ p ∈ ps, IsWord p.name) {names : List String}
    (hindex : names.length = index) (hnamed : b.func.Named names) (hb : b.func.Listable b.module) :
    b'.module = b.module ∧ b'.func.Listable b'.module ∧
      ∃ names', b'.func.Named names' ∧ names'.length = index + ps.length := by
  induction h generalizing names with
  | nil => exact ⟨rfl, hb, names, hnamed, hindex⟩
  | @cons index scope scope' b b' p ps ty hnew hty _ ih =>
    obtain ⟨hp, hrest⟩ := List.forall_mem_cons.mp hps
    subst hindex
    have hlength : (names ++ [p.name]).length = names.length + 1 := List.length_append
    obtain ⟨hmodule, hlistable, names', hnamed', hlength'⟩ :=
      ih hrest hlength (named_storeParam hnamed hp ty) (listable_storeParam hb _ hp ty)
    refine ⟨hmodule, hlistable, names', hnamed', ?_⟩
    rw [hlength', List.length_cons]
    omega

/-! ## Bodies -/

/-- A body that was opened has nothing yet that would have to be listed. -/
theorem listable_opened (m : Module) (name : String) (i : Ir.SigId) (linkage : Ir.Linkage) (sig : Signature) :
    (opened m name i linkage sig).func.Listable m ∧ (opened m name i linkage sig).func.Named [] where
  left := ⟨fun _ _ hi => absurd (Ir.Table.index_lt_of_get? hi) (Nat.not_lt_zero _),
    fun _ _ hi => absurd (Ir.Table.index_lt_of_get? hi) (Nat.not_lt_zero _)⟩
  right := ⟨rfl, nofun⟩

/-- **The function of a body that was read is legible.** -/
theorem BodyEmits.legible {d : Declarations} {decl : FunctionDecl} {ss : List Stmt} {m : Module} {name : String}
    {i : Ir.SigId} {linkage : Ir.Linkage} {sig : Signature} {b : Body}
    (h : BodyEmits d decl ss (opened m name i linkage sig) b) (hs : m.signatures.get? i = some sig) (hd : d.In m)
    (hdecl : Describes decl sig) (hspelled : decl.Spelled) (hss : decl.body = some ss) :
    b.func.Legible b.module sig := by
  obtain ⟨hfinished, -⟩ := h.finished hs hd hdecl
  obtain ⟨hp, hstmts⟩ := h
  obtain ⟨hlistable, hnamed⟩ := listable_opened m name i linkage sig
  obtain ⟨hmodule, hlistable₁, names, hnamed₁, hlength⟩ := hp.listable hspelled.params rfl hnamed hlistable
  rw [show (opened m name i linkage sig).module = m from rfl] at hmodule
  have hadds := hstmts.adds (hmodule ▸ hd) (hspelled.body ss hss)
  refine ⟨hfinished, hadds.listable hlistable₁, names, ⟨hadds.names.trans hnamed₁.eq, hnamed₁.isWord⟩, ?_⟩
  have hparams := congrArg List.length hdecl.params
  rw [List.length_map, List.length_map] at hparams
  rw [hlength, hparams, Nat.zero_add]

end SsaCompiler.Lowering
