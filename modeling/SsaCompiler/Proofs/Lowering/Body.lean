import SsaCompiler.Proofs.Lowering.Typing

/-!
# Bodies in single-assignment form

`Between d sig scope b` holds between two statements of the body of a function with signature `sig`:
the function is in single-assignment form and open, every slot has been stored into once, and the
variables stand for slots of the right types.  Parameters and statements keep it, and a return makes
the function finished:

    BodyEmits d decl ss b b' → Finished b'.module sig b'.func           (BodyEmits.finished)

A slot is stored into right after the value for it has been computed, and only then does a name
stand for it, so no load comes before the store (`Between.store`).
-/

namespace SsaCompiler.Lowering

open Lang (Prim Expr Param Stmt FunctionDecl)
open Ir (Body Function Module ValueId Signature Ssa Finished Admits)

structure Between (d : Declarations) (sig : Signature) (scope : Scope) (b : Body) : Prop where
  atEntry : b.AtEntry
  decls : d.In b.module
  scope : Scope.In scope b.func
  ssa : Ssa b.module sig b.func
  isOpen : b.func.IsOpen
  stored : b.func.StoresAll

namespace Between

variable {d : Declarations} {sig : Signature} {scope : Scope} {b : Body}

theorem grows {b' : Body} (h : Between d sig scope b) (hg : b.Grows b') : Between d sig scope b' where
  atEntry := hg.atEntry h.atEntry
  decls := h.decls.mono hg.toExtends.within
  scope := h.scope.grows hg
  ssa := hg.ssa h.ssa
  isOpen := hg.isOpen h.isOpen
  stored := hg.storesAll h.stored

theorem withName (h : Between d sig scope b) (v : ValueId) (name : String) :
    Between d sig scope (b.withName v name) where
  atEntry := h.atEntry.withName v name
  decls := h.decls
  scope := h.scope
  ssa := h.ssa.withName v name
  isOpen := h.isOpen
  stored := h.stored

/-- A slot that is not there yet has not been stored into. -/
theorem not_stores_next (h : Ssa b.module sig b.func) : ¬ b.func.Stores b.func.slots.next := by
  rintro ⟨i, v, hi⟩
  have hlt : b.func.slots.next.index < b.func.slots.size := h.ids i _ hi
  exact Nat.lt_irrefl _ hlt

/-- A new variable: its slot is made, its value computed and stored. -/
theorem store (h : Between d sig scope b) {name : String} {ty : Prim} {irTy : Ir.Ty} {b' : Body} {v : ValueId}
    (hty : ty.repr? = some irTy) (hg : (b.withSlot irTy name).Grows b') (hv : Typed.In ⟨v, ty⟩ b'.func) :
    Between d sig ((name, ⟨b.func.slots.next, ty⟩) :: scope)
      (b'.snoc (.stackStore v b.func.slots.next) none) := by
  have hslots : b'.func.slots = b.func.slots.push ⟨irTy, name⟩ := hg.slots_eq
  have hslot : b'.func.slots.get? b.func.slots.next = some ⟨irTy, name⟩ := by
    rw [hslots]
    exact Ir.Table.get?_push_next _ _
  have hssa : Ssa b'.module sig b'.func := hg.ssa (h.ssa.withSlot irTy name)
  have hval : b'.func.valueType v = .ok irTy := by
    obtain ⟨t, ht, hval⟩ := hv
    rw [hty] at ht
    cases ht
    exact hval
  have hadmits : Admits b'.module b'.func (.stackStore v b.func.slots.next) none :=
    .stackStore hslot hval fun hstores => not_stores_next h.ssa ((hg.stores_iff _).mp hstores)
  have hstores := b'.func.stores_snoc v b.func.slots.next none
  have hwithin : b.func.Within (b'.snoc (.stackStore v b.func.slots.next) none).func :=
    (b.extends_withSlot irTy name).func.trans (hg.toExtends.func.trans (b'.func.within_snoc _ _))
  refine
    { atEntry := (hg.atEntry (h.atEntry.withSlot irTy name)).snoc _ _
      decls := h.decls.mono hg.toExtends.within
      scope := (h.scope.mono hwithin).bind name hstores hslot hty
      ssa := hssa.snoc hadmits
      isOpen := (hg.isOpen h.isOpen).snoc rfl _
      stored := ?stored }
  case stored =>
    intro slot data hget
    rw [show (b'.snoc (.stackStore v b.func.slots.next) none).func.slots = b'.func.slots from rfl, hslots,
      Ir.Table.get?_push] at hget
    split at hget
    · next hnext =>
      rw [hnext]
      exact hstores
    · exact (h.stored slot data hget).mono hwithin

end Between

/-! ## Statements -/

/-- A statement other than a return keeps what holds between statements. -/
theorem StmtEmits.between {d : Declarations} {ret : Prim} {sig : Signature} {scope scope' : Scope} {b b' : Body}
    {s : Stmt} (h : StmtEmits d ret scope b s scope' b') (hne : ∀ value line, s ≠ .ret value line)
    (hb : Between d sig scope b) : Between d sig scope' b' ∧ b.Extends b' := by
  cases h with
  | @bind b₁ b₂ decl ty x v hnew hvoid hty he hc =>
    obtain ⟨hg₁, hx⟩ := he.grows hb.decls hb.scope
    have hwithin := b₁.func.within_withSlot ty decl.name
    obtain ⟨hg₂, hv⟩ := hc.grows (hx.mono hwithin)
    refine ⟨(hb.grows hg₁).store hty hg₂ hv, ?_⟩
    refine (hg₁.toExtends.trans (b₁.extends_withSlot ty decl.name)).trans ?_
    exact hg₂.toExtends.trans (b₂.extends_snoc _ _)
  | ret line he hc => exact absurd rfl (hne _ line)
  | @call b₁ c info vs ty hd hn ha hty =>
    obtain ⟨hg, hargs, hlen⟩ := ha.grows hb.decls hb.scope
    obtain ⟨s, hs, hdesc⟩ := (hb.grows hg).decls.functions _ _ hd
    have hcall : b.Grows (b₁.snoc (.call info.id vs) ty.result?) :=
      hg.snoc rfl (admits_call hs hdesc (by rw [hlen]; exact hn) hargs)
    exact ⟨hb.grows hcall, hcall.toExtends⟩

/-- Statements up to the end of the body finish the function. -/
theorem StmtsEmit.finished {d : Declarations} {ret : Prim} {sig : Signature} {scope : Scope} {b b' : Body}
    {ss : List Stmt} (h : StmtsEmit d ret scope b ss b') (hret : ret.repr? = some sig.ret)
    (hb : Between d sig scope b) : Finished b'.module sig b'.func ∧ b.Extends b' := by
  induction h with
  | @nil scope b hvoid =>
    have hvoid' : b.func.returned none = .ok sig.ret := by
      rw [hvoid] at hret
      exact congrArg Except.ok (Option.some.inj hret)
    have hadmits : Admits b.module b.func (.ret none) none :=
      .of_isPlain rfl (.ret _ hb.ssa.signature hvoid') trivial
    exact ⟨.of_ret hb.ssa hb.isOpen hb.stored hadmits, b.extends_snoc _ _⟩
  | @ret scope scope' b b' value line hs =>
    cases hs with
    | @ret b₁ b₂ _ _ x v he hc =>
      obtain ⟨hg₁, hx⟩ := he.grows hb.decls hb.scope
      obtain ⟨hg₂, t, ht, hv⟩ := hc.grows hx
      have hg := hg₁.trans hg₂
      have hb₂ := hb.grows hg
      rw [hret] at ht
      cases ht
      have hadmits : Admits b₂.module b₂.func (.ret (some v)) none :=
        .of_isPlain rfl (.ret _ hb₂.ssa.signature hv) trivial
      exact ⟨.of_ret hb₂.ssa hb₂.isOpen hb₂.stored hadmits, hg.toExtends.trans (b₂.extends_snoc _ _)⟩
  | cons hs hne hss ih =>
    obtain ⟨hb', he⟩ := hs.between hne hb
    obtain ⟨hf, he'⟩ := ih hb'
    exact ⟨hf, he.trans he'⟩

/-! ## Parameters -/

/-- The parameters from an index on have the types of the signature from there on. -/
def TypesFrom (sig : Signature) (index : Nat) (ps : List Param) : Prop :=
  ∀ (k : Nat) p, ps[k]? = some p → ∃ ty, p.ty.repr? = some ty ∧ sig.params[index + k]? = some ty

theorem TypesFrom.tail {sig : Signature} {index : Nat} {p : Param} {ps : List Param}
    (h : TypesFrom sig index (p :: ps)) : TypesFrom sig (index + 1) ps := by
  intro k q hq
  obtain ⟨ty, hty, hs⟩ := h (k + 1) q (by simpa using hq)
  exact ⟨ty, hty, by rw [← hs]; congr 1; omega⟩

theorem extends_storeParam (b : Body) (index : Nat) (p : Param) (ty : Ir.Ty) :
    b.Extends (storeParam b index p ty) :=
  ((b.extends_withName _ _).trans (Body.extends_withSlot _ _ _)).trans (Body.extends_snoc _ _ _)

/-- A parameter becomes a variable. -/
theorem Between.storeParam {d : Declarations} {sig : Signature} {scope : Scope} {b : Body} {index : Nat}
    {p : Param} {ty : Ir.Ty} (hb : Between d sig scope b) (hty : p.ty.repr? = some ty)
    (hs : sig.params[index]? = some ty) :
    Between d sig ((p.name, ⟨b.func.slots.next, p.ty⟩) :: scope) (storeParam b index p ty) := by
  have hv : Typed.In ⟨⟨index⟩, p.ty⟩ ((b.withName ⟨index⟩ p.name).withSlot ty p.name).func := by
    refine ⟨ty, hty, ?_⟩
    exact Function.valueType_eq_ok.mpr ⟨_, hb.ssa.params index ty hs, rfl⟩
  exact (hb.withName ⟨index⟩ p.name).store hty (.refl _) hv

theorem ParamsEmit.between {d : Declarations} {sig : Signature} {index : Nat} {scope scope' : Scope}
    {b b' : Body} {ps : List Param} (h : ParamsEmit index scope b ps scope' b') (hps : TypesFrom sig index ps)
    (hb : Between d sig scope b) : Between d sig scope' b' ∧ b.Extends b' := by
  induction h with
  | nil => exact ⟨hb, .refl _⟩
  | @cons index scope scope' b b' p ps ty hnew hty hrest ih =>
    obtain ⟨t, ht, hs⟩ := hps 0 p rfl
    rw [hty] at ht
    cases ht
    obtain ⟨hb', he⟩ := ih hps.tail (hb.storeParam hty hs)
    exact ⟨hb', (extends_storeParam b index p ty).trans he⟩

/-! ## Bodies -/

/-- The signature of a declaration. -/
structure Describes (decl : FunctionDecl) (sig : Signature) : Prop where
  params : decl.fixedParams.map (·.ty.repr?) = sig.params.map some
  ret : decl.ret.repr? = some sig.ret

theorem Describes.typesFrom {decl : FunctionDecl} {sig : Signature} (h : Describes decl sig) :
    TypesFrom sig 0 decl.fixedParams := by
  intro k p hp
  have hk : (decl.fixedParams.map (·.ty.repr?))[k]? = some p.ty.repr? := by
    rw [List.getElem?_map, hp]
    rfl
  rw [h.params, List.getElem?_map] at hk
  obtain ⟨ty, hty, hrepr⟩ := Option.map_eq_some_iff.mp hk
  exact ⟨ty, hrepr.symm, by rw [Nat.zero_add]; exact hty⟩

/-- The body that a declared function begins with. -/
def opened (m : Module) (name : String) (i : Ir.SigId) (linkage : Ir.Linkage) (sig : Signature) : Body :=
  ⟨m, (Function.declared name i linkage).opened sig.params, some Ir.entryId⟩

theorem Between.opened {d : Declarations} {m : Module} {name : String} {i : Ir.SigId} {linkage : Ir.Linkage}
    {sig : Signature} (hs : m.signatures.get? i = some sig) (hd : d.In m) :
    Between d sig [] (opened m name i linkage sig) where
  atEntry := ⟨rfl, _, rfl⟩
  decls := hd
  scope := by rintro name v ⟨⟩
  ssa := .opened hs
  isOpen := fun i inst hi => absurd (Function.index_lt_of_inst? hi) (Nat.not_lt_zero _)
  stored := fun slot data hget => absurd (Ir.Table.index_lt_of_get? hget) (Nat.not_lt_zero _)

/-- A body makes a declared function a finished one. -/
theorem BodyEmits.finished {d : Declarations} {decl : FunctionDecl} {ss : List Stmt} {m : Module}
    {name : String} {i : Ir.SigId} {linkage : Ir.Linkage} {sig : Signature} {b : Body}
    (h : BodyEmits d decl ss (opened m name i linkage sig) b) (hs : m.signatures.get? i = some sig)
    (hd : d.In m) (hdecl : Describes decl sig) :
    Finished b.module sig b.func ∧ (opened m name i linkage sig).Extends b := by
  obtain ⟨hp, hss⟩ := h
  obtain ⟨hb, he⟩ := hp.between hdecl.typesFrom (.opened hs hd)
  obtain ⟨hf, he'⟩ := hss.finished hdecl.ret hb
  exact ⟨hf, he.trans he'⟩

end SsaCompiler.Lowering
