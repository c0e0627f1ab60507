import SsaCompiler.Proofs.Lowering.Body
import SsaCompiler.Proofs.Semantics.Expression

/-!
# Running bodies

Between two statements the slots hold the values of the variables (`Agree`), and the run from there on
returns what the statements that are left return, with the same calls:

    StmtsEmit d ret scope b ss b' → run p ret env ss st.world = some (r, w),
      and the run from the end of `b` in `st` ends with `r` in `w`

The parameters come first: their registers are stored into slots, which makes them variables.
-/

namespace SsaCompiler.Semantics

open Lang (Prim Param Stmt FunctionDecl Program)
open Lowering (Declarations Scope Between StmtEmits StmtsEmit ParamsEmit BodyEmits TypesFrom Describes)
open Ir (Body Function Module Ty ValueId SlotId Signature)

variable {V σ : Type} {I : Interpretation V} {O : Oracle V σ} {m : Module} {f : Function} {p : Program}

/-! ## Variables -/

theorem Agree.empty : Agree [] ([] : Env V) fun _ => none :=
  ⟨fun _ _ => rfl, by rintro name v ⟨⟩⟩

/-- A new variable, in a slot of its own. -/
theorem Agree.store {scope : Scope} {env : Env V} {slots : SlotId → Option (Datum V)} {g : Function}
    (h : Agree scope env slots) (hscope : Scope.In scope g) (name : String) {ty : Prim} {x : Value V}
    (hx : x.Of ty) :
    Agree ((name, ⟨g.slots.next, ty⟩) :: scope) ((name, x) :: env) (update slots g.slots.next x.datum) where
  unbound := by
    intro n hn
    rw [List.lookup_cons] at hn ⊢
    cases hname : n == name with
    | true =>
      rw [hname] at hn
      cases hn
    | false =>
      rw [hname] at hn
      exact h.unbound n hn
  bound := by
    intro n v hv
    rw [List.lookup_cons] at hv ⊢
    cases hname : n == name with
    | true =>
      rw [hname] at hv
      cases hv
      exact ⟨x, rfl, hx, update_self _ _ _⟩
    | false =>
      rw [hname] at hv
      obtain ⟨y, hy, hof, hheld⟩ := h.bound n v hv
      refine ⟨y, hy, hof, ?_⟩
      rw [update_of_ne, hheld]
      intro heq
      obtain ⟨-, slot, hslot, -⟩ := hscope n v hv
      rw [heq] at hslot
      exact Nat.lt_irrefl _ (Ir.Table.index_lt_of_get? hslot)

/-- A call whose result is not used. -/
theorem resume_anyCall {g : Function} {callee : Ir.FuncId} {vs : List ValueId} {a : Prim} {ty : Ty}
    {st : Machine V σ} {r : V × World V σ} (hg : (g.snoc (.call callee vs) ty.result?).Within f)
    (hty : a.repr? = some ty) (hx : ∀ t, compute I O m st t (.call callee vs) = some r) :
    ∃ st', resume I O m f g.insts.size st = resume I O m f (g.snoc (.call callee vs) ty.result?).insts.size st' ∧
      st'.world = r.2 ∧ st'.slots = st.slots := by
  by_cases hvoid : ty = .void
  · have hresult : ty.result? = none := if_pos hvoid
    rw [hresult] at hg ⊢
    exact ⟨{ st with world := r.2 }, resume_call hg (hx .void), rfl, rfl⟩
  · have hresult : ty.result? = some ty := if_neg hvoid
    rw [hresult] at hg ⊢
    obtain ⟨st', hr, hw, -⟩ := Reaches.snoc hg hty (hx ty)
    exact ⟨st', hr.continues, hw, hr.slots⟩

/-! ## Statements -/

/-- A statement other than a return: the statements after it go on with its variables. -/
theorem runs_stmt {d : Declarations} {ret : Prim} {sig : Signature} {scope scope' : Scope} {b b' : Body} {s : Stmt}
    {env : Env V} {st : Machine V σ} (hknows : Knows d p) (h : StmtEmits d ret scope b s scope' b')
    (hne : ∀ value line, s ≠ .ret value line) (hb : Between d sig scope b) (hb' : Part m f b')
    (hagree : Agree scope env st.slots) :
    ∃ env' st', (∀ ss, run I O p ret env (s :: ss) st.world = run I O p ret env' ss st'.world) ∧
      resume I O m f b.func.insts.size st = resume I O m f b'.func.insts.size st' ∧
      Agree scope' env' st'.slots := by
  cases h with
  | @bind b₁ b₂ decl ty x v hnew hvoid hty he hc =>
    obtain ⟨hg₁, hxin⟩ := he.grows hb.decls hb.scope
    have hwithin := b₁.func.within_withSlot ty decl.name
    obtain ⟨hg₂, hvin⟩ := hc.grows (hxin.mono hwithin)
    have hb₂ : Part m f b₂ := hb'.of_extends (b₂.extends_snoc _ _)
    have hb₁ : Part m f b₁ := hb₂.of_extends ((b₁.extends_withSlot ty decl.name).trans hg₂.toExtends)
    obtain ⟨a, st₁, heval, hr₁, ha⟩ := runs_expr (I := I) (O := O) hknows he hb₁ hb.decls hb.scope hagree
    obtain ⟨c, st₂, hconv, hr₂, hw, hcarries⟩ := runs_coerces (I := I) (O := O) hc hb₂ ha
    refine ⟨(decl.name, c) :: env, { st₂ with slots := update st₂.slots b₁.func.slots.next c.datum }, ?_, ?_, ?_⟩
    · intro ss
      simp only [run, heval, Option.bind_some, hconv, hw]
    · rw [hr₁.continues]
      exact hr₂.continues.trans (resume_store hb'.func hcarries.reg)
    · have hagree₂ : Agree scope env st₂.slots := by
        rw [hr₂.slots]
        exact hagree.reaches hr₁
      exact hagree₂.store (hb.scope.grows hg₁) decl.name hcarries.of
  | ret line he hc => exact absurd rfl (hne _ line)
  | @call b₁ c info vs ty hinfo hn ha hty =>
    obtain ⟨hg, -⟩ := ha.grows hb.decls hb.scope
    have hb₁ : Part m f b₁ := hb'.of_extends (b₁.extends_snoc _ _)
    have hd : d.In m := hb.decls.mono (hg.toExtends.within.trans hb₁.module)
    obtain ⟨xs, st₁, heval, hr, hargs⟩ := runs_args (I := I) (O := O) hknows ha hb₁ hb.decls hb.scope hagree
    obtain ⟨st', hresume, hw, hslots⟩ :=
      resume_anyCall hb'.func hty fun t => compute_call (I := I) (O := O) hd hinfo hargs t
    refine ⟨env, st', ?_, hr.continues.trans hresume, ?_⟩
    · intro ss
      simp only [run, heval, Option.bind_some, hw]
    · rw [hslots]
      exact hagree.reaches hr

/-- Statements up to the end of the body. -/
theorem runs_stmts {d : Declarations} {ret : Prim} {sig : Signature} {scope : Scope} {b b' : Body}
    {ss : List Stmt} {env : Env V} {st : Machine V σ} (hknows : Knows d p) (h : StmtsEmit d ret scope b ss b')
    (hret : ret.repr? = some sig.ret) (hb : Between d sig scope b) (hb' : Part m f b')
    (hagree : Agree scope env st.slots) :
    ∃ r w, run I O p ret env ss st.world = some (r, w) ∧ resume I O m f b.func.insts.size st = some (r, w) := by
  induction h generalizing env st with
  | @nil scope b hvoid =>
    exact ⟨none, st.world, rfl, resume_ret_none hb'.func⟩
  | @ret scope scope' b b' value line hs =>
    cases hs with
    | @ret b₁ b₂ _ _ x v he hc =>
      obtain ⟨hg₁, hxin⟩ := he.grows hb.decls hb.scope
      obtain ⟨hg₂, -⟩ := hc.grows hxin
      have hb₂ : Part m f b₂ := hb'.of_extends (b₂.extends_snoc _ _)
      obtain ⟨a, st₁, heval, hr₁, ha⟩ :=
        runs_expr (I := I) (O := O) hknows he (hb₂.of_extends hg₂.toExtends) hb.decls hb.scope hagree
      obtain ⟨c, st₂, hconv, hr₂, hw, hcarries⟩ := runs_coerces (I := I) (O := O) hc hb₂ ha
      refine ⟨some c.datum, st₂.world, ?_, ?_⟩
      · simp only [run, heval, Option.bind_some, hconv, Option.map_some, hw]
      · rw [hr₁.continues, hr₂.continues]
        exact resume_ret_some hb'.func hcarries.reg
  | cons hs hne hss ih =>
    obtain ⟨hbetween, hext⟩ := hs.between hne hb
    obtain ⟨-, hext'⟩ := hss.finished hret hbetween
    obtain ⟨env', st', hrun, hresume, hagree'⟩ :=
      runs_stmt (I := I) (O := O) hknows hs hne hb (hb'.of_extends hext') hagree
    obtain ⟨r, w, hr, hw⟩ := ih hbetween hb' hagree'
    exact ⟨r, w, by rw [hrun, hr], by rw [hresume, hw]⟩

/-! ## Parameters -/

/-- Whether the registers from an index on hold the values of parameters. -/
inductive Entered (regs : ValueId → Option (Datum V)) : Nat → List Param → List V → Prop
  | nil {index : Nat} : Entered regs index [] []
  | cons {index : Nat} {q : Param} {qs : List Param} {ty : Ty} {v : V} {vs : List V} (hty : q.ty.repr? = some ty)
      (hreg : regs ⟨index⟩ = some ⟨ty, v⟩) (h : Entered regs (index + 1) qs vs) :
      Entered regs index (q :: qs) (v :: vs)

/-- Registers before them do not matter. -/
theorem Entered.update {regs : ValueId → Option (Datum V)} {index : Nat} {qs : List Param} {vs : List V}
    (h : Entered regs index qs vs) {k : Nat} (hk : k < index) (a : Datum V) :
    Entered (update regs ⟨k⟩ a) index qs vs := by
  induction h with
  | nil => exact .nil
  | @cons index q qs ty v vs hty hreg _ ih =>
    refine .cons hty ?_ (ih (by omega))
    rw [update_of_ne, hreg]
    rintro ⟨⟩
    exact Nat.lt_irrefl _ hk

/-- A call enters its arguments. -/
theorem enter_eq {sig : Signature} (htypes : ∀ (k : Nat) ty, sig.params[k]? = some ty → f.valueType ⟨k⟩ = .ok ty)
    {index : Nat} {qs : List Param} {args : List V} (hqs : TypesFrom sig index qs)
    (hlen : args.length = qs.length) :
    ∃ regs, enter f ((List.range' index qs.length).map (⟨·⟩)) args = some regs ∧ Entered regs index qs args := by
  induction qs generalizing index args with
  | nil =>
    cases args with
    | nil => exact ⟨_, rfl, .nil⟩
    | cons v vs => cases hlen
  | cons q qs ih =>
    cases args with
    | nil => cases hlen
    | cons v vs =>
      obtain ⟨ty, hty, hs⟩ := hqs 0 q rfl
      obtain ⟨data, hget, hdata⟩ := Function.valueType_eq_ok.mp (htypes index ty hs)
      obtain ⟨regs, henter, hentered⟩ := ih hqs.tail (Nat.succ.inj hlen)
      refine ⟨update regs ⟨index⟩ ⟨ty, v⟩, ?_, .cons hty (update_self _ _ _) (hentered.update (by omega) _)⟩
      rw [List.length_cons, List.range'_succ, List.map_cons]
      show (f.values.get? ⟨index⟩).bind _ = _
      rw [hget, Option.bind_some, henter, Option.map_some, hdata]

/-- The parameters become variables. -/
theorem runs_params {d : Declarations} {sig : Signature} {index : Nat} {scope scope' : Scope} {b b' : Body}
    {qs : List Param} {args : List V} {env : Env V} {st : Machine V σ} (h : ParamsEmit index scope b qs scope' b')
    (hqs : TypesFrom sig index qs) (hb : Between d sig scope b) (hb' : Part m f b')
    (hentered : Entered st.regs index qs args) (hagree : Agree scope env st.slots) :
    ∃ env' st', bindParams env qs args = some env' ∧
      resume I O m f b.func.insts.size st = resume I O m f b'.func.insts.size st' ∧
      st'.world = st.world ∧ Agree scope' env' st'.slots := by
  induction h generalizing args env st with
  | nil =>
    cases hentered
    exact ⟨env, st, rfl, rfl, rfl, hagree⟩
  | @cons index scope scope' b b' q qs ty hnew hty hrest ih =>
    cases hentered with
    | @cons _ _ _ ty' v vs hty' hreg hentered =>
      rw [hty] at hty'
      cases hty'
      obtain ⟨t, ht, hs⟩ := hqs 0 q rfl
      rw [hty] at ht
      cases ht
      have hbetween := hb.storeParam hty hs
      obtain ⟨-, hext⟩ := hrest.between hqs.tail hbetween
      have hstage : Part m f (Lowering.storeParam b index q ty) := hb'.of_extends hext
      let x : Value V := ⟨q.ty, ⟨ty, v⟩⟩
      let st₁ : Machine V σ := { st with slots := update st.slots b.func.slots.next x.datum }
      have hx : x.Of q.ty := ⟨rfl, hty⟩
      have hentered₁ : Entered st₁.regs (index + 1) qs vs := hentered
      have hagree₁ : Agree _ ((q.name, x) :: env) st₁.slots := hagree.store hb.scope q.name hx
      obtain ⟨env', st', hbind, hresume, hw, hagree'⟩ := ih hqs.tail hbetween hb' hentered₁ hagree₁
      refine ⟨env', st', ?_, ?_, hw, hagree'⟩
      · show (declared q.ty v).bind _ = _
        rw [declared_eq hty, Option.bind_some, hbind]
      · rw [← hresume]
        exact resume_store (g := ((b.withName ⟨index⟩ q.name).withSlot ty q.name).func) hstage.func hreg

/-! ## Bodies -/

/-- The instructions of a finished function are run from the first one on. -/
theorem runFunction_eq {sig : Signature} {args : List V} {w : World V σ}
    {regs : ValueId → Option (Datum V)} (h : Ir.Finished m sig f)
    (henter : enter f ((List.range' 0 sig.params.length).map (⟨·⟩)) args = some regs) :
    runFunction I O m f args w = resume I O m f 0 { regs, slots := fun _ => none, world := w } := by
  have hlist (e : Ir.Entity) (n : Nat) : (Ir.idsBelow e n).toList = (List.range' 0 n).map (⟨·⟩) := by
    simp [Ir.idsBelow, List.range_eq_range']
  unfold runFunction
  rw [h.entry, Option.bind_some, h.blocks]
  show (enter f (Ir.idsBelow .value sig.params.length).toList args).bind _ = _
  rw [hlist, henter, Option.bind_some]
  show exec I O m f (Ir.idsBelow .inst f.insts.size).toList _ = _
  rw [hlist]
  rfl

/-- A body and the function that is made of it return the same, with the same calls. -/
theorem runs_body {d : Declarations} {decl : FunctionDecl} {ss : List Stmt} {n : Module} {name : String}
    {i : Ir.SigId} {linkage : Ir.Linkage} {sig : Signature} {b : Body} (hknows : Knows d p)
    (h : BodyEmits d decl ss (Lowering.opened n name i linkage sig) b) (hsig : n.signatures.get? i = some sig)
    (hd : d.In n) (hdecl : Describes decl sig) (hm : b.module.Within m) {args : List V}
    (hlen : args.length = decl.fixedParams.length) (w : World V σ) :
    ∃ r w', runBody I O p decl ss args w = some (r, w') ∧ runFunction I O m b.func args w = some (r, w') := by
  obtain ⟨hfin, -⟩ := h.finished hsig hd hdecl
  obtain ⟨hp, hss⟩ := h
  have hb₀ : Between d sig [] (Lowering.opened n name i linkage sig) := .opened hsig hd
  obtain ⟨hb₁, -⟩ := hp.between hdecl.typesFrom hb₀
  obtain ⟨-, hext⟩ := hss.finished hdecl.ret hb₁
  have hpart : Part m b.func b := ⟨hm, .refl _⟩
  have hcount : sig.params.length = decl.fixedParams.length := by
    have := congrArg List.length hdecl.params
    simpa using this.symm
  have htypes : ∀ (k : Nat) ty, sig.params[k]? = some ty → b.func.valueType ⟨k⟩ = .ok ty :=
    fun k ty hk => Function.valueType_eq_ok.mpr ⟨_, hfin.params k ty hk, rfl⟩
  obtain ⟨regs, henter, hentered⟩ := enter_eq htypes hdecl.typesFrom hlen
  rw [← hcount] at henter
  let st₀ : Machine V σ := { regs, slots := fun _ => none, world := w }
  have hentered₀ : Entered st₀.regs 0 decl.fixedParams args := hentered
  have hagree₀ : Agree [] [] st₀.slots := .empty
  obtain ⟨env, st, hbind, hresume, hw, hagree⟩ :=
    runs_params (I := I) (O := O) hp hdecl.typesFrom hb₀ (hpart.of_extends hext) hentered₀ hagree₀
  obtain ⟨r, w', hrun, hdone⟩ := runs_stmts (I := I) (O := O) hknows hss hdecl.ret hb₁ hpart hagree
  refine ⟨r, w', ?_, ?_⟩
  · unfold runBody
    rw [hbind, Option.bind_some, ← hrun, hw]
  · rw [runFunction_eq (hfin.mono hm) henter, ← hdone]
    exact hresume

end SsaCompiler.Semantics
