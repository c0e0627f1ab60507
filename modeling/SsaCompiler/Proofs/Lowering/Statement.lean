import SsaCompiler.Proofs.Lowering.Body
import SsaCompiler.Proofs.Lowering.Expression

/-!
# Which bodies are lowered

A body is lowered exactly if its parameters have different names and its statements are well formed,
and otherwise an error about the program comes out:

    Settles (body d decl ss) s (fun _ s' => BodyEmits d decl ss … s'.body) (¬ well formed)   (settles_body)

Between two statements the block is open, so a statement counts as unreachable only after a return
(`gives_isTerminated_of_open`, `gives_isTerminated_of_finished`).
-/

namespace SsaCompiler.Lowering

open Lang (Prim Expr Param Binding Stmt FunctionDecl Names WellFormedBody)
open Ir (Body Build Function Module Signature Ssa Finished)

/-! ## The end of the block -/

theorem gives_lastInst? {b : Body} {sig : Signature} (h : Ssa b.module sig b.func) {last : Option Ir.InstId}
    (hlast : (Ir.idsBelow .inst b.func.insts.size).back? = last) :
    Gives (Build.fromFunc (·.lastInst? Ir.entryId)) b last b := by
  refine Build.gives_fromFunc ?_
  unfold Function.lastInst?
  rw [h.blocks, ← hlast]
  rfl

theorem gives_isTerminated_of_open {b : Body} {sig : Signature} (hcur : b.current = some Ir.entryId)
    (h : Ssa b.module sig b.func) (ho : b.func.IsOpen) : Gives Build.isTerminated b false b := by
  unfold Build.isTerminated
  refine (gives_get b).bind ?_
  rw [hcur]
  cases hn : b.func.insts.size with
  | zero =>
    have hlast : (Ir.idsBelow .inst b.func.insts.size).back? = none := by
      rw [hn, Ir.idsBelow_zero]
      rfl
    exact (gives_lastInst? h hlast).bind (gives_pure _ _)
  | succ n =>
    have hlast : (Ir.idsBelow .inst b.func.insts.size).back? = some ⟨n⟩ := by
      rw [hn, Ir.idsBelow_succ, Array.back?_push]
    obtain ⟨data, hdata⟩ : ∃ data, b.func.insts.get? ⟨n⟩ = some data :=
      Ir.Table.exists_get?_of_lt (by show n < b.func.insts.size; omega)
    have hopen := ho ⟨n⟩ data.inst (Function.inst?_eq_some.mpr ⟨data, hdata, rfl⟩)
    refine (gives_lastInst? h hlast).bind ?_
    refine (Build.gives_fromFunc (Ir.Table.get_eq_ok.mpr hdata)).bind ?_
    rw [hopen]
    exact gives_pure _ _

theorem gives_isTerminated_of_finished {b : Body} {sig : Signature} (hcur : b.current = some Ir.entryId)
    (h : Finished b.module sig b.func) : Gives Build.isTerminated b true b := by
  obtain ⟨i, inst, hinst, hterm, hi⟩ := h.last
  obtain ⟨data, hdata, rfl⟩ := Function.inst?_eq_some.mp hinst
  have hlast : (Ir.idsBelow .inst b.func.insts.size).back? = some i := by
    rw [← hi, Ir.idsBelow_succ, Array.back?_push]
  unfold Build.isTerminated
  refine (gives_get b).bind ?_
  rw [hcur]
  refine (gives_lastInst? h.toSsa hlast).bind ?_
  refine (Build.gives_fromFunc (Ir.Table.get_eq_ok.mpr hdata)).bind ?_
  rw [hterm]
  exact gives_pure _ _

/-- The value of the parameter at an index. -/
theorem gives_funcParam {b : Body} {sig : Signature} (h : Ssa b.module sig b.func) {index : Nat} {ty : Ir.Ty}
    (hi : sig.params[index]? = some ty) : Gives (Build.funcParam index) b ⟨index⟩ b := by
  have hlt : index < sig.params.length := (List.getElem?_eq_some_iff.mp hi).1
  have hparams : b.func.params = .ok (Ir.idsBelow .value sig.params.length).toList := by
    unfold Function.params
    rw [h.entry, h.blocks]
    rfl
  unfold Build.funcParam
  refine (Build.gives_fromFunc hparams).bind ?_
  rw [Array.getElem?_toList, Ir.getElem?_idsBelow hlt]
  exact gives_pure _ _

/-! ## Statements -/

/-- What holds where a statement of a body is lowered. -/
structure Within (d : Declarations) (Γ : Names) (sig : Signature) (s : BodyState) : Prop where
  between : Between d sig s.scope s.body
  names : d.Match Γ
  locals : Γ.locals = s.scope.types

theorem Within.ready {d : Declarations} {Γ : Names} {sig : Signature} {s : BodyState} (h : Within d Γ sig s) :
    Ready d Γ s :=
  ⟨h.between.atEntry, h.between.decls, h.between.scope, h.names, h.locals⟩

namespace Lower

/-- A name is new exactly if no variable has it. -/
theorem settles_requireNew (name : String) (s : BodyState) :
    Settles (requireNew name) s (fun _ s' => s.scope.lookup name = none ∧ s' = s) (s.scope.lookup name ≠ none) := by
  unfold requireNew
  refine .after (gives_bound? name s) ?_
  cases h : s.scope.lookup name with
  | none => exact .of_gives (gives_pure _ _) ⟨rfl, rfl⟩
  | some v => exact settles_fail (Option.some_ne_none v) (by rintro _ ⟨⟩)

/-- A value is computed and converted exactly if the expression yields the type. -/
theorem settles_yields {β : Type} {d : Declarations} {Γ : Names} {s : BodyState} (h : Ready d Γ s) (e : Expr)
    (target : Prim) {k : Typed → Lower β} {P : β → BodyState → Prop} {N : Prop}
    (hn : ¬ Γ.Yields e target → N)
    (hk : ∀ x s', Computed d Γ s e x s' → (x.ty.convertsTo target = false → N) → Settles (k x) s' P N) :
    Settles (expr d e >>= k) s P N := by
  refine (settles_expr e h).bind ?_ ?_
  · rintro hnone
    refine hn ?_
    rintro ⟨ty, hty, -⟩
    rw [hnone] at hty
    cases hty
  · intro x s' hx
    refine hk x s' hx fun hconv => hn ?_
    rintro ⟨ty, hty, hconv'⟩
    rw [hx.type] at hty
    cases hty
    rw [hconv] at hconv'
    cases hconv'

theorem settles_binding {d : Declarations} {Γ : Names} {s : BodyState} (h : Ready d Γ s) (ret : Prim)
    (b : Binding) :
    Settles (binding d b) s
      (fun _ s' => Γ.locals.lookup b.name = none ∧ b.ty.isStorable = true ∧ Γ.Yields b.init b.ty ∧
        s'.scope.types = (b.name, b.ty) :: s.scope.types ∧
        StmtEmits d ret s.scope s.body (.bind b) s'.scope s'.body)
      (¬ (Γ.locals.lookup b.name = none ∧ b.ty.isStorable = true ∧ Γ.Yields b.init b.ty)) := by
  have hlookup : Γ.locals.lookup b.name = (s.scope.lookup b.name).map (·.ty) := by
    rw [h.locals, Scope.lookup_types]
  unfold binding
  refine (settles_requireNew b.name s).bind ?_ ?_
  · rintro hne ⟨hnone, -⟩
    rw [hlookup, Option.map_eq_none_iff] at hnone
    exact hne hnone
  rintro - s₁ ⟨hnew, rfl⟩
  by_cases hvoid : b.ty = .void
  · simp only [if_pos hvoid]
    refine (rejects_fail (by rintro _ ⟨⟩) s₁).bind.settles ?_
    rintro ⟨-, hstorable, -⟩
    exact (isStorable_iff.mp hstorable).1 hvoid
  simp only [if_neg hvoid]
  refine (settles_representation b.ty s₁).bind ?_ ?_
  · rintro hnone ⟨-, hstorable, -⟩
    obtain ⟨-, t, ht⟩ := isStorable_iff.mp hstorable
    rw [hnone] at ht
    cases ht
  rintro ty s₂ ⟨hty, rfl⟩
  have hstorable : b.ty.isStorable = true := isStorable_iff.mpr ⟨hvoid, ty, hty⟩
  refine settles_yields h b.init b.ty (fun hn hall => hn hall.2.2) ?_
  rintro x s₃ ⟨hx, he, hscope⟩ hconv
  obtain ⟨hg, hxin⟩ := he.grows h.decls h.scope
  refine .after (gives_atLine b.line s₃) ?_
  refine .after (gives_build (Build.gives_createSlot s₃.body ty b.name)) ?_
  have hentry : (s₃.body.withSlot ty b.name).AtEntry := (hg.atEntry h.atEntry).withSlot ty b.name
  refine (settles_coerce (s := ⟨s₃.body.withSlot ty b.name, s₃.scope, b.line⟩) hentry x b.ty).bind hconv ?_
  rintro v s₄ ⟨hto, hvty, hc, hscope'⟩
  have hg' := (hc.grows (hxin.mono (s₃.body.func.within_withSlot ty b.name))).1
  refine .after (gives_build (Build.gives_stackStore (hg'.atEntry hentry) v.value _)) ?_
  refine .of_gives (gives_modify _ _) ⟨?_, hstorable, ⟨x.ty, hx, hto⟩, ?_, ?_⟩
  · rw [hlookup, hnew]
    rfl
  · show (b.name, b.ty) :: Scope.types s₄.scope = _
    rw [hscope', hscope]
  · show StmtEmits d ret _ _ _ ((b.name, ⟨s₃.body.func.slots.next, b.ty⟩) :: s₄.scope) _
    rw [hscope', hscope]
    exact .bind hnew hvoid hty he hc

theorem settles_stmt_bind {d : Declarations} {Γ : Names} {s : BodyState} (h : Ready d Γ s) (ret : Prim)
    (b : Binding) :
    Settles (stmt d ret (.bind b)) s
      (fun _ s' => Γ.locals.lookup b.name = none ∧ b.ty.isStorable = true ∧ Γ.Yields b.init b.ty ∧
        s'.scope.types = (b.name, b.ty) :: s.scope.types ∧
        StmtEmits d ret s.scope s.body (.bind b) s'.scope s'.body)
      (¬ (Γ.locals.lookup b.name = none ∧ b.ty.isStorable = true ∧ Γ.Yields b.init b.ty)) := by
  unfold stmt
  refine .after (gives_atLine b.line s) ?_
  exact settles_binding (s := { s with line := b.line }) ⟨h.atEntry, h.decls, h.scope, h.names, h.locals⟩ ret b

theorem settles_stmt_call {d : Declarations} {Γ : Names} {s : BodyState} (h : Ready d Γ s) (ret : Prim)
    (c : Lang.Call) :
    Settles (stmt d ret (.call c)) s
      (fun _ s' => Γ.Allows c ∧ s'.scope = s.scope ∧ StmtEmits d ret s.scope s.body (.call c) s'.scope s'.body)
      (¬ Γ.Allows c) := by
  have hline : Ready d Γ { s with line := c.line } := ⟨h.atEntry, h.decls, h.scope, h.names, h.locals⟩
  unfold stmt
  refine .after (gives_atLine c.line s) ?_
  refine settles_call hline (fun params h' hs => settles_arguments c.callee c.line c.args 0 params h' hs) ?_ ?_
  · rintro hn ⟨f, tys, hf, htys, htakes⟩
    rw [hn f tys hf htys] at htakes
    cases htakes
  · rintro info vs s₁ ⟨⟨f, tys, hf, -, htys, htakes⟩, hinfo, hcount, hemits, hscope⟩
    obtain ⟨hg, hargs, -⟩ := hemits.grows h.decls h.scope
    have h₁ := hline.grows hg hscope
    obtain ⟨signature, hsig, hdesc⟩ := h₁.decls.functions _ info hinfo
    refine .of_gives (gives_endCall h₁.atEntry hsig vs).discard ⟨⟨f, tys, hf, htys, htakes⟩, hscope, ?_⟩
    show StmtEmits d ret _ _ _ s₁.scope _
    rw [hscope]
    exact .call hinfo hcount hemits hdesc.ret

theorem settles_stmt_ret {d : Declarations} {Γ : Names} {s : BodyState} (h : Ready d Γ s) (ret : Prim)
    (value : Expr) (line : Nat) :
    Settles (stmt d ret (.ret value line)) s
      (fun _ s' => Γ.Yields value ret ∧ StmtEmits d ret s.scope s.body (.ret value line) s'.scope s'.body)
      (¬ Γ.Yields value ret) := by
  have hline : Ready d Γ { s with line } := ⟨h.atEntry, h.decls, h.scope, h.names, h.locals⟩
  unfold stmt
  refine .after (gives_atLine line s) ?_
  refine settles_yields hline value ret id ?_
  rintro x s₁ ⟨hx, he, hscope⟩ hconv
  obtain ⟨hg, hxin⟩ := he.grows h.decls h.scope
  have hentry := hg.atEntry h.atEntry
  refine .after (gives_atLine line s₁) ?_
  refine (settles_coerce (s := { s₁ with line }) hentry x ret).bind hconv ?_
  rintro v s₂ ⟨hto, -, hc, hscope'⟩
  obtain ⟨hg', -⟩ := hc.grows hxin
  refine .of_gives (gives_build (Build.gives_ret (hg'.atEntry hentry) (some v.value))) ⟨⟨x.ty, hx, hto⟩, ?_⟩
  show StmtEmits d ret _ _ _ s₂.scope _
  rw [hscope', hscope]
  exact .ret line he hc

/-! ## Bodies -/

/-- The end of a body: without a return, only a function that returns `void` gets one. -/
def finish (decl : FunctionDecl) : Lower Unit := do
  if !(← build .isTerminated) then
    if decl.ret = .void then build (.ret none)
    else
      atLine decl.line
      fail (.missingReturn decl.name)

theorem stmts_cons (d : Declarations) (ret : Prim) (x : Stmt) (xs : List Stmt) :
    stmts d ret (x :: xs) =
      (build .isTerminated >>= fun terminated =>
        if terminated then
          x.line?.forM atLine >>= fun _ => (fail .unreachableCode : Lower Unit) >>= fun _ => stmt d ret x
        else stmt d ret x) >>= fun _ => stmts d ret xs :=
  rfl

/-- In an open block the next statement is lowered. -/
theorem settles_stmts_cons {β : Type} {d : Declarations} {ret : Prim} {x : Stmt} {xs : List Stmt} {s : BodyState}
    {k : Unit → Lower β} {P : β → BodyState → Prop} {N : Prop} (hopen : Gives Build.isTerminated s.body false s.body)
    (h : Settles (stmt d ret x >>= fun _ => stmts d ret xs >>= k) s P N) :
    Settles (stmts d ret (x :: xs) >>= k) s P N := by
  rw [stmts_cons, bind_assoc, bind_assoc]
  exact .after (gives_build hopen) h

/-- After a return no statement is lowered. -/
theorem rejects_stmts_cons {d : Declarations} {ret : Prim} {x : Stmt} {xs : List Stmt} {s : BodyState}
    (hterm : Gives Build.isTerminated s.body true s.body) : Rejects (stmts d ret (x :: xs)) s := by
  have hline : ∃ s', Gives (x.line?.forM atLine) s () s' := by
    cases x.line? with
    | none => exact ⟨s, gives_pure _ _⟩
    | some line => exact ⟨_, gives_atLine line s⟩
  obtain ⟨s', hline⟩ := hline
  rw [stmts_cons]
  refine (Rejects.after (gives_build hterm) (.after hline ?_)).bind
  exact (rejects_fail (by rintro _ ⟨⟩) s').bind

/-- The statements of a body are lowered exactly if they are well formed. -/
theorem settles_rest {d : Declarations} {decl : FunctionDecl} {sig : Signature}
    (hret : decl.ret.repr? = some sig.ret) (ss : List Stmt) {Γ : Names} {s : BodyState} (h : Within d Γ sig s) :
    Settles (stmts d decl.ret ss >>= fun _ => finish decl) s
      (fun _ s' => WellFormedBody decl.ret Γ ss ∧ StmtsEmit d decl.ret s.scope s.body ss s'.body)
      (¬ WellFormedBody decl.ret Γ ss) := by
  induction ss generalizing Γ s with
  | nil =>
    have hopen := gives_isTerminated_of_open h.between.atEntry.current h.between.ssa h.between.isOpen
    refine .after (gives_pure _ _) (.after (gives_build hopen) ?_)
    show Settles (if decl.ret = .void then _ else _) s _ _
    by_cases hvoid : decl.ret = .void
    · rw [if_pos hvoid]
      exact .of_gives (gives_build (Build.gives_ret h.between.atEntry none)) ⟨.nil hvoid, .nil hvoid⟩
    · rw [if_neg hvoid]
      refine .after (gives_atLine decl.line s) (settles_fail ?_ (by rintro _ ⟨⟩))
      rintro ⟨hv⟩
      exact hvoid hv
  | cons x xs ih =>
    have hopen := gives_isTerminated_of_open h.between.atEntry.current h.between.ssa h.between.isOpen
    refine settles_stmts_cons hopen ?_
    cases x with
    | bind b =>
      refine (settles_stmt_bind h.ready decl.ret b).bind ?_ ?_
      · rintro hn (_ | _ | ⟨hnew, hty, hinit, -⟩)
        exact hn ⟨hnew, hty, hinit⟩
      · rintro - s₁ ⟨hnew, hty, hinit, htypes, hs⟩
        have hb := (hs.between (by rintro _ _ ⟨⟩) h.between).1
        have h₁ : Within d (Γ.bind b.name b.ty) sig s₁ :=
          ⟨hb, h.names.bind b.name b.ty, by rw [htypes, ← h.locals]; rfl⟩
        refine (ih h₁).mono ?_ ?_
        · rintro - s₂ ⟨hwf, hemits⟩
          exact ⟨.bind hnew hty hinit hwf, .cons hs (by rintro _ _ ⟨⟩) hemits⟩
        · rintro hn (_ | _ | ⟨-, -, -, hrest⟩)
          exact hn hrest
    | call c =>
      refine (settles_stmt_call h.ready decl.ret c).bind ?_ ?_
      · rintro hn (_ | _ | _ | ⟨hc, -⟩)
        exact hn hc
      · rintro - s₁ ⟨hc, hscope, hs⟩
        have hb := (hs.between (by rintro _ _ ⟨⟩) h.between).1
        have h₁ : Within d Γ sig s₁ := ⟨hb, h.names, by rw [hscope]; exact h.locals⟩
        refine (ih h₁).mono ?_ ?_
        · rintro - s₂ ⟨hwf, hemits⟩
          exact ⟨.call hc hwf, .cons hs (by rintro _ _ ⟨⟩) hemits⟩
        · rintro hn (_ | _ | _ | ⟨-, hrest⟩)
          exact hn hrest
    | block body =>
      have hblock : Rejects (stmt d decl.ret (.block body)) s := rejects_fail (by rintro _ ⟨⟩) s
      refine hblock.bind.settles ?_
      rintro ⟨⟩
    | ret value line =>
      refine (settles_stmt_ret h.ready decl.ret value line).bind ?_ ?_
      · rintro hn (_ | ⟨-, hyields⟩)
        exact hn hyields
      · rintro - s₁ ⟨hyields, hs⟩
        have hfin : Finished s₁.body.module sig s₁.body.func ∧ s.body.Extends s₁.body :=
          (StmtsEmit.ret hs).finished hret h.between
        have hcur : s₁.body.current = some Ir.entryId := hfin.2.current.trans h.between.atEntry.current
        have hterm := gives_isTerminated_of_finished hcur hfin.1
        cases xs with
        | nil =>
          refine .after (gives_pure _ _) (.after (gives_build hterm) ?_)
          exact .of_gives (gives_pure _ _) ⟨.ret line hyields, .ret hs⟩
        | cons y ys =>
          refine (rejects_stmts_cons hterm).bind.settles ?_
          rintro ⟨⟩

/-- A parameter is stored exactly if its name is new. -/
theorem settles_param {d : Declarations} {sig : Signature} {s : BodyState} (h : Between d sig s.scope s.body)
    (index : Nat) {p : Param} {ty : Ir.Ty} (hty : p.ty.repr? = some ty) (hs : sig.params[index]? = some ty) :
    Settles (param index p) s
      (fun _ s' => s.scope.lookup p.name = none ∧ s'.body = storeParam s.body index p ty ∧
        s'.scope = (p.name, ⟨s.body.func.slots.next, p.ty⟩) :: s.scope)
      (s.scope.lookup p.name ≠ none) := by
  unfold param
  refine (settles_requireNew p.name s).bind id ?_
  rintro - s₁ ⟨hnew, rfl⟩
  refine (settles_representation p.ty s₁).bind (fun hnone => by rw [hty] at hnone; cases hnone) ?_
  rintro t s₂ ⟨ht, rfl⟩
  rw [hty] at ht
  cases ht
  refine .after (gives_build (gives_funcParam h.ssa hs)) ?_
  refine .after (gives_build (Build.gives_setName s₂.body ⟨index⟩ p.name)) ?_
  refine .after (gives_build (Build.gives_createSlot _ ty p.name)) ?_
  have hentry := (h.atEntry.withName ⟨index⟩ p.name).withSlot ty p.name
  refine .after (gives_build (Build.gives_stackStore hentry ⟨index⟩ _)) ?_
  exact .of_gives (gives_modify _ _) ⟨hnew, rfl, rfl⟩

/-- The names that are left have to differ from the one that is bound. -/
theorem newNames_cons {scope : Scope} {p : Param} (ps : List Param) (v : Variable)
    (hnew : scope.lookup p.name = none) :
    ((ps.map (·.name)).Nodup ∧ ∀ q ∈ ps, List.lookup q.name ((p.name, v) :: scope) = none) ↔
      ((p :: ps).map (·.name)).Nodup ∧ ∀ q ∈ p :: ps, scope.lookup q.name = none := by
  have hlookup (q : Param) :
      List.lookup q.name ((p.name, v) :: scope) = none ↔ q.name ≠ p.name ∧ scope.lookup q.name = none := by
    rw [List.lookup_cons]
    cases h : q.name == p.name with
    | true => simp [eq_of_beq h]
    | false => simp [ne_of_beq_false h]
  rw [List.map_cons, List.nodup_cons]
  constructor
  · rintro ⟨hnodup, hall⟩
    refine ⟨⟨?_, hnodup⟩, ?_⟩
    · intro hmem
      obtain ⟨q, hq, hname⟩ := List.mem_map.mp hmem
      exact ((hlookup q).mp (hall q hq)).1 hname
    · intro q hq
      rcases List.mem_cons.mp hq with rfl | hq
      · exact hnew
      · exact ((hlookup q).mp (hall q hq)).2
  · rintro ⟨⟨hnot, hnodup⟩, hall⟩
    refine ⟨hnodup, fun q hq => (hlookup q).mpr ⟨?_, hall q (List.mem_cons_of_mem p hq)⟩⟩
    intro hname
    exact hnot (List.mem_map.mpr ⟨q, hq, hname⟩)

/-- Parameters are stored exactly if their names are new and different. -/
theorem settles_params {d : Declarations} {sig : Signature} (ps : List Param) {index : Nat} {s : BodyState}
    (h : Between d sig s.scope s.body) (hps : TypesFrom sig index ps) :
    Settles (List.forM (ps.zipIdx index) fun (p, i) => param i p) s
      (fun _ s' => ((ps.map (·.name)).Nodup ∧ ∀ p ∈ ps, s.scope.lookup p.name = none) ∧
        s'.scope.types = (ps.map fun p => (p.name, p.ty)).reverse ++ s.scope.types ∧
        ParamsEmit index s.scope s.body ps s'.scope s'.body)
      (¬ ((ps.map (·.name)).Nodup ∧ ∀ p ∈ ps, s.scope.lookup p.name = none)) := by
  induction ps generalizing index s with
  | nil => exact .of_gives (gives_pure _ _) ⟨⟨List.nodup_nil, by rintro p ⟨⟩⟩, rfl, .nil⟩
  | cons p ps ih =>
    obtain ⟨ty, hty, hs⟩ := hps 0 p rfl
    refine (settles_param h index hty hs).bind (fun hne hall => hne (hall.2 p List.mem_cons_self)) ?_
    rintro - s₁ ⟨hnew, hbody, hscope⟩
    have h₁ : Between d sig s₁.scope s₁.body := by
      rw [hbody, hscope]
      exact h.storeParam hty hs
    have hiff := newNames_cons ps ⟨s.body.func.slots.next, p.ty⟩ hnew
    rw [← hscope] at hiff
    refine (ih h₁ hps.tail).mono ?_ (fun hn hall => hn (hiff.mpr hall))
    rintro - s₂ ⟨hall, htypes, hemits⟩
    refine ⟨hiff.mp hall, ?_, ?_⟩
    · rw [htypes, hscope, List.map_cons, List.reverse_cons, List.append_assoc]
      rfl
    · rw [hbody, hscope] at hemits
      exact .cons hnew hty hemits

theorem body_eq (d : Declarations) (decl : FunctionDecl) (ss : List Stmt) :
    body d decl ss =
      discard (build .initEntry) >>= fun _ =>
        (List.forM decl.fixedParams.zipIdx fun (p, i) => param i p) >>= fun _ =>
          stmts d decl.ret ss >>= fun _ => finish decl :=
  rfl

/-- A body is lowered exactly if its parameters have different names and its statements are well formed. -/
theorem settles_body {d : Declarations} {Γ : Names} {decl : FunctionDecl} {m : Module} {name : String}
    {i : Ir.SigId} {linkage : Ir.Linkage} {sig : Signature} (ss : List Stmt) (line : Nat)
    (hs : m.signatures.get? i = some sig) (hd : d.In m) (hdecl : Describes decl sig) (hnames : d.Match Γ)
    (hlocals : Γ.locals = decl.firstLocals) :
    Settles (body d decl ss) ⟨⟨m, .declared name i linkage, none⟩, [], line⟩
      (fun _ s' => ((decl.fixedParams.map (·.name)).Nodup ∧ WellFormedBody decl.ret Γ ss) ∧
        BodyEmits d decl ss (opened m name i linkage sig) s'.body)
      (¬ ((decl.fixedParams.map (·.name)).Nodup ∧ WellFormedBody decl.ret Γ ss)) := by
  have hb : Between d sig [] (opened m name i linkage sig) := .opened hs hd
  rw [body_eq]
  refine .after (gives_build (Build.gives_initEntry hs)).discard ?_
  have hparams := settles_params (s := ⟨opened m name i linkage sig, [], line⟩) decl.fixedParams hb hdecl.typesFrom
  refine hparams.bind ?_ ?_
  · rintro hn ⟨hnodup, -⟩
    exact hn ⟨hnodup, fun p hp => rfl⟩
  · rintro - s₁ ⟨⟨hnodup, -⟩, htypes, hp⟩
    have h₁ : Within d Γ sig s₁ := by
      refine ⟨(hp.between hdecl.typesFrom hb).1, hnames, ?_⟩
      rw [htypes, hlocals]
      exact (List.append_nil _).symm
    refine (settles_rest hdecl.ret ss h₁).mono ?_ (fun hn hall => hn hall.2)
    rintro - s₂ ⟨hwf, hss⟩
    exact ⟨⟨hnodup, hwf⟩, hp, hss⟩

end Lower

end SsaCompiler.Lowering
