import SsaCompiler.Proofs.Ir.Interning
import SsaCompiler.Proofs.Lowering.SymbolTables

/-!
# String literals

The texts of a program are its string literals in the order in which they are computed.  Lowering interns each
of them once and takes the address of what it interned, so a lowered module has the distinct ones as its data,
and the data of a body's addresses tell its texts:

    BodyEmits d decl ss (opened …) b → b₀.Tells (Stmt.textsAll ss) b                    (BodyEmits.tells)
    (lower p name …).1 = .ok m → m.InternsData (p.texts.map utf8)                      (internsData_of_lower)
-/

namespace SsaCompiler.Lang

mutual

/-- The string literals of an expression, in the order in which they are computed. -/
def Expr.texts : Expr → List String
  | .literal ty text => if ty = .str then [text] else []
  | .name _ => []
  | .binary _ lhs rhs => lhs.texts ++ rhs.texts
  | .call _ args _ => Expr.textsAll args

def Expr.textsAll : List Expr → List String
  | [] => []
  | e :: es => e.texts ++ Expr.textsAll es

end

mutual

def Stmt.texts : Stmt → List String
  | .bind b => b.init.texts
  | .ret value _ => value.texts
  | .call c => Expr.textsAll c.args
  | .block body => Stmt.textsAll body

def Stmt.textsAll : List Stmt → List String
  | [] => []
  | s :: ss => s.texts ++ Stmt.textsAll ss

end

def FunctionDecl.texts (f : FunctionDecl) : List String :=
  f.body.elim [] Stmt.textsAll

/-- The string literals of the bodies of a program. -/
def Program.texts (p : Program) : List String :=
  p.functions.flatMap (·.texts)

end SsaCompiler.Lang

namespace SsaCompiler.Lowering

/-! ## The bytes of a text -/

/-- The bytes that a text is held as. -/
def utf8 (text : String) : List UInt8 :=
  text.toUTF8.toList

theorem toList_loop (bytes : ByteArray) (i : Nat) (before : List UInt8) :
    ByteArray.toList.loop bytes i before = before.reverse ++ bytes.data.toList.drop i := by
  fun_induction ByteArray.toList.loop bytes i before with
  | case1 i before h ih =>
    have hi : i < bytes.data.toList.length := h
    rw [ih, List.drop_eq_getElem_cons hi, List.reverse_cons, List.append_assoc, List.singleton_append]
    exact congrArg (before.reverse ++ · :: _) (getElem!_pos bytes.data i h)
  | case2 i before h =>
    rw [List.drop_eq_nil_of_le (Nat.le_of_not_lt h), List.append_nil]

/-- Different texts have different bytes. -/
theorem utf8_injective : Function.Injective utf8 := by
  have toList_eq (bytes : ByteArray) : bytes.toList = bytes.data.toList := toList_loop bytes 0 []
  intro s t h
  unfold utf8 at h
  rw [toList_eq, toList_eq] at h
  exact String.toByteArray_inj.mp (ByteArray.ext (Array.toList_inj.mp h))

end SsaCompiler.Lowering

namespace SsaCompiler.Ir

open Lowering (utf8)
open Table (Asks)

/-! ## Addresses of data -/

/-- The data whose address an instruction takes. -/
def Inst.dataAddr? : Inst → Option DataId
  | .dataAddr i => some i
  | _ => none

/-- The data whose addresses a function takes, in the order of its instructions. -/
def Function.dataAddrs (f : Function) : List DataId :=
  f.insts.toList.filterMap (·.inst.dataAddr?)

theorem Function.dataAddrs_snoc (f : Function) (inst : Inst) (ty : Option Ty) :
    (f.snoc inst ty).dataAddrs = f.dataAddrs ++ inst.dataAddr?.toList := by
  unfold dataAddrs
  rw [snoc_insts, Table.toList_push, List.filterMap_append]
  cases h : inst.dataAddr? <;> simp [h]

/-! ## What a body tells -/

/-- Whether a body went on by asking for the data of some texts and taking their addresses. -/
def Body.Tells (b : Body) (texts : List String) (b' : Body) : Prop :=
  ∀ cs, b.module.InternsData cs → ∃ answered,
    Asks DataObject.holding cs (texts.map utf8) answered (.ok b'.module.data) ∧
      b'.func.dataAddrs = b.func.dataAddrs ++ answered.map (·.2)

namespace Body.Tells

variable {b b₁ b₂ : Body} {texts texts' : List String}

theorem refl (b : Body) : b.Tells [] b :=
  fun _ hcs => ⟨[], .nothing hcs rfl, (List.append_nil _).symm⟩

theorem trans (h : b.Tells texts b₁) (h' : b₁.Tells texts' b₂) : b.Tells (texts ++ texts') b₂ := by
  intro cs hcs
  obtain ⟨answered, hasks, haddrs⟩ := h cs hcs
  obtain ⟨answered', hasks', haddrs'⟩ := h' _ (hasks.interns _ rfl)
  refine ⟨answered ++ answered', ?_, ?_⟩
  · rw [List.map_append]
    exact hasks.trans hasks'
  · rw [haddrs', haddrs, List.map_append, List.append_assoc]

/-- Two parts of which the second tells nothing. -/
theorem trans_nil (h : b.Tells texts b₁) (h' : b₁.Tells [] b₂) :
    b.Tells texts b₂ := by
  have htrans := h.trans h'
  rwa [List.append_nil] at htrans

/-- What takes no address and interns no data tells nothing. -/
theorem quiet (h : b.Tells texts b₁) (hdata : b₂.module.data = b₁.module.data)
    (haddrs : b₂.func.dataAddrs = b₁.func.dataAddrs) : b.Tells texts b₂ := by
  intro cs hcs
  rw [hdata, haddrs]
  exact h cs hcs

theorem snoc (h : b.Tells texts b₁) {inst : Inst} (hinst : inst.dataAddr? = none) (ty : Option Ty) :
    b.Tells texts (b₁.snoc inst ty) := by
  refine h.quiet rfl ?_
  show (b₁.func.snoc inst ty).dataAddrs = b₁.func.dataAddrs
  rw [Function.dataAddrs_snoc, hinst, Option.toList_none, List.append_nil]

theorem withSlot (h : b.Tells texts b₁) (ty : Ty) (name : String) : b.Tells texts (b₁.withSlot ty name) :=
  h.quiet rfl rfl

/-- A string literal. -/
theorem str (b : Body) (text : String) :
    b.Tells [text] ((b.withData (utf8 text)).snoc (.dataAddr (b.module.internData (utf8 text)).1) (some .ptr)) := by
  intro cs hcs
  exact ⟨_, Module.InternsData.asks hcs (utf8 text), Function.dataAddrs_snoc _ _ _⟩

end Body.Tells

end SsaCompiler.Ir

namespace SsaCompiler.Lowering

open Lang (Expr Stmt Prim Param FunctionDecl Program)
open Ir (Body DataId DataObject Function Module ValueId Signature)

/-! ## Lowered bodies -/

theorem Coerces.tells {b b' : Body} {x : Typed} {target : Prim} {v : ValueId} (h : Coerces b x target v b') :
    b.Tells [] b' := by
  cases h with
  | same => exact .refl b
  | keep => exact .refl b
  | apply => exact (Body.Tells.refl b).snoc rfl _

theorem Unifies.tells {b b' : Body} {x y : Typed} {ty : Prim} {l r : ValueId} (h : Unifies b x y ty l r b') :
    b.Tells [] b' := by
  cases h with
  | right _ hc => exact hc.tells
  | left _ hc => exact hc.tells

mutual

theorem ExprEmits.tells {d : Declarations} {scope : Scope} : ∀ {b b' : Body} {e : Expr} {x : Typed},
    ExprEmits d scope b e x b' → b.Tells e.texts b'
  | b, _, _, _, .float _ => (Body.Tells.refl b).snoc rfl _
  | b, _, _, _, .int _ _ => (Body.Tells.refl b).snoc rfl _
  | b, _, _, _, .str text => .str b text
  | b, _, _, _, .var _ _ => (Body.Tells.refl b).snoc rfl _
  | b, _, _, _, .global _ _ _ => (Body.Tells.refl b).snoc rfl _
  | _, _, _, _, .binary hl hr hu _ _ => ((hl.tells.trans hr.tells).trans_nil hu.tells).snoc rfl _
  | _, _, _, _, .call _ _ ha _ _ => ha.tells.snoc rfl _

theorem ArgsEmit.tells {d : Declarations} {scope : Scope} : ∀ {callee : String} {params : List Prim} {b b' : Body}
    {es : List Expr} {vs : List ValueId}, ArgsEmit d scope callee params b es vs b' → b.Tells (Expr.textsAll es) b'
  | _, _, b, _, _, _, .nil => .refl b
  | _, _, _, _, _, _, .cons he hc _ hs => (he.tells.trans_nil hc.tells).trans hs.tells

end

theorem StmtEmits.tells {d : Declarations} {ret : Prim} {scope scope' : Scope} {b b' : Body} {s : Stmt}
    (h : StmtEmits d ret scope b s scope' b') : b.Tells s.texts b' := by
  cases h with
  | bind _ _ _ he hc => exact ((he.tells.withSlot _ _).trans_nil hc.tells).snoc rfl _
  | ret line he hc => exact (he.tells.trans_nil hc.tells).snoc rfl _
  | call _ _ ha _ => exact ha.tells.snoc rfl _

theorem StmtsEmit.tells {d : Declarations} {ret : Prim} {scope : Scope} {b b' : Body} {ss : List Stmt}
    (h : StmtsEmit d ret scope b ss b') : b.Tells (Stmt.textsAll ss) b' := by
  induction h with
  | @nil scope b _ => exact (Body.Tells.refl b).snoc rfl _
  | ret h => exact h.tells.trans (.refl _)
  | cons h _ _ ih => exact h.tells.trans ih

theorem ParamsEmit.tells {index : Nat} {scope scope' : Scope} {b b' : Body} {ps : List Param}
    (h : ParamsEmit index scope b ps scope' b') : b.Tells [] b' := by
  induction h with
  | nil => exact .refl _
  | @cons index scope scope' b b' p ps ty _ _ _ ih =>
    have hstored : b.Tells [] (storeParam b index p ty) :=
      (((Body.Tells.refl b).quiet rfl rfl : b.Tells [] (b.withName ⟨index⟩ p.name)).withSlot _ _).snoc rfl _
    exact hstored.trans ih

/-- **A body tells its texts.** -/
theorem BodyEmits.tells {d : Declarations} {decl : FunctionDecl} {ss : List Stmt} {b b' : Body}
    (h : BodyEmits d decl ss b b') : b.Tells (Stmt.textsAll ss) b' := by
  obtain ⟨hp, hs⟩ := h
  exact hp.tells.trans hs.tells

/-! ## Lowered modules -/

section

variable {name : String} {decl : FunctionDecl} {s s' : ProgramState} {id : Ir.FuncId} {u : Unit}
  {cs : List (List UInt8)}

theorem internsData_declare (h : s.module.InternsData cs) (hgives : Gives (LowerProgram.declare decl) s id s') :
    s'.module.InternsData cs := by
  rcases LowerProgram.declare_inv hgives with ⟨info, f, -, -, -, rfl⟩ | ⟨-, -, params, ret, i, signatures, -, -, -, rfl⟩
  · exact h
  · exact h

/-- A declaration that is lowered adds its texts. -/
theorem internsData_function {gs : List Lang.Binding} {fs : List FunctionDecl} (hholds : Holds gs fs s)
    (h : s.module.InternsData cs) (hgives : Gives (LowerProgram.function decl) s u s') :
    s'.module.InternsData (cs ++ decl.texts.map utf8) := by
  obtain ⟨id, s₁, hdeclare, ⟨hnone, rfl⟩ | ⟨ss, hss, hbody⟩⟩ := LowerProgram.function_inv hgives
  · rw [FunctionDecl.texts, hnone, Option.elim_none, List.map_nil, List.append_nil]
    exact internsData_declare h hdeclare
  · have hdeclared := (LowerProgram.settles_declare hholds decl).of_run hdeclare
    obtain ⟨-, i, linkage, sig, b, journal, -, -, -, hemits, rfl⟩ :=
      (LowerProgram.settles_body hdeclared.2 hss).of_run hbody
    obtain ⟨answered, hasks, -⟩ := hemits.tells cs (internsData_declare h hdeclare)
    rw [FunctionDecl.texts, hss, Option.elim_some]
    exact hasks.interns _ rfl

/-- **The data of a lowered module** is that of the texts of its program. -/
theorem internsData_of_lower {p : Program} {validate : Bool} {journal : Journal} {m : Module}
    (h : (lower p name validate journal).1 = .ok m) : m.InternsData (p.texts.map utf8) := by
  obtain ⟨s, hgives, -, rfl⟩ := gives_of_lower h
  refine LowerProgram.of_declarations (I := fun _ fs s => s.module.InternsData ((fs.flatMap (·.texts)).map utf8))
    (Module.internsData_empty name) ?_ ?_ hgives
  · intro gs b s u s' _ h hb
    obtain ⟨g, -, hmodule, -⟩ := LowerProgram.global_inv hb
    rw [hmodule]
    exact h
  · intro gs fs f s u s' hholds h hf
    rw [List.flatMap_append, List.map_append, List.flatMap_singleton]
    exact internsData_function hholds h hf

/-- A function takes the addresses of the data of its texts. -/
theorem HasBody.addresses {gs : List Lang.Binding} {fs : List FunctionDecl} {m : Module} {ss : List Stmt}
    (h : HasBody gs fs m decl ss) (hm : m.InternsData cs) :
    ∃ i f, m.functions.get? i = some f ∧ f.name = decl.name ∧
      List.Forall₂ (fun i text => m.data.get? i = some (DataObject.holding (utf8 text) i)) f.dataAddrs
        (Stmt.textsAll ss) := by
  obtain ⟨Γ, d, n, b, k, linkage, sig, id, -, ⟨-, hin, hsig, hdescribes⟩, hemits, hwithin, hget⟩ := h
  obtain ⟨-, hext⟩ := hemits.finished hsig hin hdescribes
  have hn : n.data.Within m.data := (hext.within.trans hwithin).data
  obtain ⟨answered, hasks, haddrs⟩ := hemits.tells _ (hm.of_within hn)
  refine ⟨id, b.func, hget, hext.func.name, ?_⟩
  have hpairs : List.Forall₂ (fun i contents => m.data.get? i = some (DataObject.holding contents i))
      (answered.map (·.2)) (answered.map (·.1)) := by
    rw [List.forall₂_map_left_iff, List.forall₂_map_right_iff, List.forall₂_same]
    exact fun p hp => hwithin.data _ _ (hasks.get? hp)
  rw [hasks.keys _ rfl, List.forall₂_map_right_iff] at hpairs
  rw [haddrs]
  exact hpairs

end

end SsaCompiler.Lowering
