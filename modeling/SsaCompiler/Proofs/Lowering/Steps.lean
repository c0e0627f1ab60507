import SsaCompiler.Proofs.Lowering.Guarantees

/-!
# What a function declaration changes

The state in which a declaration of a function leaves the tables, where it is lowered at all.  It changes the
linkage of a known function or adds a new one (`declare_inv`), and what its body does is said by `settles_body`.
Together they say everything, so no later proof has to open the step, and what every step keeps holds of all that
is lowered (`of_declarations`).
-/

namespace SsaCompiler.Lowering

open Lang (FunctionDecl Prim Program)
open Ir (Module Function FuncId SigId Signature Table)

/-- What is known of a function from its first declaration. -/
def firstInfo (decl : FunctionDecl) (id : FuncId) : FunctionInfo :=
  { id, params := decl.fixedTypes, variadic := decl.isVariadic, ret := decl.ret, visible := decl.isVisible
    defined := false, line := decl.line }

/-- The signature of a declaration whose parameters and result have given types. -/
def signatureFor (decl : FunctionDecl) (params : List Ir.Ty) (ret : Ir.Ty) : Signature :=
  { params, ret, variadic := decl.isVariadic, callConv := .systemV }

namespace ProgramState

/-- A function that is known by an id is declared again. -/
def redeclared (s : ProgramState) (id : FuncId) (f : Function) (hasBody : Bool) : ProgramState :=
  let functions := s.module.functions.set id { f with linkage := LowerProgram.laterLinkage f.linkage hasBody }
  { s with module := { s.module with functions } }

/-- A function is declared for the first time, with one of the signatures there are by then. -/
def declared (s : ProgramState) (decl : FunctionDecl) (i : SigId) (signatures : Table .signature Signature) :
    ProgramState :=
  let functions := s.module.functions.push (.declared decl.name i (LowerProgram.firstLinkage decl))
  { s with
    module := { s.module with signatures, functions }
    decls := s.decls.addFunction decl.name (firstInfo decl s.module.functions.next) }

variable {s : ProgramState} {id j : FuncId} {f : Function}

theorem redeclared_get?_self (hf : s.module.functions.get? id = some f) (hasBody : Bool) :
    (s.redeclared id f hasBody).module.functions.get? id =
      some { f with linkage := LowerProgram.laterLinkage f.linkage hasBody } :=
  Table.get?_set_self _ hf

theorem redeclared_get?_of_ne (f : Function) (hasBody : Bool) (hj : j ≠ id) :
    (s.redeclared id f hasBody).module.functions.get? j = s.module.functions.get? j :=
  Table.get?_set_of_ne _ hj

theorem declared_get?_next (s : ProgramState) (decl : FunctionDecl) (i : SigId)
    (signatures : Table .signature Signature) :
    (s.declared decl i signatures).module.functions.get? s.module.functions.next =
      some (.declared decl.name i (LowerProgram.firstLinkage decl)) :=
  Table.get?_push_next _ _

theorem declared_get?_of_ne (decl : FunctionDecl) (i : SigId) (signatures : Table .signature Signature)
    (hj : j ≠ s.module.functions.next) :
    (s.declared decl i signatures).module.functions.get? j = s.module.functions.get? j :=
  Table.get?_push_of_ne hj

end ProgramState

namespace LowerProgram

/-- A further declaration may change the linkage of the function that its name stands for. -/
theorem redeclare_inv {info : FunctionInfo} {decl : FunctionDecl} {s s' : ProgramState} {id : FuncId}
    (h : Gives (redeclare info decl) s id s') :
    id = info.id ∧ ∃ f, s.module.functions.get? id = some f ∧ s' = s.redeclared id f decl.body.isSome := by
  unfold redeclare at h
  obtain ⟨-, h₁⟩ := gives_unless_iff.mp h
  obtain ⟨-, h₂⟩ := gives_unless_iff.mp h₁
  obtain ⟨_, _, hget, h₃⟩ := gives_bind_iff.mp h₂
  obtain ⟨rfl, rfl⟩ := gives_get_iff.mp hget
  obtain ⟨functions, _, hfunctions, h₄⟩ := gives_bind_iff.mp h₃
  obtain ⟨hmodify, rfl⟩ := gives_ofFault_iff.mp hfunctions
  obtain ⟨_, _, hset, h₅⟩ := gives_bind_iff.mp h₄
  obtain rfl := gives_modify_iff.mp hset
  obtain ⟨rfl, rfl⟩ := gives_pure_iff.mp h₅
  obtain ⟨f, hf, rfl⟩ := Ir.Table.modify_eq_ok.mp hmodify
  exact ⟨rfl, f, hf, rfl⟩

/-- A first declaration adds a function, with a signature that is interned. -/
theorem declareNew_inv {decl : FunctionDecl} {params : List Ir.Ty} {ret : Ir.Ty} {s s' : ProgramState} {id : FuncId}
    (h : Gives (declareNew decl params ret) s id s') :
    id = s.module.functions.next ∧ ∃ i signatures,
      s.module.internSignature (signatureFor decl params ret) = (i, { s.module with signatures }) ∧
      s' = s.declared decl i signatures := by
  cases h
  obtain ⟨signatures, hm, -⟩ := s.module.internSignature_eq (signatureFor decl params ret)
  generalize hintern : s.module.internSignature (signatureFor decl params ret) = interned at hm
  obtain ⟨i, m⟩ := interned
  subst hm
  refine ⟨?_, i, signatures, rfl, ?_⟩
  · show (s.module.internSignature (signatureFor decl params ret)).2.functions.next = _
    rw [hintern]
  · let made := s.module.internSignature (signatureFor decl params ret)
    show ProgramState.mk (made.2.declareFunction decl.name made.1 (firstLinkage decl)).2
      (s.decls.addFunction decl.name (firstInfo decl made.2.functions.next)) s.journal = _
    rw [show made = _ from hintern]
    rfl

/-- A declaration of a known name changes at most a linkage, and any other adds a function without a body. -/
theorem declare_inv {decl : FunctionDecl} {s s' : ProgramState} {id : FuncId} (h : Gives (declare decl) s id s') :
    (∃ info f, s.decls.function? decl.name = some info ∧ id = info.id ∧ s.module.functions.get? id = some f ∧
      s' = s.redeclared id f decl.body.isSome) ∨
    (s.decls.function? decl.name = none ∧ id = s.module.functions.next ∧ ∃ params ret i signatures,
      decl.fixedTypes.map Prim.repr? = params.map some ∧ decl.ret.repr? = some ret ∧
      s.module.internSignature (signatureFor decl params ret) = (i, { s.module with signatures }) ∧
      s' = s.declared decl i signatures) := by
  unfold declare at h
  obtain ⟨params, _, hparams, h₁⟩ := gives_bind_iff.mp h
  obtain ⟨-, htypes, rfl⟩ := (settles_paramTypes decl _).of_run hparams
  obtain ⟨ret, _, hret, h₂⟩ := gives_bind_iff.mp h₁
  obtain ⟨hrepr, rfl⟩ := (settles_representation decl.ret decl.line _).of_run hret
  obtain ⟨_, _, hget, h₃⟩ := gives_bind_iff.mp h₂
  obtain ⟨rfl, rfl⟩ := gives_get_iff.mp hget
  split at h₃
  · next info hinfo =>
    obtain ⟨hid, f, hf, hs'⟩ := redeclare_inv h₃
    exact .inl ⟨info, f, hinfo, hid, hf, hs'⟩
  · next hnew =>
    obtain ⟨hid, i, signatures, hintern, hs'⟩ := declareNew_inv h₃
    exact .inr ⟨hnew, hid, params, ret, i, signatures, htypes, hrepr, hintern, hs'⟩

/-- Lowering a function is declaring it, and then lowering the body if there is one. -/
theorem function_inv {decl : FunctionDecl} {s s' : ProgramState} {u : Unit} (h : Gives (function decl) s u s') :
    ∃ id s₁, Gives (declare decl) s id s₁ ∧
      ((decl.body = none ∧ s' = s₁) ∨ ∃ ss, decl.body = some ss ∧ Gives (body id decl ss) s₁ u s') := by
  unfold function at h
  obtain ⟨id, s₁, hdeclare, hbody⟩ := gives_bind_iff.mp h
  refine ⟨id, s₁, hdeclare, ?_⟩
  cases hss : decl.body with
  | none =>
    rw [hss] at hbody
    obtain ⟨-, rfl⟩ := gives_pure_iff.mp hbody
    exact .inl ⟨rfl, rfl⟩
  | some ss =>
    rw [hss] at hbody
    exact .inr ⟨ss, rfl, hbody⟩

/-- A body adds to the data of the module, and the function that it is put back into keeps its name, its signature
and its linkage. -/
theorem body_inv {gs : List Lang.Binding} {fs : List FunctionDecl} {decl : FunctionDecl} {id : FuncId}
    {ss : List Lang.Stmt} {s s' : ProgramState} {u : Unit} (hdeclared : Declared gs fs decl id s)
    (hss : decl.body = some ss) (hgives : Gives (body id decl ss) s u s') :
    ∃ f f' data journal, s.module.functions.get? id = some f ∧ f'.name = f.name ∧ f'.signature = f.signature ∧
      f'.linkage = f.linkage ∧
      s' = { module := { s.module with functions := s.module.functions.set id f', data }
             decls := s.decls.markDefined decl.name, journal } := by
  obtain ⟨-, i, linkage, sig, b, journal, hget, hsig, hdescribes, hemits, rfl⟩ :=
    (settles_body hdeclared hss).of_run hgives
  have hin := Declarations.in_markDefined hdeclared.holds.decls decl.name
  obtain ⟨-, hext⟩ := hemits.finished hsig hin hdescribes
  obtain ⟨data, hmodule, -⟩ := hext.module
  refine ⟨_, b.func, data, journal, hget, hext.func.name, hext.func.signature, hext.linkage, ?_⟩
  unfold Ir.Body.close
  rw [hmodule]
  rfl

/-- What holds of an empty module, and is kept by every declaration that is lowered, holds of all of them. -/
theorem of_declarations {I : List Lang.Binding → List FunctionDecl → ProgramState → Prop} {p : Program} {name : String}
    {journal : Journal} {s : ProgramState} {u : Unit} (hstart : I [] [] (.start name journal))
    (hglobal : ∀ gs b s u s', Holds gs [] s → I gs [] s → Gives (global b) s u s' → I (gs ++ [b]) [] s')
    (hfunction : ∀ gs fs f s u s', Holds gs fs s → I gs fs s → Gives (function f) s u s' → I gs (fs ++ [f]) s')
    (hgives : Gives (declarations p) (.start name journal) u s) : I p.globals p.functions s := by
  obtain ⟨_, s₁, hglobals, hfunctions⟩ := gives_bind_iff.mp hgives
  have h₁ := gives_forM (I := fun gs s => Holds gs [] s ∧ I gs [] s)
    (fun gs b s u s' h hb => ⟨((settles_global h.1 b).of_run hb).2, hglobal gs b s u s' h.1 h.2 hb⟩)
    ⟨Holds.empty name journal, hstart⟩ hglobals
  exact (gives_forM (I := fun fs s => Holds p.globals fs s ∧ I p.globals fs s)
    (fun fs f s u s' h hf => ⟨((settles_function h.1 f).of_run hf).2, hfunction p.globals fs f s u s' h.1 h.2 hf⟩)
    h₁ hfunctions).2

end LowerProgram

/-- A module that was lowered is what the declarations of its program leave. -/
theorem gives_of_lower {p : Program} {name : String} {validate : Bool} {journal : Journal} {m : Module}
    (h : (lower p name validate journal).1 = .ok m) :
    ∃ s, Gives (LowerProgram.declarations p) (.start name journal) () s ∧ Holds p.globals p.functions s ∧
      s.module = m := by
  rcases lower_run p name journal with ⟨-, s, rs, hgives, hholds, -, hlower⟩ | ⟨-, e, rs, -, hlower⟩
  · rw [hlower validate] at h
    cases h
    exact ⟨s, hgives, hholds, rfl⟩
  · rw [hlower validate] at h
    cases h

end SsaCompiler.Lowering
