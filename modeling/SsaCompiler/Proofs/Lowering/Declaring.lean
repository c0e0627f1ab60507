import SsaCompiler.Proofs.Lowering.Statement
import SsaCompiler.Lowering.Program

/-!
# What declarations leave behind

`Holds gs fs s` says what is true of the state of lowering after the globals `gs` and the function
declarations `fs`: the known names are those that were declared, with their types; each stands for an
entry of the module; and every function of the module is either only declared or finished.
-/

namespace SsaCompiler.Lowering

open Lang (Prim Binding Stmt FunctionDecl Names)
open Ir (Body Function Module Signature Finished FuncId)

/-! ## Tables of names -/

namespace Declarations

theorem function?_addFunction (d : Declarations) (n name : String) (info : FunctionInfo) :
    (d.addFunction n info).function? name =
      (d.function? name).or (if name = n then some info else none) := by
  unfold function? addFunction
  rw [List.lookup_append, List.lookup_cons]
  congr 1
  by_cases h : name = n
  · rw [if_pos h, beq_iff_eq.mpr h]
  · rw [if_neg h, beq_eq_false_iff_ne.mpr h]
    rfl

theorem function?_addFunction_self {d : Declarations} {n : String} (h : d.function? n = none) (info : FunctionInfo) :
    (d.addFunction n info).function? n = some info := by
  rw [function?_addFunction, h, if_pos rfl, Option.none_or]

theorem function?_addFunction_of_ne (d : Declarations) {n name : String} (h : name ≠ n) (info : FunctionInfo) :
    (d.addFunction n info).function? name = d.function? name := by
  rw [function?_addFunction, if_neg h, Option.or_none]

theorem global?_addGlobal (d : Declarations) (n name : String) (g : GlobalInfo) :
    (d.addGlobal n g).global? name = (d.global? name).or (if name = n then some g else none) := by
  unfold global? addGlobal
  rw [List.lookup_append, List.lookup_cons]
  congr 1
  by_cases h : name = n
  · rw [if_pos h, beq_iff_eq.mpr h]
  · rw [if_neg h, beq_eq_false_iff_ne.mpr h]
    rfl

theorem global?_addGlobal_self {d : Declarations} {n : String} (h : d.global? n = none) (g : GlobalInfo) :
    (d.addGlobal n g).global? n = some g := by
  rw [global?_addGlobal, h, if_pos rfl, Option.none_or]

theorem global?_addGlobal_of_ne (d : Declarations) {n name : String} (h : name ≠ n) (g : GlobalInfo) :
    (d.addGlobal n g).global? name = d.global? name := by
  rw [global?_addGlobal, if_neg h, Option.or_none]

theorem function?_markDefined (d : Declarations) (n name : String) :
    (d.markDefined n).function? name =
      (d.function? name).map fun info => if name = n then { info with defined := true } else info := by
  unfold function? markDefined
  induction d.functions with
  | nil => rfl
  | cons entry rest ih =>
    obtain ⟨m, info⟩ := entry
    rw [List.map_cons, List.lookup_cons, List.lookup_cons, ih]
    cases h : name == m with
    | true => rw [eq_of_beq h]; rfl
    | false => rfl

theorem function?_markDefined_self (d : Declarations) (n : String) :
    (d.markDefined n).function? n = (d.function? n).map fun info => { info with defined := true } := by
  rw [function?_markDefined]
  simp only [if_pos]

theorem function?_markDefined_of_ne (d : Declarations) {n name : String} (h : name ≠ n) :
    (d.markDefined n).function? name = d.function? name := by
  rw [function?_markDefined]
  simp only [if_neg h, Option.map_id_fun', id_eq]

/-- Marking changes nothing but the mark. -/
theorem function?_of_markDefined {d : Declarations} {n name : String} {info : FunctionInfo}
    (h : (d.markDefined n).function? name = some info) :
    ∃ info' defined, d.function? name = some info' ∧ info = { info' with defined } := by
  rw [function?_markDefined] at h
  obtain ⟨info', hinfo', rfl⟩ := Option.map_eq_some_iff.mp h
  by_cases hn : name = n
  · exact ⟨info', true, hinfo', if_pos hn⟩
  · exact ⟨info', info'.defined, hinfo', if_neg hn⟩

/-- A new global stands for an entry of its type and name. -/
theorem In.addGlobal {d : Declarations} {m : Module} (h : d.In m) {n : String} {g : GlobalInfo} {global : Ir.Global}
    (hnew : d.global? n = none) (hget : m.globals.get? g.id = some global) (hty : g.ty.repr? = some global.ty)
    (hname : global.name = n) : (d.addGlobal n g).In m where
  globals := by
    intro name g' hg
    by_cases hn : name = n
    · rw [hn, global?_addGlobal_self hnew] at hg
      cases hg
      exact ⟨global, hget, hty⟩
    · rw [global?_addGlobal_of_ne d hn] at hg
      exact h.globals name g' hg
  functions := h.functions
  globalNames := by
    intro name g' hg
    by_cases hn : name = n
    · rw [hn, global?_addGlobal_self hnew] at hg
      cases hg
      exact ⟨global, hget, hname.trans hn.symm⟩
    · rw [global?_addGlobal_of_ne d hn] at hg
      exact h.globalNames name g' hg
  functionNames := h.functionNames

/-- A new function stands for an entry of its signature and name. -/
theorem In.addFunction {d : Declarations} {m : Module} (h : d.In m) {n : String} {info : FunctionInfo}
    {f : Function} {s : Signature} (hnew : d.function? n = none) (hget : m.functions.get? info.id = some f)
    (hs : m.signatures.get? f.signature = some s) (hd : info.Describes s) (hname : f.name = n) :
    (d.addFunction n info).In m where
  globals := h.globals
  functions := by
    intro name info' hinfo
    by_cases hn : name = n
    · rw [hn, function?_addFunction_self hnew] at hinfo
      cases hinfo
      exact ⟨s, Module.signatureOf_eq_ok.mpr ⟨f, hget, hs⟩, hd⟩
    · rw [function?_addFunction_of_ne d hn] at hinfo
      exact h.functions name info' hinfo
  globalNames := h.globalNames
  functionNames := by
    intro name info' hinfo
    by_cases hn : name = n
    · rw [hn, function?_addFunction_self hnew] at hinfo
      cases hinfo
      exact ⟨f, hget, hname.trans hn.symm⟩
    · rw [function?_addFunction_of_ne d hn] at hinfo
      exact h.functionNames name info' hinfo

end Declarations

/-- Marking a function keeps what calls need to know. -/
theorem Declarations.match_markDefined {d : Declarations} {Γ : Names} (h : d.Match Γ) (n : String) :
    (d.markDefined n).Match Γ where
  globals := h.globals
  declares := by
    intro name info f hinfo hf
    obtain ⟨info', defined, hinfo', rfl⟩ := function?_of_markDefined hinfo
    have hd := h.declares name info' f hinfo' hf
    exact ⟨hd.params, hd.ret, hd.variadic⟩
  functions := by
    intro name
    rw [function?_markDefined, Option.map_eq_none_iff]
    exact h.functions name

theorem Declarations.in_markDefined {d : Declarations} {m : Module} (h : d.In m) (n : String) :
    (d.markDefined n).In m where
  globals := h.globals
  functions := by
    intro name info hinfo
    obtain ⟨info', defined, hinfo', rfl⟩ := function?_of_markDefined hinfo
    obtain ⟨s, hs, hd⟩ := h.functions name info' hinfo'
    exact ⟨s, hs, hd.params, hd.ret, hd.variadic, hd.storable⟩
  globalNames := h.globalNames
  functionNames := by
    intro name info hinfo
    obtain ⟨info', defined, hinfo', rfl⟩ := function?_of_markDefined hinfo
    exact h.functionNames name info' hinfo'

/-- What is found by name after one more. -/
theorem find?_snoc {α : Type} (f : α → String) (xs : List α) (a : α) (name : String) :
    (xs ++ [a]).find? (f · = name) = (xs.find? (f · = name)).or (if name = f a then some a else none) := by
  rw [List.find?_append, List.find?_singleton]
  by_cases h : name = f a
  · simp [h]
  · simp [h, Ne.symm h]

/-! ## The state between declarations -/

/-- Whether a function of a module is what its body says, the names it sees being declared by then. -/
def HasBody (gs : List Binding) (fs : List FunctionDecl) (m : Module) (decl : FunctionDecl) (ss : List Stmt) :
    Prop :=
  ∃ (Γ : Names) (d : Declarations) (n : Module) (b : Body) (i : Ir.SigId) (linkage : Ir.Linkage)
    (sig : Signature) (id : FuncId),
    (Γ.globals = gs ∧ ∀ name f, Γ.function? name = some f → fs.find? (·.name = name) = some f) ∧
      (d.Match Γ ∧ d.In n ∧ n.signatures.get? i = some sig ∧ Describes decl sig) ∧
      BodyEmits d decl ss (opened n decl.name i linkage sig) b ∧
      b.module.Within m ∧ m.functions.get? id = some b.func

/-- A later module has the body as well if it keeps the functions that are defined. -/
theorem HasBody.mono {gs : List Binding} {fs : List FunctionDecl} {m n : Module} {decl : FunctionDecl}
    {ss : List Stmt} (h : HasBody gs fs m decl ss) (later : List FunctionDecl) (hm : m.Within n)
    (hk : ∀ i f, m.functions.get? i = some f → f.isDefined = true → n.functions.get? i = some f) :
    HasBody gs (fs ++ later) n decl ss := by
  obtain ⟨Γ, d, k, b, i, linkage, sig, id, ⟨hgs, hfs⟩, ⟨hmatch, hin, hsig, hdecl⟩, hemits, hwithin, hget⟩ := h
  obtain ⟨hfin, -⟩ := hemits.finished hsig hin hdecl
  have hdef : b.func.isDefined = true := by
    unfold Function.isDefined
    rw [hfin.entry]
    rfl
  refine ⟨Γ, d, k, b, i, linkage, sig, id, ⟨hgs, ?_⟩, ⟨hmatch, hin, hsig, hdecl⟩, hemits, hwithin.trans hm,
    hk id b.func hget hdef⟩
  intro name f hf
  rw [List.find?_append, hfs name f hf, Option.some_or]

/-- What is true after some globals and some function declarations. -/
structure Holds (gs : List Binding) (fs : List FunctionDecl) (s : ProgramState) : Prop where
  decls : s.decls.In s.module
  types : ∀ name, (s.decls.global? name).map (·.ty) = (gs.find? (·.name = name)).map (·.ty)
  /-- A global of the module was declared. -/
  globals : ∀ i g, s.module.globals.get? i = some g → ∃ b ∈ gs, b.name = g.name
  known : ∀ name, s.decls.function? name = none ↔ ∀ f ∈ fs, f.name ≠ name
  agree : ∀ f ∈ fs, ∀ info, s.decls.function? f.name = some info → info.Declares f
  defined : ∀ name info, s.decls.function? name = some info →
    (info.defined = true ↔ ∃ f ∈ fs, f.name = name ∧ f.body.isSome = true)
  /-- A function of the module is known by its name. -/
  functions : ∀ i f, s.module.functions.get? i = some f →
    ∃ info, s.decls.function? f.name = some info ∧ info.id = i ∧
      (info.defined = false → f = .declared f.name f.signature f.linkage) ∧
      (info.defined = true → ∃ sig, Finished s.module sig f)
  bodies : ∀ f ∈ fs, ∀ ss, f.body = some ss → HasBody gs fs s.module f ss

namespace Holds

variable {gs : List Binding} {fs : List FunctionDecl} {s : ProgramState}

theorem empty (name : String) (journal : Journal) :
    Holds [] [] { module := .empty name, decls := .empty, journal } where
  decls := ⟨by rintro name g ⟨⟩, by rintro name info ⟨⟩, by rintro name g ⟨⟩, by rintro name info ⟨⟩⟩
  types := fun name => rfl
  globals := fun i g hg => absurd (Ir.Table.index_lt_of_get? hg) (Nat.not_lt_zero _)
  known := fun name => ⟨by rintro - f ⟨⟩, fun _ => rfl⟩
  agree := by rintro f ⟨⟩
  defined := by rintro name info ⟨⟩
  functions := fun i f hf => absurd (Ir.Table.index_lt_of_get? hf) (Nat.not_lt_zero _)
  bodies := by rintro f ⟨⟩

/-- The names that a body sees. -/
theorem toMatch (h : Holds gs fs s) (locals : List (String × Prim)) :
    s.decls.Match { globals := gs, functions := fs, locals } where
  globals := h.types
  declares := by
    intro name info f hinfo hf
    have hname : f.name = name := by simpa using List.find?_some hf
    subst hname
    exact h.agree f (List.mem_of_find?_eq_some hf) info hinfo
  functions := by
    intro name
    rw [h.known]
    unfold Names.function?
    rw [List.find?_eq_none]
    simp

/-- What was reported does not matter. -/
theorem journal (h : Holds gs fs s) (j : Journal) : Holds gs fs { s with journal := j } :=
  ⟨h.decls, h.types, h.globals, h.known, h.agree, h.defined, h.functions, h.bodies⟩

/-- A function that stays in a later module is known there if its name still stands for it. -/
theorem known_of_within (h : Holds gs fs s) {d : Declarations} {n : Module} (hm : s.module.Within n) {i : FuncId}
    {f : Function} (hf : s.module.functions.get? i = some f)
    (hd : d.function? f.name = s.decls.function? f.name) :
    ∃ info, d.function? f.name = some info ∧ info.id = i ∧
      (info.defined = false → f = .declared f.name f.signature f.linkage) ∧
      (info.defined = true → ∃ sig, Finished n sig f) := by
  obtain ⟨info, hinfo, hid, hdeclared, hdefined⟩ := h.functions i f hf
  refine ⟨info, hd.trans hinfo, hid, hdeclared, fun hdef => ?_⟩
  obtain ⟨sig, hfin⟩ := hdefined hdef
  exact ⟨sig, hfin.mono hm⟩

/-! ### Globals -/

/-- A new name is new to the module too, so the module takes the global. -/
theorem module_addGlobal (h : Holds gs fs s) {name : String} (hnew : gs.find? (·.name = name) = none)
    {ty : Ir.Ty} {c : Ir.Constant} (hc : c.ty = ty) :
    s.module.addGlobal name ty .exported (some c) =
      .ok (s.module.globals.next,
        { s.module with globals := s.module.globals.push ⟨name, ty, .exported, some c⟩ }) := by
  have hfind : s.module.findGlobal? name = none := by
    refine Ir.Table.findId?_eq_none_iff.mpr fun i g hget => decide_eq_false fun hname => ?_
    obtain ⟨b, hb, hname'⟩ := h.globals i g hget
    have hne := List.find?_eq_none.mp hnew b hb
    exact hne (decide_eq_true (hname'.trans hname))
  unfold Module.addGlobal
  rw [hfind]
  simp [Option.filter, hc]

/-- A global that is new. -/
theorem addGlobal (h : Holds gs [] s) {b : Binding} {ty : Ir.Ty} (hnew : gs.find? (·.name = b.name) = none)
    (hty : b.ty.repr? = some ty) (linkage : Ir.Linkage) (init : Option Ir.Constant) :
    Holds (gs ++ [b]) []
      { s with
        module := { s.module with globals := s.module.globals.push ⟨b.name, ty, linkage, init⟩ }
        decls := s.decls.addGlobal b.name ⟨s.module.globals.next, b.ty⟩ } := by
  have hm : s.module.Within { s.module with globals := s.module.globals.push ⟨b.name, ty, linkage, init⟩ } :=
    ⟨Ir.Table.within_push _ _, .refl _, .refl _, fun i f hf => ⟨f, hf, rfl, rfl⟩⟩
  have hnone : s.decls.global? b.name = none := by
    have ht := h.types b.name
    rw [hnew] at ht
    exact Option.map_eq_none_iff.mp ht
  refine
    { decls := (h.decls.mono hm).addGlobal hnone (Ir.Table.get?_push_next _ _) hty rfl
      types := ?types
      globals := ?globals
      known := h.known
      agree := h.agree
      defined := h.defined
      functions := fun i f hf => h.known_of_within hm hf rfl
      bodies := by rintro f ⟨⟩ }
  case types =>
    intro name
    rw [find?_snoc Binding.name, Declarations.global?_addGlobal, Option.map_or, Option.map_or, h.types]
    split <;> rfl
  case globals =>
    intro i g hg
    rw [Ir.Table.get?_push] at hg
    split at hg
    · cases hg
      exact ⟨b, List.mem_append_right _ List.mem_cons_self, rfl⟩
    · obtain ⟨c, hc, hname⟩ := h.globals i g hg
      exact ⟨c, List.mem_append_left _ hc, hname⟩

end Holds

/-! ### Functions -/

/-- The declaration without its body. -/
def prototype (f : FunctionDecl) : FunctionDecl :=
  { f with body := none }

/-- What a declaration leaves behind before its body. -/
structure Declared (gs : List Binding) (fs : List FunctionDecl) (decl : FunctionDecl) (id : FuncId)
    (s : ProgramState) : Prop where
  holds : Holds gs (fs ++ [prototype decl]) s
  bodies : ∀ later, ∀ f ∈ fs, ∀ ss, f.body = some ss → HasBody gs (fs ++ later) s.module f ss
  known : ∃ info, s.decls.function? decl.name = some info ∧ info.id = id ∧ info.Declares decl ∧
    (decl.body.isSome = true → info.defined = false)

theorem forall_mem_snoc {fs : List FunctionDecl} {g : FunctionDecl} {P : FunctionDecl → Prop} :
    (∀ f ∈ fs ++ [g], P f) ↔ (∀ f ∈ fs, P f) ∧ P g := by
  simp only [List.mem_append, List.mem_singleton, or_imp, forall_and, forall_eq]

theorem exists_mem_snoc {fs : List FunctionDecl} {g : FunctionDecl} {P : FunctionDecl → Prop} :
    (∃ f ∈ fs ++ [g], P f) ↔ (∃ f ∈ fs, P f) ∨ P g := by
  simp only [List.mem_append, List.mem_singleton, or_and_right, exists_or, exists_eq_left]

/-- A prototype defines nothing. -/
theorem defined_snoc_prototype {fs : List FunctionDecl} {decl : FunctionDecl} {name : String} :
    (∃ f ∈ fs ++ [prototype decl], f.name = name ∧ f.body.isSome = true) ↔
      ∃ f ∈ fs, f.name = name ∧ f.body.isSome = true := by
  rw [exists_mem_snoc]
  refine ⟨?_, .inl⟩
  rintro (h | ⟨-, ⟨⟩⟩)
  exact h

/-- A function that is new is known by its prototype. -/
theorem Holds.addFunction {gs : List Binding} {fs : List FunctionDecl} {s : ProgramState} (h : Holds gs fs s)
    {decl : FunctionDecl} (hnew : s.decls.function? decl.name = none) {n : Module} (hw : s.module.Within n)
    (hglobals : n.globals = s.module.globals) {i : Ir.SigId} {linkage : Ir.Linkage}
    (hfunctions : n.functions = s.module.functions.push (.declared decl.name i linkage)) {sig : Signature}
    (hsig : n.signatures.get? i = some sig) {info : FunctionInfo} (hid : info.id = s.module.functions.next)
    (hdesc : info.Describes sig) (hdeclares : info.Declares decl) (hundef : info.defined = false) :
    Declared gs fs decl info.id { s with module := n, decls := s.decls.addFunction decl.name info } := by
  have hself := Declarations.function?_addFunction_self hnew info
  have hother {name : String} (hn : name ≠ decl.name) := s.decls.function?_addFunction_of_ne hn info
  have hfresh : ∀ f ∈ fs, f.name ≠ decl.name := (h.known decl.name).mp hnew
  have hget : n.functions.get? info.id = some (.declared decl.name i linkage) := by
    rw [hfunctions, hid]
    exact Ir.Table.get?_push_next _ _
  have hbodies : ∀ later, ∀ f ∈ fs, ∀ ss, f.body = some ss → HasBody gs (fs ++ later) n f ss := by
    intro later f hf ss hss
    refine (h.bodies f hf ss hss).mono later hw fun j g hg _ => ?_
    rw [hfunctions]
    exact Ir.Table.within_push _ _ _ _ hg
  refine ⟨?_, hbodies, info, hself, rfl, hdeclares, fun _ => hundef⟩
  refine
    { decls := (h.decls.mono hw).addFunction hnew hget hsig hdesc rfl
      types := h.types
      globals := fun j g hg => h.globals j g (by rw [← hglobals]; exact hg)
      known := ?known
      agree := forall_mem_snoc.mpr ⟨?older, ?newer⟩
      defined := ?defined
      functions := ?entries
      bodies := forall_mem_snoc.mpr ⟨hbodies _, by rintro ss ⟨⟩⟩ }
  case known =>
    intro name
    rw [forall_mem_snoc]
    by_cases hn : name = decl.name
    · rw [hn, hself]
      exact ⟨by rintro ⟨⟩, fun hall => absurd rfl hall.2⟩
    · rw [hother hn, h.known]
      exact ⟨fun hall => ⟨hall, fun heq => hn heq.symm⟩, fun hall => hall.1⟩
  case older =>
    intro f hf info' hinfo
    rw [hother (hfresh f hf)] at hinfo
    exact h.agree f hf info' hinfo
  case newer =>
    intro info' hinfo
    rw [show (prototype decl).name = decl.name from rfl, hself] at hinfo
    cases hinfo
    exact ⟨hdeclares.params, hdeclares.ret, hdeclares.variadic⟩
  case defined =>
    intro name info' hinfo
    rw [defined_snoc_prototype]
    by_cases hn : name = decl.name
    · rw [hn, hself] at hinfo
      cases hinfo
      rw [hundef]
      refine ⟨by rintro ⟨⟩, ?_⟩
      rintro ⟨f, hf, hname, -⟩
      exact absurd (hname.trans hn) (hfresh f hf)
    · rw [hother hn] at hinfo
      exact h.defined name info' hinfo
  case entries =>
    intro j f hf
    rw [hfunctions, Ir.Table.get?_push] at hf
    split at hf
    · next hj =>
      cases hf
      exact ⟨info, hself, hid.trans hj.symm, fun _ => rfl, by rw [hundef]; rintro ⟨⟩⟩
    · refine h.known_of_within hw hf (hother ?_)
      intro heq
      obtain ⟨info', hinfo, -⟩ := h.functions j f hf
      rw [heq, hnew] at hinfo
      cases hinfo

theorem Holds.declareNew {gs : List Binding} {fs : List FunctionDecl} {s : ProgramState} (h : Holds gs fs s)
    {decl : FunctionDecl} (hnew : s.decls.function? decl.name = none) {params : List Ir.Ty} {ret : Ir.Ty}
    (hparams : decl.fixedTypes.map Prim.repr? = params.map some)
    (hstorable : ∀ ty ∈ decl.fixedTypes, ty.isStorable = true) (hret : decl.ret.repr? = some ret) :
    ∃ id s', Gives (LowerProgram.declareNew decl params ret) s id s' ∧ Declared gs fs decl id s' := by
  let sig : Signature := { params, ret, variadic := decl.isVariadic, callConv := .systemV }
  let info : FunctionInfo :=
    { id := s.module.functions.next, params := decl.fixedTypes, variadic := decl.isVariadic, ret := decl.ret
      visible := decl.isVisible, defined := false, line := decl.line }
  obtain ⟨signatures, hm, hwithin, hsig⟩ := s.module.internSignature_eq sig
  generalize hintern : s.module.internSignature sig = interned at hm hsig
  obtain ⟨i, m⟩ := interned
  subst hm
  let func : Function := .declared decl.name i (LowerProgram.firstLinkage decl)
  let n : Module := { s.module with signatures, functions := s.module.functions.push func }
  have hgives : Gives (LowerProgram.declareNew decl params ret) s info.id
      { s with module := n, decls := s.decls.addFunction decl.name info } := by
    unfold Gives outcome
    let made := s.module.internSignature sig
    show (Except.ok made.2.functions.next,
      ProgramState.mk (made.2.declareFunction decl.name made.1 (LowerProgram.firstLinkage decl)).2
        (s.decls.addFunction decl.name { info with id := made.2.functions.next }) s.journal) = _
    rw [show made = _ from hintern]
    rfl
  have hw : s.module.Within n := by
    refine ⟨.refl _, hwithin, .refl _, ?_⟩
    intro j f hf
    exact ⟨f, Ir.Table.within_push _ _ _ _ hf, rfl, rfl⟩
  have hdesc : info.Describes sig := ⟨hparams, hret, rfl, hstorable⟩
  exact ⟨info.id, _, hgives, h.addFunction hnew hw rfl rfl hsig rfl hdesc ⟨rfl, rfl, rfl⟩ rfl⟩

/-- Replacing a function that is not defined keeps those that are. -/
theorem get?_set_of_isDefined {m : Module} {id j : FuncId} {f g k : Function}
    (hf : m.functions.get? id = some f) (hg : f.isDefined = true → g = f) (hk : m.functions.get? j = some k)
    (hdef : k.isDefined = true) : (m.functions.set id g).get? j = some k := by
  by_cases hj : j = id
  · subst hj
    rw [hf] at hk
    cases hk
    rw [hg hdef]
    exact Ir.Table.get?_set_self f hf
  · rw [Ir.Table.get?_set_of_ne g hj]
    exact hk

/-- A function whose declarations had no body is not defined. -/
theorem defined_of_isDefined {info : FunctionInfo} {f : Function}
    (h : info.defined = false → f = .declared f.name f.signature f.linkage) (hdef : f.isDefined = true) :
    info.defined = true := by
  cases hinfo : info.defined with
  | true => rfl
  | false =>
    rw [h hinfo] at hdef
    cases hdef

/-- A function that is declared again, and gets another linkage unless it is defined. -/
theorem Holds.setFunction {gs : List Binding} {fs : List FunctionDecl} {s : ProgramState} (h : Holds gs fs s)
    {decl : FunctionDecl} {info : FunctionInfo} (hinfo : s.decls.function? decl.name = some info)
    (hdecl : info.Declares decl) (hsingle : decl.body.isSome = true → info.defined = false) {f f' : Function}
    (hf : s.module.functions.get? info.id = some f) (hname : f'.name = f.name) (hsig : f'.signature = f.signature)
    (hsame : info.defined = true → f' = f)
    (hdeclared : info.defined = false → f' = .declared f'.name f'.signature f'.linkage) :
    Declared gs fs decl info.id
      { s with module := { s.module with functions := s.module.functions.set info.id f' } } := by
  obtain ⟨g, hg, hgname⟩ := h.decls.functionNames _ info hinfo
  rw [hf] at hg
  cases hg
  obtain ⟨info', hinfo', -, hdeclared', hfin⟩ := h.functions _ f hf
  rw [hgname, hinfo] at hinfo'
  cases hinfo'
  have hw := s.module.within_setFunction hf hname hsig
  have hbodies : ∀ later, ∀ g ∈ fs, ∀ ss, g.body = some ss →
      HasBody gs (fs ++ later) { s.module with functions := s.module.functions.set info.id f' } g ss := by
    intro later g hg ss hss
    refine (h.bodies g hg ss hss).mono later hw fun j k hk hdef => get?_set_of_isDefined hf ?_ hk hdef
    exact fun hfdef => hsame (defined_of_isDefined hdeclared' hfdef)
  refine ⟨?_, hbodies, info, hinfo, rfl, hdecl, hsingle⟩
  refine
    { decls := h.decls.mono hw
      types := h.types
      globals := h.globals
      known := ?known
      agree := forall_mem_snoc.mpr ⟨h.agree, ?agree⟩
      defined := fun name info' hinfo' => (h.defined name info' hinfo').trans defined_snoc_prototype.symm
      functions := ?entries
      bodies := forall_mem_snoc.mpr ⟨hbodies _, by rintro ss ⟨⟩⟩ }
  case known =>
    intro name
    rw [forall_mem_snoc, h.known]
    refine ⟨fun hall => ⟨hall, ?_⟩, fun hall => hall.1⟩
    intro heq
    rw [← h.known, ← heq, show (prototype decl).name = decl.name from rfl, hinfo] at hall
    cases hall
  case agree =>
    intro info' hinfo'
    rw [show (prototype decl).name = decl.name from rfl, hinfo] at hinfo'
    cases hinfo'
    exact ⟨hdecl.params, hdecl.ret, hdecl.variadic⟩
  case entries =>
    intro j k hk
    by_cases hj : j = info.id
    · subst hj
      rw [Ir.Table.get?_set_self f' hf] at hk
      cases hk
      refine ⟨info, by rw [hname, hgname]; exact hinfo, rfl, hdeclared, fun hdef => ?_⟩
      obtain ⟨sig, hsig⟩ := hfin hdef
      rw [hsame hdef] at hw ⊢
      exact ⟨sig, hsig.mono hw⟩
    · rw [Ir.Table.get?_set_of_ne f' hj] at hk
      exact h.known_of_within hw hk rfl

theorem Holds.redeclare {gs : List Binding} {fs : List FunctionDecl} {s : ProgramState} (h : Holds gs fs s)
    {decl : FunctionDecl} {info : FunctionInfo} (hinfo : s.decls.function? decl.name = some info)
    (hdecl : info.Declares decl) (hsingle : decl.body.isSome = true → info.defined = false) :
    ∃ functions,
      (s.module.functions.modify info.id fun f =>
        { f with linkage := LowerProgram.laterLinkage f.linkage decl.body.isSome }) = .ok functions ∧
      Declared gs fs decl info.id { s with module := { s.module with functions } } := by
  obtain ⟨f, hf, hname⟩ := h.decls.functionNames _ info hinfo
  obtain ⟨info', hinfo', -, hdeclared, -⟩ := h.functions _ f hf
  rw [hname, hinfo] at hinfo'
  cases hinfo'
  let f' : Function := { f with linkage := LowerProgram.laterLinkage f.linkage decl.body.isSome }
  have hsame : info.defined = true → f' = f := by
    intro hdef
    have hbody : decl.body.isSome = false := by
      refine Bool.eq_false_iff.mpr fun hsome => ?_
      rw [hsingle hsome] at hdef
      cases hdef
    show { f with linkage := LowerProgram.laterLinkage f.linkage decl.body.isSome } = f
    rw [hbody]
    rfl
  have hdeclared' : info.defined = false → f' = .declared f'.name f'.signature f'.linkage := by
    intro hdef
    have heq := hdeclared hdef
    show { f with linkage := _ } = _
    rw [heq]
    rfl
  exact ⟨s.module.functions.set info.id f', Ir.Table.modify_eq_ok.mpr ⟨f, hf, rfl⟩,
    h.setFunction hinfo hdecl hsingle hf rfl rfl hsame hdeclared'⟩

/-! ### Bodies -/

/-- A body sees its own declaration as well. -/
theorem match_prototype {d : Declarations} {gs : List Binding} {fs : List FunctionDecl} {decl : FunctionDecl}
    {locals : List (String × Prim)}
    (h : d.Match { globals := gs, functions := fs ++ [prototype decl], locals }) :
    d.Match { globals := gs, functions := fs ++ [decl], locals } := by
  have hfind (name : String) (g : FunctionDecl) (hg : g.name = decl.name) :
      (fs ++ [g]).find? (·.name = name) =
        (fs.find? (·.name = name)).or (if name = decl.name then some g else none) := by
    rw [find?_snoc FunctionDecl.name, hg]
  refine ⟨h.globals, ?_, ?_⟩
  · intro name info f hinfo hf
    have hproto : ∀ f, d.function? name = some info →
        (fs ++ [prototype decl]).find? (·.name = name) = some f → info.Declares f := h.declares name info
    unfold Names.function? at hf
    rw [hfind name decl rfl] at hf
    rw [hfind name (prototype decl) rfl] at hproto
    cases hold : fs.find? (·.name = name) with
    | some g =>
      rw [hold, Option.some_or] at hf hproto
      exact hproto f hinfo hf
    | none =>
      rw [hold, Option.none_or] at hf hproto
      by_cases hn : name = decl.name
      · rw [if_pos hn] at hf hproto
        cases hf
        have hd := hproto (prototype decl) hinfo rfl
        exact ⟨hd.params, hd.ret, hd.variadic⟩
      · rw [if_neg hn] at hf
        cases hf
  · intro name
    rw [h.functions]
    show (fs ++ [prototype decl]).find? (·.name = name) = none ↔ (fs ++ [decl]).find? (·.name = name) = none
    rw [hfind name (prototype decl) rfl, hfind name decl rfl]
    by_cases hn : name = decl.name <;> simp [hn]

namespace Declared

variable {gs : List Binding} {fs : List FunctionDecl} {decl : FunctionDecl} {id : FuncId} {s : ProgramState}
  {ss : List Stmt}

/-- A function that gets a body was only declared. -/
theorem entry (h : Declared gs fs decl id s) (hss : decl.body = some ss) :
    ∃ i linkage sig, s.module.functions.get? id = some (.declared decl.name i linkage) ∧
      s.module.signatures.get? i = some sig ∧ Describes decl sig := by
  obtain ⟨info, hinfo, rfl, hdecl, hundef⟩ := h.known
  obtain ⟨sig, hsig, hdesc⟩ := h.holds.decls.functions _ info hinfo
  obtain ⟨f, hf, hname⟩ := h.holds.decls.functionNames _ info hinfo
  obtain ⟨info', hinfo', -, hdeclared, -⟩ := h.holds.functions _ f hf
  rw [hname, hinfo] at hinfo'
  cases hinfo'
  obtain ⟨g, hg, hget⟩ := Module.signatureOf_eq_ok.mp hsig
  rw [hf] at hg
  cases hg
  refine ⟨f.signature, f.linkage, sig, ?_, hget, ?_, ?_⟩
  · rw [hf, ← hname]
    exact congrArg some (hdeclared (hundef (by rw [hss]; rfl)))
  · rw [← hdesc.params, hdecl.params, FunctionDecl.fixedTypes, List.map_map]
    rfl
  · rw [← hdecl.ret]
    exact hdesc.ret

/-- What a body sees. -/
theorem toMatch (h : Declared gs fs decl id s) :
    (s.decls.markDefined decl.name).Match
      { globals := gs, functions := fs ++ [decl], locals := decl.firstLocals } :=
  match_prototype (Declarations.match_markDefined (h.holds.toMatch _) decl.name)

/-- With its body the function counts as defined. -/
theorem defined (h : Declared gs fs decl id s) (hss : decl.body = some ss) {name : String} {info : FunctionInfo}
    (hinfo : (s.decls.markDefined decl.name).function? name = some info) :
    info.defined = true ↔ ∃ f ∈ fs ++ [decl], f.name = name ∧ f.body.isSome = true := by
  rw [exists_mem_snoc, hss]
  by_cases hn : name = decl.name
  · rw [hn, Declarations.function?_markDefined_self] at hinfo
    obtain ⟨info', -, rfl⟩ := Option.map_eq_some_iff.mp hinfo
    exact ⟨fun _ => .inr ⟨hn.symm, rfl⟩, fun _ => rfl⟩
  · rw [Declarations.function?_markDefined_of_ne _ hn] at hinfo
    rw [h.holds.defined name info hinfo, defined_snoc_prototype]
    refine ⟨.inl, ?_⟩
    rintro (hold | ⟨heq, -⟩)
    · exact hold
    · exact absurd heq.symm hn

theorem agree (h : Declared gs fs decl id s) :
    ∀ f ∈ fs ++ [decl], ∀ info, (s.decls.markDefined decl.name).function? f.name = some info →
      info.Declares f := by
  obtain ⟨hold, hnew⟩ := forall_mem_snoc.mp h.holds.agree
  refine forall_mem_snoc.mpr ⟨?_, ?_⟩
  · intro f hf info hinfo
    obtain ⟨info', defined, hinfo', rfl⟩ := Declarations.function?_of_markDefined hinfo
    have hd := hold f hf info' hinfo'
    exact ⟨hd.params, hd.ret, hd.variadic⟩
  · intro info hinfo
    obtain ⟨info', defined, hinfo', rfl⟩ := Declarations.function?_of_markDefined hinfo
    have hd := hnew info' hinfo'
    exact ⟨hd.params, hd.ret, hd.variadic⟩

/-- The function gets its body. -/
theorem close (h : Declared gs fs decl id s) (hss : decl.body = some ss) {i : Ir.SigId}
    {linkage : Ir.Linkage} {sig : Signature} {b : Body}
    (hget : s.module.functions.get? id = some (.declared decl.name i linkage))
    (hsig : s.module.signatures.get? i = some sig) (hdecl : Describes decl sig)
    (hb : BodyEmits (s.decls.markDefined decl.name) decl ss (opened s.module decl.name i linkage sig) b)
    (journal : Journal) :
    Holds gs (fs ++ [decl]) { module := b.close id, decls := s.decls.markDefined decl.name, journal } := by
  have hin := Declarations.in_markDefined h.holds.decls decl.name
  obtain ⟨hfin, hext⟩ := hb.finished hsig hin hdecl
  obtain ⟨data, hmodule, -⟩ := hext.module
  have hfunctions : b.module.functions = s.module.functions := by rw [hmodule]; rfl
  have hglobals : b.module.globals = s.module.globals := by rw [hmodule]; rfl
  have hget' : b.module.functions.get? id = some (.declared decl.name i linkage) := by
    rw [hfunctions]
    exact hget
  have hbn : b.module.Within (b.close id) := b.module.within_setFunction hget' hext.func.name hext.func.signature
  have hw : s.module.Within (b.close id) := hext.within.trans hbn
  have hself : (b.close id).functions.get? id = some b.func := Ir.Table.get?_set_self b.func hget'
  have hother : ∀ j, j ≠ id → (b.close id).functions.get? j = s.module.functions.get? j := by
    intro j hj
    rw [← hfunctions]
    exact Ir.Table.get?_set_of_ne b.func hj
  obtain ⟨info, hinfo, hid, -⟩ := h.known
  refine
    { decls := hin.mono hw
      types := h.holds.types
      globals := fun j g hg => h.holds.globals j g (by rw [← hglobals]; exact hg)
      known := ?known
      agree := h.agree
      defined := fun name info hinfo => h.defined hss hinfo
      functions := ?entries
      bodies := forall_mem_snoc.mpr ⟨?bodies, ?body⟩ }
  case known =>
    intro name
    rw [Declarations.function?_markDefined, Option.map_eq_none_iff, h.holds.known, forall_mem_snoc,
      forall_mem_snoc]
    rfl
  case entries =>
    intro j f hf
    by_cases hj : j = id
    · subst hj
      rw [hself] at hf
      cases hf
      refine ⟨{ info with defined := true }, ?_, hid, by rintro ⟨⟩, fun _ => ⟨sig, hfin.mono hbn⟩⟩
      show (s.decls.markDefined decl.name).function? b.func.name = _
      rw [show b.func.name = decl.name from hext.func.name, Declarations.function?_markDefined_self, hinfo,
        Option.map_some]
    · rw [hother j hj] at hf
      refine h.holds.known_of_within hw hf (Declarations.function?_markDefined_of_ne _ ?_)
      intro heq
      obtain ⟨info', hinfo', hid', -⟩ := h.holds.functions j f hf
      rw [heq, hinfo] at hinfo'
      cases hinfo'
      exact hj (hid'.symm.trans hid)
  case bodies =>
    intro f hf ss' hss'
    have hold := h.bodies [] f hf ss' hss'
    rw [List.append_nil] at hold
    refine hold.mono [decl] hw fun j g hg hdef => ?_
    rw [hother j ?_]
    · exact hg
    · rintro rfl
      rw [hget] at hg
      cases hg
      cases hdef
  case body =>
    intro ss' hss'
    rw [hss] at hss'
    cases hss'
    exact ⟨{ globals := gs, functions := fs ++ [decl], locals := decl.firstLocals }, _, s.module, b, i, linkage,
      sig, id, ⟨rfl, fun _ _ hf => hf⟩, ⟨h.toMatch, hin, hsig, hdecl⟩, hb, hbn, hself⟩

end Declared

end SsaCompiler.Lowering
