import Mathlib.Data.List.Forall2
import SsaCompiler.Proofs.Lowering.Steps

/-!
# The symbols of a lowered module

A module has a function for each name that is declared, in the order of the first declarations, and its
globals in the order of the program.  `Tables gs fs s` says so of the state between declarations:

    Tables gs [] s → Gives (global b) s () s' → Tables (gs ++ [b]) [] s'                         (Tables.global)
    Holds gs fs s → Tables gs fs s → Gives (function f) s () s' → Tables gs (fs ++ [f]) s'       (Tables.function)

What names stand for, and what is warned about, follows from the tables and from what `Holds` knows of each
name by itself.
-/

namespace SsaCompiler.Lang

/-- The first declaration of each function, in order. -/
def firstDeclarations : List FunctionDecl → List FunctionDecl
  | [] => []
  | f :: fs => f :: (firstDeclarations fs).filter (·.name ≠ f.name)

theorem firstDeclarations_snoc (fs : List FunctionDecl) (f : FunctionDecl) :
    firstDeclarations (fs ++ [f]) =
      if ∀ g ∈ fs, g.name ≠ f.name then firstDeclarations fs ++ [f] else firstDeclarations fs := by
  induction fs with
  | nil => rfl
  | cons g fs ih =>
    rw [List.cons_append, firstDeclarations, firstDeclarations, ih]
    by_cases hfs : ∀ h ∈ fs, h.name ≠ f.name
    · rw [if_pos hfs, List.filter_append]
      by_cases hg : g.name = f.name
      · rw [if_neg fun hall => hall g List.mem_cons_self hg, List.filter_singleton]
        simp [hg]
      · have hall : ∀ h ∈ g :: fs, h.name ≠ f.name := List.forall_mem_cons.mpr ⟨hg, hfs⟩
        rw [if_pos hall, List.filter_singleton]
        simp [Ne.symm hg]
    · rw [if_neg hfs, if_neg fun hall => hfs fun h hh => hall h (List.mem_cons_of_mem g hh)]

theorem nodup_firstDeclarations (fs : List FunctionDecl) : ((firstDeclarations fs).map (·.name)).Nodup := by
  induction fs with
  | nil => exact List.nodup_nil
  | cons f fs ih =>
    rw [firstDeclarations, List.map_cons, List.nodup_cons]
    constructor
    · intro hmem
      obtain ⟨g, hg, hname⟩ := List.mem_map.mp hmem
      exact of_decide_eq_true (List.mem_filter.mp hg).2 hname
    · exact ih.sublist (List.filter_sublist.map _)

/-- A first declaration is what is found by its name. -/
theorem mem_firstDeclarations_iff {fs : List FunctionDecl} {f : FunctionDecl} :
    f ∈ firstDeclarations fs ↔ fs.find? (·.name = f.name) = some f := by
  induction fs with
  | nil => exact ⟨nofun, nofun⟩
  | cons g fs ih =>
    rw [firstDeclarations, List.mem_cons, List.mem_filter, ih, List.find?_cons]
    by_cases hname : g.name = f.name
    · simp [hname, eq_comm]
    · have hne : f ≠ g := fun heq => hname (by rw [heq])
      simp [hname, hne, Ne.symm hname]

/-- The names with a first declaration are those that are declared. -/
theorem mem_map_firstDeclarations_iff {fs : List FunctionDecl} {name : String} :
    name ∈ (firstDeclarations fs).map (·.name) ↔ ∃ f ∈ fs, f.name = name := by
  rw [List.mem_map]
  constructor
  · rintro ⟨f, hf, hname⟩
    exact ⟨f, List.mem_of_find?_eq_some (mem_firstDeclarations_iff.mp hf), hname⟩
  · rintro ⟨f, hf, rfl⟩
    have hsome : (fs.find? (·.name = f.name)).isSome = true := List.find?_isSome.mpr ⟨f, hf, decide_eq_true rfl⟩
    obtain ⟨g, hg⟩ := Option.isSome_iff_exists.mp hsome
    have hname : g.name = f.name := by simpa using List.find?_some hg
    refine ⟨g, mem_firstDeclarations_iff.mpr ?_, hname⟩
    rw [hname]
    exact hg

/-- The functions that are warned about: neither visible nor defined. -/
def Program.undefined (p : Program) : List FunctionDecl :=
  (firstDeclarations p.functions).filter fun f =>
    !f.isVisible && !p.functions.any fun g => g.name = f.name && g.body.isSome

end SsaCompiler.Lang

namespace SsaCompiler.Ir

open Lang (Binding FunctionDecl Prim)

/-- A signature as a declaration writes it. -/
structure Signature.IsOf (s : Signature) (f : FunctionDecl) : Prop where
  params : s.params.map some = f.fixedTypes.map Prim.repr?
  ret : f.ret.repr? = some s.ret
  variadic : s.variadic = f.isVariadic
  callConv : s.callConv = .systemV

/-- A global as a binding writes it: visible to other modules, with the number of its literal. -/
structure Global.IsOf (g : Global) (b : Binding) : Prop where
  name : g.name = b.name
  linkage : g.linkage = .exported
  ty : b.ty.repr? = some g.ty
  init : ∃ sign width text n c, b.init = .literal (.int sign width) text ∧
    Numeral.readSigned? 128 text = some n ∧ Constant.ofInt? g.ty n = some c ∧ c.ty = g.ty ∧ g.init = some c

/-- A binding is written as one global. -/
theorem Global.IsOf.unique {g g' : Global} {b : Binding} (h : g.IsOf b) (h' : g'.IsOf b) : g = g' := by
  obtain ⟨hname, hlinkage, hty, sign, width, text, n, c, hinit, hread, hc, -, hg⟩ := h
  obtain ⟨hname', hlinkage', hty', sign', width', text', n', c', hinit', hread', hc', -, hg'⟩ := h'
  have hsame : g.ty = g'.ty := by
    rw [hty] at hty'
    exact Option.some.inj hty'
  rw [hinit] at hinit'
  cases hinit'
  rw [hread] at hread'
  cases hread'
  rw [hsame, hc'] at hc
  obtain ⟨name, ty, linkage, init⟩ := g
  obtain ⟨name', ty', linkage', init'⟩ := g'
  simp_all

/-- The tables of a module hold what a program declares, and nothing else. -/
structure Module.Declares (m : Module) (p : Lang.Program) : Prop where
  /-- A function for each name that is declared, in the order of the first declarations. -/
  functions : m.functions.toList.map (·.name) = (Lang.firstDeclarations p.functions).map (·.name)
  functionNames : (m.functions.toList.map (·.name)).Nodup
  /-- A function has one signature, which all its declarations write. -/
  signatures : ∀ i f, m.functions.get? i = some f →
    ∃ s, m.signatureOf i = .ok s ∧ ∀ decl ∈ p.functions, decl.name = f.name → s.IsOf decl
  bodies : ∀ i f, m.functions.get? i = some f →
    (f.isDefined = true ↔ ∃ decl ∈ p.functions, decl.name = f.name ∧ decl.body.isSome = true)
  globals : List.Forall₂ (fun b g => g.IsOf b) p.globals m.globals.toList
  globalNames : (m.globals.toList.map (·.name)).Nodup
  /-- Names stand for the entries of the tables, and the names that are declared do. -/
  findFunction : ∀ name i, m.findFunction? name = some i ↔ ∃ f, m.functions.get? i = some f ∧ f.name = name
  findGlobal : ∀ name i, m.findGlobal? name = some i ↔ ∃ g, m.globals.get? i = some g ∧ g.name = name
  declaredFunctions : ∀ name, (∃ i, m.findFunction? name = some i) ↔ ∃ decl ∈ p.functions, decl.name = name
  declaredGlobals : ∀ name, (∃ i, m.findGlobal? name = some i) ↔ ∃ b ∈ p.globals, b.name = name

end SsaCompiler.Ir

namespace SsaCompiler.Lowering

open Lang (Binding FunctionDecl Program firstDeclarations firstDeclarations_snoc nodup_firstDeclarations)
open Ir (Module Function Failure FuncId Global)
open LowerProgram (warnings undefinedWarning)

/-- What stands in the tables after some globals and some function declarations. -/
structure Tables (gs : List Binding) (fs : List FunctionDecl) (s : ProgramState) : Prop where
  globals : List.Forall₂ (fun b g => g.IsOf b) gs s.module.globals.toList
  /-- What is remembered of the first declarations. -/
  firsts : (s.decls.functions.map fun (name, info) => (name, info.visible, info.line)) =
    (firstDeclarations fs).map fun f => (f.name, f.isVisible, f.line)
  names : s.module.functions.toList.map (·.name) = s.decls.functions.map (·.1)

namespace LowerProgram

/-- A global is one more entry of the tables. -/
theorem global_inv {b : Binding} {s s' : ProgramState} {u : Unit} (h : Gives (global b) s u s') :
    ∃ g : Global, g.IsOf b ∧ s'.module = { s.module with globals := s.module.globals.push g } ∧
      s'.decls = s.decls.addGlobal b.name { id := s.module.globals.next, ty := b.ty } := by
  unfold global at h
  obtain ⟨_, _, hget, hnew⟩ := gives_bind_iff.mp h
  obtain ⟨rfl, rfl⟩ := gives_get_iff.mp hget
  obtain ⟨-, hvoid⟩ := gives_unless_iff.mp hnew
  obtain ⟨-, htyped⟩ := gives_unless_iff.mp hvoid
  obtain ⟨ty, _, hrepr, hvalued⟩ := gives_bind_iff.mp htyped
  obtain ⟨hty, rfl⟩ := (settles_representation b.ty b.line _).of_run hrepr
  obtain ⟨n, _, hinit, hadded⟩ := gives_bind_iff.mp hvalued
  obtain ⟨⟨sign, width, text, hliteral, hread⟩, rfl⟩ := (settles_initialNumber b _).of_run hinit
  rcases ofInt?_eq_some hty n with ⟨-, -, c, hc, hcty⟩ | ⟨-, hc⟩
  · rw [hc] at hadded
    obtain ⟨_, _, hget', hpushed⟩ := gives_bind_iff.mp hadded
    obtain ⟨rfl, rfl⟩ := gives_get_iff.mp hget'
    split at hpushed
    · exact absurd hpushed not_gives_throw
    · next id module hadd =>
      obtain ⟨_, _, hmodify, hlog⟩ := gives_bind_iff.mp hpushed
      obtain rfl := gives_modify_iff.mp hmodify
      obtain rfl := gives_modify_iff.mp hlog
      obtain ⟨rfl, rfl⟩ := Module.addGlobal_inv hadd
      exact ⟨⟨b.name, ty, .exported, some c⟩,
        ⟨rfl, rfl, hty, sign, width, text, n, c, hliteral, hread, hc, hcty, rfl⟩, rfl, rfl⟩
  · rw [hc] at hadded
    exact absurd hadded not_gives_throw

end LowerProgram

/-! ## The tables step by step -/

namespace Tables

open LowerProgram (declare function body declarations global)

variable {gs : List Binding} {fs : List FunctionDecl} {decl : FunctionDecl} {s s' : ProgramState} {u : Unit}

theorem start (name : String) (journal : Journal) : Tables [] [] (.start name journal) :=
  ⟨.nil, rfl, rfl⟩

/-- A global is the last of its table. -/
theorem global (h : Tables gs fs s) {b : Binding} (hgives : Gives (global b) s u s') : Tables (gs ++ [b]) fs s' := by
  obtain ⟨g, hg, hmodule, hdecls⟩ := LowerProgram.global_inv hgives
  have hfunctions : s'.decls.functions = s.decls.functions := by rw [hdecls]; rfl
  refine ⟨?_, ?_, ?_⟩
  · rw [hmodule, Ir.Table.toList_push]
    exact List.rel_append h.globals (.cons hg .nil)
  · rw [hfunctions]
    exact h.firsts
  · rw [hmodule, hfunctions]
    exact h.names

/-- The first declaration of a name adds a function, and the later ones do not. -/
theorem declare (h : Tables gs fs s) (hholds : Holds gs fs s) {id : FuncId} (hgives : Gives (declare decl) s id s') :
    Tables gs (fs ++ [decl]) s' := by
  rcases LowerProgram.declare_inv hgives with
    ⟨info, f, hinfo, -, hf, rfl⟩ | ⟨hnone, -, params, ret, i, signatures, -, -, -, rfl⟩
  · have hdeclared : ¬ ∀ f ∈ fs, f.name ≠ decl.name := by
      rw [← hholds.known, hinfo]
      exact Option.some_ne_none _
    have hnames : (s.redeclared id f decl.body.isSome).module.functions.toList.map (·.name) =
        s.module.functions.toList.map (·.name) := Ir.Table.map_set _ hf rfl
    refine ⟨h.globals, ?_, hnames.trans h.names⟩
    rw [firstDeclarations_snoc, if_neg hdeclared]
    exact h.firsts
  · have hfunctions : (s.declared decl i signatures).decls.functions =
        s.decls.functions ++ [(decl.name, firstInfo decl s.module.functions.next)] := rfl
    refine ⟨h.globals, ?_, ?_⟩
    · rw [firstDeclarations_snoc, if_pos ((hholds.known _).mp hnone), List.map_append, ← h.firsts, hfunctions,
        List.map_append]
      rfl
    · rw [hfunctions, List.map_append, ← h.names]
      unfold ProgramState.declared
      rw [Ir.Table.toList_push, List.map_append]
      rfl

/-- A body changes a function that is there. -/
theorem body {fs' : List FunctionDecl} (h : Tables gs fs s) {id : FuncId} (hdeclared : Declared gs fs' decl id s)
    {ss : List Lang.Stmt} (hss : decl.body = some ss) (hgives : Gives (body id decl ss) s u s') : Tables gs fs s' := by
  obtain ⟨f, f', data, journal, hget, hname, -, -, rfl⟩ := LowerProgram.body_inv hdeclared hss hgives
  refine ⟨h.globals, ?_, ?_⟩
  · rw [← h.firsts, Declarations.markDefined, List.map_map]
    refine List.map_congr_left fun (n, info) _ => ?_
    dsimp only [Function.comp_apply]
    split <;> rfl
  · rw [Declarations.markDefined, List.map_map]
    exact (Ir.Table.map_set _ hget hname).trans h.names

theorem function (h : Tables gs fs s) (hholds : Holds gs fs s) (hgives : Gives (function decl) s u s') :
    Tables gs (fs ++ [decl]) s' := by
  unfold LowerProgram.function at hgives
  obtain ⟨id, s₁, hdeclare, hbody⟩ := gives_bind_iff.mp hgives
  have hdeclared := h.declare hholds hdeclare
  cases hss : decl.body with
  | none =>
    rw [hss] at hbody
    obtain ⟨-, rfl⟩ := gives_pure_iff.mp hbody
    exact hdeclared
  | some ss =>
    rw [hss] at hbody
    exact hdeclared.body ((LowerProgram.settles_declare hholds decl).of_run hdeclare).2 hss hbody

/-- All declarations are in the tables when they are lowered. -/
theorem declarations {p : Program} {name : String} {journal : Journal}
    (hgives : Gives (declarations p) (.start name journal) u s) : Tables p.globals p.functions s :=
  LowerProgram.of_declarations (start name journal) (fun _ _ _ _ _ _ h hb => h.global hb)
    (fun _ _ _ _ _ _ hholds h hf => h.function hholds hf) hgives

end Tables

/-! ## What the tables say at the end -/

theorem lookup_eq_some_of_mem {α : Type} {xs : List (String × α)} (h : (xs.map (·.1)).Nodup) {name : String} {a : α}
    (hmem : (name, a) ∈ xs) : xs.lookup name = some a := by
  obtain ⟨earlier, later, rfl⟩ := List.append_of_mem hmem
  refine List.lookup_eq_some_iff.mpr ⟨earlier, later, rfl, fun x hx => bne_iff_ne.mpr fun heq => ?_⟩
  rw [List.map_append, List.map_cons, List.nodup_append] at h
  exact h.2.2 x.1 (List.mem_map_of_mem hx) name List.mem_cons_self heq.symm

namespace Tables

variable {p : Program} {s : ProgramState}

theorem map_name (h : Tables p.globals p.functions s) :
    s.decls.functions.map (·.1) = (firstDeclarations p.functions).map (·.name) := by
  have hfirsts := congrArg (List.map (·.1)) h.firsts
  rw [List.map_map, List.map_map] at hfirsts
  exact hfirsts

theorem map_globals (h : Tables p.globals p.functions s) :
    s.module.globals.toList.map (·.name) = p.globals.map (·.name) := by
  rw [eq_comm, ← List.forall₂_eq_eq_eq, List.forall₂_map_left_iff, List.forall₂_map_right_iff]
  exact h.globals.imp fun _ _ hg => hg.name.symm

theorem declares (h : Tables p.globals p.functions s) (hholds : Holds p.globals p.functions s)
    (hwf : p.WellFormed) : s.module.Declares p := by
  have hnames := h.names.trans h.map_name
  have hfunctions : (s.module.functions.toList.map (·.name)).Nodup := by
    rw [hnames]
    exact nodup_firstDeclarations p.functions
  have hglobals : (s.module.globals.toList.map (·.name)).Nodup := by
    rw [h.map_globals]
    exact hwf.names
  refine
    { functions := hnames
      functionNames := hfunctions
      signatures := ?signatures
      bodies := ?bodies
      globals := h.globals
      globalNames := hglobals
      findFunction := fun name i => Ir.Table.findId?_eq_some_iff hfunctions
      findGlobal := fun name i => Ir.Table.findId?_eq_some_iff hglobals
      declaredFunctions := fun name => ?declaredFunctions
      declaredGlobals := fun name => ?declaredGlobals }
  case signatures =>
    intro i f hf
    obtain ⟨info, hinfo, rfl, -⟩ := hholds.functions i f hf
    obtain ⟨sig, hsig, hdesc⟩ := hholds.decls.functions _ info hinfo
    refine ⟨sig, hsig, fun decl hdecl hname => ?_⟩
    have hagree := hholds.agree decl hdecl info (by rw [hname]; exact hinfo)
    refine ⟨?_, ?_, ?_, ?_⟩
    · rw [← hdesc.params, hagree.params]
    · rw [← hagree.ret]
      exact hdesc.ret
    · rw [← hagree.variadic]
      exact hdesc.variadic
    · match sig.callConv with
      | .systemV => rfl
  case bodies =>
    intro i f hf
    obtain ⟨info, hinfo, -, hdeclared, hfinished⟩ := hholds.functions i f hf
    rw [← hholds.defined _ info hinfo]
    refine ⟨defined_of_isDefined hdeclared, fun hdef => ?_⟩
    obtain ⟨sig, hfin⟩ := hfinished hdef
    unfold Function.isDefined
    rw [hfin.entry]
    rfl
  case declaredFunctions =>
    rw [← Lang.mem_map_firstDeclarations_iff, ← hnames]
    exact Ir.Table.exists_findId?_iff
  case declaredGlobals =>
    rw [← List.mem_map, ← h.map_globals]
    exact Ir.Table.exists_findId?_iff

/-- What is remembered of the names decides the warnings as the program does. -/
theorem warnings_eq (h : Tables p.globals p.functions s) (hholds : Holds p.globals p.functions s) :
    warnings s.decls = p.undefined.map fun f => undefinedWarning f.name f.line := by
  have hnodup : (s.decls.functions.map (·.1)).Nodup := by
    rw [h.map_name]
    exact nodup_firstDeclarations p.functions
  let known : String × FunctionInfo → String × Bool × Nat := fun (name, info) => (name, info.visible, info.line)
  let warned : String × Bool × Nat → Bool := fun (name, visible, _) =>
    !visible && !p.functions.any fun g => g.name = name && g.body.isSome
  -- what `Holds` knows of a name holds of its entry, as no two entries have one name
  have hwarned : ∀ entry ∈ s.decls.functions,
      (!entry.2.defined && !entry.2.visible) = warned (known entry) := by
    rintro ⟨name, info⟩ hentry
    have hdefined := hholds.defined name info (lookup_eq_some_of_mem hnodup hentry)
    have hany : info.defined = p.functions.any fun g => g.name = name && g.body.isSome := by
      rw [Bool.eq_iff_iff, hdefined]
      simp
    show (!info.defined && !info.visible) = (!info.visible && _)
    rw [hany, Bool.and_comm]
  calc warnings s.decls
      = ((s.decls.functions.map known).filter warned).map fun (name, _, line) => undefinedWarning name line := by
        rw [warnings, LowerProgram.undefinedFunctions, List.filter_congr hwarned, List.filter_map, List.map_map]
        rfl
    _ = (((firstDeclarations p.functions).map fun f => (f.name, f.isVisible, f.line)).filter warned).map
          fun (name, _, line) => undefinedWarning name line := by
        rw [← h.firsts]
    _ = p.undefined.map fun f => undefinedWarning f.name f.line := by
        rw [List.filter_map, List.map_map]
        rfl

end Tables

/-- A program that declares a function before its body, and one that is never defined. -/
def prototypes : Program :=
  let int : Lang.Prim := .int .signed .w32
  { globals := [{ name := "limit", ty := int, init := .literal int "3", line := 1 }]
    functions :=
      [{ name := "later", external := false, params := [.named "a" int], ret := int, body := none, line := 2 },
       { name := "never", external := false, params := [], ret := int, body := none, line := 3 },
       { name := "elsewhere", external := true, params := [.named "s" .str], ret := .void, body := none, line := 4 },
       { name := "later", external := false, params := [.named "a" int], ret := int
         body := some [.ret (.name "a") 6], line := 5 }] }

end SsaCompiler.Lowering

namespace SsaCompiler

open Lang (Program)
open Lowering (prototypes)
open Lowering.LowerProgram (undefinedWarning diagnostics_closing)

/-- The tables of a lowered module are what its program declares, and the functions that are neither visible nor
defined are all that is warned about. -/
theorem lower_declares (c : Config) (p : Program) (journal journal' : Journal) (m : Ir.Module)
    (h : outcome (lower c p) journal = (.ok m, journal')) :
    m.Declares p ∧
      journal'.diagnostics = journal.diagnostics ++ p.undefined.map fun f => undefinedWarning f.name f.line := by
  rcases Lowering.lower_run p c.moduleName journal with
    ⟨hwf, s, rs, hgives, hholds, hjournal, hlower⟩ | ⟨-, e, rs, -, hlower⟩
  · rw [outcome_lower_ok (hlower c.validate)] at h
    cases h
    have htables := Lowering.Tables.declarations hgives
    refine ⟨htables.declares hholds hwf, ?_⟩
    rw [Journal.diagnostics_followedBy, hjournal, Journal.diagnostics_followedBy, Journal.diagnostics_records,
      List.append_nil, diagnostics_closing, htables.warnings_eq hholds]
  · rw [outcome_lower_error (hlower c.validate)] at h
    cases h

theorem lower_declares_prototypes : ∃ m journal',
    outcome (lower Config.default prototypes) .empty = (.ok m, journal') ∧
      m.Declares prototypes ∧ journal'.diagnostics = [undefinedWarning "never" 3] := by
  have hrun : (match (outcome (lower Config.default prototypes) .empty).1 with
      | .ok _ => true
      | .error _ => false) = true := by
    decide +kernel
  rcases h : outcome (lower Config.default prototypes) .empty with ⟨e | m, journal'⟩
  · rw [h] at hrun
    cases hrun
  · exact ⟨m, journal', rfl, lower_declares Config.default prototypes .empty journal' m h⟩

end SsaCompiler
