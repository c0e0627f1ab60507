import SsaCompiler.Proofs.Lowering.SymbolTables

/-!
# The linkage of functions

The first declaration of a function decides whether other modules take part in it, and all of them whether it
is defined here.  `Linked fs m` says so of the functions of `m` after the declarations `fs`:

    linkage = .of (first declaration visible) (some declaration has a body)
    Linked fs s.module → Gives (function f) s () s' → Linked (fs ++ [f]) s'.module          (Linked.function)

A name that a later declaration makes visible (`Program.ShownLate`) stays internal, and this is the only case
in which the order of the declarations counts (`lower_linkage`).
-/

namespace SsaCompiler.Lang.Program

/-- Some declaration makes a name visible outside the module. -/
def Shows (p : Program) (name : String) : Prop :=
  ∃ decl ∈ p.functions, decl.name = name ∧ decl.isVisible = true

/-- Some declaration defines a name. -/
def Defines (p : Program) (name : String) : Prop :=
  ∃ decl ∈ p.functions, decl.name = name ∧ decl.body.isSome = true

/-- A declaration makes a name visible, but the first one does not. -/
def ShownLate (p : Program) (name : String) : Prop :=
  p.Shows name ∧ ∃ first, p.functions.find? (·.name = name) = some first ∧ first.isVisible = false

end SsaCompiler.Lang.Program

namespace SsaCompiler.Ir

/-- The linkage of a function by whether other modules take part and whether it is defined here. -/
def Linkage.of (visible defined : Bool) : Linkage :=
  if visible then if defined then .exported else .imported else .internal

@[simp] theorem Linkage.isExternal_of (visible defined : Bool) : (Linkage.of visible defined).isExternal = visible := by
  cases visible <;> cases defined <;> rfl

theorem Linkage.of_eq_exported_iff {visible defined : Bool} :
    Linkage.of visible defined = .exported ↔ visible = true ∧ defined = true := by
  cases visible <;> cases defined <;> simp [Linkage.of]

theorem Linkage.of_eq_imported_iff {visible defined : Bool} :
    Linkage.of visible defined = .imported ↔ visible = true ∧ defined = false := by
  cases visible <;> cases defined <;> simp [Linkage.of]

/-- Of functions that are defined alike, the linkage is the same where their visibility is. -/
theorem Linkage.of_inj {visible visible' defined : Bool} :
    Linkage.of visible defined = .of visible' defined ↔ visible = visible' := by
  constructor
  · intro h
    have := congrArg Linkage.isExternal h
    simpa using this
  · rintro rfl
    rfl

end SsaCompiler.Ir

namespace SsaCompiler.Lowering

open Lang (Binding FunctionDecl Program)
open Ir (Module Function FuncId Linkage)
open LowerProgram (declarations)

/-- Whether one of some declarations defines a name. -/
def definesAny (fs : List FunctionDecl) (name : String) : Bool :=
  fs.any fun decl => decl.name = name && decl.body.isSome

theorem definesAny_snoc (fs : List FunctionDecl) (decl : FunctionDecl) (name : String) :
    definesAny (fs ++ [decl]) name = (definesAny fs name || (decl.name = name && decl.body.isSome)) := by
  simp [definesAny]

theorem definesAny_eq_true_iff {p : Program} {name : String} : definesAny p.functions name = true ↔ p.Defines name := by
  simp [definesAny, Program.Defines]

/-- The functions of a module have the linkage that the declarations so far give them. -/
def Linked (fs : List FunctionDecl) (m : Module) : Prop :=
  ∀ i f, m.functions.get? i = some f → ∃ first, fs.find? (·.name = f.name) = some first ∧
    f.linkage = .of first.isVisible (definesAny fs f.name)

theorem firstLinkage_eq (decl : FunctionDecl) :
    LowerProgram.firstLinkage decl = .of decl.isVisible decl.body.isSome := rfl

/-- A further declaration counts only for whether there is a body. -/
theorem laterLinkage_of (visible defined hasBody : Bool) :
    LowerProgram.laterLinkage (.of visible defined) hasBody = .of visible (defined || hasBody) := by
  cases visible <;> cases defined <;> cases hasBody <;> rfl

namespace Linked

variable {gs : List Binding} {fs : List FunctionDecl} {decl : FunctionDecl} {s s' : ProgramState} {id : FuncId}

theorem empty (name : String) : Linked [] (.empty name) := by
  intro i f hf
  have hlt := Ir.Table.index_lt_of_get? hf
  exact absurd hlt (Nat.not_lt_zero _)

/-- A declaration of another name says nothing of a function. -/
theorem snoc_of_ne {f : Function} (hne : decl.name ≠ f.name)
    (h : ∃ first, fs.find? (·.name = f.name) = some first ∧ f.linkage = .of first.isVisible (definesAny fs f.name)) :
    ∃ first, (fs ++ [decl]).find? (·.name = f.name) = some first ∧
      f.linkage = .of first.isVisible (definesAny (fs ++ [decl]) f.name) := by
  obtain ⟨first, hfirst, hlinkage⟩ := h
  refine ⟨first, ?_, ?_⟩
  · rw [List.find?_append, hfirst, Option.some_or]
  · simpa [definesAny_snoc, hne] using hlinkage

/-- A known function is declared again. -/
theorem redeclared (h : Linked fs s.module) (hholds : Holds gs fs s) {info : FunctionInfo} {f : Function}
    (hinfo : s.decls.function? decl.name = some info) (hf : s.module.functions.get? info.id = some f) :
    Linked (fs ++ [decl]) (s.redeclared info.id f decl.body.isSome).module := by
  obtain ⟨f₀, hf₀, hname⟩ := hholds.decls.functionNames _ info hinfo
  rw [hf] at hf₀
  cases hf₀
  intro i g hg
  by_cases hi : i = info.id
  · subst hi
    rw [ProgramState.redeclared_get?_self hf] at hg
    cases hg
    obtain ⟨first, hfirst, hlinkage⟩ := h _ f hf
    refine ⟨first, ?_, ?_⟩
    · rw [List.find?_append, hfirst, Option.some_or]
    · simp [hlinkage, laterLinkage_of, definesAny_snoc, hname]
  · have hold : s.module.functions.get? i = some g := by
      rw [← hg, ProgramState.redeclared_get?_of_ne f _ hi]
    have hne : decl.name ≠ g.name := by
      intro heq
      obtain ⟨info', hinfo', hid, -⟩ := hholds.functions i g hold
      rw [← heq, hinfo] at hinfo'
      cases hinfo'
      exact hi hid.symm
    exact snoc_of_ne hne (h i g hold)

/-- A function is declared for the first time. -/
theorem declared (h : Linked fs s.module) (hholds : Holds gs fs s) (hnew : s.decls.function? decl.name = none)
    (i : Ir.SigId) (signatures : Ir.Table .signature Ir.Signature) :
    Linked (fs ++ [decl]) (s.declared decl i signatures).module := by
  have hfresh := (hholds.known decl.name).mp hnew
  intro j f hf
  by_cases hj : j = s.module.functions.next
  · subst hj
    rw [ProgramState.declared_get?_next] at hf
    cases hf
    have hnone : fs.find? (·.name = decl.name) = none := by
      simpa using hfresh
    have hundefined : definesAny fs decl.name = false := by
      simp only [definesAny, List.any_eq_false, Bool.and_eq_true, decide_eq_true_eq, not_and]
      exact fun g hg heq => absurd heq (hfresh g hg)
    refine ⟨decl, ?_, ?_⟩
    · rw [show (Function.declared decl.name i _).name = decl.name from rfl, List.find?_append, hnone]
      simp
    · simp [Function.declared, firstLinkage_eq, definesAny_snoc, hundefined]
  · have hold : s.module.functions.get? j = some f := by
      rw [← hf, ProgramState.declared_get?_of_ne decl i signatures hj]
    obtain ⟨first, hfirst, hlinkage⟩ := h j f hold
    have hname : first.name = f.name := by simpa using List.find?_some hfirst
    have hne : decl.name ≠ f.name := by
      intro heq
      exact hfresh first (List.mem_of_find?_eq_some hfirst) (hname.trans heq.symm)
    exact snoc_of_ne hne ⟨first, hfirst, hlinkage⟩

theorem declare (h : Linked fs s.module) (hholds : Holds gs fs s) (hgives : Gives (LowerProgram.declare decl) s id s') :
    Linked (fs ++ [decl]) s'.module := by
  rcases LowerProgram.declare_inv hgives with
    ⟨info, f, hinfo, rfl, hf, rfl⟩ | ⟨hnew, -, params, ret, i, signatures, -, -, -, rfl⟩
  · exact h.redeclared hholds hinfo hf
  · exact h.declared hholds hnew i signatures

/-- Getting a body changes neither the name of a function nor its linkage. -/
theorem body {fs' : List FunctionDecl} (h : Linked fs s.module) (hdeclared : Declared gs fs' decl id s)
    {ss : List Lang.Stmt} (hss : decl.body = some ss) {u : Unit} (hgives : Gives (LowerProgram.body id decl ss) s u s') :
    Linked fs s'.module := by
  obtain ⟨f, f', data, journal, hget, hname, -, hlinkage, rfl⟩ := LowerProgram.body_inv hdeclared hss hgives
  intro j g hg
  by_cases hj : j = id
  · subst hj
    rw [Ir.Table.get?_set_self f' hget] at hg
    cases hg
    rw [hname, hlinkage]
    exact h _ _ hget
  · rw [Ir.Table.get?_set_of_ne f' hj] at hg
    exact h j g hg

theorem function (h : Linked fs s.module) (hholds : Holds gs fs s) {u : Unit}
    (hgives : Gives (LowerProgram.function decl) s u s') : Linked (fs ++ [decl]) s'.module := by
  obtain ⟨id, s₁, hdeclare, ⟨-, rfl⟩ | ⟨ss, hss, hbody⟩⟩ := LowerProgram.function_inv hgives
  · exact h.declare hholds hdeclare
  · have hdeclared := (LowerProgram.settles_declare hholds decl).of_run hdeclare
    exact (h.declare hholds hdeclare).body hdeclared.2 hss hbody

/-- All functions are linked when the declarations of a program are lowered. -/
theorem declarations {p : Program} {name : String} {journal : Journal} {u : Unit}
    (hgives : Gives (declarations p) (.start name journal) u s) : Linked p.functions s.module := by
  refine LowerProgram.of_declarations (I := fun _ fs s => Linked fs s.module) (empty name) ?_ ?_ hgives
  · intro gs b s u s' _ h hb
    obtain ⟨g, -, hmodule, -⟩ := LowerProgram.global_inv hb
    rw [hmodule]
    exact h
  · intro gs fs f s u s' hholds h hf
    exact h.function hholds hf

end Linked

/-! ## Lowered modules -/

/-- A lowered module has a function for each name that is declared, and its functions are linked. -/
theorem linked_of_lower {p : Program} {name : String} {validate : Bool} {journal : Journal} {m : Module}
    (h : (lower p name validate journal).1 = .ok m) :
    (∀ decl ∈ p.functions, ∃ i f, m.functions.get? i = some f ∧ f.name = decl.name) ∧ Linked p.functions m := by
  obtain ⟨s, hgives, hholds, rfl⟩ := gives_of_lower h
  refine ⟨fun decl hdecl => ?_, Linked.declarations hgives⟩
  have hknown : s.decls.function? decl.name ≠ none := by
    rw [Ne, hholds.known]
    exact fun hall => hall decl hdecl rfl
  obtain ⟨info, hinfo⟩ := Option.ne_none_iff_exists'.mp hknown
  obtain ⟨f, hf, hname⟩ := hholds.decls.functionNames _ info hinfo
  exact ⟨info.id, f, hf, hname⟩

section

variable {p p' : Program} {name : String} {first : FunctionDecl}

/-- A name is visible by its first declaration exactly if it is shown, and not late. -/
theorem isVisible_first_iff (hfirst : p.functions.find? (·.name = name) = some first) :
    first.isVisible = true ↔ p.Shows name ∧ ¬ p.ShownLate name := by
  have hname : first.name = name := by simpa using List.find?_some hfirst
  constructor
  · intro hvisible
    refine ⟨⟨first, List.mem_of_find?_eq_some hfirst, hname, hvisible⟩, ?_⟩
    rintro ⟨-, first', hfirst', hhidden⟩
    rw [hfirst] at hfirst'
    cases hfirst'
    rw [hvisible] at hhidden
    cases hhidden
  · rintro ⟨hshows, hnot⟩
    by_contra hhidden
    exact hnot ⟨hshows, first, hfirst, by simpa using hhidden⟩

/-- What a declaration of a name says holds of one program as of another with the same declarations of it. -/
theorem exists_decl_iff_of_perm
    (hperm : (p'.functions.filter (·.name = name)).Perm (p.functions.filter (·.name = name)))
    (P : FunctionDecl → Prop) :
    (∃ decl ∈ p'.functions, decl.name = name ∧ P decl) ↔ ∃ decl ∈ p.functions, decl.name = name ∧ P decl := by
  have hmem : ∀ decl : FunctionDecl, decl.name = name → (decl ∈ p'.functions ↔ decl ∈ p.functions) := by
    intro decl hname
    have := hperm.mem_iff (a := decl)
    simpa [List.mem_filter, hname] using this
  constructor
  · rintro ⟨decl, hdecl, hname, hP⟩
    exact ⟨decl, (hmem decl hname).mp hdecl, hname, hP⟩
  · rintro ⟨decl, hdecl, hname, hP⟩
    exact ⟨decl, (hmem decl hname).mpr hdecl, hname, hP⟩

end

/-- A function is external exactly if some declaration makes it visible, except where only a later one does.  It
is then exported if some declaration has a body, and imported if none has.  Another order of its declarations
keeps its linkage exactly if it keeps whether the name is shown late. -/
theorem lower_linkage (p : Program) (name : String) (validate : Bool) (journal : Journal) (m : Module)
    (h : (lower p name validate journal).1 = .ok m) :
    (∀ decl ∈ p.functions, ∃ i f, m.functions.get? i = some f ∧ f.name = decl.name) ∧
    ∀ i f, m.functions.get? i = some f →
      ((f.linkage.isExternal = true ↔ p.Shows f.name) ↔ ¬ p.ShownLate f.name) ∧
      (f.linkage = .exported ↔ f.linkage.isExternal = true ∧ p.Defines f.name) ∧
      (f.linkage = .imported ↔ f.linkage.isExternal = true ∧ ¬ p.Defines f.name) ∧
      ∀ (p' : Program) (name' : String) (validate' : Bool) (journal' : Journal) (m' : Module) (i' : FuncId)
        (f' : Function), (lower p' name' validate' journal').1 = .ok m' → m'.functions.get? i' = some f' →
        f'.name = f.name →
        (p'.functions.filter (·.name = f.name)).Perm (p.functions.filter (·.name = f.name)) →
        (f'.linkage = f.linkage ↔ (p'.ShownLate f.name ↔ p.ShownLate f.name)) := by
  obtain ⟨hnamed, hlinked⟩ := linked_of_lower h
  refine ⟨hnamed, fun i f hf => ?_⟩
  obtain ⟨first, hfirst, hlinkage⟩ := hlinked i f hf
  have hdefines : definesAny p.functions f.name = true ↔ p.Defines f.name := definesAny_eq_true_iff
  have hvisible := isVisible_first_iff hfirst
  rw [hlinkage, Linkage.isExternal_of, Linkage.of_eq_exported_iff, Linkage.of_eq_imported_iff, ← hdefines]
  refine ⟨?_, Iff.rfl, by rw [Bool.not_eq_true], ?_⟩
  · -- a name that is shown late is shown, and its first declaration does not show it
    have hlate : p.ShownLate f.name → p.Shows f.name := And.left
    by_cases hshows : p.Shows f.name
    · simp [hvisible, hshows]
    · simp [hvisible, hshows, mt hlate hshows]
  · intro p' name' validate' journal' m' i' f' h' hf' hname hperm
    obtain ⟨first', hfirst', hlinkage'⟩ := (linked_of_lower h').2 i' f' hf'
    rw [hname] at hfirst' hlinkage'
    have hdefines' : definesAny p'.functions f.name = definesAny p.functions f.name := by
      rw [Bool.eq_iff_iff, definesAny_eq_true_iff, definesAny_eq_true_iff]
      exact exists_decl_iff_of_perm hperm fun decl => decl.body.isSome = true
    have hshows : p'.Shows f.name ↔ p.Shows f.name :=
      exists_decl_iff_of_perm hperm fun decl => decl.isVisible = true
    have hlate : p.ShownLate f.name → p.Shows f.name := And.left
    have hlate' : p'.ShownLate f.name → p.Shows f.name := fun hl => hshows.mp hl.1
    rw [hlinkage', hdefines', Linkage.of_inj, Bool.eq_iff_iff, isVisible_first_iff hfirst', hvisible, hshows]
    by_cases hs : p.Shows f.name
    · simp [hs, not_iff_not]
    · simp [hs, mt hlate hs, mt hlate' hs]

/-- A function that is defined for the outside, and then declared as if it were not. -/
def shownFirst : Program :=
  let int : Lang.Prim := .int .signed .w32
  { globals := []
    functions :=
      [{ name := "f", external := true, params := [], ret := int, body := some [.ret (.literal int "1") 2], line := 2 },
       { name := "f", external := false, params := [], ret := int, body := none, line := 1 }] }

/-- The same declarations in the other order. -/
def shownLast : Program :=
  { shownFirst with functions := shownFirst.functions.reverse }

/-- The function of a program that has one. -/
theorem exists_function_of_run (p : Program) (linkage : Linkage)
    (hrun : (match (lower p "main" true .empty).1 with
      | .ok m => (m.functions.get? ⟨0⟩).map fun f => (f.name, f.linkage)
      | .error _ => none) = some ("f", linkage)) :
    ∃ m f, (lower p "main" true .empty).1 = .ok m ∧ m.functions.get? ⟨0⟩ = some f ∧ f.name = "f" ∧
      f.linkage = linkage := by
  cases hm : (lower p "main" true .empty).1 with
  | error e =>
    rw [hm] at hrun
    cases hrun
  | ok m =>
    rw [hm] at hrun
    obtain ⟨f, hf, hpair⟩ := Option.map_eq_some_iff.mp hrun
    exact ⟨m, f, rfl, hf, congrArg Prod.fst hpair, congrArg Prod.snd hpair⟩

theorem lower_linkage_shownFirst : ∃ m m' f f',
    (lower shownFirst "main" true .empty).1 = .ok m ∧ (lower shownLast "main" true .empty).1 = .ok m' ∧
    m.functions.get? ⟨0⟩ = some f ∧ m'.functions.get? ⟨0⟩ = some f' ∧ f.name = "f" ∧
    ((f.linkage.isExternal = true ↔ shownFirst.Shows f.name) ↔ ¬ shownFirst.ShownLate f.name) ∧
    (f'.linkage = f.linkage ↔ (shownLast.ShownLate f.name ↔ shownFirst.ShownLate f.name)) := by
  obtain ⟨m, f, hm, hf, hname, -⟩ := exists_function_of_run shownFirst .exported (by decide +kernel)
  obtain ⟨m', f', hm', hf', hname', -⟩ :=
    exists_function_of_run shownLast .internal (by decide +kernel)
  obtain ⟨hshown, -, -, horder⟩ := (lower_linkage shownFirst "main" true .empty m hm).2 ⟨0⟩ f hf
  refine ⟨m, m', f, f', hm, hm', hf, hf', hname, hshown, ?_⟩
  refine horder shownLast "main" true .empty m' ⟨0⟩ f' hm' hf' (hname'.trans hname.symm) ?_
  exact (List.reverse_perm shownFirst.functions).filter _

/-- A function that a declaration makes visible is internal where an earlier declaration did not. -/
theorem shownLast_internal : ∃ m f, (lower shownLast "main" true .empty).1 = .ok m ∧
    m.functions.get? ⟨0⟩ = some f ∧ f.name = "f" ∧ shownLast.Shows f.name ∧ f.linkage = .internal := by
  obtain ⟨m, f, hm, hf, hname, hlinkage⟩ :=
    exists_function_of_run shownLast .internal (by decide +kernel)
  refine ⟨m, f, hm, hf, hname, ?_, hlinkage⟩
  rw [hname]
  exact ⟨_, List.mem_cons_of_mem _ List.mem_cons_self, rfl, rfl⟩

end SsaCompiler.Lowering
