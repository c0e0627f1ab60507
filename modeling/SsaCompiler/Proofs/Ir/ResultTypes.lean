import SsaCompiler.Proofs.Ir.Faults

/-!
# The types of results

The type of a result is computed once, when its instruction is built, from slots, globals and signatures
that other calls go on adding to.  It goes on following from them:

    b.Edit b' → b.func.ResultsTyped b.module → b'.func.ResultsTyped b'.module
    m.Edit m' → m.ResultsTyped → m'.ResultsTyped

because nothing that a type follows from is ever changed.  For the same reason a call goes on standing
under its id with the arguments it was given.
-/

namespace SsaCompiler.Ir

/-- What the type of a result follows from is not changed by adding to tables. -/
theorem Module.ResultType.mono {m n : Module} {f g : Function} {inst : Inst} {ty : Option Ty}
    (h : m.ResultType f inst ty) (hm : m.Within n) (hf : f.Within g) : n.ResultType g inst ty := by
  cases h with
  | unary op arg ty => exact .unary op arg ty
  | binary h => exact .binary (hf.valueType h)
  | iconst bits ty => exact .iconst bits ty
  | fconst bits ty => exact .fconst bits ty
  | stackLoad h => exact .stackLoad (hf.slots _ _ h)
  | stackStore value slot => exact .stackStore value slot
  | globalLoad h => exact .globalLoad (hm.globals _ _ h)
  | dataAddr data => exact .dataAddr data
  | call args h => exact .call args (hm.signatureOf h)
  | ret value => exact .ret value

namespace Function

/-- Whether an instruction has a result of a type, or has none. -/
def HasResult (f : Function) (data : InstData) (ty : Option Ty) : Prop :=
  data.result.map f.valueType = ty.map .ok

/-- The results of a function have the types that follow from its tables and those of its module. -/
def ResultsTyped (f : Function) (m : Module) : Prop :=
  ∀ i data, f.insts.get? i = some data → ∃ ty, m.ResultType f data.inst ty ∧ f.HasResult data ty

variable {f g : Function} {m n : Module}

theorem HasResult.mono {data : InstData} {ty : Option Ty} (h : f.HasResult data ty) (hf : f.Within g) :
    g.HasResult data ty := by
  unfold HasResult at *
  cases hr : data.result with
  | none =>
    rw [hr] at h
    exact h
  | some v =>
    rw [hr] at h
    obtain ⟨t, rfl, ht⟩ := Option.map_eq_some_iff.mp h.symm
    rw [Option.map_some, hf.valueType ht.symm]
    rfl

/-- The old instructions keep their types, so only what is new has to be looked at. -/
theorem ResultsTyped.mono (h : f.ResultsTyped m) (hm : m.Within n) (hf : f.Within g)
    (hnew : ∀ i data, g.insts.get? i = some data → f.insts.get? i = some data ∨
      ∃ ty, n.ResultType g data.inst ty ∧ g.HasResult data ty) : g.ResultsTyped n := by
  intro i data hi
  rcases hnew i data hi with hold | hnew
  · obtain ⟨ty, hty, hresult⟩ := h i data hold
    exact ⟨ty, hty.mono hm hf, hresult.mono hf⟩
  · exact hnew

/-- The result of an instruction is made with its type. -/
theorem hasResult_withInst (f : Function) (c : BlockId) (block : BlockData) (inst : Inst) (ty : Option Ty) :
    (f.withInst c block inst ty).HasResult { inst, result := ty.map fun _ => f.values.next } ty := by
  cases ty with
  | none => rfl
  | some ty =>
    have hv : (f.withInst c block inst (some ty)).valueType f.values.next = .ok ty :=
      valueType_eq_ok.mpr ⟨_, Table.get?_push_next _ _, rfl⟩
    exact congrArg some hv

end Function

namespace Body

variable {b b' : Body}

theorem resultsTyped_of_edit (h : b.func.ResultsTyped b.module) (hedit : b.Edit b') :
    b'.func.ResultsTyped b'.module := by
  have hm : b.module.Within b'.module := Edits.module_within (.single hedit)
  refine h.mono hm hedit.frame.2 fun i data hi => ?_
  cases hedit with
  | @inst c block inst ty hc hty =>
    have hi : (b.func.insts.push _).get? i = some data := hi
    rw [Table.get?_push] at hi
    split at hi
    · cases hi
      have hf := (Edit.inst hc hty).frame.2
      exact .inr ⟨ty, hty.mono (.refl _) hf, b.func.hasResult_withInst c block inst ty⟩
    · exact .inl hi
  | _ => exact .inl hi

theorem resultsTyped_of_edits (h : b.func.ResultsTyped b.module) (hedits : b.Edits b') :
    b'.func.ResultsTyped b'.module := by
  induction hedits with
  | refl => exact h
  | tail _ hstep ih => exact resultsTyped_of_edit ih hstep

end Body

/-- The results of all functions have the types that follow from the tables. -/
def Module.ResultsTyped (m : Module) : Prop :=
  ∀ i f, m.functions.get? i = some f → f.ResultsTyped m

namespace Module.ResultsTyped

variable {m m' : Module}

theorem empty (name : String) : (Module.empty name).ResultsTyped := nofun

theorem edit (h : m.ResultsTyped) (hedit : m.Edit m') : m'.ResultsTyped := by
  intro i f hf
  rcases hedit.function_cases hf with hold | ⟨name, s, linkage, rfl⟩ | ⟨b, b', hopen, hb, rfl, rfl⟩
  · exact (h i f hold).mono hedit.within (.refl f) fun _ _ => .inl
  · nofun
  · obtain ⟨func, hi, rfl⟩ := open_eq_ok.mp hopen
    have hwritten := Body.resultsTyped_of_edits (h i func hi) hb
    exact hwritten.mono (within_close hopen hb) (.refl _) fun _ _ => .inl

theorem edits (h : m.ResultsTyped) (hedits : m.Edits m') : m'.ResultsTyped := by
  induction hedits with
  | refl => exact h
  | tail _ hstep ih => exact ih.edit hstep

end Module.ResultsTyped

/-! ## Calls -/

theorem BodyAction.get?_of_call {actions : List BodyAction} {answers : List BodyAnswer} {b b' : Body}
    (ha : ∀ a ∈ actions, a.isDirect = false) (h : runAll actions b = (answers, .ok b')) {callee : FuncId}
    {args : List ValueId} {i : InstId} {result : Option ValueId}
    (hcall : (BodyAction.call callee args, BodyAnswer.call i result) ∈ actions.zip answers) :
    b'.func.insts.get? i = some { inst := .call callee args, result } := by
  induction actions generalizing b answers with
  | nil => cases hcall
  | cons a actions ih =>
    obtain ⟨answer, b₁, rest, hone, hrest, rfl⟩ := runAll_cons_ok h
    have hlater : ∀ a' ∈ actions, a'.isDirect = false := fun a' h' => ha a' (List.mem_cons_of_mem _ h')
    rcases List.mem_cons.mp hcall with hfirst | hcall
    · cases hfirst
      obtain ⟨j, made, hanswer, hemits⟩ := emits_of_call hone
      cases hanswer
      exact (edits_of_runAll hlater hrest).frame.2.insts _ _ hemits.get?
    · exact ih hlater hrest hcall

/-- The calls that a script made stand in the module under the ids it was answered. -/
def Module.ListsCalls (m : Module) (actions : List ModuleAction) (answers : List ModuleAnswer) : Prop :=
  ∀ f writes given, (ModuleAction.body f writes, ModuleAnswer.body given) ∈ actions.zip answers →
    ∀ callee args i result, (BodyAction.call callee args, BodyAnswer.call i result) ∈ writes.zip given →
      ∃ func, m.functions.get? f = some func ∧ func.insts.get? i = some { inst := .call callee args, result }

theorem ModuleAction.listsCalls_of_runAll {actions : List ModuleAction} {answers : List ModuleAnswer} {m m' : Module}
    (ha : ∀ a ∈ actions, a.ByBuilder) (h : runAll actions m = (answers, .ok m')) :
    m'.ListsCalls actions answers := by
  intro f writes given hbody callee args i result hcall
  induction actions generalizing m answers with
  | nil => cases hbody
  | cons a actions ih =>
    obtain ⟨answer, m₁, rest, hone, hrest, rfl⟩ := runAll_cons_ok h
    have hlater : ∀ a' ∈ actions, a'.ByBuilder := fun a' h' => ha a' (List.mem_cons_of_mem _ h')
    rcases List.mem_cons.mp hbody with hfirst | hbody
    · cases hfirst
      have hwrites : ∀ a ∈ writes, a.isDirect = false := ha (.body f writes) List.mem_cons_self
      obtain ⟨b, answers, b', hopen, hrun, hgiven, rfl⟩ := run_body_ok hone
      cases hgiven
      have hlisted := BodyAction.get?_of_call hwrites hrun hcall
      have hself : (b'.close f).functions.get? f = some b'.func := by
        rw [Module.close_get? hopen (BodyAction.edits_of_runAll hwrites hrun), if_pos rfl]
      obtain ⟨func, hfunc, hwithin⟩ := (edits_of_runAll hlater hrest).function hself
      exact ⟨func, hfunc, hwithin.insts _ _ hlisted⟩
    · exact ih hlater hrest hbody

/-! ## The frame of a call -/

/-- What a call on a body of the function `f` leaves alone: in the module all but that function and new data,
and in the function all values and instructions that there were. -/
structure Body.LeavesRest (f : FuncId) (b b' : Body) : Prop where
  functions : ∀ g, g ≠ f → (b'.close f).functions.get? g = (b.close f).functions.get? g
  signatures : (b'.close f).signatures = (b.close f).signatures
  globals : (b'.close f).globals = (b.close f).globals
  data : (b.close f).data.Within (b'.close f).data
  values : b.func.values.Within b'.func.values
  insts : b.func.insts.Within b'.func.insts

theorem Body.Edits.leavesRest {b b' : Body} (h : b.Edits b') (f : FuncId) : b.LeavesRest f b' := by
  obtain ⟨⟨data, hm, hd⟩, hfunc⟩ := h.frame
  refine ⟨fun g hg => ?_, ?_, ?_, ?_, hfunc.values, hfunc.insts⟩
  · show (b'.module.functions.set f b'.func).get? g = (b.module.functions.set f b.func).get? g
    rw [Table.get?_set_of_ne _ hg, Table.get?_set_of_ne _ hg, hm]
  · show b'.module.signatures = b.module.signatures
    rw [hm]
  · show b'.module.globals = b.module.globals
    rw [hm]
  · show b.module.data.Within b'.module.data
    rw [hm]
    exact hd

/-- The types of results and the arguments of calls survive whatever is built after them, an instruction that
is built for its result has one, and a call on a body leaves the rest of the module alone. -/
theorem builder_types_and_frame (name : String) (actions : List ModuleAction) (hbuilder : ∀ a ∈ actions, a.ByBuilder) :
    (∀ answers m, ModuleAction.runAll actions (.empty name) = (answers, .ok m) →
      m.ResultsTyped ∧ m.ListsCalls actions answers) ∧
    (∀ answers i, ModuleAction.runAll actions (.empty name) ≠ (answers, .error (.noResult i))) ∧
    ∀ f (a : BodyAction) b answer b', a.isDirect = false → Gives a.run b answer b' → b.LeavesRest f b' := by
  refine ⟨fun answers m hrun => ?_, fun answers i hrun => ?_, fun f a b answer b' ha h => ?_⟩
  · have hedits := ModuleAction.edits_of_runAll hbuilder hrun
    exact ⟨(Module.ResultsTyped.empty name).edits hedits, ModuleAction.listsCalls_of_runAll hbuilder hrun⟩
  · have hfault := ModuleAction.errs_runAll actions (.empty name)
    rw [hrun] at hfault
    exact hfault _ rfl
  · exact (BodyAction.edits_of_gives ha h).leavesRest f

/-- A script in which one function calls another that is given a body only later. -/
def callingScript : List ModuleAction :=
  [.signature { params := [.int .w32], ret := .int .w32, variadic := false, callConv := .systemV },
   .declare "f" ⟨0⟩ .exported,
   .declare "g" ⟨0⟩ .internal,
   .global "n" (.float .w64) .exported .absent,
   .body ⟨0⟩ [.iconst (.int .w32) 7, .call ⟨1⟩ [⟨1⟩], .globalLoad ⟨0⟩, .ret (some ⟨2⟩)],
   .body ⟨1⟩ [.insertionBlock, .ret (some ⟨0⟩)]]

theorem builder_types_and_frame_calling : ∃ answers m,
    (∀ a ∈ callingScript, a.ByBuilder) ∧ ModuleAction.runAll callingScript (.empty "m") = (answers, .ok m) ∧
      m.ResultsTyped ∧ m.ListsCalls callingScript answers := by
  have hbuilder : ∀ a ∈ callingScript, a.ByBuilder := by
    simp [callingScript, ModuleAction.ByBuilder, BodyAction.isDirect]
  have hends : (ModuleAction.runAll callingScript (.empty "m")).2.toBool = true := by decide +kernel
  obtain ⟨answers, m, hrun⟩ := ModuleAction.exists_runAll_ok hends
  exact ⟨answers, m, hbuilder, hrun, (builder_types_and_frame "m" callingScript hbuilder).1 answers m hrun⟩

end SsaCompiler.Ir
