import Mathlib.Logic.ExistsUnique
import SsaCompiler.Proofs.Ir.Edits

/-!
# The structure of what is built

The tables of a function speak of each other: blocks list instructions and parameters, instructions name
their results, values say where they come from, and the order says which blocks have been entered.

    f.instAt? (c, k)     the instruction that the block `c` lists at `k`
    f.paramAt? (c, k)    the parameter that the block `c` lists at `k`
    f.definition? v      where the value `v` comes from

`Function.Structured` says that they agree.  Each change of a body keeps that, whichever block it is made
in and however often the entry block is made, so it holds of all that scripts build without writing to the
tables themselves.
-/

namespace SsaCompiler.Ir

/-! ## Lists held in tables -/

namespace Table

variable {e : Entity} {α β : Type}

/-- What the list of an entry has at a position. -/
def listed? (t : Table e α) (list : α → Array β) (p : Id e × Nat) : Option β :=
  (t.get? p.1).bind fun a => (list a)[p.2]?

theorem get?_next (t : Table e α) : t.get? t.next = none := by
  simp [get?, next, size]

theorem listed?_push (list : α → Array β) {t : Table e α} {a : α} (h : list a = #[]) (p : Id e × Nat) :
    (t.push a).listed? list p = t.listed? list p := by
  unfold listed?
  rw [get?_push]
  split
  · next hp => simp [hp, get?_next, h]
  · rfl

variable {t : Table e α} {i : Id e} {a b : α}

theorem listed?_set (list : α → Array β) (hi : t.get? i = some a) (h : list b = list a) (p : Id e × Nat) :
    (t.set i b).listed? list p = t.listed? list p := by
  unfold listed?
  by_cases hp : p.1 = i
  · rw [hp, get?_set_self b hi, hi, Option.bind_some, Option.bind_some, h]
  · rw [get?_set_of_ne b hp]

/-- A list that has become longer by one has its new entry at the end, and the others where they were. -/
theorem listed?_set_push (list : α → Array β) {x y : β} (hi : t.get? i = some a) (h : list b = (list a).push x)
    (p : Id e × Nat) :
    (t.set i b).listed? list p = some y ↔ p = (i, (list a).size) ∧ y = x ∨ t.listed? list p = some y := by
  obtain ⟨j, k⟩ := p
  unfold listed?
  by_cases hj : j = i
  · subst hj
    simp only [get?_set_self b hi, hi, Option.bind_some, h, Array.getElem?_push, Prod.mk.injEq, true_and]
    split
    · next hk => simp [hk, eq_comm]
    · next hk => simp [hk]
  · simp only [get?_set_of_ne b hj, Prod.mk.injEq, hj, false_and, false_or]

end Table

namespace Function

/-! ## Tables that agree -/

/-- The instruction at a place, which is a block and a position in it. -/
def instAt? (f : Function) : BlockId × Nat → Option InstId :=
  f.blocks.listed? BlockData.insts

/-- The parameter at a place. -/
def paramAt? (f : Function) : BlockId × Nat → Option ValueId :=
  f.blocks.listed? BlockData.params

/-- Where a value comes from. -/
def definition? (f : Function) (v : ValueId) : Option ValueDef :=
  (f.values.get? v).map (·.definition)

structure Structured (f : Function) : Prop where
  /-- An instruction stands at one place. -/
  inst : ∀ i data, f.insts.get? i = some data → ∃! p, f.instAt? p = some i
  /-- What stands at a place is an instruction. -/
  instAt : ∀ p i, f.instAt? p = some i → ∃ data, f.insts.get? i = some data
  /-- An instruction names its result, and the result names the instruction. -/
  result : ∀ i v, f.result? i = some v ↔ f.definition? v = some (.result i)
  /-- A parameter stands at one place. -/
  param : ∀ v c, f.definition? v = some (.param c) → ∃! p, f.paramAt? p = some v
  /-- A parameter stands in the block that it names. -/
  paramAt : ∀ p v, f.paramAt? p = some v → f.definition? v = some (.param p.1)
  /-- A block is entered once. -/
  order : f.order.toList.Nodup
  /-- The entry block is the first that was entered; there is none as long as no block was. -/
  entry : f.entry = f.order[0]?

/-- A value is the result of one instruction or a parameter that stands at one place, and not both. -/
def HasOneSource (f : Function) (v : ValueId) : Prop :=
  ((∃! i, f.result? i = some v) ∧ ∀ p, f.paramAt? p ≠ some v) ∨
    ((∃! p, f.paramAt? p = some v) ∧ ∀ i, f.result? i ≠ some v)

namespace Structured

variable {f : Function}

theorem hasOneSource (h : f.Structured) {v : ValueId} {data : ValueData} (hv : f.values.get? v = some data) :
    f.HasOneSource v := by
  have hdef : f.definition? v = some data.definition := by
    unfold definition?
    rw [hv]
    rfl
  cases hd : data.definition with
  | result i =>
    rw [hd] at hdef
    refine .inl ⟨⟨i, (h.result i v).mpr hdef, fun j hj => ?_⟩, fun p hp => ?_⟩
    · have hj := (h.result j v).mp hj
      rw [hdef] at hj
      cases hj
      rfl
    · have hp := h.paramAt p v hp
      rw [hdef] at hp
      cases hp
  | param c =>
    rw [hd] at hdef
    refine .inr ⟨h.param v c hdef, fun i hi => ?_⟩
    have hi := (h.result i v).mp hi
    rw [hdef] at hi
    cases hi

theorem declared (name : String) (s : SigId) (linkage : Linkage) : (declared name s linkage).Structured where
  inst _ _ h := nomatch h
  instAt _ _ h := nomatch h
  result _ _ := ⟨nofun, nofun⟩
  param _ _ h := nomatch h
  paramAt _ _ h := nomatch h
  order := List.nodup_nil
  entry := rfl

/-- A block that lists nothing changes nothing. -/
theorem withBlock (h : f.Structured) : f.withBlock.Structured := by
  have hinst (p : BlockId × Nat) : f.withBlock.instAt? p = f.instAt? p :=
    Table.listed?_push BlockData.insts rfl p
  have hparam (p : BlockId × Nat) : f.withBlock.paramAt? p = f.paramAt? p :=
    Table.listed?_push BlockData.params rfl p
  refine ⟨fun i data hi => ?_, fun p i hp => ?_, h.result, fun v c hv => ?_, fun p v hp => ?_, h.order, h.entry⟩
  · simpa only [hinst] using h.inst i data hi
  · exact h.instAt p i (by rwa [hinst] at hp)
  · simpa only [hparam] using h.param v c hv
  · exact h.paramAt p v (by rwa [hparam] at hp)

theorem entering (h : f.Structured) (c : BlockId) : (f.entering c).Structured := by
  refine ⟨h.inst, h.instAt, h.result, h.param, h.paramAt, ?_, ?_⟩
  · show (if f.order.contains c then f.order else f.order.push c).toList.Nodup
    split
    · exact h.order
    · next hc =>
      rw [Array.contains_iff_mem, ← Array.mem_toList_iff] at hc
      rw [Array.toList_push]
      refine List.nodup_append.mpr ⟨h.order, by simp, fun d hd d' hd' => ?_⟩
      rw [List.mem_singleton.mp hd']
      exact fun heq => hc (heq ▸ hd)
  · show f.entry.or (some c) = (if f.order.contains c then f.order else f.order.push c)[0]?
    rw [h.entry]
    rcases Nat.eq_zero_or_pos f.order.size with h0 | h0
    · simp [Array.size_eq_zero_iff.mp h0]
    · split
      · simp [h0]
      · simp [h0, Array.getElem_push_lt]

variable {c : BlockId} {block : BlockData}

/-- The value that comes next is no parameter and no result yet. -/
theorem definition?_next (f : Function) : f.definition? f.values.next = none := by
  unfold definition?
  rw [Table.get?_next]
  rfl

theorem definition?_push {g : Function} {data : ValueData} (hg : g.values = f.values.push data) (v : ValueId) :
    g.definition? v = if v = f.values.next then some data.definition else f.definition? v := by
  unfold definition?
  rw [hg, Table.get?_push]
  split <;> rfl

theorem result?_next (f : Function) : f.result? f.insts.next = none := by
  unfold result?
  rw [Table.get?_next]
  rfl

/-- A parameter is a new value at the end of the list of its block. -/
theorem withParam (h : f.Structured) (hc : f.blocks.get? c = some block) (ty : Ty) :
    (f.withParam c block ty).Structured := by
  have hinst (p : BlockId × Nat) : (f.withParam c block ty).instAt? p = f.instAt? p :=
    Table.listed?_set BlockData.insts hc (by rfl) p
  have hparam (p : BlockId × Nat) (v : ValueId) : (f.withParam c block ty).paramAt? p = some v ↔
      p = (c, block.params.size) ∧ v = f.values.next ∨ f.paramAt? p = some v :=
    Table.listed?_set_push BlockData.params hc rfl p
  have hvalues : (f.withParam c block ty).values = f.values.push { ty, definition := .param c } := rfl
  have hdef (v : ValueId) : (f.withParam c block ty).definition? v =
      if v = f.values.next then some (.param c) else f.definition? v := definition?_push hvalues v
  have hfresh (p : BlockId × Nat) : f.paramAt? p ≠ some f.values.next := by
    intro hp
    have hp := h.paramAt p _ hp
    rw [definition?_next] at hp
    cases hp
  refine ⟨fun i data hi => ?_, fun p i hp => ?_, ?_, ?_, ?_, h.order, h.entry⟩
  · simpa only [hinst] using h.inst i data hi
  · exact h.instAt p i (by rwa [hinst] at hp)
  · intro i v
    rw [hdef]
    split
    · next hv =>
      subst hv
      refine ⟨fun hi => ?_, nofun⟩
      have hi := (h.result i _).mp hi
      rw [definition?_next] at hi
      cases hi
    · exact h.result i v
  · intro v d hv
    simp only [hparam]
    by_cases hnew : v = f.values.next
    · subst hnew
      refine ⟨(c, block.params.size), .inl ⟨rfl, rfl⟩, ?_⟩
      rintro p (⟨hp, -⟩ | hp)
      · exact hp
      · exact absurd hp (hfresh p)
    · rw [hdef, if_neg hnew] at hv
      simpa only [hnew, and_false, false_or] using h.param v d hv
  · intro p v hp
    rw [hdef]
    rcases (hparam p v).mp hp with ⟨rfl, rfl⟩ | hp
    · exact if_pos rfl
    · have hne : v ≠ f.values.next := by
        rintro rfl
        exact hfresh p hp
      rw [if_neg hne]
      exact h.paramAt p v hp

/-- An instruction stands at the end of the list of its block, and a result is a new value. -/
theorem withInst (h : f.Structured) (hc : f.blocks.get? c = some block) (inst : Inst) (ty : Option Ty) :
    (f.withInst c block inst ty).Structured := by
  have hparam (p : BlockId × Nat) : (f.withInst c block inst ty).paramAt? p = f.paramAt? p :=
    Table.listed?_set BlockData.params hc (by rfl) p
  have hinst (p : BlockId × Nat) (i : InstId) : (f.withInst c block inst ty).instAt? p = some i ↔
      p = (c, block.insts.size) ∧ i = f.insts.next ∨ f.instAt? p = some i :=
    Table.listed?_set_push BlockData.insts hc rfl p
  have hresult (i : InstId) : (f.withInst c block inst ty).result? i =
      if i = f.insts.next then ty.map fun _ => f.values.next else f.result? i := by
    unfold Function.withInst result?
    rw [Table.get?_push]
    split <;> rfl
  have hfresh (v : ValueId) : f.definition? v ≠ some (.result f.insts.next) := by
    intro hv
    have hv := (h.result _ v).mpr hv
    rw [result?_next] at hv
    cases hv
  have hdef (v : ValueId) : (f.withInst c block inst ty).definition? v =
      if ty.isSome = true ∧ v = f.values.next then some (.result f.insts.next) else f.definition? v := by
    cases ty with
    | none => exact (if_neg (fun hn => nomatch hn.1)).symm
    | some ty => simpa using definition?_push (g := f.withInst c block inst (some ty)) rfl v
  have hkept {v : ValueId} {d : ValueDef} (hv : f.definition? v = some d) :
      (f.withInst c block inst ty).definition? v = some d := by
    rw [hdef, if_neg, hv]
    rintro ⟨-, rfl⟩
    rw [definition?_next] at hv
    cases hv
  refine ⟨?_, ?_, ?_, ?_, ?_, h.order, h.entry⟩
  · intro i data hi
    simp only [hinst]
    by_cases hnew : i = f.insts.next
    · subst hnew
      refine ⟨(c, block.insts.size), .inl ⟨rfl, rfl⟩, ?_⟩
      rintro p (⟨hp, -⟩ | hp)
      · exact hp
      · obtain ⟨data', hi'⟩ := h.instAt p _ hp
        rw [Table.get?_next] at hi'
        cases hi'
    · have hi' : f.insts.get? i = some data := (Table.get?_push_of_ne hnew).symm.trans hi
      simpa only [hnew, and_false, false_or] using h.inst i data hi'
  · intro p i hp
    rcases (hinst p i).mp hp with ⟨-, rfl⟩ | hp
    · exact ⟨_, Table.get?_push_next _ _⟩
    · obtain ⟨data, hi⟩ := h.instAt p i hp
      exact ⟨data, Table.within_push _ _ _ _ hi⟩
  · intro i v
    rw [hresult]
    split
    · next hi =>
      subst hi
      cases ty with
      | none => exact ⟨nofun, fun hv => absurd hv (hfresh v)⟩
      | some ty =>
        rw [hdef]
        split
        · next hv => simp [hv.2]
        · next hv => 
          have hne : v ≠ f.values.next := fun hv' => hv ⟨rfl, hv'⟩
          simp [hfresh v, hne.symm]
    · next hi =>
      refine ⟨fun hr => hkept ((h.result i v).mp hr), fun hv => (h.result i v).mpr ?_⟩
      rw [hdef] at hv
      split at hv
      · cases hv
        exact absurd rfl hi
      · exact hv
  · intro v d hv
    simp only [hparam]
    rw [hdef] at hv
    split at hv
    · cases hv
    · exact h.param v d hv
  · intro p v hp
    rw [hparam] at hp
    exact hkept (h.paramAt p v hp)

end Structured

end Function

/-! ## All that is built -/

/-- A body whose tables agree, at a block that has been entered. -/
structure Body.Structured (b : Body) : Prop where
  func : b.func.Structured
  current : ∀ c, b.current = some c → c ∈ b.func.order

namespace Body.Structured

variable {b b' : Body}

theorem edit (hb : b.Structured) (h : b.Edit b') : b'.Structured := by
  cases h with
  | block => exact ⟨hb.func.withBlock, hb.current⟩
  | enter c =>
    refine ⟨hb.func.entering c, ?_⟩
    rintro _ ⟨⟩
    show c ∈ if b.func.order.contains c then b.func.order else b.func.order.push c
    split
    · next hc => exact Array.contains_iff_mem.mp hc
    · exact Array.mem_push_self
  | param ty hc => exact ⟨hb.func.withParam hc ty, hb.current⟩
  | inst hc hty => exact ⟨hb.func.withInst hc _ _, hb.current⟩
  -- what these change is in no table that the structure speaks of
  | slot ty name => exact ⟨⟨hb.func.1, hb.func.2, hb.func.3, hb.func.4, hb.func.5, hb.func.6, hb.func.7⟩, hb.current⟩
  | name v name => exact ⟨⟨hb.func.1, hb.func.2, hb.func.3, hb.func.4, hb.func.5, hb.func.6, hb.func.7⟩, hb.current⟩
  | linkage linkage => exact ⟨⟨hb.func.1, hb.func.2, hb.func.3, hb.func.4, hb.func.5, hb.func.6, hb.func.7⟩, hb.current⟩
  | data contents => exact ⟨hb.func, hb.current⟩

theorem edits (hb : b.Structured) (h : b.Edits b') : b'.Structured := by
  induction h with
  | refl => exact hb
  | tail _ hstep ih => exact ih.edit hstep

end Body.Structured

/-- A module of functions whose tables agree. -/
def Module.Structured (m : Module) : Prop :=
  ∀ i f, m.functions.get? i = some f → f.Structured

namespace Module.Structured

variable {m m' : Module}

theorem empty (name : String) : (Module.empty name).Structured := nofun

/-- Writing goes on at the entry block, which has been entered. -/
theorem opened (h : m.Structured) {f : FuncId} {b : Body} (hopen : m.open f = .ok b) : b.Structured := by
  obtain ⟨func, hf, rfl⟩ := Module.open_eq_ok.mp hopen
  refine ⟨h f func hf, fun c hc => ?_⟩
  have hfirst : func.order[0]? = some c := (h f func hf).entry.symm.trans hc
  exact Array.mem_of_getElem? hfirst

theorem edit (h : m.Structured) (hedit : m.Edit m') : m'.Structured := by
  intro i f hf
  rcases hedit.function_cases hf with hold | ⟨name, s, linkage, rfl⟩ | ⟨b, b', hopen, hb, -, rfl⟩
  · exact h i f hold
  · exact .declared name s linkage
  · exact ((h.opened hopen).edits hb).func

theorem edits (h : m.Structured) (hedits : m.Edits m') : m'.Structured := by
  induction hedits with
  | refl => exact h
  | tail _ hstep ih => exact ih.edit hstep

end Module.Structured

/-- What scripts build without writing to the tables themselves is structured: after a script, and after any
further actions on any body of what it built. -/
theorem structured_of_runAll {name : String} {actions : List ModuleAction} {answers : List ModuleAnswer} {m : Module}
    (hbuilder : ∀ a ∈ actions, a.ByBuilder)
    (hrun : ModuleAction.runAll actions (.empty name) = (answers, .ok m)) :
    m.Structured ∧
      (∀ i f, m.functions.get? i = some f → ∀ v data, f.values.get? v = some data → f.HasOneSource v) ∧
      ∀ f b writes given b', m.open f = .ok b → (∀ a ∈ writes, a.isDirect = false) →
        BodyAction.runAll writes b = (given, .ok b') → b'.Structured ∧ (b'.close f).Structured := by
  have hm : m.Structured := (Module.Structured.empty name).edits (ModuleAction.edits_of_runAll hbuilder hrun)
  refine ⟨hm, fun i f hf v data hv => (hm i f hf).hasOneSource hv, ?_⟩
  intro f b writes given b' hopen hwrites hwritten
  have hb := BodyAction.edits_of_runAll hwrites hwritten
  exact ⟨(hm.opened hopen).edits hb, hm.edit (.body hopen hb)⟩

/-- A script that leaves a body in a second block and writes to it again, at its first. -/
def reopenedScript : List ModuleAction :=
  [.signature { params := [.int .w32], ret := .int .w32, variadic := false, callConv := .systemV },
   .declare "f" ⟨0⟩ .exported,
   .body ⟨0⟩ [.iconst (.int .w32) 7, .createBlock, .switchTo ⟨1⟩, .ret (some ⟨1⟩)],
   .body ⟨0⟩ [.binary .iadd ⟨0⟩ ⟨1⟩, .blockParam ⟨1⟩ .ptr]]

theorem structured_of_runAll_reopened : ∃ answers m,
    (∀ a ∈ reopenedScript, a.ByBuilder) ∧ ModuleAction.runAll reopenedScript (.empty "m") = (answers, .ok m) ∧
      m.Structured := by
  have hbuilder : ∀ a ∈ reopenedScript, a.ByBuilder := by
    simp [reopenedScript, ModuleAction.ByBuilder, BodyAction.isDirect]
  have hends : (ModuleAction.runAll reopenedScript (.empty "m")).2.toBool = true := by decide +kernel
  obtain ⟨answers, m, hrun⟩ := ModuleAction.exists_runAll_ok hends
  exact ⟨answers, m, hbuilder, hrun, (structured_of_runAll hbuilder hrun).1⟩

end SsaCompiler.Ir
