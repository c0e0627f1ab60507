import SsaCompiler.Ir.Script
import SsaCompiler.Proofs.Ir.Rules

/-!
# Terminators of checked blocks

The check tells the last instruction of a block by its id, so it passes over an earlier listing of that
instruction.  A function with a body is checked successfully exactly if each block that has been entered ends
with a terminator, holds before it no terminator but that one, and lists instructions that check:

    f.check m = .ok ()  ↔  (f.isDefined → ∀ b ∈ f.order, f.BlockPasses m b)                 (check_eq_ok_iff)

Nothing is asked of the rows, which may list an instruction any number of times.  So a block that passes holds
no terminator before its last place exactly if its last instruction is not listed before it as well
(check_terminators), and one that lists it twice passes (repeated_passes).
-/

namespace SsaCompiler.Ir

theorem Check.read_eq_ok {α : Type} {x : Except Fault α} {a : α} : Check.read x = .ok a ↔ x = .ok a := by
  cases x with
  | error e => exact ⟨nofun, nofun⟩
  | ok b => exact ⟨fun h => congrArg Except.ok (Except.ok.inj h), fun h => congrArg Except.ok (Except.ok.inj h)⟩

theorem Check.require_eq_ok {holds : Bool} {v : Violation} : Check.require holds v = .ok () ↔ holds = true := by
  cases holds with
  | true => exact ⟨fun _ => rfl, fun _ => rfl⟩
  | false => exact ⟨nofun, nofun⟩

theorem Check.forM_eq_ok_iff {α : Type} {f : α → Check Unit} {xs : List α} :
    xs.forM f = .ok () ↔ ∀ x ∈ xs, f x = .ok () := by
  induction xs with
  | nil => exact ⟨fun _ _ hx => absurd hx List.not_mem_nil, fun _ => rfl⟩
  | cons x xs ih =>
    rw [List.forall_mem_cons, ← ih]
    exact bind_eq_ok_iff.trans ⟨fun ⟨_, hx, hxs⟩ => ⟨hx, hxs⟩, fun ⟨hx, hxs⟩ => ⟨(), hx, hxs⟩⟩

namespace Function

variable {f : Function} {m : Module} {b : BlockId} {row : List InstId} {last : InstId}

/-! ## Rows -/

/-- What is asked of an instruction of a row by the last of the row. -/
def InstPasses (f : Function) (m : Module) (last i : InstId) : Prop :=
  (f.IsRet i → i = last) ∧ f.checkInst m i = .ok ()

/-- The check of one instruction: a terminator passes where it is the last instruction or none follows it. -/
theorem checkInsts_cons_eq_ok_iff {i : InstId} :
    f.checkInsts m b last (i :: row) = .ok () ↔
      (f.IsRet i → i = last ∨ row = []) ∧ f.checkInst m i = .ok () ∧ f.checkInsts m b last row = .ok () := by
  rw [checkInsts, bind_eq_ok_iff]
  constructor
  · rintro ⟨data, hread, h⟩
    have hd := Table.get_eq_ok.mp (Check.read_eq_ok.mp hread)
    have hrest : f.checkInst m i = .ok () ∧ f.checkInsts m b last row = .ok () := by
      split at h
      · cases row with
        | nil =>
          obtain ⟨_, hinst, hrow⟩ := bind_eq_ok_iff.mp h
          exact ⟨hinst, hrow⟩
        | cons next row => cases h
      · obtain ⟨_, hinst, hrow⟩ := bind_eq_ok_iff.mp h
        exact ⟨hinst, hrow⟩
    refine ⟨fun hret => ?_, hrest⟩
    by_cases hlast : i = last
    · exact .inl hlast
    · rw [if_pos (by simp [(isTerminator_iff hd).mpr hret, hlast])] at h
      cases row with
      | nil => exact .inr rfl
      | cons next row => cases h
  · rintro ⟨hterm, hinst, hrow⟩
    have hrest : (f.checkInst m i >>= fun _ => f.checkInsts m b last row) = .ok () :=
      bind_eq_ok_iff.mpr ⟨(), hinst, hrow⟩
    -- an instruction that checks is one of the function
    obtain ⟨data, hread, -⟩ := bind_eq_ok_iff.mp hinst
    refine ⟨data, hread, ?_⟩
    have hd := Table.get_eq_ok.mp (Check.read_eq_ok.mp hread)
    split
    · next hcond =>
      obtain ⟨hret, hne⟩ := Bool.and_eq_true_iff.mp hcond
      obtain rfl := (hterm ((isTerminator_iff hd).mp hret)).resolve_left (of_decide_eq_true hne)
      exact hrest
    · exact hrest

/-- **A row passes** exactly if it holds no terminator but its last instruction, and all instructions check. -/
theorem checkInsts_eq_ok_iff (hlast : row.getLast? = some last) :
    f.checkInsts m b last row = .ok () ↔ ∀ i ∈ row, f.InstPasses m last i := by
  induction row with
  | nil => cases hlast
  | cons i row ih =>
    rw [checkInsts_cons_eq_ok_iff, List.forall_mem_cons]
    cases row with
    | nil =>
      obtain rfl := Option.some.inj hlast
      exact ⟨fun h => ⟨⟨fun _ => rfl, h.2.1⟩, nofun⟩, fun h => ⟨fun _ => .inl rfl, h.1.2, rfl⟩⟩
    | cons next row =>
      rw [ih hlast]
      constructor
      · rintro ⟨hterm, hinst, hrow⟩
        exact ⟨⟨fun hret => (hterm hret).resolve_right (List.cons_ne_nil _ _), hinst⟩, hrow⟩
      · rintro ⟨⟨hterm, hinst⟩, hrow⟩
        exact ⟨fun hret => .inl (hterm hret), hinst, hrow⟩

/-! ## Blocks -/

/-- Whether a block ends with a terminator and holds no other, and all its instructions check. -/
def BlockPasses (f : Function) (m : Module) (b : BlockId) : Prop :=
  ∃ block before last, f.blocks.get? b = some block ∧ block.insts.toList = before ++ [last] ∧ f.IsRet last ∧
    ∀ i ∈ before ++ [last], f.InstPasses m last i

theorem checkBlock_eq_ok_iff : f.checkBlock m b = .ok () ↔ f.BlockPasses m b := by
  unfold checkBlock
  rw [bind_eq_ok_iff]
  constructor
  · rintro ⟨block, hread, h⟩
    dsimp only at h
    rw [← Array.getLast?_toList] at h
    split at h
    · cases h
    · next last hlast =>
      obtain ⟨before, hrow⟩ := List.getLast?_eq_some_iff.mp hlast
      obtain ⟨_, hinsts, h⟩ := bind_eq_ok_iff.mp h
      obtain ⟨data, hdata, hterm⟩ := bind_eq_ok_iff.mp h
      have hd := Table.get_eq_ok.mp (Check.read_eq_ok.mp hdata)
      refine ⟨block, before, last, Table.get_eq_ok.mp (Check.read_eq_ok.mp hread), hrow, ?_, ?_⟩
      · exact (isTerminator_iff hd).mp (Check.require_eq_ok.mp hterm)
      · rw [← hrow]
        exact (checkInsts_eq_ok_iff hlast).mp hinsts
  · rintro ⟨block, before, last, hblock, hrow, hret, hpass⟩
    have hlast : block.insts.toList.getLast? = some last := by rw [hrow, List.getLast?_concat]
    obtain ⟨inst, hinst, -⟩ := id hret
    obtain ⟨data, hd, -⟩ := inst?_eq_some.mp hinst
    refine ⟨block, Check.read_eq_ok.mpr (Table.get_eq_ok.mpr hblock), ?_⟩
    dsimp only
    rw [← Array.getLast?_toList, hlast]
    refine bind_eq_ok_iff.mpr ⟨(), (checkInsts_eq_ok_iff hlast).mpr (hrow ▸ hpass), ?_⟩
    refine bind_eq_ok_iff.mpr ⟨data, Check.read_eq_ok.mpr (Table.get_eq_ok.mpr hd), ?_⟩
    exact Check.require_eq_ok.mpr ((isTerminator_iff hd).mpr hret)

/-- **A function is checked successfully** exactly if each of its blocks passes, where it has a body. -/
theorem check_eq_ok_iff : f.check m = .ok () ↔ (f.isDefined = true → ∀ b ∈ f.order, f.BlockPasses m b) := by
  unfold check
  split
  · next hbody =>
    rw [Check.forM_eq_ok_iff]
    simp only [hbody, true_imp_iff, Array.mem_toList_iff]
    exact forall₂_congr fun b _ => checkBlock_eq_ok_iff
  · next hbody => exact ⟨fun _ h => absurd h hbody, fun _ => rfl⟩

/-! ## What follows a terminator -/

/-- **The terminators of a checked block**: the last instruction is one, and an earlier instruction is one exactly
if it is the last once more.  So nothing follows a terminator exactly if the last instruction is listed once. -/
theorem check_terminators (f : Function) (m : Module) (hbody : f.isDefined = true) (hcheck : f.check m = .ok ()) :
    ∀ b ∈ f.order, ∃ block before last, f.blocks.get? b = some block ∧ block.insts.toList = before ++ [last] ∧
      f.IsRet last ∧ (∀ i ∈ before, f.IsRet i ↔ i = last) ∧ ((∀ i ∈ before, ¬ f.IsRet i) ↔ last ∉ before) := by
  intro b hb
  obtain ⟨block, before, last, hblock, hrow, hret, hpass⟩ := check_eq_ok_iff.mp hcheck hbody b hb
  have hiff : ∀ i ∈ before, f.IsRet i ↔ i = last := by
    intro i hi
    refine ⟨(hpass i (List.mem_append_left _ hi)).1, ?_⟩
    rintro rfl
    exact hret
  refine ⟨block, before, last, hblock, hrow, hret, hiff, ?_⟩
  constructor
  · exact fun hnone hmem => hnone last hmem hret
  · exact fun hmem i hi h => hmem ((hiff i hi).mp h ▸ hi)

end Function

/-! ## A block that goes on after its terminator -/

/-- The actions that write a constant and a return, and list both once more. -/
def repeating : List ModuleAction :=
  [.signature { params := [], ret := .void, variadic := false, callConv := .systemV }, .declare "f" ⟨0⟩ .internal,
   .body ⟨0⟩ [.initEntry, .iconst (.int .w8) 1, .ret none, .listInst ⟨0⟩ ⟨0⟩, .listInst ⟨0⟩ ⟨1⟩]]

/-- The function that they write. -/
def repeated : Function :=
  { Function.declared "f" ⟨0⟩ .internal with
    insts := ⟨#[{ inst := .iconst 1, result := some ⟨0⟩ }, { inst := .ret none, result := none }]⟩
    values := ⟨#[{ ty := .int .w8, definition := .result ⟨0⟩ }]⟩
    blocks := ⟨#[{ params := #[], insts := #[⟨0⟩, ⟨1⟩, ⟨0⟩, ⟨1⟩] }]⟩
    order := #[⟨0⟩], entry := some ⟨0⟩ }

/-- Its module. -/
def repeatedModule : Module :=
  { Module.empty "main" with
    functions := ⟨#[repeated]⟩
    signatures := ⟨#[{ params := [], ret := .void, variadic := false, callConv := .systemV }]⟩ }

theorem runAll_repeating : (ModuleAction.runAll repeating (.empty "main")).2 = .ok repeatedModule := by
  with_unfolding_all rfl

theorem check_repeated : repeated.check repeatedModule = .ok () := rfl

theorem check_terminators_repeated :
    repeated.isDefined = true ∧ repeated.check repeatedModule = .ok () ∧
      ∀ b ∈ repeated.order, ∃ block before last, repeated.blocks.get? b = some block ∧
        block.insts.toList = before ++ [last] ∧ repeated.IsRet last ∧
        (∀ i ∈ before, repeated.IsRet i ↔ i = last) ∧ ((∀ i ∈ before, ¬ repeated.IsRet i) ↔ last ∉ before) :=
  ⟨rfl, check_repeated, Function.check_terminators repeated repeatedModule rfl check_repeated⟩

/-- The constant is listed after the return, and the function passes with its module. -/
theorem repeated_passes :
    (ModuleAction.runAll repeating (.empty "main")).2 = .ok repeatedModule ∧ repeatedModule.check = .ok () ∧
      repeatedModule.functions.get? ⟨0⟩ = some repeated ∧ repeated.isDefined = true ∧
      repeated.check repeatedModule = .ok () ∧
      ∃ b ∈ repeated.order, ∃ block before last, repeated.blocks.get? b = some block ∧
        block.insts.toList = before ++ [last] ∧ ∃ i ∈ before, repeated.IsRet i := by
  refine ⟨runAll_repeating, rfl, rfl, rfl, check_repeated, ⟨0⟩, by simp [repeated], _, [⟨0⟩, ⟨1⟩, ⟨0⟩], ⟨1⟩, rfl,
    rfl, ⟨1⟩, by decide, ?_⟩
  exact ⟨.ret none, rfl, rfl⟩

end SsaCompiler.Ir
