import SsaCompiler.Proofs.Ir.Asked
import SsaCompiler.Proofs.Lowering.Texts

/-!
# Interning is exact

Whatever a script does between asking for contents and for signatures, its ids tell them apart and together:

    runAll actions (.empty name) = (answers, result) → Exact name actions answers result

and a program that is lowered has its string literals as data, each once and in the order in which they are
first computed, with an address for each place of a literal.
-/

namespace SsaCompiler.Ir

open Table (Asks)

/-! ## Initial parts of scripts -/

namespace ModuleAction

/-- Whether a script is an initial part of another; it may end within the actions on a body. -/
inductive Starts : List ModuleAction → List ModuleAction → Prop
  | nil (actions : List ModuleAction) : Starts [] actions
  | cons {before actions : List ModuleAction} (a : ModuleAction) (h : Starts before actions) :
      Starts (a :: before) (a :: actions)
  | body (f : FuncId) {before actions : List BodyAction} (h : before <+: actions) (later : List ModuleAction) :
      Starts [.body f before] (.body f actions :: later)

namespace Starts

variable {before actions : List ModuleAction}

theorem askedData (h : Starts before actions) :
    before.flatMap ModuleAction.askedData <+: actions.flatMap ModuleAction.askedData := by
  induction h with
  | nil actions => exact List.nil_prefix
  | cons a _ ih =>
    rw [List.flatMap_cons, List.flatMap_cons]
    exact (List.prefix_append_right_inj _).mpr ih
  | body f h later =>
    obtain ⟨rest, rfl⟩ := h
    rw [List.flatMap_singleton, List.flatMap_cons]
    simp only [ModuleAction.askedData, List.flatMap_append, List.append_assoc]
    exact List.prefix_append _ _

theorem askedSignatures (h : Starts before actions) :
    before.flatMap ModuleAction.askedSignatures <+: actions.flatMap ModuleAction.askedSignatures := by
  induction h with
  | nil actions => exact List.nil_prefix
  | cons a _ ih =>
    rw [List.flatMap_cons, List.flatMap_cons]
    exact (List.prefix_append_right_inj _).mpr ih
  | body f h later => exact List.nil_prefix

end Starts

/-! ## What is exact about a run -/

variable {name : String} {actions : List ModuleAction} {answers : List ModuleAnswer}

/-- What a script has left in the interned tables. -/
structure Leaves (name : String) (actions : List ModuleAction) (answers : List ModuleAnswer) (m : Module) : Prop where
  /-- Nothing that was asked for is left without an id. -/
  askedData : (answered dataIds actions answers).map (·.1) = actions.flatMap askedData
  askedSignatures : (answered signatureIds actions answers).map (·.1) = actions.flatMap askedSignatures
  /-- A data object has the name of its id, and holds its contents and a NUL. -/
  object : ∀ c i, (c, i) ∈ answered dataIds actions answers →
    m.data.get? i = some { name := ".str." ++ toString i.index, bytes := c ++ [0] }
  signature : ∀ s i, (s, i) ∈ answered signatureIds actions answers → m.signatures.get? i = some s
  /-- The tables hold what was asked for in its order, nothing else and nothing twice. -/
  data : m.data.toList = (actions.flatMap ModuleAction.askedData).eraseDups.zipIdx.map fun (c, k) =>
    { name := ".str." ++ toString k, bytes := c ++ [0] }
  signatures : m.signatures.toList = (actions.flatMap ModuleAction.askedSignatures).eraseDups
  distinctData : (m.data.toList.map (·.bytes)).Nodup
  distinctSignatures : m.signatures.toList.Nodup
  /-- What an id stood for at any earlier point, it still stands for. -/
  kept : ∀ before m₀, Starts before actions → (runAll before (.empty name)).2 = .ok m₀ →
    m₀.data.Within m.data ∧ m₀.signatures.Within m.signatures

/-- What is exact about the ids that a script was answered with, and about the tables at its end. -/
structure Exact (name : String) (actions : List ModuleAction) (answers : List ModuleAnswer)
    (result : Except Fault Module) : Prop where
  /-- Contents have the same id exactly if they are the same. -/
  data : ∀ c i c' i', (c, i) ∈ answered dataIds actions answers → (c', i') ∈ answered dataIds actions answers →
    (i = i' ↔ c = c')
  /-- Signatures have the same id exactly if all that they say is the same. -/
  signatures : ∀ s i s' i', (s, i) ∈ answered signatureIds actions answers →
    (s', i') ∈ answered signatureIds actions answers →
      (i = i' ↔ s.params = s'.params ∧ s.ret = s'.ret ∧ s.variadic = s'.variadic ∧ s.callConv = s'.callConv)
  leaves : ∀ m, result = .ok m → Leaves name actions answers m

theorem nodup_bytes {m : Module} {cs : List (List UInt8)} (h : m.InternsData cs) :
    (m.data.toList.map (·.bytes)).Nodup := by
  have hbytes : m.data.toList.map (·.bytes) = cs.eraseDups.map (· ++ [0]) := by
    rw [h, List.map_map]
    show cs.eraseDups.zipIdx.map ((· ++ [0]) ∘ Prod.fst) = _
    rw [← List.map_map, List.zipIdx_map_fst]
  rw [hbytes]
  exact (nodup_eraseDups cs).map fun c c' hc => List.append_left_injective [0] hc

theorem signatures_toList {m : Module} {ss : List Signature} (h : m.InternsSignatures ss) :
    m.signatures.toList = ss.eraseDups := by
  rw [h]
  exact List.zipIdx_map_fst 0 ss.eraseDups

/-- **The tables at the end of a script.** -/
theorem leaves_of_runAll {m : Module} (hrun : runAll actions (.empty name) = (answers, .ok m)) :
    Leaves name actions answers m := by
  have hasks := asks_of_runAll (Module.internsData_empty name) (Module.internsSignatures_empty name) hrun
  have hdata : m.InternsData (actions.flatMap ModuleAction.askedData) := hasks.data.interns _ rfl
  have hsignatures : m.InternsSignatures (actions.flatMap ModuleAction.askedSignatures) :=
    hasks.signatures.interns _ rfl
  refine
    { askedData := hasks.data.keys _ rfl
      askedSignatures := hasks.signatures.keys _ rfl
      object := fun c i hi => hasks.data.get? hi
      signature := fun s i hi => hasks.signatures.get? hi
      data := hdata
      signatures := signatures_toList hsignatures
      distinctData := nodup_bytes hdata
      distinctSignatures := ?_
      kept := ?_ }
  · rw [signatures_toList hsignatures]
    exact nodup_eraseDups _
  · intro before m₀ hbefore hok
    rcases hrun₀ : runAll before (.empty name) with ⟨answers₀, result₀⟩
    obtain rfl : result₀ = .ok m₀ := by rw [← hok, hrun₀]
    have hasks₀ := asks_of_runAll (Module.internsData_empty name) (Module.internsSignatures_empty name) hrun₀
    obtain ⟨laterData, hlaterData⟩ := hbefore.askedData
    obtain ⟨laterSignatures, hlaterSignatures⟩ := hbefore.askedSignatures
    rw [← hlaterData] at hdata
    rw [← hlaterSignatures] at hsignatures
    exact ⟨(hasks₀.data.interns _ rfl).within hdata, (hasks₀.signatures.interns _ rfl).within hsignatures⟩

theorem exact_of_runAll {result : Except Fault Module} (hrun : runAll actions (.empty name) = (answers, result)) :
    Exact name actions answers result where
  data := by
    have hasks := asks_of_runAll (Module.internsData_empty name) (Module.internsSignatures_empty name) hrun
    exact fun c i c' i' hi hi' => hasks.data.placed.eq_iff hi hi'
  signatures := by
    have hasks := asks_of_runAll (Module.internsData_empty name) (Module.internsSignatures_empty name) hrun
    intro s i s' i' hi hi'
    rw [hasks.signatures.placed.eq_iff hi hi']
    obtain ⟨params, ret, variadic, callConv⟩ := s
    obtain ⟨params', ret', variadic', callConv'⟩ := s'
    simp only [Signature.mk.injEq]
  leaves := by
    rintro m rfl
    exact leaves_of_runAll hrun

end ModuleAction

end SsaCompiler.Ir

namespace SsaCompiler.Lowering

open Lang (Program Stmt)
open Ir (Module)

/-! ## Lowered programs -/

/-- Whether the data of a module is the string literals of a program. -/
structure HoldsTexts (p : Program) (m : Module) : Prop where
  /-- The distinct string literals of the bodies, in the order in which they are first computed. -/
  data : m.data.toList = p.texts.eraseDups.zipIdx.map fun (text, k) =>
    { name := ".str." ++ toString k, bytes := text.toUTF8.toList ++ [0] }
  /-- The function of a body takes the address of the object with the text, once for each string literal. -/
  addresses : ∀ decl ∈ p.functions, ∀ ss, decl.body = some ss → ∃ i f, m.findFunction? decl.name = some i ∧
    m.functions.get? i = some f ∧
      List.Forall₂ (fun d text => m.data.get? d =
        some { name := ".str." ++ toString d.index, bytes := text.toUTF8.toList ++ [0] })
        f.dataAddrs (Stmt.textsAll ss)

theorem holdsTexts_of_lower {p : Program} {name : String} {validate : Bool} {journal : Journal} {m : Module}
    (h : (lower p name validate journal).1 = .ok m) : HoldsTexts p m := by
  have hdata := internsData_of_lower h
  have hwf := wellFormed_of_lower h
  obtain ⟨s, hgives, hholds, rfl⟩ := gives_of_lower h
  have hdeclares := (Tables.declarations hgives).declares hholds hwf
  constructor
  · rw [hdata, Ir.eraseDups_map utf8_injective, List.zipIdx_map, List.map_map]
    rfl
  · intro decl hdecl ss hss
    obtain ⟨i, f, hf, hname, haddrs⟩ := (hholds.bodies decl hdecl ss hss).addresses hdata
    exact ⟨i, f, (hdeclares.findFunction decl.name i).mpr ⟨f, hf, hname⟩, hf, haddrs⟩

/-- A program that computes one text twice. -/
def greetings : Program :=
  { globals := []
    functions :=
      [{ name := "greet", external := true, params := [], ret := .str
         body := some
           [.bind { name := "a", ty := .str, init := .literal .str "hi", line := 2 },
            .bind { name := "b", ty := .str, init := .literal .str "ho", line := 3 },
            .ret (.literal .str "hi") 4]
         line := 1 }] }

end SsaCompiler.Lowering

namespace SsaCompiler

open Ir (ModuleAction)

/-- A script that asks for contents outside of a body and in it, for some of them twice. -/
def asking : List ModuleAction :=
  let s : Ir.Signature := { params := [], ret := .void, variadic := false, callConv := .systemV }
  [.data [104], .signature s, .declare "f" ⟨0⟩ .exported,
    .body ⟨0⟩ [.internData [104, 0], .initEntry, .internData [104]], .signature s, .data [104, 0]]

end SsaCompiler
