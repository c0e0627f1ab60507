import SsaCompiler.Proofs.Lowering.Linkage
import SsaCompiler.Proofs.Lowering.Listable
import SsaCompiler.Proofs.Lowering.Texts

/-!
# Lowered modules are legible

What lowering keeps in the tables of a module besides what `Tables` says: the signatures stand in the order of
their first functions, and data, being interned, has the names of its places.  With the bodies of `Holds` it
follows that the module of a program that was read is told by its listing:

    p.Spelled → (lower p name …).1 = .ok m → m.Legible ∧ m.name = name                           (legible_of_lower)
-/

namespace SsaCompiler.Ir

open Numeral (InNumeral)
open Text (IsWord)

/-! ## Names of data -/

theorem isWord_dataName (i : DataId) : IsWord (Module.dataName i) := by
  have hprefix : IsWord ".str." := by decide
  exact hprefix.append (plain_repr i.index)

theorem dataName_inj {i j : DataId} (h : Module.dataName i = Module.dataName j) : i = j := by
  have hread := Numeral.readNat?_repr i.index
  rw [show i.index.repr = j.index.repr from (String.append_right_inj ".str.").mp h, Numeral.readNat?_repr] at hread
  obtain ⟨i⟩ := i
  obtain ⟨j⟩ := j
  cases hread
  rfl

/-- Data has the name of its place. -/
def Module.DataNamed (m : Module) : Prop :=
  ∀ i d, m.data.get? i = some d → d.name = dataName i

theorem Module.InternsData.dataNamed {m : Module} {cs : List (List UInt8)} (h : m.InternsData cs) : m.DataNamed := by
  intro i d hd
  rw [Table.Interns.get? h i] at hd
  obtain ⟨c, -, rfl⟩ := Option.map_eq_some_iff.mp hd
  rfl

theorem Module.DataNamed.nodup {m : Module} (h : m.DataNamed) : (m.data.toList.map (·.name)).Nodup := by
  rw [List.nodup_iff_getElem?_ne_getElem?]
  intro i j hij hj heq
  rw [List.length_map] at hj
  have hi : i < m.data.toList.length := Nat.lt_trans hij hj
  rw [List.getElem?_map, List.getElem?_map, List.getElem?_eq_getElem hi, List.getElem?_eq_getElem hj] at heq
  have hname : ∀ k (hk : k < m.data.toList.length), (m.data.toList[k]).name = dataName ⟨k⟩ :=
    fun k hk => h ⟨k⟩ _ (Table.get?_eq_some_iff.mpr (List.getElem?_eq_getElem hk))
  have hsame : dataName ⟨i⟩ = dataName ⟨j⟩ := by
    rw [← hname i hi, ← hname j hj]
    exact Option.some.inj heq
  exact Nat.ne_of_lt hij (congrArg Id.index (dataName_inj hsame))

/-! ## The order of signatures -/

theorem Signature.interned_snoc (ss : List Signature) (s : Signature) :
    interned (ss ++ [s]) = if s ∈ interned ss then interned ss else interned ss ++ [s] := by
  unfold interned
  rw [List.foldl_append]
  rfl

/-- A signature is added at the end unless it is there. -/
theorem Module.toList_internSignature (m : Module) (s : Signature) :
    (m.internSignature s).2.signatures.toList =
      if s ∈ m.signatures.toList then m.signatures.toList else m.signatures.toList ++ [s] := by
  unfold internSignature
  cases hfind : m.signatures.findId? (· = s) with
  | some i =>
    obtain ⟨s', hs', hp⟩ := Table.findId?_eq_some hfind
    rw [of_decide_eq_true hp] at hs'
    exact (if_pos (List.mem_of_getElem? (Table.get?_eq_some_iff.mp hs'))).symm
  | none =>
    have hnot : s ∉ m.signatures.toList := by
      intro hmem
      obtain ⟨i, hi⟩ := Table.exists_get?_of_mem hmem
      exact of_decide_eq_false (Table.findId?_eq_none_iff.mp hfind i s hi) rfl
    rw [if_neg hnot]
    exact Table.toList_push _ _

/-- Only the signatures and what the functions have of them count. -/
theorem Module.Interned.congr {m n : Module} (h : m.Interned) (hs : n.signatures = m.signatures)
    (hf : n.functions.toList.map (·.signature) = m.functions.toList.map (·.signature)) : n.Interned := by
  obtain ⟨ss, hss, horder⟩ := h
  refine ⟨ss, ?_, by rw [hs]; exact horder⟩
  rw [← hss, hs]
  have hmap := congrArg (List.map m.signatures.get?) hf
  rw [List.map_map, List.map_map] at hmap
  exact hmap

/-! ## Initial values -/

theorem Constant.isWritten_of_ofInt? {ty : Ty} {n : Int} {c : Constant} (h : Constant.ofInt? ty n = some c) :
    c.IsWritten := by
  cases ty with
  | float width =>
    cases h
    have hnumber := Numeral.FloatWidth.isNumber_ofInt width n
    show width.IsNumber (BitVec.ofNat width.bits (width.format.ofInt n)).toNat
    rw [BitVec.toNat_ofNat, show _ % 2 ^ width.bits = _ from Nat.mod_eq_of_lt hnumber.lt]
    exact hnumber
  | int width =>
    cases h
    trivial
  | _ => cases h

end SsaCompiler.Ir

namespace SsaCompiler.Lowering

open Lang (Binding FunctionDecl Program)
open Ir (Module Function FuncId Signature)
open LowerProgram (declarations)
open Text (IsWord)

/-- What lowering keeps in a module of a name. -/
structure Kept (name : String) (m : Module) : Prop where
  name : m.name = name
  signatures : m.Interned

namespace Kept

variable {name : String} {gs : List Binding} {fs : List FunctionDecl} {decl : FunctionDecl} {s s' : ProgramState}
  {id : FuncId} {u : Unit}

theorem empty (name : String) : Kept name (.empty name) :=
  ⟨rfl, [], rfl, rfl⟩

theorem declare (h : Kept name s.module) (hgives : Gives (LowerProgram.declare decl) s id s') :
    Kept name s'.module := by
  rcases LowerProgram.declare_inv hgives with
    ⟨info, f, -, -, hf, rfl⟩ | ⟨-, -, params, ret, i, signatures, -, -, hintern, rfl⟩
  · have hsignatures : (s.redeclared id f decl.body.isSome).module.functions.toList.map (·.signature) =
        s.module.functions.toList.map (·.signature) := Ir.Table.map_set _ hf rfl
    exact ⟨h.name, h.signatures.congr rfl hsignatures⟩
  · refine ⟨h.name, ?_⟩
    obtain ⟨ss, hss, horder⟩ := h.signatures
    obtain ⟨signatures', hm, hwithin, hget⟩ := s.module.internSignature_eq (signatureFor decl params ret)
    have htoList := s.module.toList_internSignature (signatureFor decl params ret)
    rw [hintern] at hm hget htoList
    cases hm
    refine ⟨ss ++ [signatureFor decl params ret], ?_, ?_⟩
    · -- the functions so far keep their signatures, and the new one has the one that was interned
      have hold : ∀ f ∈ s.module.functions.toList, signatures.get? f.signature = s.module.signatures.get? f.signature := by
        intro f hf
        obtain ⟨sig, -, hsig⟩ := List.mem_map.mp (hss ▸ List.mem_map_of_mem hf)
        rw [← hsig]
        exact hwithin _ _ hsig.symm
      show (s.module.functions.push _).toList.map (fun f => signatures.get? f.signature) = _
      rw [Ir.Table.toList_push, List.map_append, List.map_congr_left hold, hss, List.map_append]
      exact congrArg (ss.map some ++ [·]) hget
    · rw [Signature.interned_snoc, ← horder]
      exact htoList

theorem body {fs' : List FunctionDecl} (h : Kept name s.module) (hdeclared : Declared gs fs' decl id s)
    {ss : List Lang.Stmt} (hss : decl.body = some ss) (hgives : Gives (LowerProgram.body id decl ss) s u s') :
    Kept name s'.module := by
  obtain ⟨f, f', data, journal, hget, -, hsignature, -, rfl⟩ := LowerProgram.body_inv hdeclared hss hgives
  exact ⟨h.name, h.signatures.congr rfl (Ir.Table.map_set (·.signature) hget hsignature)⟩

theorem function (h : Kept name s.module) (hholds : Holds gs fs s) (hgives : Gives (LowerProgram.function decl) s u s') :
    Kept name s'.module := by
  obtain ⟨id, s₁, hdeclare, ⟨-, rfl⟩ | ⟨ss, hss, hbody⟩⟩ := LowerProgram.function_inv hgives
  · exact h.declare hdeclare
  · have hdeclared := (LowerProgram.settles_declare hholds decl).of_run hdeclare
    exact (h.declare hdeclare).body hdeclared.2 hss hbody

/-- What is kept when the declarations of a program are lowered. -/
theorem declarations {p : Program} {journal : Journal} (hgives : Gives (declarations p) (.start name journal) u s) :
    Kept name s.module := by
  refine LowerProgram.of_declarations (I := fun _ _ s => Kept name s.module) (empty name) ?_ ?_ hgives
  · intro gs b s u s' _ h hb
    obtain ⟨g, -, hmodule, -⟩ := LowerProgram.global_inv hb
    rw [hmodule]
    exact ⟨h.name, h.signatures.congr rfl rfl⟩
  · intro gs fs f s u s' hholds h hf
    exact h.function hholds hf

end Kept

/-! ## Lowered modules -/

/-- A function that is defined has a body that was read, and is legible. -/
theorem Holds.isTold {gs : List Binding} {fs : List FunctionDecl} {s : ProgramState} (h : Holds gs fs s)
    (hspelled : ∀ f ∈ fs, f.Spelled) {i : FuncId} {f : Function} (hf : s.module.functions.get? i = some f) :
    f.IsTold s.module := by
  obtain ⟨info, hinfo, hid, hdeclared, -⟩ := h.functions i f hf
  cases hdef : info.defined with
  | false => exact .inl (hdeclared hdef)
  | true =>
    obtain ⟨decl, hdecl, hname, hbody⟩ := (h.defined _ info hinfo).mp hdef
    obtain ⟨ss, hss⟩ := Option.isSome_iff_exists.mp hbody
    obtain ⟨Γ, d, n, b, k, linkage, sig, id, -, ⟨-, hin, hsig, hdescribes⟩, hemits, hwithin, hget⟩ :=
      h.bodies decl hdecl ss hss
    obtain ⟨-, hext⟩ := hemits.finished hsig hin hdescribes
    have hlegible := hemits.legible hsig hin hdescribes (hspelled decl hdecl) hss
    -- the name of the function leads to the body that was emitted for it
    obtain ⟨info', hinfo', hid', -⟩ := h.functions id b.func hget
    rw [show b.func.name = decl.name from hext.func.name, hname, hinfo] at hinfo'
    cases hinfo'
    rw [← hid, hid', hget] at hf
    cases hf
    exact .inr ⟨sig, hlegible.toFinished.mono hwithin, hlegible.toListable.mono hwithin, hlegible.named⟩

/-- **The module of a program that was read is told by its listing.** -/
theorem legible_of_lower {p : Program} (hspelled : p.Spelled) {name : String} {validate : Bool} {journal : Journal}
    {m : Module} (h : (lower p name validate journal).1 = .ok m) : m.Legible ∧ m.name = name := by
  have hwf := wellFormed_of_lower h
  have hnamed := (internsData_of_lower h).dataNamed
  obtain ⟨s, hgives, hholds, rfl⟩ := gives_of_lower h
  have hdeclares := (Tables.declarations hgives).declares hholds hwf
  have hkept := Kept.declarations hgives
  have hglobals : ∀ i g, s.module.globals.get? i = some g → ∃ b ∈ p.globals, g.IsOf b := by
    intro i g hg
    refine Ir.forall_mem_right (P := fun g => ∃ b ∈ p.globals, g.IsOf b) hdeclares.globals
      (fun b hb g hg => ⟨b, hb, hg⟩) g ?_
    exact List.mem_of_getElem? (Ir.Table.get?_eq_some_iff.mp hg)
  refine ⟨?_, hkept.name⟩
  refine
    { globals := ?globals
      data := fun i d hd => by rw [hnamed i d hd]; exact Ir.isWord_dataName i
      functions := ?functions
      inits := ?inits
      bodies := fun i f hf => hholds.isTold hspelled.functions hf
      globalNames := hdeclares.globalNames
      dataNames := hnamed.nodup
      functionNames := hdeclares.functionNames
      signatures := hkept.signatures }
  case globals =>
    intro i g hg
    obtain ⟨b, hb, hof⟩ := hglobals i g hg
    rw [hof.name]
    exact (hspelled.globals b hb).name
  case functions =>
    intro i f hf
    obtain ⟨decl, hdecl, hname⟩ := (hdeclares.declaredFunctions f.name).mp
      ⟨i, (hdeclares.findFunction f.name i).mpr ⟨f, hf, rfl⟩⟩
    rw [← hname]
    exact (hspelled.functions decl hdecl).name
  case inits =>
    intro i g hg c hc
    obtain ⟨b, -, hof⟩ := hglobals i g hg
    obtain ⟨-, -, -, n, c', -, -, hofInt, hty, hinit⟩ := hof.init
    rw [hinit] at hc
    cases hc
    exact ⟨hty, Ir.Constant.isWritten_of_ofInt? hofInt⟩

end SsaCompiler.Lowering
