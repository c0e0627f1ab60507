import Mathlib.Data.List.Forall2
import SsaCompiler.Proofs.Ir.Line
import SsaCompiler.Proofs.Ir.ResultTypes
import SsaCompiler.Proofs.Ir.Ssa

/-!
# What a listing says

The lines that functions and modules are listed by, and that listing puts them together:

    f.Outlines m ls → f.lines (.inModule m) = .ok (String.join (ls.map Line.text))         (Function.lines_eq)
    m.listing = .ok (m.header ++ String.join ((m.tableLines ++ m.functionLines fls).map Line.text))
                                                                                           (Module.listing_eq)

A finished function is listed by its one block (`Finished`), and any other only by its head.
-/

namespace SsaCompiler.Ir

open Numeral (IntWidth FloatWidth)
open Text (IsWord)

/-! ## Instructions -/

namespace Function

/-- A value as a function lists it. -/
def shown (f : Function) (v : ValueId) : Shown :=
  ⟨f.valueName? v, v⟩

theorem map_shown_text (f : Function) (vs : List ValueId) : (vs.map f.shown).map Shown.text = vs.map f.valueText :=
  List.map_map

/-- What an instruction says with a result of a type, in a function of a module. -/
inductive Says (m : Module) (f : Function) : Inst → Option Ty → Operation → Prop
  | unary {op : Opcode} (arg : ValueId) (ty : Ty) (h : op.isConversion = true) :
      Says m f (.unary op arg) (some ty) (.unary op ty (f.shown arg))
  | binary {op : Opcode} {lhs : ValueId} (rhs : ValueId) {ty : Ty} (h : op.isArithmetic = true)
      (hty : f.valueType lhs = .ok ty) : Says m f (.binary op lhs rhs) (some ty) (.binary op (f.shown lhs) (f.shown rhs))
  | iconst (width : IntWidth) (bits : BitVec 64) :
      Says m f (.iconst bits) (some (.int width)) (.iconst (.int width) bits.toInt)
  | fconst {width : FloatWidth} {bits : BitVec 64} (h : width.IsNumber bits.toNat) :
      Says m f (.fconst bits) (some (.float width)) (.fconst width bits.toNat)
  | stackLoad {i : SlotId} {slot : SlotData} (h : f.slots.get? i = some slot) :
      Says m f (.stackLoad i) (some slot.ty) (.stackLoad slot.ty i)
  | stackStore (v : ValueId) (i : SlotId) : Says m f (.stackStore v i) none (.stackStore (f.shown v) i)
  | globalLoad {i : GlobalId} {g : Global} (h : m.globals.get? i = some g) :
      Says m f (.globalLoad i) (some g.ty) (.globalLoad g.name)
  | dataAddr {i : DataId} {d : DataObject} (h : m.data.get? i = some d) :
      Says m f (.dataAddr i) (some .ptr) (.dataAddr d.name)
  | call {i : FuncId} {g : Function} {s : Signature} (args : List ValueId) (h : m.functions.get? i = some g)
      (hs : m.signatures.get? g.signature = some s) :
      Says m f (.call i args) s.ret.result? (.call g.name (args.map f.shown))
  | ret (v : Option ValueId) : Says m f (.ret v) none (.ret (v.map f.shown))

variable {m m' : Module} {f f' : Function} {inst inst' : Inst} {ty ty' : Option Ty} {o : Operation}

theorem Says.text (h : f.Says m inst ty o) : f.instText (.inModule m) (ty.getD .void) inst = .ok o.text := by
  cases h with
  | unary arg ty h => rfl
  | binary rhs h hty => rfl
  | iconst width bits => rfl
  | @fconst width bits h => cases width <;> rfl
  | stackLoad h =>
    simp only [instText, Table.get_eq_ok.mpr h]
    rfl
  | stackStore v i => rfl
  | globalLoad h =>
    simp only [instText, Names.inModule, Table.get_eq_ok.mpr h]
    rfl
  | dataAddr h =>
    simp only [instText, Names.inModule, Table.get_eq_ok.mpr h]
    rfl
  | call args h hs =>
    simp only [instText, Names.inModule, Table.get_eq_ok.mpr h, Operation.text, map_shown_text]
    rfl
  | ret v => cases v <;> rfl

theorem HasResult.resultType_eq {i : InstId} {data : InstData} (hr : f.HasResult data ty)
    (hi : f.insts.get? i = some data) : f.resultType i = .ok (ty.getD .void) := by
  unfold resultType result?
  rw [hi]
  cases ty with
  | none =>
    rw [Option.bind_some, Option.map_eq_none_iff.mp hr]
    rfl
  | some ty =>
    obtain ⟨v, hv, hvty⟩ := Option.map_eq_some_iff.mp hr
    rw [Option.bind_some, hv]
    exact hvty

theorem instLine_eq {i : InstId} {data : InstData} (hi : f.insts.get? i = some data) (h : f.Says m data.inst ty o)
    (hr : f.HasResult data ty) :
    f.instLine (.inModule m) i = .ok (Line.inst (data.result.map f.shown) o).text := by
  unfold instLine
  rw [Table.get_eq_ok.mpr hi, hr.resultType_eq hi]
  simp only [Bind.bind, Except.bind, h.text]
  cases data.result <;> rfl

/-! ## Functions -/

/-- The line of an instruction with its result. -/
inductive InstLine (m : Module) (f : Function) : InstData → Line → Prop
  | intro {data : InstData} {ty : Option Ty} {o : Operation} (h : f.Says m data.inst ty o) (hr : f.HasResult data ty) :
      InstLine m f data (.inst (data.result.map f.shown) o)

def slotLines (f : Function) : List Line :=
  f.slots.named.map fun (i, slot) => .slot i slot

/-- The parameters of the entry block with their types. -/
def paramRow (f : Function) (s : Signature) : List (Shown × Ty) :=
  s.params.zipIdx.map fun (ty, k) => (f.shown ⟨k⟩, ty)

/-- The lines of a function that is declared, and of one that is finished. -/
inductive Outlines (m : Module) (f : Function) : List Line → Prop
  | declared {s : Signature} (hs : m.signatures.get? f.signature = some s) (h : f.isDefined = false) :
      Outlines m f [.head f.linkage f.name s false]
  | finished {s : Signature} {insts : List Line} (h : Finished m s f)
      (hi : List.Forall₂ (f.InstLine m) f.insts.toList insts) :
      Outlines m f ([.head f.linkage f.name s true] ++ f.slotLines ++ [.block entryId (f.paramRow s)] ++ insts ++ [.close])

theorem mapM_eq_ok {ε α β : Type} {g : α → Except ε β} {as : List α} {bs : List β}
    (h : List.Forall₂ (fun a b => g a = .ok b) as bs) : as.mapM g = .ok bs := by
  induction h with
  | nil => rfl
  | cons hab _ ih =>
    rw [List.mapM_cons, hab, ih]
    rfl

/-- The ids of a table name its entries in order. -/
theorem forall₂_idsBelow {e : Entity} {α β : Type} {R : Id e → β → Prop} {S : α → β → Prop} {t : Table e α}
    {bs : List β} (h : List.Forall₂ S t.toList bs) (hR : ∀ i a b, t.get? i = some a → S a b → R i b) :
    List.Forall₂ R (idsBelow e t.size).toList bs := by
  obtain ⟨hlength, hall⟩ := List.forall₂_iff_get.mp h
  have hsize : (idsBelow e t.size).toList.length = t.toList.length := by simp [Table.toList, Table.size]
  refine List.forall₂_iff_get.mpr ⟨hsize.trans hlength, fun k hk hk' => ?_⟩
  have hk₁ : k < t.toList.length := hsize ▸ hk
  refine hR _ (t.toList[k]) _ ?_ (hall k hk₁ hk')
  rw [Table.get?_eq_some_iff]
  simp [idsBelow]

theorem params_eq {s : Signature} (h : Ssa m s f) :
    (idsBelow .value s.params.length).toList.mapM f.paramText = .ok ((f.paramRow s).map typedText) := by
  refine mapM_eq_ok (List.forall₂_iff_get.mpr ⟨by simp [paramRow], fun k hk hk' => ?_⟩)
  have hk : k < s.params.length := by simpa using hk
  have hty : f.valueType ⟨k⟩ = .ok s.params[k] :=
    valueType_eq_ok.mpr ⟨_, h.params k _ (List.getElem?_eq_getElem hk), rfl⟩
  simp only [paramText, idsBelow, paramRow, List.get_eq_getElem, Array.getElem_toList, Array.getElem_map,
    Array.getElem_range, List.getElem_map, List.getElem_zipIdx, Nat.zero_add, hty]
  rfl

theorem block_eq {s : Signature} (h : Ssa m s f) {insts : List Line}
    (hi : List.Forall₂ (f.InstLine m) f.insts.toList insts) :
    f.blockLines (.inModule m) entryId =
      .ok (String.join ((.block entryId (f.paramRow s) :: insts).map Line.text)) := by
  have hblock : f.blocks.get entryId = .ok ⟨idsBelow .value s.params.length, idsBelow .inst f.insts.size⟩ := by
    rw [h.blocks]
    rfl
  have hinsts : (idsBelow .inst f.insts.size).toList.mapM (f.instLine (.inModule m)) = .ok (insts.map Line.text) := by
    refine mapM_eq_ok (List.forall₂_map_right_iff.mpr (forall₂_idsBelow hi fun i data l hdata hl => ?_))
    obtain ⟨htold, hresult⟩ := hl
    exact instLine_eq hdata htold hresult
  unfold blockLines
  simp only [hblock, Bind.bind, Except.bind, params_eq h, hinsts, List.map_cons, String.join_cons]
  rfl

theorem signature_eq {i : SigId} {s : Signature} (h : m.signatures.get? i = some s) :
    (Names.inModule m).signature i = .ok s.text := by
  simp only [Names.inModule, Table.get_eq_ok.mpr h]
  rfl

theorem lines_eq {ls : List Line} (h : f.Outlines m ls) :
    f.lines (.inModule m) = .ok (String.join (ls.map Line.text)) := by
  cases h with
  | declared hs h =>
    unfold lines
    simp only [signature_eq hs, h, List.map_singleton, String.join_cons, String.join_nil, String.append_empty]
    rfl
  | @finished s insts h hi =>
    have hdefined : f.isDefined = true := by
      unfold isDefined
      rw [h.entry]
      rfl
    have hslots : String.join (f.slots.named.map slotLine) = String.join (f.slotLines.map Line.text) := by
      rw [slotLines, List.map_map]
      rfl
    have hblocks : f.order.toList.mapM (f.blockLines (.inModule m)) =
        .ok [String.join ((.block entryId (f.paramRow s) :: insts).map Line.text)] := by
      rw [h.order]
      exact mapM_eq_ok (.cons (block_eq h.toSsa hi) .nil)
    unfold lines
    simp only [signature_eq h.signature, hdefined, hblocks, hslots, if_true, Bind.bind, Except.bind]
    simp only [List.map_append, List.map_cons, List.map_nil, String.join_append, String.join_cons, String.join_nil,
      String.append_empty, String.append_assoc, Line.text, if_true]
    rfl

end Function

/-! ## Modules -/

namespace Module

/-- The lines of a module before its functions. -/
def tableLines (m : Module) : List Line :=
  m.globals.toList.map .global ++ m.data.toList.map .data

/-- The lines of functions, with blank lines between them and before the first where something stands before it. -/
def functionLines (m : Module) (fls : List (List Line)) : List Line :=
  if fls = [] then []
  else (if m.globals.isEmpty && m.data.isEmpty then [] else [.blank]) ++ [Line.blank].intercalate fls

theorem filter_intercalate (rows : List (List Line)) :
    ([Line.blank].intercalate rows).filter (·.part ≠ .gap) = rows.flatten.filter (·.part ≠ .gap) := by
  match rows with
  | [] => rfl
  | [ls] => simp [List.intercalate]
  | ls :: ls' :: rows =>
    have ih := filter_intercalate (ls' :: rows)
    rw [List.intercalate_cons_cons, List.append_assoc, List.filter_append, List.filter_append, ih,
      List.flatten_cons (l := ls), List.filter_append]
    rfl

/-- The lines of the functions are what is left without the blank lines. -/
theorem filter_functionLines (m : Module) (fls : List (List Line)) :
    (m.functionLines fls).filter (·.part ≠ .gap) = fls.flatten.filter (·.part ≠ .gap) := by
  unfold functionLines
  split
  · next h =>
    rw [h]
    rfl
  · rw [List.filter_append, filter_intercalate]
    split <;> rfl

theorem mem_functionLines {m : Module} {fls : List (List Line)} {l : Line} (h : l ∈ m.functionLines fls) :
    l = .blank ∨ ∃ ls ∈ fls, l ∈ ls := by
  by_cases hgap : l.part = .gap
  · exact .inl (Line.eq_blank_of_part hgap)
  · have hmem : l ∈ (m.functionLines fls).filter (·.part ≠ .gap) := List.mem_filter.mpr ⟨h, decide_eq_true hgap⟩
    rw [filter_functionLines] at hmem
    exact .inr (List.mem_flatten.mp (List.mem_filter.mp hmem).1)

def header (m : Module) : String :=
  if m.name = "" then "" else "; module " ++ m.name ++ "\n\n"

theorem join_intercalate (rows : List (List Line)) :
    "\n".intercalate (rows.map fun ls => String.join (ls.map Line.text)) =
      String.join (([Line.blank].intercalate rows).map Line.text) := by
  match rows with
  | [] => rfl
  | [ls] => simp [List.intercalate, String.intercalate_singleton]
  | ls :: ls' :: rows =>
    have ih := join_intercalate (ls' :: rows)
    rw [List.intercalate_cons_cons, List.map_append, List.map_append, String.join_append, String.join_append, ← ih,
      List.map_cons, List.map_cons, String.intercalate_cons_cons]
    rfl

theorem listing_eq {m : Module} {fls : List (List Line)} (h : List.Forall₂ (·.Outlines m) m.functions.toList fls) :
    m.listing = .ok (m.header ++ String.join ((m.tableLines ++ m.functionLines fls).map Line.text)) := by
  have hfunctions : m.functions.toList.mapM (·.lines (.inModule m)) =
      .ok (fls.map fun ls => String.join (ls.map Line.text)) :=
    Function.mapM_eq_ok (List.forall₂_map_right_iff.mpr (h.imp fun f ls hf => Function.lines_eq hf))
  unfold listing
  simp only [hfunctions, Bind.bind, Except.bind, List.map_eq_nil_iff, join_intercalate]
  have htables : String.join (m.tableLines.map Line.text) =
      String.join (m.globals.toList.map Global.line) ++ String.join (m.data.toList.map DataObject.line) := by
    rw [tableLines, List.map_append, List.map_map, List.map_map, String.join_append]
    rfl
  have hbody : String.join ((m.functionLines fls).map Line.text) =
      if fls = [] then ""
      else (if (m.globals.isEmpty && m.data.isEmpty) = true then "" else "\n") ++
        String.join (([Line.blank].intercalate fls).map Line.text) := by
    unfold functionLines
    split
    · rfl
    · rw [List.map_append, String.join_append]
      split <;> rfl
  rw [List.map_append, String.join_append, htables, hbody]
  simp only [String.append_assoc]
  rfl

end Module

end SsaCompiler.Ir
