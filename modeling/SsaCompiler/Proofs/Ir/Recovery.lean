import SsaCompiler.Proofs.Ir.Interning
import SsaCompiler.Proofs.Ir.Legible

/-!
# Legible modules are told by their listings

What the lines of a module say, read back: the globals and data objects line by line, functions from one head to
the next, and the instructions of a function from the first to the last, as the type of an instruction follows
from what it names and from the types of the values before it (`Says.unique`).

    f.Outlines m ls → f'.Outlines m' ls → f = f'                                           (Function.Outlines.unique)
    m.listing = m'.listing → m = m'                                                        (Module.Legible.listing_inj)
-/

namespace SsaCompiler.Ir

open Text (IsWord)

/-! ## Tables -/

namespace Table

variable {e : Entity} {α : Type} {t u : Table e α}

/-- Where the keys are distinct, an entry is told by its key. -/
theorem get?_inj {key : α → String} (h : (t.toList.map key).Nodup) {i j : Id e} {a b : α} (ha : t.get? i = some a)
    (hb : t.get? j = some b) (hkey : key a = key b) : i = j := by
  have hi : t.findId? (key · = key a) = some i := (findId?_eq_some_iff h).mpr ⟨a, ha, rfl⟩
  have hj : t.findId? (key · = key a) = some j := (findId?_eq_some_iff h).mpr ⟨b, hb, hkey.symm⟩
  exact Option.some.inj (hi.symm.trans hj)

theorem ext_toList (h : t.toList = u.toList) : t = u := by
  obtain ⟨t⟩ := t
  obtain ⟨u⟩ := u
  exact congrArg Table.mk (Array.toList_inj.mp h)

theorem eq_of_within (h : t.Within u) (h' : u.Within t) : t = u := by
  refine ext_toList (List.ext_getElem? fun k => ?_)
  rw [getElem?_toList, getElem?_toList]
  cases ht : t.get? ⟨k⟩ with
  | some a => exact (h _ _ ht).symm
  | none =>
    cases hu : u.get? ⟨k⟩ with
    | none => rfl
    | some b =>
      rw [h' _ _ hu] at ht
      cases ht

/-- The entries of two tables that stand beside the entries of one row. -/
theorem exists_beside {β γ : Type} {u : Table e β} {cs : List γ} {R : α → γ → Prop} {S : β → γ → Prop}
    (h : List.Forall₂ R t.toList cs) (h' : List.Forall₂ S u.toList cs) {i : Id e} {a : α} (ha : t.get? i = some a) :
    ∃ b c, u.get? i = some b ∧ c ∈ cs ∧ R a c ∧ S b c := by
  obtain ⟨hlength, hall⟩ := List.forall₂_iff_get.mp h
  obtain ⟨hlength', hall'⟩ := List.forall₂_iff_get.mp h'
  obtain ⟨hk, hget⟩ := List.getElem?_eq_some_iff.mp (get?_eq_some_iff.mp ha)
  have hk' : i.index < cs.length := hlength ▸ hk
  have hk'' : i.index < u.toList.length := hlength'.symm ▸ hk'
  refine ⟨u.toList[i.index], cs[i.index], ?_, List.getElem_mem hk', ?_, hall' _ hk'' hk'⟩
  · exact get?_eq_some_iff.mpr (List.getElem?_eq_getElem hk'')
  · rw [← hget]
    exact hall _ hk hk'

end Table

/-! ## Instructions -/

/-- Two modules whose globals, data objects and callees are the same. -/
structure Module.SameSymbols (m m' : Module) : Prop where
  globals : m.globals = m'.globals
  globalNames : (m.globals.toList.map (·.name)).Nodup
  data : m.data = m'.data
  dataNames : (m.data.toList.map (·.name)).Nodup
  callee : ∀ {i i' : FuncId} {g g' : Function} {s s' : Signature}, m.functions.get? i = some g →
    m.signatures.get? g.signature = some s → m'.functions.get? i' = some g' →
    m'.signatures.get? g'.signature = some s' → g.name = g'.name → i = i' ∧ s = s'

namespace Function

variable {m m' : Module} {f f' : Function} {s : Signature}

theorem value_shown_inj {v w : ValueId} (h : f.shown v = f'.shown w) : v = w :=
  (Shown.mk.inj h).2

theorem map_shown_inj {vs ws : List ValueId} (h : vs.map f.shown = ws.map f'.shown) : vs = ws := by
  have hvalues := congrArg (List.map Shown.value) h
  rw [List.map_map, List.map_map] at hvalues
  exact (List.map_id vs).symm.trans (hvalues.trans (List.map_id ws))

theorem optionMap_shown_inj {v w : Option ValueId} (h : v.map f.shown = w.map f'.shown) : v = w := by
  have hvalues := congrArg (Option.map Shown.value) h
  rw [Option.map_map, Option.map_map] at hvalues
  exact Option.map_id'.symm.trans (hvalues.trans Option.map_id')

/-- What an instruction says tells the instruction and the type of its result. -/
theorem Says.unique {inst inst' : Inst} {ty ty' : Option Ty} {o o' : Operation} (h : f.Says m inst ty o)
    (h' : f'.Says m' inst' ty' o') (heq : o = o') (hm : m.SameSymbols m')
    (hf : ∀ v ∈ inst.operands, ∀ t, f.valueType v = .ok t → f'.valueType v = .ok t) : inst = inst' ∧ ty = ty' := by
  cases h <;> cases h'
  case unary.unary =>
    obtain ⟨rfl, rfl, harg⟩ := Operation.unary.inj heq
    rw [value_shown_inj harg]
    exact ⟨rfl, rfl⟩
  case binary.binary op lhs rhs ty h hty op' lhs' rhs' ty' h' hty' =>
    obtain ⟨rfl, hlhs, hrhs⟩ := Operation.binary.inj heq
    obtain rfl := value_shown_inj hlhs
    obtain rfl := value_shown_inj hrhs
    rw [hf lhs List.mem_cons_self ty hty] at hty'
    cases hty'
    exact ⟨rfl, rfl⟩
  case iconst.iconst width bits width' bits' =>
    obtain ⟨hwidth, hbits⟩ := Operation.iconst.inj heq
    cases hwidth
    rw [BitVec.eq_of_toInt_eq hbits]
    exact ⟨rfl, rfl⟩
  case fconst.fconst =>
    obtain ⟨rfl, hbits⟩ := Operation.fconst.inj heq
    rw [BitVec.eq_of_toNat_eq hbits]
    exact ⟨rfl, rfl⟩
  case stackLoad.stackLoad =>
    obtain ⟨hty, rfl⟩ := Operation.stackLoad.inj heq
    rw [hty]
    exact ⟨rfl, rfl⟩
  case stackStore.stackStore =>
    obtain ⟨hvalue, rfl⟩ := Operation.stackStore.inj heq
    rw [value_shown_inj hvalue]
    exact ⟨rfl, rfl⟩
  case globalLoad.globalLoad i g h i' g' h' =>
    rw [← hm.globals] at h'
    obtain rfl := Table.get?_inj hm.globalNames h h' (Operation.globalLoad.inj heq)
    cases h.symm.trans h'
    exact ⟨rfl, rfl⟩
  case dataAddr.dataAddr i d h i' d' h' =>
    rw [← hm.data] at h'
    rw [Table.get?_inj hm.dataNames h h' (Operation.dataAddr.inj heq)]
    exact ⟨rfl, rfl⟩
  case call.call i g s args h hs i' g' s' args' h' hs' =>
    obtain ⟨hname, hargs⟩ := Operation.call.inj heq
    obtain ⟨rfl, rfl⟩ := hm.callee h hs h' hs' hname
    rw [map_shown_inj hargs]
    exact ⟨rfl, rfl⟩
  case ret.ret =>
    rw [optionMap_shown_inj (Operation.ret.inj heq)]
    exact ⟨rfl, rfl⟩
  all_goals cases heq

/-! ## Functions -/

/-- Two instructions on one line have one result. -/
theorem InstLine.inv {data data' : InstData} {l : Line} (h : f.InstLine m data l) (h' : f'.InstLine m' data' l) :
    data.result = data'.result ∧ ∃ ty ty' o, f.Says m data.inst ty o ∧ f.HasResult data ty ∧
      f'.Says m' data'.inst ty' o ∧ f'.HasResult data' ty' := by
  generalize hl : l = l' at h'
  obtain ⟨htold, hresult⟩ := h
  obtain ⟨htold', hresult'⟩ := h'
  obtain ⟨hshown, rfl⟩ := Line.inst.inj hl
  exact ⟨optionMap_shown_inj hshown, _, _, _, htold, hresult, htold', hresult'⟩

theorem slots_eq_of_slotLines (h : f.slotLines = f'.slotLines) : f.slots = f'.slots := by
  have hline : Function.Injective fun (p : SlotId × SlotData) => Line.slot p.1 p.2 := by
    rintro ⟨i, slot⟩ ⟨i', slot'⟩ heq
    obtain ⟨rfl, rfl⟩ := Line.slot.inj heq
    rfl
  have hnamed : f.slots.named = f'.slots.named := hline.list_map h
  have hsnd (t : Table .slot SlotData) : t.named.map (·.2) = t.toList := by
    rw [Table.named, List.map_map]
    exact List.zipIdx_map_fst 0 t.toList
  refine Table.ext_toList ?_
  rw [← hsnd, hnamed, hsnd]

section

variable {insts : List Line} (h : f.Legible m s) (h' : f'.Legible m' s) (hm : m.SameSymbols m')
  (hi : List.Forall₂ (f.InstLine m) f.insts.toList insts) (hi' : List.Forall₂ (f'.InstLine m') f'.insts.toList insts)

include h h' in
theorem names_eq_of_paramRow (hparams : f.paramRow s = f'.paramRow s) : f.names = f'.names := by
  obtain ⟨names, hnamed, hlength⟩ := h.named
  obtain ⟨names', hnamed', hlength'⟩ := h'.named
  have hsame : names = names' := by
    refine List.ext_getElem? fun k => ?_
    by_cases hk : k < s.params.length
    · have hrow (f : Function) : (f.paramRow s)[k]? = some (f.shown ⟨k⟩, s.params[k]) := by
        simp [paramRow, hk]
      have hshown := (hrow f).symm.trans ((congrArg (·[k]?) hparams).trans (hrow f'))
      rw [← hnamed.name_shown, ← hnamed'.name_shown, (Prod.mk.inj (Option.some.inj hshown)).1]
    · rw [List.getElem?_eq_none (by omega), List.getElem?_eq_none (by omega)]
  rw [hnamed.eq, hnamed'.eq, hsame]

/-- A parameter has the type that the signature gives it. -/
theorem valueType_param (h : Ssa m s f) {v : ValueId} (hv : v.index < s.params.length) :
    f.valueType v = .ok s.params[v.index] :=
  valueType_eq_ok.mpr ⟨_, h.params v.index _ (List.getElem?_eq_getElem hv), rfl⟩

theorem resultType_of_result? {f : Function} {i : InstId} {v : ValueId} (h : f.result? i = some v) :
    f.resultType i = f.valueType v := by
  unfold resultType
  rw [h]

include h h' hm hi hi' in
/-- Instruction by instruction two functions with the same lines are the same: an instruction uses only values
before it, which have the same types by then. -/
theorem same_insts {i : InstId} {data : InstData} (hdata : f.insts.get? i = some data) :
    f'.insts.get? i = some data ∧ f.resultType i = f'.resultType i := by
  induction hn : i.index using Nat.strong_induction_on generalizing i data with
  | _ n ih =>
    subst hn
    obtain ⟨data', l, hdata', -, hl, hl'⟩ := Table.exists_beside hi hi' hdata
    obtain ⟨hresult, ty, ty', o, htold, hty, htold', hty'⟩ := hl.inv hl'
    have htypes : ∀ v ∈ data.inst.operands, ∀ t, f.valueType v = .ok t → f'.valueType v = .ok t := by
      intro v hv t ht
      rw [← ht]
      rcases h.operands i data.inst (inst?_eq_some.mpr ⟨data, hdata, rfl⟩) v hv with hparam | ⟨j, hlt, hj⟩
      · rw [valueType_param h.toSsa hparam, valueType_param h'.toSsa hparam]
      · obtain ⟨earlier, hearlier, hv⟩ := result?_eq_some.mp hj
        obtain ⟨hearlier', hsame⟩ := ih j.index hlt hearlier rfl
        rw [← resultType_of_result? hj, hsame, resultType_of_result? (result?_eq_some.mpr ⟨earlier, hearlier', hv⟩)]
    obtain ⟨hinst, hsame⟩ := htold.unique htold' rfl hm htypes
    refine ⟨?_, ?_⟩
    · obtain ⟨inst, result⟩ := data
      obtain ⟨inst', result'⟩ := data'
      cases hinst
      cases hresult
      exact hdata'
    · rw [hty.resultType_eq hdata, hty'.resultType_eq hdata', hsame]

include h h' hm hi hi' in
theorem insts_within : f.insts.Within f'.insts :=
  fun _ _ hdata => (same_insts h h' hm hi hi' hdata).1

include h h' hm hi hi' in
theorem values_within : f.values.Within f'.values := by
  intro v data hdata
  rcases h.values v (Table.index_lt_of_get? hdata) with hparam | ⟨i, hv⟩
  · have hget := h.params v.index _ (List.getElem?_eq_getElem hparam)
    rw [← hdata, show f.values.get? v = _ from hget]
    exact h'.params v.index _ (List.getElem?_eq_getElem hparam)
  · obtain ⟨instData, hinst, hresult⟩ := result?_eq_some.mp hv
    obtain ⟨hinst', htypes⟩ := same_insts h h' hm hi hi' hinst
    have hv' : f'.result? i = some v := result?_eq_some.mpr ⟨instData, hinst', hresult⟩
    obtain ⟨ty, hget⟩ := h.results i v hv
    obtain ⟨ty', hget'⟩ := h'.results i v hv'
    have hsame : f.valueType v = f'.valueType v := by
      rw [← resultType_of_result? hv, htypes, resultType_of_result? hv']
    rw [valueType_eq_ok.mpr ⟨_, hget, rfl⟩, valueType_eq_ok.mpr ⟨_, hget', rfl⟩] at hsame
    cases hsame
    rw [← hdata, hget, hget']

end

/-- **A legible function is told by its lines**, where its signature is known. -/
theorem Legible.unique {insts : List Line} (h : f.Legible m s) (h' : f'.Legible m' s) (hm : m.SameSymbols m')
    (hm' : m'.SameSymbols m) (hname : f.name = f'.name) (hsignature : f.signature = f'.signature)
    (hlinkage : f.linkage = f'.linkage) (hslots : f.slotLines = f'.slotLines) (hparams : f.paramRow s = f'.paramRow s)
    (hi : List.Forall₂ (f.InstLine m) f.insts.toList insts) (hi' : List.Forall₂ (f'.InstLine m') f'.insts.toList insts) :
    f = f' := by
  have hinsts : f.insts = f'.insts :=
    Table.eq_of_within (insts_within h h' hm hi hi') (insts_within h' h hm' hi' hi)
  have hvalues : f.values = f'.values :=
    Table.eq_of_within (values_within h h' hm hi hi') (values_within h' h hm' hi' hi)
  have hnames := names_eq_of_paramRow h h' hparams
  have hblocks : f.blocks = f'.blocks := by rw [h.blocks, h'.blocks, hinsts]
  have horder : f.order = f'.order := h.order.trans h'.order.symm
  have hentry : f.entry = f'.entry := h.entry.trans h'.entry.symm
  have hslots := slots_eq_of_slotLines hslots
  cases f
  cases f'
  exact (mk.injEq ..).mpr ⟨hname, hsignature, hlinkage, hinsts, hvalues, hnames, hblocks, horder, hslots, hentry⟩

/-- The lines of a function begin with the only head among them. -/
theorem Outlines.exists_head {ls : List Line} (h : f.Outlines m ls) :
    ∃ s opens rest, m.signatures.get? f.signature = some s ∧ ls = .head f.linkage f.name s opens :: rest ∧
      ∀ l ∈ rest, l.part = .body := by
  cases h with
  | @declared s hs h => exact ⟨s, false, [], hs, rfl, List.forall_mem_nil _⟩
  | @finished s insts h hi =>
    refine ⟨s, true, f.slotLines ++ [.block entryId (f.paramRow s)] ++ insts ++ [.close], h.signature, by simp, ?_⟩
    have hslots : ∀ l ∈ f.slotLines, l.part = .body := by
      intro l hl
      obtain ⟨p, -, rfl⟩ := List.mem_map.mp hl
      rfl
    have hinsts : ∀ l ∈ insts, l.part = .body := by
      refine forall_mem_right hi fun data _ l hl => ?_
      obtain ⟨htold, hresult⟩ := hl
      rfl
    simp only [List.mem_append, List.mem_singleton]
    rintro l (((hl | rfl) | hl) | rfl)
    · exact hslots l hl
    · rfl
    · exact hinsts l hl
    · rfl

/-- Functions with the same lines have the same head. -/
theorem Outlines.head_inj {ls : List Line} (h : f.Outlines m ls) (h' : f'.Outlines m' ls) :
    f.linkage = f'.linkage ∧ f.name = f'.name ∧
      ∃ s, m.signatures.get? f.signature = some s ∧ m'.signatures.get? f'.signature = some s := by
  obtain ⟨s, opens, rest, hs, rfl, -⟩ := h.exists_head
  obtain ⟨s', opens', rest', hs', heq, -⟩ := h'.exists_head
  obtain ⟨hlinkage, hname, rfl, -⟩ := Line.head.inj (List.cons.inj heq).1
  exact ⟨hlinkage, hname, s, hs, hs'⟩

/-- The lines of slots end where a block begins. -/
theorem slotLines_append_inj {b b' : BlockId} {ps ps' : List (Shown × Ty)} {ls ls' : List Line}
    (h : f.slotLines ++ .block b ps :: ls = f'.slotLines ++ .block b' ps' :: ls') :
    f.slotLines = f'.slotLines ∧ Line.block b ps :: ls = .block b' ps' :: ls' := by
  have hslots (f : Function) : ∀ l ∈ f.slotLines, l.isSlot = true := by
    intro l hl
    obtain ⟨p, -, rfl⟩ := List.mem_map.mp hl
    rfl
  have hblock {b : BlockId} {ps : List (Shown × Ty)} {ls : List Line} :
      ∀ l ∈ (Line.block b ps :: ls).head?, l.isSlot = false := by
    rintro l ⟨⟩
    rfl
  refine ⟨?_, ?_⟩
  · rw [← Text.takeWhile_span (hslots f) (hblock (b := b)), h, Text.takeWhile_span (hslots f') hblock]
  · rw [← Text.dropWhile_span (hslots f) (hblock (b := b)), h, Text.dropWhile_span (hslots f') hblock]

/-- **A function is told by its lines.** -/
theorem Outlines.unique {ls : List Line} (h : f.Outlines m ls) (h' : f'.Outlines m' ls) (hf : f.IsTold m)
    (hf' : f'.IsTold m') (hm : m.SameSymbols m') (hm' : m'.SameSymbols m) (hsignature : f.signature = f'.signature) :
    f = f' := by
  obtain ⟨hlinkage, hname, -⟩ := h.head_inj h'
  generalize hls : ls = ls' at h'
  cases h with
  | declared hs h =>
    cases h' with
    | declared hs' h' => rw [hf.eq_declared h, hf'.eq_declared h', hname, hsignature, hlinkage]
    | finished h' hi' => simp at hls
  | @finished s insts h hi =>
    cases h' with
    | declared hs' h' => simp at hls
    | @finished s' insts' h' hi' =>
      simp only [List.append_assoc, List.cons_append, List.nil_append, List.cons.injEq, Line.head.injEq] at hls
      obtain ⟨⟨-, -, rfl, -⟩, hrest⟩ := hls
      obtain ⟨hslots, hblock⟩ := slotLines_append_inj hrest
      obtain ⟨hparams, hinsts⟩ := List.cons.inj hblock
      obtain rfl := List.append_cancel_right hinsts
      exact (hf.legible h).unique (hf'.legible h') hm hm' hname hsignature hlinkage hslots
        (Line.block.inj hparams).2 hi hi'

end Function

/-! ## Modules -/

/-- The signatures that are interned are the distinct ones in their order. -/
theorem Signature.interned_eq_eraseDups (ss : List Signature) : interned ss = ss.eraseDups := by
  induction ss using List.reverseRecOn with
  | nil => rfl
  | append_singleton ss s ih =>
    unfold interned at ih ⊢
    rw [eraseDups_snoc, List.foldl_append, ih]
    simp only [List.foldl_cons, List.foldl_nil, List.mem_eraseDups]

namespace Module

variable {m m' : Module} {fls : List (List Line)}

/-- Whether some lines are those of functions, one after the other. -/
def IsGrouped (fls : List (List Line)) : Prop :=
  ∀ ls ∈ fls, ∃ l rest, ls = l :: rest ∧ l.part = .head ∧ ∀ l ∈ rest, l.part = .body

theorem isGrouped (h : List.Forall₂ (·.Outlines m) m.functions.toList fls) : IsGrouped fls := by
  refine forall_mem_right h fun f _ ls hlines => ?_
  obtain ⟨s, opens, rest, -, rfl, hrest⟩ := hlines.exists_head
  exact ⟨_, rest, rfl, rfl, hrest⟩

namespace IsGrouped

theorem part_cases (h : IsGrouped fls) {ls : List Line} (hls : ls ∈ fls) {l : Line} (hl : l ∈ ls) :
    l.part = .head ∨ l.part = .body := by
  obtain ⟨first, rest, rfl, hfirst, hrest⟩ := h ls hls
  rcases List.mem_cons.mp hl with rfl | hl
  · exact .inl hfirst
  · exact .inr (hrest l hl)

/-- The tables are what the listing begins with. -/
theorem filter_table (h : IsGrouped fls) :
    (m.tableLines ++ m.functionLines fls).filter (·.part = .table) = m.tableLines := by
  have htables : ∀ l ∈ m.tableLines, decide (l.part = .table) = true := by
    simp [tableLines, or_imp, forall_and, Line.part]
  have hfunctions : ∀ l ∈ m.functionLines fls, ¬ decide (l.part = .table) = true := by
    intro l hl
    rcases mem_functionLines hl with rfl | ⟨ls, hls, hl⟩
    · decide
    · rcases h.part_cases hls hl with hpart | hpart <;> rw [hpart] <;> decide
  rw [List.filter_append, List.filter_eq_self.mpr htables, List.filter_eq_nil_iff.mpr hfunctions, List.append_nil]

/-- The functions are the rest, but for blank lines. -/
theorem filter_function (h : IsGrouped fls) :
    ((m.tableLines ++ m.functionLines fls).filter (·.part ≠ .table)).filter (·.part ≠ .gap) = fls.flatten := by
  have htables : ∀ l ∈ m.tableLines, ¬ decide (l.part ≠ .table) = true := by
    simp [tableLines, or_imp, forall_and, Line.part]
  have hfunctions : ∀ l ∈ m.functionLines fls, decide (l.part ≠ .table) = true := by
    intro l hl
    rcases mem_functionLines hl with rfl | ⟨ls, hls, hl⟩
    · decide
    · rcases h.part_cases hls hl with hpart | hpart <;> rw [hpart] <;> decide
  have hrest : ∀ l ∈ fls.flatten, decide (l.part ≠ .gap) = true := by
    intro l hl
    obtain ⟨ls, hls, hl⟩ := List.mem_flatten.mp hl
    rcases h.part_cases hls hl with hpart | hpart <;> rw [hpart] <;> decide
  rw [List.filter_append, List.filter_eq_nil_iff.mpr htables, List.filter_eq_self.mpr hfunctions, List.nil_append,
    filter_functionLines, List.filter_eq_self.mpr hrest]

theorem unique {fls' : List (List Line)} (h : IsGrouped fls) (h' : IsGrouped fls') (heq : fls.flatten = fls'.flatten) :
    fls = fls' := by
  have hheads {fls : List (List Line)} (h : IsGrouped fls) :
      ∀ ls ∈ fls, ∃ l rest, ls = l :: rest ∧ decide (l.part = .head) = true ∧
        ∀ l ∈ rest, decide (l.part = .head) = false := by
    intro ls hls
    obtain ⟨l, rest, rfl, hl, hrest⟩ := h ls hls
    exact ⟨l, rest, rfl, decide_eq_true hl, fun l hl => by rw [hrest l hl]; rfl⟩
  exact Text.groups_inj (hheads h) (hheads h') heq

end IsGrouped

theorem globals_eq_of_tableLines (h : m.tableLines = m'.tableLines) : m.globals = m'.globals := by
  have hglobals (m : Module) : m.tableLines.filterMap Line.global? = m.globals.toList := by
    simp [tableLines, Function.comp_def, Line.global?]
  exact Table.ext_toList ((hglobals m).symm.trans ((congrArg _ h).trans (hglobals m')))

theorem data_eq_of_tableLines (h : m.tableLines = m'.tableLines) : m.data = m'.data := by
  have hdata (m : Module) : m.tableLines.filterMap Line.data? = m.data.toList := by
    simp [tableLines, Function.comp_def, Line.data?]
  exact Table.ext_toList ((hdata m).symm.trans ((congrArg _ h).trans (hdata m')))

namespace Legible

/-- The heads of functions tell their signatures. -/
theorem map_signature? {fs : List Function} {ss : List Signature} (hls : List.Forall₂ (·.Outlines m) fs fls)
    (hss : (fs.map fun f => m.signatures.get? f.signature) = ss.map some) :
    (fls.map fun ls => ls.head?.bind Line.signature?) = ss.map some := by
  rw [← hss]
  clear hss
  induction hls with
  | nil => rfl
  | cons hlines _ ih =>
    obtain ⟨s, opens, rest, hs, rfl, -⟩ := hlines.exists_head
    rw [List.map_cons, List.map_cons, ih, hs]
    rfl

/-- The signatures of modules with the same heads are the same. -/
theorem signatures_eq (h : m.Legible) (h' : m'.Legible) (hls : List.Forall₂ (·.Outlines m) m.functions.toList fls)
    (hls' : List.Forall₂ (·.Outlines m') m'.functions.toList fls) : m.signatures = m'.signatures := by
  obtain ⟨ss, hss, hinterned⟩ := h.signatures
  obtain ⟨ss', hss', hinterned'⟩ := h'.signatures
  have hsame := (map_signature? hls hss).symm.trans (map_signature? hls' hss')
  have hinj : Function.Injective (some : Signature → Option Signature) := fun _ _ => Option.some.inj
  exact Table.ext_toList (by rw [hinterned, hinterned', hinj.list_map hsame])

/-- A signature stands in one place. -/
theorem signature_inj (h : m.Legible) {i j : SigId} {s : Signature} (hi : m.signatures.get? i = some s)
    (hj : m.signatures.get? j = some s) : i = j := by
  obtain ⟨ss, -, hinterned⟩ := h.signatures
  have hnodup := nodup_eraseDups ss
  rw [← Signature.interned_eq_eraseDups, ← hinterned] at hnodup
  have hi := Table.get?_eq_some_iff.mp hi
  have hj := Table.get?_eq_some_iff.mp hj
  have hindex := (List.getElem?_inj (List.getElem?_eq_some_iff.mp hi).1 hnodup).mp (hi.trans hj.symm)
  cases i
  cases j
  exact congrArg Id.mk hindex

theorem sameSymbols (h : m.Legible) (h' : m'.Legible) (htables : m.tableLines = m'.tableLines)
    (hls : List.Forall₂ (·.Outlines m) m.functions.toList fls)
    (hls' : List.Forall₂ (·.Outlines m') m'.functions.toList fls) : m.SameSymbols m' where
  globals := globals_eq_of_tableLines htables
  globalNames := h.globalNames
  data := data_eq_of_tableLines htables
  dataNames := h.dataNames
  callee := by
    intro i i' g g' s s' hg hs hg' hs' hname
    obtain ⟨g'', ls, hg'', -, hlines, hlines''⟩ := Table.exists_beside hls hls' hg
    obtain ⟨-, hname'', t, ht, ht''⟩ := hlines.head_inj hlines''
    obtain rfl := Table.get?_inj h'.functionNames hg' hg'' (hname.symm.trans hname'')
    cases hg'.symm.trans hg''
    refine ⟨rfl, ?_⟩
    exact Option.some.inj ((hs.symm.trans ht).trans (ht''.symm.trans hs'))

theorem functions_within (h : m.Legible) (h' : m'.Legible) (htables : m.tableLines = m'.tableLines)
    (hls : List.Forall₂ (·.Outlines m) m.functions.toList fls)
    (hls' : List.Forall₂ (·.Outlines m') m'.functions.toList fls) : m.functions.Within m'.functions := by
  intro i f hf
  obtain ⟨f', ls, hf', -, hlines, hlines'⟩ := Table.exists_beside hls hls' hf
  obtain ⟨-, -, s, hs, hs'⟩ := hlines.head_inj hlines'
  have hsignature : f.signature = f'.signature := by
    rw [← h.signatures_eq h' hls hls'] at hs'
    exact h.signature_inj hs hs'
  rw [hlines.unique hlines' (h.bodies i f hf) (h'.bodies i f' hf') (h.sameSymbols h' htables hls hls')
    (h'.sameSymbols h htables.symm hls' hls) hsignature]
  exact hf'

/-- **A legible module is told by its listing**, where its name is known. -/
theorem listing_inj (h : m.Legible) (h' : m'.Legible) (hname : m.name = m'.name) (heq : m.listing = m'.listing) :
    m = m' := by
  obtain ⟨fls, hls⟩ := h.exists_outline
  obtain ⟨fls', hls'⟩ := h'.exists_outline
  have hlines : m.tableLines ++ m.functionLines fls = m'.tableLines ++ m'.functionLines fls' := by
    rw [listing_eq hls, listing_eq hls', show m.header = m'.header by rw [header, header, hname]] at heq
    exact Line.join_inj (h.isWritten hls) (h'.isWritten hls') ((String.append_right_inj _).mp (Except.ok.inj heq))
  have htables : m.tableLines = m'.tableLines := by
    rw [← (isGrouped hls).filter_table, hlines, (isGrouped hls').filter_table]
  have hflat : fls.flatten = fls'.flatten := by
    rw [← (isGrouped hls).filter_function (m := m), hlines, (isGrouped hls').filter_function]
  obtain rfl := (isGrouped hls).unique (isGrouped hls') hflat
  have hglobals := globals_eq_of_tableLines htables
  have hdata := data_eq_of_tableLines htables
  have hsignatures := h.signatures_eq h' hls hls'
  have hsame : m.functions = m'.functions :=
    Table.eq_of_within (h.functions_within h' htables hls hls') (h'.functions_within h htables.symm hls' hls)
  cases m
  cases m'
  exact (mk.injEq ..).mpr ⟨hname, hsame, hsignatures, hglobals, hdata⟩

end Legible

end Module

end SsaCompiler.Ir
