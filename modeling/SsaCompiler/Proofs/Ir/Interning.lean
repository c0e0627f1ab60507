import Mathlib.Data.List.Induction
import Mathlib.Data.List.Nodup
import SsaCompiler.Proofs.Ir.Edits

/-!
# Interning

An interned table holds the distinct keys that were asked for, in the order in which they first were, and
the id that is answered for a key is its place among them:

    t.Interns make ks → (t.intern p make k).2.Interns make (ks ++ [k])                (Interns.intern)

Data and signatures are interned in this way, so the tables of a module are told by the keys that were asked
for (`InternsData`, `InternsSignatures`), and ids by the places of their keys (`Placed`): two are the same
exactly if their keys are.  What comes of a run that asks for keys is put together from its parts by
`Asks.trans`.
-/

namespace SsaCompiler.Ir

/-! ## Distinct entries of a row -/

section

variable {α β : Type} [BEq α] [LawfulBEq α] [BEq β] [LawfulBEq β]

theorem eraseDups_snoc (as : List α) (a : α) :
    (as ++ [a]).eraseDups = if a ∈ as then as.eraseDups else as.eraseDups ++ [a] := by
  rw [List.eraseDups_append]
  split
  · next h => simp [List.removeAll, h]
  · next h => simp [List.removeAll, h, List.eraseDups_cons]

theorem nodup_eraseDups (as : List α) : as.eraseDups.Nodup := by
  induction as using List.reverseRecOn with
  | nil => exact List.nodup_nil
  | append_singleton as a ih =>
    rw [eraseDups_snoc]
    split
    · exact ih
    · next h =>
      refine List.nodup_append.mpr ⟨ih, List.nodup_singleton a, ?_⟩
      rintro b hb c hc rfl
      rw [List.mem_singleton.mp hc] at hb
      exact h (List.mem_eraseDups.mp hb)

theorem eraseDups_map {f : α → β} (hf : Function.Injective f) (as : List α) :
    (as.map f).eraseDups = as.eraseDups.map f := by
  induction as using List.reverseRecOn with
  | nil => rfl
  | append_singleton as a ih =>
    rw [List.map_append, List.map_singleton, eraseDups_snoc, eraseDups_snoc, ih]
    by_cases h : a ∈ as
    · rw [if_pos h, if_pos (List.mem_map_of_mem h)]
    · rw [if_neg h, if_neg (mt (List.mem_map_of_injective hf).mp h), List.map_append, List.map_singleton]

theorem eraseDups_eq_self {as : List α} (h : as.Nodup) : as.eraseDups = as := by
  induction as using List.reverseRecOn with
  | nil => rfl
  | append_singleton as a ih =>
    obtain ⟨has, -, hne⟩ := List.nodup_append.mp h
    rw [eraseDups_snoc, if_neg fun ha => hne a ha a List.mem_cons_self rfl, ih has]

/-- More entries keep the places of the distinct ones. -/
theorem eraseDups_prefix (as bs : List α) : as.eraseDups <+: (as ++ bs).eraseDups := by
  rw [List.eraseDups_append]
  exact List.prefix_append _ _

end

/-! ## Interned tables -/

namespace Table

variable {e : Entity} {α κ : Type}

/-- The id of the entry for a key, which is made if there is none. -/
def intern (t : Table e α) (isFor : κ → α → Bool) (make : κ → Id e → α) (k : κ) : Id e × Table e α :=
  match t.findId? (isFor k) with
  | some i => (i, t)
  | none => (t.next, t.push (make k t.next))

variable [BEq κ]

/-- Whether a table holds the distinct ones among some keys, in their order. -/
def Interns (t : Table e α) (make : κ → Id e → α) (ks : List κ) : Prop :=
  t.toList = ks.eraseDups.zipIdx.map fun (k, i) => make k ⟨i⟩

variable {t t' : Table e α} {make : κ → Id e → α} {ks more : List κ}

namespace Interns

theorem get? (h : t.Interns make ks) (i : Id e) : t.get? i = (ks.eraseDups[i.index]?).map (make · i) := by
  rw [← getElem?_toList, h, List.getElem?_map, List.getElem?_zipIdx, Option.map_map, Nat.zero_add]
  rfl

theorem size_eq (h : t.Interns make ks) : t.size = ks.eraseDups.length := by
  have hlength := congrArg List.length h
  rw [List.length_map, List.length_zipIdx] at hlength
  exact hlength

variable [LawfulBEq κ]

/-- A table that holds more keys has kept the entries of the others. -/
theorem within (h : t.Interns make ks) (h' : t'.Interns make (ks ++ more)) : t.Within t' := by
  intro i a ha
  rw [h.get? i] at ha
  obtain ⟨k, hk, rfl⟩ := Option.map_eq_some_iff.mp ha
  have hlt := (List.getElem?_eq_some_iff.mp hk).1
  obtain ⟨later, hlater⟩ := eraseDups_prefix ks more
  rw [h'.get? i, ← hlater, List.getElem?_append_left hlt, hk]
  rfl

/-- The initial part of a table holds the initial part of its distinct keys. -/
theorem of_within (h : t'.Interns make ks) (hw : t.Within t') : t.Interns make (ks.eraseDups.take t.size) := by
  have hsize := h.size_eq ▸ hw.size_le
  refine List.ext_getElem? fun k => ?_
  rw [eraseDups_eq_self ((nodup_eraseDups ks).sublist (List.take_sublist _ _))]
  rw [getElem?_toList, List.getElem?_map, List.getElem?_zipIdx, Nat.zero_add]
  by_cases hk : k < t.size
  · obtain ⟨a, ha⟩ := exists_get?_of_lt (t := t) (i := ⟨k⟩) hk
    rw [List.getElem?_take_of_lt hk, ha, ← hw _ _ ha, h.get? ⟨k⟩, Option.map_map]
    rfl
  · rw [List.getElem?_eq_none (l := ks.eraseDups.take t.size) (by rw [List.length_take]; omega)]
    exact Array.getElem?_eq_none (Nat.le_of_not_lt hk)

/-- **Interning a key** answers its place, and only a new key changes the table. -/
theorem intern (h : t.Interns make ks) {isFor : κ → α → Bool} (hp : ∀ k k' i, isFor k (make k' i) = true ↔ k = k')
    (k : κ) :
    (t.intern isFor make k).2.Interns make (ks ++ [k]) ∧
      (ks ++ [k]).eraseDups[(t.intern isFor make k).1.index]? = some k := by
  unfold Table.intern
  cases hfind : t.findId? (isFor k) with
  | some i =>
    obtain ⟨a, ha, hfor⟩ := findId?_eq_some hfind
    rw [h.get? i] at ha
    obtain ⟨k', hk', rfl⟩ := Option.map_eq_some_iff.mp ha
    obtain rfl := (hp k k' i).mp hfor
    have hsame : (ks ++ [k]).eraseDups = ks.eraseDups := by
      rw [eraseDups_snoc, if_pos (List.mem_eraseDups.mp (List.mem_of_getElem? hk'))]
    unfold Interns
    rw [hsame]
    exact ⟨h, hk'⟩
  | none =>
    have hnew : k ∉ ks := by
      intro hmem
      obtain ⟨i, hi⟩ := List.mem_iff_getElem?.mp (List.mem_eraseDups.mpr hmem)
      have hget : t.get? ⟨i⟩ = some (make k ⟨i⟩) := by
        rw [h.get?, hi]
        rfl
      have hno := findId?_eq_none_iff.mp hfind _ _ hget
      rw [(hp k k ⟨i⟩).mpr rfl] at hno
      cases hno
    have hlast : (ks ++ [k]).eraseDups = ks.eraseDups ++ [k] := by rw [eraseDups_snoc, if_neg hnew]
    have hplace : t.next.index = ks.eraseDups.length := h.size_eq
    unfold Interns
    rw [hlast]
    constructor
    · rw [toList_push, h, List.zipIdx_append, List.map_append, Nat.zero_add, ← hplace]
      rfl
    · show (ks.eraseDups ++ [k])[t.next.index]? = some k
      rw [hplace, List.getElem?_concat_length]

end Interns

/-! ## Answered ids -/

/-- Whether ids are the places of their keys among the distinct ones of a row. -/
def Placed (ks : List κ) (answered : List (κ × Id e)) : Prop :=
  ∀ p ∈ answered, ks.eraseDups[p.2.index]? = some p.1

namespace Placed

variable [LawfulBEq κ] {answered answered' : List (κ × Id e)}

theorem mono (h : Placed ks answered) (more : List κ) : Placed (ks ++ more) answered := by
  intro p hp
  obtain ⟨later, hlater⟩ := eraseDups_prefix ks more
  rw [← hlater, List.getElem?_append_left (List.getElem?_eq_some_iff.mp (h p hp)).1]
  exact h p hp

theorem append (h : Placed ks answered) (h' : Placed (ks ++ more) answered') :
    Placed (ks ++ more) (answered ++ answered') :=
  List.forall_mem_append.mpr ⟨h.mono more, h'⟩

/-- Two ids are the same exactly if their keys are. -/
theorem eq_iff (h : Placed ks answered) {k l : κ} {i j : Id e} (hk : (k, i) ∈ answered) (hl : (l, j) ∈ answered) :
    i = j ↔ k = l := by
  have hki := h _ hk
  have hlj := h _ hl
  constructor
  · rintro rfl
    exact Option.some.inj (hki.symm.trans hlj)
  · rintro rfl
    have hindex := (List.getElem?_inj (List.getElem?_eq_some_iff.mp hki).1 (nodup_eraseDups ks)).mp (hki.trans hlj.symm)
    obtain ⟨i⟩ := i
    obtain ⟨j⟩ := j
    cases hindex
    rfl

end Placed

/-- What comes of asking a table that holds some keys for others: ids that are the places of their keys, and where
the asking does not end with a fault, an id for each key and a table that holds nothing else. -/
structure Asks (make : κ → Id e → α) (ks asked : List κ) (answered : List (κ × Id e))
    (result : Except Fault (Table e α)) : Prop where
  placed : Placed (ks ++ asked) answered
  keys : ∀ t, result = .ok t → answered.map (·.1) = asked
  interns : ∀ t, result = .ok t → t.Interns make (ks ++ asked)

namespace Asks

variable {asked asked' : List κ} {answered answered' : List (κ × Id e)} {result : Except Fault (Table e α)}

theorem fault (asked : List κ) (f : Fault) : Asks make ks asked [] (.error f) :=
  ⟨nofun, nofun, nofun⟩

theorem nothing (h : t.Interns make ks) (ht : t' = t) : Asks make ks [] [] (.ok t') where
  placed := nofun
  keys := fun _ _ => rfl
  interns := by
    rintro u ⟨⟩
    rwa [List.append_nil, ht]

/-- An answered id names the entry for its key. -/
theorem get? (h : Asks make ks asked answered (.ok t)) {k : κ} {i : Id e} (hk : (k, i) ∈ answered) :
    t.get? i = some (make k i) := by
  rw [(h.interns t rfl).get? i, h.placed _ hk, Option.map_some]

variable [LawfulBEq κ]

theorem trans (h : Asks make ks asked answered (.ok t)) (h' : Asks make (ks ++ asked) asked' answered' result) :
    Asks make ks (asked ++ asked') (answered ++ answered') result where
  placed := by
    rw [← List.append_assoc]
    exact h.placed.append h'.placed
  keys := by
    intro t' ht'
    rw [List.map_append, h.keys t rfl, h'.keys t' ht']
  interns := by
    intro t' ht'
    rw [← List.append_assoc]
    exact h'.interns t' ht'

/-- What would have been asked for after a fault is not. -/
theorem unasked {f : Fault} (h : Asks make ks asked answered (.error f)) (asked' : List κ) :
    Asks make ks (asked ++ asked') answered (.error f) where
  placed := by
    rw [← List.append_assoc]
    exact h.placed.mono asked'
  keys := nofun
  interns := nofun

/-- **Asking for one key.** -/
theorem one (h : t.Interns make ks) {isFor : κ → α → Bool} (hp : ∀ k k' i, isFor k (make k' i) = true ↔ k = k')
    (k : κ) : Asks make ks [k] [(k, (t.intern isFor make k).1)] (.ok (t.intern isFor make k).2) where
  placed := List.forall_mem_singleton.mpr (h.intern hp k).2
  keys := fun _ _ => rfl
  interns := by
    rintro t' ⟨⟩
    exact (h.intern hp k).1

end Asks

end Table

/-! ## Interned data and signatures -/

/-- A data object made for some contents. -/
def DataObject.holding (contents : List UInt8) (i : DataId) : DataObject :=
  { name := Module.dataName i, bytes := contents ++ [0] }

/-- Whether a data object was made for some contents. -/
def DataObject.isFor (contents : List UInt8) (object : DataObject) : Bool :=
  object.bytes = contents ++ [0]

theorem DataObject.isFor_holding (c c' : List UInt8) (i : DataId) : isFor c (holding c' i) = true ↔ c = c' := by
  unfold isFor holding
  rw [decide_eq_true_iff, List.append_left_inj, eq_comm]

/-- Whether two signatures are the same. -/
def Signature.isFor (s s' : Signature) : Bool :=
  s' = s

theorem Signature.isFor_iff (s s' : Signature) (_ : SigId) : isFor s s' = true ↔ s = s' := by
  unfold isFor
  rw [decide_eq_true_iff, eq_comm]

namespace Module

open Table (Asks)

variable {m : Module} {contents : List UInt8} {s : Signature} {cs : List (List UInt8)} {ss : List Signature}

/-- Whether the data of a module is that of some contents. -/
def InternsData (m : Module) (cs : List (List UInt8)) : Prop :=
  m.data.Interns DataObject.holding cs

/-- Whether the signatures of a module are some. -/
def InternsSignatures (m : Module) (ss : List Signature) : Prop :=
  m.signatures.Interns (fun s _ => s) ss

theorem internsData_empty (name : String) : (Module.empty name).InternsData [] := rfl

theorem internsSignatures_empty (name : String) : (Module.empty name).InternsSignatures [] := rfl

theorem internData_eq_intern (m : Module) (contents : List UInt8) :
    m.internData contents =
      ((m.data.intern DataObject.isFor DataObject.holding contents).1,
        { m with data := (m.data.intern DataObject.isFor DataObject.holding contents).2 }) := by
  have hfor : (fun object : DataObject => decide (object.bytes = contents ++ [0])) = DataObject.isFor contents := rfl
  unfold internData Table.intern
  dsimp only
  rw [hfor]
  cases m.data.findId? (DataObject.isFor contents) <;> rfl

theorem internSignature_eq_intern (m : Module) (s : Signature) :
    m.internSignature s =
      ((m.signatures.intern Signature.isFor (fun s _ => s) s).1,
        { m with signatures := (m.signatures.intern Signature.isFor (fun s _ => s) s).2 }) := by
  have hfor : (fun s' : Signature => decide (s' = s)) = Signature.isFor s := rfl
  unfold internSignature Table.intern
  rw [hfor]
  cases m.signatures.findId? (Signature.isFor s) <;> rfl

theorem internData_signatures (m : Module) (contents : List UInt8) :
    (m.internData contents).2.signatures = m.signatures := by
  rw [internData_eq_intern]

theorem internSignature_data (m : Module) (s : Signature) : (m.internSignature s).2.data = m.data := by
  rw [internSignature_eq_intern]

/-- **Interning contents.** -/
theorem InternsData.asks (h : m.InternsData cs) (contents : List UInt8) :
    Asks DataObject.holding cs [contents] [(contents, (m.internData contents).1)]
      (.ok (m.internData contents).2.data) := by
  rw [internData_eq_intern]
  exact .one h DataObject.isFor_holding contents

/-- **Interning a signature.** -/
theorem InternsSignatures.asks (h : m.InternsSignatures ss) (s : Signature) :
    Asks (fun s _ => s) ss [s] [(s, (m.internSignature s).1)] (.ok (m.internSignature s).2.signatures) := by
  rw [internSignature_eq_intern]
  exact .one h Signature.isFor_iff s

end Module

end SsaCompiler.Ir
