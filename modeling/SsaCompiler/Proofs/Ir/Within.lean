import SsaCompiler.Ir.Module

/-!
# Growing tables

While a module is built its tables only grow: an id keeps naming the entry it named.  `Within` is this
order, on tables, on the tables of a function and on those of a module, where a declared function may
get another linkage and a body but keeps its name and signature.

    t.Within (t.push a)
    m.Within m'  →  m.signatureOf f = .ok s  →  m'.signatureOf f = .ok s
-/

namespace SsaCompiler.Ir

namespace Table

variable {e : Entity} {α : Type}

/-- The entries of the first table stand under the same ids in the second. -/
def Within (t u : Table e α) : Prop :=
  ∀ i a, t.get? i = some a → u.get? i = some a

theorem Within.refl (t : Table e α) : t.Within t := fun _ _ h => h

theorem Within.trans {t u v : Table e α} (h : t.Within u) (h' : u.Within v) : t.Within v :=
  fun i a ha => h' i a (h i a ha)

theorem get?_eq_some_iff {t : Table e α} {i : Id e} {a : α} :
    t.get? i = some a ↔ t.toList[i.index]? = some a := by
  simp [get?, toList]

theorem index_lt_of_get? {t : Table e α} {i : Id e} {a : α} (h : t.get? i = some a) : i.index < t.size := by
  unfold get? at h
  exact (Array.getElem?_eq_some_iff.mp h).1

theorem exists_get?_of_lt {t : Table e α} {i : Id e} (h : i.index < t.entries.size) : ∃ a, t.get? i = some a :=
  ⟨t.entries[i.index], Array.getElem?_eq_getElem h⟩

/-- An entry of a grown table is an old one or the new one. -/
theorem get?_push {t : Table e α} {a : α} {i : Id e} :
    (t.push a).get? i = if i = t.next then some a else t.get? i := by
  split
  · next h => rw [h, get?_push_next]
  · next h => exact get?_push_of_ne h

theorem within_push (t : Table e α) (a : α) : t.Within (t.push a) := by
  intro i b h
  have hlt := index_lt_of_get? h
  rw [get?_push_of_ne (by rintro rfl; exact Nat.lt_irrefl _ hlt)]
  exact h

/-- Changing the new entry is as good as adding it changed. -/
theorem set_push_next (t : Table e α) (a b : α) : (t.push a).set t.next b = t.push b := by
  show Table.mk ((t.entries.push a).setIfInBounds t.entries.size b) = ⟨t.entries.push b⟩
  congr 1
  apply Array.toList_inj.mp
  simp

/-- The entry that is found has the property. -/
theorem findId?_eq_some {t : Table e α} {p : α → Bool} {i : Id e} (h : t.findId? p = some i) :
    ∃ a, t.get? i = some a ∧ p a = true := by
  unfold findId? at h
  obtain ⟨n, hn, rfl⟩ := Option.map_eq_some_iff.mp h
  obtain ⟨hlt, hp, -⟩ := Array.findIdx?_eq_some_iff_getElem.mp hn
  exact ⟨t.entries[n], Array.getElem?_eq_getElem hlt, hp⟩

theorem getElem?_toList (t : Table e α) (k : Nat) : t.toList[k]? = t.get? ⟨k⟩ := by
  simp [toList, get?]

/-- Nothing is found exactly where no entry has the property. -/
theorem findId?_eq_none_iff {t : Table e α} {p : α → Bool} :
    t.findId? p = none ↔ ∀ i a, t.get? i = some a → p a = false := by
  unfold findId?
  rw [Option.map_eq_none_iff, Array.findIdx?_eq_none_iff]
  constructor
  · intro hall i a ha
    exact hall a (Array.mem_of_getElem? ha)
  · intro hall a ha
    obtain ⟨k, hk⟩ := Array.mem_iff_getElem?.mp ha
    exact hall ⟨k⟩ a hk

/-- Something is found where an entry has the property. -/
theorem exists_findId?_of_get? {t : Table e α} {p : α → Bool} {i : Id e} {a : α} (ha : t.get? i = some a)
    (hp : p a = true) : ∃ j, t.findId? p = some j := by
  cases hj : t.findId? p with
  | some j => exact ⟨j, rfl⟩
  | none =>
    rw [findId?_eq_none_iff.mp hj i a ha] at hp
    cases hp

/-- The keys that are found are those of the entries. -/
theorem exists_findId?_iff {t : Table e α} {key : α → String} {k : String} :
    (∃ i, t.findId? (key · = k) = some i) ↔ k ∈ t.toList.map key := by
  constructor
  · rintro ⟨i, hi⟩
    obtain ⟨a, ha, hk⟩ := findId?_eq_some hi
    exact List.mem_map.mpr ⟨a, List.mem_of_getElem? (get?_eq_some_iff.mp ha), of_decide_eq_true hk⟩
  · intro hmem
    obtain ⟨a, ha, rfl⟩ := List.mem_map.mp hmem
    obtain ⟨n, hn⟩ := List.getElem?_of_mem ha
    exact exists_findId?_of_get? (i := ⟨n⟩) (get?_eq_some_iff.mpr hn) (decide_eq_true rfl)

/-- Where the keys are distinct, an entry is found by its key. -/
theorem findId?_eq_some_iff {t : Table e α} {key : α → String} (h : (t.toList.map key).Nodup) {k : String}
    {i : Id e} : t.findId? (key · = k) = some i ↔ ∃ a, t.get? i = some a ∧ key a = k := by
  constructor
  · intro hi
    obtain ⟨a, ha, hk⟩ := findId?_eq_some hi
    exact ⟨a, ha, of_decide_eq_true hk⟩
  · rintro ⟨a, ha, rfl⟩
    obtain ⟨j, hj⟩ := exists_findId?_of_get? (p := (key · = key a)) ha (decide_eq_true rfl)
    obtain ⟨b, hb, hkey⟩ := findId?_eq_some hj
    have hget {k : Id e} {c : α} (hc : t.get? k = some c) : (t.toList.map key)[k.index]? = some (key c) := by
      rw [List.getElem?_map, get?_eq_some_iff.mp hc]
      rfl
    have hsame := hget hb
    rw [of_decide_eq_true hkey, ← hget ha] at hsame
    have hindex := (List.getElem?_inj (List.getElem?_eq_some_iff.mp (hget hb)).1 h).mp hsame
    rw [hj, show j = i by cases i; cases j; cases hindex; rfl]

theorem get?_set_self {t : Table e α} {i : Id e} {a : α} (b : α) (h : t.get? i = some a) :
    (t.set i b).get? i = some b := by
  have hlt : i.index < t.entries.size := index_lt_of_get? h
  simp [get?, set, hlt]

theorem get?_set_of_ne {t : Table e α} {i j : Id e} (b : α) (h : j ≠ i) : (t.set i b).get? j = t.get? j := by
  have hne : i.index ≠ j.index := fun heq => h (by cases i; cases j; simp_all)
  simp [get?, set, hne]

/-- Replacing an entry by one with its key keeps the keys. -/
theorem map_set {t : Table e α} {i : Id e} {a b : α} {β : Type} (key : α → β) (hi : t.get? i = some a)
    (h : key b = key a) : (t.set i b).toList.map key = t.toList.map key := by
  refine List.ext_getElem? fun k => ?_
  rw [List.getElem?_map, List.getElem?_map, getElem?_toList, getElem?_toList]
  by_cases hk : ⟨k⟩ = i
  · rw [hk, get?_set_self b hi, hi, Option.map_some, Option.map_some, h]
  · rw [get?_set_of_ne b hk]

theorem modify_eq_ok {t t' : Table e α} {i : Id e} {f : α → α} :
    t.modify i f = .ok t' ↔ ∃ a, t.get? i = some a ∧ t' = t.set i (f a) := by
  unfold modify
  constructor
  · intro h
    cases ha : t.get i with
    | error fault =>
      rw [ha] at h
      cases h
    | ok a =>
      rw [ha] at h
      cases h
      exact ⟨a, get_eq_ok.mp ha, rfl⟩
  · rintro ⟨a, ha, rfl⟩
    rw [get_eq_ok.mpr ha]
    rfl

theorem modify_push_next (t : Table e α) (a : α) (f : α → α) : (t.push a).modify t.next f = .ok (t.push (f a)) :=
  modify_eq_ok.mpr ⟨a, get?_push_next t a, (set_push_next t a (f a)).symm⟩

theorem Within.size_le {t u : Table e α} (h : t.Within u) : t.size ≤ u.size := by
  rcases Nat.eq_zero_or_pos t.size with h0 | h0
  · omega
  · obtain ⟨a, ha⟩ := exists_get?_of_lt (t := t) (i := ⟨t.size - 1⟩) (by show t.size - 1 < t.size; omega)
    have := index_lt_of_get? (h _ _ ha)
    show t.size ≤ u.size
    simp only at this
    omega

end Table

/-- The tables of a function within those of a later stage of it. -/
structure Function.Within (f g : Function) : Prop where
  name : g.name = f.name
  signature : g.signature = f.signature
  insts : f.insts.Within g.insts
  values : f.values.Within g.values
  slots : f.slots.Within g.slots

namespace Function.Within

theorem refl (f : Function) : f.Within f :=
  ⟨rfl, rfl, .refl _, .refl _, .refl _⟩

theorem trans {f g h : Function} (h₁ : f.Within g) (h₂ : g.Within h) : f.Within h :=
  ⟨h₂.name.trans h₁.name, h₂.signature.trans h₁.signature, h₁.insts.trans h₂.insts,
   h₁.values.trans h₂.values, h₁.slots.trans h₂.slots⟩

end Function.Within

/-- The tables of a module within those of a later stage of it. -/
structure Module.Within (m n : Module) : Prop where
  globals : m.globals.Within n.globals
  signatures : m.signatures.Within n.signatures
  data : m.data.Within n.data
  /-- A function keeps its name and its signature. -/
  functions : ∀ i f, m.functions.get? i = some f →
    ∃ g, n.functions.get? i = some g ∧ g.name = f.name ∧ g.signature = f.signature

namespace Module

theorem Within.refl (m : Module) : m.Within m :=
  ⟨.refl _, .refl _, .refl _, fun _ f h => ⟨f, h, rfl, rfl⟩⟩

theorem Within.trans {m n k : Module} (h : m.Within n) (h' : n.Within k) : m.Within k := by
  refine ⟨h.globals.trans h'.globals, h.signatures.trans h'.signatures, h.data.trans h'.data, ?_⟩
  intro i f hf
  obtain ⟨g, hg, hn, hs⟩ := h.functions i f hf
  obtain ⟨k, hk, hn', hs'⟩ := h'.functions i g hg
  exact ⟨k, hk, hn'.trans hn, hs'.trans hs⟩

/-- What it takes for a function to have a signature. -/
theorem signatureOf_eq_ok {m : Module} {i : FuncId} {s : Signature} :
    m.signatureOf i = .ok s ↔
      ∃ f, m.functions.get? i = some f ∧ m.signatures.get? f.signature = some s := by
  unfold signatureOf
  constructor
  · intro h
    cases hf : m.functions.get i with
    | error e => rw [hf] at h; cases h
    | ok f =>
      rw [hf] at h
      exact ⟨f, Table.get_eq_ok.mp hf, Table.get_eq_ok.mp h⟩
  · rintro ⟨f, hf, hs⟩
    rw [Table.get_eq_ok.mpr hf]
    exact Table.get_eq_ok.mpr hs

theorem Within.signatureOf {m n : Module} (h : m.Within n) {i : FuncId} {s : Signature}
    (hs : m.signatureOf i = .ok s) : n.signatureOf i = .ok s := by
  obtain ⟨f, hf, hs⟩ := signatureOf_eq_ok.mp hs
  obtain ⟨g, hg, -, hgs⟩ := h.functions i f hf
  exact signatureOf_eq_ok.mpr ⟨g, hg, by rw [hgs]; exact h.signatures _ _ hs⟩

/-- Interning data only adds to the data of a module. -/
theorem internData_eq (m : Module) (contents : List UInt8) :
    ∃ data, (m.internData contents).2 = { m with data } ∧ m.data.Within data ∧
      ∃ object, data.get? (m.internData contents).1 = some object ∧ object.bytes = contents ++ [0] := by
  unfold internData
  cases h : m.data.findId? (·.bytes = contents ++ [0]) with
  | none =>
    simp only [h]
    exact ⟨_, rfl, Table.within_push _ _, _, Table.get?_push_next _ _, rfl⟩
  | some i =>
    simp only [h]
    obtain ⟨object, hget, hp⟩ := Table.findId?_eq_some h
    exact ⟨m.data, rfl, .refl _, object, hget, of_decide_eq_true hp⟩

/-- Interning a signature only adds to the signatures of a module. -/
theorem internSignature_eq (m : Module) (s : Signature) :
    ∃ signatures, (m.internSignature s).2 = { m with signatures } ∧ m.signatures.Within signatures ∧
      signatures.get? (m.internSignature s).1 = some s := by
  unfold internSignature
  cases h : m.signatures.findId? (· = s) with
  | none =>
    simp only
    exact ⟨_, rfl, Table.within_push _ _, Table.get?_push_next _ _⟩
  | some i =>
    simp only
    refine ⟨m.signatures, rfl, .refl _, ?_⟩
    obtain ⟨s', hs', hp⟩ := Table.findId?_eq_some h
    rw [hs', of_decide_eq_true hp]

/-- A global that is added is the last one. -/
theorem addGlobal_inv {m m' : Module} {name : String} {ty : Ty} {linkage : Linkage} {init : Option Constant}
    {g : GlobalId} (h : m.addGlobal name ty linkage init = .ok (g, m')) :
    g = m.globals.next ∧ m' = { m with globals := m.globals.push { name, ty, linkage, init } } := by
  unfold addGlobal at h
  split at h
  · cases h
  · split at h <;> cases h
    exact ⟨rfl, rfl⟩

theorem within_internData (m : Module) (contents : List UInt8) : m.Within (m.internData contents).2 := by
  obtain ⟨data, h, hd, -⟩ := m.internData_eq contents
  rw [h]
  exact ⟨.refl _, .refl _, hd, fun _ f hf => ⟨f, hf, rfl, rfl⟩⟩

/-- Replacing a function by one with its name and signature keeps a module within. -/
theorem within_setFunction (m : Module) {id : FuncId} {f g : Function} (hf : m.functions.get? id = some f)
    (hname : g.name = f.name) (hsig : g.signature = f.signature) :
    m.Within { m with functions := m.functions.set id g } := by
  refine ⟨.refl _, .refl _, .refl _, ?_⟩
  intro j k hk
  by_cases hj : j = id
  · subst hj
    rw [hf] at hk
    cases hk
    exact ⟨g, Table.get?_set_self g hf, hname, hsig⟩
  · exact ⟨k, by rw [Table.get?_set_of_ne g hj]; exact hk, rfl, rfl⟩

end Module

end SsaCompiler.Ir
