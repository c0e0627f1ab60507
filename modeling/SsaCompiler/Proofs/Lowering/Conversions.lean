import SsaCompiler.Lowering.Coercion
import SsaCompiler.Proofs.Ir.WellTyped
import SsaCompiler.Proofs.Lang.WellFormed

/-!
# Conversions and arithmetic of the two type systems

The operations that lowering chooses by the types of the language obey the typing rules of the
intermediate representation, and there is one exactly where the language has the conversion, the
operator or the literal:

    conversion? a b = some (.apply op) → a.repr? = some s → b.repr? = some t → op.converts s t
    a ≠ b → ((conversion? a b).isSome ↔ a.convertsTo b)
-/

namespace SsaCompiler.Lowering

open Lang (Prim BinaryOp)
open Numeral (IntWidth FloatWidth)

theorem intWidth_eq {a b : IntWidth} (h : ¬ a.bits < b.bits) (h' : ¬ b.bits < a.bits) : a = b := by
  revert h h'
  cases a <;> cases b <;> simp [IntWidth.bits]

/-! ## Conversions -/

/-- A value that keeps its pattern keeps its representation. -/
theorem repr?_of_keep {source target : Prim} (h : conversion? source target = some .keep) :
    source.repr? = target.repr? := by
  cases source <;> cases target <;> simp [conversion?, Prim.isPointer, Prim.isInt, Prim.repr?] at h ⊢
  · split at h
    · cases h
    · split at h
      · cases h
      · exact intWidth_eq ‹_› ‹_›
  · split at h <;> cases h

/-- The operation of a conversion goes between the representations. -/
theorem converts_of_apply {source target : Prim} {op : Ir.Opcode} {s t : Ir.Ty} (hne : source ≠ target)
    (h : conversion? source target = some (.apply op)) (hs : source.repr? = some s)
    (ht : target.repr? = some t) : op.converts s t = true := by
  cases source <;> cases target <;>
    simp [conversion?, Prim.isPointer, Prim.isInt, Prim.repr?] at h hs ht ⊢ <;> subst hs ht
  · next sign width sign' width' =>
    split at h
    · next hlt =>
      cases h
      cases sign <;> exact decide_eq_true hlt
    · split at h
      · next hlt =>
        cases h
        exact decide_eq_true hlt
      · cases h
  · subst h; rfl
  · subst h; rfl
  · subst h; rfl
  · subst h; rfl
  · next width width' =>
    -- the formats differ, so the wider one decides the direction
    revert h
    cases width <;> cases width' <;> simp [FloatWidth.bits] at hne ⊢ <;> rintro rfl <;> rfl
  · subst h; rfl
  · subst h; rfl

theorem isSome_conversion? {source target : Prim} (hne : source ≠ target) :
    (conversion? source target).isSome = source.convertsTo target := by
  unfold Prim.convertsTo
  rw [decide_eq_false hne, Bool.false_or]
  cases source <;> cases target <;>
    simp [conversion?, Prim.isPointer, Prim.isInt, Prim.isFloat, Prim.isNumber]
  · split
    · rfl
    · split <;> rfl
  · split <;> rfl

/-- What converts to something else has a representation to go to. -/
theorem isSome_repr?_of_convertsTo {source target : Prim} (hne : source ≠ target)
    (h : source.convertsTo target = true) : ∃ ty, target.repr? = some ty := by
  rw [← isSome_conversion? hne] at h
  cases target with
  | invalid => cases source <;> simp [conversion?, Prim.isPointer, Prim.isInt] at h
  | _ => exact ⟨_, rfl⟩

/-! ## Arithmetic -/

theorem isSome_arithmetic? (op : BinaryOp) (ty : Prim) : (arithmetic? op ty).isSome = op.worksOn ty := by
  cases op <;> cases ty <;> rfl

theorem worksOn_of_arithmetic? {op : BinaryOp} {ty : Prim} {opcode : Ir.Opcode} {t : Ir.Ty}
    (h : arithmetic? op ty = some opcode) (ht : ty.repr? = some t) : opcode.worksOn t = true := by
  cases op <;> cases ty <;> simp [arithmetic?, Prim.repr?] at h ht <;> subst h ht <;> rfl

theorem not_isTerminator_of_arithmetic? {op : BinaryOp} {ty : Prim} {opcode : Ir.Opcode}
    (h : arithmetic? op ty = some opcode) : opcode.isTerminator = false := by
  cases op <;> cases ty <;> simp [arithmetic?] at h <;> subst h <;> rfl

/-! ## Literals and arguments -/

theorem repr?_eq_none_iff {ty : Prim} : ty.repr? = none ↔ ty = .invalid := by
  cases ty <;> simp [Prim.repr?]

/-- Values of a type can be stored if it has values and a representation. -/
theorem isStorable_iff {ty : Prim} : ty.isStorable = true ↔ ty ≠ .void ∧ ∃ t, ty.repr? = some t := by
  cases ty <;> simp [Prim.isStorable, Prim.repr?]

theorem literalFits_eq (width : IntWidth) (n : Int) : literalFits width.bits n = Prim.holdsLiteral width n := by
  unfold literalFits Prim.holdsLiteral
  cases width <;> simp [IntWidth.bits] <;> rfl

theorem isStorable_of_isNumber {ty : Prim} (h : ty.isNumber = true) : ty.isStorable = true := by
  cases ty <;> first | rfl | cases h

theorem isLiteral_int (sign : Lang.Sign) (width : IntWidth) (text : String) :
    Prim.isLiteral (.int sign width) text =
      ((Numeral.readSigned? 128 text).filter (literalFits width.bits)).isSome := by
  show (Numeral.readSigned? 128 text).any (Prim.holdsLiteral width) = _
  cases Numeral.readSigned? 128 text with
  | none => rfl
  | some n =>
    rw [Option.any_some, ← literalFits_eq, Option.filter_some]
    cases literalFits width.bits n <;> rfl

/-- Types that can be stored share their patterns exactly if one representation holds them. -/
theorem sharesPattern_iff {a b : Prim} (ha : a.isStorable = true) :
    a.sharesPattern b = true ↔ a.repr? = b.repr? := by
  cases a <;> cases b <;> simp [Prim.sharesPattern, Prim.repr?, Prim.isPointer, Prim.isStorable] at ha ⊢

end SsaCompiler.Lowering
