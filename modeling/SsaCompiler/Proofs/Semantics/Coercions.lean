import SsaCompiler.Proofs.Lowering.Expression
import SsaCompiler.Proofs.Semantics.Patterns
import SsaCompiler.Proofs.Semantics.Stretches

/-!
# Coercing integers

Coercing an integer writes at most one operation.  In two's complement the pattern that comes out is that
of the number, cut to the width of the target, and this holds along chains of types:

    Turns I a x [b] y            a value `x` of the type `a` becomes `y` when it is coerced to `b`
    Turns I a x [b, c] z         … and `z` when it is coerced to `b` and then to `c`
-/

namespace SsaCompiler.Semantics

open Lang (Prim Sign)
open Ir (Function Module ValueId)
open Lowering (BodyState Typed Lower Coerces)
open Numeral (IntWidth)

variable {V σ : Type}

/-! ## What is left alone -/

/-- Whether a machine differs only in registers that a stage of the function does not have. -/
structure Machine.Keeps (g : Function) (st st' : Machine V σ) : Prop where
  slots : st'.slots = st.slots
  world : st'.world = st.world
  regs : ∀ v : ValueId, v.index < g.values.size → st'.regs v = st.regs v

theorem Machine.Keeps.refl (g : Function) (st : Machine V σ) : st.Keeps g st :=
  ⟨rfl, rfl, fun _ _ => rfl⟩

theorem Machine.Keeps.trans {g g' : Function} {st st' st'' : Machine V σ} (h : st.Keeps g st') (hg : g.Within g')
    (h' : st'.Keeps g' st'') : st.Keeps g st'' where
  slots := h'.slots.trans h.slots
  world := h'.world.trans h.world
  regs := by
    intro v hv
    have hle := hg.values.size_le
    rw [h'.regs v (by omega), h.regs v hv]

theorem Machine.keeps_next (g : Function) (st : Machine V σ) (x : Datum V) :
    st.Keeps g { st with regs := update st.regs g.values.next x } := by
  refine ⟨rfl, rfl, fun v hv => update_of_ne _ _ ?_⟩
  rintro rfl
  exact Nat.lt_irrefl _ hv

/-! ## One coercion -/

theorem within_of_coerces {b b' : Ir.Body} {v : Typed} {target : Prim} {v' : ValueId}
    (h : Coerces b v target v' b') : b.func.Within b'.func := by
  cases h with
  | same => exact .refl _
  | keep => exact .refl _
  | apply => exact Function.within_snoc _ _ _

theorem atEntry_of_coerces {b b' : Ir.Body} {v : Typed} {target : Prim} {v' : ValueId}
    (h : Coerces b v target v' b') (hb : b.AtEntry) : b'.AtEntry := by
  cases h with
  | same => exact hb
  | keep => exact hb
  | apply => exact hb.snoc _ _

/-- What a coercion writes computes the pattern of the number. -/
theorem stretch_coerces {I : Interpretation V} (hI : I.TwosComplement) {O : Oracle V σ} {m : Module} {f : Function}
    {b b' : Ir.Body} {v : Typed} {σ₁ σ₂ : Sign} {w₁ w₂ : IntWidth} {v' : ValueId} {st : Machine V σ}
    {x : BitVec w₁.bits} (h : Coerces b v (.int σ₂ w₂) v' b') (hty : v.ty = .int σ₁ w₁) (hf : b'.func.Within f)
    (hx : st.regs v.value = some (I.pattern x)) :
    ∃ st', stretch I O m f b.func b'.func st = some st' ∧
      st'.regs v' = some (I.pattern (BitVec.ofInt w₂.bits (number σ₁ x))) ∧ st.Keeps b.func st' := by
  cases h with
  | same heq =>
    obtain ⟨-, rfl⟩ : σ₁ = σ₂ ∧ w₁ = w₂ := by
      rw [hty] at heq
      cases heq
      exact ⟨rfl, rfl⟩
    rw [ofInt_number]
    exact ⟨st, stretch_refl _ _, hx, .refl _ st⟩
  | keep hne _ hc =>
    obtain rfl : w₁ = w₂ := by
      have hrepr := Lowering.repr?_of_keep hc
      rw [hty] at hrepr
      cases hrepr
      rfl
    rw [ofInt_number]
    exact ⟨st, stretch_refl _ _, hx, .refl _ st⟩
  | @apply ty op hne hrepr hc =>
    obtain rfl : ty = .int w₂ := (Option.some.inj hrepr).symm
    rw [hty] at hc
    have hcompute : compute I O m st (.int w₂) (.unary op v.value) =
        some (I.integer w₂ (BitVec.ofInt w₂.bits (number σ₁ x)), st.world) := by
      show (st.regs v.value).map _ = _
      rw [hx, Option.map_some, unary_of_conversion hI hc]
    exact ⟨_, stretch_value hf hcompute, update_self _ _ _, Machine.keeps_next _ _ _⟩

/-! ## Chains of coercions -/

/-- Whether a value of one type becomes another when it is coerced to some types in turn: that succeeds
wherever a body is written, and what is written, run from any machine that holds the value, leaves the
other one in the register of the result and everything that was there before as it is. -/
def Turns (I : Interpretation V) (source : Prim) (x : Datum V) (targets : List Prim) (y : Datum V) : Prop :=
  ∀ (s : BodyState) (v : Typed), s.body.AtEntry → v.ty = source →
    ∃ v' s', Gives (targets.foldlM Lower.coerce v) s v' s' ∧ v'.ty = targets.getLastD source ∧ s'.body.AtEntry ∧
      s.body.func.Within s'.body.func ∧
      ∀ {σ : Type} (O : Oracle V σ) (m : Module) (f : Function) (st : Machine V σ), s'.body.func.Within f →
        st.regs v.value = some x →
        ∃ st', stretch I O m f s.body.func s'.body.func st = some st' ∧ st'.regs v'.value = some y ∧
          st.Keeps s.body.func st'

theorem getLastD_append {α : Type} (as bs : List α) (a : α) :
    (as ++ bs).getLastD a = bs.getLastD (as.getLastD a) := by
  cases bs with
  | nil => rw [List.append_nil]; rfl
  | cons b bs => simp [List.getLastD_eq_getLast?]

/-- Chains are put together. -/
theorem Turns.append {I : Interpretation V} {source : Prim} {x y z : Datum V} {targets targets' : List Prim}
    (h : Turns I source x targets y) (h' : Turns I (targets.getLastD source) y targets' z) :
    Turns I source x (targets ++ targets') z := by
  intro s v hs hv
  obtain ⟨v₁, s₁, hgives, hty, hs₁, hwithin, hrun⟩ := h s v hs hv
  obtain ⟨v₂, s₂, hgives', hty', hs₂, hwithin', hrun'⟩ := h' s₁ v₁ hs₁ hty
  refine ⟨v₂, s₂, ?_, ?_, hs₂, hwithin.trans hwithin', ?_⟩
  · rw [List.foldlM_append]
    exact hgives.bind hgives'
  · rw [hty', getLastD_append]
  · intro σ O m f st hf hx
    obtain ⟨st₁, hst₁, hy, hkeeps⟩ := hrun O m f st (hwithin'.trans hf) hx
    obtain ⟨st₂, hst₂, hz, hkeeps'⟩ := hrun' O m f st₁ hf hy
    refine ⟨st₂, ?_, hz, hkeeps.trans hwithin hkeeps'⟩
    rw [stretch_trans hwithin hwithin', hst₁, Option.bind_some, hst₂]

section

variable {I : Interpretation V} (hI : I.TwosComplement)
include hI

/-- Coercing to one integer type gives the pattern of the number. -/
theorem turns_integer (σ₁ σ₂ : Sign) {w₁ : IntWidth} (w₂ : IntWidth) (x : BitVec w₁.bits) :
    Turns I (.int σ₁ w₁) (I.pattern x) [.int σ₂ w₂] (I.pattern (BitVec.ofInt w₂.bits (number σ₁ x))) := by
  intro s v hs hv
  rcases Lower.settles_coerce hs v (.int σ₂ w₂) with ⟨v', s', hgives, -, hty, hc, -⟩ | ⟨-, hno⟩
  · refine ⟨v', s', hgives.bind (gives_pure _ _), hty, atEntry_of_coerces hc hs, within_of_coerces hc, ?_⟩
    intro σ O m f st hf hx
    exact stretch_coerces hI hc hv hf hx
  · have hyes : Prim.convertsTo (.int σ₁ w₁) (.int σ₂ w₂) = true := by
      simp [Prim.convertsTo, Prim.isNumber, Prim.isInt]
    rw [hv, hyes] at hno
    cases hno

/-- Along two types that the first keeps the bits for, the second gives what it gives at once. -/
theorem turns_twice {σ₁ σ₂ σ₃ : Sign} {w₁ w₂ w₃ : IntWidth} {x : BitVec w₁.bits}
    (h : Represents σ₂ w₂ (number σ₁ x) ∨ w₃.bits ≤ w₂.bits) :
    Turns I (.int σ₁ w₁) (I.pattern x) [.int σ₂ w₂, .int σ₃ w₃]
      (I.pattern (BitVec.ofInt w₃.bits (number σ₁ x))) := by
  have hsame : BitVec.ofInt w₃.bits (number σ₂ (BitVec.ofInt w₂.bits (number σ₁ x))) =
      BitVec.ofInt w₃.bits (number σ₁ x) := by
    rcases h with hrepr | hle
    · rw [number_ofInt hrepr]
    · exact ofInt_number_ofInt hle σ₂ _
  rw [← hsame]
  exact (turns_integer hI σ₁ σ₂ w₂ x).append (turns_integer hI σ₂ σ₃ w₃ _)

end

/-- **Coercing integers computes modulo the width.**  With extension and wrapping read on bit patterns, a
value of any integer type becomes the pattern of its number modulo the number of patterns of the target;
so the number is kept where the target has it, a wider type and back changes nothing, and a type on the
way to another makes no difference if it has every number of the first or as many bits as the last. -/
theorem coerce_modulo {I : Interpretation V} (hI : I.TwosComplement) (σ₁ σ₂ σ₃ : Sign) (w₁ w₂ w₃ : IntWidth)
    (x : BitVec w₁.bits) :
    ∃ y : BitVec w₂.bits, (y.toNat : Int) = number σ₁ x % 2 ^ w₂.bits ∧
      Turns I (.int σ₁ w₁) (I.pattern x) [.int σ₂ w₂] (I.pattern y) ∧
      (Represents σ₂ w₂ (number σ₁ x) → number σ₂ y = number σ₁ x) ∧
      (w₁.bits ≤ w₂.bits → Turns I (.int σ₁ w₁) (I.pattern x) [.int σ₂ w₂, .int σ₁ w₁] (I.pattern x)) ∧
      ((∀ n, Represents σ₁ w₁ n → Represents σ₂ w₂ n) ∨ w₃.bits ≤ w₂.bits →
        ∃ z : BitVec w₃.bits, Turns I (.int σ₁ w₁) (I.pattern x) [.int σ₂ w₂, .int σ₃ w₃] (I.pattern z) ∧
          Turns I (.int σ₁ w₁) (I.pattern x) [.int σ₃ w₃] (I.pattern z)) := by
  refine ⟨BitVec.ofInt w₂.bits (number σ₁ x), toNat_ofInt_emod _ _, turns_integer hI σ₁ σ₂ w₂ x, number_ofInt,
    ?back, ?through⟩
  case back =>
    intro hle
    have hback : Turns I (.int σ₁ w₁) (I.pattern x) [.int σ₂ w₂, .int σ₁ w₁]
      (I.pattern (BitVec.ofInt w₁.bits (number σ₁ x))) := turns_twice hI (.inr hle)
    rw [ofInt_number] at hback
    exact hback
  case through =>
    intro h
    exact ⟨_, turns_twice hI (h.imp_left fun hall => hall _ (represents_number σ₁ x)), turns_integer hI σ₁ σ₃ w₃ x⟩

/-- The number `-1` of eight bits becomes the largest one of 32 bits without a sign, and is `-1` again on
the way back. -/
theorem coerce_modulo_minusOne :
    Turns patterns (.int .signed .w8) ⟨.int .w8, 255⟩ [.int .unsigned .w32] ⟨.int .w32, 4294967295⟩ ∧
      Turns patterns (.int .signed .w8) ⟨.int .w8, 255⟩ [.int .unsigned .w32, .int .signed .w8]
        ⟨.int .w8, 255⟩ := by
  obtain ⟨y, hy, hturns, -, hback, -⟩ :=
    coerce_modulo twosComplement_patterns .signed .unsigned .signed .w8 .w32 .w64 (255 : BitVec 8)
  have hpattern : y.toNat = 4294967295 := Int.natCast_inj.mp (hy.trans (by decide))
  have hdatum : patterns.pattern y = ⟨.int .w32, 4294967295⟩ := congrArg (Datum.mk _) hpattern
  rw [hdatum] at hturns
  exact ⟨hturns, hback (by decide)⟩

end SsaCompiler.Semantics
