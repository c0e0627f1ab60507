/-!
# Powers and ranges

Powers of two count patterns and units, powers of ten move the point of a decimal.  An integer fits a
signed width if it lies among the numbers that the patterns of the width stand for:

    fitsSigned bits n = true   ↔   - twoTo (bits - 1) ≤ n < twoTo (bits - 1)
-/

namespace SsaCompiler.Numeral

/-- A power of two. -/
def twoTo (n : Nat) : Nat :=
  Nat.pow 2 n

/-- A power of ten. -/
def tenTo (n : Nat) : Nat :=
  Nat.pow 10 n

@[simp] theorem twoTo_zero : twoTo 0 = 1 := rfl

theorem twoTo_succ (n : Nat) : twoTo (n + 1) = twoTo n * 2 := rfl

@[simp] theorem tenTo_zero : tenTo 0 = 1 := rfl

theorem tenTo_succ (n : Nat) : tenTo (n + 1) = tenTo n * 10 := rfl

theorem twoTo_pos (n : Nat) : 0 < twoTo n := by
  induction n with
  | zero => decide
  | succ n ih =>
    rw [twoTo_succ]
    omega

theorem tenTo_pos (n : Nat) : 0 < tenTo n := by
  induction n with
  | zero => decide
  | succ n ih =>
    rw [tenTo_succ]
    omega

/-- Whether an integer fits a width with a sign. -/
def fitsSigned (bits : Nat) (n : Int) : Bool :=
  -twoTo (bits - 1) ≤ n && n < twoTo (bits - 1)

theorem fitsSigned_iff {bits : Nat} {n : Int} :
    fitsSigned bits n = true ↔ -(twoTo (bits - 1) : Int) ≤ n ∧ n < twoTo (bits - 1) := by
  simp [fitsSigned]

end SsaCompiler.Numeral
