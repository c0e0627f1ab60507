import SsaCompiler.Ir.Id

/-!
# Signatures

What a call of a function passes and gets back.  A variadic signature takes any number of arguments
after its fixed parameters.
-/

namespace SsaCompiler.Ir

/-- How arguments and results are passed. -/
inductive CallConv where
  | systemV
  deriving DecidableEq

def CallConv.text : CallConv → String
  | .systemV => "system_v"

structure Signature where
  params : List Ty
  ret : Ty
  variadic : Bool
  callConv : CallConv
  deriving DecidableEq

namespace Signature

/-- Whether a call may have a number of arguments. -/
def accepts (s : Signature) (count : Nat) : Bool :=
  if s.variadic then s.params.length ≤ count else count = s.params.length

/-- The parameters in parentheses, three dots for the variadic part, and the result type. -/
def text (s : Signature) : String :=
  let dots := if s.variadic then ["..."] else []
  "(" ++ ", ".intercalate (s.params.map Ty.text ++ dots) ++ ") -> " ++ s.ret.text

end Signature

end SsaCompiler.Ir
