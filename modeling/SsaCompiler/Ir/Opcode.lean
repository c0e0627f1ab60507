/-!
# Operations

The operations of the intermediate representation with their classes: conversions take one operand
and name their result type, and arithmetic is on integers or on floating-point numbers.
-/

namespace SsaCompiler.Ir

inductive Opcode where
  | iconst | fconst
  | iadd | isub | imul | idivS | iremS
  | fadd | fsub | fmul | fdiv
  | extendS | extendU | wrap | floatToIntS | intToFloatS | floatPromote | floatDemote
  | intToPtr | ptrToInt
  | stackLoad | stackStore | globalLoad | dataAddr
  | call | ret
  deriving DecidableEq

namespace Opcode

def all : List Opcode :=
  [.iconst, .fconst, .iadd, .isub, .imul, .idivS, .iremS, .fadd, .fsub, .fmul, .fdiv,
   .extendS, .extendU, .wrap, .floatToIntS, .intToFloatS, .floatPromote, .floatDemote,
   .intToPtr, .ptrToInt, .stackLoad, .stackStore, .globalLoad, .dataAddr, .call, .ret]

def text : Opcode → String
  | .iconst => "iconst"
  | .fconst => "fconst"
  | .iadd => "iadd"
  | .isub => "isub"
  | .imul => "imul"
  | .idivS => "idiv_s"
  | .iremS => "irem_s"
  | .fadd => "fadd"
  | .fsub => "fsub"
  | .fmul => "fmul"
  | .fdiv => "fdiv"
  | .extendS => "extend_s"
  | .extendU => "extend_u"
  | .wrap => "wrap"
  | .floatToIntS => "float_to_int_s"
  | .intToFloatS => "int_to_float_s"
  | .floatPromote => "float_promote"
  | .floatDemote => "float_demote"
  | .intToPtr => "int_to_ptr"
  | .ptrToInt => "ptr_to_int"
  | .stackLoad => "stack_load"
  | .stackStore => "stack_store"
  | .globalLoad => "global_load"
  | .dataAddr => "data_addr"
  | .call => "call"
  | .ret => "ret"

/-- The operation with a text. -/
def ofText? (text : String) : Option Opcode :=
  all.find? (·.text = text)

/-- Whether an operation turns a value of one type into one of another. -/
def isConversion : Opcode → Bool
  | .extendS | .extendU | .wrap | .floatToIntS | .intToFloatS | .floatPromote | .floatDemote
  | .intToPtr | .ptrToInt => true
  | _ => false

/-- Whether an operation is arithmetic on floating-point numbers. -/
def isFloatArithmetic : Opcode → Bool
  | .fadd | .fsub | .fmul | .fdiv => true
  | _ => false

/-- Whether an operation ends a block. -/
def isTerminator : Opcode → Bool
  | .ret => true
  | _ => false

end Opcode

end SsaCompiler.Ir
