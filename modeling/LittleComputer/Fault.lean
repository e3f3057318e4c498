import LittleComputer.Instruction

set_option autoImplicit false

namespace LittleComputer

inductive Fault where
  | opcode (word : Word)
  | service (word : Word)
deriving DecidableEq, Repr

namespace Fault

def word : Fault → Word
  | .opcode word => word
  | .service word => word

def message : Fault → String
  | .opcode word => "op code '" ++ word.hex 1 ++ "' is not implemented"
  | .service word => "trap code '" ++ word.hex 4 ++ "' is not implemented"

end Fault

end LittleComputer
