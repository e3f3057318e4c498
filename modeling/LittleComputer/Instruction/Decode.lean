import LittleComputer.Fault

set_option autoImplicit false

namespace LittleComputer.Instruction

def operandOf (word : Word) : Operand :=
  if word.field 5 1 = 1 then .immediate (word.signExtend 5) else .register (.ofField word 0)

def targetOf (word : Word) : Target :=
  if word.field 11 1 = 1 then .offset (word.signExtend 11) else .base (.ofField word 6)

def decode (word : Word) : Except Fault Instruction :=
  match Opcode.ofWord word with
  | .br => .ok (.br (.ofNat (word.field 9 3)) (word.signExtend 9))
  | .add => .ok (.add (.ofField word 9) (.ofField word 6) (operandOf word))
  | .and => .ok (.and (.ofField word 9) (.ofField word 6) (operandOf word))
  | .not => .ok (.not (.ofField word 9) (.ofField word 6))
  | .jmp => .ok (.jmp (.ofField word 6))
  | .jsr => .ok (.jsr (targetOf word))
  | .ld => .ok (.ld (.ofField word 9) (word.signExtend 9))
  | .ldi => .ok (.ldi (.ofField word 9) (word.signExtend 9))
  | .ldr => .ok (.ldr (.ofField word 9) (.ofField word 6) (word.signExtend 6))
  | .lea => .ok (.lea (.ofField word 9) (word.signExtend 9))
  | .st => .ok (.st (.ofField word 9) (word.signExtend 9))
  | .sti => .ok (.sti (.ofField word 9) (word.signExtend 9))
  | .str => .ok (.str (.ofField word 9) (.ofField word 6) (word.signExtend 6))
  | .trap =>
      match Service.ofWord? word with
      | some service => .ok (.trap service)
      | none => .error (.service word)
  | .rti => .error (.opcode word)
  | .res => .error (.opcode word)

end LittleComputer.Instruction
