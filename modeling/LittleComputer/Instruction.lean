import LittleComputer.Register

set_option autoImplicit false

namespace LittleComputer

inductive Opcode where
  | br | add | ld | st | jsr | and | ldr | str | rti | not | ldi | sti | jmp | res | lea | trap
deriving DecidableEq, Repr

namespace Opcode

def number : Opcode → Nat
  | .br => 0
  | .add => 1
  | .ld => 2
  | .st => 3
  | .jsr => 4
  | .and => 5
  | .ldr => 6
  | .str => 7
  | .rti => 8
  | .not => 9
  | .ldi => 10
  | .sti => 11
  | .jmp => 12
  | .res => 13
  | .lea => 14
  | .trap => 15

def ofWord (word : Word) : Opcode :=
  match word.field 12 4 with
  | 0 => .br
  | 1 => .add
  | 2 => .ld
  | 3 => .st
  | 4 => .jsr
  | 5 => .and
  | 6 => .ldr
  | 7 => .str
  | 8 => .rti
  | 9 => .not
  | 10 => .ldi
  | 11 => .sti
  | 12 => .jmp
  | 13 => .res
  | 14 => .lea
  | _ => .trap

def bits (opcode : Opcode) : Word := .ofNat (opcode.number <<< 12)

theorem of_word_bits (opcode : Opcode) : ofWord opcode.bits = opcode := by
  cases opcode <;> rfl

end Opcode

inductive Service where
  | getc
  | out
  | puts
  | halt
deriving DecidableEq, Repr

namespace Service

def vector : Service → Nat
  | .getc => 0x20
  | .out => 0x21
  | .puts => 0x22
  | .halt => 0x25

def ofWord? (word : Word) : Option Service :=
  match word.field 0 8 with
  | 0x20 => some .getc
  | 0x21 => some .out
  | 0x22 => some .puts
  | 0x25 => some .halt
  | _ => none

def word (service : Service) : Word := Opcode.trap.bits + .ofNat service.vector

end Service

inductive Operand where
  | register (source : Register)
  | immediate (value : Word)
deriving DecidableEq, Repr

inductive Target where
  | offset (value : Word)
  | base (register : Register)
deriving DecidableEq, Repr

inductive Instruction where
  | br (nzp offset : Word)
  | add (dr sr : Register) (operand : Operand)
  | and (dr sr : Register) (operand : Operand)
  | not (dr sr : Register)
  | jmp (base : Register)
  | jsr (target : Target)
  | ld (dr : Register) (offset : Word)
  | ldi (dr : Register) (offset : Word)
  | ldr (dr base : Register) (offset : Word)
  | lea (dr : Register) (offset : Word)
  | st (sr : Register) (offset : Word)
  | sti (sr : Register) (offset : Word)
  | str (sr base : Register) (offset : Word)
  | trap (service : Service)
deriving DecidableEq, Repr

def Instruction.opcode : Instruction → Opcode
  | .br .. => .br
  | .add .. => .add
  | .and .. => .and
  | .not .. => .not
  | .jmp .. => .jmp
  | .jsr .. => .jsr
  | .ld .. => .ld
  | .ldi .. => .ldi
  | .ldr .. => .ldr
  | .lea .. => .lea
  | .st .. => .st
  | .sti .. => .sti
  | .str .. => .str
  | .trap .. => .trap

end LittleComputer
