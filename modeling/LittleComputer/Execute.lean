import LittleComputer.Console
import LittleComputer.Core
import LittleComputer.Instruction.Decode

set_option autoImplicit false

namespace LittleComputer.Core

variable {σ : Type}

abbrev r0 (core : Core) : Word := core.registers.get 0

def output? (core : Core) : Service → Option (List UInt8)
  | .out => some [core.r0.lowByte]
  | .puts => (core.memory.string? core.r0).map (·.map Word.lowByte)
  | .getc => some []
  | .halt => some []

def getc (console : Console σ) (next : Word) (core : Core) (state : σ) : Outcome × Core × σ :=
  match console.readChar state with
  | (some code, state) => (.retired, ((core.setRegister 0 code).unlatch).setPc next, state)
  | (none, state) => (.interrupted, core, state)

def print (console : Console σ) (next : Word) (bytes : List UInt8) (core : Core) (state : σ) :
    Outcome × Core × σ :=
  match console.writeAll bytes state with
  | (true, state) => (.retired, core.setPc next, state)
  | (false, state) => (.interrupted, core, state)

def serve (console : Console σ) (service : Service) (next : Word) (core : Core) (state : σ) :
    Option Outcome × Core × σ :=
  match service with
  | .getc =>
      match core.getc console next state with
      | (outcome, core, state) => (some outcome, core, state)
  | .halt => (some .halted, core.setPc next, console.halt state)
  | service =>
      match core.output? service with
      | none => (none, core, state)
      | some bytes =>
          match core.print console next bytes state with
          | (outcome, core, state) => (some outcome, core, state)

def operand (core : Core) : Operand → Word
  | .register source => core.registers.get source
  | .immediate value => value

def pcRelative (next offset : Word) : Word := next + offset

def baseRelative (core : Core) (base : Register) (offset : Word) : Word :=
  core.registers.get base + offset

def compute (core : Core) (next : Word) : Instruction → Core × Word
  | .br nzp offset =>
      (core, if nzp &&& core.registers.cond ≠ 0 then pcRelative next offset else next)
  | .add dr sr operand =>
      (core.setResult dr (core.registers.get sr + core.operand operand), next)
  | .and dr sr operand =>
      (core.setResult dr (core.registers.get sr &&& core.operand operand), next)
  | .not dr sr => (core.setResult dr (~~~core.registers.get sr), next)
  | .jmp base => (core, core.registers.get base)
  | .jsr (.offset offset) => (core.setRegister 7 next, pcRelative next offset)
  | .jsr (.base base) => (core.setRegister 7 next, core.registers.get base)
  | .ld dr offset =>
      let address := pcRelative next offset
      ((core.noteLoad address).setResult dr (core.load address), next)
  | .ldi dr offset =>
      let address := pcRelative next offset
      let pointer := core.load address
      (((core.noteLoad address).noteLoad pointer).setResult dr (core.load pointer), next)
  | .ldr dr base offset =>
      let address := core.baseRelative base offset
      ((core.noteLoad address).setResult dr (core.load address), next)
  | .lea dr offset => (core.setResult dr (pcRelative next offset), next)
  | .st sr offset => (core.store (pcRelative next offset) (core.registers.get sr), next)
  | .sti sr offset =>
      (core.store (core.memory.read (pcRelative next offset)) (core.registers.get sr), next)
  | .str sr base offset =>
      (core.store (core.baseRelative base offset) (core.registers.get sr), next)
  | .trap _ => (core, next)

def execute (console : Console σ) (instruction : Instruction) (core : Core) (state : σ) :
    Option Outcome × Core × σ :=
  let next := core.registers.pc + 1
  match instruction with
  | .trap service => core.serve console service next state
  | instruction =>
      match core.compute next instruction with
      | (core, pc) => (some .retired, core.setPc pc, state)

def settleKey (console : Console σ) (core : Core) (state : σ) : Core × σ :=
  if core.keyRead then (core.forgetKey.unlatch, console.acknowledgeKey state) else (core, state)

-- One instruction. There is no answer for one that never ends, a `PUTS` in a memory without a zero word; it leaves the
-- core and the console as they were.
def step (console : Console σ) (core : Core) (state : σ) :
    Option (Except Fault Outcome) × Core × σ :=
  match Instruction.decode (core.memory.read core.registers.pc) with
  | .error fault => (some (.error fault), core, state)
  | .ok instruction =>
      match core.execute console instruction state with
      | (none, core, state) => (none, core, state)
      | (some outcome, core, state) =>
          match core.settleKey console state with
          | (core, state) => (some (.ok outcome), core, state)

end LittleComputer.Core
