import LittleComputer.Machine.Basic

set_option autoImplicit false

namespace LittleComputer

-- An attempt to execute the instruction at `PC`, turn by turn. A `GETC` waits for a character before it is executed,
-- and `OUT` and `PUTS` hand their characters over before, so an attempt that is given up leaves `PC` where it was.
inductive Attempt where
  | latch
  | look
  | await
  | handOver (rest : List Char)
  | offer (char : Char) (rest : List Char)
  | execute
  -- a `PUTS` scans a memory without a zero word
  | endless
  | done (result : Except Fault Outcome)

namespace Attempt

def prospect (machine : Machine) : Attempt :=
  match Instruction.decode (machine.core.memory.read machine.core.registers.pc) with
  | .ok (.trap .getc) => if machine.panel.keyboard.queue.isEmpty then .await else .execute
  | .ok (.trap .halt) => .execute
  | .ok (.trap service) =>
      match machine.core.output? service with
      | some bytes => .handOver (bytes.map fun byte => Char.ofNat byte.toNat)
      | none => .endless
  | _ => .execute

def awaiting (token : Token) (panel : Panel) : Option Attempt :=
  (panel.keyboard.wait? (panel.isFired token)).map fun
    | .ready => .latch
    | .cancelled => .done (.ok .interrupted)
    | .closed => .done (.ok .inputClosed)

def handingOver (token : Token) (panel : Panel) : List Char → Attempt
  | [] => .execute
  | char :: rest =>
      if panel.sink.isNone then .execute
      else if panel.isFired token then .done (.ok .interrupted)
      else .offer char rest

-- Offers a character to the output line, again and again while there is no room for it. Those that are left when the
-- receiver is gone are dropped.
def offering (token : Token) (char : Char) (rest : List Char) (panel : Panel) :
    Panel × Option Attempt :=
  match panel.sink with
  | none => (panel, some .execute)
  | some line =>
      match line.offer char with
      | (.accepted, line) => ({ panel with sink := some line }, some (.handOver rest))
      | (.disconnected, _) => (panel, some .execute)
      | _ => (panel, if panel.isFired token then some (.done (.ok .interrupted)) else none)

def executing (token : Token) (machine : Machine) : Machine × Attempt :=
  match machine.core.step (Panel.console token) machine.panel with
  | (some result, core, panel) => ({ machine with core, panel }, .done result)
  | (none, core, panel) => ({ machine with core, panel }, .endless)

def turn (token : Token) (attempt : Attempt) (machine : Machine) : Machine × Option Attempt :=
  match attempt with
  | .latch => (machine.latchKeyboard, some .look)
  | .look => (machine, some (prospect machine))
  | .await => (machine, awaiting token machine.panel)
  | .handOver rest => (machine, some (handingOver token machine.panel rest))
  | .offer char rest =>
      match offering token char rest machine.panel with
      | (panel, attempt) => ({ machine with panel }, attempt)
  | .execute =>
      match executing token machine with
      | (machine, attempt) => (machine, some attempt)
  | .endless => (machine, none)
  | .done _ => (machine, none)

end Attempt

end LittleComputer
