import LittleComputer.Config
import LittleComputer.Execute
import LittleComputer.Keyboard
import LittleComputer.Line
import LittleComputer.Signal

set_option autoImplicit false

namespace LittleComputer

inductive Mode where
  | stopped
  | running
deriving DecidableEq, Repr

structure Panel where
  mode : Mode := .stopped
  keyboard : Keyboard := {}
  source : Option Line := none
  -- a call holds the receiving end and returns it when it is done
  sourceTaken : Bool := false
  sink : Option Line := none
  -- the token that a stop fires
  slot : Option Token := none
  signals : Signals := {}
deriving DecidableEq, Repr

namespace Panel

def isFired (panel : Panel) (token : Token) : Bool := panel.signals.isFired token

def fire (panel : Panel) (token : Token) : Panel :=
  { panel with signals := panel.signals.fire token }

def issue (panel : Panel) : Token × Panel :=
  match panel.signals.issue with
  | (token, signals) => (token, { panel with signals })

def markStopped (panel : Panel) : Panel := { panel with mode := .stopped }

def fireSlot (panel : Panel) : Panel :=
  match panel.slot with
  | some token => panel.fire token
  | none => panel

-- The host stops the machine. Others may act between the two halves of this.
def stop (panel : Panel) : Panel := panel.markStopped.fireSlot

def stopRun (panel : Panel) (token : Token) : Panel := { panel.fire token with mode := .stopped }

def takeSource (panel : Panel) : Bool × Panel :=
  if panel.source.isSome && !panel.sourceTaken then (true, { panel with sourceTaken := true })
  else (false, panel)

def returnSource (panel : Panel) : Panel := { panel with sourceTaken := false }

def dropSource (panel : Panel) : Panel := { panel with source := none, sourceTaken := false }

def takeChar (panel : Panel) : Line.Taken × Panel :=
  match panel.source with
  | none => (.disconnected, panel)
  | some line =>
      match line.take with
      | (taken, line) => (taken, { panel with source := some line })

def type (panel : Panel) (char : Char) : Panel :=
  { panel with keyboard := panel.keyboard.type char }

def setClosed (panel : Panel) (closed : Bool) : Panel :=
  { panel with keyboard := panel.keyboard.setClosed closed }

def slotToken (panel : Panel) : Token × Panel :=
  match panel.slot with
  | some token => (token, panel)
  | none =>
      match panel.issue with
      | (token, panel) => (token, { panel with slot := some token })

def clearFired (panel : Panel) : Panel :=
  match panel.slot with
  | some token => if panel.isFired token then { panel with slot := none } else panel
  | none => panel

-- The console of a machine. Characters are waited for and handed over before the instruction is executed, so nothing is
-- refused here.
def console (token : Token) : Console Panel where
  readChar panel :=
    match panel.keyboard.pop with
    | (code, keyboard) => (code, { panel with keyboard })
  writeChar _ panel := (true, panel)
  acknowledgeKey panel := { panel with keyboard := panel.keyboard.pop.2 }
  halt panel := panel.stopRun token

end Panel

structure Machine where
  core : Core := {}
  panel : Panel := {}
  config : Config := {}
deriving DecidableEq

namespace Machine

def loadMemory (machine : Machine) (memory : Memory) : Machine :=
  { machine with core := { machine.core with memory } }

def loadRegisters (machine : Machine) (registers : Registers) : Machine :=
  { machine with core := { machine.core with registers } }

def reset (machine : Machine) : Machine := { machine with core := machine.core.reset }

def stop (machine : Machine) : Machine := { machine with panel := machine.panel.stop }

def setSource (machine : Machine) (line : Line) : Machine :=
  { machine with panel := { machine.panel with source := some line, sourceTaken := false } }

def setSink (machine : Machine) (line : Line) : Machine :=
  { machine with panel := { machine.panel with sink := some line } }

def issue (machine : Machine) : Token × Machine :=
  match machine.panel.issue with
  | (token, panel) => (token, { machine with panel })

def fire (machine : Machine) (token : Token) : Machine :=
  { machine with panel := machine.panel.fire token }

def pendingInput (machine : Machine) : Nat := machine.panel.keyboard.queue.size

def replug (machine : Machine) (line : Line) : Machine :=
  { machine with panel := { machine.panel with source := some line } }

def send (machine : Machine) (text : List Char) : Nat × Machine :=
  match machine.panel.source with
  | none => (0, machine)
  | some line =>
      match line.putAll text with
      | (count, line) => (count, machine.replug line)

def closeSender (machine : Machine) : Machine :=
  { machine with panel := { machine.panel with source := machine.panel.source.map Line.closeSender } }

def closeReceiver (machine : Machine) : Machine :=
  { machine with panel := { machine.panel with sink := machine.panel.sink.map Line.closeReceiver } }

def drainOutput (machine : Machine) : Array Char × Machine :=
  match machine.panel.sink with
  | none => (#[], machine)
  | some line =>
      (line.waiting,
        { machine with panel := { machine.panel with sink := some { line with waiting := #[] } } })

def awaitOutput (machine : Machine) : Machine :=
  { machine with panel := { machine.panel with sink := machine.panel.sink.map Line.await } }

def latchKeyboard (machine : Machine) : Machine :=
  match machine.panel.keyboard.front? with
  | none => machine
  | some code =>
      if machine.core.keyLatched then machine else { machine with core := machine.core.latch code }

@[specialize] def settle {Call : Type} (turn : Call → Machine → Machine × Option Call) :
    Nat → Call → Machine → Machine × Call
  | 0, call, machine => (machine, call)
  | turns + 1, call, machine =>
      match turn call machine with
      | (machine, some call) => settle turn turns call machine
      | (machine, none) => (machine, call)

end Machine

end LittleComputer
