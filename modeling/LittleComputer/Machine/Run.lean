import LittleComputer.Machine.Attempt

set_option autoImplicit false

namespace LittleComputer

inductive Ending where
  | halted
  | cancelled
  | inputClosed
  | faulted (fault : Fault)
deriving DecidableEq, Repr

structure RunReport where
  -- instructions completed, with the final `HALT` and without skipped words; nobody lives to see 2 ^ 64 of them
  steps : Nat
  ending : Ending
deriving DecidableEq, Repr

inductive Drain where
  | check
  | receive
  | queue (char : Char)
  | idle
  | ended (linked : Bool)
deriving DecidableEq, Repr

namespace Drain

def turn (token : Token) (drain : Drain) (panel : Panel) : Panel × Option Drain :=
  match drain with
  | .check => if panel.isFired token then (panel, some (.ended true)) else (panel, some .receive)
  | .receive =>
      match panel.takeChar with
      | (.char char, panel) => (panel, some (.queue char))
      | (.empty, panel) => if panel.isFired token then (panel, some .check) else (panel, none)
      | (.disconnected, panel) => (panel.dropSource.setClosed true, some .idle)
  | .queue char => (panel.type char, some .check)
  | .idle => if panel.isFired token then (panel, some (.ended false)) else (panel, none)
  | .ended _ => (panel, none)

end Drain

inductive Execution.Phase where
  | check
  | attempt (attempt : Attempt)
  | stopping (ending : Ending)
  | ended (ending : Ending)

structure Execution where
  -- counted without a bound, as 2 ^ 64 is out of reach
  steps : Nat := 0
  phase : Execution.Phase := .check

namespace Execution

def conclude (steps : Nat) (result : Except Fault Outcome) (machine : Machine) :
    Machine × Execution :=
  match result with
  | .ok .retired => (machine, ⟨steps + 1, .check⟩)
  | .ok .halted => (machine, ⟨steps + 1, .stopping .halted⟩)
  | .ok .interrupted => (machine, ⟨steps, .stopping .cancelled⟩)
  | .ok .inputClosed => (machine, ⟨steps, .stopping .inputClosed⟩)
  | .error fault =>
      match machine.config.policy with
      | .halt => (machine, ⟨steps, .stopping (.faulted fault)⟩)
      | .continue =>
          ({ machine with core := machine.core.setPc (machine.core.registers.pc + 1) },
            ⟨steps, .check⟩)

def turn (token : Token) (execution : Execution) (machine : Machine) :
    Machine × Option Execution :=
  match execution.phase with
  | .check =>
      let phase := if machine.panel.isFired token then .stopping .cancelled else .attempt .latch
      (machine, some { execution with phase })
  | .attempt (.done result) =>
      match conclude execution.steps result machine with
      | (machine, execution) => (machine, some execution)
  | .attempt attempt =>
      match attempt.turn token machine with
      | (machine, some attempt) => (machine, some { execution with phase := .attempt attempt })
      | (machine, none) => (machine, none)
  | .stopping ending =>
      ({ machine with panel := machine.panel.stopRun token },
        some { execution with phase := .ended ending })
  | .ended _ => (machine, none)

end Execution

inductive RunCall where
  | entering (token : Token)
  | active (token : Token) (execution : Execution) (drain : Drain)
  | returned (report : RunReport)

namespace RunCall

def awaitsInput : RunCall → Bool
  | .active _ ⟨_, .attempt .await⟩ _ => true
  | _ => false

def claim (token : Token) (machine : Machine) : Machine × RunCall :=
  match machine.panel.mode with
  | .running => (machine, .returned ⟨0, .cancelled⟩)
  | .stopped =>
      ({ machine with panel := { machine.panel with mode := .running, slot := some token } },
        .entering token)

def enter (token : Token) (panel : Panel) : Panel × RunCall :=
  match panel.takeSource with
  | (linked, panel) =>
      (panel.setClosed !linked, .active token {} (if linked then .check else .idle))

def leave (linked : Bool) (panel : Panel) : Panel :=
  { (if linked then panel.returnSource else panel) with slot := none, mode := .stopped }

def drainTurn (call : RunCall) (machine : Machine) : Machine × Option RunCall :=
  match call with
  | .active token execution drain =>
      match drain.turn token machine.panel with
      | (panel, some drain) => ({ machine with panel }, some (.active token execution drain))
      | (panel, none) => ({ machine with panel }, none)
  | _ => (machine, none)

def mainTurn (call : RunCall) (machine : Machine) : Machine × Option RunCall :=
  match call with
  | .entering token =>
      match enter token machine.panel with
      | (panel, call) => ({ machine with panel }, some call)
  | .active _ ⟨steps, .ended ending⟩ (.ended linked) =>
      ({ machine with panel := leave linked machine.panel }, some (.returned ⟨steps, ending⟩))
  | .active token execution drain =>
      match execution.turn token machine with
      | (machine, some execution) => (machine, some (.active token execution drain))
      | (machine, none) => (machine, none)
  | .returned _ => (machine, none)

def turn (call : RunCall) (machine : Machine) : Machine × Option RunCall :=
  match call.drainTurn machine with
  | (machine, some call) => (machine, some call)
  | (machine, none) => call.mainTurn machine

-- A turn under the schedule in which a character is received once the queue is empty. A program is shown no more than
-- the first character of the queue, so it cannot tell that the queue is short.
def turnOnDemand (call : RunCall) (machine : Machine) : Machine × Option RunCall :=
  if machine.panel.keyboard.queue.isEmpty then call.turn machine
  else
    match call.mainTurn machine with
    | (machine, some call) => (machine, some call)
    | (machine, none) => call.drainTurn machine

def resume (turns : Nat) (call : RunCall) (machine : Machine) : Machine × RunCall :=
  machine.settle turn turns call

end RunCall

def Machine.run (turns : Nat) (token : Token) (machine : Machine) : Machine × RunCall :=
  match RunCall.claim token machine with
  | (machine, call) => call.resume turns machine

end LittleComputer
