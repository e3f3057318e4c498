import LittleComputer.Machine.Attempt

set_option autoImplicit false

namespace LittleComputer

inductive StepCall where
  -- characters go from the line to the queue, if the call holds a line
  | filling (linked : Bool)
  | queueing (char : Char)
  | attempting (token : Token) (linked : Bool) (attempt : Attempt)
  -- a `GETC` waits at the input line
  | receiving (token : Token)
  | received (token : Token) (char : Char)
  | returned (result : Except Fault Outcome)

namespace StepCall

def awaitsInput : StepCall → Bool
  | .receiving _ => true
  | _ => false

def enter (machine : Machine) : Machine × StepCall :=
  match machine.panel.takeSource with
  | (linked, panel) => ({ machine with panel }, .filling linked)

def begin (linked : Bool) (panel : Panel) : Panel × StepCall :=
  match (panel.setClosed !linked).slotToken with
  | (token, panel) => (panel, .attempting token linked .latch)

def fill (panel : Panel) : Panel × StepCall :=
  match panel.takeChar with
  | (.char char, panel) => (panel, .queueing char)
  | (.empty, panel) => begin true panel
  | (.disconnected, panel) => begin false panel.dropSource

def await (token : Token) (panel : Panel) : StepCall :=
  if panel.isFired token then .attempting token true (.done (.ok .interrupted)) else .receiving token

-- Waits at the line. It is left for a fired token only while it is empty. A line found disconnected closes the queue
-- and is kept.
def receive (token : Token) (panel : Panel) : Panel × Option StepCall :=
  match panel.takeChar with
  | (.char char, panel) => (panel, some (.received token char))
  | (.empty, panel) =>
      (panel, if panel.isFired token then some (.attempting token true (.done (.ok .interrupted))) else none)
  | (.disconnected, panel) =>
      (panel.setClosed true, some (.attempting token true (.done (.ok .inputClosed))))

def queue (token : Token) (char : Char) (panel : Panel) : Panel × StepCall :=
  let panel := panel.type char
  (panel, .attempting token true (if panel.keyboard.queue.isEmpty then .await else .latch))

def leave (linked : Bool) (panel : Panel) : Panel :=
  (if linked then panel.returnSource else panel).clearFired

def turn (call : StepCall) (machine : Machine) : Machine × Option StepCall :=
  match call with
  | .filling true =>
      match fill machine.panel with
      | (panel, call) => ({ machine with panel }, some call)
  | .filling false =>
      match begin false machine.panel with
      | (panel, call) => ({ machine with panel }, some call)
  | .queueing char =>
      ({ machine with panel := machine.panel.type char }, some (.filling true))
  | .attempting token true .await => (machine, some (await token machine.panel))
  | .attempting _ linked (.done result) =>
      ({ machine with panel := leave linked machine.panel }, some (.returned result))
  | .attempting token linked attempt =>
      match attempt.turn token machine with
      | (machine, some attempt) => (machine, some (.attempting token linked attempt))
      | (machine, none) => (machine, none)
  | .receiving token =>
      match receive token machine.panel with
      | (panel, call) => ({ machine with panel }, call)
  | .received token char =>
      match queue token char machine.panel with
      | (panel, call) => ({ machine with panel }, some call)
  | .returned _ => (machine, none)

-- Turns enough for a call to return or to wait: two for each character on the line, two for each character of the
-- longest string, and those in between.
def turns (panel : Panel) : Nat :=
  2 * (panel.source.elim 0 fun line => line.waiting.size) + 2 * Memory.size + 16

def resume (call : StepCall) (machine : Machine) : Machine × StepCall :=
  machine.settle turn (turns machine.panel) call

end StepCall

def Machine.step (machine : Machine) : Machine × StepCall :=
  match StepCall.enter machine with
  | (machine, call) => call.resume machine

end LittleComputer
