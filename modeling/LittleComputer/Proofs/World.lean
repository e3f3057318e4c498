import LittleComputer.Machine.Run
import LittleComputer.Machine.Step

set_option autoImplicit false

namespace LittleComputer

-- A character leaves the queue for a `GETC`, or because it has been read from the keyboard data.
inductive Dequeue where
  | getc (code : Word)
  | key (code : Option Word)
deriving DecidableEq

def Dequeue.code? : Dequeue → Option Word
  | .getc code => some code
  | .key code => code

namespace Panel

def recorder (token : Token) : Console (Panel × List Dequeue) where
  readChar state :=
    match (console token).readChar state.1 with
    | (some code, panel) => (some code, panel, state.2 ++ [.getc code])
    | (none, panel) => (none, panel, state.2)
  writeChar byte state :=
    match (console token).writeChar byte state.1 with
    | (taken, panel) => (taken, panel, state.2)
  acknowledgeKey state :=
    ((console token).acknowledgeKey state.1, state.2 ++ [.key state.1.keyboard.pop.1])
  halt state := ((console token).halt state.1, state.2)

def accepts (panel : Panel) (char : Char) : Bool :=
  panel.sink.any fun line => (line.offer char).1 = .accepted

end Panel

structure Executed where
  before : Core
  after : Core
  dequeues : List Dequeue

def Machine.executed (token : Token) (machine : Machine) : Executed where
  before := machine.core
  after := (machine.core.step (Panel.recorder token) (machine.panel, [])).2.1
  dequeues := (machine.core.step (Panel.recorder token) (machine.panel, [])).2.2.2

inductive Call where
  | none
  | step (call : StepCall)
  | run (call : RunCall)

namespace Call

def finished : Call → Bool
  | .none => true
  | .step (.returned _) => true
  | .run (.returned _) => true
  | _ => false

def inFlight : Call → Option Char
  | .step (.queueing char) => some char
  | .step (.received _ char) => some char
  | .run (.active _ _ (.queue char)) => some char
  | _ => .none

def attempt? : Call → Option (Token × Attempt)
  | .step (.attempting token _ attempt) => some (token, attempt)
  | .run (.active token ⟨_, .attempt attempt⟩ _) => some (token, attempt)
  | _ => .none

end Call

structure History where
  sent : List Char := []
  -- the core at each look at the word at PC
  looked : List Core := []
  executed : List Executed := []
  accepted : List Char := []

def History.note (history : History) (machine : Machine) : Option (Token × Attempt) → History
  | some (_, .look) => { history with looked := history.looked ++ [machine.core] }
  | some (token, .execute) => { history with executed := history.executed ++ [machine.executed token] }
  | some (_, .offer char _) =>
      if machine.panel.accepts char then { history with accepted := history.accepted ++ [char] } else history
  | _ => history

-- A machine together with all that acts on it. One call at a time is on the machine; its tasks, the sender, the
-- consumer and the host have their turns in any order.
structure World where
  machine : Machine
  call : Call := .none
  -- what the sender is still to send, and whether it then drops its end of the line
  unsent : List Char := []
  hangsUp : Bool := false
  tokens : List Token := []
  history : History := {}

inductive Task where
  | main
  | drain
  | send
  | listen
  | receive
deriving DecidableEq, Repr

inductive Action where
  | task (task : Task)
  | step
  | start (token : Token)
  | issue
  | cancel (token : Token)
  | markStopped
  | fireSlot
  | dropOutput
deriving DecidableEq, Repr

namespace World

def main (world : World) : World :=
  let history := world.history.note world.machine world.call.attempt?
  match world.call with
  | .none => world
  | .step call =>
      match call.turn world.machine with
      | (machine, next) => { world with machine, call := .step (next.getD call), history }
  | .run call =>
      match call.mainTurn world.machine with
      | (machine, next) => { world with machine, call := .run (next.getD call), history }

def drain (world : World) : World :=
  match world.call with
  | .run call =>
      match call.drainTurn world.machine with
      | (machine, next) => { world with machine, call := .run (next.getD call) }
  | _ => world

-- A sender that finds no room waits with its character in hand, which the receiver can take from there.
def send (world : World) : World :=
  match world.unsent, world.machine.panel.source with
  | char :: rest, some line =>
      if line.senderOpen then
        { world with
          machine := world.machine.replug (line.put char)
          unsent := rest
          history := { world.history with sent := world.history.sent ++ [char] } }
      else world
  | [], _ => if world.hangsUp then { world with machine := world.machine.closeSender } else world
  | _, none => world

def receive (world : World) : World :=
  match world.machine.panel.sink with
  | some line =>
      { world with machine := { world.machine with panel := { world.machine.panel with sink := some line.take.2 } } }
  | none => world

def perform (world : World) : Task → World
  | .main => world.main
  | .drain => world.drain
  | .send => world.send
  | .listen => { world with machine := world.machine.awaitOutput }
  | .receive => world.receive

def step (world : World) : World :=
  if world.call.finished then
    match StepCall.enter world.machine with
    | (machine, call) => { world with machine, call := .step call }
  else world

def start (world : World) (token : Token) : World :=
  if world.call.finished && world.tokens.contains token then
    match RunCall.claim token world.machine with
    | (machine, call) => { world with machine, call := .run call }
  else world

def act (world : World) : Action → World
  | .task task => world.perform task
  | .step => world.step
  | .start token => world.start token
  | .issue =>
      match world.machine.issue with
      | (token, machine) => { world with machine, tokens := token :: world.tokens }
  | .cancel token =>
      if world.tokens.contains token then { world with machine := world.machine.fire token } else world
  | .markStopped => { world with machine := { world.machine with panel := world.machine.panel.markStopped } }
  | .fireSlot => { world with machine := { world.machine with panel := world.machine.panel.fireSlot } }
  | .dropOutput => { world with machine := world.machine.closeReceiver }

def schedule (world : World) (tasks : List Task) : World := tasks.foldl perform world

def run (world : World) (actions : List Action) : World := actions.foldl act world

end World

-- Opened where a run on one machine is evaluated, turn by turn.
namespace Turns

attribute [scoped simp] World.run World.schedule World.act World.perform World.main World.drain World.send World.step
  World.start Call.finished Call.attempt? History.note RunCall.claim RunCall.enter RunCall.mainTurn RunCall.drainTurn
  RunCall.leave StepCall.enter StepCall.turn StepCall.begin StepCall.leave Drain.turn Execution.turn Execution.conclude
  Attempt.turn Attempt.prospect Attempt.awaiting Attempt.executing Attempt.handingOver Attempt.offering
  Machine.latchKeyboard Machine.replug Machine.closeSender Machine.executed Panel.accepts Panel.takeSource
  Panel.takeChar Panel.dropSource Panel.setClosed Panel.type Panel.slotToken Panel.issue Panel.clearFired Panel.isFired Panel.fire
  Panel.stopRun Panel.console Line.put Line.take Line.offer Line.hasRoom Line.closeSender Signals.issue Signals.isFired
  Signals.fire Keyboard.setClosed Keyboard.type Keyboard.code? Keyboard.push Keyboard.front? Keyboard.pop Keyboard.wait?
  Address.origin Address.keyboardStatus Address.keyboardData Address.readyBit Memory.read_write Registers.get
  Registers.set Core.keyLatched Core.latch Core.unlatch Core.store Core.load Core.noteLoad Core.forgetKey
  Core.setRegister Core.setResult Core.setPc Core.settleKey Core.step Core.execute Core.serve Core.getc Core.output?
  Core.r0 Core.print Core.compute Core.pcRelative Console.writeAll

end Turns

namespace World

theorem main_turned (world : World) :
    world.main = { world with
      machine := world.main.machine
      call := world.main.call
      history := world.history.note world.machine world.call.attempt? } := by
  rcases world with ⟨machine, call, unsent, hangsUp, tokens, history⟩
  cases call <;> rfl

theorem drain_turned (world : World) :
    world.drain = { world with machine := world.drain.machine, call := world.drain.call } := by
  rcases world with ⟨machine, call, unsent, hangsUp, tokens, history⟩
  cases call <;> rfl

theorem drain_inactive (world : World)
    (inactive : ∀ token execution drain, world.call ≠ .run (.active token execution drain)) :
    world.drain = world := by
  rcases world with ⟨machine, call, unsent, hangsUp, tokens, history⟩
  cases call with
  | none => rfl
  | step call => rfl
  | run call =>
      cases call with
      | active token execution drain => exact absurd rfl (inactive token execution drain)
      | _ => rfl

theorem send_cases (world : World) :
    world.send = world ∨
      (∃ char rest line, world.unsent = char :: rest ∧ world.machine.panel.source = some line ∧
        line.senderOpen = true ∧
        world.send = { world with
          machine := world.machine.replug (line.put char)
          unsent := rest
          history := { world.history with sent := world.history.sent ++ [char] } }) ∨
      (world.unsent = [] ∧ world.hangsUp = true ∧
        world.send = { world with machine := world.machine.closeSender }) := by
  unfold send
  split
  · rename_i char rest line unsent source
    by_cases open? : line.senderOpen = true
    · rw [if_pos open?]
      exact .inr (.inl ⟨char, rest, line, unsent, source, open?, rfl⟩)
    · rw [if_neg open?]
      exact .inl rfl
  · rename_i unsent
    by_cases gone : world.hangsUp = true
    · rw [if_pos gone]
      exact .inr (.inr ⟨unsent, gone, rfl⟩)
    · rw [if_neg gone]
      exact .inl rfl
  · exact .inl rfl

theorem receive_cases (world : World) :
    world.receive = world ∨ ∃ line, world.machine.panel.sink = some line ∧
      world.receive = { world with
        machine := { world.machine with panel := { world.machine.panel with sink := some line.take.2 } } } := by
  unfold receive
  cases world.machine.panel.sink with
  | none => exact .inl rfl
  | some line => exact .inr ⟨line, rfl, rfl⟩

theorem perform_cases (world : World) (task : Task) :
    task = .main ∨ task = .drain ∨ ∃ source sink unsent sent, world.perform task = { world with
      machine := { world.machine with panel := { world.machine.panel with source, sink } }
      unsent
      history := { world.history with sent } } := by
  cases task with
  | main => exact .inl rfl
  | drain => exact .inr (.inl rfl)
  | listen => exact .inr (.inr ⟨_, _, _, _, rfl⟩)
  | send =>
      refine .inr (.inr ?_)
      obtain same | ⟨char, rest, line, -, -, -, sends⟩ | ⟨-, -, closes⟩ := send_cases world
      · exact ⟨_, _, _, _, same⟩
      · exact ⟨_, _, _, _, sends⟩
      · exact ⟨_, _, _, _, closes⟩
  | receive =>
      refine .inr (.inr ?_)
      obtain same | ⟨line, -, takes⟩ := receive_cases world
      · exact ⟨_, _, _, _, same⟩
      · exact ⟨_, _, _, _, takes⟩

theorem step_cases (world : World) :
    world.step = world ∨ (world.call.finished = true ∧
      world.step = { world with
        machine := (StepCall.enter world.machine).1
        call := .step (StepCall.enter world.machine).2 }) := by
  unfold step
  by_cases finished : world.call.finished = true
  · rw [if_pos finished]
    exact .inr ⟨finished, rfl⟩
  · rw [if_neg finished]
    exact .inl rfl

theorem start_cases (world : World) (token : Token) :
    world.start token = world ∨ (world.call.finished = true ∧
      world.start token = { world with
        machine := (RunCall.claim token world.machine).1
        call := .run (RunCall.claim token world.machine).2 }) := by
  unfold World.start
  by_cases free : (world.call.finished && world.tokens.contains token) = true
  · rw [if_pos free]
    exact .inr ⟨(Bool.and_eq_true_iff.mp free).1, rfl⟩
  · rw [if_neg free]
    exact .inl rfl

end World

end LittleComputer
