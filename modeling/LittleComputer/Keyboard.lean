import LittleComputer.Word

set_option autoImplicit false

namespace LittleComputer

structure Keyboard where
  queue : Array Word := #[]
  closed : Bool := false
deriving DecidableEq, Repr

namespace Keyboard

inductive Wait where
  | ready
  | cancelled
  | closed
deriving DecidableEq, Repr

def push (keyboard : Keyboard) (code : Word) : Keyboard :=
  { keyboard with queue := keyboard.queue.push code }

def code? (char : Char) : Option Word :=
  if char.toNat < 0x10000 then some (.ofNat char.toNat) else none

def type (keyboard : Keyboard) (char : Char) : Keyboard :=
  match code? char with
  | some code => keyboard.push code
  | none => keyboard

def front? (keyboard : Keyboard) : Option Word := keyboard.queue[0]?

def pop (keyboard : Keyboard) : Option Word × Keyboard :=
  (keyboard.queue[0]?, { keyboard with queue := keyboard.queue.extract 1 })

def setClosed (keyboard : Keyboard) (closed : Bool) : Keyboard := { keyboard with closed }

def wait? (keyboard : Keyboard) (fired : Bool) : Option Wait :=
  if fired then some .cancelled
  else if !keyboard.queue.isEmpty then some .ready
  else if keyboard.closed then some .closed
  else none

end Keyboard

end LittleComputer
