set_option autoImplicit false

namespace LittleComputer

structure Line where
  capacity : Nat
  waiting : Array Char := #[]
  senderOpen : Bool := true
  receiverOpen : Bool := true
  -- the receiver stands at an empty line and takes the next character at once
  awaited : Bool := false
deriving DecidableEq, Repr

namespace Line

inductive Taken where
  | char (char : Char)
  | empty
  | disconnected
deriving DecidableEq, Repr

inductive Given where
  | accepted
  | full
  | cancelled
  | disconnected
deriving DecidableEq, Repr

def hasRoom (line : Line) : Bool :=
  line.waiting.size < max line.capacity line.awaited.toNat

def put (line : Line) (char : Char) : Line :=
  { line with waiting := line.waiting.push char, awaited := false }

def take (line : Line) : Taken × Line :=
  match line.waiting[0]? with
  | some char => (.char char, { line with waiting := line.waiting.extract 1 })
  | none => if line.senderOpen then (.empty, line) else (.disconnected, line)

def await (line : Line) : Line := { line with awaited := line.waiting.isEmpty }

-- A sender that is ready to wait may put one character on the line beyond its capacity. It then waits until there is no
-- such character any more.
def senderFree (line : Line) : Bool := line.waiting.size ≤ line.capacity

def putAll (line : Line) : List Char → Nat × Line
  | [] => (0, line)
  | char :: rest =>
      if line.receiverOpen && line.senderOpen && line.hasRoom then
        let (count, line) := (line.put char).putAll rest
        (count + 1, line)
      else (0, line)

def offer (line : Line) (char : Char) : Given × Line :=
  if !line.receiverOpen then (.disconnected, line)
  else if line.hasRoom then (.accepted, line.put char)
  else (.full, line)

def give (line : Line) (fired : Bool) (char : Char) : Given × Line :=
  if fired then (.cancelled, line) else line.offer char

def closeSender (line : Line) : Line := { line with senderOpen := false }

def closeReceiver (line : Line) : Line :=
  { line with receiverOpen := false, waiting := #[], awaited := false }

end Line

end LittleComputer
