import LittleComputer.Line
import LittleComputer.Text.Utf8

set_option autoImplicit false

namespace LittleComputer

namespace PipedInput

def firstLine : List UInt8 → List UInt8 × List UInt8
  | [] => ([], [])
  | byte :: rest =>
      if byte = 0x0A then ([byte], rest)
      else
        match firstLine rest with
        | (line, later) => (byte :: line, later)

end PipedInput

namespace Reader

inductive Stage where
  | reading
  | sending (sent : Nat)
  | finished
deriving DecidableEq, Repr

end Reader

structure Reader where
  unread : List UInt8
  buffer : List Char := []
  stage : Reader.Stage := .reading
deriving DecidableEq, Repr

namespace Reader

def clear (reader : Reader) : Reader := { reader with buffer := [] }

def readLine (reader : Reader) : Option Nat × Reader :=
  match PipedInput.firstLine reader.unread with
  | (line, later) =>
      match Utf8.decode? line with
      | some text => (some line.length, { reader with unread := later, buffer := reader.buffer ++ text })
      | none => (none, { reader with unread := later })

def leave (reader : Reader) (line : Line) : Reader × Line :=
  ({ reader with stage := .finished }, line.closeSender)

def turn (reader : Reader) (line : Line) : Reader × Line :=
  if line.senderFree then
    match reader.stage with
    | .reading =>
        match reader.clear.readLine with
        | (some 0, reader) => reader.leave line
        | (some _, reader) => ({ reader with stage := .sending 0 }, line)
        | (none, reader) => reader.leave line
    | .sending sent =>
        match reader.buffer[sent]? with
        | some char =>
            if line.receiverOpen then ({ reader with stage := .sending (sent + 1) }, line.put char)
            else reader.leave line
        | none => ({ reader with stage := .reading }, line)
    | .finished => (reader, line)
  else (reader, line)

end Reader

end LittleComputer
