set_option autoImplicit false

namespace LittleComputer

structure Writer where
  room : Option Nat := none
  written : Array UInt8 := #[]
  flushes : Nat := 0
deriving DecidableEq, Repr

namespace Writer

def full : String := "writer is full"

def error (reason : String) : String := "terminal error: " ++ reason

def writeAll (writer : Writer) (bytes : List UInt8) : Bool × Writer :=
  match writer.room with
  | none => (true, { writer with written := writer.written ++ bytes })
  | some room =>
      (bytes.length ≤ room, { writer with
        room := some (room - bytes.length)
        written := writer.written ++ bytes.take room })

def bytes (raw : Bool) (char : Char) : List UInt8 :=
  if raw && char = '\n' then [0x0D, 0x0A] else String.utf8EncodeChar char

def writeChar (writer : Writer) (raw : Bool) (char : Char) : Bool × Writer :=
  match writer.writeAll (bytes raw char) with
  | (true, writer) => (true, { writer with flushes := writer.flushes + 1 })
  | (false, writer) => (false, writer)

def writeText (writer : Writer) (raw : Bool) : List Char → Bool × Writer
  | [] => (true, writer)
  | char :: rest =>
      match writer.writeChar raw char with
      | (true, writer) => writer.writeText raw rest
      | (false, writer) => (false, writer)

end Writer

end LittleComputer
