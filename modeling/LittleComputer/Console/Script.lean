import LittleComputer.Console

set_option autoImplicit false

namespace LittleComputer

structure Script where
  input : List Word := []
  budget : Option Nat := none
  written : Array UInt8 := #[]
  acknowledged : Nat := 0
  halts : Nat := 0
deriving DecidableEq, Repr

namespace Script

def readChar (script : Script) : Option Word × Script :=
  (script.input.head?, { script with input := script.input.tail })

def writeChar (byte : UInt8) (script : Script) : Bool × Script :=
  if script.budget = some 0 then (false, script)
  else (true, { script with
    budget := script.budget.map (· - 1)
    written := script.written.push byte })

def acknowledgeKey (script : Script) : Script :=
  { script with input := script.input.tail, acknowledged := script.acknowledged + 1 }

def halt (script : Script) : Script := { script with halts := script.halts + 1 }

def console : Console Script := { readChar, writeChar, acknowledgeKey, halt }

end Script

end LittleComputer
