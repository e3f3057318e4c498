import LittleComputer.Memory

set_option autoImplicit false

namespace LittleComputer

structure Stream where
  bytes : List UInt8
  failure : Option String := none
deriving DecidableEq, Repr

namespace Stream

def absent : Stream := ⟨[], some "No such file or directory (os error 2)"⟩

def contents (stream : Stream) : Except String (List UInt8) :=
  match stream.failure with
  | none => .ok stream.bytes
  | some reason => .error reason

end Stream

namespace Image

inductive Error where
  | unreadable (reason : String)
  | noOrigin
  | halfWord (address : Word)
deriving DecidableEq, Repr

def Error.message : Error → String
  | .unreadable reason => "failed to read image: " ++ reason
  | .noOrigin => "image is missing its origin word"
  | .halfWord address => "image ends inside the word for address " ++ address.hex 4

-- Stores words at consecutive addresses. Bytes past the last loadable address are not looked at, so it does not matter
-- whether they make up whole words.
def fill (memory : Memory) (address : Word) : List UInt8 → Except Error Memory
  | [] => .ok memory
  | [_] => if address = Address.imageLimit then .ok memory else .error (.halfWord address)
  | high :: low :: rest =>
      if address = Address.imageLimit then .ok memory
      else fill (memory.write address (.ofBytes high low)) (address + 1) rest

def ofBytes : List UInt8 → Except Error Memory
  | high :: low :: body => fill .zero (.ofBytes high low) body
  | _ => .error .noOrigin

def load (stream : Stream) : Except Error Memory :=
  match stream.contents with
  | .ok bytes => ofBytes bytes
  | .error reason => .error (.unreadable reason)

end Image

end LittleComputer
