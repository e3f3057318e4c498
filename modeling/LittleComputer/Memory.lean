import LittleComputer.Word

set_option autoImplicit false

namespace LittleComputer

namespace Address

def origin : Word := 0x3000

def keyboardStatus : Word := 0xFE00

def keyboardData : Word := 0xFE02

def readyBit : Word := 0x8000

def imageLimit : Word := 0xFFFF

def isDevice (address : Word) : Bool :=
  address = keyboardStatus || address = keyboardData

end Address

structure Memory where
  cells : Vector Word 65536
deriving DecidableEq

namespace Memory

def size : Nat := 65536

def filled (word : Word) : Memory := ⟨.replicate 65536 word⟩

def zero : Memory := filled 0

instance : Inhabited Memory := ⟨zero⟩

def read (memory : Memory) (address : Word) : Word :=
  have inRange : address.toNat < 65536 := address.toNat_lt
  memory.cells[address.toNat]

def write : Memory → Word → Word → Memory
  | ⟨cells⟩, address, word => ⟨cells.set address.toNat word address.toNat_lt⟩

def writeAll (memory : Memory) (pairs : List (Word × Word)) : Memory :=
  pairs.foldl (fun memory pair => memory.write pair.1 pair.2) memory

def writeFrom : Memory → Word → List Word → Memory
  | memory, _, [] => memory
  | memory, address, word :: rest => (memory.write address word).writeFrom (address + 1) rest

def nonzero (memory : Memory) : Nat := 65536 - memory.cells.count 0

def describe (memory : Memory) : String :=
  "Memory \x7b words: " ++ toString size ++ ", non_zero: " ++ toString memory.nonzero ++ " \x7d"

def stringWithin (memory : Memory) : Nat → Word → Option (List Word)
  | 0, _ => none
  | fuel + 1, address =>
      if memory.read address = 0 then some []
      else (stringWithin memory fuel (address + 1)).map (memory.read address :: ·)

-- The string at `address`. A scan goes round the memory once, so it finds a zero word if there is one; otherwise there
-- is no string.
def string? (memory : Memory) (address : Word) : Option (List Word) :=
  memory.stringWithin size address

theorem read_filled (word address : Word) : (filled word).read address = word := by
  simp [filled, read]

theorem read_zero (address : Word) : zero.read address = 0 := read_filled 0 address

theorem read_write (memory : Memory) (target other word : Word) :
    (memory.write target word).read other = if target = other then word else memory.read other := by
  simp [read, write, Vector.getElem_set, UInt16.toNat_inj]

end Memory

end LittleComputer
