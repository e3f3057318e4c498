import LittleComputer.Word

set_option autoImplicit false

namespace LittleComputer

abbrev Register := Fin 8

@[inline] def Register.ofField (word : Word) (low : Nat) : Register :=
  ⟨word.field low 3, word.field_lt low 3⟩

def Register.ofField? (word : Word) (low : Nat) : Except FieldError Register :=
  if low ≤ 15 then .ok (.ofField word low) else .error .shift

inductive Slot where
  | general (register : Register)
  | pc
  | cond
deriving DecidableEq, Repr

namespace Slot

def count : Nat := 10

def index : Slot → Nat
  | .general register => register
  | .pc => 8
  | .cond => 9

def ofIndex? (index : Nat) : Option Slot :=
  if general : index < 8 then some (.general ⟨index, general⟩)
  else if index = 8 then some .pc
  else if index = 9 then some .cond
  else none

def all : List Slot := (List.range count).filterMap ofIndex?

theorem of_index_index (slot : Slot) : ofIndex? slot.index = some slot := by
  cases slot with
  | general register => simp [ofIndex?, index]
  | pc => rfl
  | cond => rfl

theorem index_of_index (number : Nat) (slot : Slot) (found : ofIndex? number = some slot) :
    slot.index = number := by
  unfold ofIndex? at found
  split at found
  · cases found; rfl
  · split at found
    · cases found; simp_all [index]
    · split at found
      · cases found; simp_all [index]
      · cases found

end Slot

namespace Condition

def positive : Word := 1
def zero : Word := 2
def negative : Word := 4

def ofResult (value : Word) : Word :=
  if value = 0 then zero else if 0x8000 ≤ value then negative else positive

end Condition

structure Registers where
  general : Vector Word 8 := .replicate 8 0
  pc : Word := 0
  cond : Word := 0
deriving DecidableEq, Repr

namespace Registers

def get (registers : Registers) (register : Register) : Word := registers.general[register]

def set (registers : Registers) (register : Register) (value : Word) : Registers :=
  { registers with general := registers.general.set register value }

def setResult (registers : Registers) (register : Register) (value : Word) : Registers :=
  { registers.set register value with cond := Condition.ofResult value }

def slot (registers : Registers) : Slot → Word
  | .general register => registers.get register
  | .pc => registers.pc
  | .cond => registers.cond

theorem get_set (registers : Registers) (target other : Register) (value : Word) :
    (registers.set target value).get other = if target = other then value else registers.get other := by
  simp [get, set, Vector.getElem_set, Fin.ext_iff]

end Registers

end LittleComputer
