set_option autoImplicit false

namespace LittleComputer

abbrev Word := UInt16

inductive FieldError where
  | width
  | shift
deriving DecidableEq, Repr

def FieldError.message : FieldError → String
  | .width => "field width out of range"
  | .shift => "attempt to shift right with overflow"

namespace Word

@[inline] def field (word : Word) (low width : Nat) : Nat :=
  word.toNat >>> low % 1 <<< width

@[inline] def signExtend (width : Nat) (word : Word) : Word :=
  let value := word.toNat % 1 <<< width
  if value < 1 <<< (width - 1) then .ofNat value else .ofNat (value + UInt16.size - 1 <<< width)

def signExtend? (width : Nat) (word : Word) : Except FieldError Word :=
  if 1 ≤ width ∧ width ≤ 15 then .ok (word.signExtend width) else .error .width

def lowByte (word : Word) : UInt8 := word.toUInt8

def ofBytes (high low : UInt8) : Word := .ofNat (high.toNat * 256 + low.toNat)

def hex (digits : Nat) (word : Word) : String :=
  let text := Nat.toDigits 16 word.toNat
  "0x" ++ String.ofList (List.replicate (digits - text.length) '0' ++ text)

theorem field_lt (word : Word) (low width : Nat) : word.field low width < 1 <<< width :=
  Nat.mod_lt _ (by rw [Nat.one_shiftLeft]; exact Nat.two_pow_pos width)

end Word

end LittleComputer
