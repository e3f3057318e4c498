set_option autoImplicit false

namespace LittleComputer.Decimal

def extend? (limit value : Nat) (digit : Char) : Option Nat :=
  let value := 10 * value + (digit.toNat - '0'.toNat)
  if value < limit then some value else none

def below? (limit : Nat) (digits : List Char) : Option Nat := digits.foldlM (extend? limit) 0

end LittleComputer.Decimal
