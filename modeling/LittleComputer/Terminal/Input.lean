import LittleComputer.Text.Utf8

set_option autoImplicit false

namespace LittleComputer.PipedInput

def lines (bytes : List UInt8) : List (List UInt8) := bytes.splitBy fun byte _ => byte != 0x0A

def texts (lines : List (List UInt8)) : List (List Char) :=
  ((lines.map Utf8.decode?).takeWhile Option.isSome).filterMap id

def chars (bytes : List UInt8) : List Char := (texts (lines bytes)).flatten

end LittleComputer.PipedInput
