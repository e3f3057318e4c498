import LittleComputer.Text.Decimal

set_option autoImplicit false

namespace LittleComputer

inductive Json where
  | null
  | bool (value : Bool)
  | number (literal : List Char)
  | string (text : Option String)
  | array (elements : List Json)
  | object (members : List (Option String × Json))

namespace Json

def isBlank (char : Char) : Bool := char = ' ' || char = '\t' || char = '\n' || char = '\r'

def skipBlanks (text : List Char) : List Char := text.dropWhile isBlank

def expect : List Char → List Char → Option (List Char)
  | [], text => some text
  | _ :: _, [] => none
  | char :: word, found :: text => if char = found then expect word text else none

def digits? (text : List Char) : Option (List Char × List Char) :=
  match text.span Char.isDigit with
  | ([], _) => none
  | (digits, rest) => some (digits, rest)

def whole? : List Char → Option (List Char × List Char)
  | '0' :: rest => some (['0'], rest)
  | text => digits? text

def fraction? : List Char → Option (List Char × List Char)
  | '.' :: rest => (digits? rest).map fun (digits, rest) => ('.' :: digits, rest)
  | text => some ([], text)

def sign : List Char → List Char × List Char
  | '+' :: rest => (['+'], rest)
  | '-' :: rest => (['-'], rest)
  | text => ([], text)

def exponent? : List Char → Option (List Char × List Char)
  | char :: rest =>
      if char = 'e' || char = 'E' then
        let (mark, rest) := sign rest
        (digits? rest).map fun (digits, rest) => (char :: mark ++ digits, rest)
      else some ([], char :: rest)
  | [] => some ([], [])

def number? (text : List Char) : Option (List Char × List Char) := do
  let (minus, text) := match text with
    | '-' :: rest => (['-'], rest)
    | text => ([], text)
  let (whole, text) ← whole? text
  let (fraction, text) ← fraction? text
  let (exponent, text) ← exponent? text
  some (minus ++ whole ++ fraction ++ exponent, text)

def hexDigit? (char : Char) : Option Nat :=
  if '0' ≤ char && char ≤ '9' then some (char.toNat - '0'.toNat)
  else if 'a' ≤ char && char ≤ 'f' then some (char.toNat - 'a'.toNat + 10)
  else if 'A' ≤ char && char ≤ 'F' then some (char.toNat - 'A'.toNat + 10)
  else none

def escape? : Char → Option Nat
  | '"' => some 0x22
  | '\\' => some 0x5C
  | '/' => some 0x2F
  | 'b' => some 0x08
  | 'f' => some 0x0C
  | 'n' => some 0x0A
  | 'r' => some 0x0D
  | 't' => some 0x09
  | _ => none

def codes? : List Char → Option (List Nat × List Char)
  | [] => none
  | '"' :: rest => some ([], rest)
  | '\\' :: 'u' :: a :: b :: c :: d :: rest => do
      let code := (((← hexDigit? a) * 16 + (← hexDigit? b)) * 16 + (← hexDigit? c)) * 16 + (← hexDigit? d)
      let (codes, rest) ← codes? rest
      some (code :: codes, rest)
  | '\\' :: char :: rest => do
      let code ← escape? char
      let (codes, rest) ← codes? rest
      some (code :: codes, rest)
  | char :: rest =>
      if char.toNat < 0x20 then none
      else do
        let (codes, rest) ← codes? rest
        some (char.toNat :: codes, rest)

def isHigh (code : Nat) : Bool := 0xD800 ≤ code && code < 0xDC00

def isLow (code : Nat) : Bool := 0xDC00 ≤ code && code < 0xE000

def spell? : List Nat → Option (List Char)
  | [] => some []
  | [code] => if isHigh code || isLow code then none else some [Char.ofNat code]
  | code :: next :: rest =>
      if isHigh code && isLow next then
        (spell? rest).map (Char.ofNat (0x10000 + (code - 0xD800) * 0x400 + (next - 0xDC00)) :: ·)
      else if isHigh code || isLow code then none
      else (spell? (next :: rest)).map (Char.ofNat code :: ·)

def string? (text : List Char) : Option (Option String × List Char) :=
  (codes? text).map fun (codes, rest) => ((spell? codes).map String.ofList, rest)

mutual
def value? : Nat → List Char → Option (Json × List Char)
  | 0, _ => none
  | fuel + 1, text =>
      match skipBlanks text with
      | 'n' :: rest => (expect ['u', 'l', 'l'] rest).map (null, ·)
      | 't' :: rest => (expect ['r', 'u', 'e'] rest).map (bool true, ·)
      | 'f' :: rest => (expect ['a', 'l', 's', 'e'] rest).map (bool false, ·)
      | '"' :: rest => (string? rest).map fun (text, rest) => (string text, rest)
      | '[' :: rest =>
          match skipBlanks rest with
          | ']' :: rest => some (array [], rest)
          | rest => (elements? fuel rest).map fun (elements, rest) => (array elements, rest)
      | '\x7b' :: rest =>
          match skipBlanks rest with
          | '\x7d' :: rest => some (object [], rest)
          | rest => (members? fuel rest).map fun (members, rest) => (object members, rest)
      | rest => (number? rest).map fun (literal, rest) => (number literal, rest)

def elements? : Nat → List Char → Option (List Json × List Char)
  | 0, _ => none
  | fuel + 1, text => do
      let (element, rest) ← value? fuel text
      match skipBlanks rest with
      | ',' :: rest => (elements? fuel rest).map fun (elements, rest) => (element :: elements, rest)
      | ']' :: rest => some ([element], rest)
      | _ => none

def members? : Nat → List Char → Option (List (Option String × Json) × List Char)
  | 0, _ => none
  | fuel + 1, text =>
      match skipBlanks text with
      | '"' :: rest => do
          let (key, rest) ← string? rest
          match skipBlanks rest with
          | ':' :: rest => do
              let (value, rest) ← value? fuel rest
              match skipBlanks rest with
              | ',' :: rest =>
                  (members? fuel rest).map fun (members, rest) => ((key, value) :: members, rest)
              | '\x7d' :: rest => some ([(key, value)], rest)
              | _ => none
          | _ => none
      | _ => none
end

-- The value that makes up a text, apart from blanks around it. Every level of nesting and every element takes at least
-- one character, so the length bounds both.
def parse? (text : List Char) : Option Json :=
  match value? (2 * text.length + 1) text with
  | some (value, rest) => if (skipBlanks rest).isEmpty then some value else none
  | none => none

def naturalBelow? (limit : Nat) : Json → Option Nat
  | .number literal => if literal.all Char.isDigit then Decimal.below? limit literal else none
  | _ => none

end Json

end LittleComputer
