set_option autoImplicit false

namespace LittleComputer.Utf8

def encode (text : List Char) : List UInt8 := text.flatMap String.utf8EncodeChar

def length (lead : UInt8) : Nat :=
  if lead < 0x80 then 1 else if lead < 0xE0 then 2 else if lead < 0xF0 then 3 else 4

def payload : List UInt8 → Nat
  | [a] => a.toNat
  | [a, b] => a.toNat % 32 * 64 + b.toNat % 64
  | [a, b, c] => (a.toNat % 16 * 64 + b.toNat % 64) * 64 + c.toNat % 64
  | [a, b, c, d] =>
      ((a.toNat % 8 * 64 + b.toNat % 64) * 64 + c.toNat % 64) * 64 + d.toNat % 64
  | _ => 0

-- The character at the front and the bytes after it. Bytes are a character only if they are what encoding it gives,
-- which rules out surrogates and longer forms.
def next? (bytes : List UInt8) : Option (Char × List UInt8) :=
  match bytes with
  | [] => none
  | lead :: _ =>
      let front := bytes.take (length lead)
      let char := Char.ofNat (payload front)
      if String.utf8EncodeChar char = front then some (char, bytes.drop (length lead)) else none

theorem length_pos (lead : UInt8) : 0 < length lead := by
  unfold length
  repeat' split
  all_goals decide

theorem next_shorter (bytes rest : List UInt8) (char : Char) (found : next? bytes = some (char, rest)) :
    rest.length < bytes.length := by
  cases bytes with
  | nil => cases found
  | cons lead tail =>
      simp only [next?] at found
      split at found
      · cases found
        have positive := length_pos lead
        simp only [List.length_drop, List.length_cons]
        omega
      · cases found

def decodeOnto (done : List Char) (bytes : List UInt8) : Option (List Char) :=
  if bytes.isEmpty then some done
  else
    match _found : next? bytes with
    | none => none
    | some (char, rest) => decodeOnto (char :: done) rest
termination_by bytes.length
decreasing_by exact next_shorter _ _ _ _found

def decode? (bytes : List UInt8) : Option (List Char) := (decodeOnto [] bytes).map List.reverse

end LittleComputer.Utf8
