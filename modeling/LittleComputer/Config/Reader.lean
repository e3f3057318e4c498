import LittleComputer.Config
import LittleComputer.Text.Json

set_option autoImplicit false

namespace LittleComputer.Config

def readTick (value : Json) : Option UInt64 :=
  (value.naturalBelow? UInt64.size).map UInt64.ofNat

def policyNamed? (name : String) : Option Policy :=
  if name = "halt" then some .halt else if name = "continue" then some .continue else none

def readPolicy : Json → Option Policy
  | .string (some name) => policyNamed? name
  | .object [(some name, .null)] => policyNamed? name
  | _ => none

def member? (name : String) (members : List (String × Json)) : Option (Option Json) :=
  match members.filter fun member => member.1 = name with
  | [] => some none
  | [member] => some (some member.2)
  | _ => none

def namedMembers? : List (Option String × Json) → Option (List (String × Json))
  | [] => some []
  | (none, _) :: _ => none
  | (some name, value) :: rest => (namedMembers? rest).map ((name, value) :: ·)

def ofValues (tick policy : Option Json) : Option Config := do
  let config : Config := {}
  let tickMicros ← match tick with
    | some value => readTick value
    | none => some config.tickMicros
  let policy ← match policy with
    | some value => readPolicy value
    | none => some config.policy
  some { tickMicros, policy }

def ofJson : Json → Option Config
  | .object members => do
      let members ← namedMembers? members
      ofValues (← member? "tick_interval_us" members) (← member? "on_step_error" members)
  | .array [] => some {}
  | .array [tick] => ofValues (some tick) none
  | .array [tick, policy] => ofValues (some tick) (some policy)
  | _ => none

def parse? (text : List Char) : Option Config := (Json.parse? text).bind ofJson

end LittleComputer.Config
