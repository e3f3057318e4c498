import LittleComputer.Config
import LittleComputer.Text.Decimal

set_option autoImplicit false

namespace LittleComputer

structure Options where
  image : String
  tickMicros : Option UInt64 := none
  policy : Option Policy := none
  config : Option String := none
  verbosity : Nat := 0
deriving DecidableEq, Repr

inductive UsageError where
  | help (full : Bool)
  | version
  | unknown
  | badValue
  | badNumber
  | repeated
  | flagValue
  | noImage
deriving DecidableEq, Repr

namespace CommandLine

inductive Setting where
  | tickMicros
  | policy
  | config
deriving DecidableEq, Repr

inductive Flag where
  | verbose
  | help (full : Bool)
  | version
deriving DecidableEq, Repr

inductive Pending where
  | setting (setting : Setting) (value : Option String)
  | image (path : String)
deriving DecidableEq, Repr

structure Reading where
  image : Option String := none
  tickMicros : Option UInt64 := none
  policy : Option Policy := none
  config : Option String := none
  verbosity : Nat := 0
  pending : Option Pending := none
  imageGiven : Bool := false
  trailing : Bool := false
deriving DecidableEq, Repr

def maxVerbosity : Nat := 255

def number? (text : String) : Option UInt64 :=
  let digits := match text.toList with
    | '+' :: rest => rest
    | chars => chars
  if digits.isEmpty || !digits.all Char.isDigit then none
  else (Decimal.below? UInt64.size digits).map UInt64.ofNat

def policy? (text : String) : Option Policy :=
  if text = "halt" then some .halt else if text = "continue" then some .continue else none

def path? (text : String) : Option String := if text.isEmpty then none else some text

def set (reading : Reading) (setting : Setting) (value : String) : Except UsageError Reading :=
  match setting with
  | .tickMicros =>
      if reading.tickMicros.isSome then .error .repeated
      else match number? value with
        | some micros => .ok { reading with tickMicros := some micros }
        | none => .error .badNumber
  | .policy =>
      if reading.policy.isSome then .error .repeated
      else match policy? value with
        | some policy => .ok { reading with policy := some policy }
        | none => .error .badValue
  | .config =>
      if reading.config.isSome then .error .repeated
      else match path? value with
        | some path => .ok { reading with config := some path }
        | none => .error .badValue

-- A value is judged only when the next argument that is known settles what came before it, so of two mistakes the later
-- one can be reported.
def settle (reading : Reading) : Except UsageError Reading :=
  match reading.pending with
  | none => .ok reading
  | some (.image path) =>
      match path? path with
      | some path => .ok { reading with image := some path, pending := none }
      | none => .error .badValue
  | some (.setting _ none) => .error .badValue
  | some (.setting setting (some value)) => set { reading with pending := none } setting value

def raise (reading : Reading) (flag : Flag) : Except UsageError Reading := do
  let reading ← settle reading
  match flag with
  | .verbose => .ok { reading with verbosity := min (reading.verbosity + 1) maxVerbosity }
  | .help full => .error (.help full)
  | .version => .error .version

def setting? (name : List Char) : Option Setting :=
  if name = "tick-us".toList then some .tickMicros
  else if name = "on-error".toList then some .policy
  else if name = "config".toList then some .config
  else none

def flag? (name : List Char) : Option Flag :=
  if name = "verbose".toList then some .verbose
  else if name = "help".toList then some (.help true)
  else if name = "version".toList then some .version
  else none

def shortFlag? : Char → Option Flag
  | 'v' => some .verbose
  | 'h' => some (.help false)
  | 'V' => some .version
  | _ => none

def readLong (reading : Reading) (text : List Char) : Except UsageError Reading :=
  let name := text.takeWhile (· ≠ '=')
  let attached := match text.dropWhile (· ≠ '=') with
    | [] => none
    | _ :: value => some (String.ofList value)
  match setting? name, flag? name, attached with
  | some setting, _, some value => (settle reading).bind fun reading => set reading setting value
  | some setting, _, none =>
      (settle reading).map fun reading => { reading with pending := some (.setting setting none) }
  | none, some _, some _ => .error .flagValue
  | none, some flag, none => raise reading flag
  | none, none, _ => .error .unknown

def readShort (reading : Reading) : List Char → Except UsageError Reading
  | [] => .ok reading
  | letter :: rest =>
      match shortFlag? letter with
      | some flag => (raise reading flag).bind fun reading => readShort reading rest
      | none => .error .unknown

def readValue (reading : Reading) (text : String) : Except UsageError Reading :=
  match reading.pending, reading.trailing with
  | some (.setting setting none), false =>
      .ok { reading with pending := some (.setting setting (some text)) }
  | _, _ =>
      if reading.imageGiven then .error .unknown
      else (settle reading).map fun reading =>
        { reading with pending := some (.image text), imageGiven := true }

def readArgument (reading : Reading) (argument : String) : Except UsageError Reading :=
  if reading.trailing then readValue reading argument
  else match argument.toList with
    | ['-', '-'] => .ok { reading with trailing := true }
    | '-' :: '-' :: name => readLong reading name
    | '-' :: letter :: rest => readShort reading (letter :: rest)
    | _ => readValue reading argument

def finish (reading : Reading) : Except UsageError Options := do
  let reading ← settle reading
  match reading.image with
  | some image => .ok {
      image
      tickMicros := reading.tickMicros
      policy := reading.policy
      config := reading.config
      verbosity := reading.verbosity }
  | none => .error .noImage

end CommandLine

namespace Options

open CommandLine in
def parse (arguments : List String) : Except UsageError Options :=
  (arguments.foldlM readArgument {}).bind finish

def logLevel (options : Options) : String :=
  match options.verbosity with
  | 0 => "warn"
  | 1 => "info"
  | 2 => "debug"
  | _ => "trace"

def override (options : Options) (config : Config) : Config where
  tickMicros := options.tickMicros.getD config.tickMicros
  policy := options.policy.getD config.policy

end Options

end LittleComputer
