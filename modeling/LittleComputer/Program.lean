import LittleComputer.CommandLine.Help
import LittleComputer.Config.Reader
import LittleComputer.Image
import LittleComputer.Machine.Run
import LittleComputer.Terminal.Input

set_option autoImplicit false

namespace LittleComputer

inductive LoadError where
  | configUnreadable (path reason : String)
  | configInvalid (path reason : String)
  | image (error : Image.Error)
deriving DecidableEq, Repr

def LoadError.message : LoadError → String
  | .configUnreadable path reason => "failed to read config " ++ path ++ ": " ++ reason
  | .configInvalid path reason => "invalid config " ++ path ++ ": " ++ reason
  | .image error => error.message

namespace Program

def loadConfig (explain : List Char → String) (options : Options) (file : Stream) : Except LoadError Config :=
  match options.config with
  | none => .ok (options.override {})
  | some path =>
      match file.contents with
      | .error reason => .error (.configUnreadable path reason)
      | .ok bytes =>
          match Utf8.decode? bytes with
          | none => .error (.configUnreadable path "stream did not contain valid UTF-8")
          | some text =>
              match Config.parse? text with
              | none => .error (.configInvalid path (explain text))
              | some config => .ok (options.override config)

def load (explain : List Char → String) (options : Options) (configFile imageFile : Stream) :
    Except LoadError Machine :=
  match loadConfig explain options configFile with
  | .error error => .error error
  | .ok config =>
      match Image.load imageFile with
      | .error error => .error (.image error)
      | .ok memory => .ok (({ config } : Machine).loadMemory memory).reset

structure Exit where
  status : Nat
  output : Array UInt8 := #[]
  message : String := ""
deriving DecidableEq, Repr

def failure (error : LoadError) : Exit := ⟨1, #[], "lc3: " ++ error.message ++ "\n"⟩

def usage (error : UsageError) : Exit :=
  match error.answer? with
  | some text => ⟨0, (Utf8.encode text.toList).toArray, ""⟩
  | none => ⟨2, #[], "error: " ++ error.complaint ++ "\n"⟩

def exitOf (ending : Ending) (output : Array UInt8) : Exit :=
  match ending with
  | .faulted fault => ⟨2, output, "lc3: " ++ fault.message ++ "\n"⟩
  | _ => ⟨0, output, ""⟩

structure Session where
  machine : Machine
  call : RunCall
  unsent : List Char
  printed : Array UInt8 := #[]

namespace Session

def start (machine : Machine) (input : List Char) : Session :=
  let machine := (machine.setSource { capacity := 0 }).setSink { capacity := 0 }
  match machine.issue with
  | (token, machine) =>
      match RunCall.claim token machine with
      | (machine, call) => { machine, call, unsent := input }

def send (session : Session) : Session :=
  match session.machine.panel.source, session.unsent with
  | some line, char :: rest =>
      if line.senderFree then
        { session with machine := session.machine.replug (line.put char), unsent := rest }
      else session
  | _, [] => { session with machine := session.machine.closeSender }
  | none, _ => session

def print (session : Session) : Session :=
  match session.machine.drainOutput with
  | (text, machine) =>
      { session with machine := machine.awaitOutput, printed := session.printed ++ Utf8.encode text.toList }

def run (session : Session) : Session :=
  match session.call.turnOnDemand session.machine with
  | (machine, some call) => { session with machine, call }
  | (machine, none) => { session with machine }

def round (session : Session) : Session := session.send.run.print

def exit? (session : Session) : Option Exit :=
  match session.call with
  | .returned report => some (exitOf report.ending session.printed)
  | _ => none

def isOver (session : Session) : Bool :=
  match session.call with
  | .returned _ => true
  | _ => false

def proceed : Nat → Session → Session
  | 0, session => session
  | rounds + 1, session => if session.isOver then session else proceed rounds session.round

end Session

-- The whole program for given files and input. There is no answer if it runs longer than `rounds` rounds.
def run (rounds : Nat) (explain : List Char → String) (options : Options) (configFile imageFile : Stream)
    (input : List UInt8) : Option Exit :=
  match load explain options configFile imageFile with
  | .error error => some (failure error)
  | .ok machine =>
      ((Session.start machine (PipedInput.chars input)).proceed rounds).exit?

end Program

end LittleComputer
