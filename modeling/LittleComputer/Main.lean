import LittleComputer.Program

set_option autoImplicit false

namespace LittleComputer.Main

def leave (exit : Program.Exit) : IO UInt32 := do
  (← IO.getStdout).write ⟨exit.output⟩
  (← IO.getStderr).putStr exit.message
  return .ofNat exit.status

def readFile (path : String) : IO Stream := do
  try
    let bytes ← IO.FS.readBinFile path
    return ⟨bytes.toList, none⟩
  catch
    | .noFileOrDirectory .. => return .absent
    | error => return ⟨[], some (toString error)⟩

partial def readAll (input : IO.FS.Stream) (bytes : ByteArray) : IO ByteArray := do
  let chunk ← input.read 65536
  if chunk.isEmpty then return bytes else readAll input (bytes ++ chunk)

partial def play (session : Program.Session) (shown : Nat) : IO UInt32 := do
  let session := session.proceed 4096
  let output ← IO.getStdout
  output.write ⟨session.printed.extract shown⟩
  output.flush
  match session.exit? with
  | some exit =>
      (← IO.getStderr).putStr exit.message
      return .ofNat exit.status
  | none => play session session.printed.size

def run (options : Options) : IO UInt32 := do
  let configFile ← match options.config with
    | some path => readFile path
    | none => pure .absent
  let imageFile ← readFile options.image
  match Program.load (fun _ => "not a machine configuration") options configFile imageFile with
  | .error error => leave (Program.failure error)
  | .ok machine =>
      let input ← readAll (← IO.getStdin) .empty
      play (.start machine (PipedInput.chars input.toList)) 0

end LittleComputer.Main

open LittleComputer in
def main (arguments : List String) : IO UInt32 := do
  match Options.parse arguments with
  | .ok options => Main.run options
  | .error error => Main.leave (Program.usage error)
