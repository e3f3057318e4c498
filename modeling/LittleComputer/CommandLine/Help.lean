import LittleComputer.CommandLine

set_option autoImplicit false

namespace LittleComputer

namespace Help

structure Entry where
  lead : String := "    "
  form : String
  about : String
  detail : String := about
  values : List (String × String) := []

def image : Entry where
  lead := ""
  form := "<IMAGE>"
  about := "Program image to run"

def options : List Entry := [
  { form := "--tick-us <N>"
    about := "Granularity of cancellable waits, in microseconds" },
  { form := "--on-error <POLICY>"
    about := "Reaction to an unimplemented opcode or trap"
    values := [
      ("halt", "Stop the run and exit with status 2"),
      ("continue", "Log and skip the offending word")] },
  { form := "--config <FILE>"
    about := "JSON machine configuration; flags given on the command line win" },
  { lead := "-v, "
    form := "--verbose..."
    about := "Raise log verbosity (-v info, -vv debug, -vvv trace)" },
  { lead := "-h, "
    form := "--help"
    about := "Print help (see more with '--help')"
    detail := "Print help (see a summary with '-h')" },
  { lead := "-V, "
    form := "--version"
    about := "Print version" }]

def summary : String := "Run an LC-3 program image in the terminal\n"

def description : String :=
  "Loads a big-endian LC-3 image (first word = origin), sets PC to 0x3000 and runs it.\n\n" ++
  "Keyboard input feeds GETC and the KBSR/KBDR registers; OUT and PUTS print to stdout. " ++
  "Ctrl-C stops the machine.\n\n" ++
  "Examples:\n" ++
  "  lc3 2048.obj\n" ++
  "  lc3 rogue.obj --on-error continue -vv\n"

def usage : String := "Usage: lc3 [OPTIONS] <IMAGE>\n"

def pad (width : Nat) (text : String) : String :=
  text ++ String.ofList (List.replicate (width - text.length) ' ')

def width (texts : List String) : Nat := (texts.map String.length).foldl max 0

def Entry.line (width : Nat) (entry : Entry) : String :=
  let choices :=
    if entry.values.isEmpty then ""
    else " [possible values: " ++ ", ".intercalate (entry.values.map Prod.fst) ++ "]"
  "  " ++ entry.lead ++ pad width entry.form ++ "  " ++ entry.about ++ choices ++ "\n"

def Entry.choices (entry : Entry) : String :=
  let column := width (entry.values.map Prod.fst) + 2
  let choices := entry.values.map fun (name, about) =>
    "          - " ++ pad column (name ++ ":") ++ about ++ "\n"
  if choices.isEmpty then "" else "\n          Possible values:\n" ++ String.join choices

def Entry.paragraph (entry : Entry) : String :=
  "  " ++ entry.lead ++ entry.form ++ "\n          " ++ entry.detail ++ "\n" ++ entry.choices

def lines (entries : List Entry) : String :=
  String.join (entries.map (Entry.line (width (entries.map Entry.form))))

def paragraphs (entries : List Entry) : String :=
  "\n".intercalate (entries.map Entry.paragraph)

def short : String :=
  summary ++ "\n" ++ usage ++ "\nArguments:\n" ++ lines [image] ++ "\nOptions:\n" ++ lines options

def full : String :=
  description ++ "\n" ++ usage ++ "\nArguments:\n" ++ paragraphs [image] ++
    "\nOptions:\n" ++ paragraphs options

def version : String := "lc3 0.1.0\n"

end Help

namespace UsageError

def answer? : UsageError → Option String
  | .help true => some Help.full
  | .help false => some Help.short
  | .version => some Help.version
  | _ => none

def complaint : UsageError → String
  | .unknown => "unexpected argument"
  | .badValue => "invalid value for an argument"
  | .badNumber => "a value is not a number in its range"
  | .repeated => "an argument cannot be used multiple times"
  | .flagValue => "unexpected value for a flag"
  | .noImage => "the image is missing"
  | .help _ | .version => ""

end UsageError

end LittleComputer
