import MarkovCheck.CommandLine.Run

/-!
# MarkovCheck.Main

The command line program: reads the files of a request, and prints and writes what its report says.
-/

namespace MarkovCheck
namespace CommandLine

def version : String := "0.1.0"

/-- A short account of the commands. -/
def usage : String :=
  "\n".intercalate [
    "Usage: markovcheck [OPTIONS] <COMMAND>",
    "",
    "Commands:",
    "  info <TRANSITIONS> <LABELS>",
    "  reduce <TRANSITIONS> <LABELS> [-p LABELS] [--algorithm sigref|sigref-naive] [-o OUTPUT]",
    "  compare <TRANSITIONS> <LABELS> <TRANSITIONS> <LABELS> [-p LABELS]",
    "  check <TRANSITIONS> <LABELS> [QUERY]",
    "  build crowds|die [--parametric] [--runs N] [--crowd-size N] [-c NAME=VALUE] [QUERY] [-o OUTPUT]",
    "",
    "Query:",
    "  --target LABEL [--until LABEL] [--bound N] [--reward NAME] [--minimise]",
    "",
    "Options:",
    "  -q, --quiet  -v, --verbose  -d, --debug  --trace  --timings  --version  -h, --help"]

/-- The content of a file, if it can be opened. Nothing is read from a directory. -/
def readFile? (path : String) : IO (Option (String × ByteArray)) := do
  try
    let file ← IO.FS.Handle.mk path .read
    let content ← try file.readBinToEnd catch _ => pure .empty
    return some (path, content)
  catch _ => return none

def act : Action → IO Unit
  | .print line => IO.println line
  | .create path => IO.FS.writeFile path ""
  | .write path text => IO.FS.writeFile path text

def execute (i : Invocation) : IO UInt32 := do
  let start ← IO.monoMsNow
  let files ← ((i.request.map Request.inputs).getD []).filterMapM readFile?
  let report := i.run fun path => files.lookup path
  try
    report.actions.forM act
    if i.version then IO.eprintln version
    if i.timings then IO.eprintln ("Time: " ++ toString ((← IO.monoMsNow) - start) ++ "ms")
    match report.failure with
    | none => return 0
    | some message =>
      IO.eprintln ("Error: " ++ message)
      return 1
  catch e =>
    IO.eprintln ("Error: " ++ toString e)
    return 1

end CommandLine
end MarkovCheck

open MarkovCheck.CommandLine in
def main (arguments : List String) : IO UInt32 := do
  match Invocation.read arguments with
  | .ok i => execute i
  | .error reason =>
    match reason with
    | .help => IO.println usage
    | .usage => IO.eprintln usage
    return reason.code.toUInt32
