/-
RangedIR.Main — the command line.
-/
import RangedIR.Command.Execution

namespace RangedIR.CommandLine

/-- What is printed on request. -/
def usageText : String :=
  "Usage: rangeopt [OPTIONS] <INPUT>\n\n" ++
  "  -s, --sensors <FILE>       declared ranges of physical quantities\n" ++
  "  -o, --output <FILE>        file to write\n" ++
  "      --suffix <TEXT>        suffix of the default output name [opt]\n" ++
  "      --pass <NAME>          range, cfg, const or align; may be repeated\n" ++
  "      --emit <KIND>          ir or bounds [ir]\n" ++
  "      --max-call-depth <N>   greatest nesting of calls\n" ++
  "      --max-visits <N>       greatest number of instructions for a function\n" ++
  "      --verbose              print notes and counts"

/-- The reason for a failed operation. -/
def fileError (e : IO.Error) : FileError :=
  match e with
  | .noFileOrDirectory .. => .notFound
  | e => .other (toString e)

/-- Read a file, or say why not. -/
def readText (path : String) : IO (Except FileError String) := do
  match ← (IO.FS.readFile path).toBaseIO with
  | .ok text => pure (.ok text)
  | .error e => pure (.error (fileError e))

/-- Write the file of an outcome, and say so if that fails. -/
def writeText (o : Command.Outcome) : IO Command.Outcome := do
  match o.write with
  | none => pure o
  | some (path, text) =>
    match ← (IO.FS.writeFile path text).toBaseIO with
    | .ok () => pure o
    | .error e => pure (o.writeFailed path (fileError e))

/-- Carry out the command of the given words and answer its exit status. -/
def runWords (args : List String) : IO UInt32 := do
  match Command.ofWords args with
  | .error .help =>
    IO.println usageText
    return 0
  | .error .version =>
    IO.println ("rangeopt " ++ Output.version)
    return 0
  | .error .usage =>
    IO.eprintln ("error: the words make no command\n\n" ++ usageText)
    return 2
  | .ok c =>
    let sensors ← match c.sensors with
      | some path => do pure (some (← readText path))
      | none => pure none
    let source ← readText c.input
    let o ← writeText (c.execute sensors source)
    for m in o.messages do
      IO.eprintln m
    return o.status.toUInt32

end RangedIR.CommandLine

def main (args : List String) : IO UInt32 := RangedIR.CommandLine.runWords args
