/-
RangedIR.Command.Execution — what a command does.

A command reads its input and its sensors, tells what there is to tell, and
writes one file. The reading and writing is done elsewhere: here it is decided
what is told and what is written.
-/
import RangedIR.Command.Arguments
import RangedIR.Command.Path
import RangedIR.Pipeline

namespace RangedIR

/-- Why a file cannot be read or written. -/
inductive FileError where
  | notFound
  | notDirectory
  | isDirectory
  | other (text : String)
  deriving DecidableEq, Repr

def FileError.message : FileError → String
  | notFound => "No such file or directory (os error 2)"
  | notDirectory => "Not a directory (os error 20)"
  | isDirectory => "Is a directory (os error 21)"
  | other text => text

namespace Command

/-- What a command tells, its exit status, and the file it writes. -/
structure Outcome where
  messages : List String
  status : Nat
  /-- The path and the text of the file. -/
  write : Option (String × String)
  deriving Repr

/-- A line of the program's own. -/
def line (text : String) : String := "rangeopt: " ++ text

/-- The path of the file that is written. -/
def outputFile (c : Command) : String :=
  match c.output with
  | some path => path
  | none =>
    let path := Path.outputPath c.input c.suffix
    match c.emit with
    | .code => path
    | .bounds => String.ofList (Path.withExtension path.toList "json".toList)

/-! ## 1. Failures -/

/-- Tell diagnostics and give up. -/
def giveUp (told : List String) (ds : List Diagnostic) : Outcome :=
  ⟨told ++ ds.map fun d => line d.text, 2, none⟩

/-- The diagnostic of a file that cannot be used. -/
def fileDiagnostic (code : DiagCode) (path : String) (e : FileError) : Diagnostic :=
  .error code (path ++ ": " ++ e.message)

/-- A diagnostic with the place in the source. -/
def atOffset (message : String) (offset : Nat) : Diagnostic :=
  { Diagnostic.error .malformedSource message with
    hint := some ("at byte offset " ++ Nat.repr offset) }

/-- The diagnostics of a source that cannot be loaded. -/
def loadDiagnostics : Scope.LoadError → List Diagnostic
  | .malformed e =>
    e.strays.map (fun s => atOffset s.message s.span.start) ++
      e.failure.toList.map (atOffset "unexpected token")
  | .unresolved issues => issues.map (·.diagnostic)

/-- The diagnostics of a failure. -/
def failureDiagnostics : Failure → List Diagnostic
  | .sensors identifier fault => [.error .invalidSensors (fault.text identifier)]
  | .source e => loadDiagnostics e

/-! ## 2. Sensors -/

/-- The sensors of a command, from what was read. -/
def readSensors (c : Command) (text : Option (Except FileError String)) :
    Except Diagnostic (List Sensor) :=
  match c.sensors, text with
  | some path, some (.error e) => .error (fileDiagnostic .invalidSensors path e)
  | some path, some (.ok text) =>
    match Sensor.ofText text with
    | .ok sensors => .ok sensors
    | .error .malformed => .error (.error .invalidSensors (path ++ ": malformed configuration"))
    | .error (.invalid identifier fault) => .error (.error .invalidSensors (fault.text identifier))
  | _, _ => .ok []

/-! ## 3. Messages -/

/-- What is told at the start. -/
def opening (c : Command) : List String :=
  if c.verbose then
    let emit := match c.emit with
      | .code => "Ir"
      | .bounds => "Bounds"
    [line ("input  = " ++ c.input), line ("output = " ++ c.outputFile), line ("emit   = " ++ emit)]
  else []

/-- What is told about the sensors. -/
def sensorLine (c : Command) (sensors : List Sensor) : List String :=
  if c.verbose then [line (Nat.repr sensors.length ++ " sensor ranges")] else []

/-- What is told about the module. Notes are told only on request. -/
def diagnosticLines (c : Command) (ds : List Diagnostic) : List String :=
  (ds.filter fun d => c.verbose || d.level != .note).map fun d => line d.text

/-- What is told at the end. -/
def closing (c : Command) (s : Stats) : List String :=
  if c.verbose then
    [line (Nat.repr s.analyzedFunctions ++ " functions, " ++ Nat.repr s.boundedValues ++
      " bounded values, " ++ Nat.repr s.controlFlow.foldedCompares ++ " compares folded, " ++
      Nat.repr s.controlFlow.removedBlocks ++ " blocks removed, " ++ Nat.repr s.substituted ++
      " constants, " ++ Nat.repr s.alignment.total ++ " alignments")]
  else []

/-! ## 4. Execution -/

/-- The text that is written. -/
def outputText? (c : Command) (o : Output) : Option String :=
  match c.emit with
  | .code => o.text?
  | .bounds => some o.boundsText

/-- Optimize a source. -/
def optimizeSource (c : Command) (told : List String) (sensors : List Sensor) (source : String) :
    Outcome :=
  match optimize source sensors ⟨c.passes, c.limits⟩ with
  | .error f => giveUp told (failureDiagnostics f)
  | .ok o =>
    let told := told ++ c.diagnosticLines o.diagnostics ++ c.closing o.stats
    match c.outputText? o with
    | none => ⟨told ++ [line "a branch leads to a block that was removed"], 101, none⟩
    | some text =>
      ⟨told, if Diagnostic.anyError o.diagnostics then 1 else 0, some (c.outputFile, text)⟩

/-- What a command does, given what was read. The sensors are looked at first. -/
def execute (c : Command) (sensors : Option (Except FileError String))
    (source : Except FileError String) : Outcome :=
  match c.readSensors sensors with
  | .error d => giveUp c.opening [d]
  | .ok sensors =>
    let told := c.opening ++ c.sensorLine sensors
    match source with
    | .error e => giveUp told [fileDiagnostic .unreadableFile c.input e]
    | .ok source => c.optimizeSource told sensors source

/-- What is told if the file cannot be written. -/
def Outcome.writeFailed (o : Outcome) (path : String) (e : FileError) : Outcome :=
  giveUp o.messages [fileDiagnostic .unreadableFile path e]

end Command

end RangedIR
