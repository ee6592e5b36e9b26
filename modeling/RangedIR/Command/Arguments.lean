/-
RangedIR.Command.Arguments — the words of a command.

Options may stand before and behind the input. A value stands in the next word,
or behind an equals sign in the same word, or right behind a one-letter option.
-/
import RangedIR.Analysis.Limits
import RangedIR.Pass
import RangedIR.Text.Digits

namespace RangedIR

-- powers of the core library
attribute [local instance (high)] instPowNat

/-- What is written. -/
inductive Emit where
  | code
  | bounds
  deriving DecidableEq, Repr, Inhabited

/-- The word that chooses an output. -/
def Emit.word : Emit → String
  | code => "ir"
  | bounds => "bounds"

def Emit.ofWord? (w : String) : Option Emit := [code, bounds].find? (·.word == w)

/-- A command. -/
structure Command where
  input : String
  sensors : Option String
  output : Option String
  suffix : String
  passes : List Pass
  emit : Emit
  limits : Limits
  verbose : Bool
  deriving Repr

namespace Command

/-- What is answered when a command is not carried out. -/
inductive Reply where
  | help
  | version
  /-- The words make no command. -/
  | usage
  deriving DecidableEq, Repr

/-! ## 1. Options -/

/-- Options with a value. -/
inductive Key where
  | sensors | output | suffix | pass | emit | maxCallDepth | maxVisits
  deriving DecidableEq, Repr

def Key.word : Key → String
  | sensors => "sensors"
  | output => "output"
  | suffix => "suffix"
  | pass => "pass"
  | emit => "emit"
  | maxCallDepth => "max-call-depth"
  | maxVisits => "max-visits"

def Key.all : List Key := [sensors, output, suffix, pass, emit, maxCallDepth, maxVisits]

def Key.ofWord? (w : List Char) : Option Key := all.find? (·.word.toList == w)

/-- The options that have a letter. -/
def Key.ofLetter? : Char → Option Key
  | 's' => some sensors
  | 'o' => some output
  | _ => none

/-- What the words read so far say. -/
structure Draft where
  input : Option String
  sensors : Option String
  output : Option String
  suffix : Option String
  passes : List Pass
  emit : Option Emit
  maxCallDepth : Option Nat
  maxVisits : Option Nat
  verbose : Bool

def Draft.empty : Draft := ⟨none, none, none, none, [], none, none, none, false⟩

/-- A value that may be given once. -/
def once {α : Type} (known value : Option α) : Except Reply (Option α) :=
  match known, value with
  | none, some v => .ok (some v)
  | _, _ => .error .usage

/-- A path; it must not be empty. -/
def pathValue? (v : String) : Option String := if v.isEmpty then none else some v

/-- A number of at most 64 bits. -/
def countValue? (v : String) : Option Nat := Text.unsigned? (2 ^ (64 : Nat)) v.toList

/-- Take the value of an option. -/
def Draft.set (d : Draft) (k : Key) (v : String) : Except Reply Draft :=
  match k with
  | .sensors => do pure { d with sensors := ← once d.sensors (pathValue? v) }
  | .output => do pure { d with output := ← once d.output (pathValue? v) }
  | .suffix => do pure { d with suffix := ← once d.suffix (some v) }
  | .pass =>
    match Pass.ofName? v with
    | some p => .ok { d with passes := d.passes ++ [p] }
    | none => .error .usage
  | .emit => do pure { d with emit := ← once d.emit (Emit.ofWord? v) }
  | .maxCallDepth => do pure { d with maxCallDepth := ← once d.maxCallDepth (countValue? v) }
  | .maxVisits => do pure { d with maxVisits := ← once d.maxVisits (countValue? v) }

/-- Take the input. -/
def Draft.setInput (d : Draft) (v : String) : Except Reply Draft := do
  pure { d with input := ← once d.input (pathValue? v) }

/-! ## 2. Words -/

/-- Whether a word is an option and so cannot be a value. -/
def isOption (w : String) : Bool :=
  match w.toList with
  | '-' :: _ :: _ => true
  | _ => false

/-- What a word asks for. -/
inductive Word where
  | input
  /-- All words behind it are inputs. -/
  | separator
  | verbose
  | reply (r : Reply)
  /-- An option with its value, if that stands in the same word. -/
  | option (k : Key) (value : Option String)

/-- A word behind two dashes, without its value. -/
def longWord (name : List Char) (value : Option String) : Word :=
  match Key.ofWord? name with
  | some k => .option k value
  | none =>
    match String.ofList name, value with
    | "verbose", none => .verbose
    | "help", none => .reply .help
    | "version", none => .reply .version
    | _, _ => .reply .usage

/-- A letter behind a dash, with what stands behind it. -/
def shortWord (letter : Char) (rest : List Char) : Word :=
  match Key.ofLetter? letter with
  | some k =>
    match rest with
    | [] => .option k none
    | '=' :: v => .option k (some (String.ofList v))
    | v => .option k (some (String.ofList v))
  | none =>
    match letter with
    | 'h' => .reply .help
    | 'V' => .reply .version
    | _ => .reply .usage

/-- What a word asks for. -/
def classify (w : String) : Word :=
  match w.toList with
  | ['-', '-'] => .separator
  | '-' :: '-' :: rest =>
    let name := rest.takeWhile (· != '=')
    let value := match rest.drop name.length with
      | _ :: v => some (String.ofList v)
      | [] => none
    longWord name value
  | '-' :: letter :: rest => shortWord letter rest
  | _ => .input

/-- Take words in order. The first that makes no sense ends the reading. -/
def readWords : List String → Draft → Except Reply Draft
  | [], d => .ok d
  | w :: rest, d =>
    match classify w with
    | .input => do readWords rest (← d.setInput w)
    | .separator => rest.foldlM (fun d w => d.setInput w) d
    | .verbose => if d.verbose then .error .usage else readWords rest { d with verbose := true }
    | .reply r => .error r
    | .option k (some v) => do readWords rest (← d.set k v)
    | .option k none =>
      match rest with
      | [] => .error .usage
      | v :: rest' => if isOption v then .error .usage else do readWords rest' (← d.set k v)

/-- The command of a list of words. -/
def ofWords (words : List String) : Except Reply Command :=
  match readWords words .empty with
  | .error r => .error r
  | .ok d =>
    match d.input with
    | none => .error .usage
    | some input =>
      .ok {
        input := input
        sensors := d.sensors
        output := d.output
        suffix := d.suffix.getD "opt"
        passes := if d.passes.isEmpty then Pass.all else d.passes
        emit := d.emit.getD .code
        limits := ⟨d.maxCallDepth.getD Limits.default.maxCallDepth,
          d.maxVisits.getD Limits.default.maxVisits⟩
        verbose := d.verbose }

end Command

end RangedIR
