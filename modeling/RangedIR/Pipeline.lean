/-
RangedIR.Pipeline — from a source text to an optimized module.

All functions are analysed before any of them is changed.
-/
import RangedIR.Analysis.Engine
import RangedIR.Code.Printer
import RangedIR.Digest
import RangedIR.Optimize.Alignment
import RangedIR.Optimize.Constants
import RangedIR.Pass
import RangedIR.Scope.Module
import RangedIR.Sensor

namespace RangedIR

open Text

-- sums start from the zero of the core library
attribute [local instance (high)] Zero.ofOfNat0

/-! ## 1. Requests and results -/

/-- What to do. -/
structure Options where
  passes : List Pass
  limits : Limits
  deriving Repr

instance : Inhabited Options := ⟨Pass.all, .default⟩

/-- Why nothing was done. -/
inductive Failure where
  | sensors (identifier : String) (fault : SensorFault)
  | source (e : Scope.LoadError)
  deriving Repr

/-- Counts of what was done. -/
structure Stats where
  analyzedFunctions : Nat
  boundedValues : Nat
  controlFlow : ControlFlowStats
  substituted : Nat
  alignment : AlignmentStats
  deriving DecidableEq, Repr, Inhabited

def Stats.zero : Stats := ⟨0, 0, .zero, 0, .zero⟩

/-- An optimized module. -/
structure Output where
  module : Module
  /-- What is known in each function. -/
  bounds : List Bounds
  /-- What is known about the result of each function. -/
  results : List (Option Bound)
  diagnostics : List Diagnostic
  stats : Stats
  passes : List Pass
  /-- Fingerprints of the source and of the sensors. -/
  sourceDigest : String
  sensorDigest : String
  deriving Inhabited

/-! ## 2. Passes -/

/-- The state between passes. -/
structure Progress where
  module : Module
  layout : DataLayout
  limits : Limits
  bounds : List Bounds
  results : List (Option Bound)
  diagnostics : List Diagnostic
  stats : Stats
  deriving Inhabited

namespace Progress

/-- Analyse functions in order. -/
def analyze (ctx : Context) : FuncId → List Bounds → Run → Run × List (Bounds × Option Bound)
  | _, [], run => (run, [])
  | id, b :: rest, run =>
    let (run, b, result) := analyzeFunction ctx run id b
    let (run, later) := analyze ctx (id + 1) rest run
    (run, (b, result.map Prod.snd) :: later)

/-- Find the intervals of all functions. -/
def runRanges (p : Progress) : Progress :=
  let (run, found) := analyze ⟨p.module, p.layout, p.limits, true⟩ 0 p.bounds .initial
  { p with
    bounds := found.map Prod.fst
    results := found.map Prod.snd
    diagnostics := p.diagnostics ++ run.diagnostics
    stats := { p.stats with
      analyzedFunctions := p.stats.analyzedFunctions + found.length
      boundedValues := p.stats.boundedValues + (found.map fun (b, _) => b.size).sum } }

/-- Change every function by what is known about it, and collect what is counted. -/
def mapFunctions {σ : Type} (p : Progress) (f : FuncId → Function → Bounds → Function × σ) :
    Progress × List σ :=
  let changed := (p.module.functions.zip p.bounds).mapIdx fun id (g, b) => f id g b
  ({ p with module := { p.module with functions := changed.map Prod.fst } }, changed.map Prod.snd)

def runControlFlow (p : Progress) : Progress :=
  let (p, counts) := p.mapFunctions fun id f b => f.simplifyControlFlow id b
  { p with stats := { p.stats with controlFlow := counts.foldl (·.add ·) p.stats.controlFlow } }

def runConstants (p : Progress) : Progress :=
  let (p, counts) := p.mapFunctions fun id f b => f.substituteConstants id b
  { p with stats := { p.stats with substituted := p.stats.substituted + counts.sum } }

def runAlignment (p : Progress) : Progress :=
  let (p, counts) := p.mapFunctions fun id f b => f.correctAlignment id b p.layout
  { p with stats := { p.stats with alignment := counts.foldl (·.add ·) p.stats.alignment } }

/-- Run a pass. -/
def run (p : Progress) : Pass → Progress
  | .ranges => p.runRanges
  | .controlFlow => p.runControlFlow
  | .constants => p.runConstants
  | .alignment => p.runAlignment

end Progress

/-! ## 3. The pipeline -/

/-- The layout of a module and what is told about its text. -/
def Module.layout (m : Module) : DataLayout × List Diagnostic :=
  match m.dataLayout with
  | none => (.default, [])
  | some spec =>
    let (layout, problems) := DataLayout.ofText spec
    (layout, problems.map fun p =>
      .simple .warning .layoutEntryIgnored none ("target datalayout entry ignored: " ++ p.message))

/-- The state before the first pass: sensors and constant globals are known. -/
def Progress.start (m : Module) (sensors : List Sensor) (limits : Limits) : Progress :=
  let (layout, told) := m.layout
  let known := (Bounds.ofSeeds (Sensor.seeds sensors)).seedGlobals m
  { module := m
    layout := layout
    limits := limits
    bounds := m.functions.map fun _ => known
    results := m.functions.map fun _ => none
    diagnostics := told
    stats := .zero }

/-- Optimize a source text. -/
def optimize (source : String) (sensors : List Sensor) (options : Options) : Except Failure Output :=
  match Sensor.check sensors with
  | .error (identifier, fault) => .error (.sensors identifier fault)
  | .ok () =>
    match Scope.load source with
    | .error e => .error (.source e)
    | .ok m =>
      let passes := Pass.required options.passes
      let p := passes.foldl Progress.run (.start m sensors options.limits)
      .ok {
        module := p.module
        bounds := p.bounds
        results := p.results
        diagnostics := p.diagnostics
        stats := p.stats
        passes := passes
        sourceDigest := Digest.fingerprint source
        sensorDigest := Digest.fingerprint (Sensor.canonicalText sensors) }

/-! ## 4. Reports -/

namespace Output

/-- What is known about a named value in the analysis of a function. -/
def bound? (o : Output) (function value : String) : Option Bound := do
  let id ← o.module.functionNamed? function
  let f ← o.module.functions[id]?
  let i ← f.insts.findIdx? (·.name == some value)
  (← o.bounds[id]?).get? (.inst id i)

/-- What is known about the result of a function. -/
def result? (o : Output) (function : String) : Option Bound := do
  let id ← o.module.functionNamed? function
  (← o.results[id]?)

/-- The version that is written into the text. -/
def version : String := "0.3.0"

/-- The comment in front of the text: where it comes from and what was done. -/
def header (o : Output) : String :=
  "; rangeopt " ++ version ++ "\n; source-sha256: " ++ o.sourceDigest ++ "\n; sensors-sha256: " ++
    o.sensorDigest ++ "\n; passes: " ++ String.intercalate "," (o.passes.map (·.name)) ++ "\n"

/-- The text of the optimized module with its comment. -/
def text? (o : Output) : Option String := o.module.text?.map fun t => o.header ++ "\n" ++ t

end Output

/-- Entries in the order of their names. -/
def sortedByName {ν : Type} (entries : List (String × ν)) : List (String × ν) :=
  entries.mergeSort fun a b => !(b.1 < a.1)

/-- What is known in a scope, by the names of the values, in their order. -/
def Bounds.report (b : Bounds) (m : Module) : List (String × Bound) :=
  sortedByName (b.ranges.entries.filterMap fun (k, i) => (k.name? m).map fun n => (n, i))

def boundJson (i : Bound) : JsonValue := .object [("lo", .number i.lo), ("hi", .number i.hi)]

/-- What is known about each function, in the order of their names. -/
def Output.boundsText (o : Output) : String :=
  let functions := o.module.functions.zipIdx.map fun (f, id) =>
    let result := match (o.results[id]?).join with
      | some r => boundJson r
      | none => .null
    let values := ((o.bounds[id]?.map fun b => b.report o.module).getD []).map fun (n, i) =>
      (n, boundJson i)
    (f.name, JsonValue.object [("result", result), ("values", .object values)])
  (JsonValue.object (sortedByName functions)).indented 0

end RangedIR
