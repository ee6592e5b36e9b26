/-
RangedIR.Pass — the passes of the optimizer and what they need.
-/

namespace RangedIR

/-- A pass over all functions of a module. -/
inductive Pass where
  | ranges
  | controlFlow
  | constants
  | alignment
  deriving DecidableEq, Repr, Inhabited

/-- What a pass leaves for others and for the report. -/
inductive Artifact where
  | bounds
  | foldedBranches
  | literals
  | alignments
  deriving DecidableEq, Repr

def Artifact.name : Artifact → String
  | bounds => "Bounds"
  | foldedBranches => "FoldedBranches"
  | literals => "Literals"
  | alignments => "Alignments"

namespace Pass

/-- All passes in the order in which they run. -/
def all : List Pass := [ranges, controlFlow, constants, alignment]

/-- The name by which a pass is chosen. -/
def name : Pass → String
  | ranges => "range"
  | controlFlow => "cfg"
  | constants => "const"
  | alignment => "align"

/-- The passes whose results a pass uses. -/
def inputs : Pass → List Pass
  | ranges => []
  | controlFlow | constants | alignment => [ranges]

def outputs : Pass → List Artifact
  | ranges => [.bounds]
  | controlFlow => [.foldedBranches]
  | constants => [.literals]
  | alignment => [.alignments]

/-- What holds behind a pass. -/
def invariants : Pass → String
  | ranges => "every recorded interval contains all runtime values"
  | controlFlow => "decided compares folded, unreachable blocks removed"
  | constants => "no live arithmetic producer has a singleton bound"
  | alignment => "stores, bounded debug loads and struct allocas use ABI alignment"

/-- The pass with a given name. -/
def ofName? (name : String) : Option Pass := all.find? (·.name == name)

/-- The chosen passes and those they need, each once, in the order in which they
run. What a pass needs needs nothing itself. -/
def required (selection : List Pass) : List Pass :=
  all.filter fun p => selection.any fun q => q = p || q.inputs.contains p

end Pass

end RangedIR
