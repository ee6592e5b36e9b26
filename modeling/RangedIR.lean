import RangedIR.Main
import RangedIR.Proofs.Analysis.AddressChains
import RangedIR.Proofs.Analysis.Budget
import RangedIR.Proofs.Analysis.CallerValues
import RangedIR.Proofs.Analysis.Chains
import RangedIR.Proofs.Analysis.Conversions
import RangedIR.Proofs.Analysis.Declarations
import RangedIR.Proofs.Analysis.Forgetting
import RangedIR.Proofs.Analysis.Independence
import RangedIR.Proofs.Analysis.Lookup
import RangedIR.Proofs.Analysis.LoopHeaders
import RangedIR.Proofs.Analysis.Overlaps
import RangedIR.Proofs.Analysis.PointerArguments
import RangedIR.Proofs.Analysis.Reuse
import RangedIR.Proofs.Analysis.Soundness
import RangedIR.Proofs.Analysis.UnknownOrigin
import RangedIR.Proofs.Analysis.WordRanges
import RangedIR.Proofs.Analysis.Work
import RangedIR.Proofs.Interval.Decision
import RangedIR.Proofs.Interval.Lanes
import RangedIR.Proofs.Interval.Ordered
import RangedIR.Proofs.Layout
import RangedIR.Proofs.Optimize.Alignment
import RangedIR.Proofs.Optimize.Survivors
import RangedIR.Proofs.Scope.Expansion
import RangedIR.Proofs.Scope.Resolution
import RangedIR.Proofs.Scope.RoundTrip
import RangedIR.Proofs.Sensor
