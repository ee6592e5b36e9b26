/-
RangedIR.Sensor — declared ranges of physical quantities.
-/
import RangedIR.Analysis.Bounds
import RangedIR.Text.Json

namespace RangedIR

open Text

/-- A physical quantity and the range that is declared for it. -/
structure Sensor where
  identifier : String
  lower : Float
  upper : Float
  deriving DecidableEq, Repr, Inhabited

/-! ## 1. Validity -/

/-- Why a sensor is not usable. -/
inductive SensorFault where
  | emptyIdentifier
  | notFinite
  | reversed
  | duplicate
  deriving DecidableEq, Repr

def SensorFault.message : SensorFault → String
  | emptyIdentifier => "empty identifier"
  | notFinite => "bounds must be finite"
  | reversed => "lower bound exceeds upper bound"
  | duplicate => "declared more than once"

/-- What is said about a sensor that is not usable. -/
def SensorFault.text (identifier : String) (fault : SensorFault) : String :=
  "sensor '" ++ identifier ++ "': " ++ fault.message

/-- What is wrong with a sensor behind others of the given names. -/
def Sensor.fault? (s : Sensor) (seen : List String) : Option SensorFault :=
  if s.identifier.isEmpty then some .emptyIdentifier
  else if !s.lower.isFinite || !s.upper.isFinite then some .notFinite
  else if s.upper < s.lower then some .reversed
  else if seen.contains s.identifier then some .duplicate
  else none

/-- Check sensors in order, behind others of the given names. -/
def Sensor.checkFrom (seen : List String) : List Sensor → Except (String × SensorFault) Unit
  | [] => .ok ()
  | s :: rest =>
    match s.fault? seen with
    | some fault => .error (s.identifier, fault)
    | none => checkFrom (s.identifier :: seen) rest

/-- Check sensors: names, finite and ordered bounds, and no name twice. -/
def Sensor.check (sensors : List Sensor) : Except (String × SensorFault) Unit :=
  Sensor.checkFrom [] sensors

/-- The declared ranges of sensors. -/
def Sensor.seeds (sensors : List Sensor) : SeedTable :=
  .ofList (sensors.map fun s => (s.identifier, .span s.lower s.upper))

/-! ## 2. Text -/

def Sensor.json (s : Sensor) : JsonValue :=
  .object [("identifier", .string s.identifier), ("lower", .number s.lower),
    ("upper", .number s.upper)]

/-- One text for all orders of the same sensors. -/
def Sensor.canonicalText (sensors : List Sensor) : String :=
  let sorted := sensors.mergeSort fun a b => !(b.identifier < a.identifier)
  (JsonValue.object [("sensors", .array (sorted.map (·.json)))]).compact

/-! ## 3. Reading -/

/-- The field of a given name. It must not be there twice; other fields may be
anything, but their names have to be texts. -/
def fieldNamed? (fields : List (List Char × JsonTree)) (name : String) : Option (Option JsonTree) := do
  let named ← fields.mapM fun (field : List Char × JsonTree) =>
    (JsonTree.unquote none field.1).map fun k => (String.ofList k, field.2)
  match named.filter fun (k, _) => k == name with
  | [] => some none
  | [(_, t)] => some (some t)
  | _ => none

/-- A sensor from its three parts. -/
def Sensor.ofParts? (identifier lower upper : JsonTree) : Option Sensor := do
  pure ⟨← identifier.text?, ← lower.float?, ← upper.float?⟩

/-- A sensor, written by field names or as a list of its parts. -/
def Sensor.ofTree? : JsonTree → Option Sensor
  | .array [i, l, u] => ofParts? i l u
  | .object fields => do
    let i ← (← fieldNamed? fields "identifier")
    let l ← (← fieldNamed? fields "lower")
    let u ← (← fieldNamed? fields "upper")
    ofParts? i l u
  | _ => none

/-- A list of sensors. -/
def Sensor.listOfTree? : JsonTree → Option (List Sensor)
  | .array items => items.mapM Sensor.ofTree?
  | _ => none

/-- The sensors of a configuration, written by field name or as a list of its
one part, which may be left out. -/
def Sensor.configOfTree? : JsonTree → Option (List Sensor)
  | .array [] => some []
  | .array [t] => Sensor.listOfTree? t
  | .object fields => do
    match ← fieldNamed? fields "sensors" with
    | some t => Sensor.listOfTree? t
    | none => some []
  | _ => none

/-- Why a configuration cannot be used. -/
inductive ConfigError where
  | malformed
  | invalid (identifier : String) (fault : SensorFault)
  deriving DecidableEq, Repr

/-- The sensors of a configuration text. -/
def Sensor.ofText (text : String) : Except ConfigError (List Sensor) :=
  match (JsonTree.ofText? text).bind Sensor.configOfTree? with
  | none => .error .malformed
  | some sensors =>
    match Sensor.check sensors with
    | .error (identifier, fault) => .error (.invalid identifier fault)
    | .ok () => .ok sensors

end RangedIR
