/-
RangedIR.Number.Shortest — the fewest decimal digits that identify a number.

The reals that round to `m · 2^e` form an interval around it, whose ends
belong to it exactly when `m` is even. `shortest` walks decimal grids from
coarse to fine and takes the first one with a point in that interval; of two
such points the nearer, and on an exact tie the one the caller asks for.
-/
import RangedIR.Number.Format

namespace RangedIR.Number

-- powers of the core library
attribute [local instance (high)] instPowNat

/-! ## 1. Decimals and the rounding interval -/

/-- The number `digits · 10^exponent`. -/
structure Decimal where
  digits : Nat
  exponent : Int
  deriving DecidableEq, Repr

/-- Which of two equally near decimals is taken. -/
inductive Tie where
  | toEven
  | up
  deriving DecidableEq, Repr

/-- Compare `a · 10^i` with `n · 2^j`. -/
def compareScaled (a : Nat) (i : Int) (n : Nat) (j : Int) : Ordering :=
  compare (a * 10 ^ i.toNat * 2 ^ (-j).toNat) (n * 2 ^ j.toNat * 10 ^ (-i).toNat)

/-- Whether `d` lies among the reals that round to `m · 2^e`. The gap below a
power of two is half the gap above it, except at the bottom of the range. -/
def Decimal.readsBack (d : Decimal) (m : Nat) (e : Int) : Bool :=
  let narrow := m == 2 ^ Format.double.fractionBits && Format.double.tiny < e
  let below := if narrow then 4 * m - 1 else 4 * m - 2
  let low := compareScaled d.digits d.exponent below (e - 2)
  let high := compareScaled d.digits d.exponent (4 * m + 2) (e - 2)
  let closed := m % 2 == 0
  (low == .gt || (closed && low == .eq)) && (high == .lt || (closed && high == .eq))

/-! ## 2. Scale -/

/-- The least `k` at or above the start with `m · 2^e < 10^k`, in at most
`fuel` steps. -/
def scaleUp (m : Nat) (e : Int) : Nat → Int → Int
  | 0, k => k
  | fuel + 1, k => if compareScaled 1 k m e == .gt then k else scaleUp m e fuel (k + 1)

/-- The least `k` with `m · 2^e < 10^k`, for a positive `m`. The search starts
a few steps below it, at the binary logarithm times `0.30102 < log₁₀ 2`. -/
def scaleOf (m : Nat) (e : Int) : Int :=
  scaleUp m e 8 ((e + m.log2) * 30102 / 100000 - 2)

/-! ## 3. Search -/

/-- The value's lower neighbour on the grid `10^i`. -/
def gridFloor (m : Nat) (e i : Int) : Nat :=
  (m * 2 ^ e.toNat * 10 ^ (-i).toNat) / (10 ^ i.toNat * 2 ^ (-e).toNat)

/-- The grid point in the interval of `m · 2^e` nearest to it, if any of the
two neighbours lies there. -/
def onGrid (tie : Tie) (m : Nat) (e i : Int) : Option Decimal :=
  let low : Decimal := ⟨gridFloor m e i, i⟩
  let high : Decimal := ⟨low.digits + 1, i⟩
  match low.readsBack m e, high.readsBack m e with
  | false, false => none
  | true, false => some low
  | false, true => some high
  | true, true =>
    match compareScaled (low.digits + high.digits) i (2 * m) e with
    | .gt => some low
    | .lt => some high
    | .eq => some (if tie == .toEven && low.digits % 2 == 0 then low else high)

/-- The first hit on the grids of `n, n + 1, …` digits below `10^k`. -/
def searchGrids (tie : Tie) (m : Nat) (e k : Int) : Nat → Nat → Option Decimal
  | 0, _ => none
  | fuel + 1, n =>
    match onGrid tie m e (k - n) with
    | some d => some d
    | none => searchGrids tie m e k fuel (n + 1)

/-- Move trailing zeros of the digits into the exponent. -/
def Decimal.strip : Nat → Decimal → Decimal
  | 0, d => d
  | fuel + 1, d =>
    if d.digits != 0 && d.digits % 10 == 0 then strip fuel ⟨d.digits / 10, d.exponent + 1⟩ else d

/-- The exact decimal value of `m · 2^e`. -/
def Decimal.exact (m : Nat) (e : Int) : Decimal :=
  if 0 ≤ e then ⟨m * 2 ^ e.toNat, 0⟩ else ⟨m * 5 ^ (-e).toNat, e⟩

/-- The shortest decimal that reads back as `m · 2^e`, nearest of those, without
trailing zeros. Seventeen digits always suffice. -/
def shortest (tie : Tie) (m : Nat) (e : Int) : Decimal :=
  if m = 0 then ⟨0, 0⟩ else
  ((searchGrids tie m e (scaleOf m e) 17 1).getD (.exact m e)).strip 400

end RangedIR.Number
