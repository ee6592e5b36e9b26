/-
RangedIR.Number.Style — how a number is written.

The digits come from `shortest`. A `NumberStyle` decides the rest: where
positional writing ends, whether an integral value keeps `.0`, whether a
positive exponent carries its sign, and where a tie between two equally short
decimals goes.
-/
import RangedIR.Number.Double
import RangedIR.Number.Shortest

namespace RangedIR.Number

/-! ## 1. Styles -/

/-- The decisions of a number format. The scientific exponent of a number is
that of its leading digit. -/
structure NumberStyle where
  /-- Scientific exponents written without an exponent. -/
  positional : Int → Bool
  /-- Whether an integral value written positionally ends in `.0`. -/
  pointZero : Bool
  /-- Whether a positive exponent is written with its sign. -/
  plusSign : Bool
  tie : Tie

/-- Never an exponent, no `.0`: the style of messages and interval texts. -/
def NumberStyle.plain : NumberStyle := ⟨fun _ => true, false, false, .up⟩

/-- Positional from `10^-4` up to `10^16`, always with a point or an exponent:
the style of literals in module text. -/
def NumberStyle.literal : NumberStyle := ⟨fun e => -4 ≤ e && e < 16, true, false, .up⟩

/-- Positional from `10^-5` up to `10^16`, with signed exponents: the style of
JSON documents. -/
def NumberStyle.json : NumberStyle := ⟨fun e => -5 ≤ e && e < 16, true, true, .toEven⟩

/-! ## 2. Layout -/

/-- Digits with the point before position `point`, padded with zeros. -/
def positionalText (pointZero : Bool) (digits : List Char) (point : Int) : List Char :=
  if point ≤ 0 then
    '0' :: '.' :: (List.replicate (-point).toNat '0' ++ digits)
  else if digits.length ≤ point.toNat then
    digits ++ List.replicate (point.toNat - digits.length) '0' ++
      (if pointZero then ['.', '0'] else [])
  else
    digits.take point.toNat ++ '.' :: digits.drop point.toNat

/-- One digit, the others after a point, and the exponent. -/
def exponentText (plusSign : Bool) (digits : List Char) (exponent : Int) : List Char :=
  digits.take 1 ++ (if digits.length ≤ 1 then [] else '.' :: digits.drop 1) ++
    'e' :: (if 0 ≤ exponent then (if plusSign then ['+'] else []) else ['-']) ++
    Nat.toDigits 10 exponent.natAbs

/-- A non-negative decimal in a style. -/
def NumberStyle.decimalText (style : NumberStyle) (d : Decimal) : List Char :=
  if d.digits = 0 then '0' :: (if style.pointZero then ['.', '0'] else []) else
  let digits := Nat.toDigits 10 d.digits
  let point := d.exponent + digits.length
  if style.positional (point - 1) then positionalText style.pointZero digits point
  else exponentText style.plusSign digits (point - 1)

/-- The text of a number in a style. -/
def NumberStyle.text (style : NumberStyle) (x : Float) : String :=
  match datum x with
  | .nan => "NaN"
  | .infinite negative => if negative then "-inf" else "inf"
  | .finite negative m e =>
    String.ofList ((if negative then ['-'] else []) ++ style.decimalText (shortest style.tie m e))

/-- A number in messages. -/
def plainText (x : Float) : String := NumberStyle.plain.text x

/-- A number as a literal of module text. -/
def literalText (x : Float) : String := NumberStyle.literal.text x

end RangedIR.Number
