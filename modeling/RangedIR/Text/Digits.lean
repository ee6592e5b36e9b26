/-
RangedIR.Text.Digits — decimal digits and separators.
-/

namespace RangedIR.Text

/-- The number a list of decimal digits denotes. -/
def natOfDigits (ds : List Char) : Nat := ds.foldl (fun n d => 10 * n + (d.toNat - '0'.toNat)) 0

/-- A decimal number: at least one digit, leading zeros allowed. -/
def decimal? (cs : List Char) : Option Nat :=
  if !cs.isEmpty && cs.all Char.isDigit then some (natOfDigits cs) else none

/-- A decimal number below a limit, with an optional plus sign. -/
def unsigned? (limit : Nat) (cs : List Char) : Option Nat :=
  let digits := match cs with
    | '+' :: rest => rest
    | cs => cs
  match decimal? digits with
  | some n => if n < limit then some n else none
  | none => none

/-- The parts of a text between occurrences of a separator. There is always one
part more than there are separators. -/
def splitAt (sep : Char) : List Char → List (List Char)
  | [] => [[]]
  | c :: rest =>
    if c = sep then [] :: splitAt sep rest
    else
      match splitAt sep rest with
      | part :: parts => (c :: part) :: parts
      | [] => [[c]]

end RangedIR.Text
