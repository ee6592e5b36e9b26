/-
RangedIR.Text.Json — structured texts.

Writing takes a value to its compact or its indented text. Reading takes a text
to a tree that keeps numbers and strings as they are written, because what they
have to satisfy depends on whether they are used.
-/
import RangedIR.Number.Style
import RangedIR.Text.Digits

namespace RangedIR.Text

-- powers of the core library
attribute [local instance (high)] instPowNat

/-! ## 1. Values and their texts -/

/-- A value to be written. -/
inductive JsonValue where
  | null
  | number (x : Float)
  | string (s : String)
  | array (items : List JsonValue)
  | object (fields : List (String × JsonValue))
  deriving Inhabited

namespace JsonValue

/-- Two hexadecimal digits. -/
def hexPair (n : Nat) : List Char := [Nat.digitChar (n / 16 % 16), Nat.digitChar (n % 16)]

/-- One character of a string. Control characters are written by number unless
they have a letter of their own. -/
def escaped (c : Char) : List Char :=
  match c with
  | '"' => ['\\', '"']
  | '\\' => ['\\', '\\']
  | '\x08' => ['\\', 'b']
  | '\t' => ['\\', 't']
  | '\n' => ['\\', 'n']
  | '\x0c' => ['\\', 'f']
  | '\r' => ['\\', 'r']
  | c => if c.toNat < 0x20 then ['\\', 'u', '0', '0'] ++ hexPair c.toNat else [c]

/-- A string in quotation marks. -/
def stringText (s : String) : String :=
  String.ofList ('"' :: (s.toList.flatMap escaped ++ ['"']))

/-- A number; what is not finite has no text of its own. -/
def numberText (x : Float) : String := if x.isFinite then Number.NumberStyle.json.text x else "null"

mutual

/-- The text without blanks. -/
def compact : JsonValue → String
  | null => "null"
  | number x => numberText x
  | string s => stringText s
  | array items => "[" ++ compactItems items ++ "]"
  | object fields => "\x7b" ++ compactFields fields ++ "\x7d"

def compactItems : List JsonValue → String
  | [] => ""
  | [v] => v.compact
  | v :: rest => v.compact ++ "," ++ compactItems rest

def compactFields : List (String × JsonValue) → String
  | [] => ""
  | [(k, v)] => stringText k ++ ":" ++ v.compact
  | (k, v) :: rest => stringText k ++ ":" ++ v.compact ++ "," ++ compactFields rest

end

/-- A new line with two blanks for each level. -/
def newLine (level : Nat) : String := "\n" ++ String.ofList (List.replicate (2 * level) ' ')

mutual

/-- The text with one item or field a line, inside `level` others. -/
def indented (level : Nat) : JsonValue → String
  | null => "null"
  | number x => numberText x
  | string s => stringText s
  | array [] => "[]"
  | array items => "[" ++ indentedItems (level + 1) items ++ newLine level ++ "]"
  | object [] => "\x7b\x7d"
  | object fields => "\x7b" ++ indentedFields (level + 1) fields ++ newLine level ++ "\x7d"

def indentedItems (level : Nat) : List JsonValue → String
  | [] => ""
  | [v] => newLine level ++ v.indented level
  | v :: rest => newLine level ++ v.indented level ++ "," ++ indentedItems level rest

def indentedFields (level : Nat) : List (String × JsonValue) → String
  | [] => ""
  | [(k, v)] => newLine level ++ stringText k ++ ": " ++ v.indented level
  | (k, v) :: rest =>
    newLine level ++ stringText k ++ ": " ++ v.indented level ++ "," ++ indentedFields level rest

end

end JsonValue

/-! ## 2. Numbers as written -/

/-- A number as written. -/
structure JsonNumber where
  negative : Bool
  whole : List Char
  /-- The digits behind the point. -/
  fraction : Option (List Char)
  /-- Whether the exponent is negative, and its digits. -/
  exponent : Option (Bool × List Char)
  deriving DecidableEq, Repr

namespace JsonNumber

/-- The greatest significand that is kept. -/
def significandMax : Nat := 2 ^ (64 : Nat) - 1

/-- The greatest exponent that is read. -/
def exponentMax : Nat := 2 ^ (31 : Nat) - 1

/-- Take digits into a number as long as it stays within a limit; the digits
that are left. -/
def accumulate (limit : Nat) : Nat → List Char → Nat × List Char
  | n, [] => (n, [])
  | n, d :: rest =>
    let n' := 10 * n + (d.toNat - '0'.toNat)
    if limit < n' then (n, d :: rest) else accumulate limit n' rest

/-- Scale by a power of ten, in one step if the power is a binary64 number, and
otherwise down by steps of 308. None if the result is too large. -/
def scale (f : Float) : Nat → Int → Option Float
  | 0, _ => some f
  | fuel + 1, e =>
    if e.natAbs ≤ 308 then
      let power := Float.ofScientific 1 false e.natAbs
      if 0 ≤ e then (if (f * power).isFinite then some (f * power) else none) else some (f / power)
    else if f == 0.0 then some f
    else if 0 ≤ e then none
    else scale (f / 1e308) fuel (e + 308)

/-- Apply the exponent to a significand that has already been moved by `shift`
decimal places. -/
def applyExponent (significand : Nat) (shift : Int) : Option (Bool × List Char) → Option Float
  | none => scale (Number.ofInt significand) 8 shift
  | some (negative, digits) =>
    match accumulate exponentMax 0 digits with
    | (e, []) =>
      scale (Number.ofInt significand) 8 (if negative then shift - e else shift + e)
    | _ => if significand ≠ 0 && !negative then none else some 0.0

/-- The number a text stands for. Digits that do not fit into 64 bits are
counted as places before the point and dropped behind it. None if the number is
too large. -/
def toFloat? (n : JsonNumber) : Option Float :=
  let (whole, dropped) := accumulate significandMax 0 n.whole
  let magnitude := match n.fraction with
    | none => applyExponent whole dropped.length n.exponent
    | some ds =>
      let (significand, left) := accumulate significandMax whole ds
      applyExponent significand (dropped.length - (ds.length - left.length : Nat)) n.exponent
  magnitude.map fun m => if n.negative then -m else m

end JsonNumber

/-! ## 3. Trees -/

/-- A text cut into its parts. -/
inductive JsonTree where
  | word (text : List Char)
  | number (n : JsonNumber)
  /-- What stands between the quotation marks. -/
  | string (written : List Char)
  | array (items : List JsonTree)
  | object (fields : List (List Char × JsonTree))
  deriving Inhabited

namespace JsonTree

/-! A reader answers what it read and what is left. -/

def isBlank (c : Char) : Bool := c == ' ' || c == '\n' || c == '\t' || c == '\r'

def skip (cs : List Char) : List Char := cs.dropWhile isBlank

def isHex (c : Char) : Bool := c.isDigit || ('a' ≤ c && c ≤ 'f') || ('A' ≤ c && c ≤ 'F')

/-- The rest of a string behind its opening quote, and what is left behind its
closing one. Escapes are kept as they are written. -/
def readString : List Char → Option (List Char × List Char)
  | [] => none
  | '"' :: rest => some ([], rest)
  | '\\' :: 'u' :: a :: b :: c :: d :: rest =>
    if isHex a && isHex b && isHex c && isHex d then
      (readString rest).map fun (s, left) => ('\\' :: 'u' :: a :: b :: c :: d :: s, left)
    else none
  | '\\' :: c :: rest =>
    if "\"\\/bfnrt".toList.contains c then
      (readString rest).map fun (s, left) => ('\\' :: c :: s, left)
    else none
  | c :: rest =>
    if c.toNat < 0x20 || c == '\\' then none
    else (readString rest).map fun (s, left) => (c :: s, left)

/-- At least one digit. -/
def readDigits (cs : List Char) : Option (List Char × List Char) :=
  let ds := cs.takeWhile Char.isDigit
  if ds.isEmpty then none else some (ds, cs.drop ds.length)

def readFraction (cs : List Char) : Option (Option (List Char) × List Char) :=
  match cs with
  | '.' :: rest => (readDigits rest).map fun (ds, left) => (some ds, left)
  | cs => some (none, cs)

def readExponent (cs : List Char) : Option (Option (Bool × List Char) × List Char) :=
  let digits (negative : Bool) (cs : List Char) : Option (Option (Bool × List Char) × List Char) :=
    (readDigits cs).map fun (ds, left) => (some (negative, ds), left)
  match cs with
  | c :: rest =>
    if c == 'e' || c == 'E' then
      match rest with
      | '+' :: rest => digits false rest
      | '-' :: rest => digits true rest
      | rest => digits false rest
    else some (none, cs)
  | [] => some (none, [])

/-- A number without superfluous zeros in front. -/
def readNumber (cs : List Char) : Option (JsonNumber × List Char) := do
  let negative := cs.head? == some '-'
  let (whole, rest) ← readDigits (if negative then cs.drop 1 else cs)
  if 1 < whole.length && whole.head? == some '0' then none
  else
    let (fraction, rest) ← readFraction rest
    let (exponent, rest) ← readExponent rest
    pure (⟨negative, whole, fraction, exponent⟩, rest)

/-- One of the three words. -/
def readWord (cs : List Char) : Option (JsonTree × List Char) :=
  (["true", "false", "null"].map String.toList).findSome? fun w =>
    if w.isPrefixOf cs then some (word w, cs.drop w.length) else none

/-- A key and its colon. -/
def readKey (cs : List Char) : Option (List Char × List Char) :=
  match cs with
  | '"' :: rest => do
    let (k, rest) ← readString rest
    match skip rest with
    | ':' :: rest => pure (k, rest)
    | _ => none
  | _ => none

mutual

/-- A tree, with blanks in front. Every level takes a character. -/
def readTree : Nat → List Char → Option (JsonTree × List Char)
  | 0, _ => none
  | fuel + 1, cs =>
    match skip cs with
    | '"' :: rest => (readString rest).map fun (s, left) => (string s, left)
    | '[' :: rest =>
      match skip rest with
      | ']' :: rest => some (array [], rest)
      | _ => (readItems fuel rest).map fun (items, left) => (array items, left)
    | '\x7b' :: rest =>
      match skip rest with
      | '\x7d' :: rest => some (object [], rest)
      | _ => (readFields fuel rest).map fun (fields, left) => (object fields, left)
    | cs => readWord cs <|> (readNumber cs).map fun (n, left) => (number n, left)

/-- Items up to the closing bracket. -/
def readItems : Nat → List Char → Option (List JsonTree × List Char)
  | 0, _ => none
  | fuel + 1, cs => do
    let (t, rest) ← readTree fuel cs
    match skip rest with
    | ',' :: rest =>
      let (ts, rest) ← readItems fuel rest
      pure (t :: ts, rest)
    | ']' :: rest => pure ([t], rest)
    | _ => none

/-- Fields up to the closing brace. -/
def readFields : Nat → List Char → Option (List (List Char × JsonTree) × List Char)
  | 0, _ => none
  | fuel + 1, cs => do
    let (k, rest) ← readKey (skip cs)
    let (t, rest) ← readTree fuel rest
    match skip rest with
    | ',' :: rest =>
      let (fs, rest) ← readFields fuel rest
      pure ((k, t) :: fs, rest)
    | '\x7d' :: rest => pure ([(k, t)], rest)
    | _ => none

end

/-- The tree of a whole text. -/
def ofText? (s : String) : Option JsonTree := do
  let cs := s.toList
  let (t, rest) ← readTree (2 * cs.length + 1) cs
  if (skip rest).isEmpty then some t else none

/-! ## 4. Strings -/

def hexValue (c : Char) : Nat :=
  if c.isDigit then c.toNat - '0'.toNat
  else if 'a' ≤ c then c.toNat - 'a'.toNat + 10 else c.toNat - 'A'.toNat + 10

/-- The number of four hexadecimal digits. -/
def hexUnit (a b c d : Char) : Nat :=
  ((hexValue a * 16 + hexValue b) * 16 + hexValue c) * 16 + hexValue d

def isHighSurrogate (n : Nat) : Bool := 0xd800 ≤ n && n ≤ 0xdbff

def isLowSurrogate (n : Nat) : Bool := 0xdc00 ≤ n && n ≤ 0xdfff

/-- The character of a letter behind a backslash. -/
def unescape (c : Char) : Char :=
  match c with
  | 'b' => '\x08'
  | 'f' => '\x0c'
  | 'n' => '\n'
  | 'r' => '\r'
  | 't' => '\t'
  | c => c

/-- The character of a pair of surrogates. -/
def ofSurrogates (high low : Nat) : Char :=
  Char.ofNat (0x10000 + (high - 0xd800) * 0x400 + (low - 0xdc00))

/-- The text of a written string, behind a high surrogate if there is one.
Surrogates have to come in pairs. -/
def unquote : Option Nat → List Char → Option (List Char)
  | none, [] => some []
  | high, '\\' :: 'u' :: a :: b :: c :: d :: rest =>
    let n := hexUnit a b c d
    match high with
    | some h => if isLowSurrogate n then (unquote none rest).map (ofSurrogates h n :: ·) else none
    | none =>
      if isHighSurrogate n then unquote (some n) rest
      else if isLowSurrogate n then none
      else (unquote none rest).map (Char.ofNat n :: ·)
  | none, '\\' :: c :: rest => (unquote none rest).map (unescape c :: ·)
  | none, c :: rest => (unquote none rest).map (c :: ·)
  | some _, _ => none

/-- The text of a tree that is a string. -/
def text? : JsonTree → Option String
  | string s => (unquote none s).map String.ofList
  | _ => none

/-- The number of a tree that is a number. -/
def float? : JsonTree → Option Float
  | number n => n.toFloat?
  | _ => none

end JsonTree

end RangedIR.Text
