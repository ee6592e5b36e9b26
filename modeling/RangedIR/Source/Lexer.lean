/-
RangedIR.Source.Lexer — source text to tokens.

`scan` reads one piece from the front of the text, always the longest that is a
token. Pieces that are no token are kept beside the tokens and reading goes on
behind them. White space and comments, which run from `;` to the end of the
line, are dropped.
-/
import RangedIR.Source.Token
import RangedIR.Text.Digits
import RangedIR.Text.Quoted

namespace RangedIR.Source

open Text

-- powers of the core library
attribute [local instance (high)] instPowNat

/-! ## 1. Character classes -/

/-- Characters between tokens. -/
def isSpace (c : Char) : Bool := c == ' ' || c == '\t' || c == '\r' || c == '\n'

/-- Characters that may start a plain word. -/
def isWordStart (c : Char) : Bool := c.isAlpha || c == '_'

/-- Characters of a name after its sigil or first letter. -/
def isNameChar (c : Char) : Bool := c.isAlphanum || c == '_' || c == '.'

/-- The token of a single character. -/
def symbol? : Char → Option Token
  | '=' => some .equals
  | ',' => some .comma
  | ':' => some .colon
  | '*' => some .star
  | '(' => some .lparen
  | ')' => some .rparen
  | '\x7b' => some .lbrace
  | '\x7d' => some .rbrace
  | '[' => some .lbracket
  | ']' => some .rbracket
  | _ => none

/-! ## 2. Numbers -/

/-- The text of a number, cut into its parts. -/
structure Numeral where
  negative : Bool
  whole : List Char
  /-- The point and the digits behind it. -/
  fraction : List Char
  /-- The mark, the sign and the digits of the exponent. -/
  exponent : List Char

namespace Numeral

/-- The numeral as it was read. -/
def chars (n : Numeral) : List Char :=
  (if n.negative then ['-'] else []) ++ n.whole ++ n.fraction ++ n.exponent

/-- A fraction: a point and at least one digit. -/
def readFraction (cs : List Char) : List Char :=
  match cs with
  | '.' :: rest =>
    let ds := rest.takeWhile Char.isDigit
    if ds.isEmpty then [] else '.' :: ds
  | _ => []

/-- The sign and the digits of an exponent, at least one digit. -/
def readExponentDigits (cs : List Char) : List Char :=
  let sign := match cs with
    | '+' :: _ => ['+']
    | '-' :: _ => ['-']
    | _ => []
  let ds := (cs.drop sign.length).takeWhile Char.isDigit
  if ds.isEmpty then [] else sign ++ ds

/-- An exponent: a mark, an optional sign and at least one digit. -/
def readExponent (cs : List Char) : List Char :=
  match cs with
  | c :: rest =>
    if c == 'e' || c == 'E' then
      let ds := readExponentDigits rest
      if ds.isEmpty then [] else c :: ds
    else []
  | [] => []

/-- The longest numeral at the front of a text, if it starts with one. -/
def read? (cs : List Char) : Option Numeral :=
  let negative := cs.head? == some '-'
  let body := if negative then cs.drop 1 else cs
  let whole := body.takeWhile Char.isDigit
  if whole.isEmpty then none else
  let rest := body.drop whole.length
  let fraction := readFraction rest
  let exponent := readExponent (rest.drop fraction.length)
  some ⟨negative, whole, fraction, exponent⟩

/-- The power of ten of an exponent. -/
def exponentValue (n : Numeral) : Int :=
  match n.exponent with
  | _ :: '-' :: ds => -(natOfDigits ds : Int)
  | _ :: '+' :: ds => natOfDigits ds
  | _ :: ds => natOfDigits ds
  | [] => 0

/-- The binary64 number nearest to the numeral. -/
def toFloat (n : Numeral) : Float :=
  let digits := natOfDigits (n.whole ++ n.fraction.drop 1)
  let power := n.exponentValue - (n.fraction.length - 1 : Nat)
  let magnitude := Float.ofScientific digits (power < 0) power.natAbs
  if n.negative then -magnitude else magnitude

/-- The integer of a numeral without fraction and exponent. -/
def toInt (n : Numeral) : Int :=
  if n.negative then -(natOfDigits n.whole : Int) else natOfDigits n.whole

/-- The token of a numeral. An integer has to fit into 64 bits. -/
def token? (n : Numeral) : Option Token :=
  if n.fraction.isEmpty && n.exponent.isEmpty then
    let v := n.toInt
    if -2 ^ (63 : Nat) ≤ v && v < 2 ^ (63 : Nat) then some (.int v) else none
  else some (.float n.toFloat)

end Numeral

/-! ## 3. One piece -/

/-- What a piece of the source is. -/
inductive Piece where
  | blank
  | token (t : Token)
  | stray
  deriving Repr

/-- A piece and the number of characters it takes. -/
structure Scan where
  piece : Piece
  length : Nat

/-- A single character that is no token. -/
def Scan.strayChar : Scan := ⟨.stray, 1⟩

/-- A name behind its sigil; the sigil alone is no token. -/
def scanName (make : String → Token) (rest : List Char) : Scan :=
  let name := rest.takeWhile isNameChar
  if name.isEmpty then .strayChar else ⟨.token (make (String.ofList name)), name.length + 1⟩

/-- A string behind its opening quote; it ends on its line, or is no token. -/
def scanString (rest : List Char) : Scan :=
  let body := rest.takeWhile fun c => c != '"' && c != '\n'
  match rest.drop body.length with
  | '"' :: _ => ⟨.token (.str (String.ofList body)), body.length + 2⟩
  | _ => ⟨.stray, body.length + 1⟩

/-- The piece that starts with `c` and goes on in `rest`. -/
def scan (c : Char) (rest : List Char) : Scan :=
  if isSpace c then ⟨.blank, 1 + (rest.takeWhile isSpace).length⟩
  else if c == ';' then ⟨.blank, 1 + (rest.takeWhile (· != '\n')).length⟩
  else if c == '%' then scanName .loc rest
  else if c == '@' then scanName .glob rest
  else if c == '"' then scanString rest
  else if c == '!' then
    if ['d', 'b', 'g'].isPrefixOf rest then ⟨.token .metaDbg, 4⟩
    else if ['r', 'a', 'n', 'g', 'e'].isPrefixOf rest then ⟨.token .metaRange, 6⟩
    else .strayChar
  else if isWordStart c then
    let tail := rest.takeWhile isNameChar
    ⟨.token (.word (String.ofList (c :: tail))), tail.length + 1⟩
  else
    match symbol? c with
    | some t => ⟨.token t, 1⟩
    | none =>
      match Numeral.read? (c :: rest) with
      | some n =>
        ⟨match n.token? with | some t => .token t | none => .stray, n.chars.length⟩
      | none => .strayChar

/-! ## 4. All pieces -/

/-- Tokens and strays of a source, each in order. -/
structure LexResult where
  lexemes : List Lexeme
  strays : List Stray
  deriving Repr

/-- Bytes of a text. -/
def byteCount (cs : List Char) : Nat := cs.foldl (fun n c => n + c.utf8Size) 0

/-- Read the pieces of a text that starts at a byte offset. -/
def lexFrom : Nat → Nat → List Char → LexResult
  | 0, _, _ => ⟨[], []⟩
  | _ + 1, _, [] => ⟨[], []⟩
  | fuel + 1, start, c :: rest =>
    let s := scan c rest
    let taken := (c :: rest).take s.length
    let stop := start + byteCount taken
    let later := lexFrom fuel stop ((c :: rest).drop s.length)
    match s.piece with
    | .blank => later
    | .token t => { later with lexemes := ⟨t, ⟨start, stop⟩⟩ :: later.lexemes }
    | .stray => { later with strays := ⟨⟨start, stop⟩, String.ofList taken⟩ :: later.strays }

/-- The tokens and strays of a source. A piece takes at least one character, so
the number of characters bounds the number of pieces. -/
def lex (source : String) : LexResult :=
  lexFrom source.toList.length 0 source.toList

/-- What is said about a stray piece. -/
def Stray.message (s : Stray) : String := "unexpected character: " ++ Text.quoted s.text

end RangedIR.Source
