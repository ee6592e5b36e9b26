/-
RangedIR.Source.Token — the words of module text.

Sigils belong to the word: `%name` is a local (a value, a label or a named
type) and `@name` a global. Operation names, type names and keywords are all
plain words; the grammar tells them apart.
-/
import RangedIR.Number.Style

namespace RangedIR.Source

/-- A word of module text. -/
inductive Token where
  | equals | comma | colon | star
  | lparen | rparen | lbrace | rbrace | lbracket | rbracket
  | metaDbg | metaRange
  | loc (name : String)
  | glob (name : String)
  | word (text : String)
  | int (value : Int)
  | float (value : Float)
  | str (text : String)
  deriving DecidableEq, Repr, Inhabited

namespace Token

/-- The text of a token. -/
def text : Token → String
  | equals => "=" | comma => "," | colon => ":" | star => "*"
  | lparen => "(" | rparen => ")" | lbrace => "\x7b" | rbrace => "\x7d"
  | lbracket => "[" | rbracket => "]"
  | metaDbg => "!dbg" | metaRange => "!range"
  | loc n => "%" ++ n
  | glob n => "@" ++ n
  | word w => w
  | int v => Int.repr v
  | float v => Number.plainText v
  | str s => "\"" ++ s ++ "\""

end Token

/-- A range of byte offsets, the end excluded. -/
structure Span where
  start : Nat
  stop : Nat
  deriving DecidableEq, Repr, Inhabited

/-- A token where it stands in the source. -/
structure Lexeme where
  token : Token
  span : Span
  deriving DecidableEq, Repr, Inhabited

/-- A piece of source that is no token. -/
structure Stray where
  span : Span
  text : String
  deriving DecidableEq, Repr, Inhabited

end RangedIR.Source
