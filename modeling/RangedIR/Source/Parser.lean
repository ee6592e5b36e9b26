/-
RangedIR.Source.Parser — reading tokens by ordered choice.

A parser is given a cursor and either fails or answers a value and the cursor
behind what it read. Whatever it does, it also reports the furthest position at
which any attempt failed: alternatives that were given up, repetitions that
came to their end and optional parts that were absent count as well. A source
that cannot be read is reported at that position.
-/
import RangedIR.Source.Token

namespace RangedIR.Source

/-! ## 1. Cursors and steps -/

/-- A place between two tokens. -/
structure Cursor where
  /-- The tokens still to be read. -/
  rest : List Lexeme
  /-- The number of tokens read. -/
  position : Nat
  /-- Byte offset behind the last token read. -/
  lastStop : Nat

/-- What a parser answers: the furthest failed attempt, and a value if it succeeds. -/
structure Step (α : Type) where
  furthest : Nat
  outcome : Option (α × Cursor)

/-- A reader of tokens. -/
def Parser (α : Type) : Type := Cursor → Step α

namespace Parser

variable {α β : Type}

/-! ## 2. Sequence and choice -/

/-- Read nothing. -/
def succeed (a : α) : Parser α := fun c => ⟨0, some (a, c)⟩

/-- Read by `p`, then by what its value asks for. -/
def andThen (p : Parser α) (f : α → Parser β) : Parser β := fun c =>
  match p c with
  | ⟨far, none⟩ => ⟨far, none⟩
  | ⟨far, some (a, c')⟩ =>
    let s := f a c'
    ⟨max far s.furthest, s.outcome⟩

instance : Monad Parser where
  pure := succeed
  bind := andThen

/-- Fail here. -/
def fail : Parser α := fun c => ⟨c.position, none⟩

/-- Read by `p`, and by `q` from the same place if `p` fails. -/
def orElse (p q : Parser α) : Parser α := fun c =>
  match p c with
  | ⟨far, none⟩ =>
    let s := q c
    ⟨max far s.furthest, s.outcome⟩
  | s => s

/-- The first of several parsers that succeeds. -/
def choice : List (Parser α) → Parser α
  | [] => fail
  | [p] => p
  | p :: rest => orElse p (choice rest)

/-- Read by `p` if it succeeds, and nothing otherwise. -/
def optional (p : Parser α) : Parser (Option α) := orElse (some <$> p) (pure none)

/-! ## 3. Tokens -/

/-- One token of a class; it fails at that token otherwise. -/
def token (accept : Token → Option α) : Parser α := fun c =>
  match c.rest with
  | [] => ⟨c.position, none⟩
  | l :: rest =>
    match accept l.token with
    | some a => ⟨0, some (a, ⟨rest, c.position + 1, l.span.stop⟩)⟩
    | none => ⟨c.position, none⟩

/-- Exactly the given token. -/
def expect (t : Token) : Parser Unit := token fun u => if u = t then some () else none

/-- A given plain word. -/
def keyword (w : String) : Parser Unit := expect (.word w)

/-- A value together with the source it was read from. -/
def spanned (p : Parser α) : Parser (α × Span) := fun c =>
  match p c with
  | ⟨far, none⟩ => ⟨far, none⟩
  | ⟨far, some (a, c')⟩ =>
    let start := match c.rest with
      | l :: _ => l.span.start
      | [] => c'.lastStop
    ⟨far, some ((a, ⟨start, c'.lastStop⟩), c')⟩

/-! ## 4. Repetition -/

/-- Read by `p` as often as it succeeds, at most `fuel` times. -/
def manyUpTo (p : Parser α) : Nat → Parser (List α)
  | 0 => pure []
  | fuel + 1 =>
    orElse
      (do
        let a ← p
        let rest ← manyUpTo p fuel
        pure (a :: rest))
      (pure [])

/-- Read by `p` as often as it succeeds. `p` takes a token each time, so the
tokens left bound the number of times. -/
def many (p : Parser α) : Parser (List α) := fun c => manyUpTo p (c.rest.length + 1) c

/-- One or more `p`, with `sep` between them and none behind the last. -/
def sepBy1 (p : Parser α) (sep : Parser Unit) : Parser (List α) := do
  let first ← p
  let rest ← many (do sep; p)
  pure (first :: rest)

/-- Any number of `p`, with `sep` between them. -/
def sepBy (p : Parser α) (sep : Parser Unit) : Parser (List α) :=
  orElse (sepBy1 p sep) (pure [])

/-- `p` between two given tokens. -/
def between (opening closing : Token) (p : Parser α) : Parser α := do
  expect opening
  let a ← p
  expect closing
  pure a

/-- Any number of `p` separated by commas. -/
def commaList (p : Parser α) : Parser (List α) := sepBy p (expect .comma)

end Parser

end RangedIR.Source
